import AdaOS.MadtDecode

namespace AdaOS
set_option autoImplicit true
open ByteMem

/-- The array for the record at an offset is not `NULL`. -/
def Storable (t : Mem) (arrays : MadtArray → Nat) (o : Nat) : Prop :=
  ∀ array, madtArray (t o) = some array → arrays array ≠ 0

/-- The records that the loop reads from an offset on. It does not get past one whose array is
`NULL`. -/
inductive RecordRead (t : Mem) (arrays : MadtArray → Nat) (start : Nat) : Nat → Prop
  | first : start < sdtLength t → RecordRead t arrays start start
  | next : RecordRead t arrays start o → Storable t arrays o →
      o + (t (o + 1)).toNat < sdtLength t →
      RecordRead t arrays start (o + (t (o + 1)).toNat)

/-- `parse_madt` gets past every record and finds no address to override. -/
structure MadtParses (t : Mem) (arrays : MadtArray → Nat) : Prop where
  flags : madtFlags t ≠ 0
  records : ∀ o, RecordRead t arrays madtRecordOffset o → t (o + 1) ≠ 0 ∧
    madtArray (t o) ≠ some .localApicAddressOverrides ∧ Storable t arrays o

/-- `n` turns of the loop read only records of `R`. -/
def WalkReads (t : Mem) (arrays : MadtArray → Nat) (R : Nat → Prop) : Nat → Nat → Prop
  | 0, _ => True
  | n + 1, o => o < sdtLength t →
    R o ∧ (Storable t arrays o → WalkReads t arrays R n (o + (t (o + 1)).toNat))

/-- The accesses of `n` turns, newest first. -/
def loopAccesses (t : Mem) : Nat → Madt → List MadtAccess
  | 0, _ => []
  | n + 1, w =>
    if w.offset < sdtLength t then
      loopAccesses t n (madtRecord t w) ++ recordAccesses t w.offset (w.index t)
    else []

variable {t : Mem} {arrays : MadtArray → Nat} {R : Nat → Prop} {w : Madt}

theorem madtLoop_accesses (t : Mem) (n : Nat) (w : Madt) :
    (madtLoop t n w).accesses = loopAccesses t n w ++ w.accesses := by
  induction n generalizing w with
  | zero => rfl
  | succ n ih =>
    rw [madtLoop, loopAccesses]
    split
    · rw [ih, madtRecord_accesses, List.append_assoc]
    · rfl

theorem madtParses_iff : MadtParses t arrays ↔ madtFlags t ≠ 0 ∧
    ∀ o, RecordRead t arrays madtRecordOffset o → (t (o + 1) ≠ 0 ∧
      madtArray (t o) ≠ some .localApicAddressOverrides) ∧ Storable t arrays o := by
  simp only [and_assoc]
  exact ⟨fun h => ⟨h.flags, h.records⟩, fun h => ⟨h.1, h.2⟩⟩

theorem RecordRead.lt (h : RecordRead t arrays start o) : o < sdtLength t := by
  cases h with
  | first h => exact h
  | next _ _ h => exact h

theorem RecordRead.start_lt (h : RecordRead t arrays start o) : start < sdtLength t := by
  induction h with
  | first h => exact h
  | next _ _ _ ih => exact ih

theorem RecordRead.head (h : RecordRead t arrays start o) : o = start ∨
    Storable t arrays start ∧ RecordRead t arrays (start + (t (start + 1)).toNat) o := by
  induction h with
  | first => exact .inl rfl
  | next _ hs hlt ih =>
    rcases ih with rfl | ⟨hstart, hr⟩
    · exact .inr ⟨hs, .first hlt⟩
    · exact .inr ⟨hstart, .next hr hs hlt⟩

theorem RecordRead.tail (hs : Storable t arrays start) (hlt : start < sdtLength t)
    (h : RecordRead t arrays (start + (t (start + 1)).toNat) o) : RecordRead t arrays start o := by
  induction h with
  | first hnext => exact .next (.first hlt) hs hnext
  | next _ hs' hnext ih => exact .next ih hs' hnext

theorem RecordRead.stuck (hz : t (start + 1) = 0) (h : RecordRead t arrays start o) :
    o = start := by
  induction h with
  | first => rfl
  | next _ _ _ ih =>
    rw [ih, hz]
    rfl

theorem walkReads_stuck (hz : t (o + 1) = 0) (hR : R o) (n : Nat) : WalkReads t arrays R n o := by
  induction n with
  | zero => trivial
  | succ n ih =>
    intro _
    refine ⟨hR, fun _ => ?_⟩
    rw [hz]
    exact ih

/-- Turns enough for the rest of the table read every record. -/
theorem walkReads_iff (hn : sdtLength t ≤ o + n) :
    WalkReads t arrays R n o ↔ ∀ o', RecordRead t arrays o o' → R o' := by
  induction n generalizing o with
  | zero => exact ⟨fun _ o' h => absurd h.start_lt (Nat.not_lt.2 hn), fun _ => trivial⟩
  | succ n ih =>
    constructor
    · intro h o' hr
      obtain ⟨hR, hrest⟩ := h hr.start_lt
      rcases hr.head with rfl | ⟨hs, hr⟩
      · exact hR
      · by_cases hz : t (o + 1) = 0
        · rw [hz] at hr
          rw [hr.stuck hz]
          exact hR
        · have hpos : (t (o + 1)).toNat ≠ 0 := fun he => hz (BitVec.eq_of_toNat_eq he)
          exact (ih (by omega)).1 (hrest hs) o' hr
    · intro h hlt
      refine ⟨h o (.first hlt), fun hs => ?_⟩
      by_cases hz : t (o + 1) = 0
      · rw [hz]
        exact walkReads_stuck hz (h o (.first hlt)) n
      · have hpos : (t (o + 1)).toNat ≠ 0 := fun he => hz (BitVec.eq_of_toNat_eq he)
        exact (ih (by omega)).2 fun o' hr => h o' (.tail hs hlt hr)

variable {old : MadtArray → Nat → List (BitVec 8)} {lastType : BitVec 8}

theorem RecordAt.reached_before (h : RecordAt t o i)
    (hend : sdtLength t ≤ (madtLoop t n (Madt.start old lastType)).offset) :
    ∃ m < n, (madtLoop t m (Madt.start old lastType)).offset = o ∧
      (madtLoop t m (Madt.start old lastType)).index t = i := by
  obtain ⟨m, ho, hi⟩ := h.reached old lastType
  refine ⟨m, Nat.lt_of_not_le fun hle => ?_, ho, hi⟩
  rw [← Nat.add_sub_cancel' hle, madtLoop_add, madtLoop_of_done _ hend] at ho
  exact absurd (ho ▸ h.lt) (Nat.not_lt.2 hend)

theorem madtLoop_accesses_iff {P : MadtAccess → Prop}
    (hend : sdtLength t ≤ (madtLoop t n (Madt.start old lastType)).offset) :
    (∀ a ∈ (madtLoop t n (Madt.start old lastType)).accesses, P a) ↔
      ∀ o i, RecordAt t o i → ∀ a ∈ recordAccesses t o i, P a := by
  constructor
  · intro h o i hr a ha
    obtain ⟨m, hm, ho, hi⟩ := hr.reached_before hend
    have hlt : (madtLoop t m (Madt.start old lastType)).offset < sdtLength t := ho ▸ hr.lt
    apply h
    have hsplit : n = m + 1 + (n - (m + 1)) := by omega
    rw [hsplit, madtLoop_add, madtLoop_accesses, madtLoop_add, madtLoop_one hlt,
      madtRecord_accesses, ho, hi]
    exact List.mem_append_right _ (List.mem_append_left _ ha)
  · intro h
    exact (Madt.start_onTrack t old lastType).accesses h (fun _ hno => nomatch hno) n

theorem madtRecord_num (t : Mem) (w : Madt) (array : MadtArray) :
    (madtRecord t w).num array =
      if madtArray (t w.offset) = some array then w.num array + 1 else w.num array := by
  change ((w.enter (t w.offset)).switch t (t w.offset)).num array = _
  rw [Madt.switch]
  cases madtArray (t w.offset) with
  | none => rfl
  | some b =>
    by_cases hb : b = array
    · subst hb
      rw [if_pos rfl]
      exact Function.update_self ..
    · rw [if_neg fun he => hb (Option.some.inj he)]
      exact Function.update_of_ne (Ne.symm hb) ..

theorem madtRecord_num_le (array : MadtArray) (hn : (w.num array).toNat + 1 < 2 ^ 32) :
    (w.num array).toNat ≤ ((madtRecord t w).num array).toNat ∧
      ((madtRecord t w).num array).toNat ≤ (w.num array).toNat + 1 := by
  have hval : (1 : BitVec 32).toNat = 1 := rfl
  rw [madtRecord_num]
  split
  · rw [BitVec.toNat_add, hval]
    omega
  · omega

theorem madtLoop_num_le (array : MadtArray) (hn : (w.num array).toNat + n < 2 ^ 32) :
    (w.num array).toNat ≤ ((madtLoop t n w).num array).toNat ∧
      ((madtLoop t n w).num array).toNat ≤ (w.num array).toNat + n := by
  induction n generalizing w with
  | zero => exact ⟨Nat.le_refl _, Nat.le_refl _⟩
  | succ n ih =>
    rw [madtLoop]
    split
    · obtain ⟨hlo, hhi⟩ := madtRecord_num_le (t := t) (w := w) array (by omega)
      obtain ⟨hlo', hhi'⟩ := ih (w := madtRecord t w) (by omega)
      omega
    · omega

theorem RecordAt.num_pos (h : RecordAt t o i) (ha : madtArray (t o) = some array)
    (hn : n < 2 ^ 32) (hend : sdtLength t ≤ (madtLoop t n (Madt.start old lastType)).offset) :
    0 < ((madtLoop t n (Madt.start old lastType)).num array).toNat := by
  obtain ⟨m, hm, ho, _⟩ := h.reached_before hend
  have hlt : (madtLoop t m (Madt.start old lastType)).offset < sdtLength t := ho ▸ h.lt
  have hzero : ((Madt.start old lastType).num array).toNat = 0 := rfl
  have hbefore := (madtLoop_num_le (t := t) (n := m) (w := Madt.start old lastType) array
    (by omega)).2
  have hone : ((madtRecord t (madtLoop t m (Madt.start old lastType))).num array).toNat =
      ((madtLoop t m (Madt.start old lastType)).num array).toNat + 1 := by
    have hval : (1 : BitVec 32).toNat = 1 := rfl
    rw [madtRecord_num, ho, if_pos ha, BitVec.toNat_add, hval]
    omega
  have hsplit : n = m + (1 + (n - (m + 1))) := by omega
  have hafter := (madtLoop_num_le (t := t) (n := n - (m + 1))
    (w := madtRecord t (madtLoop t m (Madt.start old lastType))) array (by omega)).1
  rw [hsplit, madtLoop_add, madtLoop_add, madtLoop_one hlt]
  omega

theorem Madt.OnTrack.num_eq (h : w.OnTrack t)
    (hno : ∀ o i, RecordAt t o i → madtArray (t o) ≠ some array) (n : Nat) :
    (madtLoop t n w).num array = w.num array := by
  induction n generalizing w with
  | zero => rfl
  | succ n ih =>
    rw [madtLoop]
    split
    · next hlt =>
      rw [ih (h.record hlt), madtRecord_num, if_neg (hno _ _ (h hlt))]
    · rfl

theorem parseMadt_ok_iff (t : Mem) (old : MadtArray → Nat → List (BitVec 8))
    (lastType : BitVec 8) : (∃ w, parseMadt t (Madt.start old lastType) = .ok w) ↔
      madtFlags t ≠ 0 ∧ ∀ o i, RecordAt t o i →
        t (o + 1) ≠ 0 ∧ madtArray (t o) ≠ some .localApicAddressOverrides := by
  rw [parseMadt]
  by_cases hf : madtFlags t = 0
  · rw [if_pos hf]
    constructor
    · rintro ⟨w, hw⟩
      cases hw
    · intro h
      exact absurd hf h.1
  rw [if_neg hf, and_iff_right hf]
  dsimp only
  constructor
  · rintro ⟨w, h₀⟩ o i hr
    split at h₀
    · cases h₀
    next hend =>
    split at h₀
    · cases h₀
    next hnone =>
    refine ⟨fun hz => hend (hr.stuck hz _), fun harray => ?_⟩
    have hsize : sdtLength t < 2 ^ 32 := load_lt t 4 4
    exact hnone (hr.num_pos harray hsize (Nat.not_lt.1 hend))
  · intro h
    have hend := (Madt.start_onTrack t old lastType).progress (fun o i hr => (h o i hr).1)
      (sdtLength t) (Nat.le_add_left _ _)
    have hnum := (Madt.start_onTrack t old lastType).num_eq (fun o i hr => (h o i hr).2)
      (sdtLength t)
    rw [if_neg (Nat.not_lt.2 hend), hnum]
    exact ⟨_, if_neg (BitVec.lt_irrefl 0)⟩

theorem parseMadt_accesses_iff (old : MadtArray → Nat → List (BitVec 8)) (lastType : BitVec 8)
    {P : MadtAccess → Prop} : (∃ w, parseMadt t (Madt.start old lastType) = .ok w) ∧
        (∀ a ∈ (madtLoop t (sdtLength t) (Madt.start old lastType)).accesses, P a) ↔
      madtFlags t ≠ 0 ∧ ∀ o i, RecordAt t o i → (t (o + 1) ≠ 0 ∧
        madtArray (t o) ≠ some .localApicAddressOverrides) ∧ ∀ a ∈ recordAccesses t o i, P a := by
  rw [parseMadt_ok_iff, and_assoc]
  apply and_congr_right
  intro _
  constructor
  · rintro ⟨hrec, hacc⟩ o i hr
    have hend := (Madt.start_onTrack t old lastType).progress (fun o i hr => (hrec o i hr).1)
      (sdtLength t) (Nat.le_add_left _ _)
    exact ⟨hrec o i hr, (madtLoop_accesses_iff hend).1 hacc o i hr⟩
  · intro hall
    exact ⟨fun o i hr => (hall o i hr).1, (Madt.start_onTrack t old lastType).accesses
      (fun o i hr => (hall o i hr).2) (fun _ hno => nomatch hno) _⟩

theorem RecordRead.recordAt (h : RecordRead t arrays madtRecordOffset o) :
    ∃ i, RecordAt t o i := by
  induction h with
  | first h => exact ⟨0, .first h⟩
  | next _ _ hlt ih =>
    obtain ⟨i, hr⟩ := ih
    exact ⟨_, .next hr hlt⟩

theorem RecordAt.read (h : RecordAt t o i)
    (hs : ∀ o', RecordRead t arrays madtRecordOffset o' → Storable t arrays o') :
    RecordRead t arrays madtRecordOffset o := by
  induction h with
  | first h => exact .first h
  | next _ hlt ih => exact .next ih (hs _ ih) hlt

theorem records_iff {P : Nat → Prop} :
    (∀ o i, RecordAt t o i → P o ∧ Storable t arrays o) ↔
      ∀ o, RecordRead t arrays madtRecordOffset o → P o ∧ Storable t arrays o := by
  constructor
  · intro h o hr
    obtain ⟨i, hat⟩ := hr.recordAt
    exact h o i hat
  · intro h o i hat
    exact h o (hat.read fun o' hr => (h o' hr).2)

/-- Where the records that are read can be taken up to their arrays, the walk parses the table if
and only if it gets through it. -/
theorem madtParses_of_taken {P : MadtAccess → Prop} {C : Nat → Prop}
    (htake : ∀ o i, RecordAt t o i →
      ((∀ a ∈ recordAccesses t o i, P a) ↔ C o ∧ Storable t arrays o))
    (hC : ∀ o, RecordRead t arrays madtRecordOffset o → C o) :
    (∃ w, parseMadt t (Madt.start old lastType) = .ok w) ∧
        (∀ a ∈ (madtLoop t (sdtLength t) (Madt.start old lastType)).accesses, P a) ↔
      MadtParses t arrays := by
  rw [parseMadt_accesses_iff, madtParses_iff]
  apply and_congr_right
  intro _
  calc _
    _ ↔ ∀ o i, RecordAt t o i → ((t (o + 1) ≠ 0 ∧
        madtArray (t o) ≠ some .localApicAddressOverrides) ∧ C o) ∧ Storable t arrays o := by
      apply forall₃_congr
      intro o i hr
      rw [htake o i hr, ← and_assoc]
    _ ↔ ∀ o, RecordRead t arrays madtRecordOffset o → ((t (o + 1) ≠ 0 ∧
        madtArray (t o) ≠ some .localApicAddressOverrides) ∧ C o) ∧ Storable t arrays o :=
      records_iff
    _ ↔ _ := by
      apply forall₂_congr
      intro o hr
      rw [and_iff_left (hC o hr)]

section Same
variable {u : Mem} (hlength : sdtLength u = sdtLength t)
  (hsame : ∀ i < sdtLength t, u i = t i)
include hlength hsame

theorem recordRead_congr (hnext : ∀ o, RecordRead t arrays start o → u (o + 1) = t (o + 1)) :
    RecordRead u arrays start o ↔ RecordRead t arrays start o := by
  constructor
  · intro h
    induction h with
    | first h => exact .first (hlength ▸ h)
    | next _ hs hlt ih =>
      rw [Storable, hsame _ ih.lt] at hs
      rw [hnext _ ih] at hlt ⊢
      exact .next ih hs (hlength ▸ hlt)
  · intro h
    induction h with
    | first h => exact .first (hlength ▸ h)
    | next hr hs hlt ih =>
      rw [Storable, ← hsame _ hr.lt] at hs
      rw [← hnext _ hr] at hlt ⊢
      exact .next ih hs (hlength ▸ hlt)

theorem madtParses_congr (hflags : madtFlags u = madtFlags t)
    (hnext : ∀ o, RecordRead t arrays madtRecordOffset o → u (o + 1) = t (o + 1)) :
    MadtParses u arrays ↔ MadtParses t arrays := by
  rw [madtParses_iff, madtParses_iff, hflags]
  apply and_congr_right
  intro _
  apply forall_congr'
  intro o
  rw [recordRead_congr hlength hsame hnext]
  apply forall_congr'
  intro hr
  rw [hnext o hr, hsame o hr.lt, Storable, hsame o hr.lt, ← Storable]

theorem walkReads_congr {S : Nat → Prop} (hR : ∀ o < sdtLength t, S o ↔ R o)
    (hnext : ∀ o < sdtLength t, R o → u (o + 1) = t (o + 1)) (n o : Nat) :
    WalkReads u arrays S n o ↔ WalkReads t arrays R n o := by
  induction n generalizing o with
  | zero => exact Iff.rfl
  | succ n ih =>
    rw [WalkReads, WalkReads, hlength]
    apply forall_congr'
    intro hlt
    rw [hR o hlt, Storable, hsame o hlt, ← Storable]
    apply and_congr_right
    intro hr
    rw [hnext o hlt hr]
    exact forall_congr' fun _ => ih _

end Same

end AdaOS
