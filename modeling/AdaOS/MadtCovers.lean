import AdaOS.AcpiCovers

namespace AdaOS
set_option autoImplicit true
open ByteMem

variable {σ : Type} {A : FrameAllocator σ} {h h' : Heap σ} {k : KernelLayout} {ram t : Mem}
  {g : Nat → Prop} {arrays : MadtArray → Nat}

theorem recordReads_append (ram : Mem) (h : Heap σ) (header : Nat) (arrays : MadtArray → Nat)
    (l l' : List MadtAccess) : AcpiRun.recordReads ram h header arrays (l ++ l') =
      AcpiRun.recordReads ram h header arrays l ++
        if ∀ x ∈ l, h.Allows ram header arrays x then AcpiRun.recordReads ram h header arrays l'
        else [] := by
  induction l with
  | nil =>
    rw [if_pos (List.forall_mem_nil _)]
    rfl
  | cons x l ih =>
    simp only [List.cons_append, AcpiRun.recordReads, List.append_assoc, List.forall_mem_cons, ih]
    congr 1
    by_cases hx : h.Allows ram header arrays x
    · simp only [hx, if_true, true_and]
    · simp only [hx, if_false, false_and, List.nil_append]

theorem forall_mem_ite_nil {α : Type} {l : List α} {P : Prop} [Decidable P] {p : α → Prop} :
    (∀ e ∈ if P then l else [], p e) ↔ (P → ∀ e ∈ l, p e) := by
  split
  · next hP => exact ⟨fun hall _ => hall, fun hall => hall hP⟩
  · next hP => exact iff_of_true (List.forall_mem_nil _) fun h => absurd h hP

theorem recordReads_record (t : Mem) (header o i : Nat) :
    (∀ e ∈ AcpiRun.recordReads ram h header arrays (recordAccesses t o i).reverse, e.Mapped ram) ↔
      h.Allows ram header arrays (.header o) ∧
        ∀ array, madtArray (t o) = some array → h.Allows ram header arrays (.payload o array) := by
  have hfirst : ∀ l, (∀ e ∈ AcpiRun.recordReads ram h header arrays (.header o :: l),
      e.Mapped ram) ↔ h.Allows ram header arrays (.header o) ∧
        ∀ e ∈ AcpiRun.recordReads ram h header arrays l, e.Mapped ram := by
    intro l
    simp only [AcpiRun.recordReads, List.singleton_append, List.forall_mem_cons,
      forall_mem_ite_nil]
    exact and_congr_right fun hheader => forall_prop_of_true hheader
  rw [recordAccesses]
  cases madtArray (t o) with
  | none =>
    refine (hfirst [.typeString (t o)]).trans (and_congr_right fun _ => ?_)
    simp only [AcpiRun.recordReads, List.nil_append, ite_self]
    exact iff_of_true (List.forall_mem_nil _) fun _ hno => (Option.some_ne_none _ hno.symm).elim
  | some array =>
    refine (hfirst [.payload o array, .store array i]).trans (and_congr_right fun _ => ?_)
    simp only [AcpiRun.recordReads, ite_self, List.append_nil, Option.some.injEq, forall_eq']
    exact List.forall_mem_singleton

section Records
variable (hal : h.Aliases A k g) (hp : HhdmPlaced k.higherHalf)
  (hv : 2 ^ 64 - 2 ^ 31 ≤ k.virtualBase) (ha : a < 2 ^ 32)
include hal hp hv ha

theorem Heap.Aliases.record_mapped (ram t : Mem) (arrays : MadtArray → Nat) (ho : o < 2 ^ 32) :
    (h.Allows ram (a + k.higherHalf) arrays (.header o) ∧
      ∀ array, madtArray (t o) = some array →
        h.Allows ram (a + k.higherHalf) arrays (.payload o array)) ↔
      RecordCovered g (t o) (a + o) := by
  have hmapped : ∀ b n, b < 2 ^ 33 + 2 → n ≤ 14 →
      ((∀ i < n, (h.shows ram (b + k.higherHalf + i)).isSome) ↔ Covers g b n) :=
    fun b n hb hn => hal.mapped_iff ram fun i hi => shown_of_lt hp hv (by omega)
  have hheader : h.Allows ram (a + k.higherHalf) arrays (.header o) ↔ Covers g (a + o) 2 := by
    rw [← hmapped _ 2 (by omega) (by decide), Nat.add_right_comm]
    exact Iff.rfl
  have hpayload : ∀ array, h.Allows ram (a + k.higherHalf) arrays (.payload o array) ↔
      Covers g (a + o + 2) array.size := by
    intro array
    have hsize : array.size ≤ 14 := by cases array <;> decide
    rw [← hmapped _ _ (by omega) hsize, Nat.add_right_comm _ 2, Nat.add_right_comm a]
    exact Iff.rfl
  rw [RecordCovered, hheader]
  exact and_congr_right fun _ => forall₂_congr fun array _ => hpayload array

theorem Heap.Aliases.allows_record (ram t : Mem) (arrays : MadtArray → Nat) (i : Nat)
    (ho : o < 2 ^ 32) :
    (∀ x ∈ recordAccesses t o i, h.Allows ram (a + k.higherHalf) arrays x) ↔
      RecordCovered g (t o) (a + o) ∧ Storable t arrays o := by
  rw [← hal.record_mapped hp hv ha ram t arrays ho, recordAccesses, Storable]
  cases madtArray (t o) with
  | none =>
    rw [List.forall_mem_cons, List.forall_mem_singleton]
    simp only [reduceCtorEq, false_imp_iff, implies_true, and_true]
    exact and_iff_right trivial
  | some array =>
    rw [List.forall_mem_cons, List.forall_mem_cons, List.forall_mem_singleton]
    simp only [Option.some.injEq, forall_eq']
    constructor
    · rintro ⟨hstore, hpayload, hheader⟩
      exact ⟨⟨hheader, hpayload⟩, hstore⟩
    · rintro ⟨⟨hheader, hpayload⟩, hstore⟩
      exact ⟨hstore, hpayload, hheader⟩

theorem inMap_loop (t : Mem) (arrays : MadtArray → Nat) (n : Nat) (w : Madt) :
    (∀ e ∈ AcpiRun.recordReads ram h (a + k.higherHalf) arrays (loopAccesses t n w).reverse,
      e.Mapped ram) ↔
      WalkReads t arrays (fun o => RecordCovered g (t o) (a + o)) n w.offset := by
  induction n generalizing w with
  | zero => exact iff_of_true (List.forall_mem_nil _) trivial
  | succ n ih =>
    have hlength : sdtLength t < 2 ^ 32 := load_lt t 4 4
    rw [loopAccesses, WalkReads]
    split
    · next hlt =>
      have ho : w.offset < 2 ^ 32 := Nat.lt_trans hlt hlength
      have hallows := hal.allows_record hp hv ha ram t arrays (w.index t) ho
      rw [List.reverse_append, recordReads_append, List.forall_mem_append, recordReads_record,
        hal.record_mapped hp hv ha ram t arrays ho, forall_prop_of_true hlt]
      apply and_congr_right
      intro hcov
      have hstored : (∀ x ∈ (recordAccesses t w.offset (w.index t)).reverse,
          h.Allows ram (a + k.higherHalf) arrays x) ↔ Storable t arrays w.offset := by
        simp only [List.mem_reverse]
        exact hallows.trans (and_iff_right hcov)
      rw [forall_mem_ite_nil, hstored]
      apply forall_congr'
      intro _
      rw [ih, madtRecord_offset]
    · next hge => exact iff_of_true (List.forall_mem_nil _) fun hlt => absurd hlt hge

end Records

theorem sdtLength_table (ram : Mem) (a : Nat) :
    sdtLength (fun i => ram (a + i)) = load ram (a + 4) 4 :=
  load_shift fun i _ => by rw [Nat.add_assoc]

theorem madtFlags_table (ram : Mem) (a : Nat) :
    madtFlags (fun i => ram (a + i)) = load ram (a + 0x28) 4 :=
  load_shift fun i _ => by rw [Nat.add_assoc]

theorem parseRecords_result_iff (header : Nat) (lastType : BitVec 8) :
    (∃ w, (AcpiRun.parseRecords ram lastType h header arrays).result = .ok (w, h)) ↔
      (∃ w, parseMadt (h.view ram header) (Madt.start (oldEntries h.bytes arrays) lastType) =
        .ok w) ∧ ∀ x ∈ (madtLoop (h.view ram header) (sdtLength (h.view ram header))
          (Madt.start (oldEntries h.bytes arrays) lastType)).accesses,
            h.Allows ram header arrays x := by
  rw [AcpiRun.parseRecords]
  dsimp only
  split
  · next hbad =>
    refine iff_of_false ?_ fun hgood => hbad.2 hgood.2
    rintro ⟨w, h₀⟩
    cases h₀
  · next hgood =>
    constructor
    · rintro ⟨w, h₀⟩
      obtain ⟨w', hw, _⟩ := bind_ok h₀
      have hflags := ((parseMadt_ok_iff _ _ lastType).1 ⟨w', hw⟩).1
      exact ⟨⟨w', hw⟩, not_not.1 fun hno => hgood ⟨hflags, hno⟩⟩
    · rintro ⟨⟨w, hw⟩, _⟩
      exact ⟨w, bind_of_ok hw _⟩

theorem parseRecords_state
    (h₀ : (AcpiRun.parseRecords ram lastType h header arrays).result = .ok (w, h')) : h' = h := by
  rw [AcpiRun.parseRecords] at h₀
  dsimp only at h₀
  split at h₀
  · cases h₀
  · obtain ⟨w', _, h₀⟩ := bind_ok h₀
    cases h₀
    rfl

section Madt
variable (hal : h.Aliases A k g) (hk : k.Regular) (hp : HhdmPlaced k.higherHalf)
  (hv : 2 ^ 64 - 2 ^ 31 ≤ k.virtualBase) (ha : a < 2 ^ 32)
include hal hk hp hv ha

theorem Heap.Aliases.madt_flags (ram : Mem) (hfixed : Covers g (a + 0x24) 8) :
    madtFlags (h.view ram (a + k.higherHalf)) = load ram (a + 0x28) 4 := by
  apply hal.load_view hk (fun i hi => shown_of_lt hp hv (by omega))
  intro i hi
  have hg := hfixed (4 + i) (by omega)
  rwa [← Nat.add_assoc] at hg

theorem Heap.Aliases.madt_next (ho : o < sdtLength fun i => ram (a + i))
    (hr : RecordCovered g (ram (a + o)) (a + o)) :
    h.view ram (a + k.higherHalf) (o + 1) = ram (a + (o + 1)) := by
  have hlt : load ram (a + 4) 4 < 2 ^ 32 := load_lt ram _ 4
  rw [sdtLength_table] at ho
  exact hal.view_eq hk (shown_of_lt hp hv (by omega)) (hr.1 1 (by decide))

variable (hc : TableCovered ram g a)
include hc

theorem Heap.Aliases.madt_length : sdtLength (h.view ram (a + k.higherHalf)) =
    sdtLength fun i => ram (a + i) := by
  rw [hal.sdtLength_covered hk hp hv ha ram hc.1, sdtLength_table]

theorem Heap.Aliases.madt_bytes : ∀ i < sdtLength fun i => ram (a + i),
    h.view ram (a + k.higherHalf) i = ram (a + i) := by
  have hlt : load ram (a + 4) 4 < 2 ^ 32 := load_lt ram _ 4
  intro i hi
  rw [sdtLength_table] at hi
  exact hal.view_eq hk (shown_of_lt hp hv (by omega)) (hc.2 i hi)

theorem inMap_records (arrays : MadtArray → Nat) (w : Madt) :
    (∀ e ∈ AcpiRun.recordReads ram h (a + k.higherHalf) arrays
        (loopAccesses (h.view ram (a + k.higherHalf))
          (sdtLength (h.view ram (a + k.higherHalf))) w).reverse, e.Mapped ram) ↔
      ∀ o, RecordRead (fun i => ram (a + i)) arrays w.offset o →
        RecordCovered g (ram (a + o)) (a + o) := by
  have hlength := hal.madt_length hk hp hv ha hc
  have hbytes := hal.madt_bytes hk hp hv ha hc
  rw [inMap_loop hal hp hv ha, hlength]
  refine Iff.trans ?_ (walkReads_iff (Nat.le_add_left _ _))
  apply walkReads_congr hlength hbytes
  · intro o ho
    rw [hbytes o ho]
  · intro o ho
    exact hal.madt_next hk hp hv ha ho

theorem inMap_parseRecords (hfixed : Covers g (a + 0x24) 8) (lastType : BitVec 8)
    (arrays : MadtArray → Nat) :
    AcpiRun.InMap ram (AcpiRun.parseRecords ram lastType h (a + k.higherHalf) arrays) ↔
      (load ram (a + 0x28) 4 ≠ 0 →
        ∀ o, RecordRead (fun i => ram (a + i)) arrays madtRecordOffset o →
          RecordCovered g (ram (a + o)) (a + o)) := by
  rw [← hal.madt_flags hk hp hv ha ram hfixed, AcpiRun.InMap, Traced.All, AcpiRun.parseRecords]
  dsimp only
  split
  · next hzero => exact iff_of_true (List.forall_mem_nil _) fun hne => absurd hzero hne
  · next hne =>
    have hlength : AcpiEvent.Mapped ram (.read h (a + k.higherHalf + 4) 4) := by
      rw [Nat.add_right_comm]
      exact (hal.mapped_iff ram fun i hi => shown_of_lt hp hv (by omega)).2 hc.1
    rw [forall_prop_of_true hne, List.forall_mem_cons, and_iff_right hlength, madtLoop_accesses]
    refine Iff.trans ?_ (inMap_records hal hk hp hv ha hc arrays
      (Madt.start (oldEntries h.bytes arrays) lastType))
    rw [show (Madt.start (oldEntries h.bytes arrays) lastType).accesses = [] from rfl,
      List.append_nil]

/-- It comes to its end if and only if every record can be taken. -/
theorem Heap.Aliases.parseRecords_iff (hfixed : Covers g (a + 0x24) 8) (lastType : BitVec 8)
    (hrec : load ram (a + 0x28) 4 ≠ 0 →
        ∀ o, RecordRead (fun i => ram (a + i)) arrays madtRecordOffset o →
          RecordCovered g (ram (a + o)) (a + o)) :
    (∃ w, (AcpiRun.parseRecords ram lastType h (a + k.higherHalf) arrays).result = .ok (w, h)) ↔
      MadtParses (fun i => ram (a + i)) arrays := by
  have hlength := hal.madt_length hk hp hv ha hc
  have hbytes := hal.madt_bytes hk hp hv ha hc
  have hsize : sdtLength (h.view ram (a + k.higherHalf)) < 2 ^ 32 := load_lt _ 4 4
  have hflags := hal.madt_flags hk hp hv ha ram hfixed
  rw [← madtFlags_table] at hflags hrec
  rw [parseRecords_result_iff]
  by_cases hzero : madtFlags (fun i => ram (a + i)) = 0
  · refine iff_of_false ?_ fun hparses => hparses.flags hzero
    rintro ⟨hok, _⟩
    exact ((parseMadt_ok_iff _ _ lastType).1 hok).1 (hflags.trans hzero)
  · have hnext : ∀ o, RecordRead (fun i => ram (a + i)) arrays madtRecordOffset o →
        h.view ram (a + k.higherHalf) (o + 1) = ram (a + (o + 1)) := fun o hr =>
      hal.madt_next hk hp hv ha hr.lt (hrec hzero o hr)
    rw [← madtParses_congr hlength hbytes hflags hnext]
    apply madtParses_of_taken (C := fun o =>
      RecordCovered g (h.view ram (a + k.higherHalf) o) (a + o))
    · intro o i hr
      exact hal.allows_record hp hv ha ram _ arrays i (Nat.lt_trans hr.lt hsize)
    · intro o hr
      have hr' := (recordRead_congr hlength hbytes hnext).1 hr
      rw [hbytes o hr'.lt]
      exact hrec hzero o hr'

omit hv ha hc in
theorem Heap.Aliases.kmallocArrays (h₀ : kmallocArrays A size l arrays h = .ok (arrays', h')) :
    h'.Aliases A k g := by
  induction l generalizing arrays h with
  | nil =>
    cases h₀
    exact hal
  | cons b l ih =>
    obtain ⟨⟨p, h₁⟩, hmalloc, h₀⟩ := bind_ok h₀
    exact ih (hal.kept hk hp (kmalloc_keepsBacked hmalloc)) h₀

/-- The arrays are allocated, and something is done with them. -/
theorem inMap_allocArrays {f : (MadtArray → Nat) × Heap σ → AcpiRun σ α} (l : List MadtArray)
    (arrays : MadtArray → Nat) :
    AcpiRun.InMap ram (AcpiRun.allocArrays A ram (a + k.higherHalf) l arrays h >>= f) ↔
      ∀ arrays' h', kmallocArrays A (load ram (a + 4) 4) l arrays h = .ok (arrays', h') →
        AcpiRun.InMap ram (f (arrays', h')) := by
  induction l generalizing arrays h with
  | nil =>
    rw [AcpiRun.allocArrays, pure_bind]
    constructor
    · intro hf arrays' h' h₀
      cases h₀
      exact hf
    · intro hf
      exact hf arrays h rfl
  | cons b l ih =>
    have hs : ∀ i < 4, k.Shown (a + 4 + i) := fun i hi => shown_of_lt hp hv (by omega)
    rw [AcpiRun.allocArrays, bind_assoc, Nat.add_right_comm]
    refine Iff.trans ?_ (and_iff_right hc.1)
    apply Traced.all_bind_of_ok (inMap_loadAt hal hs) (hal.loadAt_ok hk hs)
    intro _
    rw [bind_assoc, Traced.all_bind_of_all (Traced.all_call _ _) rfl, Prod.forall]
    constructor
    · intro hall arrays' h' h₀
      obtain ⟨⟨p, h₁⟩, hmalloc, h₀⟩ := bind_ok h₀
      have hal₁ := hal.kept hk hp (kmalloc_keepsBacked hmalloc)
      have hrest := hall p h₁ hmalloc
      exact (ih hal₁ _).1 hrest arrays' h' h₀
    · intro hall p h₁ hmalloc
      have hal₁ := hal.kept hk hp (kmalloc_keepsBacked hmalloc)
      refine (ih hal₁ _).2 fun arrays' h' h₀ => hall arrays' h' ?_
      exact (bind_of_ok hmalloc _).trans h₀

/-- `parse_madt` and what is done behind it. -/
theorem inMap_parseMadtAt {f : Madt × Heap σ → AcpiRun σ α} {next : Heap σ → Prop}
    (lastType : BitVec 8) (hnext : ∀ w (h' : Heap σ), h'.Aliases A k g →
      (AcpiRun.InMap ram (f (w, h')) ↔ next h')) :
    AcpiRun.InMap ram (AcpiRun.parseMadtAt A ram lastType h (a + k.higherHalf) >>= f) ↔
      ∀ arrays h', kmallocArrays A (load ram (a + 4) 4) madtArrays (fun _ => 0) h =
          .ok (arrays, h') →
        MadtCovered ram g arrays a ∧ (MadtParses (fun i => ram (a + i)) arrays → next h') := by
  have hs : ∀ i < 8, k.Shown (a + 0x24 + i) := fun i hi => shown_of_lt hp hv (by omega)
  rw [AcpiRun.parseMadtAt, bind_assoc, AcpiRun.InMap, Traced.all_emit_bind, bind_assoc]
  refine (and_iff_right trivial).trans ((inMap_allocArrays hal hk hp hv ha hc _ _).trans ?_)
  apply forall₂_congr
  intro arrays h'
  apply forall_congr'
  intro hmalloc
  have hal' := hal.kmallocArrays hk hp hmalloc
  dsimp only
  rw [MadtCovered, and_assoc, bind_assoc, Nat.add_right_comm]
  apply Traced.all_bind_of_ok (inMap_reads hal' hs) (hal'.reads_ok ram hs)
  intro hfixed
  rw [Traced.all_bind]
  have hloop := inMap_parseRecords hal' hk hp hv ha hc hfixed lastType arrays
  refine (and_congr_left' hloop).trans (and_congr_right ?_)
  intro hrec
  rw [← hal'.parseRecords_iff hk hp hv ha hc hfixed lastType hrec]
  constructor
  · rintro hall ⟨w, hw⟩
    exact (hnext w h' hal').1 (hall _ hw)
  · rintro hall ⟨w, h₁⟩ hw
    obtain rfl := parseRecords_state hw
    exact (hnext w h₁ hal').2 (hall ⟨w, hw⟩)

end Madt

end AdaOS
