import AdaOS.BootMap
import AdaOS.MadtReads

namespace AdaOS
set_option autoImplicit true
open ByteMem Grouping

/-- The types of the first `n` records from an offset on, with the structures of the IO APICs. -/
def madtRecords (t : Mem) : Nat → Nat → List (BitVec 8 × List (BitVec 8))
  | 0, _ => []
  | n + 1, o =>
    if o < sdtLength t then
      (t o, if t o = 1 then readBytes t (o + 2) 10 else []) ::
        madtRecords t n (o + (t (o + 1)).toNat)
    else []

/-- The addresses of the IO APICs, by the bytes of the MADT and those that the new array holds: a
record goes to the index that counts the records of its type directly before it. -/
def ioApicAddresses (t : Mem) (old : Nat → List (BitVec 8)) : List Nat :=
  let records := madtRecords t (sdtLength t) madtRecordOffset
  (List.range ((records.map Prod.fst).count 1)).map fun j =>
    field (place (fun _ => old) [] records 1 j) 2 4

/-- The shared index counts the run of the type that comes next, whatever the type. -/
def Madt.Runs (w : Madt) (before : List (BitVec 8)) : Prop :=
  ∀ type, (if w.lastType ≠ type then 0 else w.i) = runLength type before

variable {t u : Mem} {w : Madt} {before : List (BitVec 8)}
  {E : BitVec 8 → Nat → List (BitVec 8)}

theorem madtArray_ioApics : madtArray type = some .ioApics ↔ type = 1 := by
  constructor
  · exact madtArray_type
  · rintro rfl
    rfl

theorem madtRecord_ioApics (t : Mem) (w : Madt) : (madtRecord t w).entries .ioApics =
    if t w.offset = 1 then
      Function.update (w.entries .ioApics) (w.index t) (readBytes t (w.offset + 2) 10)
    else w.entries .ioApics := by
  change ((w.enter (t w.offset)).switch t (t w.offset)).entries .ioApics = _
  rw [Madt.switch]
  cases harray : madtArray (t w.offset) with
  | none =>
    rw [if_neg]
    · rfl
    · intro hone
      rw [madtArray_ioApics.2 hone] at harray
      cases harray
  | some array =>
    by_cases hone : t w.offset = 1
    · rw [madtArray_ioApics.2 hone] at harray
      cases harray
      rw [if_pos hone]
      exact Function.update_self MadtArray.ioApics _ w.entries
    · rw [if_neg hone]
      have hother : MadtArray.ioApics ≠ array := by
        rintro rfl
        exact hone (madtArray_ioApics.1 harray)
      exact Function.update_of_ne hother _ w.entries

theorem Madt.Runs.record (h : w.Runs before) :
    (madtRecord t w).Runs (before ++ [t w.offset]) := by
  intro type
  rw [madtRecord_lastType, madtRecord_i]
  by_cases he : t w.offset = type
  · have hi : w.index t = runLength (t w.offset) before := h _
    rw [if_neg (not_not.2 he), hi, he, runLength_concat_self]
  · rw [if_pos he, runLength_concat_of_ne he]

/-- The record loop puts the IO APICs into their array and counts them. -/
theorem Madt.Runs.loop (h : w.Runs before) (hE : E 1 = w.entries .ioApics) (n : Nat) :
    (madtLoop t n w).entries .ioApics = place E before (madtRecords t n w.offset) 1 ∧
      (madtLoop t n w).num .ioApics = w.num .ioApics +
        BitVec.ofNat 32 (((madtRecords t n w.offset).map Prod.fst).count 1) := by
  induction n generalizing w before E with
  | zero => exact ⟨hE.symm, (BitVec.add_zero _).symm⟩
  | succ n ih =>
    rw [madtLoop, madtRecords]
    split
    · have hi : w.index t = runLength (t w.offset) before := h _
      have hent := madtRecord_ioApics t w
      have hnum := madtRecord_num t w .ioApics
      have hrest := ih (h.record (t := t)) (E := Function.update E (t w.offset)
        (Function.update (E (t w.offset)) (runLength (t w.offset) before)
          (if t w.offset = 1 then readBytes t (w.offset + 2) 10 else []))) ?_
      · rw [madtRecord_offset] at hrest
        refine ⟨hrest.1, ?_⟩
        rw [hrest.2, hnum, List.map_cons]
        by_cases hone : t w.offset = 1
        · rw [if_pos (madtArray_ioApics.2 hone), hone, List.count_cons_self, BitVec.add_assoc,
            BitVec.add_comm 1, BitVec.ofNat_add]
          rfl
        · rw [if_neg fun he => hone (madtArray_ioApics.1 he), List.count_cons_of_ne hone]
      · rw [hent]
        by_cases hone : t w.offset = 1
        · rw [if_pos hone, if_pos hone, hi, hone, Function.update_self, hE]
        · rw [if_neg hone, if_neg hone, Function.update_of_ne (Ne.symm hone), hE]
    · exact ⟨hE.symm, (BitVec.add_zero _).symm⟩

theorem madtRecords_length_le (t : Mem) (n o : Nat) : (madtRecords t n o).length ≤ n := by
  induction n generalizing o with
  | zero => exact Nat.le_refl _
  | succ n ih =>
    rw [madtRecords]
    split
    · exact Nat.succ_le_succ (ih _)
    · exact Nat.zero_le _

/-- What `parse_madt` finds depends on the bytes of the table and of the new array. -/
theorem parseMadt_windows (h₀ : parseMadt t (Madt.start old lastType) = .ok w) :
    w.ioApicWindows = ioApicAddresses t (old .ioApics) := by
  have hruns : (Madt.start old lastType).Runs [] := fun _ => ite_self 0
  obtain ⟨hent, hnum⟩ := hruns.loop (t := t) (E := fun _ => old .ioApics) rfl (sdtLength t)
  have hcount : (((madtRecords t (sdtLength t) madtRecordOffset).map Prod.fst).count 1) <
      2 ^ 32 := by
    have hle := List.count_le_length (a := (1 : BitVec 8))
      (l := (madtRecords t (sdtLength t) madtRecordOffset).map Prod.fst)
    rw [List.length_map] at hle
    exact Nat.lt_of_le_of_lt (hle.trans (madtRecords_length_le ..)) (load_lt t 4 4)
  have hzero : (Madt.start old lastType).num .ioApics = 0#32 := rfl
  have hoff : (Madt.start old lastType).offset = madtRecordOffset := rfl
  rw [hoff] at hent hnum
  rw [hzero, BitVec.zero_add] at hnum
  rw [parseMadt] at h₀
  split at h₀
  · cases h₀
  dsimp only at h₀
  split at h₀
  · cases h₀
  split at h₀
  · cases h₀
  cases h₀
  rw [Madt.ioApicWindows, Madt.windowsFrom, hent, hnum, BitVec.toNat_ofNat,
    Nat.mod_eq_of_lt hcount, ← List.range_eq_range']
  rfl

theorem madtRecords_congr (hlength : sdtLength u = sdtLength t)
    (hsame : ∀ o i, RecordAt u o i → u o = t o ∧ u (o + 1) = t (o + 1) ∧
      (u o = 1 → readBytes u (o + 2) 10 = readBytes t (o + 2) 10)) (n : Nat)
    (ho : o < sdtLength u → ∃ i, RecordAt u o i) :
    madtRecords u n o = madtRecords t n o := by
  induction n generalizing o with
  | zero => rfl
  | succ n ih =>
    rw [madtRecords, madtRecords, ← hlength]
    split
    · next hlt =>
      obtain ⟨i, hat⟩ := ho hlt
      obtain ⟨htype, hnext, hpayload⟩ := hsame o i hat
      rw [ih fun hlt' => ⟨_, .next hat hlt'⟩, hnext, ← htype]
      congr 2
      split
      · next hone => exact hpayload hone
      · rfl
    · rfl

theorem ioApicAddresses_congr (hlength : sdtLength u = sdtLength t)
    (hsame : ∀ o i, RecordAt u o i → u o = t o ∧ u (o + 1) = t (o + 1) ∧
      (u o = 1 → readBytes u (o + 2) 10 = readBytes t (o + 2) 10))
    (old : Nat → List (BitVec 8)) : ioApicAddresses u old = ioApicAddresses t old := by
  rw [ioApicAddresses, ioApicAddresses, hlength,
    madtRecords_congr hlength hsame _ fun hlt => ⟨0, .first hlt⟩]

end AdaOS
