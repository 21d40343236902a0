import AdaOS.MadtWalk
import AdaOS.Grouping

namespace AdaOS
set_option autoImplicit true
open ByteMem Grouping

/-- Records of the types 0 to 4 and 9, long enough for their structures, fill the table from an
offset to its end. -/
inductive MadtRecords (t : Mem) : Nat → List (MadtArray × List (BitVec 8)) → Prop
  | done : MadtRecords t (sdtLength t) []
  | record : madtArray (t o) = some array → array ≠ .localApicAddressOverrides →
      2 + array.size ≤ (t (o + 1)).toNat → MadtRecords t (o + (t (o + 1)).toNat) rs →
      MadtRecords t o ((array, readBytes t (o + 2) array.size) :: rs)

/-- The counters and entries are those of the records in table order. -/
def Madt.Decoded (w : Madt) (rs : List (MadtArray × List (BitVec 8))) : Prop :=
  ∀ array, (w.num array).toNat = (valuesOf array rs).length ∧
    ∀ k payload, (valuesOf array rs)[k]? = some payload → w.entries array k = payload

variable {t : Mem} {w : Madt} {rs : List (MadtArray × List (BitVec 8))}

theorem MadtRecords.length_le (h : MadtRecords t o rs) : o + rs.length ≤ sdtLength t := by
  induction h with
  | done => exact Nat.le_refl _
  | record _ _ hl _ ih =>
    rw [List.length_cons]
    omega

theorem MadtRecords.no_overrides (h : MadtRecords t o rs) :
    (rs.map Prod.fst).count .localApicAddressOverrides = 0 := by
  induction h with
  | done => rfl
  | record _ hn _ _ ih => rw [List.map_cons, List.count_cons_of_ne hn, ih]

def MadtArray.type : MadtArray → BitVec 8
  | .localApics => 0
  | .ioApics => 1
  | .ioApicSourceOverrides => 2
  | .ioApicNmiSources => 3
  | .ioApicNmis => 4
  | .localApicAddressOverrides => 5
  | .localX2apics => 9

theorem madtArray_type (h : madtArray type = some array) : type = array.type := by
  unfold madtArray at h
  repeat' split at h
  all_goals first | cases h; assumption | cases h

theorem madtRecord_of_array (h : madtArray (t w.offset) = some array) :
    (madtRecord t w).entries = Function.update w.entries array (Function.update
        (w.entries array) (w.index t) (readBytes t (w.offset + 2) array.size)) ∧
      (madtRecord t w).num = Function.update w.num array (w.num array + 1) := by
  have hs : (w.enter (t w.offset)).switch t (t w.offset) = (w.enter (t w.offset)).add t array := by
    rw [Madt.switch, h]
  constructor
  · exact congrArg Madt.entries hs
  · exact congrArg Madt.num hs

/-- The shared index counts the run of the type that comes next. -/
def Madt.Counts (w : Madt) (before : List MadtArray) : Prop :=
  ∀ type array, madtArray type = some array →
    (if w.lastType ≠ type then 0 else w.i) = runLength array before

theorem Madt.Counts.record (h : w.Counts before) (ha : madtArray (t w.offset) = some array) :
    (madtRecord t w).Counts (before ++ [array]) := by
  intro type array' ha'
  rw [madtRecord_lastType, madtRecord_i]
  by_cases he : t w.offset = type
  · have hi : w.index t = runLength array before := h _ _ ha
    rw [he, ha'] at ha
    cases ha
    rw [if_neg (not_not.2 he), hi, runLength_concat_self]
  · have hne : array ≠ array' := by
      rintro rfl
      exact he ((madtArray_type ha).trans (madtArray_type ha').symm)
    rw [if_pos he, runLength_concat_of_ne hne]

theorem MadtRecords.loop (h : MadtRecords t w.offset rs) (hc : w.Counts before) :
    (madtLoop t rs.length w).offset = sdtLength t ∧
      (madtLoop t rs.length w).entries = place w.entries before rs ∧
      ∀ array, (madtLoop t rs.length w).num array =
        w.num array + BitVec.ofNat 32 ((rs.map Prod.fst).count array) := by
  generalize ho : w.offset = o at h
  induction h generalizing w before with
  | done => exact ⟨ho, rfl, fun _ => (BitVec.add_zero _).symm⟩
  | @record o array rs ha hn hl hrs ih =>
    have hlt : w.offset < sdtLength t := by
      have hle := hrs.length_le
      omega
    subst o
    obtain ⟨hent, hnum⟩ := madtRecord_of_array ha
    obtain ⟨hoff, he, hm⟩ := ih (hc.record ha) (madtRecord_offset t w)
    rw [List.length_cons, Nat.add_comm, madtLoop_add, madtLoop_one hlt]
    refine ⟨hoff, ?_, fun array' => ?_⟩
    · have hi : w.index t = runLength array before := hc _ _ ha
      rw [he, hent, hi]
      rfl
    · rw [hm, hnum, List.map_cons]
      by_cases hx : array' = array
      · rw [hx, Function.update_self, List.count_cons_self, BitVec.add_assoc, BitVec.add_comm 1,
          BitVec.ofNat_add]
        rfl
      · rw [Function.update_of_ne hx, List.count_cons_of_ne (Ne.symm hx)]

theorem MadtRecords.parse (h : MadtRecords t madtRecordOffset rs) (hf : madtFlags t ≠ 0)
    (old : MadtArray → Nat → List (BitVec 8)) (lastType : BitVec 8) :
    ∃ w, parseMadt t (Madt.start old lastType) = .ok w ∧ w.entries = place old [] rs ∧
      ∀ array, (w.num array).toNat = (valuesOf array rs).length := by
  have hc : (Madt.start old lastType).Counts [] := fun _ _ _ => ite_self 0
  have hle := h.length_le
  obtain ⟨ho, he, hn⟩ := MadtRecords.loop (w := Madt.start old lastType) h hc
  have hloop : madtLoop t (sdtLength t) (Madt.start old lastType) =
      madtLoop t rs.length (Madt.start old lastType) := by
    rw [← Nat.add_sub_cancel' (Nat.le_trans (Nat.le_add_left _ _) hle), madtLoop_add,
      madtLoop_of_done _ (Nat.le_of_eq ho.symm)]
  have hcount (array : MadtArray) :
      ((madtLoop t rs.length (Madt.start old lastType)).num array).toNat =
        (rs.map Prod.fst).count array := by
    have hlen : (rs.map Prod.fst).count array ≤ rs.length := by
      have hl := List.count_le_length (a := array) (l := rs.map Prod.fst)
      rwa [List.length_map] at hl
    have hlt : sdtLength t < 2 ^ 32 := load_lt t 4 4
    have hz : (Madt.start old lastType).num array = 0#32 := rfl
    rw [hn, hz, BitVec.zero_add, BitVec.toNat_ofNat]
    exact Nat.mod_eq_of_lt (by omega)
  have hover : ¬ (madtLoop t rs.length (Madt.start old lastType)).num
      .localApicAddressOverrides > 0 := by
    intro hpos
    have hpos : 0 < ((madtLoop t rs.length (Madt.start old lastType)).num
      .localApicAddressOverrides).toNat := hpos
    rw [hcount, h.no_overrides] at hpos
    exact Nat.lt_irrefl 0 hpos
  refine ⟨madtLoop t rs.length (Madt.start old lastType), ?_, he, fun array => ?_⟩
  · rw [parseMadt, if_neg hf, hloop]
    dsimp only
    rw [if_neg (Nat.not_lt.2 (Nat.le_of_eq ho.symm)), if_neg hover]
  · rw [hcount, valuesOf_length]

/-- `parse_madt` decodes a table of well-formed records, whatever the arrays held before, just
when no type comes back after a record of another type. -/
theorem parseMadt_decodes_iff (h : MadtRecords t madtRecordOffset rs) (hf : madtFlags t ≠ 0) :
    (∀ old lastType, ∃ w, parseMadt t (Madt.start old lastType) = .ok w ∧ w.Decoded rs) ↔
      Grouped (rs.map Prod.fst) := by
  rw [← place_iff_grouped]
  constructor
  · intro hd old array k payload hk
    obtain ⟨w, hw, hdec⟩ := hd old 0
    obtain ⟨w', hw', he, -⟩ := h.parse hf old 0
    cases hw.symm.trans hw'
    rw [← he]
    exact (hdec array).2 k payload hk
  · intro hp old lastType
    obtain ⟨w, hw, he, hn⟩ := h.parse hf old lastType
    refine ⟨w, hw, fun array => ⟨hn array, fun k payload hk => ?_⟩⟩
    rw [he]
    exact hp old array k payload hk

def groupedTable : Mem := madtTable 0xdc
  [0, 8, 0, 0, 1, 0, 0, 0, 0, 8, 1, 1, 1, 0, 0, 0, 1, 12, 0, 0, 0, 0, 0xc0, 0xfe, 0, 0, 0, 0]

theorem groupedTable_grouped : Grouped [MadtArray.localApics, .localApics, .ioApics] := by
  have hall : ∀ q ∈ [MadtArray.localApics, .localApics, .ioApics].inits,
      ∀ a ∈ [MadtArray.localApics, .localApics, .ioApics], q.getLast? = some a →
        a ∈ q.dropLast → q.dropLast.getLast? = some a := by decide
  intro d a hp ha
  have hq := hall _ ((List.mem_inits _ _).2 hp) a
    (hp.subset (List.mem_append_right _ (List.mem_singleton_self a))) List.getLast?_concat
  rw [List.dropLast_concat] at hq
  exact hq ha

theorem groupedTable_decoded :
    ∃ w, parseMadt groupedTable (Madt.start (fun _ _ => [0xaa]) 2) = .ok w ∧
      w.Decoded [(.localApics, [0, 0, 1, 0, 0, 0]), (.localApics, [1, 1, 1, 0, 0, 0]),
        (.ioApics, [0, 0, 0, 0, 0xc0, 0xfe, 0, 0, 0, 0])] := by
  have hr : MadtRecords groupedTable madtRecordOffset
      [(.localApics, [0, 0, 1, 0, 0, 0]), (.localApics, [1, 1, 1, 0, 0, 0]),
        (.ioApics, [0, 0, 0, 0, 0xc0, 0xfe, 0, 0, 0, 0])] := by
    apply MadtRecords.record (by decide) (by decide) (by decide)
    apply MadtRecords.record (by decide) (by decide) (by decide)
    apply MadtRecords.record (by decide) (by decide) (by decide)
    exact .done
  exact (parseMadt_decodes_iff hr (by decide)).2 groupedTable_grouped _ _

def mixedTable : Mem := madtTable 0xdc
  [0, 8, 0, 0, 1, 0, 0, 0, 1, 12, 0, 0, 0, 0, 0xc0, 0xfe, 0, 0, 0, 0, 0, 8, 1, 1, 1, 0, 0, 0]

/-- The second local APIC takes the place of the first one. -/
theorem mixedTable_overwritten :
    checksumHeader mixedTable = .ok () ∧ madtFlags mixedTable ≠ 0 ∧
      MadtRecords mixedTable madtRecordOffset [(.localApics, [0, 0, 1, 0, 0, 0]),
        (.ioApics, [0, 0, 0, 0, 0xc0, 0xfe, 0, 0, 0, 0]), (.localApics, [1, 1, 1, 0, 0, 0])] ∧
      ¬ ∃ w, parseMadt mixedTable (Madt.start (fun _ _ => []) 0) = .ok w ∧
        w.Decoded [(.localApics, [0, 0, 1, 0, 0, 0]),
          (.ioApics, [0, 0, 0, 0, 0xc0, 0xfe, 0, 0, 0, 0]), (.localApics, [1, 1, 1, 0, 0, 0])] := by
  have hf : madtFlags mixedTable ≠ 0 := by decide
  have hr : MadtRecords mixedTable madtRecordOffset [(.localApics, [0, 0, 1, 0, 0, 0]),
      (.ioApics, [0, 0, 0, 0, 0xc0, 0xfe, 0, 0, 0, 0]), (.localApics, [1, 1, 1, 0, 0, 0])] := by
    apply MadtRecords.record (by decide) (by decide) (by decide)
    apply MadtRecords.record (by decide) (by decide) (by decide)
    apply MadtRecords.record (by decide) (by decide) (by decide)
    exact .done
  refine ⟨by decide +kernel, hf, hr, ?_⟩
  rintro ⟨w, hw, hd⟩
  obtain ⟨w', hw', he, -⟩ := hr.parse hf (fun _ _ => []) 0
  cases hw.symm.trans hw'
  have hk := (hd .localApics).2 0 [0, 0, 1, 0, 0, 0] rfl
  rw [he] at hk
  exact absurd hk (by decide)

end AdaOS
