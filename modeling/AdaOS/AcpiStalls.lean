import AdaOS.MadtCovers
import AdaOS.PrintfSinks

namespace AdaOS
set_option autoImplicit true
open ByteMem

def Heap.InOrder (A : FrameAllocator σ) (h : Heap σ) : Prop := ∃ live l, HeapInv A h live l

section Conditions
variable {σ : Type} (A : FrameAllocator σ) (ram : Mem) (higherHalf : Nat)

/-- `n` entries of the RSDT from the one at index `i` on can be searched up to the first table with
the signature, which there is, and `next` holds of it. -/
def SearchMeets (rsdt : Nat) (signature : String)
    (next : (Nat → Prop) → Heap σ → Nat → Prop) (i : Nat) :
    Nat → (Nat → Prop) → Heap σ → Prop
  | 0, _, _ => False
  | n + 1, g, h =>
    let t := rsdtEntry ram rsdt i
    Covers g (rsdt + 36 + i * 4) 4 ∧
      ∃ mapped h', h.mapDirect A higherHalf t acpiFlags = .ok (mapped, h') ∧
        ComparedCovered ram (withPage g mapped t) t (cString signature) 0 4 ∧
          if HasSignature ram signature t then next (withPage g mapped t) h' t
          else SearchMeets rsdt signature next (i + 1) n (withPage g mapped t) h'

/-- Every record that the loop comes to can be read and stored, and one of them has length zero. -/
def RecordsStall (g : Nat → Prop) (arrays : MadtArray → Nat) (madt : Nat) : Prop :=
  (∀ o, RecordRead (fun i => ram (madt + i)) arrays madtRecordOffset o →
    RecordCovered g (ram (madt + o)) (madt + o) ∧ Storable (fun i => ram (madt + i)) arrays o) ∧
  ∃ o, RecordRead (fun i => ram (madt + i)) arrays madtRecordOffset o ∧ ram (madt + (o + 1)) = 0

end Conditions

variable {σ : Type} {A : FrameAllocator σ} {h h' : Heap σ} {k : KernelLayout} {ram : Mem}
  {g : Nat → Prop} {arrays : MadtArray → Nat}

section Ends

theorem ends_reads (virt n : Nat) : Ends (h.reads ram virt n) := by
  rw [Heap.reads]
  split
  · exact .ok _
  · exact .outOfBounds

theorem ends_loadAt (virt n : Nat) : Ends (h.loadAt ram virt n) :=
  (ends_reads virt n).bind fun _ _ => .ok _

variable (hA : A.Ends)
include hA

theorem Heap.InOrder.ends_kmalloc (hi : h.InOrder A) (size : Nat) : Ends (kmalloc A h size) := by
  obtain ⟨live, l, hi⟩ := hi
  intro hd
  rcases hi.kmalloc_error hd with hno | ⟨s, hs⟩
  · cases hno
  · exact hA s hs

end Ends

theorem Heap.InOrder.mapDirect (hi : h.InOrder A)
    (h₀ : h.mapDirect A higherHalf phys flags = .ok (r, h')) : h'.InOrder A := by
  obtain ⟨live, l, hi⟩ := hi
  obtain ⟨⟨r, v⟩, hm, h₀⟩ := bind_ok h₀
  cases h₀
  have hpages : PagesMapped A (h.heapStart + h.heapSize) h { h with vmm := v } :=
    ⟨rfl, rfl, rfl, mapPage_inUse hm, fun _ _ => rfl⟩
  exact ⟨live, l, (hi.mapped hpages).1⟩

theorem Heap.InOrder.kmalloc (hi : h.InOrder A) (h₀ : kmalloc A h size = .ok (p, h'))
    (hle : size ≤ 2 ^ 64 - 32) : h'.InOrder A := by
  obtain ⟨live, l, hi⟩ := hi
  obtain ⟨⟨l', hi'⟩, _⟩ := hi.of_kmalloc h₀ hle
  exact ⟨_, l', hi'⟩

section Reads
variable (hal : h.Aliases A k g)
include hal

theorem Heap.Aliases.reads_ok_iff (ram : Mem) (hs : ∀ i < n, k.Shown (a + i)) :
    h.reads ram (a + k.higherHalf) n = .ok () ↔ Covers g a n := by
  rw [← hal.mapped_iff ram hs, Heap.reads]
  split
  · next hall => exact iff_of_true rfl hall
  · next hno =>
    refine iff_of_false ?_ hno
    rintro ⟨⟩

variable (hk : k.Regular)
include hk

theorem Heap.Aliases.compared (s : Nat → BitVec 8) (hs : ∀ j < i + n, k.Shown (a + j))
    (h₀ : h.memcmpAt ram (a + k.higherHalf) s i n = .ok r) : ComparedCovered ram g a s i n := by
  induction n generalizing i with
  | zero => trivial
  | succ n ih =>
    have hi := hs i (by omega)
    rw [Heap.memcmpAt, Nat.add_right_comm] at h₀
    cases hb : h.shows ram (a + i + k.higherHalf) with
    | none =>
      rw [hb] at h₀
      cases h₀
    | some b =>
      have hg : g (a + i) := (hal.shows_iff ram hi).1 (hb ▸ rfl)
      rw [hal.shows_eq hk ram hi hg] at h₀
      refine ⟨hg, fun heq => ih (fun j hj => hs j (by omega)) ?_⟩
      dsimp only at h₀
      rwa [if_neg (not_not.2 heq)] at h₀

end Reads

section Checks
variable (hal : h.Aliases A k g) (hk : k.Regular) (hp : HhdmPlaced k.higherHalf)
  (hv : 2 ^ 64 - 2 ^ 31 ≤ k.virtualBase) (ha : a < 2 ^ 32)
include hal hk hp hv ha

end Checks

section Search
variable (hal : h.Aliases A k g) (hi : h.InOrder A) (hk : k.Regular)
  (hp : HhdmPlaced k.higherHalf) (hv : 2 ^ 64 - 2 ^ 31 ≤ k.virtualBase)
include hal hi hk hp hv

end Search

section Records
variable (hal : h.Aliases A k g) (hk : k.Regular) (hp : HhdmPlaced k.higherHalf)
  (hv : 2 ^ 64 - 2 ^ 31 ≤ k.virtualBase) (ha : a < 2 ^ 32)
include hal hp hv ha

theorem Heap.Aliases.allows_loop (t : Mem) (arrays : MadtArray → Nat) (n : Nat) (w : Madt) :
    (∀ x ∈ loopAccesses t n w, h.Allows ram (a + k.higherHalf) arrays x) ↔
      WalkReads t arrays (fun o => RecordCovered g (t o) (a + o) ∧ Storable t arrays o) n
        w.offset := by
  induction n generalizing w with
  | zero => exact iff_of_true (List.forall_mem_nil _) trivial
  | succ n ih =>
    have hlength : sdtLength t < 2 ^ 32 := load_lt t 4 4
    rw [loopAccesses, WalkReads]
    split
    · next hlt =>
      have ho : w.offset < 2 ^ 32 := Nat.lt_trans hlt hlength
      rw [List.forall_mem_append, ih, madtRecord_offset, and_comm,
        hal.allows_record hp hv ha ram t arrays (w.index t) ho, forall_prop_of_true hlt]
      exact and_congr_right fun hrec => ⟨fun hw _ => hw, fun hw => hw hrec.2⟩
    · next hge => exact iff_of_true (List.forall_mem_nil _) fun hlt => absurd hlt hge

include hk

variable (hc : TableCovered ram g a)
include hc

/-- The loop stalls at a record of length zero, all records up to there being in order. -/
theorem Heap.Aliases.records_stall_iff (arrays : MadtArray → Nat) :
    ((∀ o, RecordRead (h.view ram (a + k.higherHalf)) arrays madtRecordOffset o →
        RecordCovered g (h.view ram (a + k.higherHalf) o) (a + o) ∧
          Storable (h.view ram (a + k.higherHalf)) arrays o) ∧
      ∃ o i, RecordAt (h.view ram (a + k.higherHalf)) o i ∧
        h.view ram (a + k.higherHalf) (o + 1) = 0) ↔ RecordsStall ram g arrays a := by
  have hlength := hal.madt_length hk hp hv ha hc
  have hbytes := hal.madt_bytes hk hp hv ha hc
  have hnext : ∀ o < sdtLength fun i => ram (a + i), RecordCovered g (ram (a + o)) (a + o) →
      h.view ram (a + k.higherHalf) (o + 1) = ram (a + (o + 1)) :=
    fun o ho hr => hal.madt_next hk hp hv ha ho hr
  have hreads : ((∀ o, RecordRead (h.view ram (a + k.higherHalf)) arrays madtRecordOffset o →
        RecordCovered g (h.view ram (a + k.higherHalf) o) (a + o) ∧
          Storable (h.view ram (a + k.higherHalf)) arrays o)) ↔
      ∀ o, RecordRead (fun i => ram (a + i)) arrays madtRecordOffset o →
        RecordCovered g (ram (a + o)) (a + o) ∧ Storable (fun i => ram (a + i)) arrays o := by
    rw [← walkReads_iff (Nat.le_add_left (sdtLength (h.view ram (a + k.higherHalf))) _),
      ← walkReads_iff (Nat.le_add_left (sdtLength fun i => ram (a + i)) _), hlength]
    apply walkReads_congr hlength hbytes
    · intro o ho
      rw [Storable, hbytes o ho]
      exact Iff.rfl
    · intro o ho hr
      exact hnext o ho hr.1
  rw [RecordsStall, hreads]
  apply and_congr_right
  intro hall
  have hsame : ∀ o, RecordRead (h.view ram (a + k.higherHalf)) arrays madtRecordOffset o ↔
      RecordRead (fun i => ram (a + i)) arrays madtRecordOffset o := fun o =>
    recordRead_congr hlength hbytes fun o hr => hnext o hr.lt (hall o hr).1
  constructor
  · rintro ⟨o, i, hat, hzero⟩
    have hr := (hsame o).1 (hat.read fun o' hr' => (hreads.2 hall o' hr').2)
    exact ⟨o, hr, (hnext o hr.lt (hall o hr).1).symm.trans hzero⟩
  · rintro ⟨o, hr, hzero⟩
    obtain ⟨i, hat⟩ := ((hsame o).2 hr).recordAt
    exact ⟨o, i, hat, (hnext o hr.lt (hall o hr).1).trans hzero⟩

/-- The record loop goes on for ever if and only if the records hold it up. -/
theorem Heap.Aliases.parse_diverges_iff (hfixed : Covers g (a + 0x24) 8) (lastType : BitVec 8)
    (arrays : MadtArray → Nat) :
    (AcpiRun.parseRecords ram lastType h (a + k.higherHalf) arrays).result = .error .diverges ↔
      load ram (a + 0x28) 4 ≠ 0 ∧ RecordsStall ram g arrays a := by
  have hflags := hal.madt_flags hk hp hv ha ram hfixed
  have hallows : (∀ x ∈ (madtLoop (h.view ram (a + k.higherHalf))
      (sdtLength (h.view ram (a + k.higherHalf)))
      (Madt.start (oldEntries h.bytes arrays) lastType)).accesses,
        h.Allows ram (a + k.higherHalf) arrays x) ↔
      ∀ o, RecordRead (h.view ram (a + k.higherHalf)) arrays madtRecordOffset o →
        RecordCovered g (h.view ram (a + k.higherHalf) o) (a + o) ∧
          Storable (h.view ram (a + k.higherHalf)) arrays o := by
    rw [madtLoop_accesses, show (Madt.start (oldEntries h.bytes arrays) lastType).accesses = []
      from rfl, List.append_nil, hal.allows_loop hp hv ha,
      walkReads_iff (Nat.le_add_left _ _)]
    exact Iff.rfl
  rw [← hal.records_stall_iff hk hp hv ha hc, ← hallows, ← hflags, AcpiRun.parseRecords]
  dsimp only
  split
  · next hbad =>
    refine iff_of_false (by rintro ⟨⟩) ?_
    rintro ⟨_, hall, _⟩
    exact hbad.2 hall
  · next hgood =>
    rw [Ends.bind_diverges_left fun _ => .ok _, parseMadt_diverges_iff]
    apply and_congr_right
    intro hne
    exact (and_iff_right (not_not.1 fun hno => hgood ⟨hne, hno⟩)).symm

end Records

section Madt
variable (hal : h.Aliases A k g) (hi : h.InOrder A) (hA : A.Ends) (hk : k.Regular)
  (hp : HhdmPlaced k.higherHalf) (hv : 2 ^ 64 - 2 ^ 31 ≤ k.virtualBase) (ha : a < 2 ^ 32)
include hal hi hA hk hp hv ha

omit hv ha in
theorem Heap.Aliases.ends_allocArrays (l : List MadtArray) (arrays : MadtArray → Nat) :
    Ends (allocArrays A ram (a + k.higherHalf) l arrays h) := by
  induction l generalizing arrays h with
  | nil => exact .ok _
  | cons b l ih =>
    apply (ends_loadAt _ _).bind
    intro length hlength
    apply (hi.ends_kmalloc hA length).bind
    rintro ⟨p, h'⟩ hmalloc
    have hlt : length < 2 ^ 32 := Heap.loadAt_lt hlength
    exact ih (hal.kept hk hp (kmalloc_keepsBacked hmalloc)) (hi.kmalloc hmalloc (by omega)) _

omit hi hA in
theorem Heap.Aliases.allocArrays_eq (hc : Covers g (a + 4) 4) (l : List MadtArray)
    (arrays : MadtArray → Nat) : allocArrays A ram (a + k.higherHalf) l arrays h =
      AdaOS.kmallocArrays A (load ram (a + 4) 4) l arrays h := by
  induction l generalizing arrays h with
  | nil => rfl
  | cons b l ih =>
    have hs : ∀ i < 4, k.Shown (a + 4 + i) := fun i hi => shown_of_lt hp hv (by omega)
    rw [allocArrays, Nat.add_right_comm, bind_of_ok (hal.loadAt_ok hk hs hc), AdaOS.kmallocArrays]
    apply bind_congr_ok
    rintro ⟨p, h'⟩ hmalloc
    exact ih (hal.kept hk hp (kmalloc_keepsBacked hmalloc)) _

theorem Heap.Aliases.parseMadt_diverges_iff (hc : TableCovered ram g a) (lastType : BitVec 8) :
    parseMadtAt A ram lastType h (a + k.higherHalf) = .error .diverges ↔
      ∃ arrays h', AdaOS.kmallocArrays A (load ram (a + 4) 4) madtArrays (fun _ => 0) h =
          .ok (arrays, h') ∧
        Covers g (a + 0x24) 8 ∧ load ram (a + 0x28) 4 ≠ 0 ∧ RecordsStall ram g arrays a := by
  have hs : ∀ i < 8, k.Shown (a + 0x24 + i) := fun i hi => shown_of_lt hp hv (by omega)
  rw [parseMadtAt, Ends.bind_diverges (hal.ends_allocArrays hi hA hk hp _ _), Prod.exists,
    hal.allocArrays_eq hk hp hv ha hc.1]
  refine exists_congr fun arrays => exists_congr fun h' => and_congr_right fun hmalloc => ?_
  have hal' := hal.kmallocArrays hk hp hmalloc
  dsimp only
  rw [Ends.bind_diverges (ends_reads _ _), Nat.add_right_comm]
  constructor
  · rintro ⟨_, hreads, hrest⟩
    have hfixed := (hal'.reads_ok_iff ram hs).1 hreads
    exact ⟨hfixed, (hal'.parse_diverges_iff hk hp hv ha hc hfixed lastType arrays).1 hrest⟩
  · rintro ⟨hfixed, hstall⟩
    exact ⟨(), (hal'.reads_ok_iff ram hs).2 hfixed,
      (hal'.parse_diverges_iff hk hp hv ha hc hfixed lastType arrays).2 hstall⟩

end Madt

section Bootstrap
variable (hal : h.Aliases A k g) (hi : h.InOrder A) (hA : A.Ends) (hk : k.Regular)
  (hp : HhdmPlaced k.higherHalf) (hv : 2 ^ 64 - 2 ^ 31 ≤ k.virtualBase)
include hal hi hA hk hp hv

end Bootstrap

end AdaOS
