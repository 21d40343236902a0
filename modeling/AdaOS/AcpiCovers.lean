import AdaOS.AcpiChecks
import AdaOS.MadtReads

namespace AdaOS
set_option autoImplicit true
open ByteMem

/-- The bytes are on pages that are mapped when they are read. -/
def AcpiEvent.Mapped (ram : Mem) : AcpiEvent σ → Prop
  | .read h virt n => ∀ i < n, (h.shows ram (virt + i)).isSome
  | .entry h rootSdt i => ∀ b < 4, (h.shows ram (rootSdt + 36 + i * 4 + b)).isSome
  | .mapPage _ => True
  | .uses _ _ => True
  | .noResponse => True
  | .log _ _ => True

/-- The bytes from a physical address on are among those of `g`. -/
def Covers (g : Nat → Prop) (a n : Nat) : Prop := ∀ i < n, g (a + i)

/-- The addresses of `g` and, if `map_page` returned true, those of one page more. -/
def withPage (g : Nat → Prop) (mapped : Bool) (phys : Nat) : Nat → Prop :=
  if mapped = true then fun a => g a ∨ pageOf a = pageOf phys else g

section Conditions
variable {σ : Type} (A : FrameAllocator σ) (ram : Mem) (higherHalf : Nat)

/-- The bytes at `a` that `memcmp` looks at, from the one at index `i` on. -/
def ComparedCovered (g : Nat → Prop) (a : Nat) (s : Nat → BitVec 8) (i : Nat) : Nat → Prop
  | 0 => True
  | n + 1 => g (a + i) ∧ (ram (a + i) = s i → ComparedCovered g a s (i + 1) n)

/-- The bytes at `a` that `%.ns` looks at, the one behind the `n` included. -/
def PrintedCovered (g : Nat → Prop) (a : Nat) : Nat → Prop
  | 0 => g a
  | n + 1 => g a ∧ (ram a ≠ 0 → PrintedCovered g (a + 1) n)

/-- The signature as far as it is compared; a wrong one is printed once `kmalloc` returns. -/
def HeaderCovered (g : Nat → Prop) (h : Heap σ) (a : Nat) (signature : String) : Prop :=
  ComparedCovered ram g a (cString signature) 0 4 ∧
    (¬HasSignature ram signature a → ∀ block,
      kmalloc A h ("Expected signature of '', got ''!".length + 1 + 4 + 4) = .ok block →
        PrintedCovered ram g a 4)

/-- The length of a table and as many bytes as it says. -/
def TableCovered (g : Nat → Prop) (a : Nat) : Prop :=
  Covers g (a + 4) 4 ∧ Covers g a (load ram (a + 4) 4)

/-- `n` entries of the RSDT from the one at index `i` on: the entry, and the signature of its table
when `map_page` was called for it. The search goes on with `next` at the first table that has the
signature. -/
def SearchCovered (rsdt : Nat) (signature : String)
    (next : (Nat → Prop) → Heap σ → Nat → Prop) (i : Nat) :
    Nat → (Nat → Prop) → Heap σ → Prop
  | 0, _, _ => True
  | n + 1, g, h =>
    let t := rsdtEntry ram rsdt i
    Covers g (rsdt + 36 + i * 4) 4 ∧
      ∀ mapped h', h.mapDirect A higherHalf t acpiFlags = .ok (mapped, h') →
        ComparedCovered ram (withPage g mapped t) t (cString signature) 0 4 ∧
          if HasSignature ram signature t then next (withPage g mapped t) h' t
          else SearchCovered rsdt signature next (i + 1) n (withPage g mapped t) h'

/-- The header of the record at `a`, and its structure if the type has one. -/
def RecordCovered (g : Nat → Prop) (type : BitVec 8) (a : Nat) : Prop :=
  Covers g a 2 ∧ ∀ array, madtArray type = some array → Covers g (a + 2) array.size

/-- The fixed part of the MADT and the records that are read. -/
def MadtCovered (g : Nat → Prop) (arrays : MadtArray → Nat) (madt : Nat) : Prop :=
  Covers g (madt + 0x24) 8 ∧ (load ram (madt + 0x28) 4 ≠ 0 →
    ∀ o, RecordRead (fun i => ram (madt + i)) arrays madtRecordOffset o →
      RecordCovered g (ram (madt + o)) (madt + o))

/-- The fields of the FADT that are read, the FACS pointer as far as it is looked for. -/
def FieldsCovered (g : Nat → Prop) (fadt : Nat) : Prop :=
  Covers g (fadt + 48) 4 ∧ Covers g (fadt + 36) 4 ∧
    (load ram (fadt + 36) 4 = 0 → Covers g (fadt + 132) 8) ∧
    (load ram (fadt + 36) 4 ≠ 0 ∨ load ram (fadt + 132) 8 ≠ 0 → Covers g (fadt + 40) 4)

/-- The arrays of `parse_madt`, `size` bytes each. -/
def kmallocArrays (size : Nat) :
    List MadtArray → (MadtArray → Nat) → Heap σ → Except Fault ((MadtArray → Nat) × Heap σ)
  | [], arrays, h => .ok (arrays, h)
  | a :: rest, arrays, h => do
    let (p, h) ← kmalloc A h size
    kmallocArrays size rest (Function.update arrays a p) h

def FromFadt (g : Nat → Prop) (_ : Heap σ) (fadt : Nat) : Prop :=
  TableCovered ram g fadt ∧ (ValidSdt ram "FACP" fadt → FieldsCovered ram g fadt)

def FromMadt (rsdt : Nat) (g : Nat → Prop) (h : Heap σ) (madt : Nat) : Prop :=
  TableCovered ram g madt ∧ (ValidSdt ram "APIC" madt → ∀ arrays h',
    kmallocArrays A (load ram (madt + 4) 4) madtArrays (fun _ => 0) h = .ok (arrays, h') →
      MadtCovered ram g arrays madt ∧ (MadtParses (fun i => ram (madt + i)) arrays →
        SearchCovered A ram higherHalf rsdt "FACP" (FromFadt ram) 0 (rsdtEntries ram rsdt)
          g h'))

def FromRsdt (g : Nat → Prop) (h : Heap σ) (rsdt : Nat) : Prop :=
  HeaderCovered A ram g h rsdt "RSDT" ∧ (HasSignature ram "RSDT" rsdt →
    TableCovered ram g rsdt ∧ (ValidSdt ram "RSDT" rsdt →
      SearchCovered A ram higherHalf rsdt "APIC" (FromMadt A ram higherHalf rsdt) 0
        (rsdtEntries ram rsdt) g h))

def FromRsdp (g : Nat → Prop) (h : Heap σ) (rsdp : Nat) : Prop :=
  let rsdt := load ram (rsdp + 16) 4
  Covers g rsdp 20 ∧ (RsdpAccepted ram rsdp → ∀ h',
    h.mapDirect A higherHalf rsdt acpiFlags = .ok (true, h') →
      FromRsdt A ram higherHalf (withPage g true rsdt) h' rsdt)

/-- The tables that `bootstrap_acpi` comes to lie at addresses of `g` and on the pages of their own
first bytes, as far as they are looked at. -/
def TablesCovered (rsdp : Option Nat) (g : Nat → Prop) (h : Heap σ) : Prop :=
  ∀ a, getRsdp rsdp = some a → ∀ h', h.mapDirect A higherHalf a acpiFlags = .ok (true, h') →
    FromRsdp A ram higherHalf (withPage g true a) h' a

end Conditions

/-- All bytes that a computation reads are mapped then. -/
abbrev AcpiRun.InMap (ram : Mem) (x : AcpiRun σ α) : Prop := Traced.All (AcpiEvent.Mapped ram) x

variable {σ : Type} {A : FrameAllocator σ} {h h' now : Heap σ} {k : KernelLayout} {ram : Mem}
  {g g' : Nat → Prop}

/-- These are the bytes that `_strnlen_s` comes to in the string. -/
theorem printedBytes_mapped_iff (ram : Mem) (h : Heap σ) (virt n : Nat) :
    (∀ e ∈ AcpiRun.printedBytes ram h virt n, e.Mapped ram) ↔
      ∃ l, Printf.strnlenS (h.bytesFrom ram virt (n + 1)) n = .ok l := by
  have hone : ∀ a, AcpiEvent.Mapped ram (.read h a 1) ↔ (h.shows ram a).isSome := by
    intro a
    exact ⟨fun hall => hall 0 Nat.zero_lt_one, fun hb i hi => by rwa [Nat.lt_one_iff.1 hi]⟩
  induction n generalizing virt with
  | zero =>
    rw [AcpiRun.printedBytes, List.forall_mem_singleton, hone, Heap.bytesFrom]
    cases h.shows ram virt with
    | none =>
      refine iff_of_false Bool.false_ne_true ?_
      rintro ⟨_, hno⟩
      cases hno
    | some b => exact iff_of_true rfl ⟨0, if_pos (.inr rfl)⟩
  | succ n ih =>
    rw [AcpiRun.printedBytes, List.forall_mem_cons, hone, Heap.bytesFrom]
    cases h.shows ram virt with
    | none =>
      refine iff_of_false (fun hno => Bool.false_ne_true hno.1) ?_
      rintro ⟨_, hno⟩
      cases hno
    | some b =>
      refine (and_iff_right rfl).trans ?_
      dsimp only
      rw [Printf.strnlenS]
      by_cases hzero : b = 0
      · rw [if_pos hzero, if_pos (.inl hzero)]
        exact iff_of_true (List.forall_mem_nil _) ⟨0, rfl⟩
      · rw [if_neg hzero, if_neg (not_or.2 ⟨hzero, Nat.succ_ne_zero n⟩)]
        refine (ih (virt + 1)).trans ?_
        constructor
        · rintro ⟨l, hl⟩
          exact ⟨l + 1, bind_of_ok hl _⟩
        · rintro ⟨l, hl⟩
          obtain ⟨l', hl', _⟩ := bind_ok hl
          exact ⟨l', hl'⟩

section Reads
variable (hal : h.Aliases A k g)
include hal

theorem Heap.Aliases.shows_iff (ram : Mem) (hs : k.Shown a) :
    (h.shows ram (a + k.higherHalf)).isSome ↔ g a := by
  obtain ⟨M, hd, hg⟩ := hal
  rw [hd.shows_iff, hg a hs]

theorem Heap.Aliases.mapped_iff (ram : Mem) (hs : ∀ i < n, k.Shown (a + i)) :
    (∀ i < n, (h.shows ram (a + k.higherHalf + i)).isSome) ↔ Covers g a n := by
  apply forall₂_congr
  intro i hi
  rw [Nat.add_right_comm]
  exact hal.shows_iff ram (hs i hi)

theorem Heap.Aliases.mapped_one (ram : Mem) (hs : k.Shown a) :
    AcpiEvent.Mapped ram (.read h (a + k.higherHalf) 1) ↔ g a := by
  rw [← hal.shows_iff ram hs]
  exact ⟨fun hall => hall 0 Nat.zero_lt_one, fun hone i hi => by rwa [Nat.lt_one_iff.1 hi]⟩

theorem Heap.Aliases.reads_ok (ram : Mem) (hs : ∀ i < n, k.Shown (a + i)) (hc : Covers g a n) :
    h.reads ram (a + k.higherHalf) n = .ok () := if_pos ((hal.mapped_iff ram hs).2 hc)

theorem inMap_reads (hs : ∀ i < n, k.Shown (a + i)) :
    AcpiRun.InMap ram (AcpiRun.reads ram h (a + k.higherHalf) n) ↔ Covers g a n :=
  List.forall_mem_singleton.trans (hal.mapped_iff ram hs)

theorem inMap_loadAt (hs : ∀ i < n, k.Shown (a + i)) :
    AcpiRun.InMap ram (AcpiRun.loadAt ram h (a + k.higherHalf) n) ↔ Covers g a n :=
  List.forall_mem_singleton.trans (hal.mapped_iff ram hs)

variable (hk : k.Regular)
include hk

theorem Heap.Aliases.shows_eq (ram : Mem) (hs : k.Shown a) (ha : g a) :
    h.shows ram (a + k.higherHalf) = some (ram a) := by
  obtain ⟨b, hb⟩ := Option.isSome_iff_exists.1 ((hal.shows_iff ram hs).2 ha)
  obtain ⟨M, hd, _⟩ := hal
  rw [hb, hd.shows hk hs hb]

theorem Heap.Aliases.view_eq (hs : k.Shown (a + i)) (ha : g (a + i)) :
    h.view ram (a + k.higherHalf) i = ram (a + i) := by
  rw [Heap.view, Nat.add_right_comm, hal.shows_eq hk ram hs ha, Option.getD_some]

theorem Heap.Aliases.load_view (hs : ∀ i < n, k.Shown (a + (o + i)))
    (hc : Covers g (a + o) n) : load (h.view ram (a + k.higherHalf)) o n = load ram (a + o) n := by
  apply load_shift
  intro i hi
  have hg := hc i hi
  rw [Nat.add_assoc] at hg ⊢
  exact hal.view_eq hk (hs i hi) hg

theorem Heap.Aliases.loadAt_ok (hs : ∀ i < n, k.Shown (a + i)) (hc : Covers g a n) :
    h.loadAt ram (a + k.higherHalf) n = .ok (load ram a n) := by
  refine (bind_of_ok (hal.reads_ok ram hs hc) _).trans ?_
  rw [hal.load_view hk (o := 0) (by simpa using hs) hc]
  rfl

theorem inMap_compared (s : Nat → BitVec 8) (hs : ∀ j < i + n, k.Shown (a + j)) :
    (∀ e ∈ AcpiRun.comparedBytes ram h (a + k.higherHalf) s i n, e.Mapped ram) ↔
      ComparedCovered ram g a s i n := by
  induction n generalizing i with
  | zero => exact iff_of_true (List.forall_mem_nil _) trivial
  | succ n ih =>
    have hi := hs i (by omega)
    have hone := hal.mapped_one ram hi
    rw [Nat.add_right_comm] at hone
    rw [AcpiRun.comparedBytes, List.forall_mem_cons, ComparedCovered, hone]
    apply and_congr_right
    intro hg
    have hshow := hal.shows_eq hk ram hi hg
    rw [Nat.add_right_comm] at hshow
    rw [hshow]
    simp only [Option.some.injEq]
    split
    · next heq => rw [ih fun j hj => hs j (by omega), forall_prop_of_true heq]
    · next hne => exact iff_of_true (List.forall_mem_nil _) fun heq => absurd heq hne

theorem inMap_memcmpAt (s : Nat → BitVec 8) (hs : ∀ j < n, k.Shown (a + j)) :
    AcpiRun.InMap ram (AcpiRun.memcmpAt ram h (a + k.higherHalf) s 0 n) ↔
      ComparedCovered ram g a s 0 n := by
  apply inMap_compared hal hk s
  intro j hj
  exact hs j (by omega)

theorem Heap.Aliases.memcmpAt_ok (s : Nat → BitVec 8) (hs : ∀ j < i + n, k.Shown (a + j))
    (hc : ComparedCovered ram g a s i n) : h.memcmpAt ram (a + k.higherHalf) s i n =
      .ok (memcmpFrom (fun j => ram (a + j)) s i n) := by
  induction n generalizing i with
  | zero => rfl
  | succ n ih =>
    have hshow := hal.shows_eq hk ram (hs i (by omega)) hc.1
    rw [Nat.add_right_comm] at hshow
    rw [Heap.memcmpAt, hshow, memcmpFrom]
    dsimp only
    split
    · rfl
    · next heq => exact ih (fun j hj => hs j (by omega)) (hc.2 (not_not.1 heq))

theorem inMap_printed (hs : ∀ j ≤ n, k.Shown (a + j)) :
    (∀ e ∈ AcpiRun.printedBytes ram h (a + k.higherHalf) n, e.Mapped ram) ↔
      PrintedCovered ram g a n := by
  induction n generalizing a with
  | zero => exact List.forall_mem_singleton.trans (hal.mapped_one ram (hs 0 (Nat.le_refl 0)))
  | succ n ih =>
    have hfirst : k.Shown a := hs 0 (Nat.zero_le _)
    rw [AcpiRun.printedBytes, List.forall_mem_cons, PrintedCovered, hal.mapped_one ram hfirst]
    apply and_congr_right
    intro hg
    rw [hal.shows_eq hk ram hfirst hg]
    dsimp only
    split
    · next hzero => exact iff_of_true (List.forall_mem_nil _) fun hne => absurd hzero hne
    · next hne =>
      rw [Nat.add_right_comm, forall_prop_of_true hne]
      apply ih
      intro j hj
      rw [Nat.add_assoc, Nat.add_comm 1]
      exact hs (j + 1) (Nat.succ_le_succ hj)

end Reads

section Tables
variable (hal : h.Aliases A k g) (hk : k.Regular) (hp : HhdmPlaced k.higherHalf)
include hal hk hp

theorem inMap_signaturePanic (size : Nat) (format : String) (va : Heap σ → List Printf.Arg)
    {looks : Heap σ → List (AcpiEvent σ)} {P : Prop}
    (hlooks : ∀ now : Heap σ, now.Aliases A k g → ((∀ e ∈ looks now, e.Mapped ram) ↔ P)) :
    AcpiRun.InMap ram (AcpiRun.signaturePanic (α := α) A h size format va looks) ↔
      ∀ block, kmalloc A h size = .ok block → P := by
  rw [AcpiRun.signaturePanic, AcpiRun.InMap, Traced.all_bind, and_iff_right (Traced.all_call _ _)]
  apply forall₂_congr
  rintro ⟨buf, now⟩ h₀
  exact hlooks now (hal.kept hk hp (kmalloc_keepsBacked h₀))

variable (hv : 2 ^ 64 - 2 ^ 31 ≤ k.virtualBase) (ha : a < 2 ^ 32)
include hv ha

theorem inMap_checkHeader (signature : String) : AcpiRun.InMap ram
      (AcpiRun.checkHeaderSignature A ram h (a + k.higherHalf) signature) ↔
    HeaderCovered A ram g h a signature := by
  have hs : ∀ j ≤ 4, k.Shown (a + j) := fun j hj => shown_of_lt hp hv (by omega)
  apply Traced.all_bind_of_ok (inMap_memcmpAt hal hk _ fun j hj => hs j (by omega))
    (hal.memcmpAt_ok hk _ fun j hj => hs j (by omega))
  intro _
  split
  · next hne =>
    rw [forall_prop_of_true (show ¬HasSignature ram signature a from hne)]
    apply inMap_signaturePanic hal hk hp
    intro now hnow
    exact inMap_printed hnow hk hs
  · next hsame =>
    exact iff_of_true (Traced.all_pure _ _) fun hno => absurd (not_not.1 hsame) hno

theorem Heap.Aliases.checkHeader_ok_iff
    (hc : ComparedCovered ram g a (cString signature) 0 4) :
    checkHeaderSignature A ram h (a + k.higherHalf) signature = .ok () ↔
      HasSignature ram signature a := by
  constructor
  · exact hal.hasSignature hk hp hv ha
  · intro hsig
    have hcmp := hal.memcmpAt_ok hk _ (fun j hj => shown_of_lt hp hv (by omega)) hc
    exact (bind_of_ok hcmp _).trans (if_neg (not_not.2 hsig))

theorem Heap.Aliases.sdtLength_covered (ram : Mem) (hc : Covers g (a + 4) 4) :
    sdtLength (h.view ram (a + k.higherHalf)) = load ram (a + 4) 4 :=
  hal.load_view hk (fun i hi => shown_of_lt hp hv (by omega)) hc

theorem inMap_checksum :
    AcpiRun.InMap ram (AcpiRun.checksumAt ram h (a + k.higherHalf)) ↔ TableCovered ram g a := by
  have hs : ∀ j < 4, k.Shown (a + 4 + j) := fun j hj => shown_of_lt hp hv (by omega)
  rw [AcpiRun.checksumAt, Nat.add_right_comm]
  apply Traced.all_bind_of_ok (inMap_reads hal hs) (hal.reads_ok ram hs)
  intro hc
  have hlt : load ram (a + 4) 4 < 2 ^ 32 := load_lt ram _ 4
  rw [hal.sdtLength_covered hk hp hv ha ram hc, Traced.all_bind,
    and_iff_left fun _ _ => Traced.all_call _ _]
  exact inMap_reads hal fun j hj => shown_of_lt hp hv (by omega)

theorem Heap.Aliases.checksum_ok_iff (hc : TableCovered ram g a) :
    checksumAt ram h (a + k.higherHalf) = .ok () ↔ (List.range (load ram (a + 4) 4)).foldl
      (fun sum i => sum + ram (a + i)) (0 : BitVec 8) = 0 := by
  constructor
  · exact hal.sum_zero hk hp hv ha
  · intro hzero
    have hlt : load ram (a + 4) 4 < 2 ^ 32 := load_lt ram _ 4
    have hsize := hal.sdtLength_covered hk hp hv ha ram hc.1
    have hfirst := hal.reads_ok ram (fun j hj => shown_of_lt hp hv (by omega)) hc.1
    have hall := hal.reads_ok ram (fun j hj => shown_of_lt hp hv (by omega)) hc.2
    rw [Nat.add_right_comm] at hfirst
    rw [← hsize] at hall
    refine (bind_of_ok hfirst _).trans ((bind_of_ok hall _).trans ?_)
    rw [checksumHeader, hsize]
    refine if_neg (not_not.2 ((List.foldl_ext _ _ _ fun sum i hi => ?_).trans hzero))
    have hi' := List.mem_range.1 hi
    rw [hal.view_eq hk (shown_of_lt hp hv (by omega)) (hc.2 i hi')]

end Tables

theorem withPage_of_mem (mapped : Bool) (phys : Nat) (ha : g a) : withPage g mapped phys a := by
  cases mapped with
  | false => exact ha
  | true => exact .inl ha

theorem inMap_mapDirect (higherHalf phys : Nat) :
    AcpiRun.InMap ram (AcpiRun.mapDirect A higherHalf h phys) := by
  rw [AcpiRun.mapDirect]
  split
  · exact List.forall_mem_singleton.2 trivial
  · exact List.forall_mem_nil _

section Search
variable (hal : h.Aliases A k g) (hk : k.Regular) (hp : HhdmPlaced k.higherHalf)
  (hv : 2 ^ 64 - 2 ^ 31 ≤ k.virtualBase)
include hal hk hp hv

omit hk in
theorem inMap_entryAt (hlow : rsdt + 36 + i * 4 + 4 ≤ 0x10000000000) :
    AcpiRun.InMap ram (AcpiRun.entryAt ram h (rsdt + k.higherHalf) i) ↔
      Covers g (rsdt + 36 + i * 4) 4 := by
  have haddr : rsdt + k.higherHalf + 36 + i * 4 = rsdt + 36 + i * 4 + k.higherHalf := by omega
  have hmapped := hal.mapped_iff ram (a := rsdt + 36 + i * 4) (n := 4)
    fun j hj => shown_of_lt hp hv (by omega)
  rw [← haddr] at hmapped
  exact List.forall_mem_singleton.trans hmapped

theorem Heap.Aliases.entryAt_ok (hlow : rsdt + 36 + i * 4 + 4 ≤ 0x10000000000)
    (hc : Covers g (rsdt + 36 + i * 4) 4) :
    (AcpiRun.entryAt ram h (rsdt + k.higherHalf) i).result = .ok (rsdtEntry ram rsdt i) := by
  have haddr : rsdt + k.higherHalf + 36 + i * 4 = rsdt + 36 + i * 4 + k.higherHalf := by omega
  rw [AcpiRun.entryAt, haddr]
  exact hal.loadAt_ok hk (fun j hj => shown_of_lt hp hv (by omega)) hc

/-- A search and what is done with its result. -/
theorem inMap_findEntry {f : Nat × Heap σ → AcpiRun σ α} {next : (Nat → Prop) → Heap σ → Nat → Prop}
    (hlow : rsdt + 36 + (i + n) * 4 ≤ 0x10000000000) (hnull : ∀ h', AcpiRun.InMap ram (f (0, h')))
    (hnext : ∀ g' h' t, (∀ a, g a → g' a) → h'.Aliases A k g' → t < 2 ^ 32 →
      HasSignature ram signature t →
      (AcpiRun.InMap ram (f (t + k.higherHalf, h')) ↔ next g' h' t)) :
    AcpiRun.InMap ram
        (AcpiRun.findEntry A ram k.higherHalf (rsdt + k.higherHalf) signature i n h >>= f) ↔
      SearchCovered A ram k.higherHalf rsdt signature next i n g h := by
  induction n generalizing i g h with
  | zero => exact iff_of_true (hnull h) trivial
  | succ n ih =>
    have hroom := hp.room
    have hlt : rsdtEntry ram rsdt i < 2 ^ 32 := load_lt ram _ 4
    have hvert : u64 (rsdtEntry ram rsdt i + k.higherHalf) =
        rsdtEntry ram rsdt i + k.higherHalf := u64_of_lt (by omega)
    have hs : ∀ j < 4, k.Shown (rsdtEntry ram rsdt i + j) := fun j hj =>
      shown_of_lt hp hv (by omega)
    rw [AcpiRun.findEntry, bind_assoc, SearchCovered]
    apply Traced.all_bind_of_ok (inMap_entryAt hal hp hv (by omega))
      (hal.entryAt_ok hk hp hv (by omega))
    intro _
    dsimp only
    rw [hvert, bind_assoc, Traced.all_bind, and_iff_right (inMap_mapDirect _ _), Prod.forall]
    apply forall₂_congr
    intro mapped h'
    rw [AcpiRun.mapDirect_result]
    apply forall_congr'
    intro hmap
    have hal' : h'.Aliases A k (withPage g mapped (rsdtEntry ram rsdt i)) :=
      hal.mapDirect hk hp (hs 0 (by decide)) (by decide) hmap
    dsimp only
    rw [bind_assoc]
    apply Traced.all_bind_of_ok (inMap_memcmpAt hal' hk _ hs)
      (hal'.memcmpAt_ok hk _ fun j hj => hs j (by omega))
    intro _
    by_cases hsig : HasSignature ram signature (rsdtEntry ram rsdt i)
    · rw [if_pos hsig, if_pos (show memcmpFrom _ _ 0 4 = 0 from hsig), pure_bind]
      exact hnext _ h' _ (fun a => withPage_of_mem mapped _) hal' hlt hsig
    · rw [if_neg hsig, if_neg (show ¬memcmpFrom _ _ 0 4 = 0 from hsig)]
      apply ih hal' (by omega)
      intro g'' h'' t hsub
      exact hnext g'' h'' t fun a ha => hsub a (withPage_of_mem mapped _ ha)

/-- The number of entries is any function of the length here, so that nothing computes it. -/
theorem inMap_search {f : Nat × Heap σ → AcpiRun σ α} {next : (Nat → Prop) → Heap σ → Nat → Prop}
    (entries : Nat → Nat) (hentries : ∀ length, entries length < 2 ^ 32) (hrsdt : rsdt < 2 ^ 32)
    (hc : Covers g (rsdt + 4) 4) (hnull : ∀ h', AcpiRun.InMap ram (f (0, h')))
    (hnext : ∀ g' h' t, (∀ a, g a → g' a) → h'.Aliases A k g' → t < 2 ^ 32 →
      HasSignature ram signature t →
      (AcpiRun.InMap ram (f (t + k.higherHalf, h')) ↔ next g' h' t)) :
    AcpiRun.InMap ram (AcpiRun.loadAt ram h (rsdt + k.higherHalf + 4) 4 >>= fun length =>
        AcpiRun.findEntry A ram k.higherHalf (rsdt + k.higherHalf) signature 0 (entries length)
          h >>= f) ↔
      SearchCovered A ram k.higherHalf rsdt signature next 0 (entries (load ram (rsdt + 4) 4)) g
        h := by
  have hs : ∀ j < 4, k.Shown (rsdt + 4 + j) := fun j hj => shown_of_lt hp hv (by omega)
  have hlt := hentries (load ram (rsdt + 4) 4)
  rw [Nat.add_right_comm]
  refine Iff.trans ?_ (and_iff_right hc)
  apply Traced.all_bind_of_ok (inMap_loadAt hal hs) (hal.loadAt_ok hk hs)
  intro _
  exact inMap_findEntry hal hk hp hv (by omega) hnull hnext

theorem inMap_findTable {f : Nat × Heap σ → AcpiRun σ α} {next : (Nat → Prop) → Heap σ → Nat → Prop}
    (hrsdt : rsdt < 2 ^ 32) (hc : Covers g (rsdt + 4) 4)
    (hnull : ∀ h', AcpiRun.InMap ram (f (0, h')))
    (hnext : ∀ g' h' t, (∀ a, g a → g' a) → h'.Aliases A k g' → t < 2 ^ 32 →
      HasSignature ram signature t →
      (AcpiRun.InMap ram (f (t + k.higherHalf, h')) ↔ next g' h' t)) :
    AcpiRun.InMap ram
        (AcpiRun.findTable A ram k.higherHalf h (rsdt + k.higherHalf) signature >>= f) ↔
      SearchCovered A ram k.higherHalf rsdt signature next 0 (rsdtEntries ram rsdt) g h := by
  have hsearch := inMap_search hal hk hp hv (fun length => sub64 length 36 / 4 % 2 ^ 32)
    (fun _ => Nat.mod_lt _ (by decide)) hrsdt hc hnull hnext
  rw [AcpiRun.findTable, bind_assoc, AcpiRun.InMap, Traced.all_emit_bind, bind_assoc, rsdtEntries]
  exact (and_iff_right trivial).trans hsearch

end Search

end AdaOS
