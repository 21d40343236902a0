import AdaOS.AcpiEvents
import AdaOS.BootConflict

namespace AdaOS
set_option autoImplicit true
open ByteMem

/-- The four bytes at `table` are the signature. -/
def HasSignature (ram : Mem) (signature : String) (table : Nat) : Prop :=
  memcmp (fun j => ram (table + j)) (cString signature) 4 = 0

instance (ram : Mem) (signature : String) (table : Nat) :
    Decidable (HasSignature ram signature table) :=
  inferInstanceAs (Decidable (_ = _))

/-- `n` entries of the RSDT from the one at index `i` on. -/
def rsdtEntriesFrom (ram : Mem) (rsdt i n : Nat) : List Nat :=
  (List.range' i n).map (rsdtEntry ram rsdt)

/-- The entries that the RSDT has room for behind its header. -/
def sdtEntries (ram : Mem) (rsdt : Nat) : List Nat :=
  rsdtEntriesFrom ram rsdt 0 ((load ram (rsdt + 4) 4 - 36) / 4)

def firstTable (ram : Mem) (signature : String) (tables : List Nat) : Option Nat :=
  tables.find? fun t => decide (HasSignature ram signature t)

/-- The indices of the pointer words that were read, in their order. -/
def entryReads (events : List (AcpiEvent σ)) : List Nat :=
  events.filterMap fun
    | .entry _ _ i => some i
    | _ => none

/-- `find_table` reads pointer words of the RSDT only, not more than it has, and returns the first
table with the signature, or `NULL` if none has it. -/
structure SearchesEntries (A : FrameAllocator σ) (ram : Mem) (higherHalf : Nat) (h : Heap σ)
    (rsdt : Nat) (signature : String) : Prop where
  inside : ∀ i ∈ entryReads
    (AcpiRun.findTable A ram higherHalf h (rsdt + higherHalf) signature).events,
    36 + i * 4 + 4 ≤ load ram (rsdt + 4) 4
  count : (entryReads
    (AcpiRun.findTable A ram higherHalf h (rsdt + higherHalf) signature).events).length ≤
    (load ram (rsdt + 4) 4 - 36) / 4
  result : ∃ r h', findTable A ram higherHalf h (rsdt + higherHalf) signature = .ok (r, h') ∧
    (∀ t, firstTable ram signature (sdtEntries ram rsdt) = some t → r = t + higherHalf) ∧
    (r = 0 ↔ ∀ t ∈ sdtEntries ram rsdt, ¬HasSignature ram signature t)

/-- Up to the first table with the signature, `map_page` returns and the bytes that are compared
are mapped. -/
def Comparable (A : FrameAllocator σ) (ram : Mem) (higherHalf : Nat) (signature : String) :
    List Nat → Heap σ → Prop
  | [], _ => True
  | t :: l, h => ∃ mapped h', h.mapDirect A higherHalf t acpiFlags = .ok (mapped, h') ∧
    ∃ r, h'.memcmpAt ram (t + higherHalf) (cString signature) 0 4 = .ok r ∧
      (r ≠ 0 → Comparable A ram higherHalf signature l h')

variable {σ : Type} {A : FrameAllocator σ} {h h' : Heap σ} {k : KernelLayout} {M : PageMap}
  {ram : Mem}

section Mapped
variable (hd : h.Direct A k M)
include hd

theorem Heap.Direct.shows_iff :
    (h.shows ram (a + k.higherHalf)).isSome ↔ M (k.directPage a) ≠ none := by
  rw [Heap.shows, hd.maps.access, Option.isSome_map, Option.isSome_map, ← KernelLayout.directPage,
    Option.isSome_iff_ne_none]

theorem Heap.Direct.reads_iff : h.reads ram (a + k.higherHalf) n = .ok () ↔
    ∀ i < n, M (k.directPage (a + i)) ≠ none := by
  have hshow : ∀ i, (h.shows ram (a + k.higherHalf + i)).isSome ↔
      M (k.directPage (a + i)) ≠ none := by
    intro i
    rw [Nat.add_right_comm]
    exact hd.shows_iff
  rw [Heap.reads]
  split
  · next hall => exact ⟨fun _ i hi => (hshow i).1 (hall i hi), fun _ => rfl⟩
  · next hno =>
    constructor
    · intro h
      cases h
    · intro hall
      exact absurd (fun i hi => (hshow i).2 (hall i hi)) hno

theorem Heap.Direct.loadAt_ok (hk : k.Regular) (hs : ∀ i < n, k.Shown (a + i))
    (hm : ∀ i < n, M (k.directPage (a + i)) ≠ none) :
    h.loadAt ram (a + k.higherHalf) n = .ok (load ram a n) := by
  have hreads : h.reads ram (a + k.higherHalf) n = .ok () := hd.reads_iff.2 hm
  have hload : h.loadAt ram (a + k.higherHalf) n =
      .ok (load (h.view ram (a + k.higherHalf)) 0 n) := bind_of_ok hreads _
  rw [hload, hd.loadAt hk hs hload]

theorem Heap.Direct.view_of_mapped (hk : k.Regular) (hs : k.Shown (a + i))
    (hm : M (k.directPage (a + i)) ≠ none) : h.view ram (a + k.higherHalf) i = ram (a + i) := by
  obtain ⟨b, hb⟩ := Option.isSome_iff_exists.1 (hd.shows_iff.2 hm)
  rw [Heap.view, Nat.add_right_comm, hb, Option.getD_some]
  exact hd.shows hk hs hb

theorem Heap.Direct.sdtLength_eq (hk : k.Regular) (hs : ∀ i < 4, k.Shown (a + 4 + i))
    (hm : ∀ i < 4, M (k.directPage (a + 4 + i)) ≠ none) :
    sdtLength (h.view ram (a + k.higherHalf)) = load ram (a + 4) 4 := by
  apply load_shift
  intro i hi
  have hshown := hs i hi
  have hmap := hm i hi
  rw [Nat.add_assoc] at hshown hmap
  rw [hd.view_of_mapped hk hshown hmap, ← Nat.add_assoc]

end Mapped

section Events

theorem entryReads_append (l l' : List (AcpiEvent σ)) :
    entryReads (l ++ l') = entryReads l ++ entryReads l' := List.filterMap_append

theorem entryReads_uses (table : AcpiTable) (virt : Nat) (l : List (AcpiEvent σ)) :
    entryReads (.uses table virt :: l) = entryReads l := rfl

theorem entryReads_read (h : Heap σ) (virt n : Nat) (l : List (AcpiEvent σ)) :
    entryReads (.read h virt n :: l) = entryReads l := rfl

theorem entryReads_map (higherHalf phys : Nat) :
    entryReads (AcpiRun.mapDirect A higherHalf h phys).events = [] := by
  rw [AcpiRun.mapDirect]
  split <;> rfl

theorem entryReads_compared (virt : Nat) (s : Nat → BitVec 8) (i n : Nat) :
    entryReads (AcpiRun.comparedBytes ram h virt s i n) = [] := by
  induction n generalizing i with
  | zero => rfl
  | succ n ih =>
    rw [AcpiRun.comparedBytes]
    split
    · exact ih (i + 1)
    · rfl

/-- The loop reads the entries one after the other, and some of them may be left. -/
theorem entryReads_findEntry (A : FrameAllocator σ) (ram : Mem) (h : Heap σ)
    (higherHalf rootSdt : Nat) (signature : String) (i n : Nat) :
    ∃ m ≤ n, entryReads (AcpiRun.findEntry A ram higherHalf rootSdt signature i n h).events =
      List.range' i m := by
  induction n generalizing i h with
  | zero => exact ⟨0, Nat.le_refl 0, rfl⟩
  | succ n ih =>
    have hone : 1 ≤ n + 1 := Nat.le_add_left ..
    rw [AcpiRun.findEntry]
    cases hload : (AcpiRun.entryAt ram h rootSdt i).result with
    | error e =>
      rw [Traced.bind_of_error hload]
      exact ⟨1, hone, rfl⟩
    | ok phys =>
      rw [Traced.bind_of_ok hload]
      dsimp only
      rw [entryReads_append]
      cases hmap : (AcpiRun.mapDirect A higherHalf h phys).result with
      | error e =>
        rw [Traced.bind_of_error hmap, entryReads_map]
        exact ⟨1, hone, rfl⟩
      | ok y =>
        rw [Traced.bind_of_ok hmap]
        dsimp only
        rw [entryReads_append, entryReads_map]
        cases hcmp : (AcpiRun.memcmpAt ram y.2 (u64 (phys + higherHalf)) (cString signature)
            0 4).result with
        | error e =>
          rw [Traced.bind_of_error hcmp]
          dsimp only
          rw [AcpiRun.memcmpAt, entryReads_compared]
          exact ⟨1, hone, rfl⟩
        | ok r =>
          rw [Traced.bind_of_ok hcmp]
          dsimp only
          rw [entryReads_append, AcpiRun.memcmpAt, entryReads_compared]
          split
          · exact ⟨1, hone, rfl⟩
          · obtain ⟨m, hm, hrest⟩ := ih y.2 (i + 1)
            rw [hrest]
            exact ⟨m + 1, Nat.succ_le_succ hm, rfl⟩

end Events

theorem memcmp_hasSignature (h : memcmpFrom (fun j => ram (t + j)) (cString signature) 0 4 = r) :
    r = 0 ↔ HasSignature ram signature t := by
  rw [← h]
  exact Iff.rfl

theorem rsdtEntriesFrom_succ (ram : Mem) (rsdt i n : Nat) : rsdtEntriesFrom ram rsdt i (n + 1) =
    rsdtEntry ram rsdt i :: rsdtEntriesFrom ram rsdt (i + 1) n := rfl

section Search
variable (hd : h.Direct A k M) (hk : k.Regular) (hp : HhdmPlaced k.higherHalf)
  (hv : 2 ^ 64 - 2 ^ 31 ≤ k.virtualBase)
include hd hk hp hv

theorem Heap.Direct.findEntry_turn (hlow : rsdt + 36 + i * 4 + 4 ≤ 0x10000000000)
    (hm : ∀ b < 4, M (k.directPage (rsdt + 36 + i * 4 + b)) ≠ none) (signature : String)
    (n : Nat) :
    AdaOS.findEntry A ram k.higherHalf (rsdt + k.higherHalf) signature i (n + 1) h =
      (h.mapDirect A k.higherHalf (rsdtEntry ram rsdt i) acpiFlags >>= fun (_, h') =>
        h'.memcmpAt ram (rsdtEntry ram rsdt i + k.higherHalf) (cString signature) 0 4 >>= fun r =>
          if r = 0 then .ok (rsdtEntry ram rsdt i + k.higherHalf, h')
          else
            AdaOS.findEntry A ram k.higherHalf (rsdt + k.higherHalf) signature (i + 1) n h') := by
  have hroom := hp.room
  have hlt : rsdtEntry ram rsdt i < 2 ^ 32 := load_lt ram _ 4
  have haddr : rsdt + k.higherHalf + 36 + i * 4 = rsdt + 36 + i * 4 + k.higherHalf := by omega
  have hload : h.loadAt ram (rsdt + k.higherHalf + 36 + i * 4) 4 =
      .ok (rsdtEntry ram rsdt i) := by
    rw [haddr]
    exact hd.loadAt_ok hk (fun j hj => shown_of_lt hp hv (by omega)) hm
  have hvert : u64 (rsdtEntry ram rsdt i + k.higherHalf) = rsdtEntry ram rsdt i + k.higherHalf :=
    u64_of_lt (by omega)
  rw [AdaOS.findEntry, bind_of_ok hload]
  dsimp only
  rw [hvert]

theorem Heap.Direct.compared (ht : t < 2 ^ 32)
    (h₀ : h.mapDirect A k.higherHalf t acpiFlags = .ok (mapped, h'))
    (hr : h'.memcmpAt ram (t + k.higherHalf) (cString signature) 0 4 = .ok r) :
    (r = 0 ↔ HasSignature ram signature t) ∧ ∃ M', h'.Direct A k M' ∧
      ∀ a, k.Shown a → M (k.directPage a) ≠ none → M' (k.directPage a) ≠ none := by
  obtain ⟨M', hM', hover, _⟩ :=
    hd.mapDirect_remapped hk hp (shown_of_lt hp hv (by omega)) (by decide) h₀
  have hc := hM'.memcmpAt hk (fun j hj => shown_of_lt hp hv (by omega)) hr
  exact ⟨memcmp_hasSignature hc.symm, M', hM', fun a hs hm => hover.aliases.ne_none hm hs⟩

/-- The search returns if and only if it can compare the tables up to the first with the
signature. -/
theorem Heap.Direct.findEntry_returns_iff (ram : Mem) (signature : String)
    (hlow : rsdt + 36 + (i + n) * 4 ≤ 0x10000000000)
    (hm : ∀ b, 36 + i * 4 ≤ b → b < 36 + (i + n) * 4 → M (k.directPage (rsdt + b)) ≠ none) :
    (∃ r h', AdaOS.findEntry A ram k.higherHalf (rsdt + k.higherHalf) signature i n h =
      .ok (r, h')) ↔ Comparable A ram k.higherHalf signature (rsdtEntriesFrom ram rsdt i n) h := by
  induction n generalizing i h M with
  | zero => exact ⟨fun _ => trivial, fun _ => ⟨0, h, rfl⟩⟩
  | succ n ih =>
    have hlt : rsdtEntry ram rsdt i < 2 ^ 32 := load_lt ram _ 4
    have hentry : ∀ b < 4, M (k.directPage (rsdt + 36 + i * 4 + b)) ≠ none := by
      intro b hb
      rw [Nat.add_assoc, Nat.add_assoc]
      exact hm _ (by omega) (by omega)
    have hrest : ∀ {mapped h'' r},
        h.mapDirect A k.higherHalf (rsdtEntry ram rsdt i) acpiFlags = .ok (mapped, h'') →
        h''.memcmpAt ram (rsdtEntry ram rsdt i + k.higherHalf) (cString signature) 0 4 = .ok r →
        ((∃ r h', AdaOS.findEntry A ram k.higherHalf (rsdt + k.higherHalf) signature (i + 1) n h'' =
          .ok (r, h')) ↔
          Comparable A ram k.higherHalf signature (rsdtEntriesFrom ram rsdt (i + 1) n) h'') := by
      intro mapped h'' r hmap hr
      obtain ⟨_, M', hM', hkeep⟩ := hd.compared hk hp hv hlt hmap hr
      apply ih hM' (by omega)
      intro b hlo hhi
      exact hkeep _ (shown_of_lt hp hv (by omega)) (hm b (by omega) (by omega))
    rw [hd.findEntry_turn hk hp hv (by omega) hentry signature n, rsdtEntriesFrom_succ, Comparable]
    constructor
    · rintro ⟨r, h', h₀⟩
      obtain ⟨⟨mapped, h''⟩, hmap, h₀⟩ := bind_ok h₀
      obtain ⟨c, hr, h₀⟩ := bind_ok h₀
      refine ⟨mapped, h'', hmap, c, hr, fun hne => (hrest hmap hr).1 ⟨r, h', ?_⟩⟩
      rwa [if_neg hne] at h₀
    · rintro ⟨mapped, h'', hmap, c, hr, hnext⟩
      rw [bind_of_ok hmap]
      dsimp only
      rw [bind_of_ok hr]
      by_cases hzero : c = 0
      · exact ⟨_, _, if_pos hzero⟩
      · rw [if_neg hzero]
        exact (hrest hmap hr).2 (hnext hzero)

/-- What it returns is the first table with the signature. -/
theorem Heap.Direct.findEntry_first (hlow : rsdt + 36 + (i + n) * 4 ≤ 0x10000000000)
    (h₀ : AdaOS.findEntry A ram k.higherHalf (rsdt + k.higherHalf) signature i n h = .ok (r, h')) :
    r = (firstTable ram signature (rsdtEntriesFrom ram rsdt i n)).elim 0 (· + k.higherHalf) := by
  induction n generalizing i h M with
  | zero =>
    cases h₀
    rfl
  | succ n ih =>
    obtain ⟨phys, hload, h₀⟩ := bind_ok h₀
    obtain ⟨⟨mapped, g⟩, hmap, h₀⟩ := bind_ok h₀
    obtain ⟨c, hcmp, h₀⟩ := bind_ok h₀
    have haddr : rsdt + k.higherHalf + 36 + i * 4 = rsdt + 36 + i * 4 + k.higherHalf := by omega
    rw [haddr] at hload
    have hphys : phys = rsdtEntry ram rsdt i :=
      hd.loadAt hk (fun j hj => shown_of_lt hp hv (by omega)) hload
    have hlt : phys < 2 ^ 32 := hphys ▸ load_lt ram _ 4
    have hroom := hp.room
    have hvert : u64 (phys + k.higherHalf) = phys + k.higherHalf := u64_of_lt (by omega)
    rw [hvert] at hcmp h₀
    obtain ⟨hzero, M', hM', _⟩ := hd.compared hk hp hv hlt hmap hcmp
    rw [rsdtEntriesFrom_succ, firstTable, List.find?_cons, ← hphys]
    split at h₀
    · next hc =>
      cases h₀
      rw [decide_eq_true (hzero.1 hc)]
      rfl
    · next hc =>
      rw [decide_eq_false fun hs => hc (hzero.2 hs)]
      exact ih hM' (by omega) h₀

theorem Heap.Direct.checksum_mapped (ha : a < 2 ^ 32)
    (h₀ : AdaOS.checksumAt ram h (a + k.higherHalf) = .ok ()) :
    (∀ i < 4, M (k.directPage (a + 4 + i)) ≠ none) ∧
      ∀ i < load ram (a + 4) 4, M (k.directPage (a + i)) ≠ none := by
  obtain ⟨_, hfirst, h₀⟩ := bind_ok h₀
  obtain ⟨_, hall, _⟩ := bind_ok h₀
  rw [Nat.add_right_comm] at hfirst
  have hlength := hd.reads_iff.1 hfirst
  rw [hd.sdtLength_eq hk (fun i hi => shown_of_lt hp hv (by omega)) hlength] at hall
  exact ⟨hlength, hd.reads_iff.1 hall⟩

end Search

theorem rsdtEntries_of_le (hlo : 36 ≤ length) (hlt : length < 2 ^ 32) :
    sub64 length 36 / 4 % 2 ^ 32 = (length - 36) / 4 := by
  rw [sub64_of_le hlo (by omega)]
  omega

theorem rsdtEntries_of_lt (hlt : length < 36) : sub64 length 36 / 4 % 2 ^ 32 ≠ 0 := by
  rw [sub64, u64]
  omega

section Count
variable (hd : h.Direct A k M) (hk : k.Regular) (hp : HhdmPlaced k.higherHalf)
  (hv : 2 ^ 64 - 2 ^ 31 ≤ k.virtualBase) (hrsdt : rsdt < 2 ^ 32)
  (hsum : checksumAt ram h (rsdt + k.higherHalf) = .ok ())
include hd hk hp hv hrsdt hsum

theorem Heap.Direct.length_load :
    h.loadAt ram (rsdt + k.higherHalf + 4) 4 = .ok (load ram (rsdt + 4) 4) := by
  obtain ⟨hlength, _⟩ := hd.checksum_mapped hk hp hv hrsdt hsum
  rw [Nat.add_right_comm]
  exact hd.loadAt_ok hk (fun i hi => shown_of_lt hp hv (by omega)) hlength

theorem Heap.Direct.entryReads_findTable (signature : String) : entryReads
    (AcpiRun.findTable A ram k.higherHalf h (rsdt + k.higherHalf) signature).events =
      entryReads (AcpiRun.findEntry A ram k.higherHalf (rsdt + k.higherHalf) signature 0
        (rsdtEntries ram rsdt) h).events := by
  have hload := hd.length_load hk hp hv hrsdt hsum
  rw [AcpiRun.findTable_events A ram h k.higherHalf signature hload, rsdtEntries, entryReads_uses,
    entryReads_read]

theorem Heap.Direct.findTable_eq (signature : String) :
    AdaOS.findTable A ram k.higherHalf h (rsdt + k.higherHalf) signature =
      AdaOS.findEntry A ram k.higherHalf (rsdt + k.higherHalf) signature 0
        (rsdtEntries ram rsdt) h := by
  rw [rsdtEntries]
  exact bind_of_ok (hd.length_load hk hp hv hrsdt hsum) _

end Count

theorem firstTable_none_iff : firstTable ram signature l = none ↔
    ∀ t ∈ l, ¬HasSignature ram signature t := by
  rw [firstTable, List.find?_eq_none]
  constructor
  · intro h t ht hs
    exact h t ht (decide_eq_true hs)
  · intro h t ht hs
    exact h t ht (of_decide_eq_true hs)

theorem firstTable_null_iff (hpos : 0 < higherHalf) :
    (firstTable ram signature l).elim 0 (· + higherHalf) = 0 ↔
      ∀ t ∈ l, ¬HasSignature ram signature t := by
  rw [← firstTable_none_iff]
  cases firstTable ram signature l with
  | none => exact ⟨fun _ => rfl, fun _ => rfl⟩
  | some t =>
    have hne : t + higherHalf ≠ 0 := Nat.ne_of_gt (Nat.add_pos_right t hpos)
    exact ⟨fun h => absurd h hne, (fun h => nomatch h)⟩

theorem mem_entryReads_findEntry (higherHalf rootSdt : Nat) (signature : String) (i : Nat)
    (hn : n ≠ 0) :
    i ∈ entryReads (AcpiRun.findEntry A ram higherHalf rootSdt signature i n h).events := by
  cases n with
  | zero => exact absurd rfl hn
  | succ n =>
    apply List.mem_filterMap.2
    refine ⟨.entry h rootSdt i, ?_, rfl⟩
    rw [AcpiRun.findEntry]
    exact Traced.mem_bind.2 (.inl (List.mem_singleton_self _))

theorem Heap.Direct.not_searches (hd : h.Direct A k M) (hk : k.Regular)
    (hp : HhdmPlaced k.higherHalf) (hv : 2 ^ 64 - 2 ^ 31 ≤ k.virtualBase) (hrsdt : rsdt < 2 ^ 32)
    (hsum : checksumAt ram h (rsdt + k.higherHalf) = .ok ()) (signature : String)
    (hlo : load ram (rsdt + 4) 4 < 36) :
    ¬SearchesEntries A ram k.higherHalf h rsdt signature := by
  intro hs
  have hreads := hd.entryReads_findTable hk hp hv hrsdt hsum signature
  have hpos : rsdtEntries ram rsdt ≠ 0 := rsdtEntries_of_lt hlo
  have hzero := hs.inside 0 (hreads ▸ mem_entryReads_findEntry _ _ _ 0 hpos)
  omega

/-- On an RSDT that was accepted, `find_table` searches exactly its entries if and only if its
length covers its header and the search does not stop at a table it cannot compare. -/
theorem findTable_searches_iff (hd : h.Direct A k M) (hk : k.Regular)
    (hp : HhdmPlaced k.higherHalf) (hv : 2 ^ 64 - 2 ^ 31 ≤ k.virtualBase) (hrsdt : rsdt < 2 ^ 32)
    (hsum : checksumAt ram h (rsdt + k.higherHalf) = .ok ()) (signature : String) :
    SearchesEntries A ram k.higherHalf h rsdt signature ↔ 36 ≤ load ram (rsdt + 4) 4 ∧
      Comparable A ram k.higherHalf signature (sdtEntries ram rsdt) h := by
  by_cases hlo : 36 ≤ load ram (rsdt + 4) 4
  · obtain ⟨_, hall⟩ := hd.checksum_mapped hk hp hv hrsdt hsum
    have hlt : load ram (rsdt + 4) 4 < 2 ^ 32 := load_lt ram _ 4
    have hreads := hd.entryReads_findTable hk hp hv hrsdt hsum signature
    obtain ⟨m, hm, hevents⟩ := entryReads_findEntry A ram h k.higherHalf
      (rsdt + k.higherHalf) signature 0 (rsdtEntries ram rsdt)
    have hfind := hd.findTable_eq hk hp hv hrsdt hsum signature
    have hcount : rsdtEntries ram rsdt = (load ram (rsdt + 4) 4 - 36) / 4 :=
      rsdtEntries_of_le hlo hlt
    rw [hevents] at hreads
    rw [hcount] at hm hfind
    have hlow : rsdt + 36 + (0 + (load ram (rsdt + 4) 4 - 36) / 4) * 4 ≤ 0x10000000000 := by
      omega
    have hiff := hd.findEntry_returns_iff hk hp hv ram signature hlow fun b _ hb =>
      hall b (by omega)
    constructor
    · intro hs
      obtain ⟨r, h', h₀, _⟩ := hs.result
      rw [hfind] at h₀
      exact ⟨hlo, hiff.1 ⟨r, h', h₀⟩⟩
    · rintro ⟨_, hc⟩
      obtain ⟨r, h', h₀⟩ := hiff.2 hc
      have hfirst := hd.findEntry_first hk hp hv hlow h₀
      refine ⟨fun i hi => ?_, ?_, r, h', hfind.trans h₀, fun t ht => ?_, ?_⟩
      · rw [hreads] at hi
        obtain ⟨_, hi⟩ := List.mem_range'_1.1 hi
        omega
      · rw [hreads, List.length_range']
        exact hm
      · rw [sdtEntries] at ht
        rw [hfirst, ht]
        rfl
      · rw [hfirst]
        apply firstTable_null_iff
        have hu := hk.hhdmUpper
        omega
  · have hno := hd.not_searches hk hp hv hrsdt hsum signature (Nat.lt_of_not_le hlo)
    exact ⟨fun hs => absurd hs hno, fun hc => absurd hc.1 hlo⟩

theorem wideLayout_ready (hd : pageSize ∣ t) (ht : t + pageSize ≤ 2 ^ 32) :
    ∃ h : Heap (OwnedPmm oneChunk),
      h.Ready (pmmFrames oneChunk_sound) wideLayout (OnPage t) (256 * pageSize) 15 := by
  obtain ⟨x, _, hl⟩ := oneChunk_frames
  obtain ⟨root, v, hv, hleft⟩ := wideLayout_setup hl fun _ _ => 0
  obtain ⟨_, _, _, h, _, _, _, hr⟩ := setupHeap_ready wideLayout_regular wideLayout_placed
    wideLayout_framebuffer hv hleft fun _ => 0
  have hat := wideLayout_tablesAt hd ht
  have hpage : OnPage t t := pageOf_of_dvd hd
  obtain ⟨h', _, hr'⟩ := hr.mapDirect wideLayout_regular wideLayout_placed (n := 15)
    (hat.shown t hpage) (show pteGetAddr acpiFlags = 0 by decide)
  exact ⟨h', hr'.mono fun a ha => .inr (ha.trans hpage.symm)⟩

theorem findTable_searches_iff_twoEntries : ∃ h : Heap (OwnedPmm oneChunk),
    SearchesEntries (pmmFrames oneChunk_sound) (tablePage 0x11000000) wideLayout.higherHalf h
      0x11000040 "FACP" ↔
    36 ≤ load (tablePage 0x11000000) (0x11000040 + 4) 4 ∧
      Comparable (pmmFrames oneChunk_sound) (tablePage 0x11000000) wideLayout.higherHalf "FACP"
        (sdtEntries (tablePage 0x11000000) 0x11000040) h := by
  obtain ⟨h, hr⟩ := wideLayout_ready (t := 0x11000000) (by decide) (by decide)
  obtain ⟨M, hd, _⟩ := hr.direct
  have hat := wideLayout_tablesAt (t := 0x11000000) (by decide) (by decide)
  have haccepted := hr.rsdt_ok wideLayout_regular hat tablePage_apart
  exact ⟨h, findTable_searches_iff hd wideLayout_regular wideLayout_placed (by decide) (by decide)
    haccepted.2 "FACP"⟩

def shortRsdt (t : Nat) : Mem := fun a => if a < t then 0 else (ascii "RSDT").getD (a - t) 0

/-- It passes both checks, and `find_table` reads behind its end. -/
theorem shortRsdt_overrun : ∃ (h : Heap (OwnedPmm oneChunk)) (M : PageMap),
    h.Direct (pmmFrames oneChunk_sound) wideLayout M ∧
    checkHeaderSignature (pmmFrames oneChunk_sound) (shortRsdt 0x11000000) h
      (0x11000000 + wideLayout.higherHalf) "RSDT" = .ok () ∧
    checksumAt (shortRsdt 0x11000000) h (0x11000000 + wideLayout.higherHalf) = .ok () ∧
    ¬SearchesEntries (pmmFrames oneChunk_sound) (shortRsdt 0x11000000) wideLayout.higherHalf h
      0x11000000 "APIC" := by
  obtain ⟨h, hr⟩ := wideLayout_ready (t := 0x11000000) (by decide) (by decide)
  obtain ⟨M, hd, _⟩ := hr.direct
  have hat := wideLayout_tablesAt (t := 0x11000000) (by decide) (by decide)
  have hvirt : 0x11000000 + wideLayout.higherHalf = 0x11000000 + 0 + wideLayout.higherHalf := rfl
  have hcmp := hr.memcmpAt (shortRsdt 0x11000000) wideLayout_regular hat (s := cString "RSDT")
    (o := 0) (i := 0) (m := 4) (by decide) hvirt
  have hlength : load (shortRsdt 0x11000000) (0x11000000 + 0 + 4) 4 = 0 := by decide
  have hsum := hr.checksum_ok (shortRsdt 0x11000000) wideLayout_regular hat (o := 0) (m := 0)
    hlength (by decide) (by decide) hvirt rfl
  have hsame : memcmpFrom (fun j => shortRsdt 0x11000000 (0x11000000 + 0 + j)) (cString "RSDT")
      0 4 = 0 := by decide
  refine ⟨h, M, hd, ?_, hsum, ?_⟩
  · refine (bind_of_ok hcmp _).trans ?_
    exact if_neg (not_not.2 hsame)
  · exact hd.not_searches wideLayout_regular wideLayout_placed (by decide) (by decide) hsum "APIC"
      (by decide)

end AdaOS
