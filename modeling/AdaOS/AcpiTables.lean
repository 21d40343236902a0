import AdaOS.HeapFrames

namespace AdaOS
set_option autoImplicit true
open ByteMem

/-- The table that entry `i` of the RSDT at `rsdt` points to. -/
def rsdtEntry (ram : Mem) (rsdt i : Nat) : Nat := load ram (rsdt + 36 + i * 4) 4

/-- The number of entries `find_table` takes the RSDT to have. -/
def rsdtEntries (ram : Mem) (rsdt : Nat) : Nat :=
  sub64 (load ram (rsdt + 4) 4) 36 / 4 % 2 ^ 32

/-- The tables `find_table` maps when it looks for a signature, up to the one it finds. -/
def visited (ram : Mem) (rsdt : Nat) (signature : String) (i : Nat) : Nat → List Nat
  | 0 => []
  | n + 1 =>
    let table := rsdtEntry ram rsdt i
    if memcmp (fun j => ram (table + j)) (cString signature) 4 = 0 then [table]
    else table :: visited ram rsdt signature (i + 1) n

/-- The RSDP, the RSDT and the tables visited, in the order in which they are mapped. -/
def Platform.tables (pl : Platform) : List Nat :=
  match getRsdp pl.rsdp with
  | none => []
  | some rsdp =>
    let rsdt := load pl.ram (rsdp + 16) 4
    rsdp :: rsdt :: (visited pl.ram rsdt "APIC" 0 (rsdtEntries pl.ram rsdt) ++
      visited pl.ram rsdt "FACP" 0 (rsdtEntries pl.ram rsdt))

def readOnly (tables : List Nat) : List (Nat × BitVec 64) := tables.map fun a => (a, acpiFlags)

variable {σ : Type} {A : FrameAllocator σ} {h h' : Heap σ} {k : KernelLayout} {M : PageMap}
  {ram : Mem}

theorem getRsdp_some (h : getRsdp rsdp = some a) : rsdp = some a := by
  cases rsdp with
  | none => cases h
  | some b =>
    rw [getRsdp] at h
    split at h
    · exact h
    · cases h

theorem sprintfPanic_error (h₀ : sprintfPanic h buf n format va = .ok x) : False := by
  obtain ⟨⟨text, _⟩, _, h₀⟩ := bind_ok h₀
  cases text with
  | none => cases h₀
  | some text => cases h₀

theorem signaturePanic_error (h₀ : signaturePanic A h n format va = .ok x) : False := by
  obtain ⟨⟨buf, now⟩, _, h₀⟩ := bind_ok h₀
  exact sprintfPanic_error h₀

section Direct
variable (hd : h.Direct A k M) (hk : k.Regular)
include hd hk

theorem Heap.Direct.shows (hs : k.Shown a) (hb : h.shows ram (a + k.higherHalf) = some b) :
    b = ram a := by
  have hu := hk.hhdmUpper
  have hlt := hs.lt
  have hle := pageOf_le a
  rw [Heap.shows, hd.maps.access] at hb
  cases he : M (pageNumber (BitVec.ofNat 64 (a + k.higherHalf))) with
  | none =>
    rw [he] at hb
    cases hb
  | some e =>
    have hframe := hd.identity a hs e he
    have hoffset : pageOf a + (a + k.higherHalf) % pageSize = a := by
      have hdvd := hk.higherHalf
      rw [pageOf]
      simp only [pageSize] at *
      omega
    rw [he] at hb
    cases hb
    dsimp only
    rw [hframe, BitVec.toNat_ofNat, Nat.mod_eq_of_lt (by omega), hoffset]

theorem Heap.Direct.view (hs : ∀ i < n, k.Shown (a + i))
    (h₀ : h.reads ram (a + k.higherHalf) n = .ok u) (hi : i < n) :
    h.view ram (a + k.higherHalf) i = ram (a + i) := by
  rw [Heap.reads] at h₀
  split at h₀
  · next hall =>
    obtain ⟨b, hb⟩ := Option.isSome_iff_exists.1 (hall i hi)
    rw [Heap.view, hb, Option.getD_some]
    rw [Nat.add_right_comm] at hb
    exact hd.shows hk (hs i hi) hb
  · cases h₀

theorem Heap.Direct.loadAt (hs : ∀ i < n, k.Shown (a + i))
    (h₀ : h.loadAt ram (a + k.higherHalf) n = .ok x) : x = load ram a n := by
  obtain ⟨u, hr, h₀⟩ := bind_ok h₀
  cases h₀
  apply load_shift
  intro i hi
  rw [Nat.zero_add]
  exact hd.view hk hs hr hi

theorem Heap.Direct.memcmpAt (hs : ∀ j < i + n, k.Shown (a + j))
    (h₀ : h.memcmpAt ram (a + k.higherHalf) s i n = .ok r) :
    r = memcmpFrom (fun j => ram (a + j)) s i n := by
  induction n generalizing i with
  | zero =>
    cases h₀
    rfl
  | succ n ih =>
    rw [Heap.memcmpAt] at h₀
    cases hb : h.shows ram (a + k.higherHalf + i) with
    | none =>
      rw [hb] at h₀
      cases h₀
    | some b =>
      rw [hb] at h₀
      rw [Nat.add_right_comm] at hb
      have hval := hd.shows hk (hs i (by omega)) hb
      rw [memcmpFrom, ← hval]
      dsimp only at h₀
      split at h₀
      · next hne =>
        cases h₀
        rw [if_pos hne]
      · next heq =>
        rw [if_neg heq]
        apply ih _ h₀
        intro j hj
        exact hs j (by omega)

theorem Heap.Direct.checkRsdp (hs : ∀ i < 20, k.Shown (a + i))
    (h₀ : checkRsdp A ram h (a + k.higherHalf) = .ok x) : x = load ram (a + 16) 4 := by
  obtain ⟨u, hr, h₀⟩ := bind_ok h₀
  dsimp only at h₀
  split at h₀
  · exact (signaturePanic_error h₀).elim
  · split at h₀
    · cases h₀
    · cases h₀
      apply load_shift
      intro i hi
      rw [hd.view hk hs hr (by omega), Nat.add_assoc]

end Direct

theorem shown_of_lt (hp : HhdmPlaced k.higherHalf) (hv : 2 ^ 64 - 2 ^ 31 ≤ k.virtualBase)
    (ha : a < 0x10000000000) : k.Shown a := by
  have hroom := hp.room
  have hle := pageOf_le a
  have hpages : pageSize * maxPages = 2 ^ 32 := by decide
  refine ⟨by omega, fun himage => ?_, .inl ha⟩
  have hbase := himage.base
  omega

theorem readOnly_cons : readOnly (a :: l) = [(a, acpiFlags)] ++ readOnly l := rfl

theorem readOnly_append : readOnly (l ++ l') = readOnly l ++ readOnly l' := List.map_append

end AdaOS
