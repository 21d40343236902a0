import AdaOS.AcpiTracks

namespace AdaOS
set_option autoImplicit true
open ByteMem

/-- An RSDP with all eight bytes of its signature and a right checksum. -/
structure ValidRsdp (ram : Mem) (rsdp : Nat) : Prop where
  signature : ∀ i < 8, ram (rsdp + i) = cString "RSD PTR " i
  sum : (List.range 20).foldl (fun sum i => sum + (ram (rsdp + i)).toNat) 0 % 256 = 0

/-- A table with the signature, whose bytes add up to zero. -/
structure ValidSdt (ram : Mem) (signature : String) (table : Nat) : Prop where
  signature : HasSignature ram signature table
  sum : (List.range (load ram (table + 4) 4)).foldl (fun sum i => sum + ram (table + i))
    (0 : BitVec 8) = 0

/-- The first table with the signature among the entries that `find_table` goes through. -/
def foundTable (ram : Mem) (rsdt : Nat) (signature : String) : Option Nat :=
  firstTable ram signature (rsdtEntriesFrom ram rsdt 0 (rsdtEntries ram rsdt))

/-- The response and the tables are there and pass their checks. -/
def Platform.Valid (pl : Platform) : Prop :=
  ∃ rsdp madt fadt, getRsdp pl.rsdp = some rsdp ∧ ValidRsdp pl.ram rsdp ∧
    ValidSdt pl.ram "RSDT" (load pl.ram (rsdp + 16) 4) ∧
    foundTable pl.ram (load pl.ram (rsdp + 16) 4) "APIC" = some madt ∧
    ValidSdt pl.ram "APIC" madt ∧
    foundTable pl.ram (load pl.ram (rsdp + 16) 4) "FACP" = some fadt ∧
    ValidSdt pl.ram "FACP" fadt

/-- The table at a physical address is valid. -/
def AcpiTable.Valid (ram : Mem) : AcpiTable → Nat → Prop
  | .rsdp => ValidRsdp ram
  | .rsdt => ValidSdt ram "RSDT"
  | .madt => ValidSdt ram "APIC"
  | .fadt => ValidSdt ram "FACP"

variable {σ : Type} {A : FrameAllocator σ} {h h' : Heap σ} {k : KernelLayout} {M : PageMap}
  {ram : Mem} {g g' : Nat → Prop} {pl : Platform}

section Checks
variable (hal : h.Aliases A k g) (hk : k.Regular) (hp : HhdmPlaced k.higherHalf)
  (hv : 2 ^ 64 - 2 ^ 31 ≤ k.virtualBase)
include hal hk hp hv

theorem Heap.Aliases.hasSignature (ha : a < 2 ^ 32)
    (h₀ : checkHeaderSignature A ram h (a + k.higherHalf) expected = .ok ()) :
    HasSignature ram expected a := by
  obtain ⟨M, hd, _⟩ := hal
  obtain ⟨r, hr, h₀⟩ := bind_ok h₀
  split at h₀
  · exact (signaturePanic_error h₀).elim
  · next hzero =>
    have hc := hd.memcmpAt hk (fun j hj => shown_of_lt hp hv (by omega)) hr
    exact (memcmp_hasSignature hc.symm).1 (not_not.1 hzero)

theorem Heap.Aliases.sum_zero (ha : a < 2 ^ 32)
    (h₀ : checksumAt ram h (a + k.higherHalf) = .ok ()) :
    (List.range (load ram (a + 4) 4)).foldl (fun sum i => sum + ram (a + i)) (0 : BitVec 8) =
      0 := by
  obtain ⟨M, hd, _⟩ := hal
  obtain ⟨hlength, hall⟩ := hd.checksum_mapped hk hp hv ha h₀
  have hlt : load ram (a + 4) 4 < 2 ^ 32 := load_lt ram _ 4
  have hsize : sdtLength (h.view ram (a + k.higherHalf)) = load ram (a + 4) 4 :=
    hd.sdtLength_eq hk (fun i hi => shown_of_lt hp hv (by omega)) hlength
  obtain ⟨_, _, h₀⟩ := bind_ok h₀
  obtain ⟨_, _, h₀⟩ := bind_ok h₀
  rw [checksumHeader, hsize] at h₀
  split at h₀
  · cases h₀
  · next hzero =>
    refine (List.foldl_ext _ _ _ fun sum i hi => ?_).trans (not_not.1 hzero)
    have hi' := List.mem_range.1 hi
    rw [hd.view_of_mapped hk (shown_of_lt hp hv (by omega)) (hall i hi')]

theorem Heap.Aliases.findTable_found (hrsdt : rsdt < 2 ^ 32)
    (h₀ : findTable A ram k.higherHalf h (rsdt + k.higherHalf) signature = .ok (r, h')) :
    r = (foundTable ram rsdt signature).elim 0 (· + k.higherHalf) := by
  obtain ⟨M, hd, _⟩ := hal
  obtain ⟨length, hload, h₀⟩ := bind_ok h₀
  rw [Nat.add_right_comm] at hload
  have hlength := hd.loadAt hk (fun j hj => shown_of_lt hp hv (by omega)) hload
  have hentries : rsdtEntries ram rsdt < 2 ^ 32 := Nat.mod_lt _ (by decide)
  rw [hlength, ← rsdtEntries] at h₀
  exact hd.findEntry_first hk hp hv (by omega) h₀

theorem Heap.Aliases.found_valid (hal' : h'.Aliases A k g') (hrsdt : rsdt < 2 ^ 32)
    (ha : a < 2 ^ 32)
    (h₀ : findTable A ram k.higherHalf h (rsdt + k.higherHalf) signature =
      .ok (a + k.higherHalf, h'))
    (hsum : checksumAt ram h' (a + k.higherHalf) = .ok ()) :
    foundTable ram rsdt signature = some a ∧ ValidSdt ram signature a := by
  have hu := hk.hhdmUpper
  have hr := hal.findTable_found hk hp hv hrsdt h₀
  cases hfound : foundTable ram rsdt signature with
  | none =>
    rw [hfound] at hr
    change a + k.higherHalf = 0 at hr
    omega
  | some t =>
    rw [hfound] at hr
    obtain rfl : a = t := Nat.add_right_cancel hr
    have hsig : decide (HasSignature ram signature a) = true :=
      List.find?_some (p := fun t => decide (HasSignature ram signature t)) hfound
    exact ⟨rfl, of_decide_eq_true hsig, hal'.sum_zero hk hp hv ha hsum⟩

end Checks

/-- What `bootstrap_acpi` has checked of the RSDP when it goes on. -/
structure RsdpAccepted (ram : Mem) (rsdp : Nat) : Prop where
  signature : ∀ i < 7, ram (rsdp + i) = cString "RSD PTR " i
  sum : (List.range 20).foldl (fun sum i => sum + (ram (rsdp + i)).toNat) 0 % 256 = 0

theorem checksum_low_byte (n : Nat) : (n % 2 ^ 32 &&& 0xff = 0) ↔ n % 256 = 0 := by
  rw [show 0xff = 2 ^ 8 - 1 from rfl, Nat.and_two_pow_sub_one_eq_mod]
  omega

theorem Heap.Aliases.rsdp_view (hal : h.Aliases A k g) (hk : k.Regular)
    (hs : ∀ i < 20, k.Shown (a + i)) (hreads : h.reads ram (a + k.higherHalf) 20 = .ok ())
    (hi : i < 20) : h.view ram (a + k.higherHalf) i = ram (a + i) := by
  obtain ⟨M, hd, _⟩ := hal
  exact hd.view hk hs hreads hi

theorem Heap.Aliases.rsdp_signature (hal : h.Aliases A k g) (hk : k.Regular)
    (hs : ∀ i < 20, k.Shown (a + i)) (hreads : h.reads ram (a + k.higherHalf) 20 = .ok ()) :
    memcmp (h.view ram (a + k.higherHalf)) (cString "RSD PTR ") 7 = 0 ↔
      ∀ i < 7, ram (a + i) = cString "RSD PTR " i := by
  rw [memcmp_eq_zero]
  apply forall₂_congr
  intro i hi
  rw [hal.rsdp_view hk hs hreads (by omega)]

theorem Heap.Aliases.rsdp_sum (hal : h.Aliases A k g) (hk : k.Regular)
    (hs : ∀ i < 20, k.Shown (a + i)) (hreads : h.reads ram (a + k.higherHalf) 20 = .ok ()) :
    (List.range 20).foldl (fun sum i => sum + (h.view ram (a + k.higherHalf) i).toNat) 0 =
      (List.range 20).foldl (fun sum i => sum + (ram (a + i)).toNat) 0 := by
  apply List.foldl_ext
  intro sum i hi
  rw [hal.rsdp_view hk hs hreads (List.mem_range.1 hi)]

theorem Heap.Aliases.checkRsdp_iff (hal : h.Aliases A k g) (hk : k.Regular)
    (hs : ∀ i < 20, k.Shown (a + i)) : (∃ x, checkRsdp A ram h (a + k.higherHalf) = .ok x) ↔
      h.reads ram (a + k.higherHalf) 20 = .ok () ∧ RsdpAccepted ram a := by
  constructor
  · rintro ⟨x, h₀⟩
    obtain ⟨_, hreads, h₀⟩ := bind_ok h₀
    dsimp only at h₀
    split at h₀
    · exact (signaturePanic_error h₀).elim
    next hcmp =>
    split at h₀
    · cases h₀
    next hzero =>
    rw [hal.rsdp_sum hk hs hreads, not_not, checksum_low_byte] at hzero
    exact ⟨hreads, (hal.rsdp_signature hk hs hreads).1 (not_not.1 hcmp), hzero⟩
  · rintro ⟨hreads, hacc⟩
    refine ⟨load (h.view ram (a + k.higherHalf)) 16 4, (bind_of_ok hreads _).trans ?_⟩
    dsimp only
    rw [if_neg (not_not.2 ((hal.rsdp_signature hk hs hreads).2 hacc.signature)),
      hal.rsdp_sum hk hs hreads, if_neg (not_not.2 ((checksum_low_byte _).2 hacc.sum))]

section Parsed
variable (hal : h.Aliases A k g) (hk : k.Regular) (hp : HhdmPlaced k.higherHalf)
  (hv : 2 ^ 64 - 2 ^ 31 ≤ k.virtualBase)
include hal hk hp hv

/-- A run from the RSDT on that returns has found valid tables. -/
theorem Heap.Aliases.parseRsdt_valid (hrsdt : rsdt < 2 ^ 32)
    (h₀ : parseRsdt A ram k.higherHalf lastType h rsdt = .ok (vars, h')) :
    ValidSdt ram "RSDT" rsdt ∧
      (∃ madt, foundTable ram rsdt "APIC" = some madt ∧ ValidSdt ram "APIC" madt) ∧
      ∃ fadt, foundTable ram rsdt "FACP" = some fadt ∧ ValidSdt ram "FACP" fadt := by
  have hroom := hp.room
  have hvirt : u64 (rsdt + k.higherHalf) = rsdt + k.higherHalf := u64_of_lt (by omega)
  have hfind : ∀ {h₁ h₂ : Heap σ} {g₁ r s}, h₁.Aliases A k g₁ →
      findTable A ram k.higherHalf h₁ (rsdt + k.higherHalf) s = .ok (r, h₂) →
      ∃ g₂, h₂.Aliases A k g₂ ∧ (r = 0 ∨ ∃ t < 2 ^ 32, r = t + k.higherHalf) := by
    intro h₁ h₂ g₁ r s hal₁ hf
    rw [← AcpiRun.findTable_result] at hf
    exact ⟨_, (tracks_findTable (U := fun _ _ => True) hal₁ hk hp hv hrsdt trivial s).done _ hf⟩
  obtain ⟨⟨mapped, h₁⟩, hmap, h₀⟩ := bind_ok h₀
  dsimp only at h₀
  rw [hvirt] at h₀
  split at h₀
  · cases h₀
  have hal₁ := hal.mapDirect hk hp (shown_of_lt hp hv (by omega)) (by decide) hmap
  obtain ⟨_, hsig, h₀⟩ := bind_ok h₀
  obtain ⟨_, hsum, h₀⟩ := bind_ok h₀
  obtain ⟨⟨madtHeader, h₂⟩, hapic, h₀⟩ := bind_ok h₀
  dsimp only at h₀
  split at h₀
  · cases h₀
  next hmadt =>
  obtain ⟨g₂, hal₂, hheader⟩ := hfind hal₁ hapic
  obtain ⟨madt, hlt, rfl⟩ := hheader.resolve_left hmadt
  obtain ⟨_, hmadtSum, h₀⟩ := bind_ok h₀
  obtain ⟨⟨w, h₃⟩, hparse, h₀⟩ := bind_ok h₀
  rw [← AcpiRun.parseMadtAt_result] at hparse
  have hal₃ := (tracks_parseMadtAt (U := fun _ _ => True) hal₂ hk hp hv hlt trivial
    lastType).done _ hparse
  obtain ⟨⟨fadtHeader, h₄⟩, hfacp, h₀⟩ := bind_ok h₀
  dsimp only at h₀
  split at h₀
  · cases h₀
  next hfadt =>
  obtain ⟨g₄, hal₄, hheader⟩ := hfind hal₃ hfacp
  obtain ⟨fadt, hlt', rfl⟩ := hheader.resolve_left hfadt
  obtain ⟨_, hfadtSum, h₀⟩ := bind_ok h₀
  exact ⟨⟨hal₁.hasSignature hk hp hv hrsdt hsig, hal₁.sum_zero hk hp hv hrsdt hsum⟩,
    ⟨madt, hal₁.found_valid hk hp hv hal₂ hrsdt hlt hapic hmadtSum⟩,
    ⟨fadt, hal₃.found_valid hk hp hv hal₄ hrsdt hlt' hfacp hfadtSum⟩⟩

end Parsed

theorem mem_bootstrapAcpi (hget : getRsdp pl.rsdp = some rsdp)
    (hlt : rsdp + k.higherHalf < 2 ^ 64)
    (hmap : h.mapDirect A k.higherHalf rsdp acpiFlags = .ok (true, h'))
    (he : e ∈ (AcpiRun.checkRsdp A pl.ram h' (rsdp + k.higherHalf)).events) :
    e ∈ (AcpiRun.bootstrapAcpi A k.higherHalf pl h).events := by
  rw [AcpiRun.bootstrapAcpi, hget]
  dsimp only
  rw [u64_of_lt hlt]
  apply Traced.mem_bind.2
  refine .inr ⟨(true, h'), (AcpiRun.mapDirect_result A h k.higherHalf rsdp).trans hmap, ?_⟩
  exact Traced.mem_bind.2 (.inl he)

end AdaOS
