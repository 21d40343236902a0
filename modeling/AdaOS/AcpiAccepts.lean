import AdaOS.AcpiReads
import AdaOS.AcpiStalls

namespace AdaOS
set_option autoImplicit true
open ByteMem

/-- The page of the RSDP can be mapped, all of its bytes can be read, and seven bytes of its
signature are right: `bootstrap_acpi` goes on to its fields. -/
def RsdpUsed (A : FrameAllocator σ) (k : KernelLayout) (h : Heap σ) (ram : Mem) (rsdp : Nat) :
    Prop :=
  (∃ h₁, h.mapDirect A k.higherHalf rsdp acpiFlags = .ok (true, h₁) ∧
    h₁.reads ram (rsdp + k.higherHalf) 20 = .ok ()) ∧
  ∀ i < 7, ram (rsdp + i) = cString "RSD PTR " i

variable {σ : Type} {A : FrameAllocator σ} {h h' : Heap σ} {k : KernelLayout} {M : PageMap}
  {ram : Mem} {g g' : Nat → Prop} {pl : Platform}

theorem SearchMeets.found {next : (Nat → Prop) → Heap σ → Nat → Prop}
    (h₀ : SearchMeets A ram higherHalf rsdt signature next i n g h) :
    ∃ t g' h', firstTable ram signature (rsdtEntriesFrom ram rsdt i n) = some t ∧ next g' h' t := by
  induction n generalizing i g h with
  | zero => exact h₀.elim
  | succ n ih =>
    obtain ⟨_, mapped, h₁, _, _, hrest⟩ := h₀
    rw [rsdtEntriesFrom, List.range'_succ, List.map_cons, firstTable]
    split at hrest
    · next hsig => exact ⟨_, _, _, List.find?_cons_of_pos (decide_eq_true hsig), hrest⟩
    · next hsig =>
      rw [List.find?_cons_of_neg (by rwa [decide_eq_true_eq])]
      exact ih hrest

section Accepts
variable (hal : h.Aliases A k g) (hk : k.Regular) (hp : HhdmPlaced k.higherHalf)
  (hv : 2 ^ 64 - 2 ^ 31 ≤ k.virtualBase) (hget : getRsdp pl.rsdp = some rsdp)
  (hs : ∀ i < 20, k.Shown (rsdp + i))
include hal hk hp hv hget hs

/-- A run that returns has reported the page of the RSDP or found every table valid but for the
RSDP. -/
theorem Heap.Aliases.bootstrapAcpi_ok (hlast : RsdpUsed A k h pl.ram rsdp → ValidRsdp pl.ram rsdp)
    (h₀ : (AcpiRun.bootstrapAcpi A k.higherHalf pl h).result = .ok (vars, h')) :
    (.log .err "Could not map RSDP!" ∈ (AcpiRun.bootstrapAcpi A k.higherHalf pl h).events ∧
      vars = .initial pl.lastType) ∨ pl.Valid := by
  have hfirst : k.Shown rsdp := hs 0 (by decide)
  rw [AcpiRun.bootstrapAcpi, hget] at h₀ ⊢
  dsimp only at h₀ ⊢
  rw [u64_of_lt hfirst.lt] at h₀ ⊢
  rw [Traced.result_bind] at h₀
  obtain ⟨⟨mapped, h₁⟩, hmap, h₀⟩ := bind_ok h₀
  dsimp only at h₀
  split at h₀
  · next hmapped =>
    cases h₀
    refine .inl ⟨Traced.mem_bind.2 (.inr ⟨_, hmap, ?_⟩), rfl⟩
    dsimp only
    rw [if_pos hmapped]
    exact Traced.mem_bind.2 (.inl (List.mem_singleton_self _))
  next hmapped =>
  rw [AcpiRun.mapDirect_result] at hmap
  rw [Bool.not_eq_false] at hmapped
  rw [hmapped] at hmap
  rw [Traced.result_bind, AcpiRun.checkRsdp_result] at h₀
  obtain ⟨rsdt, hcheck, h₀⟩ := bind_ok h₀
  rw [AcpiRun.parseRsdt_result] at h₀
  have hal₁ := hal.mapDirect hk hp hfirst (by decide) hmap
  obtain ⟨hreads, hacc⟩ := (hal₁.checkRsdp_iff hk hs).1 ⟨_, hcheck⟩
  obtain ⟨hrsdt, ⟨madt, hmadt⟩, fadt, hfadt⟩ :=
    hal₁.parseRsdt_valid hk hp hv (checkRsdp_lt hcheck) h₀
  obtain ⟨M₁, hM₁, _⟩ := hal₁
  rw [hM₁.checkRsdp hk hs hcheck] at hrsdt hmadt hfadt
  exact .inr ⟨rsdp, madt, fadt, hget, hlast ⟨⟨h₁, hmap, hreads⟩, hacc.signature⟩, hrsdt, hmadt.1,
    hmadt.2, hfadt⟩

end Accepts

end AdaOS
