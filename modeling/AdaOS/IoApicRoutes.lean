import AdaOS.AddressSpace
import AdaOS.IoApic

namespace AdaOS
set_option autoImplicit true
open ByteMem

theorem toNat_mask {width : BitVec 8} (hpos : 0 < width.toNat) (hle : width.toNat ≤ 32) :
    (((if width = 32 then 0xFFFFFFFF else 1 <<< (width.toNat % 32) - 1 : Nat) : BitVec 32)).toNat =
      2 ^ width.toNat - 1 := by
  by_cases hfull : width = 32
  · rw [if_pos hfull, hfull]
    rfl
  · have hne : width.toNat ≠ 32 := fun h => hfull (BitVec.eq_of_toNat_eq h)
    have hpow : 2 ^ width.toNat ≤ 2 ^ 31 := Nat.pow_le_pow_right (by decide) (by omega)
    rw [if_neg hfull, Nat.mod_eq_of_lt (by omega), Nat.one_shiftLeft]
    exact Nat.mod_eq_of_lt (by omega)

theorem toNat_extractBitRange (value : BitVec 32) {high low : BitVec 8} (hle : low ≤ high)
    (hhigh : high < 32) :
    (extractBitRange value high low).toNat =
      value.toNat / 2 ^ low.toNat % 2 ^ (high.toNat - low.toNat + 1) := by
  have hlow : low.toNat ≤ high.toNat := hle
  have hlt : high.toNat < 32 := hhigh
  have hwidth : (high - low + 1).toNat = high.toNat - low.toNat + 1 := by
    rw [BitVec.toNat_add, BitVec.toNat_sub_of_le hle]
    exact Nat.mod_eq_of_lt (Nat.lt_of_le_of_lt (Nat.succ_le_succ (Nat.sub_le _ _)) (by omega))
  rw [extractBitRange, BitVec.toNat_and, toNat_mask (by omega) (by omega), hwidth,
    BitVec.toNat_ushiftRight, Nat.shiftRight_eq_div_pow, Nat.mod_eq_of_lt (by omega),
    Nat.and_two_pow_sub_one_eq_mod]

section Fields
variable (w : Madt) (pl : Platform)

def Madt.ioApicId (i : Nat) : Nat := field (w.entries .ioApics i) 0 1

def Madt.ioApicAddress (i : Nat) : Nat := field (w.entries .ioApics i) 2 4

def Madt.systemIntBase (i : Nat) : Nat := field (w.entries .ioApics i) 6 4

def Madt.overrideInt (q : Nat) : Nat := field (w.entries .ioApicSourceOverrides q) 2 4

def Madt.overrideFlags (q : Nat) : Nat := field (w.entries .ioApicSourceOverrides q) 6 2

/-- The ID field of the ID register of IO APIC `i`, bits 27 to 24. -/
def Platform.idField (i : Nat) : Nat :=
  (pl.ioApicRegister (w.ioApicAddress i) 0).toNat / 2 ^ 24 % 16

/-- What `test_bit_range` compares with the ID, bits 27 to 23. -/
def Platform.testedId (i : Nat) : Nat :=
  (pl.ioApicRegister (w.ioApicAddress i) 0).toNat / 2 ^ 23 % 32

/-- The highest entry number, bits 23 to 16 of the version register. -/
def Platform.highestEntry (i : Nat) : Nat :=
  (pl.ioApicRegister (w.ioApicAddress i) 1).toNat / 2 ^ 16 % 256

/-- The interrupt of an override is one of an IO APIC's. -/
def InRange (i q : Nat) : Prop :=
  w.systemIntBase i ≤ w.overrideInt q ∧
    w.overrideInt q ≤ w.systemIntBase i + pl.highestEntry w i

/-- The test of `setup_io_apic`, whose bounds are bytes and are left out. -/
def InNarrowRange (i q : Nat) : Prop :=
  w.systemIntBase i % 256 < w.overrideInt q ∧
    w.overrideInt q < (w.systemIntBase i + pl.highestEntry w i) % 256

end Fields

theorem field_lt (bytes : List (BitVec 8)) (offset n : Nat) : field bytes offset n < 256 ^ n :=
  load_lt _ _ _

theorem testId_eq (w : Madt) (pl : Platform) (i : Nat) :
    testBitRange (pl.ioApicRegister (w.ioApicAddress i) 0) 27 23
      (BitVec.ofNat 32 (w.ioApicId i)) = decide (pl.testedId w i = w.ioApicId i) := by
  have hid : w.ioApicId i < 256 ^ 1 := field_lt _ _ _
  have htested : (extractBitRange (pl.ioApicRegister (w.ioApicAddress i) 0) 27 23).toNat =
      pl.testedId w i := toNat_extractBitRange _ (by decide) (by decide)
  rw [testBitRange]
  congr 1
  rw [← BitVec.toNat_inj, htested, BitVec.toNat_ofNat, Nat.mod_eq_of_lt (by omega)]

theorem toNat_maxEntries (w : Madt) (pl : Platform) (i : Nat) :
    ((extractBitRange (pl.ioApicRegister (w.ioApicAddress i) 1) 23 16).setWidth 8).toNat =
      pl.highestEntry w i := by
  have hrange : (extractBitRange (pl.ioApicRegister (w.ioApicAddress i) 1) 23 16).toNat =
      pl.highestEntry w i := toNat_extractBitRange _ (by decide) (by decide)
  rw [BitVec.toNat_setWidth, hrange]
  exact Nat.mod_eq_of_lt (Nat.mod_lt _ (by decide))

/-- A call writes an entry as the override asks: the trigger mode is set for `LEVEL`, and the
polarity for `ACTIVE_LOW`. -/
structure RedirectionWrite.Routes (c : RedirectionWrite) (virtBase index flags : Nat) : Prop where
  base : c.base = virtBase
  index : c.index.toNat = index
  triggerMode : c.entry.triggerMode = 1 ↔ flags / 4 % 4 = 0b11
  polarity : c.entry.polarity = 1 ↔ flags % 4 = 0b11

section Overrides
variable (higherHalf : Nat) (pl : Platform) (stack : RedirectionEntry) (w : Madt)

/-- The calls for IO APIC `i` after `q` turns of the loop over the overrides, and the next index. -/
def routesAfter (i q : Nat) : List RedirectionWrite × BitVec 8 :=
  let lowest := BitVec.ofNat 8 (w.systemIntBase i)
  let maxEntries := (extractBitRange (pl.ioApicRegister (w.ioApicAddress i) 1) 23 16).setWidth 8
  (List.range q).foldl
    (routeOverride stack (u64 (w.ioApicAddress i + higherHalf)) lowest (maxEntries + lowest) w)
    ([], 0)

/-- Turn `q` writes one entry if the interrupt is one of the IO APIC's, and none otherwise. A
call with an index above the highest entry writes nothing. -/
def OverrideRouted (i q : Nat) : Prop :=
  ∃ new, (routesAfter higherHalf pl stack w i (q + 1)).1 =
      (routesAfter higherHalf pl stack w i q).1 ++ new ∧
    (InRange w pl i q → ∃ c, new.filter (·.index.toNat ≤ pl.highestEntry w i) = [c] ∧
      c.Routes (u64 (w.ioApicAddress i + higherHalf)) (w.overrideInt q - w.systemIntBase i)
        (w.overrideFlags q)) ∧
    (¬InRange w pl i q → new.filter (·.index.toNat ≤ pl.highestEntry w i) = [])

/-- No override is taken for one of the IO APIC's, or is one. -/
def NoneInRange (i : Nat) : Prop :=
  ∀ q < (w.num .ioApicSourceOverrides).toNat, ¬InRange w pl i q ∧ ¬InNarrowRange w pl i q

theorem narrowRange_iff (i q : Nat) :
    (field (w.entries .ioApicSourceOverrides q) 2 4 <
          ((extractBitRange (pl.ioApicRegister (w.ioApicAddress i) 1) 23 16).setWidth 8 +
            BitVec.ofNat 8 (w.systemIntBase i)).toNat ∧
        field (w.entries .ioApicSourceOverrides q) 2 4 >
          (BitVec.ofNat 8 (w.systemIntBase i)).toNat) ↔
      InNarrowRange w pl i q := by
  rw [BitVec.toNat_add, toNat_maxEntries, BitVec.toNat_ofNat, Nat.add_mod_mod, Nat.add_comm]
  exact and_comm

theorem routesAfter_succ_of_narrow (h : InNarrowRange w pl i q) :
    ∃ entry, (routesAfter higherHalf pl stack w i (q + 1)).1 =
      (routesAfter higherHalf pl stack w i q).1 ++
        [⟨u64 (w.ioApicAddress i + higherHalf), entry,
          (routesAfter higherHalf pl stack w i q).2⟩] := by
  refine ⟨overrideEntry stack (BitVec.ofNat 8 (w.overrideFlags q)), ?_⟩
  simp only [routesAfter, List.range_succ, List.foldl_append, List.foldl_cons, List.foldl_nil]
  rw [routeOverride, if_pos ((narrowRange_iff pl w i q).2 h)]
  rfl

theorem routesAfter_succ_of_not (h : ¬InNarrowRange w pl i q) :
    routesAfter higherHalf pl stack w i (q + 1) = routesAfter higherHalf pl stack w i q := by
  simp only [routesAfter, List.range_succ, List.foldl_append, List.foldl_cons, List.foldl_nil]
  rw [routeOverride, if_neg (mt (narrowRange_iff pl w i q).1 h)]

theorem routesAfter_of_none (h : ∀ r < q, ¬InNarrowRange w pl i r) :
    routesAfter higherHalf pl stack w i q = ([], 0) := by
  induction q with
  | zero => rfl
  | succ q ih =>
    rw [routesAfter_succ_of_not higherHalf pl stack w (h q (Nat.lt_succ_self q))]
    exact ih fun r hr => h r (Nat.lt_succ_of_lt hr)

theorem not_routed_of_first (h : ∀ r < q, ¬InNarrowRange w pl i r) (hq : InNarrowRange w pl i q) :
    ¬OverrideRouted higherHalf pl stack w i q := by
  intro ⟨new, hnew, hin, hout⟩
  obtain ⟨entry, hcall⟩ := routesAfter_succ_of_narrow higherHalf pl stack w hq
  rw [hcall, routesAfter_of_none higherHalf pl stack w h] at hnew
  have hnew := List.append_cancel_left hnew
  subst hnew
  by_cases hr : InRange w pl i q
  · obtain ⟨c, hc, hroutes⟩ := hin hr
    cases hc
    have hindex : 0 = w.overrideInt q - w.systemIntBase i := hroutes.index
    have hlow := hq.1
    have hhigh := hq.2
    have hbase := hr.1
    omega
  · cases hout hr

theorem overridesRouted_iff (i : Nat) :
    (∀ q < (w.num .ioApicSourceOverrides).toNat, OverrideRouted higherHalf pl stack w i q) ↔
      NoneInRange pl w i := by
  constructor
  · intro h
    have hnarrow : ∀ q < (w.num .ioApicSourceOverrides).toNat, ¬InNarrowRange w pl i q := by
      intro q
      induction q using Nat.strong_induction_on with
      | _ q ih =>
        intro hq hin
        exact not_routed_of_first higherHalf pl stack w
          (fun r hr => ih r hr (Nat.lt_trans hr hq)) hin (h q hq)
    intro q hq
    refine ⟨fun hin => ?_, hnarrow q hq⟩
    obtain ⟨new, hnew, hone, _⟩ := h q hq
    rw [routesAfter_succ_of_not higherHalf pl stack w (hnarrow q hq)] at hnew
    obtain ⟨c, hc, _⟩ := hone hin
    rw [List.self_eq_append_right.1 hnew] at hc
    cases hc
  · intro h q hq
    refine ⟨[], ?_, fun hin => absurd hin (h q hq).1, fun _ => rfl⟩
    rw [routesAfter_succ_of_not higherHalf pl stack w (h q hq).2, List.append_nil]

end Overrides

section Runs
variable {σ : Type} (A : FrameAllocator σ) (higherHalf : Nat) (pl : Platform)
  (stack : RedirectionEntry) (w : Madt)

theorem setupIoApicAt_eq (i : Nat) (h : Heap σ) :
    setupIoApicAt A higherHalf pl stack w i h =
      (h.mapDirect A higherHalf (w.ioApicAddress i) ioApicFlags >>= fun (mapped, h') =>
        if mapped = false then .error (.panic "Could not map page for IO APIC!")
        else if pl.testedId w i ≠ w.ioApicId i then
          .error (.panic "APIC ID did not match expected value!")
        else
          let (calls, _) := routesAfter higherHalf pl stack w i (w.num .ioApicSourceOverrides).toNat
          .ok (calls, h')) := by
  have htest := testId_eq w pl i
  rw [setupIoApicAt]
  change (h.mapDirect A higherHalf (w.ioApicAddress i) ioApicFlags >>= _) = _
  apply bind_congr_ok
  intro (mapped, h') _
  cases mapped with
  | false => rfl
  | true =>
    by_cases hid : pl.testedId w i = w.ioApicId i
    · rw [decide_eq_true hid] at htest
      have hpass : ¬testBitRange (pl.ioApicRegister (w.ioApicAddress i) 0) 27 23
          (BitVec.ofNat 32 (w.ioApicId i)) = false := by
        rw [htest]
        decide
      simp only [if_neg (not_not.2 hid)]
      exact if_neg hpass
    · rw [decide_eq_false hid] at htest
      simp only [if_pos hid]
      exact if_pos htest

/-- A turn returns if and only if the registers were mapped and have the ID. -/
theorem setupIoApicAt_ok_iff (i : Nat) (h : Heap σ) :
    setupIoApicAt A higherHalf pl stack w i h = .ok (calls, h') ↔
      h.mapDirect A higherHalf (w.ioApicAddress i) ioApicFlags = .ok (true, h') ∧
        pl.testedId w i = w.ioApicId i ∧
          (routesAfter higherHalf pl stack w i (w.num .ioApicSourceOverrides).toNat).1 =
            calls := by
  rw [setupIoApicAt_eq]
  constructor
  · intro h₀
    obtain ⟨⟨mapped, h''⟩, hmap, h₀⟩ := bind_ok h₀
    dsimp only at h₀
    split at h₀
    · cases h₀
    · next hmapped =>
      rw [Bool.not_eq_false] at hmapped
      subst hmapped
      split at h₀
      · cases h₀
      · next hid =>
        cases h₀
        exact ⟨hmap, not_not.1 hid, rfl⟩
  · rintro ⟨hmap, hid, rfl⟩
    rw [bind_of_ok hmap]
    exact if_neg (not_not.2 hid)

/-- On one IO APIC: it panics only on a wrong ID, and otherwise every override is routed. -/
structure IoApicRouted (i : Nat) (h : Heap σ) : Prop where
  panics : ∀ fault, setupIoApicAt A higherHalf pl stack w i h = .error fault →
    pl.idField w i ≠ w.ioApicId i
  routes : ∀ calls h', setupIoApicAt A higherHalf pl stack w i h = .ok (calls, h') →
    calls = (routesAfter higherHalf pl stack w i (w.num .ioApicSourceOverrides).toNat).1 ∧
      ∀ q < (w.num .ioApicSourceOverrides).toNat, OverrideRouted higherHalf pl stack w i q

/-- So it is on each of the `n` IO APICs from `i` on that the loop comes to. -/
def SetupRouted (i : Nat) : Nat → Heap σ → Prop
  | 0, _ => True
  | n + 1, h =>
    IoApicRouted A higherHalf pl stack w i h ∧
      ∀ calls h', setupIoApicAt A higherHalf pl stack w i h = .ok (calls, h') →
        SetupRouted (i + 1) n h'

/-- Each IO APIC up to the first that stops the boot is one for which there is nothing to do, and
the one that stops it has another ID. -/
def NothingToRoute (i : Nat) : Nat → Heap σ → Prop
  | 0, _ => True
  | n + 1, h =>
    match h.mapDirect A higherHalf (w.ioApicAddress i) ioApicFlags with
    | .ok (true, h') =>
      if pl.testedId w i = w.ioApicId i then NoneInRange pl w i ∧ NothingToRoute (i + 1) n h'
      else pl.idField w i ≠ w.ioApicId i
    | _ => pl.idField w i ≠ w.ioApicId i

/-- What one turn does is decided by the mapping and by the ID. -/
theorem ioApicRouted_iff (i : Nat) (h : Heap σ) :
    IoApicRouted A higherHalf pl stack w i h ↔
      match h.mapDirect A higherHalf (w.ioApicAddress i) ioApicFlags with
      | .ok (true, _) =>
        if pl.testedId w i = w.ioApicId i then NoneInRange pl w i
        else pl.idField w i ≠ w.ioApicId i
      | _ => pl.idField w i ≠ w.ioApicId i := by
  cases hrun : setupIoApicAt A higherHalf pl stack w i h with
  | ok r =>
    obtain ⟨calls, h'⟩ := r
    obtain ⟨hmap, hid, hcalls⟩ := (setupIoApicAt_ok_iff A higherHalf pl stack w i h).1 hrun
    simp only [hmap, if_pos hid]
    rw [← overridesRouted_iff higherHalf pl stack w i]
    constructor
    · exact fun hr => (hr.routes calls h' hrun).2
    · refine fun hall => ⟨fun fault hf => ?_, fun calls' h'' hok => ?_⟩
      · rw [hrun] at hf
        cases hf
      · rw [hrun] at hok
        cases hok
        exact ⟨hcalls.symm, hall⟩
  | error fault =>
    have hstop : IoApicRouted A higherHalf pl stack w i h ↔ pl.idField w i ≠ w.ioApicId i := by
      refine ⟨fun hr => hr.panics fault hrun, fun hne => ⟨fun _ _ => hne, fun calls h' hok => ?_⟩⟩
      rw [hrun] at hok
      cases hok
    split
    · next h' hmap =>
      have hid : pl.testedId w i ≠ w.ioApicId i := by
        intro hid
        rw [(setupIoApicAt_ok_iff A higherHalf pl stack w i h).2 ⟨hmap, hid, rfl⟩] at hrun
        cases hrun
      rw [if_neg hid]
      exact hstop
    · exact hstop

theorem setupRouted_iff (i n : Nat) (h : Heap σ) :
    SetupRouted A higherHalf pl stack w i n h ↔ NothingToRoute A higherHalf pl w i n h := by
  induction n generalizing i h with
  | zero => exact Iff.rfl
  | succ n ih =>
    rw [SetupRouted, NothingToRoute, ioApicRouted_iff]
    simp only [setupIoApicAt_ok_iff, ih]
    -- A turn that stops the boot is the last one of the run.
    cases h.mapDirect A higherHalf (w.ioApicAddress i) ioApicFlags with
    | error fault => exact and_iff_left fun _ _ ⟨hno, _⟩ => nomatch hno
    | ok r =>
      obtain ⟨mapped, h'⟩ := r
      cases mapped with
      | false => exact and_iff_left fun _ _ ⟨hno, _⟩ => nomatch hno
      | true =>
        by_cases hid : pl.testedId w i = w.ioApicId i
        · simp only [if_pos hid]
          apply and_congr_right
          intro _
          constructor
          · exact fun hrest => hrest _ h' ⟨rfl, hid, rfl⟩
          · rintro hrest calls h'' ⟨hsame, _⟩
            cases hsame
            exact hrest
        · simp only [if_neg hid]
          exact and_iff_left fun _ _ ⟨_, hno, _⟩ => absurd hno hid

/-- The routing follows the MADT exactly when, up to the first IO APIC that stops the boot, no
override is for one of them, and an IO APIC stops the boot only with another ID. -/
theorem setupIoApic_routes_iff (h : Heap σ) :
    SetupRouted A higherHalf pl stack w 0 (w.num .ioApics).toNat h ↔
      NothingToRoute A higherHalf pl w 0 (w.num .ioApics).toNat h :=
  setupRouted_iff A higherHalf pl stack w 0 _ h

end Runs

/-- One IO APIC of ID 1, whose ID register says so. -/
def ownId : Platform where
  ram := fun _ => 0
  rsdp := none
  apicBase := 0
  apicVersion := 0
  apicSpurious := 0
  ioApicRegister := fun _ register => if register = 0 then 0x01000000 else 0x00170020
  lastType := 0

def oneIoApic : Madt :=
  { Madt.start (fun _ _ => [1, 0, 0, 0, 0xc0, 0xfe, 0, 0, 0, 0]) 0 with
    num := fun a => if a = .ioApics then 1 else 0 }

/-- The five bits that are compared with the ID are twice the ID. -/
theorem ownId_rejected :
    ¬∀ (σ : Type) (A : FrameAllocator σ) (higherHalf : Nat) (pl : Platform)
      (stack : RedirectionEntry) (w : Madt) (h : Heap σ),
      SetupRouted A higherHalf pl stack w 0 (w.num .ioApics).toNat h := by
  intro hall
  obtain ⟨x, _, _⟩ := oneChunk_frames
  have hrouted := hall _ (pmmFrames oneChunk_sound) 0 ownId ⟨0, 0, 0, 0, 0, 0, 0, 0, 0, 0, 0⟩
    oneIoApic ⟨⟨fun _ _ => 0, x, []⟩, 0, fun _ => 0, 0, 0, 0⟩
  have hone : (oneIoApic.num .ioApics).toNat = 1 := by decide
  have hid : ownId.idField oneIoApic 0 = oneIoApic.ioApicId 0 := by decide
  have htested : ownId.testedId oneIoApic 0 ≠ oneIoApic.ioApicId 0 := by decide
  rw [hone, setupRouted_iff, NothingToRoute] at hrouted
  split at hrouted
  · rw [if_neg htested] at hrouted
    exact hrouted hid
  · exact hrouted hid

end AdaOS
