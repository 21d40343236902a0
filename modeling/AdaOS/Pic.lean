import Mathlib.Data.List.Basic
import AdaOS.Basic

namespace AdaOS
set_option autoImplicit true

def PIC1_COMMAND : BitVec 16 := 0x20
def PIC1_DATA : BitVec 16 := 0x21
def PIC2_COMMAND : BitVec 16 := 0xA0
def PIC2_DATA : BitVec 16 := 0xA1

def ICW1_INIT : BitVec 8 := 0x10
def ICW1_ICW4 : BitVec 8 := 0x01
def ICW2_M : BitVec 8 := 0x20
def ICW2_S : BitVec 8 := 0x28
def ICW4_8086 : BitVec 8 := 0x01

/-- What an 8259 takes the next byte on its data port for. -/
inductive PicAwaits where
  | vector
  | cascade
  | mode
  | mask
  deriving DecidableEq, Repr

/-- An 8259 with the words it has been given. -/
structure Pic where
  awaits : PicAwaits
  icw1 : BitVec 8
  icw2 : BitVec 8
  icw3 : BitVec 8
  icw4 : BitVec 8
  mask : BitVec 8
  deriving DecidableEq, Repr

/-- Bit 4 of a command starts the initialization, which clears the mask. -/
def Pic.command (p : Pic) (val : BitVec 8) : Pic :=
  if val.getLsbD 4 then { p with awaits := .vector, icw1 := val, icw4 := 0, mask := 0 } else p

def Pic.data (p : Pic) (val : BitVec 8) : Pic :=
  let last : PicAwaits := if p.icw1.getLsbD 0 then .mode else .mask
  match p.awaits with
  | .vector => { p with awaits := if p.icw1.getLsbD 1 then last else .cascade, icw2 := val }
  | .cascade => { p with awaits := last, icw3 := val }
  | .mode => { p with awaits := .mask, icw4 := val }
  | .mask => { p with mask := val }

/-- The two controllers of a PC. -/
structure Pics where
  pic1 : Pic
  pic2 : Pic
  deriving DecidableEq, Repr

def Pics.outb (p : Pics) (port : BitVec 16) (val : BitVec 8) : Pics :=
  if port = PIC1_COMMAND then { p with pic1 := p.pic1.command val }
  else if port = PIC1_DATA then { p with pic1 := p.pic1.data val }
  else if port = PIC2_COMMAND then { p with pic2 := p.pic2.command val }
  else if port = PIC2_DATA then { p with pic2 := p.pic2.data val }
  else p

def Pics.inb (p : Pics) (port : BitVec 16) : BitVec 8 :=
  if port = PIC1_DATA then p.pic1.mask else p.pic2.mask

/-- A shift by 31 or more is undefined for an `int`. -/
def unmaskIrq (p : Pics) (irq : BitVec 8) : Except Fault Pics :=
  let port := if irq < 8 then PIC1_DATA else PIC2_DATA
  let irq := if irq < 8 then irq else irq - 8
  let value := p.inb port
  if irq < 31 then
    .ok (p.outb port ((value.setWidth 32 &&& ~~~(1#32 <<< irq)).setWidth 8))
  else .error .outOfBounds

def setupPic (p : Pics) : Pics :=
  let p := p.outb PIC1_COMMAND (ICW1_INIT ||| ICW1_ICW4)
  let p := p.outb PIC2_COMMAND (ICW1_INIT ||| ICW1_ICW4)
  let p := p.outb PIC1_DATA ICW2_M
  let p := p.outb PIC2_DATA ICW2_S
  let p := p.outb PIC1_DATA 0x04
  let p := p.outb PIC2_DATA 0x02
  let p := p.outb PIC1_DATA ICW4_8086
  let p := p.outb PIC2_DATA ICW4_8086
  let p := p.outb PIC1_DATA 0xFF
  p.outb PIC2_DATA 0xFF

/-- A controller raises the vector of a line that is not masked once it is initialized. -/
def Pic.vector (p : Pic) (line : Nat) : Option (BitVec 8) :=
  if p.awaits = .mask ∧ p.icw4.getLsbD 0 ∧ p.mask.getLsbD line = false then
    some ((p.icw2 &&& 0xF8) ||| .ofNat 8 line)
  else none

/-- The vector of one of the 16 lines: those of the second controller come through the line of the
first that both have been told of. -/
def Pics.vector (p : Pics) (line : Nat) : Option (BitVec 8) :=
  if line < 8 then
    if p.pic1.icw3.getLsbD line then none else p.pic1.vector line
  else if p.pic1.icw3.getLsbD p.pic2.icw3.toNat then
    (p.pic1.vector p.pic2.icw3.toNat).bind fun _ => p.pic2.vector (line - 8)
  else none

/-- The controllers as `setup_pic` leaves them, with these masks. -/
def remapped (mask₁ mask₂ : BitVec 8) : Pics where
  pic1 := ⟨.mask, ICW1_INIT ||| ICW1_ICW4, ICW2_M, 0x04, ICW4_8086, mask₁⟩
  pic2 := ⟨.mask, ICW1_INIT ||| ICW1_ICW4, ICW2_S, 0x02, ICW4_8086, mask₂⟩

theorem outb_command1 (p : Pics) (val : BitVec 8) :
    p.outb PIC1_COMMAND val = { p with pic1 := p.pic1.command val } := if_pos rfl

theorem outb_data1 (p : Pics) (val : BitVec 8) :
    p.outb PIC1_DATA val = { p with pic1 := p.pic1.data val } := rfl

theorem outb_command2 (p : Pics) (val : BitVec 8) :
    p.outb PIC2_COMMAND val = { p with pic2 := p.pic2.command val } := rfl

theorem outb_data2 (p : Pics) (val : BitVec 8) :
    p.outb PIC2_DATA val = { p with pic2 := p.pic2.data val } := rfl

theorem Pic.initialized (p : Pic) (icw2 icw3 icw4 mask : BitVec 8) :
    ((((p.command (ICW1_INIT ||| ICW1_ICW4)).data icw2).data icw3).data icw4).data mask =
      ⟨.mask, ICW1_INIT ||| ICW1_ICW4, icw2, icw3, icw4, mask⟩ := by
  have hinit : (ICW1_INIT ||| ICW1_ICW4).getLsbD 4 = true := by decide
  have hsingle : ¬ (ICW1_INIT ||| ICW1_ICW4).getLsbD 1 = true := by decide
  have hicw4 : (ICW1_INIT ||| ICW1_ICW4).getLsbD 0 = true := by decide
  rw [Pic.command, if_pos hinit]
  simp only [Pic.data, if_neg hsingle, if_pos hicw4]

theorem setupPic_eq (p : Pics) : setupPic p = remapped 0xFF 0xFF := by
  simp only [setupPic, outb_command1, outb_data1, outb_command2, outb_data2, Pic.initialized]
  rfl

/-- A mask has the bits of the lines clear that have been unmasked. -/
def MaskOf (irqs : List (BitVec 8)) (first : Nat) (mask : BitVec 8) : Prop :=
  ∀ line < 8, mask.getLsbD line = false ↔ BitVec.ofNat 8 (first + line) ∈ irqs

def unmasked (value irq : BitVec 8) : BitVec 8 :=
  (value.setWidth 32 &&& ~~~(1#32 <<< irq)).setWidth 8

theorem getLsbD_unmasked (value irq : BitVec 8) (hl : line < 8) :
    (unmasked value irq).getLsbD line = false ↔
      value.getLsbD line = false ∨ irq.toNat = line := by
  have h32 : line < 32 := by omega
  rw [unmasked, BitVec.getLsbD_setWidth, BitVec.getLsbD_and, BitVec.getLsbD_not,
    BitVec.getLsbD_setWidth, BitVec.shiftLeft_eq', BitVec.getLsbD_shiftLeft, BitVec.getLsbD_one]
  simp only [hl, h32, decide_true, Bool.true_and]
  by_cases hv : value.getLsbD line = true
  · simp [hv]
    omega
  · simp [hv]

theorem MaskOf.concat (h : MaskOf irqs first mask) {irq pin : BitVec 8}
    (hpin : ∀ line < 8, pin.toNat = line ↔ BitVec.ofNat 8 (first + line) = irq) :
    MaskOf (irqs ++ [irq]) first (unmasked mask pin) := by
  intro line hl
  rw [getLsbD_unmasked mask pin hl, h line hl, hpin line hl, List.mem_append, List.mem_singleton]

theorem MaskOf.concat_other (h : MaskOf irqs first mask) {irq : BitVec 8}
    (hne : ∀ line < 8, BitVec.ofNat 8 (first + line) ≠ irq) :
    MaskOf (irqs ++ [irq]) first mask := by
  intro line hl
  rw [h line hl, List.mem_append, List.mem_singleton, or_iff_left (hne line hl)]

theorem unmaskIrq_low (h : irq.toNat < 8) (mask₁ mask₂ : BitVec 8) :
    unmaskIrq (remapped mask₁ mask₂) irq = .ok (remapped (unmasked mask₁ irq) mask₂) := by
  have hlt : irq < 8 := h
  have hshift : irq < 31 := Nat.lt_trans h (by decide)
  rw [unmaskIrq]
  simp only [if_pos hlt]
  rw [if_pos hshift, outb_data1]
  rfl

theorem unmaskIrq_high (h : 8 ≤ irq.toNat) (h' : irq.toNat < 39) (mask₁ mask₂ : BitVec 8) :
    unmaskIrq (remapped mask₁ mask₂) irq = .ok (remapped mask₁ (unmasked mask₂ (irq - 8))) := by
  have hge : ¬ irq < 8 := Nat.not_lt.2 h
  have hshift : irq - 8 < 31 := by
    rw [BitVec.lt_def, BitVec.toNat_sub_of_le (show (8 : BitVec 8) ≤ irq from h)]
    change irq.toNat - 8 < 31
    omega
  rw [unmaskIrq]
  simp only [if_neg hge]
  rw [if_pos hshift, outb_data2]
  rfl

theorem unmaskIrq_undefined (h : 39 ≤ irq.toNat) (p : Pics) :
    unmaskIrq p irq = .error .outOfBounds := by
  have hle : (8 : Nat) ≤ irq.toNat := Nat.le_trans (by decide) h
  have hge : ¬ irq < 8 := Nat.not_lt.2 hle
  have hshift : ¬ irq - 8 < 31 := by
    rw [BitVec.lt_def, BitVec.toNat_sub_of_le (show (8 : BitVec 8) ≤ irq from hle)]
    change ¬ irq.toNat - 8 < 31
    omega
  rw [unmaskIrq]
  simp only [if_neg hge]
  rw [if_neg hshift]

/-- The controllers after some calls of `unmask_irq`. -/
def Unmasked (irqs : List (BitVec 8)) (p : Pics) : Prop :=
  ∃ mask₁ mask₂, p = remapped mask₁ mask₂ ∧ MaskOf irqs 0 mask₁ ∧ MaskOf irqs 8 mask₂

theorem unmasked_setupPic (p : Pics) : Unmasked [] (setupPic p) := by
  have hset : ∀ line < 8, ¬ (0xFF : BitVec 8).getLsbD line = false := by decide
  exact ⟨0xFF, 0xFF, setupPic_eq p, fun line hl => iff_of_false (hset line hl) nofun,
    fun line hl => iff_of_false (hset line hl) nofun⟩

theorem Unmasked.step (h : Unmasked irqs p) (hirq : irq.toNat < 39) :
    ∃ q, unmaskIrq p irq = .ok q ∧ Unmasked (irqs ++ [irq]) q := by
  obtain ⟨mask₁, mask₂, rfl, h₁, h₂⟩ := h
  by_cases hlow : irq.toNat < 8
  · refine ⟨_, unmaskIrq_low hlow mask₁ mask₂, _, _, rfl, h₁.concat fun line hl => ?_,
      h₂.concat_other fun line hl heq => ?_⟩
    · rw [← BitVec.toNat_inj, BitVec.toNat_ofNat]
      omega
    · rw [← heq, BitVec.toNat_ofNat] at hlow
      omega
  · refine ⟨_, unmaskIrq_high (Nat.le_of_not_lt hlow) hirq mask₁ mask₂, _, _, rfl,
      h₁.concat_other fun line hl heq => ?_, h₂.concat fun line hl => ?_⟩
    · rw [← heq, BitVec.toNat_ofNat] at hlow
      omega
    · have hsub : (irq - 8).toNat = irq.toNat - 8 :=
        BitVec.toNat_sub_of_le (show (8 : BitVec 8) ≤ irq from Nat.le_of_not_lt hlow)
      rw [hsub, ← BitVec.toNat_inj, BitVec.toNat_ofNat]
      omega

theorem Unmasked.run (h : Unmasked before p) (hirqs : ∀ irq ∈ irqs, irq.toNat < 39) :
    ∃ q, irqs.foldlM unmaskIrq p = .ok q ∧ Unmasked (before ++ irqs) q := by
  induction irqs generalizing before p with
  | nil => exact ⟨p, rfl, by rwa [List.append_nil]⟩
  | cons irq irqs ih =>
    obtain ⟨p', hp', h'⟩ := h.step (hirqs irq List.mem_cons_self)
    obtain ⟨q, hq, hafter⟩ := ih h' fun i hi => hirqs i (List.mem_cons_of_mem irq hi)
    refine ⟨q, ?_, ?_⟩
    · rw [List.foldlM_cons, bind_of_ok hp', hq]
    · rwa [List.append_assoc, List.singleton_append] at hafter

theorem run_undefined {irqs : List (BitVec 8)} {irq : BitVec 8} (hirq : irq ∈ irqs)
    (hle : 39 ≤ irq.toNat) (p q : Pics) : irqs.foldlM unmaskIrq p ≠ .ok q := by
  induction irqs generalizing p with
  | nil => cases hirq
  | cons i irqs ih =>
    intro hrun
    rw [List.foldlM_cons] at hrun
    obtain ⟨p', hp', hrest⟩ := bind_ok hrun
    obtain rfl | hmem := List.mem_cons.1 hirq
    · rw [unmaskIrq_undefined hle] at hp'
      cases hp'
    · exact ih hmem p' hrest

theorem Pic.vector_initialized (icw1 icw2 icw3 mask : BitVec 8) (line : Nat) :
    (Pic.mk .mask icw1 icw2 icw3 ICW4_8086 mask).vector line =
      if mask.getLsbD line = false then some ((icw2 &&& 0xF8) ||| .ofNat 8 line) else none := by
  have hmode : ICW4_8086.getLsbD 0 = true := by decide
  by_cases hm : mask.getLsbD line = false
  · rw [Pic.vector, if_pos ⟨rfl, hmode, hm⟩, if_pos hm]
  · rw [Pic.vector, if_neg (fun h => hm h.2.2), if_neg hm]

theorem remapped_vector_low (hl : line < 8) (mask₁ mask₂ : BitVec 8) :
    (remapped mask₁ mask₂).vector line =
      if line ≠ 2 ∧ mask₁.getLsbD line = false then some (.ofNat 8 (0x20 + line)) else none := by
  have hline : ∀ line < 8, (ICW2_M &&& 0xF8) ||| BitVec.ofNat 8 line = .ofNat 8 (0x20 + line) := by
    decide
  have hcascade : ∀ line < 8, (0x04 : BitVec 8).getLsbD line = true ↔ line = 2 := by decide
  rw [Pics.vector, if_pos hl, remapped, Pic.vector_initialized, hline line hl]
  by_cases h2 : line = 2
  · rw [if_pos ((hcascade line hl).2 h2), if_neg (fun h => h.1 h2)]
  · rw [if_neg (mt (hcascade line hl).1 h2)]
    by_cases hm : mask₁.getLsbD line = false
    · rw [if_pos hm, if_pos ⟨h2, hm⟩]
    · rw [if_neg hm, if_neg (fun h => hm h.2)]

theorem remapped_vector_high (hl : line < 8) (mask₁ mask₂ : BitVec 8) :
    (remapped mask₁ mask₂).vector (8 + line) =
      if mask₁.getLsbD 2 = false ∧ mask₂.getLsbD line = false then
        some (.ofNat 8 (0x28 + line)) else none := by
  have hline : ∀ line < 8, (ICW2_S &&& 0xF8) ||| BitVec.ofNat 8 line = .ofNat 8 (0x28 + line) := by
    decide
  have hnot : ¬ 8 + line < 8 := by omega
  have hcascade : (0x04 : BitVec 8).getLsbD (2 : BitVec 8).toNat = true := by decide
  rw [Pics.vector, if_neg hnot, remapped]
  dsimp only
  rw [if_pos hcascade, Pic.vector_initialized, Pic.vector_initialized, Nat.add_sub_cancel_left,
    hline line hl]
  change ((if mask₁.getLsbD 2 = false then _ else _ : Option (BitVec 8)).bind fun _ => _) = _
  by_cases h1 : mask₁.getLsbD 2 = false
  · rw [if_pos h1, Option.bind_some]
    by_cases h2 : mask₂.getLsbD line = false
    · rw [if_pos h2, if_pos ⟨h1, h2⟩]
    · rw [if_neg h2, if_neg (fun h : _ ∧ _ => h2 h.2)]
  · rw [if_neg h1, Option.bind_none, if_neg (fun h : _ ∧ _ => h1 h.1)]

/-- Which lines interrupt, and at which vectors. -/
theorem Unmasked.vector_iff {irqs : List (BitVec 8)} {q : Pics} (h : Unmasked irqs q)
    (hl : line < 16) (v : BitVec 8) :
    q.vector line = some v ↔ v = .ofNat 8 (0x20 + line) ∧
      BitVec.ofNat 8 line ∈ irqs ∧ line ≠ 2 ∧ (8 ≤ line → 2 ∈ irqs) := by
  obtain ⟨mask₁, mask₂, rfl, h₁, h₂⟩ := h
  by_cases hlow : line < 8
  · have hmask := h₁ line hlow
    rw [Nat.zero_add] at hmask
    rw [remapped_vector_low hlow, Option.ite_none_right_eq_some, hmask, Option.some_inj]
    constructor
    · rintro ⟨⟨h2, hmem⟩, rfl⟩
      exact ⟨rfl, hmem, h2, fun hle => absurd hlow (Nat.not_lt.2 hle)⟩
    · rintro ⟨rfl, hmem, h2, _⟩
      exact ⟨⟨h2, hmem⟩, rfl⟩
  · have hhigh := Nat.le_of_not_lt hlow
    obtain ⟨n, rfl⟩ := Nat.exists_eq_add_of_le hhigh
    have hn : n < 8 := by omega
    have hnumber : 0x20 + (8 + n) = 0x28 + n := by omega
    have hcascade : mask₁.getLsbD 2 = false ↔ (2 : BitVec 8) ∈ irqs := h₁ 2 (by decide)
    rw [remapped_vector_high hn, Option.ite_none_right_eq_some, h₂ n hn, hcascade, hnumber,
      Option.some_inj]
    constructor
    · rintro ⟨⟨h2, hmem⟩, rfl⟩
      exact ⟨rfl, hmem, by omega, fun _ => h2⟩
    · rintro ⟨rfl, hmem, _, h2⟩
      exact ⟨⟨h2 hhigh, hmem⟩, rfl⟩

theorem Unmasked.of_run {irqs : List (BitVec 8)}
    (hrun : irqs.foldlM unmaskIrq (setupPic p) = .ok q) :
    (∀ irq ∈ irqs, irq.toNat < 39) ∧ Unmasked irqs q := by
  have hlt : ∀ irq ∈ irqs, irq.toNat < 39 := by
    intro irq hirq
    by_contra hle
    exact run_undefined hirq (Nat.le_of_not_lt hle) _ q hrun
  obtain ⟨q', hq', h⟩ := (unmasked_setupPic p).run hlt
  rw [hrun] at hq'
  cases hq'
  exact ⟨hlt, h⟩

/-- Whatever the controllers did before, behind `setup_pic` a line interrupts if it has been
unmasked, at its number from 0x20 on; but those of the second controller only if line 2 has been
unmasked too, where no device interrupts. -/
theorem unmasked_lines (p : Pics) (irqs : List (BitVec 8)) :
    ((∃ q, irqs.foldlM unmaskIrq (setupPic p) = .ok q) ↔ ∀ irq ∈ irqs, irq.toNat < 39) ∧
    ∀ q, irqs.foldlM unmaskIrq (setupPic p) = .ok q → ∀ line < 16, ∀ v,
      q.vector line = some v ↔ v = .ofNat 8 (0x20 + line) ∧
        BitVec.ofNat 8 line ∈ irqs ∧ line ≠ 2 ∧ (8 ≤ line → 2 ∈ irqs) := by
  refine ⟨⟨?_, fun h => ?_⟩, fun q hq line hl v => (Unmasked.of_run hq).2.vector_iff hl v⟩
  · rintro ⟨q, hq⟩
    exact (Unmasked.of_run hq).1
  · obtain ⟨q, hq, _⟩ := (unmasked_setupPic p).run h
    exact ⟨q, hq⟩

end AdaOS
