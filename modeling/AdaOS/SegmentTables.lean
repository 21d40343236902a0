import AdaOS.InterruptFrames

namespace AdaOS
set_option autoImplicit true

/-- The packed entry of the global descriptor table. -/
structure GdtEntry where
  boundsLow : BitVec 16
  baseLow : BitVec 16
  baseMid : BitVec 8
  access : BitVec 8
  boundsHigh : BitVec 4
  flags : BitVec 4
  baseHigh : BitVec 8
  deriving DecidableEq, Repr

def GdtEntry.word (e : GdtEntry) : BitVec 64 :=
  e.baseHigh ++ (e.flags ++ (e.boundsHigh ++ (e.access ++ (e.baseMid ++ (e.baseLow ++
    e.boundsLow)))))

def gdtStore (gdt : List (BitVec 64)) (index : Nat) (word : BitVec 64) :
    Except Fault (List (BitVec 64)) :=
  if index < gdt.length then .ok (gdt.set index word) else .error .outOfBounds

def makeGdtEntry (gdt : List (BitVec 64)) (index : Nat) (access flags : BitVec 8) :
    Except Fault (List (BitVec 64)) :=
  gdtStore gdt index (GdtEntry.word ⟨0, 0, 0, access, 0, flags.setWidth 4, 0⟩)

def sizeofTss : BitVec 64 := 104

/-- The entry for the TSS at this address, without the second half of the address. -/
def tssEntry (tssBase : BitVec 64) : GdtEntry where
  boundsLow := (sizeofTss - 1).setWidth 16
  baseLow := (tssBase &&& 0xffff).setWidth 16
  baseMid := ((tssBase >>> 16) &&& 0xff).setWidth 8
  access := 0x89
  boundsHigh := (((sizeofTss - 1) >>> 16) &&& 0x0F).setWidth 4
  flags := 0
  baseHigh := ((tssBase >>> 24) &&& 0xff).setWidth 8

def makeTtsGdtEntry (gdt : List (BitVec 64)) (index : Nat) (tssBase : BitVec 64) :
    Except Fault (List (BitVec 64)) := do
  let gdt ← gdtStore gdt index (tssEntry tssBase).word
  gdtStore gdt (index + 1) (tssBase >>> 32)

/-- The fields of the TSS that are not reserved. -/
structure Tss where
  rsp0 : BitVec 64
  rsp1 : BitVec 64
  rsp2 : BitVec 64
  ist : List (BitVec 64)
  ioMapBase : BitVec 16
  deriving DecidableEq, Repr

/-- The addresses of the variables of `gdt.c`. -/
structure SegmentImage where
  kernelStack : BitVec 64
  dfStack : BitVec 64
  nmiStack : BitVec 64
  tss : BitVec 64

/-- `setup_gdt`: the table and the TSS that it leaves. -/
def setupGdt (im : SegmentImage) : Except Fault (List (BitVec 64) × Tss) := do
  let tss : Tss := ⟨0, 0, 0, List.replicate 7 0, 0xFFFF⟩
  let gdt := List.replicate 8 0
  let gdt ← makeGdtEntry gdt 0 0 0
  let gdt ← makeGdtEntry gdt 1 0x9A 0xA
  let gdt ← makeGdtEntry gdt 2 0x92 0xC
  let gdt ← makeGdtEntry gdt 3 0xFA 0xC
  let gdt ← makeGdtEntry gdt 4 0xF2 0xC
  let gdt ← makeGdtEntry gdt 5 0xFA 0xA
  let gdt ← makeTtsGdtEntry gdt 6 im.tss
  let ist := (tss.ist.set 1 (im.dfStack + 4096)).set 2 (im.nmiStack + 4096)
  .ok (gdt, { tss with ist := ist, rsp0 := im.kernelStack + 4096 })

/-- The base of a segment, as the processor reads it from a descriptor. -/
def segmentBase (w : BitVec 64) : BitVec 32 := w.extractLsb' 56 8 ++ w.extractLsb' 16 24

def segmentLimit (w : BitVec 64) : BitVec 20 := w.extractLsb' 48 4 ++ w.extractLsb' 0 16

def segmentDpl (w : BitVec 64) : BitVec 2 := w.extractLsb' 45 2

def segmentPresent (w : BitVec 64) : Bool := w.getLsbD 47

/-- A code segment for 64-bit code that does not conform. -/
def isCode64 (w : BitVec 64) : Bool :=
  w.getLsbD 44 && w.getLsbD 43 && !w.getLsbD 42 && w.getLsbD 53 && !w.getLsbD 54

/-- The base and the limit that `ltr` loads, if the selector names an available TSS. -/
def taskRegister (gdt : List (BitVec 64)) (selector : BitVec 16) :
    Option (BitVec 64 × BitVec 20) := do
  let low ← gdt[selector.toNat / 8]?
  let high ← gdt[selector.toNat / 8 + 1]?
  if low.extractLsb' 40 5 = 9 ∧ segmentPresent low then
    some (high.extractLsb' 0 32 ++ segmentBase low, segmentLimit low)
  else none

inductive Refusal where
  | generalProtection
  | notPresent
  | invalidTss
  deriving DecidableEq, Repr

/-- Where the processor goes on with an interrupt, and on which stack. -/
structure HandlerEntry where
  rip : BitVec 64
  cs : BitVec 16
  rsp : BitVec 64
  interruptFlag : Bool
  deriving DecidableEq, Repr

def Tss.rsp (tss : Tss) (dpl : BitVec 2) : BitVec 64 :=
  if dpl = 0 then tss.rsp0 else if dpl = 1 then tss.rsp1 else tss.rsp2

/-- The stack for a gate: the one of its number in the TSS, or that of the ring that is entered, or
the one that is there. The array starts with the stack of number 1. -/
def handlerStack (tss : Tss) (ist : BitVec 3) (dpl cpl : BitVec 2) (rsp : BitVec 64) : BitVec 64 :=
  if ist ≠ 0 then tss.ist.getD (ist.toNat - 1) 0
  else if dpl < cpl then tss.rsp dpl
  else rsp

/-- How a processor whose tables are loaded takes an interrupt of a program of ring `cpl`, if it is
not one that the program asks for. -/
def takeInterrupt (idt : Idt) (gdt : List (BitVec 64)) (tssAt : BitVec 64 → Tss)
    (vector : BitVec 8) (cpl : BitVec 2) (rsp : BitVec 64) : Except Refusal HandlerEntry :=
  match idt[vector.toNat]?, taskRegister gdt 0x30 with
  | some gate, some (base, _) =>
    let type := gate.typeAttr.extractLsb' 0 5
    if type ≠ 0x0E ∧ type ≠ 0x0F then .error .generalProtection
    else if gate.present = false then .error .notPresent
    else match gdt[gate.selector.toNat / 8]? with
      | some seg =>
        let dpl := segmentDpl seg
        if gate.selector.toNat / 4 = 0 ∨ gate.selector.getLsbD 2 ∨ isCode64 seg = false ∨
            cpl < dpl then
          .error .generalProtection
        else if segmentPresent seg = false then .error .notPresent
        else
          let rsp := handlerStack (tssAt base) (gate.ist.setWidth 3) dpl cpl rsp
          .ok ⟨gate.offset, (gate.selector &&& ~~~3) ||| dpl.setWidth 16, rsp &&& ~~~0xF,
            type = 0x0F⟩
      | none => .error .generalProtection
  | some _, none => .error .invalidTss
  | none, _ => .error .generalProtection

def gdtWords (tssBase : BitVec 64) : List (BitVec 64) :=
  [0, 0x00A09A0000000000, 0x00C0920000000000, 0x00C0FA0000000000, 0x00C0F20000000000,
    0x00A0FA0000000000, (tssEntry tssBase).word, tssBase >>> 32]

theorem setupGdt_eq (im : SegmentImage) :
    setupGdt im = .ok (gdtWords im.tss, ⟨im.kernelStack + 4096, 0, 0,
      [0, im.dfStack + 4096, im.nmiStack + 4096, 0, 0, 0, 0], 0xFFFF⟩) :=
  rfl

theorem getLsbD_word (e : GdtEntry) (i : Nat) : e.word.getLsbD i =
    if i < 16 then e.boundsLow.getLsbD i
    else if i < 32 then e.baseLow.getLsbD (i - 16)
    else if i < 40 then e.baseMid.getLsbD (i - 32)
    else if i < 48 then e.access.getLsbD (i - 40)
    else if i < 52 then e.boundsHigh.getLsbD (i - 48)
    else if i < 56 then e.flags.getLsbD (i - 52)
    else e.baseHigh.getLsbD (i - 56) := by
  simp only [GdtEntry.word, BitVec.getLsbD_append]
  split_ifs <;> first | rfl | omega

theorem getLsbD_masked (a : BitVec 64) (n : Nat) {mask : BitVec 64} (hi : i < w)
    (hmask : mask.getLsbD i = true) :
    (((a >>> n) &&& mask).setWidth w).getLsbD i = a.getLsbD (n + i) := by
  rw [BitVec.getLsbD_setWidth, BitVec.getLsbD_and, hmask, decide_eq_true hi, Bool.true_and,
    Bool.and_true, BitVec.getLsbD_ushiftRight]

section TssEntry
variable {tssBase : BitVec 64}

theorem tssEntry_low (hi : i < 16) :
    (tssEntry tssBase).word.getLsbD (16 + i) = tssBase.getLsbD i := by
  have hmask : ∀ i < 16, (0xffff : BitVec 64).getLsbD i = true := by decide
  have hbit := getLsbD_masked tssBase 0 hi (hmask i hi)
  rw [BitVec.ushiftRight_zero, Nat.zero_add] at hbit
  rw [getLsbD_word, if_neg (by omega), if_pos (by omega), Nat.add_sub_cancel_left]
  exact hbit

theorem tssEntry_mid (hi : i < 8) :
    (tssEntry tssBase).word.getLsbD (32 + i) = tssBase.getLsbD (16 + i) := by
  have hmask : ∀ i < 8, (0xff : BitVec 64).getLsbD i = true := by decide
  rw [getLsbD_word, if_neg (by omega), if_neg (by omega), if_pos (by omega),
    Nat.add_sub_cancel_left]
  exact getLsbD_masked tssBase 16 hi (hmask i hi)

theorem tssEntry_high (hi : i < 8) :
    (tssEntry tssBase).word.getLsbD (56 + i) = tssBase.getLsbD (24 + i) := by
  have hmask : ∀ i < 8, (0xff : BitVec 64).getLsbD i = true := by decide
  rw [getLsbD_word, if_neg (by omega), if_neg (by omega), if_neg (by omega), if_neg (by omega),
    if_neg (by omega), if_neg (by omega), Nat.add_sub_cancel_left]
  exact getLsbD_masked tssBase 24 hi (hmask i hi)

theorem segmentBase_tssEntry : segmentBase (tssEntry tssBase).word = tssBase.setWidth 32 := by
  apply BitVec.eq_of_getLsbD_eq
  intro i hi
  rw [segmentBase, BitVec.getLsbD_append, BitVec.getLsbD_extractLsb', BitVec.getLsbD_extractLsb',
    BitVec.getLsbD_setWidth, decide_eq_true hi, Bool.true_and]
  by_cases h₁ : i < 24
  · rw [if_pos h₁, decide_eq_true h₁, Bool.true_and]
    by_cases h₂ : i < 16
    · exact tssEntry_low h₂
    · have hword : 16 + i = 32 + (i - 16) := by omega
      have hbase : 16 + (i - 16) = i := by omega
      rw [hword, tssEntry_mid (by omega), hbase]
  · have h₃ : i - 24 < 8 := by omega
    have hbase : 24 + (i - 24) = i := by omega
    rw [if_neg h₁, decide_eq_true h₃, Bool.true_and, tssEntry_high h₃, hbase]

theorem access_tssEntry (tssBase : BitVec 64) :
    (tssEntry tssBase).word.extractLsb' 40 8 = 0x89 := by
  apply BitVec.eq_of_getLsbD_eq
  intro i hi
  rw [BitVec.getLsbD_extractLsb', decide_eq_true hi, Bool.true_and, getLsbD_word,
    if_neg (by omega), if_neg (by omega), if_neg (by omega), if_pos (by omega),
    Nat.add_sub_cancel_left]
  rfl

theorem segmentLimit_tssEntry : segmentLimit (tssEntry tssBase).word = 103 := by
  apply BitVec.eq_of_getLsbD_eq
  intro i hi
  rw [segmentLimit, BitVec.getLsbD_append, BitVec.getLsbD_extractLsb', BitVec.getLsbD_extractLsb']
  by_cases h₁ : i < 16
  · have hlow : ∀ i < 16, ((sizeofTss - 1).setWidth 16 : BitVec 16).getLsbD i =
        (103 : BitVec 20).getLsbD i := by decide
    rw [if_pos h₁, decide_eq_true h₁, Bool.true_and, getLsbD_word, if_pos (by omega), Nat.zero_add]
    exact hlow i h₁
  · have hhigh : ∀ i < 4, ((((sizeofTss - 1) >>> 16) &&& 0x0F).setWidth 4 : BitVec 4).getLsbD i =
        (103 : BitVec 20).getLsbD (16 + i) := by decide
    have h₂ : i - 16 < 4 := by omega
    have hindex : 16 + (i - 16) = i := by omega
    rw [if_neg h₁, decide_eq_true h₂, Bool.true_and, getLsbD_word, if_neg (by omega),
      if_neg (by omega), if_neg (by omega), if_neg (by omega), if_pos (by omega),
      Nat.add_sub_cancel_left]
    exact (hhigh (i - 16) h₂).trans (by rw [hindex])

theorem type_tssEntry : (tssEntry tssBase).word.extractLsb' 40 5 = 9 := by
  have htype : (tssEntry tssBase).word.extractLsb' 40 5 =
      ((tssEntry tssBase).word.extractLsb' 40 8).setWidth 5 := by
    apply BitVec.eq_of_getLsbD_eq
    intro i hi
    rw [BitVec.getLsbD_extractLsb', BitVec.getLsbD_setWidth, BitVec.getLsbD_extractLsb',
      decide_eq_true hi, decide_eq_true (Nat.lt_trans hi (by decide : 5 < 8))]
    rfl
  rw [htype, access_tssEntry]
  rfl

theorem present_tssEntry : segmentPresent (tssEntry tssBase).word = true := by
  have hbit := congrArg (BitVec.getLsbD · 7) (access_tssEntry tssBase)
  rw [BitVec.getLsbD_extractLsb'] at hbit
  exact hbit

theorem halves_eq : (tssBase >>> 32).extractLsb' 0 32 ++ tssBase.setWidth 32 = tssBase := by
  apply BitVec.eq_of_getLsbD_eq
  intro i hi
  rw [BitVec.getLsbD_append, BitVec.getLsbD_setWidth, BitVec.getLsbD_extractLsb',
    BitVec.getLsbD_ushiftRight, Nat.zero_add]
  by_cases h : i < 32
  · rw [if_pos h, decide_eq_true h, Bool.true_and]
  · have hlt : i - 32 < 32 := by omega
    have hindex : 32 + (i - 32) = i := by omega
    rw [if_neg h, decide_eq_true hlt, Bool.true_and, hindex]

theorem taskRegister_gdtWords (tssBase : BitVec 64) :
    taskRegister (gdtWords tssBase) 0x30 = some (tssBase, 103) := by
  change (if (tssEntry tssBase).word.extractLsb' 40 5 = 9 ∧
      segmentPresent (tssEntry tssBase).word = true then
    some ((tssBase >>> 32).extractLsb' 0 32 ++ segmentBase (tssEntry tssBase).word,
      segmentLimit (tssEntry tssBase).word) else none) = _
  rw [if_pos ⟨type_tssEntry, present_tssEntry⟩, segmentBase_tssEntry, segmentLimit_tssEntry,
    halves_eq]

end TssEntry

theorem handlerStack_zero (tss : Tss) (cpl : BitVec 2) (rsp : BitVec 64) :
    handlerStack tss 0 0 cpl rsp = if cpl = 0 then rsp else tss.rsp0 := by
  have hpos : ∀ cpl : BitVec 2, cpl ≠ 0 → 0 < cpl := by decide
  rw [handlerStack, if_neg (fun h => h rfl)]
  by_cases hc : cpl = 0
  · rw [if_pos hc, hc]
    rfl
  · rw [if_neg hc, if_pos (hpos cpl hc)]
    rfl

/-- Through an installed gate. -/
theorem takeInterrupt_gate {idt : Idt} {vector : BitVec 8} {tssAt : BitVec 64 → Tss}
    (hget : idt[vector.toNat]? = some (descriptor isr idtDefaultFlags)) (tssBase : BitVec 64)
    (cpl : BitVec 2) (rsp : BitVec 64) :
    takeInterrupt idt (gdtWords tssBase) tssAt vector cpl rsp =
      .ok ⟨isr, 0x8, (if cpl = 0 then rsp else (tssAt tssBase).rsp0) &&& ~~~0xF, false⟩ := by
  have htype : ¬ (idtDefaultFlags.extractLsb' 0 5 ≠ 0x0E ∧
      idtDefaultFlags.extractLsb' 0 5 ≠ 0x0F) := by decide
  have hattr : (descriptor isr idtDefaultFlags).typeAttr = idtDefaultFlags := rfl
  have hselector : (descriptor isr idtDefaultFlags).selector = gdtOffsetKernelCode := rfl
  have hist : (descriptor isr idtDefaultFlags).ist.setWidth 3 = 0 := rfl
  have hpresent : ¬ (descriptor isr idtDefaultFlags).present = false := by
    rw [IdtEntry.present, hattr]
    decide
  have hseg : (gdtWords tssBase)[gdtOffsetKernelCode.toNat / 8]? = some 0x00A09A0000000000 := rfl
  have hcode : ∀ cpl : BitVec 2, ¬ (gdtOffsetKernelCode.toNat / 4 = 0 ∨
      gdtOffsetKernelCode.getLsbD 2 = true ∨ isCode64 0x00A09A0000000000 = false ∨
      cpl < segmentDpl 0x00A09A0000000000) := by decide
  have hsegment : ¬ segmentPresent 0x00A09A0000000000 = false := by decide
  have hdpl : segmentDpl 0x00A09A0000000000 = 0 := by decide
  rw [takeInterrupt, hget, taskRegister_gdtWords]
  dsimp only
  rw [hattr, if_neg htype, if_neg hpresent, hselector, hseg]
  dsimp only
  rw [if_neg (hcode cpl), if_neg hsegment, hist, hdpl, handlerStack_zero, descriptor_offset]
  rfl

theorem takeInterrupt_no_gate {idt : Idt} {vector : BitVec 8}
    (hget : idt[vector.toNat]? =
      (Vector.replicate idtVectors ⟨0, 0, 0, 0, 0, 0, 0⟩ : Idt)[vector.toNat]?)
    (tssBase : BitVec 64) (tssAt : BitVec 64 → Tss) (cpl : BitVec 2) (rsp : BitVec 64) :
    takeInterrupt idt (gdtWords tssBase) tssAt vector cpl rsp = .error .generalProtection := by
  rw [takeInterrupt, hget, taskRegister_gdtWords, Vector.getElem?_replicate]
  split_ifs
  · rfl
  · rfl

/-- For every placement of the kernel and every interrupt: where there is a gate, the processor goes
on at the stub with its number, in the kernel's 64-bit code segment and with interrupts off, on the
stack that is there or, from a program outside the kernel, on `kernel_stack`. The stacks for double
faults and for non-maskable interrupts are not used. Without a gate the interrupt is refused. -/
theorem takeInterrupt_eq (im : SegmentImage) (label : BitVec 8 → BitVec 64) :
    ∃ gdt tss idt, setupGdt im = .ok (gdt, tss) ∧ setupIdt label = .ok idt ∧
      taskRegister gdt 0x30 = some (im.tss, 103) ∧
      ∀ (memory : BitVec 64 → Tss) (vector : BitVec 8) (cpl : BitVec 2) (rsp : BitVec 64),
        takeInterrupt idt gdt (fun a => if a = im.tss then tss else memory a) vector cpl rsp =
          if vector ∈ stubs.map Prod.fst then
            .ok ⟨label vector, 0x8,
              (if cpl = 0 then rsp else im.kernelStack + 4096) &&& ~~~0xF, false⟩
          else .error .generalProtection := by
  obtain ⟨idt, hidt, hget⟩ := setupIdt_spec label
  refine ⟨_, _, idt, setupGdt_eq im, hidt, taskRegister_gdtWords im.tss,
    fun memory vector cpl rsp => ?_⟩
  rw [← gatedVectors_eq]
  by_cases hv : vector ∈ gatedVectors
  · have hgate := hget vector
    rw [if_pos hv] at hgate
    rw [takeInterrupt_gate hgate, if_pos hv, if_pos rfl]
  · have hgate := hget vector
    rw [if_neg hv] at hgate
    rw [takeInterrupt_no_gate hgate, if_neg hv]

end AdaOS
