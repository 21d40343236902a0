import AdaOS.Handler
import AdaOS.Pic
import AdaOS.SegmentTables

namespace AdaOS
set_option autoImplicit true

theorem line_gated (hl : line < 16) :
    BitVec.ofNat 8 (0x20 + line) ∈ gatedVectors ↔ line = 0 ∨ line = 4 := by
  have hlines : ∀ line < 16, BitVec.ofNat 8 (0x20 + line) ∈ gatedVectors ↔
      line = 0 ∨ line = 4 := by decide
  exact hlines line hl

theorem line_acknowledged (hl : line < 16) :
    Printf.ackOf ((BitVec.ofNat 8 (0x20 + line)).setWidth 64) = .pic := by
  have hlines : ∀ line < 16, ¬ (BitVec.ofNat 8 (0x20 + line)).setWidth 64 > (0xf0 : BitVec 64) := by
    decide
  exact if_neg (hlines line hl)

/-- Whatever lines the drivers unmask: the timer's and the serial port's interrupts are taken at
their stubs and come to their handlers, which acknowledge them where they came from. The interrupts
of every other line end in a general protection fault. -/
theorem raised_interrupts (im : SegmentImage) (label : BitVec 8 → BitVec 64) (p : Pics)
    (irqs : List (BitVec 8)) :
    ∃ gdt tss idt, setupGdt im = .ok (gdt, tss) ∧ setupIdt label = .ok idt ∧
      ∀ q, irqs.foldlM unmaskIrq (setupPic p) = .ok q → ∀ line < 16, ∀ v, q.vector line = some v →
        (∀ (memory : BitVec 64 → Tss) (cpl : BitVec 2) (rsp : BitVec 64),
          takeInterrupt idt gdt (fun a => if a = im.tss then tss else memory a) v cpl rsp =
            if line = 0 ∨ line = 4 then
              .ok ⟨label v, 0x8,
                (if cpl = 0 then rsp else im.kernelStack + 4096) &&& ~~~0xF, false⟩
            else .error .generalProtection) ∧
        (line = 0 → Printf.response (v.setWidth 64) = .pit) ∧
        (line = 4 → Printf.response (v.setWidth 64) = .serial) ∧
        Printf.ackOf (v.setWidth 64) = .pic := by
  obtain ⟨idt, hidt, hget⟩ := setupIdt_spec label
  refine ⟨_, _, idt, setupGdt_eq im, hidt, fun q hq line hl v hv => ?_⟩
  obtain ⟨rfl, -⟩ := ((Unmasked.of_run hq).2.vector_iff hl v).1 hv
  refine ⟨fun memory cpl rsp => ?_, ?_, ?_, line_acknowledged hl⟩
  · have hgate := hget (.ofNat 8 (0x20 + line))
    by_cases hline : line = 0 ∨ line = 4
    · rw [if_pos ((line_gated hl).2 hline)] at hgate
      rw [takeInterrupt_gate hgate, if_pos hline, if_pos rfl]
    · rw [if_neg (mt (line_gated hl).1 hline)] at hgate
      rw [takeInterrupt_no_gate hgate, if_neg hline]
  · rintro rfl
    rfl
  · rintro rfl
    rfl

end AdaOS
