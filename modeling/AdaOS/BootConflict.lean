import AdaOS.BootRuns

namespace AdaOS
set_option autoImplicit true
open ByteMem

def ascii (s : String) : List (BitVec 8) := s.toList.map fun c => BitVec.ofNat 8 c.toNat

def word32 (x : Nat) : List (BitVec 8) := (List.range 4).map fun i => BitVec.ofNat 8 (x / 256 ^ i)

/-- The bytes with the one at `i` set so that they add up to zero. -/
def sealAt (i : Nat) (bytes : List (BitVec 8)) : List (BitVec 8) :=
  bytes.set i (bytes.getD i 0 - bytes.foldl (· + ·) 0)

def sdtBytes (signature : String) (payload : List (BitVec 8)) : List (BitVec 8) :=
  sealAt 9 (ascii signature ++ word32 (36 + payload.length) ++ List.replicate 28 0 ++ payload)

/-- A page with an RSDP, an RSDT, an MADT and an FADT, 64 bytes apart. -/
def tablePage (t : Nat) : Mem := fun a =>
  let rsdp := sealAt 8 (ascii "RSD PTR " ++ List.replicate 8 0 ++ word32 (t + 0x40))
  let rsdt := sdtBytes "RSDT" (word32 (t + 0x80) ++ word32 (t + 0xC0))
  let madt := sdtBytes "APIC" (word32 0xFEE00000 ++ word32 1 ++ [0, 8, 0, 0] ++ word32 1)
  let fadt := sdtBytes "FACP" (word32 (t + 0x400) ++ List.replicate 76 0)
  let table := [rsdp, rsdt, madt, fadt, fadt.drop 0x40].getD ((a - t) / 0x40) []
  if a < t then 0 else table.getD ((a - t) % 0x40) 0

/-- A platform with its tables on one page. -/
def tablesAt (t : Nat) : Platform where
  ram := tablePage t
  rsdp := some t
  apicBase := 0xFEE00900
  apicVersion := 0x50014
  apicSpurious := 0x1F0
  ioApicRegister _ _ := 0
  lastType := 0

/-- The kernel of `smallLayout` with the chunk of `oneChunk`. -/
def wideLayout : KernelLayout :=
  { smallLayout with desc := ⟨0x10000000, 1, [⟨0x1000000, 0x11000000⟩]⟩ }

theorem wideLayout_regular : wideLayout.Regular :=
  smallLayout_regular.withChunk 0x10000000 (by decide) (by decide) (by decide) (by decide)

theorem wideLayout_placed : HhdmPlaced wideLayout.higherHalf := hhdmPlaced_default

theorem wideLayout_framebuffer : wideLayout.FramebufferPlaced := ⟨by decide, by decide⟩

theorem wideLayout_shown (ha : a < 0x10000000000) : wideLayout.Shown a :=
  shown_of_lt wideLayout_placed (by decide) ha

theorem wideLayout_tablesAt (hd : pageSize ∣ t) (ht : t + pageSize ≤ 2 ^ 32) :
    wideLayout.TablesAt t := by
  refine ⟨hd, ht, fun a ha => ?_⟩
  have hlt := Nat.lt_div_mul_add (a := a) (show 0 < pageSize by decide)
  have hpage : a / pageSize * pageSize = t := ha
  rw [hpage] at hlt
  exact wideLayout_shown (by omega)

theorem tablesAt_apicAddress (t : Nat) : (tablesAt t).apicAddress = 0xFEE00000 :=
  show (0xFEE00900#64 &&& ~~~0xFFF).toNat = 0xFEE00000 by decide

theorem tablesAt_apicShown (t : Nat) : wideLayout.Shown (tablesAt t).apicAddress := by
  rw [tablesAt_apicAddress]
  exact wideLayout_shown (by decide)

theorem tablesAt_rsdpShown (ht : t + 20 ≤ 2 ^ 32) :
    ∀ a, (tablesAt t).rsdp = some a → ∀ i < 20, wideLayout.Shown (a + i) := by
  intro a ha i hi
  cases ha
  exact wideLayout_shown (by omega)

theorem tablesAt_apicBoots (t : Nat) : (tablesAt t).ApicBoots where
  enabled := show (0xFEE00900#64).getLsbD 11 = true by decide
  version := show ¬(0x50014 : BitVec 32) < 0x10 by decide
  spurious := rfl

theorem wideLayout_setup {σ : Type} {A : FrameAllocator σ} {s : σ} (hl : A.Lasts 65533 s)
    (mem : BitVec 64 → Fin 512 → BitVec 64) : ∃ root v,
    setupVmm A wideLayout ⟨mem, s, []⟩ = .ok (root, v) ∧ A.Lasts (18 + 256 * 4) v.frames := by
  apply setupVmm_rows (c := ⟨0x1000000, 0x11000000⟩) (r := 128) rfl rfl (by decide) (by decide)
    (by decide)
  exact hl.mono (by decide)

theorem tablesAt_boots {σ : Type} {A : FrameAllocator σ} {s : σ} (ha : AcpiPage (tablePage t) t)
    (hd : pageSize ∣ t) (ht : t + pageSize ≤ 2 ^ 32) (hne : t ≠ 0) (hl : A.Lasts 65533 s)
    (mem : BitVec 64 → Fin 512 → BitVec 64) (stack : RedirectionEntry) (bytes : Mem) : ∃ b,
    boot A wideLayout (tablesAt t) stack ⟨mem, s, []⟩ bytes = .ok b ∧ b.acpi.fadt ≠ 0 ∧
      b.acpi.madt.ioApicWindows = [] := by
  obtain ⟨root, v, hv, hleft⟩ := wideLayout_setup hl mem
  exact boot_completes wideLayout_regular wideLayout_placed wideLayout_framebuffer
    (wideLayout_tablesAt hd ht) ha (tablesAt_apicBoots t) (tablesAt_apicShown t) rfl hne
    hv hleft stack bytes

theorem tablePage_apart : AcpiPage (tablePage 0x11000000) 0x11000000 := by
  constructor <;> decide +kernel

theorem tablePage_inside : AcpiPage (tablePage 0x10fff000) 0x10fff000 := by
  constructor <;> decide +kernel

end AdaOS
