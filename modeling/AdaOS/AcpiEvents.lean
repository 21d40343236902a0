import AdaOS.Acpi
import AdaOS.Traced

namespace AdaOS
set_option autoImplicit true
open ByteMem

/-- The tables whose fields `bootstrap_acpi` uses. -/
inductive AcpiTable where
  | rsdp
  | rsdt
  | madt
  | fadt
  deriving DecidableEq, Repr

/-- `k_err`, `k_wrn` and `k_todo`. -/
inductive AcpiLog where
  | err
  | wrn
  | todo
  deriving DecidableEq, Repr

/-- What `bootstrap_acpi` does on its way: the page of a table's first byte is mapped, bytes are
read in a state of the kernel, an entry of the RSDT is read, a field of a table is used, the
missing response is read, a line is logged. -/
inductive AcpiEvent (σ : Type) where
  | mapPage (phys : Nat)
  | read (h : Heap σ) (virt n : Nat)
  | entry (h : Heap σ) (rootSdt i : Nat)
  | uses (table : AcpiTable) (virt : Nat)
  | noResponse
  | log (level : AcpiLog) (msg : String)

abbrev AcpiRun (σ α : Type) := Traced (AcpiEvent σ) Fault α

namespace AcpiRun
variable {σ : Type} (A : FrameAllocator σ) (ram : Mem)

/-- A line that is logged if `p` holds. -/
def logIf (p : Bool) (level : AcpiLog) (msg : String) : AcpiRun σ Unit :=
  ⟨if p then [.log level msg] else [], .ok ()⟩

/-- `map_page` of a table. -/
def mapDirect (higherHalf : Nat) (h : Heap σ) (phys : Nat) : AcpiRun σ (Bool × Heap σ) :=
  let r := h.mapDirect A higherHalf phys acpiFlags
  match r with
  | .ok (true, _) => ⟨[.mapPage phys], r⟩
  | _ => ⟨[], r⟩

def reads (h : Heap σ) (virt n : Nat) : AcpiRun σ Unit := ⟨[.read h virt n], h.reads ram virt n⟩

def loadAt (h : Heap σ) (virt n : Nat) : AcpiRun σ Nat := ⟨[.read h virt n], h.loadAt ram virt n⟩

/-- The bytes that `memcmp` looks at. -/
def comparedBytes (h : Heap σ) (virt : Nat) (s : Nat → BitVec 8) (i : Nat) :
    Nat → List (AcpiEvent σ)
  | 0 => []
  | n + 1 =>
    .read h (virt + i) 1 ::
      if h.shows ram (virt + i) = some (s i) then comparedBytes h virt s (i + 1) n else []

def memcmpAt (h : Heap σ) (virt : Nat) (s : Nat → BitVec 8) (i n : Nat) : AcpiRun σ Int :=
  ⟨comparedBytes ram h virt s i n, h.memcmpAt ram virt s i n⟩

/-- The bytes that `sprintf` looks at for `%.ns`: it reads the one behind the precision, too. -/
def printedBytes (h : Heap σ) (virt : Nat) : Nat → List (AcpiEvent σ)
  | 0 => [.read h virt 1]
  | n + 1 =>
    .read h virt 1 ::
      match h.shows ram virt with
      | none => []
      | some b => if b = 0 then [] else printedBytes h (virt + 1) n

/-- `looks` is what `sprintf` reads for its arguments. -/
def signaturePanic (h : Heap σ) (size : Nat) (format : String) (va : Heap σ → List Printf.Arg)
    (looks : Heap σ → List (AcpiEvent σ)) : AcpiRun σ α := do
  let (buf, now) ← .call (kmalloc A h size)
  ⟨looks now, sprintfPanic now buf size format (va now)⟩

def checkHeaderSignature (h : Heap σ) (header : Nat) (expected : String) : AcpiRun σ Unit := do
  let r ← memcmpAt ram h header (cString expected) 0 4
  if r ≠ 0 then
    signaturePanic A h ("Expected signature of '', got ''!".length + 1 + 4 + 4)
      "Expected signature of '%.4s', got '%.4s'!"
      (fun now => [⟨BitVec.ofNat 64 header, now.bytesFrom ram header 5⟩, .ofString expected])
      fun now => printedBytes ram now header 4
  else pure ()

def checksumAt (h : Heap σ) (header : Nat) : AcpiRun σ Unit := do
  reads ram h (header + 4) 4
  reads ram h header (sdtLength (h.view ram header))
  .call (checksumHeader (h.view ram header))

/-- `rsdt->outgoing_pointers[i]`. -/
def entryAt (h : Heap σ) (rootSdt i : Nat) : AcpiRun σ Nat :=
  ⟨[.entry h rootSdt i], h.loadAt ram (rootSdt + 36 + i * 4) 4⟩

def findEntry (higherHalf rootSdt : Nat) (signature : String) (i : Nat) :
    Nat → Heap σ → AcpiRun σ (Nat × Heap σ)
  | 0, h => pure (0, h)
  | n + 1, h => do
    let phys ← entryAt ram h rootSdt i
    let vert := u64 (phys + higherHalf)
    let (_, h) ← mapDirect A higherHalf h phys
    let r ← memcmpAt ram h vert (cString signature) 0 4
    if r = 0 then pure (vert, h) else findEntry higherHalf rootSdt signature (i + 1) n h

def findTable (higherHalf : Nat) (h : Heap σ) (rootSdt : Nat) (signature : String) :
    AcpiRun σ (Nat × Heap σ) := do
  .emit (.uses .rsdt rootSdt)
  let length ← loadAt ram h (rootSdt + 4) 4
  findEntry A ram higherHalf rootSdt signature 0 (sub64 length 36 / 4 % 2 ^ 32) h

def allocArrays (header : Nat) :
    List MadtArray → (MadtArray → Nat) → Heap σ → AcpiRun σ ((MadtArray → Nat) × Heap σ)
  | [], arrays, h => pure (arrays, h)
  | a :: rest, arrays, h => do
    let length ← loadAt ram h (header + 4) 4
    let (p, h) ← .call (kmalloc A h length)
    allocArrays header rest (Function.update arrays a p) h

/-- The reads of the record loop, in their order, up to an access it cannot make. -/
def recordReads (h : Heap σ) (header : Nat) (arrays : MadtArray → Nat) :
    List MadtAccess → List (AcpiEvent σ)
  | [] => []
  | a :: rest =>
    let here := match a with
      | .header offset => [.read h (header + offset) 2]
      | .payload offset array => [.read h (header + offset + 2) array.size]
      | .store _ _ => []
      | .typeString _ => []
    here ++ if h.Allows ram header arrays a then recordReads h header arrays rest else []

/-- The record loop and what follows it; the loop looks at the table's length first. -/
def parseRecords (lastType : BitVec 8) (h : Heap σ) (header : Nat) (arrays : MadtArray → Nat) :
    AcpiRun σ (Madt × Heap σ) :=
  let t := h.view ram header
  let w := Madt.start (oldEntries h.bytes arrays) lastType
  let accesses := (madtLoop t (sdtLength t) w).accesses
  ⟨if madtFlags t = 0 then []
    else .read h (header + 4) 4 :: recordReads ram h header arrays accesses.reverse,
    if madtFlags t ≠ 0 ∧ ¬∀ a ∈ accesses, h.Allows ram header arrays a then .error .outOfBounds
    else do
      let w ← parseMadt t w
      .ok (w, h)⟩

def parseMadtAt (lastType : BitVec 8) (h : Heap σ) (header : Nat) :
    AcpiRun σ (Madt × Heap σ) := do
  .emit (.uses .madt header)
  let (arrays, h) ← allocArrays A ram header madtArrays (fun _ => 0) h
  reads ram h (header + 0x24) 8
  parseRecords ram lastType h header arrays

def facsPointer (h : Heap σ) (fadt : Nat) : AcpiRun σ Nat := do
  .emit (.uses .fadt fadt)
  let smiCommandPort ← loadAt ram h (fadt + 48) 4
  logIf (smiCommandPort ≠ 0) .todo "Support SMI Command / System Management Mode"
  let firmwareCtrl ← loadAt ram h (fadt + 36) 4
  if firmwareCtrl ≠ 0 then pure firmwareCtrl
  else
    let xFirmwareControl ← loadAt ram h (fadt + 132) 8
    if xFirmwareControl ≠ 0 then do
      .emit (.log .wrn "Uing X_FACS, this might not work!")
      pure xFirmwareControl
    else .call (.error (.panic
      "Something went horribly wrong parsing FADT, FACS pointer was NULL!"))

def parseRsdt (higherHalf : Nat) (lastType : BitVec 8) (h : Heap σ) (phys : Nat) :
    AcpiRun σ (AcpiVars × Heap σ) := do
  let rsdtHeader := u64 (phys + higherHalf)
  let (mapped, h) ← mapDirect A higherHalf h phys
  if mapped = false then .call (.error (.panic "Could not map RSDT!"))
  else
    checkHeaderSignature A ram h rsdtHeader "RSDT"
    checksumAt ram h rsdtHeader
    let (madtHeader, h) ← findTable A ram higherHalf h rsdtHeader "APIC"
    if madtHeader = 0 then .call (.error (.panic "Could not find LAPIC (MADT) table!"))
    else
      checksumAt ram h madtHeader
      let (madt, h) ← parseMadtAt A ram lastType h madtHeader
      let (fadtHeader, h) ← findTable A ram higherHalf h rsdtHeader "FACP"
      if fadtHeader = 0 then .call (.error (.panic "Could not find FADT table!"))
      else
        checksumAt ram h fadtHeader
        let facsPtr ← facsPointer ram h fadtHeader
        let _ ← loadAt ram h (fadtHeader + 40) 4
        pure (⟨madt, fadtHeader, facsPtr⟩, h)

/-- The test of `oem_revision` uses the RSDP before its sum is known. The text of the panic is made
from the copy on the stack. -/
def checkRsdp (h : Heap σ) (virt : Nat) : AcpiRun σ Nat := do
  reads ram h virt 20
  let rsdpH := h.view ram virt
  if memcmp rsdpH (cString "RSD PTR ") 7 ≠ 0 then
    signaturePanic A h ("Expected RSDP signature of 'RSD PTR ', got ''!".length + 1 + 8)
      "Expected RSDP signature of 'RSD PTR ', got '%.8s'!"
      (fun _ => [⟨0, readBytes rsdpH 0 20⟩]) fun _ => []
  else do
    .emit (.uses .rsdp virt)
    logIf (rsdpH 15 ≠ 0) .wrn "Only RSDP rev. 0 is supported & tested! Things might break."
    if (List.range 20).foldl (fun sum i => sum + (rsdpH i).toNat) 0 % 2 ^ 32 &&& 0xff ≠ 0 then
      .call (.error (.panic "Bad RSDP header checksum!"))
    else pure (load rsdpH 16 4)

def bootstrapAcpi (higherHalf : Nat) (pl : Platform) (h : Heap σ) :
    AcpiRun σ (AcpiVars × Heap σ) :=
  match getRsdp pl.rsdp with
  | none =>
    ⟨[.log .err "Failed getting RSDP! ACPI likely not supported.", .noResponse],
      .error .outOfBounds⟩
  | some phys => do
    let (mapped, h) ← mapDirect A higherHalf h phys
    if mapped = false then do
      .emit (.log .err "Could not map RSDP!")
      pure (.initial pl.lastType, h)
    else
      let rsdtAddress ← checkRsdp A pl.ram h (u64 (phys + higherHalf))
      parseRsdt A pl.ram higherHalf pl.lastType h rsdtAddress

section Results
variable (h : Heap σ)

theorem logIf_bind_result (p : Bool) (level : AcpiLog) (msg : String)
    (f : Unit → AcpiRun σ α) : (logIf p level msg >>= f).result = (f ()).result := rfl

theorem mapDirect_result (higherHalf phys : Nat) :
    (mapDirect A higherHalf h phys).result = h.mapDirect A higherHalf phys acpiFlags := by
  rw [mapDirect]
  split <;> rfl

theorem signaturePanic_result (size : Nat) (format : String) (va : Heap σ → List Printf.Arg)
    (looks : Heap σ → List (AcpiEvent σ)) :
    (signaturePanic (α := α) A h size format va looks).result =
      AdaOS.signaturePanic A h size format va := Traced.result_bind_congr rfl fun _ => rfl

theorem checkHeaderSignature_result (header : Nat) (expected : String) :
    (checkHeaderSignature A ram h header expected).result =
      AdaOS.checkHeaderSignature A ram h header expected := by
  apply Traced.result_bind_congr rfl
  intro r
  split
  · exact signaturePanic_result ..
  · rfl

theorem reads_result (virt n : Nat) : (reads ram h virt n).result = h.reads ram virt n := rfl

theorem checksumAt_result (header : Nat) :
    (checksumAt ram h header).result = AdaOS.checksumAt ram h header := by
  apply Traced.result_bind_congr rfl
  intro _
  apply Traced.result_bind_congr (reads_result ram h header _)
  intro _
  exact Traced.result_call _

theorem findEntry_result (higherHalf rootSdt : Nat) (signature : String) (i n : Nat) :
    (findEntry A ram higherHalf rootSdt signature i n h).result =
      AdaOS.findEntry A ram higherHalf rootSdt signature i n h := by
  induction n generalizing i h with
  | zero => rfl
  | succ n ih =>
    apply Traced.result_bind_congr rfl
    intro phys
    apply Traced.result_bind_congr (mapDirect_result A h higherHalf phys)
    rintro ⟨mapped, h'⟩
    apply Traced.result_bind_congr rfl
    intro r
    split
    · rfl
    · exact ih h' (i + 1)

/-- The number of entries is any function of the length here, so that nothing computes it. -/
theorem search_result (higherHalf rootSdt : Nat) (signature : String) (entries : Nat → Nat) :
    (loadAt ram h (rootSdt + 4) 4 >>= fun length =>
      findEntry A ram higherHalf rootSdt signature 0 (entries length) h).result =
    h.loadAt ram (rootSdt + 4) 4 >>= fun length =>
      AdaOS.findEntry A ram higherHalf rootSdt signature 0 (entries length) h := by
  apply Traced.result_bind_congr rfl
  intro length
  exact findEntry_result A ram h higherHalf rootSdt signature 0 _

theorem findTable_result (higherHalf rootSdt : Nat) (signature : String) :
    (findTable A ram higherHalf h rootSdt signature).result =
      AdaOS.findTable A ram higherHalf h rootSdt signature :=
  search_result A ram h higherHalf rootSdt signature fun length =>
    sub64 length 36 / 4 % 2 ^ 32

theorem search_events (higherHalf : Nat) (signature : String) (entries : Nat → Nat)
    (hload : h.loadAt ram (rootSdt + 4) 4 = .ok length) :
    (loadAt ram h (rootSdt + 4) 4 >>= fun length =>
      findEntry A ram higherHalf rootSdt signature 0 (entries length) h).events =
    .read h (rootSdt + 4) 4 ::
      (findEntry A ram higherHalf rootSdt signature 0 (entries length) h).events := by
  have hfirst : (loadAt ram h (rootSdt + 4) 4).result = .ok length := hload
  rw [Traced.bind_of_ok hfirst, loadAt]
  dsimp only
  rw [List.cons_append, List.nil_append]

theorem findTable_events (higherHalf : Nat) (signature : String)
    (hload : h.loadAt ram (rootSdt + 4) 4 = .ok length) :
    (findTable A ram higherHalf h rootSdt signature).events =
    .uses .rsdt rootSdt :: .read h (rootSdt + 4) 4 ::
      (findEntry A ram higherHalf rootSdt signature 0 (sub64 length 36 / 4 % 2 ^ 32) h).events :=
  congrArg _ (search_events A ram h higherHalf signature
    (fun length => sub64 length 36 / 4 % 2 ^ 32) hload)

theorem allocArrays_result (header : Nat) (l : List MadtArray) (arrays : MadtArray → Nat) :
    (allocArrays A ram header l arrays h).result = AdaOS.allocArrays A ram header l arrays h := by
  induction l generalizing arrays h with
  | nil => rfl
  | cons a l ih =>
    apply Traced.result_bind_congr rfl
    intro length
    apply Traced.result_bind_congr rfl
    rintro ⟨p, h'⟩
    exact ih h' _

theorem parseMadtAt_result (lastType : BitVec 8) (header : Nat) :
    (parseMadtAt A ram lastType h header).result =
      AdaOS.parseMadtAt A ram lastType h header := by
  rw [parseMadtAt, AdaOS.parseMadtAt, Traced.emit_bind_result]
  apply Traced.result_bind_congr (allocArrays_result A ram h header _ _)
  rintro ⟨arrays, h'⟩
  exact Traced.result_bind_congr rfl fun _ => rfl

theorem facsPointer_result (fadt : Nat) :
    (facsPointer ram h fadt).result = AdaOS.facsPointer ram h fadt := by
  rw [facsPointer, AdaOS.facsPointer, Traced.emit_bind_result]
  apply Traced.result_bind_congr rfl
  intro smiCommandPort
  rw [logIf_bind_result]
  apply Traced.result_bind_congr rfl
  intro firmwareCtrl
  split
  · rfl
  · apply Traced.result_bind_congr rfl
    intro xFirmwareControl
    split <;> rfl

theorem parseRsdt_result (higherHalf : Nat) (lastType : BitVec 8) (phys : Nat) :
    (parseRsdt A ram higherHalf lastType h phys).result =
      AdaOS.parseRsdt A ram higherHalf lastType h phys := by
  apply Traced.result_bind_congr (mapDirect_result A h higherHalf phys)
  rintro ⟨mapped, h₁⟩
  dsimp only
  split
  · rfl
  apply Traced.result_bind_congr (checkHeaderSignature_result A ram h₁ _ _)
  intro _
  apply Traced.result_bind_congr (checksumAt_result ram h₁ _)
  intro _
  apply Traced.result_bind_congr (findTable_result A ram h₁ higherHalf _ _)
  rintro ⟨madtHeader, h₂⟩
  dsimp only
  split
  · rfl
  apply Traced.result_bind_congr (checksumAt_result ram h₂ madtHeader)
  intro _
  apply Traced.result_bind_congr (parseMadtAt_result A ram h₂ lastType madtHeader)
  rintro ⟨madt, h₃⟩
  apply Traced.result_bind_congr (findTable_result A ram h₃ higherHalf _ _)
  rintro ⟨fadtHeader, h₄⟩
  dsimp only
  split
  · rfl
  apply Traced.result_bind_congr (checksumAt_result ram h₄ fadtHeader)
  intro _
  apply Traced.result_bind_congr (facsPointer_result ram h₄ fadtHeader)
  intro facsPtr
  exact Traced.result_bind_congr rfl fun _ => rfl

theorem checkRsdp_result (virt : Nat) :
    (checkRsdp A ram h virt).result = AdaOS.checkRsdp A ram h virt := by
  apply Traced.result_bind_congr rfl
  intro _
  dsimp only
  split
  · exact signaturePanic_result ..
  · rw [Traced.emit_bind_result, logIf_bind_result]
    split <;> rfl

end Results

end AcpiRun
end AdaOS
