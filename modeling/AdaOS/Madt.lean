import AdaOS.Basic
import AdaOS.ByteMem

namespace AdaOS
set_option autoImplicit true
open ByteMem

/-- The arrays of `acpi.c` that take the records of one type each. -/
inductive MadtArray where
  | localApics
  | ioApics
  | ioApicSourceOverrides
  | ioApicNmiSources
  | ioApicNmis
  | localApicAddressOverrides
  | localX2apics
  deriving DecidableEq, Repr

/-- The `case` labels of the record loop. -/
def madtArray (type : BitVec 8) : Option MadtArray :=
  if type = 0 then some .localApics
  else if type = 1 then some .ioApics
  else if type = 2 then some .ioApicSourceOverrides
  else if type = 3 then some .ioApicNmiSources
  else if type = 4 then some .ioApicNmis
  else if type = 5 then some .localApicAddressOverrides
  else if type = 9 then some .localX2apics
  else none

/-- The size of the packed `struct madt_type_n` of an array's entries. -/
def MadtArray.size : MadtArray → Nat
  | .localApics => 6
  | .ioApics => 10
  | .ioApicSourceOverrides => 8
  | .ioApicNmiSources => 8
  | .ioApicNmis => 4
  | .localApicAddressOverrides => 10
  | .localX2apics => 14

def madtTypesToString : List String :=
  ["Local APIC", "I/O APIC", "I/O APIC interrupt source override",
    "I/O APIC non-maskable interrupt source", "Local APIC non-maskable interrupt",
    "Local APIC address override", "Unkown/Unused", "Unkown/Unused", "Unkown/Unused",
    "Processor local x2APIC"]

/-- `header->length` of the table whose bytes are `t`. -/
def sdtLength (t : Mem) : Nat := load t 4 4

def checksumHeader (t : Mem) : Except Fault Unit :=
  if (List.range (sdtLength t)).foldl (fun sum i => sum + t i) 0 ≠ 0 then
    .error (.panic "Bad checksum for table!")
  else .ok ()

def madtFlags (t : Mem) : Nat := load t 0x28 4

def madtRecordOffset : Nat := 0x2c

def readBytes (t : Mem) (a n : Nat) : List (BitVec 8) := (List.range n).map fun i => t (a + i)

/-- A read of the record at an offset, a store to an entry, a look at `MADT_TYPES_TO_STRING`. -/
inductive MadtAccess where
  | header (offset : Nat)
  | payload (offset : Nat) (array : MadtArray)
  | store (array : MadtArray) (index : Nat)
  | typeString (type : BitVec 8)
  deriving DecidableEq, Repr

/-- The arrays and counters of `acpi.c` and the variables of the loop, with the loop's accesses. -/
structure Madt where
  entries : MadtArray → Nat → List (BitVec 8)
  num : MadtArray → BitVec 32
  i : Nat
  lastType : BitVec 8
  offset : Nat
  accesses : List MadtAccess

/-- The loop's first state. The new arrays and `last_type` hold whatever was there before. -/
def Madt.start (old : MadtArray → Nat → List (BitVec 8)) (lastType : BitVec 8) : Madt where
  entries := old
  num _ := 0
  i := 0
  lastType := lastType
  offset := madtRecordOffset
  accesses := []

def Madt.log (w : Madt) (a : MadtAccess) : Madt := { w with accesses := a :: w.accesses }

/-- The read of a record's header; the index starts over when the type changes. -/
def Madt.enter (w : Madt) (type : BitVec 8) : Madt :=
  { w.log (.header w.offset) with
    i := if w.lastType ≠ type then 0 else w.i
    lastType := type }

/-- The `case` of an array. -/
def Madt.add (w : Madt) (t : Mem) (array : MadtArray) : Madt :=
  let payload := readBytes t (w.offset + 2) array.size
  { (w.log (.payload w.offset array)).log (.store array w.i) with
    entries := Function.update w.entries array
      (Function.update (w.entries array) w.i payload)
    num := Function.update w.num array (w.num array + 1) }

def Madt.switch (w : Madt) (t : Mem) (type : BitVec 8) : Madt :=
  match madtArray type with
  | some array => w.add t array
  | none => w.log (.typeString type)

def madtRecord (t : Mem) (w : Madt) : Madt :=
  let type := t w.offset
  let length := t (w.offset + 1)
  let w := (w.enter type).switch t type
  { w with offset := w.offset + length.toNat, i := w.i + 1 }

/-- At most `n` turns of the record loop. -/
def madtLoop (t : Mem) : Nat → Madt → Madt
  | 0, w => w
  | n + 1, w => if w.offset < sdtLength t then madtLoop t n (madtRecord t w) else w

/-- `parse_madt` behind its calls of `kmalloc`. A walk over more records than the table has bytes
goes on for ever. -/
def parseMadt (t : Mem) (w : Madt) : Except Fault Madt :=
  if madtFlags t = 0 then
    .error (.panic
      "TODO: Handel edge case where dual 8259 legacy PICs installed for serial.")
  else
    let w := madtLoop t (sdtLength t) w
    if w.offset < sdtLength t then .error .diverges
    else if w.num .localApicAddressOverrides > 0 then
      .error (.panic "TODO: Use LAPIC address overrides!")
    else .ok w

end AdaOS
