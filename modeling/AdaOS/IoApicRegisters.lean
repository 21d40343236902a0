import AdaOS.IoApicRoutes

namespace AdaOS
set_option autoImplicit true

/-- The eight bytes of the packed struct as a number; `padding` is what the seven bits after the
mask hold. -/
def RedirectionEntry.bytes (e : RedirectionEntry) (padding : BitVec 7) : BitVec 64 :=
  e.logDestination ++ e.physDestination ++ e.reserved ++ padding ++ e.mask ++ e.triggerMode ++
    e.remoteIrr ++ e.polarity ++ e.deliveryStatus ++ e.destinationMode ++ e.deliveryMode ++
    e.isrIndex

def RedirectionEntry.ofBytes (bytes : BitVec 64) : RedirectionEntry where
  isrIndex := bytes.extractLsb' 0 8
  deliveryMode := bytes.extractLsb' 8 3
  destinationMode := bytes.extractLsb' 11 1
  deliveryStatus := bytes.extractLsb' 12 1
  polarity := bytes.extractLsb' 13 1
  remoteIrr := bytes.extractLsb' 14 1
  triggerMode := bytes.extractLsb' 15 1
  mask := bytes.extractLsb' 16 1
  reserved := bytes.extractLsb' 24 32
  physDestination := bytes.extractLsb' 56 3
  logDestination := bytes.extractLsb' 59 5

theorem RedirectionEntry.ofBytes_bytes (e : RedirectionEntry) (padding : BitVec 7) :
    RedirectionEntry.ofBytes (e.bytes padding) = e := by
  rw [ofBytes, bytes]
  congr 1
  case e_logDestination =>
    repeat rw [BitVec.extractLsb'_append_eq_of_le (by decide)]
    exact BitVec.extractLsb'_eq_self
  all_goals
    -- The fields below are dropped, and then those above.
    repeat rw [BitVec.extractLsb'_append_eq_of_le (by decide)]
    rw [BitVec.extractLsb'_append_eq_of_add_le (by decide)]
    exact BitVec.extractLsb'_eq_self

/-- An IO APIC: the register that `IOREGSEL` selects, the registers behind `IOWIN`, and the ranges
of the calls of `extract_bit_range`, newest first. -/
structure IoApicDevice where
  ioregsel : BitVec 32
  registers : BitVec 8 → BitVec 32
  extracted : List (BitVec 8 × BitVec 8)

def IoApicDevice.writeIowin (d : IoApicDevice) (val : BitVec 32) : IoApicDevice :=
  { d with registers := Function.update d.registers (d.ioregsel.setWidth 8) val }

def writeIoApicReg (d : IoApicDevice) (offset : BitVec 8) (val : BitVec 32) : IoApicDevice :=
  IoApicDevice.writeIowin { d with ioregsel := (offset &&& 0xff).setWidth 32 } val

def IoApicDevice.extract (d : IoApicDevice) (value : BitVec 32) (high low : BitVec 8) :
    BitVec 32 × IoApicDevice :=
  (extractBitRange value high low, { d with extracted := (high, low) :: d.extracted })

def IO_APIC_REDIRECTION_OFFSET : Nat := 0x10

def loRedirectionForN (n : BitVec 8) : Nat := IO_APIC_REDIRECTION_OFFSET + n.toNat * 2

def hiRedirectionForN (n : BitVec 8) : Nat := IO_APIC_REDIRECTION_OFFSET + n.toNat * 2 + 1

/-- `write_io_apic_redirection_entry`, where `entry` is the pointer: the code makes a number of the
pointer and not of what it points to. -/
def writeIoApicRedirectionEntry (ioApicMaxEntries : BitVec 8) (d : IoApicDevice)
    (entry : BitVec 64) (index : BitVec 8) : IoApicDevice :=
  if index > ioApicMaxEntries then d
  else
    let bytesOfEntry := entry
    let (lo, d) := d.extract (bytesOfEntry.setWidth 32) 32 0
    let d := writeIoApicReg d (.ofNat 8 (loRedirectionForN index)) lo
    let (hi, d) := d.extract (bytesOfEntry.setWidth 32) 64 32
    writeIoApicReg d (.ofNat 8 (hiRedirectionForN index)) hi

/-- The register pair of an index has the bytes of an entry, and gives it back; the other registers
have what they had. -/
def PairHolds (e : RedirectionEntry) (padding : BitVec 7) (index : BitVec 8)
    (d d' : IoApicDevice) : Prop :=
  ∃ lo hi : BitVec 8, lo.toNat = 0x10 + 2 * index.toNat ∧ hi.toNat = 0x10 + 2 * index.toNat + 1 ∧
    d'.registers lo = (e.bytes padding).setWidth 32 ∧
    d'.registers hi = (e.bytes padding >>> 32).setWidth 32 ∧
    RedirectionEntry.ofBytes (d'.registers hi ++ d'.registers lo) = e ∧
    ∀ r, r ≠ lo → r ≠ hi → d'.registers r = d.registers r

/-- An entry at `entry` is written at an index up to the highest one, and not at one above. -/
def EntryWritten (ioApicMaxEntries : BitVec 8) (d : IoApicDevice) (e : RedirectionEntry)
    (padding : BitVec 7) (entry : BitVec 64) (index : BitVec 8) : Prop :=
  (index ≤ ioApicMaxEntries →
    PairHolds e padding index d (writeIoApicRedirectionEntry ioApicMaxEntries d entry index)) ∧
  (ioApicMaxEntries < index → writeIoApicRedirectionEntry ioApicMaxEntries d entry index = d)

/-- The ranges that a call extracts are ranges of a 32-bit word. -/
def RangesInWord (d d' : IoApicDevice) : Prop :=
  ∃ new, d'.extracted = new ++ d.extracted ∧ ∀ r ∈ new, r.2 ≤ r.1 ∧ r.1 ≤ 31

theorem bytes_halves (bytes : BitVec 64) :
    (bytes >>> 32).setWidth 32 ++ bytes.setWidth 32 = bytes := by
  apply BitVec.eq_of_getLsbD_eq
  intro i hi
  rw [BitVec.getLsbD_append]
  split_ifs with hlow
  · rw [BitVec.getLsbD_setWidth, decide_eq_true hlow, Bool.true_and]
  · rw [BitVec.getLsbD_setWidth, BitVec.getLsbD_ushiftRight, decide_eq_true (by omega),
      Bool.true_and, Nat.add_sub_cancel' (by omega)]

theorem extract_pointer (value : BitVec 32) :
    extractBitRange value 32 0 = value &&& 1 ∧ extractBitRange value 64 32 = value &&& 1 :=
  ⟨rfl, rfl⟩

theorem writeIoApicReg_eq (d : IoApicDevice) (offset : BitVec 8) (val : BitVec 32) :
    (writeIoApicReg d offset val).registers = Function.update d.registers offset val := by
  have hsel : ((offset &&& 0xff).setWidth 32).setWidth 8 = offset := by
    have hall : offset &&& 0xff = offset := BitVec.and_allOnes
    rw [hall, BitVec.setWidth_setWidth_of_le _ (by decide), BitVec.setWidth_eq]
  rw [writeIoApicReg, IoApicDevice.writeIowin, hsel]

theorem writeEntry_of_lt (d : IoApicDevice) (entry : BitVec 64) (h : ioApicMaxEntries < index) :
    writeIoApicRedirectionEntry ioApicMaxEntries d entry index = d :=
  if_pos h

theorem writeEntry_of_le (d : IoApicDevice) (entry : BitVec 64) (h : index ≤ ioApicMaxEntries) :
    (writeIoApicRedirectionEntry ioApicMaxEntries d entry index).registers =
        Function.update
          (Function.update d.registers (.ofNat 8 (loRedirectionForN index))
            (entry.setWidth 32 &&& 1))
          (.ofNat 8 (hiRedirectionForN index)) (entry.setWidth 32 &&& 1) ∧
      (writeIoApicRedirectionEntry ioApicMaxEntries d entry index).extracted =
        (64, 32) :: (32, 0) :: d.extracted := by
  obtain ⟨hlo, hhi⟩ := extract_pointer (entry.setWidth 32)
  rw [writeIoApicRedirectionEntry, if_neg (BitVec.not_lt.2 h)]
  simp only [IoApicDevice.extract, hlo, hhi]
  refine ⟨?_, rfl⟩
  rw [writeIoApicReg_eq]
  exact congrArg (fun f => Function.update f _ _) (writeIoApicReg_eq _ _ _)

theorem rangesInWord_iff (d : IoApicDevice) (entry : BitVec 64)
    (ioApicMaxEntries index : BitVec 8) :
    RangesInWord d (writeIoApicRedirectionEntry ioApicMaxEntries d entry index) ↔
      ioApicMaxEntries < index := by
  constructor
  · intro ⟨new, hnew, hranges⟩
    by_contra hle
    rw [(writeEntry_of_le d entry (BitVec.not_lt.1 hle)).2] at hnew
    have hcons : [(64, 32), (32, 0)] ++ d.extracted = new ++ d.extracted := hnew
    rw [← List.append_cancel_right hcons] at hranges
    exact absurd (hranges _ (.head _)).2 (by decide)
  · intro h
    rw [writeEntry_of_lt d entry h]
    exact ⟨[], rfl, fun _ hr => nomatch hr⟩

theorem redirectionPair (h : index.toNat < 120) :
    (BitVec.ofNat 8 (loRedirectionForN index)).toNat = 0x10 + 2 * index.toNat ∧
      (BitVec.ofNat 8 (hiRedirectionForN index)).toNat = 0x10 + 2 * index.toNat + 1 := by
  rw [BitVec.toNat_ofNat, BitVec.toNat_ofNat, loRedirectionForN, hiRedirectionForN,
    IO_APIC_REDIRECTION_OFFSET]
  omega

theorem redirectionPair_ne (h : index.toNat < 120) :
    BitVec.ofNat 8 (loRedirectionForN index) ≠ BitVec.ofNat 8 (hiRedirectionForN index) := by
  obtain ⟨hlo, hhi⟩ := redirectionPair h
  intro heq
  rw [heq] at hlo
  omega

theorem pairHolds_iff (d : IoApicDevice) (e : RedirectionEntry) (padding : BitVec 7)
    (entry : BitVec 64) (h : index ≤ ioApicMaxEntries) :
    PairHolds e padding index d (writeIoApicRedirectionEntry ioApicMaxEntries d entry index) ↔
      index.toNat < 120 ∧ (e.bytes padding).setWidth 32 = entry.setWidth 32 &&& 1 ∧
        (e.bytes padding >>> 32).setWidth 32 = entry.setWidth 32 &&& 1 := by
  have hregs := (writeEntry_of_le d entry h).1
  constructor
  · intro ⟨lo, hi, hlo, hhi, hlow, hhigh, _, _⟩
    have hindex : index.toNat < 120 := by
      have hlt := hi.isLt
      omega
    obtain ⟨hlo', hhi'⟩ := redirectionPair hindex
    obtain rfl := BitVec.eq_of_toNat_eq (hlo.trans hlo'.symm)
    obtain rfl := BitVec.eq_of_toNat_eq (hhi.trans hhi'.symm)
    have hne := redirectionPair_ne hindex
    rw [hregs, Function.update_of_ne hne, Function.update_self] at hlow
    rw [hregs, Function.update_self] at hhigh
    exact ⟨hindex, hlow.symm, hhigh.symm⟩
  · intro ⟨hindex, hlow, hhigh⟩
    obtain ⟨hlo, hhi⟩ := redirectionPair hindex
    have hne := redirectionPair_ne hindex
    refine ⟨_, _, hlo, hhi, ?_, ?_, ?_, ?_⟩
    · rw [hregs, Function.update_of_ne hne, Function.update_self, hlow]
    · rw [hregs, Function.update_self, hhigh]
    · rw [hregs, Function.update_of_ne hne, Function.update_self, Function.update_self]
      nth_rewrite 1 [← hhigh]
      rw [← hlow, bytes_halves, RedirectionEntry.ofBytes_bytes]
    · intro r hrl hrh
      rw [hregs, Function.update_of_ne hrh, Function.update_of_ne hrl]

theorem entryWritten_iff (ioApicMaxEntries : BitVec 8) (d : IoApicDevice) (e : RedirectionEntry)
    (padding : BitVec 7) (entry : BitVec 64) (index : BitVec 8) :
    EntryWritten ioApicMaxEntries d e padding entry index ↔
      ioApicMaxEntries < index ∨
        index.toNat < 120 ∧ (e.bytes padding).setWidth 32 = entry.setWidth 32 &&& 1 ∧
          (e.bytes padding >>> 32).setWidth 32 = entry.setWidth 32 &&& 1 := by
  by_cases h : ioApicMaxEntries < index
  · refine iff_of_true ⟨fun hle => ?_, fun _ => writeEntry_of_lt d entry h⟩ (.inl h)
    exact absurd h (BitVec.not_lt.2 hle)
  · have hle := BitVec.not_lt.1 h
    rw [or_iff_right h, ← pairHolds_iff d e padding entry hle]
    exact ⟨fun hw => hw.1 hle, fun hp => ⟨fun _ => hp, fun hlt => absurd hlt h⟩⟩

/-- The whole of what is asked holds exactly where nothing is written. -/
theorem writeEntry_encodes_iff (ioApicMaxEntries : BitVec 8) (d : IoApicDevice)
    (e : RedirectionEntry) (padding : BitVec 7) (entry : BitVec 64) (index : BitVec 8) :
    EntryWritten ioApicMaxEntries d e padding entry index ∧
        RangesInWord d (writeIoApicRedirectionEntry ioApicMaxEntries d entry index) ↔
      ioApicMaxEntries < index := by
  rw [rangesInWord_iff, entryWritten_iff]
  exact ⟨fun h => h.2, fun h => ⟨.inl h, h⟩⟩

/-- An entry for vector 0x20 at an even address: the pair is cleared. -/
theorem writeEntry_loses_vector :
    ¬∀ (ioApicMaxEntries : BitVec 8) (d : IoApicDevice) (e : RedirectionEntry)
      (padding : BitVec 7) (entry : BitVec 64) (index : BitVec 8),
      EntryWritten ioApicMaxEntries d e padding entry index ∧
        RangesInWord d (writeIoApicRedirectionEntry ioApicMaxEntries d entry index) := by
  intro hall
  have hwritten := (hall 23 ⟨0, fun _ => 0, []⟩ ⟨0x20, 0, 0, 0, 0, 0, 0, 0, 0, 0, 0⟩ 0
    0xffffffff80010000 0).1
  obtain h | ⟨_, hlow, _⟩ := (entryWritten_iff _ _ _ _ _ _).1 hwritten
  · exact absurd h (by decide)
  · exact absurd hlow (by decide)

end AdaOS
