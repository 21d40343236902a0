import AdaOS.ConsoleBounds
import AdaOS.Rs232

namespace AdaOS
set_option autoImplicit true

/-- A string in memory, its terminator at `len`. -/
structure CString (s : Nat → BitVec 8) (len : Nat) : Prop where
  terminator : s len = 0
  characters : ∀ i < len, s i ≠ 0

def stringText (s : Nat → BitVec 8) (i len : Nat) : List (BitVec 8) :=
  (List.range' i (len - i)).map s

theorem stringText_end (s : Nat → BitVec 8) (len : Nat) : stringText s len len = [] := by
  rw [stringText, Nat.sub_self]
  rfl

theorem stringText_cons (s : Nat → BitVec 8) (hi : i < len) :
    stringText s i len = s i :: stringText s (i + 1) len := by
  have hn : len - i = len - (i + 1) + 1 := by omega
  rw [stringText, stringText, hn]
  rfl

theorem CString.textFrom_eq (h : CString s len) (hlen : len < 256) (hi : i ≤ len) :
    textFrom s i = stringText s i len := by
  induction hn : len - i generalizing i with
  | zero =>
    obtain rfl : i = len := by omega
    rw [AdaOS.textFrom_eq hlen, if_pos h.terminator, stringText_end]
  | succ n ih =>
    have hlt : i < len := by omega
    rw [AdaOS.textFrom_eq (by omega), if_neg (h.characters i hlt), stringText_cons s hlt,
      ih hlt (by omega)]

theorem CString.kPutsFrom_diverges (h : CString s len) (hlen : 256 ≤ len)
    (font : Nat → BitVec 64) (fuel : Nat) (hi : i < 256) (c d : Console) :
    Console.kPutsFrom font s fuel i c ≠ .ok d := by
  induction fuel generalizing i c with
  | zero => exact nofun
  | succ fuel ih =>
    have hnext := Nat.mod_lt (i + 1) (show 0 < 256 by decide)
    rw [Console.kPutsFrom, if_neg (h.characters i (by omega))]
    intro hrun
    split_ifs at hrun with hnl hcr
    · obtain ⟨e, _, hrest⟩ := bind_ok hrun
      exact ih hnext _ hrest
    · exact ih hnext _ hrun
    · obtain ⟨e, _, hrest⟩ := bind_ok hrun
      exact ih hnext _ hrest

theorem CString.serialWriteStringFrom_diverges (h : CString s len) (hlen : 256 ≤ len)
    (lineStatus : Nat → BitVec 8) (wait fuel : Nat) (hi : i < 256) (port port' : Com1) :
    Com1.serialWriteStringFrom lineStatus s wait fuel i port ≠ .ok port' := by
  induction fuel generalizing i port with
  | zero => exact nofun
  | succ fuel ih =>
    rw [Com1.serialWriteStringFrom, if_neg (h.characters i (by omega))]
    intro hrun
    obtain ⟨p, _, hrest⟩ := bind_ok hrun
    exact ih (Nat.mod_lt (i + 1) (show 0 < 256 by decide)) p hrest

theorem serialWriteStringFrom_mono {port port' : Com1}
    (h : Com1.serialWriteStringFrom lineStatus s wait fuel i port = .ok port')
    (hle : wait ≤ wait') :
    Com1.serialWriteStringFrom lineStatus s wait' fuel i port = .ok port' := by
  induction fuel generalizing i port with
  | zero => cases h
  | succ fuel ih =>
    rw [Com1.serialWriteStringFrom] at h ⊢
    by_cases hs : s i = 0
    · rw [if_pos hs] at h ⊢
      exact h
    · rw [if_neg hs] at h ⊢
      obtain ⟨p, hbyte, hrest⟩ := bind_ok h
      rw [Com1.serialWritebBlocking_mono hbyte hle]
      exact ih hrest

theorem CString.serialWriteStringFrom_ok (h : CString s len) (hlen : len < 256)
    (hready : Ready lineStatus) (hi : i ≤ len) (port : Com1) :
    ∃ wait fuel port', Com1.serialWriteStringFrom lineStatus s wait fuel i port = .ok port' ∧
      port'.written = port.written ++ (stringText s i len).flatMap ioBytes := by
  induction hn : len - i generalizing i port with
  | zero =>
    obtain rfl : i = len := by omega
    refine ⟨0, 1, port, if_pos h.terminator, ?_⟩
    rw [stringText_end, List.flatMap_nil, List.append_nil]
  | succ n ih =>
    have hlt : i < len := by omega
    obtain ⟨wait₁, mid, hbyte, hmid⟩ := hready.serialWritebBlocking port (s i)
    obtain ⟨wait₂, fuel, port', hrest, hwritten⟩ := ih hlt mid (by omega)
    refine ⟨max wait₁ wait₂, fuel + 1, port', ?_, ?_⟩
    · have hfirst := Com1.serialWritebBlocking_mono hbyte (Nat.le_max_left wait₁ wait₂)
      have hmod : (i + 1) % 256 = i + 1 := Nat.mod_eq_of_lt (by omega)
      rw [Com1.serialWriteStringFrom, if_neg (h.characters i hlt), hfirst, hmod]
      exact serialWriteStringFrom_mono hrest (Nat.le_max_right wait₁ wait₂)
    · rw [hwritten, hmid, stringText_cons s hlt, List.flatMap_cons, List.append_assoc]

/-- `k_puts` ends, and does what `k_putc` does on each character. -/
def PutsEachOnce (font : Nat → BitVec 64) (s : Nat → BitVec 8) (len : Nat) : Prop :=
  ∀ c, ∃ fuel, Console.kPutsFrom font s fuel 0 c =
    (stringText s 0 len).foldlM (fun c b => c.kPutc font (b.signExtend 16)) c

/-- `serial_write_string` ends, and writes each character. -/
def WritesEachOnce (lineStatus : Nat → BitVec 8) (s : Nat → BitVec 8) (len : Nat) : Prop :=
  ∀ port : Com1, ∃ wait fuel port', port.serialWriteString lineStatus s wait fuel = .ok port' ∧
    port'.written = port.written ++ (stringText s 0 len).flatMap ioBytes

theorem CString.putsEachOnce_iff (h : CString s len) (font : Nat → BitVec 64) :
    PutsEachOnce font s len ↔ len < 256 := by
  constructor
  · intro hputs
    by_contra hlen
    obtain ⟨fuel, hrun⟩ := hputs (Console.boot oneRow)
    obtain ⟨d, hprinted, _⟩ := (Console.boot_on oneRow_fits).kPutcs oneRow_fits (by decide) font
      (stringText s 0 len)
    exact h.kPutsFrom_diverges (Nat.le_of_not_lt hlen) font fuel (by decide) _ d
      (hrun.trans hprinted)
  · intro hlen c
    refine ⟨256, ?_⟩
    rw [← h.textFrom_eq hlen (Nat.zero_le len)]
    exact kPuts_eq font ⟨len, hlen, h.terminator⟩ c

theorem CString.writesEachOnce_iff (h : CString s len) (hready : Ready lineStatus) :
    WritesEachOnce lineStatus s len ↔ len < 256 := by
  constructor
  · intro hwrites
    by_contra hlen
    obtain ⟨wait, fuel, port', hrun, _⟩ := hwrites ⟨0, []⟩
    exact h.serialWriteStringFrom_diverges (Nat.le_of_not_lt hlen) lineStatus wait fuel
      (by decide) _ port' hrun
  · intro hlen port
    exact h.serialWriteStringFrom_ok hlen hready (Nat.zero_le len) port

/-- A string is printed once and to its end exactly when a byte can count its characters, on the
console and on the serial port. -/
theorem strings_printed_once_iff (s : Nat → BitVec 8) (len : Nat) (font : Nat → BitVec 64)
    (lineStatus : Nat → BitVec 8) (h : CString s len) (hready : Ready lineStatus) :
    (PutsEachOnce font s len ↔ len < 256) ∧ (WritesEachOnce lineStatus s len ↔ len < 256) :=
  ⟨h.putsEachOnce_iff font, h.writesEachOnce_iff hready⟩

/-- The letter A, `len` times. -/
def manyAs (len i : Nat) : BitVec 8 := if i < len then 0x41 else 0

theorem manyAs_string (len : Nat) : CString (manyAs len) len := by
  constructor
  · exact if_neg (Nat.lt_irrefl len)
  · intro i hi
    rw [manyAs, if_pos hi]
    decide

theorem ready_always : Ready fun _ => 0x20 := by
  intro n
  have hset : transmitterReady 0x20 = true := by decide
  exact ⟨n, Nat.le_refl n, hset⟩

theorem strings_printed_once_iff_manyAs :
    (PutsEachOnce (fun _ => 1) (manyAs 3) 3 ↔ 3 < 256) ∧
      (WritesEachOnce (fun _ => 0x20) (manyAs 3) 3 ↔ 3 < 256) :=
  strings_printed_once_iff _ _ _ _ (manyAs_string 3) ready_always

/-- 256 characters have their terminator where the index is back at the first of them. -/
theorem manyAs_printed_forever :
    ¬∀ (s : Nat → BitVec 8) (len : Nat) (font : Nat → BitVec 64) (lineStatus : Nat → BitVec 8),
      CString s len → Ready lineStatus →
        PutsEachOnce font s len ∧ WritesEachOnce lineStatus s len := by
  intro hall
  have hputs := (hall (manyAs 256) 256 (fun _ => 1) (fun _ => 0x20) (manyAs_string 256)
    ready_always).1
  exact Nat.lt_irrefl 256 (((manyAs_string 256).putsEachOnce_iff _).1 hputs)

end AdaOS
