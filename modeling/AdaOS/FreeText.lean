import AdaOS.CpuStatusReads
import AdaOS.TerminalTexts

namespace AdaOS.Printf
set_option autoImplicit true

/-- The numeral behind the words, read back: the whole number and the digits of the fraction. -/
def readFree (t : List (BitVec 8)) : Nat × List (BitVec 8) :=
  let t := ((unlined t).dropWhile (· ≠ ch '.')).drop (literal ". Total free: ").length
  (readNumber 10 (t.takeWhile isDigit), ((t.dropWhile isDigit).drop 1).takeWhile isDigit)

/-- The numeral is less than two hundred-thousandths away from `n` bytes in GiB. -/
def ShowsGib (whole : Nat) (fraction : List (BitVec 8)) (n : Nat) : Prop :=
  let p := 10 ^ fraction.length
  let shown := (whole * p + readNumber 10 fraction) * 2 ^ 30
  shown * 10 ^ 5 < n * p * 10 ^ 5 + 2 * 2 ^ 30 * p ∧
    n * p * 10 ^ 5 < shown * 10 ^ 5 + 2 * 2 ^ 30 * p

/-- The digits of the fraction that `serial_print_free_ram` prints. -/
def fractionDigits (n : Nat) : List (BitVec 8) :=
  zeroed 2 (standardDigits false 10 (n % 1073741824 * 100 / 1073741))

theorem point_not_mem_decimal (x : Int) : ∀ b ∈ decimal x, b ≠ ch '.' := by
  have hpoint : ¬ isDigit (ch '.') = true := by decide
  have hdigits : ∀ b ∈ standardDigits false 10 x.natAbs, b ≠ ch '.' := by
    intro b hb heq
    exact hpoint (heq ▸ isDigit_of_mem b hb)
  rw [decimal]
  split
  · exact List.forall_mem_cons.2 ⟨by decide, hdigits⟩
  · exact hdigits

theorem isDigit_fractionDigits (n : Nat) : ∀ b ∈ fractionDigits n, isDigit b = true := by
  intro b hb
  obtain hb | hb := List.mem_append.1 hb
  · rw [List.eq_of_mem_replicate hb]
    decide
  · exact isDigit_of_mem b hb

theorem readNumber_fractionDigits (n : Nat) :
    readNumber 10 (fractionDigits n) = n % 1073741824 * 100 / 1073741 :=
  readNumber_zeroed false (by decide) (by decide) 2 _

theorem toNat_length (freePages : BitVec 64) (h : freePages.toNat < 2 ^ 49) :
    (freePages * BitVec.ofNat 64 pageSize).toNat = freePages.toNat * 4096 := by
  rw [BitVec.toNat_mul]
  exact Nat.mod_eq_of_lt (by change _ * 4096 < 2 ^ 64; omega)

theorem toInt_gib (freePages : BitVec 64) (h : freePages.toNat < 2 ^ 49) :
    ((freePages * BitVec.ofNat 64 pageSize / 1073741824).truncate 32).toInt =
      (freePages.toNat * 4096 / 1073741824 : Nat) := by
  have hgib : ((freePages * BitVec.ofNat 64 pageSize / 1073741824).truncate 32).toNat =
      freePages.toNat * 4096 / 1073741824 := by
    rw [BitVec.truncate_eq_setWidth, BitVec.toNat_setWidth, BitVec.toNat_udiv,
      toNat_length freePages h]
    exact Nat.mod_eq_of_lt (by change _ / 1073741824 < 2 ^ 32; omega)
  rw [BitVec.toInt_eq_toNat_of_lt (by rw [hgib]; omega), hgib]

/-- The text without its line end. -/
theorem unlined_freeText (freePages usedPages : BitVec 64) (h : freePages.toNat < 2 ^ 49) :
    unlined (freeText freePages usedPages) =
      literal "Free pages: " ++ (decimal (freePages.truncate 32).toInt ++
        (literal ", used pages: " ++ (decimal (usedPages.truncate 32).toInt ++
          (literal ". Total free: " ++
            (standardDigits false 10 (freePages.toNat * 4096 / 1073741824) ++
              (ch '.' :: (fractionDigits (freePages.toNat * 4096) ++ literal "Gib"))))))) := by
  have hfree : unlined (literal "Free pages: ") = literal "Free pages: " := by decide
  have hused : unlined (literal ", used pages: ") = literal ", used pages: " := by decide
  have htotal : unlined (literal ". Total free: ") = literal ". Total free: " := by decide
  have hpoint : unlined (literal ".") = [ch '.'] := by decide
  have hend : unlined (literal "Gib\n") = literal "Gib" := by decide
  have hdecimal : ∀ x : Int, unlined (decimal x) = decimal x :=
    fun x => unlined_shown (shown_decimal x)
  have hdigits : ∀ n : Nat, unlined (standardDigits false 10 n) = standardDigits false 10 n :=
    fun n => unlined_shown (shown_standardDigits false (by decide) (by decide) n)
  have hnumber : ∀ n : Nat, decimal (n : Int) = standardDigits false 10 n := by
    intro n
    rw [decimal, if_neg (by omega), Int.natAbs_natCast]
  have hfraction : unlined (fractionDigits (freePages.toNat * 4096)) =
      fractionDigits (freePages.toNat * 4096) := by
    apply unlined_shown
    intro b hb
    have hdigit : ∀ b : BitVec 8, isDigit b = true → Shown b := by decide
    exact hdigit b (isDigit_fractionDigits _ b hb)
  rw [freeText]
  simp only [unlined_append, hfree, hused, htotal, hpoint, hend, hdecimal, toInt_gib freePages h,
    hnumber, hdigits, toNat_length freePages h]
  rw [← fractionDigits, hfraction]
  rfl

theorem readFree_freeText (freePages usedPages : BitVec 64) (h : freePages.toNat < 2 ^ 49) :
    readFree (freeText freePages usedPages) =
      (freePages.toNat * 4096 / 1073741824, fractionDigits (freePages.toNat * 4096)) := by
  have hword : ∀ b ∈ literal "Free pages: ", decide (b ≠ ch '.') = true := by decide
  have hword' : ∀ b ∈ literal ", used pages: ", decide (b ≠ ch '.') = true := by decide
  have hdecimal : ∀ x : Int, ∀ b ∈ decimal x, decide (b ≠ ch '.') = true :=
    fun x b hb => decide_eq_true (point_not_mem_decimal x b hb)
  have htotal : literal ". Total free: " = ch '.' :: literal " Total free: " := by decide
  have hstop : ∀ t, (ch '.' :: t).dropWhile (fun b => decide (b ≠ ch '.')) = ch '.' :: t :=
    fun t => List.dropWhile_cons_of_neg (by decide)
  have hnodigit : ¬ isDigit (ch '.') = true := by decide
  have hend : (literal "Gib").takeWhile isDigit = [] := by decide
  have hnumber := readNumber_zeroed false (by decide : 1 < 10) (by decide) 0
    (freePages.toNat * 4096 / 1073741824)
  rw [zeroed_zero] at hnumber
  rw [readFree, unlined_freeText freePages usedPages h]
  rw [List.dropWhile_append_of_pos hword, List.dropWhile_append_of_pos (hdecimal _),
    List.dropWhile_append_of_pos hword', List.dropWhile_append_of_pos (hdecimal _), htotal,
    List.cons_append, hstop, ← List.cons_append, List.drop_left,
    List.takeWhile_append_of_pos isDigit_of_mem, List.dropWhile_append_of_pos isDigit_of_mem,
    List.takeWhile_cons_of_neg hnodigit, List.dropWhile_cons_of_neg hnodigit, List.append_nil,
    hnumber, List.drop_one, List.tail_cons,
    List.takeWhile_append_of_pos (isDigit_fractionDigits _), hend, List.append_nil]

/-- Four digits at most below a tenth of a GiB, and five from there on. -/
theorem length_fractionDigits (n : Nat) :
    (n % 1073741824 * 100 / 1073741 < 10 ^ 4 ∧
        ((fractionDigits n).length = 2 ∨ (fractionDigits n).length = 3 ∨
          (fractionDigits n).length = 4)) ∨
      (10 ^ 4 ≤ n % 1073741824 * 100 / 1073741 ∧ n % 1073741824 * 100 / 1073741 < 10 ^ 5 ∧
        (fractionDigits n).length = 5) ∨ 10 ^ 5 ≤ n % 1073741824 * 100 / 1073741 := by
  have hlen : (fractionDigits n).length =
      max 2 (standardDigits false 10 (n % 1073741824 * 100 / 1073741)).length := by
    rw [fractionDigits, zeroed, List.length_append, List.length_replicate]
    omega
  have hle := fun k (hk : 0 < k) (hn : n % 1073741824 * 100 / 1073741 < 10 ^ k) =>
    length_standardDigits_le false (by decide : 1 < 10) hk hn
  by_cases h₄ : n % 1073741824 * 100 / 1073741 < 10 ^ 4
  · have hfour := hle 4 (by decide) h₄
    exact .inl ⟨h₄, by omega⟩
  · by_cases h₅ : n % 1073741824 * 100 / 1073741 < 10 ^ 5
    · have hfive := hle 5 (by decide) h₅
      have hne : n % 1073741824 * 100 / 1073741 ≠ 0 := by omega
      have hmore := (Nat.lt_digits_length_iff (by decide : 1 < 10) _).2 (Nat.le_of_not_lt h₄)
      rw [← length_standardDigits false hne] at hmore
      exact .inr (.inl ⟨Nat.le_of_not_lt h₄, h₅, by omega⟩)
    · exact .inr (.inr (Nat.le_of_not_lt h₅))

theorem showsGib_iff (freePages : Nat) :
    ShowsGib (freePages * 4096 / 1073741824) (fractionDigits (freePages * 4096))
        (freePages * 4096) ↔
      freePages % 2 ^ 18 < 3 ∨ 26215 ≤ freePages % 2 ^ 18 := by
  have hwhole : freePages * 4096 / 1073741824 = freePages / 2 ^ 18 := by omega
  have hrest : freePages * 4096 % 1073741824 = freePages % 2 ^ 18 * 4096 := by omega
  have hparts : freePages * 4096 = freePages / 2 ^ 18 * 2 ^ 30 + freePages % 2 ^ 18 * 4096 := by
    omega
  have hlt : freePages % 2 ^ 18 < 2 ^ 18 := Nat.mod_lt _ (by decide)
  have hcases := length_fractionDigits (freePages * 4096)
  rw [ShowsGib, readNumber_fractionDigits, hwhole, hrest]
  rw [hrest] at hcases
  generalize (fractionDigits (freePages * 4096)).length = len at hcases ⊢
  rw [hparts]
  generalize freePages / 2 ^ 18 = whole
  generalize freePages % 2 ^ 18 = rest at hlt hcases ⊢
  have hzero : rest * 4096 * 100 / 1073741 = 0 ↔ rest < 3 := by omega
  have htenth : 10 ^ 4 ≤ rest * 4096 * 100 / 1073741 ↔ 26215 ≤ rest := by omega
  have hlow : rest * 4096 * 100 / 1073741 * 1073741 ≤ rest * 409600 := by omega
  have hhigh : rest * 409600 < rest * 4096 * 100 / 1073741 * 1073741 + 1073741 := by omega
  generalize rest * 4096 * 100 / 1073741 = d at *
  obtain ⟨hd, rfl | rfl | rfl⟩ | ⟨hge, hd, rfl⟩ | hbig := hcases
  · omega
  · omega
  · omega
  · omega
  · omega

/-- The command `free` shows the free memory right except between 3 pages and a tenth of a GiB
above a whole number of GiB, where the zeros behind the point are missing. -/
theorem free_shows_iff (freePages usedPages : BitVec 64) (h : freePages.toNat < 2 ^ 49)
    {lineStatus : Nat → BitVec 8} (hready : Ready lineStatus) (port : Com1) :
    ∃ wait port' sent, serialPrintFreeRam lineStatus wait port freePages usedPages = .ok port' ∧
      port'.written = port.written ++ sent ∧
      (ShowsGib (readFree sent).1 (readFree sent).2 (freePages.toNat * 4096) ↔
        freePages.toNat % 2 ^ 18 < 3 ∨ 26215 ≤ freePages.toNat % 2 ^ 18) := by
  obtain ⟨wait, port', hsend, hwritten⟩ := send_ready hready (freeText freePages usedPages) port
  refine ⟨wait, port', _, ?_, hwritten, ?_⟩
  · rw [serialPrintFreeRam_eq, hsend]
  · have hread : readFree ((freeText freePages usedPages).flatMap ioBytes) =
        readFree (freeText freePages usedPages) := by
      rw [readFree, readFree, unlined_ioBytes]
    rw [hread, readFree_freeText freePages usedPages h]
    exact showsGib_iff freePages.toNat

/-- With 100 MiB free it shows 0.9765 GiB. -/
theorem free_shows_iff_hundred :
    ∃ wait port' sent, serialPrintFreeRam (fun _ => 0x20) wait ⟨0, []⟩ 25600 0 = .ok port' ∧
      port'.written = sent ∧
      (ShowsGib (readFree sent).1 (readFree sent).2 (25600 * 4096) ↔
        25600 % 2 ^ 18 < 3 ∨ 26215 ≤ 25600 % 2 ^ 18) :=
  free_shows_iff 25600 0 (by decide) ready_always ⟨0, []⟩

end AdaOS.Printf
