import AdaOS.Terminal

namespace AdaOS.Printf
set_option autoImplicit true

open Traced

/-- The characters of a text are shown as they are, and a line feed ends a line. -/
def Lined (t : List (BitVec 8)) : Prop := ∀ b ∈ t, b = 0x0a ∨ Shown b

theorem Lined.append (h : Lined t) (h' : Lined u) : Lined (t ++ u) := by
  intro b hb
  obtain hb | hb := List.mem_append.1 hb
  · exact h b hb
  · exact h' b hb

theorem Lined.nul (h : Lined t) : 0 ∉ t := by
  intro h0
  obtain hlf | hshown := h 0 h0
  · exact absurd hlf (by decide)
  · exact hshown.1 rfl

theorem Lined.cr (h : Lined t) : 0x0d ∉ t := by
  intro hcr
  obtain hlf | hshown := h 0x0d hcr
  · exact absurd hlf (by decide)
  · exact hshown.2.2.1 rfl

theorem Lined.flatten {ts : List (List (BitVec 8))} (h : ∀ t ∈ ts, Lined t) : Lined ts.flatten := by
  intro b hb
  obtain ⟨t, ht, hb⟩ := List.mem_flatten.1 hb
  exact h t ht b hb

instance (t : List (BitVec 8)) : Decidable (Lined t) :=
  inferInstanceAs (Decidable (∀ b ∈ t, b = 0x0a ∨ Shown b))

theorem lined_of_shown (h : ∀ b ∈ t, Shown b) : Lined t := fun b hb => .inr (h b hb)

theorem shown_decimal (x : Int) : ∀ b ∈ decimal x, Shown b := by
  have hdigits := shown_standardDigits false (by decide : 1 < 10) (by decide) x.natAbs
  rw [decimal]
  split
  · exact List.forall_mem_cons.2 ⟨by decide, hdigits⟩
  · exact hdigits

theorem length_decimal_le (x : BitVec 32) : (decimal x.toInt).length ≤ 11 := by
  have hlt := x.isLt
  have hbig : x.toInt.natAbs < 10 ^ 10 := by
    rw [BitVec.toInt_eq_toNat_cond]
    split <;> omega
  have hlen := length_standardDigits_le false (by decide : 1 < 10) (by decide : 0 < 10) hbig
  rw [decimal]
  split
  · rw [List.length_cons]
    omega
  · omega

def pointer16 (x : BitVec 64) : List (BitVec 8) := zeroed 16 (standardDigits true 16 x.toNat)

theorem length_pointer16 (x : BitVec 64) : (pointer16 x).length = 16 :=
  length_zeroed (length_standardDigits_le true (by decide) (by decide) x.isLt)

theorem shown_pointer16 (x : BitVec 64) : ∀ b ∈ pointer16 x, Shown b :=
  shown_zeroed true (by decide) (by decide) 16 x.toNat

theorem chars_stringLiteral {s : String} (h : 0 ∉ literal s) :
    chars (stringLiteral s) = literal s := by
  rw [stringLiteral]
  generalize literal s = t at h ⊢
  induction t with
  | nil => rfl
  | cons b t ih =>
    rw [List.cons_append, chars_cons (List.ne_of_not_mem_cons h).symm,
      ih (List.not_mem_of_not_mem_cons h)]

theorem text_stringArg {s : String} (h : 0 ∉ literal s) (hlen : (literal s).length < 100)
    (va : List Arg) :
    plainString.text (.ofString s :: va) = emits (literal s) >>= fun _ => pure va := by
  have hend : (0 : BitVec 8) ∈ (Arg.ofString s).target :=
    List.mem_append_right _ (List.mem_singleton_self 0)
  have hshort : (Arg.ofString s).target.length < 2 ^ 32 := by
    rw [Arg.ofString, stringLiteral, List.length_append, List.length_singleton]
    omega
  rw [text_plainString _ va hend hshort, Arg.ofString, chars_stringLiteral h]

theorem memmapString_shown : ∀ type : MemmapType,
    (∀ b ∈ literal (memmapString type), Shown b ∧ b ≠ ch '.') ∧
      (literal (memmapString type)).length < 100 := by
  intro type
  cases type <;> decide

theorem freeString_shown (type : MemmapType) :
    (∀ b ∈ literal (freeString type), Shown b) ∧ (literal (freeString type)).length < 100 := by
  rw [freeString]
  split <;> decide

def labelled (s : String) : List Piece := (literal s).map .lit

theorem ComesTo.label {ps : List Piece} (h : ComesTo ps va t) (s : String) :
    ComesTo (labelled s ++ ps) va (literal s ++ t) := h.lits (literal s)

theorem comesTo_labelled (s : String) : ComesTo (labelled s) [] (literal s) := by
  have h := ComesTo.nil.label s
  rwa [List.append_nil, List.append_nil] at h

def segmentPieces : List Piece :=
  labelled "Segment " ++ (plainDecimal :: (labelled ": Type: " ++ (plainString ::
    (labelled ". Base: " ++ (plainPointer :: (labelled ". Length: " ++ (plainPointer ::
      (labelled ". Free: " ++ (plainString :: labelled ".\n")))))))))

theorem segmentPieces_wf : ∀ p ∈ segmentPieces, p.Wf := by decide

theorem render_segmentPieces : render segmentPieces =
    literal "Segment %d: Type: %s. Base: %p. Length: %p. Free: %s.\n" := by decide

theorem int_ofWord (x : BitVec 64) : (Arg.ofWord x).int = x.truncate 32 := rfl

theorem truncate_ofNat (i : Nat) : (BitVec.ofNat 64 i).truncate 32 = BitVec.ofNat 32 i := by
  apply BitVec.eq_of_toNat_eq
  rw [BitVec.truncate_eq_setWidth, BitVec.toNat_setWidth, BitVec.toNat_ofNat, BitVec.toNat_ofNat,
    Nat.mod_mod_of_dvd _ (by decide)]

/-- A line of `serial_print_mem_map` without its line feed. -/
def segmentBody (i : Nat) (e : MemmapEntry) : List (BitVec 8) :=
  (literal "Segment " ++ decimal (BitVec.ofNat 32 i).toInt) ++ (literal ": Type: " ++
    (literal (memmapString e.type) ++ (literal ". Base: " ++ (pointer16 (.ofNat 64 e.base) ++
      (literal ". Length: " ++ (pointer16 (.ofNat 64 e.length) ++
        (literal ". Free: " ++ (literal (freeString e.type) ++ literal "."))))))))

theorem segmentText_eq (i : Nat) (e : MemmapEntry) :
    segmentText i e = segmentBody i e ++ [0x0a] := by
  have hend : literal ".\n" = literal "." ++ [0x0a] := by decide
  simp only [segmentText, segmentBody, pointer16, hend, List.append_assoc]

theorem shown_segmentBody (i : Nat) (e : MemmapEntry) : ∀ b ∈ segmentBody i e, Shown b := by
  have htype : ∀ b ∈ literal (memmapString e.type), Shown b :=
    fun b hb => ((memmapString_shown e.type).1 b hb).1
  simp only [segmentBody, List.forall_mem_append]
  exact ⟨⟨by decide, shown_decimal _⟩, by decide, htype, by decide, shown_pointer16 _, by decide,
    shown_pointer16 _, by decide, (freeString_shown e.type).1, by decide⟩

theorem lined_segmentText (i : Nat) (e : MemmapEntry) : Lined (segmentText i e) := by
  rw [segmentText_eq]
  exact (lined_of_shown (shown_segmentBody i e)).append (by decide)

theorem segment_lineText (i : Nat) (e : MemmapEntry) :
    LineText (segmentLine i e) (segmentText i e) := by
  have htype := memmapString_shown e.type
  have hfree := freeString_shown e.type
  have htype0 : 0 ∉ literal (memmapString e.type) := fun h0 => (htype.1 0 h0).1.1 rfl
  have hfree0 : 0 ∉ literal (freeString e.type) := fun h0 => (hfree.1 0 h0).1 rfl
  have hend := (comesTo_labelled ".\n").arg (text_stringArg hfree0 hfree.2 [])
  have hlength := (hend.label ". Free: ").arg (text_plainPointer (.ofWord (.ofNat 64 e.length)) _)
  have hbase := (hlength.label ". Length: ").arg (text_plainPointer (.ofWord (.ofNat 64 e.base)) _)
  have hname := (hbase.label ". Base: ").arg (text_stringArg htype0 htype.2 _)
  have hindex := (hname.label ": Type: ").arg (text_plainDecimal (.ofWord (.ofNat 64 i)) _)
  have hall := hindex.label "Segment "
  rw [int_ofWord, truncate_ofNat] at hall
  refine ⟨?_, (lined_segmentText i e).nul, ?_⟩
  · rw [segmentLine, stringLiteral, ← render_segmentPieces]
    exact hall.text_eq segmentPieces_wf []
  · have hdecimal := length_decimal_le (BitVec.ofNat 32 i)
    have hpointer : ∀ x : BitVec 64, (zeroed 16 (standardDigits true 16 x.toNat)).length = 16 :=
      length_pointer16
    have hlabels : (literal "Segment ").length = 8 ∧ (literal ": Type: ").length = 8 ∧
        (literal ". Base: ").length = 8 ∧ (literal ". Length: ").length = 10 ∧
        (literal ". Free: ").length = 8 ∧ (literal ".\n").length = 2 := by decide
    have htypeLen := htype.2
    have hfreeLen := hfree.2
    simp only [segmentText, List.length_append, hpointer]
    omega

theorem memmap_lineTexts (memmap : List MemmapEntry) :
    List.Forall₂ LineText (memmap.mapIdx segmentLine) (memmap.mapIdx segmentText) := by
  rw [List.forall₂_iff_get]
  refine ⟨by rw [List.length_mapIdx, List.length_mapIdx], fun i hi hi' => ?_⟩
  rw [List.get_eq_getElem, List.get_eq_getElem, List.getElem_mapIdx, List.getElem_mapIdx]
  exact segment_lineText i _

theorem serialPrintMemMap_eq (lineStatus : Nat → BitVec 8) (wait : Nat) (port : Com1)
    (memmap : List MemmapEntry) :
    serialPrintMemMap lineStatus wait port memmap =
      send lineStatus wait port (memmapText memmap) :=
  lines_send (memmap_lineTexts memmap) lineStatus wait port

def freePieces : List Piece :=
  labelled "Free pages: " ++ (plainDecimal :: (labelled ", used pages: " ++ (plainDecimal ::
    (labelled ". Total free: " ++ (plainDecimal :: (labelled "." ++ (zeroPadded '2' ::
      labelled "Gib\n")))))))

theorem freePieces_wf : ∀ p ∈ freePieces, p.Wf := by decide

theorem render_freePieces : render freePieces =
    literal "Free pages: %d, used pages: %d. Total free: %d.%02dGib\n" := by decide

theorem toNat_fraction (length : BitVec 64) :
    (length % 1073741824 * 100 / 1073741).toNat = length.toNat % 1073741824 * 100 / 1073741 := by
  have hrem : (length % 1073741824).toNat = length.toNat % 1073741824 := BitVec.toNat_umod
  have hlt := Nat.mod_lt length.toNat (show 0 < 1073741824 by decide)
  have hmul : (length % 1073741824 * 100).toNat = length.toNat % 1073741824 * 100 := by
    rw [BitVec.toNat_mul, hrem]
    exact Nat.mod_eq_of_lt (by change _ * 100 < 2 ^ 64; omega)
  rw [BitVec.toNat_udiv, hmul]
  rfl

theorem fraction_lt (n : Nat) : n % 1073741824 * 100 / 1073741 < 10 ^ 6 := by
  have hlt := Nat.mod_lt n (show 0 < 1073741824 by decide)
  omega

theorem lined_freeText (freePages usedPages : BitVec 64) :
    Lined (freeText freePages usedPages) := by
  have hdecimal : ∀ x : Int, Lined (decimal x) := fun x => lined_of_shown (shown_decimal x)
  have hend := (lined_of_shown (shown_zeroed false (by decide : 1 < 10) (by decide) 2
    ((freePages * BitVec.ofNat 64 pageSize).toNat % 1073741824 * 100 / 1073741))).append
    (by decide : Lined (literal "Gib\n"))
  have hgib := (hdecimal ((freePages * BitVec.ofNat 64 pageSize / 1073741824).truncate 32).toInt
    ).append ((by decide : Lined (literal ".")).append hend)
  have hused := (hdecimal (usedPages.truncate 32).toInt).append
    ((by decide : Lined (literal ". Total free: ")).append hgib)
  have hfree := (hdecimal (freePages.truncate 32).toInt).append
    ((by decide : Lined (literal ", used pages: ")).append hused)
  exact (by decide : Lined (literal "Free pages: ")).append hfree

theorem free_lineText (freePages usedPages : BitVec 64) :
    LineText (freeLine freePages usedPages) (freeText freePages usedPages) := by
  have hfraction := fraction_lt (freePages * BitVec.ofNat 64 pageSize).toNat
  have hvalue : (Arg.ofWord (freePages * BitVec.ofNat 64 pageSize % 1073741824 * 100 /
      1073741)).int.toInt =
        ((freePages * BitVec.ofNat 64 pageSize).toNat % 1073741824 * 100 / 1073741 : Nat) := by
    have hnat : (Arg.ofWord (freePages * BitVec.ofNat 64 pageSize % 1073741824 * 100 /
        1073741)).int.toNat =
          (freePages * BitVec.ofNat 64 pageSize).toNat % 1073741824 * 100 / 1073741 := by
      rw [int_ofWord, BitVec.truncate_eq_setWidth, BitVec.toNat_setWidth, toNat_fraction]
      exact Nat.mod_eq_of_lt (Nat.lt_trans hfraction (by decide))
    rw [BitVec.toInt_eq_toNat_of_lt, hnat]
    rw [hnat]
    exact Nat.lt_trans (Nat.mul_lt_mul_of_pos_left hfraction (by decide)) (by decide)
  have hend := (comesTo_labelled "Gib\n").arg
    (text_zeroPadded (w := '2') _ [] hvalue (by decide))
  have hgib := (hend.label ".").arg (text_plainDecimal
    (.ofWord (freePages * BitVec.ofNat 64 pageSize / 1073741824)) _)
  have hused := (hgib.label ". Total free: ").arg (text_plainDecimal (.ofWord usedPages) _)
  have hfree := (hused.label ", used pages: ").arg (text_plainDecimal (.ofWord freePages) _)
  have hall := hfree.label "Free pages: "
  refine ⟨?_, (lined_freeText freePages usedPages).nul, ?_⟩
  · rw [freeLine, stringLiteral, ← render_freePieces]
    exact hall.text_eq freePieces_wf []
  · have hdecimal := length_decimal_le
    have hzeroed := length_standardDigits_le false (by decide : 1 < 10) (by decide : 0 < 6)
      hfraction
    have hlabels : (literal "Free pages: ").length = 12 ∧ (literal ", used pages: ").length = 14 ∧
        (literal ". Total free: ").length = 14 ∧ (literal ".").length = 1 ∧
        (literal "Gib\n").length = 4 := by decide
    have h₁ := hdecimal (freePages.truncate 32)
    have h₂ := hdecimal (usedPages.truncate 32)
    have h₃ := hdecimal ((freePages * BitVec.ofNat 64 pageSize / 1073741824).truncate 32)
    simp only [freeText, zeroed, List.length_append, List.length_replicate]
    omega

theorem serialPrintFreeRam_eq (lineStatus : Nat → BitVec 8) (wait : Nat) (port : Com1)
    (freePages usedPages : BitVec 64) :
    serialPrintFreeRam lineStatus wait port freePages usedPages =
      send lineStatus wait port (freeText freePages usedPages) := by
  have hsend := lines_send (.cons (free_lineText freePages usedPages) .nil) lineStatus wait port
  rwa [List.flatten_cons, List.flatten_nil, List.append_nil] at hsend

section Reading

/-- The lines of a text, each with a line feed at its end. -/
def textLines : List (BitVec 8) → List (List (BitVec 8))
  | [] => []
  | b :: t =>
    if b = 0x0a then [] :: textLines t
    else
      match textLines t with
      | [] => [[b]]
      | l :: ls => (b :: l) :: ls

theorem textLines_append {l : List (BitVec 8)} (h : 0x0a ∉ l) (t : List (BitVec 8)) :
    textLines (l ++ 0x0a :: t) = l :: textLines t := by
  induction l with
  | nil => rw [List.nil_append, textLines, if_pos rfl]
  | cons b l ih =>
    have hb : b ≠ 0x0a := (List.ne_of_not_mem_cons h).symm
    rw [List.cons_append, textLines, if_neg hb, ih (List.not_mem_of_not_mem_cons h)]

def memmapTypes : List MemmapType :=
  [.usable, .reserved, .acpiReclaimable, .acpiNvs, .badMemory, .bootloaderReclaimable,
    .executableAndModules, .framebuffer]

/-- The type, the base and the length that a line of `serial_print_mem_map` shows. -/
def readSegment (line : List (BitVec 8)) : Option MemmapType × BitVec 64 × BitVec 64 :=
  let t := (line.dropWhile (· ≠ ch ':')).drop (literal ": Type: ").length
  let fields := t.dropWhile (· ≠ ch '.')
  (memmapTypes.find? fun type => literal (memmapString type) = t.takeWhile (· ≠ ch '.'),
    .ofNat 64 (readNumber 16 ((fields.drop (literal ". Base: ").length).take 16)),
    .ofNat 64 (readNumber 16
      ((fields.drop ((literal ". Base: ").length + 16 + (literal ". Length: ").length)).take 16)))

/-- The entries that a text of `serial_print_mem_map` on the port shows. -/
def readMemmap (sent : List (BitVec 8)) : List (Option MemmapType × BitVec 64 × BitVec 64) :=
  (textLines (sent.filter (· ≠ 0x0d))).map readSegment

theorem find_memmapTypes : ∀ type : MemmapType,
    memmapTypes.find? (fun type' => literal (memmapString type') = literal (memmapString type)) =
      some type := by
  intro type
  cases type <;> decide

theorem colon_not_mem (x : Int) : ∀ b ∈ literal "Segment " ++ decimal x, b ≠ ch ':' := by
  have hdigit : ∀ d < 10, digitChar false d ≠ ch ':' := by decide
  have hdigits : ∀ b ∈ standardDigits false 10 x.natAbs, b ≠ ch ':' := by
    intro b hb
    rw [standardDigits] at hb
    split at hb
    · rw [List.mem_singleton.1 hb]
      decide
    · obtain ⟨d, hd, rfl⟩ := List.mem_map.1 (List.mem_reverse.1 hb)
      exact hdigit d (Nat.digits_lt_base (by decide) hd)
  intro b hb
  obtain hb | hb := List.mem_append.1 hb
  · exact (by decide : ∀ b ∈ literal "Segment ", b ≠ ch ':') b hb
  · rw [decimal] at hb
    split at hb
    · obtain rfl | hb := List.mem_cons.1 hb
      · decide
      · exact hdigits b hb
    · exact hdigits b hb

theorem readNumber_pointer16 (x : BitVec 64) :
    BitVec.ofNat 64 (readNumber 16 (pointer16 x)) = x := by
  rw [pointer16, readNumber_zeroed true (by decide) (by decide), BitVec.ofNat_toNat,
    BitVec.setWidth_eq]

theorem take_pointer16 (x : BitVec 64) (t : List (BitVec 8)) :
    (pointer16 x ++ t).take 16 = pointer16 x := by
  rw [← length_pointer16 x, List.take_left]

theorem drop_pointer16 (x : BitVec 64) (t : List (BitVec 8)) :
    (pointer16 x ++ t).drop 16 = t := by
  rw [← length_pointer16 x, List.drop_left]

theorem readSegment_eq (i : Nat) (e : MemmapEntry) :
    readSegment (segmentBody i e) = (some e.type, .ofNat 64 e.base, .ofNat 64 e.length) := by
  obtain ⟨rest, hrest⟩ : ∃ rest, rest = literal ". Free: " ++ (literal (freeString e.type) ++
    literal ".") := ⟨_, rfl⟩
  obtain ⟨fields, hfields⟩ : ∃ fields, fields = literal ". Base: " ++
    (pointer16 (.ofNat 64 e.base) ++
      (literal ". Length: " ++ (pointer16 (.ofNat 64 e.length) ++ rest))) := ⟨_, rfl⟩
  have hbody : segmentBody i e = (literal "Segment " ++ decimal (BitVec.ofNat 32 i).toInt) ++
      (literal ": Type: " ++ (literal (memmapString e.type) ++ fields)) := by
    rw [hfields, hrest, segmentBody]
  have hcolon : literal ": Type: " = ch ':' :: (literal ": Type: ").tail := by decide
  have hstop : literal ". Base: " = ch '.' :: (literal ". Base: ").tail := by decide
  have hindex : ∀ b ∈ literal "Segment " ++ decimal (BitVec.ofNat 32 i).toInt,
      decide (b ≠ ch ':') = true := fun b hb => decide_eq_true (colon_not_mem _ b hb)
  have hname : ∀ b ∈ literal (memmapString e.type), decide (b ≠ ch '.') = true :=
    fun b hb => decide_eq_true ((memmapString_shown e.type).1 b hb).2
  have hdrop : (segmentBody i e).dropWhile (· ≠ ch ':') =
      literal ": Type: " ++ (literal (memmapString e.type) ++ fields) := by
    rw [hbody, List.dropWhile_append_of_pos hindex, hcolon]
    rfl
  have htake : (literal (memmapString e.type) ++ fields).takeWhile (· ≠ ch '.') =
      literal (memmapString e.type) := by
    rw [List.takeWhile_append_of_pos hname, hfields, hstop]
    exact List.append_nil _
  have hskip : (literal (memmapString e.type) ++ fields).dropWhile (· ≠ ch '.') = fields := by
    rw [List.dropWhile_append_of_pos hname, hfields, hstop]
    rfl
  have hbase : fields.drop (literal ". Base: ").length = pointer16 (.ofNat 64 e.base) ++
      (literal ". Length: " ++ (pointer16 (.ofNat 64 e.length) ++ rest)) := by
    rw [hfields, List.drop_left]
  have hlength : fields.drop ((literal ". Base: ").length + 16 + (literal ". Length: ").length) =
      pointer16 (.ofNat 64 e.length) ++ rest := by
    rw [← List.drop_drop, ← List.drop_drop, hbase, drop_pointer16, List.drop_left]
  rw [readSegment, hdrop, List.drop_left, htake, hskip, hbase, hlength, take_pointer16,
    take_pointer16, readNumber_pointer16, readNumber_pointer16, find_memmapTypes]

theorem textLines_flatten {ls : List (List (BitVec 8))} (h : ∀ l ∈ ls, 0x0a ∉ l) :
    textLines (ls.map (· ++ [0x0a])).flatten = ls := by
  induction ls with
  | nil => rfl
  | cons l ls ih =>
    obtain ⟨hl, hls⟩ := List.forall_mem_cons.1 h
    rw [List.map_cons, List.flatten_cons, List.append_assoc, List.singleton_append,
      textLines_append hl, ih hls]

theorem textLines_memmapText (memmap : List MemmapEntry) :
    textLines (memmapText memmap) = memmap.mapIdx segmentBody := by
  have hlines : memmap.mapIdx segmentText = (memmap.mapIdx segmentBody).map (· ++ [0x0a]) := by
    apply List.ext_getElem
    · rw [List.length_map, List.length_mapIdx, List.length_mapIdx]
    · intro i _ _
      rw [List.getElem_map, List.getElem_mapIdx, List.getElem_mapIdx, segmentText_eq]
  rw [memmapText, hlines]
  apply textLines_flatten
  intro l hl hlf
  obtain ⟨i, e, rfl⟩ : ∃ i e, segmentBody i e = l := by
    obtain ⟨i, hi, rfl⟩ := List.mem_mapIdx.1 hl
    exact ⟨i, _, rfl⟩
  exact (shown_segmentBody i e 0x0a hlf).2.1 rfl

theorem filter_ioBytes {t : List (BitVec 8)} (h : 0x0d ∉ t) :
    (t.flatMap ioBytes).filter (· ≠ 0x0d) = t := by
  induction t with
  | nil => rfl
  | cons b t ih =>
    have hb : b ≠ 0x0d := (List.ne_of_not_mem_cons h).symm
    have hbyte : (ioBytes b).filter (· ≠ 0x0d) = [b] := by
      rw [ioBytes]
      split_ifs with hend
      · obtain rfl := hend.resolve_right hb
        decide
      · exact List.filter_cons_of_pos (decide_eq_true hb)
    rw [List.flatMap_cons, List.filter_append, ih (List.not_mem_of_not_mem_cons h), hbyte,
      List.singleton_append]

/-- The command `memmap` shows every entry of the map in order, however long the port makes it
wait: from what comes out of the port they read back. -/
theorem memmap_dump_reads (memmap : List MemmapEntry) {lineStatus : Nat → BitVec 8}
    (hready : Ready lineStatus) (port : Com1) :
    ∃ wait port' sent, serialPrintMemMap lineStatus wait port memmap = .ok port' ∧
      port'.written = port.written ++ sent ∧
      readMemmap sent =
        memmap.map fun e => (some e.type, .ofNat 64 e.base, .ofNat 64 e.length) := by
  obtain ⟨wait, port', hsend, hwritten⟩ := send_ready hready (memmapText memmap) port
  refine ⟨wait, port', _, ?_, hwritten, ?_⟩
  · rw [serialPrintMemMap_eq, hsend]
  · have hlined : Lined (memmapText memmap) := by
      apply Lined.flatten
      intro t ht
      obtain ⟨i, hi, rfl⟩ := List.mem_mapIdx.1 ht
      exact lined_segmentText i _
    rw [readMemmap, filter_ioBytes hlined.cr, textLines_memmapText]
    apply List.ext_getElem
    · rw [List.length_map, List.length_map, List.length_mapIdx]
    · intro i _ _
      rw [List.getElem_map, List.getElem_map, List.getElem_mapIdx, readSegment_eq]

theorem memmap_dump_reads_two : ∃ wait port' sent,
    serialPrintMemMap (fun _ => 0x20) wait ⟨0, []⟩
        [⟨0, 0x9f000, .usable⟩, ⟨0x100000, 0x8000, .acpiNvs⟩] = .ok port' ∧
      port'.written = [] ++ sent ∧
      readMemmap sent = [(some .usable, 0, 0x9f000), (some .acpiNvs, 0x100000, 0x8000)] :=
  memmap_dump_reads [⟨0, 0x9f000, .usable⟩, ⟨0x100000, 0x8000, .acpiNvs⟩] ready_always ⟨0, []⟩

end Reading

end AdaOS.Printf
