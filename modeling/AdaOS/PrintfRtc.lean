import AdaOS.Iso8601
import AdaOS.PrintfPlain

namespace AdaOS.Printf
set_option autoImplicit true

open Traced Calendar

theorem ntoaDigits_lower (base n value : Nat) :
    ntoaDigits false base n value = AdaOS.ntoaLong base n value := by
  induction n generalizing value with
  | zero => rfl
  | succ n ih =>
    rw [ntoaDigits, AdaOS.ntoaLong, ih]
    rfl

theorem ntoaLong_reverse (hb : 1 < base) (hv : value < base ^ ntoaBufferSize) :
    (AdaOS.ntoaLong base ntoaBufferSize value).reverse = standardDigits false base value := by
  have hdigits := valueDigits_reverse hb hv .none
  have hshown : ¬ (value = 0 ∧ Flags.none.precision = true) := fun h => Bool.false_ne_true h.2
  have hkeep : (!Flags.none.precision) = true ∨ value ≠ 0 := .inl rfl
  rw [if_neg hshown, valueDigits, if_pos hkeep] at hdigits
  rwa [← ntoaDigits_lower]

theorem formatX_eq (hv : v < 2 ^ 64) : formatX v = standardDigits false 16 v :=
  ntoaLong_reverse (by decide) (Nat.lt_trans hv (by decide))

theorem formatD_eq (w : Nat) (hv : v < 2 ^ 64) :
    formatD w v = zeroed w (standardDigits false 10 v) := by
  have hdigits : (AdaOS.ntoaLong 10 32 v).reverse = standardDigits false 10 v :=
    ntoaLong_reverse (by decide) (Nat.lt_trans hv (by decide))
  rw [formatD, List.reverse_append, List.reverse_replicate, hdigits, zeroed, ← hdigits,
    List.length_reverse]
  rfl

theorem text_formatD (hx : arg.int = x) (hpos : 0 ≤ x.toInt) (hw : number 0 [ch w] = width)
    (hwidth : width ≤ ntoaBufferSize) (va : List Arg) :
    (zeroPadded w).text (arg :: va) = emits (formatD width x.toNat) >>= fun _ => pure va := by
  have hlt := x.isLt
  have hint : arg.int.toInt = (x.toNat : Nat) := by
    rw [hx, BitVec.toInt_eq_toNat_cond] at *
    split at hpos <;> omega
  rw [text_zeroPadded arg va hint (hw ▸ hwidth), hw, formatD_eq width (by omega)]

theorem text_formatX (arg : Arg) (va : List Arg) :
    plainHex.text (arg :: va) = emits (formatX arg.int.toNat) >>= fun _ => pure va := by
  have hlt := arg.int.isLt
  rw [text_plainHex, formatX_eq (by omega)]

/-- The pieces of `"%04d-%02d-%02dT%02d:%02d:%02d.%03dZ"`. -/
def isoPieces : List Piece :=
  [zeroPadded '4', .lit (ch '-'), zeroPadded '2', .lit (ch '-'), zeroPadded '2', .lit (ch 'T'),
    zeroPadded '2', .lit (ch ':'), zeroPadded '2', .lit (ch ':'), zeroPadded '2', .lit (ch '.'),
    zeroPadded '3', .lit (ch 'Z')]

theorem isoPieces_wf : ∀ p ∈ isoPieces, p.Wf := by decide

theorem render_isoPieces :
    render isoPieces = literal "%04d-%02d-%02dT%02d:%02d:%02d.%03dZ" := by decide

/-- What `ms_to_iso8601` prints, for slots that hold the fields. -/
theorem isoPieces_comesTo {f : IsoFields} {y mon day hr min sec ms : Arg}
    (hargs : [y, mon, day, hr, min, sec, ms].map Arg.int =
      [f.y, f.mon, f.day, f.hr, f.min, f.sec, f.ms])
    (hpos : ∀ x ∈ [f.y, f.mon, f.day, f.hr, f.min, f.sec, f.ms], 0 ≤ x.toInt) :
    ComesTo isoPieces [y, mon, day, hr, min, sec, ms] (isoText f) := by
  simp only [List.map_cons, List.map_nil, List.cons.injEq, and_true] at hargs
  obtain ⟨hy, hmon, hday, hhr, hmin, hsec, hms⟩ := hargs
  simp only [List.forall_mem_cons] at hpos
  obtain ⟨py, pmon, pday, phr, pmin, psec, pms, _⟩ := hpos
  have htwo : ∀ {arg : Arg} {x : BitVec 32} (va : List Arg), arg.int = x → 0 ≤ x.toInt →
      (zeroPadded '2').text (arg :: va) = emits (formatD 2 x.toNat) >>= fun _ => pure va :=
    fun va hx hpos => text_formatD hx hpos rfl (by decide) va
  have hend := (ComesTo.nil.lit (ch 'Z')).arg (text_formatD (w := '3') hms pms rfl (by decide) [])
  have hclock := ((((((hend.lit (ch '.')).arg (htwo _ hsec psec)).lit (ch ':')).arg
    (htwo _ hmin pmin)).lit (ch ':')).arg (htwo _ hhr phr)).lit (ch 'T')
  have hdate := (((hclock.arg (htwo _ hday pday)).lit (ch '-')).arg
    (htwo _ hmon pmon)).lit (ch '-')
  have hall := hdate.arg (text_formatD (w := '4') hy py rfl (by decide) _)
  have heq : isoText f = formatD 4 f.y.toNat ++ ch '-' :: (formatD 2 f.mon.toNat ++ ch '-' ::
      (formatD 2 f.day.toNat ++ ch 'T' :: (formatD 2 f.hr.toNat ++ ch ':' ::
        (formatD 2 f.min.toNat ++ ch ':' :: (formatD 2 f.sec.toNat ++ ch '.' ::
          (formatD 3 f.ms.toNat ++ [ch 'Z'])))))) := by
    simp only [isoText, List.append_assoc, List.cons_append]
    rfl
  rw [heq]
  exact hall

theorem isoFields_year_lt (t : BitVec 64) : (isoFields t).y.toNat < 2 ^ 31 := by
  obtain ⟨_, hsince⟩ := isoFields_exact t
  have ht := t.isLt
  have hyear := daysBeforeYear_eq (isoFields t).y.toNat
  have hseconds : daysBeforeYear (isoFields t).y.toNat * 86400 ≤
      secondsAt (isoFields t).y.toNat (isoFields t).mon.toNat (isoFields t).day.toNat
        (isoFields t).hr.toNat (isoFields t).min.toNat (isoFields t).sec.toNat := by
    rw [secondsAt, monthStart]
    omega
  rw [IsoFields.sinceEpoch, unixEpoch_eq] at hsince
  omega

theorem isoFields_nonneg (t : BitVec 64) :
    ∀ x ∈ [(isoFields t).y, (isoFields t).mon, (isoFields t).day, (isoFields t).hr,
      (isoFields t).min, (isoFields t).sec, (isoFields t).ms], 0 ≤ x.toInt := by
  obtain ⟨hvalid, _⟩ := isoFields_exact t
  have hyear := isoFields_year_lt t
  have hday := Nat.le_trans hvalid.day_le (Calendar.monthLength_le _ _)
  have hmonth := hvalid.month_le
  have hhour := hvalid.hour_lt
  have hminute := hvalid.minute_lt
  have hsecond := hvalid.second_lt
  have hms := hvalid.ms_lt
  have hpos : ∀ x : BitVec 32, x.toNat < 2 ^ 31 → 0 ≤ x.toInt := by
    intro x hx
    rw [BitVec.toInt_eq_toNat_of_lt (by omega)]
    omega
  simp only [List.forall_mem_cons, List.not_mem_nil, false_implies, implies_true, and_true]
  refine ⟨hpos _ hyear, hpos _ ?_, hpos _ ?_, hpos _ ?_, hpos _ ?_, hpos _ ?_, hpos _ ?_⟩
  all_goals omega

def isoFormat : List (BitVec 8) := literal "%04d-%02d-%02dT%02d:%02d:%02d.%03dZ" ++ [0]

theorem text_isoFormat {t : BitVec 64} {va : List Arg}
    (hargs : va.map Arg.int = [(isoFields t).y, (isoFields t).mon, (isoFields t).day,
      (isoFields t).hr, (isoFields t).min, (isoFields t).sec, (isoFields t).ms]) :
    text isoFormat va = emits (isoText (isoFields t)) := by
  have hlen := congrArg List.length hargs
  rw [List.length_map] at hlen
  match va, hlen with
  | [y, mon, day, hr, min, sec, ms], _ =>
    have hall := isoPieces_comesTo hargs (isoFields_nonneg t)
    rw [isoFormat, ← render_isoPieces]
    exact hall.text_eq isoPieces_wf []

theorem length_formatD_le (hw : w ≤ 32) (v : Nat) : (formatD w v).length ≤ 32 := by
  have hle : (AdaOS.ntoaLong 10 32 v).length ≤ 32 := by
    rw [← ntoaDigits_lower, ntoaDigits_eq, List.length_map]
    exact length_lowDigits_le 10 32 v
  rw [formatD, List.length_reverse, List.length_append, List.length_replicate]
  omega

theorem length_isoText_lt (f : IsoFields) : (isoText f).length < 2 ^ 31 := by
  have hfour := length_formatD_le (by decide : 4 ≤ 32) f.y.toNat
  have hthree := length_formatD_le (by decide : 3 ≤ 32) f.ms.toNat
  have htwo := fun v => length_formatD_le (by decide : 2 ≤ 32) v
  have hmon := htwo f.mon.toNat
  have hday := htwo f.day.toNat
  have hhr := htwo f.hr.toNat
  have hmin := htwo f.min.toNat
  have hsec := htwo f.sec.toNat
  simp only [isoText, List.length_append, List.length_cons, List.length_nil]
  omega

theorem returned_eq {t : List (BitVec 8)} (h : t.length < 2 ^ 31) : returned t = t.length := by
  have hnat : (BitVec.ofNat 32 t.length).toNat = t.length :=
    Nat.mod_eq_of_lt (Nat.lt_trans h (by decide))
  rw [returned, BitVec.toInt_eq_toNat_of_lt (by omega), hnat]

theorem msToIso8601_eq (t : BitVec 64) (bufSize : Nat) :
    msToIso8601 t bufSize = stored bufSize (isoText (isoFields t)) := by
  rw [msToIso8601, stored]
  split
  · rename_i hzero
    rw [hzero]
    rfl
  · apply List.take_of_length_le
    rw [List.length_append, List.length_take, List.length_singleton]
    omega

theorem snprintf_isoFormat (t : BitVec 64) {va : List Arg}
    (hargs : va.map Arg.int = [(isoFields t).y, (isoFields t).mon, (isoFields t).day,
      (isoFields t).hr, (isoFields t).min, (isoFields t).sec, (isoFields t).ms])
    {buf : List (BitVec 8)} (hbuf : bufSize ≤ buf.length) (hsize : bufSize < 2 ^ 64) :
    snprintf (some buf) bufSize isoFormat va =
      .ok (some (msToIso8601 t bufSize ++ buf.drop (msToIso8601 t bufSize).length),
        (isoText (isoFields t)).length) := by
  have htext := text_isoFormat hargs
  have hlen := length_isoText_lt (isoFields t)
  have hevents : (text isoFormat va).events = isoText (isoFields t) := by rw [htext]; rfl
  have hresult : (text isoFormat va).result = .ok () := by rw [htext]; rfl
  have hfits : (stored bufSize (isoText (isoFields t))).length ≤ buf.length := by
    rw [stored]
    split
    · exact Nat.zero_le _
    · rw [List.length_append, List.length_take, List.length_singleton]
      omega
  rw [snprintf_eq hresult (by rw [hevents]; omega) hsize, hevents, if_pos hfits, msToIso8601_eq,
    returned_eq hlen]

/-- `atoi_` from the value `res` on. -/
def atoiFrom (res : Int) : List (BitVec 8) → Except Fault Int
  | [] => .error .outOfBounds
  | c :: strg => if c = 0 then .ok res else atoiFrom (res * 10 + (c.toInt - 48)) strg

/-- `snprintf_(buf, 10, format, ...)`, which leaves this in the array. -/
def printTo (buf format : List (BitVec 8)) (va : List Arg) : Except Fault (List (BitVec 8)) := do
  let (buf, _) ← snprintf (some buf) 10 format va
  .ok (buf.getD [])

/-- The local arrays of `get_unix_timestamp`, which are not initialised. -/
structure TimeBuffers where
  secondsBuf : List (BitVec 8)
  minutesBuf : List (BitVec 8)
  hoursBuf : List (BitVec 8)
  dayBuf : List (BitVec 8)
  monthBuf : List (BitVec 8)
  yearBuf : List (BitVec 8)

/-- Each of them has 9 bytes, although `snprintf_` is told 10. -/
structure TimeBuffers.Wf (bufs : TimeBuffers) : Prop where
  seconds : bufs.secondsBuf.length = 9
  minutes : bufs.minutesBuf.length = 9
  hours : bufs.hoursBuf.length = 9
  day : bufs.dayBuf.length = 9
  month : bufs.monthBuf.length = 9
  year : bufs.yearBuf.length = 9

theorem atoiFrom_append {t : List (BitVec 8)} (ht : 0 ∉ t) (rest : List (BitVec 8)) (res : Int) :
    atoiFrom res (t ++ 0 :: rest) =
      .ok (t.foldl (fun res ch => res * 10 + (ch.toInt - 48)) res) := by
  induction t generalizing res with
  | nil => rfl
  | cons c t ih =>
    have hc : c ≠ 0 := (List.ne_of_not_mem_cons ht).symm
    rw [List.cons_append, atoiFrom, if_neg hc, ih (List.not_mem_of_not_mem_cons ht),
      List.foldl_cons]

theorem nul_not_mem_formatX (v : Nat) : 0 ∉ formatX v := by
  intro h
  rw [formatX, ← ntoaDigits_lower, ntoaDigits_eq] at h
  obtain ⟨d, hd, heq⟩ := List.mem_map.1 (List.mem_reverse.1 h)
  have hlt := lowDigits_lt (by decide : 0 < 16) 32 v d hd
  have hall : ∀ d < 16, digitChar false d ≠ 0 := by decide
  exact hall d hlt heq

theorem length_formatX_le (hv : v < 256) : (formatX v).length ≤ 2 := by
  rw [formatX, List.length_reverse]
  exact length_ntoaLong_le 32 (w := 1) hv

theorem printTo_eq {ps : List Piece} (hps : ∀ p ∈ ps, p.Wf) (h : ComesTo ps va t)
    (ht : 0 ∉ t) (hlen : t.length < 9) (hbuf : buf.length = 9) :
    ∃ stored, printTo buf (render ps ++ [0]) va = .ok stored ∧
      atoiFrom 0 stored = .ok (AdaOS.atoi t) := by
  have htext : text (render ps ++ [0]) va = emits t := h.text_eq hps []
  have hevents : (text (render ps ++ [0]) va).events = t := by rw [htext]; rfl
  have hresult : (text (render ps ++ [0]) va).result = .ok () := by rw [htext]; rfl
  have hstored : stored 10 t = t ++ [0] := by
    rw [stored, if_neg (by decide), List.take_of_length_le (by omega)]
  have hfits : (t ++ [0]).length ≤ buf.length := by
    rw [List.length_append, List.length_singleton]
    omega
  refine ⟨t ++ [0] ++ buf.drop (t ++ [0]).length, ?_, ?_⟩
  · rw [printTo, snprintf_eq hresult (by rw [hevents]; omega) (by decide), hevents, hstored,
      if_pos hfits]
    rfl
  · rw [List.append_assoc]
    exact atoiFrom_append ht _ 0

theorem int_ofInt (x : BitVec 8) : (Arg.ofInt (x.setWidth 32)).int.toNat = x.toNat := by
  have h8 := x.isLt
  change ((x.setWidth 32).setWidth 64).toNat % 2 ^ 32 = _
  rw [BitVec.toNat_setWidth_of_le (by decide), BitVec.toNat_setWidth_of_le (by decide)]
  omega

theorem printTo_hex (x : BitVec 8) (hbuf : buf.length = 9) :
    ∃ stored, printTo buf (literal "%x" ++ [0]) [Arg.ofInt (x.setWidth 32)] = .ok stored ∧
      atoiFrom 0 stored = .ok (AdaOS.atoi (formatX x.toNat)) := by
  have hlen := length_formatX_le x.isLt
  have hcomes := ComesTo.nil.arg (text_formatX (Arg.ofInt (x.setWidth 32)) [])
  rw [List.append_nil, int_ofInt] at hcomes
  exact printTo_eq (by decide) hcomes (nul_not_mem_formatX _) (by omega) hbuf

theorem printTo_year (century year : BitVec 8) (hbuf : buf.length = 9) :
    ∃ stored, printTo buf (literal "%x%x" ++ [0])
        [Arg.ofInt (century.setWidth 32), Arg.ofInt (year.setWidth 32)] = .ok stored ∧
      atoiFrom 0 stored = .ok (AdaOS.atoi (formatX century.toNat ++ formatX year.toNat)) := by
  have hcentury := length_formatX_le century.isLt
  have hyear := length_formatX_le year.isLt
  have hcomes := (ComesTo.nil.arg (text_formatX (Arg.ofInt (year.setWidth 32)) [])).arg
    (text_formatX (Arg.ofInt (century.setWidth 32)) _)
  rw [List.append_nil, int_ofInt, int_ofInt] at hcomes
  refine printTo_eq (by decide) hcomes ?_ ?_ hbuf
  · exact List.not_mem_append (nul_not_mem_formatX _) (nul_not_mem_formatX _)
  · rw [List.length_append]
    omega

end AdaOS.Printf
