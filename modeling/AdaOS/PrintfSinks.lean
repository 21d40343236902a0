import Mathlib.Data.List.Induction
import AdaOS.ConsoleStrings
import AdaOS.PrintfPieces

namespace AdaOS.Printf
set_option autoImplicit true

open Traced

/-- What `snprintf_` stores of a text: as much as leaves room for the terminator, and this. -/
def stored (count : Nat) (t : List (BitVec 8)) : List (BitVec 8) :=
  if count = 0 then [] else t.take (count - 1) ++ [0]

/-- What `_vsnprintf` returns for a text: the low 32 bits of its length, as an `int`. -/
def returned (t : List (BitVec 8)) : Int := (BitVec.ofNat 32 t.length).toInt

theorem length_stored (h : 0 < count) (t : List (BitVec 8)) :
    (stored count t).length = min count (t.length + 1) := by
  rw [stored, if_neg (Nat.ne_of_gt h), List.length_append, List.length_take, List.length_singleton]
  omega

section Buffer
variable {b t : List (BitVec 8)} {n : Nat}

theorem set_append_drop (h : t.length < b.length) (c : BitVec 8) :
    (t ++ b.drop t.length).set t.length c = t ++ c :: b.drop (t.length + 1) := by
  rw [List.set_append_right _ _ (Nat.le_refl _), Nat.sub_self, List.drop_eq_getElem_cons h,
    List.set_cons_zero]

theorem take_set_drop (hn : n < t.length) (c : BitVec 8) :
    (t.take (n + 1) ++ b.drop (n + 1)).set n c = t.take n ++ c :: b.drop (n + 1) := by
  have hlen : (t.take n).length = n := List.length_take_of_le (Nat.le_of_lt hn)
  rw [List.take_succ_eq_append_getElem hn, List.append_assoc]
  have hset := List.set_append_right (s := t.take n) (t := t[n] :: b.drop (n + 1)) n c
    (Nat.le_of_eq hlen)
  rw [List.singleton_append, hset, hlen, Nat.sub_self, List.set_cons_zero]

/-- The characters of a text go to the buffer while there is room. -/
theorem foldlM_outBuffer (ht : t.length < 2 ^ 64) :
    t.foldlM (put outBuffer n) ⟨b, 0⟩ =
      if min n t.length ≤ b.length then
        .ok ⟨t.take n ++ b.drop (min n t.length), t.length⟩
      else .error .outOfBounds := by
  induction t using List.reverseRecOn with
  | nil =>
    rw [if_pos (by simp)]
    simp
    rfl
  | append_singleton t c ih =>
    rw [List.length_append, List.length_singleton] at ht ⊢
    rw [List.foldlM_append, ih (by omega)]
    by_cases hfit : min n t.length ≤ b.length
    · rw [if_pos hfit]
      change (put outBuffer n _ c >>= pure) = _
      rw [bind_pure, put, outBuffer]
      dsimp only
      have hwrap : u64 (t.length + 1) = t.length + 1 := u64_of_lt ht
      rw [hwrap]
      by_cases hn : t.length < n
      · have hmin : min n t.length = t.length := Nat.min_eq_right (Nat.le_of_lt hn)
        have hmin' : min n (t.length + 1) = t.length + 1 := Nat.min_eq_right hn
        have htake : t.take n = t := List.take_of_length_le (Nat.le_of_lt hn)
        have htake' : (t ++ [c]).take n = t ++ [c] := List.take_of_length_le (by
          rw [List.length_append]
          exact hn)
        have hlen : (t ++ b.drop t.length).length = b.length := by
          rw [hmin] at hfit
          rw [List.length_append, List.length_drop]
          omega
        rw [if_pos hn, hmin, hmin', htake, htake', hlen]
        by_cases hb : t.length < b.length
        · have hroom : t.length + 1 ≤ b.length := hb
          rw [if_pos hb, if_pos hroom, set_append_drop hb, List.append_assoc]
          rfl
        · have hroom : ¬ t.length + 1 ≤ b.length := hb
          rw [if_neg hb, if_neg hroom]
          rfl
      · have hle : n ≤ t.length := Nat.le_of_not_lt hn
        have hmin : min n t.length = n := Nat.min_eq_left hle
        have hmin' : min n (t.length + 1) = n := Nat.min_eq_left (Nat.le_succ_of_le hle)
        rw [if_neg hn, hmin, hmin', List.take_append_of_le_length hle, if_pos (hmin ▸ hfit)]
        rfl
    · rw [if_neg hfit, if_neg (by omega)]
      rfl

/-- `idx < maxlen ? idx : maxlen - 1U`, and the terminator there. -/
theorem terminate_outBuffer (hn : n < 2 ^ 64) (hfit : min n t.length ≤ b.length) :
    outBuffer 0 (t.take n ++ b.drop (min n t.length))
        (if t.length < n then t.length else sub64 n 1) n =
      if (stored n t).length ≤ b.length then
        .ok (stored n t ++ b.drop (stored n t).length)
      else .error .outOfBounds := by
  have hlen : (t.take n ++ b.drop (min n t.length)).length = b.length := by
    rw [List.length_append, List.length_take, List.length_drop]
    omega
  rw [outBuffer, hlen]
  by_cases hlt : t.length < n
  · have hpos : 0 < n := Nat.lt_of_le_of_lt (Nat.zero_le _) hlt
    have hmin : min n t.length = t.length := Nat.min_eq_right (Nat.le_of_lt hlt)
    have hmin' : min n (t.length + 1) = t.length + 1 := Nat.min_eq_right hlt
    have htake : t.take n = t := List.take_of_length_le (Nat.le_of_lt hlt)
    have hall : t.take (n - 1) = t := List.take_of_length_le (Nat.le_sub_one_of_lt hlt)
    rw [if_pos hlt, if_pos hlt, length_stored hpos, hmin, hmin', htake, stored,
      if_neg (Nat.ne_of_gt hpos), hall, List.append_assoc]
    by_cases hb : t.length < b.length
    · have hroom : t.length + 1 ≤ b.length := hb
      rw [if_pos hb, if_pos hroom, set_append_drop hb]
      rfl
    · have hroom : ¬ t.length + 1 ≤ b.length := hb
      rw [if_neg hb, if_neg hroom]
  · have hle : n ≤ t.length := Nat.le_of_not_lt hlt
    have hmin : min n t.length = n := Nat.min_eq_left hle
    rw [if_neg hlt, hmin]
    cases n with
    | zero =>
      have hnil : ([] : List (BitVec 8)).length ≤ b.length := Nat.zero_le _
      rw [if_neg (Nat.not_lt_zero _), stored, if_pos rfl, if_pos hnil]
      rfl
    | succ n =>
      have hsub : sub64 (n + 1) 1 = n := sub64_of_le (Nat.succ_pos n) hn
      have hmin' : min (n + 1) (t.length + 1) = n + 1 := Nat.min_eq_left (Nat.le_succ_of_le hle)
      rw [hmin] at hfit
      have hlast : n < b.length := hfit
      rw [hsub, if_pos (Nat.lt_succ_self n), if_pos hlast, length_stored (Nat.succ_pos n), hmin',
        if_pos hfit, take_set_drop hle, stored, if_neg (Nat.succ_ne_zero n), Nat.add_sub_cancel,
        List.append_assoc]
      rfl

end Buffer

section Run
variable {β : Type} {out : OutFct β} {maxlen : Nat} {format : List (BitVec 8)} {va : List Arg}

theorem vsnprintfLoop_text (h : (text format va).result = .ok ()) (s : Cursor β) :
    vsnprintfLoop out maxlen (format.length + 1) s format va =
      (text format va).events.foldlM (put out maxlen) s := by
  rw [vsnprintfLoop_eq, loopText_eq (Nat.lt_succ_self _), feed, h]
  cases (text format va).events.foldlM (put out maxlen) s with
  | error e => rfl
  | ok s' => rfl

theorem vsnprintfTo_text (h : (text format va).result = .ok ()) (buffer : β) :
    vsnprintfTo out maxlen buffer format va =
      (text format va).events.foldlM (put out maxlen) ⟨buffer, 0⟩ >>= fun s =>
        (out 0 s.buffer (if s.idx < maxlen then s.idx else sub64 maxlen 1) maxlen).map
          (·, (BitVec.ofNat 32 s.idx).toInt) := by
  rw [vsnprintfTo, vsnprintfLoop_text h]
  apply bind_congr
  intro s
  dsimp only
  cases out 0 s.buffer (if s.idx < maxlen then s.idx else sub64 maxlen 1) maxlen with
  | error e => rfl
  | ok b => rfl

theorem snprintf_some (b : List (BitVec 8)) (count : Nat) :
    snprintf (some b) count format va =
      vsnprintfTo outBuffer count b format va >>= fun r => .ok (some r.1, r.2) := rfl

theorem snprintf_none (count : Nat) : snprintf none count format va =
    vsnprintfTo outNull count () format va >>= fun r => .ok (none, r.2) := rfl

/-- `snprintf_` stores what there is room for and returns what there would be; it leaves the buffer
only where what it stores does not fit. -/
theorem snprintf_eq (h : (text format va).result = .ok ())
    (hlen : (text format va).events.length < 2 ^ 64) (hcount : count < 2 ^ 64)
    (b : List (BitVec 8)) :
    snprintf (some b) count format va =
      if (stored count (text format va).events).length ≤ b.length then
        .ok (some (stored count (text format va).events ++
          b.drop (stored count (text format va).events).length),
          returned (text format va).events)
      else .error .outOfBounds := by
  rw [snprintf_some, vsnprintfTo_text h, foldlM_outBuffer hlen]
  by_cases hfit : min count (text format va).events.length ≤ b.length
  · rw [if_pos hfit, bind_of_ok rfl]
    dsimp only
    rw [terminate_outBuffer hcount hfit]
    by_cases hroom : (stored count (text format va).events).length ≤ b.length
    · rw [if_pos hroom, if_pos hroom]
      rfl
    · rw [if_neg hroom, if_neg hroom]
      rfl
  · have hlong : ¬ (stored count (text format va).events).length ≤ b.length := by
      have hpos : 0 < count := by omega
      rw [length_stored hpos]
      omega
    rw [if_neg hfit, if_neg hlong]
    rfl

theorem foldlM_outNull {t : List (BitVec 8)} (ht : t.length < 2 ^ 64) (count : Nat) :
    t.foldlM (put outNull count) ⟨(), 0⟩ = .ok ⟨(), t.length⟩ := by
  induction t using List.reverseRecOn with
  | nil => rfl
  | append_singleton t c ih =>
    rw [List.length_append, List.length_singleton] at ht ⊢
    rw [List.foldlM_append, ih (by omega), bind_of_ok rfl]
    change Except.ok (Cursor.mk () (u64 (t.length + 1))) = _
    rw [u64_of_lt ht]

theorem snprintf_null (h : (text format va).result = .ok ())
    (hlen : (text format va).events.length < 2 ^ 64) (count : Nat) :
    snprintf none count format va = .ok (none, returned (text format va).events) := by
  rw [snprintf_none, vsnprintfTo_text h, foldlM_outNull hlen]
  rfl

/-- A fault of the text is one of every sink that takes what comes before it. -/
theorem vsnprintfTo_error {s : Cursor β} (h : (text format va).result = .error e)
    (hput : (text format va).events.foldlM (put out maxlen) ⟨buffer, 0⟩ = .ok s) :
    vsnprintfTo out maxlen buffer format va = .error e := by
  rw [vsnprintfTo, vsnprintfLoop_eq, loopText_eq (Nat.lt_succ_self _), feed, hput, h]
  rfl

/-- Every buffer gets the same text, cut to the bytes that it is said to hold; nothing behind them
is written, and the call returns what it returns for the null pointer. -/
theorem snprintf_cuts (hlen : (text format va).events.length < 2 ^ 64) :
    ∃ t : List (BitVec 8), t.length < 2 ^ 64 ∧
      (∀ r, snprintf none 0 format va = .ok r → r = (none, returned t)) ∧
      ∀ (b : List (BitVec 8)) (count : Nat), count ≤ b.length → count < 2 ^ 64 →
        snprintf (some b) count format va = (snprintf none 0 format va).map fun r =>
          (some (stored count t ++ b.drop (stored count t).length), r.2) := by
  refine ⟨(text format va).events, hlen, fun r hr => ?_, fun b count hb hcount => ?_⟩
  · cases h : (text format va).result with
    | error e =>
      rw [snprintf_none, vsnprintfTo_error h (foldlM_outNull hlen 0)] at hr
      cases hr
    | ok u =>
      rw [snprintf_null h hlen 0] at hr
      cases hr
      rfl
  · cases h : (text format va).result with
    | error e =>
      have hput := foldlM_outBuffer (b := b) (n := count) hlen
      rw [if_pos (Nat.le_trans (Nat.min_le_left _ _) hb)] at hput
      rw [snprintf_some, snprintf_none, vsnprintfTo_error h hput,
        vsnprintfTo_error h (foldlM_outNull hlen 0)]
      rfl
    | ok u =>
      have hroom : (stored count (text format va).events).length ≤ b.length := by
        cases count with
        | zero => exact Nat.zero_le _
        | succ n =>
          rw [length_stored (Nat.succ_pos n)]
          exact Nat.le_trans (Nat.min_le_left _ _) hb
      rw [snprintf_eq h hlen hcount, if_pos hroom, snprintf_null h hlen 0]
      rfl

theorem snprintf_cuts_digits :
    ∃ t : List (BitVec 8), t.length < 2 ^ 64 ∧
      (∀ r, snprintf none 0 (stringLiteral "%d") [.ofInt 2024] = .ok r → r = (none, returned t)) ∧
      ∀ (b : List (BitVec 8)) (count : Nat), count ≤ b.length → count < 2 ^ 64 →
        snprintf (some b) count (stringLiteral "%d") [.ofInt 2024] =
          (snprintf none 0 (stringLiteral "%d") [.ofInt 2024]).map fun r =>
            (some (stored count t ++ b.drop (stored count t).length), r.2) :=
  snprintf_cuts (by decide)

/-- A consumer that sees the characters alone gets those that are no terminator, in order. -/
theorem foldlM_outFct {σ : Type} (fct : BitVec 8 → σ → Except Fault σ) {t : List (BitVec 8)}
    (ht : i + t.length < 2 ^ 64) (arg : σ) :
    t.foldlM (put (outFct fct) maxlen) ⟨arg, i⟩ =
      ((t.filter (· ≠ 0)).foldlM (fun arg c => fct c arg) arg).map fun arg =>
        ⟨arg, i + t.length⟩ := by
  induction t generalizing arg i with
  | nil => rfl
  | cons c t ih =>
    rw [List.length_cons] at ht ⊢
    have hwrap : u64 (i + 1) = i + 1 := u64_of_lt (by omega)
    have hnext : i + 1 + t.length = i + (t.length + 1) := by omega
    have hih := ih (i := i + 1) (by omega)
    rw [List.foldlM_cons, put, outFct, hwrap]
    by_cases hc : c = 0
    · have hskip : (c :: t).filter (· ≠ 0) = t.filter (· ≠ 0) :=
        List.filter_cons_of_neg (by simpa using hc)
      have hnot : ¬ c ≠ 0 := fun hne => hne hc
      rw [if_neg hnot, hskip, ← hnext, ← hih]
      rfl
    · have hkeep : (c :: t).filter (· ≠ 0) = c :: t.filter (· ≠ 0) :=
        List.filter_cons_of_pos (by simpa using hc)
      rw [if_pos hc, hkeep, List.foldlM_cons]
      cases fct c arg with
      | error e => rfl
      | ok arg' =>
        rw [← hnext]
        exact hih arg'

/-- The characters that reach a consumer: a terminator in the text is dropped. -/
def shown (format : List (BitVec 8)) (va : List Arg) : List (BitVec 8) :=
  (text format va).events.filter (· ≠ 0)

theorem vsnprintfTo_outFct {σ : Type} (fct : BitVec 8 → σ → Except Fault σ)
    (h : (text format va).result = .ok ()) (hlen : (text format va).events.length < 2 ^ 64)
    (arg : σ) :
    vsnprintfTo (outFct fct) maxlen arg format va =
      ((shown format va).foldlM (fun arg c => fct c arg) arg).map
        (·, returned (text format va).events) := by
  have hstart : 0 + (text format va).events.length < 2 ^ 64 := by
    rw [Nat.zero_add]
    exact hlen
  rw [vsnprintfTo_text h, foldlM_outFct fct hstart, shown]
  cases ((text format va).events.filter (· ≠ 0)).foldlM (fun arg c => fct c arg) arg with
  | error e => rfl
  | ok arg' =>
    change Except.ok (arg', (BitVec.ofNat 32 (0 + (text format va).events.length)).toInt) = _
    rw [Nat.zero_add]
    rfl

theorem printf_eq_run (h : (text format va).result = .ok ())
    (hlen : (text format va).events.length < 2 ^ 64) (font : Nat → BitVec 64) (c : Console) :
    printf font c format va =
      (c.run font ((shown format va).map fun ch => .kPutc (ch.signExtend 16))).map
        (·, returned (text format va).events) := by
  rw [Console.run, List.foldlM_map]
  exact vsnprintfTo_outFct (fun ch c => c.kPutc font (ch.signExtend 16)) h hlen c

/-- `serial_writeb_blocking` for each byte of a text. -/
def send (lineStatus : Nat → BitVec 8) (wait : Nat) (port : Com1) (t : List (BitVec 8)) :
    Except Fault Com1 :=
  t.foldlM (fun (port : Com1) ch => port.serialWritebBlocking lineStatus ch wait) port

theorem send_append (lineStatus : Nat → BitVec 8) (wait : Nat) (port : Com1)
    (t u : List (BitVec 8)) :
    send lineStatus wait port (t ++ u) =
      send lineStatus wait port t >>= fun port => send lineStatus wait port u :=
  List.foldlM_append ..

theorem send_mono {lineStatus : Nat → BitVec 8} {t : List (BitVec 8)} {port port' : Com1}
    (h : send lineStatus wait port t = .ok port') (hle : wait ≤ wait') :
    send lineStatus wait' port t = .ok port' := by
  rw [send] at h ⊢
  induction t generalizing port with
  | nil => exact h
  | cons ch t ih =>
    rw [List.foldlM_cons] at h ⊢
    obtain ⟨port₁, hwrite, hrest⟩ := bind_ok h
    rw [bind_of_ok (Com1.serialWritebBlocking_mono hwrite hle)]
    exact ih hrest

theorem send_ready {lineStatus : Nat → BitVec 8} (hready : Ready lineStatus)
    (t : List (BitVec 8)) (port : Com1) :
    ∃ wait port', send lineStatus wait port t = .ok port' ∧
      port'.written = port.written ++ t.flatMap ioBytes := by
  induction t generalizing port with
  | nil => exact ⟨0, port, rfl, (List.append_nil _).symm⟩
  | cons ch t ih =>
    obtain ⟨wait, port₁, hwrite, hwritten⟩ := hready.serialWritebBlocking port ch
    obtain ⟨wait', port₂, hrest, hwritten'⟩ := ih port₁
    have hfirst := Com1.serialWritebBlocking_mono hwrite (Nat.le_max_left wait wait')
    refine ⟨max wait wait', port₂, ?_, ?_⟩
    · rw [send, List.foldlM_cons, bind_of_ok hfirst]
      exact send_mono hrest (Nat.le_max_right wait wait')
    · rw [hwritten', hwritten, List.flatMap_cons, List.append_assoc]

theorem serialPrintf_eq (h : (text format va).result = .ok ())
    (hlen : (text format va).events.length < 2 ^ 64) (lineStatus : Nat → BitVec 8) (wait : Nat)
    (port : Com1) :
    serialPrintf lineStatus wait port format va =
      (send lineStatus wait port (shown format va)).map
        (·, returned (text format va).events) :=
  vsnprintfTo_outFct (fun ch port => Com1.serialWritebBlocking lineStatus port ch wait) h hlen port

/-- `serial_printf_` sends every character once, however long the port makes it wait. -/
theorem serialPrintf_sends (h : (text format va).result = .ok ())
    (hlen : (text format va).events.length < 2 ^ 64) {lineStatus : Nat → BitVec 8}
    (hready : Ready lineStatus) (port : Com1) :
    ∃ wait port', serialPrintf lineStatus wait port format va =
      .ok (port', returned (text format va).events) ∧
        port'.written = port.written ++ (shown format va).flatMap ioBytes := by
  obtain ⟨wait, port', hsend, hwritten⟩ := send_ready hready (shown format va) port
  refine ⟨wait, port', ?_, hwritten⟩
  rw [serialPrintf_eq h hlen, hsend]
  rfl

theorem serialPrintf_sends_digits :
    ∃ wait port', serialPrintf (fun _ => 0x20) wait ⟨0, []⟩ (stringLiteral "%d") [.ofInt 2024] =
      .ok (port', returned (text (stringLiteral "%d") [.ofInt 2024]).events) ∧
        port'.written = (shown (stringLiteral "%d") [.ofInt 2024]).flatMap ioBytes :=
  serialPrintf_sends (by decide) (by decide) ready_always ⟨0, []⟩

theorem shown_of_emits {t : List (BitVec 8)} (h : text format va = emits t) (h0 : 0 ∉ t) :
    shown format va = t := by
  rw [shown, h]
  exact List.filter_eq_self.2 fun b hb => decide_eq_true (ne_of_mem_of_not_mem hb h0)

theorem serialPrintf_says {t : List (BitVec 8)} (htext : text format va = emits t) (h0 : 0 ∉ t)
    (hlen : t.length < 2 ^ 64) (lineStatus : Nat → BitVec 8) (wait : Nat) (port : Com1) :
    serialPrintf lineStatus wait port format va =
      (send lineStatus wait port t).map (·, returned t) := by
  have hresult : (text format va).result = .ok () := by rw [htext]; rfl
  have hevents : (text format va).events = t := by rw [htext]; rfl
  have hserial := serialPrintf_eq hresult (hevents.symm ▸ hlen) lineStatus wait port
  rwa [hevents, shown_of_emits htext h0] at hserial

end Run

end AdaOS.Printf
