import AdaOS.Traced

namespace Traced
set_option autoImplicit true

/-- The events of a computation are given to a consumer that may itself fail. -/
def feed (step : σ → ι → Except ε σ) (x : Traced ι ε α) (s : σ) : Except ε (σ × α) := do
  let s ← x.events.foldlM step s
  .ok (s, ← x.result)

def emits (l : List ι) : Traced ι ε Unit := ⟨l, .ok ()⟩

variable {ι ε α β σ : Type} {step : σ → ι → Except ε σ} {s : σ}

theorem feed_call (x : Except ε α) : feed step (call x : Traced ι ε α) s = x.map (Prod.mk s) := by
  cases x with
  | error e => rfl
  | ok a => rfl

theorem feed_emits (l : List ι) :
    feed step (emits l : Traced ι ε Unit) s = (l.foldlM step s).map (·, ()) := by
  change (l.foldlM step s >>= _) = _
  cases l.foldlM step s with
  | error e => rfl
  | ok s' => rfl

theorem feed_bind (x : Traced ι ε α) (f : α → Traced ι ε β) :
    feed step (x >>= f) s = feed step x s >>= fun p => feed step (f p.2) p.1 := by
  cases h : x.result with
  | error e =>
    rw [bind_of_error h, feed, feed, h]
    cases x.events.foldlM step s with
    | error e' => rfl
    | ok s' => rfl
  | ok a =>
    rw [bind_of_ok h, feed, feed, h]
    dsimp only
    rw [List.foldlM_append]
    cases x.events.foldlM step s with
    | error e => rfl
    | ok s' => rfl

theorem feed_call_bind (x : Except ε α) (f : α → Traced ι ε β) :
    feed step (call x >>= f) s = x >>= fun a => feed step (f a) s := by
  rw [feed_bind, feed_call]
  cases x with
  | error e => rfl
  | ok a => rfl

theorem feed_emits_bind (l : List ι) (f : Unit → Traced ι ε β) :
    feed step (emits l >>= f) s = l.foldlM step s >>= fun s' => feed step (f ()) s' := by
  rw [feed_bind, feed_emits]
  cases l.foldlM step s with
  | error e => rfl
  | ok s' => rfl

theorem feed_one_bind (i : ι) (f : Unit → Traced ι ε β) :
    feed step (emits [i] >>= f) s = step s i >>= fun s' => feed step (f ()) s' := by
  rw [feed_emits_bind, List.foldlM_cons]
  cases step s i with
  | error e => rfl
  | ok s' => rfl

theorem bind_congr_result {x : Traced ι ε α} {f g : α → Traced ι ε β}
    (h : ∀ a, x.result = .ok a → f a = g a) : x >>= f = x >>= g := by
  cases hx : x.result with
  | error e => rw [bind_of_error hx, bind_of_error hx]
  | ok a => rw [bind_of_ok hx, bind_of_ok hx, h a hx]

theorem emits_append (l l' : List ι) :
    (emits (l ++ l') : Traced ι ε Unit) = emits l >>= fun _ => emits l' := rfl

end Traced
