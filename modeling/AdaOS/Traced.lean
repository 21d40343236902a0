import Mathlib.Tactic.Common

/-- A computation that may fail, with the events on its way, up to a failure too. -/
structure Traced (ι ε α : Type) where
  events : List ι
  result : Except ε α

namespace Traced
set_option autoImplicit true

protected def bind (x : Traced ι ε α) (f : α → Traced ι ε β) : Traced ι ε β :=
  match x.result with
  | .ok a => ⟨x.events ++ (f a).events, (f a).result⟩
  | .error e => ⟨x.events, .error e⟩

instance : Monad (Traced ι ε) where
  pure a := ⟨[], .ok a⟩
  bind := Traced.bind

def call (x : Except ε α) : Traced ι ε α := ⟨[], x⟩

def emit (i : ι) : Traced ι ε Unit := ⟨[i], .ok ()⟩

/-- Each event suits the state that the events before it lead to. -/
def Along (step : γ → ι → γ) (P : γ → ι → Prop) : γ → List ι → Prop
  | _, [] => True
  | g, i :: l => P g i ∧ Along step P (step g i) l

def All (p : ι → Prop) (x : Traced ι ε α) : Prop := ∀ i ∈ x.events, p i

variable {ι ε α β γ : Type} {x : Traced ι ε α} {f : α → Traced ι ε β} {step : γ → ι → γ}
  {P Q : γ → ι → Prop} {g : γ} {l l' : List ι}

@[simp] theorem result_call (x : Except ε α) : (call x : Traced ι ε α).result = x := rfl

theorem bind_of_ok (h : x.result = .ok a) :
    x >>= f = ⟨x.events ++ (f a).events, (f a).result⟩ := by
  change x.bind f = _
  rw [Traced.bind, h]

theorem bind_of_error (h : x.result = .error e) : x >>= f = ⟨x.events, .error e⟩ := by
  change x.bind f = _
  rw [Traced.bind, h]

theorem result_bind (x : Traced ι ε α) (f : α → Traced ι ε β) :
    (x >>= f).result = x.result >>= fun a => (f a).result := by
  cases h : x.result with
  | ok a =>
    rw [bind_of_ok h]
    rfl
  | error e =>
    rw [bind_of_error h]
    rfl

theorem result_bind_congr {x' : Except ε α} {f' : α → Except ε β} (hx : x.result = x')
    (hf : ∀ a, (f a).result = f' a) : (x >>= f).result = x' >>= f' := by
  rw [result_bind, hx]
  exact bind_congr hf

theorem emit_bind_result (i : ι) (f : Unit → Traced ι ε β) :
    (emit i >>= f).result = (f ()).result := rfl

private theorem bind_bind (x : Traced ι ε α) (f : α → Traced ι ε β) (f' : β → Traced ι ε γ) :
    x >>= f >>= f' = x >>= fun a => f a >>= f' := by
  cases h : x.result with
  | ok a =>
    rw [bind_of_ok h, bind_of_ok h]
    cases h' : (f a).result with
    | ok b =>
      have hfirst : (⟨x.events ++ (f a).events, .ok b⟩ : Traced ι ε β).result = .ok b := rfl
      rw [bind_of_ok h', bind_of_ok hfirst]
      dsimp only
      rw [List.append_assoc]
    | error e =>
      have hfirst : (⟨x.events ++ (f a).events, .error e⟩ : Traced ι ε β).result = .error e := rfl
      rw [bind_of_error h', bind_of_error hfirst]
  | error e =>
    have hfirst : (⟨x.events, .error e⟩ : Traced ι ε β).result = .error e := rfl
    rw [bind_of_error h, bind_of_error h, bind_of_error hfirst]

private theorem bind_pure_self (x : Traced ι ε α) : x >>= pure = x := by
  cases h : x.result with
  | ok a =>
    have hlast : (pure a : Traced ι ε α) = ⟨[], x.result⟩ := congrArg (Traced.mk []) h.symm
    rw [bind_of_ok h, hlast, List.append_nil]
  | error e => rw [bind_of_error h, ← h]

instance : LawfulMonad (Traced ι ε) :=
  LawfulMonad.mk' _ bind_pure_self (fun _ _ => rfl) bind_bind

theorem mem_bind : i ∈ (x >>= f).events ↔
    i ∈ x.events ∨ ∃ a, x.result = .ok a ∧ i ∈ (f a).events := by
  cases h : x.result with
  | ok a =>
    rw [bind_of_ok h, List.mem_append]
    constructor
    · rintro (hx | hf)
      · exact .inl hx
      · exact .inr ⟨a, rfl, hf⟩
    · rintro (hx | ⟨b, hb, hf⟩)
      · exact .inl hx
      · cases hb
        exact .inr hf
  | error e =>
    rw [bind_of_error h]
    constructor
    · exact .inl
    · rintro (hx | ⟨b, hb, _⟩)
      · exact hx
      · cases hb

theorem all_pure (p : ι → Prop) (a : α) : All p (pure a : Traced ι ε α) := fun _ hi => nomatch hi

theorem all_call (p : ι → Prop) (x : Except ε α) : All p (call x) := fun _ hi => nomatch hi

theorem all_bind {p : ι → Prop} :
    All p (x >>= f) ↔ All p x ∧ ∀ a, x.result = .ok a → All p (f a) := by
  constructor
  · intro h
    exact ⟨fun i hi => h i (mem_bind.2 (.inl hi)),
      fun a ha i hi => h i (mem_bind.2 (.inr ⟨a, ha, hi⟩))⟩
  · rintro ⟨hx, hf⟩ i hi
    rcases mem_bind.1 hi with hi | ⟨a, ha, hi⟩
    · exact hx i hi
    · exact hf a ha i hi

theorem all_bind_of_all {p : ι → Prop} {y : Except ε α} (hx : All p x) (hr : x.result = y) :
    All p (x >>= f) ↔ ∀ a, y = .ok a → All p (f a) := by
  rw [all_bind, hr]
  exact and_iff_right hx

theorem all_bind_of_ok {p : ι → Prop} {P Q : Prop} (hx : All p x ↔ P)
    (hr : P → x.result = .ok a) (hf : P → (All p (f a) ↔ Q)) : All p (x >>= f) ↔ P ∧ Q := by
  rw [all_bind, hx]
  apply and_congr_right
  intro hp
  rw [← hf hp]
  constructor
  · exact fun h => h a (hr hp)
  · intro h b hb
    cases (hr hp).symm.trans hb
    exact h

theorem all_emit (p : ι → Prop) (i : ι) : All p (emit i : Traced ι ε Unit) ↔ p i :=
  List.forall_mem_singleton

theorem all_emit_bind {p : ι → Prop} {f : Unit → Traced ι ε β} :
    All p (emit i >>= f) ↔ p i ∧ All p (f ()) := by
  apply all_bind_of_ok (all_emit p i) (fun _ => rfl)
  intro _
  exact Iff.rfl

theorem all_bind_check {p : ι → Prop} {x : Traced ι ε Unit} {f : Unit → Traced ι ε β}
    {P Q C : Prop} (hx : All p x ↔ P) (hr : P → (x.result = .ok () ↔ C))
    (hf : P → C → (All p (f ()) ↔ Q)) : All p (x >>= f) ↔ P ∧ (C → Q) := by
  rw [all_bind, hx]
  apply and_congr_right
  intro hp
  constructor
  · exact fun h hc => (hf hp hc).1 (h () ((hr hp).2 hc))
  · exact fun h u hu => (hf hp ((hr hp).1 hu)).2 (h ((hr hp).1 hu))

theorem along_append : Along step P g (l ++ l') ↔
    Along step P g l ∧ Along step P (l.foldl step g) l' := by
  induction l generalizing g with
  | nil => exact ⟨fun h => ⟨trivial, h⟩, And.right⟩
  | cons i l ih =>
    change P g i ∧ Along step P (step g i) (l ++ l') ↔ _
    rw [ih, ← and_assoc]
    rfl

theorem along_const (step : γ → ι → γ) (g : γ) {p : ι → Prop} :
    Along step (fun _ => p) g l ↔ ∀ i ∈ l, p i := by
  induction l generalizing g with
  | nil => exact ⟨(fun _ _ hno => nomatch hno), fun _ => trivial⟩
  | cons i l ih =>
    rw [List.forall_mem_cons]
    exact and_congr Iff.rfl (ih (step g i))

theorem Along.mono (h : Along step P g l) (hm : ∀ g i, P g i → Q g i) : Along step Q g l := by
  induction l generalizing g with
  | nil => trivial
  | cons i l ih => exact ⟨hm _ _ h.1, ih h.2⟩

/-- A computation begun in the state `g` of its events: these suit their states, and the last
state and the value are as they should be. -/
structure Tracks (step : γ → ι → γ) (P : γ → ι → Prop) (g : γ) (x : Traced ι ε α)
    (post : γ → α → Prop) : Prop where
  along : Along step P g x.events
  done : ∀ a, x.result = .ok a → post (x.events.foldl step g) a

theorem Tracks.pure (h : post g a) : Tracks step P g (Pure.pure a : Traced ι ε α) post :=
  ⟨trivial, fun _ hb => by cases hb; exact h⟩

theorem Tracks.call {x : Except ε α} (h : ∀ a, x = .ok a → post g a) :
    Tracks step P g (call x : Traced ι ε α) post := ⟨trivial, h⟩

theorem Tracks.emit (h : P g i) (hp : post (step g i) ()) :
    Tracks step P g (emit i : Traced ι ε Unit) post := ⟨⟨h, trivial⟩, fun _ _ => hp⟩

theorem Tracks.bind (hx : Tracks step P g x mid)
    (hf : ∀ a g', x.result = .ok a → mid g' a → Tracks step P g' (f a) post) :
    Tracks step P g (x >>= f) post := by
  cases h : x.result with
  | ok a =>
    have hrest := hf a _ h (hx.done a h)
    rw [bind_of_ok h]
    refine ⟨along_append.2 ⟨hx.along, hrest.along⟩, fun b hb => ?_⟩
    rw [List.foldl_append]
    exact hrest.done b hb
  | error e =>
    rw [bind_of_error h]
    exact ⟨hx.along, (fun _ hb => nomatch hb)⟩

theorem Tracks.bind_same (hx : Tracks step P g x fun g' _ => g' = g)
    (hf : ∀ a, x.result = .ok a → Tracks step P g (f a) post) :
    Tracks step P g (x >>= f) post := by
  apply hx.bind
  rintro a g' ha rfl
  exact hf a ha

end Traced
