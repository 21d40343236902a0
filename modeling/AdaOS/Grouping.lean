import Mathlib.Data.List.DropRight
import Mathlib.Logic.Function.Basic
import Mathlib.Tactic.Common

namespace Grouping
set_option autoImplicit true

section Runs
variable {α : Type} {l d e : List α} {a b : α}

/-- A value that has occurred before follows directly on itself. -/
def Grouped (l : List α) : Prop := ∀ d a, d ++ [a] <+: l → a ∈ d → d.getLast? = some a

theorem Grouped.front (h : Grouped l) (hp : d <+: l) : Grouped d :=
  fun e a he => h e a (he.trans hp)

variable [DecidableEq α]

/-- How many `a` stand at the end of a list. -/
def runLength (a : α) (l : List α) : Nat := (l.rtakeWhile (· == a)).length

theorem runLength_concat_self (a : α) (l : List α) :
    runLength a (l ++ [a]) = runLength a l + 1 := by
  have h := List.rtakeWhile_concat_pos (· == a) l a (beq_self_eq_true a)
  rw [runLength, h, List.length_append]
  rfl

theorem runLength_concat_of_ne (h : b ≠ a) (l : List α) : runLength a (l ++ [b]) = 0 := by
  rw [runLength, List.rtakeWhile_concat_neg]
  · rfl
  · exact fun he => h (beq_iff_eq.1 he)

theorem runLength_of_last (h : l.getLast? ≠ some a) : runLength a l = 0 := by
  induction l using List.reverseRecOn with
  | nil => rfl
  | append_singleton l b _ =>
    rw [List.getLast?_concat] at h
    exact runLength_concat_of_ne (fun he => h (congrArg some he)) l

theorem runLength_append_le (h : d.getLast? ≠ some a) (e : List α) :
    runLength a (d ++ e) ≤ e.count a := by
  induction e using List.reverseRecOn with
  | nil =>
    rw [List.append_nil, runLength_of_last h]
    exact Nat.zero_le _
  | append_singleton e b ih =>
    rw [← List.append_assoc, List.count_append]
    by_cases hb : b = a
    · rw [hb, runLength_concat_self, List.count_singleton_self]
      exact Nat.add_le_add_right ih 1
    · rw [runLength_concat_of_ne hb]
      exact Nat.zero_le _

theorem runLength_le_count (a : α) (l : List α) : runLength a l ≤ l.count a :=
  runLength_append_le (d := []) (fun h => nomatch h) l

/-- In a grouped list the run is all there is of a value. -/
theorem Grouped.runLength_eq (h : Grouped l) (ha : a ∈ l → l.getLast? = some a) :
    runLength a l = l.count a := by
  induction l using List.reverseRecOn with
  | nil => rfl
  | append_singleton l b ih =>
    by_cases hb : b = a
    · have hl : Grouped l := h.front (List.prefix_append l [b])
      rw [hb, runLength_concat_self, List.count_append, List.count_singleton_self,
        ih hl (h l a (hb ▸ List.prefix_refl _))]
    · have hn : a ∉ l ++ [b] := by
        intro hm
        have hlast := ha hm
        rw [List.getLast?_concat] at hlast
        exact hb (Option.some.inj hlast)
      rw [runLength_concat_of_ne hb, List.count_eq_zero_of_not_mem hn]

/-- In a list that is not grouped the runs of some value never reach its last index. -/
theorem exists_short_runs (h : ¬ Grouped l) :
    ∃ a ∈ l, ∀ d, d ++ [a] <+: l → runLength a d + 1 < l.count a := by
  have hx : ∃ d a, d ++ [a] <+: l ∧ a ∈ d ∧ d.getLast? ≠ some a := by
    by_contra hn
    apply h
    intro d a hp hm
    by_contra hl
    exact hn ⟨d, a, hp, hm, hl⟩
  obtain ⟨c, a, hc, hm, hlast⟩ := hx
  have hcount : c.count a + 1 ≤ l.count a := by
    have hle := hc.sublist.count_le a
    rwa [List.count_append, List.count_singleton_self] at hle
  refine ⟨a, hc.subset (List.mem_append_left _ hm), fun d hd => ?_⟩
  have hcl : c <+: l := (List.prefix_append c [a]).trans hc
  have hdl : d <+: l := (List.prefix_append d [a]).trans hd
  rcases Nat.lt_or_ge d.length c.length with hlt | hge
  · have hdc : d ++ [a] <+: c := by
      apply List.prefix_of_prefix_length_le hd hcl
      rw [List.length_append]
      exact hlt
    have hle := hdc.sublist.count_le a
    rw [List.count_append, List.count_singleton_self] at hle
    have hr := runLength_le_count a d
    omega
  · obtain ⟨e, rfl⟩ := List.prefix_of_prefix_length_le hcl hdl hge
    have hle := hd.sublist.count_le a
    rw [List.count_append, List.count_append, List.count_singleton_self] at hle
    have hr := runLength_append_le hlast e
    have hpos := List.count_pos_iff.2 hm
    omega

end Runs

section Place
variable {α β : Type} [DecidableEq α] {E : α → Nat → β} {d l : List (α × β)} {a : α}

/-- Values put into the slots of their keys, each at the number of directly preceding entries with
the same key; `before` are the keys already there. -/
def place (E : α → Nat → β) (before : List α) : List (α × β) → α → Nat → β
  | [] => E
  | (a, b) :: l =>
    place (Function.update E a (Function.update (E a) (runLength a before) b)) (before ++ [a]) l

def valuesOf (a : α) (l : List (α × β)) : List β := (l.filter (·.1 = a)).map Prod.snd

theorem valuesOf_append (a : α) (d l : List (α × β)) :
    valuesOf a (d ++ l) = valuesOf a d ++ valuesOf a l := by
  rw [valuesOf, List.filter_append, List.map_append]
  rfl

theorem valuesOf_length (a : α) (l : List (α × β)) :
    (valuesOf a l).length = (l.map Prod.fst).count a := by
  induction l with
  | nil => rfl
  | cons p l ih =>
    rw [List.map_cons, List.count_cons, ← ih, valuesOf, valuesOf, List.filter_cons]
    by_cases h : p.1 = a
    · rw [if_pos (decide_eq_true h), if_pos (beq_iff_eq.2 h)]
      rfl
    · rw [if_neg (by simpa using h), if_neg (by simpa using h)]
      rfl

/-- A grouped list is placed in order. -/
theorem place_of_grouped (hg : Grouped ((d ++ l).map Prod.fst))
    (hE : ∀ a k b, (valuesOf a d)[k]? = some b → E a k = b) :
    ∀ a k b, (valuesOf a (d ++ l))[k]? = some b → place E (d.map Prod.fst) l a k = b := by
  induction l generalizing d E with
  | nil =>
    rw [List.append_nil]
    exact hE
  | cons p l ih =>
    obtain ⟨a₀, b₀⟩ := p
    rw [List.append_cons] at hg ⊢
    have hp : (d.map Prod.fst) ++ [a₀] <+: ((d ++ [(a₀, b₀)]) ++ l).map Prod.fst := by
      rw [List.map_append, List.map_append]
      exact List.prefix_append _ _
    have hrun : runLength a₀ (d.map Prod.fst) = (valuesOf a₀ d).length := by
      rw [valuesOf_length]
      exact (hg.front ((List.prefix_append _ _).trans hp)).runLength_eq (hg _ _ hp)
    have hrest := ih (d := d ++ [(a₀, b₀)])
      (E := Function.update E a₀ (Function.update (E a₀) (runLength a₀ (d.map Prod.fst)) b₀)) hg
    rw [List.map_append] at hrest
    apply hrest
    intro a k b hk
    rw [valuesOf_append] at hk
    by_cases ha : a = a₀
    · subst a
      have hv : valuesOf a₀ [(a₀, b₀)] = [b₀] := by
        simp only [valuesOf, decide_true, List.filter_cons_of_pos, List.filter_nil, List.map_cons,
          List.map_nil]
      rw [Function.update_self, hrun]
      rw [hv] at hk
      rcases Nat.lt_trichotomy k (valuesOf a₀ d).length with hlt | rfl | hgt
      · rw [List.getElem?_append_left hlt] at hk
        rw [Function.update_of_ne (Nat.ne_of_lt hlt)]
        exact hE _ _ _ hk
      · rw [List.getElem?_concat_length] at hk
        rw [Function.update_self]
        exact Option.some.inj hk
      · rw [List.getElem?_eq_none (by rw [List.length_append]; exact hgt)] at hk
        cases hk
    · have hv : valuesOf a [(a₀, b₀)] = [] := by
        rw [valuesOf, List.filter_cons_of_neg (by simpa using Ne.symm ha)]
        rfl
      rw [hv, List.append_nil] at hk
      rw [Function.update_of_ne ha]
      exact hE _ _ _ hk

theorem place_of_unreached (before : List α) (l : List (α × β)) (k : Nat)
    (h : ∀ d, before <+: d → d ++ [a] <+: before ++ l.map Prod.fst → runLength a d ≠ k) :
    place E before l a k = E a k := by
  induction l generalizing before E with
  | nil => rfl
  | cons p l ih =>
    obtain ⟨a₀, b₀⟩ := p
    rw [List.map_cons, List.append_cons] at h
    rw [place, ih (before ++ [a₀]) fun d hd => h d ((List.prefix_append _ _).trans hd)]
    by_cases ha : a = a₀
    · subst a
      have hne := h before (List.prefix_refl _) (List.prefix_append _ _)
      rw [Function.update_self, Function.update_of_ne (Ne.symm hne)]
    · rw [Function.update_of_ne ha]

theorem place_iff_grouped [Nontrivial β] (l : List (α × β)) :
    (∀ E a k b, (valuesOf a l)[k]? = some b → place E [] l a k = b) ↔
      Grouped (l.map Prod.fst) := by
  constructor
  · intro h
    by_contra hn
    obtain ⟨a, hm, hshort⟩ := exists_short_runs hn
    have hpos := List.count_pos_iff.2 hm
    have hk : (l.map Prod.fst).count a - 1 < (valuesOf a l).length := by
      rw [valuesOf_length]
      exact Nat.sub_lt hpos Nat.one_pos
    obtain ⟨b', hb'⟩ := exists_ne (valuesOf a l)[(l.map Prod.fst).count a - 1]
    have hp := h (fun _ _ => b') a _ _ (List.getElem?_eq_getElem hk)
    rw [place_of_unreached] at hp
    · exact hb' hp
    · intro d _ hd
      have hs := hshort d hd
      omega
  · intro hg E
    exact place_of_grouped (d := []) hg fun a k b hk => (nomatch hk)

end Place

end Grouping
