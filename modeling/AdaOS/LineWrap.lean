import Mathlib.Data.List.Infix
import Mathlib.Tactic.Common

namespace LineWrap
set_option autoImplicit true

section Lines
variable {α : Type} [DecidableEq α] (lf cr : α) (width : Nat)

/-- The column behind a character on lines of `width` columns. -/
def next (x : Nat) (a : α) : Nat :=
  if a = lf ∨ a = cr then 0 else if x + 1 < width then x + 1 else 0

/-- What a character puts out: a line that it fills is ended behind it. -/
def put (x : Nat) (a : α) : List α :=
  if a = lf then [lf] else if a = cr then [] else if x + 1 < width then [a] else [a, lf]

/-- The column behind a text that starts in column `x`. -/
def column (x : Nat) (t : List α) : Nat := t.foldl (next lf cr width) x

/-- A text that starts in column `x`, with the ends of its full lines. -/
def wrap : Nat → List α → List α
  | _, [] => []
  | x, a :: t => put lf cr width x a ++ wrap (next lf cr width x a) t

variable {lf cr width} {t v : List α}

theorem column_append (x : Nat) (t u : List α) :
    column lf cr width x (t ++ u) = column lf cr width (column lf cr width x t) u :=
  List.foldl_append

theorem wrap_append (x : Nat) (t u : List α) :
    wrap lf cr width x (t ++ u) =
      wrap lf cr width x t ++ wrap lf cr width (column lf cr width x t) u := by
  induction t generalizing x with
  | nil => rfl
  | cons a t ih =>
    rw [List.cons_append, wrap, wrap, ih, List.append_assoc]
    rfl

theorem next_lt (hw : 0 < width) (x : Nat) (a : α) : next lf cr width x a < width := by
  rw [next]
  split_ifs with _ hx
  · exact hw
  · exact hx
  · exact hw

theorem filter_wrap (x : Nat) (t : List α) :
    (wrap lf cr width x t).filter (· ≠ lf) = t.filter fun a => a ≠ lf ∧ a ≠ cr := by
  induction t generalizing x with
  | nil => rfl
  | cons a t ih =>
    rw [wrap, List.filter_append, ih, List.filter_cons, put]
    by_cases hlf : a = lf
    · simp [hlf]
    · by_cases hcr : a = cr
      · have hne : cr ≠ lf := fun h => hlf (hcr.trans h)
        simp [hcr, hne]
      · by_cases hx : x + 1 < width
        · simp [hlf, hcr, hx]
        · simp [hlf, hcr, hx]

/-- Without carriage returns, what is put out up to the next line feed ends in its line. -/
theorem length_of_initial (hx : x < width) (hcr : cr ∉ t) (hv : v <+: wrap lf cr width x t)
    (hlf : lf ∉ v) : x + v.length ≤ width := by
  induction t generalizing x v with
  | nil =>
    rw [List.prefix_nil.1 hv]
    exact Nat.le_of_lt hx
  | cons a t ih =>
    cases v with
    | nil => exact Nat.le_of_lt hx
    | cons b v =>
      have hb : b ≠ lf := (List.ne_of_not_mem_cons hlf).symm
      have hrest : lf ∉ v := List.not_mem_of_not_mem_cons hlf
      have ha : a ≠ cr := (List.ne_of_not_mem_cons hcr).symm
      rw [wrap, put, next] at hv
      by_cases hend : a = lf
      · rw [if_pos hend] at hv
        exact absurd (List.cons_prefix_cons.1 hv).1 hb
      · rw [if_neg hend, if_neg ha, if_neg (not_or.2 ⟨hend, ha⟩)] at hv
        by_cases hroom : x + 1 < width
        · rw [if_pos hroom, if_pos hroom] at hv
          have hline := ih hroom (List.not_mem_of_not_mem_cons hcr) (List.cons_prefix_cons.1 hv).2
            hrest
          rw [List.length_cons]
          omega
        · rw [if_neg hroom, if_neg hroom] at hv
          have hnil : v = [] := by
            cases v with
            | nil => rfl
            | cons c v =>
              have hc := (List.cons_prefix_cons.1 (List.cons_prefix_cons.1 hv).2).1
              exact absurd hc (List.ne_of_not_mem_cons hrest).symm
          rw [hnil]
          exact hx

/-- No line is longer than the page is wide. -/
theorem length_line (hx : x < width) (hcr : cr ∉ t) (hv : v <:+: wrap lf cr width x t)
    (hlf : lf ∉ v) : v.length ≤ width := by
  have hstart : ∀ {x t}, x < width → cr ∉ t → v <+: wrap lf cr width x t → v.length ≤ width :=
    fun hx hcr hv => Nat.le_trans (Nat.le_add_left _ _) (length_of_initial hx hcr hv hlf)
  have hafter : ∀ {l}, v <:+: lf :: l → v <:+: l := by
    intro l h
    obtain h | h := List.infix_cons_iff.1 h
    · cases v with
      | nil => exact List.nil_infix
      | cons b v =>
        exact absurd (List.cons_prefix_cons.1 h).1 (List.ne_of_not_mem_cons hlf).symm
    · exact h
  induction t generalizing x with
  | nil =>
    rw [List.infix_nil.1 hv]
    exact Nat.zero_le _
  | cons a t ih =>
    have ha : a ≠ cr := (List.ne_of_not_mem_cons hcr).symm
    have hrest : cr ∉ t := List.not_mem_of_not_mem_cons hcr
    have hpos : 0 < width := Nat.zero_lt_of_lt hx
    have hcol : next lf cr width x a < width := next_lt hpos x a
    have hnext := ih hcol hrest
    by_cases hend : a = lf
    · rw [wrap, put, if_pos hend] at hv
      exact hnext (hafter hv)
    · by_cases hroom : x + 1 < width
      · have hput :
            wrap lf cr width x (a :: t) = a :: wrap lf cr width (next lf cr width x a) t := by
          rw [wrap, put, if_neg hend, if_neg ha, if_pos hroom]
          rfl
        obtain h | h := List.infix_cons_iff.1 (hput ▸ hv)
        · exact hstart hx hcr (hput ▸ h)
        · exact hnext h
      · have hput : wrap lf cr width x (a :: t) =
            a :: lf :: wrap lf cr width (next lf cr width x a) t := by
          rw [wrap, put, if_neg hend, if_neg ha, if_neg hroom]
          rfl
        obtain h | h := List.infix_cons_iff.1 (hput ▸ hv)
        · exact hstart hx hcr (hput ▸ h)
        · exact hnext (hafter h)

end Lines

end LineWrap
