import Mathlib.Logic.Function.Basic
import Mathlib.Tactic.Common

/-- A page of text: a cell or a blank at each column of each row, and a cursor. -/
structure TextGrid (Cell : Type) where
  cell : Nat → Nat → Option Cell
  x : Nat
  y : Nat

namespace TextGrid
set_option autoImplicit true

variable {Cell : Type} {columns rows : Nat} {g : TextGrid Cell}

def blank : TextGrid Cell := ⟨fun _ _ => none, 0, 0⟩

/-- Every row moves up by one, and the last row is blank. -/
def scroll (rows : Nat) (g : TextGrid Cell) : TextGrid Cell :=
  { g with cell := fun x y => if y + 1 < rows then g.cell x (y + 1) else none }

def home (g : TextGrid Cell) : TextGrid Cell := { g with x := 0 }

def newline (rows : Nat) (g : TextGrid Cell) : TextGrid Cell :=
  if g.y + 1 < rows then { g with x := 0, y := g.y + 1 } else (g.scroll rows).home

def advance (columns rows : Nat) (g : TextGrid Cell) : TextGrid Cell :=
  if g.x + 1 < columns then { g with x := g.x + 1 } else g.newline rows

/-- Write a cell at the cursor, which stays where it is. -/
def write (v : Cell) (g : TextGrid Cell) : TextGrid Cell :=
  { g with cell := fun x y => if x = g.x ∧ y = g.y then some v else g.cell x y }

@[simp] theorem write_x (v : Cell) (g : TextGrid Cell) : (g.write v).x = g.x := rfl

@[simp] theorem write_y (v : Cell) (g : TextGrid Cell) : (g.write v).y = g.y := rfl

def goto (columns rows x y : Nat) (g : TextGrid Cell) : TextGrid Cell :=
  if x < columns ∧ y < rows then { g with x := x, y := y } else g

/-- The last cell of the last row is blank: to write it scrolls the page. -/
def CornerBlank (columns rows : Nat) (g : TextGrid Cell) : Prop :=
  g.cell (columns - 1) (rows - 1) = none

theorem scroll_last (hr : 0 < rows) (g : TextGrid Cell) (x : Nat) :
    (g.scroll rows).cell x (rows - 1) = none := if_neg (by omega)

namespace CornerBlank

theorem scroll (hr : 0 < rows) (g : TextGrid Cell) : CornerBlank columns rows (g.scroll rows) :=
  scroll_last hr g _

theorem newline (h : CornerBlank columns rows g) (hr : 0 < rows) :
    CornerBlank columns rows (g.newline rows) := by
  rw [TextGrid.newline]
  split_ifs
  · exact h
  · exact scroll hr g

theorem put (h : CornerBlank columns rows g) (hc : g.x < columns) (hr : g.y < rows) (v : Cell) :
    CornerBlank columns rows ((g.write v).advance columns rows) := by
  by_cases hlast : columns - 1 = g.x ∧ rows - 1 = g.y
  · have hx : ¬(g.write v).x + 1 < columns := by
      rw [write_x]
      omega
    have hy : ¬(g.write v).y + 1 < rows := by
      rw [write_y]
      omega
    rw [advance, if_neg hx, TextGrid.newline, if_neg hy]
    exact scroll (Nat.zero_lt_of_lt hr) _
  · have hw : CornerBlank columns rows (g.write v) := (if_neg hlast).trans h
    rw [advance]
    split_ifs
    · exact hw
    · exact hw.newline (Nat.zero_lt_of_lt hr)

theorem goto (h : CornerBlank columns rows g) (x y : Nat) :
    CornerBlank columns rows (g.goto columns rows x y) := by
  rw [TextGrid.goto]
  split_ifs
  · exact h
  · exact h

end CornerBlank

end TextGrid
