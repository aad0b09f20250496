import Mathlib

/-!
# A terminal of pixels

A screen of pixels, covered with cells as far as they fit, and a cursor that moves over the cells. A
character is drawn into the cell at the cursor; behind the last column the cursor goes to the next line,
and behind the last line the picture moves up by one cell.

## Main definitions

* `CellGrid` — the sizes of screen and cells
* `Terminal` — the picture and the cursor
* `Terminal.drawCell`, `Terminal.wrap`, `Terminal.scroll` — the operations
* `Terminal.put` — a character, or the end of a line

## Main results

* `Terminal.inside_put` — the cursor stays on the screen
* `CellGrid.cell_inside` — a cell on the screen has all its pixels there
-/

/-- The sizes of the screen and of its cells, in pixels. -/
structure CellGrid where
  width : ℕ
  height : ℕ
  xstep : ℕ
  ystep : ℕ
deriving DecidableEq, Repr

/-- A picture of pixels and a cursor. -/
structure Terminal (α : Type*) where
  image : ℕ → ℕ → α
  x : ℕ
  y : ℕ

namespace CellGrid

variable (g : CellGrid)

/-- The cells in a line. -/
def xlimit : ℕ := g.width / g.xstep

/-- The lines. -/
def ylimit : ℕ := g.height / g.ystep

variable {g}

/-- **A cell has all its pixels on the screen**, if it is below the limits. -/
theorem cell_inside {x y : ℕ} (hx : x < g.xlimit) (hy : y < g.ylimit) :
    x * g.xstep + g.xstep ≤ g.width ∧ y * g.ystep + g.ystep ≤ g.height := by
  have hx' := (Nat.mul_le_mul_right g.xstep (show x + 1 ≤ g.xlimit from hx)).trans
    (Nat.div_mul_le_self g.width g.xstep)
  have hy' := (Nat.mul_le_mul_right g.ystep (show y + 1 ≤ g.ylimit from hy)).trans
    (Nat.div_mul_le_self g.height g.ystep)
  rw [Nat.add_mul, one_mul] at hx' hy'
  exact ⟨hx', hy'⟩

end CellGrid

namespace Terminal

variable {α : Type*} (g : CellGrid) (blank : α)

/-- A cell is drawn at the cursor. -/
def drawCell (cell : ℕ → ℕ → α) (t : Terminal α) : Terminal α :=
  { t with
    image := fun i j =>
      if (t.y * g.ystep ≤ j ∧ j < t.y * g.ystep + g.ystep) ∧
          t.x * g.xstep ≤ i ∧ i < t.x * g.xstep + g.xstep then
        cell (i - t.x * g.xstep) (j - t.y * g.ystep)
      else t.image i j }

/-- Behind the last column the cursor goes to the next line. -/
def wrap (t : Terminal α) : Terminal α :=
  if t.x = g.xlimit then { t with x := 0, y := t.y + 1 } else t

/-- Behind the last line the picture moves up by one cell, with blank rows below. -/
def scroll (t : Terminal α) : Terminal α :=
  if t.y = g.ylimit then
    { t with
      image := fun i j => if j < g.height - g.ystep then t.image i (j + g.ystep) else blank
      y := t.y - 1 }
  else t

/-- A character, given by its cell, or the end of a line. -/
def put (cell : Option (ℕ → ℕ → α)) (t : Terminal α) : Terminal α :=
  let t := match cell with
    | none => { t with x := 0, y := t.y + 1 }
    | some cell => { t.drawCell g cell with x := t.x + 1 }
  ((t.wrap g).scroll g blank)

/-- The cursor is on the screen. -/
def Inside (t : Terminal α) : Prop := t.x < g.xlimit ∧ t.y < g.ylimit

variable {g blank} {t : Terminal α}

/-- **The cursor stays on the screen** whatever is put there. -/
theorem inside_put (hx : 1 ≤ g.xlimit) (cell : Option (ℕ → ℕ → α))
    (ht : t.Inside g) : (t.put g blank cell).Inside g := by
  obtain ⟨htx, hty⟩ := ht
  cases cell with
  | none =>
    simp only [put, wrap, scroll, Inside]
    split <;> split <;> simp only at * <;> omega
  | some cell =>
    simp only [put, wrap, scroll, drawCell, Inside]
    split <;> split <;> simp only at * <;> omega

end Terminal
