import Mathlib
import Stage0.BoundedLoops

set_option autoImplicit false

/-!
# The board of `life/main.c`

The board is one flat array; every access goes through its computed index.
An access outside the array leaves the whole call without a result.
-/
namespace Stage0.LifeBoard
open BoundedLoops

def boardCols : ℕ := 180
def boardRows : ℕ := 45
def size : ℕ := boardRows * boardCols

abbrev Board := Vector ℤ size
abbrev Buffer := Vector UInt8 size

/-- The globals `board` and `living_cells`. -/
structure Life where
  board : Board
  livingCells : ℤ

def initBoard (board : Board) : Option Board :=
  forUp 0 size board fun i board => store board i 0

def setCell (board : Board) (row col : ℤ) : Option Board :=
  store board (row * boardCols + col) 1

/-- R-pentomino -/
def populateBoard (board : Board) : Option Board := do
  let board ← setCell board 21 90
  let board ← setCell board 21 91
  let board ← setCell board 22 89
  let board ← setCell board 22 90
  setCell board 23 90

def countNeighbors (board : Board) (row0 col0 : ℤ) : Option ℤ :=
  let idx0 := row0 * boardCols + col0
  forUp (row0 - 1) (row0 + 2) 0 fun row count =>
    forUp (col0 - 1) (col0 + 2) count fun col count =>
      let idx := row * boardCols + col
      if col < 0 ∨ col ≥ boardCols ∨ row < 0 ∨ row ≥ boardRows ∨ idx = idx0 then
        some count
      else
        (load board idx).map (fun cell => count + cell)

/-- The body of the two loops of `update`: `s` holds `next_board` and `living_cells`. -/
def updateCell (board : Board) (row col : ℤ) (s : Life) : Option Life := do
  let idx := row * boardCols + col
  let count ← countNeighbors board row col
  let cell ← load board idx
  let nextBoard ←
    if cell ≠ 0 then
      store s.board idx (if count > 1 ∧ count < 4 then 1 else 0)
    else
      store s.board idx (if count = 3 then 1 else 0)
  let nextCell ← load nextBoard idx
  return ⟨nextBoard, s.livingCells + nextCell⟩

def update (life : Life) : Option Life :=
  forUp 0 boardRows ⟨life.board, 0⟩ fun row s =>
    forUp 0 boardCols s fun col s => updateCell life.board row col s

def updates : ℕ → Life → Option Life
  | 0, life => some life
  | n + 1, life => (updates n life).bind update

def drawBoard (board : Board) (back : Buffer) : Option Buffer :=
  forUp 0 size back fun idx back => do
    let cell ← load board idx
    if cell ≠ 0 then store back idx 'X'.toUInt8 else store back idx '.'.toUInt8

/-! ### Rows and columns -/

abbrev Cell := Fin boardRows × Fin boardCols

def index : Cell ≃ Fin size := finProdFinEquiv

def coord : Cell ↪ ℤ × ℤ where
  toFun c := ((c.1 : ℕ), (c.2 : ℕ))
  inj' c d h := by
    simp only [Prod.mk.injEq, Int.natCast_inj] at h
    exact Prod.ext (Fin.ext h.1) (Fin.ext h.2)

@[simp] theorem coord_fst (c : Cell) : (coord c).1 = ((c.1 : ℕ) : ℤ) := rfl
@[simp] theorem coord_snd (c : Cell) : (coord c).2 = ((c.2 : ℕ) : ℤ) := rfl

theorem index_val (c : Cell) :
    (((index c : Fin size) : ℕ) : ℤ) = (coord c).1 * boardCols + (coord c).2 := by
  have h : ((index c : Fin size) : ℕ) = c.2 + boardCols * c.1 := rfl
  rw [h, coord_fst, coord_snd]
  push_cast
  ring

theorem coord_bounds (c : Cell) : 0 ≤ (coord c).1 ∧ (coord c).1 < boardRows ∧
    0 ≤ (coord c).2 ∧ (coord c).2 < boardCols := by
  have h1 := c.1.isLt
  have h2 := c.2.isLt
  simp only [coord_fst, coord_snd]
  omega

theorem exists_cell {row col : ℤ} (h : 0 ≤ row ∧ row < boardRows ∧ 0 ≤ col ∧ col < boardCols) :
    ∃ c, coord c = (row, col) := by
  refine ⟨(⟨row.toNat, by omega⟩, ⟨col.toNat, by omega⟩), ?_⟩
  apply Prod.ext
  · simp only [coord_fst]
    omega
  · simp only [coord_snd]
    omega

theorem mem_range_coord {p : ℤ × ℤ} : p ∈ Set.range coord ↔
    0 ≤ p.1 ∧ p.1 < boardRows ∧ 0 ≤ p.2 ∧ p.2 < boardCols := by
  constructor
  · rintro ⟨c, rfl⟩
    exact coord_bounds c
  · intro h
    exact exists_cell h

theorem index_inj (row row' : ℤ) {col col' : ℤ} (hcol : 0 ≤ col ∧ col < boardCols)
    (hcol' : 0 ≤ col' ∧ col' < boardCols) :
    row * boardCols + col = row' * boardCols + col' ↔ row = row' ∧ col = col' := by
  simp only [boardCols] at *
  omega

theorem load_cell (board : Board) (c : Cell) :
    load board ((coord c).1 * boardCols + (coord c).2) = some (board.get (index c)) := by
  rw [← index_val, load_coe]

theorem store_cell (board : Board) (c : Cell) (x : ℤ) :
    store board ((coord c).1 * boardCols + (coord c).2) x =
      some (board.set (index c) x (index c).isLt) := by
  rw [← index_val, store_coe]

end Stage0.LifeBoard
