import Mathlib
import Stage0.Automaton
import Stage0.LifeBoard

set_option autoImplicit false

/-!
# `update` computes the rules of the README

The neighbour loops compute the live count of the in-grid cells at Chebyshev
distance one; the sweep computes one step of the automaton of these counts.
-/
namespace Stage0.LifeUpdate
open BoundedLoops Automaton LifeBoard

def chebyshev (p q : ℤ × ℤ) : ℤ := max |p.1 - q.1| |p.2 - q.2|

theorem chebyshev_eq_one_iff (p q : ℤ × ℤ) : chebyshev p q = 1 ↔
    p.1 - 1 ≤ q.1 ∧ q.1 < p.1 + 2 ∧ p.2 - 1 ≤ q.2 ∧ q.2 < p.2 + 2 ∧ ¬(q.1 = p.1 ∧ q.2 = p.2) := by
  unfold chebyshev
  rcases abs_cases (p.1 - q.1) with h | h <;> rcases abs_cases (p.2 - q.2) with h' | h' <;> omega

def neighbours (c : Cell) : Finset Cell :=
  Finset.univ.filter (fun d => chebyshev (coord c) (coord d) = 1)

theorem mem_neighbours {c d : Cell} : d ∈ neighbours c ↔ chebyshev (coord c) (coord d) = 1 := by
  simp [neighbours]

/-- A populated space survives with two or three neighbours; an empty one
becomes populated with three. -/
def lifeRule : Bool → ℕ → Bool
  | true, count => decide (count = 2 ∨ count = 3)
  | false, count => decide (count = 3)

def Binary (board : Board) : Prop := ∀ c, board.get (index c) = 0 ∨ board.get (index c) = 1

def live (board : Board) (c : Cell) : Bool := decide (board.get (index c) = 1)

def population (s : Cell → Bool) : ℕ := (Finset.univ.filter (fun c => s c = true)).card

def boardOf (s : Cell → Bool) : Board := Vector.ofFn (fun j => ((s (index.symm j)).toNat : ℤ))

@[simp] theorem get_boardOf (s : Cell → Bool) (j : Fin size) :
    (boardOf s).get j = ((s (index.symm j)).toNat : ℤ) := by
  simp [boardOf, Vector.get_eq_getElem]

@[simp] theorem live_boardOf (s : Cell → Bool) : live (boardOf s) = s := by
  funext c
  cases h : s c <;> simp [live, h]

theorem binary_boardOf (s : Cell → Bool) : Binary (boardOf s) := by
  intro c
  cases h : s c <;> simp [h]

theorem boardOf_live {board : Board} (h : Binary board) : boardOf (live board) = board := by
  apply ext_get
  intro j
  obtain ⟨c, rfl⟩ := index.surjective j
  rcases h c with hc | hc <;> simp [live, hc]

/-! ### The neighbour loops -/

/-- What one pass of the inner loop of `countNeighbors` adds to `count`. -/
def contribution (board : Board) (row0 col0 row col : ℤ) : ℤ :=
  if col < 0 ∨ col ≥ boardCols ∨ row < 0 ∨ row ≥ boardRows ∨
      row * boardCols + col = row0 * boardCols + col0 then 0
  else (load board (row * boardCols + col)).getD 0

theorem contribution_spec (board : Board) (row0 col0 row col count : ℤ) :
    (if col < 0 ∨ col ≥ boardCols ∨ row < 0 ∨ row ≥ boardRows ∨
        row * boardCols + col = row0 * boardCols + col0 then some count
      else (load board (row * boardCols + col)).map (fun cell => count + cell)) =
      some (count + contribution board row0 col0 row col) := by
  unfold contribution
  split
  · simp
  · rename_i h
    obtain ⟨c, hc⟩ : ∃ c, coord c = (row, col) := exists_cell (by omega)
    have hload := load_cell board c
    rw [hc] at hload
    simp only [hload, Option.map_some, Option.getD_some]

theorem contribution_neighbour (board : Board) {c d : Cell} (h : d ∈ neighbours c) :
    contribution board (coord c).1 (coord c).2 (coord d).1 (coord d).2 = board.get (index d) := by
  have hd := coord_bounds d
  have hc := coord_bounds c
  have hn := (chebyshev_eq_one_iff _ _).1 (mem_neighbours.1 h)
  have hidx := index_inj (coord d).1 (coord c).1 hd.2.2 hc.2.2
  rw [contribution, if_neg (by omega), load_cell, Option.getD_some]

theorem contribution_other (board : Board) {c : Cell} {p : ℤ × ℤ}
    (h : p ∉ (neighbours c).map coord)
    (near : (coord c).1 - 1 ≤ p.1 ∧ p.1 < (coord c).1 + 2 ∧
      (coord c).2 - 1 ≤ p.2 ∧ p.2 < (coord c).2 + 2) :
    contribution board (coord c).1 (coord c).2 p.1 p.2 = 0 := by
  unfold contribution
  split
  · rfl
  · rename_i hin
    obtain ⟨d, hd⟩ : ∃ d, coord d = (p.1, p.2) := exists_cell (by omega)
    have hcol : 0 ≤ p.2 ∧ p.2 < boardCols := by omega
    have hidx := index_inj p.1 (coord c).1 hcol (coord_bounds c).2.2
    refine absurd (Finset.mem_map.2 ⟨d, mem_neighbours.2 ?_, hd⟩) h
    rw [chebyshev_eq_one_iff, hd]
    omega

theorem countNeighbors_eq (board : Board) (c : Cell) :
    countNeighbors board (coord c).1 (coord c).2 =
      some (∑ d ∈ neighbours c, board.get (index d)) := by
  let rows := Finset.Ico ((coord c).1 - 1) ((coord c).1 + 2)
  let cols := Finset.Ico ((coord c).2 - 1) ((coord c).2 + 2)
  have hloops : countNeighbors board (coord c).1 (coord c).2 = some (0 + ∑ row ∈ rows,
      ∑ col ∈ cols, contribution board (coord c).1 (coord c).2 row col) := by
    apply forUp_sum _ (by omega)
    intro row count _ _
    apply forUp_sum _ (by omega)
    intro col count _ _
    exact contribution_spec board (coord c).1 (coord c).2 row col count
  have hsub : (neighbours c).map coord ⊆ rows ×ˢ cols := by
    intro p hp
    obtain ⟨d, hd, rfl⟩ := Finset.mem_map.1 hp
    have hn := (chebyshev_eq_one_iff _ _).1 (mem_neighbours.1 hd)
    simp only [rows, cols, Finset.mem_product, Finset.mem_Ico]
    omega
  rw [hloops, zero_add]
  congr 1
  calc
    _ = ∑ p ∈ rows ×ˢ cols, contribution board (coord c).1 (coord c).2 p.1 p.2 :=
      (Finset.sum_product' _ _ _).symm
    _ = ∑ p ∈ (neighbours c).map coord, contribution board (coord c).1 (coord c).2 p.1 p.2 := by
      refine (Finset.sum_subset hsub ?_).symm
      intro p hp hout
      apply contribution_other board hout
      simp only [rows, cols, Finset.mem_product, Finset.mem_Ico] at hp
      omega
    _ = ∑ d ∈ neighbours c, board.get (index d) := by
      rw [Finset.sum_map]
      exact Finset.sum_congr rfl (fun d hd => contribution_neighbour board hd)

theorem countNeighbors_boardOf (s : Cell → Bool) (c : Cell) :
    countNeighbors (boardOf s) (coord c).1 (coord c).2 = some (liveCount neighbours s c : ℤ) := by
  rw [countNeighbors_eq, liveCount_eq_sum]
  simp

/-! ### The sweep -/

abbrev step (s : Cell → Bool) : Cell → Bool := next neighbours lifeRule s

/-- `next_board` and `living_cells` after the first `m` indices of the sweep. -/
def Swept (s : Cell → Bool) (m : ℤ) (u : Life) : Prop :=
  (∀ c, u.board.get (index c) =
    if ((index c : ℕ) : ℤ) < m then ((step s c).toNat : ℤ) else ((s c).toNat : ℤ)) ∧
  u.livingCells = ∑ c : Cell, if ((index c : ℕ) : ℤ) < m then ((step s c).toNat : ℤ) else 0

theorem lifeRule_toNat (alive : Bool) (count : ℕ) : ((lifeRule alive count).toNat : ℤ) =
    if alive then (if (count : ℤ) > 1 ∧ (count : ℤ) < 4 then 1 else 0)
    else (if (count : ℤ) = 3 then 1 else 0) := by
  cases alive
  · simp only [lifeRule, Bool.false_eq_true, if_false]
    split <;> rename_i h <;> simp <;> omega
  · simp only [lifeRule, if_true]
    split <;> rename_i h <;> simp <;> omega

theorem updateCell_run (s : Cell → Bool) (c : Cell) (u : Life) :
    updateCell (boardOf s) (coord c).1 (coord c).2 u =
      some ⟨u.board.set (index c) ((step s c).toNat : ℤ) (index c).isLt,
        u.livingCells + ((step s c).toNat : ℤ)⟩ := by
  have hrule := lifeRule_toNat (s c) (liveCount neighbours s c)
  change ((step s c).toNat : ℤ) = _ at hrule
  rw [hrule, updateCell, countNeighbors_boardOf]
  generalize liveCount neighbours s c = count
  simp only [load_cell, store_cell, Option.bind_eq_bind, Option.bind_some, get_boardOf,
    Equiv.symm_apply_apply]
  cases h : s c <;> simp [get_set]

theorem swept_step (s : Cell → Bool) (c : Cell) (u : Life) (h : Swept s (index c : ℕ) u) :
    ∃ v, updateCell (boardOf s) (coord c).1 (coord c).2 u = some v ∧
      Swept s ((index c : ℕ) + 1) v := by
  refine ⟨_, updateCell_run s c u, ?_, ?_⟩
  · intro d
    simp only [get_set, h.1 d]
    by_cases hd : d = c
    · subst d
      simp
    · have hne : ¬index d = index c := fun he => hd (index.injective he)
      have hval : ((index d : Fin size) : ℕ) ≠ ((index c : Fin size) : ℕ) :=
        fun he => hne (Fin.ext he)
      have hlt : ((((index d : Fin size) : ℕ) : ℤ) < ((index c : Fin size) : ℕ) + 1) ↔
          (((index d : Fin size) : ℕ) : ℤ) < ((index c : Fin size) : ℕ) := by omega
      simp only [hne, if_false, hlt]
  · simp only [h.2]
    rw [← Finset.sum_erase_add _ _ (Finset.mem_univ c), ← Finset.sum_erase_add _ _ (Finset.mem_univ c)]
    simp only [lt_self_iff_false, if_false, add_zero, lt_add_one, if_true]
    congr 1
    apply Finset.sum_congr rfl
    intro d hd
    have hval : ((index d : Fin size) : ℕ) ≠ ((index c : Fin size) : ℕ) :=
      fun he => (Finset.ne_of_mem_erase hd) (index.injective (Fin.ext he))
    have hlt : ((((index d : Fin size) : ℕ) : ℤ) < ((index c : Fin size) : ℕ) + 1) ↔
        (((index d : Fin size) : ℕ) : ℤ) < ((index c : Fin size) : ℕ) := by omega
    simp only [hlt]

theorem swept_end {s : Cell → Bool} {u : Life} (h : Swept s size u) :
    u = ⟨boardOf (step s), population (step s)⟩ := by
  obtain ⟨hboard, hliving⟩ := h
  have hall : ∀ c, (((index c : Fin size) : ℕ) : ℤ) < size := by
    intro c
    have hc := (index c).isLt
    omega
  have hb : u.board = boardOf (step s) := by
    apply ext_get
    intro j
    obtain ⟨c, rfl⟩ := index.surjective j
    rw [hboard, if_pos (hall c), get_boardOf, Equiv.symm_apply_apply]
  have hl : u.livingCells = population (step s) := by
    rw [hliving, population, Finset.card_filter]
    push_cast
    apply Finset.sum_congr rfl
    intro c _
    rw [if_pos (hall c)]
    cases step s c <;> rfl
  cases u
  simp only at hb hl
  rw [hb, hl]

theorem update_boardOf (s : Cell → Bool) (living : ℤ) :
    update ⟨boardOf s, living⟩ = some ⟨boardOf (step s), population (step s)⟩ := by
  have hinit : Swept s 0 ⟨boardOf s, 0⟩ := by
    constructor
    · intro c
      rw [if_neg (by omega), get_boardOf, Equiv.symm_apply_apply]
    · refine (Finset.sum_eq_zero ?_).symm
      intro c _
      rw [if_neg (by omega)]
  obtain ⟨u, hu, hend⟩ := forUp_inv 0 boardRows (⟨boardOf s, 0⟩ : Life)
    (fun row u => forUp 0 boardCols u fun col u => updateCell (boardOf s) row col u)
    (fun row u => Swept s (row * boardCols) u) (by omega) (by simpa using hinit) (by
      intro row u hrow hrow' hI
      obtain ⟨v, hv, hJ⟩ := forUp_inv 0 boardCols u
        (fun col u => updateCell (boardOf s) row col u)
        (fun col u => Swept s (row * boardCols + col) u) (by omega) (by simpa using hI) (by
          intro col u hcol hcol' hI
          obtain ⟨c, hc⟩ := exists_cell ⟨hrow, hrow', hcol, hcol'⟩
          have hidx := index_val c
          rw [hc] at hidx
          obtain ⟨v, hv, hJ⟩ := swept_step s c u (by rw [hidx]; exact hI)
          rw [hc] at hv
          rw [hidx, add_assoc] at hJ
          exact ⟨v, hv, hJ⟩)
      refine ⟨v, hv, ?_⟩
      rwa [add_mul, one_mul])
  have hlast : Swept s size u := by
    have hsize : ((size : ℕ) : ℤ) = (boardRows : ℤ) * boardCols := rfl
    rwa [hsize]
  rw [← swept_end hlast]
  exact hu

theorem updates_boardOf (s : Cell → Bool) (living : ℤ) (n : ℕ) :
    ∃ l, updates n ⟨boardOf s, living⟩ = some ⟨boardOf (generation neighbours lifeRule n s), l⟩ ∧
      (1 ≤ n → l = population (generation neighbours lifeRule n s)) := by
  induction n with
  | zero => exact ⟨living, rfl, by omega⟩
  | succ n ih =>
    obtain ⟨l, hl, _⟩ := ih
    refine ⟨population (generation neighbours lifeRule (n + 1) s), ?_, fun _ => rfl⟩
    rw [updates, hl, Option.bind_some, update_boardOf, generation_succ]

theorem updates_run {start : Life} (hb : Binary start.board) (n : ℕ) :
    ∃ l, updates n start =
        some ⟨boardOf (generation neighbours lifeRule n (live start.board)), l⟩ ∧
      (1 ≤ n → l = population (generation neighbours lifeRule n (live start.board))) := by
  have h := updates_boardOf (live start.board) start.livingCells n
  rwa [boardOf_live hb] at h

/-- Every run of `update` from a board of zeros and ones iterates the rules of
the README, stays inside the array and keeps `living_cells` exact. -/
theorem updates_iterate_rules (start : Life) (hb : Binary start.board) (n : ℕ) :
    ∃ l, updates n start = some l ∧ Binary l.board ∧
      (∀ c, live l.board c = generation neighbours lifeRule n (live start.board) c) ∧
      (1 ≤ n → l.livingCells = (Finset.univ.filter (fun c => l.board.get (index c) = 1)).card) := by
  obtain ⟨l, hl, hliving⟩ := updates_run hb n
  refine ⟨_, hl, binary_boardOf _, fun c => by rw [live_boardOf], ?_⟩
  intro hn
  have hcell : ∀ c, (boardOf (generation neighbours lifeRule n (live start.board))).get (index c) = 1 ↔
      generation neighbours lifeRule n (live start.board) c = true := by
    intro c
    rw [get_boardOf, Equiv.symm_apply_apply]
    cases generation neighbours lifeRule n (live start.board) c <;> simp
  rw [hliving hn, population]
  simp only [hcell]

def pentomino (c : Cell) : Bool :=
  decide (coord c ∈ [((21 : ℤ), (90 : ℤ)), (21, 91), (22, 89), (22, 90), (23, 90)])

theorem updates_iterate_rules_pentomino :
    ∃ l, updates 3 ⟨boardOf pentomino, 0⟩ = some l ∧ Binary l.board ∧
      (∀ c, live l.board c = generation neighbours lifeRule 3 (live (boardOf pentomino)) c) ∧
      (1 ≤ 3 → l.livingCells = (Finset.univ.filter (fun c => l.board.get (index c) = 1)).card) :=
  updates_iterate_rules ⟨boardOf pentomino, 0⟩ (binary_boardOf pentomino) 3

end Stage0.LifeUpdate
