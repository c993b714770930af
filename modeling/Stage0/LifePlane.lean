import Mathlib
import Stage0.LifeUpdate

set_option autoImplicit false

/-!
# The board as a window on the plane

Until a live cell reaches the border, the clipped board is Conway's Life on
the whole plane `ℤ × ℤ`, started from the board surrounded by dead cells.
-/
namespace Stage0.LifePlane
open BoundedLoops Automaton LifeBoard LifeUpdate

def planeNeighbours (p : ℤ × ℤ) : Finset (ℤ × ℤ) :=
  {(p.1 - 1, p.2 - 1), (p.1 - 1, p.2), (p.1 - 1, p.2 + 1), (p.1, p.2 - 1),
    (p.1, p.2 + 1), (p.1 + 1, p.2 - 1), (p.1 + 1, p.2), (p.1 + 1, p.2 + 1)}

theorem mem_planeNeighbours {p q : ℤ × ℤ} : q ∈ planeNeighbours p ↔ chebyshev p q = 1 := by
  rw [chebyshev_eq_one_iff]
  simp only [planeNeighbours, Finset.mem_insert, Finset.mem_singleton, Prod.ext_iff]
  omega

theorem neighbours_clip (c d : Cell) : d ∈ neighbours c ↔ coord d ∈ planeNeighbours (coord c) := by
  rw [mem_neighbours, mem_planeNeighbours]

def OnBorder (c : Cell) : Prop :=
  (c.1 : ℕ) = 0 ∨ (c.1 : ℕ) + 1 = boardRows ∨ (c.2 : ℕ) = 0 ∨ (c.2 : ℕ) + 1 = boardCols

theorem interior_of_border {s : Cell → Bool} (h : ∀ c, OnBorder c → s c = false) :
    Interior coord planeNeighbours s := by
  intro d hd p hp
  have hoff : ¬OnBorder d := by
    intro hb
    rw [h d hb] at hd
    cases hd
  have hnear := (chebyshev_eq_one_iff p (coord d)).1 (mem_planeNeighbours.1 hp)
  have h1 := d.1.isLt
  have h2 := d.2.isLt
  rw [coord_fst, coord_snd] at hnear
  rw [mem_range_coord]
  unfold OnBorder at hoff
  omega

/-- Refinement of the plane by the bounded board, up to the first generation
that follows one with a live cell on the border. -/
theorem updates_refine_plane (start : Life) (hb : Binary start.board) (n : ℕ)
    (border : ∀ k < n, ∀ l, updates k start = some l → ∀ c, OnBorder c →
      l.board.get (index c) = 0) :
    ∃ l, updates n start = some l ∧
      (∀ c, live l.board c = generation planeNeighbours lifeRule n
        (surround coord (live start.board)) (coord c)) ∧
      ∀ p : ℤ × ℤ, ¬(0 ≤ p.1 ∧ p.1 < boardRows ∧ 0 ≤ p.2 ∧ p.2 < boardCols) →
        generation planeNeighbours lifeRule n (surround coord (live start.board)) p = false := by
  have inner : ∀ k < n, Interior coord planeNeighbours
      (generation neighbours lifeRule k (live start.board)) := by
    intro k hk
    obtain ⟨l, hl, _⟩ := updates_run hb k
    apply interior_of_border
    intro c hc
    have hzero := border k hk _ hl c hc
    rw [get_boardOf, Equiv.symm_apply_apply] at hzero
    simpa using hzero
  have hplane := generation_surround coord neighbours_clip rfl (live start.board) n inner
  obtain ⟨l, hl, _⟩ := updates_run hb n
  refine ⟨_, hl, ?_, ?_⟩
  · intro c
    rw [live_boardOf, hplane, surround_apply]
  · intro p hp
    rw [hplane, surround_outside]
    rwa [mem_range_coord]

theorem pentomino_off_border (c : Cell) (h : OnBorder c) :
    (boardOf pentomino).get (index c) = 0 := by
  have hoff : pentomino c = false := by
    simp only [pentomino, List.mem_cons, List.not_mem_nil, or_false, decide_eq_false_iff_not,
      Prod.ext_iff, coord_fst, coord_snd]
    simp only [OnBorder, boardRows, boardCols] at h
    omega
  rw [get_boardOf, Equiv.symm_apply_apply, hoff]
  rfl

theorem updates_refine_plane_pentomino :
    ∃ l, updates 1 ⟨boardOf pentomino, 0⟩ = some l ∧
      (∀ c, live l.board c = generation planeNeighbours lifeRule 1
        (surround coord (live (boardOf pentomino))) (coord c)) ∧
      ∀ p : ℤ × ℤ, ¬(0 ≤ p.1 ∧ p.1 < boardRows ∧ 0 ≤ p.2 ∧ p.2 < boardCols) →
        generation planeNeighbours lifeRule 1
          (surround coord (live (boardOf pentomino))) p = false := by
  apply updates_refine_plane ⟨boardOf pentomino, 0⟩ (binary_boardOf pentomino) 1
  intro k hk l hl c hc
  obtain rfl : k = 0 := by omega
  have hstart : (⟨boardOf pentomino, 0⟩ : Life) = l := Option.some.inj hl
  rw [← hstart]
  exact pentomino_off_border c hc

end Stage0.LifePlane
