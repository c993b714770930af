import Mathlib
import Stage0.LifeUpdate

set_option autoImplicit false

/-!
# Separated patterns

Patterns whose live cells stay three cells away from each other do not see each
other: no cell of the board has live cells of both around it.
-/
namespace Stage0.LifeUnion
open Automaton LifeBoard LifeUpdate

/-- The cellwise union of two boards of zeros and ones. -/
def overlay (a b : Board) : Board := Vector.ofFn (fun j => max (a.get j) (b.get j))

theorem overlay_boardOf (s t : Cell → Bool) :
    overlay (boardOf s) (boardOf t) = boardOf (union s t) := by
  apply BoundedLoops.ext_get
  intro j
  simp only [overlay, Vector.get_eq_getElem, Vector.getElem_ofFn]
  rw [← Vector.get_eq_getElem, ← Vector.get_eq_getElem, ← Vector.get_eq_getElem, get_boardOf,
    get_boardOf, get_boardOf, union]
  cases s (index.symm j) <;> cases t (index.symm j) <;> rfl

/-- Every live cell of `s` is at least three cells away from every live cell of `t`. -/
def Far (s t : Cell → Bool) : Prop :=
  ∀ c d, s c = true → t d = true → 3 ≤ chebyshev (coord c) (coord d)

theorem chebyshev_le_iff (p q : ℤ × ℤ) (n : ℤ) : chebyshev p q ≤ n ↔
    p.1 - q.1 ≤ n ∧ q.1 - p.1 ≤ n ∧ p.2 - q.2 ≤ n ∧ q.2 - p.2 ≤ n := by
  rw [chebyshev, max_le_iff, abs_le, abs_le]
  omega

theorem seen_near {s : Cell → Bool} {c : Cell} (h : ¬Unseen neighbours s c) :
    ∃ d, s d = true ∧ chebyshev (coord c) (coord d) ≤ 1 := by
  by_contra hnone
  push Not at hnone
  refine h ⟨?_, ?_⟩
  · refine Bool.eq_false_of_not_eq_true fun hc => ?_
    have hfar := hnone c hc
    rw [← not_le, chebyshev_le_iff] at hfar
    omega
  · intro d hd
    refine Bool.eq_false_of_not_eq_true fun hlive => ?_
    have hfar := hnone d hlive
    rw [mem_neighbours.1 hd] at hfar
    omega

theorem far_apart {s t : Cell → Bool} (far : Far s t) : Apart neighbours s t := by
  intro c
  by_contra h
  obtain ⟨hs, ht⟩ := not_or.1 h
  obtain ⟨d, hd, hnear⟩ := seen_near hs
  obtain ⟨d', hd', hnear'⟩ := seen_near ht
  have hdist := far d d' hd hd'
  rw [← not_lt, ← Int.le_sub_one_iff, chebyshev_le_iff] at hdist
  rw [chebyshev_le_iff] at hnear hnear'
  omega

theorem population_union {s t : Cell → Bool} (h : ∀ c, s c = true → t c = false) :
    population (union s t) = population s + population t := by
  have hdisj : Disjoint (Finset.univ.filter (fun c => s c = true))
      (Finset.univ.filter (fun c => t c = true)) := by
    rw [Finset.disjoint_filter]
    intro c _ hs ht
    rw [h c hs] at ht
    cases ht
  rw [population, population, population, ← Finset.card_union_of_disjoint hdisj,
    ← Finset.filter_or]
  simp only [union, Bool.or_eq_true]

/-- Patterns that stay three cells apart evolve as if each were alone. -/
theorem updates_overlay (a b : Life) (living : ℤ) (ha : Binary a.board) (hb : Binary b.board)
    (n : ℕ) (hn : 1 ≤ n)
    (far : ∀ k < n, ∀ a' b', updates k a = some a' → updates k b = some b' →
      Far (live a'.board) (live b'.board)) :
    ∃ a' b', updates n a = some a' ∧ updates n b = some b' ∧
      updates n ⟨overlay a.board b.board, living⟩ =
        some ⟨overlay a'.board b'.board, a'.livingCells + b'.livingCells⟩ := by
  have hapart : ∀ k < n, Apart neighbours (generation neighbours lifeRule k (live a.board))
      (generation neighbours lifeRule k (live b.board)) := by
    intro k hk
    obtain ⟨l, hl, -⟩ := updates_run ha k
    obtain ⟨m, hm, -⟩ := updates_run hb k
    have hfar := far k hk _ _ hl hm
    rw [live_boardOf, live_boardOf] at hfar
    exact far_apart hfar
  obtain ⟨l, hl, hl'⟩ := updates_run ha n
  obtain ⟨m, hm, hm'⟩ := updates_run hb n
  have hover : overlay a.board b.board = boardOf (union (live a.board) (live b.board)) := by
    rw [← overlay_boardOf, boardOf_live ha, boardOf_live hb]
  obtain ⟨u, hu, hu'⟩ := updates_boardOf (union (live a.board) (live b.board)) living n
  have hquiet : lifeRule false 0 = false := rfl
  have hunion := generation_union hquiet n hapart
  have hcount : u = l + m := by
    obtain ⟨k, rfl⟩ : ∃ k, n = k + 1 := ⟨n - 1, by omega⟩
    rw [hu' hn, hl' hn, hm' hn, hunion, population_union, Nat.cast_add]
    intro c hc
    rw [generation_succ] at hc ⊢
    exact next_disjoint hquiet (hapart k (by omega)) hc
  refine ⟨_, _, hl, hm, ?_⟩
  rw [hover, hu, hunion, overlay_boardOf, hcount]

def block (c : Cell) : Bool :=
  decide (20 ≤ (coord c).1 ∧ (coord c).1 ≤ 21 ∧ (coord c).2 ≤ 1)

theorem updates_overlay_block : ∃ a' b', updates 1 ⟨boardOf pentomino, 0⟩ = some a' ∧
    updates 1 ⟨boardOf block, 0⟩ = some b' ∧
    updates 1 ⟨overlay (boardOf pentomino) (boardOf block), 0⟩ =
      some ⟨overlay a'.board b'.board, a'.livingCells + b'.livingCells⟩ := by
  have hfar : Far pentomino block := by
    intro c d hc hd
    have hright : ∀ p ∈ [((21 : ℤ), (90 : ℤ)), (21, 91), (22, 89), (22, 90), (23, 90)], 89 ≤ p.2 := by
      decide
    have hcol := hright _ (of_decide_eq_true hc)
    have hblock := of_decide_eq_true hd
    rw [← not_lt, ← Int.le_sub_one_iff, chebyshev_le_iff]
    omega
  refine updates_overlay ⟨boardOf pentomino, 0⟩ ⟨boardOf block, 0⟩ 0 (binary_boardOf pentomino)
    (binary_boardOf block) 1 (le_refl 1) (fun k hk a' b' ha' hb' => ?_)
  obtain rfl : k = 0 := by omega
  rw [← Option.some.inj ha', ← Option.some.inj hb', live_boardOf, live_boardOf]
  exact hfar

end Stage0.LifeUnion
