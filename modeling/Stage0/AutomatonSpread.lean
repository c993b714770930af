import Mathlib
import Stage0.Automaton

set_option autoImplicit false

/-!
# How far an automaton sees

In `n` generations a cell sees the cells that `n` steps from neighbour to neighbour
reach. A bijection that takes neighbours to neighbours takes runs to runs.
-/
namespace Stage0.AutomatonSpread
open Automaton

variable {C D : Type*}

/-- The cells within `n` steps from neighbour to neighbour. -/
def ball (nbrs : C → Finset C) : ℕ → C → Set C
  | 0, c => {c}
  | n + 1, c => {e | e ∈ ball nbrs n c ∨ ∃ d ∈ nbrs c, e ∈ ball nbrs n d}

section Ball

variable {nbrs : C → Finset C} {rule : Bool → ℕ → Bool}

theorem next_congr {s t : C → Bool} {c : C} (hself : s c = t c) (hnbrs : ∀ d ∈ nbrs c, s d = t d) :
    next nbrs rule s c = next nbrs rule t c := by
  have hfilter : (nbrs c).filter (fun d => s d = true) = (nbrs c).filter (fun d => t d = true) := by
    apply Finset.filter_congr
    intro d hd
    rw [hnbrs d hd]
  rw [next, next, liveCount, liveCount, hself, hfilter]

/-- Patterns that agree on a ball agree in its centre after as many generations. -/
theorem generation_congr (n : ℕ) {s t : C → Bool} {c : C} (h : ∀ e ∈ ball nbrs n c, s e = t e) :
    generation nbrs rule n s c = generation nbrs rule n t c := by
  induction n generalizing c with
  | zero => exact h c rfl
  | succ n ih =>
    rw [generation_succ, generation_succ]
    apply next_congr
    · exact ih (fun e he => h e (.inl he))
    · intro d hd
      exact ih (fun e he => h e (.inr ⟨d, hd, he⟩))

theorem generation_dead (quiet : rule false 0 = false) (n : ℕ) :
    generation nbrs rule n (fun _ => false) = fun _ => false := by
  induction n with
  | zero => rfl
  | succ n ih =>
    funext c
    rw [generation_succ, ih, next, liveCount_eq_zero (fun _ _ => rfl), quiet]

theorem generation_live (quiet : rule false 0 = false) {n : ℕ} {s : C → Bool} {c : C}
    (h : generation nbrs rule n s c = true) : ∃ e ∈ ball nbrs n c, s e = true := by
  by_contra hnone
  push Not at hnone
  have hsame : ∀ e ∈ ball nbrs n c, s e = (fun _ => false) e := by
    intro e he
    exact Bool.eq_false_of_not_eq_true (hnone e he)
  rw [generation_congr n hsame, generation_dead quiet] at h
  cases h

end Ball

section Symmetry

variable (σ : C ≃ D) {nbrs : C → Finset C} {nbrs' : D → Finset D} (rule : Bool → ℕ → Bool)

theorem liveCount_comp (h : ∀ c d, σ d ∈ nbrs' (σ c) ↔ d ∈ nbrs c) (s : D → Bool) (c : C) :
    liveCount nbrs (s ∘ σ) c = liveCount nbrs' s (σ c) := by
  have himage : (nbrs' (σ c)).filter (fun d => s d = true) =
      ((nbrs c).filter (fun d => (s ∘ σ) d = true)).map σ.toEmbedding := by
    ext d
    obtain ⟨e, rfl⟩ := σ.surjective d
    simp only [Finset.mem_filter, Finset.mem_map_equiv, σ.symm_apply_apply, h, Function.comp_apply]
  rw [liveCount, liveCount, himage, Finset.card_map]

theorem generation_comp (h : ∀ c d, σ d ∈ nbrs' (σ c) ↔ d ∈ nbrs c) (n : ℕ) (s : D → Bool) :
    generation nbrs rule n (s ∘ σ) = generation nbrs' rule n s ∘ σ := by
  induction n with
  | zero => rfl
  | succ n ih =>
    funext c
    rw [generation_succ, ih, next, liveCount_comp σ h, Function.comp_apply, Function.comp_apply,
      generation_succ, next]

end Symmetry

end Stage0.AutomatonSpread
