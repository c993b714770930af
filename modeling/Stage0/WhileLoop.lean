import Mathlib

set_option autoImplicit false

/-!
# Loops without a bound

A body either goes on with a new state or leaves the loop with a result. A run has fuel,
one unit for a round.
-/
namespace Stage0.WhileLoop

variable {σ α : Type*}

def run (body : σ → σ ⊕ α) : ℕ → σ → Option α
  | 0, _ => none
  | fuel + 1, s =>
    match body s with
    | .inl u => run body fuel u
    | .inr a => some a

/-- The states at the head of the loop after `n` rounds. -/
inductive Visits (body : σ → σ ⊕ α) (s : σ) : ℕ → σ → Prop where
  | start : Visits body s 0 s
  | next {n : ℕ} {u v : σ} (head : Visits body s n u) (round : body u = .inl v) :
      Visits body s (n + 1) v

variable {body : σ → σ ⊕ α} {s : σ}

theorem run_next {u : σ} (h : body s = .inl u) (fuel : ℕ) :
    run body (fuel + 1) s = run body fuel u := by
  rw [run, h]

theorem run_exit {a : α} (h : body s = .inr a) (fuel : ℕ) : run body (fuel + 1) s = some a := by
  rw [run, h]

theorem run_mono {a : α} {fuel fuel' : ℕ} (hle : fuel ≤ fuel') (h : run body fuel s = some a) :
    run body fuel' s = some a := by
  induction fuel generalizing fuel' s with
  | zero => cases h
  | succ fuel ih =>
    obtain ⟨more, rfl⟩ : ∃ more, fuel' = more + 1 := ⟨fuel' - 1, by omega⟩
    cases hbody : body s with
    | inl u =>
      rw [run_next hbody] at h ⊢
      exact ih (by omega) h
    | inr b =>
      rw [run_exit hbody] at h ⊢
      exact h

theorem run_visits {n : ℕ} {u : σ} (h : Visits body s n u) (fuel : ℕ) :
    run body (n + fuel) s = run body fuel u := by
  induction h generalizing fuel with
  | start => rw [Nat.zero_add]
  | next _ hround ih => rw [Nat.add_assoc, Nat.add_comm 1, ih, run_next hround]

theorem run_congr {body' : σ → σ ⊕ α} (h : ∀ n u, Visits body s n u → body u = body' u)
    (fuel : ℕ) : run body fuel s = run body' fuel s := by
  have hfrom : ∀ n u, Visits body s n u → run body fuel u = run body' fuel u := by
    induction fuel with
    | zero => exact fun n u _ => rfl
    | succ fuel ih =>
      intro n u hvisit
      have hsame := h n u hvisit
      cases hbody : body u with
      | inl v => rw [run_next hbody, run_next (hsame ▸ hbody), ih (n + 1) v (.next hvisit hbody)]
      | inr a => rw [run_exit hbody, run_exit (hsame ▸ hbody)]
  exact hfrom 0 s .start

theorem run_map {β : Type*} {body' : σ → σ ⊕ β} {f : α → β}
    (h : ∀ s, body' s = (body s).map id f) (fuel : ℕ) (s : σ) :
    run body' fuel s = (run body fuel s).map f := by
  induction fuel generalizing s with
  | zero => rfl
  | succ fuel ih =>
    cases hbody : body s with
    | inl u =>
      have hnext : body' s = .inl u := by rw [h, hbody]; rfl
      rw [run_next hbody, run_next hnext, ih]
    | inr a =>
      have hexit : body' s = .inr (f a) := by rw [h, hbody]; rfl
      rw [run_exit hbody, run_exit hexit]
      rfl

/-- A loop whose every round keeps `I` and lowers `μ` returns, within `μ` rounds, a result
that an exit from `I` can have. -/
theorem run_total {I : σ → Prop} {Q : α → Prop} (μ : σ → ℕ)
    (round : ∀ s, I s → (∃ u, body s = .inl u ∧ I u ∧ μ u < μ s) ∨ ∃ a, body s = .inr a ∧ Q a)
    (h : I s) : ∃ a, run body (μ s + 1) s = some a ∧ Q a := by
  induction hm : μ s using Nat.strong_induction_on generalizing s with
  | _ m ih =>
    subst hm
    rcases round s h with ⟨u, hu, hI, hlt⟩ | ⟨a, ha, hQ⟩
    · obtain ⟨a, hrun, hQ⟩ := ih (μ u) hlt hI rfl
      refine ⟨a, ?_, hQ⟩
      rw [run_next hu]
      exact run_mono (by omega) hrun
    · exact ⟨a, run_exit ha _, hQ⟩

theorem run_forever {I : σ → Prop} (round : ∀ s, I s → ∃ u, body s = .inl u ∧ I u) (h : I s)
    (fuel : ℕ) : run body fuel s = none := by
  induction fuel generalizing s with
  | zero => rfl
  | succ fuel ih =>
    obtain ⟨u, hu, hI⟩ := round s h
    rw [run_next hu, ih hI]

theorem visits_invariant {I : σ → Prop} (round : ∀ s u, I s → body s = .inl u → I u) (h : I s)
    {n : ℕ} {u : σ} (hv : Visits body s n u) : I u := by
  induction hv with
  | start => exact h
  | next _ hround ih => exact round _ _ ih hround

end Stage0.WhileLoop
