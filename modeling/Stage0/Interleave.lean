import Mathlib

set_option autoImplicit false

/-!
# Processes over one shared state

A schedule names the process that takes the next step and how that step ends.
A local fact is kept through a whole schedule when the process's own steps keep
it and the steps of the others guarantee what it relies on.
-/
namespace Stage0.Interleave

variable {ι σ τ lam : Type} [DecidableEq ι]

abbrev Step (ι lam σ τ : Type) := ι → lam → σ → τ → Option (σ × τ)

structure System (ι σ τ : Type) where
  shared : σ
  procs : ι → τ

def stepOf (step : Step ι lam σ τ) (i : ι) (a : lam) (s : System ι σ τ) : Option (System ι σ τ) :=
  (step i a s.shared (s.procs i)).map (fun r => ⟨r.1, Function.update s.procs i r.2⟩)

def run (step : Step ι lam σ τ) : List (ι × lam) → System ι σ τ → Option (System ι σ τ)
  | [], s => some s
  | (i, a) :: schedule, s => (stepOf step i a s).bind (run step schedule)

theorem stepOf_eq_some {step : Step ι lam σ τ} {i : ι} {a : lam} {s u : System ι σ τ}
    (h : stepOf step i a s = some u) :
    step i a s.shared (s.procs i) = some (u.shared, u.procs i) ∧
      u.procs = Function.update s.procs i (u.procs i) := by
  unfold stepOf at h
  obtain ⟨⟨shared, proc⟩, hr, rfl⟩ := Option.map_eq_some_iff.1 h
  simp only [Function.update_self]
  exact ⟨hr, trivial⟩

theorem run_invariant {step : Step ι lam σ τ} {good : lam → Prop} (I : System ι σ τ → Prop)
    (keep : ∀ i a s u, good a → I s → stepOf step i a s = some u → I u)
    (schedule : List (ι × lam)) (hgood : ∀ p ∈ schedule, good p.2) {s u : System ι σ τ}
    (hs : I s) (h : run step schedule s = some u) : I u := by
  induction schedule generalizing s with
  | nil => exact Option.some.inj h ▸ hs
  | cons p schedule ih =>
    obtain ⟨v, hv, h⟩ := Option.bind_eq_some_iff.1 h
    have hp := hgood p List.mem_cons_self
    exact ih (fun q hq => hgood q (List.mem_cons_of_mem _ hq)) (keep _ _ _ _ hp hs hv) h

theorem run_append (step : Step ι lam σ τ) (schedule later : List (ι × lam)) (s : System ι σ τ) :
    run step (schedule ++ later) s = (run step schedule s).bind (run step later) := by
  induction schedule generalizing s with
  | nil => rfl
  | cons p schedule ih =>
    simp only [List.cons_append, run, Option.bind_assoc, ih]

theorem run_trans {step : Step ι lam σ τ} {schedule later : List (ι × lam)} {s u v : System ι σ τ}
    (h : run step schedule s = some u) (hlater : run step later u = some v) :
    run step (schedule ++ later) s = some v := by
  rw [run_append, h, Option.bind_some, hlater]

theorem run_batch {step : Step ι lam σ τ} {l : List ι} (hl : l.Nodup) (a : ι → lam) (x : σ)
    (f : ι → τ) {s : System ι σ τ} (hx : s.shared = x)
    (hstep : ∀ i ∈ l, step i (a i) x (s.procs i) = some (x, f i)) :
    run step (l.map (fun i => (i, a i))) s =
      some ⟨x, fun i => if i ∈ l then f i else s.procs i⟩ := by
  induction l generalizing s with
  | nil =>
    subst hx
    rfl
  | cons i l ih =>
    obtain ⟨hi, hl⟩ := List.nodup_cons.1 hl
    have hfirst : stepOf step i (a i) s = some ⟨x, Function.update s.procs i (f i)⟩ := by
      rw [stepOf, hx, hstep i List.mem_cons_self]
      rfl
    have hother : ∀ j ∈ l, j ≠ i := fun j hj hji => hi (hji ▸ hj)
    have hrest : ∀ j ∈ l, step j (a j) x (Function.update s.procs i (f i) j) = some (x, f j) := by
      intro j hj
      rw [Function.update_of_ne (hother j hj)]
      exact hstep j (List.mem_cons_of_mem i hj)
    rw [List.map_cons, run, hfirst, Option.bind_some, @ih hl ⟨x, Function.update s.procs i (f i)⟩ rfl hrest]
    congr 2
    funext j
    by_cases hj : j = i
    · subst hj
      simp only [if_neg hi, Function.update_self, List.mem_cons_self, if_true]
    · simp only [List.mem_cons, hj, false_or, Function.update_of_ne hj]

/-- Rely and guarantee: `R` is what every step guarantees about the shared state. -/
theorem stepOf_local {step : Step ι lam σ τ} (R : σ → σ → Prop) (L : ι → σ → τ → Prop)
    (stable : ∀ i x y t, R x y → L i x t → L i y t) {i : ι} {a : lam} {s u : System ι σ τ}
    (h : stepOf step i a s = some u) (guarantee : R s.shared u.shared)
    (own : L i u.shared (u.procs i)) (hs : ∀ j, L j s.shared (s.procs j)) :
    ∀ j, L j u.shared (u.procs j) := by
  intro j
  by_cases hj : j = i
  · exact hj ▸ own
  · rw [(stepOf_eq_some h).2, Function.update_of_ne hj]
    exact stable j _ _ _ guarantee (hs j)

theorem stepOf_sum {step : Step ι lam σ τ} (f : ι → τ → ℕ) {i : ι} {a : lam}
    {s u : System ι σ τ} (h : stepOf step i a s = some u) (S : Finset ι) :
    (∑ j ∈ S, f j (u.procs j)) + (if i ∈ S then f i (s.procs i) else 0) =
      (∑ j ∈ S, f j (s.procs j)) + (if i ∈ S then f i (u.procs i) else 0) := by
  have hother : ∀ j, j ≠ i → u.procs j = s.procs j := by
    intro j hj
    rw [(stepOf_eq_some h).2, Function.update_of_ne hj]
  by_cases hi : i ∈ S
  · have hrest : ∑ j ∈ S.erase i, f j (u.procs j) = ∑ j ∈ S.erase i, f j (s.procs j) := by
      apply Finset.sum_congr rfl
      intro j hj
      rw [hother j (Finset.ne_of_mem_erase hj)]
    rw [if_pos hi, if_pos hi, ← Finset.sum_erase_add S (fun j => f j (u.procs j)) hi,
      ← Finset.sum_erase_add S (fun j => f j (s.procs j)) hi, hrest]
    omega
  · rw [if_neg hi, if_neg hi, add_zero, add_zero]
    apply Finset.sum_congr rfl
    intro j hj
    rw [hother j (fun he => hi (he ▸ hj))]

end Stage0.Interleave
