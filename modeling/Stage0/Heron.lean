import Mathlib
import Stage0.WhileLoop

set_option autoImplicit false

/-!
# The reciprocals of `modern_c/control/heron.c`

The doubles are taken as exact rationals and `strtod` as any function that accepts some
strings as numbers. A first loop finds a power of two near `1 / a`, a second one refines it.
-/
namespace Stage0.Heron
open WhileLoop

def eps1m01 : ℚ := 1 - 1 / 2 ^ 1
def eps1p01 : ℚ := 1 + 1 / 2 ^ 1
def eps1m24 : ℚ := 1 - 1 / 2 ^ 24
def eps1p24 : ℚ := 1 + 1 / 2 ^ 24

/-- What the calls of `printf` print, before the numbers are rounded. -/
inductive Line where
  | eps1mo1 (v : ℚ)
  | guess (x : ℚ)
  | heron (a x prod : ℚ)
  | cannotConvert (arg : String)
  deriving DecidableEq, Repr

structure Guess where
  x : ℚ
  out : List Line

def guessBody (a : ℚ) (s : Guess) : Guess ⊕ Guess :=
  let out := s.out ++ [.guess s.x]
  let prod := a * s.x
  if prod < eps1m01 then .inl ⟨s.x * 2, out⟩
  else if eps1p01 < prod then .inl ⟨s.x * (1 / 2), out⟩
  else .inr ⟨s.x, out⟩

def heronBody (a x : ℚ) : ℚ ⊕ ℚ :=
  let prod := a * x
  if prod < eps1m24 ∨ eps1p24 < prod then .inl (x * (2 - prod))
  else .inr x

section Program

variable (strtod : String → Option ℚ) (fuel : ℕ)

def argument (arg : String) (out : List Line) : Option (List Line) :=
  match strtod arg with
  | none => some (out ++ [.cannotConvert arg])
  | some a => do
    let guess ← run (guessBody a) fuel ⟨1, out⟩
    let x ← run (heronBody a) fuel guess.x
    return guess.out ++ [.heron a x (a * x)]

def arguments : List String → List Line → Option (List Line)
  | [], out => some out
  | arg :: args, out => (argument strtod fuel arg out).bind (arguments args)

def main (argv : List String) : Option (List Line) :=
  arguments strtod fuel argv.tail [.eps1mo1 eps1m01]

end Program

/-! ### The initial guess -/

section Guess

variable {a : ℚ}

theorem guessBody_double {s : Guess} (h : a * s.x < 1 / 2) :
    guessBody a s = .inl ⟨s.x * 2, s.out ++ [.guess s.x]⟩ := by
  rw [guessBody, if_pos (by rw [eps1m01]; linarith)]

theorem guessBody_halve {s : Guess} (h : 3 / 2 < a * s.x) :
    guessBody a s = .inl ⟨s.x * (1 / 2), s.out ++ [.guess s.x]⟩ := by
  rw [guessBody, if_neg (by rw [eps1m01]; linarith), if_pos (by rw [eps1p01]; linarith)]

theorem guessBody_exit {s : Guess} (h : 1 / 2 ≤ a * s.x ∧ a * s.x ≤ 3 / 2) :
    guessBody a s = .inr ⟨s.x, s.out ++ [.guess s.x]⟩ := by
  obtain ⟨hle, hle'⟩ := h
  rw [guessBody, if_neg (by rw [eps1m01]; linarith), if_neg (by rw [eps1p01]; linarith)]

def InWindow (a x : ℚ) : Prop := 1 / 2 ≤ a * x ∧ a * x ≤ 3 / 2

theorem doubling_round {s u : Guess} (h : a * s.x ≤ 3 / 2) (round : guessBody a s = .inl u) :
    a * s.x < 1 / 2 ∧ u.x = s.x * 2 ∧ a * u.x ≤ 3 / 2 := by
  by_cases hlow : a * s.x < 1 / 2
  · rw [guessBody_double hlow] at round
    cases round
    refine ⟨hlow, rfl, ?_⟩
    change a * (s.x * 2) ≤ 3 / 2
    linarith
  · rw [guessBody_exit ⟨not_lt.1 hlow, h⟩] at round
    cases round

theorem halving_round {s u : Guess} (h : 1 / 2 ≤ a * s.x) (round : guessBody a s = .inl u) :
    3 / 2 < a * s.x ∧ u.x = s.x * (1 / 2) ∧ 1 / 2 ≤ a * u.x := by
  by_cases hhigh : 3 / 2 < a * s.x
  · rw [guessBody_halve hhigh] at round
    cases round
    refine ⟨hhigh, rfl, ?_⟩
    change 1 / 2 ≤ a * (s.x * (1 / 2))
    linarith
  · rw [guessBody_exit ⟨h, not_lt.1 hhigh⟩] at round
    cases round

theorem doubling_returns (n : ℕ) (s : Guess) (h : a * s.x ≤ 3 / 2)
    (reach : 1 / 2 ≤ a * s.x * 2 ^ n) :
    ∃ g, run (guessBody a) (n + 1) s = some g ∧ InWindow a g.x := by
  induction n generalizing s with
  | zero =>
    rw [pow_zero, mul_one] at reach
    exact ⟨_, run_exit (guessBody_exit ⟨reach, h⟩) 0, reach, h⟩
  | succ n ih =>
    by_cases hlow : a * s.x < 1 / 2
    · have hround := guessBody_double hlow
      rw [run_next hround]
      refine ih _ (doubling_round h hround).2.2 ?_
      change 1 / 2 ≤ a * (s.x * 2) * 2 ^ n
      rw [pow_succ] at reach
      linarith
    · exact ⟨_, run_exit (guessBody_exit ⟨not_lt.1 hlow, h⟩) _, not_lt.1 hlow, h⟩

theorem halving_returns (n : ℕ) (s : Guess) (h : 1 / 2 ≤ a * s.x)
    (reach : a * s.x ≤ 3 / 2 * 2 ^ n) :
    ∃ g, run (guessBody a) (n + 1) s = some g ∧ InWindow a g.x := by
  induction n generalizing s with
  | zero =>
    rw [pow_zero, mul_one] at reach
    exact ⟨_, run_exit (guessBody_exit ⟨h, reach⟩) 0, h, reach⟩
  | succ n ih =>
    by_cases hhigh : 3 / 2 < a * s.x
    · have hround := guessBody_halve hhigh
      rw [run_next hround]
      refine ih _ (halving_round h hround).2.2 ?_
      change a * (s.x * (1 / 2)) ≤ 3 / 2 * 2 ^ n
      rw [pow_succ] at reach
      linarith
    · exact ⟨_, run_exit (guessBody_exit ⟨h, not_lt.1 hhigh⟩) _, h, not_lt.1 hhigh⟩

theorem guess_returns (ha : 0 < a) (out : List Line) :
    ∃ fuel g, run (guessBody a) fuel ⟨1, out⟩ = some g ∧ InWindow a g.x := by
  by_cases h : a * 1 ≤ 3 / 2
  · obtain ⟨n, hn⟩ := pow_unbounded_of_one_lt (1 / 2 / a) (one_lt_two : (1 : ℚ) < 2)
    refine ⟨n + 1, doubling_returns n ⟨1, out⟩ h ?_⟩
    rw [div_lt_iff₀ ha] at hn
    change 1 / 2 ≤ a * 1 * 2 ^ n
    linarith
  · obtain ⟨n, hn⟩ := pow_unbounded_of_one_lt a (one_lt_two : (1 : ℚ) < 2)
    refine ⟨n + 1, halving_returns n ⟨1, out⟩ (by simp only; linarith) ?_⟩
    change a * 1 ≤ 3 / 2 * 2 ^ n
    linarith

theorem guess_one_way (out : List Line) {m n : ℕ} {s u : Guess}
    (hs : Visits (guessBody a) ⟨1, out⟩ m s) (hu : Visits (guessBody a) ⟨1, out⟩ n u) :
    ¬(a * s.x < eps1m01 ∧ eps1p01 < a * u.x) := by
  rintro ⟨hdouble, hhalve⟩
  rw [eps1m01] at hdouble
  rw [eps1p01] at hhalve
  by_cases h : a * 1 ≤ 3 / 2
  · have hle := visits_invariant (I := fun s : Guess => a * s.x ≤ 3 / 2)
      (fun s u hI hround => (doubling_round hI hround).2.2) h hu
    linarith
  · have hle := visits_invariant (I := fun s : Guess => 1 / 2 ≤ a * s.x)
      (fun s u hI hround => (halving_round hI hround).2.2) (by linarith) hs
    linarith

theorem guess_forever (ha : a ≤ 0) (out : List Line) (fuel : ℕ) :
    run (guessBody a) fuel ⟨1, out⟩ = none := by
  refine run_forever (I := fun s : Guess => a * s.x ≤ 0) ?_ (by simpa using ha) fuel
  intro s hs
  refine ⟨_, guessBody_double (by linarith), ?_⟩
  change a * (s.x * 2) ≤ 0
  linarith

theorem guess_returns_iff (out : List Line) :
    (∃ fuel g, run (guessBody a) fuel ⟨1, out⟩ = some g) ↔ 0 < a := by
  constructor
  · rintro ⟨fuel, g, hrun⟩
    by_contra ha
    rw [guess_forever (not_lt.1 ha)] at hrun
    cases hrun
  · intro ha
    obtain ⟨fuel, g, hrun, -⟩ := guess_returns ha out
    exact ⟨fuel, g, hrun⟩

end Guess

/-! ### The refinement -/

section Refine

variable {a : ℚ}

theorem residual_squared (a x : ℚ) : 1 - a * (x * (2 - a * x)) = (1 - a * x) ^ 2 := by
  ring

theorem heronBody_next {x u : ℚ} (h : heronBody a x = .inl u) :
    1 - a * u = (1 - a * x) ^ 2 := by
  simp only [heronBody] at h
  split at h
  · cases h
    exact residual_squared a x
  · cases h

theorem heronBody_exit {x : ℚ} (h : |1 - a * x| ≤ 1 / 2 ^ 24) : heronBody a x = .inr x := by
  obtain ⟨hlow, hhigh⟩ := abs_le.1 h
  rw [heronBody, if_neg]
  rw [eps1m24, eps1p24]
  rintro (hlt | hlt) <;> linarith

/-- With `n` rounds left the residual is the square of the square, `5 - n` times over. -/
theorem heron_returns (n : ℕ) (hn : n ≤ 5) (x : ℚ) (h : |1 - a * x| ≤ (1 / 2) ^ 2 ^ (5 - n)) :
    ∃ y, run (heronBody a) (n + 1) x = some y ∧ |1 - a * y| ≤ 1 / 2 ^ 24 := by
  induction n generalizing x with
  | zero =>
    have hsmall : |1 - a * x| ≤ 1 / 2 ^ 24 := h.trans (by norm_num)
    exact ⟨x, run_exit (heronBody_exit hsmall) 0, hsmall⟩
  | succ n ih =>
    by_cases hsmall : |1 - a * x| ≤ 1 / 2 ^ 24
    · exact ⟨x, run_exit (heronBody_exit hsmall) _, hsmall⟩
    · have hround : heronBody a x = .inl (x * (2 - a * x)) := by
        rw [heronBody, if_pos]
        by_contra hin
        rw [not_or, not_lt, not_lt, eps1m24, eps1p24] at hin
        exact hsmall (abs_le.2 ⟨by linarith, by linarith⟩)
      rw [run_next hround]
      refine ih (by omega) _ ?_
      have hexp : 2 ^ (5 - n) = 2 ^ (5 - (n + 1)) * 2 := by
        rw [← pow_succ]
        congr 1
        omega
      rw [residual_squared, abs_pow, hexp, pow_mul]
      exact pow_le_pow_left₀ (abs_nonneg _) h 2

end Refine

/-- For a positive number the guess ends in its window, never both doubling and halving, and
at most five refinements, each squaring the residual, end within `2 ^ -24` of the reciprocal. -/
theorem heron_converges (a : ℚ) (ha : 0 < a) (out : List Line) :
    (∃ fuel g x, run (guessBody a) fuel ⟨1, out⟩ = some g ∧ 1 / 2 ≤ a * g.x ∧ a * g.x ≤ 3 / 2 ∧
      run (heronBody a) (5 + 1) g.x = some x ∧ 1 - 1 / 2 ^ 24 ≤ a * x ∧ a * x ≤ 1 + 1 / 2 ^ 24) ∧
    (∀ m n s u, Visits (guessBody a) ⟨1, out⟩ m s → Visits (guessBody a) ⟨1, out⟩ n u →
      ¬(a * s.x < eps1m01 ∧ eps1p01 < a * u.x)) ∧
    ∀ x u, heronBody a x = .inl u → 1 - a * u = (1 - a * x) ^ 2 := by
  refine ⟨?_, fun m n s u hs hu => guess_one_way out hs hu, fun x u h => heronBody_next h⟩
  obtain ⟨fuel, g, hrun, hlow, hhigh⟩ := guess_returns ha out
  have hhalf : |1 - a * g.x| ≤ (1 / 2) ^ 2 ^ (5 - 5) :=
    abs_le.2 ⟨by norm_num; linarith, by norm_num; linarith⟩
  obtain ⟨x, hx, hclose⟩ := heron_returns 5 (le_refl 5) g.x hhalf
  obtain ⟨hle, hle'⟩ := abs_le.1 hclose
  exact ⟨fuel, g, x, hrun, hlow, hhigh, hx, by linarith, by linarith⟩

theorem heron_converges_seven :
    (∃ fuel g x, run (guessBody 7) fuel ⟨1, []⟩ = some g ∧ 1 / 2 ≤ 7 * g.x ∧ 7 * g.x ≤ 3 / 2 ∧
      run (heronBody 7) (5 + 1) g.x = some x ∧ 1 - 1 / 2 ^ 24 ≤ 7 * x ∧ 7 * x ≤ 1 + 1 / 2 ^ 24) ∧
    (∀ m n s u, Visits (guessBody 7) ⟨1, []⟩ m s → Visits (guessBody 7) ⟨1, []⟩ n u →
      ¬(7 * s.x < eps1m01 ∧ eps1p01 < 7 * u.x)) ∧
    ∀ x u, heronBody 7 x = .inl u → 1 - 7 * u = (1 - 7 * x) ^ 2 :=
  heron_converges 7 (by norm_num) []

/-! ### The whole program -/

section Program

variable {strtod : String → Option ℚ}

theorem argument_mono {fuel fuel' : ℕ} (hle : fuel ≤ fuel') {arg : String} {out out' : List Line}
    (h : argument strtod fuel arg out = some out') : argument strtod fuel' arg out = some out' := by
  unfold argument at h ⊢
  cases hs : strtod arg with
  | none =>
    rw [hs] at h
    exact h
  | some a =>
    rw [hs] at h
    obtain ⟨g, hg, h⟩ := Option.bind_eq_some_iff.1 h
    obtain ⟨x, hx, h⟩ := Option.bind_eq_some_iff.1 h
    exact Option.bind_eq_some_iff.2 ⟨g, run_mono hle hg,
      Option.bind_eq_some_iff.2 ⟨x, run_mono hle hx, h⟩⟩

theorem arguments_mono {fuel fuel' : ℕ} (hle : fuel ≤ fuel') {args : List String}
    {out out' : List Line} (h : arguments strtod fuel args out = some out') :
    arguments strtod fuel' args out = some out' := by
  induction args generalizing out with
  | nil => exact h
  | cons arg args ih =>
    obtain ⟨mid, hmid, hrest⟩ := Option.bind_eq_some_iff.1 h
    exact Option.bind_eq_some_iff.2 ⟨mid, argument_mono hle hmid, ih hrest⟩

theorem argument_returns_iff (arg : String) (out : List Line) :
    (∃ fuel out', argument strtod fuel arg out = some out') ↔ ∀ a, strtod arg = some a → 0 < a := by
  unfold argument
  cases hs : strtod arg with
  | none => exact iff_of_true ⟨0, _, rfl⟩ (fun a ha => by cases ha)
  | some a =>
    constructor
    · rintro ⟨fuel, out', h⟩ b hb
      cases hb
      obtain ⟨g, hg, -⟩ := Option.bind_eq_some_iff.1 h
      exact (guess_returns_iff out).1 ⟨fuel, g, hg⟩
    · intro hpos
      obtain ⟨⟨fuel, g, x, hg, -, -, hx, -⟩, -⟩ := heron_converges a (hpos a rfl) out
      exact ⟨max fuel 6, _, Option.bind_eq_some_iff.2 ⟨g, run_mono (le_max_left _ _) hg,
        Option.bind_eq_some_iff.2 ⟨x, run_mono (le_max_right _ _) hx, rfl⟩⟩⟩

theorem arguments_return_iff (args : List String) (out : List Line) :
    (∃ fuel out', arguments strtod fuel args out = some out') ↔
      ∀ arg ∈ args, ∀ a, strtod arg = some a → 0 < a := by
  induction args generalizing out with
  | nil => exact iff_of_true ⟨0, out, rfl⟩ (fun arg harg => absurd harg List.not_mem_nil)
  | cons arg args ih =>
    rw [List.forall_mem_cons]
    constructor
    · rintro ⟨fuel, out', h⟩
      obtain ⟨mid, hmid, hrest⟩ := Option.bind_eq_some_iff.1 h
      exact ⟨(argument_returns_iff arg out).1 ⟨fuel, mid, hmid⟩, (ih mid).1 ⟨fuel, out', hrest⟩⟩
    · rintro ⟨harg, hargs⟩
      obtain ⟨fuel, mid, hmid⟩ := (argument_returns_iff arg out).2 harg
      obtain ⟨fuel', out', hrest⟩ := (ih mid).2 hargs
      exact ⟨max fuel fuel', out', Option.bind_eq_some_iff.2
        ⟨mid, argument_mono (le_max_left _ _) hmid, arguments_mono (le_max_right _ _) hrest⟩⟩

end Program

/-- The guess of an accepted argument ends exactly when its number is positive, and the
program ends exactly when all its accepted arguments are. -/
theorem guess_ends_iff_positive (strtod : String → Option ℚ) :
    (∀ arg a out, strtod arg = some a →
      ((∃ fuel g, run (guessBody a) fuel ⟨1, out⟩ = some g) ↔ 0 < a)) ∧
    ∀ argv, (∃ fuel out, main strtod fuel argv = some out) ↔
      ∀ arg ∈ argv.tail, ∀ a, strtod arg = some a → 0 < a :=
  ⟨fun _ _ out _ => guess_returns_iff out, fun argv => arguments_return_iff argv.tail _⟩

/-- A negative number is doubled forever. -/
theorem guess_of_negative : ¬∀ (strtod : String → Option ℚ) (arg : String) (a : ℚ),
    strtod arg = some a → ∃ fuel g, run (guessBody a) fuel ⟨1, []⟩ = some g := by
  intro h
  obtain ⟨fuel, g, hrun⟩ := h (fun arg => if arg = "-1" then some (-1) else none) "-1" (-1) rfl
  rw [guess_forever (by norm_num)] at hrun
  cases hrun

end Stage0.Heron
