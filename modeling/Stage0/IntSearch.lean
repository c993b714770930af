import Mathlib
import Stage0.Script
import Stage0.Search

set_option autoImplicit false

/-!
# The arithmetic of `binary_search`

The loop of `modern_c/control/binary_search.c` once more, over whatever performs its
additions and subtractions and over elements that need not be ordered: a NaN is neither
equal to nor greater than anything.
-/
namespace Stage0.IntSearch
open BoundedLoops CInt Script WhileLoop
open Search (Binary bounds done)

inductive Trap where
  | outOfBounds
  | overflow
  deriving DecidableEq, Repr

def exact (v : ℤ) : Except Trap ℤ := .ok v

/-- The arithmetic of `int`: outside of its range nothing is defined. -/
def int32 (v : ℤ) : Except Trap ℤ := if Fits v then .ok v else .error .overflow

/-- A round of a loop that can also be trapped. -/
def orTrap {σ α : Type} : Except Trap (σ ⊕ α) → σ ⊕ Except Trap α
  | .error trap => .inr (.error trap)
  | .ok (.inl s) => .inl s
  | .ok (.inr a) => .inr (.ok a)

section Program

variable {α : Type*} [BEq α] [LT α] [DecidableLT α] {size : ℕ} (arith : ℤ → Except Trap ℤ)
  (val : α) (array : Vector α size)

/-- The result of the loop is the index with the variables as they are then. -/
def binaryRound (s : Binary) : Except Trap (Binary ⊕ (ℤ × Binary)) :=
  if s.low ≤ s.high then do
    let iteratrions ← arith (s.iteratrions + 1)
    let sum ← arith (s.low + s.high)
    let mid := sum.tdiv 2
    match load array mid with
    | none => .error .outOfBounds
    | some guess =>
      if guess == val then return .inr (mid, { s with iteratrions })
      else if guess > val then
        let high ← arith (mid - 1)
        return .inl ⟨s.low, high, iteratrions, s.out ++ [bounds s.low high]⟩
      else
        let low ← arith (mid + 1)
        return .inl ⟨low, s.high, iteratrions, s.out ++ [bounds low s.high]⟩
  else return .inr (-1, { s with out := s.out ++ [done s.iteratrions] })

def binaryBody (s : Binary) : Binary ⊕ Except Trap (ℤ × Binary) := orTrap (binaryRound arith val array s)

def start (size : ℕ) : Binary := ⟨0, (size : ℤ) - 1, 0, []⟩

def binarySearch (fuel : ℕ) : Option (Except Trap (ℤ × Binary)) :=
  run (binaryBody arith val array) fuel (start size)

end Program

/-! ### One round -/

section Round

variable {α : Type*} [BEq α] [LT α] [DecidableLT α] {size : ℕ} {arith : ℤ → Except Trap ℤ}
  {val : α} {array : Vector α size} {s : Binary}

structure Computes (arith : ℤ → Except Trap ℤ) (s : Binary) : Prop where
  counter : arith (s.iteratrions + 1) = .ok (s.iteratrions + 1)
  sum : arith (s.low + s.high) = .ok (s.low + s.high)
  left : arith ((s.low + s.high).tdiv 2 - 1) = .ok ((s.low + s.high).tdiv 2 - 1)
  right : arith ((s.low + s.high).tdiv 2 + 1) = .ok ((s.low + s.high).tdiv 2 + 1)

def leftOf (s : Binary) (mid : ℤ) : Binary :=
  ⟨s.low, mid - 1, s.iteratrions + 1, s.out ++ [bounds s.low (mid - 1)]⟩

def rightOf (s : Binary) (mid : ℤ) : Binary :=
  ⟨mid + 1, s.high, s.iteratrions + 1, s.out ++ [bounds (mid + 1) s.high]⟩

theorem binaryBody_exit (h : s.high < s.low) : binaryBody arith val array s =
    .inr (.ok (-1, { s with out := s.out ++ [done s.iteratrions] })) := by
  rw [binaryBody, binaryRound, if_neg (by omega)]
  rfl

theorem binaryBody_round (h : Computes arith s) (hle : s.low ≤ s.high) {j : Fin size}
    (hj : (s.low + s.high).tdiv 2 = (j : ℕ)) : binaryBody arith val array s =
      if array.get j == val then .inr (.ok (j, { s with iteratrions := s.iteratrions + 1 }))
      else if array.get j > val then .inl (leftOf s j) else .inl (rightOf s j) := by
  obtain ⟨hcounter, hsum, hleft, hright⟩ := h
  rw [hj] at hleft hright
  rw [binaryBody, binaryRound, if_pos hle]
  simp only [hcounter, hsum, ok_bind, hj, load_coe]
  by_cases heq : array.get j == val
  · simp only [if_pos heq]
    rfl
  · simp only [if_neg heq]
    by_cases hgt : array.get j > val
    · simp only [if_pos hgt, hleft, ok_bind]
      rfl
    · simp only [if_neg hgt, hright, ok_bind]
      rfl

end Round

/-! ### On ordered elements -/

section Ordered

variable {α : Type*} [LinearOrder α] {size : ℕ} (val : α) (array : Vector α size)

def forget : Except Trap (ℤ × Binary) → Search.Result
  | .error _ => .error .outOfBounds
  | .ok (index, s) => .ok (index, s.out)

theorem binaryBody_forget (s : Binary) : Search.binaryBody val array s =
    (binaryBody exact val array s).map id forget := by
  unfold Search.binaryBody binaryBody binaryRound
  by_cases hle : s.low ≤ s.high
  · simp only [if_pos hle, exact, ok_bind]
    cases load array ((s.low + s.high).tdiv 2) with
    | none => rfl
    | some guess =>
      by_cases heq : guess = val
      · simp only [heq, beq_self_eq_true, if_true]
        rfl
      · have hbeq : ¬(guess == val) = true := fun h => heq (beq_iff_eq.1 h)
        by_cases hgt : guess > val
        · simp only [if_neg heq, if_neg hbeq, if_pos hgt]
          rfl
        · simp only [if_neg heq, if_neg hbeq, if_neg hgt]
          rfl
  · simp only [if_neg hle]
    rfl

/-- On a linear order this is the search without arithmetic. -/
theorem binarySearch_forget (fuel : ℕ) : Search.binarySearch val array fuel =
    (binarySearch exact val array fuel).map forget :=
  run_map (binaryBody_forget val array) fuel _

end Ordered

/-! ### The window and the counter -/

/-- After `k` rounds at most the `2 ^ k`-th part of the array is left. -/
structure Halved (size : ℕ) (s : Binary) : Prop where
  low : 0 ≤ s.low
  high : s.high < size
  gap : s.low ≤ s.high + 1
  counter : ∃ k : ℕ, s.iteratrions = k ∧ (s.high + 1 - s.low) * 2 ^ k ≤ size ∧
    k ≤ Nat.log 2 size + 1

theorem halved_start (size : ℕ) : Halved size (start size) where
  low := le_refl _
  high := by simp only [start]; omega
  gap := by simp only [start]; omega
  counter := ⟨0, rfl, by simp [start], Nat.zero_le _⟩

section Halving

variable {size : ℕ} {s : Binary}

theorem counter_bound (h : Halved size s) (hle : s.low ≤ s.high) :
    ∃ k : ℕ, s.iteratrions = k ∧ k ≤ Nat.log 2 size := by
  obtain ⟨k, hk, hlen, -⟩ := h.counter
  refine ⟨k, hk, Nat.le_log_of_pow_le one_lt_two ?_⟩
  have hone : 1 * (2 : ℤ) ^ k ≤ (s.high + 1 - s.low) * 2 ^ k :=
    mul_le_mul_of_nonneg_right (by omega) (by positivity)
  have hsize : (2 : ℤ) ^ k ≤ size := by omega
  exact_mod_cast hsize

theorem mid_index (h : Halved size s) (hle : s.low ≤ s.high) : ∃ j : Fin size,
    (s.low + s.high).tdiv 2 = (j : ℕ) ∧ s.low ≤ (j : ℕ) ∧ ((j : ℕ) : ℤ) ≤ s.high := by
  have hlow := h.low
  have hhigh := h.high
  obtain ⟨hmid, hmid'⟩ := Search.mid_between hlow hle
  generalize (s.low + s.high).tdiv 2 = mid at hmid hmid'
  obtain ⟨j, rfl⟩ : ∃ j : Fin size, mid = ((j : ℕ) : ℤ) :=
    ⟨⟨mid.toNat, by omega⟩, by simp only; omega⟩
  exact ⟨j, rfl, hmid, hmid'⟩

theorem halved_counter (h : Halved size s) (hle : s.low ≤ s.high) {len : ℤ}
    (hlen : 2 * len ≤ s.high + 1 - s.low) : ∃ k : ℕ, s.iteratrions + 1 = k ∧
      len * 2 ^ k ≤ size ∧ k ≤ Nat.log 2 size + 1 := by
  obtain ⟨k, hk, hrest, -⟩ := h.counter
  obtain ⟨k', hk', hlog⟩ := counter_bound h hle
  obtain rfl : k = k' := by omega
  refine ⟨k + 1, by rw [hk]; push_cast; rfl, ?_, by omega⟩
  calc len * 2 ^ (k + 1) = 2 * len * 2 ^ k := by ring
    _ ≤ (s.high + 1 - s.low) * 2 ^ k := mul_le_mul_of_nonneg_right hlen (by positivity)
    _ ≤ size := hrest

theorem halved_left (h : Halved size s) (hle : s.low ≤ s.high) {j : ℕ}
    (hj : (s.low + s.high).tdiv 2 = j) : Halved size (leftOf s j) := by
  have hlow := h.low
  have hhigh := h.high
  rw [Int.tdiv_eq_ediv_of_nonneg (by omega)] at hj
  refine ⟨hlow, by simp only [leftOf]; omega, by simp only [leftOf]; omega, ?_⟩
  exact halved_counter h hle (by simp only [leftOf]; omega)

theorem halved_right (h : Halved size s) (hle : s.low ≤ s.high) {j : ℕ}
    (hj : (s.low + s.high).tdiv 2 = j) : Halved size (rightOf s j) := by
  have hlow := h.low
  have hhigh := h.high
  rw [Int.tdiv_eq_ediv_of_nonneg (by omega)] at hj
  refine ⟨by simp only [rightOf]; omega, hhigh, by simp only [rightOf]; omega, ?_⟩
  exact halved_counter h hle (by simp only [rightOf]; omega)

theorem round_next {α : Type*} [BEq α] [LT α] [DecidableLT α] {arith : ℤ → Except Trap ℤ} {val : α}
    {array : Vector α size} (h : Halved size s) (hcomputes : s.low ≤ s.high → Computes arith s)
    {u : Binary} (hround : binaryBody arith val array s = .inl u) : Halved size u ∧
      ∃ j : Fin size, s.low ≤ s.high ∧ (s.low + s.high).tdiv 2 = (j : ℕ) ∧
        (array.get j > val ∧ u = leftOf s j ∨
          ¬((array.get j == val) = true ∨ array.get j > val) ∧ u = rightOf s j) := by
  by_cases hle : s.low ≤ s.high
  · obtain ⟨j, hj, -⟩ := mid_index h hle
    rw [binaryBody_round (hcomputes hle) hle hj] at hround
    split_ifs at hround with heq hgt
    · cases hround
      exact ⟨halved_left h hle hj, j, hle, hj, .inl ⟨hgt, rfl⟩⟩
    · cases hround
      exact ⟨halved_right h hle hj, j, hle, hj, .inr ⟨not_or.2 ⟨heq, hgt⟩, rfl⟩⟩
  · rw [binaryBody_exit (by omega)] at hround
    cases hround

end Halving

/-! ### The number of iterations -/

section Exact

variable {α : Type*} [BEq α] [LT α] [DecidableLT α] {size : ℕ} {val : α} {array : Vector α size}

theorem exact_computes (s : Binary) : Computes exact s := ⟨rfl, rfl, rfl, rfl⟩

/-- A result within the bound on the counter, which is printed if `val` is not found. -/
def Counted (val : α) (array : Vector α size) (r : Except Trap (ℤ × Binary)) : Prop :=
  ∃ index s, r = .ok (index, s) ∧ s.iteratrions ≤ (Nat.log 2 size + 1 : ℕ) ∧
    (index = -1 ∧ (∃ lines, s.out = lines ++ [done s.iteratrions]) ∨
      ∃ j : Fin size, index = (j : ℕ) ∧ (array.get j == val) = true)

theorem exact_round (val : α) (array : Vector α size) (s : Binary) (h : Halved size s) :
    (∃ u, binaryBody exact val array s = .inl u ∧ Halved size u ∧
      (u.high + 1 - u.low).toNat < (s.high + 1 - s.low).toNat) ∨
      ∃ r, binaryBody exact val array s = .inr r ∧ Counted val array r := by
  by_cases hle : s.low ≤ s.high
  · obtain ⟨j, hj, hlow, hhigh⟩ := mid_index h hle
    rw [binaryBody_round (exact_computes s) hle hj]
    by_cases heq : array.get j == val
    · right
      obtain ⟨k, hk, hlog⟩ := counter_bound h hle
      refine ⟨_, if_pos heq, j, _, rfl, ?_, .inr ⟨j, rfl, heq⟩⟩
      simp only
      omega
    · left
      rw [if_neg heq]
      by_cases hgt : array.get j > val
      · exact ⟨_, if_pos hgt, halved_left h hle hj, by simp only [leftOf]; omega⟩
      · exact ⟨_, if_neg hgt, halved_right h hle hj, by simp only [rightOf]; omega⟩
  · right
    obtain ⟨k, hk, -, hlog⟩ := h.counter
    refine ⟨_, binaryBody_exit (by omega), -1, _, rfl, ?_, .inl ⟨rfl, s.out, rfl⟩⟩
    simp only
    omega

/-- On every array, sorted or not, the counter stays within the logarithm of the length, and it
is what a search without success prints last. -/
theorem iteratrions_le_log (val : α) (array : Vector α size) :
    ∃ fuel index s, (∀ more ≥ fuel, binarySearch exact val array more = some (.ok (index, s))) ∧
      s.iteratrions ≤ (Nat.log 2 size + 1 : ℕ) ∧
      ((∀ j, (array.get j == val) = false) → index = -1) ∧
      (index = -1 → ∃ lines, s.out = lines ++ [done s.iteratrions]) := by
  obtain ⟨r, hrun, index, s, rfl, hcount, hend⟩ :=
    run_total (fun s : Binary => (s.high + 1 - s.low).toNat)
      (exact_round val array) (halved_start size)
  refine ⟨_, index, s, fun more hmore => run_mono hmore hrun, hcount, ?_, ?_⟩
  · intro habsent
    rcases hend with ⟨rfl, -⟩ | ⟨j, -, hj⟩
    · rfl
    · rw [habsent j] at hj
      cases hj
  · intro hindex
    rcases hend with ⟨-, hlines⟩ | ⟨j, hj, -⟩
    · exact hlines
    · omega

end Exact

/-! ### The range of `int` -/

/-- All that the round computes is an `int`, and the middle lies inside the window. -/
structure RoundFits (s : Binary) : Prop where
  counter : Fits (s.iteratrions + 1)
  sum : Fits (s.low + s.high)
  left : Fits ((s.low + s.high).tdiv 2 - 1)
  right : Fits ((s.low + s.high).tdiv 2 + 1)
  mid : s.low ≤ (s.low + s.high).tdiv 2 ∧ (s.low + s.high).tdiv 2 ≤ s.high

section Path

variable {α : Type*} [BEq α] [LT α] {size : ℕ} {val : α} {array : Vector α size} {s : Binary}

theorem fits_computes (h : RoundFits s) : Computes int32 s :=
  ⟨if_pos h.counter, if_pos h.sum, if_pos h.left, if_pos h.right⟩

theorem roundFits_of_sum (hsize : size ≤ 2 ^ 31 - 1) (h : Halved size s) (hle : s.low ≤ s.high)
    (hsum : s.low + s.high < 2 ^ 31) : RoundFits s := by
  have hlow := h.low
  have hhigh := h.high
  have hmid := Search.mid_between hlow hle
  obtain ⟨k, hk, hlog⟩ := counter_bound h hle
  have hlog' : Nat.log 2 size < 31 := Nat.log_lt_of_lt_pow (by omega) (by omega)
  refine ⟨⟨by omega, by omega⟩, ⟨by omega, hsum⟩, ⟨by omega, by omega⟩, ⟨by omega, by omega⟩, hmid⟩

theorem sum_of_mid (h : Halved size s) (hle : s.low ≤ s.high) :
    (s.low + s.high).tdiv 2 < 2 ^ 30 ↔ s.low + s.high < 2 ^ 31 := by
  have hlow := h.low
  rw [Int.tdiv_eq_ediv_of_nonneg (by omega)]
  omega

/-! ### The rightmost path -/

def rightmost (size k : ℕ) : ℕ := size - 1 - size / 2 ^ (k + 1)

structure Spine (size k : ℕ) (s : Binary) : Prop where
  low : s.low = size - (size / 2 ^ k : ℕ)
  high : s.high = size - 1

theorem half_pow (size k : ℕ) : size / 2 ^ (k + 1) = size / 2 ^ k / 2 := by
  rw [Nat.pow_succ, Nat.div_div_eq_div_mul]

theorem spine_start (size : ℕ) : Spine size 0 (start size) := ⟨by simp [start], rfl⟩

theorem spine_mid {k : ℕ} (h : Spine size k s) (hle : s.low ≤ s.high) :
    (s.low + s.high).tdiv 2 = rightmost size k := by
  obtain ⟨hlow, hhigh⟩ := h
  have hpart : size / 2 ^ k ≤ size := Nat.div_le_self _ _
  rw [Int.tdiv_eq_ediv_of_nonneg (by omega), rightmost, half_pow]
  omega

theorem spine_right {k : ℕ} (h : Spine size k s) (hle : s.low ≤ s.high) :
    Spine size (k + 1) (rightOf s (rightmost size k)) := by
  obtain ⟨hlow, hhigh⟩ := h
  have hpart : size / 2 ^ k ≤ size := Nat.div_le_self _ _
  refine ⟨?_, hhigh⟩
  simp only [rightOf, rightmost, half_pow]
  omega

theorem rightmost_mono (size : ℕ) {k l : ℕ} (h : k ≤ l) : rightmost size k ≤ rightmost size l := by
  have hpow : 2 ^ (k + 1) ≤ 2 ^ (l + 1) := Nat.pow_le_pow_right (by omega) (by omega)
  have hdiv : size / 2 ^ (l + 1) ≤ size / 2 ^ (k + 1) := Nat.div_le_div_left hpow (by positivity)
  unfold rightmost
  omega

/-- The search stops or turns left at the `k`-th index of the rightmost path, below `2 ^ 30`. -/
def TurnsAt (val : α) (array : Vector α size) (k : ℕ) : Prop :=
  ∃ j : Fin size, (j : ℕ) = rightmost size k ∧ (j : ℕ) < 2 ^ 30 ∧
    ((array.get j == val) = true ∨ array.get j > val)

/-- A window below `2 ^ 30`, or one of the rightmost path up to a turn. -/
def Low (val : α) (array : Vector α size) (s : Binary) : Prop :=
  s.high < 2 ^ 30 ∨ ∃ last, TurnsAt val array last ∧ ∃ k ≤ last, Spine size k s

theorem low_mid (h : Low val array s) (hhalved : Halved size s) (hle : s.low ≤ s.high) :
    (s.low + s.high).tdiv 2 < 2 ^ 30 := by
  obtain ⟨-, hmid⟩ := Search.mid_between hhalved.low hle
  rcases h with hhigh | ⟨last, ⟨j, hj, hsmall, -⟩, k, hk, hspine⟩
  · omega
  · have hindex := spine_mid hspine hle
    have hmono := rightmost_mono size hk
    omega

theorem low_fits (hsize : size ≤ 2 ^ 31 - 1) (h : Low val array s) (hhalved : Halved size s)
    (hle : s.low ≤ s.high) : RoundFits s :=
  roundFits_of_sum hsize hhalved hle ((sum_of_mid hhalved hle).1 (low_mid h hhalved hle))

end Path

section Range

variable {α : Type*} [BEq α] [LT α] [DecidableLT α] {size : ℕ} {val : α} {array : Vector α size}
  {s : Binary}

/-- No round of the search in `int` leaves its range. -/
def NeverOverflows (val : α) (array : Vector α size) : Prop :=
  ∀ n s, Visits (binaryBody int32 val array) (start size) n s → s.low ≤ s.high → RoundFits s

theorem low_round (hsize : size ≤ 2 ^ 31 - 1) {u : Binary} (h : Halved size s ∧ Low val array s)
    (hround : binaryBody int32 val array s = .inl u) : Halved size u ∧ Low val array u := by
  obtain ⟨hhalved, hlow⟩ := h
  have hfits := fun hle => low_fits hsize hlow hhalved hle
  obtain ⟨hnext, j, hle, hj, ⟨-, rfl⟩ | ⟨hcompare, rfl⟩⟩ :=
    round_next hhalved (fun hle => fits_computes (hfits hle)) hround
  · have hmid := low_mid hlow hhalved hle
    exact ⟨hnext, .inl (by simp only [leftOf]; omega)⟩
  · refine ⟨hnext, ?_⟩
    rcases hlow with hhigh | ⟨last, hturn, k, hk, hspine⟩
    · exact .inl hhigh
    · have hjk : (j : ℕ) = rightmost size k := by
        have hindex := spine_mid hspine hle
        omega
      -- at the turn itself the search does not move to the right
      have hne : k ≠ last := by
        rintro rfl
        obtain ⟨i, hi, -, hturned⟩ := hturn
        obtain rfl : i = j := Fin.ext (hi.trans hjk.symm)
        exact hcompare hturned
      refine .inr ⟨last, hturn, k + 1, by omega, ?_⟩
      rw [hjk]
      exact spine_right hspine hle

theorem fits_of_turns (hsize : size ≤ 2 ^ 31 - 1)
    (h : size ≤ 2 ^ 30 ∨ ∃ k, TurnsAt val array k) : NeverOverflows val array := by
  have hstart : Low val array (start size) := by
    rcases h with hsmall | ⟨last, hturn⟩
    · exact .inl (by simp only [start]; omega)
    · exact .inr ⟨last, hturn, 0, Nat.zero_le _, spine_start size⟩
  intro n s hvisit hle
  obtain ⟨hhalved, hlow⟩ := visits_invariant (fun s u => low_round hsize)
    ⟨halved_start size, hstart⟩ hvisit
  exact low_fits hsize hlow hhalved hle

theorem visits_halved (hfits : NeverOverflows val array) {n : ℕ}
    (hvisit : Visits (binaryBody int32 val array) (start size) n s) : Halved size s := by
  induction hvisit with
  | start => exact halved_start size
  | next hhead hround ih =>
    exact (round_next ih (fun hle => fits_computes (hfits _ _ hhead hle)) hround).1

theorem visits_spine (hfits : NeverOverflows val array) (hlong : 2 ^ 30 < size)
    (hturn : ∀ k, ¬TurnsAt val array k) {k : ℕ} (hk : k ≤ 30) :
    ∃ s, Visits (binaryBody int32 val array) (start size) k s ∧ Spine size k s := by
  induction k with
  | zero => exact ⟨_, .start, spine_start size⟩
  | succ k ih =>
    obtain ⟨s, hvisit, hspine⟩ := ih (by omega)
    have hhalved := visits_halved hfits hvisit
    have hpow : 2 ^ k ≤ 2 ^ 30 := Nat.pow_le_pow_right (by omega) (by omega)
    have hpart : 1 ≤ size / 2 ^ k := (Nat.one_le_div_iff (by positivity)).2 (by omega)
    have hle : s.low ≤ s.high := by
      have hlow := hspine.low
      have hhigh := hspine.high
      omega
    have hround := hfits k s hvisit hle
    have hmid := (sum_of_mid hhalved hle).2 hround.sum.2
    obtain ⟨j, hj, -⟩ := mid_index hhalved hle
    have hjk : (j : ℕ) = rightmost size k := by
      have hindex := spine_mid hspine hle
      omega
    obtain ⟨heq, hgt⟩ := not_or.1 (fun hcompare => hturn k ⟨j, hjk, by omega, hcompare⟩)
    have hbody : binaryBody int32 val array s = .inl (rightOf s j) := by
      rw [binaryBody_round (fits_computes hround) hle hj, if_neg heq, if_neg hgt]
    refine ⟨_, .next hvisit hbody, ?_⟩
    rw [hjk]
    exact spine_right hspine hle

theorem turns_of_fits (hsize : size ≤ 2 ^ 31 - 1) (h : NeverOverflows val array) :
    size ≤ 2 ^ 30 ∨ ∃ k, TurnsAt val array k := by
  by_contra hnot
  obtain ⟨hlong, hturn⟩ := not_or.1 hnot
  obtain ⟨s, hvisit, hspine⟩ :=
    visits_spine h (by omega) (fun k hk => hturn ⟨k, hk⟩) (le_refl 30)
  have hlow := hspine.low
  have hhigh := hspine.high
  -- the last window is the last element
  have hpart : size / 2 ^ 30 = 1 := by omega
  rw [hpart] at hlow
  have hsum := (h 30 s hvisit (by omega)).sum.2
  omega

/-- The search in `int` never leaves its range, exactly on arrays of at most `2 ^ 30` elements and
on those where it stops or turns left at some `size - 1 - size / 2 ^ k` below `2 ^ 30`. -/
theorem binarySearch_fits_iff (hsize : size ≤ 2 ^ 31 - 1) (val : α) (array : Vector α size) :
    NeverOverflows val array ↔ size ≤ 2 ^ 30 ∨ ∃ k, TurnsAt val array k :=
  ⟨turns_of_fits hsize, fits_of_turns hsize⟩

/-- Within the range the two arithmetics run alike. -/
theorem binarySearch_int32 (h : NeverOverflows val array) (fuel : ℕ) :
    binarySearch int32 val array fuel = binarySearch exact val array fuel := by
  refine run_congr (fun n s hvisit => ?_) fuel
  by_cases hle : s.low ≤ s.high
  · obtain ⟨j, hj, -⟩ := mid_index (visits_halved h hvisit) hle
    rw [binaryBody_round (fits_computes (h n s hvisit hle)) hle hj,
      binaryBody_round (exact_computes s) hle hj]
  · rw [binaryBody_exit (by omega), binaryBody_exit (by omega)]

end Range

theorem binarySearch_fits_iff_two : NeverOverflows (2 : ℤ) #v[1, 2] ↔
    2 ≤ 2 ^ 30 ∨ ∃ k, TurnsAt (2 : ℤ) #v[1, 2] k :=
  binarySearch_fits_iff (by decide) 2 #v[1, 2]

/-- One element more than `2 ^ 30`, all of them smaller than the one sought. -/
theorem binarySearch_overflows : ¬∀ (size : ℕ), size ≤ 2 ^ 31 - 1 → ∀ (val : ℤ)
    (array : Vector ℤ size), NeverOverflows val array := by
  intro h
  let array : Vector ℤ (2 ^ 30 + 1) := .ofFn (fun _ => 0)
  have hget : ∀ j, array.get j = 0 := by
    intro j
    rw [Vector.get_eq_getElem, Vector.getElem_ofFn]
  rcases turns_of_fits (by omega) (h _ (by omega) 1 array) with hsmall | ⟨k, j, -, -, hcompare⟩
  · omega
  · rw [hget] at hcompare
    revert hcompare
    decide

end Stage0.IntSearch
