import Mathlib
import Stage0.BoundedLoops
import Stage0.CInt
import Stage0.WhileLoop

set_option autoImplicit false

/-!
# The searches of `modern_c/control/binary_search.c`

An access outside the array is a fault. The printed lines are kept, and the elements are
taken from any linear order.
-/
namespace Stage0.Search
open BoundedLoops CInt WhileLoop

inductive Fault where
  | outOfBounds
  deriving DecidableEq, Repr

abbrev Result := Except Fault (ℤ × List String)

def done (iteratrions : ℤ) : String := "interations done: " ++ toString iteratrions ++ "\n"

def bounds (low high : ℤ) : String :=
  "low:" ++ toString low ++ " high:" ++ toString high ++ "\n"

section Program

variable {α : Type*} [LinearOrder α] {size : ℕ} (val : α) (array : Vector α size)

structure Sequential where
  i : ℕ
  iteratrions : ℤ

def sequentialBody (s : Sequential) : Sequential ⊕ Result :=
  if s.i < size then
    let iteratrions := wrap (s.iteratrions + 1)
    match load array s.i with
    | none => .inr (.error .outOfBounds)
    | some guess =>
      if guess = val then .inr (.ok (wrap s.i, [done iteratrions]))
      else .inl ⟨s.i + 1, iteratrions⟩
  else .inr (.ok (-1, [done s.iteratrions]))

def sequentialSearch (fuel : ℕ) : Option Result := run (sequentialBody val array) fuel ⟨0, 0⟩

structure Binary where
  low : ℤ
  high : ℤ
  iteratrions : ℤ
  out : List String

def binaryBody (s : Binary) : Binary ⊕ Result :=
  if s.low ≤ s.high then
    let iteratrions := s.iteratrions + 1
    let mid := (s.low + s.high).tdiv 2
    match load array mid with
    | none => .inr (.error .outOfBounds)
    | some guess =>
      if guess = val then .inr (.ok (mid, s.out))
      else if guess > val then
        let high := mid - 1
        .inl ⟨s.low, high, iteratrions, s.out ++ [bounds s.low high]⟩
      else
        let low := mid + 1
        .inl ⟨low, s.high, iteratrions, s.out ++ [bounds low s.high]⟩
  else .inr (.ok (-1, s.out ++ [done s.iteratrions]))

/-- `binary_search` with `low`, `high`, `mid` and the counter as mathematical integers. -/
def binarySearch (fuel : ℕ) : Option Result :=
  run (binaryBody val array) fuel ⟨0, (size : ℤ) - 1, 0, []⟩

end Program

section Answers

variable {α : Type*} {size : ℕ} {val : α} {array : Vector α size}

/-- `index` is `-1` without an occurrence of `val`, and otherwise one of its occurrences. -/
def Finds (val : α) (array : Vector α size) (index : ℤ) : Prop :=
  (index = -1 ∧ ∀ j, array.get j ≠ val) ∨ ∃ j : Fin size, index = (j : ℕ) ∧ array.get j = val

theorem finds_iff {index : ℤ} (h : Finds val array index) :
    index ≠ -1 ↔ ∃ j, array.get j = val := by
  rcases h with ⟨rfl, hnone⟩ | ⟨j, rfl, hj⟩
  · refine iff_of_false (fun h => h rfl) ?_
    rintro ⟨j, hj⟩
    exact hnone j hj
  · exact iff_of_true (by omega) ⟨j, hj⟩

def FirstAt (val : α) (array : Vector α size) (index : Fin size) : Prop :=
  array.get index = val ∧ ∀ j < index, array.get j ≠ val

/-- The result is the first position of `val`, and `-1` if there is none. -/
def FindsFirst (val : α) (array : Vector α size) (index : ℤ) : Prop :=
  (∀ j, FirstAt val array j → index = (j : ℕ)) ∧ (index = -1 ↔ ∀ j, array.get j ≠ val)

theorem firstAt_unique {i j : Fin size} (hi : FirstAt val array i) (hj : FirstAt val array j) :
    i = j := by
  rcases lt_trichotomy i j with h | h | h
  · exact absurd hi.1 (hj.2 i h)
  · exact h
  · exact absurd hj.1 (hi.2 j h)

end Answers

section Runs

variable {α : Type*} [LinearOrder α] {size : ℕ} {val : α} {array : Vector α size}

theorem finds_unique {index index' : ℤ} (strict : ∀ i j, i < j → array.get i < array.get j)
    (h : Finds val array index) (h' : Finds val array index') : index = index' := by
  rcases h with ⟨rfl, hnone⟩ | ⟨j, rfl, hj⟩
  · rcases h' with ⟨rfl, -⟩ | ⟨j, rfl, hj⟩
    · rfl
    · exact absurd hj (hnone j)
  · rcases h' with ⟨rfl, hnone⟩ | ⟨k, rfl, hk⟩
    · exact absurd hj (hnone j)
    · rcases lt_trichotomy j k with hlt | rfl | hlt
      · exact absurd (strict j k hlt) (by rw [hj, hk]; exact lt_irrefl val)
      · rfl
      · exact absurd (strict k j hlt) (by rw [hj, hk]; exact lt_irrefl val)

/-! ### The linear loop -/

theorem wrap_nat_iff {v : ℕ} : wrap v = v ↔ v < 2 ^ 31 := by
  rw [wrap_eq_iff, Fits]
  omega

def Missed (val : α) (array : Vector α size) (s : Sequential) : Prop :=
  ∀ j : Fin size, (j : ℕ) < s.i → array.get j ≠ val

def passed (i : ℕ) : Sequential := ⟨i, wrap i⟩

theorem sequentialBody_next {i : Fin size} (h : array.get i ≠ val) :
    sequentialBody val array (passed i) = .inl (passed (i + 1)) := by
  have hload : load array ((i : ℕ) : ℤ) = some (array.get i) := load_coe array i
  have hcount : wrap (wrap (i : ℕ) + 1) = wrap ((i : ℕ) + 1 : ℕ) := by
    rw [wrap_add_wrap]
    push_cast
    rfl
  simp only [sequentialBody, passed, if_pos i.isLt, hload, if_neg h, hcount]

theorem sequentialBody_found {i : Fin size} (h : array.get i = val) :
    ∃ out, sequentialBody val array (passed i) = .inr (.ok (wrap (i : ℕ), out)) := by
  have hload : load array ((i : ℕ) : ℤ) = some (array.get i) := load_coe array i
  simp only [sequentialBody, passed, if_pos i.isLt, hload, if_pos h]
  exact ⟨_, rfl⟩

theorem sequentialBody_end (val : α) (array : Vector α size) :
    ∃ out, sequentialBody val array (passed size) = .inr (.ok (-1, out)) :=
  ⟨_, if_neg (lt_irrefl size)⟩

theorem visits_passed {n : ℕ} (hn : n ≤ size) (hmissed : Missed val array (passed n)) :
    Visits (sequentialBody val array) ⟨0, 0⟩ n (passed n) := by
  induction n with
  | zero => exact .start
  | succ n ih =>
    have hhead := ih (by omega) (fun j hj => hmissed j (Nat.lt_succ_of_lt hj))
    exact .next hhead (sequentialBody_next (hmissed ⟨n, hn⟩ (Nat.lt_succ_self n)))

theorem passed_of_visits {n : ℕ} {s : Sequential} (h : Visits (sequentialBody val array) ⟨0, 0⟩ n s) :
    s = passed n ∧ Missed val array s := by
  induction h with
  | start => exact ⟨rfl, fun j hj => absurd hj (Nat.not_lt_zero _)⟩
  | @next n u v _ hround ih =>
    obtain ⟨rfl, hmissed⟩ := ih
    by_cases hn : n < size
    · by_cases hval : array.get ⟨n, hn⟩ = val
      · obtain ⟨out, hfound⟩ := sequentialBody_found hval
        rw [hfound] at hround
        cases hround
      · rw [sequentialBody_next hval] at hround
        cases hround
        refine ⟨rfl, fun j hj => ?_⟩
        rcases Nat.lt_succ_iff_lt_or_eq.1 hj with hlt | heq
        · exact hmissed j hlt
        · obtain rfl : j = ⟨n, hn⟩ := Fin.ext heq
          exact hval
    · have hexit : sequentialBody val array (passed n) = .inr (.ok (-1, _)) := if_neg hn
      rw [hexit] at hround
      cases hround

theorem sequentialSearch_first {j : Fin size} (h : FirstAt val array j) {fuel : ℕ}
    (hfuel : size < fuel) : ∃ out, sequentialSearch val array fuel = some (.ok (wrap (j : ℕ), out)) := by
  have hj := j.isLt
  obtain ⟨out, hfound⟩ := sequentialBody_found h.1
  obtain ⟨more, rfl⟩ : ∃ more, fuel = j + (more + 1) := ⟨fuel - (j + 1), by omega⟩
  refine ⟨out, ?_⟩
  rw [sequentialSearch, run_visits (visits_passed hj.le h.2), run_exit hfound]

theorem sequentialSearch_absent (h : ∀ j, array.get j ≠ val) {fuel : ℕ} (hfuel : size < fuel) :
    ∃ out, sequentialSearch val array fuel = some (.ok (-1, out)) := by
  obtain ⟨out, hend⟩ := sequentialBody_end val array
  obtain ⟨more, rfl⟩ : ∃ more, fuel = size + (more + 1) := ⟨fuel - (size + 1), by omega⟩
  refine ⟨out, ?_⟩
  rw [sequentialSearch, run_visits (visits_passed (le_refl size) (fun j _ => h j)), run_exit hend]

theorem exists_firstAt {j : Fin size} (h : array.get j = val) : ∃ i, FirstAt val array i := by
  have hex : ∃ n, ∃ hn : n < size, array.get ⟨n, hn⟩ = val := ⟨j, j.isLt, h⟩
  obtain ⟨hn, hval⟩ := Nat.find_spec hex
  exact ⟨⟨Nat.find hex, hn⟩, hval, fun i hi heq => Nat.find_min hex hi ⟨i.isLt, heq⟩⟩

theorem sequentialSearch_finds (hsize : size < 2 ^ 31) (val : α) (array : Vector α size) :
    ∃ fuel index out, sequentialSearch val array fuel = some (.ok (index, out)) ∧
      Finds val array index := by
  by_cases h : ∃ j, array.get j = val
  · obtain ⟨j, hj⟩ := h
    obtain ⟨i, hi⟩ := exists_firstAt hj
    obtain ⟨out, hrun⟩ := sequentialSearch_first hi (Nat.lt_succ_self size)
    have hint : wrap (i : ℕ) = (i : ℕ) := wrap_nat_iff.2 (by have hlt := i.isLt; omega)
    exact ⟨_, _, out, hrun, .inr ⟨i, hint, hi.1⟩⟩
  · push Not at h
    obtain ⟨out, hrun⟩ := sequentialSearch_absent h (Nat.lt_succ_self size)
    exact ⟨_, _, out, hrun, .inl ⟨rfl, h⟩⟩

/-- No `iteratrions++` meets the largest `int`. -/
def CounterFits (val : α) (array : Vector α size) : Prop :=
  ∀ n s, Visits (sequentialBody val array) ⟨0, 0⟩ n s → s.i < size → s.iteratrions + 1 < 2 ^ 31

theorem counterFits_iff (val : α) (array : Vector α size) : CounterFits val array ↔
    size < 2 ^ 31 ∨ ∃ j : Fin size, (j : ℕ) < 2 ^ 31 - 1 ∧ array.get j = val := by
  constructor
  · intro h
    by_contra hnot
    obtain ⟨hsize, hnone⟩ := not_or.1 hnot
    obtain ⟨n, hn⟩ : ∃ n : ℕ, n + 1 = 2 ^ 31 := ⟨2 ^ 31 - 1, by omega⟩
    have hmissed : Missed val array (passed n) := by
      intro j hj heq
      change (j : ℕ) < n at hj
      exact hnone ⟨j, by omega, heq⟩
    have hvisit := visits_passed (by omega) hmissed
    have hcount := wrap_nat_iff.2 (show n < 2 ^ 31 by omega)
    have hfits := h n (passed n) hvisit (show n < size by omega)
    simp only [passed, hcount] at hfits
    omega
  · intro h n s hvisit hn
    obtain ⟨rfl, hmissed⟩ := passed_of_visits hvisit
    change n < size at hn
    have hsmall : n + 1 < 2 ^ 31 := by
      rcases h with hsize | ⟨j, hj, heq⟩
      · omega
      · have hle : ¬(j : ℕ) < n := fun hlt => hmissed j hlt heq
        omega
    have hcount := wrap_nat_iff.2 (show n < 2 ^ 31 by omega)
    simp only [passed, hcount]
    omega

/-- On arrays of every length `sequential_search` returns the first position of `val`, exactly
when that is below `2 ^ 31`. Its counter stays in range on arrays shorter than that, and where
`val` is met before the last `int`. -/
theorem sequentialSearch_first_iff (val : α) (array : Vector α size) :
    (∃ fuel, ∀ more ≥ fuel, ∃ index out,
      sequentialSearch val array more = some (.ok (index, out)) ∧
      (FindsFirst val array index ↔ ∀ j, FirstAt val array j → (j : ℕ) < 2 ^ 31)) ∧
    (CounterFits val array ↔
      size < 2 ^ 31 ∨ ∃ j : Fin size, (j : ℕ) < 2 ^ 31 - 1 ∧ array.get j = val) := by
  refine ⟨⟨size + 1, fun more hmore => ?_⟩, counterFits_iff val array⟩
  by_cases h : ∃ j, array.get j = val
  · obtain ⟨j, hj⟩ := h
    obtain ⟨i, hi⟩ := exists_firstAt hj
    obtain ⟨out, hrun⟩ := sequentialSearch_first hi hmore
    refine ⟨_, out, hrun, ?_⟩
    have honly : ∀ k, FirstAt val array k → k = i := fun k hk => firstAt_unique hk hi
    constructor
    · intro hfinds k hk
      rw [honly k hk]
      exact wrap_nat_iff.1 (hfinds.1 i hi)
    · intro hsmall
      have hint := wrap_nat_iff.2 (hsmall i hi)
      rw [hint]
      refine ⟨fun k hk => by rw [honly k hk], ?_⟩
      exact iff_of_false (by omega) (fun hnone => hnone i hi.1)
  · push Not at h
    obtain ⟨out, hrun⟩ := sequentialSearch_absent h hmore
    refine ⟨_, out, hrun, iff_of_true ⟨?_, iff_of_true rfl h⟩ ?_⟩
    · exact fun j hj => absurd hj.1 (h j)
    · exact fun j hj => absurd hj.1 (h j)

/-! ### The halving loop -/

/-- `val` can only be inside `low..high`: all to the left is smaller, all to the right larger. -/
structure Window (val : α) (array : Vector α size) (s : Binary) : Prop where
  low : 0 ≤ s.low
  high : s.high < size
  left : ∀ j : Fin size, ((j : ℕ) : ℤ) < s.low → array.get j < val
  right : ∀ j : Fin size, s.high < ((j : ℕ) : ℤ) → val < array.get j

theorem window_start (val : α) (array : Vector α size) :
    Window val array ⟨0, (size : ℤ) - 1, 0, []⟩ where
  low := le_refl _
  high := by simp only; omega
  left j hj := by simp only at hj; omega
  right j hj := by
    have hlt := j.isLt
    simp only at hj
    omega

theorem mid_between {low high : ℤ} (h : 0 ≤ low) (hle : low ≤ high) :
    low ≤ (low + high).tdiv 2 ∧ (low + high).tdiv 2 ≤ high := by
  rw [Int.tdiv_eq_ediv_of_nonneg (by omega)]
  omega

theorem binaryBody_round (sorted : ∀ i j, i ≤ j → array.get i ≤ array.get j) (s : Binary)
    (h : Window val array s) :
    (∃ u, binaryBody val array s = .inl u ∧ Window val array u ∧
      (u.high + 1 - u.low).toNat < (s.high + 1 - s.low).toNat) ∨
      ∃ r, binaryBody val array s = .inr r ∧
        ∃ index out, r = .ok (index, out) ∧ Finds val array index := by
  have hhigh := h.high
  have hlow := h.low
  unfold binaryBody
  by_cases hle : s.low ≤ s.high
  · simp only [if_pos hle]
    obtain ⟨hmid, hmid'⟩ := mid_between hlow hle
    generalize (s.low + s.high).tdiv 2 = mid at hmid hmid'
    obtain ⟨j, rfl⟩ : ∃ j : Fin size, mid = ((j : ℕ) : ℤ) :=
      ⟨⟨mid.toNat, by omega⟩, by simp only; omega⟩
    simp only [load_coe]
    rcases lt_trichotomy (array.get j) val with hlt | heq | hgt
    · left
      refine ⟨_, by rw [if_neg hlt.ne, if_neg (not_lt_of_gt hlt)], ?_, by simp only; omega⟩
      refine ⟨by simp only; omega, hhigh, fun k hk => ?_, h.right⟩
      simp only at hk
      have hkj : k ≤ j := Fin.le_iff_val_le_val.2 (by omega)
      exact lt_of_le_of_lt (sorted k j hkj) hlt
    · right
      exact ⟨_, if_pos heq, _, _, rfl, .inr ⟨j, rfl, heq⟩⟩
    · left
      refine ⟨_, by rw [if_neg hgt.ne', if_pos hgt], ?_, by simp only; omega⟩
      refine ⟨hlow, by simp only; omega, h.left, fun k hk => ?_⟩
      simp only at hk
      have hjk : j ≤ k := Fin.le_iff_val_le_val.2 (by omega)
      exact lt_of_lt_of_le hgt (sorted j k hjk)
  · right
    rw [if_neg hle]
    refine ⟨_, rfl, _, _, rfl, .inl ⟨rfl, fun j hj => ?_⟩⟩
    by_cases hjlow : ((j : ℕ) : ℤ) < s.low
    · exact (h.left j hjlow).ne hj
    · exact (h.right j (by omega)).ne' hj

/-- On a sorted array `binary_search` returns without an access out of bounds, finds `val`
exactly when `sequential_search` does, and at the same index if no element is repeated. -/
theorem binarySearch_correct (hsize : size ≤ 2 ^ 31 - 1) (val : α) (array : Vector α size)
    (sorted : ∀ i j, i ≤ j → array.get i ≤ array.get j) :
    ∃ fuel index out, binarySearch val array fuel = some (.ok (index, out)) ∧
      Finds val array index ∧
      ∃ fuel' index' out', sequentialSearch val array fuel' = some (.ok (index', out')) ∧
        (index ≠ -1 ↔ index' ≠ -1) ∧
        ((∀ i j, i < j → array.get i < array.get j) → index = index') := by
  obtain ⟨r, hrun, index, out, rfl, hfinds⟩ :=
    run_total (fun s : Binary => (s.high + 1 - s.low).toNat) (binaryBody_round sorted)
      (window_start val array)
  obtain ⟨fuel', index', out', hrun', hfinds'⟩ :=
    sequentialSearch_finds (by omega) val array
  refine ⟨_, index, out, hrun, hfinds, fuel', index', out', hrun', ?_, ?_⟩
  · rw [finds_iff hfinds, finds_iff hfinds']
  · intro strict
    exact finds_unique strict hfinds hfinds'

end Runs

/-- A hit at the last index of an array of `2 ^ 32` elements is reported as a miss. -/
theorem sequentialSearch_wraps : ¬∀ (size : ℕ), size < 2 ^ 64 → ∀ (val : ℤ)
    (array : Vector ℤ size) (fuel : ℕ) (index : ℤ) (out : List String),
    sequentialSearch val array fuel = some (.ok (index, out)) → FindsFirst val array index := by
  intro h
  let array : Vector ℤ (2 ^ 32) := .ofFn (fun j => if (j : ℕ) = 2 ^ 32 - 1 then 1 else 0)
  have hget : ∀ j, array.get j = if (j : ℕ) = 2 ^ 32 - 1 then 1 else 0 := by
    intro j
    rw [Vector.get_eq_getElem, Vector.getElem_ofFn]
  let last : Fin (2 ^ 32) := ⟨2 ^ 32 - 1, by omega⟩
  have hlast : FirstAt 1 array last := by
    refine ⟨by rw [hget, if_pos rfl], fun j hj => ?_⟩
    have hne : (j : ℕ) ≠ 2 ^ 32 - 1 := ne_of_lt hj
    rw [hget, if_neg hne]
    exact zero_ne_one
  obtain ⟨out, hrun⟩ := sequentialSearch_first hlast (Nat.lt_succ_self _)
  have hfinds := h _ (by omega) 1 array _ _ out hrun
  have hindex := hfinds.1 last hlast
  revert hindex
  decide

theorem binarySearch_correct_pair :
    ∃ fuel index out, binarySearch 2 #v[(1 : ℤ), 2] fuel = some (.ok (index, out)) ∧
      Finds 2 #v[(1 : ℤ), 2] index ∧
      ∃ fuel' index' out', sequentialSearch 2 #v[(1 : ℤ), 2] fuel' = some (.ok (index', out')) ∧
        (index ≠ -1 ↔ index' ≠ -1) ∧
        ((∀ i j, i < j → (#v[(1 : ℤ), 2]).get i < (#v[(1 : ℤ), 2]).get j) → index = index') :=
  binarySearch_correct (by decide) 2 #v[(1 : ℤ), 2] (by decide)

end Stage0.Search
