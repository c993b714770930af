import Mathlib

set_option autoImplicit false

/-!
# Checked arrays and counting loops

Arrays of fixed length under signed indices, where an access outside the array
has no result, and loops that count upwards over a body that may have none.
-/
namespace Stage0.BoundedLoops

variable {α σ : Type*} {n : ℕ}

/-- The position a signed index denotes in an array of length `n`. -/
def slot (n : ℕ) (i : ℤ) : Option (Fin n) :=
  if h : 0 ≤ i ∧ i < n then some ⟨i.toNat, by omega⟩ else none

def load (a : Vector α n) (i : ℤ) : Option α := (slot n i).map a.get

def store (a : Vector α n) (i : ℤ) (x : α) : Option (Vector α n) :=
  (slot n i).map (fun j : Fin n => a.set j x j.isLt)

@[simp] theorem slot_coe (j : Fin n) : slot n ((j : ℕ) : ℤ) = some j := by
  have hj := j.isLt
  simp [slot, hj]

@[simp] theorem load_coe (a : Vector α n) (j : Fin n) : load a ((j : ℕ) : ℤ) = some (a.get j) := by
  simp [load]

@[simp] theorem store_coe (a : Vector α n) (j : Fin n) (x : α) :
    store a ((j : ℕ) : ℤ) x = some (a.set j x j.isLt) := by
  simp [store]

theorem get_set (a : Vector α n) (i j : Fin n) (x : α) :
    (a.set i x i.isLt).get j = if j = i then x else a.get j := by
  rw [Vector.get_eq_getElem, Vector.get_eq_getElem, Vector.getElem_set]
  simp only [Fin.ext_iff, eq_comm]

theorem ext_get {a b : Vector α n} (h : ∀ j, a.get j = b.get j) : a = b := by
  ext i hi
  exact h ⟨i, hi⟩

def countUp (body : ℤ → σ → Option σ) : ℕ → ℤ → σ → Option σ
  | 0, _, s => some s
  | count + 1, i, s => (body i s).bind (countUp body count (i + 1))

/-- `for (i = lo; i < hi; i++)`; with `lo ≤ hi` also `for (i = lo; i != hi; i++)`. -/
def forUp (lo hi : ℤ) (s : σ) (body : ℤ → σ → Option σ) : Option σ :=
  countUp body (hi - lo).toNat lo s

/-- Total correctness: a body that always has a result and keeps `I` gives a loop
that has a result, and `I` holds at the final index. -/
theorem forUp_inv (lo hi : ℤ) (s : σ) (body : ℤ → σ → Option σ) (I : ℤ → σ → Prop)
    (hle : lo ≤ hi) (init : I lo s)
    (step : ∀ i s, lo ≤ i → i < hi → I i s → ∃ u, body i s = some u ∧ I (i + 1) u) :
    ∃ u, forUp lo hi s body = some u ∧ I hi u := by
  have rounds : ∀ (count : ℕ) (i : ℤ) (s : σ), i + count = hi → lo ≤ i → I i s →
      ∃ u, countUp body count i s = some u ∧ I hi u := by
    intro count
    induction count with
    | zero =>
      intro i s hend _ hs
      have he : i = hi := by omega
      exact ⟨s, rfl, he ▸ hs⟩
    | succ count ih =>
      intro i s hlast hl hs
      obtain ⟨v, hv, hI⟩ := step i s hl (by omega) hs
      obtain ⟨u, hu, hend⟩ := ih (i + 1) v (by omega) (by omega) hI
      exact ⟨u, by simp only [countUp, hv, Option.bind_some, hu], hend⟩
  exact rounds (hi - lo).toNat lo s (by omega) (le_refl lo) init

theorem forUp_sum {M : Type*} [AddCommMonoid M] {lo hi : ℤ} {s : M} {body : ℤ → M → Option M}
    (f : ℤ → M) (hle : lo ≤ hi)
    (step : ∀ i s, lo ≤ i → i < hi → body i s = some (s + f i)) :
    forUp lo hi s body = some (s + ∑ i ∈ Finset.Ico lo hi, f i) := by
  obtain ⟨u, hu, hend⟩ := forUp_inv lo hi s body
    (fun i u => u = s + ∑ j ∈ Finset.Ico lo i, f j) hle (by simp) (by
      intro i u hl hh hI
      refine ⟨u + f i, step i u hl hh, ?_⟩
      rw [hI, ← Finset.insert_Ico_right_eq_Ico_add_one hl, Finset.sum_insert (by simp), add_assoc,
        add_comm (f i)])
  rw [hu, hend]

theorem forUp_append {β : Type*} {s : List β} {body : ℤ → List β → Option (List β)}
    (f : Fin n → List β) (step : ∀ (j : Fin n) s, body ((j : ℕ) : ℤ) s = some (s ++ f j)) :
    forUp 0 n s body = some (s ++ (List.finRange n).flatMap f) := by
  obtain ⟨u, hu, hend⟩ := forUp_inv 0 n s body
    (fun i u => u = s ++ ((List.finRange n).take i.toNat).flatMap f) (by omega) (by simp) (by
      intro i u hlo hhi hI
      obtain ⟨j, rfl⟩ : ∃ j : Fin n, i = ((j : ℕ) : ℤ) :=
        ⟨⟨i.toNat, by omega⟩, by simp only; omega⟩
      refine ⟨_, step j u, ?_⟩
      have hnext : (((j : ℕ) : ℤ) + 1).toNat = (j : ℕ) + 1 := by omega
      have hlast : (List.finRange n).take ((j : ℕ) + 1) = (List.finRange n).take j ++ [j] := by
        rw [List.take_add_one, List.getElem?_eq_getElem (by simp), List.getElem_finRange]
        rfl
      rw [hI, hnext, hlast, List.flatMap_append, Int.toNat_natCast, List.append_assoc]
      simp)
  rw [hu, hend, Int.toNat_natCast, List.take_of_length_le (by simp)]

theorem forUp_fill {a : Vector α n} {body : ℤ → Vector α n → Option (Vector α n)} (f : Fin n → α)
    (step : ∀ (j : Fin n) a, body ((j : ℕ) : ℤ) a = some (a.set j (f j) j.isLt)) :
    forUp 0 n a body = some (Vector.ofFn f) := by
  obtain ⟨u, hu, hend⟩ := forUp_inv 0 n a body
    (fun i u => ∀ j : Fin n, ((j : ℕ) : ℤ) < i → u.get j = f j) (by omega)
    (fun j hj => by omega) (by
      intro i u hlo hhi hI
      obtain ⟨k, rfl⟩ : ∃ k : Fin n, i = ((k : ℕ) : ℤ) :=
        ⟨⟨i.toNat, by omega⟩, by simp only; omega⟩
      refine ⟨_, step k u, ?_⟩
      intro j hj
      rw [get_set]
      split
      · rename_i heq
        rw [heq]
      · rename_i hne
        have hval : (j : ℕ) ≠ k := fun he => hne (Fin.ext he)
        exact hI j (by omega))
  rw [hu]
  refine congrArg some (ext_get fun j => ?_)
  rw [hend j (by have hj := j.isLt; omega), Vector.get_eq_getElem, Vector.getElem_ofFn]

end Stage0.BoundedLoops
