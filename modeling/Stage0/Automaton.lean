import Mathlib

set_option autoImplicit false

/-!
# Two-state automata that count live neighbours

The cells are an arbitrary type, each with a finite neighbourhood. The next
state of a cell is a rule of its own state and of its live neighbours' number.
-/
namespace Stage0.Automaton

variable {C D : Type*}

def liveCount (nbrs : C → Finset C) (s : C → Bool) (c : C) : ℕ :=
  ((nbrs c).filter (fun d => s d = true)).card

def next (nbrs : C → Finset C) (rule : Bool → ℕ → Bool) (s : C → Bool) : C → Bool :=
  fun c => rule (s c) (liveCount nbrs s c)

def generation (nbrs : C → Finset C) (rule : Bool → ℕ → Bool) (k : ℕ) (s : C → Bool) : C → Bool :=
  (next nbrs rule)^[k] s

@[simp] theorem generation_zero (nbrs : C → Finset C) (rule : Bool → ℕ → Bool) (s : C → Bool) :
    generation nbrs rule 0 s = s := rfl

theorem generation_succ (nbrs : C → Finset C) (rule : Bool → ℕ → Bool) (k : ℕ) (s : C → Bool) :
    generation nbrs rule (k + 1) s = next nbrs rule (generation nbrs rule k s) :=
  Function.iterate_succ_apply' _ _ _

theorem liveCount_eq_zero {nbrs : C → Finset C} {s : C → Bool} {c : C}
    (h : ∀ d ∈ nbrs c, s d = false) : liveCount nbrs s c = 0 := by
  rw [liveCount, Finset.card_eq_zero, Finset.filter_eq_empty_iff]
  intro d hd
  simp [h d hd]

theorem liveCount_eq_sum (nbrs : C → Finset C) (s : C → Bool) (c : C) :
    liveCount nbrs s c = ∑ d ∈ nbrs c, (s d).toNat := by
  rw [liveCount, Finset.card_filter]
  apply Finset.sum_congr rfl
  intro d _
  cases s d <;> rfl

section Window

-- a window `e` of the cells, with every neighbourhood clipped to it
variable (e : D ↪ C) {nbrs : C → Finset C} {clipped : D → Finset D} {rule : Bool → ℕ → Bool}

/-- A pattern of the window, surrounded by dead cells. -/
noncomputable def surround (s : D → Bool) : C → Bool := Function.extend e s (fun _ => false)

@[simp] theorem surround_apply (s : D → Bool) (d : D) : surround e s (e d) = s d :=
  e.injective.extend_apply _ _ _

theorem surround_outside (s : D → Bool) {c : C} (h : c ∉ Set.range e) : surround e s c = false :=
  Function.extend_apply' _ _ _ h

theorem surround_live {s : D → Bool} {c : C} (h : surround e s c = true) :
    ∃ d, e d = c ∧ s d = true := by
  by_cases hc : c ∈ Set.range e
  · obtain ⟨d, rfl⟩ := hc
    exact ⟨d, rfl, by simpa using h⟩
  · rw [surround_outside e s hc] at h
    cases h

/-- The surround of a pattern is the only extension of it that is dead outside. -/
theorem eq_surround {s : D → Bool} {t : C → Bool} (inside : ∀ d, t (e d) = s d)
    (outside : ∀ c, c ∉ Set.range e → t c = false) : t = surround e s := by
  funext c
  by_cases hc : c ∈ Set.range e
  · obtain ⟨d, rfl⟩ := hc
    rw [inside, surround_apply]
  · rw [outside c hc, surround_outside e s hc]

theorem liveCount_surround (clip : ∀ d d', d' ∈ clipped d ↔ e d' ∈ nbrs (e d)) (s : D → Bool)
    (d : D) : liveCount nbrs (surround e s) (e d) = liveCount clipped s d := by
  have himage : (nbrs (e d)).filter (fun c => surround e s c = true) =
      ((clipped d).filter (fun d' => s d' = true)).map e := by
    ext c
    simp only [Finset.mem_filter, Finset.mem_map]
    constructor
    · rintro ⟨hc, hlive⟩
      obtain ⟨d', rfl, hd'⟩ := surround_live e hlive
      exact ⟨d', ⟨(clip d d').2 hc, hd'⟩, rfl⟩
    · rintro ⟨d', ⟨hd', hlive⟩, rfl⟩
      exact ⟨(clip d d').1 hd', by simpa using hlive⟩
  rw [liveCount, himage, Finset.card_map, liveCount]

/-- The live cells of a pattern are neighbours of cells of the window only. -/
def Interior (nbrs : C → Finset C) (s : D → Bool) : Prop :=
  ∀ d, s d = true → ∀ c, e d ∈ nbrs c → c ∈ Set.range e

theorem next_surround (clip : ∀ d d', d' ∈ clipped d ↔ e d' ∈ nbrs (e d))
    (quiet : rule false 0 = false) {s : D → Bool} (inner : Interior e nbrs s) :
    next nbrs rule (surround e s) = surround e (next clipped rule s) := by
  apply eq_surround
  · intro d
    simp only [next, surround_apply, liveCount_surround e clip]
  · intro c hc
    have hzero : liveCount nbrs (surround e s) c = 0 := by
      apply liveCount_eq_zero
      intro c' hc'
      by_contra hne
      obtain ⟨d, rfl, hd⟩ := surround_live e (Bool.eq_true_of_not_eq_false hne)
      exact hc (inner d hd c hc')
    rw [next, hzero, surround_outside e s hc, quiet]

/-- A clipped automaton is the whole one as long as the pattern stays interior. -/
theorem generation_surround (clip : ∀ d d', d' ∈ clipped d ↔ e d' ∈ nbrs (e d))
    (quiet : rule false 0 = false) (s : D → Bool) (n : ℕ)
    (inner : ∀ k < n, Interior e nbrs (generation clipped rule k s)) :
    generation nbrs rule n (surround e s) = surround e (generation clipped rule n s) := by
  induction n with
  | zero => rfl
  | succ n ih =>
    rw [generation_succ, generation_succ, ih (fun k hk => inner k (by omega)),
      next_surround e clip quiet (inner n (by omega))]

end Window

section Union

variable {nbrs : C → Finset C} {rule : Bool → ℕ → Bool} {s t : C → Bool} {c : C}

def union (s t : C → Bool) : C → Bool := fun c => s c || t c

theorem union_comm (s t : C → Bool) : union s t = union t s :=
  funext fun c => Bool.or_comm (s c) (t c)

def Unseen (nbrs : C → Finset C) (s : C → Bool) (c : C) : Prop :=
  s c = false ∧ ∀ d ∈ nbrs c, s d = false

/-- No cell sees live cells of both patterns. -/
def Apart (nbrs : C → Finset C) (s t : C → Bool) : Prop := ∀ c, Unseen nbrs s c ∨ Unseen nbrs t c

theorem next_unseen (quiet : rule false 0 = false) (h : Unseen nbrs s c) :
    next nbrs rule s c = false := by
  rw [next, h.1, liveCount_eq_zero h.2, quiet]

theorem next_union_left (h : Unseen nbrs t c) :
    next nbrs rule (union s t) c = next nbrs rule s c := by
  have hcount : liveCount nbrs (union s t) c = liveCount nbrs s c := by
    unfold liveCount
    congr 1
    apply Finset.filter_congr
    intro d hd
    rw [union, h.2 d hd, Bool.or_false]
  rw [next, hcount, union, h.1, Bool.or_false]
  rfl

theorem next_union (quiet : rule false 0 = false) (apart : Apart nbrs s t) :
    next nbrs rule (union s t) = union (next nbrs rule s) (next nbrs rule t) := by
  funext c
  rcases apart c with h | h
  · rw [union_comm, next_union_left h, union, next_unseen quiet h, Bool.false_or]
  · rw [next_union_left h, union, next_unseen quiet h, Bool.or_false]

theorem generation_union (quiet : rule false 0 = false) (n : ℕ)
    (apart : ∀ k < n, Apart nbrs (generation nbrs rule k s) (generation nbrs rule k t)) :
    generation nbrs rule n (union s t) =
      union (generation nbrs rule n s) (generation nbrs rule n t) := by
  induction n with
  | zero => rfl
  | succ n ih =>
    rw [generation_succ, ih (fun k hk => apart k (by omega)), next_union quiet (apart n (by omega)),
      generation_succ, generation_succ]

theorem next_disjoint (quiet : rule false 0 = false) (apart : Apart nbrs s t)
    (h : next nbrs rule s c = true) : next nbrs rule t c = false := by
  rcases apart c with hs | ht
  · rw [next_unseen quiet hs] at h
    cases h
  · exact next_unseen quiet ht

end Union

end Stage0.Automaton
