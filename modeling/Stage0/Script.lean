import Mathlib

set_option autoImplicit false

/-!
# Programs that read a script

A call consumes answers from the front of a list and either returns or stops.
Successive calls hand the rest of the list on.
-/
namespace Stage0.Script

variable {ρ ε α β σ : Type}

theorem bind_eq_ok {x : Except ε α} {f : α → Except ε β} {b : β} :
    (x >>= f) = .ok b ↔ ∃ a, x = .ok a ∧ f a = .ok b := by
  cases x with
  | error e =>
    constructor
    · intro h
      cases h
    · rintro ⟨a, h, _⟩
      cases h
  | ok a =>
    constructor
    · intro h
      exact ⟨a, rfl, h⟩
    · rintro ⟨a', h, hf⟩
      cases h
      exact hf

theorem bind_eq_error {x : Except ε α} {f : α → Except ε β} {e : ε} :
    (x >>= f) = .error e ↔ x = .error e ∨ ∃ a, x = .ok a ∧ f a = .error e := by
  cases x with
  | error d => simp [bind, Except.bind]
  | ok a => simp [bind, Except.bind]

theorem ok_bind (a : α) (f : α → Except ε β) : ((.ok a : Except ε α) >>= f) = f a := rfl

theorem error_bind (e : ε) (f : α → Except ε β) : ((.error e : Except ε α) >>= f) = .error e := rfl

def orStop (e : ε) : Option α → Except ε α
  | none => .error e
  | some a => .ok a

def repeated (p : List ρ → Except ε (α × List ρ)) : ℕ → List ρ → Except ε (List α × List ρ)
  | 0, input => .ok ([], input)
  | n + 1, input => do
    let (a, input) ← p input
    let (as, input) ← repeated p n input
    return (a :: as, input)

theorem flatMap_append_length (f g : β → List ρ) (bs : List β) :
    (bs.flatMap (fun b => f b ++ g b)).length = (bs.flatMap f).length + (bs.flatMap g).length := by
  induction bs with
  | nil => rfl
  | cons b bs ih =>
    simp only [List.flatMap_cons, List.length_append] at ih ⊢
    omega

theorem flatMap_eq_append_iff (f g : β → List ρ) (bs : List β) :
    bs.flatMap f = bs.flatMap (fun b => f b ++ g b) ↔ ∀ b ∈ bs, g b = [] := by
  constructor
  · intro h
    have hlen := flatMap_append_length f g bs
    rw [← h] at hlen
    exact List.flatMap_eq_nil_iff.1 (List.length_eq_zero_iff.1 (by omega))
  · intro h
    induction bs with
    | nil => rfl
    | cons b bs ih =>
      rw [List.flatMap_cons, List.flatMap_cons, h b List.mem_cons_self, List.append_nil,
        ih (fun c hc => h c (List.mem_cons_of_mem _ hc))]

theorem repeated_encoding {p : List ρ → Except ε (α × List ρ)} {encode : β → List ρ} {value : β → α}
    (single : ∀ b rest, p (encode b ++ rest) = .ok (value b, rest)) (bs : List β) (rest : List ρ) :
    repeated p bs.length (bs.flatMap encode ++ rest) = .ok (bs.map value, rest) := by
  induction bs with
  | nil => rfl
  | cons b bs ih =>
    rw [List.length_cons, repeated, List.flatMap_cons, List.append_assoc, single, ok_bind]
    simp only [ih, ok_bind]
    rfl

theorem repeated_encoding_stop {p : List ρ → Except ε (α × List ρ)} {encode : β → List ρ}
    {value : β → α} {e : ε} (single : ∀ b rest, p (encode b ++ rest) = .ok (value b, rest))
    (bs : List β) (rest : List ρ) (stop : p rest = .error e) :
    repeated p (bs.length + 1) (bs.flatMap encode ++ rest) = .error e := by
  induction bs with
  | nil => rw [List.length_nil, repeated, List.flatMap_nil, List.nil_append, stop, error_bind]
  | cons b bs ih =>
    rw [List.length_cons, repeated, List.flatMap_cons, List.append_assoc, single, ok_bind]
    simp only [ih, error_bind]

theorem repeated_decoding {p : List ρ → Except ε (α × List ρ)} {encode : β → List ρ} {value : β → α}
    {good : ρ → Prop}
    (single : ∀ input a rest, (∀ r ∈ input, good r) → p input = .ok (a, rest) →
      ∃ b, input = encode b ++ rest ∧ value b = a)
    (n : ℕ) (input : List ρ) (as : List α) (rest : List ρ) (hgood : ∀ r ∈ input, good r)
    (h : repeated p n input = .ok (as, rest)) :
    ∃ bs : List β, input = bs.flatMap encode ++ rest ∧ bs.map value = as := by
  induction n generalizing input as with
  | zero =>
    cases h
    exact ⟨[], rfl, rfl⟩
  | succ n ih =>
    rw [repeated] at h
    obtain ⟨⟨a, mid⟩, ha, h⟩ := bind_eq_ok.1 h
    obtain ⟨⟨as', rest'⟩, has, h⟩ := bind_eq_ok.1 h
    cases h
    obtain ⟨b, rfl, rfl⟩ := single input a mid hgood ha
    obtain ⟨bs, rfl, rfl⟩ := ih mid as' (fun r hr => hgood r (List.mem_append_right _ hr)) has
    exact ⟨b :: bs, by rw [List.flatMap_cons, List.append_assoc], rfl⟩

def iterated (p : σ → List ρ → Except ε (σ × List ρ)) : ℕ → σ → List ρ → Except ε (σ × List ρ)
  | 0, s, input => .ok (s, input)
  | n + 1, s, input => do
    let (s, input) ← p s input
    iterated p n s input

theorem iterated_invariant {p : σ → List ρ → Except ε (σ × List ρ)} {I : σ → Prop}
    (step : ∀ s input s' rest, I s → p s input = .ok (s', rest) → I s')
    (n : ℕ) (s : σ) (input : List ρ) (s' : σ) (rest : List ρ) (h : I s)
    (run : iterated p n s input = .ok (s', rest)) : I s' := by
  induction n generalizing s input with
  | zero =>
    cases run
    exact h
  | succ n ih =>
    obtain ⟨⟨mid, input'⟩, hcall, hrest⟩ := bind_eq_ok.1 run
    exact ih mid input' (step s input mid input' h hcall) hrest

/-- `P` holds of every call of a list, in the state it is made in. -/
def AlongCalls (call : σ → α → σ) (P : σ → α → Prop) : σ → List α → Prop
  | _, [] => True
  | s, a :: as => P s a ∧ AlongCalls call P (call s a) as

theorem alongCalls_iff {call : σ → α → σ} {P Q : σ → α → Prop} (h : ∀ s a, P s a ↔ Q s a)
    (s : σ) (as : List α) : AlongCalls call P s as ↔ AlongCalls call Q s as := by
  induction as generalizing s with
  | nil => exact Iff.rfl
  | cons a as ih => exact and_congr (h s a) (ih (call s a))

end Stage0.Script
