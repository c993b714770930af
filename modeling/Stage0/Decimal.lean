import Mathlib

set_option autoImplicit false

/-!
# Decimal numbers as bytes

Printing with `%d` and reading with `%d`. Reading skips white space, takes an
optional sign and the longest run of digits, and needs at least one of these.
-/
namespace Stage0.Decimal

def isDigit (c : UInt8) : Bool := decide (48 ≤ c ∧ c ≤ 57)
def isSpace (c : UInt8) : Bool := decide (c = 32 ∨ (9 ≤ c ∧ c ≤ 13))
def digitValue (c : UInt8) : ℕ := c.toNat - 48

def decimal (digits : List UInt8) : ℕ := digits.foldl (fun n c => 10 * n + digitValue c) 0

theorem decimal_concat (digits : List UInt8) (c : UInt8) :
    decimal (digits ++ [c]) = 10 * decimal digits + digitValue c :=
  List.foldl_concat _ _ _ _

/-! ### Printing -/

def formatNat (n : ℕ) : List UInt8 := (Nat.toDigits 10 n).map Char.toUInt8

def text (s : String) : List UInt8 := s.toList.map Char.toUInt8

/-- What `printf` prints for `%d`. -/
def formatInt (n : ℤ) : List UInt8 :=
  if n < 0 then '-'.toUInt8 :: formatNat n.natAbs else formatNat n.natAbs

def digitByte (d : ℕ) : UInt8 := (Nat.digitChar d).toUInt8

theorem digitByte_spec (d : ℕ) (h : d < 10) :
    isDigit (digitByte d) = true ∧ digitValue (digitByte d) = d := by
  have hall : ∀ d : Fin 10, isDigit (digitByte d) = true ∧ digitValue (digitByte d) = d := by
    decide
  exact hall ⟨d, h⟩

theorem formatNat_small {n : ℕ} (h : n < 10) : formatNat n = [digitByte n] := by
  rw [formatNat, Nat.toDigits_of_lt_base h]
  rfl

theorem formatNat_large {n : ℕ} (h : 10 ≤ n) :
    formatNat n = formatNat (n / 10) ++ [digitByte (n % 10)] := by
  rw [formatNat, Nat.toDigits_of_base_le (by omega) h, List.map_append]
  rfl

theorem formatNat_digits (n : ℕ) : ∀ c ∈ formatNat n, isDigit c = true := by
  induction n using Nat.strong_induction_on with
  | _ n ih =>
    intro c hc
    by_cases h : n < 10
    · rw [formatNat_small h, List.mem_singleton] at hc
      exact hc ▸ (digitByte_spec n h).1
    · rw [formatNat_large (by omega), List.mem_append, List.mem_singleton] at hc
      rcases hc with hc | rfl
      · exact ih (n / 10) (by omega) c hc
      · exact (digitByte_spec _ (by omega)).1

theorem decimal_formatNat (n : ℕ) : decimal (formatNat n) = n := by
  induction n using Nat.strong_induction_on with
  | _ n ih =>
    by_cases h : n < 10
    · rw [formatNat_small h]
      have hv := (digitByte_spec n h).2
      simp only [decimal, List.foldl_cons, List.foldl_nil, hv]
      omega
    · rw [formatNat_large (by omega), decimal_concat, ih (n / 10) (by omega),
        (digitByte_spec _ (by omega)).2]
      omega

theorem formatNat_length {n k : ℕ} (hk : 0 < k) (h : n < 10 ^ k) : (formatNat n).length ≤ k := by
  rw [formatNat, List.length_map]
  exact (Nat.length_toDigits_le_iff (by omega) hk).2 h

theorem formatInt_length {v : ℤ} (h : -2 ^ 31 ≤ v ∧ v < 2 ^ 31) : (formatInt v).length ≤ 11 := by
  have hdigits : (formatNat v.natAbs).length ≤ 10 := formatNat_length (by omega) (by omega)
  unfold formatInt
  split
  · rw [List.length_cons]
    omega
  · omega

/-! ### Reading -/

inductive Sign where
  | none
  | plus
  | minus
  deriving DecidableEq, Repr

def Sign.bytes : Sign → List UInt8
  | .none => []
  | .plus => ['+'.toUInt8]
  | .minus => ['-'.toUInt8]

def takeSign : List UInt8 → Sign × List UInt8
  | [] => (.none, [])
  | c :: s =>
    if c = '-'.toUInt8 then (.minus, s)
    else if c = '+'.toUInt8 then (.plus, s)
    else (.none, c :: s)

def signed (sign : Sign) (n : ℕ) : ℤ :=
  match sign with
  | .minus => -(n : ℤ)
  | _ => n

/-- The conversion `%d`: the number and the bytes after it. -/
def scanInt (s : List UInt8) : Option (ℤ × List UInt8) :=
  let (sign, t) := takeSign (s.dropWhile isSpace)
  let digits := t.takeWhile isDigit
  if digits = [] then none else some (signed sign (decimal digits), t.dropWhile isDigit)

/-- A number as `%d` reads it. -/
@[ext] structure Numeral where
  space : List UInt8
  sign : Sign
  digits : List UInt8
  isSpace : ∀ c ∈ space, isSpace c = true
  isDigit : ∀ c ∈ digits, isDigit c = true
  nonempty : digits ≠ []

def Numeral.bytes (m : Numeral) : List UInt8 := m.space ++ (m.sign.bytes ++ m.digits)

def Numeral.value (m : Numeral) : ℤ := signed m.sign (decimal m.digits)

/-- The next byte, if there is one, is not a digit. -/
def NoDigit (s : List UInt8) : Prop := ∀ c ∈ s.head?, isDigit c = false

theorem noDigit_nil : NoDigit [] := fun c hc => by cases hc

theorem noDigit_cons {c : UInt8} (h : isDigit c = false) (s : List UInt8) : NoDigit (c :: s) := by
  intro d hd
  obtain rfl : c = d := by simpa using hd
  exact h

theorem noDigit_takeWhile {s : List UInt8} (h : NoDigit s) (p : UInt8 → Bool) :
    NoDigit (s.takeWhile p) := by
  cases s with
  | nil => exact h
  | cons c s =>
    rw [List.takeWhile_cons]
    split
    · exact noDigit_cons (h c rfl) _
    · exact noDigit_nil

theorem takeWhile_run {p : UInt8 → Bool} {xs rest : List UInt8} (hx : ∀ c ∈ xs, p c = true)
    (hr : ∀ c ∈ rest.head?, p c = false) :
    (xs ++ rest).takeWhile p = xs ∧ (xs ++ rest).dropWhile p = rest := by
  rw [List.takeWhile_append_of_pos hx, List.dropWhile_append_of_pos hx]
  cases rest with
  | nil => simp
  | cons c rest =>
    have hc : p c = false := hr c rfl
    simp [hc]

theorem digit_not_sign {c : UInt8} (h : isDigit c = true) :
    c ≠ '-'.toUInt8 ∧ c ≠ '+'.toUInt8 ∧ isSpace c = false := by
  revert h
  revert c
  decide +kernel

theorem sign_not_space (sign : Sign) (digits : List UInt8) (h : ∀ c ∈ digits, isDigit c = true)
    (rest : List UInt8) (hd : digits ≠ []) :
    ∀ c ∈ (sign.bytes ++ digits ++ rest).head?, isSpace c = false := by
  intro c hc
  cases digits with
  | nil => exact absurd rfl hd
  | cons d digits =>
    cases sign with
    | none =>
      obtain rfl : d = c := by simpa [Sign.bytes] using hc
      exact (digit_not_sign (h d List.mem_cons_self)).2.2
    | plus =>
      obtain rfl : '+'.toUInt8 = c := by simpa [Sign.bytes] using hc
      decide
    | minus =>
      obtain rfl : '-'.toUInt8 = c := by simpa [Sign.bytes] using hc
      decide

theorem takeSign_run (sign : Sign) {digits rest : List UInt8} (h : ∀ c ∈ digits, isDigit c = true)
    (hd : digits ≠ []) : takeSign (sign.bytes ++ digits ++ rest) = (sign, digits ++ rest) := by
  cases digits with
  | nil => exact absurd rfl hd
  | cons d digits =>
    have hsign := digit_not_sign (h d List.mem_cons_self)
    cases sign with
    | none =>
      change (if d = '-'.toUInt8 then _ else if d = '+'.toUInt8 then _ else _) = _
      rw [if_neg hsign.1, if_neg hsign.2.1]
      rfl
    | plus => rfl
    | minus => rfl

theorem numeral_parts (m : Numeral) {rest : List UInt8} (hr : NoDigit rest) :
    (m.bytes ++ rest).takeWhile isSpace = m.space ∧
      takeSign ((m.bytes ++ rest).dropWhile isSpace) = (m.sign, m.digits ++ rest) ∧
      (m.digits ++ rest).takeWhile isDigit = m.digits ∧
      (m.digits ++ rest).dropWhile isDigit = rest := by
  have hspace := takeWhile_run m.isSpace (sign_not_space m.sign m.digits m.isDigit rest m.nonempty)
  have hsplit : m.bytes ++ rest = m.space ++ (m.sign.bytes ++ m.digits ++ rest) := by
    simp only [Numeral.bytes, List.append_assoc]
  rw [hsplit]
  refine ⟨hspace.1, ?_, takeWhile_run m.isDigit hr⟩
  rw [hspace.2]
  exact takeSign_run m.sign m.isDigit m.nonempty

theorem scanInt_run (m : Numeral) {rest : List UInt8} (hr : NoDigit rest) :
    scanInt (m.bytes ++ rest) = some (m.value, rest) := by
  obtain ⟨-, hsign, hdigits, hrest⟩ := numeral_parts m hr
  simp only [scanInt, hsign, hdigits, hrest, if_neg m.nonempty, Numeral.value]

theorem numeral_unique {m n : Numeral} {rest rest' : List UInt8} (hr : NoDigit rest)
    (hr' : NoDigit rest') (h : m.bytes ++ rest = n.bytes ++ rest') : m = n ∧ rest = rest' := by
  obtain ⟨hspace, hsign, hdigits, -⟩ := numeral_parts m hr
  obtain ⟨hspace', hsign', hdigits', -⟩ := numeral_parts n hr'
  rw [h] at hspace hsign
  obtain ⟨hs, ht⟩ := Prod.mk.inj (hsign.symm.trans hsign')
  rw [ht] at hdigits
  have hm : m = n :=
    Numeral.ext (hspace.symm.trans hspace') hs (hdigits.symm.trans hdigits')
  exact ⟨hm, List.append_cancel_left (hm ▸ h)⟩

theorem numeral_ne_zero (m : Numeral) : ∀ c ∈ m.bytes, c ≠ 0 := by
  have hspace : isSpace 0 = false := by decide
  have hdigit : isDigit 0 = false := by decide
  rintro c hc rfl
  rcases List.mem_append.1 hc with hc | hc
  · exact absurd (m.isSpace 0 hc) (by rw [hspace]; decide)
  · rcases List.mem_append.1 hc with hc | hc
    · cases hs : m.sign <;> rw [hs] at hc <;> revert hc <;> decide
    · exact absurd (m.isDigit 0 hc) (by rw [hdigit]; decide)

theorem takeSign_bytes (s : List UInt8) : s = (takeSign s).1.bytes ++ (takeSign s).2 := by
  cases s with
  | nil => rfl
  | cons c s =>
    by_cases hminus : c = '-'.toUInt8
    · rw [hminus]
      rfl
    · by_cases hplus : c = '+'.toUInt8
      · rw [hplus]
        rfl
      · rw [takeSign, if_neg hminus, if_neg hplus]
        rfl

/-- `%d` reads exactly the numerals. -/
theorem scanInt_eq_some {s rest : List UInt8} {v : ℤ} :
    scanInt s = some (v, rest) ↔
      ∃ m : Numeral, s = m.bytes ++ rest ∧ m.value = v ∧ NoDigit rest := by
  constructor
  · intro h
    have hs : s.takeWhile isSpace ++ s.dropWhile isSpace = s := List.takeWhile_append_dropWhile
    have ht := takeSign_bytes (s.dropWhile isSpace)
    simp only [scanInt] at h
    generalize hsign : takeSign (s.dropWhile isSpace) = p at h ht
    obtain ⟨sign, t⟩ := p
    simp only at h ht
    split at h
    · cases h
    · rename_i hd
      obtain ⟨hv, hr⟩ := Prod.mk.inj (Option.some.inj h)
      have htd : t.takeWhile isDigit ++ t.dropWhile isDigit = t := List.takeWhile_append_dropWhile
      refine ⟨⟨s.takeWhile isSpace, sign, t.takeWhile isDigit,
        fun c hc => List.mem_takeWhile_imp hc, fun c hc => List.mem_takeWhile_imp hc, hd⟩, ?_, hv, ?_⟩
      · rw [← hr]
        simp only [Numeral.bytes, List.append_assoc, htd, ← ht, hs]
      · rw [← hr]
        intro c hc
        have hne := List.head?_dropWhile_not isDigit t
        rw [Option.mem_def.1 hc] at hne
        simpa using hne
  · rintro ⟨m, rfl, rfl, hr⟩
    exact scanInt_run m hr

end Stage0.Decimal
