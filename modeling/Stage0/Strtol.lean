import Mathlib
import Stage0.CInt
import Stage0.Decimal

set_option autoImplicit false

/-!
# `strtol` and the numerals it reads whole

White space, a sign, and the longest run of digits of the base. Base 0 takes the base
from the beginning of the number, and bases 0 and 16 skip `0x` before a digit.
-/
namespace Stage0.Strtol
open CInt
open Decimal (isSpace Sign takeSign signed)

def digitValue (c : UInt8) : Option ℕ :=
  if 48 ≤ c ∧ c ≤ 57 then some (c.toNat - 48)
  else if 65 ≤ c ∧ c ≤ 90 then some (c.toNat - 55)
  else if 97 ≤ c ∧ c ≤ 122 then some (c.toNat - 87)
  else none

def isDigit (radix : ℕ) (c : UInt8) : Bool := (digitValue c).any (· < radix)

def number (radix : ℕ) (digits : List UInt8) : ℕ :=
  digits.foldl (fun n c => radix * n + (digitValue c).getD 0) 0

def hexPrefix (t : List UInt8) : Prop :=
  t[0]? = some 48 ∧ (t[1]? = some 120 ∨ t[1]? = some 88) ∧ t[2]?.any (isDigit 16) = true

instance (t : List UInt8) : Decidable (hexPrefix t) := by
  unfold hexPrefix
  infer_instance

/-- The radix and the bytes in which its digits are looked for. -/
def chooseBase (base : ℕ) (t : List UInt8) : ℕ × List UInt8 :=
  if (base = 0 ∨ base = 16) ∧ hexPrefix t then (16, t.drop 2)
  else if base = 0 then (if t.head? = some 48 then 8 else 10, t)
  else (base, t)

def scanBody (base : ℕ) (t : List UInt8) : Option (ℕ × List UInt8) :=
  let (radix, t) := chooseBase base t
  let digits := t.takeWhile (isDigit radix)
  if digits = [] then none else some (number radix digits, t.dropWhile (isDigit radix))

/-- `endptr` is given by the bytes from it on. -/
structure Result where
  value : ℤ
  endptr : List UInt8
  erange : Bool
  deriving DecidableEq, Repr

def strtol (nptr : List UInt8) (base : ℕ) : Result :=
  let (sign, t) := takeSign (nptr.dropWhile isSpace)
  match scanBody base t with
  | none => ⟨0, nptr, false⟩
  | some (n, rest) =>
    if signed sign n < longMin then ⟨longMin, rest, true⟩
    else if longMax < signed sign n then ⟨longMax, rest, true⟩
    else ⟨signed sign n, rest, false⟩

/-! ### Numerals -/

def Digits (radix : ℕ) (ds : List UInt8) : Prop := ds ≠ [] ∧ ∀ c ∈ ds, isDigit radix c = true

/-- The bytes are a number without a sign. -/
inductive Denotes (base : ℕ) : List UInt8 → ℕ → Prop
  | plain {ds : List UInt8} : base ≠ 0 → Digits base ds → Denotes base ds (number base ds)
  | hex {x : UInt8} {ds : List UInt8} : base = 0 ∨ base = 16 → x = 120 ∨ x = 88 → Digits 16 ds →
      Denotes base (48 :: x :: ds) (number 16 ds)
  | octal {ds : List UInt8} : base = 0 → ds.head? = some 48 → Digits 8 ds → Denotes base ds (number 8 ds)
  | decimal {ds : List UInt8} : base = 0 → ds.head? ≠ some 48 → Digits 10 ds →
      Denotes base ds (number 10 ds)

/-- White space, a sign and a number, and nothing after it. -/
def Numeral (base : ℕ) (s : List UInt8) (v : ℤ) : Prop :=
  ∃ (space body : List UInt8) (sign : Sign) (n : ℕ), s = space ++ (sign.bytes ++ body) ∧
    (∀ c ∈ space, isSpace c = true) ∧ Denotes base body n ∧ v = signed sign n

theorem digit_sixteen_bounds {c : UInt8} (h : isDigit 16 c = true) : c ≠ 120 ∧ c ≠ 88 := by
  revert h
  revert c
  decide +kernel

theorem isDigit_iff {radix : ℕ} {c : UInt8} :
    isDigit radix c = true ↔ ∃ d, digitValue c = some d ∧ d < radix := by
  rw [isDigit, Option.any_eq_true]
  simp only [decide_eq_true_eq]

theorem isDigit_mono {radix radix' : ℕ} (hle : radix ≤ radix') {c : UInt8} (h : isDigit radix c = true) :
    isDigit radix' c = true := by
  obtain ⟨d, hd, hlt⟩ := isDigit_iff.1 h
  exact isDigit_iff.2 ⟨d, hd, by omega⟩

theorem takeWhile_digits {radix : ℕ} {ds : List UInt8} (h : ∀ c ∈ ds, isDigit radix c = true) :
    ds.takeWhile (isDigit radix) = ds ∧ ds.dropWhile (isDigit radix) = [] :=
  ⟨List.takeWhile_eq_self_iff.2 h, List.dropWhile_eq_nil_iff.2 h⟩

theorem scanBody_eq_some {base n : ℕ} {t : List UInt8} :
    scanBody base t = some (n, []) ↔
      Digits (chooseBase base t).1 (chooseBase base t).2 ∧
        n = number (chooseBase base t).1 (chooseBase base t).2 := by
  simp only [scanBody]
  generalize (chooseBase base t).1 = radix
  generalize (chooseBase base t).2 = ds
  constructor
  · intro h
    split at h
    · cases h
    · rename_i hne
      obtain ⟨hn, hrest⟩ := Prod.mk.inj (Option.some.inj h)
      have hall := List.dropWhile_eq_nil_iff.1 hrest
      rw [List.takeWhile_eq_self_iff.2 hall] at hn hne
      exact ⟨⟨hne, hall⟩, hn.symm⟩
  · rintro ⟨⟨hne, hall⟩, rfl⟩
    obtain ⟨htake, hdrop⟩ := takeWhile_digits hall
    rw [htake, hdrop, if_neg hne]

theorem hexPrefix_iff {t : List UInt8} :
    hexPrefix t ↔ ∃ x c ds, t = 48 :: x :: c :: ds ∧ (x = 120 ∨ x = 88) ∧ isDigit 16 c = true := by
  constructor
  · rintro ⟨h0, h1, h2⟩
    match t with
    | [] => cases h0
    | [_] => simp at h1
    | [_, _] => simp at h2
    | a :: x :: c :: ds =>
      simp only [List.getElem?_cons_zero, List.getElem?_cons_succ, Option.some.injEq, Option.any_some] at h0 h1 h2
      exact ⟨x, c, ds, by rw [h0], h1, h2⟩
  · rintro ⟨x, c, ds, rfl, hx, hc⟩
    exact ⟨rfl, hx.imp (congrArg some) (congrArg some), hc⟩

theorem scanBody_denotes {base n : ℕ} {t : List UInt8} :
    scanBody base t = some (n, []) ↔ Denotes base t n := by
  rw [scanBody_eq_some]
  constructor
  · rintro ⟨hdigits, rfl⟩
    unfold chooseBase at hdigits ⊢
    by_cases hhex : (base = 0 ∨ base = 16) ∧ hexPrefix t
    · rw [if_pos hhex] at hdigits ⊢
      obtain ⟨x, c, ds, rfl, hx, -⟩ := hexPrefix_iff.1 hhex.2
      exact .hex hhex.1 hx hdigits
    · rw [if_neg hhex] at hdigits ⊢
      by_cases h0 : base = 0
      · rw [if_pos h0] at hdigits ⊢
        by_cases hhead : t.head? = some 48
        · simp only [if_pos hhead] at hdigits ⊢
          exact .octal h0 hhead hdigits
        · simp only [if_neg hhead] at hdigits ⊢
          exact .decimal h0 hhead hdigits
      · rw [if_neg h0] at hdigits ⊢
        exact .plain h0 hdigits
  · intro h
    have hplain : ∀ {radix : ℕ}, radix ≤ 16 → Digits radix t → ¬hexPrefix t := by
      intro radix hradix hdigits hhex
      obtain ⟨x, c, ds, rfl, hx, -⟩ := hexPrefix_iff.1 hhex
      have hdigit := isDigit_mono hradix (hdigits.2 x (by simp))
      exact hx.elim (digit_sixteen_bounds hdigit).1 (digit_sixteen_bounds hdigit).2
    unfold chooseBase
    cases h with
    | plain h0 hdigits =>
      have hno : ¬((base = 0 ∨ base = 16) ∧ hexPrefix t) := by
        rintro ⟨h0' | h16, hhex⟩
        · exact h0 h0'
        · exact hplain h16.le hdigits hhex
      rw [if_neg hno, if_neg h0]
      exact ⟨hdigits, rfl⟩
    | @hex x ds hbase hx hdigits =>
      obtain ⟨c, ds, rfl⟩ := List.exists_cons_of_ne_nil hdigits.1
      have hhex := hexPrefix_iff.2 ⟨x, c, ds, rfl, hx, hdigits.2 c List.mem_cons_self⟩
      rw [if_pos ⟨hbase, hhex⟩]
      exact ⟨hdigits, rfl⟩
    | octal h0 hhead hdigits =>
      rw [if_neg (fun h => hplain (by decide) hdigits h.2), if_pos h0, if_pos hhead]
      exact ⟨hdigits, rfl⟩
    | decimal h0 hhead hdigits =>
      rw [if_neg (fun h => hplain (by decide) hdigits h.2), if_pos h0, if_neg hhead]
      exact ⟨hdigits, rfl⟩

theorem denotes_head {base n : ℕ} {t : List UInt8} (h : Denotes base t n) :
    ∃ c s, t = c :: s ∧ (digitValue c).isSome = true := by
  have hdigits : ∀ {radix : ℕ} {ds : List UInt8}, Digits radix ds → ∃ c s, ds = c :: s ∧ (digitValue c).isSome = true := by
    rintro radix ds ⟨hne, hall⟩
    obtain ⟨c, s, rfl⟩ := List.exists_cons_of_ne_nil hne
    obtain ⟨d, hd, -⟩ := isDigit_iff.1 (hall c List.mem_cons_self)
    exact ⟨c, s, rfl, by rw [hd]; rfl⟩
  cases h with
  | plain _ h | octal _ _ h | decimal _ _ h => exact hdigits h
  | hex => exact ⟨_, _, rfl, rfl⟩

theorem numeral_ne_nil {base : ℕ} {s : List UInt8} {v : ℤ} (h : Numeral base s v) : s ≠ [] := by
  obtain ⟨space, body, sign, n, rfl, -, hbody, -⟩ := h
  obtain ⟨c, t, rfl, -⟩ := denotes_head hbody
  simp

theorem digit_not_sign {c : UInt8} (h : (digitValue c).isSome = true) :
    c ≠ '-'.toUInt8 ∧ c ≠ '+'.toUInt8 ∧ isSpace c = false := by
  revert h
  revert c
  decide +kernel

theorem sign_first {base n : ℕ} {body : List UInt8} (sign : Sign) (h : Denotes base body n) :
    takeSign (sign.bytes ++ body) = (sign, body) ∧
      ∀ c ∈ (sign.bytes ++ body).head?, isSpace c = false := by
  obtain ⟨c, s, rfl, hc⟩ := denotes_head h
  obtain ⟨hminus, hplus, hspace⟩ := digit_not_sign hc
  cases sign with
  | none =>
    constructor
    · change (if c = '-'.toUInt8 then _ else if c = '+'.toUInt8 then _ else _) = _
      rw [if_neg hminus, if_neg hplus]
    · rintro d hd
      obtain rfl : c = d := Option.some.inj hd
      exact hspace
  | plus | minus => exact ⟨rfl, fun d hd => by obtain rfl := Option.some.inj hd; decide⟩

/-- What `strtol` says of a numeral: the value, or the nearest `long` and an error. -/
theorem strtol_numeral {base : ℕ} {s : List UInt8} {v : ℤ} (h : Numeral base s v) :
    strtol s base = if v < longMin then ⟨longMin, [], true⟩ else if longMax < v then ⟨longMax, [], true⟩
      else ⟨v, [], false⟩ := by
  obtain ⟨space, body, sign, n, rfl, hspace, hbody, rfl⟩ := h
  obtain ⟨hsign, hhead⟩ := sign_first sign hbody
  have hdrop := (Decimal.takeWhile_run hspace hhead).2
  simp only [strtol, hdrop, hsign, scanBody_denotes.2 hbody]

/-- `strtol` reads to the end of a string exactly when the string is a numeral. -/
theorem strtol_whole {base : ℕ} {s : List UInt8} (hs : s ≠ []) :
    (strtol s base).endptr = [] ↔ ∃ v, Numeral base s v := by
  constructor
  · intro h
    have hsplit : s.takeWhile isSpace ++ s.dropWhile isSpace = s := List.takeWhile_append_dropWhile
    have hsigned := Decimal.takeSign_bytes (s.dropWhile isSpace)
    simp only [strtol] at h
    generalize takeSign (s.dropWhile isSpace) = p at h hsigned
    obtain ⟨sign, t⟩ := p
    simp only at h hsigned
    cases hbody : scanBody base t with
    | none =>
      rw [hbody] at h
      exact absurd h hs
    | some r =>
      obtain ⟨n, rest⟩ := r
      have hrest : rest = [] := by
        rw [hbody] at h
        simp only at h
        split at h
        · exact h
        · split at h <;> exact h
      rw [hrest] at hbody
      refine ⟨signed sign n, s.takeWhile isSpace, t, sign, n, ?_, fun c hc => List.mem_takeWhile_imp hc,
        scanBody_denotes.1 hbody, rfl⟩
      rw [← hsigned, hsplit]
  · rintro ⟨v, hv⟩
    rw [strtol_numeral hv]
    split
    · rfl
    · split <;> rfl

end Stage0.Strtol
