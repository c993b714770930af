import Mathlib
import Stage0.Strtol

set_option autoImplicit false

/-!
# Numeric arguments (`get_num.c`)

Every argument is a string of bytes. A refused one ends the program with a text on the
standard error output.
-/
namespace Stage0.GetNum
open CInt Strtol
open Decimal (text)

def gnNonneg : ℕ := 0o1
def gnGt0 : ℕ := 0o2
def gnAnyBase : ℕ := 0o100
def gnBase8 : ℕ := 0o200
def gnBase16 : ℕ := 0o400

def gnFail (fname msg : String) (arg name : List UInt8) : List UInt8 :=
  text fname ++ text " error" ++ text " (in " ++ name ++ text ")" ++ text ": " ++ text msg ++ text "\n" ++
    if arg = [] then [] else text "        offending text: " ++ arg ++ text "\n"

def baseOf (flags : ℕ) : ℕ :=
  if flags &&& gnAnyBase ≠ 0 then 0 else if flags &&& gnBase8 ≠ 0 then 8
  else if flags &&& gnBase16 ≠ 0 then 16 else 10

def getNum (fname : String) (arg : List UInt8) (flags : ℕ) (name : List UInt8) : Except (List UInt8) ℤ :=
  if arg = [] then .error (gnFail fname "null or empty string" arg name)
  else
    let res := strtol arg (baseOf flags)
    if res.erange then .error (gnFail fname "strtol() failed" arg name)
    else if res.endptr ≠ [] then .error (gnFail fname "nonnumeric characters" arg name)
    else if flags &&& gnNonneg ≠ 0 ∧ res.value < 0 then
      .error (gnFail fname "negative value not allowed" arg name)
    else if flags &&& gnGt0 ≠ 0 ∧ res.value ≤ 0 then .error (gnFail fname "value must be > 0" arg name)
    else .ok res.value

def getLong (arg : List UInt8) (flags : ℕ) (name : List UInt8) : Except (List UInt8) ℤ :=
  getNum "getLong" arg flags name

def getInt (arg : List UInt8) (flags : ℕ) (name : List UInt8) : Except (List UInt8) ℤ :=
  match getNum "getInt" arg flags name with
  | .error t => .error t
  | .ok res =>
    if intMax < res ∨ res < intMin then .error (gnFail "getInt" "integer out of range" arg name)
    else .ok res

theorem bind_ok_iff {α β ε : Type} {x : Except ε α} {f : α → Except ε β} {b : β} :
    (x >>= f) = .ok b ↔ ∃ a, x = .ok a ∧ f a = .ok b := by
  cases x with
  | error e => simp only [bind, Except.bind, reduceCtorEq, false_and, exists_false]
  | ok a => simp only [bind, Except.bind, Except.ok.injEq, exists_eq_left']

theorem mapError_ok_iff {α ε ε' : Type} {x : Except ε α} {f : ε → ε'} {a : α} :
    x.mapError f = .ok a ↔ x = .ok a := by
  cases x with
  | error e => simp only [Except.mapError, reduceCtorEq]
  | ok b => simp only [Except.mapError, Except.ok.injEq]

/-- A numeral of the base, in range for a `long`, with the sign that is asked for. -/
def Accepted (flags : ℕ) (arg : List UInt8) (v : ℤ) : Prop :=
  Numeral (baseOf flags) arg v ∧ longMin ≤ v ∧ v ≤ longMax ∧ (flags &&& gnNonneg ≠ 0 → 0 ≤ v) ∧
    (flags &&& gnGt0 ≠ 0 → 0 < v)

section Accept

variable {fname : String} {arg name : List UInt8} {flags : ℕ} {v : ℤ}

theorem getNum_numeral (h : Numeral (baseOf flags) arg v) :
    getNum fname arg flags name =
      if v < longMin ∨ longMax < v then .error (gnFail fname "strtol() failed" arg name)
      else if flags &&& gnNonneg ≠ 0 ∧ v < 0 then
        .error (gnFail fname "negative value not allowed" arg name)
      else if flags &&& gnGt0 ≠ 0 ∧ v ≤ 0 then .error (gnFail fname "value must be > 0" arg name)
      else .ok v := by
  rw [getNum, if_neg (numeral_ne_nil h)]
  simp only [strtol_numeral h]
  by_cases hlo : v < longMin
  · rw [if_pos hlo, if_pos rfl, if_pos (Or.inl hlo)]
  · by_cases hhi : longMax < v
    · rw [if_neg hlo, if_pos hhi, if_pos rfl, if_pos (Or.inr hhi)]
    · rw [if_neg hlo, if_neg hhi, if_neg (not_or.2 ⟨hlo, hhi⟩)]
      rfl

theorem getNum_junk (h : ∀ v, ¬Numeral (baseOf flags) arg v) :
    ∃ msg, getNum fname arg flags name = .error (gnFail fname msg arg name) := by
  unfold getNum
  by_cases harg : arg = []
  · exact ⟨_, if_pos harg⟩
  · rw [if_neg harg]
    have hend : (strtol arg (baseOf flags)).endptr ≠ [] := by
      intro hend
      obtain ⟨v, hv⟩ := (strtol_whole harg).1 hend
      exact h v hv
    simp only [if_pos hend]
    split
    · exact ⟨_, rfl⟩
    · exact ⟨_, rfl⟩

theorem getNum_ok_iff : getNum fname arg flags name = .ok v ↔ Accepted flags arg v := by
  constructor
  · intro h
    by_cases hnum : ∃ v', Numeral (baseOf flags) arg v'
    · obtain ⟨v', hv'⟩ := hnum
      rw [getNum_numeral hv'] at h
      split at h
      · cases h
      · rename_i hrange
        split at h
        · cases h
        · rename_i hnonneg
          split at h
          · cases h
          · rename_i hpos
            obtain rfl := Except.ok.inj h
            refine ⟨hv', ?_, ?_, ?_, ?_⟩ <;> grind
    · obtain ⟨msg, hmsg⟩ := @getNum_junk fname arg name flags (fun v hv => hnum ⟨v, hv⟩)
      rw [hmsg] at h
      cases h
  · rintro ⟨hnum, hlo, hhi, hnonneg, hpos⟩
    have hrange : ¬(v < longMin ∨ longMax < v) := by omega
    have hsign : ¬(flags &&& gnNonneg ≠ 0 ∧ v < 0) := fun h => absurd (hnonneg h.1) (by omega)
    have hzero : ¬(flags &&& gnGt0 ≠ 0 ∧ v ≤ 0) := fun h => absurd (hpos h.1) (by omega)
    rw [getNum_numeral hnum, if_neg hrange, if_neg hsign, if_neg hzero]

theorem getInt_ok_iff : getInt arg flags name = .ok v ↔ Accepted flags arg v ∧ intMin ≤ v ∧ v ≤ intMax := by
  rw [← @getNum_ok_iff "getInt" arg name, getInt]
  cases getNum "getInt" arg flags name with
  | error t => simp
  | ok res =>
    by_cases hrange : intMax < res ∨ res < intMin
    · simp only [if_pos hrange, reduceCtorEq, Except.ok.injEq, false_iff]
      omega
    · simp only [if_neg hrange, Except.ok.injEq]
      omega

end Accept

/-! ### Printed numbers -/

theorem decimal_digit {c : UInt8} (h : Decimal.isDigit c = true) :
    isDigit 10 c = true ∧ digitValue c = some (Decimal.digitValue c) := by
  revert h
  revert c
  decide +kernel

theorem number_decimal {digits : List UInt8} (h : ∀ c ∈ digits, Decimal.isDigit c = true) :
    number 10 digits = Decimal.decimal digits := by
  unfold number Decimal.decimal
  apply List.foldl_ext
  intro n c hc
  rw [(decimal_digit (h c hc)).2, Option.getD_some]

theorem formatNat_head {n : ℕ} (h : 0 < n) : ∃ c s, Decimal.formatNat n = c :: s ∧ c ≠ 48 := by
  induction n using Nat.strong_induction_on with
  | _ n ih =>
    by_cases hn : n < 10
    · have hdigit : ∀ d : Fin 10, 0 < (d : ℕ) → Decimal.digitByte d ≠ 48 := by decide
      exact ⟨_, [], Decimal.formatNat_small hn, hdigit ⟨n, hn⟩ h⟩
    · obtain ⟨c, s, hs, hc⟩ := ih (n / 10) (by omega) (by omega)
      refine ⟨c, s ++ [Decimal.digitByte (n % 10)], ?_, hc⟩
      rw [Decimal.formatNat_large (by omega), hs]
      rfl

theorem digits_formatNat (n : ℕ) : Digits 10 (Decimal.formatNat n) := by
  refine ⟨?_, fun c hc => (decimal_digit (Decimal.formatNat_digits n c hc)).1⟩
  by_cases hn : n < 10
  · rw [Decimal.formatNat_small hn]
    exact List.cons_ne_nil _ _
  · rw [Decimal.formatNat_large (by omega)]
    exact List.append_ne_nil_of_right_ne_nil _ (List.cons_ne_nil _ _)

theorem denotes_formatNat {base : ℕ} (hbase : base = 0 ∨ base = 10) (n : ℕ) :
    Denotes base (Decimal.formatNat n) n := by
  have hvalue : number 10 (Decimal.formatNat n) = n := by
    rw [number_decimal (Decimal.formatNat_digits n), Decimal.decimal_formatNat]
  rcases hbase with rfl | rfl
  · rcases Nat.eq_zero_or_pos n with rfl | hn
    · have hzero : Digits 8 [48] := ⟨List.cons_ne_nil _ _, fun c hc => List.mem_singleton.1 hc ▸ rfl⟩
      exact .octal rfl rfl hzero
    · obtain ⟨c, s, hs, hc⟩ := formatNat_head hn
      have hhead : (Decimal.formatNat n).head? ≠ some 48 := by
        rw [hs]
        exact fun h => hc (Option.some.inj h)
      have hdenotes := Denotes.decimal rfl hhead (digits_formatNat n)
      rw [hvalue] at hdenotes
      exact hdenotes
  · have hdenotes := Denotes.plain (by decide) (digits_formatNat n)
    rw [hvalue] at hdenotes
    exact hdenotes

theorem numeral_formatInt {base : ℕ} (hbase : base = 0 ∨ base = 10) (n : ℤ) :
    Numeral base (Decimal.formatInt n) n := by
  unfold Decimal.formatInt
  split
  · refine ⟨[], _, .minus, n.natAbs, rfl, by simp, denotes_formatNat hbase _, ?_⟩
    simp only [Decimal.signed]
    omega
  · refine ⟨[], _, .none, n.natAbs, rfl, by simp, denotes_formatNat hbase _, ?_⟩
    simp only [Decimal.signed]
    omega

/-- What `printf` prints for a number, `getLong` reads as that number. -/
theorem getLong_formatInt {flags : ℕ} (hbase : baseOf flags = 0 ∨ baseOf flags = 10) (n : ℤ)
    (name : List UInt8) :
    getLong (Decimal.formatInt n) flags name = .ok n ↔ longMin ≤ n ∧ n ≤ longMax ∧
      (flags &&& gnNonneg ≠ 0 → 0 ≤ n) ∧ (flags &&& gnGt0 ≠ 0 → 0 < n) := by
  rw [getLong, getNum_ok_iff, Accepted]
  exact and_iff_right (numeral_formatInt hbase n)

theorem getLong_formatInt_max : getLong (Decimal.formatInt longMax) gnAnyBase [] = .ok longMax :=
  (getLong_formatInt (.inl rfl) longMax []).2 ⟨by decide, le_rfl, by decide, by decide⟩

end Stage0.GetNum
