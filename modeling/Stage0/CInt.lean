import Mathlib

set_option autoImplicit false

/-!
# The integer types of C

An `int` has 32 bits and a `long` 64.
-/
namespace Stage0.CInt

def intMin : ℤ := -2 ^ 31
def intMax : ℤ := 2 ^ 31 - 1
def longMin : ℤ := -2 ^ 63
def longMax : ℤ := 2 ^ 63 - 1

def Fits (v : ℤ) : Prop := -2 ^ 31 ≤ v ∧ v < 2 ^ 31

instance (v : ℤ) : Decidable (Fits v) := inferInstanceAs (Decidable (_ ∧ _))

/-- The conversion to `int`, which keeps the low 32 bits. -/
def wrap (v : ℤ) : ℤ := Int.bmod v (2 ^ 32)

/-- The nearest `long`. -/
def clampLong (v : ℤ) : ℤ := max longMin (min longMax v)

theorem wrap_fits (v : ℤ) : Fits (wrap v) := by
  have hle := Int.le_bmod (x := v) (m := 2 ^ 32) (by decide)
  have hlt := Int.bmod_lt (x := v) (m := 2 ^ 32) (by decide)
  unfold wrap Fits
  omega

theorem wrap_eq_iff {v : ℤ} : wrap v = v ↔ Fits v := by
  constructor
  · intro h
    rw [← h]
    exact wrap_fits v
  · rintro ⟨hlo, hhi⟩
    exact Int.bmod_eq_of_le (by omega) (by omega)

theorem wrap_add_wrap (v w : ℤ) : wrap (wrap v + w) = wrap (v + w) := Int.bmod_add_bmod

theorem clampLong_fits {v : ℤ} (h : Fits v) : clampLong v = v := by
  unfold Fits at h
  unfold clampLong longMin longMax
  omega

end Stage0.CInt
