import Mathlib

set_option autoImplicit false

/-!
# Descriptor tables

The table of a process maps descriptors to open file descriptions, below a limit for
new descriptors. The calls follow POSIX and leave the table alone when they fail.
-/
namespace Stage0.Descriptors

variable {δ : Type*}

inductive Errno where
  | EBADF | EINVAL | EMFILE
  deriving DecidableEq, Repr

/-- An open file description: its status flags and the object behind them. -/
structure OpenFile (δ : Type*) where
  flags : ℕ
  object : δ

structure Entry (δ : Type*) where
  description : OpenFile δ
  cloexec : Bool

structure Table (δ : Type*) where
  entry : ℕ → Option (Entry δ)
  limit : ℕ

namespace Table

def get (t : Table δ) (fd : ℤ) : Option (Entry δ) := if 0 ≤ fd then t.entry fd.toNat else none

def set (t : Table δ) (fd : ℕ) (e : Option (Entry δ)) : Table δ :=
  { t with entry := Function.update t.entry fd e }

/-- `fcntl(fd, F_GETFL)` -/
def getfl (t : Table δ) (fd : ℤ) : Except Errno (ℕ × Table δ) :=
  match t.get fd with
  | none => .error .EBADF
  | some e => .ok (e.description.flags, t)

def close (t : Table δ) (fd : ℤ) : Except Errno (ℕ × Table δ) :=
  match t.get fd with
  | none => .error .EBADF
  | some _ => .ok (0, t.set fd.toNat none)

/-- The lowest unused descriptor not below `arg`. -/
def lowest (t : Table δ) (arg : ℕ) : Option ℕ :=
  (List.range' arg (t.limit - arg)).find? (fun fd => (t.entry fd).isNone)

/-- `fcntl(fd, F_DUPFD, arg)` -/
def dupfd (t : Table δ) (fd arg : ℤ) : Except Errno (ℕ × Table δ) :=
  match t.get fd with
  | none => .error .EBADF
  | some e =>
    if arg < 0 ∨ (t.limit : ℤ) ≤ arg then .error .EINVAL
    else match t.lowest arg.toNat with
      | none => .error .EMFILE
      | some new => .ok (new, t.set new (some { e with cloexec := false }))

theorem get_bounds {t : Table δ} {fd : ℤ} {e : Entry δ} (h : t.get fd = some e) : 0 ≤ fd := by
  unfold get at h
  split at h
  · assumption
  · cases h

theorem get_set (t : Table δ) (fd : ℤ) (new : ℕ) (e : Option (Entry δ)) :
    (t.set new e).get fd = if fd = new then e else t.get fd := by
  unfold get set
  by_cases hfd : 0 ≤ fd
  · rw [if_pos hfd, if_pos hfd]
    change Function.update t.entry new e fd.toNat = _
    rw [Function.update_apply]
    exact if_congr (by omega) rfl rfl
  · rw [if_neg hfd, if_neg hfd, if_neg (by omega)]

theorem get_closed {t : Table δ} {newfd : ℤ} {e : Entry δ} (h : t.get newfd = some e) (fd : ℤ) :
    (t.set newfd.toNat none).get fd = if fd = newfd then none else t.get fd := by
  have hpos := get_bounds h
  rw [get_set]
  exact if_congr (by omega) rfl rfl

theorem lowest_eq_some_iff (t : Table δ) (arg fd : ℕ) : t.lowest arg = some fd ↔
    t.entry fd = none ∧ (arg ≤ fd ∧ fd < t.limit) ∧ ∀ j, arg ≤ j → j < fd → t.entry j ≠ none := by
  rw [lowest, List.find?_range'_eq_some, List.mem_range'_1, Option.isNone_iff_eq_none]
  refine and_congr_right fun _ => and_congr ?_ ?_
  · omega
  · refine forall_congr' fun j => forall_congr' fun _ => forall_congr' fun _ => ?_
    rw [Bool.not_eq_true', Option.isNone_eq_false_iff, ← Option.ne_none_iff_isSome]

theorem dupfd_closed {t : Table δ} {fd : ℤ} (h : t.get fd = none) (arg : ℤ) :
    t.dupfd fd arg = .error .EBADF := by
  simp only [dupfd, h]

theorem dupfd_beyond {t : Table δ} {fd : ℤ} {e : Entry δ} (h : t.get fd = some e) {arg : ℤ}
    (harg : (t.limit : ℤ) ≤ arg) : t.dupfd fd arg = .error .EINVAL := by
  simp only [dupfd, h]
  rw [if_pos (.inr harg)]

theorem dupfd_lowest {t : Table δ} {fd : ℤ} {e : Entry δ} (h : t.get fd = some e) {arg : ℤ}
    (hpos : 0 ≤ arg) (harg : arg < t.limit) {new : ℕ} (hlow : t.lowest arg.toNat = some new) :
    t.dupfd fd arg = .ok (new, t.set new (some { e with cloexec := false })) := by
  simp only [dupfd, h, hlow]
  rw [if_neg (by omega)]

theorem dupfd_ok {t t' : Table δ} {fd arg : ℤ} {new : ℕ} (h : t.dupfd fd arg = .ok (new, t')) :
    ∃ e, t.get fd = some e ∧ 0 ≤ arg ∧ arg < t.limit ∧ t.lowest arg.toNat = some new ∧
      t' = t.set new (some { e with cloexec := false }) := by
  unfold dupfd at h
  cases he : t.get fd with
  | none => simp [he] at h
  | some e =>
    simp only [he] at h
    split at h
    · cases h
    · rename_i hrange
      cases hlow : t.lowest arg.toNat with
      | none => simp [hlow] at h
      | some low =>
        simp only [hlow] at h
        cases h
        exact ⟨e, rfl, by omega, by omega, rfl, rfl⟩

theorem dupfd_unused {t : Table δ} {fd : ℤ} {e : Entry δ} (h : t.get fd = some e) {arg : ℕ}
    (hfree : t.entry arg = none) (harg : arg < t.limit) :
    t.dupfd fd arg = .ok (arg, t.set arg (some { e with cloexec := false })) := by
  have hlow : t.lowest arg = some arg :=
    (lowest_eq_some_iff t arg arg).2 ⟨hfree, ⟨le_refl _, harg⟩, fun j h1 h2 => by omega⟩
  exact dupfd_lowest h (by omega) (by omega) hlow

end Table

end Stage0.Descriptors
