import Mathlib
import Stage0.Descriptors
import Stage0.Script

set_option autoImplicit false

/-!
# The duplications of `tlpi/fileio/dup.c`

`my_dup2` closes the new descriptor before it asks for the duplicate, and that call can
still fail. `my_dup` asks for a descriptor not below the old one.
-/
namespace Stage0.DupFd
open Descriptors Script

variable {δ : Type*}

structure Process (δ : Type*) where
  table : Table δ
  errno : Option Errno
  out : List String

namespace Process

/-- A system call: `-1` and `errno`, or its value and the new table. -/
def call (p : Process δ) : Except Errno (ℕ × Table δ) → ℤ × Process δ
  | .error e => (-1, { p with errno := some e })
  | .ok (v, table) => (v, { p with table })

def closing (newfd : ℤ) : String := "closing exising fd: " ++ toString newfd ++ "\n"

def myDup (p : Process δ) (oldfd : ℤ) : ℤ × Process δ := p.call (p.table.dupfd oldfd oldfd)

def myDup2 (p : Process δ) (oldfd newfd : ℤ) : ℤ × Process δ :=
  if oldfd = newfd then
    let (r, p) := p.call (p.table.getfl oldfd)
    if r = -1 then (-1, { p with errno := some .EBADF })
    else (newfd, p)
  else
    let (r, p) := p.call (p.table.getfl newfd)
    let p := if r ≠ -1 then
        let p := { p with out := p.out ++ [closing newfd] }
        (p.call (p.table.close newfd)).2
      else p
    p.call (p.table.dupfd oldfd newfd)

/-! ### The calls in each state of the table -/

section Calls

variable {p : Process δ} {oldfd newfd : ℤ}

theorem call_ok_ne (v : ℕ) (t : Table δ) : (p.call (.ok (v, t))).1 ≠ -1 := by
  change (v : ℤ) ≠ -1
  omega

theorem call_failed {r : Except Errno (ℕ × Table δ)} (h : (p.call r).1 = -1) :
    (p.call r).2.table = p.table := by
  cases r with
  | error e => rfl
  | ok r => exact absurd h (call_ok_ne r.1 r.2)

theorem call_succeeds {r : Except Errno (ℕ × Table δ)} (h : (p.call r).1 ≠ -1) :
    ∃ v t, r = .ok (v, t) := by
  cases r with
  | error e => exact absurd rfl h
  | ok r => exact ⟨r.1, r.2, rfl⟩

theorem myDup2_same_closed {fd : ℤ} (h : p.table.get fd = none) :
    myDup2 p fd fd = (-1, { p with errno := some .EBADF }) := by
  rw [myDup2, if_pos rfl]
  simp only [Table.getfl, h]
  rfl

theorem myDup2_same_open {fd : ℤ} {e : Entry δ} (h : p.table.get fd = some e) :
    myDup2 p fd fd = (fd, p) := by
  rw [myDup2, if_pos rfl]
  simp only [Table.getfl, h]
  rw [if_neg (call_ok_ne _ _)]
  rfl

theorem myDup2_same (p : Process δ) (fd : ℤ) : (myDup2 p fd fd).2.table = p.table := by
  cases h : p.table.get fd with
  | none => rw [myDup2_same_closed h]
  | some e => rw [myDup2_same_open h]

theorem myDup2_unused (hne : oldfd ≠ newfd) (h : p.table.get newfd = none) : myDup2 p oldfd newfd =
    { p with errno := some .EBADF }.call (p.table.dupfd oldfd newfd) := by
  rw [myDup2, if_neg hne]
  simp only [Table.getfl, h]
  rfl

theorem myDup2_open (hne : oldfd ≠ newfd) {e : Entry δ} (h : p.table.get newfd = some e) :
    myDup2 p oldfd newfd =
      { p with table := p.table.set newfd.toNat none, out := p.out ++ [closing newfd] }.call
        ((p.table.set newfd.toNat none).dupfd oldfd newfd) := by
  rw [myDup2, if_neg hne]
  simp only [Table.getfl, h]
  rw [if_pos (call_ok_ne _ _)]
  simp only [call, Table.close, h]

end Calls

/-- The call closes `newfd` and then fails: `oldfd` is not open, or the limit was lowered
to or below the open `newfd`. -/
def Rejected (p : Process δ) (oldfd newfd : ℤ) : Prop :=
  oldfd ≠ newfd ∧ p.table.get newfd ≠ none ∧
    (p.table.get oldfd = none ∨ (p.table.limit : ℤ) ≤ newfd)

theorem closed_fails_iff (p : Process δ) {oldfd newfd : ℤ} (hne : oldfd ≠ newfd) {e : Entry δ}
    (h : p.table.get newfd = some e) : (myDup2 p oldfd newfd).1 = -1 ↔
      p.table.get oldfd = none ∨ (p.table.limit : ℤ) ≤ newfd := by
  have hpos := Table.get_bounds h
  have hnew : ((newfd.toNat : ℕ) : ℤ) = newfd := by omega
  have hold : (p.table.set newfd.toNat none).get oldfd = p.table.get oldfd := by
    rw [Table.get_closed h, if_neg hne]
  rw [myDup2_open hne h]
  cases ho : p.table.get oldfd with
  | none =>
    rw [Table.dupfd_closed (by rw [hold, ho])]
    exact iff_of_true rfl (.inl rfl)
  | some e' =>
    rw [ho] at hold
    by_cases hlimit : (p.table.limit : ℤ) ≤ newfd
    · rw [Table.dupfd_beyond hold hlimit]
      exact iff_of_true rfl (.inr hlimit)
    · have hfree : (p.table.set newfd.toNat none).entry newfd.toNat = none :=
        Function.update_self _ _ _
      have hlt : newfd.toNat < (p.table.set newfd.toNat none).limit := by
        change newfd.toNat < p.table.limit
        omega
      have hdup := Table.dupfd_unused hold hfree hlt
      rw [hnew] at hdup
      rw [hdup]
      refine iff_of_false (call_ok_ne _ _) ?_
      rintro (hnone | hle)
      · cases hnone
      · exact hlimit hle

/-- `my_dup2` leaves the table as it was whenever it fails, exactly when it does not close
`newfd` for a duplication that is then rejected. -/
theorem myDup2_atomic_iff (p : Process δ) (oldfd newfd : ℤ) :
    ((myDup2 p oldfd newfd).1 = -1 → (myDup2 p oldfd newfd).2.table = p.table) ↔
      ¬Rejected p oldfd newfd := by
  by_cases hne : oldfd = newfd
  · subst hne
    exact iff_of_true (fun _ => myDup2_same p oldfd) (fun h => h.1 rfl)
  · cases h : p.table.get newfd with
    | none =>
      refine iff_of_true (fun hfail => ?_) (fun hr => hr.2.1 h)
      rw [myDup2_unused hne h] at hfail ⊢
      exact call_failed hfail
    | some e =>
      rw [closed_fails_iff p hne h]
      have hlost : (myDup2 p oldfd newfd).1 = -1 → (myDup2 p oldfd newfd).2.table ≠ p.table := by
        intro hfail htable
        have hget : (myDup2 p oldfd newfd).2.table.get newfd = none := by
          rw [myDup2_open hne h] at hfail ⊢
          rw [call_failed hfail, Table.get_closed h, if_pos rfl]
        rw [htable, h] at hget
        cases hget
      rw [closed_fails_iff p hne h] at hlost
      constructor
      · intro hatomic hr
        exact hlost hr.2.2 (hatomic hr.2.2)
      · intro hr hrej
        exact absurd ⟨hne, h ▸ Option.some_ne_none e, hrej⟩ hr

def standard : Process Unit :=
  ⟨⟨fun fd => if fd < 3 then some ⟨⟨0, ()⟩, false⟩ else none, 1024⟩, none, []⟩

/-- Duplicating a descriptor that is not open onto the standard output closes it. -/
theorem myDup2_closes_stdout : ¬∀ (p : Process Unit) (oldfd newfd : ℤ),
    (myDup2 p oldfd newfd).1 = -1 → (myDup2 p oldfd newfd).2.table = p.table := by
  intro h
  have htable := h standard 7 1 (by decide)
  have hget := congrArg (fun t : Table Unit => (t.entry 1).isSome) htable
  revert hget
  decide

/-! ### A duplication that succeeds -/

/-- `new` is a duplicate of `old`, and nothing else has changed. -/
structure Duplicated (before after : Table δ) (old new : ℤ) : Prop where
  description : ∃ e e', before.get old = some e ∧ after.get new = some e' ∧
    e'.description = e.description
  others : ∀ fd, fd ≠ new → after.get fd = before.get fd

/-- `r` is what `dup2(oldfd, newfd)` may return, and it succeeds where `dup2` must. -/
structure LikeDup2 (p : Process δ) (oldfd newfd : ℤ) (r : ℤ × Process δ) : Prop where
  duplicated : r.1 ≠ -1 → r.1 = newfd ∧ Duplicated p.table r.2.table oldfd newfd
  succeeds : p.table.get oldfd ≠ none → 0 ≤ newfd → newfd < p.table.limit → r.1 ≠ -1

theorem duplicated_set {t : Table δ} {fd : ℤ} {e : Entry δ} (h : t.get fd = some e) (new : ℕ) :
    Duplicated t (t.set new (some { e with cloexec := false })) fd new := by
  refine ⟨⟨e, { e with cloexec := false }, h, ?_, rfl⟩, ?_⟩
  · rw [Table.get_set, if_pos rfl]
  · intro other hne
    rw [Table.get_set, if_neg hne]

theorem duplicated_closed {t after : Table δ} {oldfd newfd : ℤ} (hne : oldfd ≠ newfd)
    {e : Entry δ} (h : t.get newfd = some e) (hdup : Duplicated (t.set newfd.toNat none) after oldfd newfd) :
    Duplicated t after oldfd newfd := by
  obtain ⟨⟨d, d', hd, hd', hsame⟩, hothers⟩ := hdup
  rw [Table.get_closed h, if_neg hne] at hd
  refine ⟨⟨d, d', hd, hd', hsame⟩, ?_⟩
  intro fd hfd
  rw [hothers fd hfd, Table.get_closed h, if_neg hfd]

theorem duplicate_into (p : Process δ) (oldfd : ℤ) {newfd : ℤ} (hfree : p.table.get newfd = none) :
    LikeDup2 p oldfd newfd (p.call (p.table.dupfd oldfd newfd)) := by
  have hentry : 0 ≤ newfd → p.table.entry newfd.toNat = none := by
    intro hpos
    rwa [Table.get, if_pos hpos] at hfree
  have hdup : ∀ e, p.table.get oldfd = some e → 0 ≤ newfd → newfd < p.table.limit →
      p.table.dupfd oldfd newfd =
        .ok (newfd.toNat, p.table.set newfd.toNat (some { e with cloexec := false })) := by
    intro e he hpos hlimit
    have hnew : ((newfd.toNat : ℕ) : ℤ) = newfd := by omega
    have hcall := Table.dupfd_unused he (hentry hpos) (by omega)
    rwa [hnew] at hcall
  constructor
  · intro hok
    obtain ⟨v, t', h⟩ := call_succeeds hok
    obtain ⟨e, he, hpos, hlimit, -, -⟩ := Table.dupfd_ok h
    have hnew : ((newfd.toNat : ℕ) : ℤ) = newfd := by omega
    rw [hdup e he hpos hlimit]
    refine ⟨hnew, ?_⟩
    have hset := duplicated_set he newfd.toNat
    rwa [hnew] at hset
  · intro hopen hpos hlimit
    obtain ⟨e, he⟩ := Option.ne_none_iff_exists'.1 hopen
    rw [hdup e he hpos hlimit]
    exact call_ok_ne _ _

/-- `my_dup2` behaves as `dup2` when it succeeds, and it succeeds on every open descriptor within
the limit. -/
theorem myDup2_duplicates (p : Process δ) (oldfd newfd : ℤ) :
    LikeDup2 p oldfd newfd (myDup2 p oldfd newfd) := by
  by_cases hne : oldfd = newfd
  · subst hne
    cases h : p.table.get oldfd with
    | none =>
      rw [myDup2_same_closed h]
      exact ⟨fun hok => absurd rfl hok, fun hopen => absurd h hopen⟩
    | some e =>
      rw [myDup2_same_open h]
      exact ⟨fun _ => ⟨rfl, ⟨e, e, h, h, rfl⟩, fun fd _ => rfl⟩, fun _ hpos _ => by simp only; omega⟩
  · cases h : p.table.get newfd with
    | none =>
      rw [myDup2_unused hne h]
      obtain ⟨hok, hopen⟩ := duplicate_into { p with errno := some .EBADF } oldfd h
      exact ⟨hok, hopen⟩
    | some e =>
      have hfree : (p.table.set newfd.toNat none).get newfd = none := by
        rw [Table.get_closed h, if_pos rfl]
      obtain ⟨hok, hopen⟩ := duplicate_into
        { p with table := p.table.set newfd.toNat none, out := p.out ++ [closing newfd] } oldfd hfree
      rw [myDup2_open hne h]
      constructor
      · intro hsuccess
        obtain ⟨hnew, hdup⟩ := hok hsuccess
        exact ⟨hnew, duplicated_closed hne h hdup⟩
      · intro hold
        apply hopen
        rwa [Table.get_closed h, if_neg hne]

/-! ### `my_dup` -/

inductive Call where
  | close (fd : ℤ)
  | myDup (oldfd : ℤ)
  deriving DecidableEq, Repr

def perform (p : Process δ) : Call → Process δ
  | .close fd => (p.call (p.table.close fd)).2
  | .myDup oldfd => (p.myDup oldfd).2

/-- The call returns the lowest unused descriptor of the whole table, as a duplicate. -/
def FillsLowest (p : Process δ) (oldfd : ℤ) : Prop :=
  ∃ new : ℕ, (p.myDup oldfd).1 = new ∧
    (p.table.entry new = none ∧ new < p.table.limit ∧ ∀ j < new, p.table.entry j ≠ none) ∧
    Duplicated p.table (p.myDup oldfd).2.table oldfd new

def Packed (p : Process δ) (oldfd : ℤ) : Prop :=
  ∀ j : ℕ, (j : ℤ) < oldfd → j < p.table.limit → p.table.entry j ≠ none

theorem fillsLowest_iff {p : Process δ} {oldfd : ℤ} (hopen : p.table.get oldfd ≠ none)
    (hfree : ∃ fd < p.table.limit, p.table.entry fd = none) :
    FillsLowest p oldfd ↔ Packed p oldfd := by
  obtain ⟨e, he⟩ := Option.ne_none_iff_exists'.1 hopen
  have hpos := Table.get_bounds he
  constructor
  · rintro ⟨new, hnew, ⟨hunused, hlimit, hlow⟩, -⟩ j hj hjlimit
    have hok : (p.myDup oldfd).1 ≠ -1 := by omega
    obtain ⟨v, t, h⟩ := call_succeeds hok
    obtain ⟨-, -, -, -, hlowest, -⟩ := Table.dupfd_ok h
    rw [myDup, h] at hnew
    have hsame : v = new := Int.ofNat.inj hnew
    have hle := ((Table.lowest_eq_some_iff _ _ _).1 hlowest).2.1.1
    exact hlow j (by omega)
  · intro hpacked
    classical
    let new := Nat.find hfree
    obtain ⟨hlimit, hunused⟩ : new < p.table.limit ∧ p.table.entry new = none := Nat.find_spec hfree
    have hlow : ∀ j < new, p.table.entry j ≠ none := fun j hj hnone =>
      Nat.find_min hfree hj ⟨by omega, hnone⟩
    have hle : oldfd ≤ new := by
      by_contra hlt
      exact hpacked new (by omega) hlimit hunused
    have hlowest : p.table.lowest oldfd.toNat = some new :=
      (Table.lowest_eq_some_iff _ _ _).2 ⟨hunused, ⟨by omega, hlimit⟩, fun j _ hj => hlow j hj⟩
    have hdup := Table.dupfd_lowest he hpos (by omega) hlowest
    refine ⟨new, ?_, ⟨hunused, hlimit, hlow⟩, ?_⟩
    · rw [myDup, hdup]
      rfl
    · rw [myDup, hdup]
      exact duplicated_set he new

def AtDup (P : Process δ → ℤ → Prop) (p : Process δ) : Call → Prop
  | .close _ => True
  | .myDup oldfd => p.table.get oldfd ≠ none →
      (∃ fd < p.table.limit, p.table.entry fd = none) → P p oldfd

/-- In every sequence of closes and `my_dup` calls each duplicate fills the lowest gap, exactly
when no gap lies below the descriptor that is duplicated. -/
theorem myDup_fills_iff {δ : Type} (p : Process δ) (calls : List Call) :
    AlongCalls perform (AtDup FillsLowest) p calls ↔ AlongCalls perform (AtDup Packed) p calls := by
  refine alongCalls_iff (fun p call => ?_) p calls
  cases call with
  | close fd => exact Iff.rfl
  | myDup oldfd => exact forall_congr' fun hopen => forall_congr' fun hfree => fillsLowest_iff hopen hfree

/-- The standard input is closed, but the duplicate does not become descriptor 0. -/
theorem myDup_misses_stdin : ¬∀ (p : Process Unit) (calls : List Call),
    AlongCalls perform (AtDup FillsLowest) p calls := by
  intro h
  have hsecond := (h standard [.close 0, .myDup 2]).2.1 (by decide) ⟨0, by decide, by decide⟩
  rw [fillsLowest_iff (by decide) ⟨0, by decide, by decide⟩] at hsecond
  exact hsecond 0 (by decide) (by decide) (by decide)

end Process

end Stage0.DupFd
