import Mathlib
import Stage0.WhileLoop

set_option autoImplicit false

/-!
# The search of `tlpi/user_groups/getpwnam.c`

`getpwent` hands out the entries of the password database one after the other, from a
position that all callers in the process share.
-/
namespace Stage0.Getpwnam
open WhileLoop

structure Passwd where
  pwName : String
  pwPasswd : String
  pwUid : UInt32
  pwGid : UInt32
  pwGecos : String
  pwDir : String
  pwShell : String
  deriving DecidableEq, Repr

/-- The database and the position in it that the next `getpwent` reads. -/
structure Database where
  entries : List Passwd
  position : ℕ
  deriving DecidableEq, Repr

def getpwent (db : Database) : Option Passwd × Database :=
  match db.entries[db.position]? with
  | none => (none, db)
  | some pwd => (some pwd, { db with position := db.position + 1 })

def setpwent (db : Database) : Database := { db with position := 0 }

def endpwent (db : Database) : Database := { db with position := 0 }

/-- `while ((pwd = getpwent()) != NULL)` -/
def getpwnam2Body (name : String) (db : Database) : Database ⊕ (Option Passwd × Database) :=
  match getpwent db with
  | (some pwd, db) => if pwd.pwName = name then .inr (some pwd, setpwent db) else .inl db
  | (none, db) => .inr (none, endpwent db)

def getpwnam2 (name : String) (fuel : ℕ) (db : Database) : Option (Option Passwd × Database) :=
  run (getpwnam2Body name) fuel db

/-- `%d` takes its argument as an `int`. -/
def formatId (id : UInt32) : String := toString id.toInt32.toInt

/-- `printf("%s:%s:%d:%d:%s:%s:%s\n", ...)` -/
def line (pwd : Passwd) : String :=
  pwd.pwName ++ ":" ++ pwd.pwPasswd ++ ":" ++ formatId pwd.pwUid ++ ":" ++ formatId pwd.pwGid ++
    ":" ++ pwd.pwGecos ++ ":" ++ pwd.pwDir ++ ":" ++ pwd.pwShell ++ "\n"

def main (fuel : ℕ) (db : Database) : Option String :=
  (getpwnam2 "bakhtik" fuel db).map (fun answer => answer.1.elim "" line)

inductive Call where
  | getpwent
  | setpwent
  | endpwent
  | getpwnam2 (name : String)
  deriving DecidableEq, Repr

def perform (fuel : ℕ) (db : Database) : Call → Option Database
  | .getpwent => some (getpwent db).2
  | .setpwent => some (setpwent db)
  | .endpwent => some (endpwent db)
  | .getpwnam2 name => (getpwnam2 name fuel db).map Prod.snd

def history (fuel : ℕ) (db : Database) (calls : List Call) : Option Database :=
  calls.foldlM (perform fuel) db

/-! ### One search -/

def named (name : String) (pwd : Passwd) : Bool := pwd.pwName = name

theorem getpwent_some {db : Database} (h : db.position < db.entries.length) :
    getpwent db = (some (db.entries[db.position]), { db with position := db.position + 1 }) := by
  simp [getpwent, List.getElem?_eq_getElem h]

theorem getpwent_none {db : Database} (h : db.entries.length ≤ db.position) :
    getpwent db = (none, db) := by
  simp [getpwent, List.getElem?_eq_none h]

theorem getpwnam2_run (name : String) (fuel : ℕ) (db : Database)
    (hpos : db.position ≤ db.entries.length) (hfuel : db.entries.length < db.position + fuel) :
    getpwnam2 name fuel db =
      some ((db.entries.drop db.position).find? (named name), ⟨db.entries, 0⟩) := by
  unfold getpwnam2
  induction fuel generalizing db with
  | zero => omega
  | succ fuel ih =>
    rcases Nat.lt_or_eq_of_le hpos with h | h
    · rw [List.drop_eq_getElem_cons h, List.find?_cons]
      by_cases hname : (db.entries[db.position]).pwName = name
      · have hexit : getpwnam2Body name db = .inr (some db.entries[db.position], ⟨db.entries, 0⟩) := by
          simp [getpwnam2Body, getpwent_some h, hname, setpwent]
        rw [run_exit hexit]
        simp [named, hname]
      · have hround : getpwnam2Body name db = .inl { db with position := db.position + 1 } := by
          simp [getpwnam2Body, getpwent_some h, hname]
        have hmore : db.entries.length < db.position + 1 + fuel := by omega
        rw [run_next hround, ih { db with position := db.position + 1 } h hmore]
        simp [named, hname]
    · have hexit : getpwnam2Body name db = .inr (none, ⟨db.entries, 0⟩) := by
        simp [getpwnam2Body, getpwent_none h.ge, endpwent]
      rw [run_exit hexit, List.drop_eq_nil_of_le h.ge]
      rfl

/-! ### The position after a history -/

/-- How many times `getpwent` was called since a call that rewinds. -/
def fetched (calls : List Call) : ℕ :=
  calls.foldl (fun n call => if call = .getpwent then n + 1 else 0) 0

def readUpTo (entries : List Passwd) (n : ℕ) : Database := ⟨entries, min n entries.length⟩

theorem getpwent_readUpTo (entries : List Passwd) (n : ℕ) :
    (getpwent (readUpTo entries n)).2 = readUpTo entries (n + 1) := by
  rcases Nat.lt_or_ge n entries.length with h | h
  · have hmin : min n entries.length = n := min_eq_left h.le
    have hnext : min (n + 1) entries.length = n + 1 := min_eq_left h
    rw [getpwent_some (by simp only [readUpTo, hmin]; exact h)]
    simp only [readUpTo, hmin, hnext]
  · have hmin : min n entries.length = entries.length := min_eq_right h
    have hnext : min (n + 1) entries.length = entries.length := min_eq_right (by omega)
    rw [getpwent_none (by simp only [readUpTo, hmin]; exact le_refl _)]
    simp only [readUpTo, hmin, hnext]

theorem rewound (entries : List Passwd) : (⟨entries, 0⟩ : Database) = readUpTo entries 0 := by
  simp [readUpTo]

theorem getpwnam2_readUpTo {entries : List Passwd} {fuel : ℕ} (hfuel : entries.length < fuel)
    (n : ℕ) (name : String) : getpwnam2 name fuel (readUpTo entries n) =
      some ((entries.drop n).find? (named name), ⟨entries, 0⟩) := by
  have hdrop : entries.drop (min n entries.length) = entries.drop n := by
    rcases le_total n entries.length with h | h
    · rw [min_eq_left h]
    · rw [min_eq_right h, List.drop_length, List.drop_eq_nil_of_le h]
  have henough : entries.length < min n entries.length + fuel := by omega
  rw [getpwnam2_run name fuel (readUpTo entries n) (min_le_right n entries.length) henough]
  simp only [readUpTo, hdrop]

theorem perform_readUpTo {entries : List Passwd} {fuel : ℕ} (hfuel : entries.length < fuel) (n : ℕ)
    (call : Call) : perform fuel (readUpTo entries n) call =
      some (readUpTo entries (if call = .getpwent then n + 1 else 0)) := by
  cases call with
  | getpwent => exact congrArg some (getpwent_readUpTo entries n)
  | setpwent => exact congrArg some (rewound entries)
  | endpwent => exact congrArg some (rewound entries)
  | getpwnam2 name =>
    rw [perform, getpwnam2_readUpTo hfuel]
    exact congrArg some (rewound entries)

theorem history_readUpTo {entries : List Passwd} {fuel : ℕ} (hfuel : entries.length < fuel)
    (calls : List Call) :
    history fuel ⟨entries, 0⟩ calls = some (readUpTo entries (fetched calls)) := by
  have hrun : ∀ n, history fuel (readUpTo entries n) calls = some (readUpTo entries
      (calls.foldl (fun n call => if call = .getpwent then n + 1 else 0) n)) := by
    unfold history
    induction calls with
    | nil => exact fun n => rfl
    | cons call calls ih =>
      intro n
      rw [List.foldlM_cons, perform_readUpTo hfuel]
      exact ih _
  rw [rewound, hrun]
  rfl

/-! ### `getpwnam` -/

def First (entries : List Passwd) (name : String) (pwd : Passwd) : Prop :=
  ∃ before after, entries = before ++ pwd :: after ∧ pwd.pwName = name ∧
    ∀ other ∈ before, other.pwName ≠ name

/-- The answer of `getpwnam`. -/
structure Answers (entries : List Passwd) (name : String) (answer : Option Passwd) : Prop where
  entry : ∀ pwd, answer = some pwd ↔ First entries name pwd
  null : answer = none ↔ ∀ pwd ∈ entries, pwd.pwName ≠ name

theorem find_eq_some_iff {entries : List Passwd} {name : String} {pwd : Passwd} :
    entries.find? (named name) = some pwd ↔ First entries name pwd := by
  rw [List.find?_eq_some_iff_append, First]
  simp [named]
  tauto

theorem find_eq_none_iff {entries : List Passwd} {name : String} :
    entries.find? (named name) = none ↔ ∀ pwd ∈ entries, pwd.pwName ≠ name := by
  simp [named]

theorem answers_iff {entries : List Passwd} {name : String} {answer : Option Passwd} :
    Answers entries name answer ↔ answer = entries.find? (named name) := by
  constructor
  · intro h
    apply Option.ext
    intro pwd
    rw [h.entry, find_eq_some_iff]
  · rintro rfl
    exact ⟨fun pwd => find_eq_some_iff, find_eq_none_iff⟩

theorem find_drop_iff (entries : List Passwd) (name : String) (n : ℕ) :
    (entries.drop n).find? (named name) = entries.find? (named name) ↔
      ∀ pwd, First (entries.take n) name pwd → First (entries.drop n) name pwd := by
  have hsplit : (entries.take n ++ entries.drop n).find? (named name) =
      ((entries.take n).find? (named name)).or ((entries.drop n).find? (named name)) :=
    List.find?_append
  rw [List.take_append_drop] at hsplit
  simp only [← find_eq_some_iff, hsplit]
  cases (entries.take n).find? (named name) with
  | none => simp
  | some pwd => simp

theorem main_run {entries : List Passwd} {fuel : ℕ} (hfuel : entries.length < fuel) :
    main fuel ⟨entries, 0⟩ = some ((entries.find? (named "bakhtik")).elim "" line) := by
  rw [main, rewound, getpwnam2_readUpTo hfuel]
  rfl

/-- After any history of calls `getpwnam2` answers as `getpwnam`, exactly when the entries that
the caller has fetched since the last rewinding have no one of that name in front of the search. -/
theorem getpwnam2_answers_iff (entries : List Passwd) (calls : List Call) (name : String) :
    ∃ fuel, ∀ more ≥ fuel, ∃ db answer db', history more ⟨entries, 0⟩ calls = some db ∧
      getpwnam2 name more db = some (answer, db') ∧
      (Answers entries name answer ↔ ∀ pwd, First (entries.take (fetched calls)) name pwd →
        First (entries.drop (fetched calls)) name pwd) := by
  refine ⟨entries.length + 1, fun more hmore => ?_⟩
  have henough : entries.length < more := hmore
  refine ⟨_, _, _, history_readUpTo henough calls, getpwnam2_readUpTo henough _ name, ?_⟩
  rw [answers_iff, find_drop_iff]

def root : Passwd := ⟨"root", "x", 0, 0, "root", "/root", "/bin/sh"⟩

def daemon : Passwd := ⟨"daemon", "x", 1, 1, "daemon", "/usr/sbin", "/bin/false"⟩

/-- After one entry has been fetched its name is not found. -/
theorem getpwnam2_skips_root : ¬∀ (entries : List Passwd) (calls : List Call) (name : String)
    (fuel : ℕ) (db db' : Database) (answer : Option Passwd),
      history fuel ⟨entries, 0⟩ calls = some db → getpwnam2 name fuel db = some (answer, db') →
      Answers entries name answer := by
  intro h
  have hanswers := h [root, daemon] [.getpwent] "root" 2 ⟨[root, daemon], 1⟩ ⟨[root, daemon], 0⟩ none
    rfl (by decide)
  have hnone := hanswers.null.1 rfl root List.mem_cons_self
  exact hnone rfl

end Stage0.Getpwnam
