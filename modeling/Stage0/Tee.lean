import Mathlib
import Stage0.ByteFile
import Stage0.Script

set_option autoImplicit false

/-!
# `tlpi/fileio/tee.c`

Every byte of the standard input goes to the standard output and to the named file.
The file is opened without `O_TRUNC`, so its old content is written over and not dropped.
-/
namespace Stage0.Tee
open ByteFile Script

inductive Call where
  | openFile | read | writeOut | writeFile | closeFile
  deriving DecidableEq, Repr

def Call.name : Call → String
  | .openFile => "open"
  | .read => "read"
  | .writeOut | .writeFile => "write"
  | .closeFile => "close"

inductive Exit where
  | usageErr
  | errExit (call : String)
  deriving DecidableEq, Repr

structure Outputs where
  stdout : List UInt8
  file : List UInt8
  fd : Description
  deriving DecidableEq, Repr

abbrev badUsage (argv : List String) : Prop :=
  argv.length > 3 ∨ argv.length < 2 ∨ (argv.length = 3 ∧ argv[1]? ≠ some "-a") ∨
    argv[1]? = some "--help"

def fileName (argv : List String) : String :=
  (if argv.length = 2 then argv[1]? else argv[2]?).getD ""

def appendFlag (argv : List String) : Bool := decide (argv[1]? = some "-a")

section Program

-- which calls fail: a call is told apart by its place and by the bytes left to read
variable (fails : Call → ℕ → Bool)

def attempt (place : Call) (left : ℕ) : Except Exit Unit :=
  if fails place left then .error (.errExit place.name) else .ok ()

def teeLoop : List UInt8 → Outputs → Except Exit Outputs
  | [], s => do
    attempt fails .read 0
    return s
  | c :: input, s => do
    let left := input.length + 1
    attempt fails .read left
    attempt fails .writeOut left
    attempt fails .writeFile left
    let (_, fd, file) := s.fd.write s.file c
    teeLoop input ⟨s.stdout ++ [c], file, fd⟩

/-- `main` on the file system `files`; the named file is created when it does not exist. -/
def main (argv : List String) (files : String → Option (List UInt8)) (input : List UInt8) :
    Except Exit Outputs :=
  if badUsage argv then .error .usageErr
  else do
    attempt fails .openFile input.length
    let final ← teeLoop fails input ⟨[], (files (fileName argv)).getD [], ⟨0, appendFlag argv⟩⟩
    attempt fails .closeFile 0
    return final

end Program

/-! ### The loop -/

structure Copied (append : Bool) (old bs : List UInt8) (s : Outputs) : Prop where
  stdout : s.stdout = bs
  file : s.file = written append old bs
  mode : s.fd.append = append
  offset : append = false → s.fd.offset = bs.length

theorem copied_start (append : Bool) (old : List UInt8) :
    Copied append old [] ⟨[], old, ⟨0, append⟩⟩ := by
  refine ⟨rfl, ?_, rfl, fun _ => rfl⟩
  cases append with
  | false => rfl
  | true => exact (List.append_nil old).symm

section Runs

variable {fails : Call → ℕ → Bool} {append : Bool} {old : List UInt8}

theorem copied_next {bs : List UInt8} {s : Outputs} (inv : Copied append old bs s) (c : UInt8) :
    ∃ pos, s.fd.write s.file c = (pos, ⟨pos + 1, append⟩, written append old (bs ++ [c])) ∧
      Copied append old (bs ++ [c])
        ⟨s.stdout ++ [c], written append old (bs ++ [c]), ⟨pos + 1, append⟩⟩ := by
  obtain ⟨pos, hwrite, hpos⟩ := @written_write append old bs s.fd inv.mode inv.offset c
  refine ⟨pos, ?_, ?_, rfl, rfl, ?_⟩
  · rw [inv.file, hwrite]
  · rw [inv.stdout]
  · intro h
    rw [List.length_append, List.length_singleton, hpos h]

theorem teeLoop_copied (input : List UInt8) {bs : List UInt8} {s u : Outputs}
    (inv : Copied append old bs s) (h : teeLoop fails input s = .ok u) :
    Copied append old (bs ++ input) u := by
  induction input generalizing bs s with
  | nil =>
    obtain ⟨_, _, h⟩ := bind_eq_ok.1 h
    cases h
    rwa [List.append_nil]
  | cons c input ih =>
    rw [teeLoop] at h
    obtain ⟨_, _, h⟩ := bind_eq_ok.1 h
    obtain ⟨_, _, h⟩ := bind_eq_ok.1 h
    obtain ⟨_, _, h⟩ := bind_eq_ok.1 h
    obtain ⟨pos, hwrite, hnext⟩ := copied_next inv c
    simp only [hwrite] at h
    rw [List.append_cons]
    exact ih hnext h

theorem teeLoop_total (input : List UInt8) (s : Outputs) :
    ∃ u, teeLoop (fun _ _ => false) input s = .ok u := by
  induction input generalizing s with
  | nil => exact ⟨s, rfl⟩
  | cons c input ih =>
    obtain ⟨u, hu⟩ := ih ⟨s.stdout ++ [c], (s.fd.write s.file c).2.2, (s.fd.write s.file c).2.1⟩
    exact ⟨u, hu⟩

theorem main_copied {argv : List String} {files : String → Option (List UInt8)}
    {input : List UInt8} {final : Outputs} (h : main fails argv files input = .ok final) :
    Copied (appendFlag argv) ((files (fileName argv)).getD []) input final := by
  unfold main at h
  split at h
  · cases h
  · obtain ⟨_, _, h⟩ := bind_eq_ok.1 h
    obtain ⟨s, hs, h⟩ := bind_eq_ok.1 h
    obtain ⟨_, _, h⟩ := bind_eq_ok.1 h
    cases h
    exact teeLoop_copied input (copied_start _ _) hs

theorem main_total {argv : List String} (hargv : ¬badUsage argv)
    (files : String → Option (List UInt8)) (input : List UInt8) :
    ∃ final, main (fun _ _ => false) argv files input = .ok final := by
  obtain ⟨u, hu⟩ := teeLoop_total input
    ⟨[], (files (fileName argv)).getD [], ⟨0, appendFlag argv⟩⟩
  refine ⟨u, ?_⟩
  rw [main, if_neg hargv]
  change (teeLoop _ _ _ >>= _) = _
  rw [hu]
  rfl

end Runs

/-! ### What the header comment promises -/

/-- `tee file` leaves the input in the file, `tee -a file` the old content and the input. -/
def Teed (argv : List String) (old input : List UInt8) (final : Outputs) : Prop :=
  final.stdout = input ∧ final.file = if argv.length = 3 then old ++ input else input

/-- The old content does not outlast the input: it is kept on purpose, or is no longer than
the input, or is empty in a file that is itself called `-a`. -/
def Outwritten (argv : List String) (old input : List UInt8) : Prop :=
  argv.length = 3 ∨ if appendFlag argv then old = [] else old.length ≤ input.length

theorem teed_iff {argv : List String} (hargv : ¬badUsage argv) {old input : List UInt8}
    {final : Outputs} (h : Copied (appendFlag argv) old input final) :
    Teed argv old input final ↔ Outwritten argv old input := by
  rw [Teed, and_iff_right h.stdout, h.file, Outwritten]
  by_cases hthree : argv.length = 3
  · have hflag : appendFlag argv = true := by
      refine decide_eq_true ?_
      by_contra hne
      exact hargv (.inr (.inr (.inl ⟨hthree, hne⟩)))
    rw [if_pos hthree, hflag]
    exact iff_of_true rfl (.inl hthree)
  · rw [if_neg hthree, or_iff_right hthree]
    cases appendFlag argv with
    | false =>
      rw [if_neg Bool.false_ne_true]
      exact written_eq_iff old input
    | true =>
      rw [if_pos rfl]
      exact List.append_left_eq_self

/-- A run of `tee` without failing calls does what its header comment says exactly when the
old content of the file does not outlast the input. -/
theorem main_tees_iff (argv : List String) (files : String → Option (List UInt8))
    (input : List UInt8) (hargv : ¬badUsage argv) :
    (∃ final, main (fun _ _ => false) argv files input = .ok final) ∧
    ∀ fails final, main fails argv files input = .ok final →
      (Teed argv ((files (fileName argv)).getD []) input final ↔
        Outwritten argv ((files (fileName argv)).getD []) input) :=
  ⟨main_total hargv files input, fun _ _ h => teed_iff hargv (main_copied h)⟩

theorem main_tees_iff_new_file :
    (∃ final, main (fun _ _ => false) ["tee", "f"] (fun _ => none) [65] = .ok final) ∧
    ∀ fails final, main fails ["tee", "f"] (fun _ => none) [65] = .ok final →
      (Teed ["tee", "f"] [] [65] final ↔ Outwritten ["tee", "f"] [] [65]) :=
  main_tees_iff ["tee", "f"] (fun _ => none) [65] (by decide)

/-- One byte written over a file of three leaves the last two. -/
theorem main_keeps_old_tail : ¬∀ (argv : List String) (files : String → Option (List UInt8))
    (input : List UInt8) (final : Outputs), main (fun _ _ => false) argv files input = .ok final →
    Teed argv ((files (fileName argv)).getD []) input final := by
  intro h
  have hteed := h ["tee", "f"] (fun _ => some [97, 98, 99]) [120] _ rfl
  revert hteed
  unfold Teed
  decide

end Stage0.Tee
