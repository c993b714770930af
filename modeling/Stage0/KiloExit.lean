import Mathlib
import Stage0.KiloRows

set_option autoImplicit false

/-!
# The whole run of `kilo/kilo.c`

Raw mode is installed at the start, and a handler of `exit` puts the saved attributes
back. All the ways out of the program go through `exit`, the one inside the handler
included. Apart from two writes at the start, no result of a `write` is looked at.
-/
namespace Stage0.KiloExit
open Decimal Script KiloInput KiloReport KiloEditor KiloRows

/-! ### Terminal attributes -/

/-- `struct termios`, as far as it is changed. -/
structure Termios where
  cIflag : UInt32
  cOflag : UInt32
  cCflag : UInt32
  cLflag : UInt32
  cCc : Vector UInt8 32
  deriving DecidableEq

def brkint : UInt32 := 0x2
def icrnl : UInt32 := 0x100
def inpck : UInt32 := 0x10
def istrip : UInt32 := 0x20
def ixon : UInt32 := 0x400
def opost : UInt32 := 0x1
def cs8 : UInt32 := 0x30
def echo : UInt32 := 0x8
def icanon : UInt32 := 0x2
def iexten : UInt32 := 0x8000
def isig : UInt32 := 0x1
def vtime : Fin 32 := 5
def vmin : Fin 32 := 6

def raw (orig : Termios) : Termios where
  cIflag := orig.cIflag &&& ~~~(brkint ||| icrnl ||| inpck ||| istrip ||| ixon)
  cOflag := orig.cOflag &&& ~~~opost
  cCflag := orig.cCflag ||| cs8
  cLflag := orig.cLflag &&& ~~~(echo ||| icanon ||| iexten ||| isig)
  cCc := (orig.cCc.set vmin 0).set vtime 1

/-- What the system answers: the attributes unless `tcgetattr` fails, whether the `n`-th
`tcsetattr` succeeds, the window size, the reads, and whether in the `k`-th refresh the `i`-th
`realloc` grants a size. -/
structure System where
  tcgetattr : Option Termios
  tcsetattr : ℕ → Bool
  window : Window
  input : List ReadResult
  alloc : ℕ → ℕ → ℤ → Bool

inductive Handler where
  | disableRawMode
  deriving DecidableEq, Repr

/-- `E.orig_termios`, the calls of `tcsetattr` and those that changed the attributes, the handlers
to be called, how often `exit` was entered, the status, the arguments of `perror` and of `write`,
and how often the screen was refreshed. -/
structure Process where
  origTermios : Termios
  attempts : ℕ
  changes : List Termios
  handlers : List Handler
  exits : ℕ
  status : Option ℤ
  errors : List String
  writes : List (List UInt8)
  refreshes : ℕ
  deriving DecidableEq

def start : Process := ⟨⟨0, 0, 0, 0, Vector.replicate 32 0⟩, 0, [], [], 0, none, [], [], 0⟩

/-- Where a run is after some rounds of the main loop. -/
inductive Outcome where
  | running (p : Process)
  | waiting (p : Process)
  | terminated (p : Process)
  | crashed
  deriving DecidableEq

section Program

variable (sys : System)

/-- `tcsetattr(STDIN_FILENO, TCSAFLUSH, &t)` -/
def tcsetattr (t : Termios) (p : Process) : ℤ × Process :=
  let p' := { p with attempts := p.attempts + 1 }
  if sys.tcsetattr p.attempts then (0, { p' with changes := p.changes ++ [t] }) else (-1, p')

def enterExit (p : Process) : Process := { p with exits := p.exits + 1 }

def write (bytes : List (List UInt8)) (p : Process) : Process := { p with writes := p.writes ++ bytes }

def refreshed (screen : List UInt8) (p : Process) : Process :=
  { p with writes := p.writes ++ [screen], refreshes := p.refreshes + 1 }

def perror (s : String) (p : Process) : Process := { p with errors := p.errors ++ [s] }

/-- The handlers of an `exit` that has been entered, each taken off the list before it is called.
A `disableRawMode` that fails enters `exit` again, and does not return. -/
def runHandlers : List Handler → ℤ → Process → Process
  | [], status, p => { p with status := some status }
  | .disableRawMode :: handlers, status, p =>
    let (r, p) := tcsetattr sys p.origTermios { p with handlers }
    if r = -1 then
      runHandlers handlers 1 (enterExit (perror "tcsetattr" (write [clearScreen, cursorTopleft] p)))
    else runHandlers handlers status p

def exit (status : ℤ) (p : Process) : Process := runHandlers sys p.handlers status (enterExit p)

def die (s : String) (p : Process) : Process :=
  exit sys 1 (perror s (write [clearScreen, cursorTopleft] p))

def enableRawMode (p : Process) : Outcome ⊕ Process :=
  match sys.tcgetattr with
  | none => .inl (.terminated (die sys "tcgetattr" p))
  | some origTermios =>
    let p := { p with origTermios, handlers := .disableRawMode :: p.handlers }
    let (r, p) := tcsetattr sys (raw origTermios) p
    if r = -1 then .inl (.terminated (die sys "tcsetattr" p)) else .inr p

def cursorHide : List UInt8 := escSeq :: text "[?25l"
def cursorShow : List UInt8 := escSeq :: text "[?25h"

/-- `CURSOR_MOVE` with its two numbers -/
def cursorMove (row col : ℤ) : List UInt8 :=
  escSeq :: '['.toUInt8 :: formatInt row ++ ';'.toUInt8 :: formatInt col ++ ['H'.toUInt8]

/-- What the `k`-th `editorRefreshScreen` hands to its `write`. -/
def editorRefreshScreen (fuel k : ℕ) (E : Editor) : Option (List UInt8) :=
  let ab := abAppend (sys.alloc k) abufInit cursorHide
  let ab := abAppend (sys.alloc k) ab cursorTopleft
  (editorDrawRows (sys.alloc k) fuel E ab).map fun ab =>
    let ab := abAppend (sys.alloc k) ab (snprintf 32 (cursorMove (E.cy + 1) (E.cx + 1))).1
    (abAppend (sys.alloc k) ab cursorShow).b

def stopped (p : Process) : Stop → Outcome
  | .waiting => .waiting p
  | .died s => .terminated (die sys s p)
  | .exited writes status => .terminated (exit sys status (write writes p))
  | .fault => .crashed

/-- `while (1)`, for `n` rounds -/
def mainLoop (fuel : ℕ) : ℕ → Editor → List ReadResult → Process → Outcome
  | 0, _, _, p => .running p
  | n + 1, E, input, p =>
    match editorRefreshScreen sys fuel p.refreshes E with
    -- only for want of fuel
    | none => .running p
    | some screen =>
      let p := refreshed screen p
      match editorProcessKyepress E input with
      | .error stop => stopped sys p stop
      | .ok (E, input) => mainLoop fuel n E input p

def main (fuel n : ℕ) : Outcome :=
  match enableRawMode sys start with
  | .inl outcome => outcome
  | .inr p =>
    let p := write (queries sys.window) p
    match initEditor sys.window sys.input with
    | .error stop => stopped sys p stop
    | .ok (E, input) => mainLoop sys fuel n E input p

end Program

/-! ### Why a call does not return -/

theorem editorReadKey_error {input : List ReadResult} {stop : Stop}
    (h : editorReadKey input = .error stop) : stop = .waiting ∨ stop = .died "read" := by
  have hawait : ∀ {input : List ReadResult}, awaitByte input = .error stop →
      stop = .waiting ∨ stop = .died "read" := by
    intro input h
    induction input with
    | nil =>
      cases h
      exact .inl rfl
    | cons r input ih =>
      cases r with
      | byte c => cases h
      | timeout => exact ih h
      | fail eagain =>
        cases eagain with
        | true => exact ih h
        | false =>
          cases h
          exact .inr rfl
  rcases bind_eq_error.1 h with hbyte | ⟨⟨c, rest⟩, -, hkey⟩
  · exact hawait hbyte
  · simp only at hkey
    split at hkey
    · match rest, hkey with
      | [], hkey =>
        cases hkey
        exact .inl rfl
      | [.byte b0], hkey =>
        cases hkey
        exact .inl rfl
    · cases hkey

theorem editorProcessKyepress_error {E : Editor} {input : List ReadResult} {stop : Stop}
    (h : editorProcessKyepress E input = .error stop) : stop = .waiting ∨ stop = .died "read" ∨
      stop = .exited [clearScreen, cursorTopleft] 0 ∧
        ∃ rest, editorReadKey input = .ok (((ctrlKey 'q').toNat : ℤ), rest) := by
  rcases bind_eq_error.1 h with hkey | ⟨⟨c, rest⟩, hread, hkey⟩
  · exact (editorReadKey_error hkey).imp_right .inl
  · simp only at hkey
    split at hkey
    · rename_i hquit
      cases hkey
      exact .inr (.inr ⟨rfl, rest, by rw [hread, hquit]⟩)
    · split at hkey <;> cases hkey

theorem initEditor_error {w : Window} {input : List ReadResult} {stop : Stop}
    (h : initEditor w input = .error stop) : stop = .waiting ∨ stop = .died "getWindowSize" := by
  have hreport : ∀ {written rows cols : ℤ} {junk : Buffer},
      getCursorPosition written junk rows cols input = .error stop → stop = .waiting := by
    intro written rows cols junk h
    by_cases hwritten : written = cursorPos.length
    · subst hwritten
      rcases received_or_waiting input with ⟨bytes, whole, rest, hin⟩ | ⟨bytes, rfl, hlen, hR⟩
      · rw [getCursorPosition_received hin] at h
        cases h
      · rw [getCursorPosition_waiting hlen hR] at h
        cases h
        rfl
    · rw [getCursorPosition, if_pos hwritten] at h
      cases h
  have hask : ∀ {rows cols : ℤ}, askTerminal w rows cols input = .error stop → stop = .waiting := by
    intro rows cols h
    unfold askTerminal at h
    split at h
    · cases h
    · exact hreport h
  rcases bind_eq_error.1 h with hsize | ⟨⟨⟨ret, rows, cols⟩, rest⟩, -, hend⟩
  · refine .inl ?_
    unfold getWindowSize at hsize
    split at hsize
    · exact hask hsize
    · split at hsize
      · exact hask hsize
      · cases hsize
  · simp only at hend
    split at hend
    · cases hend
      exact .inr rfl
    · cases hend

/-! ### Ways out -/

section Exit

variable {sys : System} {p : Process}

/-- A handler that fails dies as any other function. -/
theorem runHandlers_dies {handlers : List Handler} {status : ℤ} {p' : Process}
    (h : tcsetattr sys p.origTermios { p with handlers } = (-1, p')) :
    runHandlers sys (.disableRawMode :: handlers) status p = die sys "tcsetattr" p' := by
  have hleft : p'.handlers = handlers := by
    rw [tcsetattr] at h
    split at h
    · cases h
    · cases h
      rfl
  rw [runHandlers, h, die, exit]
  simp only [if_true, perror, write, hleft]

structure Armed (sys : System) (p : Process) : Prop where
  saved : sys.tcgetattr = some p.origTermios
  attempts : p.attempts = 1
  handlers : p.handlers = [.disableRawMode]
  exits : p.exits = 0

/-- `exit` was entered once, and raw attributes have been undone by the last change. -/
structure Restored (sys : System) (p : Process) : Prop where
  once : p.exits = 1
  last : ∀ orig, sys.tcgetattr = some orig → raw orig ∈ p.changes → p.changes.getLast? = some orig

theorem armed_perror (h : Armed sys p) (s : String) : Armed sys (perror s p) :=
  ⟨h.saved, h.attempts, h.handlers, h.exits⟩

theorem armed_write (h : Armed sys p) (bytes : List (List UInt8)) : Armed sys (write bytes p) :=
  ⟨h.saved, h.attempts, h.handlers, h.exits⟩

theorem exit_restored_iff (h : Armed sys p) (status : ℤ) :
    Restored sys (exit sys status p) ↔ sys.tcsetattr 1 = true := by
  obtain ⟨hsaved, hattempts, hhandlers, hexits⟩ := h
  rw [exit, hhandlers, runHandlers]
  cases hcall : sys.tcsetattr 1 with
  | true =>
    refine iff_of_true ⟨?_, fun orig horig _ => ?_⟩ rfl
    · simp [tcsetattr, enterExit, hattempts, hcall, runHandlers, hexits]
    · obtain rfl : p.origTermios = orig := Option.some.inj (hsaved.symm.trans horig)
      simp [tcsetattr, enterExit, hattempts, hcall, runHandlers]
  | false =>
    refine iff_of_false (fun hrestored => ?_) (by simp)
    have hone := hrestored.once
    simp [tcsetattr, enterExit, hattempts, hcall, runHandlers, hexits, perror, write] at hone

def EndsArmed (sys : System) : Outcome → Prop
  | .terminated p' => ∃ p status, Armed sys p ∧ p' = exit sys status p
  | .crashed => False
  | _ => True

theorem stopped_armed (h : Armed sys p) {stop : Stop} (hstop : stop ≠ .fault) :
    EndsArmed sys (stopped sys p stop) := by
  cases stop with
  | waiting => trivial
  | died s => exact ⟨_, 1, armed_perror (armed_write h _) s, rfl⟩
  | exited writes status => exact ⟨_, status, armed_write h writes, rfl⟩
  | fault => exact absurd rfl hstop

theorem mainLoop_armed (fuel n : ℕ) (E : Editor) (input : List ReadResult) (h : Armed sys p) :
    EndsArmed sys (mainLoop sys fuel n E input p) := by
  induction n generalizing E input p with
  | zero => trivial
  | succ n ih =>
    rw [mainLoop]
    cases editorRefreshScreen sys fuel p.refreshes E with
    | none => trivial
    | some screen =>
      have hdrawn : Armed sys (refreshed screen p) :=
        ⟨h.saved, h.attempts, h.handlers, h.exits⟩
      simp only
      cases hkey : editorProcessKyepress E input with
      | error stop =>
        refine stopped_armed hdrawn ?_
        rcases editorProcessKyepress_error hkey with rfl | rfl | ⟨rfl, -⟩ <;> simp
      | ok next => exact ih next.1 next.2 hdrawn

theorem enableRawMode_armed {orig : Termios} (horig : sys.tcgetattr = some orig) :
    (∃ p, Armed sys p ∧ enableRawMode sys start = .inl (.terminated (die sys "tcsetattr" p))) ∨
      ∃ p, Armed sys p ∧ enableRawMode sys start = .inr p := by
  rw [enableRawMode, horig]
  cases hcall : sys.tcsetattr 0 with
  | false =>
    refine .inl ⟨⟨orig, 1, [], [.disableRawMode], 0, none, [], [], 0⟩, ⟨horig, rfl, rfl, rfl⟩, ?_⟩
    simp [tcsetattr, start, hcall]
  | true =>
    refine .inr ⟨⟨orig, 1, [raw orig], [.disableRawMode], 0, none, [], [], 0⟩,
      ⟨horig, rfl, rfl, rfl⟩, ?_⟩
    simp [tcsetattr, start, hcall]

theorem main_armed (fuel n : ℕ) {orig : Termios} (horig : sys.tcgetattr = some orig) :
    EndsArmed sys (main sys fuel n) := by
  rw [main]
  rcases enableRawMode_armed horig with ⟨p, harmed, hdied⟩ | ⟨p, harmed, hset⟩
  · rw [hdied]
    exact ⟨_, 1, armed_perror (armed_write harmed _) _, rfl⟩
  · rw [hset]
    simp only
    cases hinit : initEditor sys.window sys.input with
    | error stop =>
      refine stopped_armed (armed_write harmed _) ?_
      rcases initEditor_error hinit with rfl | rfl <;> simp
    | ok answer => exact mainLoop_armed fuel n answer.1 answer.2 (armed_write harmed _)

theorem editorRefreshScreen_total (sys : System) (fuel k : ℕ) (E : Editor)
    (hfuel : paddingOf E.screencols < fuel) : ∃ screen, editorRefreshScreen sys fuel k E = some screen := by
  simp only [editorRefreshScreen, editorDrawRows_run fuel E hfuel, Option.map_some]
  exact ⟨_, rfl⟩

end Exit

/-- The run never leaves an array. When it ends, `exit` was entered once and raw attributes are
undone, exactly when there was nothing to undo or the `tcsetattr` of the exit handler succeeds. -/
theorem main_restores_iff (sys : System) (fuel n : ℕ) : main sys fuel n ≠ .crashed ∧
    ∀ p, main sys fuel n = .terminated p →
      (Restored sys p ↔ sys.tcgetattr = none ∨ sys.tcsetattr 1 = true) := by
  cases horig : sys.tcgetattr with
  | none =>
    have hmain : main sys fuel n = .terminated (die sys "tcgetattr" start) := by
      rw [main, enableRawMode, horig]
    rw [hmain]
    refine ⟨by simp, fun p hp => iff_of_true ?_ (.inl rfl)⟩
    cases hp
    exact ⟨rfl, fun orig _ h => absurd h List.not_mem_nil⟩
  | some orig =>
    have hends := main_armed fuel n horig
    constructor
    · intro hcrash
      rw [hcrash] at hends
      exact hends
    · intro p hp
      rw [hp] at hends
      obtain ⟨p', status, harmed, rfl⟩ := hends
      rw [exit_restored_iff harmed]
      simp

def cooked : Termios := ⟨icrnl ||| ixon, opost, 0, echo ||| icanon ||| isig, Vector.replicate 32 0⟩

/-- A terminal that is hung up after raw mode was installed, and `Ctrl-Q`. -/
def hungUp : System :=
  ⟨some cooked, fun n => n = 0, window 1 1, [.byte (ctrlKey 'q')], fun _ _ _ => true⟩

/-- The handler's `tcsetattr` fails: `exit` is entered again, and the terminal stays raw. -/
theorem main_exits_twice : ¬∀ (sys : System) (fuel n : ℕ) (p : Process),
    main sys fuel n = .terminated p → Restored sys p := by
  intro h
  have hend : ∃ p, main hungUp 1 1 = .terminated p ∧ p.exits = 2 := ⟨_, rfl, rfl⟩
  obtain ⟨p, hp, htwice⟩ := hend
  have honce := (h hungUp 1 1 p hp).once
  omega

end Stage0.KiloExit
