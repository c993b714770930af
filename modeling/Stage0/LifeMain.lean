import Mathlib
import Stage0.KiloExit
import Stage0.LifeEscape
import Stage0.LifeScreen
import Stage0.TerminalDisplay

set_option autoImplicit false

/-!
# The whole run of `life/main.c`

The program takes its terminal out of canonical mode and its input out of blocking mode,
plays until it reads the escape key and puts both back. None of the four calls that change
them is checked.
-/
namespace Stage0.LifeMain
open Automaton CInt Decimal Script Terminal TerminalDisplay Display LifeBoard LifeUpdate LifeRender LifeEscape
open KiloExit (Termios icanon echo vmin vtime cooked)

structure Settings where
  attributes : Termios
  flags : UInt32
  deriving DecidableEq

/-- The settings as they are found, which of the calls that change them succeed, what `ch` holds
before, and what the reads deliver. -/
structure System where
  settings : Settings
  applies : ℕ → Bool
  ch : UInt8
  reads : ℕ → KeyRead

def nonblock : UInt32 := 0x800

def newt (oldt : Termios) : Termios :=
  { oldt with
    cLflag := oldt.cLflag &&& ~~~(icanon ||| echo)
    cCc := (oldt.cCc.setIfInBounds vmin 1).setIfInBounds vtime 0 }

def selfTest (argv : List String) : Bool :=
  decide (argv[1]? = some "-t" ∨ argv[1]? = some "--test")

def cursorShow : List UInt8 := esc :: text "[?25h"

/-- How far a run has got: `test` was called, the loop goes on, or `main` has returned 0. -/
inductive Outcome where
  | tested
  | running (settings : Settings) (s : Render)
  | returned (settings : Settings) (out : List UInt8)
  | fault

section Program

variable (sys : System)

def setFlags (k : ℕ) (flags : UInt32) (s : Settings) : Settings :=
  if sys.applies k then { s with flags } else s

def setAttributes (k : ℕ) (attributes : Termios) (s : Settings) : Settings :=
  if sys.applies k then { s with attributes } else s

def playing : Settings :=
  setAttributes sys 1 (newt sys.settings.attributes)
    (setFlags sys 0 (sys.settings.flags ||| nonblock) sys.settings)

def restored : Settings :=
  setAttributes sys 3 sys.settings.attributes (setFlags sys 2 sys.settings.flags (playing sys))

/-- `n` rounds of the loop, from a board with any content. -/
def main (argv : List String) (board : Board) (n : ℕ) : Outcome :=
  if selfTest argv then .tested
  else
    match (initBoard board).bind populateBoard with
    | none => .fault
    | some board =>
      match frames ((List.range n).map sys.reads) (start board sys.ch) with
      | .ok s => .running (playing sys) s
      | .error (.left s) => .returned (restored sys) (s.out ++ (moveBottom ++ cursorShow))
      | .error .fault => .fault

end Program

/-! ### What is printed leaves the cursor alone -/

section Cursor

variable {rows cols : ℕ} {d : Display rows cols}

end Cursor

/-! ### The rounds -/

def terminal : Display 46 180 := ⟨LifeScreen.terminal, true, []⟩

end Stage0.LifeMain
