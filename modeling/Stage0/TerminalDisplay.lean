import Mathlib
import Stage0.Terminal

set_option autoImplicit false

/-!
# A terminal that answers

The screen again, with a cursor that can be hidden, moved and asked for: `ESC [ K` erases
to the end of the row, `ESC [ n C` and `ESC [ n B` move right and down without scrolling,
`ESC [ ? 25 l` and `ESC [ ? 25 h` hide and show the cursor, and to `ESC [ 6 n` the terminal
sends back its position.
-/
namespace Stage0.TerminalDisplay
open Decimal Terminal

variable {rows cols : ℕ}

structure Display (rows cols : ℕ) where
  screen : Screen rows cols
  visible : Bool
  replies : List UInt8

/-- How far to move; without a number by one. -/
def count (parameters : List UInt8) : ℕ := max 1 (decimal (parameters.takeWhile isDigit))

/-- The report `ESC [ r ; c R`. -/
def report (r c : ℕ) : List UInt8 :=
  esc :: '['.toUInt8 :: (formatNat (r + 1) ++ ';'.toUInt8 :: formatNat (c + 1)) ++ ['R'.toUInt8]

def cursorMode : List UInt8 := ['?'.toUInt8, '2'.toUInt8, '5'.toUInt8]

def eraseRight (s : Screen rows cols) : Screen rows cols :=
  { s with cells := fun r c => if r = s.row ∧ s.col ≤ c then blank else s.cells r c }

namespace Display

def control (d : Display rows cols) (parameters : List UInt8) (final : UInt8) : Display rows cols :=
  if final = 'K'.toUInt8 ∧ parameters = [] then { d with screen := eraseRight d.screen }
  else if final = 'C'.toUInt8 then
    { d with screen := d.screen.moveTo d.screen.row (d.screen.col + count parameters) }
  else if final = 'B'.toUInt8 then
    { d with screen := d.screen.moveTo (d.screen.row + count parameters) d.screen.col }
  else if final = 'n'.toUInt8 ∧ parameters = ['6'.toUInt8] then
    { d with replies := d.replies ++ report d.screen.row d.screen.col }
  else if final = 'l'.toUInt8 ∧ parameters = cursorMode then { d with visible := false }
  else if final = 'h'.toUInt8 ∧ parameters = cursorMode then { d with visible := true }
  else { d with screen := d.screen.control parameters final }

def feedByte (d : Display rows cols) (b : UInt8) : Display rows cols :=
  match d.screen.mode with
  | .control parameters =>
    if b < 0x40 then { d with screen := d.screen.feedByte b }
    else ({ d with screen := { d.screen with mode := .ground } }).control parameters b
  | _ => { d with screen := d.screen.feedByte b }

def feed (d : Display rows cols) (text : List UInt8) : Display rows cols := text.foldl feedByte d

end Display

open Display

theorem display_append (d : Display rows cols) (text text' : List UInt8) :
    d.feed (text ++ text') = (d.feed text).feed text' :=
  List.foldl_append

/-! ### Text without control sequences -/

theorem feedByte_ground {s : Screen rows cols} (hmode : s.mode = .ground) {b : UInt8} (hb : b ≠ esc) :
    (s.feedByte b).mode = .ground := by
  rw [Screen.feedByte, hmode]
  simp only [if_neg hb]
  split_ifs
  · rw [put_mode, hmode]
  · exact hmode
  · rfl
  · rw [lineFeed_mode, hmode]
  · exact hmode

theorem display_text (d : Display rows cols) (text : List UInt8) (hmode : d.screen.mode = .ground)
    (htext : ∀ b ∈ text, b ≠ esc) :
    d.feed text = { d with screen := d.screen.feed text } ∧
      (d.screen.feed text).mode = .ground := by
  induction text generalizing d with
  | nil => exact ⟨rfl, hmode⟩
  | cons b text ih =>
    have hstep : d.feedByte b = { d with screen := d.screen.feedByte b } := by
      rw [Display.feedByte, hmode]
    have hnext := feedByte_ground hmode (htext b List.mem_cons_self)
    obtain ⟨hrest, hground⟩ := ih { d with screen := d.screen.feedByte b } hnext
      (fun c hc => htext c (List.mem_cons_of_mem b hc))
    refine ⟨?_, hground⟩
    change (d.feedByte b).feed text = _
    rw [hstep, hrest]
    rfl

theorem printable_ne_esc {b : UInt8} (h : printable b = true) : b ≠ esc := by
  rintro rfl
  revert h
  decide

/-! ### Control sequences -/

theorem display_parameters (d : Display rows cols) (parameters more : List UInt8)
    (hmode : d.screen.mode = .control parameters) (hmore : ∀ b ∈ more, b < 0x40) :
    d.feed more = { d with screen := { d.screen with mode := .control (parameters ++ more) } } := by
  induction more generalizing d parameters with
  | nil =>
    rw [List.append_nil, ← hmode]
    rfl
  | cons b more ih =>
    have hb := hmore b List.mem_cons_self
    have hstep : d.feedByte b =
        { d with screen := { d.screen with mode := .control (parameters ++ [b]) } } := by
      rw [Display.feedByte, hmode]
      simp only [if_pos hb]
      rw [Screen.feedByte, hmode]
      simp only [if_pos hb]
    change (d.feedByte b).feed more = _
    rw [hstep, ih _ (parameters ++ [b]) rfl (fun c hc => hmore c (List.mem_cons_of_mem b hc)),
      List.append_assoc]
    rfl

theorem display_control (d : Display rows cols) (parameters : List UInt8) (final : UInt8)
    (hmode : d.screen.mode = .ground) (hparameters : ∀ b ∈ parameters, b < 0x40)
    (hfinal : 0x40 ≤ final) :
    d.feed (esc :: '['.toUInt8 :: parameters ++ [final]) = d.control parameters final := by
  have hstart : d.feed [esc, '['.toUInt8] = { d with screen := { d.screen with mode := .control [] } } := by
    change (d.feedByte esc).feedByte '['.toUInt8 = _
    have hesc : d.feedByte esc = { d with screen := { d.screen with mode := .escape } } := by
      rw [Display.feedByte, hmode]
      simp only
      rw [Screen.feedByte, hmode]
      rfl
    rw [hesc]
    rfl
  have hground : { d with screen := { d.screen with mode := .ground } } = d := by
    rw [← hmode]
  have hsplit : esc :: '['.toUInt8 :: parameters ++ [final] =
      [esc, '['.toUInt8] ++ (parameters ++ [final]) := rfl
  rw [hsplit, display_append, display_append, hstart, display_parameters _ [] parameters rfl hparameters]
  change (if final < 0x40 then _ else
    ({ d with screen := { d.screen with mode := .ground } } : Display rows cols).control _ _) = _
  rw [if_neg (UInt8.not_lt.2 hfinal), hground, List.nil_append]

theorem control_mode (d : Display rows cols) (parameters : List UInt8) (final : UInt8) :
    (d.control parameters final).screen.mode = d.screen.mode := by
  unfold Display.control
  split_ifs
  · rfl
  · rfl
  · rfl
  · rfl
  · rfl
  · rfl
  · unfold Screen.control
    split_ifs <;> rfl

section Rows

variable {text : ℕ → List UInt8} (htext : ∀ y < rows, ∀ b ∈ text y, printable b = true)
  (hroom : ∀ y < rows, (text y).length < cols)
include htext hroom

end Rows

end Stage0.TerminalDisplay
