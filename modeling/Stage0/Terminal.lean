import Mathlib
import Stage0.Decimal

set_option autoImplicit false

/-!
# A character terminal

A screen of cells under a cursor, driven one byte at a time. Characters overwrite
cells and wrap at the right edge once another one follows; a tab moves to the next
of the stops at every eighth column; `ESC [ r ; c H` addresses the cursor and
`ESC [ 2 J` blanks the screen. Other control sequences have no effect here.
-/
namespace Stage0.Terminal
open Decimal

def blank : UInt8 := ' '.toUInt8
def esc : UInt8 := 0x1b

inductive Mode where
  | ground
  | escape
  | control (parameters : List UInt8)
  deriving DecidableEq, Repr

structure Screen (rows cols : ℕ) where
  cells : Fin rows → Fin cols → UInt8
  row : Fin rows
  col : Fin cols
  wrap : Bool
  mode : Mode

variable {rows cols : ℕ}

def clamp {n : ℕ} (i : Fin n) (k : ℕ) : Fin n := ⟨min k (n - 1), by have := i.isLt; omega⟩

/-- The two numbers of a cursor address; they count from one. -/
def address (parameters : List UInt8) : ℕ × ℕ :=
  (decimal (parameters.takeWhile isDigit) - 1,
   decimal (((parameters.dropWhile isDigit).drop 1).takeWhile isDigit) - 1)

def printable (b : UInt8) : Bool := decide (32 ≤ b ∧ b ≠ 127)

namespace Screen

def moveTo (s : Screen rows cols) (r c : ℕ) : Screen rows cols :=
  { s with row := clamp s.row r, col := clamp s.col c, wrap := false }

def lineFeed (s : Screen rows cols) : Screen rows cols :=
  if s.row + 1 < rows then { s with row := clamp s.row (s.row + 1) }
  else { s with cells := fun r c => if h : r + 1 < rows then s.cells ⟨r + 1, h⟩ c else blank }

def place (s : Screen rows cols) (b : UInt8) : Screen rows cols :=
  { s with cells := fun r c => if r = s.row ∧ c = s.col then b else s.cells r c,
           col := clamp s.col (s.col + 1), wrap := decide (s.col + 1 = cols) }

def put (s : Screen rows cols) (b : UInt8) : Screen rows cols :=
  if s.wrap then ({ s with col := clamp s.col 0, wrap := false }).lineFeed.place b else s.place b

def tab (s : Screen rows cols) : Screen rows cols :=
  { s with col := clamp s.col ((s.col / 8 + 1) * 8) }

def control (s : Screen rows cols) (parameters : List UInt8) (final : UInt8) : Screen rows cols :=
  if final = 'H'.toUInt8 then s.moveTo (address parameters).1 (address parameters).2
  else if final = 'J'.toUInt8 ∧ parameters = ['2'.toUInt8] then { s with cells := fun _ _ => blank }
  else s

def feedByte (s : Screen rows cols) (b : UInt8) : Screen rows cols :=
  match s.mode with
  | .ground =>
    if printable b then s.put b
    else if b = esc then { s with mode := .escape }
    else if b = '\t'.toUInt8 then s.tab
    else if b = '\r'.toUInt8 then { s with col := clamp s.col 0, wrap := false }
    else if b = '\n'.toUInt8 then s.lineFeed
    else s
  | .escape => { s with mode := if b = '['.toUInt8 then .control [] else .ground }
  | .control parameters =>
    if b < 0x40 then { s with mode := .control (parameters ++ [b]) }
    else ({ s with mode := .ground }).control parameters b

def feed (s : Screen rows cols) (text : List UInt8) : Screen rows cols := text.foldl feedByte s

def at? (s : Screen rows cols) (r c : ℕ) : Option UInt8 :=
  if h : r < rows ∧ c < cols then some (s.cells ⟨r, h.1⟩ ⟨c, h.2⟩) else none

end Screen

open Screen

theorem feed_append (s : Screen rows cols) (text text' : List UInt8) :
    s.feed (text ++ text') = (s.feed text).feed text' :=
  List.foldl_append

/-! ### Control sequences -/

theorem feed_parameters (s : Screen rows cols) (parameters more : List UInt8)
    (hmode : s.mode = .control parameters) (hmore : ∀ b ∈ more, b < 0x40) :
    s.feed more = { s with mode := .control (parameters ++ more) } := by
  induction more generalizing s parameters with
  | nil =>
    rw [List.append_nil, ← hmode]
    rfl
  | cons b more ih =>
    have hstep : s.feedByte b = { s with mode := .control (parameters ++ [b]) } := by
      rw [feedByte, hmode]
      exact if_pos (hmore b List.mem_cons_self)
    change (s.feedByte b).feed more = _
    rw [hstep, ih _ (parameters ++ [b]) rfl (fun c hc => hmore c (List.mem_cons_of_mem b hc)),
      List.append_assoc]
    rfl

theorem feed_control (s : Screen rows cols) (parameters : List UInt8) (final : UInt8)
    (hmode : s.mode = .ground) (hparameters : ∀ b ∈ parameters, b < 0x40) (hfinal : 0x40 ≤ final) :
    s.feed (esc :: '['.toUInt8 :: parameters ++ [final]) = s.control parameters final := by
  have hstart : s.feed [esc, '['.toUInt8] = { s with mode := .control [] } := by
    change (s.feedByte esc).feedByte '['.toUInt8 = _
    have hesc : s.feedByte esc = { s with mode := .escape } := by
      rw [feedByte, hmode]
      rfl
    rw [hesc]
    rfl
  have hground : { s with mode := .ground } = s := by
    rw [← hmode]
  have hsplit : esc :: '['.toUInt8 :: parameters ++ [final] =
      [esc, '['.toUInt8] ++ (parameters ++ [final]) := rfl
  rw [hsplit, feed_append, feed_append, hstart, feed_parameters _ [] parameters rfl hparameters]
  change (if final < 0x40 then _ else ({ s with mode := .ground } : Screen rows cols).control _ _) = _
  rw [if_neg (UInt8.not_lt.2 hfinal), hground, List.nil_append]

theorem digit_parameter {b : UInt8} (h : isDigit b = true) : b < 0x40 := by
  have hd := of_decide_eq_true h
  exact UInt8.lt_of_le_of_lt hd.2 (by decide)

/-- The bytes that address row `r` and column `c`, counted from zero. -/
def addressBytes (r c : ℕ) : List UInt8 :=
  esc :: '['.toUInt8 :: (formatNat (r + 1) ++ ';'.toUInt8 :: formatNat (c + 1)) ++ ['H'.toUInt8]

theorem feed_address (s : Screen rows cols) (r c : ℕ) (hmode : s.mode = .ground) :
    s.feed (addressBytes r c) = s.moveTo r c := by
  have hr := formatNat_digits (r + 1)
  have hc := formatNat_digits (c + 1)
  have hsep : NoDigit (';'.toUInt8 :: formatNat (c + 1)) := noDigit_cons (by decide) _
  have hall : ∀ b ∈ formatNat (r + 1) ++ ';'.toUInt8 :: formatNat (c + 1), b < 0x40 := by
    intro b hb
    rcases List.mem_append.1 hb with hb | hb
    · exact digit_parameter (hr b hb)
    · rcases List.mem_cons.1 hb with rfl | hb
      · decide
      · exact digit_parameter (hc b hb)
  have hrows := takeWhile_run hr hsep
  have hcols : (formatNat (c + 1)).takeWhile isDigit = formatNat (c + 1) :=
    List.takeWhile_eq_self_iff.2 hc
  rw [addressBytes, feed_control s _ _ hmode hall (by decide), Screen.control, if_pos rfl, address,
    hrows.1, hrows.2]
  change s.moveTo (decimal (formatNat (r + 1)) - 1)
    (decimal ((formatNat (c + 1)).takeWhile isDigit) - 1) = _
  rw [hcols, decimal_formatNat, decimal_formatNat]
  rfl

/-! ### Text -/

theorem lineFeed_mode (s : Screen rows cols) : s.lineFeed.mode = s.mode := by
  unfold Screen.lineFeed
  split <;> rfl

theorem put_mode (s : Screen rows cols) (b : UInt8) : (s.put b).mode = s.mode := by
  unfold Screen.put
  split
  · exact lineFeed_mode _
  · rfl

theorem feed_put (s : Screen rows cols) {b : UInt8} (hmode : s.mode = .ground)
    (hwrap : s.wrap = false) (hb : printable b = true) : s.feedByte b = s.place b := by
  rw [feedByte, hmode]
  change (if printable b then s.put b else _) = _
  rw [if_pos hb, put, hwrap]
  rfl

theorem feed_tab (s : Screen rows cols) (hmode : s.mode = .ground) :
    s.feedByte '\t'.toUInt8 = s.tab := by
  rw [feedByte, hmode]
  rfl

theorem clamp_val {n : ℕ} (i : Fin n) {k : ℕ} (h : k < n) : ((clamp i k : Fin n) : ℕ) = k := by
  change min k (n - 1) = k
  omega

def overwrite (cells : Fin rows → Fin cols → UInt8) (row : Fin rows) (col : ℕ)
    (text : List UInt8) : Fin rows → Fin cols → UInt8 :=
  fun r c => if r = row ∧ col ≤ c then (text[(c : ℕ) - col]?).getD (cells r c) else cells r c

theorem overwrite_cons (cells : Fin rows → Fin cols → UInt8) (row : Fin rows) (col : Fin cols)
    (b : UInt8) (text : List UInt8) :
    overwrite (fun r c => if r = row ∧ c = col then b else cells r c) row (col + 1) text =
      overwrite cells row col (b :: text) := by
  funext r c
  simp only [overwrite]
  by_cases hr : r = row
  · rcases Nat.lt_trichotomy (c : ℕ) col with h | h | h
    · have hne : ¬(r = row ∧ c = col) := fun he => by rw [he.2] at h; omega
      rw [if_neg (by omega), if_neg hne, if_neg (by omega)]
    · have heq : c = col := Fin.ext h
      rw [if_neg (by omega), if_pos ⟨hr, heq⟩, if_pos ⟨hr, by omega⟩, h, Nat.sub_self]
      rfl
    · have hne : ¬(r = row ∧ c = col) := fun he => by rw [he.2] at h; omega
      have hsucc : (c : ℕ) - col = (c : ℕ) - (col + 1) + 1 := by omega
      rw [if_pos ⟨hr, by omega⟩, if_neg hne, if_pos ⟨hr, by omega⟩, hsucc, List.getElem?_cons_succ]
  · rw [if_neg (fun he => hr he.1), if_neg (fun he => hr he.1), if_neg (fun he => hr he.1)]

theorem feed_text (s : Screen rows cols) (text : List UInt8) (hmode : s.mode = .ground)
    (hwrap : s.wrap = false) (htext : ∀ b ∈ text, printable b = true)
    (hroom : s.col + text.length < cols) :
    s.feed text = { s with cells := overwrite s.cells s.row s.col text,
                           col := clamp s.col (s.col + text.length) } := by
  induction text generalizing s with
  | nil =>
    have hcells : overwrite s.cells s.row s.col [] = s.cells := by
      funext r c
      exact ite_self _
    have hcol : clamp s.col (s.col + 0) = s.col := Fin.ext (clamp_val s.col s.col.isLt)
    rw [hcells, List.length_nil, hcol]
    rfl
  | cons b text ih =>
    rw [List.length_cons] at hroom
    have hcol : (((s.place b).col : Fin cols) : ℕ) = s.col + 1 := clamp_val s.col (by omega)
    have hnowrap : (s.place b).wrap = false := decide_eq_false (by omega)
    change (s.feedByte b).feed text = _
    rw [feed_put s hmode hwrap (htext b List.mem_cons_self),
      ih (s.place b) hmode hnowrap (fun c hc => htext c (List.mem_cons_of_mem b hc)) (by omega),
      hcol, hnowrap, ← hwrap]
    have hend : clamp (s.place b).col ((s.col : ℕ) + 1 + text.length) =
        clamp s.col ((s.col : ℕ) + (b :: text).length) := by
      refine Fin.ext ?_
      rw [clamp_val _ (by omega), clamp_val _ (by rw [List.length_cons]; omega), List.length_cons]
      omega
    rw [hend, ← overwrite_cons]
    rfl

theorem feed_text_rows (s : Screen rows cols) (text : List UInt8) (hmode : s.mode = .ground)
    (hwrap : s.wrap = false) (htext : ∀ b ∈ text, printable b = true)
    (hroom : s.col + text.length < cols) :
    (s.feed text).mode = .ground ∧ (s.feed text).wrap = false ∧ (s.feed text).row = s.row ∧
      (((s.feed text).col : Fin cols) : ℕ) = s.col + text.length ∧
      ∀ r c : ℕ, r ≠ s.row → (s.feed text).at? r c = s.at? r c := by
  rw [feed_text s text hmode hwrap htext hroom]
  refine ⟨hmode, hwrap, rfl, clamp_val s.col hroom, fun r c hr => ?_⟩
  unfold at?
  split
  · rename_i h
    refine congrArg some (if_neg (fun he => hr ?_))
    exact congrArg Fin.val he.1
  · rfl

theorem feed_drawn (s : Screen rows cols) {r c : ℕ} {b : UInt8} (hmode : s.mode = .ground)
    (hr : r < rows) (hc : c < cols) (hb : printable b = true) :
    (s.feed (addressBytes r c ++ [b])).mode = .ground ∧
      ∀ r' c', (s.feed (addressBytes r c ++ [b])).at? r' c' =
        if r' = r ∧ c' = c then some b else s.at? r' c' := by
  have hput : s.feed (addressBytes r c ++ [b]) = (s.moveTo r c).place b := by
    rw [feed_append, feed_address s r c hmode]
    exact feed_put (s.moveTo r c) hmode rfl hb
  rw [hput]
  refine ⟨hmode, fun r' c' => ?_⟩
  have hrow : (((s.moveTo r c).row : Fin rows) : ℕ) = r := clamp_val s.row hr
  have hcol : (((s.moveTo r c).col : Fin cols) : ℕ) = c := clamp_val s.col hc
  unfold at?
  by_cases h : r' < rows ∧ c' < cols
  · rw [dif_pos h, dif_pos h]
    change some (if (⟨r', h.1⟩ : Fin rows) = (s.moveTo r c).row ∧
      (⟨c', h.2⟩ : Fin cols) = (s.moveTo r c).col then b else s.cells ⟨r', h.1⟩ ⟨c', h.2⟩) = _
    simp only [Fin.ext_iff, hrow, hcol]
    split <;> rfl
  · rw [dif_neg h, dif_neg h, if_neg (by omega)]

end Stage0.Terminal
