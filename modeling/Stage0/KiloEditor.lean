import Mathlib
import Stage0.KiloReportLanguage

set_option autoImplicit false

/-!
# The cursor of `kilo/kilo.c`

The window size is taken once, from the terminal driver or from a cursor report;
every key moves the cursor by at most one cell.
-/
namespace Stage0.KiloEditor
open Decimal Script KiloInput KiloReport KiloReportLanguage

/-- `E`, without the saved terminal settings. -/
structure Editor where
  cx : ℤ
  cy : ℤ
  screenrows : ℤ
  screencols : ℤ
  deriving DecidableEq, Repr

/-- What start-up gets from the system: `ws_row` and `ws_col` unless `ioctl` fails,
the results of the two writes, and what the report buffer holds before. -/
structure Window where
  ioctl : Option (UInt16 × UInt16)
  moved : ℤ
  written : ℤ
  junk : Buffer

def cursorBottomright : List UInt8 :=
  [escSeq, '['.toUInt8, '9'.toUInt8, '9'.toUInt8, '9'.toUInt8, 'C'.toUInt8,
   escSeq, '['.toUInt8, '9'.toUInt8, '9'.toUInt8, '9'.toUInt8, 'B'.toUInt8]

def clearScreen : List UInt8 := escSeq :: text "[2J"
def cursorTopleft : List UInt8 := escSeq :: text "[H"

def askTerminal (w : Window) (rows cols : ℤ) (input : List ReadResult) :
    Except Stop ((ℤ × ℤ × ℤ) × List ReadResult) :=
  if w.moved ≠ cursorBottomright.length then return ((-1, rows, cols), input)
  else getCursorPosition w.written w.junk rows cols input

def getWindowSize (w : Window) (rows cols : ℤ) (input : List ReadResult) :
    Except Stop ((ℤ × ℤ × ℤ) × List ReadResult) :=
  match w.ioctl with
  | none => askTerminal w rows cols input
  | some (wsRow, wsCol) =>
    if wsCol = 0 then askTerminal w rows cols input
    else return ((0, wsRow.toNat, wsCol.toNat), input)

def askQueries (w : Window) : List (List UInt8) :=
  if w.moved ≠ cursorBottomright.length then [cursorBottomright] else [cursorBottomright, cursorPos]

/-- What `getWindowSize` writes. -/
def queries (w : Window) : List (List UInt8) :=
  match w.ioctl with
  | none => askQueries w
  | some (_, wsCol) => if wsCol = 0 then askQueries w else []

def initEditor (w : Window) (input : List ReadResult) : Except Stop (Editor × List ReadResult) := do
  let ((ret, screenrows, screencols), input) ← getWindowSize w 0 0 input
  if ret = -1 then .error (.died "getWindowSize")
  else return (⟨0, 0, screenrows, screencols⟩, input)

def editorMoveCursor (key : ℤ) (E : Editor) : Editor :=
  if key = arrowLeft then if E.cx ≠ 0 then { E with cx := E.cx - 1 } else E
  else if key = arrowRight then
    if E.cx ≠ E.screencols - 1 then { E with cx := E.cx + 1 } else E
  else if key = arrowUp then if E.cy ≠ 0 then { E with cy := E.cy - 1 } else E
  else if key = arrowDown then
    if E.cy ≠ E.screenrows - 1 then { E with cy := E.cy + 1 } else E
  else E

def editorProcessKyepress (E : Editor) (input : List ReadResult) :
    Except Stop (Editor × List ReadResult) := do
  let (c, input) ← editorReadKey input
  if c = (ctrlKey 'q').toNat then .error (.exited [clearScreen, cursorTopleft] 0)
  else if c = arrowUp ∨ c = arrowDown ∨ c = arrowLeft ∨ c = arrowRight then
    return (editorMoveCursor c E, input)
  else return (E, input)

def processKeys (n : ℕ) (E : Editor) (input : List ReadResult) :
    Except Stop (Editor × List ReadResult) :=
  iterated editorProcessKyepress n E input

structure OnScreen (E : Editor) : Prop where
  cx : 0 ≤ E.cx ∧ E.cx < E.screencols
  cy : 0 ≤ E.cy ∧ E.cy < E.screenrows

/-! ### Moving -/

theorem editorMoveCursor_onScreen (key : ℤ) {E : Editor} (h : OnScreen E) :
    OnScreen (editorMoveCursor key E) := by
  obtain ⟨⟨hx, hxc⟩, hy, hyr⟩ := h
  unfold editorMoveCursor
  split_ifs with hleft hcx hright hcol hup hcy hdown hrow
  · exact ⟨⟨by simp only; omega, by simp only; omega⟩, hy, hyr⟩
  · exact ⟨⟨hx, hxc⟩, hy, hyr⟩
  · exact ⟨⟨by simp only; omega, by simp only; omega⟩, hy, hyr⟩
  · exact ⟨⟨hx, hxc⟩, hy, hyr⟩
  · exact ⟨⟨hx, hxc⟩, by simp only; omega, by simp only; omega⟩
  · exact ⟨⟨hx, hxc⟩, hy, hyr⟩
  · exact ⟨⟨hx, hxc⟩, by simp only; omega, by simp only; omega⟩
  · exact ⟨⟨hx, hxc⟩, hy, hyr⟩
  · exact ⟨⟨hx, hxc⟩, hy, hyr⟩

theorem editorProcessKyepress_ok {E E' : Editor} {input rest : List ReadResult}
    (h : editorProcessKyepress E input = .ok (E', rest)) :
    E' = E ∨ ∃ key, E' = editorMoveCursor key E := by
  obtain ⟨⟨c, input'⟩, -, hkey⟩ := bind_eq_ok.1 h
  simp only at hkey
  split_ifs at hkey
  · cases hkey
    exact .inr ⟨c, rfl⟩
  · cases hkey
    exact .inl rfl

theorem processKeys_onScreen (n : ℕ) (E : Editor) (keys : List ReadResult) (E' : Editor)
    (rest : List ReadResult) (h : OnScreen E) (run : processKeys n E keys = .ok (E', rest)) :
    OnScreen E' := by
  refine iterated_invariant (I := OnScreen) ?_ n E keys E' rest h run
  intro s input s' rest' hs hcall
  rcases editorProcessKyepress_ok hcall with rfl | ⟨key, rfl⟩
  · exact hs
  · exact editorMoveCursor_onScreen key hs

/-! ### Starting -/

def UsableReport (input : List ReadResult) : Prop :=
  ∀ bytes whole rest m n tail, Received input bytes whole rest → Loose bytes m n tail →
    0 < toInt m.value ∧ 0 < toInt n.value

/-- The driver gives a number of rows with its nonzero number of columns, or the
terminal reports a usable size. -/
def UsableSize (w : Window) (input : List ReadResult) : Prop :=
  match w.ioctl with
  | none => UsableReport input
  | some (wsRow, wsCol) => if wsCol = 0 then UsableReport input else wsRow ≠ 0

theorem usableReport_iff {input rest : List ReadResult} {bytes tail : List UInt8} {whole : Bool}
    {m n : Numeral} (hin : Received input bytes whole rest) (hloose : Loose bytes m n tail) :
    UsableReport input ↔ 0 < toInt m.value ∧ 0 < toInt n.value := by
  constructor
  · intro h
    exact h bytes whole rest m n tail hin hloose
  · intro h bytes' whole' rest' m' n' tail' hin' hloose'
    obtain ⟨rfl, -⟩ := received_unique hin hin'
    obtain ⟨rfl, rfl, -⟩ := loose_unique hloose hloose'
    exact h

theorem getCursorPosition_usable {written : ℤ} {junk : Buffer} {input rest : List ReadResult}
    {ret rows cols r c : ℤ}
    (h : getCursorPosition written junk rows cols input = .ok ((ret, r, c), rest))
    (hret : ret ≠ -1) : 0 < r ∧ 0 < c ↔ UsableReport input := by
  by_cases hwritten : written = cursorPos.length
  · subst hwritten
    rcases received_or_waiting input with ⟨bytes, whole, rest', hin⟩ | ⟨bytes, rfl, hlen, hR⟩
    · rw [getCursorPosition_received hin] at h
      have hanswer := (Prod.mk.inj (Except.ok.inj h)).1
      have hzero : ret = 0 := by
        have hstatus := answer_status bytes rows cols
        rw [hanswer] at hstatus
        exact hstatus.resolve_right hret
      subst hzero
      obtain ⟨m, n, tail, hloose, rfl, rfl⟩ := answer_zero.1 hanswer
      exact (usableReport_iff hin hloose).symm
    · rw [getCursorPosition_waiting hlen hR] at h
      cases h
  · rw [getCursorPosition, if_pos hwritten] at h
    cases h
    exact absurd rfl hret

theorem askTerminal_usable {w : Window} {input rest : List ReadResult} {ret rows cols r c : ℤ}
    (h : askTerminal w rows cols input = .ok ((ret, r, c), rest)) (hret : ret ≠ -1) :
    0 < r ∧ 0 < c ↔ UsableReport input := by
  unfold askTerminal at h
  split at h
  · cases h
    exact absurd rfl hret
  · exact getCursorPosition_usable h hret

theorem getWindowSize_usable {w : Window} {input rest : List ReadResult} {ret rows cols r c : ℤ}
    (h : getWindowSize w rows cols input = .ok ((ret, r, c), rest)) (hret : ret ≠ -1) :
    0 < r ∧ 0 < c ↔ UsableSize w input := by
  unfold getWindowSize at h
  unfold UsableSize
  cases hioctl : w.ioctl with
  | none =>
    rw [hioctl] at h
    exact askTerminal_usable h hret
  | some size =>
    obtain ⟨wsRow, wsCol⟩ := size
    rw [hioctl] at h
    simp only at h ⊢
    split at h
    · rename_i hcol
      rw [if_pos hcol]
      exact askTerminal_usable h hret
    · rename_i hcol
      rw [if_neg hcol]
      cases h
      have hrow : wsRow ≠ 0 ↔ wsRow.toNat ≠ 0 := not_congr UInt16.toNat_inj.symm
      have hcol' : wsCol.toNat ≠ 0 := fun h => hcol (UInt16.toNat_inj.1 h)
      rw [hrow]
      omega

theorem initEditor_ok {w : Window} {input rest : List ReadResult} {E : Editor}
    (h : initEditor w input = .ok (E, rest)) : OnScreen E ↔ UsableSize w input := by
  obtain ⟨⟨⟨ret, r, c⟩, rest'⟩, hsize, h⟩ := bind_eq_ok.1 h
  simp only at h
  split at h
  · cases h
  · rename_i hret
    cases h
    rw [← getWindowSize_usable hsize hret]
    constructor
    · intro honscreen
      exact ⟨honscreen.cy.2, honscreen.cx.2⟩
    · rintro ⟨hr, hc⟩
      exact ⟨⟨le_refl _, hc⟩, le_refl _, hr⟩

/-- The cursor stays on the screen through every session that starts, exactly when
the size it starts with is usable. -/
theorem session_onScreen_iff (w : Window) (input rest : List ReadResult) (E : Editor)
    (start : initEditor w input = .ok (E, rest)) :
    (∀ (keys : List ReadResult) (n : ℕ) (E' : Editor) (rest' : List ReadResult),
      processKeys n E keys = .ok (E', rest') → OnScreen E') ↔ UsableSize w input := by
  rw [← initEditor_ok start]
  constructor
  · intro h
    exact h [] 0 E [] rfl
  · intro h keys n E' rest' run
    exact processKeys_onScreen n E keys E' rest' h run

def window (wsRow wsCol : UInt16) : Window :=
  ⟨some (wsRow, wsCol), cursorBottomright.length, cursorPos.length, Vector.replicate 32 0⟩

theorem session_onScreen_iff_window :
    (∀ (keys : List ReadResult) (n : ℕ) (E' : Editor) (rest' : List ReadResult),
      processKeys n ⟨0, 0, 24, 80⟩ keys = .ok (E', rest') → OnScreen E') ↔
        UsableSize (window 24 80) [] :=
  session_onScreen_iff (window 24 80) [] [] ⟨0, 0, 24, 80⟩ rfl

/-- A driver that reports no rows: the cursor is off the screen from the start. -/
theorem session_without_rows :
    ¬∀ (w : Window) (input rest : List ReadResult) (E : Editor),
      initEditor w input = .ok (E, rest) →
        ∀ (keys : List ReadResult) (n : ℕ) (E' : Editor) (rest' : List ReadResult),
          processKeys n E keys = .ok (E', rest') → OnScreen E' := by
  intro h
  have hbad := h (window 0 80) [] [] ⟨0, 0, 0, 80⟩ rfl [] 0 ⟨0, 0, 0, 80⟩ [] rfl
  exact absurd hbad.cy.2 (by decide)

end Stage0.KiloEditor
