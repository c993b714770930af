import Mathlib
import Stage0.KiloEditor
import Stage0.KiloKeys
import Stage0.KiloReportLanguage
import Stage0.TerminalDisplay

set_option autoImplicit false

/-!
# Asking the terminal for its size

Where `ioctl` gives no size, `getWindowSize` of `kilo/kilo.c` moves the cursor by 999 columns
and 999 rows and asks where it is. The terminal that answers is the display.
-/
namespace Stage0.KiloWindowSize
open CInt Decimal Terminal TerminalDisplay Display Script KiloInput KiloKeys KiloReport KiloReportLanguage
  KiloEditor

/-- `ioctl` gives no size, and the two writes are complete. -/
structure Asks (w : Window) : Prop where
  ioctl : w.ioctl = none ∨ ∃ wsRow, w.ioctl = some (wsRow, 0)
  moved : w.moved = cursorBottomright.length
  written : w.written = cursorPos.length

/-- What the terminal sends after the writes of `getWindowSize`. -/
def answered {rows cols : ℕ} (w : Window) (d : Display rows cols) : List ReadResult :=
  (d.feed (queries w).flatten).replies.map .byte

theorem asks_queries {w : Window} (h : Asks w) : (queries w).flatten = cursorBottomright ++ cursorPos := by
  have hask : askQueries w = [cursorBottomright, cursorPos] := if_neg (not_not.2 h.moved)
  rcases h.ioctl with hnone | ⟨wsRow, hsome⟩
  · rw [queries, hnone]
    simp only [hask, List.flatten_cons, List.flatten_nil, List.append_nil]
  · rw [queries, hsome]
    simp only [if_true, hask, List.flatten_cons, List.flatten_nil, List.append_nil]

section Query

def far : List UInt8 := ['9'.toUInt8, '9'.toUInt8, '9'.toUInt8]

variable {rows cols : ℕ} (d : Display rows cols)

theorem right_feed (hmode : d.screen.mode = .ground) :
    d.feed (esc :: '['.toUInt8 :: far ++ ['C'.toUInt8]) =
      { d with screen := d.screen.moveTo d.screen.row (d.screen.col + 999) } :=
  display_control d (far) 'C'.toUInt8 hmode (by decide +kernel) (by decide)

theorem down_feed (hmode : d.screen.mode = .ground) :
    d.feed (esc :: '['.toUInt8 :: far ++ ['B'.toUInt8]) =
      { d with screen := d.screen.moveTo (d.screen.row + 999) d.screen.col } :=
  display_control d (far) 'B'.toUInt8 hmode (by decide +kernel) (by decide)

theorem query_feed (hmode : d.screen.mode = .ground) :
    d.feed cursorPos = { d with replies := d.replies ++ report d.screen.row d.screen.col } :=
  display_control d ['6'.toUInt8] 'n'.toUInt8 hmode (by decide +kernel) (by decide)

theorem answered_eq {w : Window} (hasks : Asks w) (hmode : d.screen.mode = .ground)
    (hreplies : d.replies = []) : answered w d = (report (min (d.screen.row + 999) (rows - 1))
      (min (d.screen.col + 999) (cols - 1))).map .byte := by
  have hsplit : cursorBottomright ++ cursorPos = (esc :: '['.toUInt8 :: far ++ ['C'.toUInt8]) ++
      ((esc :: '['.toUInt8 :: far ++ ['B'.toUInt8]) ++ cursorPos) := by decide +kernel
  rw [answered, asks_queries hasks, hsplit, display_append, display_append, right_feed d hmode, down_feed, query_feed]
  · have hrow : min (d.screen.row : ℕ) (rows - 1) = d.screen.row := by
      have hlt := d.screen.row.isLt
      omega
    have hcol : min (min ((d.screen.col : ℕ) + 999) (cols - 1)) (cols - 1) =
        min ((d.screen.col : ℕ) + 999) (cols - 1) := by omega
    simp only [hreplies, List.nil_append, Screen.moveTo, clamp, hrow, hcol]
  · exact hmode
  · exact hmode

end Query

/-! ### Reading the answer -/

def reportHead (r c : ℕ) : List UInt8 :=
  esc :: '['.toUInt8 :: (formatNat (r + 1) ++ ';'.toUInt8 :: formatNat (c + 1))

theorem formatNat_nonempty (n : ℕ) : formatNat n ≠ [] := by
  intro h
  by_cases hn : n < 10
  · rw [formatNat_small hn] at h
    cases h
  · rw [formatNat_large (by omega)] at h
    exact List.append_ne_nil_of_right_ne_nil _ (List.cons_ne_nil _ _) h

theorem reportHead_length {r c : ℕ} (hr : r + 1 < 2 ^ 31) (hc : c + 1 < 2 ^ 31) :
    (reportHead r c).length < 31 := by
  have hrlen : (formatNat (r + 1)).length ≤ 10 := formatNat_length (by omega) (by omega)
  have hclen : (formatNat (c + 1)).length ≤ 10 := formatNat_length (by omega) (by omega)
  simp only [reportHead, List.length_cons, List.length_append]
  omega

theorem reportHead_open (r c : ℕ) : 'R'.toUInt8 ∉ reportHead r c := by
  have hrow := digit_not_closing (formatNat_digits (r + 1))
  have hcol := digit_not_closing (formatNat_digits (c + 1))
  have hmarks : 'R'.toUInt8 ≠ esc ∧ 'R'.toUInt8 ≠ '['.toUInt8 ∧ 'R'.toUInt8 ≠ ';'.toUInt8 := by decide
  simp only [reportHead, List.mem_cons, List.mem_append, hmarks, hrow, hcol, or_self, not_false_eq_true]

theorem report_received {r c : ℕ} (hr : r + 1 < 2 ^ 31) (hc : c + 1 < 2 ^ 31) (rest : List ReadResult) :
    Received ((report r c).map .byte ++ rest) (reportHead r c) true rest := by
  refine ⟨.byte 'R'.toUInt8 :: rest, ?_, reportHead_open r c, .closed (reportHead_length hr hc) rest⟩
  rw [report, List.map_append, List.append_assoc]
  rfl

theorem report_answer {r c : ℕ} (hr : r + 1 < 2 ^ 31) (hc : c + 1 < 2 ^ 31) (rows cols : ℤ) :
    answer (reportHead r c) rows cols = (0, ((r + 1 : ℕ) : ℤ), ((c + 1 : ℕ) : ℤ)) := by
  let m := plainNumeral (formatNat (r + 1)) (formatNat_digits _) (formatNat_nonempty _)
  let n := plainNumeral (formatNat (c + 1)) (formatNat_digits _) (formatNat_nonempty _)
  have hm : m.value = (r + 1 : ℕ) := congrArg Int.ofNat (decimal_formatNat (r + 1))
  have hn : n.value = (c + 1 : ℕ) := congrArg Int.ofNat (decimal_formatNat (c + 1))
  refine answer_zero.2 ⟨m, n, [], ⟨?_, noDigit_nil⟩, ?_, ?_⟩
  · rw [List.append_nil]
    rfl
  · rw [hm, toInt_small (by unfold intMax; omega)]
  · rw [hn, toInt_small (by unfold intMax; omega)]

/-! ### Keys before the answer -/

theorem letter_scan (a : Arrow) (t : List UInt8) : scanInt (a.letter :: t) = none := by
  cases a <;> rfl

theorem typed_answer {press : ℕ × Press} {later rest : List ReadResult} {bytes : List UInt8}
    {whole : Bool} (h : Received (encode press ++ later) bytes whole rest) (rows cols : ℤ) :
    (answer bytes rows cols).1 = -1 := by
  refine (answer_status bytes rows cols).resolve_left (fun hzero => ?_)
  obtain ⟨m, n, tail, ⟨rfl, -⟩, -, -⟩ :=
    answer_zero.1 (Prod.ext hzero (Prod.ext rfl rfl) : answer bytes rows cols = (0, _, _))
  obtain ⟨after, hinput, -, -⟩ := h
  obtain ⟨delay, press⟩ := press
  simp only [List.map_cons, List.cons_append] at hinput
  cases delay with
  | succ delay =>
    rw [encode, List.replicate_succ] at hinput
    cases hinput
  | zero =>
    rw [encode, List.replicate_zero, List.nil_append] at hinput
    cases press with
    | plain c hc =>
      cases hinput
      exact hc rfl
    | escape => cases hinput
    | arrow a =>
      have hscan := scanInt_run m noDigit_nil
      cases hbytes : m.bytes with
      | nil =>
        rw [hbytes] at hscan
        cases hscan
      | cons b t =>
        rw [hbytes] at hscan hinput
        cases hinput
        rw [List.cons_append, letter_scan] at hscan
        cases hscan

section Measure

variable {rows cols : ℕ} {w : Window}

theorem asks_run (h : Asks w) (rows cols : ℤ) (input : List ReadResult) : getWindowSize w rows cols input =
    getCursorPosition cursorPos.length w.junk rows cols input := by
  have hask : askTerminal w rows cols input =
      getCursorPosition cursorPos.length w.junk rows cols input := by
    rw [askTerminal, if_neg (not_not.2 h.moved), h.written]
  rcases h.ioctl with hnone | ⟨wsRow, hsome⟩
  · rw [getWindowSize, hnone, hask]
  · rw [getWindowSize, hsome, hask]
    rfl

/-- The size that is found is that of the display, cut off at 1000 rows and columns from where
the cursor was, if the answer comes at once. A plain key, an arrow or an ESC that is pressed before
it ends the program. -/
theorem window_measured (d : Display rows cols) (hmode : d.screen.mode = .ground)
    (hreplies : d.replies = []) (hbound : rows < 2 ^ 31 ∧ cols < 2 ^ 31) (hasks : Asks w)
    (presses : List (ℕ × Press)) (rest : List ReadResult) :
    initEditor w (presses.flatMap encode ++ (answered w d ++ rest)) =
      if presses = [] then
        .ok (⟨0, 0, min rows (d.screen.row + 1000), min cols (d.screen.col + 1000)⟩, rest)
      else .error (.died "getWindowSize") := by
  have hrow := d.screen.row.isLt
  have hcol := d.screen.col.isLt
  have hanswered := answered_eq d hasks hmode hreplies
  have hrun := asks_run hasks 0 0 (presses.flatMap encode ++ (answered w d ++ rest))
  cases presses with
  | nil =>
    rw [List.flatMap_nil, List.nil_append, hanswered,
      getCursorPosition_received (report_received (by omega) (by omega) rest),
      report_answer (by omega) (by omega)] at hrun
    have hrows : ((min ((d.screen.row : ℕ) + 999) (rows - 1) + 1 : ℕ) : ℤ) =
        min (rows : ℤ) (d.screen.row + 1000) := by omega
    have hcols : ((min ((d.screen.col : ℕ) + 999) (cols - 1) + 1 : ℕ) : ℤ) =
        min (cols : ℤ) (d.screen.col + 1000) := by omega
    rw [if_pos rfl, List.flatMap_nil, List.nil_append, hanswered, initEditor, hrun, hrows, hcols]
    rfl
  | cons press presses =>
    rw [if_neg (List.cons_ne_nil _ _)]
    rcases received_or_waiting ((press :: presses).flatMap encode ++ (answered w d ++ rest)) with
      ⟨bytes, whole, rest', hin⟩ | ⟨bytes, hbytes, -, hR⟩
    · rw [getCursorPosition_received hin] at hrun
      rw [List.flatMap_cons, List.append_assoc] at hin
      have hfailed := typed_answer hin 0 0
      rw [initEditor, hrun, ok_bind]
      simp only [hfailed, if_true]
    · have hclosing : ReadResult.byte 'R'.toUInt8 ∈ bytes.map ReadResult.byte := by
        rw [← hbytes, hanswered, report]
        simp
      obtain ⟨b, hb, heq⟩ := List.mem_map.1 hclosing
      cases heq
      exact absurd hb hR

end Measure

def smallScreen : Display 2 3 := ⟨⟨fun _ _ => blank, 1, 2, false, .ground⟩, true, []⟩

def asking : Window := ⟨none, cursorBottomright.length, cursorPos.length, Vector.replicate 32 0⟩

theorem window_measured_small : initEditor asking ([].flatMap encode ++ (answered asking smallScreen ++ [])) =
    if ([] : List (ℕ × Press)) = [] then .ok (⟨0, 0, min 2 (1 + 1000), min 3 (2 + 1000)⟩, [])
    else .error (.died "getWindowSize") :=
  window_measured smallScreen rfl rfl (by decide) ⟨.inl rfl, rfl, rfl⟩ [] []

end Stage0.KiloWindowSize
