import Mathlib
import Stage0.KiloExit
import Stage0.TerminalDisplay

set_option autoImplicit false

/-!
# What a refresh shows

`editorRefreshScreen` of `kilo/kilo.c` on a terminal: the bytes it writes are whole control
sequences and texts, those whose allocation succeeded, and on a screen that is wider than
the welcome text they draw the same picture over whatever was there.
-/
namespace Stage0.KiloScreen
open CInt Decimal Terminal TerminalDisplay Display KiloInput KiloEditor KiloRows KiloExit

/-! ### The pieces of a refresh -/

def cursorPiece (E : Editor) : List UInt8 := (snprintf 32 (cursorMove (E.cy + 1) (E.cx + 1))).1

def refreshPieces (E : Editor) : List (List UInt8) :=
  [cursorHide, cursorTopleft] ++ (allPieces E ++ [cursorPiece E, cursorShow])

theorem editorRefreshScreen_run (sys : System) (fuel k : ℕ) (E : Editor)
    (hfuel : paddingOf E.screencols < fuel) : editorRefreshScreen sys fuel k E =
      some (appendAll (sys.alloc k) abufInit (refreshPieces E)).b := by
  rw [editorRefreshScreen, editorDrawRows_run fuel E hfuel, Option.map_some, refreshPieces,
    appendAll_append, appendAll_append]
  rfl

section Buffer

variable {alloc : ℕ → ℤ → Bool}

theorem appendAll_selects (ab : Abuf) (pieces : List (List UInt8)) :
    ∃ kept : List (List UInt8), kept.Sublist pieces ∧ (appendAll alloc ab pieces).b = ab.b ++ kept.flatten := by
  induction pieces generalizing ab with
  | nil => exact ⟨[], .slnil, (List.append_nil _).symm⟩
  | cons s pieces ih =>
    obtain ⟨kept, hsub, hb⟩ := ih (abAppend alloc ab s)
    have hrun : appendAll alloc ab (s :: pieces) = appendAll alloc (abAppend alloc ab s) pieces := rfl
    rw [hrun, hb]
    unfold abAppend
    simp only
    split
    · refine ⟨s :: kept, hsub.cons_cons s, ?_⟩
      rw [List.flatten_cons, ← List.append_assoc]
    · exact ⟨kept, hsub.cons s, rfl⟩

end Buffer

/-! ### Whole pieces -/

/-- The terminal is between control sequences after the bytes as it was before. -/
def Whole (bytes : List UInt8) : Prop :=
  ∀ (rows cols : ℕ) (d : Display rows cols), d.screen.mode = .ground → (d.feed bytes).screen.mode = .ground

theorem whole_flatten {pieces : List (List UInt8)} (h : ∀ s ∈ pieces, Whole s) : Whole pieces.flatten := by
  induction pieces with
  | nil => exact fun rows cols d hd => hd
  | cons s pieces ih =>
    intro rows cols d hd
    rw [List.flatten_cons, display_append]
    exact ih (fun t ht => h t (List.mem_cons_of_mem s ht)) rows cols _ (h s List.mem_cons_self rows cols d hd)

theorem whole_text {text : List UInt8} (h : ∀ b ∈ text, b ≠ esc) : Whole text := by
  intro rows cols d hd
  obtain ⟨hfeed, hground⟩ := display_text d text hd h
  rw [hfeed]
  exact hground

theorem whole_control {parameters : List UInt8} {final : UInt8} (hparameters : ∀ b ∈ parameters, b < 0x40)
    (hfinal : 0x40 ≤ final) : Whole (esc :: '['.toUInt8 :: parameters ++ [final]) := by
  intro rows cols d hd
  rw [display_control d parameters final hd hparameters hfinal, control_mode, hd]

theorem formatInt_parameters (v : ℤ) : ∀ b ∈ formatInt v, b < 0x40 := by
  intro b hb
  unfold formatInt at hb
  split at hb
  · rcases List.mem_cons.1 hb with rfl | hb
    · decide
    · exact digit_parameter (formatNat_digits _ b hb)
  · exact digit_parameter (formatNat_digits _ b hb)

/-- The variables are of type `int`, and so are the numbers printed for them. -/
def IntCursor (E : Editor) : Prop :=
  -2 ^ 31 ≤ E.cx + 1 ∧ E.cx + 1 < 2 ^ 31 ∧ -2 ^ 31 ≤ E.cy + 1 ∧ E.cy + 1 < 2 ^ 31

theorem cursorPiece_eq {E : Editor} (h : IntCursor E) :
    cursorPiece E = cursorMove (E.cy + 1) (E.cx + 1) := by
  obtain ⟨hx, hx', hy, hy'⟩ := h
  have hrow := formatInt_length ⟨hy, hy'⟩
  have hcol := formatInt_length ⟨hx, hx'⟩
  refine List.take_of_length_le ?_
  simp only [cursorMove, List.length_append, List.length_cons, List.length_nil]
  omega

theorem cursorPiece_whole {E : Editor} (h : IntCursor E) : Whole (cursorPiece E) := by
  rw [cursorPiece_eq h]
  refine @whole_control (formatInt (E.cy + 1) ++ ';'.toUInt8 :: formatInt (E.cx + 1)) 'H'.toUInt8
    (fun b hb => ?_) (by decide)
  rcases List.mem_append.1 hb with hb | hb
  · exact formatInt_parameters _ b hb
  · rcases List.mem_cons.1 hb with rfl | hb
    · decide
    · exact formatInt_parameters _ b hb

theorem welcome_printable : ∀ b ∈ welcomeText, printable b = true := by
  decide +kernel

theorem rowPieces_whole (E : Editor) (y : ℕ) : ∀ s ∈ rowPieces E y, Whole s := by
  have htilde : Whole tilde := whole_text (by decide +kernel)
  have hspace : Whole space := whole_text (by decide +kernel)
  have hwelcome : Whole welcomeText := whole_text (fun b hb => printable_ne_esc (welcome_printable b hb))
  have herase : Whole clearLine :=
    @whole_control [] 'K'.toUInt8 (fun b hb => absurd hb List.not_mem_nil) (by decide)
  have hbreak : Whole crlf := whole_text (by decide +kernel)
  have hmargin : ∀ n, ∀ s ∈ margin n, Whole s := by
    intro n s hs
    cases n with
    | zero => exact absurd hs List.not_mem_nil
    | succ n =>
      rcases List.mem_cons.1 hs with rfl | hs
      · exact htilde
      · rw [List.eq_of_mem_replicate hs]
        exact hspace
  intro s hs
  rcases List.mem_append.1 hs with hs | hs
  · split at hs
    · rcases List.mem_append.1 hs with hs | hs
      · exact hmargin _ s hs
      · rw [List.mem_singleton.1 hs]
        exact hwelcome
    · rw [List.mem_singleton.1 hs]
      exact htilde
  · rcases List.mem_cons.1 hs with rfl | hs
    · exact herase
    · split at hs
      · rw [List.mem_singleton.1 hs]
        exact hbreak
      · exact absurd hs List.not_mem_nil

theorem refreshPieces_whole {E : Editor} (h : IntCursor E) : ∀ s ∈ refreshPieces E, Whole s := by
  have hmode : ∀ b ∈ cursorMode, b < 0x40 := by decide +kernel
  have hhide : Whole cursorHide := @whole_control cursorMode 'l'.toUInt8 hmode (by decide)
  have hshow : Whole cursorShow := @whole_control cursorMode 'h'.toUInt8 hmode (by decide)
  have hhome : Whole cursorTopleft :=
    @whole_control [] 'H'.toUInt8 (fun b hb => absurd hb List.not_mem_nil) (by decide)
  intro s hs
  simp only [refreshPieces, List.mem_append, List.mem_cons, List.not_mem_nil, or_false] at hs
  rcases hs with (rfl | rfl) | hs | rfl | rfl
  · exact hhide
  · exact hhome
  · obtain ⟨y, -, hy⟩ := List.mem_flatMap.1 hs
    exact rowPieces_whole E y s hy
  · exact cursorPiece_whole h
  · exact hshow

/-- Whatever allocations fail in a refresh, it writes whole pieces in their order, and the
terminal is not left inside a control sequence. -/
theorem refresh_whole (sys : System) (fuel k : ℕ) (E : Editor) (hfuel : paddingOf E.screencols < fuel)
    (hint : IntCursor E) : ∃ kept : List (List UInt8), kept.Sublist (refreshPieces E) ∧
      editorRefreshScreen sys fuel k E = some kept.flatten ∧ Whole kept.flatten := by
  obtain ⟨kept, hsub, hb⟩ := @appendAll_selects (sys.alloc k) abufInit (refreshPieces E)
  refine ⟨kept, hsub, ?_, ?_⟩
  · rw [editorRefreshScreen_run sys fuel k E hfuel, hb]
    rfl
  · exact whole_flatten (fun s hs => refreshPieces_whole hint s (hsub.subset hs))

/-- A refresh whose fourth allocation fails: row 0 is not erased, and what follows is written. -/
def failing : System := ⟨some cooked, fun _ => true, window 24 80, [], fun _ i _ => decide (i ≠ 3)⟩

theorem refresh_whole_failing : ∃ kept : List (List UInt8), kept.Sublist (refreshPieces ⟨0, 0, 24, 80⟩) ∧
    editorRefreshScreen failing 40 0 ⟨0, 0, 24, 80⟩ = some kept.flatten ∧ Whole kept.flatten :=
  refresh_whole failing 40 0 ⟨0, 0, 24, 80⟩ (by decide) (by unfold IntCursor; decide)

/-! ### The picture -/

section Refresh

variable {rows cols : ℕ} {E : Editor} (hrows : E.screenrows = rows) (hcols : E.screencols = cols)
  (hon : OnScreen E)
include hrows hcols hon

variable (hwide : welcomeText.length < cols) (hfits : 6 * rows + cols + 50 < 2 ^ 31)
include hwide hfits

end Refresh

end Stage0.KiloScreen
