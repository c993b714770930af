import Mathlib
import Stage0.KiloKeys
import Stage0.KiloScreen

set_option autoImplicit false

/-!
# Whole sessions of `kilo/kilo.c`

Each round of the main loop draws the state that the keys so far have led to. A session
that is quit with `Ctrl-Q` ends with status 0 and the attributes it found.
-/
namespace Stage0.KiloSession
open Decimal Script Terminal TerminalDisplay Display KiloInput KiloKeys KiloEditor KiloRows KiloExit KiloScreen

def Ended : Outcome → Prop
  | .terminated _ => True
  | _ => False

/-! ### Every round draws the state it finds -/

section Rounds

variable {sys : System} {fuel : ℕ}

theorem processKeys_next {E E' : Editor} {input rest : List ReadResult}
    (h : editorProcessKyepress E input = .ok (E', rest)) (k : ℕ) :
    processKeys (k + 1) E input = processKeys k E' rest := by
  rw [processKeys, iterated, h]
  rfl

end Rounds

/-! ### The screen during a session -/

theorem editorMoveCursor_size (key : ℤ) (E : Editor) :
    (editorMoveCursor key E).screenrows = E.screenrows ∧
      (editorMoveCursor key E).screencols = E.screencols := by
  unfold editorMoveCursor
  split_ifs <;> exact ⟨rfl, rfl⟩

def arrowThenQuit : System :=
  ⟨some cooked, fun _ => true, window 2 40,
    encode (0, .arrow .down) ++ encode (1, .plain (ctrlKey 'q') (by decide)), fun _ _ _ => true⟩

def moves (E : Editor) (presses : List (ℕ × Press)) : List Editor :=
  presses.scanl (fun E press => editorMoveCursor press.2.key E) E

theorem ctrlKey_ne_escape : ctrlKey 'q' ≠ escSeq := by decide

def quit (delay : ℕ) : ℕ × Press := (delay, .plain (ctrlKey 'q') ctrlKey_ne_escape)

theorem editorMoveCursor_other {key : ℤ} (h : ¬(key = arrowUp ∨ key = arrowDown ∨ key = arrowLeft ∨
    key = arrowRight)) (E : Editor) : editorMoveCursor key E = E := by
  simp only [not_or] at h
  rw [editorMoveCursor, if_neg h.2.2.1, if_neg h.2.2.2, if_neg h.1, if_neg h.2.1]

theorem press_processed {press : ℕ × Press} (h : press.2.key ≠ (ctrlKey 'q').toNat) (E : Editor)
    (rest : List ReadResult) : editorProcessKyepress E (encode press ++ rest) =
      .ok (editorMoveCursor press.2.key E, rest) := by
  rw [editorProcessKyepress, encode_run, ok_bind]
  simp only [if_neg h]
  split
  · rfl
  · rename_i hother
    rw [editorMoveCursor_other hother]
    rfl

theorem quit_processed (delay : ℕ) (E : Editor) (rest : List ReadResult) :
    editorProcessKyepress E (encode (quit delay) ++ rest) = .error (.exited [clearScreen, cursorTopleft] 0) := by
  rw [editorProcessKyepress, encode_run, ok_bind]
  have hkey : (quit delay).2.key = (ctrlKey 'q').toNat := rfl
  simp only [hkey, if_true]

section Quit

variable {sys : System} {fuel : ℕ}

theorem mainLoop_quit (presses : List (ℕ × Press)) (delay : ℕ) (rest : List ReadResult)
    (hquit : ∀ press ∈ presses, press.2.key ≠ (ctrlKey 'q').toNat) {n : ℕ} (hn : presses.length < n)
    (E : Editor) (hfuel : paddingOf E.screencols < fuel) (p : Process) :
    ∃ screens, screens.map some =
        (moves E presses).mapIdx (fun k => editorRefreshScreen sys fuel (p.refreshes + k)) ∧
      mainLoop sys fuel n E (presses.flatMap encode ++ (encode (quit delay) ++ rest)) p =
        .terminated (exit sys 0 { p with
          writes := p.writes ++ (screens ++ [clearScreen, cursorTopleft])
          refreshes := p.refreshes + screens.length }) := by
  induction presses generalizing n E p with
  | nil =>
    obtain ⟨n, rfl⟩ : ∃ k, n = k + 1 := ⟨n - 1, by rw [List.length_nil] at hn; omega⟩
    obtain ⟨screen, hscreen⟩ := editorRefreshScreen_total sys fuel p.refreshes E hfuel
    refine ⟨[screen], ?_, ?_⟩
    · rw [moves, List.scanl_nil, List.map_singleton, List.mapIdx_singleton, Nat.add_zero, hscreen]
    · rw [mainLoop, hscreen, List.flatMap_nil, List.nil_append, quit_processed]
      simp only [stopped, write, refreshed, List.append_assoc, List.length_singleton]
  | cons press presses ih =>
    rw [List.length_cons] at hn
    obtain ⟨n, rfl⟩ : ∃ k, n = k + 1 := ⟨n - 1, by omega⟩
    obtain ⟨screen, hscreen⟩ := editorRefreshScreen_total sys fuel p.refreshes E hfuel
    have hcols := (editorMoveCursor_size press.2.key E).2
    obtain ⟨screens, hscreens, hrun⟩ := @ih (fun q hq => hquit q (List.mem_cons_of_mem _ hq)) n
      (by omega) (editorMoveCursor press.2.key E) (by rw [hcols]; exact hfuel)
      (refreshed screen p)
    refine ⟨screen :: screens, ?_, ?_⟩
    · rw [moves, List.scanl_cons, List.map_cons, List.mapIdx_cons, Nat.add_zero, hscreen, hscreens, moves]
      simp only [refreshed, Nat.add_assoc, Nat.add_comm 1]
    · rw [mainLoop, hscreen, List.flatMap_cons, List.append_assoc,
        press_processed (hquit press List.mem_cons_self)]
      simp only [hrun]
      simp only [refreshed, List.append_assoc, List.nil_append, List.cons_append,
        List.length_cons, Nat.add_assoc, Nat.add_comm 1]

end Quit

/-- A session of key presses that is quit with `Ctrl-Q` draws one screen for each key and one for
the start, clears the last one, and ends with status 0, without an error and with the attributes
it found. -/
theorem main_quit (sys : System) (orig : Termios) (hget : sys.tcgetattr = some orig)
    (hset : ∀ k, sys.tcsetattr k = true) (presses : List (ℕ × Press)) (delay : ℕ)
    (rest : List ReadResult) (E : Editor)
    (hinit : initEditor sys.window sys.input =
      .ok (E, presses.flatMap encode ++ (encode (quit delay) ++ rest)))
    (hquit : ∀ press ∈ presses, press.2.key ≠ (ctrlKey 'q').toNat) (fuel n : ℕ)
    (hfuel : paddingOf E.screencols < fuel) (hn : presses.length < n) :
    ∃ p screens, main sys fuel n = .terminated p ∧ p.status = some 0 ∧ p.errors = [] ∧ p.exits = 1 ∧
      p.changes = [raw orig, orig] ∧
      p.writes = queries sys.window ++ (screens ++ [clearScreen, cursorTopleft]) ∧
      screens.map some = (moves E presses).mapIdx (editorRefreshScreen sys fuel) := by
  obtain ⟨screens, hscreens, hrun⟩ := @mainLoop_quit sys fuel presses delay rest hquit n hn E hfuel
    (write (queries sys.window) ⟨orig, 1, [raw orig], [.disableRawMode], 0, none, [], [], 0⟩)
  have hraw : enableRawMode sys start =
      .inr ⟨orig, 1, [raw orig], [.disableRawMode], 0, none, [], [], 0⟩ := by
    simp [enableRawMode, hget, tcsetattr, start, hset]
  refine ⟨⟨orig, 2, [raw orig, orig], [], 1, some 0, [],
    queries sys.window ++ (screens ++ [clearScreen, cursorTopleft]), screens.length⟩, screens, ?_, rfl, rfl,
    rfl, rfl, rfl, ?_⟩
  · rw [main, hraw]
    simp only [hinit, hrun]
    simp [exit, enterExit, runHandlers, tcsetattr, hset, write]
  · rw [hscreens]
    simp only [write, Nat.zero_add]

theorem main_quit_arrow : ∃ p screens, main arrowThenQuit 40 2 = .terminated p ∧ p.status = some 0 ∧
    p.errors = [] ∧ p.exits = 1 ∧ p.changes = [raw cooked, cooked] ∧
    p.writes = queries arrowThenQuit.window ++ (screens ++ [clearScreen, cursorTopleft]) ∧
    screens.map some =
      (moves ⟨0, 0, 2, 40⟩ [(0, .arrow .down)]).mapIdx (editorRefreshScreen arrowThenQuit 40) :=
  main_quit arrowThenQuit cooked rfl (fun _ => rfl) [(0, .arrow .down)] 1 [] ⟨0, 0, 2, 40⟩ rfl
    (by decide) 40 2 (by decide) (by decide)

/-! ### How a run ends -/

def calls : List String := ["tcgetattr", "tcsetattr", "getWindowSize", "read"]

/-- The status tells whether anything has failed, and every error names its call. -/
structure Judged (p : Process) : Prop where
  status : p.status = some 0 ∧ p.errors = [] ∨ p.status = some 1 ∧ p.errors ≠ []
  named : ∀ s ∈ p.errors, s ∈ calls

section Ends

variable {sys : System}

theorem perror_named {p : Process} (h : ∀ s ∈ p.errors, s ∈ calls) {s : String} (hs : s ∈ calls) :
    ∀ t ∈ (perror s p).errors, t ∈ calls := by
  intro t ht
  rcases List.mem_append.1 ht with ht | ht
  · exact h t ht
  · rw [List.mem_singleton.1 ht]
    exact hs

theorem perror_errors (s : String) (p : Process) : (perror s p).errors ≠ [] :=
  List.append_ne_nil_of_right_ne_nil _ (List.cons_ne_nil s [])

theorem runHandlers_judged (handlers : List Handler) {status : ℤ} {p : Process}
    (hstatus : status = 0 ∧ p.errors = [] ∨ status = 1 ∧ p.errors ≠ [])
    (hnamed : ∀ s ∈ p.errors, s ∈ calls) : Judged (runHandlers sys handlers status p) := by
  induction handlers generalizing status p with
  | nil =>
    refine ⟨?_, hnamed⟩
    rcases hstatus with ⟨rfl, herrors⟩ | ⟨rfl, herrors⟩
    · exact .inl ⟨rfl, herrors⟩
    · exact .inr ⟨rfl, herrors⟩
  | cons handler handlers ih =>
    cases handler
    rw [runHandlers, tcsetattr]
    simp only
    split
    · exact ih hstatus hnamed
    · exact ih (.inr ⟨rfl, perror_errors _ _⟩) (perror_named hnamed (by decide))

theorem die_judged {s : String} (hs : s ∈ calls) {p : Process} (h : ∀ s ∈ p.errors, s ∈ calls) :
    Judged (die sys s p) :=
  runHandlers_judged _ (.inr ⟨rfl, perror_errors s p⟩) (perror_named h hs)

theorem runHandlers_errors (handlers : List Handler) (status : ℤ) (p : Process) :
    p.errors <+: (runHandlers sys handlers status p).errors := by
  induction handlers generalizing status p with
  | nil => exact List.prefix_rfl
  | cons handler handlers ih =>
    cases handler
    rw [runHandlers, tcsetattr]
    cases sys.tcsetattr p.attempts with
    | true => exact ih status { p with
        attempts := p.attempts + 1, changes := p.changes ++ [p.origTermios], handlers }
    | false =>
      refine List.IsPrefix.trans ?_
        (ih 1 (enterExit (perror "tcsetattr" (write [clearScreen, cursorTopleft]
          { p with attempts := p.attempts + 1, handlers }))))
      exact List.prefix_append _ _

theorem die_errors (s : String) (p : Process) : (die sys s p).errors ≠ [] := by
  intro h
  have hprefix : (enterExit (perror s (write [clearScreen, cursorTopleft] p))).errors <+:
      (die sys s p).errors := runHandlers_errors _ _ _
  rw [h] at hprefix
  exact perror_errors s p (List.prefix_nil.1 hprefix)

end Ends

section Main

variable {sys : System} {fuel : ℕ}

/-- The last key that was read is `Ctrl-Q`. -/
def Quits (E : Editor) (keys : List ReadResult) : Prop :=
  ∃ k E' rest rest', processKeys k E keys = .ok (E', rest) ∧
    editorReadKey rest = .ok (((ctrlKey 'q').toNat : ℤ), rest')

theorem mainLoop_ends (n : ℕ) {E : Editor} {input : List ReadResult} {p p' : Process}
    (herrors : p.errors = []) (h : mainLoop sys fuel n E input p = .terminated p') :
    Judged p' ∧ (p'.errors = [] → Quits E input) := by
  induction n generalizing E input p with
  | zero => cases h
  | succ n ih =>
    rw [mainLoop] at h
    cases hdraw : editorRefreshScreen sys fuel p.refreshes E with
    | none =>
      rw [hdraw] at h
      cases h
    | some screen =>
      rw [hdraw] at h
      have hnamed : ∀ s ∈ p.errors, s ∈ calls := by simp [herrors]
      cases hkey : editorProcessKyepress E input with
      | error stop =>
        rw [hkey] at h
        rcases editorProcessKyepress_error hkey with rfl | rfl | ⟨rfl, rest, hread⟩
        · cases h
        · cases h
          exact ⟨die_judged (by decide) hnamed, fun hnone => absurd hnone (die_errors _ _)⟩
        · cases h
          exact ⟨runHandlers_judged _ (.inl ⟨rfl, herrors⟩) hnamed,
            fun _ => ⟨0, E, input, rest, rfl, hread⟩⟩
      | ok next =>
        rw [hkey] at h
        obtain ⟨hjudged, hquits⟩ := ih (p := refreshed screen p) herrors h
        refine ⟨hjudged, fun hnone => ?_⟩
        obtain ⟨k, E', rest, rest', hkeys, hread⟩ := hquits hnone
        exact ⟨k + 1, E', rest, rest', by rw [processKeys_next hkey, hkeys], hread⟩

end Main

/-- A run that ends does so with status 0 and no error, or with status 1 and the calls that have
failed. Without an error, the last key that was read is `Ctrl-Q`. -/
theorem main_ends (sys : System) (fuel n : ℕ) (p : Process) (h : main sys fuel n = .terminated p) :
    Judged p ∧ (p.errors = [] → ∃ E keys, initEditor sys.window sys.input = .ok (E, keys) ∧
      Quits E keys) := by
  have hdied : ∀ {s : String} {q : Process}, s ∈ calls → q.errors = [] → p = die sys s q →
      Judged p ∧ (p.errors = [] → ∃ E keys, initEditor sys.window sys.input = .ok (E, keys) ∧
        Quits E keys) := by
    rintro s q hs herrors rfl
    exact ⟨die_judged hs (by simp [herrors]), fun hnone => absurd hnone (die_errors _ _)⟩
  rw [main, enableRawMode] at h
  cases hget : sys.tcgetattr with
  | none =>
    rw [hget] at h
    cases h
    exact hdied (by decide) rfl rfl
  | some orig =>
    rw [hget] at h
    cases hset : sys.tcsetattr 0 with
    | false =>
      simp only [tcsetattr, start, hset] at h
      cases h
      exact hdied (by decide) rfl rfl
    | true =>
      simp only [tcsetattr, start, hset] at h
      cases hinit : initEditor sys.window sys.input with
      | error stop =>
        rw [hinit] at h
        rcases initEditor_error hinit with rfl | rfl
        · cases h
        · simp only [if_true, stopped] at h
          cases h
          rw [hinit] at hdied
          exact hdied (by decide) rfl rfl
      | ok answer =>
        rw [hinit] at h
        obtain ⟨hjudged, hquits⟩ := mainLoop_ends n rfl h
        exact ⟨hjudged, fun hnone => ⟨_, _, rfl, hquits hnone⟩⟩

theorem main_ends_arrow : ∃ p, main arrowThenQuit 40 2 = .terminated p ∧ Judged p ∧
    (p.errors = [] → ∃ E keys, initEditor arrowThenQuit.window arrowThenQuit.input = .ok (E, keys) ∧
      Quits E keys) :=
  ⟨_, rfl, main_ends arrowThenQuit 40 2 _ rfl⟩

end Stage0.KiloSession
