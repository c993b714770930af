import Mathlib
import Stage0.BoundedLoops
import Stage0.WhileLoop
import Stage0.KiloEditor

set_option autoImplicit false

/-!
# The rows that `kilo/kilo.c` draws

All output of a refresh goes through an append buffer. One row carries the welcome
text, in the middle of the screen.
-/
namespace Stage0.KiloRows
open BoundedLoops CInt Decimal WhileLoop KiloInput KiloEditor

def tilde : List UInt8 := text "~"
def space : List UInt8 := text " "
def clearLine : List UInt8 := escSeq :: text "[K"
def crlf : List UInt8 := text "\r\n"
def kiloVersion : String := "0.0.1"
def welcomeText : List UInt8 := text ("Kilo editor -- version " ++ kiloVersion)

/-- `abuf`, how often it was reallocated, and whether that has failed. -/
structure Abuf where
  b : List UInt8
  len : ℤ
  calls : ℕ
  failed : Bool
  deriving DecidableEq, Repr

def abufInit : Abuf := ⟨[], 0, 0, false⟩

/-- `snprintf(buf, n, "%s", s)`: the string in the buffer and the length it should have. -/
def snprintf (n : ℕ) (s : List UInt8) : List UInt8 × ℤ := (s.take (n - 1), s.length)

section Program

-- whether the `n`-th `realloc` of a buffer grants a size
variable (alloc : ℕ → ℤ → Bool)

/-- A length that does not fit an `int` is no size that `realloc` grants. -/
def abAppend (ab : Abuf) (s : List UInt8) : Abuf :=
  let size := ab.len + s.length
  if size ≤ intMax ∧ alloc ab.calls size = true then ⟨ab.b ++ s, size, ab.calls + 1, ab.failed⟩
  else { ab with calls := ab.calls + 1, failed := true }

/-- `while (padding--)` -/
def paddingBody (s : ℤ × Abuf) : (ℤ × Abuf) ⊕ Abuf :=
  if s.1 ≠ 0 then .inl (s.1 - 1, abAppend alloc s.2 space) else .inr s.2

def drawWelcome (fuel : ℕ) (E : Editor) (ab : Abuf) : Option Abuf :=
  let (welcome, welcomelen) := snprintf 80 welcomeText
  let welcomelen := if welcomelen > E.screencols then E.screencols else welcomelen
  let padding := (E.screencols - welcomelen).tdiv 2
  let s := if padding ≠ 0 then (padding - 1, abAppend alloc ab tilde) else (padding, ab)
  (run (paddingBody alloc) fuel s).map (fun ab => abAppend alloc ab welcome)

def endRow (E : Editor) (y : ℤ) (ab : Abuf) : Abuf :=
  let ab := abAppend alloc ab clearLine
  if y < E.screenrows - 1 then abAppend alloc ab crlf else ab

def drawRow (fuel : ℕ) (E : Editor) (y : ℤ) (ab : Abuf) : Option Abuf :=
  (if y = E.screenrows.tdiv 3 then drawWelcome alloc fuel E ab
    else some (abAppend alloc ab tilde)).map (endRow alloc E y)

def editorDrawRows (fuel : ℕ) (E : Editor) (ab : Abuf) : Option Abuf :=
  forUp 0 E.screenrows ab (drawRow alloc fuel E)

def appendAll (ab : Abuf) (pieces : List (List UInt8)) : Abuf := pieces.foldl (abAppend alloc) ab

end Program

/-! ### The append buffer -/

section Buffer

variable {alloc : ℕ → ℤ → Bool}

theorem appendAll_append (ab : Abuf) (ps qs : List (List UInt8)) :
    appendAll alloc ab (ps ++ qs) = appendAll alloc (appendAll alloc ab ps) qs :=
  List.foldl_append

theorem abAppend_bytes {ab : Abuf} {s : List UInt8} (h : (abAppend alloc ab s).failed = false) :
    (abAppend alloc ab s).b = ab.b ++ s ∧ ab.failed = false := by
  unfold abAppend at h ⊢
  simp only at h ⊢
  split at h
  · rename_i hgrant
    rw [if_pos hgrant]
    exact ⟨rfl, h⟩
  · cases h

theorem appendAll_bytes {ab : Abuf} {pieces : List (List UInt8)}
    (h : (appendAll alloc ab pieces).failed = false) :
    (appendAll alloc ab pieces).b = ab.b ++ pieces.flatten ∧ ab.failed = false := by
  induction pieces generalizing ab with
  | nil => exact ⟨(List.append_nil _).symm, h⟩
  | cons s pieces ih =>
    have hlater : (appendAll alloc (abAppend alloc ab s) pieces).failed = false := h
    obtain ⟨hrest, hfirst⟩ := ih hlater
    obtain ⟨hs, hok⟩ := abAppend_bytes hfirst
    refine ⟨?_, hok⟩
    rw [List.flatten_cons, ← List.append_assoc, ← hs]
    exact hrest

end Buffer

/-! ### One row -/

def paddingOf (screencols : ℤ) : ℕ :=
  ((screencols - min (welcomeText.length : ℤ) screencols) / 2).toNat

def margin : ℕ → List (List UInt8)
  | 0 => []
  | n + 1 => tilde :: List.replicate n space

def rowPieces (E : Editor) (y : ℕ) : List (List UInt8) :=
  (if (y : ℤ) = E.screenrows.tdiv 3 then margin (paddingOf E.screencols) ++ [welcomeText]
    else [tilde]) ++ (clearLine :: if (y : ℤ) < E.screenrows - 1 then [crlf] else [])

section Rows

variable {alloc : ℕ → ℤ → Bool}

theorem padding_run (n fuel : ℕ) (hfuel : n < fuel) (ab : Abuf) :
    run (paddingBody alloc) fuel ((n : ℤ), ab) =
      some (appendAll alloc ab (List.replicate n space)) := by
  induction n generalizing fuel ab with
  | zero =>
    obtain ⟨fuel, rfl⟩ : ∃ k, fuel = k + 1 := ⟨fuel - 1, by omega⟩
    have hexit : paddingBody alloc (((0 : ℕ) : ℤ), ab) = .inr ab := rfl
    exact run_exit hexit fuel
  | succ n ih =>
    obtain ⟨fuel, rfl⟩ : ∃ k, fuel = k + 1 := ⟨fuel - 1, by omega⟩
    have hround : paddingBody alloc (((n + 1 : ℕ) : ℤ), ab) =
        .inl ((n : ℤ), abAppend alloc ab space) := by
      rw [paddingBody, if_pos (by simp only; omega)]
      simp
    rw [run_next hround, ih fuel (by omega)]
    rfl

theorem padding_eq (screencols : ℤ) :
    (screencols - (if (welcomeText.length : ℤ) > screencols then screencols
      else (welcomeText.length : ℤ))).tdiv 2 = (paddingOf screencols : ℤ) := by
  unfold paddingOf
  have hlen : (welcomeText.length : ℤ) = 28 := rfl
  rw [hlen]
  split
  · rw [min_eq_right (by omega), sub_self]
    rfl
  · rw [min_eq_left (by omega), Int.tdiv_eq_ediv_of_nonneg (by omega)]
    omega

theorem drawWelcome_run (fuel : ℕ) (E : Editor) (hfuel : paddingOf E.screencols < fuel)
    (ab : Abuf) : drawWelcome alloc fuel E ab =
      some (appendAll alloc ab (margin (paddingOf E.screencols) ++ [welcomeText])) := by
  have htake : snprintf 80 welcomeText = (welcomeText, (welcomeText.length : ℤ)) := rfl
  unfold drawWelcome
  rw [htake]
  simp only [padding_eq]
  rw [appendAll_append]
  cases hp : paddingOf E.screencols with
  | zero =>
    rw [if_neg (by simp)]
    rw [padding_run 0 fuel (by omega)]
    rfl
  | succ n =>
    rw [if_pos (by omega)]
    have hn : ((n + 1 : ℕ) : ℤ) - 1 = (n : ℤ) := by omega
    rw [hn, padding_run n fuel (by omega)]
    rfl

theorem endRow_run (E : Editor) (y : ℕ) (ab : Abuf) : endRow alloc E y ab =
    appendAll alloc ab (clearLine :: if (y : ℤ) < E.screenrows - 1 then [crlf] else []) := by
  unfold endRow
  by_cases h : (y : ℤ) < E.screenrows - 1
  · simp only [if_pos h]
    rfl
  · simp only [if_neg h]
    rfl

theorem drawRow_run (fuel : ℕ) (E : Editor) (hfuel : paddingOf E.screencols < fuel) (y : ℕ)
    (ab : Abuf) : drawRow alloc fuel E y ab = some (appendAll alloc ab (rowPieces E y)) := by
  rw [drawRow, rowPieces, appendAll_append, ← endRow_run]
  by_cases hy : (y : ℤ) = E.screenrows.tdiv 3
  · rw [if_pos hy, if_pos hy, drawWelcome_run fuel E hfuel]
    rfl
  · rw [if_neg hy, if_neg hy]
    rfl

def allPieces (E : Editor) : List (List UInt8) :=
  (List.range E.screenrows.toNat).flatMap (rowPieces E)

theorem editorDrawRows_run (fuel : ℕ) (E : Editor) (hfuel : paddingOf E.screencols < fuel)
    (ab : Abuf) : editorDrawRows alloc fuel E ab = some (appendAll alloc ab (allPieces E)) := by
  by_cases hrows : 0 ≤ E.screenrows
  · obtain ⟨u, hu, hend⟩ := forUp_inv 0 E.screenrows ab (drawRow alloc fuel E)
      (fun y u => u = appendAll alloc ab ((List.range y.toNat).flatMap (rowPieces E))) hrows rfl (by
        intro y u hlo hhi hI
        obtain ⟨n, rfl⟩ : ∃ n : ℕ, y = n := ⟨y.toNat, by omega⟩
        refine ⟨_, drawRow_run fuel E hfuel n u, ?_⟩
        have hnext : ((n : ℤ) + 1).toNat = n + 1 := by omega
        rw [hI, hnext, List.range_succ, List.flatMap_append, appendAll_append, Int.toNat_natCast,
          List.flatMap_singleton])
    rw [editorDrawRows, hu, hend, allPieces]
  · have hzero : E.screenrows.toNat = 0 := by omega
    have hrounds : (E.screenrows - 0).toNat = 0 := by omega
    rw [editorDrawRows, forUp, hrounds, allPieces, hzero]
    rfl

end Rows

/-! ### Separated rows -/

section Separated

variable {β : Type*} (sep : List β)

theorem intercalate_range (f : ℕ → List β) (n : ℕ) :
    sep.intercalate ((List.range (n + 1)).map f) =
      (List.range n).flatMap (fun y => f y ++ sep) ++ f n := by
  induction n generalizing f with
  | zero => exact List.intercalate_singleton
  | succ n ih =>
    have hfront : (List.range (n + 2)).map f = f 0 :: (List.range (n + 1)).map (fun y => f (y + 1)) := by
      rw [List.range_succ_eq_map, List.map_cons, List.map_map]
      rfl
    have hloop : (List.range (n + 1)).flatMap (fun y => f y ++ sep) =
        f 0 ++ sep ++ (List.range n).flatMap (fun y => f (y + 1) ++ sep) := by
      rw [List.range_succ_eq_map, List.flatMap_cons, List.flatMap_map]
    rw [hfront, List.intercalate_cons_of_ne_nil (by simp), ih, hloop,
      List.append_assoc (f 0 ++ sep)]

theorem flatMap_separated (f : ℕ → List β) (n : ℕ) :
    (List.range n).flatMap (fun y => f y ++ if y + 1 < n then sep else []) =
      sep.intercalate ((List.range n).map f) := by
  cases n with
  | zero => rfl
  | succ n =>
    rw [intercalate_range, List.range_succ, List.flatMap_append, List.flatMap_singleton,
      if_neg (lt_irrefl _), List.append_nil]
    congr 1
    refine List.flatMap_congr fun y hy => ?_
    rw [if_pos (Nat.succ_lt_succ (List.mem_range.1 hy))]

theorem intercalate_ne {f g : ℕ → List β} {n : ℕ} (hle : ∀ y < n, (f y).length ≤ (g y).length)
    {y : ℕ} (hy : y < n) (hlt : (f y).length < (g y).length) :
    sep.intercalate ((List.range n).map f) ≠ sep.intercalate ((List.range n).map g) := by
  intro h
  rw [← flatMap_separated, ← flatMap_separated] at h
  have hlen := congrArg List.length h
  rw [List.length_flatMap, List.length_flatMap] at hlen
  refine absurd hlen (ne_of_lt (List.sum_lt_sum _ _ ?_ ⟨y, List.mem_range.2 hy, ?_⟩))
  · intro i hi
    rw [List.length_append, List.length_append]
    exact Nat.add_le_add_right (hle i (List.mem_range.1 hi)) _
  · rw [List.length_append, List.length_append]
    exact Nat.add_lt_add_right hlt _

end Separated

/-! ### What the screen should be sent -/

/-- The welcome text, cut to the screen, in the middle of its row. -/
def centred (screencols : ℕ) : List UInt8 :=
  let shown := welcomeText.take (min welcomeText.length screencols)
  (margin ((screencols - shown.length) / 2)).flatten ++ shown

def promisedText (screenrows screencols y : ℕ) : List UInt8 :=
  if y = screenrows / 3 then centred screencols else tilde

/-- Rows that end in an erased line, separated by line breaks and no wider than the screen. -/
def Promised (screenrows screencols : ℕ) (bytes : List UInt8) : Prop :=
  bytes = crlf.intercalate ((List.range screenrows).map (fun y =>
    promisedText screenrows screencols y ++ clearLine)) ∧
  ∀ y < screenrows, (promisedText screenrows screencols y).length ≤ screencols

def drawnText (screenrows screencols y : ℕ) : List UInt8 :=
  if y = screenrows / 3 then (margin (paddingOf screencols)).flatten ++ welcomeText else tilde

theorem allPieces_flatten {E : Editor} {screenrows screencols : ℕ} (hrows : E.screenrows = screenrows)
    (hcols : E.screencols = screencols) : (allPieces E).flatten =
      crlf.intercalate ((List.range screenrows).map (fun y =>
        drawnText screenrows screencols y ++ clearLine)) := by
  rw [allPieces, hrows, Int.toNat_natCast, ← flatMap_separated, ← List.flatMap_id, List.flatMap_assoc]
  simp only [List.flatMap_id]
  refine List.flatMap_congr fun y hy => ?_
  have hmid : ((y : ℤ) = E.screenrows.tdiv 3) ↔ y = screenrows / 3 := by
    have hdiv : ((screenrows : ℕ) : ℤ).tdiv 3 = ((screenrows / 3 : ℕ) : ℤ) := rfl
    rw [hrows, hdiv, Int.natCast_inj]
  have hlast : ((y : ℤ) < E.screenrows - 1) ↔ y + 1 < screenrows := by
    rw [hrows]
    omega
  rw [rowPieces, List.flatten_append, List.flatten_cons, ← List.append_assoc, drawnText, hcols]
  congr 1
  · congr 1
    rw [if_congr hmid rfl rfl]
    split
    · rw [List.flatten_append, List.flatten_singleton]
    · exact List.flatten_singleton
  · rw [if_congr hlast rfl rfl]
    split
    · exact List.flatten_singleton
    · rfl

theorem margin_length (n : ℕ) : (margin n).flatten.length = n := by
  cases n with
  | zero => rfl
  | succ n =>
    have hspaces : (List.replicate n space).flatten.length = n := by
      rw [List.length_flatten, List.map_replicate, List.sum_replicate]
      change n * 1 = n
      omega
    rw [margin, List.flatten_cons, List.length_append, hspaces]
    change 1 + n = n + 1
    omega

theorem paddingOf_nat (screencols : ℕ) : paddingOf screencols =
    (screencols - min welcomeText.length screencols) / 2 := by
  unfold paddingOf
  generalize welcomeText.length = L
  omega

theorem shown_length (screencols : ℕ) :
    (welcomeText.take (min welcomeText.length screencols)).length =
      min welcomeText.length screencols := by
  rw [List.length_take]
  omega

theorem centred_length (screencols : ℕ) : (centred screencols).length ≤ screencols := by
  simp only [centred, List.length_append, margin_length, shown_length]
  omega

theorem drawn_eq {screencols : ℕ} (h : welcomeText.length ≤ screencols) (screenrows y : ℕ) :
    drawnText screenrows screencols y = promisedText screenrows screencols y := by
  have hmin : min welcomeText.length screencols = welcomeText.length := min_eq_left h
  have hcentred : centred screencols =
      (margin (paddingOf screencols)).flatten ++ welcomeText := by
    simp only [centred, paddingOf_nat, hmin, List.take_length]
  rw [drawnText, promisedText, hcentred]

theorem drawn_length (screenrows screencols y : ℕ) :
    (promisedText screenrows screencols y).length ≤ (drawnText screenrows screencols y).length := by
  unfold promisedText drawnText
  split
  · simp only [centred, List.length_append, margin_length, paddingOf_nat, shown_length]
    omega
  · exact le_refl _

theorem promised_iff {screenrows screencols : ℕ} (hrows : 1 ≤ screenrows) (hcols : 1 ≤ screencols) :
    Promised screenrows screencols (crlf.intercalate ((List.range screenrows).map (fun y =>
      drawnText screenrows screencols y ++ clearLine))) ↔ welcomeText.length ≤ screencols := by
  constructor
  · rintro ⟨heq, -⟩
    by_contra hnarrow
    have hmiddle : screenrows / 3 < screenrows := Nat.div_lt_self (by omega) (by omega)
    have hwide : (promisedText screenrows screencols (screenrows / 3)).length <
        (drawnText screenrows screencols (screenrows / 3)).length := by
      have hle := centred_length screencols
      rw [promisedText, if_pos rfl, drawnText, if_pos rfl, List.length_append]
      omega
    refine intercalate_ne crlf (fun y _ => ?_) hmiddle ?_ heq.symm
    · rw [List.length_append, List.length_append]
      exact Nat.add_le_add_right (drawn_length screenrows screencols y) _
    · rw [List.length_append, List.length_append]
      exact Nat.add_lt_add_right hwide _
  · intro h
    refine ⟨?_, fun y _ => ?_⟩
    · simp only [drawn_eq h]
    · unfold promisedText
      split
      · exact centred_length screencols
      · exact hcols

/-- The rows are drawn as promised, when every allocation succeeds, exactly on screens that are
as wide as the welcome text. The padding stops on every screen. -/
theorem editorDrawRows_promised_iff (alloc : ℕ → ℤ → Bool) (E : Editor) (ab : Abuf) :
    ∃ fuel, ∀ more ≥ fuel, ∃ u, editorDrawRows alloc more E ab = some u ∧
      (1 ≤ E.screenrows → 1 ≤ E.screencols → u.failed = false → ∃ bytes, u.b = ab.b ++ bytes ∧
        (Promised E.screenrows.toNat E.screencols.toNat bytes ↔
          (welcomeText.length : ℤ) ≤ E.screencols)) := by
  refine ⟨paddingOf E.screencols + 1, fun more hmore => ?_⟩
  refine ⟨_, editorDrawRows_run more E (by omega) ab, fun hrows hcols hok => ?_⟩
  refine ⟨_, (appendAll_bytes hok).1, ?_⟩
  have hrows' : E.screenrows = (E.screenrows.toNat : ℤ) := by omega
  have hcols' : E.screencols = (E.screencols.toNat : ℤ) := by omega
  rw [allPieces_flatten hrows' hcols', promised_iff (by omega) (by omega)]
  omega

/-- On a screen of ten columns the welcome row carries the whole text. -/
theorem editorDrawRows_narrow : ¬∀ (alloc : ℕ → ℤ → Bool) (fuel : ℕ) (E : Editor) (u : Abuf),
    1 ≤ E.screenrows → 1 ≤ E.screencols →
    editorDrawRows alloc fuel E abufInit = some u → u.failed = false →
    Promised E.screenrows.toNat E.screencols.toNat u.b := by
  intro h
  have hrun : editorDrawRows (fun _ _ => true) 1 ⟨0, 0, 1, 10⟩ abufInit =
      some ⟨welcomeText ++ clearLine, 31, 2, false⟩ := by decide +kernel
  have hpromised := h (fun _ _ => true) 1 ⟨0, 0, 1, 10⟩ _ (by decide) (by decide) hrun rfl
  have hlen := congrArg List.length hpromised.1
  revert hlen
  decide +kernel

end Stage0.KiloRows
