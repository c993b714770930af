import Mathlib
import Stage0.LifeRender

set_option autoImplicit false

/-!
# What the screen shows while `life/main.c` runs

The screen starts blank and the front buffer as a picture of dead cells, so a cell is
printed for the first time when it comes alive. From then on it is kept up to date.
-/
namespace Stage0.LifeScreen
open CInt Decimal Script Terminal LifeBoard LifeUpdate LifeRender

variable {rows cols : ℕ}

/-! ### The cells of one frame -/

section Cells

variable (t : Screen rows cols) (hrows : boardRows ≤ rows) (hcols : boardCols ≤ cols)
  (hmode : t.mode = .ground) (old new : Cell → Bool)
include hrows hcols hmode

theorem feed_change (d : Cell) : (t.feed (change old new d)).mode = .ground ∧
    ∀ c : Cell, (t.feed (change old new d)).at? c.1 c.2 =
      if c = d ∧ new c ≠ old c then some (mark (new c)) else t.at? c.1 c.2 := by
  unfold change
  by_cases h : new d ≠ old d
  · rw [if_pos h]
    obtain ⟨hground, hat⟩ := feed_drawn t hmode (lt_of_lt_of_le d.1.isLt hrows)
      (lt_of_lt_of_le d.2.isLt hcols) (mark_printable (new d))
    refine ⟨hground, fun c => ?_⟩
    rw [hat]
    by_cases hcd : c = d
    · subst hcd
      rw [if_pos ⟨rfl, rfl⟩, if_pos ⟨rfl, h⟩]
    · rw [if_neg (fun he => hcd (Prod.ext (Fin.ext he.1) (Fin.ext he.2))),
        if_neg (fun he => hcd he.1)]
  · rw [if_neg h]
    refine ⟨hmode, fun c => ?_⟩
    rw [if_neg (fun he : c = d ∧ new c ≠ old c => h (he.1 ▸ he.2))]
    rfl

theorem feed_changes (cells : List Cell) :
    (t.feed (cells.flatMap (change old new))).mode = .ground ∧
      ∀ c : Cell, (t.feed (cells.flatMap (change old new))).at? c.1 c.2 =
        if c ∈ cells ∧ new c ≠ old c then some (mark (new c)) else t.at? c.1 c.2 := by
  induction cells generalizing t with
  | nil =>
    refine ⟨hmode, fun c => ?_⟩
    rw [if_neg (fun h => List.not_mem_nil h.1)]
    rfl
  | cons d cells ih =>
    rw [List.flatMap_cons, feed_append]
    obtain ⟨hground, hat⟩ := feed_change t hrows hcols hmode old new d
    obtain ⟨hground', hat'⟩ := ih (t.feed (change old new d)) hground
    refine ⟨hground', fun c => ?_⟩
    rw [hat', hat]
    by_cases hdiff : new c ≠ old c
    · by_cases hmem : c ∈ cells
      · rw [if_pos ⟨hmem, hdiff⟩, if_pos ⟨List.mem_cons_of_mem d hmem, hdiff⟩]
      · rw [if_neg (fun h => hmem h.1)]
        refine if_congr ?_ rfl rfl
        rw [List.mem_cons, or_iff_left hmem]
    · rw [if_neg (fun h => hdiff h.2), if_neg (fun h => hdiff h.2), if_neg (fun h => hdiff h.2)]

theorem screen_changes : (t.feed (changes old new)).mode = .ground ∧
    ∀ c : Cell, (t.feed (changes old new)).at? c.1 c.2 =
      if new c ≠ old c then some (mark (new c)) else t.at? c.1 c.2 := by
  have hall : ∀ c : Cell, c ∈ (List.finRange size).map index.symm := fun c =>
    List.mem_map.2 ⟨index c, List.mem_finRange _, index.symm_apply_apply c⟩
  have hflat : changes old new =
      ((List.finRange size).map index.symm).flatMap (change old new) :=
    (List.flatMap_map _ _ _).symm
  rw [hflat]
  obtain ⟨hground, hat⟩ := feed_changes t hrows hcols hmode old new _
  refine ⟨hground, fun c => ?_⟩
  rw [hat]
  exact if_congr (and_iff_right (hall c)) rfl rfl

end Cells

/-! ### The status line -/

theorem printable_digit {b : UInt8} (h : isDigit b = true) : printable b = true := by
  revert h
  revert b
  decide +kernel

theorem formatInt_printable (v : ℤ) : ∀ b ∈ formatInt v, printable b = true := by
  intro b hb
  have hnat : b ∈ formatNat v.natAbs → printable b = true := fun h =>
    printable_digit (formatNat_digits _ b h)
  unfold formatInt at hb
  split at hb
  · rcases List.mem_cons.1 hb with rfl | hb
    · decide
    · exact hnat hb
  · exact hnat hb

theorem labelled_number {label : List UInt8} (hlabel : ∀ b ∈ label, printable b = true) {v : ℤ}
    (h : -2 ^ 31 ≤ v ∧ v < 2 ^ 31) : (∀ b ∈ label ++ formatInt v, printable b = true) ∧
      (label ++ formatInt v).length ≤ label.length + 11 := by
  constructor
  · intro b hb
    exact (List.mem_append.1 hb).elim (hlabel b) (formatInt_printable v b)
  · have hlen := formatInt_length h
    rw [List.length_append]
    omega

theorem screen_status (t : Screen rows cols) (hrows : boardRows < rows) (hcols : boardCols ≤ cols)
    (hmode : t.mode = .ground) {generation living : ℤ}
    (hgeneration : -2 ^ 31 ≤ generation ∧ generation < 2 ^ 31)
    (hliving : -2 ^ 31 ≤ living ∧ living < 2 ^ 31) :
    (t.feed (moveBottom ++ status generation living)).mode = .ground ∧
      ∀ c : Cell, (t.feed (moveBottom ++ status generation living)).at? c.1 c.2 =
        t.at? c.1 c.2 := by
  obtain ⟨hfirst, hfirstlen⟩ := labelled_number generationLabel_printable hgeneration
  obtain ⟨hsecond, hsecondlen⟩ := labelled_number livingLabel_printable hliving
  have hlabels : (text "generation: ").length = 12 ∧ (text "living cells: ").length = 14 := by
    decide +kernel
  have hstatus : status generation living = (text "generation: " ++ formatInt generation) ++
      '\t'.toUInt8 :: (text "living cells: " ++ formatInt living) := by
    simp only [status, List.append_assoc, List.cons_append]
  generalize text "generation: " ++ formatInt generation = first at *
  generalize text "living cells: " ++ formatInt living = second at *
  have hcols' : 180 ≤ cols := hcols
  let t₁ := t.moveTo 998 0
  have hcol₁ : ((t₁.col : Fin cols) : ℕ) = 0 := clamp_val t.col (by omega)
  obtain ⟨hmode₂, hwrap₂, hrow₂, hcol₂, hat₂⟩ :=
    feed_text_rows t₁ first hmode rfl hfirst (by omega)
  let t₃ := (t₁.feed first).tab
  have hcol₃ : ((t₃.col : Fin cols) : ℕ) ≤ 24 := by
    have hle : ((t₃.col : Fin cols) : ℕ) ≤ ((t₁.feed first).col / 8 + 1) * 8 := min_le_left _ _
    omega
  obtain ⟨hmode₄, -, -, -, hat₄⟩ :=
    feed_text_rows t₃ second hmode₂ hwrap₂ hsecond (by omega)
  have hfeed : t.feed (moveBottom ++ status generation living) = t₃.feed second := by
    rw [hstatus, feed_append, feed_moveBottom t hmode, feed_append]
    change ((t₁.feed first).feedByte '\t'.toUInt8).feed second = _
    rw [feed_tab _ hmode₂]
  rw [hfeed]
  refine ⟨hmode₄, fun c => ?_⟩
  have hlast : (c.1 : ℕ) ≠ (t₁.row : Fin rows) := by
    have hrow : ((t₁.row : Fin rows) : ℕ) = min 998 (rows - 1) := rfl
    have hc := c.1.isLt
    simp only [boardRows] at hc hrows
    omega
  have hlast₃ : (c.1 : ℕ) ≠ (t₃.row : Fin rows) := fun he => hlast (he.trans (congrArg Fin.val hrow₂))
  rw [hat₄ _ _ hlast₃]
  exact hat₂ _ _ hlast

/-! ### The whole run -/

theorem screen_clear (t : Screen rows cols) (hmode : t.mode = .ground) :
    (t.feed clearScreen).mode = .ground ∧
      ∀ r c : ℕ, r < rows → c < cols → (t.feed clearScreen).at? r c = some blank := by
  have hsplit : clearScreen = (esc :: '['.toUInt8 :: ['2'.toUInt8] ++ ['J'.toUInt8]) ++
      (esc :: '['.toUInt8 :: text "?25" ++ ['l'.toUInt8]) := by decide +kernel
  have hblank : t.feed (esc :: '['.toUInt8 :: ['2'.toUInt8] ++ ['J'.toUInt8]) =
      { t with cells := fun _ _ => blank } :=
    feed_control t ['2'.toUInt8] 'J'.toUInt8 hmode (by decide +kernel) (by decide)
  have hhide : ({ t with cells := fun _ _ => blank } : Screen rows cols).feed
      (esc :: '['.toUInt8 :: text "?25" ++ ['l'.toUInt8]) = { t with cells := fun _ _ => blank } :=
    feed_control _ (text "?25") 'l'.toUInt8 hmode (by decide +kernel) (by decide)
  rw [hsplit, feed_append, hblank, hhide]
  refine ⟨hmode, fun r c hr hc => ?_⟩
  exact dif_pos ⟨hr, hc⟩

/-- Whether a cell has been alive in one of the frames `1` to `k`. -/
def lit (s₀ : Cell → Bool) : ℕ → Cell → Bool
  | 0 => fun _ => false
  | k + 1 => fun c => lit s₀ k c || shown s₀ (k + 1) c

theorem lit_next (s₀ : Cell → Bool) (k : ℕ) (c : Cell) :
    lit s₀ (k + 1) c = (lit s₀ k c || shown s₀ (k + 1) c) := rfl

theorem lit_iff (s₀ : Cell → Bool) (k : ℕ) (c : Cell) :
    lit s₀ k c = true ↔ ∃ j, j ≤ k ∧ shown s₀ j c = true := by
  induction k with
  | zero =>
    constructor
    · intro h
      cases h
    · rintro ⟨j, hj, h⟩
      obtain rfl : j = 0 := by omega
      cases h
  | succ k ih =>
    rw [lit_next, Bool.or_eq_true, ih]
    constructor
    · rintro (⟨j, hj, h⟩ | h)
      · exact ⟨j, by omega, h⟩
      · exact ⟨k + 1, le_refl _, h⟩
    · rintro ⟨j, hj, h⟩
      rcases Nat.lt_or_eq_of_le hj with hlt | rfl
      · exact .inl ⟨j, by omega, h⟩
      · exact .inr h

def visible (s₀ : Cell → Bool) (k : ℕ) (c : Cell) : UInt8 :=
  if lit s₀ k c then mark (shown s₀ k c) else blank

theorem visible_next (s₀ : Cell → Bool) (k : ℕ) (c : Cell) :
    (if shown s₀ (k + 1) c ≠ shown s₀ k c then some (mark (shown s₀ (k + 1) c))
      else some (visible s₀ k c)) = some (visible s₀ (k + 1) c) := by
  have hdark : lit s₀ k c = false → shown s₀ k c = false := by
    intro h
    cases hk : shown s₀ k c with
    | false => rfl
    | true =>
      rw [(lit_iff s₀ k c).2 ⟨k, le_refl _, hk⟩] at h
      cases h
  unfold visible
  rw [lit_next]
  cases hl : lit s₀ k c with
  | true =>
    by_cases h : shown s₀ (k + 1) c = shown s₀ k c
    · rw [if_neg (not_not.2 h), h]
      rfl
    · rw [if_pos h]
      rfl
  | false =>
    rw [hdark hl]
    cases shown s₀ (k + 1) c <;> rfl

section Run

variable {t : Screen rows cols} (hrows : boardRows < rows) (hcols : boardCols ≤ cols)
  (hmode : t.mode = .ground) (s₀ : Cell → Bool)
include hrows hcols

theorem screen_drawn {k : ℕ} (hground : (t.feed (printed s₀ k)).mode = .ground)
    (hat : ∀ c : Cell, (t.feed (printed s₀ k)).at? c.1 c.2 = some (visible s₀ k c)) :
    (t.feed (printed s₀ k ++ changes (shown s₀ k) (shown s₀ (k + 1)))).mode = .ground ∧
      ∀ c : Cell, (t.feed (printed s₀ k ++ changes (shown s₀ k) (shown s₀ (k + 1)))).at? c.1 c.2 =
        some (visible s₀ (k + 1) c) := by
  rw [feed_append]
  obtain ⟨hground', hat'⟩ := screen_changes (t.feed (printed s₀ k)) hrows.le hcols hground
    (shown s₀ k) (shown s₀ (k + 1))
  refine ⟨hground', fun c => ?_⟩
  rw [hat', hat, visible_next]

include hmode

theorem screen_head (k : ℕ) : (t.feed (printed s₀ k)).mode = .ground ∧
    ∀ c : Cell, (t.feed (printed s₀ k)).at? c.1 c.2 = some (visible s₀ k c) := by
  induction k with
  | zero =>
    obtain ⟨hground, hat⟩ := screen_clear t hmode
    exact ⟨hground, fun c => hat _ _ (lt_trans c.1.isLt hrows) (lt_of_lt_of_le c.2.isLt hcols)⟩
  | succ k ih =>
    obtain ⟨hground, hat⟩ := screen_drawn hrows hcols s₀ ih.1 ih.2
    rw [printed, feed_append]
    obtain ⟨hground', hat'⟩ := screen_status _ hrows hcols hground
      (wrap_fits _) (population_bounds (shown s₀ (k + 2)))
    exact ⟨hground', fun c => (hat' c).trans (hat c)⟩

theorem screen_frame (k : ℕ) (c : Cell) :
    (t.feed (printed s₀ k ++ changes (shown s₀ k) (shown s₀ (k + 1)))).at? c.1 c.2 =
      some (visible s₀ (k + 1) c) := by
  obtain ⟨hground, hat⟩ := screen_head hrows hcols hmode s₀ k
  exact (screen_drawn hrows hcols s₀ hground hat).2 c

end Run

/-- The screen shows the back buffer, and that shows the board. -/
def Redrawn (t : Screen rows cols) (s : Render) : Prop :=
  ∀ c : Cell, (t.feed s.out).at? c.1 c.2 = some (s.back.get (index c)) ∧
    s.back.get (index c) = if live s.life.board c then 'X'.toUInt8 else '.'.toUInt8

theorem visible_eq_mark {s₀ : Cell → Bool} {k : ℕ} {c : Cell} :
    visible s₀ k c = mark (shown s₀ k c) ↔ lit s₀ k c = true := by
  unfold visible
  cases lit s₀ k c with
  | true => exact iff_of_true rfl rfl
  | false =>
    refine iff_of_false ?_ Bool.false_ne_true
    cases shown s₀ k c <;> decide

section Frames

variable {t : Screen rows cols} (hrows : 46 ≤ rows) (hcols : 180 ≤ cols) (hmode : t.mode = .ground)
  {board : Board} (hb : Binary board) {ch : UInt8} {reads : List KeyRead} {s u : Render}
  (run : frames reads (start board ch) = .ok s) (draw : drawFrame s = .ok u)
include hb run draw

theorem drawn_run : u.life.board = boardOf (shown (live board) (reads.length + 1)) ∧
    u.back = picture (shown (live board) (reads.length + 1)) ∧
    u.out = printed (live board) reads.length ++
      changes (shown (live board) reads.length) (shown (live board) (reads.length + 1)) := by
  have hstart := head_start (live board) ch
  rw [boardOf_live hb] at hstart
  have hhead := frames_head hstart reads run
  rw [Nat.zero_add] at hhead
  rw [drawFrame_run hhead] at draw
  cases draw
  exact ⟨hhead.board, rfl, rfl⟩

include hrows hcols hmode

/-- In every frame the screen agrees with the buffer exactly where a cell has been lit. -/
theorem frame_agrees_iff (c : Cell) :
    (t.feed u.out).at? c.1 c.2 = some (u.back.get (index c)) ↔
      ∃ j, j ≤ reads.length + 1 ∧ shown (live board) j c = true := by
  obtain ⟨-, hback, hout⟩ := drawn_run hb run draw
  rw [hback, hout, screen_frame hrows hcols hmode, get_picture, Option.some.injEq, visible_eq_mark,
    lit_iff]

end Frames

/-- Every frame of every run shows what a full redraw would show, exactly when all
cells are alive at the start. -/
theorem frames_redrawn_iff (t : Screen rows cols) (hrows : 46 ≤ rows) (hcols : 180 ≤ cols)
    (hmode : t.mode = .ground) (board : Board) (hb : Binary board) (ch : UInt8) :
    (∀ (reads : List KeyRead) (s u : Render), frames reads (start board ch) = .ok s →
      drawFrame s = .ok u → Redrawn t u) ↔ ∀ c, live board c = true := by
  constructor
  · intro h c
    have hstart := head_start (live board) ch
    rw [boardOf_live hb] at hstart
    have hdraw := drawFrame_run hstart
    have hrun : frames [] (start board ch) = .ok (start board ch) := rfl
    have hagrees := (frame_agrees_iff hrows hcols hmode hb hrun hdraw c).1 (h [] _ _ hrun hdraw c).1
    obtain ⟨j, hj, hlive⟩ := hagrees
    match j, hj, hlive with
    | 1, _, hlive => exact hlive
  · intro h reads s u run draw c
    obtain ⟨hboard, hback, -⟩ := drawn_run hb run draw
    refine ⟨(frame_agrees_iff hrows hcols hmode hb run draw c).2 ⟨1, by omega, h c⟩, ?_⟩
    rw [hback, hboard, get_picture, live_boardOf]
    rfl

def terminal : Screen 46 180 := ⟨fun _ _ => blank, 0, 0, false, .ground⟩

theorem frames_redrawn_iff_full :
    (∀ (reads : List KeyRead) (s u : Render),
      frames reads (start (boardOf (fun _ => true)) 0) = .ok s →
        drawFrame s = .ok u → Redrawn terminal u) ↔ ∀ c, live (boardOf (fun _ => true)) c = true :=
  frames_redrawn_iff terminal (by decide) (by decide) rfl _ (binary_boardOf _) 0

/-- The first frame of the program's own pattern leaves its dead corner blank. -/
theorem first_frame_pentomino :
    ¬∀ (board : Board), Binary board → ∀ (reads : List KeyRead) (s u : Render),
      frames reads (start board 0) = .ok s → drawFrame s = .ok u → Redrawn terminal u := by
  intro h
  have hb := binary_boardOf pentomino
  have hdraw := drawFrame_run (head_start pentomino 0)
  let corner : Cell := (⟨0, by decide⟩, ⟨0, by decide⟩)
  have hdead : pentomino corner = false := by decide
  have hrun : frames [] (start (boardOf pentomino) 0) = .ok (start (boardOf pentomino) 0) := rfl
  obtain ⟨j, hj, hlive⟩ := (frame_agrees_iff (by decide) (by decide) rfl hb hrun hdraw corner).1
    (h _ hb [] _ _ hrun hdraw corner).1
  rw [live_boardOf] at hlive
  match j, hj, hlive with
  | 1, _, hlive => exact Bool.false_ne_true (hdead.symm.trans hlive)

end Stage0.LifeScreen
