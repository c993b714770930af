import Mathlib
import Stage0.Terminal

set_option autoImplicit false

/-!
# The bottom row of a terminal

Text printed on the bottom row either stays on it, and then leaves alone what it does
not touch, or it wraps; then the screen scrolls and nothing is left of the row.
-/
namespace Stage0.TerminalLine
open Terminal Screen

variable {rows cols : ℕ}

def lastRow (s : Screen rows cols) : Fin rows := ⟨rows - 1, by have := s.row.isLt; omega⟩

def bottom (s : Screen rows cols) (c : Fin cols) : UInt8 := s.cells (lastRow s) c

/-- Two screens that may differ in their cells only. -/
structure Twin (s s' : Screen rows cols) : Prop where
  row : s.row = s'.row
  col : s.col = s'.col
  wrap : s.wrap = s'.wrap
  mode : s.mode = s'.mode

/-! ### The operations on the bottom row -/

theorem bottom_lineFeed (s : Screen rows cols) :
    bottom s.lineFeed = if (s.row : ℕ) + 1 < rows then bottom s else fun _ => blank := by
  unfold lineFeed
  split
  · rfl
  · funext c
    have hlast : ¬(rows - 1 + 1 < rows) := by omega
    exact dif_neg hlast

theorem bottom_place (s : Screen rows cols) (b : UInt8) : bottom (s.place b) =
    fun c => if lastRow s = s.row ∧ c = s.col then b else bottom s c := rfl

@[simp] theorem moveTo_mode (s : Screen rows cols) (r c : ℕ) : (s.moveTo r c).mode = s.mode := rfl

@[simp] theorem bottom_moveTo (s : Screen rows cols) (r c : ℕ) : bottom (s.moveTo r c) = bottom s :=
  rfl

def returned (s : Screen rows cols) : Screen rows cols :=
  { s with col := clamp s.col 0, wrap := false }

theorem put_wrapped {s : Screen rows cols} (h : s.wrap = true) (b : UInt8) :
    s.put b = (returned s).lineFeed.place b := if_pos h

theorem put_plain {s : Screen rows cols} (h : s.wrap = false) (b : UInt8) : s.put b = s.place b :=
  if_neg (fun he => Bool.false_ne_true (h.symm.trans he))

/-! ### Twins stay twins -/

section Twins

variable {s s' : Screen rows cols}

theorem twin_lineFeed (h : Twin s s') : Twin s.lineFeed s'.lineFeed := by
  obtain ⟨cells, row, col, wrap, mode⟩ := s
  obtain ⟨cells', row', col', wrap', mode'⟩ := s'
  obtain ⟨rfl, rfl, rfl, rfl⟩ := h
  by_cases hrow : (row : ℕ) + 1 < rows
  · simp only [lineFeed, if_pos hrow]
    exact ⟨rfl, rfl, rfl, rfl⟩
  · simp only [lineFeed, if_neg hrow]
    exact ⟨rfl, rfl, rfl, rfl⟩

theorem twin_place (h : Twin s s') (b : UInt8) : Twin (s.place b) (s'.place b) where
  row := h.row
  col := by
    change clamp s.col (s.col + 1) = clamp s'.col (s'.col + 1)
    rw [h.col]
  wrap := by
    change decide ((s.col : ℕ) + 1 = cols) = decide ((s'.col : ℕ) + 1 = cols)
    rw [h.col]
  mode := h.mode

theorem twin_returned (h : Twin s s') : Twin (returned s) (returned s') :=
  ⟨h.row, rfl, rfl, h.mode⟩

theorem twin_put (h : Twin s s') (b : UInt8) : Twin (s.put b) (s'.put b) := by
  cases hw : s.wrap with
  | false =>
    rw [put_plain hw, put_plain (h.wrap ▸ hw)]
    exact twin_place h b
  | true =>
    rw [put_wrapped hw, put_wrapped (h.wrap ▸ hw)]
    exact twin_place (twin_lineFeed (twin_returned h)) b

theorem twin_tab (h : Twin s s') : Twin s.tab s'.tab where
  row := h.row
  col := by
    change clamp s.col (((s.col : ℕ) / 8 + 1) * 8) = clamp s'.col (((s'.col : ℕ) / 8 + 1) * 8)
    rw [h.col]
  wrap := h.wrap
  mode := h.mode

theorem bottom_wrapped (h : Twin s s') (hrow : s.row = lastRow s) (hw : s.wrap = true) (b : UInt8) :
    bottom (s.put b) = bottom (s'.put b) := by
  have hfeed : ∀ u : Screen rows cols, u.row = s.row →
      bottom (returned u).lineFeed = fun _ => blank := by
    intro u hu
    have hlast : ((u.row : Fin rows) : ℕ) = rows - 1 := congrArg Fin.val (hu.trans hrow)
    rw [bottom_lineFeed]
    exact if_neg (by change ¬((u.row : ℕ) + 1 < rows); omega)
  have htwin := twin_lineFeed (twin_returned h)
  rw [put_wrapped hw, put_wrapped (h.wrap ▸ hw), bottom_place, bottom_place, hfeed s rfl,
    hfeed s' h.row.symm, htwin.row, htwin.col]
  rfl

theorem bottom_put (h : Twin s s') (hb : bottom s = bottom s') (b : UInt8) :
    bottom (s.put b) = bottom (s'.put b) := by
  have hplace : ∀ u u' : Screen rows cols, Twin u u' → bottom u = bottom u' →
      bottom (u.place b) = bottom (u'.place b) := by
    intro u u' htwin hbottom
    rw [bottom_place, bottom_place, htwin.row, htwin.col, hbottom]
    rfl
  cases hw : s.wrap with
  | false =>
    rw [put_plain hw, put_plain (h.wrap ▸ hw)]
    exact hplace s s' h hb
  | true =>
    rw [put_wrapped hw, put_wrapped (h.wrap ▸ hw)]
    refine hplace _ _ (twin_lineFeed (twin_returned h)) ?_
    rw [bottom_lineFeed, bottom_lineFeed]
    change (if (s.row : ℕ) + 1 < rows then bottom s else _) =
      if (s'.row : ℕ) + 1 < rows then bottom s' else _
    rw [h.row, hb]

end Twins

/-! ### Lines of text -/

def Inline (text : List UInt8) : Prop := ∀ b ∈ text, printable b = true ∨ b = '\t'.toUInt8

theorem feedByte_printable {s : Screen rows cols} (hmode : s.mode = .ground) {b : UInt8}
    (hb : printable b = true) : s.feedByte b = s.put b := by
  rw [feedByte, hmode]
  exact if_pos hb

theorem inline_mode {s : Screen rows cols} (hmode : s.mode = .ground) {text : List UInt8}
    (htext : Inline text) : (s.feed text).mode = .ground := by
  induction text generalizing s with
  | nil => exact hmode
  | cons b text ih =>
    refine ih (s := s.feedByte b) ?_ (fun c hc => htext c (List.mem_cons_of_mem b hc))
    rcases htext b List.mem_cons_self with hb | rfl
    · rw [feedByte_printable hmode hb, put_mode]
      exact hmode
    · rw [feed_tab s hmode]
      exact hmode

section Lines

variable {s s' : Screen rows cols}

theorem twin_inline (h : Twin s s') (hmode : s.mode = .ground) {text : List UInt8}
    (htext : Inline text) : Twin (s.feed text) (s'.feed text) := by
  induction text generalizing s s' with
  | nil => exact h
  | cons b text ih =>
    have hrest : Inline text := fun c hc => htext c (List.mem_cons_of_mem b hc)
    rcases htext b List.mem_cons_self with hb | rfl
    · change Twin ((s.feedByte b).feed text) ((s'.feedByte b).feed text)
      rw [feedByte_printable hmode hb, feedByte_printable (h.mode ▸ hmode) hb]
      exact ih (twin_put h b) ((put_mode s b).trans hmode) hrest
    · change Twin ((s.feedByte _).feed text) ((s'.feedByte _).feed text)
      rw [feed_tab s hmode, feed_tab s' (h.mode ▸ hmode)]
      exact ih (twin_tab h) hmode hrest

/-- What is printed below the same row does not depend on the other rows. -/
theorem bottom_inline (h : Twin s s') (hb : bottom s = bottom s') (hmode : s.mode = .ground)
    {text : List UInt8} (htext : Inline text) : bottom (s.feed text) = bottom (s'.feed text) := by
  induction text generalizing s s' with
  | nil => exact hb
  | cons b text ih =>
    have hrest : Inline text := fun c hc => htext c (List.mem_cons_of_mem b hc)
    rcases htext b List.mem_cons_self with hp | rfl
    · change bottom ((s.feedByte b).feed text) = bottom ((s'.feedByte b).feed text)
      rw [feedByte_printable hmode hp, feedByte_printable (h.mode ▸ hmode) hp]
      exact ih (twin_put h b) (bottom_put h hb b) ((put_mode s b).trans hmode) hrest
    · change bottom ((s.feedByte _).feed text) = bottom ((s'.feedByte _).feed text)
      rw [feed_tab s hmode, feed_tab s' (h.mode ▸ hmode)]
      exact ih (twin_tab h) hb hmode hrest

theorem bottom_overflow (h : Twin s s') (hrow : s.row = lastRow s) (hmode : s.mode = .ground)
    {text : List UInt8} (htext : ∀ b ∈ text, printable b = true)
    (hover : (s.wrap = true ∧ text ≠ []) ∨ (s.wrap = false ∧ cols < s.col + text.length)) :
    bottom (s.feed text) = bottom (s'.feed text) := by
  induction text generalizing s s' with
  | nil =>
    rcases hover with ⟨-, hne⟩ | ⟨-, hlt⟩
    · exact absurd rfl hne
    · have hcol := s.col.isLt
      rw [List.length_nil] at hlt
      omega
  | cons b text ih =>
    have hb := htext b List.mem_cons_self
    have hrest : ∀ c ∈ text, printable c = true := fun c hc => htext c (List.mem_cons_of_mem b hc)
    change bottom ((s.feedByte b).feed text) = bottom ((s'.feedByte b).feed text)
    rw [feedByte_printable hmode hb, feedByte_printable (h.mode ▸ hmode) hb]
    have hmode' : (s.put b).mode = .ground := (put_mode s b).trans hmode
    rcases hover with ⟨hw, -⟩ | ⟨hw, hlt⟩
    · exact bottom_inline (twin_put h b) (bottom_wrapped h hrow hw b) hmode'
        (fun c hc => .inl (hrest c hc))
    · refine ih (twin_put h b) ?_ hmode' hrest ?_
      · rw [put_plain hw]
        exact hrow
      · rw [put_plain hw]
        rw [List.length_cons] at hlt
        have hcol := s.col.isLt
        by_cases hfull : (s.col : ℕ) + 1 = cols
        · refine .inl ⟨decide_eq_true hfull, ?_⟩
          rintro rfl
          rw [List.length_nil] at hlt
          omega
        · have hnext : (((s.place b).col : Fin cols) : ℕ) = s.col + 1 := clamp_val s.col (by omega)
          exact .inr ⟨decide_eq_false hfull, by omega⟩

end Lines

/-! ### Text that stays on the row -/

section Room

variable {s : Screen rows cols} {text : List UInt8}

theorem feed_concat (hmode : s.mode = .ground) (hwrap : s.wrap = false) {b : UInt8}
    (htext : ∀ c ∈ text ++ [b], printable c = true) (hroom : s.col + text.length < cols) :
    s.feed (text ++ [b]) =
      ({ s with cells := overwrite s.cells s.row s.col text,
                col := clamp s.col (s.col + text.length) } : Screen rows cols).place b := by
  have hinit : ∀ c ∈ text, printable c = true := fun c hc => htext c (List.mem_append_left _ hc)
  have hlast : printable b = true := htext b (List.mem_append_right _ (List.mem_singleton_self b))
  rw [feed_append, feed_text s text hmode hwrap hinit hroom]
  exact feed_put _ hmode hwrap hlast

theorem bottom_text (hrow : s.row = lastRow s) (hmode : s.mode = .ground) (hwrap : s.wrap = false)
    (htext : ∀ b ∈ text, printable b = true) (hroom : s.col + text.length ≤ cols) (c : Fin cols) :
    bottom (s.feed text) c =
      if (s.col : ℕ) ≤ c then (text[(c : ℕ) - s.col]?).getD (bottom s c) else bottom s c := by
  rcases List.eq_nil_or_concat' text with rfl | ⟨init, b, rfl⟩
  · rw [List.getElem?_nil, Option.getD_none, ite_self]
    rfl
  · rw [List.length_append, List.length_singleton] at hroom
    rw [feed_concat hmode hwrap htext (by omega), bottom_place]
    have hcol : ((clamp s.col (s.col + init.length) : Fin cols) : ℕ) = s.col + init.length :=
      clamp_val s.col (by omega)
    have hcells : overwrite s.cells s.row s.col init (lastRow s) c =
        if (s.col : ℕ) ≤ c then (init[(c : ℕ) - s.col]?).getD (bottom s c) else bottom s c :=
      if_congr (and_iff_right hrow.symm) rfl rfl
    change (if lastRow s = s.row ∧ c = clamp s.col (s.col + init.length) then b
      else overwrite s.cells s.row s.col init (lastRow s) c) = _
    rw [hcells]
    by_cases hc : c = clamp s.col (s.col + init.length)
    · have hval : (c : ℕ) - s.col = init.length := by rw [hc, hcol]; omega
      rw [if_pos ⟨hrow.symm, hc⟩, if_pos (by rw [hc, hcol]; omega), hval,
        List.getElem?_concat_length]
      rfl
    · have hne : (c : ℕ) ≠ s.col + init.length := fun he => hc (Fin.ext (he.trans hcol.symm))
      rw [if_neg (fun he => hc he.2)]
      by_cases hle : (s.col : ℕ) ≤ c
      · rw [if_pos hle, if_pos hle, List.getElem?_append]
        split
        · rfl
        · rw [List.getElem?_eq_none (l := init) (by omega),
            List.getElem?_eq_none (l := [b]) (by rw [List.length_singleton]; omega)]
      · rw [if_neg hle, if_neg hle]

theorem bottom_elsewhere (hrow : s.row ≠ lastRow s) (hmode : s.mode = .ground)
    (hwrap : s.wrap = false) (htext : ∀ b ∈ text, printable b = true)
    (hroom : s.col + text.length ≤ cols) : bottom (s.feed text) = bottom s := by
  rcases List.eq_nil_or_concat' text with rfl | ⟨init, b, rfl⟩
  · rfl
  · rw [List.length_append, List.length_singleton] at hroom
    rw [feed_concat hmode hwrap htext (by omega), bottom_place]
    funext c
    rw [if_neg (fun h => hrow h.1.symm)]
    exact if_neg (fun h => hrow h.1.symm)

theorem full_text (hmode : s.mode = .ground) (hwrap : s.wrap = false)
    (htext : ∀ b ∈ text, printable b = true) (hfull : s.col + text.length = cols) :
    (s.feed text).wrap = true ∧ (s.feed text).row = s.row := by
  have hcol := s.col.isLt
  rcases List.eq_nil_or_concat' text with rfl | ⟨init, b, rfl⟩
  · rw [List.length_nil] at hfull
    omega
  · rw [List.length_append, List.length_singleton] at hfull
    rw [feed_concat hmode hwrap htext (by omega)]
    refine ⟨decide_eq_true ?_, rfl⟩
    change ((clamp s.col (s.col + init.length) : Fin cols) : ℕ) + 1 = cols
    rw [clamp_val s.col (by omega)]
    omega

theorem bottom_wrapped_text (hrow : s.row = lastRow s) (hmode : s.mode = .ground)
    (hwrap : s.wrap = true) (htext : ∀ b ∈ text, printable b = true) (hne : text ≠ [])
    (hroom : text.length ≤ cols) (c : Fin cols) :
    bottom (s.feed text) c = (text[(c : ℕ)]?).getD blank := by
  let u := (returned s).lineFeed
  have hlast : ((s.row : Fin rows) : ℕ) = rows - 1 := congrArg Fin.val hrow
  have hedge : ¬((returned s).row : ℕ) + 1 < rows := by
    change ¬((s.row : ℕ) + 1 < rows)
    omega
  have hu : u = { returned s with
      cells := fun r c => if h : r + 1 < rows then s.cells ⟨r + 1, h⟩ c else blank } := if_neg hedge
  have hcol : ((u.col : Fin cols) : ℕ) = 0 := by
    rw [hu]
    exact clamp_val s.col (Nat.lt_of_le_of_lt (Nat.zero_le _) s.col.isLt)
  have hblank : bottom u = fun _ => blank := (bottom_lineFeed _).trans (if_neg hedge)
  have hmode' : u.mode = .ground := by rw [hu]; exact hmode
  have hwrap' : u.wrap = false := by rw [hu]; rfl
  have hrow' : u.row = lastRow u := by rw [hu]; exact hrow
  have hfeed : s.feed text = u.feed text := by
    cases text with
    | nil => exact absurd rfl hne
    | cons b text =>
      have hb := htext b List.mem_cons_self
      change (s.feedByte b).feed text = (u.feedByte b).feed text
      rw [feedByte_printable hmode hb, feedByte_printable hmode' hb, put_wrapped hwrap,
        put_plain hwrap']
  rw [hfeed, bottom_text hrow' hmode' hwrap' htext (by omega), hcol, hblank,
    if_pos (Nat.zero_le _), Nat.sub_zero]

end Room

/-! ### Writes to other rows -/

theorem at?_bottom (s : Screen rows cols) (c : Fin cols) :
    s.at? (rows - 1) c = some (bottom s c) :=
  dif_pos ⟨(lastRow s).isLt, c.isLt⟩

theorem bottom_drawn {s : Screen rows cols} (hmode : s.mode = .ground) {r : ℕ} (hr : r + 1 < rows)
    (c : ℕ) {b : UInt8} (hb : printable b = true) :
    (s.feed (addressBytes r c ++ [b])).mode = .ground ∧
      bottom (s.feed (addressBytes r c ++ [b])) = bottom s := by
  have hput : s.feed (addressBytes r c ++ [b]) = (s.moveTo r c).place b := by
    rw [feed_append, feed_address s r c hmode]
    exact feed_put (s.moveTo r c) hmode rfl hb
  have hrow : (((s.moveTo r c).row : Fin rows) : ℕ) = r := clamp_val s.row (by omega)
  rw [hput, bottom_place]
  refine ⟨hmode, funext fun d => if_neg fun h => ?_⟩
  have hlast : rows - 1 = r := (congrArg Fin.val h.1).trans hrow
  omega

/-! ### Two fields with a tab between them -/

def stop (n : ℕ) : ℕ := (n / 8 + 1) * 8

def fields (first second : List UInt8) : List UInt8 := first ++ '\t'.toUInt8 :: second

def extent (first second : List UInt8) : ℕ := stop first.length + second.length

/-- What two fields put into a column of their row. -/
def fieldAt (first second : List UInt8) (c : ℕ) : Option UInt8 :=
  if c < first.length then first[c]?
  else if stop first.length ≤ c then second[c - stop first.length]?
  else none

/-- The cursor is at the start of the bottom row. -/
structure AtLine (s : Screen rows cols) : Prop where
  row : s.row = lastRow s
  col : ((s.col : Fin cols) : ℕ) = 0
  wrap : s.wrap = false
  mode : s.mode = .ground

theorem atLine_twin {s s' : Screen rows cols} (h : AtLine s) (h' : AtLine s') : Twin s s' where
  row := h.row.trans h'.row.symm
  col := Fin.ext (h.col.trans h'.col.symm)
  wrap := h.wrap.trans h'.wrap.symm
  mode := h.mode.trans h'.mode.symm

theorem moveTo_atLine {s : Screen rows cols} (hmode : s.mode = .ground) {r : ℕ} (hr : rows ≤ r + 1) :
    AtLine (s.moveTo r 0) where
  row := by
    refine Fin.ext ?_
    change min r (rows - 1) = rows - 1
    omega
  col := clamp_val s.col (Nat.lt_of_le_of_lt (Nat.zero_le _) s.col.isLt)
  wrap := rfl
  mode := hmode

/-- A blank screen of the same size, with the cursor at the start of the bottom row. -/
def blankLine (s : Screen rows cols) : Screen rows cols :=
  ⟨fun _ _ => blank, lastRow s, clamp s.col 0, false, .ground⟩

theorem blankLine_atLine (s : Screen rows cols) : AtLine (blankLine s) where
  row := rfl
  col := clamp_val s.col (Nat.lt_of_le_of_lt (Nat.zero_le _) s.col.isLt)
  wrap := rfl
  mode := rfl

theorem feed_fields {s : Screen rows cols} (hmode : s.mode = .ground) {first : List UInt8}
    (hfirst : ∀ b ∈ first, printable b = true) (second : List UInt8) :
    s.feed (fields first second) = ((s.feed first).tab).feed second := by
  have hground := inline_mode hmode (fun b hb => .inl (hfirst b hb))
  rw [fields, feed_append]
  change ((s.feed first).feedByte _).feed second = _
  rw [feed_tab _ hground]

section Fields

variable {s s' : Screen rows cols} {first second : List UInt8} (h : AtLine s)
  (hfirst : ∀ b ∈ first, printable b = true) (hsecond : ∀ b ∈ second, printable b = true)
include h hfirst

theorem tabbed (hstop : stop first.length < cols) :
    ((s.feed first).tab).row = lastRow s ∧ ((((s.feed first).tab).col : Fin cols) : ℕ) =
      stop first.length ∧ ((s.feed first).tab).wrap = false ∧ ((s.feed first).tab).mode = .ground ∧
      ∀ c, bottom (s.feed first).tab c = (first[(c : ℕ)]?).getD (bottom s c) := by
  have hlt : first.length < stop first.length := by
    unfold stop
    omega
  have hcol := h.col
  obtain ⟨hmode, hwrap, hrow, hend, -⟩ := feed_text_rows s first h.mode h.wrap hfirst (by omega)
  refine ⟨hrow.trans h.row, ?_, hwrap, hmode, fun c => ?_⟩
  · change ((clamp (s.feed first).col (((s.feed first).col / 8 + 1) * 8) : Fin cols) : ℕ) = _
    rw [hend, hcol, Nat.zero_add]
    exact clamp_val _ hstop
  · have hbottom := bottom_text h.row h.mode h.wrap hfirst (by omega) c
    rw [hcol, if_pos (Nat.zero_le _), Nat.sub_zero] at hbottom
    exact hbottom

include hsecond

theorem bottom_fields (hne : second ≠ []) (hfits : extent first second ≤ cols) (c : Fin cols) :
    bottom (s.feed (fields first second)) c = (fieldAt first second c).getD (bottom s c) := by
  have hpos := List.length_pos_iff.2 hne
  unfold extent at hfits
  obtain ⟨hrow, hcol, hwrap, hmode, hbottom⟩ := tabbed h hfirst (by omega)
  have hlt : first.length < stop first.length := by
    unfold stop
    omega
  rw [feed_fields h.mode hfirst, bottom_text hrow hmode hwrap hsecond (by omega), hcol, hbottom, fieldAt]
  by_cases hc : (c : ℕ) < first.length
  · rw [if_neg (by omega), if_pos hc]
  · rw [if_neg hc, List.getElem?_eq_none (l := first) (by omega), Option.getD_none]
    split <;> rfl

theorem bottom_fields_over (twin : Twin s s') (hlen : 2 ≤ second.length)
    (hover : ¬extent first second ≤ cols) :
    bottom (s.feed (fields first second)) = bottom (s'.feed (fields first second)) := by
  have hinline : Inline first := fun b hb => .inl (hfirst b hb)
  have hcol := h.col
  rw [feed_fields h.mode hfirst, feed_fields (twin.mode ▸ h.mode) hfirst]
  have htwin := twin_inline twin h.mode hinline
  have hground := inline_mode h.mode hinline
  rcases Nat.lt_trichotomy first.length cols with hlt | heq | hgt
  · obtain ⟨-, hwrap, hrow, hend, -⟩ := feed_text_rows s first h.mode h.wrap hfirst (by omega)
    refine bottom_overflow (twin_tab htwin) (hrow.trans h.row) hground hsecond (.inr ⟨hwrap, ?_⟩)
    change cols < min ((((s.feed first).col : ℕ) / 8 + 1) * 8) (cols - 1) + second.length
    rw [hend, hcol, Nat.zero_add]
    unfold extent stop at hover
    omega
  · obtain ⟨hwrap, hrow⟩ := full_text h.mode h.wrap hfirst (by omega)
    refine bottom_overflow (twin_tab htwin) (hrow.trans h.row) hground hsecond (.inl ⟨hwrap, ?_⟩)
    rintro rfl
    rw [List.length_nil] at hlen
    omega
  · have hbottom := bottom_overflow twin h.row h.mode hfirst (.inr ⟨h.wrap, by omega⟩)
    exact bottom_inline (twin_tab htwin) hbottom hground (fun b hb => .inl (hsecond b hb))

theorem bottom_fields_rest (hstop : stop first.length < cols)
    (hover : ¬extent first second ≤ cols) (hrest : extent first second ≤ 2 * cols) {c : Fin cols}
    (hc : extent first second ≤ cols + c) :
    bottom (s.feed (fields first second)) c = blank := by
  obtain ⟨hrow, hcol, hwrap, hmode, -⟩ := tabbed h hfirst hstop
  unfold extent at hover hrest hc
  let room := cols - stop first.length
  have htake : ∀ b ∈ second.take room, printable b = true :=
    fun b hb => hsecond b (List.mem_of_mem_take hb)
  have hdrop : ∀ b ∈ second.drop room, printable b = true :=
    fun b hb => hsecond b (List.mem_of_mem_drop hb)
  have htakelen : (second.take room).length = room := by
    rw [List.length_take]
    omega
  have hdroplen : (second.drop room).length = second.length - room := List.length_drop
  obtain ⟨hpending, hrow'⟩ := full_text hmode hwrap htake (by omega)
  rw [feed_fields h.mode hfirst, ← List.take_append_drop room second, feed_append,
    bottom_wrapped_text (hrow'.trans hrow) (inline_mode hmode (fun b hb => .inl (htake b hb)))
      hpending hdrop (List.length_pos_iff.1 (by omega)) (by omega),
    List.getElem?_eq_none (by omega)]
  rfl

end Fields

theorem fields_elsewhere {s : Screen rows cols} {first second : List UInt8}
    (hrow : s.row ≠ lastRow s) (hcol : ((s.col : Fin cols) : ℕ) = 0) (hmode : s.mode = .ground)
    (hwrap : s.wrap = false) (hfirst : ∀ b ∈ first, printable b = true)
    (hsecond : ∀ b ∈ second, printable b = true) (hne : second ≠ [])
    (hfits : extent first second ≤ cols) : bottom (s.feed (fields first second)) = bottom s := by
  have hpos := List.length_pos_iff.2 hne
  unfold extent at hfits
  have hlt : first.length < stop first.length := by
    unfold stop
    omega
  obtain ⟨hground, hplain, hsame, hend, -⟩ := feed_text_rows s first hmode hwrap hfirst (by omega)
  have htab : ((((s.feed first).tab).col : Fin cols) : ℕ) = stop first.length := by
    change ((clamp (s.feed first).col (((s.feed first).col / 8 + 1) * 8) : Fin cols) : ℕ) = _
    rw [hend, hcol, Nat.zero_add]
    exact clamp_val _ (show stop first.length < cols by omega)
  have hrow' : ((s.feed first).tab).row ≠ lastRow (s.feed first).tab := hsame.symm ▸ hrow
  rw [feed_fields hmode hfirst, bottom_elsewhere hrow' hground hplain hsecond (by omega)]
  exact bottom_elsewhere hrow hmode hwrap hfirst (by omega)

end Stage0.TerminalLine
