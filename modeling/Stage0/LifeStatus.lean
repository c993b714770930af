import Mathlib
import Stage0.TerminalLine
import Stage0.LifeScreen

set_option autoImplicit false

/-!
# The status line of `life/main.c`

The line is printed over the one before it without clearing the row. What the tab skips
and what lies behind the end keeps the characters of earlier generations.
-/
namespace Stage0.LifeStatus
open CInt Decimal Script Terminal TerminalLine LifeBoard LifeUpdate LifeRender LifeScreen

variable {rows cols : ℕ}

/-! ### The text of the line -/

def generationText (k : ℕ) : List UInt8 := text "generation: " ++ formatNat k
def livingText (p : ℕ) : List UInt8 := text "living cells: " ++ formatNat p

def digits (n : ℕ) : ℕ := (formatNat n).length

theorem formatInt_nat (n : ℕ) : formatInt (n : ℤ) = formatNat n := by
  rw [formatInt, if_neg (by omega)]
  rfl

theorem status_fields (k p : ℕ) :
    status k p = fields (generationText k) (livingText p) := by
  simp only [status, fields, generationText, livingText, formatInt_nat, List.append_assoc,
    List.cons_append]

theorem generationText_length (k : ℕ) : (generationText k).length = 12 + digits k := by
  rw [generationText, List.length_append]
  rfl

theorem livingText_length (p : ℕ) : (livingText p).length = 14 + digits p := by
  rw [livingText, List.length_append]
  rfl

theorem livingText_ne_nil (p : ℕ) : livingText p ≠ [] :=
  List.length_pos_iff.1 (by rw [livingText_length]; omega)

theorem label_printable (label : List UInt8) (hlabel : ∀ b ∈ label, printable b = true) (n : ℕ) :
    ∀ b ∈ label ++ formatNat n, printable b = true := by
  intro b hb
  exact (List.mem_append.1 hb).elim (hlabel b) (fun h => printable_digit (formatNat_digits n b h))

theorem generationText_printable (k : ℕ) : ∀ b ∈ generationText k, printable b = true :=
  label_printable _ generationLabel_printable k

theorem livingText_printable (p : ℕ) : ∀ b ∈ livingText p, printable b = true :=
  label_printable _ livingLabel_printable p

theorem digits_small {n : ℕ} (h : n < 10) : digits n = 1 := by
  rw [digits, formatNat_small h]
  rfl

theorem digits_large {n : ℕ} (h : 10 ≤ n) : digits n = digits (n / 10) + 1 := by
  rw [digits, formatNat_large h, List.length_append]
  rfl

theorem digits_pos (n : ℕ) : 1 ≤ digits n := by
  rcases Nat.lt_or_ge n 10 with h | h
  · rw [digits_small h]
  · rw [digits_large h]
    omega

theorem digits_mono {m n : ℕ} (h : m ≤ n) : digits m ≤ digits n := by
  induction n using Nat.strong_induction_on generalizing m with
  | _ n ih =>
    rcases Nat.lt_or_ge m 10 with hm | hm
    · rw [digits_small hm]
      exact digits_pos n
    · rw [digits_large hm, digits_large (by omega : 10 ≤ n)]
      exact Nat.add_le_add_right (ih (n / 10) (by omega) (by omega)) 1

theorem digits_le {n k : ℕ} (hk : 0 < k) (h : n < 10 ^ k) : digits n ≤ k := formatNat_length hk h

/-! ### The bottom row from frame to frame -/

theorem changes_bottom {t : Screen rows cols} (hrows : boardRows < rows) (hmode : t.mode = .ground)
    (old new : Cell → Bool) : (t.feed (changes old new)).mode = .ground ∧
      bottom (t.feed (changes old new)) = bottom t := by
  unfold changes
  generalize List.finRange size = cells
  induction cells generalizing t with
  | nil => exact ⟨hmode, rfl⟩
  | cons j cells ih =>
    have hone : (t.feed (change old new (index.symm j))).mode = .ground ∧
        bottom (t.feed (change old new (index.symm j))) = bottom t := by
      unfold change
      split
      · have hrow := (index.symm j).1.isLt
        exact bottom_drawn hmode (by omega) _ (mark_printable _)
      · exact ⟨hmode, rfl⟩
    rw [List.flatMap_cons, feed_append]
    obtain ⟨hground, hbottom⟩ := ih hone.1
    exact ⟨hground, hbottom.trans hone.2⟩

theorem status_inline (generation living : ℤ) : Inline (status generation living) := by
  intro b hb
  rw [status, List.mem_append, List.mem_append, List.mem_append, List.mem_cons] at hb
  rcases hb with ((hb | hb) | rfl | hb) | hb
  · exact .inl (generationLabel_printable b hb)
  · exact .inl (formatInt_printable generation b hb)
  · exact .inr rfl
  · exact .inl (livingLabel_printable b hb)
  · exact .inl (formatInt_printable living b hb)

section Run

variable {t : Screen rows cols} (hmode : t.mode = .ground) (s₀ : Cell → Bool)

def statusLine (t : Screen rows cols) (s₀ : Cell → Bool) (m : ℕ) : Screen rows cols :=
  ((t.feed (printed s₀ m)).feed (changes (shown s₀ m) (shown s₀ (m + 1)))).moveTo 998 0

include hmode

theorem printed_blank (c : Fin cols) : bottom (t.feed (printed s₀ 0)) c = blank := by
  have hlast := (lastRow t).isLt
  have hat := (screen_clear t hmode).2 (rows - 1) c hlast c.isLt
  rw [at?_bottom] at hat
  exact Option.some.inj hat

variable (hrows : boardRows < rows)
include hrows

theorem printed_screen (m : ℕ) : (t.feed (printed s₀ m)).mode = .ground ∧
    t.feed (printed s₀ (m + 1)) = (statusLine t s₀ m).feed
      (status (wrap (m + 2)) (population (shown s₀ (m + 2)))) := by
  have hstep : ∀ m, (t.feed (printed s₀ m)).mode = .ground →
      t.feed (printed s₀ (m + 1)) = (statusLine t s₀ m).feed
        (status (wrap (m + 2)) (population (shown s₀ (m + 2)))) := by
    intro m hground
    have hdrawn := (changes_bottom hrows hground (shown s₀ m) (shown s₀ (m + 1))).1
    rw [printed, feed_append, feed_append, feed_append, feed_moveBottom _ hdrawn]
    rfl
  have hground : ∀ m, (t.feed (printed s₀ m)).mode = .ground := by
    intro m
    induction m with
    | zero => exact (screen_clear t hmode).1
    | succ m ih =>
      have hline : (statusLine t s₀ m).mode = .ground := by
        rw [statusLine, moveTo_mode]
        exact (changes_bottom hrows ih _ _).1
      rw [hstep m ih]
      exact inline_mode hline (status_inline _ _)
  exact ⟨hground m, hstep m (hground m)⟩

variable (hlast : rows ≤ 999)
include hlast

theorem statusLine_spec (m : ℕ) : AtLine (statusLine t s₀ m) ∧
    bottom (statusLine t s₀ m) = bottom (t.feed (printed s₀ m)) := by
  have hground := (printed_screen hmode s₀ hrows m).1
  obtain ⟨hdrawn, hbottom⟩ := changes_bottom hrows hground (shown s₀ m) (shown s₀ (m + 1))
  rw [statusLine, bottom_moveTo]
  exact ⟨moveTo_atLine hdrawn hlast, hbottom⟩

end Run

/-! ### One line over another -/

section Lines

variable (s₀ : Cell → Bool)

/-- The line of frame `k` ends on the row it starts on. -/
def Fits (cols : ℕ) (k : ℕ) : Prop :=
  extent (generationText k) (livingText (population (shown s₀ k))) ≤ cols

def lineAt (k c : ℕ) : Option UInt8 :=
  fieldAt (generationText k) (livingText (population (shown s₀ k))) c

def tabStop (k : ℕ) : ℕ := stop (generationText k).length

theorem tabStop_eq (k : ℕ) : tabStop k = ((12 + digits k) / 8 + 1) * 8 := by
  rw [tabStop, generationText_length]
  rfl

theorem extent_eq (k : ℕ) : extent (generationText k) (livingText (population (shown s₀ k))) =
    tabStop k + (14 + digits (population (shown s₀ k))) := by
  rw [extent, livingText_length]
  rfl

theorem population_digits (k : ℕ) : digits (population (shown s₀ k)) ≤ 4 := by
  have hbound : population (shown s₀ k) ≤ size := by
    have hcard := Finset.card_le_univ (Finset.univ.filter (fun c => shown s₀ k c = true))
    rwa [Fintype.card_congr index, Fintype.card_fin] at hcard
  have hsize : size = 8100 := rfl
  exact digits_le (by omega) (by omega)

theorem generation_digits {k : ℕ} (hk : k < 2 ^ 31) : digits k ≤ 10 :=
  digits_le (by omega) (by omega)

theorem lineAt_none_iff {k c : ℕ} : lineAt s₀ k c = none ↔ 12 + digits k ≤ c ∧
    (c < tabStop k ∨ tabStop k + (14 + digits (population (shown s₀ k))) ≤ c) := by
  have hstop := tabStop_eq k
  have hlen := generationText_length k
  rw [lineAt, fieldAt, ← tabStop]
  by_cases hc : c < (generationText k).length
  · rw [if_pos hc, List.getElem?_eq_none_iff]
    omega
  · rw [if_neg hc]
    by_cases hle : tabStop k ≤ c
    · rw [if_pos hle, List.getElem?_eq_none_iff, livingText_length]
      omega
    · rw [if_neg hle]
      exact iff_of_true rfl ⟨by omega, .inl (by omega)⟩

theorem lineAt_digit {k c : ℕ} (hc : tabStop k + 14 ≤ c) {b : UInt8} (h : lineAt s₀ k c = some b) :
    b ≠ blank := by
  have hstop := tabStop_eq k
  have hlen := generationText_length k
  have hlabel : (text "living cells: ").length = 14 := rfl
  rw [lineAt, fieldAt, ← tabStop, if_neg (by omega), if_pos (by omega), livingText,
    List.getElem?_append_right (by omega)] at h
  have hdigit := formatNat_digits _ b (List.mem_of_getElem? h)
  rintro rfl
  revert hdigit
  decide

theorem blankLine_fits (t : Screen rows cols) {k : ℕ} (hfits : Fits s₀ cols k) (c : Fin cols) :
    bottom ((blankLine t).feed
      (fields (generationText k) (livingText (population (shown s₀ k))))) c =
      (lineAt s₀ k c).getD blank := by
  exact bottom_fields (blankLine_atLine t) (generationText_printable _) (livingText_printable _)
    (livingText_ne_nil _) hfits c

end Lines

/-- Frame `k` finds no characters of earlier lines: none of those printed since the row was
last scrolled away had its tab land elsewhere or a longer number of cells. -/
def Unstained (cols : ℕ) (s₀ : Cell → Bool) (k : ℕ) : Prop :=
  ∀ j, 2 ≤ j → j < k → (∀ i, j ≤ i → i ≤ k → Fits s₀ cols i) → tabStop j = tabStop k ∧
    digits (population (shown s₀ j)) ≤ digits (population (shown s₀ k))

section History

variable {t : Screen rows cols} (hmode : t.mode = .ground) (s₀ : Cell → Bool)
  (hrows : boardRows < rows)

def rowAfter (t : Screen rows cols) (s₀ : Cell → Bool) (m : ℕ) : Fin cols → UInt8 :=
  bottom (t.feed (printed s₀ m))

include hmode hrows

theorem printed_line {m : ℕ} (hm : m + 2 < 2 ^ 31) : t.feed (printed s₀ (m + 1)) =
    (statusLine t s₀ m).feed
      (fields (generationText (m + 2)) (livingText (population (shown s₀ (m + 2))))) := by
  have hint : wrap ((m : ℤ) + 2) = ((m + 2 : ℕ) : ℤ) := by
    push_cast
    exact wrap_eq_iff.2 ⟨by omega, by omega⟩
  rw [(printed_screen hmode s₀ hrows m).2, hint, status_fields]

variable (hlast : rows ≤ 999)
include hlast

theorem rowAfter_fits {m : ℕ} (hm : m + 2 < 2 ^ 31) (hfits : Fits s₀ cols (m + 2)) (c : Fin cols) :
    rowAfter t s₀ (m + 1) c = (lineAt s₀ (m + 2) c).getD (rowAfter t s₀ m c) := by
  obtain ⟨hline, hbottom⟩ := statusLine_spec hmode s₀ hrows hlast m
  rw [rowAfter, printed_line hmode s₀ hrows hm, bottom_fields hline (generationText_printable _)
    (livingText_printable _) (livingText_ne_nil _) hfits, hbottom]
  rfl

theorem rowAfter_wrapped {m : ℕ} (hm : m + 2 < 2 ^ 31) (hwide : 31 ≤ cols)
    (hover : ¬Fits s₀ cols (m + 2)) {c : Fin cols} (hc : 12 ≤ (c : ℕ)) :
    rowAfter t s₀ (m + 1) c = blank := by
  obtain ⟨hline, -⟩ := statusLine_spec hmode s₀ hrows hlast m
  have hgen := generation_digits hm
  have hpop := population_digits s₀ (m + 2)
  have hstop := tabStop_eq (m + 2)
  have hextent := extent_eq s₀ (m + 2)
  rw [rowAfter, printed_line hmode s₀ hrows hm]
  refine bottom_fields_rest hline (generationText_printable _) (livingText_printable _) ?_ hover
    (by omega) (by omega)
  change tabStop (m + 2) < cols
  omega

/-- What stands behind the first label was printed by a line that is still there. -/
theorem stained_by (hwide : 31 ≤ cols) {m : ℕ} (hm : m + 1 < 2 ^ 31) {c : Fin cols}
    (hc : 12 ≤ (c : ℕ)) (h : rowAfter t s₀ m c ≠ blank) :
    ∃ j, 2 ≤ j ∧ j ≤ m + 1 ∧ (∀ i, j ≤ i → i ≤ m + 1 → Fits s₀ cols i) ∧ lineAt s₀ j c ≠ none := by
  induction m with
  | zero => exact absurd (printed_blank hmode s₀ c) h
  | succ m ih =>
    by_cases hfits : Fits s₀ cols (m + 2)
    · by_cases hnone : lineAt s₀ (m + 2) c = none
      · rw [rowAfter_fits hmode s₀ hrows hlast hm hfits, hnone, Option.getD_none] at h
        obtain ⟨j, hj, hjm, hera, hline⟩ := ih (by omega) h
        refine ⟨j, hj, by omega, fun i hi him => ?_, hline⟩
        rcases Nat.lt_or_ge i (m + 2) with hlt | hge
        · exact hera i hi (by omega)
        · obtain rfl : i = m + 2 := by omega
          exact hfits
      · refine ⟨m + 2, by omega, le_refl _, fun i hi him => ?_, hnone⟩
        obtain rfl : i = m + 2 := by omega
        exact hfits
    · exact absurd (rowAfter_wrapped hmode s₀ hrows hlast hm hwide hfits hc) h

/-- A character stays until a line that fits prints a space over it. -/
theorem stain_stays {j m : ℕ} (hj : 2 ≤ j) (hjm : j ≤ m + 1) (hm : m + 1 < 2 ^ 31) {c : Fin cols}
    (hera : ∀ i, j ≤ i → i ≤ m + 1 → Fits s₀ cols i) (hsome : lineAt s₀ j c ≠ none)
    (hdark : ∀ i b, j ≤ i → i ≤ m + 1 → lineAt s₀ i c = some b → b ≠ blank) :
    rowAfter t s₀ m c ≠ blank := by
  induction m with
  | zero => omega
  | succ m ih =>
    rw [rowAfter_fits hmode s₀ hrows hlast hm (hera (m + 2) (by omega) (le_refl _))]
    cases hline : lineAt s₀ (m + 2) c with
    | some b => exact hdark (m + 2) b (by omega) (le_refl _) hline
    | none =>
      have hlt : j ≠ m + 2 := by
        rintro rfl
        exact hsome hline
      exact ih (by omega) (by omega) (fun i hi him => hera i hi (by omega))
        (fun i b hi him => hdark i b hi (by omega))

end History

/-! ### When the row shows the line alone -/

theorem tabStop_mono {j k : ℕ} (h : j ≤ k) : tabStop j ≤ tabStop k := by
  have hdigits := digits_mono h
  have hj := tabStop_eq j
  have hk := tabStop_eq k
  omega

theorem tabStop_cases {k : ℕ} (hk : k < 2 ^ 31) : tabStop k = 16 ∨ tabStop k = 24 := by
  have hpos := digits_pos k
  have hle := generation_digits hk
  have hstop := tabStop_eq k
  omega

theorem lineAt_letter (s₀ : Cell → Bool) {k : ℕ} (hk : k < 2 ^ 31) {b : UInt8}
    (h : lineAt s₀ k 23 = some b) : b ≠ blank := by
  have hstop := tabStop_eq k
  have hlen := generationText_length k
  have hlabel : (text "living cells: ").length = 14 := rfl
  rcases tabStop_cases hk with h16 | h24
  · rw [lineAt, fieldAt, ← tabStop, if_neg (by omega), if_pos (by omega), h16, livingText,
      List.getElem?_append_left (by omega)] at h
    have hletter : (text "living cells: ")[23 - 16]? = some 'c'.toUInt8 := rfl
    rw [hletter] at h
    cases h
    decide
  · rw [(lineAt_none_iff s₀).2 ⟨by have hle := generation_digits hk; omega, .inl (by omega)⟩] at h
    cases h

section Shows

variable {t : Screen rows cols} (hmode : t.mode = .ground) (s₀ : Cell → Bool)
  (hrows : boardRows < rows) (hlast : rows ≤ 999) {m : ℕ} (hm : m + 2 < 2 ^ 31)
include hmode hrows hlast hm

section Blank

variable (hclean : ∀ c : Fin cols, lineAt s₀ (m + 2) c = none → rowAfter t s₀ m c = blank) {j : ℕ}
  (hj : 2 ≤ j) (hjk : j < m + 2) (hera : ∀ i, j ≤ i → i ≤ m + 2 → Fits s₀ cols i)
include hclean hj hjk hera

theorem clean_none {c : Fin cols} (hnone : lineAt s₀ (m + 2) c = none)
    (hdark : ∀ i b, j ≤ i → i ≤ m + 1 → lineAt s₀ i c = some b → b ≠ blank) :
    lineAt s₀ j c = none := by
  by_contra hsome
  exact stain_stays hmode s₀ hrows hlast hj (by omega) (by omega)
    (fun i hi him => hera i hi (by omega)) hsome hdark (hclean c hnone)

theorem tabStop_of_clean : tabStop j = tabStop (m + 2) := by
  by_contra hne
  have hmono := tabStop_mono hjk.le
  have hj16 : tabStop j = 16 := by
    rcases tabStop_cases (show j < 2 ^ 31 by omega) with h | h <;>
      rcases tabStop_cases hm with h' | h' <;> omega
  have hk24 : tabStop (m + 2) = 24 := by
    rcases tabStop_cases hm with h | h <;> omega
  have hgen := generation_digits hm
  have hfits := hera (m + 2) hjk.le (le_refl _)
  have hwide := extent_eq s₀ (m + 2)
  unfold Fits at hfits
  let c : Fin cols := ⟨23, by omega⟩
  have hcval : (c : ℕ) = 23 := rfl
  have hnone : lineAt s₀ (m + 2) c = none := (lineAt_none_iff s₀).2 ⟨by omega, .inl (by omega)⟩
  have hearlier := clean_none hmode s₀ hrows hlast hm hclean hj hjk hera hnone
    (fun i b _ him hline => lineAt_letter s₀ (show i < 2 ^ 31 by omega) hline)
  have hout := ((lineAt_none_iff s₀).1 hearlier).2
  have hjpos := digits_pos (population (shown s₀ j))
  omega

theorem cells_of_clean (hsame : tabStop j = tabStop (m + 2)) :
    digits (population (shown s₀ j)) ≤ digits (population (shown s₀ (m + 2))) := by
  by_contra hlonger
  have hfits := hera j (le_refl j) hjk.le
  have hextent := extent_eq s₀ j
  have hpos := digits_pos (population (shown s₀ (m + 2)))
  have hstop := tabStop_eq (m + 2)
  unfold Fits at hfits
  -- the last digit of the earlier number
  let c : Fin cols := ⟨tabStop j + (14 + digits (population (shown s₀ j))) - 1, by omega⟩
  have hcval : (c : ℕ) = tabStop j + (14 + digits (population (shown s₀ j))) - 1 := rfl
  have hnone : lineAt s₀ (m + 2) c = none := (lineAt_none_iff s₀).2 ⟨by omega, .inr (by omega)⟩
  have hearlier := clean_none hmode s₀ hrows hlast hm hclean hj hjk hera hnone (by
    intro i b hi him hline
    have hlow := tabStop_mono hi
    have hhigh := tabStop_mono (show i ≤ m + 2 by omega)
    exact lineAt_digit s₀ (by omega) hline)
  have hout := ((lineAt_none_iff s₀).1 hearlier).2
  omega

end Blank

theorem unstained_of_blank
    (hclean : ∀ c : Fin cols, lineAt s₀ (m + 2) c = none → rowAfter t s₀ m c = blank) :
    Unstained cols s₀ (m + 2) := by
  intro j hj hjk hera
  have hsame := tabStop_of_clean hmode s₀ hrows hlast hm hclean hj hjk hera
  exact ⟨hsame, cells_of_clean hmode s₀ hrows hlast hm hclean hj hjk hera hsame⟩

theorem blank_of_unstained (h : Unstained cols s₀ (m + 2)) (hfits : Fits s₀ cols (m + 2))
    (c : Fin cols) (hnone : lineAt s₀ (m + 2) c = none) : rowAfter t s₀ m c = blank := by
  by_contra hstain
  have hwide := extent_eq s₀ (m + 2)
  have hpos := digits_pos (population (shown s₀ (m + 2)))
  have hstop := tabStop_eq (m + 2)
  have hdigits := digits_pos (m + 2)
  unfold Fits at hfits
  obtain ⟨hbehind, hout⟩ := (lineAt_none_iff s₀).1 hnone
  obtain ⟨j, hj, hjm, hera, hline⟩ :=
    stained_by hmode s₀ hrows hlast (by omega) (by omega) (by omega) hstain
  obtain ⟨hsame, hshorter⟩ := h j hj (by omega) (fun i hi him => by
    rcases Nat.lt_or_ge i (m + 2) with hlt | hge
    · exact hera i hi (by omega)
    · obtain rfl : i = m + 2 := by omega
      exact hfits)
  have hgen := digits_mono (show j ≤ m + 2 by omega)
  exact hline ((lineAt_none_iff s₀).2 ⟨by omega, by omega⟩)

theorem rowAfter_eq_iff : rowAfter t s₀ (m + 1) = bottom ((blankLine t).feed
    (fields (generationText (m + 2)) (livingText (population (shown s₀ (m + 2)))))) ↔
      Unstained cols s₀ (m + 2) := by
  by_cases hfits : Fits s₀ cols (m + 2)
  · have hcells : ∀ c : Fin cols, (rowAfter t s₀ (m + 1) c = bottom ((blankLine t).feed
        (fields (generationText (m + 2)) (livingText (population (shown s₀ (m + 2)))))) c) ↔
          (lineAt s₀ (m + 2) c = none → rowAfter t s₀ m c = blank) := by
      intro c
      rw [rowAfter_fits hmode s₀ hrows hlast hm hfits, blankLine_fits s₀ t hfits]
      cases lineAt s₀ (m + 2) c with
      | none => exact ⟨fun h _ => h, fun h => h rfl⟩
      | some b => exact iff_of_true rfl (fun h => by cases h)
    constructor
    · intro h
      exact unstained_of_blank hmode s₀ hrows hlast hm (fun c => (hcells c).1 (congrFun h c))
    · intro h
      exact funext fun c => (hcells c).2 (blank_of_unstained hmode s₀ hrows hlast hm h hfits c)
  · refine iff_of_true ?_ (fun j _ hjk hera => absurd (hera (m + 2) hjk.le (le_refl _)) hfits)
    obtain ⟨hline, -⟩ := statusLine_spec hmode s₀ hrows hlast m
    rw [rowAfter, printed_line hmode s₀ hrows hm]
    exact bottom_fields_over hline (generationText_printable _) (livingText_printable _)
      (atLine_twin hline (blankLine_atLine t)) (by rw [livingText_length]; omega) hfits

end Shows

theorem wide_fits (s₀ : Cell → Bool) (hcols : 42 ≤ cols) {k : ℕ} (hint : k < 2 ^ 31) :
    Fits s₀ cols k := by
  have hpop := population_digits s₀ k
  have hextent := extent_eq s₀ k
  unfold Fits
  rcases tabStop_cases hint with h | h <;> omega

/-- On a screen that holds every line the labels stay in place up to generation 999. -/
theorem unstained_wide_iff (s₀ : Cell → Bool) (hcols : 42 ≤ cols) {k : ℕ}
    (hint : k < 2 ^ 31) : Unstained cols s₀ k ↔ k ≤ 999 ∧ ∀ j, 2 ≤ j → j < k →
      digits (population (shown s₀ j)) ≤ digits (population (shown s₀ k)) := by
  have hfits : ∀ i, i ≤ k → Fits s₀ cols i := fun i hi => wide_fits s₀ hcols (by omega)
  have htwo : digits 2 = 1 := digits_small (by omega)
  constructor
  · intro h
    refine ⟨?_, fun j hj hjk => (h j hj hjk fun i _ hi => hfits i hi).2⟩
    by_contra hlate
    have hsame := (h 2 (le_refl 2) (by omega) fun i _ hi => hfits i hi).1
    have hfour : 4 ≤ digits k := digits_mono (show 1000 ≤ k by omega)
    have h2 := tabStop_eq 2
    have hstop := tabStop_eq k
    omega
  · rintro ⟨hearly, hshorter⟩ j hj hjk -
    refine ⟨?_, hshorter j hj hjk⟩
    have hkdigits : digits k ≤ 3 := digits_le (by omega) (by omega)
    have hjdigits := digits_mono hjk.le
    have hjpos := digits_pos j
    have hjstop := tabStop_eq j
    have hkstop := tabStop_eq k
    omega

/-- The bottom row shows what `status k p` would print on a blank one. -/
def RowShows (t : Screen rows cols) (u : Render) (k p : ℕ) : Prop :=
  bottom (t.feed u.out) = bottom ((blankLine t).feed (status k p))

theorem rowAfter_high {t : Screen rows cols} (hmode : t.mode = .ground) (s₀ : Cell → Bool)
    (hhigh : 1000 ≤ rows) (hcols : 42 ≤ cols) {m : ℕ} (hm : m + 1 < 2 ^ 31) (c : Fin cols) :
    rowAfter t s₀ m c = blank := by
  have hrows : boardRows < rows := by
    simp only [boardRows]
    omega
  induction m with
  | zero => exact printed_blank hmode s₀ c
  | succ m ih =>
    have hground := (printed_screen hmode s₀ hrows m).1
    obtain ⟨hdrawn, hbottom⟩ := changes_bottom hrows hground (shown s₀ m) (shown s₀ (m + 1))
    have hrow : (statusLine t s₀ m).row ≠ lastRow (statusLine t s₀ m) := by
      intro h
      have hval : min 998 (rows - 1) = rows - 1 := congrArg Fin.val h
      omega
    have hcol : (((statusLine t s₀ m).col : Fin cols) : ℕ) = 0 := by
      change min 0 (cols - 1) = 0
      omega
    have hline : (statusLine t s₀ m).mode = .ground := by
      rw [statusLine, moveTo_mode]
      exact hdrawn
    rw [rowAfter, printed_line hmode s₀ hrows hm, fields_elsewhere hrow hcol hline rfl
      (generationText_printable _) (livingText_printable _) (livingText_ne_nil _)
      (wide_fits s₀ hcols hm), statusLine, bottom_moveTo, hbottom]
    exact ih (by omega)

section Frames

variable {t : Screen rows cols} (hrows : 46 ≤ rows) (hmode : t.mode = .ground) {board : Board}
  (hb : Binary board) {ch : UInt8} {reads : List KeyRead} {s u : Render}
  (run : frames reads (start board ch) = .ok s) (draw : drawFrame s = .ok u)
include hrows hmode hb run draw

theorem rowShows_rowAfter : RowShows t u (reads.length + 1) (population (live u.life.board)) ↔
    rowAfter t (live board) reads.length = bottom ((blankLine t).feed
      (fields (generationText (reads.length + 1))
        (livingText (population (shown (live board) (reads.length + 1)))))) := by
  obtain ⟨hboard, -, hout⟩ := drawn_run hb run draw
  have hground := (printed_screen hmode (live board) hrows reads.length).1
  have hdrawn := (changes_bottom hrows hground (shown (live board) reads.length)
    (shown (live board) (reads.length + 1))).2
  rw [RowShows, hboard, live_boardOf, hout, feed_append, hdrawn, status_fields, rowAfter]

variable (hsecond : 1 ≤ reads.length) (hint : reads.length + 1 < 2 ^ 31)
include hint

theorem rowShows_high (hcols : 42 ≤ cols) (hhigh : 1000 ≤ rows) :
    ¬RowShows t u (reads.length + 1) (population (live u.life.board)) := by
  rw [rowShows_rowAfter hrows hmode hb run draw]
  intro h
  let c : Fin cols := ⟨0, by omega⟩
  have hcell := congrFun h c
  rw [rowAfter_high hmode _ hhigh hcols hint, blankLine_fits _ t (wide_fits _ hcols hint)] at hcell
  have hpos : c < (generationText (reads.length + 1)).length := by
    rw [generationText_length]
    change 0 < _
    omega
  have hletter : lineAt (live board) (reads.length + 1) c = some 'g'.toUInt8 := by
    rw [lineAt, fieldAt, if_pos hpos]
    rfl
  rw [hletter] at hcell
  revert hcell
  decide

include hsecond

theorem rowShows_unstained (hlast : rows ≤ 999) :
    RowShows t u (reads.length + 1) (population (live u.life.board)) ↔
      Unstained cols (live board) (reads.length + 1) := by
  rw [rowShows_rowAfter hrows hmode hb run draw]
  obtain ⟨m, hm⟩ : ∃ m, reads.length = m + 1 := ⟨reads.length - 1, by omega⟩
  rw [hm] at hint ⊢
  exact rowAfter_eq_iff hmode (live board) hrows hlast hint

theorem rowShows_wide (hcols : 42 ≤ cols) :
    RowShows t u (reads.length + 1) (population (live u.life.board)) ↔
      rows ≤ 999 ∧ reads.length + 1 ≤ 999 ∧ ∀ j, 2 ≤ j → j < reads.length + 1 →
        digits (population (shown (live board) j)) ≤
          digits (population (shown (live board) (reads.length + 1))) := by
  by_cases hlast : rows ≤ 999
  · rw [rowShows_unstained hrows hmode hb run draw hsecond hint hlast,
      unstained_wide_iff _ hcols hint, and_iff_right hlast]
  · exact iff_of_false (rowShows_high hrows hmode hb run draw hint hcols (by omega))
      (fun h => hlast h.1)

end Frames

/-- In every frame from the second on, the bottom row shows the line of that frame alone exactly
when no earlier line since the last scroll had its tab land elsewhere or a longer number of
cells. On 42 columns or more that is: up to frame 999, and while no earlier number was longer. -/
theorem row_shows_iff (t : Screen rows cols) (hrows : 46 ≤ rows) (hmode : t.mode = .ground)
    (board : Board) (hb : Binary board) (ch : UInt8) (reads : List KeyRead) (s u : Render)
    (run : frames reads (start board ch) = .ok s) (draw : drawFrame s = .ok u)
    (hsecond : 1 ≤ reads.length) (hint : reads.length + 1 < 2 ^ 31) :
    (rows ≤ 999 → (RowShows t u (reads.length + 1) (population (live u.life.board)) ↔
      Unstained cols (live board) (reads.length + 1))) ∧
    (42 ≤ cols → (RowShows t u (reads.length + 1) (population (live u.life.board)) ↔
      rows ≤ 999 ∧ reads.length + 1 ≤ 999 ∧ ∀ j, 2 ≤ j → j < reads.length + 1 →
        digits (population (shown (live board) j)) ≤
          digits (population (shown (live board) (reads.length + 1))))) :=
  ⟨fun hlast => rowShows_unstained hrows hmode hb run draw hsecond hint hlast,
    fun hcols => rowShows_wide hrows hmode hb run draw hsecond hint hcols⟩

theorem pentomino_runs (n : ℕ) : ∃ s u,
    frames (List.replicate n .noData) (start (boardOf pentomino) 0) = .ok s ∧
      drawFrame s = .ok u := by
  have hreads : Unescaped 0 (List.replicate n .noData) := unescaped_of_reads (by decide) (fun r hr => by
    rw [List.eq_of_mem_replicate hr]
    simp)
  have hhead := head_start pentomino 0
  obtain ⟨s, hs⟩ := (frames_ok_iff hhead _).2 hreads
  exact ⟨s, _, hs, drawFrame_run (frames_head hhead _ hs)⟩

/-- Frame 3 finds the line of frame 2. -/
theorem row_shows_iff_third : ∃ s u, frames [.noData, .noData] (start (boardOf pentomino) 0) = .ok s ∧
    drawFrame s = .ok u ∧
    (46 ≤ 999 → (RowShows terminal u 3 (population (live u.life.board)) ↔
      Unstained 180 (live (boardOf pentomino)) 3)) ∧
    (42 ≤ 180 → (RowShows terminal u 3 (population (live u.life.board)) ↔
      46 ≤ 999 ∧ 3 ≤ 999 ∧ ∀ j, 2 ≤ j → j < 3 →
        digits (population (shown (live (boardOf pentomino)) j)) ≤
          digits (population (shown (live (boardOf pentomino)) 3)))) := by
  obtain ⟨s, u, hs, hu⟩ := pentomino_runs 2
  exact ⟨s, u, hs, hu, row_shows_iff terminal (by decide) rfl _ (binary_boardOf pentomino) 0
    [.noData, .noData] s u hs hu (by decide) (by decide)⟩

/-- In frame 1000 of the program's own pattern the tab lands behind an old letter. -/
theorem row_stained_late : ¬∀ (board : Board), Binary board →
    ∀ (reads : List KeyRead) (s u : Render), frames reads (start board 0) = .ok s →
      drawFrame s = .ok u → 1 ≤ reads.length →
      RowShows terminal u (reads.length + 1) (population (live u.life.board)) := by
  intro h
  have hb := binary_boardOf pentomino
  have hlen : (List.replicate 999 KeyRead.noData).length = 999 := List.length_replicate
  obtain ⟨s, u, hs, hu⟩ := pentomino_runs 999
  have hshows := h _ hb _ s u hs hu (by omega)
  rw [rowShows_wide (by decide) rfl hb hs hu (by omega) (by omega) (by decide)] at hshows
  have hlate := hshows.2.1
  omega

end Stage0.LifeStatus
