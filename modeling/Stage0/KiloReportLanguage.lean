import Mathlib
import Stage0.KiloReport

set_option autoImplicit false

/-!
# The reports that `getCursorPosition` accepts

A complete report is `ESC [ r ; c R` with positive numbers that fit an `int`. What
is accepted is described exactly, and with it when the two languages agree.
-/
namespace Stage0.KiloReportLanguage
open CInt Decimal KiloInput KiloReport

/-- The stream starts with a complete report that fits the buffer. -/
structure CompleteReport (input : List ReadResult) (r c : ℤ) : Prop where
  rows : 1 ≤ r ∧ r ≤ intMax
  cols : 1 ≤ c ∧ c ≤ intMax
  report : ∃ (digits digits' : List UInt8) (rest : List ReadResult),
    (∀ b ∈ digits, isDigit b = true) ∧ digits ≠ [] ∧ r = decimal digits ∧
    (∀ b ∈ digits', isDigit b = true) ∧ digits' ≠ [] ∧ c = decimal digits' ∧
    (digits ++ digits').length + 4 ≤ 31 ∧
    input = (escSeq :: '['.toUInt8 :: (digits ++ ';'.toUInt8 :: digits') ++ ['R'.toUInt8]).map .byte
      ++ rest

/-- A report is accepted exactly when it is complete, with its two numbers. -/
def Exact (junk : Buffer) (rows cols : ℤ) (input : List ReadResult) : Prop :=
  match getCursorPosition cursorPos.length junk rows cols input with
  | .error stop => stop = .waiting ∧ ∀ r c, ¬CompleteReport input r c
  | .ok ((ret, r, c), _) =>
    (ret = 0 ∧ CompleteReport input r c) ∨ (ret = -1 ∧ ∀ r c, ¬CompleteReport input r c)

def Plain (m : Numeral) : Prop :=
  m.space = [] ∧ m.sign = .none ∧ 1 ≤ m.value ∧ m.value ≤ intMax

/-- Where the bytes received begin like a report, an `R` closes it right after its
second number and both numbers are plain. -/
def Proper (input : List ReadResult) : Prop :=
  ∀ bytes whole rest m n tail, Received input bytes whole rest → Loose bytes m n tail →
    whole = true ∧ tail = [] ∧ Plain m ∧ Plain n

/-! ### Uniqueness -/

theorem ending_unique {n : ℕ} {tail rest rest' : List ReadResult} {whole whole' : Bool}
    (h : Ending n tail whole rest) (h' : Ending n tail whole' rest') : whole = whole' := by
  cases h with
  | full _ =>
    cases h' with
    | full _ => rfl
    | silence h _ _ _ => omega
    | closed h _ => omega
  | silence h r hr _ =>
    cases h' with
    | full _ => rfl
    | silence _ _ _ _ => rfl
    | closed _ _ => exact absurd rfl (hr _)
  | closed h _ =>
    cases h' with
    | full _ => omega
    | silence _ r hr _ => exact absurd rfl (hr _)
    | closed _ _ => rfl

theorem ending_closed {n : ℕ} {tail rest : List ReadResult} (h : Ending n tail true rest) :
    n < 31 ∧ tail = .byte 'R'.toUInt8 :: rest := by
  cases h with
  | closed h rest => exact ⟨h, rfl⟩

theorem received_unique {input rest rest' : List ReadResult} {bytes bytes' : List UInt8}
    {whole whole' : Bool} (h : Received input bytes whole rest)
    (h' : Received input bytes' whole' rest') : bytes = bytes' ∧ whole = whole' := by
  let junk : Buffer := Vector.replicate 32 0
  obtain ⟨-, buf, hrun, hbuf⟩ := readReport_received h junk
  obtain ⟨-, buf', hrun', hbuf'⟩ := readReport_received h' junk
  obtain ⟨hstate, -⟩ := Prod.mk.inj (Except.ok.inj (hrun.symm.trans hrun'))
  obtain ⟨hlen, rfl⟩ := Prod.mk.inj hstate
  have hbytes : bytes = bytes' := by rw [← hbuf, ← hbuf', hlen]
  subst hbytes
  obtain ⟨tail, rfl, -, hend⟩ := h
  obtain ⟨tail', htail, -, hend'⟩ := h'
  obtain rfl := List.append_cancel_left htail
  exact ⟨rfl, ending_unique hend hend'⟩

theorem loose_unique {bytes tail tail' : List UInt8} {m m' n n' : Numeral}
    (h : Loose bytes m n tail) (h' : Loose bytes m' n' tail') : m = m' ∧ n = n' ∧ tail = tail' := by
  have hbytes := h.bytes_eq.symm.trans h'.bytes_eq
  simp only [List.cons.injEq, true_and] at hbytes
  obtain ⟨hm, hrest⟩ := numeral_unique (separator_noDigit _) (separator_noDigit _) hbytes
  simp only [List.cons.injEq, true_and] at hrest
  obtain ⟨hn, htail⟩ := numeral_unique h.noDigit h'.noDigit hrest
  exact ⟨hm, hn, htail⟩

/-! ### Accepted and complete -/

theorem answer_zero {bytes : List UInt8} {rows cols r c : ℤ} :
    answer bytes rows cols = (0, r, c) ↔ ∃ m n tail, Loose bytes m n tail ∧
      r = toInt m.value ∧ c = toInt n.value := by
  constructor
  · intro h
    have refused : ∀ {a b : ℤ}, ((-1 : ℤ), a, b) ≠ (0, r, c) :=
      fun he => absurd (congrArg Prod.fst he) (by decide : ¬(-1 : ℤ) = 0)
    match bytes, h with
    | [], h => exact absurd h refused
    | [_], h => exact absurd h refused
    | b0 :: b1 :: text, h =>
      by_cases hhead : b0 ≠ escSeq ∨ b1 ≠ '['.toUInt8
      · rw [answer, if_pos hhead] at h
        exact absurd h refused
      · obtain ⟨h0, h1⟩ := not_or.1 hhead
        rw [answer, if_neg hhead] at h
        generalize hscan : scanPair (text.takeWhile (fun b => b != 0)) rows cols = result at h
        obtain ⟨count, r', c'⟩ := result
        obtain ⟨hret, hrc⟩ := Prod.mk.inj h
        obtain rfl : count = 2 := by
          by_contra hcount
          rw [if_pos hcount] at hret
          omega
        cases hrc
        obtain ⟨m, n, tail, rfl, htail, hr, hc⟩ := scanPair_cut.1 hscan
        rw [not_not.1 h0, not_not.1 h1]
        exact ⟨m, n, tail, ⟨rfl, htail⟩, hr, hc⟩
  · rintro ⟨m, n, tail, ⟨rfl, htail⟩, hr, hc⟩
    have hscan : scanPair ((m.bytes ++ ';'.toUInt8 :: (n.bytes ++ tail)).takeWhile
        (fun b => b != 0)) rows cols = (2, r, c) := scanPair_cut.2 ⟨m, n, tail, rfl, htail, hr, hc⟩
    have hhead : ¬(escSeq ≠ escSeq ∨ '['.toUInt8 ≠ '['.toUInt8) := by decide
    rw [answer, if_neg hhead, hscan]
    rfl

theorem answer_status (bytes : List UInt8) (rows cols : ℤ) :
    (answer bytes rows cols).1 = 0 ∨ (answer bytes rows cols).1 = -1 := by
  unfold answer
  split
  · split
    · exact .inr rfl
    · simp only
      split
      · exact .inr rfl
      · exact .inl rfl
  · exact .inr rfl

theorem toInt_small {v : ℤ} (h : 1 ≤ v ∧ v ≤ intMax) : toInt v = v := by
  have hfits : Fits v := by
    unfold intMax at h
    unfold Fits
    omega
  rw [toInt, clampLong_fits hfits, wrap_eq_iff]
  exact hfits

theorem plain_bytes {m : Numeral} (h : Plain m) : m.bytes = m.digits ∧ m.value = decimal m.digits := by
  obtain ⟨hspace, hsign, -, -⟩ := h
  rw [Numeral.bytes, Numeral.value, hspace, hsign]
  exact ⟨rfl, rfl⟩

def plainNumeral (digits : List UInt8) (h : ∀ b ∈ digits, isDigit b = true) (hd : digits ≠ []) :
    Numeral :=
  ⟨[], .none, digits, fun _ hb => absurd hb List.not_mem_nil, h, hd⟩

theorem digit_not_closing {digits : List UInt8} (h : ∀ b ∈ digits, isDigit b = true) :
    'R'.toUInt8 ∉ digits :=
  fun hR => absurd (h _ hR) (by decide)

theorem completeReport_iff {input : List ReadResult} {r c : ℤ} :
    CompleteReport input r c ↔ ∃ bytes rest m n, Received input bytes true rest ∧
      Loose bytes m n [] ∧ Plain m ∧ Plain n ∧ m.value = r ∧ n.value = c := by
  constructor
  · rintro ⟨hr, hc, digits, digits', rest, hd, hne, rfl, hd', hne', rfl, hlen, rfl⟩
    let m := plainNumeral digits hd hne
    let n := plainNumeral digits' hd' hne'
    have hbytes : (escSeq :: '['.toUInt8 :: digits ++ ';'.toUInt8 :: digits').length < 31 := by
      simp only [List.length_append, List.length_cons] at hlen ⊢
      omega
    have hR : 'R'.toUInt8 ∉ escSeq :: '['.toUInt8 :: digits ++ ';'.toUInt8 :: digits' := by
      have hm := digit_not_closing hd
      have hn := digit_not_closing hd'
      have hmarks : 'R'.toUInt8 ≠ escSeq ∧ 'R'.toUInt8 ≠ '['.toUInt8 ∧ 'R'.toUInt8 ≠ ';'.toUInt8 := by
        decide
      simp only [List.cons_append, List.mem_cons, List.mem_append, hmarks, hm, hn, or_self,
        not_false_eq_true]
    refine ⟨_, rest, m, n, ⟨.byte 'R'.toUInt8 :: rest, ?_, hR, .closed hbytes rest⟩,
      ⟨?_, noDigit_nil⟩, ⟨rfl, rfl, hr⟩, ⟨rfl, rfl, hc⟩, rfl, rfl⟩
    · rw [List.map_append, List.append_assoc]
      rfl
    · rw [List.append_nil]
      rfl
  · rintro ⟨bytes, rest, m, n, ⟨tail, rfl, -, hend⟩, hloose, hm, hn, rfl, rfl⟩
    obtain ⟨hmb, hmv⟩ := plain_bytes hm
    obtain ⟨hnb, hnv⟩ := plain_bytes hn
    have hbytes := hloose.bytes_eq
    rw [hmb, hnb, List.append_nil] at hbytes
    obtain ⟨hlen, rfl⟩ := ending_closed hend
    refine ⟨hm.2.2, hn.2.2, m.digits, n.digits, rest, m.isDigit, m.nonempty, hmv,
      n.isDigit, n.nonempty, hnv, ?_, ?_⟩
    · rw [hbytes] at hlen
      simp only [List.length_append, List.length_cons] at hlen ⊢
      omega
    · rw [hbytes, List.map_append, List.append_assoc]
      rfl

section Received

variable {input rest : List ReadResult} {bytes : List UInt8} {whole : Bool}

theorem completeReport_received (hin : Received input bytes whole rest) {r c : ℤ}
    (h : CompleteReport input r c) : whole = true ∧ ∃ m n, Loose bytes m n [] ∧
      Plain m ∧ Plain n ∧ m.value = r ∧ n.value = c := by
  obtain ⟨bytes', rest', m, n, hin', hloose, hm, hn, hr, hc⟩ := completeReport_iff.1 h
  obtain ⟨rfl, rfl⟩ := received_unique hin hin'
  exact ⟨rfl, m, n, hloose, hm, hn, hr, hc⟩

theorem exact_received (hin : Received input bytes whole rest) (junk : Buffer) (rows cols : ℤ) :
    Exact junk rows cols input ↔
      ((answer bytes rows cols).1 = 0 →
        CompleteReport input (answer bytes rows cols).2.1 (answer bytes rows cols).2.2) := by
  unfold Exact
  rw [getCursorPosition_received hin junk rows cols]
  have hstatus := answer_status bytes rows cols
  have hcomplete : ∀ r c, CompleteReport input r c → (answer bytes rows cols).1 = 0 := by
    intro r c h
    obtain ⟨-, m, n, hloose, -, -, -, -⟩ := completeReport_received hin h
    exact congrArg Prod.fst (answer_zero.2 ⟨m, n, [], hloose, rfl, rfl⟩)
  generalize answer bytes rows cols = result at hstatus hcomplete ⊢
  obtain ⟨ret, r, c⟩ := result
  simp only at hstatus hcomplete ⊢
  constructor
  · rintro (⟨-, h⟩ | ⟨rfl, -⟩) hret
    · exact h
    · omega
  · intro h
    rcases hstatus with hret | hret
    · exact .inl ⟨hret, h hret⟩
    · refine .inr ⟨hret, fun r' c' h' => ?_⟩
      have hzero := hcomplete r' c' h'
      omega

theorem proper_received (hin : Received input bytes whole rest) :
    Proper input ↔ ∀ m n tail, Loose bytes m n tail →
      whole = true ∧ tail = [] ∧ Plain m ∧ Plain n := by
  constructor
  · intro h m n tail hloose
    exact h bytes whole rest m n tail hin hloose
  · intro h bytes' whole' rest' m n tail hin' hloose
    obtain ⟨rfl, rfl⟩ := received_unique hin hin'
    exact h m n tail hloose

end Received

/-- No access leaves the buffer, and the accepted reports are the complete ones
exactly on proper input. -/
theorem getCursorPosition_exact_iff (junk : Buffer) (rows cols : ℤ) (input : List ReadResult) :
    getCursorPosition cursorPos.length junk rows cols input ≠ .error .fault ∧
      (Exact junk rows cols input ↔ Proper input) := by
  rcases received_or_waiting input with ⟨bytes, whole, rest, hin⟩ | ⟨bytes, rfl, hlen, hR⟩
  · constructor
    · rw [getCursorPosition_received hin]
      intro h
      cases h
    rw [exact_received hin, proper_received hin]
    constructor
    · intro h m n tail hloose
      have hzero : answer bytes rows cols = (0, toInt m.value, toInt n.value) :=
        answer_zero.2 ⟨m, n, tail, hloose, rfl, rfl⟩
      obtain ⟨hwhole, m', n', hloose', hm, hn, -, -⟩ :=
        completeReport_received hin (h (congrArg Prod.fst hzero))
      obtain ⟨rfl, rfl, rfl⟩ := loose_unique hloose hloose'
      exact ⟨hwhole, rfl, hm, hn⟩
    · intro h hret
      obtain ⟨m, n, tail, hloose, hr, hc⟩ :=
        answer_zero.1 (Prod.ext hret (Prod.ext rfl rfl) : answer bytes rows cols = (0, _, _))
      obtain ⟨rfl, rfl, hm, hn⟩ := h m n tail hloose
      rw [hr, hc]
      exact completeReport_iff.2 ⟨bytes, rest, m, n, hin, hloose, hm, hn,
        (toInt_small hm.2.2).symm, (toInt_small hn.2.2).symm⟩
  · have hwait := getCursorPosition_waiting hlen hR junk rows cols
    have hnone : ∀ {bytes' whole rest}, ¬Received (bytes.map .byte) bytes' whole rest := by
      intro bytes' whole rest hin
      rw [getCursorPosition_received hin] at hwait
      cases hwait
    unfold Exact
    rw [hwait]
    refine ⟨fun h => Stop.noConfusion (Except.error.inj h), ?_⟩
    constructor
    · exact fun _ _ _ _ _ _ _ hin _ => absurd hin hnone
    · refine fun _ => ⟨rfl, fun r c h => ?_⟩
      obtain ⟨_, _, _, _, hin, _⟩ := completeReport_iff.1 h
      exact hnone hin

def truncated : List ReadResult :=
  [escSeq, '['.toUInt8, '2'.toUInt8, '4'.toUInt8, ';'.toUInt8, '8'.toUInt8].map .byte ++ [.timeout]

theorem getCursorPosition_truncated : ¬Exact (Vector.replicate 32 0) 0 0 truncated := by
  have hrun : getCursorPosition cursorPos.length (Vector.replicate 32 0) 0 0 truncated =
      .ok ((0, 24, 8), []) := by decide +kernel
  unfold Exact
  rw [hrun]
  rintro (⟨-, hcomplete⟩ | ⟨hret, -⟩)
  · obtain ⟨_, _, _, _, hin, _⟩ := completeReport_iff.1 hcomplete
    obtain ⟨tail, htail, -, hend⟩ := hin
    obtain ⟨-, rfl⟩ := ending_closed hend
    have hR : ReadResult.byte 'R'.toUInt8 ∈ truncated := by
      rw [htail]
      exact List.mem_append_right _ List.mem_cons_self
    exact absurd hR (by decide)
  · exact absurd hret (by decide)

end Stage0.KiloReportLanguage
