import Mathlib
import Stage0.BoundedLoops
import Stage0.CInt
import Stage0.Decimal
import Stage0.KiloInput

set_option autoImplicit false

/-!
# The cursor report in `kilo/kilo.c`

`getCursorPosition` collects the answer to its query in a buffer of 32 bytes and
reads two numbers from it.
-/
namespace Stage0.KiloReport
open BoundedLoops CInt Decimal Script KiloInput

abbrev Buffer := Vector UInt8 32

def cursorPos : List UInt8 := [escSeq, '['.toUInt8, '6'.toUInt8, 'n'.toUInt8]

/-- `%d` into an `int`: the number saturates as a `long` and its low 32 bits are kept. -/
def toInt (v : ℤ) : ℤ := wrap (clampLong v)

/-- `sscanf(s, "%d;%d", rows, cols)`: its result and the two variables after it. -/
def scanPair (s : List UInt8) (rows cols : ℤ) : ℤ × ℤ × ℤ :=
  match scanInt s with
  | none => (if s.all isSpace then -1 else 0, rows, cols)
  | some (r, t) =>
    match t with
    | [] => (1, toInt r, cols)
    | c :: t =>
      if c = ';'.toUInt8 then
        match scanInt t with
        | none => (1, toInt r, cols)
        | some (c, _) => (2, toInt r, toInt c)
      else (1, toInt r, cols)

def cString (buf : Buffer) (k : ℕ) : Option (List UInt8) :=
  if 0 ∈ buf.toList.drop k then some ((buf.toList.drop k).takeWhile (fun c => c != 0)) else none

/-- `while (i < sizeof(buf) - 1) ...` -/
def readReport : List ReadResult → ℕ → Buffer → Except Stop ((ℕ × Buffer) × List ReadResult)
  | input, i, buf =>
    if i < 32 - 1 then
      match input with
      | [] => .error .waiting
      | .byte c :: input => do
        let buf ← orStop Stop.fault (store buf i c)
        if c = 'R'.toUInt8 then return ((i, buf), input) else readReport input (i + 1) buf
      | _ :: input => return ((i, buf), input)
    else return ((i, buf), input)

def judgeReport (buf : Buffer) (rows cols : ℤ) (input : List ReadResult) :
    Except Stop ((ℤ × ℤ × ℤ) × List ReadResult) := do
  let b0 ← orStop Stop.fault (load buf 0)
  let b1 ← orStop Stop.fault (load buf 1)
  if b0 ≠ escSeq ∨ b1 ≠ '['.toUInt8 then return ((-1, rows, cols), input)
  else
    let text ← orStop Stop.fault (cString buf 2)
    let (count, rows, cols) := scanPair text rows cols
    if count ≠ 2 then return ((-1, rows, cols), input) else return ((0, rows, cols), input)

/-- `getCursorPosition`: its result and `*rows`, `*cols` after it. `written` is the
result of the `write` of the query, `junk` what the buffer holds before. -/
def getCursorPosition (written : ℤ) (junk : Buffer) (rows cols : ℤ) (input : List ReadResult) :
    Except Stop ((ℤ × ℤ × ℤ) × List ReadResult) :=
  if written ≠ cursorPos.length then return ((-1, rows, cols), input)
  else do
    let ((i, buf), input) ← readReport input 0 junk
    let buf ← orStop Stop.fault (store buf i 0)
    judgeReport buf rows cols input

/-! ### What reaches the buffer -/

/-- How the reading ends after `n` bytes: with a full buffer, with a read that gives
no byte, or with the `R` that closes a report. -/
inductive Ending : ℕ → List ReadResult → Bool → List ReadResult → Prop
  | full (rest : List ReadResult) : Ending 31 rest false rest
  | silence {n : ℕ} (h : n < 31) (r : ReadResult) (hr : ∀ c, r ≠ .byte c)
      (rest : List ReadResult) : Ending n (r :: rest) false rest
  | closed {n : ℕ} (h : n < 31) (rest : List ReadResult) :
      Ending n (.byte 'R'.toUInt8 :: rest) true rest

/-- `bytes` arrive, and `whole` tells whether an `R` follows them. -/
def Received (input : List ReadResult) (bytes : List UInt8) (whole : Bool)
    (rest : List ReadResult) : Prop :=
  ∃ tail, input = bytes.map .byte ++ tail ∧ 'R'.toUInt8 ∉ bytes ∧ Ending bytes.length tail whole rest

theorem store_next (buf : Buffer) {i : ℕ} (hi : i < 32) (c : UInt8) :
    ∃ buf' : Buffer, store buf i c = some buf' ∧
      buf'.toList = buf.toList.take i ++ c :: buf.toList.drop (i + 1) := by
  refine ⟨buf.set i c hi, store_coe buf ⟨i, hi⟩ c, ?_⟩
  rw [Vector.toList_set, List.set_eq_take_append_cons_drop, if_pos (by simpa using hi)]

theorem take_next (buf buf' : Buffer) {i : ℕ} (hi : i < 32) {c : UInt8}
    (h : buf'.toList = buf.toList.take i ++ c :: buf.toList.drop (i + 1)) :
    buf'.toList.take (i + 1) = buf.toList.take i ++ [c] := by
  have hlen : (buf.toList.take i).length = i := by simp; omega
  rw [h, List.take_append, List.take_of_length_le (by omega), hlen]
  simp

theorem readReport_bytes (bytes : List UInt8) (tail : List ReadResult) (i : ℕ) (buf : Buffer)
    (hlen : i + bytes.length ≤ 31) (hR : 'R'.toUInt8 ∉ bytes) :
    ∃ buf' : Buffer, readReport (bytes.map .byte ++ tail) i buf =
        readReport tail (i + bytes.length) buf' ∧
      buf'.toList.take (i + bytes.length) = buf.toList.take i ++ bytes := by
  induction bytes generalizing i buf with
  | nil => exact ⟨buf, rfl, (List.append_nil _).symm⟩
  | cons c bytes ih =>
    rw [List.length_cons] at hlen
    obtain ⟨hc, hbytes⟩ := not_or.1 (mt List.mem_cons.2 hR)
    obtain ⟨buf₁, hstore, hbuf₁⟩ := store_next buf (by omega : i < 32) c
    obtain ⟨buf', hrun, hbuf'⟩ := ih (i + 1) buf₁ (by omega) hbytes
    have hsum : i + (c :: bytes).length = i + 1 + bytes.length := by rw [List.length_cons]; omega
    refine ⟨buf', ?_, ?_⟩
    · rw [List.map_cons, List.cons_append, readReport, if_pos (by omega), hstore, hsum, ← hrun]
      change (if c = 'R'.toUInt8 then _ else _) = _
      rw [if_neg (Ne.symm hc)]
    · rw [hsum, hbuf', take_next buf buf₁ (by omega) hbuf₁, List.append_assoc]
      rfl

theorem readReport_ending {n : ℕ} {tail rest : List ReadResult} {whole : Bool}
    (h : Ending n tail whole rest) (buf : Buffer) :
    n ≤ 31 ∧ ∃ buf' : Buffer, readReport tail n buf = .ok ((n, buf'), rest) ∧
      buf'.toList.take n = buf.toList.take n := by
  cases h with
  | full tail =>
    refine ⟨le_refl _, buf, ?_, rfl⟩
    unfold readReport
    rw [if_neg (by omega)]
    rfl
  | silence h r hr rest =>
    refine ⟨by omega, buf, ?_, rfl⟩
    unfold readReport
    rw [if_pos (by omega)]
    cases r with
    | byte c => exact absurd rfl (hr c)
    | timeout => rfl
    | fail eagain => rfl
  | closed h rest =>
    obtain ⟨buf', hstore, hbuf'⟩ := store_next buf (by omega : n < 32) 'R'.toUInt8
    refine ⟨by omega, buf', ?_, ?_⟩
    · rw [readReport, if_pos (by omega), hstore]
      rfl
    · have hlen : (buf.toList.take n).length = n := by simp; omega
      rw [hbuf', List.take_append_of_le_length hlen.ge, List.take_of_length_le hlen.le]

theorem readReport_received {input rest : List ReadResult} {bytes : List UInt8} {whole : Bool}
    (h : Received input bytes whole rest) (junk : Buffer) :
    bytes.length ≤ 31 ∧ ∃ buf : Buffer,
      readReport input 0 junk = .ok ((bytes.length, buf), rest) ∧
      buf.toList.take bytes.length = bytes := by
  obtain ⟨tail, rfl, hR, hend⟩ := h
  obtain ⟨hlen, -⟩ := readReport_ending hend junk
  obtain ⟨buf₁, hrun₁, hbuf₁⟩ := readReport_bytes bytes tail 0 junk (by omega) hR
  obtain ⟨-, buf, hrun, hbuf⟩ := readReport_ending hend buf₁
  rw [Nat.zero_add] at hrun₁ hbuf₁
  refine ⟨hlen, buf, hrun₁.trans hrun, ?_⟩
  rw [hbuf, hbuf₁]
  rfl

theorem reading_splits (k : ℕ) (input : List ReadResult) (hk : k ≤ 31) :
    ∃ (bytes : List UInt8) (tail : List ReadResult), input = bytes.map .byte ++ tail ∧
      'R'.toUInt8 ∉ bytes ∧ ((∃ whole rest, Ending (k + bytes.length) tail whole rest) ∨
        tail = [] ∧ k + bytes.length < 31) := by
  induction input generalizing k with
  | nil =>
    refine ⟨[], [], rfl, List.not_mem_nil, ?_⟩
    rcases Nat.lt_or_eq_of_le hk with h | rfl
    · exact .inr ⟨rfl, h⟩
    · exact .inl ⟨false, [], .full []⟩
  | cons r input ih =>
    rcases Nat.lt_or_eq_of_le hk with h | rfl
    · by_cases hbyte : ∃ c, r = .byte c
      · obtain ⟨c, rfl⟩ := hbyte
        by_cases hR : c = 'R'.toUInt8
        · subst hR
          exact ⟨[], _, rfl, List.not_mem_nil, .inl ⟨true, input, .closed h input⟩⟩
        · obtain ⟨bytes, tail, rfl, hbytes, hend⟩ := ih (k + 1) h
          have hsum : k + 1 + bytes.length = k + (c :: bytes).length := by
            rw [List.length_cons]
            omega
          rw [hsum] at hend
          refine ⟨c :: bytes, tail, rfl, ?_, hend⟩
          exact fun hmem => (List.mem_cons.1 hmem).elim (fun h => hR h.symm) hbytes
      · exact ⟨[], _, rfl, List.not_mem_nil,
          .inl ⟨false, input, .silence h r (fun c hc => hbyte ⟨c, hc⟩) input⟩⟩
    · exact ⟨[], _, rfl, List.not_mem_nil, .inl ⟨false, _, .full _⟩⟩

theorem received_or_waiting (input : List ReadResult) :
    (∃ bytes whole rest, Received input bytes whole rest) ∨
      ∃ bytes : List UInt8, input = bytes.map .byte ∧ bytes.length < 31 ∧ 'R'.toUInt8 ∉ bytes := by
  obtain ⟨bytes, tail, rfl, hR, hend⟩ := reading_splits 0 input (by omega)
  rw [Nat.zero_add] at hend
  rcases hend with ⟨whole, rest, hend⟩ | ⟨rfl, hlen⟩
  · exact .inl ⟨bytes, whole, rest, tail, rfl, hR, hend⟩
  · exact .inr ⟨bytes, List.append_nil _, hlen, hR⟩

/-! ### What the two conversions accept -/

theorem separator_noDigit (t : List UInt8) : NoDigit (';'.toUInt8 :: t) :=
  noDigit_cons (by decide) t

theorem scanPair_eq {s : List UInt8} {rows cols r c : ℤ} :
    scanPair s rows cols = (2, r, c) ↔ ∃ (m n : Numeral) (tail : List UInt8),
      s = m.bytes ++ ';'.toUInt8 :: (n.bytes ++ tail) ∧ NoDigit tail ∧
        r = toInt m.value ∧ c = toInt n.value := by
  constructor
  · intro h
    have short : ∀ {k a b : ℤ}, k ≠ 2 → (k, a, b) ≠ (2, r, c) :=
      fun hk he => hk (congrArg Prod.fst he)
    unfold scanPair at h
    cases hm : scanInt s with
    | none =>
      rw [hm] at h
      exact absurd h (short (by split <;> decide))
    | some p =>
      obtain ⟨v, t⟩ := p
      rw [hm] at h
      obtain ⟨m, rfl, rfl, -⟩ := scanInt_eq_some.1 hm
      cases t with
      | nil => exact absurd h (short (by decide))
      | cons b t =>
        by_cases hb : b = ';'.toUInt8
        · simp only [if_pos hb] at h
          cases hn : scanInt t with
          | none =>
            rw [hn] at h
            exact absurd h (short (by decide))
          | some q =>
            obtain ⟨w, tail⟩ := q
            rw [hn] at h
            obtain ⟨n, rfl, rfl, htail⟩ := scanInt_eq_some.1 hn
            cases h
            exact ⟨m, n, tail, by rw [hb], htail, rfl, rfl⟩
        · simp only [if_neg hb] at h
          exact absurd h (short (by decide))
  · rintro ⟨m, n, tail, rfl, htail, rfl, rfl⟩
    unfold scanPair
    rw [scanInt_run m (separator_noDigit _)]
    simp only [if_pos]
    rw [scanInt_run n htail]

/-- Bytes that the conversions read as two numbers, whatever comes after them. -/
structure Loose (bytes : List UInt8) (m n : Numeral) (tail : List UInt8) : Prop where
  bytes_eq : bytes =
    escSeq :: '['.toUInt8 :: (m.bytes ++ ';'.toUInt8 :: (n.bytes ++ tail))
  noDigit : NoDigit tail

theorem pair_ne_zero (m n : Numeral) : ∀ b ∈ m.bytes ++ ';'.toUInt8 :: n.bytes, (b != 0) = true := by
  intro b hb
  rcases List.mem_append.1 hb with hb | hb
  · exact bne_iff_ne.2 (numeral_ne_zero m b hb)
  · rcases List.mem_cons.1 hb with rfl | hb
    · decide
    · exact bne_iff_ne.2 (numeral_ne_zero n b hb)

theorem scanPair_cut {text : List UInt8} {rows cols r c : ℤ} :
    scanPair (text.takeWhile (fun b => b != 0)) rows cols = (2, r, c) ↔
      ∃ (m n : Numeral) (tail : List UInt8),
        text = m.bytes ++ ';'.toUInt8 :: (n.bytes ++ tail) ∧ NoDigit tail ∧
          r = toInt m.value ∧ c = toInt n.value := by
  rw [scanPair_eq]
  constructor
  · rintro ⟨m, n, tail, htext, htail, hr, hc⟩
    refine ⟨m, n, tail ++ text.dropWhile (fun b => b != 0), ?_, ?_, hr, hc⟩
    · have hsplit := List.takeWhile_append_dropWhile (p := fun b => b != 0) (l := text)
      rw [htext] at hsplit
      simpa using hsplit.symm
    · intro b hb
      cases tail with
      | nil =>
        have hnot := List.head?_dropWhile_not (fun b => b != 0) text
        rw [List.nil_append] at hb
        rw [Option.mem_def.1 hb] at hnot
        obtain rfl : b = 0 := by simpa using hnot
        decide
      | cons d tail => exact htail b hb
  · rintro ⟨m, n, tail, rfl, htail, hr, hc⟩
    have hassoc : m.bytes ++ ';'.toUInt8 :: (n.bytes ++ tail) =
        (m.bytes ++ ';'.toUInt8 :: n.bytes) ++ tail := by simp
    refine ⟨m, n, tail.takeWhile (fun b => b != 0), ?_, noDigit_takeWhile htail _, hr, hc⟩
    rw [hassoc, List.takeWhile_append_of_pos (pair_ne_zero m n)]
    simp

/-! ### The result as a function of the bytes received -/

def answer (bytes : List UInt8) (rows cols : ℤ) : ℤ × ℤ × ℤ :=
  match bytes with
  | b0 :: b1 :: text =>
    if b0 ≠ escSeq ∨ b1 ≠ '['.toUInt8 then (-1, rows, cols)
    else
      let (count, r, c) := scanPair (text.takeWhile (fun b => b != 0)) rows cols
      (if count ≠ 2 then -1 else 0, r, c)
  | _ => (-1, rows, cols)

theorem load_list (buf : Buffer) (i : ℕ) : load buf (i : ℤ) = buf.toList[i]? := by
  by_cases h : i < 32
  · rw [load_coe buf ⟨i, h⟩, List.getElem?_eq_getElem (by simpa using h), Vector.getElem_toList]
    rfl
  · rw [load, slot, dif_neg (by omega), List.getElem?_eq_none (by simpa using h)]
    rfl

theorem takeWhile_nul (text after : List UInt8) :
    (text ++ 0 :: after).takeWhile (fun b => b != 0) = text.takeWhile (fun b => b != 0) := by
  induction text with
  | nil => rfl
  | cons b text ih =>
    rw [List.cons_append, List.takeWhile_cons, List.takeWhile_cons, ih]

theorem cString_list {buf : Buffer} {b0 b1 : UInt8} {text after : List UInt8}
    (h : buf.toList = b0 :: b1 :: text ++ 0 :: after) :
    cString buf 2 = some (text.takeWhile (fun b => b != 0)) := by
  have hdrop : buf.toList.drop 2 = text ++ 0 :: after := by
    rw [h]
    rfl
  rw [cString, hdrop, if_pos (List.mem_append_right _ List.mem_cons_self), takeWhile_nul]

theorem judge_answer {buf : Buffer} {bytes after : List UInt8} (h : buf.toList = bytes ++ 0 :: after)
    (rows cols : ℤ) (rest : List ReadResult) :
    judgeReport buf rows cols rest = .ok (answer bytes rows cols, rest) := by
  have hload0 : load buf 0 = (bytes ++ 0 :: after)[0]? := h ▸ load_list buf 0
  have hload1 : load buf 1 = (bytes ++ 0 :: after)[1]? := h ▸ load_list buf 1
  unfold judgeReport
  match bytes, h, hload0, hload1 with
  | [], _, hload0, _ =>
    obtain ⟨b1, hb1⟩ : ∃ b1, load buf 1 = some b1 := ⟨_, load_coe buf ⟨1, by omega⟩⟩
    rw [hload0, hb1]
    rfl
  | [b0], _, hload0, hload1 =>
    rw [hload0, hload1]
    change (if b0 ≠ escSeq ∨ (0 : UInt8) ≠ '['.toUInt8 then _ else _) = _
    rw [if_pos (.inr (by decide))]
    rfl
  | b0 :: b1 :: text, h, hload0, hload1 =>
    rw [hload0, hload1, cString_list h]
    change (if b0 ≠ escSeq ∨ b1 ≠ '['.toUInt8 then _ else _) = _
    by_cases hhead : b0 ≠ escSeq ∨ b1 ≠ '['.toUInt8
    · rw [if_pos hhead, answer, if_pos hhead]
      rfl
    · rw [if_neg hhead, answer, if_neg hhead]
      generalize hscan : scanPair (text.takeWhile (fun b => b != 0)) rows cols = result
      obtain ⟨count, r, c⟩ := result
      change (match scanPair (text.takeWhile (fun b => b != 0)) rows cols with
        | (count, rows, cols) => if count ≠ 2 then Except.ok ((-1, rows, cols), rest)
          else Except.ok ((0, rows, cols), rest)) = _
      rw [hscan]
      by_cases hcount : count ≠ 2
      · simp only [if_pos hcount]
      · simp only [if_neg hcount]

theorem getCursorPosition_received {input rest : List ReadResult} {bytes : List UInt8}
    {whole : Bool} (h : Received input bytes whole rest) (junk : Buffer) (rows cols : ℤ) :
    getCursorPosition cursorPos.length junk rows cols input =
      .ok (answer bytes rows cols, rest) := by
  obtain ⟨hlen, buf₁, hrun, hbuf₁⟩ := readReport_received h junk
  obtain ⟨buf, hstore, hbuf⟩ := store_next buf₁ (by omega : bytes.length < 32) 0
  rw [hbuf₁] at hbuf
  unfold getCursorPosition
  rw [if_neg (not_not.2 rfl), hrun]
  change (orStop Stop.fault (store buf₁ bytes.length 0) >>= _) = _
  rw [hstore]
  exact judge_answer hbuf rows cols rest

theorem getCursorPosition_waiting {bytes : List UInt8} (hlen : bytes.length < 31)
    (hR : 'R'.toUInt8 ∉ bytes) (junk : Buffer) (rows cols : ℤ) :
    getCursorPosition cursorPos.length junk rows cols (bytes.map .byte) = .error .waiting := by
  obtain ⟨buf, hrun, -⟩ := readReport_bytes bytes [] 0 junk (by omega) hR
  rw [List.append_nil] at hrun
  have hend : readReport [] (0 + bytes.length) buf = .error .waiting := by
    unfold readReport
    rw [if_pos (by omega)]
  unfold getCursorPosition
  rw [if_neg (not_not.2 rfl), hrun, hend]
  rfl

end Stage0.KiloReport
