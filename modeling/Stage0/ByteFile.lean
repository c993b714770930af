import Mathlib

set_option autoImplicit false

/-!
# Files of bytes under single-byte writes

A write beyond the end leaves a gap that reads as NUL bytes. An open file
description has an offset; one opened for appending moves it to the end before
every write.
-/
namespace Stage0.ByteFile

def writeAt (content : List UInt8) (off : ℕ) (b : UInt8) : List UInt8 :=
  if off < content.length then content.set off b
  else content ++ List.replicate (off - content.length) 0 ++ [b]

theorem writeAt_length (content : List UInt8) (off : ℕ) (b : UInt8) :
    (writeAt content off b).length = max content.length (off + 1) := by
  unfold writeAt
  split
  · rw [List.length_set]
    omega
  · simp only [List.length_append, List.length_replicate, List.length_singleton]
    omega

/-- What a file reads as at `i` when only the length `len` is known to be reached. -/
def gap (len i : ℕ) : Option UInt8 := if i < len then some 0 else none

theorem writeAt_get (content : List UInt8) (off : ℕ) (b : UInt8) (i : ℕ) :
    (writeAt content off b)[i]? = if i = off then some b else content[i]?.or (gap off i) := by
  unfold writeAt gap
  by_cases hl : i < content.length
  · have hsome : content[i]?.or (if i < off then some 0 else none) = content[i]? := by
      rw [List.getElem?_eq_getElem hl, Option.some_or]
    rw [hsome]
    split
    · rw [List.getElem?_set]
      by_cases hi : off = i
      · rw [if_pos hi, if_pos hi.symm, if_pos (by omega)]
      · rw [if_neg hi, if_neg (Ne.symm hi)]
    · rw [if_neg (by omega), List.append_assoc, List.getElem?_append_left hl]
  · rw [List.getElem?_eq_none (l := content) (by omega), Option.none_or]
    split
    · rw [List.getElem?_eq_none (by rw [List.length_set]; omega), if_neg (by omega),
        if_neg (by omega)]
    · rw [List.append_assoc, List.getElem?_append_right (by omega), List.getElem?_append,
        List.length_replicate, List.getElem?_replicate]
      rcases Nat.lt_trichotomy i off with hi | hi | hi
      · rw [if_pos (by omega), if_pos (by omega), if_neg (by omega), if_pos hi]
      · rw [if_neg (by omega), if_pos hi, show i - content.length - (off - content.length) = 0 by omega]
        rfl
      · rw [if_neg (by omega), if_neg (by omega), if_neg (by omega)]
        exact List.getElem?_eq_none (by rw [List.length_singleton]; omega)

theorem writeAt_take (content : List UInt8) {off n : ℕ} (b : UInt8) (h : n ≤ off)
    (hn : n ≤ content.length) : (writeAt content off b).take n = content.take n := by
  apply List.ext_getElem?
  intro i
  rw [List.getElem?_take, List.getElem?_take]
  by_cases hi : i < n
  · have hin : i < content.length := by omega
    rw [if_pos hi, if_pos hi, writeAt_get, if_neg (by omega), List.getElem?_eq_getElem hin,
      Option.some_or]
  · rw [if_neg hi, if_neg hi]

/-- An open file description: its offset and whether it was opened with `O_APPEND`. -/
structure Description where
  offset : ℕ
  append : Bool
  deriving DecidableEq, Repr

/-- `write(fd, &b, 1)`: the position written, the new description and the new content. -/
def Description.write (fd : Description) (content : List UInt8) (b : UInt8) :
    ℕ × Description × List UInt8 :=
  let pos := if fd.append then content.length else fd.offset
  (pos, { fd with offset := pos + 1 }, writeAt content pos b)

/-- `read(fd, &b, 1)`; no byte at the end of the file. -/
def Description.read (fd : Description) (content : List UInt8) : Option UInt8 × Description :=
  match content[fd.offset]? with
  | some b => (some b, { fd with offset := fd.offset + 1 })
  | none => (none, fd)

theorem read_some {fd : Description} {content : List UInt8} {b : UInt8}
    (h : content[fd.offset]? = some b) :
    fd.read content = (some b, { fd with offset := fd.offset + 1 }) := by
  simp only [Description.read, h]

theorem read_none {fd : Description} {content : List UInt8} (h : content[fd.offset]? = none) :
    fd.read content = (none, fd) := by
  simp only [Description.read, h]

/-! ### Sequences of writes -/

def applyWrites (content : List UInt8) (writes : List (ℕ × UInt8)) : List UInt8 :=
  writes.foldl (fun content w => writeAt content w.1 w.2) content

theorem applyWrites_append (content : List UInt8) (ws : List (ℕ × UInt8)) (w : ℕ × UInt8) :
    applyWrites content (ws ++ [w]) = writeAt (applyWrites content ws) w.1 w.2 :=
  List.foldl_concat _ _ _ _

def dataWrites (data : List UInt8) : List (ℕ × UInt8) :=
  (data.zipIdx.filter (fun p => decide (p.1 ≠ 0))).map Prod.swap

/-- The length without the run of NUL bytes at the end. -/
def dataEnd (data : List UInt8) : ℕ := (data.rdropWhile (fun b => decide (b = 0))).length

theorem dataWrites_concat (data : List UInt8) (b : UInt8) :
    dataWrites (data ++ [b]) = dataWrites data ++ (if b = 0 then [] else [(data.length, b)]) := by
  rw [dataWrites, List.zipIdx_append, List.filter_append, List.map_append]
  congr 1
  by_cases hb : b = 0 <;> simp [hb]

theorem mem_dataWrites (data : List UInt8) (i : ℕ) (b : UInt8) :
    (i, b) ∈ dataWrites data ↔ data[i]? = some b ∧ b ≠ 0 := by
  rw [dataWrites, List.mem_map]
  constructor
  · rintro ⟨⟨c, j⟩, hmem, hswap⟩
    cases hswap
    obtain ⟨hget, hne⟩ := List.mem_filter.1 hmem
    exact ⟨List.mem_zipIdx_iff_getElem?.1 hget, of_decide_eq_true hne⟩
  · rintro ⟨hget, hne⟩
    exact ⟨(b, i), List.mem_filter.2 ⟨List.mem_zipIdx_iff_getElem?.2 hget, decide_eq_true hne⟩, rfl⟩

theorem dataWrites_increasing (data : List UInt8) :
    (dataWrites data).Pairwise (fun v w => v.1 < w.1) := by
  have hindex : data.zipIdx.Pairwise (fun p q => p.2 < q.2) := by
    refine List.pairwise_map.1 ?_
    rw [List.zipIdx_map_snd]
    exact List.pairwise_lt_range'
  exact List.pairwise_map.2 (hindex.filter _)

theorem dataEnd_concat (data : List UInt8) (b : UInt8) :
    dataEnd (data ++ [b]) = if b = 0 then dataEnd data else data.length + 1 := by
  by_cases hb : b = 0 <;> simp [dataEnd, hb]

theorem dataEnd_le (data : List UInt8) : dataEnd data ≤ data.length :=
  (List.rdropWhile_prefix _ _).length_le

theorem dataEnd_eq_length_iff (data : List UInt8) :
    dataEnd data = data.length ↔ data.getLast? ≠ some 0 := by
  induction data using List.reverseRecOn with
  | nil => simp [dataEnd]
  | append_singleton data b _ =>
    rw [dataEnd_concat, List.getLast?_concat, List.length_append, List.length_singleton]
    have hle := dataEnd_le data
    by_cases hb : b = 0
    · simp [hb]
      omega
    · simp [hb]

theorem applyWrites_length (old data : List UInt8) :
    (applyWrites old (dataWrites data)).length = max old.length (dataEnd data) := by
  induction data using List.reverseRecOn with
  | nil => simp [applyWrites, dataWrites, dataEnd]
  | append_singleton data b ih =>
    have hle := dataEnd_le data
    rw [dataWrites_concat, dataEnd_concat]
    by_cases hb : b = 0
    · simp only [hb, if_true, List.append_nil, ih]
    · simp only [hb, if_false, applyWrites_append, writeAt_length, ih]
      omega

def nonNul (c : Option UInt8) : Option UInt8 := c.filter (fun b => decide (b ≠ 0))

@[simp] theorem nonNul_none : nonNul none = none := rfl
@[simp] theorem nonNul_zero : nonNul (some 0) = none := rfl

theorem nonNul_some {b : UInt8} (h : b ≠ 0) : nonNul (some b) = some b := by
  rw [nonNul, Option.filter, if_pos (decide_eq_true h)]

theorem applyWrites_get (old data : List UInt8) (i : ℕ) :
    (applyWrites old (dataWrites data))[i]? =
      (nonNul data[i]?).or (old[i]?.or (gap (dataEnd data) i)) := by
  induction data using List.reverseRecOn with
  | nil =>
    have hgap : gap (dataEnd []) i = none := if_neg (by simp [dataEnd])
    rw [hgap]
    simp [applyWrites, dataWrites]
  | append_singleton data b ih =>
    rw [dataWrites_concat, dataEnd_concat]
    by_cases hb : b = 0
    · have hcell : nonNul (data ++ [b])[i]? = nonNul data[i]? := by
        rw [List.getElem?_append]
        split
        · rfl
        · rename_i hi
          rw [List.getElem?_eq_none (l := data) (by omega)]
          cases h : [b][i - data.length]? with
          | none => rfl
          | some c =>
            have hc : c ∈ [b] := List.mem_of_getElem? h
            rw [List.mem_singleton.1 hc, hb]
            rfl
      rw [if_pos hb, if_pos hb, List.append_nil, ih, hcell]
    · rw [if_neg hb, if_neg hb, applyWrites_append, writeAt_get, ih]
      rcases Nat.lt_trichotomy i data.length with hi | hi | hi
      · have hgap : gap (data.length + 1) i = some 0 := if_pos (by omega)
        have hgap' : gap data.length i = some 0 := if_pos hi
        have hfill : (gap (dataEnd data) i).or (some 0) = some 0 := by
          unfold gap
          split <;> rfl
        rw [if_neg (by omega), List.getElem?_append_left hi, hgap, hgap', Option.or_assoc,
          Option.or_assoc, hfill]
      · subst i
        rw [if_pos rfl, List.getElem?_concat_length, nonNul_some hb, Option.some_or]
      · have hgap : gap (data.length + 1) i = none := if_neg (by omega)
        have hgap' : gap data.length i = none := if_neg (by omega)
        have hend : gap (dataEnd data) i = none := if_neg (by have hle := dataEnd_le data; omega)
        rw [if_neg (by omega), List.getElem?_eq_none (l := data) (by omega),
          List.getElem?_eq_none (l := data ++ [b]) (by simp; omega), hgap, hgap', hend, Option.or_none]

/-! ### Successive writes from a fresh description -/

/-- The content after `bs` was written to a file that held `old` when it was opened. -/
def written (append : Bool) (old bs : List UInt8) : List UInt8 :=
  if append then old ++ bs else bs ++ old.drop bs.length

theorem writeAt_end (content : List UInt8) (b : UInt8) :
    writeAt content content.length b = content ++ [b] := by
  rw [writeAt, if_neg (lt_irrefl _), Nat.sub_self, List.replicate_zero, List.append_nil]

theorem writeAt_over (bs rest : List UInt8) (b : UInt8) :
    writeAt (bs ++ rest) bs.length b = bs ++ [b] ++ rest.tail := by
  cases rest with
  | nil => rw [List.append_nil, writeAt_end, List.tail_nil, List.append_nil]
  | cons c rest =>
    rw [writeAt, if_pos (by rw [List.length_append, List.length_cons]; omega),
      List.set_append_right _ _ (le_refl _), Nat.sub_self, List.set_cons_zero, List.append_assoc]
    rfl

theorem written_write {append : Bool} {old bs : List UInt8} {fd : Description}
    (happend : fd.append = append) (hoffset : append = false → fd.offset = bs.length) (b : UInt8) :
    ∃ pos, fd.write (written append old bs) b =
      (pos, ⟨pos + 1, append⟩, written append old (bs ++ [b])) ∧
        (append = false → pos = bs.length) := by
  obtain ⟨offset, append'⟩ := fd
  simp only at happend hoffset
  subst append'
  cases append with
  | false =>
    obtain rfl := hoffset rfl
    refine ⟨bs.length, ?_, fun _ => rfl⟩
    simp only [Description.write, written, Bool.false_eq_true, if_false]
    rw [writeAt_over, List.tail_drop, List.length_append, List.length_singleton]
  | true =>
    refine ⟨(old ++ bs).length, ?_, fun h => by cases h⟩
    simp only [Description.write, written, if_true]
    rw [writeAt_end, List.append_assoc]

theorem written_eq_iff (old bs : List UInt8) :
    written false old bs = bs ↔ old.length ≤ bs.length := by
  rw [written, if_neg Bool.false_ne_true, List.append_right_eq_self, List.drop_eq_nil_iff]

end Stage0.ByteFile
