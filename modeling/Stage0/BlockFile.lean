import Mathlib
import Stage0.ByteFile

set_option autoImplicit false

/-!
# Files of bytes under reads and writes of blocks

A block replaces the bytes from its position on; a gap before it reads as NUL bytes, and
an empty block leaves the file as it is.
-/
namespace Stage0.BlockFile
open ByteFile

def writeBlock (content : List UInt8) (off : ℕ) (bs : List UInt8) : List UInt8 :=
  if bs = [] then content
  else (content ++ List.replicate (off - content.length) 0).take off ++ bs ++
    content.drop (off + bs.length)

def readBlock (content : List UInt8) (off n : ℕ) : List UInt8 := (content.drop off).take n

@[simp] theorem writeBlock_nil (content : List UInt8) (off : ℕ) : writeBlock content off [] = content :=
  if_pos rfl

theorem writeBlock_end (content bs : List UInt8) :
    writeBlock content content.length bs = content ++ bs := by
  by_cases hbs : bs = []
  · rw [hbs, writeBlock_nil, List.append_nil]
  · rw [writeBlock, if_neg hbs, Nat.sub_self, List.replicate_zero, List.append_nil, List.take_length,
      List.drop_eq_nil_of_le (Nat.le_add_right _ _), List.append_nil]

theorem writeBlock_length {content bs : List UInt8} (off : ℕ) (hbs : bs ≠ []) :
    (writeBlock content off bs).length = max content.length (off + bs.length) := by
  rw [writeBlock, if_neg hbs]
  simp only [List.length_append, List.length_take, List.length_replicate, List.length_drop]
  omega

theorem writeBlock_get {content bs : List UInt8} (off : ℕ) (hbs : bs ≠ []) (i : ℕ) :
    (writeBlock content off bs)[i]? =
      if i < off then content[i]?.or (some 0)
      else if i < off + bs.length then bs[i - off]? else content[i]? := by
  have hhead : ((content ++ List.replicate (off - content.length) 0).take off).length = off := by
    rw [List.length_take, List.length_append, List.length_replicate]
    omega
  rw [writeBlock, if_neg hbs, List.append_assoc, List.getElem?_append, hhead]
  split
  · rename_i hi
    rw [List.getElem?_take, if_pos hi, List.getElem?_append, List.getElem?_replicate]
    split
    · rename_i hlt
      rw [List.getElem?_eq_getElem hlt, Option.some_or]
    · rename_i hge
      rw [List.getElem?_eq_none (l := content) (by omega), if_pos (by omega), Option.none_or]
  · rename_i hi
    rw [List.getElem?_append, List.getElem?_drop]
    by_cases hin : i < off + bs.length
    · rw [if_pos (by omega), if_pos hin]
    · rw [if_neg (by omega), if_neg hin]
      congr 1
      omega

theorem readBlock_get (content : List UInt8) (off n i : ℕ) :
    (readBlock content off n)[i]? = if i < n then content[off + i]? else none := by
  rw [readBlock, List.getElem?_take]
  split
  · rw [List.getElem?_drop]
  · rfl

theorem readBlock_length (content : List UInt8) (off n : ℕ) :
    (readBlock content off n).length = min n (content.length - off) := by
  rw [readBlock, List.length_take, List.length_drop]

/-! ### Many blocks -/

abbrev Block := ℕ × List UInt8

def writeBlocks (old : List UInt8) (blocks : List Block) : List UInt8 :=
  blocks.foldl (fun content b => writeBlock content b.1 b.2) old

def cover (i : ℕ) (b : Block) : Option UInt8 := if b.1 ≤ i then b.2[i - b.1]? else none

def lastWritten (blocks : List Block) (i : ℕ) : Option UInt8 := (blocks.filterMap (cover i)).getLast?

def extent (n : ℕ) (blocks : List Block) : ℕ :=
  blocks.foldl (fun n b => if b.2 = [] then n else max n (b.1 + b.2.length)) n

/-- The byte last written at a position, else the one that was there, else a NUL byte before the end. -/
def byteAt (old : List UInt8) (blocks : List Block) (i : ℕ) : Option UInt8 :=
  if i < extent old.length blocks then some ((lastWritten blocks i).getD (old.getD i 0)) else none

theorem lastWritten_append (blocks more : List Block) (i : ℕ) :
    lastWritten (blocks ++ more) i = (lastWritten more i).or (lastWritten blocks i) := by
  unfold lastWritten
  rw [List.filterMap_append, List.getLast?_append]

theorem lastWritten_concat (blocks : List Block) (b : Block) (i : ℕ) :
    lastWritten (blocks ++ [b]) i = (cover i b).or (lastWritten blocks i) := by
  rw [lastWritten_append]
  congr 1
  unfold lastWritten
  cases h : cover i b <;> simp [h]

theorem lastWritten_elsewhere {blocks : List Block} {i : ℕ}
    (h : ∀ b ∈ blocks, i < b.1 ∨ b.1 + b.2.length ≤ i) : lastWritten blocks i = none := by
  unfold lastWritten
  rw [List.getLast?_eq_none_iff, List.filterMap_eq_nil_iff]
  intro b hb
  rw [cover]
  split
  · exact List.getElem?_eq_none (by have hout := h b hb; omega)
  · rfl

theorem extent_concat (n : ℕ) (blocks : List Block) (b : Block) :
    extent n (blocks ++ [b]) =
      if b.2 = [] then extent n blocks else max (extent n blocks) (b.1 + b.2.length) :=
  List.foldl_concat _ _ _ _

theorem le_extent (n : ℕ) (blocks : List Block) : n ≤ extent n blocks := by
  induction blocks using List.reverseRecOn with
  | nil => exact le_rfl
  | append_singleton blocks b ih =>
    rw [extent_concat]
    split
    · exact ih
    · omega

theorem lastWritten_behind {n i : ℕ} {blocks : List Block} (h : extent n blocks ≤ i) :
    lastWritten blocks i = none := by
  induction blocks using List.reverseRecOn with
  | nil => rfl
  | append_singleton blocks b ih =>
    rw [extent_concat] at h
    have hnone : cover i b = none := by
      unfold cover
      split
      · apply List.getElem?_eq_none
        split at h
        · rename_i hb
          rw [hb]
          exact Nat.zero_le _
        · omega
      · rfl
    rw [lastWritten_concat, hnone, Option.none_or]
    apply ih
    split at h
    · exact h
    · omega

theorem writeBlocks_concat (old : List UInt8) (blocks : List Block) (b : Block) :
    writeBlocks old (blocks ++ [b]) = writeBlock (writeBlocks old blocks) b.1 b.2 :=
  List.foldl_concat _ _ _ _

theorem writeBlocks_length (old : List UInt8) (blocks : List Block) :
    (writeBlocks old blocks).length = extent old.length blocks := by
  induction blocks using List.reverseRecOn with
  | nil => rfl
  | append_singleton blocks b ih =>
    rw [writeBlocks_concat, extent_concat]
    split
    · rename_i hb
      rw [hb, writeBlock_nil, ih]
    · rename_i hb
      rw [writeBlock_length _ hb, ih]

/-- A file after any writes: the last one counts. -/
theorem writeBlocks_get (old : List UInt8) (blocks : List Block) (i : ℕ) :
    (writeBlocks old blocks)[i]? = byteAt old blocks i := by
  induction blocks using List.reverseRecOn with
  | nil =>
    change old[i]? = if i < old.length then some (old.getD i 0) else none
    split
    · rename_i hi
      rw [List.getElem?_eq_getElem hi, List.getD_eq_getElem _ _ hi]
    · rename_i hi
      exact List.getElem?_eq_none (by omega)
  | append_singleton blocks b ih =>
    obtain ⟨off, bs⟩ := b
    have hlen := writeBlocks_length old blocks
    rw [writeBlocks_concat, byteAt, lastWritten_concat, extent_concat, cover]
    by_cases hbs : bs = []
    · simp only [hbs, writeBlock_nil, if_true, List.getElem?_nil, ite_self, Option.none_or]
      exact ih
    · simp only [if_neg hbs]
      rw [writeBlock_get off hbs, ih, byteAt]
      by_cases hlow : i < off
      · rw [if_pos hlow, if_pos (show i < max _ (off + bs.length) by omega), if_neg (not_le.2 hlow),
          Option.none_or]
        split
        · rfl
        · rename_i hend
          have hold : old.length ≤ i := (le_extent _ blocks).trans (by omega)
          rw [lastWritten_behind (not_lt.1 hend), Option.none_or, Option.getD_none, List.getD_eq_default _ _ hold]
      · rw [if_neg hlow, if_pos (not_lt.1 hlow)]
        by_cases hin : i < off + bs.length
        · rw [if_pos hin, if_pos (show i < max _ (off + bs.length) by omega),
            List.getElem?_eq_getElem (by omega), Option.some_or, Option.getD_some]
        · rw [if_neg hin, List.getElem?_eq_none (by omega), Option.none_or]
          have hmax : i < max (extent old.length blocks) (off + bs.length) ↔ i < extent old.length blocks := by
            omega
          simp only [hmax]

/-- `write` of a block: the new description and the new content. -/
def put (fd : Description) (content bs : List UInt8) : Description × List UInt8 :=
  if bs = [] then (fd, content)
  else
    let pos := if fd.append then content.length else fd.offset
    ({ fd with offset := pos + bs.length }, writeBlock content pos bs)

def get (fd : Description) (content : List UInt8) (n : ℕ) : List UInt8 × Description :=
  let bs := readBlock content fd.offset n
  (bs, { fd with offset := fd.offset + bs.length })

theorem put_flag (fd : Description) (content bs : List UInt8) : (put fd content bs).1.append = fd.append := by
  unfold put
  split <;> rfl

theorem put_append {fd : Description} (h : fd.append = true) (content bs : List UInt8) :
    (put fd content bs).2 = content ++ bs := by
  unfold put
  split
  · rename_i hbs
    rw [hbs, List.append_nil]
  · simp only [writeBlock_end]

theorem put_over {fd : Description} (h : fd.append = false) (content bs : List UInt8) :
    put fd content bs = ({ fd with offset := fd.offset + bs.length }, writeBlock content fd.offset bs) := by
  unfold put
  split
  · rename_i hbs
    rw [hbs, writeBlock_nil]
    rfl
  · simp only [h, Bool.false_eq_true, if_false]

end Stage0.BlockFile
