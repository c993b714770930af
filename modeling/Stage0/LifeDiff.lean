import Mathlib
import Stage0.LifeRender

set_option autoImplicit false

/-!
# The diff stream of `life/main.c`

Each frame prints the cells whose state differs from the frame before, in the order
of the flat array, and the swap leaves the picture just drawn in the front buffer.
-/
namespace Stage0.LifeDiff
open BoundedLoops Script Terminal LifeBoard LifeUpdate LifeRender

def RowMajor (c d : Cell) : Prop := c.1 < d.1 ∨ c.1 = d.1 ∧ c.2 < d.2

theorem rowMajor_of_index {c d : Cell} (h : index c < index d) : RowMajor c d := by
  have hlt : ((index c : Fin size) : ℕ) < (index d : Fin size) := h
  have hc := index_val c
  have hd := index_val d
  have hcb := coord_bounds c
  have hdb := coord_bounds d
  simp only [coord_fst, coord_snd, boardCols] at hc hd hcb hdb
  by_cases hrow : ((c.1 : Fin boardRows) : ℕ) = d.1
  · refine .inr ⟨Fin.ext hrow, ?_⟩
    change ((c.2 : Fin boardCols) : ℕ) < d.2
    omega
  · refine .inl ?_
    change ((c.1 : Fin boardRows) : ℕ) < d.1
    omega

def allCells : List Cell := (List.finRange size).map index.symm

theorem mem_allCells (c : Cell) : c ∈ allCells :=
  List.mem_map.2 ⟨index c, List.mem_finRange _, index.symm_apply_apply c⟩

theorem allCells_rowMajor : allCells.Pairwise RowMajor := by
  refine List.pairwise_map.2 ((List.pairwise_lt_finRange size).imp ?_)
  intro i j hij
  apply rowMajor_of_index
  rwa [Equiv.apply_symm_apply, Equiv.apply_symm_apply]

def differing (old new : Cell → Bool) : List Cell :=
  allCells.filter (fun c => decide (new c ≠ old c))

theorem mem_differing {old new : Cell → Bool} {c : Cell} : c ∈ differing old new ↔ new c ≠ old c := by
  rw [differing, List.mem_filter, decide_eq_true_iff]
  exact and_iff_right (mem_allCells c)

theorem differing_rowMajor (old new : Cell → Bool) : (differing old new).Pairwise RowMajor :=
  allCells_rowMajor.filter _

/-- `printf("\033[%d;%dH%c", ...)` for the cell `c` of a board that shows `new`. -/
def cellWrite (new : Cell → Bool) (c : Cell) : List UInt8 :=
  printCell (((c.1 : ℕ) : ℤ) + 1) (((c.2 : ℕ) : ℤ) + 1) (if new c then 'X'.toUInt8 else '.'.toUInt8)

theorem changes_eq (old new : Cell → Bool) :
    changes old new = (differing old new).flatMap (cellWrite new) := by
  have hflat : changes old new = allCells.flatMap (change old new) := (List.flatMap_map _ _ _).symm
  rw [hflat, differing]
  generalize allCells = cells
  induction cells with
  | nil => rfl
  | cons c cells ih =>
    rw [List.flatMap_cons, List.filter_cons, ih, change]
    by_cases h : new c ≠ old c
    · rw [if_pos h, if_pos (decide_eq_true h), List.flatMap_cons, cellWrite, printCell_address]
      rfl
    · rw [if_neg h, if_neg (fun he => h (of_decide_eq_true he)), List.nil_append]

theorem endFrame_front {r : KeyRead} {s u : Render} (h : endFrame r s = .ok u) : u.front = s.back := by
  rw [endFrame] at h
  by_cases hch : readKey s.ch r = 27
  · simp only [if_pos hch] at h
    cases h
  · simp only [if_neg hch] at h
    obtain ⟨life, _, h⟩ := bind_eq_ok.1 h
    cases h
    rfl

/-- Every frame that is reached prints exactly the births and deaths since the frame before, once
each and in row-major order. It is reached as long as the escape key is not read, and what follows
the swap has its picture in the front buffer. -/
theorem frames_print_changes (board : Board) (hb : Binary board) (ch : UInt8) (reads : List KeyRead) :
    ((∃ s, frames reads (start board ch) = .ok s) ↔ Unescaped ch reads) ∧
    ∀ s, frames reads (start board ch) = .ok s →
    ∃ (u : Render) (cells : List Cell), drawFrame s = .ok u ∧
      live u.life.board = shown (live board) (reads.length + 1) ∧
      u.out = s.out ++ cells.flatMap (cellWrite (live u.life.board)) ∧
      cells.Pairwise RowMajor ∧
      (∀ c, c ∈ cells ↔
        shown (live board) (reads.length + 1) c ≠ shown (live board) reads.length c) ∧
      (∀ r, readKey u.ch r ≠ 27 → ∃ v, endFrame r u = .ok v) ∧
      ∀ r v, endFrame r u = .ok v → v.front = picture (shown (live board) (reads.length + 1)) := by
  have hstart := head_start (live board) ch
  rw [boardOf_live hb] at hstart
  refine ⟨frames_ok_iff hstart reads, fun s run => ?_⟩
  have hhead := frames_head hstart reads run
  rw [Nat.zero_add] at hhead
  have hlive : live s.life.board = shown (live board) (reads.length + 1) := by
    rw [hhead.board, live_boardOf]
  have hdraw := drawFrame_run hhead
  refine ⟨_, differing (shown (live board) reads.length) (shown (live board) (reads.length + 1)),
    hdraw, hlive, ?_, differing_rowMajor _ _, fun c => mem_differing, fun r hr => ?_, fun r v hend => ?_⟩
  · simp only [hlive, hhead.out, changes_eq]
  · obtain ⟨v, hv, -⟩ := frame_on hhead hr
    rw [frame, hdraw, ok_bind] at hv
    exact ⟨v, hv⟩
  · rw [endFrame_front hend]

/-- Two frames after the start: a key that is not the escape key, and no data. -/
theorem frames_print_changes_pentomino : ∃ (s u v : Render) (cells : List Cell),
    frames [.byte 'q'.toUInt8, .noData] (start (boardOf pentomino) 0) = .ok s ∧ drawFrame s = .ok u ∧
    u.out = s.out ++ cells.flatMap (cellWrite (live u.life.board)) ∧
    (∀ c, c ∈ cells ↔
      shown (live (boardOf pentomino)) 3 c ≠ shown (live (boardOf pentomino)) 2 c) ∧
    endFrame (.byte 'q'.toUInt8) u = .ok v ∧ v.front = picture (shown (live (boardOf pentomino)) 3) := by
  have hreads : Unescaped 0 [.byte 'q'.toUInt8, .noData] := unescaped_of_reads (by decide) (by decide)
  obtain ⟨hreached, hall⟩ := frames_print_changes (boardOf pentomino) (binary_boardOf pentomino) 0
    [.byte 'q'.toUInt8, .noData]
  obtain ⟨s, hs⟩ := hreached.2 hreads
  obtain ⟨u, cells, hdraw, -, hout, -, hcells, hnext, hfront⟩ := hall s hs
  obtain ⟨v, hv⟩ := hnext (.byte 'q'.toUInt8) (by change ('q'.toUInt8 : UInt8) ≠ 27; decide)
  exact ⟨s, u, v, cells, hs, hdraw, hout, hcells, hv, hfront _ _ hv⟩

end Stage0.LifeDiff
