import Mathlib
import Stage0.AutomatonSpread
import Stage0.LifePlane
import Stage0.LifeUnion

set_option autoImplicit false

/-!
# Mirrored, distant and shifted patterns

A live cell moves its neighbourhood by one cell in a generation at most. So a cell does
not depend on what is further away than the number of generations, and away from the
edges a pattern evolves alike wherever it stands.
-/
namespace Stage0.LifeSpread
open BoundedLoops Automaton AutomatonSpread LifeBoard LifeUpdate LifePlane LifeUnion

/-! ### Mirrored boards -/

def flip (turned : Bool) (k : ℕ) : Equiv.Perm (Fin k) := if turned then Fin.revPerm else Equiv.refl _

theorem flip_distance (turned : Bool) {k : ℕ} (i j : Fin k) :
    |((flip turned k i : ℕ) : ℤ) - ((flip turned k j : ℕ) : ℤ)| = |((i : ℕ) : ℤ) - ((j : ℕ) : ℤ)| := by
  cases turned with
  | false => rfl
  | true =>
    have hrev : ∀ i : Fin k, ((flip true k i : ℕ) : ℤ) = k - 1 - (i : ℕ) := by
      intro i
      change ((Fin.rev i : ℕ) : ℤ) = _
      rw [Fin.val_rev]
      have hi := i.isLt
      omega
    rw [hrev, hrev, ← abs_neg]
    congr 1
    ring

def mirror (upDown leftRight : Bool) : Cell ≃ Cell :=
  Equiv.prodCongr (flip upDown boardRows) (flip leftRight boardCols)

/-- The board turned upside down, left to right, or both. -/
def mirrored (upDown leftRight : Bool) (board : Board) : Board :=
  Vector.ofFn (fun j => board.get (index (mirror upDown leftRight (index.symm j))))

@[simp] theorem get_mirrored (upDown leftRight : Bool) (board : Board) (c : Cell) :
    (mirrored upDown leftRight board).get (index c) =
      board.get (index (mirror upDown leftRight c)) := by
  simp [mirrored, Vector.get_eq_getElem]

theorem chebyshev_mirror (upDown leftRight : Bool) (c d : Cell) :
    chebyshev (coord (mirror upDown leftRight c)) (coord (mirror upDown leftRight d)) =
      chebyshev (coord c) (coord d) := by
  have hrows := flip_distance upDown c.1 d.1
  have hcols := flip_distance leftRight c.2 d.2
  exact congrArg₂ max hrows hcols

theorem live_mirrored (upDown leftRight : Bool) (board : Board) :
    live (mirrored upDown leftRight board) = live board ∘ mirror upDown leftRight := by
  funext c
  simp only [live, get_mirrored, Function.comp_apply]

theorem mirrored_boardOf (upDown leftRight : Bool) (s : Cell → Bool) :
    mirrored upDown leftRight (boardOf s) = boardOf (s ∘ mirror upDown leftRight) := by
  apply ext_get
  intro j
  obtain ⟨c, rfl⟩ := index.surjective j
  rw [get_mirrored, get_boardOf, get_boardOf, Equiv.symm_apply_apply, Equiv.symm_apply_apply]
  rfl

theorem population_comp (σ : Cell ≃ Cell) (s : Cell → Bool) : population (s ∘ σ) = population s := by
  rw [population, population]
  apply Finset.card_bij (fun c _ => σ c)
  · intro c hc
    simpa using hc
  · intro c _ d _ h
    exact σ.injective h
  · intro d hd
    exact ⟨σ.symm d, by simpa using hd, σ.apply_symm_apply d⟩

/-- A mirrored board evolves into the mirrored generation, with as many living cells. -/
theorem updates_mirrored (start : Life) (hb : Binary start.board) (upDown leftRight : Bool) (n : ℕ) :
    ∃ l, updates n start = some l ∧
      updates n ⟨mirrored upDown leftRight start.board, start.livingCells⟩ =
        some ⟨mirrored upDown leftRight l.board, l.livingCells⟩ := by
  have hmirror : Binary (mirrored upDown leftRight start.board) := by
    intro c
    rw [get_mirrored]
    exact hb _
  have hgen : generation neighbours lifeRule n (live start.board ∘ mirror upDown leftRight) =
      generation neighbours lifeRule n (live start.board) ∘ mirror upDown leftRight := by
    apply generation_comp
    intro c d
    rw [mem_neighbours, mem_neighbours, chebyshev_mirror]
  obtain ⟨living, hrun, hliving⟩ := updates_run hb n
  obtain ⟨living', hrun', hliving'⟩ :=
    @updates_run ⟨mirrored upDown leftRight start.board, start.livingCells⟩ hmirror n
  rw [live_mirrored, hgen] at hrun' hliving'
  refine ⟨_, hrun, ?_⟩
  rw [hrun', mirrored_boardOf]
  cases n with
  | zero =>
    obtain rfl := (Life.mk.inj (Option.some.inj hrun)).2
    obtain rfl := (Life.mk.inj (Option.some.inj hrun')).2
    rfl
  | succ n =>
    rw [hliving (by omega), hliving' (by omega), population_comp]

/-! ### What a cell sees -/

theorem ball_distance {n : ℕ} {c d : Cell} (h : d ∈ ball neighbours n c) :
    chebyshev (coord c) (coord d) ≤ n := by
  induction n generalizing c with
  | zero =>
    obtain rfl : d = c := h
    rw [chebyshev_le_iff]
    omega
  | succ n ih =>
    rcases h with h | ⟨e, he, h⟩
    · have hn := ih h
      rw [chebyshev_le_iff] at hn ⊢
      omega
    · have hn := ih h
      have hnear := (chebyshev_eq_one_iff _ _).1 (mem_neighbours.1 he)
      rw [chebyshev_le_iff] at hn ⊢
      omega

theorem live_eq_true {board : Board} {c : Cell} : live board c = true ↔ board.get (index c) = 1 :=
  decide_eq_true_iff

theorem live_agree {a b : Board} (ha : Binary a) (hb : Binary b) (c : Cell) :
    live a c = live b c ↔ a.get (index c) = b.get (index c) := by
  rcases ha c with h | h <;> rcases hb c with h' | h' <;> simp [live, h, h']

/-- After `n` calls of `update` a cell depends on the cells up to `n` away only, and it is alive
only if one of them was. -/
theorem updates_local (a b : Life) (ha : Binary a.board) (hb : Binary b.board) (n : ℕ) (c : Cell)
    (agree : ∀ d, chebyshev (coord c) (coord d) ≤ n →
      a.board.get (index d) = b.board.get (index d)) :
    ∃ a' b', updates n a = some a' ∧ updates n b = some b' ∧
      a'.board.get (index c) = b'.board.get (index c) ∧
      (a'.board.get (index c) = 1 →
        ∃ d, chebyshev (coord c) (coord d) ≤ n ∧ a.board.get (index d) = 1) := by
  obtain ⟨l, hl, -⟩ := updates_run ha n
  obtain ⟨m, hm, -⟩ := updates_run hb n
  have hsame : generation neighbours lifeRule n (live a.board) c =
      generation neighbours lifeRule n (live b.board) c := by
    apply generation_congr
    intro d hd
    exact (live_agree ha hb d).2 (agree d (ball_distance hd))
  refine ⟨_, _, hl, hm, ?_, ?_⟩
  · rw [get_boardOf, get_boardOf, Equiv.symm_apply_apply, hsame]
  · intro h
    rw [← live_eq_true, live_boardOf] at h
    obtain ⟨d, hd, hlive⟩ := generation_live rfl h
    exact ⟨d, ball_distance hd, live_eq_true.1 hlive⟩

/-! ### Shifted patterns -/

/-- Position `p` is on the board, and `n` cells or more away from every edge. -/
def Room (n : ℕ) (p : ℤ × ℤ) : Prop :=
  n ≤ p.1 ∧ p.1 + n < boardRows ∧ n ≤ p.2 ∧ p.2 + n < boardCols

instance (n : ℕ) (p : ℤ × ℤ) : Decidable (Room n p) := inferInstanceAs (Decidable (_ ∧ _))

/-- The board moved down by `down` and to the right by `right`, with dead cells moved in. -/
def shifted (down right : ℤ) (board : Board) : Board :=
  Vector.ofFn (fun j =>
    let row := (coord (index.symm j)).1 - down
    let col := (coord (index.symm j)).2 - right
    if Room 0 (row, col) then (load board (row * boardCols + col)).getD 0 else 0)

theorem room_zero {p : ℤ × ℤ} : Room 0 p ↔ p ∈ Set.range coord := by
  rw [mem_range_coord, Room]
  omega

def translation (down right : ℤ) : ℤ × ℤ ≃ ℤ × ℤ := Equiv.addRight (-down, -right)

theorem translation_apply (down right : ℤ) (p : ℤ × ℤ) :
    translation down right p = (p.1 - down, p.2 - right) := rfl

theorem shifted_boardOf (down right : ℤ) (s : Cell → Bool) : shifted down right (boardOf s) =
    boardOf (fun c => surround coord s (translation down right (coord c))) := by
  apply ext_get
  intro j
  obtain ⟨c, rfl⟩ := index.surjective j
  rw [get_boardOf, shifted, Vector.get_eq_getElem, Vector.getElem_ofFn]
  simp only [Fin.eta, Equiv.symm_apply_apply, translation_apply]
  generalize (coord c).1 - down = row
  generalize (coord c).2 - right = col
  split
  · rename_i hroom
    obtain ⟨d, hd⟩ := room_zero.1 hroom
    have hload := load_cell (boardOf s) d
    rw [← hd, surround_apply]
    rw [hd] at hload
    rw [hload, Option.getD_some, get_boardOf, Equiv.symm_apply_apply]
  · rename_i hroom
    rw [surround_outside coord s (fun h => hroom (room_zero.2 h))]
    rfl

def Roomy (n : ℕ) (s : Cell → Bool) : Prop := ∀ c, s c = true → Room n (coord c)

theorem generation_roomy {s : Cell → Bool} {k m : ℕ} (h : Roomy (k + m) s) :
    Roomy m (generation neighbours lifeRule k s) := by
  intro c hc
  obtain ⟨d, hd, hlive⟩ := generation_live rfl hc
  have hroom := h d hlive
  have hdist := ball_distance hd
  rw [chebyshev_le_iff] at hdist
  unfold Room at hroom ⊢
  push_cast at hroom
  omega

theorem roomy_interior {s : Cell → Bool} {n : ℕ} (h : Roomy n s) : ∀ k < n,
    Interior coord planeNeighbours (generation neighbours lifeRule k s) := by
  intro k hk
  obtain ⟨m, rfl⟩ : ∃ m, n = k + (m + 1) := ⟨n - k - 1, by omega⟩
  apply interior_of_border
  intro c hc
  refine Bool.eq_false_of_not_eq_true fun hlive => ?_
  have hroom := generation_roomy h c hlive
  unfold Room at hroom
  unfold OnBorder at hc
  rw [coord_fst, coord_snd] at hroom
  omega

theorem generation_plane {s : Cell → Bool} {n : ℕ} (h : Roomy n s) :
    generation planeNeighbours lifeRule n (surround coord s) =
      surround coord (generation neighbours lifeRule n s) :=
  generation_surround coord neighbours_clip rfl s n (roomy_interior h)

theorem generation_translated (down right : ℤ) (n : ℕ) (f : ℤ × ℤ → Bool) :
    generation planeNeighbours lifeRule n (f ∘ translation down right) =
      generation planeNeighbours lifeRule n f ∘ translation down right := by
  apply generation_comp
  intro p q
  rw [mem_planeNeighbours, mem_planeNeighbours, translation_apply, translation_apply, chebyshev,
    chebyshev, sub_sub_sub_cancel_right, sub_sub_sub_cancel_right]

theorem population_plane (s : Cell → Bool) :
    population s = {p | surround coord s p = true}.ncard := by
  have himage : {p | surround coord s p = true} =
      ((Finset.univ.filter (fun c => s c = true)).map coord : Finset (ℤ × ℤ)) := by
    ext p
    simp only [Set.mem_ofPred_eq, Finset.coe_map, Finset.coe_filter, Finset.mem_univ, true_and,
      Set.mem_image]
    constructor
    · intro h
      obtain ⟨c, rfl, hc⟩ := surround_live coord h
      exact ⟨c, hc, rfl⟩
    · rintro ⟨c, hc, rfl⟩
      rw [surround_apply]
      exact hc
  rw [himage, Set.ncard_coe_finset, Finset.card_map, population]

section Shift

variable {down right : ℤ} {s t : Cell → Bool}

/-- The pattern `t` stands on the board as `s` does, shifted. -/
def Shifted (down right : ℤ) (s t : Cell → Bool) : Prop :=
  surround coord t = surround coord s ∘ translation down right

theorem shifted_population (h : Shifted down right s t) : population t = population s := by
  have himage : {p | surround coord t p = true} =
      (translation down right).symm '' {p | surround coord s p = true} := by
    rw [h, Equiv.image_symm_eq_preimage]
    rfl
  rw [population_plane, population_plane, himage,
    Set.ncard_image_of_injective _ (translation down right).symm.injective]

theorem shifted_eq (h : Shifted down right s t) :
    boardOf t = shifted down right (boardOf s) := by
  rw [shifted_boardOf]
  congr 1
  funext c
  rw [← surround_apply coord t c, h]
  rfl

/-- `s` shifted, without the cells that leave the board. -/
noncomputable def moved (down right : ℤ) (s : Cell → Bool) : Cell → Bool :=
  fun c => surround coord s (translation down right (coord c))

theorem moved_live {c : Cell} (h : moved down right s c = true) :
    ∃ d, s d = true ∧ coord c = ((coord d).1 + down, (coord d).2 + right) := by
  obtain ⟨d, hd, hlive⟩ := surround_live coord h
  refine ⟨d, hlive, ?_⟩
  rw [hd, translation_apply, sub_add_cancel, sub_add_cancel]

theorem moved_shifted (hroom : ∀ c, s c = true → Room 0 ((coord c).1 + down, (coord c).2 + right)) :
    Shifted down right s (moved down right s) := by
  have houtside : ∀ p, p ∉ Set.range coord →
      (surround coord s ∘ translation down right) p = false := by
    intro p hp
    refine Bool.eq_false_of_not_eq_true fun hlive => hp ?_
    obtain ⟨c, hc, hs⟩ := surround_live coord hlive
    have hin := room_zero.1 (hroom c hs)
    rwa [hc, translation_apply, sub_add_cancel, sub_add_cancel] at hin
  exact (eq_surround coord (fun c => rfl) houtside).symm

theorem shifted_generation {n : ℕ} (h : Shifted down right s t) (hs : Roomy n s) (ht : Roomy n t) :
    Shifted down right (generation neighbours lifeRule n s) (generation neighbours lifeRule n t) := by
  rw [Shifted, ← generation_plane ht, ← generation_plane hs, h, generation_translated]

end Shift

/-- A pattern evolves alike wherever it stands, for as many generations as it has room for. -/
theorem updates_shifted (start : Life) (hb : Binary start.board) (down right : ℤ) (n : ℕ)
    (room : ∀ c, start.board.get (index c) = 1 →
      Room n (coord c) ∧ Room n ((coord c).1 + down, (coord c).2 + right)) :
    ∃ l, updates n start = some l ∧
      updates n ⟨shifted down right start.board, start.livingCells⟩ =
        some ⟨shifted down right l.board, l.livingCells⟩ := by
  let s := live start.board
  have hroomy : Roomy n s := fun c hc => (room c (live_eq_true.1 hc)).1
  have hmoved : Roomy n (moved down right s) := by
    intro c hc
    obtain ⟨d, hd, hcd⟩ := moved_live hc
    rw [hcd]
    exact (room d (live_eq_true.1 hd)).2
  have hstart : Shifted down right s (moved down right s) := by
    apply moved_shifted
    intro c hc
    have hin := (room c (live_eq_true.1 hc)).2
    unfold Room at hin ⊢
    omega
  have hgen := shifted_generation hstart hroomy hmoved
  have hboard : shifted down right start.board = boardOf (moved down right s) := by
    rw [shifted_eq hstart, boardOf_live hb]
  obtain ⟨living, hrun, hliving⟩ := updates_run hb n
  obtain ⟨living', hrun', hliving'⟩ := updates_boardOf (moved down right s) start.livingCells n
  refine ⟨_, hrun, ?_⟩
  rw [hboard, hrun', shifted_eq hgen]
  cases n with
  | zero =>
    obtain rfl := (Life.mk.inj (Option.some.inj hrun)).2
    obtain rfl := (Life.mk.inj (Option.some.inj hrun')).2
    rfl
  | succ n =>
    rw [hliving (by omega), hliving' (by omega), shifted_population hgen]

/-! ### The program's own pattern -/

theorem updates_mirrored_pentomino : ∃ l, updates 3 ⟨boardOf pentomino, 0⟩ = some l ∧
    updates 3 ⟨mirrored true false (boardOf pentomino), 0⟩ =
      some ⟨mirrored true false l.board, l.livingCells⟩ :=
  updates_mirrored ⟨boardOf pentomino, 0⟩ (binary_boardOf pentomino) true false 3

theorem pentomino_near {c : Cell} (h : (boardOf pentomino).get (index c) = 1) :
    21 ≤ (coord c).1 ∧ (coord c).1 ≤ 23 ∧ 89 ≤ (coord c).2 ∧ (coord c).2 ≤ 91 := by
  have hnear : ∀ p ∈ [((21 : ℤ), (90 : ℤ)), (21, 91), (22, 89), (22, 90), (23, 90)],
      21 ≤ p.1 ∧ p.1 ≤ 23 ∧ 89 ≤ p.2 ∧ p.2 ≤ 91 := by
    decide
  rw [← live_eq_true, live_boardOf] at h
  exact hnear _ (of_decide_eq_true h)

def corner : Cell := (⟨0, by decide⟩, ⟨0, by decide⟩)

/-- For 20 generations the pattern cannot be noticed in a corner. -/
theorem updates_local_corner : ∃ a' b', updates 20 ⟨boardOf pentomino, 0⟩ = some a' ∧
    updates 20 ⟨boardOf (fun _ => false), 0⟩ = some b' ∧
    a'.board.get (index corner) = b'.board.get (index corner) ∧
    (a'.board.get (index corner) = 1 → ∃ d, chebyshev (coord corner) (coord d) ≤ (20 : ℕ) ∧
      (boardOf pentomino).get (index d) = 1) := by
  have hempty : Binary (boardOf (fun _ => false)) := binary_boardOf _
  refine updates_local ⟨boardOf pentomino, 0⟩ ⟨boardOf (fun _ => false), 0⟩
    (binary_boardOf pentomino) hempty 20 corner fun d hd => ?_
  rw [← live_agree (binary_boardOf pentomino) hempty, live_boardOf, live_boardOf]
  refine Bool.eq_false_of_not_eq_true fun hlive => ?_
  have hnear := pentomino_near (live_eq_true.1 ((live_boardOf pentomino).symm ▸ hlive))
  have hcorner : (coord corner).1 = 0 := rfl
  rw [chebyshev_le_iff] at hd
  omega

theorem updates_shifted_pentomino : ∃ l, updates 20 ⟨boardOf pentomino, 0⟩ = some l ∧
    updates 20 ⟨shifted (-1) 60 (boardOf pentomino), 0⟩ =
      some ⟨shifted (-1) 60 l.board, l.livingCells⟩ := by
  apply updates_shifted ⟨boardOf pentomino, 0⟩ (binary_boardOf pentomino) (-1) 60 20
  intro c hc
  have hnear := pentomino_near hc
  simp only [Room, boardRows, boardCols]
  omega

end Stage0.LifeSpread
