import Mathlib
import Stage0.CInt
import Stage0.LifeUpdate
import Stage0.Script
import Stage0.Terminal

set_option autoImplicit false

/-!
# The main loop of `life/main.c`

Two buffers take turns: the front one holds the picture of the last frame, the back
one is drawn anew, and only the cells that differ are printed.
-/
namespace Stage0.LifeRender
open BoundedLoops Automaton CInt Decimal Script Terminal LifeBoard LifeUpdate

/-- One `read(STDIN_FILENO, &ch, 1)` of the non-blocking input. -/
inductive KeyRead where
  | noData
  | endOfInput
  | byte (c : UInt8)
  deriving DecidableEq, Repr

structure Render where
  life : Life
  front : Buffer
  back : Buffer
  generation : ℤ
  ch : UInt8
  out : List UInt8

inductive Halt where
  | left (s : Render)
  | fault

/-- `printf("\033[%d;%dH%c", row, col, c)` -/
def printCell (row col : ℤ) (c : UInt8) : List UInt8 :=
  esc :: '['.toUInt8 :: (formatInt row ++ ';'.toUInt8 :: formatInt col) ++ ['H'.toUInt8, c]

def drawChange (front back : Buffer) (i : ℤ) (out : List UInt8) : Option (List UInt8) := do
  let new ← load back i
  let old ← load front i
  if new ≠ old then
    let x := i.tmod boardCols
    let y := i.tdiv boardCols
    return out ++ printCell (y + 1) (x + 1) new
  else return out

def diffPass (front back : Buffer) (out : List UInt8) : Option (List UInt8) :=
  forUp 0 size out (drawChange front back)

def clearScreen : List UInt8 := esc :: text "[2J" ++ esc :: text "[?25l"

def moveBottom : List UInt8 := esc :: text "[999;1H"

/-- `printf("generation: %d\tliving cells: %d", generation, living_cells)` -/
def status (generation livingCells : ℤ) : List UInt8 :=
  text "generation: " ++ formatInt generation ++ '\t'.toUInt8 :: text "living cells: " ++
    formatInt livingCells

/-- `memset(buffer, '.', SIZE)` -/
def cleared : Buffer := Vector.replicate size '.'.toUInt8

/-- The loop up to and with its `fflush`. -/
def drawFrame (s : Render) : Except Halt Render := do
  let back ← orStop Halt.fault (drawBoard s.life.board cleared)
  let out ← orStop Halt.fault (diffPass s.front back s.out)
  return { s with back, out }

def readKey (ch : UInt8) : KeyRead → UInt8
  | .byte c => c
  | _ => ch

/-- The rest of the loop: the read, the swap of the buffers and the status line. -/
def endFrame (r : KeyRead) (s : Render) : Except Halt Render := do
  let ch := readKey s.ch r
  if ch = 27 then .error (.left { s with ch })
  else
    let life ← orStop Halt.fault (update s.life)
    -- the `int` wraps around
    let generation := wrap (s.generation + 1)
    return ⟨life, s.back, s.front, generation, ch,
      s.out ++ (moveBottom ++ status generation life.livingCells)⟩

def frame (r : KeyRead) (s : Render) : Except Halt Render := drawFrame s >>= endFrame r

/-- The head of the iteration that follows these reads. -/
def frames : List KeyRead → Render → Except Halt Render
  | [], s => .ok s
  | r :: reads, s => frame r s >>= frames reads

/-- The state before the loop, with `ch` as it happens to be. -/
def start (board : Board) (ch : UInt8) : Render :=
  ⟨⟨board, 0⟩, cleared, cleared, 1, ch, clearScreen⟩

/-! ### Pictures -/

def mark (alive : Bool) : UInt8 := if alive then 'X'.toUInt8 else '.'.toUInt8

theorem mark_ne {a b : Bool} : mark a ≠ mark b ↔ a ≠ b := by
  cases a <;> cases b <;> decide

theorem mark_printable (a : Bool) : printable (mark a) = true := by
  cases a <;> decide

def picture (s : Cell → Bool) : Buffer := Vector.ofFn (fun j => mark (s (index.symm j)))

@[simp] theorem get_picture (s : Cell → Bool) (c : Cell) : (picture s).get (index c) = mark (s c) := by
  simp [picture, Vector.get_eq_getElem]

theorem cleared_eq : cleared = picture (fun _ => false) := by
  apply ext_get
  intro j
  rw [cleared, picture, Vector.get_eq_getElem, Vector.get_eq_getElem, Vector.getElem_replicate,
    Vector.getElem_ofFn]
  rfl

theorem drawBoard_run (s : Cell → Bool) (back : Buffer) :
    drawBoard (boardOf s) back = some (picture s) := by
  refine forUp_fill _ (fun j back => ?_)
  rw [load_coe, get_boardOf]
  change (if ((s (index.symm j)).toNat : ℤ) ≠ 0 then _ else _) = _
  cases s (index.symm j) with
  | false => exact store_coe back j _
  | true => exact store_coe back j _

/-! ### The changes of one frame -/

def change (old new : Cell → Bool) (c : Cell) : List UInt8 :=
  if new c ≠ old c then addressBytes c.1 c.2 ++ [mark (new c)] else []

def changes (old new : Cell → Bool) : List UInt8 :=
  (List.finRange size).flatMap (fun j => change old new (index.symm j))

theorem printCell_address (r c : ℕ) (b : UInt8) :
    printCell ((r : ℤ) + 1) ((c : ℤ) + 1) b = addressBytes r c ++ [b] := by
  have hformat : ∀ n : ℕ, formatInt ((n : ℤ) + 1) = formatNat (n + 1) := by
    intro n
    rw [formatInt, if_neg (by omega)]
    rfl
  rw [printCell, hformat, hformat, addressBytes, List.append_assoc]
  rfl

theorem index_position (c : Cell) :
    (((index c : Fin size) : ℕ) : ℤ).tdiv boardCols = (c.1 : ℕ) ∧
      (((index c : Fin size) : ℕ) : ℤ).tmod boardCols = (c.2 : ℕ) := by
  have hval : ((index c : Fin size) : ℕ) = c.2 + boardCols * c.1 := rfl
  have hlt := c.2.isLt
  constructor
  · rw [← Int.ofNat_tdiv, hval, Nat.add_mul_div_left _ _ (by decide : 0 < boardCols),
      Nat.div_eq_of_lt hlt, Nat.zero_add]
  · rw [← Int.ofNat_tmod, hval, Nat.add_mul_mod_self_left, Nat.mod_eq_of_lt hlt]

theorem diffPass_run (old new : Cell → Bool) (out : List UInt8) :
    diffPass (picture old) (picture new) out = some (out ++ changes old new) := by
  refine forUp_append _ (fun j out => ?_)
  obtain ⟨c, rfl⟩ := index.surjective j
  obtain ⟨hy, hx⟩ := index_position c
  rw [drawChange, load_coe, load_coe, get_picture, get_picture, Equiv.symm_apply_apply, hy, hx,
    change]
  change (if mark (new c) ≠ mark (old c) then _ else _) = _
  by_cases h : new c ≠ old c
  · rw [if_pos (mark_ne.2 h), if_pos h, ← printCell_address]
    rfl
  · rw [if_neg (fun he => h (mark_ne.1 he)), if_neg h, List.append_nil]
    rfl

/-! ### The status line -/

theorem feed_moveBottom {rows cols : ℕ} (t : Screen rows cols) (hmode : t.mode = .ground) :
    t.feed moveBottom = t.moveTo 998 0 := by
  have hmove : moveBottom = addressBytes 998 0 := by decide +kernel
  rw [hmove, feed_address t 998 0 hmode]

theorem generationLabel_printable : ∀ b ∈ text "generation: ", printable b = true := by
  decide +kernel

theorem livingLabel_printable : ∀ b ∈ text "living cells: ", printable b = true := by
  decide +kernel

/-! ### The head of every iteration -/

/-- What frame `k` shows; frame 0 is the empty picture of both buffers. -/
def shown (s₀ : Cell → Bool) : ℕ → Cell → Bool
  | 0 => fun _ => false
  | k + 1 => Automaton.generation neighbours lifeRule k s₀

theorem shown_next (s₀ : Cell → Bool) (k : ℕ) : step (shown s₀ (k + 1)) = shown s₀ (k + 2) :=
  (generation_succ _ _ _ _).symm

def printed (s₀ : Cell → Bool) : ℕ → List UInt8
  | 0 => clearScreen
  | k + 1 => printed s₀ k ++ changes (shown s₀ k) (shown s₀ (k + 1)) ++
      (moveBottom ++ status (wrap (k + 2)) (population (shown s₀ (k + 2))))

/-- The head of the iteration that draws frame `k + 1`. -/
structure Head (s₀ : Cell → Bool) (k : ℕ) (s : Render) : Prop where
  board : s.life.board = boardOf (shown s₀ (k + 1))
  living : 1 ≤ k → s.life.livingCells = population (shown s₀ (k + 1))
  front : s.front = picture (shown s₀ k)
  generation : s.generation = wrap (k + 1)
  out : s.out = printed s₀ k

theorem head_start (s₀ : Cell → Bool) (ch : UInt8) : Head s₀ 0 (start (boardOf s₀) ch) where
  board := rfl
  living h := absurd h (by omega)
  front := cleared_eq
  generation := by
    change (1 : ℤ) = wrap (0 + 1)
    decide
  out := rfl

theorem drawFrame_eq (s : Render) : drawFrame s =
    orStop Halt.fault (drawBoard s.life.board cleared) >>= fun back =>
      orStop Halt.fault (diffPass s.front back s.out) >>= fun out => .ok { s with back, out } := rfl

theorem drawFrame_run {s₀ : Cell → Bool} {k : ℕ} {s : Render} (h : Head s₀ k s) :
    drawFrame s = .ok { s with
      back := picture (shown s₀ (k + 1))
      out := printed s₀ k ++ changes (shown s₀ k) (shown s₀ (k + 1)) } := by
  have hback : orStop Halt.fault (drawBoard s.life.board cleared) = .ok (picture (shown s₀ (k + 1))) := by
    rw [h.board, drawBoard_run]
    rfl
  have hout : orStop Halt.fault (diffPass s.front (picture (shown s₀ (k + 1))) s.out) =
      .ok (printed s₀ k ++ changes (shown s₀ k) (shown s₀ (k + 1))) := by
    rw [h.front, h.out, diffPass_run]
    rfl
  rw [drawFrame_eq, hback, ok_bind, hout, ok_bind]

theorem wrap_next (k : ℕ) : wrap (wrap ((k : ℤ) + 1) + 1) = wrap ((k : ℤ) + 2) := by
  rw [wrap_add_wrap, add_assoc]
  rfl

theorem population_bounds (s : Cell → Bool) :
    -2 ^ 31 ≤ (population s : ℤ) ∧ (population s : ℤ) < 2 ^ 31 := by
  have hle : population s ≤ size := by
    have hcard := Finset.card_le_univ (Finset.univ.filter (fun c => s c = true))
    rwa [Fintype.card_congr index, Fintype.card_fin] at hcard
  have hsize : size = 8100 := rfl
  omega

theorem frame_on {s₀ : Cell → Bool} {k : ℕ} {s : Render} (h : Head s₀ k s) {r : KeyRead}
    (hch : readKey s.ch r ≠ 27) :
    ∃ u, frame r s = .ok u ∧ Head s₀ (k + 1) u ∧ u.ch = readKey s.ch r := by
  have hupdate : update s.life =
      some ⟨boardOf (shown s₀ (k + 2)), population (shown s₀ (k + 2))⟩ := by
    have hlife : s.life = ⟨boardOf (shown s₀ (k + 1)), s.life.livingCells⟩ := by
      rw [← h.board]
    rw [hlife, update_boardOf, shown_next]
  rw [frame, drawFrame_run h, ok_bind, endFrame]
  simp only [if_neg hch, hupdate, orStop, ok_bind, h.generation, wrap_next]
  exact ⟨_, rfl, ⟨rfl, fun _ => rfl, rfl, by push_cast; rw [add_assoc]; rfl, rfl⟩, rfl⟩

theorem frame_left {s₀ : Cell → Bool} {k : ℕ} {s : Render} (h : Head s₀ k s) {r : KeyRead}
    (hch : readKey s.ch r = 27) : ∃ u, frame r s = .error (.left u) := by
  rw [frame, drawFrame_run h, ok_bind, endFrame]
  simp only [if_pos hch]
  exact ⟨_, rfl⟩

theorem frame_cases {s₀ : Cell → Bool} {k : ℕ} {s : Render} (h : Head s₀ k s) (r : KeyRead) :
    (∃ u, frame r s = .error (.left u)) ∨ ∃ u, frame r s = .ok u ∧ Head s₀ (k + 1) u := by
  by_cases hch : readKey s.ch r = 27
  · exact .inl (frame_left h hch)
  · obtain ⟨u, hu, hhead, -⟩ := frame_on h hch
    exact .inr ⟨u, hu, hhead⟩

theorem frames_head {s₀ : Cell → Bool} {k : ℕ} {s u : Render} (h : Head s₀ k s)
    (reads : List KeyRead) (run : frames reads s = .ok u) : Head s₀ (k + reads.length) u := by
  induction reads generalizing k s with
  | nil =>
    cases run
    exact h
  | cons r reads ih =>
    obtain ⟨mid, hmid, hrest⟩ := bind_eq_ok.1 run
    rcases frame_cases h r with ⟨v, hleft⟩ | ⟨v, hok, hnext⟩
    · rw [hleft] at hmid
      cases hmid
    · rw [hok] at hmid
      cases hmid
      have hend := ih hnext hrest
      rwa [List.length_cons, Nat.add_comm reads.length 1, ← Nat.add_assoc]

/-- None of the reads leaves the escape key in `ch`. -/
def Unescaped : UInt8 → List KeyRead → Prop
  | _, [] => True
  | ch, r :: reads => readKey ch r ≠ 27 ∧ Unescaped (readKey ch r) reads

theorem unescaped_of_reads {ch : UInt8} (hch : ch ≠ 27) {reads : List KeyRead}
    (hreads : ∀ r ∈ reads, r ≠ .byte 27) : Unescaped ch reads := by
  induction reads generalizing ch with
  | nil => trivial
  | cons r reads ih =>
    have hkey : readKey ch r ≠ 27 := by
      cases r with
      | byte c => exact fun h => hreads _ List.mem_cons_self (congrArg KeyRead.byte h)
      | noData => exact hch
      | endOfInput => exact hch
    exact ⟨hkey, ih hkey (fun q hq => hreads q (List.mem_cons_of_mem r hq))⟩

/-- The loop goes on as long as `ch` does not hold the escape key after a read. -/
theorem frames_ok_iff {s₀ : Cell → Bool} {k : ℕ} {s : Render} (h : Head s₀ k s) (reads : List KeyRead) :
    (∃ u, frames reads s = .ok u) ↔ Unescaped s.ch reads := by
  induction reads generalizing k s with
  | nil => exact iff_of_true ⟨s, rfl⟩ trivial
  | cons r reads ih =>
    rw [frames, Unescaped]
    by_cases hch : readKey s.ch r = 27
    · obtain ⟨u, hu⟩ := frame_left h hch
      rw [hu]
      exact iff_of_false (fun ⟨_, hrun⟩ => by cases hrun) (fun hkeys => hkeys.1 hch)
    · obtain ⟨u, hu, hhead, hkey⟩ := frame_on h hch
      rw [hu, ok_bind, ih hhead, hkey, and_iff_right hch]

end Stage0.LifeRender
