import Mathlib
import Stage0.BlockFile
import Stage0.Interleave

set_option autoImplicit false

/-!
# Concurrent runs of `tlpi/fileio/append.c`

Every process opens the same file with `O_APPEND`, seeks to its beginning and writes its
arguments, one `write` for each. A `write` may transfer only a part of its argument, which
the program prints and does not mend.
-/
namespace Stage0.AppendShuffle
open ByteFile BlockFile Interleave

def hyphen : UInt8 := '-'.toUInt8

/-- A command line without options, so that `optind` is 1 after `getopt`. -/
structure Invocation where
  argv : List (List UInt8)
  argc : 2 ≤ argv.length
  plain : ∀ arg ∈ argv.tail, arg.head? ≠ some hyphen

def Invocation.stuff (cmd : Invocation) : List (List UInt8) := cmd.argv.drop 2

inductive Pc where
  | opening
  | opened
  | loop
  | exited (success : Bool)
  deriving DecidableEq, Repr

/-- A process, the number of arguments it has written, and the counts it has printed. -/
structure Proc where
  pc : Pc
  fd : Description
  i : ℕ
  printed : List ℤ
  deriving DecidableEq, Repr

def Proc.fail (p : Proc) : Proc := { p with pc := .exited false }

/-- `write(fd, argv[i], strlen(argv[i]))` that transfers at most `n` bytes. -/
def writeArg (arg : List UInt8) (n : ℕ) (content : List UInt8) (p : Proc) : List UInt8 × Proc :=
  let (fd, content) := put p.fd content (arg.take n)
  (content, ⟨.loop, fd, p.i + 1, p.printed ++ [((arg.take n).length : ℤ)]⟩)

/-- The next system call of `main`: it fails, or does what it is there for, a `write` for as many
bytes as it is told. -/
def step {ι : Type} (cmd : ι → Invocation) : Step ι (Option ℕ) (List UInt8) Proc :=
  fun i result content p =>
    match p.pc, result with
    | .opening, some _ => some (content, { p with pc := .opened, fd := ⟨0, true⟩ })
    | .opening, none => some (content, p.fail)
    | .opened, some _ => some (content, { p with pc := .loop, fd := { p.fd with offset := 0 } })
    | .opened, none => some (content, p.fail)
    | .loop, result =>
      match (cmd i).stuff[p.i]?, result with
      | some arg, some n => some (writeArg arg n content p)
      | some _, none => some (content, { p.fail with printed := p.printed ++ [-1] })
      | none, some _ => some (content, { p with pc := .exited true })
      | none, none => some (content, p.fail)
    | .exited _, _ => none

def start {ι : Type} (old : List UInt8) : System ι (List UInt8) Proc :=
  ⟨old, fun _ => ⟨.opening, ⟨0, false⟩, 0, []⟩⟩

/-! ### The pieces in the file -/

section Log

variable {ι : Type}

def bytes (log : List (ι × List UInt8)) : List UInt8 := (log.map Prod.snd).flatten

theorem bytes_cons (j : ι) (piece : List UInt8) (log : List (ι × List UInt8)) :
    bytes ((j, piece) :: log) = piece ++ bytes log := rfl

theorem bytes_concat (j : ι) (piece : List UInt8) (log : List (ι × List UInt8)) :
    bytes (log ++ [(j, piece)]) = bytes log ++ piece := by
  simp [bytes]

abbrev Pieces (pieces args : List (List UInt8)) : Prop := List.Forall₂ (· <+: ·) pieces args

variable [DecidableEq ι]

def own (i : ι) (log : List (ι × List UInt8)) : List (List UInt8) :=
  (log.filter (fun p => decide (p.1 = i))).map Prod.snd

@[simp] theorem own_nil (i : ι) : own i [] = [] := rfl

theorem own_cons (i j : ι) (piece : List UInt8) (log : List (ι × List UInt8)) :
    own i ((j, piece) :: log) = if j = i then piece :: own i log else own i log := by
  unfold own
  by_cases h : j = i <;> simp [h]

theorem own_concat (i j : ι) (piece : List UInt8) (log : List (ι × List UInt8)) :
    own i (log ++ [(j, piece)]) = if j = i then own i log ++ [piece] else own i log := by
  unfold own
  by_cases h : j = i <;> simp [h]

end Log

def lengths (pieces : List (List UInt8)) : List ℤ := pieces.map (fun piece => (piece.length : ℤ))

structure Logged (cmd : Invocation) (pieces : List (List UInt8)) (p : Proc) : Prop where
  parts : Pieces pieces (cmd.stuff.take p.i)
  flag : p.pc = .opened ∨ p.pc = .loop → p.fd.append = true
  done : p.pc = .exited true → cmd.stuff.length ≤ p.i
  printed : p.pc ≠ .exited false → p.printed = lengths pieces

theorem logged_fail {cmd : Invocation} {pieces : List (List UInt8)} {p : Proc} (h : Logged cmd pieces p)
    (printed : List ℤ) : Logged cmd pieces { p.fail with printed } :=
  ⟨h.parts, by simp [Proc.fail], by simp [Proc.fail], by simp [Proc.fail]⟩

theorem logged_write {cmd : Invocation} {pieces : List (List UInt8)} {p : Proc} {arg : List UInt8}
    (h : Logged cmd pieces p) (hpc : p.pc = .loop) (harg : cmd.stuff[p.i]? = some arg) (n : ℕ)
    (content : List UInt8) : (writeArg arg n content p).1 = content ++ arg.take n ∧
      Logged cmd (pieces ++ [arg.take n]) (writeArg arg n content p).2 := by
  have hflag := h.flag (.inr hpc)
  refine ⟨put_append hflag content _, ?_, fun _ => ?_, nofun, fun _ => ?_⟩
  · change Pieces _ (cmd.stuff.take (p.i + 1))
    rw [List.take_add_one, harg]
    exact List.rel_append h.parts (.cons (List.take_prefix n arg) .nil)
  · change (put p.fd content (arg.take n)).1.append = true
    rw [put_flag, hflag]
  · change p.printed ++ [((arg.take n).length : ℤ)] = _
    rw [h.printed (by simp [hpc]), lengths, lengths, List.map_append]
    rfl

theorem step_logged {ι : Type} {cmd : ι → Invocation} {i : ι} {result : Option ℕ}
    {content content' : List UInt8} {p p' : Proc} {pieces : List (List UInt8)}
    (h : Logged (cmd i) pieces p) (hstep : step cmd i result content p = some (content', p')) :
    (content' = content ∧ Logged (cmd i) pieces p') ∨
      ∃ piece, content' = content ++ piece ∧ Logged (cmd i) (pieces ++ [piece]) p' := by
  obtain ⟨pc, fd, k, printed⟩ := p
  unfold step at hstep
  cases pc with
  | opening =>
    cases result with
    | none =>
      cases hstep
      exact .inl ⟨rfl, logged_fail h _⟩
    | some n =>
      cases hstep
      exact .inl ⟨rfl, h.parts, fun _ => rfl, nofun,
        fun _ => h.printed (by simp)⟩
  | opened =>
    cases result with
    | none =>
      cases hstep
      exact .inl ⟨rfl, logged_fail h _⟩
    | some n =>
      cases hstep
      exact .inl ⟨rfl, h.parts, fun _ => h.flag (.inl rfl), nofun,
        fun _ => h.printed (by simp)⟩
  | loop =>
    simp only at hstep
    cases harg : (cmd i).stuff[k]? with
    | some arg =>
      rw [harg] at hstep
      cases result with
      | none =>
        cases hstep
        exact .inl ⟨rfl, logged_fail h _⟩
      | some n =>
        obtain ⟨hcontent, hlogged⟩ := logged_write h rfl harg n content
        cases hstep
        exact .inr ⟨_, hcontent, hlogged⟩
    | none =>
      rw [harg] at hstep
      cases result with
      | none =>
        cases hstep
        exact .inl ⟨rfl, logged_fail h _⟩
      | some n =>
        cases hstep
        exact .inl ⟨rfl, h.parts, by simp, fun _ => List.getElem?_eq_none_iff.1 harg,
          fun _ => h.printed (by simp)⟩
  | exited success => cases hstep

structure Ready (cmd : Invocation) (pieces : List (List UInt8)) (p : Proc) : Prop where
  pc : p.pc = .loop
  flag : p.fd.append = true
  parts : Pieces pieces (cmd.stuff.drop p.i)

theorem ready_write {ι : Type} {cmd : ι → Invocation} {i : ι} {piece : List UInt8} {pieces : List (List UInt8)} {p : Proc}
    (h : Ready (cmd i) (piece :: pieces) p) (content : List UInt8) : ∃ p',
      step cmd i (some piece.length) content p = some (content ++ piece, p') ∧
      Ready (cmd i) pieces p' ∧ p'.printed = p.printed ++ lengths [piece] := by
  obtain ⟨pc, fd, k, printed⟩ := p
  obtain ⟨hpc, hflag, hparts⟩ := h
  simp only at hpc hflag hparts
  subst hpc
  obtain ⟨arg, args, hpiece, hpieces, hdrop⟩ := List.forall₂_cons_left_iff.1 hparts
  have harg : (cmd i).stuff[k]? = some arg := by
    rw [← Nat.add_zero k, ← List.getElem?_drop, hdrop]
    rfl
  have htake : arg.take piece.length = piece := List.prefix_iff_eq_take.1 hpiece ▸ rfl
  have hrest : (cmd i).stuff.drop (k + 1) = args := by
    rw [← List.drop_drop, hdrop]
    rfl
  refine ⟨(writeArg arg piece.length content ⟨.loop, fd, k, printed⟩).2, ?_, ⟨rfl, ?_, ?_⟩, ?_⟩
  · simp only [step, harg, writeArg, htake, put_append hflag]
  · change (put fd content (arg.take piece.length)).1.append = true
    rw [put_flag, hflag]
  · change Pieces pieces ((cmd i).stuff.drop (k + 1))
    rw [hrest]
    exact hpieces
  · change printed ++ [((arg.take piece.length).length : ℤ)] = _
    rw [htake]
    rfl

/-! ### Runs -/

section Runs

variable {ι : Type} [DecidableEq ι] {cmd : ι → Invocation}

def Shuffled (cmd : ι → Invocation) (old : List UInt8) (s : System ι (List UInt8) Proc) : Prop :=
  ∃ log, s.shared = old ++ bytes log ∧ ∀ i, Logged (cmd i) (own i log) (s.procs i)

theorem run_shuffled {old : List UInt8} {schedule : List (ι × Option ℕ)}
    {final : System ι (List UInt8) Proc} (h : run (step cmd) schedule (start old) = some final) :
    Shuffled cmd old final := by
  refine @run_invariant _ _ _ _ _ (step cmd) (fun _ => True) (Shuffled cmd old) ?_ schedule
    (fun _ _ => trivial) (start old) final ?_ h
  · rintro i result s u - ⟨log, hfile, hlogged⟩ hstep
    obtain ⟨hcall, hprocs⟩ := stepOf_eq_some hstep
    rcases step_logged (hlogged i) hcall with ⟨hsame, hown⟩ | ⟨piece, hmore, hown⟩
    · refine ⟨log, by rw [hsame, hfile], fun j => ?_⟩
      by_cases hj : j = i
      · rw [hj]
        exact hown
      · rw [hprocs, Function.update_of_ne hj]
        exact hlogged j
    · refine ⟨log ++ [(i, piece)], by rw [hmore, hfile, bytes_concat, List.append_assoc], fun j => ?_⟩
      rw [own_concat]
      by_cases hj : i = j
      · rw [if_pos hj, ← hj]
        exact hown
      · rw [if_neg hj, hprocs, Function.update_of_ne (Ne.symm hj)]
        exact hlogged j
  · refine ⟨[], (List.append_nil old).symm, fun i => ⟨?_, by simp [start], by simp [start], fun _ => rfl⟩⟩
    exact .nil

theorem run_log (log : List (ι × List UInt8)) {s : System ι (List UInt8) Proc}
    (h : ∀ i, Ready (cmd i) (own i log) (s.procs i)) : ∃ P : ι → Proc,
      run (step cmd) (log.map (fun p => (p.1, some p.2.length))) s = some ⟨s.shared ++ bytes log, P⟩ ∧
      ∀ i, Ready (cmd i) [] (P i) ∧ (P i).printed = (s.procs i).printed ++ lengths (own i log) := by
  induction log generalizing s with
  | nil => exact ⟨s.procs, by simp [run, bytes], fun i => ⟨h i, (List.append_nil _).symm⟩⟩
  | cons entry log ih =>
    obtain ⟨j, piece⟩ := entry
    have hj := h j
    rw [own_cons, if_pos rfl] at hj
    obtain ⟨p', hwrite, hready, hprinted⟩ := ready_write hj s.shared
    have hfirst : stepOf (step cmd) j (some piece.length) s =
        some ⟨s.shared ++ piece, Function.update s.procs j p'⟩ := by
      rw [stepOf, hwrite]
      rfl
    have hnext : ∀ i, Ready (cmd i) (own i log) (Function.update s.procs j p' i) := by
      intro i
      by_cases hi : i = j
      · subst hi
        rw [Function.update_self]
        exact hready
      · have hother := h i
        rw [own_cons, if_neg (Ne.symm hi)] at hother
        rw [Function.update_of_ne hi]
        exact hother
    obtain ⟨P, hrun, hP⟩ := @ih ⟨s.shared ++ piece, Function.update s.procs j p'⟩ hnext
    refine ⟨P, ?_, fun i => ⟨(hP i).1, ?_⟩⟩
    · rw [List.map_cons, run, hfirst, Option.bind_some, hrun, bytes_cons, List.append_assoc]
    · rw [(hP i).2, own_cons]
      by_cases hi : i = j
      · subst hi
        simp only [Function.update_self, if_true, hprinted, List.append_assoc]
        rfl
      · simp only [Function.update_of_ne hi, if_neg (Ne.symm hi)]

variable [Fintype ι]

/-- What the processes can leave behind: the old bytes, and then in any order, but each in its own,
a beginning of every argument. What they print tells how long these are. -/
theorem append_iff (cmd : ι → Invocation) (old content : List UInt8) (printed : ι → List ℤ) :
    (∃ schedule final, run (step cmd) schedule (start old) = some final ∧ final.shared = content ∧
      ∀ i, (final.procs i).pc = .exited true ∧ (final.procs i).printed = printed i) ↔
    ∃ log, content = old ++ bytes log ∧
      ∀ i, Pieces (own i log) (cmd i).stuff ∧ printed i = lengths (own i log) := by
  constructor
  · rintro ⟨schedule, final, hrun, rfl, hended⟩
    obtain ⟨log, hfile, hlogged⟩ := run_shuffled hrun
    refine ⟨log, hfile, fun i => ⟨?_, ?_⟩⟩
    · have hparts := (hlogged i).parts
      rw [List.take_of_length_le ((hlogged i).done (hended i).1)] at hparts
      exact hparts
    · rw [← (hended i).2]
      exact (hlogged i).printed (by rw [(hended i).1]; decide)
  · rintro ⟨log, rfl, hlog⟩
    let all : List ι := Finset.univ.toList
    have hall : all.Nodup := Finset.nodup_toList _
    have hmem : ∀ i, i ∈ all := fun i => Finset.mem_toList.2 (Finset.mem_univ i)
    have hopen := @run_batch _ _ _ _ _ (step cmd) all hall (fun _ => some 0) old
      (fun _ => ⟨.opened, ⟨0, true⟩, 0, []⟩) (start old) rfl (fun i _ => rfl)
    have hseek := @run_batch _ _ _ _ _ (step cmd) all hall (fun _ => some 0) old
      (fun _ => ⟨.loop, ⟨0, true⟩, 0, []⟩) ⟨old, fun _ => ⟨.opened, ⟨0, true⟩, 0, []⟩⟩ rfl (fun i _ => rfl)
    simp only [hmem, if_true] at hopen hseek
    obtain ⟨P, hwrites, hP⟩ := @run_log _ _ cmd log ⟨old, fun _ => ⟨.loop, ⟨0, true⟩, 0, []⟩⟩
      (fun i => ⟨rfl, rfl, (hlog i).1⟩)
    have hclose := @run_batch _ _ _ _ _ (step cmd) all hall (fun _ => some 0) (old ++ bytes log)
      (fun i => { P i with pc := .exited true }) ⟨old ++ bytes log, P⟩ rfl (fun i _ => by
        obtain ⟨hpc, -, hparts⟩ := (hP i).1
        have hdone : (cmd i).stuff[(P i).i]? = none := by
          rw [List.getElem?_eq_none_iff, ← List.drop_eq_nil_iff]
          exact List.forall₂_nil_left_iff.1 hparts
        simp only [step, hpc, hdone])
    simp only [hmem, if_true] at hclose
    refine ⟨_, _, run_trans (run_trans (run_trans hopen hseek) hwrites) hclose, rfl, fun i => ⟨rfl, ?_⟩⟩
    rw [(hlog i).2]
    exact (hP i).2

end Runs

end Stage0.AppendShuffle
