import Mathlib
import Stage0.GetNum

set_option autoImplicit false

/-!
# Which blocks `tlpi/memalloc/free_and_sbrk.c` frees

`free_and_sbrk2.c` differs in a line of output for every block. An index that leaves `int`,
and a block freed that is not allocated, have no defined outcome.
-/
namespace Stage0.FreeSbrk
open CInt Strtol GetNum
open Decimal (text)

def maxAllocs : ℤ := 1000000

structure Options where
  numAllocs : ℤ
  blockSize : ℤ
  freeStep : ℤ
  freeMin : ℤ
  freeMax : ℤ
  deriving DecidableEq, Repr

inductive Exit where
  | usageErr (text : List UInt8)
  | cmdLineErr (text : List UInt8)
  | gnFail (text : List UInt8)
  | errExit (call : String)
  deriving DecidableEq, Repr

inductive Line where
  | blank
  | initialBreak (addr : ℕ)
  | allocating (numAllocs blockSize : ℤ)
  | breakNow (addr : ℕ)
  | freeing (freeMin freeMax freeStep : ℤ)
  | breakAfter (addr : ℕ)
  deriving DecidableEq, Repr

/-- Which of the calls of `malloc` succeed, and what the calls of `sbrk` give. -/
structure Env where
  malloc : ℕ → Bool
  sbrk : ℕ → ℕ

def intArg (arg : List UInt8) (flags : ℕ) (name : String) : Except Exit ℤ :=
  (getInt arg flags (text name)).mapError .gnFail

def optArg (argv : List (List UInt8)) (i : ℕ) (name : String) (default : ℤ) : Except Exit ℤ :=
  match argv[i]? with
  | some arg => intArg arg gnGt0 name
  | none => .ok default

def parse (argv : List (List UInt8)) : Except Exit Options :=
  match argv with
  | program :: allocs :: size :: rest =>
    if allocs = text "--help" then
      .error (.usageErr (program ++ text " num-allocs block-size [step [min [max]]]\n"))
    else do
      let numAllocs ← intArg allocs gnGt0 "num-allocs"
      if numAllocs > maxAllocs then .error (.cmdLineErr (text "num-allocs > 1000000\n"))
      else
        let blockSize ← intArg size (gnGt0 ||| gnAnyBase) "block-size"
        let freeStep ← optArg rest 0 "step" 1
        let freeMin ← optArg rest 1 "min" 1
        let freeMax ← optArg rest 2 "max" numAllocs
        if freeMax > numAllocs then .error (.cmdLineErr (text "free-max > num-allocs\n"))
        else return ⟨numAllocs, blockSize, freeStep, freeMin, freeMax⟩
  | _ => .error (.usageErr (argv.headD [] ++ text " num-allocs block-size [step [min [max]]]\n"))

def allocate (env : Env) (trace : Bool) : ℕ → ℕ → List Line × Bool
  | 0, _ => ([], true)
  | count + 1, j =>
    let line := if trace then [.breakNow (env.sbrk (j + 1))] else []
    if env.malloc j then
      let (out, ok) := allocate env trace count (j + 1)
      (line ++ out, ok)
    else (line, false)

inductive Freed where
  | done (live : ℤ → Bool)
  | undefined

/-- The loop of `free`, `live` being the blocks that are allocated. -/
def freeLoop (step max : ℤ) : ℕ → ℤ → (ℤ → Bool) → Option Freed
  | 0, _, _ => none
  | fuel + 1, j, live =>
    if j < max then
      if live j = false then some .undefined
      else if intMax < j + step then some .undefined
      else freeLoop step max fuel (j + step) (Function.update live j false)
    else some (.done live)

/-- What a run has printed, and the blocks that are left when it ends well. -/
inductive Outcome where
  | exited (out : List Line) (exit : Exit)
  | success (out : List Line) (live : ℤ → Bool)
  | undefined

def main (fuel : ℕ) (trace : Bool) (env : Env) (argv : List (List UInt8)) : Option Outcome :=
  match parse argv with
  | .error e => some (.exited [.blank] e)
  | .ok o =>
    let (allocs, ok) := allocate env trace o.numAllocs.toNat 0
    let out := [.blank, .initialBreak (env.sbrk 0), .allocating o.numAllocs o.blockSize] ++ allocs
    let call := if trace then o.numAllocs.toNat + 1 else 1
    if ok = false then some (.exited out (.errExit "malloc"))
    else
      (freeLoop o.freeStep o.freeMax fuel (o.freeMin - 1)
          (fun j => decide (0 ≤ j ∧ j < o.numAllocs))).map fun freed =>
        match freed with
        | .undefined => .undefined
        | .done live =>
          .success (out ++ [.breakNow (env.sbrk call), .freeing o.freeMin o.freeMax o.freeStep,
            .breakAfter (env.sbrk (call + 1))]) live

/-! ### The command line -/

/-- A whole number of the given notation from 1 to `INT_MAX`. -/
def Positive (flags : ℕ) (arg : List UInt8) (v : ℤ) : Prop :=
  Numeral (baseOf flags) arg v ∧ 0 < v ∧ v ≤ intMax

theorem intArg_ok_iff {arg : List UInt8} {flags : ℕ} {name : String} {v : ℤ}
    (hpos : flags &&& gnGt0 ≠ 0) (hany : flags &&& gnNonneg = 0) :
    intArg arg flags name = .ok v ↔ Positive flags arg v := by
  rw [intArg, mapError_ok_iff, getInt_ok_iff, Accepted, Positive]
  constructor
  · rintro ⟨⟨hnum, -, -, -, hv⟩, -, hmax⟩
    exact ⟨hnum, hv hpos, hmax⟩
  · rintro ⟨hnum, hv, hmax⟩
    unfold longMin longMax intMin intMax at *
    exact ⟨⟨hnum, by omega, by omega, fun h => absurd hany h, fun _ => hv⟩, by omega, hmax⟩

def Optional (rest : List (List UInt8)) (i : ℕ) (default v : ℤ) : Prop :=
  match rest[i]? with
  | some arg => Positive gnGt0 arg v
  | none => v = default

theorem optArg_ok_iff {rest : List (List UInt8)} {i : ℕ} {name : String} {default v : ℤ} :
    optArg rest i name default = .ok v ↔ Optional rest i default v := by
  unfold optArg Optional
  cases rest[i]? with
  | some arg => exact intArg_ok_iff (by decide) (by decide)
  | none => exact ⟨fun h => (Except.ok.inj h).symm, fun h => congrArg Except.ok h.symm⟩

/-- The command lines that are run, and what they ask for. -/
structure Asks (argv : List (List UInt8)) (o : Options) : Prop where
  args : ∃ program allocs size rest, argv = program :: allocs :: size :: rest ∧
    Positive gnGt0 allocs o.numAllocs ∧ Positive (gnGt0 ||| gnAnyBase) size o.blockSize ∧
    Optional rest 0 1 o.freeStep ∧ Optional rest 1 1 o.freeMin ∧ Optional rest 2 o.numAllocs o.freeMax
  allocs : o.numAllocs ≤ maxAllocs
  max : o.freeMax ≤ o.numAllocs

theorem help_not_number (v : ℤ) : intArg (text "--help") gnGt0 "num-allocs" ≠ .ok v := by
  have hfail : ∃ e, intArg (text "--help") gnGt0 "num-allocs" = .error e := ⟨_, rfl⟩
  obtain ⟨e, he⟩ := hfail
  rw [he]
  nofun

theorem parse_ok_iff {argv : List (List UInt8)} {o : Options} : parse argv = .ok o ↔ Asks argv o := by
  constructor
  · intro h
    unfold parse at h
    split at h
    · rename_i program allocs size rest
      split at h
      · cases h
      · obtain ⟨numAllocs, hallocs, h⟩ := bind_ok_iff.1 h
        split at h
        · cases h
        · rename_i hfew
          obtain ⟨blockSize, hsize, h⟩ := bind_ok_iff.1 h
          obtain ⟨freeStep, hstep, h⟩ := bind_ok_iff.1 h
          obtain ⟨freeMin, hmin, h⟩ := bind_ok_iff.1 h
          obtain ⟨freeMax, hmax, h⟩ := bind_ok_iff.1 h
          split at h
          · cases h
          · rename_i hle
            obtain rfl := Except.ok.inj h
            refine ⟨⟨program, allocs, size, rest, rfl, ?_⟩, by simpa using hfew, by simpa using hle⟩
            rw [intArg_ok_iff (by decide) (by decide)] at hallocs hsize
            rw [optArg_ok_iff] at hstep hmin hmax
            exact ⟨hallocs, hsize, hstep, hmin, hmax⟩
    · cases h
  · rintro ⟨⟨program, allocs, size, rest, rfl, hallocs, hsize, hstep, hmin, hmax⟩, hfew, hle⟩
    rw [← @intArg_ok_iff _ _ "num-allocs" _ (by decide) (by decide)] at hallocs
    rw [← @intArg_ok_iff _ _ "block-size" _ (by decide) (by decide)] at hsize
    have hhelp : allocs ≠ text "--help" := by
      rintro rfl
      exact help_not_number _ hallocs
    rw [parse, if_neg hhelp]
    refine bind_ok_iff.2 ⟨_, hallocs, ?_⟩
    rw [if_neg (by omega)]
    refine bind_ok_iff.2 ⟨_, hsize, bind_ok_iff.2 ⟨_, optArg_ok_iff.2 hstep,
      bind_ok_iff.2 ⟨_, optArg_ok_iff.2 hmin, bind_ok_iff.2 ⟨_, optArg_ok_iff.2 hmax, ?_⟩⟩⟩⟩
    rw [if_neg (by omega)]
    rfl

/-! ### The loop -/

def Reached (first step max k : ℤ) : Prop := first ≤ k ∧ k < max ∧ step ∣ k - first

instance (first step max k : ℤ) : Decidable (Reached first step max k) := by
  unfold Reached
  infer_instance

def last (first step max : ℤ) : ℤ := first + (max - 1 - first) / step * step

theorem reached_next {j step max k : ℤ} (hstep : 0 < step) (hk : k ≠ j) :
    Reached (j + step) step max k ↔ Reached j step max k := by
  unfold Reached
  have hdvd : step ∣ k - (j + step) ↔ step ∣ k - j := by
    rw [show k - (j + step) = k - j - step by ring]
    exact dvd_sub_self_right
  rw [hdvd]
  constructor
  · rintro ⟨h1, h2, h3⟩
    exact ⟨by omega, h2, h3⟩
  · rintro ⟨h1, h2, h3⟩
    have hle := Int.le_of_dvd (by omega) h3
    exact ⟨by omega, h2, h3⟩

theorem last_next {j step max : ℤ} (hstep : 0 < step) : last (j + step) step max = last j step max := by
  unfold last
  rw [show max - 1 - (j + step) = max - 1 - j - step by ring, Int.sub_ediv_of_dvd _ (dvd_refl step),
    Int.ediv_self (by omega)]
  ring

theorem le_last {j step max : ℤ} (hstep : 0 < step) (hlt : j < max) : j ≤ last j step max := by
  have hquot := Int.ediv_nonneg (a := max - 1 - j) (b := step) (by omega) (by omega)
  have hmul := mul_nonneg hquot hstep.le
  unfold last
  omega

theorem last_of_end {j step max : ℤ} (hlt : j < max) (hend : max ≤ j + step) : last j step max = j := by
  rw [last, Int.ediv_eq_zero_of_lt (by omega) (by omega), zero_mul, add_zero]

theorem freeLoop_spec {step max num : ℤ} (hstep : 0 < step) (hmax : max ≤ num) {fuel : ℕ} {j : ℤ}
    {live : ℤ → Bool} (hlive : ∀ k, j ≤ k → k < num → live k = true) (hfuel : (max - j).toNat < fuel) :
    freeLoop step max fuel j live =
      some (if j < max ∧ intMax < last j step max + step then .undefined
        else .done fun k => live k && !decide (Reached j step max k)) := by
  induction fuel generalizing j live with
  | zero => omega
  | succ fuel ih =>
    rw [freeLoop]
    by_cases hlt : j < max
    · rw [if_pos hlt, if_neg (by rw [hlive j le_rfl (by omega)]; decide)]
      have hle := le_last hstep hlt
      by_cases hover : intMax < j + step
      · rw [if_pos hover, if_pos ⟨hlt, by omega⟩]
      · have hcond : (j + step < max ∧ intMax < last (j + step) step max + step) ↔
            (j < max ∧ intMax < last j step max + step) := by
          rw [last_next hstep]
          constructor
          · rintro ⟨-, h⟩
            exact ⟨hlt, h⟩
          · rintro ⟨-, h⟩
            refine ⟨?_, h⟩
            by_contra hend
            rw [last_of_end hlt (by omega)] at h
            omega
        have hkept : ∀ k, j + step ≤ k → k < num → Function.update live j false k = true := by
          intro k hk hnum
          rw [Function.update_of_ne (by omega)]
          exact hlive k (by omega) hnum
        rw [if_neg hover, ih hkept (by omega)]
        simp only [hcond]
        congr 2
        congr 1
        funext k
        by_cases hk : k = j
        · subst hk
          have hfirst : Reached k step max k := ⟨le_rfl, hlt, by simp⟩
          rw [Function.update_self, decide_eq_true hfirst]
          simp
        · rw [Function.update_of_ne hk]
          simp only [reached_next hstep hk]
    · rw [if_neg hlt, if_neg (fun h => hlt h.1)]
      congr 2
      funext k
      have hnone : ¬Reached j step max k := fun h => hlt (lt_of_le_of_lt h.1 h.2.1)
      rw [decide_eq_false hnone, Bool.not_false, Bool.and_true]

theorem allocate_ok {env : Env} {trace : Bool} {count j : ℕ} (h : ∀ k, j ≤ k → k < j + count → env.malloc k = true) :
    (allocate env trace count j).2 = true := by
  induction count generalizing j with
  | zero => rfl
  | succ count ih =>
    rw [allocate, if_pos (h j le_rfl (by omega))]
    exact ih (fun k hk hlt => h k (by omega) (by omega))

theorem optional_pos {rest : List (List UInt8)} {i : ℕ} {default v : ℤ} (hdefault : 0 < default)
    (h : Optional rest i default v) : 0 < v := by
  unfold Optional at h
  split at h
  · exact h.2.1
  · omega

/-- The index after the last block does not fit in an `int`. -/
def Overflows (o : Options) : Prop :=
  o.freeMin ≤ o.freeMax ∧ intMax < last (o.freeMin - 1) o.freeStep o.freeMax + o.freeStep

instance (o : Options) : Decidable (Overflows o) := by
  unfold Overflows
  infer_instance

/-- A run that gets its memory frees every `step`-th block from `min` to `max`, each of them once and
none that is not allocated, unless the loop's index overflows. -/
theorem main_frees {argv : List (List UInt8)} {o : Options} (h : Asks argv o) (trace : Bool) (env : Env)
    (hmalloc : ∀ k : ℕ, k < o.numAllocs → env.malloc k = true) (fuel : ℕ) (hfuel : o.freeMax.toNat < fuel) :
    (main fuel trace env argv = some .undefined ↔ Overflows o) ∧
      (¬Overflows o → ∃ out live, main fuel trace env argv = some (.success out live) ∧
        ∀ j, live j = true ↔ 0 ≤ j ∧ j < o.numAllocs ∧ ¬Reached (o.freeMin - 1) o.freeStep o.freeMax j) := by
  have hparse := parse_ok_iff.2 h
  obtain ⟨program, allocs, size, rest, -, -, -, hstep, hmin, -⟩ := h.args
  have hstep := optional_pos (by decide) hstep
  have hmin := optional_pos (by decide) hmin
  have halloc : (allocate env trace o.numAllocs.toNat 0).2 = true :=
    allocate_ok fun k _ hk => hmalloc k (by omega)
  have hlive : ∀ k, o.freeMin - 1 ≤ k → k < o.numAllocs → decide (0 ≤ k ∧ k < o.numAllocs) = true :=
    fun k hk hnum => decide_eq_true ⟨by omega, hnum⟩
  have hloop := @freeLoop_spec _ _ _ hstep h.max fuel _ _ hlive (by omega)
  have hover : (o.freeMin - 1 < o.freeMax ∧ intMax < last (o.freeMin - 1) o.freeStep o.freeMax + o.freeStep) ↔
      Overflows o := by
    unfold Overflows
    constructor
    · rintro ⟨h1, h2⟩
      exact ⟨by omega, h2⟩
    · rintro ⟨h1, h2⟩
      exact ⟨by omega, h2⟩
  by_cases ho : Overflows o
  · rw [if_pos (hover.2 ho)] at hloop
    have hmain : main fuel trace env argv = some .undefined := by
      simp only [main, hparse, halloc, hloop, Bool.true_eq_false, if_false, Option.map_some]
    exact ⟨⟨fun _ => ho, fun _ => hmain⟩, fun hno => absurd ho hno⟩
  · rw [if_neg (fun hin => ho (hover.1 hin))] at hloop
    obtain ⟨out, hmain⟩ : ∃ out, main fuel trace env argv = some (.success out fun k =>
        decide (0 ≤ k ∧ k < o.numAllocs) && !decide (Reached (o.freeMin - 1) o.freeStep o.freeMax k)) := by
      simp only [main, hparse, halloc, hloop, Bool.true_eq_false, if_false, Option.map_some]
      exact ⟨_, rfl⟩
    refine ⟨⟨fun h => ?_, fun h => absurd h ho⟩, fun _ => ⟨out, _, hmain, fun j => ?_⟩⟩
    · rw [hmain] at h
      cases h
    · simp only [Bool.and_eq_true, decide_eq_true_eq, Bool.not_eq_true', decide_eq_false_iff_not, and_assoc]

def plenty : Env := ⟨fun _ => true, fun _ => 0⟩

/-- A step of `INT_MAX` from the second block on leaves the range of the index. -/
theorem main_frees_overflow :
    main 5 false plenty [text "free_and_sbrk", text "4", text "0x10", text "2147483647", text "2"] =
      some .undefined :=
  (main_frees (o := ⟨4, 16, 2147483647, 2, 4⟩) (parse_ok_iff.1 rfl) false plenty (fun _ _ => rfl) 5
    (by decide)).1.2 (by decide)

end Stage0.FreeSbrk
