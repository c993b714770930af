import Mathlib
import Stage0.ByteFile
import Stage0.Interleave

set_option autoImplicit false

/-!
# Concurrent runs of `tlpi/fileio/atomic_append.c`

Every process opens the same file and writes one NUL byte at a time. With `x` a
write is an `lseek` to the end and a `write` as two steps; without it the file is
open with `O_APPEND` and the `write` alone moves to the end.
-/
namespace Stage0.AtomicAppend
open ByteFile Interleave

/-- The arguments of one process, `val` being the number `strtol` reads in `argv[2]`. -/
structure Invocation where
  argv : List String
  val : ℤ
  argc : 3 ≤ argv.length ∧ argv.length ≤ 4

def Invocation.isSeek (cmd : Invocation) : Bool :=
  decide (cmd.argv.length = 4 ∧ cmd.argv[3]? = some "x")

inductive Pc where
  | opening
  | loop
  | seeked
  | exited (success : Bool)
  deriving DecidableEq, Repr

structure Proc where
  pc : Pc
  fd : Description
  i : ℕ
  deriving DecidableEq, Repr

def writeNul (content : List UInt8) (p : Proc) : List UInt8 × Proc :=
  let (_, fd, content) := p.fd.write content 0
  (content, ⟨.loop, fd, p.i + 1⟩)

def advance (cmd : Invocation) (content : List UInt8) (p : Proc) : List UInt8 × Proc :=
  match p.pc with
  | .opening => (content, ⟨.loop, ⟨0, !cmd.isSeek⟩, 0⟩)
  | .loop =>
    if (p.i : ℤ) < cmd.val then
      if cmd.isSeek then (content, ⟨.seeked, ⟨content.length, p.fd.append⟩, p.i⟩)
      else writeNul content p
    else (content, { p with pc := .exited true })
  | .seeked => writeNul content p
  | .exited _ => (content, p)

/-- A failed call ends the process; a process that has ended takes no step. -/
def step {ι : Type} (cmd : ι → Invocation) : Step ι Bool (List UInt8) Proc :=
  fun i ok content p =>
    match p.pc with
    | .exited _ => none
    | _ => if ok then some (advance (cmd i) content p) else some (content, { p with pc := .exited false })

def start {ι : Type} (old : List UInt8) : System ι (List UInt8) Proc :=
  ⟨old, fun _ => ⟨.opening, ⟨0, false⟩, 0⟩⟩

/-! ### What one process knows of the file -/

/-- A process in `x` mode has seen the file grow past every byte it wrote, and the
offset it has sought to is at or after them. -/
def Progress (base : ℕ) (cmd : Invocation) (content : List UInt8) (p : Proc) : Prop :=
  match p.pc with
  | .opening => p.i = 0
  | .loop => p.fd.append = !cmd.isSeek ∧ p.i ≤ cmd.val.toNat ∧
      (cmd.isSeek = true → base + p.i ≤ content.length)
  | .seeked => cmd.isSeek = true ∧ p.fd.append = false ∧ p.i < cmd.val.toNat ∧
      base + p.i ≤ p.fd.offset ∧ p.fd.offset ≤ content.length
  | .exited success => success = true ∧ p.i = cmd.val.toNat ∧
      (cmd.isSeek = true → base + p.i ≤ content.length)

theorem progress_stable {base : ℕ} {cmd : Invocation} {x y : List UInt8} {p : Proc}
    (grow : x.length ≤ y.length) (h : Progress base cmd x p) : Progress base cmd y p := by
  unfold Progress at *
  cases hpc : p.pc with
  | opening => simpa only [hpc] using h
  | loop =>
    simp only [hpc] at h ⊢
    exact ⟨h.1, h.2.1, fun hx => (h.2.2 hx).trans grow⟩
  | seeked =>
    simp only [hpc] at h ⊢
    exact ⟨h.1, h.2.1, h.2.2.1, h.2.2.2.1, h.2.2.2.2.trans grow⟩
  | exited success =>
    simp only [hpc] at h ⊢
    exact ⟨h.1, h.2.1, fun hx => (h.2.2 hx).trans grow⟩

/-- What one call does to the file: nothing, or one byte written between the end
of the old content and the end of the file, at the end itself when appending. -/
def Effect (base : ℕ) (cmd : Invocation) (content : List UInt8) (p : Proc)
    (r : List UInt8 × Proc) : Prop :=
  (r.1 = content ∧ r.2.i = p.i) ∨
  ∃ off, r.1 = writeAt content off 0 ∧ r.2.i = p.i + 1 ∧ base ≤ off ∧ off ≤ content.length ∧
    (cmd.isSeek = false → off = content.length)

theorem writeNul_run (content : List UInt8) (p : Proc) : writeNul content p =
    (writeAt content (if p.fd.append then content.length else p.fd.offset) 0,
      ⟨.loop, ⟨(if p.fd.append then content.length else p.fd.offset) + 1, p.fd.append⟩, p.i + 1⟩) := rfl

theorem advance_effect {base : ℕ} {cmd : Invocation} {content : List UInt8} {p : Proc}
    (hbase : base ≤ content.length) (h : Progress base cmd content p) :
    Progress base cmd (advance cmd content p).1 (advance cmd content p).2 ∧
      Effect base cmd content p (advance cmd content p) := by
  obtain ⟨pc, fd, i⟩ := p
  cases pc with
  | opening =>
    have hi : i = 0 := h
    subst i
    exact ⟨⟨rfl, Nat.zero_le _, fun _ => hbase⟩, .inl ⟨rfl, rfl⟩⟩
  | loop =>
    obtain ⟨happend, hle, hprog⟩ := h
    simp only at happend hle hprog
    unfold advance
    simp only
    split
    · rename_i hlt
      cases hx : cmd.isSeek with
      | true =>
        rw [hx] at happend hprog
        have hcount : i < cmd.val.toNat := by omega
        exact ⟨⟨hx, happend, hcount, hprog rfl, le_refl _⟩, .inl ⟨rfl, rfl⟩⟩
      | false =>
        rw [hx] at happend
        simp only [Bool.false_eq_true, if_false, writeNul_run, happend, Bool.not_false, if_true]
        refine ⟨⟨by simp [hx], by simp only; omega, by simp [hx]⟩, .inr ⟨_, rfl, rfl, hbase, le_refl _, ?_⟩⟩
        intro _
        rfl
    · exact ⟨⟨rfl, by simp only; omega, hprog⟩, .inl ⟨rfl, rfl⟩⟩
  | seeked =>
    obtain ⟨hx, happend, hlt, hlow, hhigh⟩ := h
    simp only at happend hlt hlow hhigh
    have hlen := writeAt_length content fd.offset 0
    simp only [advance, writeNul_run, happend, Bool.false_eq_true, if_false]
    refine ⟨⟨by simp [hx], by simp only; omega, fun _ => by simp only; omega⟩,
      .inr ⟨fd.offset, rfl, rfl, by omega, hhigh, by simp [hx]⟩⟩
  | exited success => exact ⟨h, .inl ⟨rfl, rfl⟩⟩

/-! ### What all processes know together -/

section Runs

variable {ι : Type} [Fintype ι] (cmd : ι → Invocation) (old : List UInt8)

def appenders : Finset ι := Finset.univ.filter (fun i => (cmd i).isSeek = false)

structure Inv (s : System ι (List UInt8) Proc) : Prop where
  kept : s.shared.take old.length = old
  base : old.length ≤ s.shared.length
  progress : ∀ i, Progress old.length (cmd i) s.shared (s.procs i)
  lower : old.length + ∑ i ∈ appenders cmd, (s.procs i).i ≤ s.shared.length
  upper : s.shared.length ≤ old.length + ∑ i, (s.procs i).i

theorem inv_start : Inv cmd old (start old) := by
  refine ⟨List.take_length, le_refl _, fun _ => rfl, ?_, ?_⟩
  · simp [start]
  · simp [start]

variable {cmd old} [DecidableEq ι]

theorem inv_step (i : ι) (ok : Bool) (s u : System ι (List UInt8) Proc) (hok : ok = true)
    (hs : Inv cmd old s) (h : stepOf (step cmd) i ok s = some u) : Inv cmd old u := by
  have hstep := (stepOf_eq_some h).1
  have hadv : advance (cmd i) s.shared (s.procs i) = (u.shared, u.procs i) := by
    unfold step at hstep
    subst hok
    cases hpc : (s.procs i).pc <;> simp only [hpc, if_true, Option.some.injEq] at hstep <;>
      first | exact hstep | cases hstep
  obtain ⟨hprog, heff⟩ := advance_effect hs.base (hs.progress i)
  rw [hadv] at hprog heff
  have hall := stepOf_sum (fun _ p => p.i) h Finset.univ
  have happ := stepOf_sum (fun _ p => p.i) h (appenders cmd)
  have hmem : i ∈ appenders cmd ↔ (cmd i).isSeek = false := by simp [appenders]
  simp only [Finset.mem_univ, if_true] at hall
  have hlow := hs.lower
  have hup := hs.upper
  have hbase := hs.base
  rcases heff with ⟨hsame, hi⟩ | ⟨off, hwrite, hi, hoff, hend, happend⟩
  · simp only at hsame hi
    rw [hi] at hall happ
    refine ⟨hsame ▸ hs.kept, hsame ▸ hs.base, ?_, ?_, ?_⟩
    · exact stepOf_local (fun x y => x.length ≤ y.length) (fun j => Progress old.length (cmd j))
        (fun j x y t hR hL => progress_stable hR hL) h (by rw [hsame]) hprog hs.progress
    · rw [hsame]
      split at happ <;> omega
    · rw [hsame]
      omega
  · simp only at hwrite hi
    have hlen := writeAt_length s.shared off 0
    rw [← hwrite] at hlen
    rw [hi] at hall happ
    refine ⟨?_, by omega, ?_, ?_, ?_⟩
    · rw [hwrite, writeAt_take _ _ hoff hbase]
      exact hs.kept
    · exact stepOf_local (fun x y => x.length ≤ y.length) (fun j => Progress old.length (cmd j))
        (fun j x y t hR hL => progress_stable hR hL) h (by omega) hprog hs.progress
    · by_cases hx : (cmd i).isSeek = false
      · rw [if_pos (hmem.2 hx), if_pos (hmem.2 hx)] at happ
        have hat := happend hx
        omega
      · rw [if_neg (fun hm => hx (hmem.1 hm)), if_neg (fun hm => hx (hmem.1 hm))] at happ
        omega
    · omega

variable (cmd old)

/-- Every interleaving in which no call fails and every process ends. -/
theorem append_bounds (schedule : List ι) (final : System ι (List UInt8) Proc)
    (h : run (step cmd) (schedule.map (fun i => (i, true))) (start old) = some final)
    (ended : ∀ i, (final.procs i).pc = .exited true) :
    old.length + max (∑ i ∈ appenders cmd, (cmd i).val.toNat)
        ((Finset.univ.filter (fun i => (cmd i).isSeek = true)).sup (fun i => (cmd i).val.toNat)) ≤
      final.shared.length ∧
    final.shared.length ≤ old.length + ∑ i, (cmd i).val.toNat ∧
    final.shared.take old.length = old ∧
    ((∀ i, (cmd i).isSeek = false) →
      final.shared.length = old.length + ∑ i, (cmd i).val.toNat) := by
  have inv : Inv cmd old final := by
    have hgood : ∀ p ∈ schedule.map (fun i => (i, true)), p.2 = true := by
      intro p hp
      obtain ⟨i, _, rfl⟩ := List.mem_map.1 hp
      rfl
    exact run_invariant (Inv cmd old) inv_step _ hgood (inv_start cmd old) h
  have count : ∀ i, (final.procs i).i = (cmd i).val.toNat ∧
      ((cmd i).isSeek = true → old.length + (cmd i).val.toNat ≤ final.shared.length) := by
    intro i
    have hp := inv.progress i
    rw [Progress, ended i] at hp
    exact ⟨hp.2.1, fun hx => hp.2.1 ▸ hp.2.2 hx⟩
  have hlow := inv.lower
  have hup := inv.upper
  simp only [fun i => (count i).1] at hlow hup
  have hseek : (Finset.univ.filter (fun i => (cmd i).isSeek = true)).sup
      (fun i => (cmd i).val.toNat) ≤ final.shared.length - old.length := by
    apply Finset.sup_le
    intro i hi
    have hsize := (count i).2 (Finset.mem_filter.1 hi).2
    omega
  refine ⟨by have hbase := inv.base; omega, hup, inv.kept, ?_⟩
  intro hall
  have huniv : appenders cmd = Finset.univ := by
    rw [appenders, Finset.filter_true_of_mem (fun i _ => hall i)]
  rw [huniv] at hlow
  omega

/-- One process of each mode, both writing one byte; the write without `O_APPEND`
falls on the other one's byte. -/
def mixed (x : Bool) : Invocation where
  argv := if x then ["atomic_append", "f", "1", "x"] else ["atomic_append", "f", "1"]
  val := 1
  argc := by cases x <;> decide

theorem append_bounds_mixed : ∃ final,
    run (step mixed) ([true, true, false, false, true, true, false].map (fun i => (i, true)))
      (start [7]) = some final ∧
    1 + max (∑ i ∈ appenders mixed, (mixed i).val.toNat)
        ((Finset.univ.filter (fun i => (mixed i).isSeek = true)).sup
          (fun i => (mixed i).val.toNat)) ≤ final.shared.length ∧
    final.shared.length ≤ 1 + ∑ i, (mixed i).val.toNat ∧ final.shared.take 1 = [7] ∧
    ((∀ i, (mixed i).isSeek = false) → final.shared.length = 1 + ∑ i, (mixed i).val.toNat) :=
  ⟨_, rfl, append_bounds mixed [7] [true, true, false, false, true, true, false] _ rfl (by decide)⟩

end Runs

end Stage0.AtomicAppend
