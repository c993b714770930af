import Mathlib
import Stage0.Interleave

set_option autoImplicit false

/-!
# Concurrent runs of `tlpi/fileio/bad_exclusive_open.c`

Every process is given the same file. It opens it without `O_CREAT`, and when there is no such
file it takes itself for the creator and opens it again with `O_CREAT`.
-/
namespace Stage0.ExclusiveOpen
open Interleave

structure Invocation where
  argv : List String
  pid : ℤ

def Invocation.badUsage (cmd : Invocation) : Bool :=
  decide (cmd.argv.length < 2 ∨ cmd.argv[1]? = some "--help")

def Invocation.delays (cmd : Invocation) : Bool := decide (2 < cmd.argv.length)

inductive Line where
  | exists
  | missing
  | slept
  | created
  deriving DecidableEq, Repr

def Line.text (cmd : Invocation) : Line → String
  | .exists => "[PID " ++ toString cmd.pid ++ "] File \"" ++ cmd.argv.getD 1 "" ++ "\" already exists\n"
  | .missing =>
    "[PID " ++ toString cmd.pid ++ "] File \"" ++ cmd.argv.getD 1 "" ++ "\" doesn't exist yet\n"
  | .slept => "[PID " ++ toString cmd.pid ++ "] Done sleeping\n"
  | .created =>
    "[PID " ++ toString cmd.pid ++ "] Created file \"" ++ cmd.argv.getD 1 "" ++ "\" exclusively\n"

inductive Pc where
  | start
  | checked
  | slept
  | exited (success : Bool)
  deriving DecidableEq, Repr

structure Proc where
  pc : Pc
  out : List Line
  deriving DecidableEq, Repr

/-- The file, and the process whose `open` has made it. -/
inductive File (ι : Type) where
  | absent
  | old
  | createdBy (i : ι)
  deriving DecidableEq, Repr

section Program

variable {ι : Type}

def File.present : File ι → Bool
  | .absent => false
  | _ => true

def File.create (i : ι) : File ι → File ι
  | .absent => .createdBy i
  | file => file

def Proc.print (p : Proc) (pc : Pc) (line : Line) : Proc := ⟨pc, p.out ++ [line]⟩

def create (i : ι) (ok : Bool) (file : File ι) (p : Proc) : File ι × Proc :=
  if ok then (file.create i, p.print (.exited true) .created) else (file, { p with pc := .exited false })

/-- The next call of `main`; `ok` tells whether an `open` does without an error but `ENOENT`. -/
def step (cmd : ι → Invocation) : Step ι Bool (File ι) Proc :=
  fun i ok file p =>
    match p.pc with
    | .start =>
      if (cmd i).badUsage then some (file, { p with pc := .exited false })
      else if ¬ok then some (file, { p with pc := .exited false })
      else if file.present then some (file, p.print (.exited true) .exists)
      else some (file, p.print .checked .missing)
    | .checked =>
      if (cmd i).delays then some (file, p.print .slept .slept) else some (create i ok file p)
    | .slept => some (create i ok file p)
    | .exited _ => none

def start (file : File ι) : System ι (File ι) Proc := ⟨file, fun _ => ⟨.start, []⟩⟩

/-- The process has found no file, and has not opened it again. -/
def Proc.Doubtful (p : Proc) : Prop := p.pc = .checked ∨ p.pc = .slept

/-- The process says that it has created the file exclusively. -/
def Proc.Claims (p : Proc) : Prop := Line.created ∈ p.out

end Program

/-! ### One step -/

section Steps

variable {ι : Type} {cmd : ι → Invocation} {i : ι} {ok : Bool} {file file' : File ι} {p p' : Proc}

theorem step_cases (h : step cmd i ok file p = some (file', p')) :
    (p.pc = .start ∧ file' = file ∧ file.present = true ∧ p' = p.print (.exited true) .exists) ∨
    (p.pc = .start ∧ file' = file ∧ file.present = false ∧ p' = p.print .checked .missing) ∨
    (p.pc = .checked ∧ file' = file ∧ p' = p.print .slept .slept) ∨
    (p.Doubtful ∧ ok = true ∧ file' = file.create i ∧ p' = p.print (.exited true) .created) ∨
    ((∀ success, p.pc ≠ .exited success) ∧ file' = file ∧ p' = { p with pc := .exited false }) := by
  have hcreate : create i ok file p = (file', p') → p.Doubtful →
      (p.Doubtful ∧ ok = true ∧ file' = file.create i ∧ p' = p.print (.exited true) .created) ∨
        ((∀ success, p.pc ≠ .exited success) ∧ file' = file ∧ p' = { p with pc := .exited false }) := by
    intro h hp
    cases ok with
    | true =>
      cases h
      exact .inl ⟨hp, rfl, rfl, rfl⟩
    | false =>
      cases h
      refine .inr ⟨fun success hexit => ?_, rfl, rfl⟩
      rcases hp with hp | hp <;> cases hp.symm.trans hexit
  unfold step at h
  cases hpc : p.pc with
  | start =>
    simp only [hpc] at h
    split at h
    · cases h
      exact .inr (.inr (.inr (.inr ⟨by simp, rfl, rfl⟩)))
    · split at h
      · cases h
        exact .inr (.inr (.inr (.inr ⟨by simp, rfl, rfl⟩)))
      · split at h
        · rename_i hpresent
          cases h
          exact .inl ⟨rfl, rfl, hpresent, rfl⟩
        · rename_i hpresent
          cases h
          exact .inr (.inl ⟨rfl, rfl, Bool.eq_false_iff.2 hpresent, rfl⟩)
  | checked =>
    simp only [hpc] at h
    split at h
    · cases h
      exact .inr (.inr (.inl ⟨rfl, rfl, rfl⟩))
    · rw [hpc] at hcreate
      exact .inr (.inr (.inr (hcreate (Option.some.inj h) (.inl hpc))))
  | slept =>
    simp only [hpc] at h
    rw [hpc] at hcreate
    exact .inr (.inr (.inr (hcreate (Option.some.inj h) (.inr hpc))))
  | exited success =>
    simp only [hpc] at h
    cases h

theorem print_claims {pc : Pc} {line : Line} : (p.print pc line).Claims ↔ p.Claims ∨ line = .created := by
  unfold Proc.Claims Proc.print
  rw [List.mem_append, List.mem_singleton, eq_comm]

def Sound (p : Proc) : Prop := p.Claims → p.pc = .exited true

theorem start_sound (file : File ι) (i : ι) : Sound ((start file).procs i) := by
  intro hc
  cases hc

theorem step_sound (h : step cmd i ok file p = some (file', p')) (hp : Sound p) : Sound p' := by
  have hsilent : (∀ success, p.pc ≠ .exited success) → ¬p.Claims := fun hpc hc => hpc true (hp hc)
  intro hc
  rcases step_cases h with ⟨-, -, -, rfl⟩ | ⟨hpc, -, -, rfl⟩ | ⟨hpc, -, rfl⟩ | ⟨-, -, -, rfl⟩ |
    ⟨hpc, -, rfl⟩
  · rfl
  · exact absurd ((print_claims.1 hc).resolve_right (by decide)) (hsilent (by simp [hpc]))
  · exact absurd ((print_claims.1 hc).resolve_right (by decide)) (hsilent (by simp [hpc]))
  · rfl
  · exact absurd hc (hsilent hpc)

def Follows (b p : Proc) : Prop :=
  (b.Doubtful → p.Doubtful ∨ p.Claims ∨ p.pc = .exited false) ∧ (¬b.Doubtful → ¬p.Doubtful ∧ ¬p.Claims)

theorem step_follows (h : step cmd i ok file p = some (file', p')) (hfile : file.present = true)
    (hp : Sound p) {b : Proc} (hb : Follows b p) : Follows b p' := by
  obtain ⟨hdoubt, hsure⟩ := hb
  rcases step_cases h with ⟨hpc, -, -, rfl⟩ | ⟨-, -, habsent, -⟩ | ⟨hpc, -, rfl⟩ | ⟨hpc, -, -, rfl⟩ |
    ⟨-, -, rfl⟩
  · have hquiet : ¬p.Claims := by
      intro hc
      cases hpc.symm.trans (hp hc)
    have hstart : ¬p.Doubtful := by simp [Proc.Doubtful, hpc]
    refine ⟨fun hb => ?_, fun _ => ⟨by simp [Proc.Doubtful, Proc.print], fun hc => ?_⟩⟩
    · rcases hdoubt hb with hd | hc | hf
      · exact absurd hd hstart
      · exact absurd hc hquiet
      · cases hpc.symm.trans hf
    · exact hquiet ((print_claims.1 hc).resolve_right (by decide))
  · rw [hfile] at habsent
    cases habsent
  · exact ⟨fun _ => .inl (.inr rfl), fun hb => absurd (.inl hpc) (hsure hb).1⟩
  · exact ⟨fun _ => .inr (.inl (print_claims.2 (.inr rfl))), fun hb => absurd hpc (hsure hb).1⟩
  · exact ⟨fun _ => .inr (.inr rfl), fun hb => ⟨by simp [Proc.Doubtful], (hsure hb).2⟩⟩

end Steps

/-! ### The race -/

section Runs

variable {ι : Type} [DecidableEq ι] {cmd : ι → Invocation}

structure Fresh (s : System ι (File ι) Proc) : Prop where
  file : s.shared = .absent
  unended : ∀ i, (s.procs i).pc ≠ .exited true

/-- `c` has created the file, and the processes were as in `before` when it did. -/
structure Raced (before : System ι (File ι) Proc) (c : ι) (s : System ι (File ι) Proc) : Prop where
  file : s.shared = .createdBy c
  claims : (s.procs c).Claims
  doubtful : (before.procs c).Doubtful
  follows : ∀ i, Follows (before.procs i) (s.procs i)

theorem step_fresh {s u : System ι (File ι) Proc} {i : ι} {ok : Bool} (hs : Fresh s)
    (hsound : ∀ j, Sound (s.procs j)) (h : stepOf (step cmd) i ok s = some u) :
    Fresh u ∨ ok = true ∧ Raced s i u := by
  obtain ⟨hstep, hprocs⟩ := stepOf_eq_some h
  rw [hs.file] at hstep
  have hother : ∀ j, j ≠ i → u.procs j = s.procs j := by
    intro j hj
    rw [hprocs, Function.update_of_ne hj]
  have hstays : u.shared = .absent → (u.procs i).pc ≠ .exited true → Fresh u := by
    intro hfile hpc
    refine ⟨hfile, fun j => ?_⟩
    by_cases hj : j = i
    · rw [hj]
      exact hpc
    · rw [hother j hj]
      exact hs.unended j
  rcases step_cases hstep with ⟨-, -, hpresent, -⟩ | ⟨-, hfile, -, hp⟩ | ⟨-, hfile, hp⟩ |
    ⟨hpc, hok, hfile, hp⟩ | ⟨-, hfile, hp⟩
  · cases hpresent
  · exact .inl (hstays hfile (by simp [hp, Proc.print]))
  · exact .inl (hstays hfile (by simp [hp, Proc.print]))
  · have hclaims : (u.procs i).Claims := hp ▸ print_claims.2 (.inr rfl)
    refine .inr ⟨hok, hfile, hclaims, hpc, fun j => ?_⟩
    by_cases hj : j = i
    · subst hj
      exact ⟨fun _ => .inr (.inl hclaims), fun hb => absurd hpc hb⟩
    · rw [hother j hj]
      exact ⟨.inl, fun hb => ⟨hb, fun hc => hs.unended j (hsound j hc)⟩⟩
  · exact .inl (hstays hfile (by simp [hp]))

theorem step_raced {s u before : System ι (File ι) Proc} {c i : ι} {ok : Bool} (hs : Raced before c s)
    (hsound : ∀ j, Sound (s.procs j)) (h : stepOf (step cmd) i ok s = some u) : Raced before c u := by
  obtain ⟨hstep, hprocs⟩ := stepOf_eq_some h
  rw [hs.file] at hstep
  have hfollows : ∀ j, Follows (before.procs j) (u.procs j) := by
    intro j
    by_cases hj : j = i
    · subst hj
      exact step_follows hstep rfl (hsound j) (hs.follows j)
    · rw [hprocs, Function.update_of_ne hj]
      exact hs.follows j
  have hfile : u.shared = .createdBy c := by
    rcases step_cases hstep with ⟨-, hfile, -, -⟩ | ⟨-, hfile, -, -⟩ | ⟨-, hfile, -⟩ | ⟨-, -, hfile, -⟩ |
      ⟨-, hfile, -⟩ <;> exact hfile
  refine ⟨hfile, ?_, hs.doubtful, hfollows⟩
  by_cases hc : c = i
  · subst hc
    have hended := hsound c hs.claims
    rw [step, hended] at hstep
    cases hstep
  · rw [hprocs, Function.update_of_ne hc]
    exact hs.claims

theorem run_sound {schedule : List (ι × Bool)} {s u : System ι (File ι) Proc}
    (hs : ∀ i, Sound (s.procs i)) (h : run (step cmd) schedule s = some u) : ∀ i, Sound (u.procs i) := by
  refine @run_invariant _ _ _ _ _ (step cmd) (fun _ => True) (fun s => ∀ i, Sound (s.procs i)) ?_ schedule
    (fun _ _ => trivial) s u hs h
  intro i ok s u _ hs hstep j
  obtain ⟨hcall, hprocs⟩ := stepOf_eq_some hstep
  by_cases hj : j = i
  · subst hj
    exact step_sound hcall (hs j)
  · rw [hprocs, Function.update_of_ne hj]
    exact hs j

theorem run_races (schedule : List (ι × Bool)) {final : System ι (File ι) Proc}
    (h : run (step cmd) schedule (start .absent) = some final) :
    Fresh final ∨ ∃ c pre post before, schedule = pre ++ (c, true) :: post ∧
      run (step cmd) pre (start .absent) = some before ∧ before.shared = .absent ∧ Raced before c final := by
  induction schedule using List.reverseRecOn generalizing final with
  | nil =>
    cases h
    exact .inl ⟨rfl, fun i => by simp [start]⟩
  | append_singleton schedule p ih =>
    obtain ⟨i, ok⟩ := p
    rw [run_append] at h
    obtain ⟨s, hs, hlast⟩ := Option.bind_eq_some_iff.1 h
    obtain ⟨u, hstep, hend⟩ := Option.bind_eq_some_iff.1 hlast
    cases hend
    have hsound := run_sound (start_sound .absent) hs
    rcases ih hs with hfresh | ⟨c, pre, post, before, rfl, hpre, habsent, hraced⟩
    · rcases step_fresh hfresh hsound hstep with hfresh' | ⟨rfl, hraced⟩
      · exact .inl hfresh'
      · exact .inr ⟨i, schedule, [], s, rfl, hs, hfresh.file, hraced⟩
    · refine .inr ⟨c, pre, post ++ [(i, ok)], before, ?_, hpre, habsent, step_raced hraced hsound hstep⟩
      rw [List.append_assoc]
      rfl

/-- As long as there is no file nobody says that it has created it. Otherwise one process has, and
says so; and of the others that end with success those say so too that were then in doubt. -/
theorem claims_race (schedule : List (ι × Bool)) (final : System ι (File ι) Proc)
    (h : run (step cmd) schedule (start .absent) = some final) :
    (final.shared = .absent ∧ ∀ i, ¬(final.procs i).Claims) ∨
    ∃ c pre post before, schedule = pre ++ (c, true) :: post ∧
      run (step cmd) pre (start .absent) = some before ∧ before.shared = .absent ∧
      final.shared = .createdBy c ∧ (final.procs c).Claims ∧
      (∀ i, (final.procs i).Claims → (before.procs i).Doubtful) ∧
      ∀ i, (final.procs i).pc = .exited true → (before.procs i).Doubtful → (final.procs i).Claims := by
  have hsound := run_sound (start_sound .absent) h
  rcases run_races schedule h with hfresh | ⟨c, pre, post, before, hschedule, hpre, habsent, hraced⟩
  · exact .inl ⟨hfresh.file, fun i hc => hfresh.unended i (hsound i hc)⟩
  · refine .inr ⟨c, pre, post, before, hschedule, hpre, habsent, hraced.file, hraced.claims, ?_, ?_⟩
    · intro i hc
      by_contra hb
      exact ((hraced.follows i).2 hb).2 hc
    · intro i hended hb
      rcases (hraced.follows i).1 hb with hd | hc | hfailed
      · rcases hd with hd | hd <;> cases hd.symm.trans hended
      · exact hc
      · cases hfailed.symm.trans hended

end Runs

def pair (sleeps : Bool) : Invocation :=
  if sleeps then ⟨["bad_exclusive_open", "file", "sleep"], 1⟩ else ⟨["bad_exclusive_open", "file"], 2⟩

/-- Both look before one of them creates the file. -/
theorem claims_race_pair : ∃ final,
    run (step pair) [(true, true), (true, true), (false, true), (false, true), (true, true)]
      (start .absent) = some final ∧ (final.procs true).Claims ∧
    ((final.shared = .absent ∧ ∀ i, ¬(final.procs i).Claims) ∨
      ∃ c pre post before,
        [(true, true), (true, true), (false, true), (false, true), (true, true)] = pre ++ (c, true) :: post ∧
        run (step pair) pre (start .absent) = some before ∧ before.shared = .absent ∧
        final.shared = .createdBy c ∧ (final.procs c).Claims ∧
        (∀ i, (final.procs i).Claims → (before.procs i).Doubtful) ∧
        ∀ i, (final.procs i).pc = .exited true → (before.procs i).Doubtful → (final.procs i).Claims) :=
  ⟨_, rfl, by unfold Proc.Claims; decide, claims_race _ _ rfl⟩

/-! ### Every outcome of the race -/

section Outcomes

variable {ι : Type} {cmd : ι → Invocation}

def ready (cmd : Invocation) : Proc :=
  if cmd.delays then ⟨.slept, [.missing, .slept]⟩ else ⟨.checked, [.missing]⟩

theorem ready_create (i : ι) (file : File ι) : step cmd i true file (ready (cmd i)) =
    some (file.create i, (ready (cmd i)).print (.exited true) .created) := by
  unfold ready
  cases hdelays : (cmd i).delays with
  | true => rfl
  | false => simp [step, hdelays, create]

variable [DecidableEq ι] {S : Finset ι}

theorem run_ready (husage : ∀ i, (cmd i).badUsage = false) (S : Finset ι) :
    ∃ schedule, run (step cmd) schedule (start .absent) =
      some ⟨.absent, fun i => if i ∈ S then ready (cmd i) else ⟨.start, []⟩⟩ := by
  have hcheck := @run_batch _ _ _ _ _ (step cmd) S.toList S.nodup_toList (fun _ => true) File.absent
    (fun _ => ⟨.checked, [.missing]⟩) (start .absent) rfl (fun i _ => by simp [step, start, husage,
      File.present, Proc.print])
  have hsleep := @run_batch _ _ _ _ _ (step cmd) (S.filter (fun i => (cmd i).delays = true)).toList
    (Finset.nodup_toList _) (fun _ => true) File.absent (fun _ => ⟨.slept, [.missing, .slept]⟩)
    ⟨.absent, fun i => if i ∈ S.toList then ⟨.checked, [.missing]⟩ else (start .absent).procs i⟩ rfl
    (fun i hi => by
      obtain ⟨hmem, hdelays⟩ := Finset.mem_filter.1 (Finset.mem_toList.1 hi)
      simp only [Finset.mem_toList, hmem, if_true, step, hdelays, Proc.print]
      rfl)
  refine ⟨_, (run_trans hcheck hsleep).trans ?_⟩
  congr 2
  funext i
  simp only [Finset.mem_toList, Finset.mem_filter, start, ready]
  by_cases hi : i ∈ S <;> by_cases hdelays : (cmd i).delays = true <;> simp [hi, hdelays]

theorem run_create (hS : S.Nonempty) : ∃ schedule c, c ∈ S ∧ run (step cmd) schedule
    ⟨.absent, fun i => if i ∈ S then ready (cmd i) else ⟨.start, []⟩⟩ = some ⟨.createdBy c, fun i =>
      if i ∈ S then (ready (cmd i)).print (.exited true) .created else ⟨.start, []⟩⟩ := by
  obtain ⟨c, hc⟩ := hS
  have hfirst : stepOf (step cmd) c true ⟨.absent, fun i => if i ∈ S then ready (cmd i) else ⟨.start, []⟩⟩ =
      some ⟨.createdBy c, Function.update (fun i => if i ∈ S then ready (cmd i) else ⟨.start, []⟩) c
        ((ready (cmd c)).print (.exited true) .created)⟩ := by
    simp only [stepOf, if_pos hc, ready_create]
    rfl
  have hrest := @run_batch _ _ _ _ _ (step cmd) (S.erase c).toList (Finset.nodup_toList _)
    (fun _ => true) (File.createdBy c) (fun i => (ready (cmd i)).print (.exited true) .created)
    ⟨.createdBy c, Function.update (fun i => if i ∈ S then ready (cmd i) else ⟨.start, []⟩) c
      ((ready (cmd c)).print (.exited true) .created)⟩ rfl (fun i hi => by
        obtain ⟨hne, hmem⟩ := Finset.mem_erase.1 (Finset.mem_toList.1 hi)
        simp only [Function.update_of_ne hne, if_pos hmem, ready_create]
        rfl)
  refine ⟨(c, true) :: (S.erase c).toList.map (fun i => (i, true)), c, hc, ?_⟩
  rw [run, hfirst, Option.bind_some, hrest]
  congr 2
  funext i
  simp only [Finset.mem_toList, Finset.mem_erase]
  by_cases hi : i = c
  · subst hi
    simp [hc]
  · simp only [ne_eq, hi, not_false_eq_true, true_and, Function.update_of_ne hi]
    split <;> rfl

variable [Fintype ι]

/-- The processes that end up saying that they have created the file can be any of them, but not
none. -/
theorem claims_any [Nonempty ι] (husage : ∀ i, (cmd i).badUsage = false) (S : Finset ι) :
    (∃ schedule final, run (step cmd) schedule (start .absent) = some final ∧
      (∀ i, (final.procs i).pc = .exited true) ∧ ∀ i, (final.procs i).Claims ↔ i ∈ S) ↔
    S.Nonempty := by
  constructor
  · rintro ⟨schedule, final, hrun, hended, hclaims⟩
    obtain ⟨i⟩ := ‹Nonempty ι›
    rcases run_races schedule hrun with hfresh | ⟨c, _, _, _, _, _, _, hraced⟩
    · exact absurd (hended i) (hfresh.unended i)
    · exact ⟨c, (hclaims c).1 hraced.claims⟩
  · intro hS
    obtain ⟨checks, hchecks⟩ := run_ready husage S
    obtain ⟨creates, c, -, hcreates⟩ := @run_create _ cmd _ S hS
    have hlate := @run_batch _ _ _ _ _ (step cmd) Sᶜ.toList (Finset.nodup_toList _)
      (fun _ => true) (File.createdBy c) (fun _ => ⟨.exited true, [.exists]⟩)
      ⟨.createdBy c, fun i => if i ∈ S then (ready (cmd i)).print (.exited true) .created
        else ⟨.start, []⟩⟩ rfl (fun i hi => by
          have hnot := Finset.mem_compl.1 (Finset.mem_toList.1 hi)
          simp only [if_neg hnot, step, husage]
          rfl)
    refine ⟨_, _, run_trans (run_trans hchecks hcreates) hlate, fun i => ?_, fun i => ?_⟩
    · by_cases hi : i ∈ S <;> simp [hi, Proc.print]
    · by_cases hi : i ∈ S
      · simp [hi, Proc.Claims, Proc.print]
      · simp [hi, Proc.Claims]

end Outcomes

theorem claims_any_pair : (∃ schedule final, run (step pair) schedule (start .absent) = some final ∧
      (∀ i, (final.procs i).pc = .exited true) ∧
      ∀ i, (final.procs i).Claims ↔ i ∈ (Finset.univ : Finset Bool)) ↔
    (Finset.univ : Finset Bool).Nonempty :=
  claims_any (fun i => by cases i <;> rfl) Finset.univ

end Stage0.ExclusiveOpen
