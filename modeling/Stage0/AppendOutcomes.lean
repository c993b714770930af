import Mathlib
import Stage0.AtomicAppend

set_option autoImplicit false

/-!
# What concurrent runs of `tlpi/fileio/atomic_append.c` can end with

Every size between the bounds is the size of the file after some interleaving. A round is a
set of processes whose writes all fall on one byte: at most one of them appends, and the
others have sought to the end before any of them writes.
-/
namespace Stage0.AppendOutcomes
open ByteFile Interleave AtomicAppend

/-! ### Rounds -/

section Rounds

variable {ι : Type} [DecidableEq ι]

def spend (r : ι → ℕ) (G : Finset ι) (i : ι) : ℕ := if i ∈ G then r i - 1 else r i

theorem spend_sum {r : ι → ℕ} {G : Finset ι} (hG : ∀ i ∈ G, 0 < r i) (S : Finset ι) :
    ∑ i ∈ S, spend r G i + (S ∩ G).card = ∑ i ∈ S, r i := by
  have hcard : (S ∩ G).card = ∑ i ∈ S, if i ∈ G then 1 else 0 := by
    rw [Finset.sum_ite_mem, Finset.sum_const, smul_eq_mul, mul_one]
  rw [hcard, ← Finset.sum_add_distrib]
  apply Finset.sum_congr rfl
  intro i _
  unfold spend
  split
  · rename_i hi
    have hpos := hG i hi
    omega
  · rfl

variable [Fintype ι]

/-- The demands `r` of the processes can be met in `n` rounds: those of `A` one at a time, the
others any number together. -/
structure Feasible (A : Finset ι) (r : ι → ℕ) (n : ℕ) : Prop where
  apart : ∑ i ∈ A, r i ≤ n
  together : ∀ i ∉ A, r i ≤ n
  enough : n ≤ ∑ i, r i

theorem feasible_done {A : Finset ι} {r : ι → ℕ} (h : Feasible A r 0) (i : ι) : r i = 0 := by
  by_cases hi : i ∈ A
  · exact Finset.sum_eq_zero_iff.1 (Nat.le_zero.1 h.apart) i hi
  · exact Nat.le_zero.1 (h.together i hi)

theorem feasible_round {A : Finset ι} {r : ι → ℕ} {n : ℕ}
    (h : Feasible A r (n + 1)) : ∃ (w : ι) (T : Finset ι), w ∉ T ∧ (∀ i ∈ T, i ∉ A) ∧
      (∀ i ∈ insert w T, 0 < r i) ∧ Feasible A (spend r (insert w T)) n := by
  have hspend : ∀ {G : Finset ι} (i : ι), spend r G i ≤ r i := by
    intro G i
    unfold spend
    split <;> omega
  let T := Finset.univ.filter (fun i => i ∉ A ∧ r i = n + 1)
  have hT : ∀ i ∈ T, i ∉ A ∧ r i = n + 1 := fun i hi => (Finset.mem_filter.1 hi).2
  have hsumT : ∑ i ∈ T, r i = T.card * (n + 1) := by
    rw [Finset.sum_congr rfl (fun i hi => (hT i hi).2), Finset.sum_const, smul_eq_mul]
  have hdisjoint : Disjoint A T := Finset.disjoint_left.2 (fun i hA hi => (hT i hi).1 hA)
  have hboth : ∑ i ∈ A, r i + T.card * (n + 1) ≤ ∑ i, r i := by
    rw [← hsumT, ← Finset.sum_union hdisjoint]
    exact Finset.sum_le_univ_sum_of_nonneg (fun i => Nat.zero_le _)
  have hcount : T.card ≤ T.card * (n + 1) := Nat.le_mul_of_pos_right _ n.succ_pos
  -- a round that contains all of `T` and lowers the sum over `A`, if it has to
  have hround : ∀ G : Finset ι, T ⊆ G → (∀ i ∈ G, 0 < r i) →
      (∑ i ∈ A, r i ≤ n ∨ 0 < (A ∩ G).card) → n + G.card ≤ ∑ i, r i →
      Feasible A (spend r G) n := by
    intro G hTG hpos hA hG
    have hsumA := spend_sum hpos A
    have hsum := spend_sum hpos Finset.univ
    rw [Finset.univ_inter] at hsum
    have happart := h.apart
    refine ⟨?_, fun i hi => ?_, by omega⟩
    · rcases hA with hA | hA
      · exact (Finset.sum_le_sum (fun i _ => hspend i)).trans hA
      · omega
    · have hle := h.together i hi
      by_cases hiG : i ∈ G
      · unfold spend
        rw [if_pos hiG]
        omega
      · have hlt : r i ≠ n + 1 := fun he =>
          hiG (hTG (Finset.mem_filter.2 ⟨Finset.mem_univ i, hi, he⟩))
        have hs := hspend (G := G) i
        omega
  have hmax : ∀ i ∈ T, 0 < r i := fun i hi => by
    rw [(hT i hi).2]
    exact n.succ_pos
  by_cases hA : ∑ i ∈ A, r i ≤ n
  · by_cases hempty : T = ∅
    · obtain ⟨w, -, hw⟩ := Finset.exists_ne_zero_of_sum_ne_zero
        (show ∑ i, r i ≠ 0 by have henough := h.enough; omega)
      have hpos : ∀ i ∈ insert w (∅ : Finset ι), 0 < r i := by
        intro i hi
        rw [Finset.insert_empty, Finset.mem_singleton] at hi
        exact hi ▸ Nat.pos_of_ne_zero hw
      refine ⟨w, ∅, Finset.notMem_empty w, fun i hi => absurd hi (Finset.notMem_empty i), hpos,
        hround _ ?_ hpos (.inl hA) ?_⟩
      · rw [hempty]
        exact Finset.empty_subset _
      · rw [Finset.insert_empty, Finset.card_singleton]
        exact h.enough
    · obtain ⟨w, hw⟩ := Finset.nonempty_iff_ne_empty.2 hempty
      have hinsert := Finset.insert_erase hw
      have hcard : n ≤ T.card * n := Nat.le_mul_of_pos_left n (Finset.card_pos.2 ⟨w, hw⟩)
      rw [Nat.mul_succ] at hboth
      refine ⟨w, T.erase w, Finset.notMem_erase w T, fun i hi => (hT i (Finset.mem_of_mem_erase hi)).1,
        ?_, ?_⟩
      · rw [hinsert]
        exact hmax
      · rw [hinsert]
        exact hround T (Finset.Subset.refl T) hmax (.inl hA) (by omega)
  · obtain ⟨w, hw, hne⟩ := Finset.exists_ne_zero_of_sum_ne_zero
      (show ∑ i ∈ A, r i ≠ 0 by omega)
    have hwT : w ∉ T := fun hmem => (hT w hmem).1 hw
    have hpos : ∀ i ∈ insert w T, 0 < r i := by
      intro i hi
      rcases Finset.mem_insert.1 hi with rfl | hi
      · exact Nat.pos_of_ne_zero hne
      · exact hmax i hi
    refine ⟨w, T, hwT, fun i hi => (hT i hi).1, hpos,
      hround _ (Finset.subset_insert w T) hpos (.inr ?_) ?_⟩
    · exact Finset.card_pos.2 ⟨w, Finset.mem_inter.2 ⟨hw, Finset.mem_insert_self w T⟩⟩
    · rw [Finset.card_insert_of_notMem hwT]
      omega

end Rounds

/-! ### The schedule of a round -/

section Schedule

variable {ι : Type} {cmd : ι → Invocation}

structure Looping (cmd : Invocation) (p : Proc) : Prop where
  pc : p.pc = .loop
  fd : p.fd.append = !cmd.isSeek

def aimed (cmd : Invocation) (content : List UInt8) (p : Proc) : Proc :=
  if cmd.isSeek then ⟨.seeked, ⟨content.length, p.fd.append⟩, p.i⟩ else p

theorem seek_step {i : ι} {content : List UInt8} {p : Proc} (hp : Looping (cmd i) p)
    (hi : p.i < (cmd i).val.toNat) (hseek : (cmd i).isSeek = true) :
    step cmd i true content p = some (content, aimed (cmd i) content p) := by
  obtain ⟨pc, fd, n⟩ := p
  obtain rfl : pc = .loop := hp.pc
  have hlt : (n : ℤ) < (cmd i).val := by
    simp only at hi
    omega
  simp only [step, advance, if_true, hlt, hseek, aimed]

theorem write_step {i : ι} {content now : List UInt8} {p : Proc} (hp : Looping (cmd i) p)
    (hi : p.i < (cmd i).val.toNat) (hnow : now = content ∨ (cmd i).isSeek = true ∧ now = content ++ [0]) :
    step cmd i true now (aimed (cmd i) content p) =
      some (content ++ [0], ⟨.loop, ⟨content.length + 1, p.fd.append⟩, p.i + 1⟩) := by
  obtain ⟨pc, fd, n⟩ := p
  obtain rfl : pc = .loop := hp.pc
  have hlt : (n : ℤ) < (cmd i).val := by
    simp only at hi
    omega
  have happend := hp.fd
  simp only at happend
  have hover : writeAt (content ++ [0]) content.length 0 = content ++ [0] := by
    rw [writeAt_over, List.tail_cons, List.append_nil]
  cases hseek : (cmd i).isSeek with
  | true =>
    rw [hseek] at happend
    have hwrite : writeAt now content.length 0 = content ++ [0] := by
      rcases hnow with rfl | ⟨-, rfl⟩
      · exact writeAt_end now 0
      · exact hover
    simp only [step, advance, if_true, aimed, hseek, writeNul_run, happend, Bool.not_true,
      Bool.false_eq_true, if_false, hwrite]
  | false =>
    rw [hseek] at happend hnow
    obtain rfl : now = content := hnow.resolve_right (fun h => Bool.false_ne_true h.1)
    simp only [step, advance, if_true, hlt, aimed, hseek, writeNul_run, happend, Bool.not_false,
      Bool.false_eq_true, if_false, writeAt_end]

variable [DecidableEq ι] {s : System ι (List UInt8) Proc} {w : ι} {T : Finset ι}

def wrote (content : List UInt8) (p : Proc) : Proc :=
  ⟨.loop, ⟨content.length + 1, p.fd.append⟩, p.i + 1⟩

theorem run_aim (G : Finset ι) (hloop : ∀ i, Looping (cmd i) (s.procs i))
    (hleft : ∀ i ∈ G, (s.procs i).i < (cmd i).val.toNat) :
    ∃ schedule : List ι, run (step cmd) (schedule.map (fun i => (i, true))) s =
      some ⟨s.shared, fun i => if i ∈ G then aimed (cmd i) s.shared (s.procs i) else s.procs i⟩ := by
  let S := G.filter (fun i => (cmd i).isSeek = true)
  have haim := @run_batch _ _ _ _ _ (step cmd) S.toList S.nodup_toList (fun _ => true) s.shared
    (fun i => aimed (cmd i) s.shared (s.procs i)) s rfl (fun i hi => by
      obtain ⟨hG, hseek⟩ := Finset.mem_filter.1 (Finset.mem_toList.1 hi)
      exact seek_step (hloop i) (hleft i hG) hseek)
  refine ⟨S.toList, haim.trans ?_⟩
  congr 2
  funext i
  simp only [Finset.mem_toList, S, Finset.mem_filter]
  by_cases hG : i ∈ G
  · by_cases hseek : (cmd i).isSeek = true
    · rw [if_pos ⟨hG, hseek⟩, if_pos hG]
    · rw [if_neg (fun h => hseek h.2), if_pos hG, aimed, if_neg hseek]
  · rw [if_neg (fun h => hG h.1), if_neg hG]

theorem run_round (hw : w ∉ T) (hT : ∀ i ∈ T, (cmd i).isSeek = true)
    (hloop : ∀ i, Looping (cmd i) (s.procs i))
    (hleft : ∀ i ∈ insert w T, (s.procs i).i < (cmd i).val.toNat) :
    ∃ schedule : List ι, run (step cmd) (schedule.map (fun i => (i, true))) s = some ⟨s.shared ++ [0],
      fun i => if i ∈ insert w T then wrote s.shared (s.procs i) else s.procs i⟩ := by
  obtain ⟨aims, haims⟩ := run_aim (insert w T) hloop hleft
  let P : ι → Proc := fun i => if i ∈ insert w T then aimed (cmd i) s.shared (s.procs i) else s.procs i
  have hP : ∀ i ∈ insert w T, P i = aimed (cmd i) s.shared (s.procs i) := fun i hi => if_pos hi
  have hwrite : ∀ i ∈ insert w T, ∀ now, now = s.shared ∨ (cmd i).isSeek = true ∧ now = s.shared ++ [0] →
      step cmd i true now (P i) = some (s.shared ++ [0], wrote s.shared (s.procs i)) := by
    intro i hi now hnow
    rw [hP i hi]
    exact write_step (hloop i) (hleft i hi) hnow
  have hfirst : stepOf (step cmd) w true ⟨s.shared, P⟩ =
      some ⟨s.shared ++ [0], Function.update P w (wrote s.shared (s.procs w))⟩ := by
    rw [stepOf, hwrite w (Finset.mem_insert_self w T) s.shared (.inl rfl)]
    rfl
  have hrest := @run_batch _ _ _ _ _ (step cmd) T.toList T.nodup_toList (fun _ => true)
    (s.shared ++ [0]) (fun i => wrote s.shared (s.procs i))
    ⟨s.shared ++ [0], Function.update P w (wrote s.shared (s.procs w))⟩ rfl (fun i hi => by
      have hmem := Finset.mem_toList.1 hi
      have hne : i ≠ w := fun h => hw (h ▸ hmem)
      simp only [Function.update_of_ne hne]
      exact hwrite i (Finset.mem_insert_of_mem hmem) _ (.inr ⟨hT i hmem, rfl⟩))
  refine ⟨aims ++ w :: T.toList, ?_⟩
  rw [List.map_append, List.map_cons]
  refine run_trans haims ?_
  rw [run, hfirst, Option.bind_some, hrest]
  congr 2
  funext i
  simp only [Finset.mem_toList, Finset.mem_insert]
  by_cases hi : i = w
  · subst hi
    simp only [if_neg hw, Function.update_self, true_or, if_true]
  · simp only [Function.update_of_ne hi, hi, false_or, P, Finset.mem_insert]
    split <;> rfl

end Schedule

/-! ### All outcomes -/

section Outcomes

variable {ι : Type} [DecidableEq ι] [Fintype ι] {cmd : ι → Invocation}

def remaining (cmd : ι → Invocation) (P : ι → Proc) (i : ι) : ℕ := (cmd i).val.toNat - (P i).i

theorem run_rounds (n : ℕ) {s : System ι (List UInt8) Proc} (hloop : ∀ i, Looping (cmd i) (s.procs i))
    (h : Feasible (appenders cmd) (remaining cmd s.procs) n) :
    ∃ (schedule : List ι) (P : ι → Proc), run (step cmd) (schedule.map (fun i => (i, true))) s =
        some ⟨s.shared ++ List.replicate n 0, P⟩ ∧
      (∀ i, Looping (cmd i) (P i)) ∧ ∀ i, remaining cmd P i = 0 := by
  induction n generalizing s with
  | zero => exact ⟨[], s.procs, by simp [run], hloop, feasible_done h⟩
  | succ n ih =>
    obtain ⟨w, T, hw, hT, hpos, hnext⟩ := feasible_round h
    have hseek : ∀ i ∈ T, (cmd i).isSeek = true := by
      intro i hi
      simpa [appenders] using hT i hi
    have hleft : ∀ i ∈ insert w T, (s.procs i).i < (cmd i).val.toNat :=
      fun i hi => Nat.lt_of_sub_pos (hpos i hi)
    obtain ⟨round, hround⟩ := run_round hw hseek hloop hleft
    let P : ι → Proc := fun i => if i ∈ insert w T then wrote s.shared (s.procs i) else s.procs i
    have hloop' : ∀ i, Looping (cmd i) (P i) := by
      intro i
      simp only [P]
      split
      · exact ⟨rfl, (hloop i).fd⟩
      · exact hloop i
    have hspend : spend (remaining cmd s.procs) (insert w T) = remaining cmd P := by
      funext i
      simp only [spend, remaining, P]
      split
      · change (cmd i).val.toNat - (s.procs i).i - 1 = (cmd i).val.toNat - ((s.procs i).i + 1)
        omega
      · rfl
    rw [hspend] at hnext
    obtain ⟨later, Q, hlater, hQ, hdone⟩ := @ih ⟨s.shared ++ [0], P⟩ hloop' hnext
    refine ⟨round ++ later, Q, ?_, hQ, hdone⟩
    rw [List.map_append, run_trans hround hlater, List.append_assoc]
    rfl

theorem run_opening (cmd : ι → Invocation) (old : List UInt8) :
    run (step cmd) (Finset.univ.toList.map (fun i => (i, true))) (start old) =
      some ⟨old, fun i => ⟨.loop, ⟨0, !(cmd i).isSeek⟩, 0⟩⟩ := by
  rw [@run_batch _ _ _ _ _ (step cmd) Finset.univ.toList (Finset.nodup_toList _) (fun _ => true) old
    (fun i => ⟨.loop, ⟨0, !(cmd i).isSeek⟩, 0⟩) (start old) rfl (fun i _ => rfl)]
  simp only [Finset.mem_toList, Finset.mem_univ, if_true]

theorem run_exit {s : System ι (List UInt8) Proc} (hloop : ∀ i, Looping (cmd i) (s.procs i))
    (hdone : ∀ i, remaining cmd s.procs i = 0) :
    run (step cmd) (Finset.univ.toList.map (fun i => (i, true))) s =
      some ⟨s.shared, fun i => { s.procs i with pc := .exited true }⟩ := by
  rw [@run_batch _ _ _ _ _ (step cmd) Finset.univ.toList (Finset.nodup_toList _) (fun _ => true)
    s.shared (fun i => { s.procs i with pc := .exited true }) s rfl (fun i _ => by
      have hend : ¬((s.procs i).i : ℤ) < (cmd i).val := by
        have hzero := hdone i
        unfold remaining at hzero
        omega
      simp only [step, (hloop i).pc, if_true, advance, hend, if_false])]
  simp only [Finset.mem_toList, Finset.mem_univ, if_true]

/-- After the old content there are only the bytes that were written. -/
def Extended (old content : List UInt8) : Prop := ∃ k, content = old ++ List.replicate k 0

theorem writeAt_extended {old content : List UInt8} {off : ℕ} (h : Extended old content)
    (hlow : old.length ≤ off) (hhigh : off ≤ content.length) : Extended old (writeAt content off 0) := by
  obtain ⟨k, rfl⟩ := h
  rcases Nat.lt_or_eq_of_le hhigh with hlt | rfl
  · refine ⟨k, ?_⟩
    rw [writeAt, if_pos hlt, List.set_append_right _ _ hlow, List.set_replicate_self]
  · refine ⟨k + 1, ?_⟩
    rw [writeAt_end, List.append_assoc, List.replicate_succ']

theorem run_extended {old : List UInt8} (schedule : List ι) {final : System ι (List UInt8) Proc}
    (h : run (step cmd) (schedule.map (fun i => (i, true))) (start old) = some final) :
    Inv cmd old final ∧ Extended old final.shared := by
  refine @run_invariant _ _ _ _ _ (step cmd) (fun ok => ok = true)
    (fun s => Inv cmd old s ∧ Extended old s.shared) ?_ _ ?_ (start old) final
    ⟨inv_start cmd old, 0, (List.append_nil old).symm⟩ h
  · rintro i ok s u rfl ⟨hinv, hext⟩ hstep
    refine ⟨inv_step i true s u rfl hinv hstep, ?_⟩
    obtain ⟨-, heffect⟩ := advance_effect hinv.base (hinv.progress i)
    have hadvance : advance (cmd i) s.shared (s.procs i) = (u.shared, u.procs i) := by
      have hcall := (stepOf_eq_some hstep).1
      unfold step at hcall
      cases hpc : (s.procs i).pc <;> simp only [hpc, if_true, Option.some.injEq, reduceCtorEq] at hcall <;>
        exact hcall
    rw [hadvance] at heffect
    rcases heffect with ⟨hsame, -⟩ | ⟨off, hwrite, -, hlow, hhigh, -⟩
    · simp only at hsame
      rw [hsame]
      exact hext
    · simp only at hwrite
      rw [hwrite]
      exact writeAt_extended hext hlow hhigh
  · intro p hp
    obtain ⟨i, -, rfl⟩ := List.mem_map.1 hp
    rfl

/-- The bytes that the runs can add: at least what those that append write, and what any other
writes alone; at most what all write. -/
theorem outcomes_iff (cmd : ι → Invocation) (old content : List UInt8) :
    (∃ (schedule : List ι) (final : System ι (List UInt8) Proc),
      run (step cmd) (schedule.map (fun i => (i, true))) (start old) = some final ∧
      (∀ i, (final.procs i).pc = .exited true) ∧ final.shared = content) ↔
    ∃ n, content = old ++ List.replicate n 0 ∧ ∑ i ∈ appenders cmd, (cmd i).val.toNat ≤ n ∧
      (∀ i, (cmd i).isSeek = true → (cmd i).val.toNat ≤ n) ∧ n ≤ ∑ i, (cmd i).val.toNat := by
  constructor
  · rintro ⟨schedule, final, hrun, hended, rfl⟩
    obtain ⟨hinv, n, hn⟩ := run_extended schedule hrun
    have hcount : ∀ i, (final.procs i).i = (cmd i).val.toNat ∧
        ((cmd i).isSeek = true → old.length + (cmd i).val.toNat ≤ final.shared.length) := by
      intro i
      have hprogress := hinv.progress i
      rw [Progress, hended i] at hprogress
      exact ⟨hprogress.2.1, fun hseek => hprogress.2.1 ▸ hprogress.2.2 hseek⟩
    have hlower := hinv.lower
    have hupper := hinv.upper
    simp only [fun i => (hcount i).1, hn, List.length_append, List.length_replicate] at hlower hupper
    refine ⟨n, hn, by omega, fun i hseek => ?_, by omega⟩
    have hsize := (hcount i).2 hseek
    rw [hn, List.length_append, List.length_replicate] at hsize
    omega
  · rintro ⟨n, rfl, hapart, htogether, henough⟩
    have hopen := run_opening cmd old
    have hfeasible : Feasible (appenders cmd) (remaining cmd fun i => ⟨.loop, ⟨0, !(cmd i).isSeek⟩, 0⟩) n := by
      refine ⟨hapart, fun i hi => htogether i ?_, henough⟩
      simpa [appenders] using hi
    obtain ⟨rounds, P, hrounds, hloop, hdone⟩ :=
      @run_rounds _ _ _ cmd n ⟨old, fun i => ⟨.loop, ⟨0, !(cmd i).isSeek⟩, 0⟩⟩ (fun i => ⟨rfl, rfl⟩) hfeasible
    have hexit := @run_exit _ _ _ cmd ⟨old ++ List.replicate n 0, P⟩ hloop hdone
    refine ⟨Finset.univ.toList ++ rounds ++ Finset.univ.toList,
      ⟨old ++ List.replicate n 0, fun i => { P i with pc := .exited true }⟩, ?_, fun i => rfl, rfl⟩
    rw [List.map_append, List.map_append]
    exact run_trans (run_trans hopen hrounds) hexit

end Outcomes

end Stage0.AppendOutcomes
