import Mathlib
import Stage0.CopyHoles

set_option autoImplicit false

/-!
# The writes of the hole-preserving copy

The two offsets drift apart over a run of NUL bytes and agree again before the
next byte is written, so that every byte goes to its own offset.
-/
namespace Stage0.HoleWrites
open ByteFile Script CopyHoles

section Program

variable (fails : Call → ℕ → Bool)

/-- `copyByte` up to its call of `write`, for a byte that is not NUL. -/
def beforeWrite (s : Copy) : Except Exit Copy := if s.inHole then seekHole fails s else .ok s

theorem copyByte_eq {c : UInt8} (hc : c ≠ 0) (s : Copy) :
    copyByte fails c s = beforeWrite fails s >>= writeByte fails c := by
  unfold copyByte beforeWrite
  rw [if_neg hc]
  split <;> rfl

variable (data old : List UInt8)

/-- The states at the head of the loop, after `k` bytes were read. -/
inductive Reached : ℕ → Copy → Prop where
  | start : Reached 0 ⟨data, old, ⟨0, false⟩, ⟨0, false⟩, false, []⟩
  | next {k : ℕ} {s u : Copy} {c : UInt8} {srcFd : Description} (head : Reached k s)
      (call : attempt fails .read s = .ok ()) (read : s.srcFd.read s.src = (some c, srcFd))
      (body : copyByte fails c { s with srcFd } = .ok u) : Reached (k + 1) u

end Program

section Runs

variable {fails : Call → ℕ → Bool} {data old : List UInt8}

theorem read_copied {k : ℕ} {s : Copy} (inv : Copied data old k s) {c : UInt8} {srcFd : Description}
    (read : s.srcFd.read s.src = (some c, srcFd)) : data[k]? = some c ∧ srcFd = ⟨k + 1, false⟩ := by
  rw [inv.srcFd, inv.src] at read
  cases hc : data[k]? with
  | none =>
    rw [read_none hc] at read
    cases read
  | some b =>
    rw [read_some hc] at read
    cases read
    exact ⟨rfl, rfl⟩

theorem reached_copied {k : ℕ} {s : Copy} (h : Reached fails data old k s) :
    Copied data old k s := by
  induction h with
  | start => exact copied_start data old
  | next _ _ read body ih =>
    obtain ⟨hc, rfl⟩ := read_copied ih read
    exact copyByte_copied ih hc body

theorem copyLoop_reached (fuel : ℕ) {k : ℕ} {s u : Copy} (head : Reached fails data old k s)
    (run : copyLoop fails fuel s = .ok u) : ∃ n, Reached fails data old n u := by
  induction fuel generalizing k s with
  | zero => cases run
  | succ fuel ih =>
    rw [copyLoop] at run
    obtain ⟨_, call, run⟩ := bind_eq_ok.1 run
    rcases hread : s.srcFd.read s.src with ⟨_ | c, srcFd⟩
    · rw [hread] at run
      cases run
      exact ⟨k, head⟩
    · rw [hread] at run
      obtain ⟨v, body, rest⟩ := bind_eq_ok.1 run
      exact ih (.next head call hread body) rest

theorem beforeWrite_synced {k : ℕ} {s v : Copy} (inv : Copied data old k s) {c : UInt8}
    (hc : data[k]? = some c) (h : beforeWrite fails { s with srcFd := ⟨k + 1, false⟩ } = .ok v) :
    v.dstFd = ⟨k, false⟩ := by
  have hdst := inv.dstFd
  have hle := dataEnd_le (data.take k)
  rw [(take_next hc).2] at hle
  unfold beforeWrite at h
  split at h
  · obtain rfl := seekHole_ok h (by simp only [hdst]; omega)
    simp only [hdst, Nat.add_sub_cancel]
  · rename_i hflat
    have hsync : dataEnd (data.take k) = k := by
      by_contra hne
      exact hflat (inv.inHole.trans (decide_eq_true hne))
    cases h
    rw [hdst, hsync]

end Runs

/-- One write for each byte that is not NUL, at the byte's own offset, in order. -/
structure HolesKept (data : List UInt8) (writes : List (ℕ × UInt8)) : Prop where
  exact : ∀ i b, (i, b) ∈ writes ↔ data[i]? = some b ∧ b ≠ 0
  increasing : writes.Pairwise (fun v w => v.1 < w.1)
  holes : ∀ i, data[i]? = some 0 → i ∉ writes.map Prod.fst

theorem dataWrites_holesKept (data : List UInt8) : HolesKept data (dataWrites data) where
  exact := mem_dataWrites data
  increasing := dataWrites_increasing data
  holes := by
    intro i hnul hmem
    obtain ⟨⟨j, b⟩, hw, rfl⟩ := List.mem_map.1 hmem
    obtain ⟨hget, hb⟩ := (mem_dataWrites data j b).1 hw
    exact hb (Option.some.inj (hget.symm.trans hnul))

theorem main_reached {fails : Call → ℕ → Bool} {argv : List String} {data : List UInt8}
    {dst : Option (List UInt8)} {final : Copy} (h : main fails argv (some data) dst = .ok final) :
    ∃ n, Reached fails data (dst.getD []) n final := by
  unfold main at h
  split at h
  · cases h
  · obtain ⟨_, _, h⟩ := bind_eq_ok.1 h
    obtain ⟨_, _, h⟩ := bind_eq_ok.1 h
    obtain ⟨s, hs, h⟩ := bind_eq_ok.1 h
    obtain ⟨_, _, h⟩ := bind_eq_ok.1 h
    obtain ⟨_, _, h⟩ := bind_eq_ok.1 h
    obtain rfl := Except.ok.inj h
    exact copyLoop_reached _ .start hs

/-- The holes of every source stay unwritten: a run that ends has written all bytes but
the NULs, and whichever calls fail, a byte is only about to be written at its own offset. -/
theorem main_keeps_holes (fails : Call → ℕ → Bool) (argv : List String) (data : List UInt8)
    (dst : Option (List UInt8)) (hargv : ¬(argv.length ≠ 3 ∨ argv[1]? = some "--help")) :
    (∃ final, main (fun _ _ => false) argv (some data) dst = .ok final) ∧
    (∀ final, main fails argv (some data) dst = .ok final →
      HolesKept data final.writes ∧ ∃ n, Reached fails data (dst.getD []) n final) ∧
    ∀ k s c srcFd, Reached fails data (dst.getD []) k s →
      s.srcFd.read s.src = (some c, srcFd) → c ≠ 0 →
      data[k]? = some c ∧ HolesKept (data.take k) s.writes ∧
      copyByte fails c { s with srcFd } =
        beforeWrite fails { s with srcFd } >>= writeByte fails c ∧
      ∀ v, beforeWrite fails { s with srcFd } = .ok v → v.dstFd = ⟨k, false⟩ := by
  refine ⟨main_total argv dst hargv, ?_, ?_⟩
  · intro final h
    refine ⟨?_, main_reached h⟩
    rw [(main_copied h).writes, List.take_length]
    exact dataWrites_holesKept data
  · intro k s c srcFd head read hne
    have inv := reached_copied head
    obtain ⟨hc, rfl⟩ := read_copied inv read
    refine ⟨hc, ?_, copyByte_eq fails hne _, fun v before => beforeWrite_synced inv hc before⟩
    rw [inv.writes]
    exact dataWrites_holesKept (data.take k)

theorem main_keeps_middle_hole :
    (∃ final, main (fun _ _ => false) ["cp", "a", "b"] (some [0, 65, 0, 0, 66]) none = .ok final) ∧
    (∀ final, main (fun _ _ => false) ["cp", "a", "b"] (some [0, 65, 0, 0, 66]) none = .ok final →
      HolesKept [0, 65, 0, 0, 66] final.writes ∧
        ∃ n, Reached (fun _ _ => false) [0, 65, 0, 0, 66] [] n final) ∧
    ∀ k s c srcFd, Reached (fun _ _ => false) [0, 65, 0, 0, 66] [] k s →
      s.srcFd.read s.src = (some c, srcFd) → c ≠ 0 →
      [0, 65, 0, 0, 66][k]? = some c ∧ HolesKept ([0, 65, 0, 0, 66].take k) s.writes ∧
      copyByte (fun _ _ => false) c { s with srcFd } =
        beforeWrite (fun _ _ => false) { s with srcFd } >>= writeByte (fun _ _ => false) c ∧
      ∀ v, beforeWrite (fun _ _ => false) { s with srcFd } = .ok v → v.dstFd = ⟨k, false⟩ :=
  main_keeps_holes (fun _ _ => false) ["cp", "a", "b"] [0, 65, 0, 0, 66] none (by decide)

end Stage0.HoleWrites
