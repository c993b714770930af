import Mathlib
import Stage0.ByteFile
import Stage0.Script

set_option autoImplicit false

/-!
# The hole-preserving copy of `tlpi/fileio/cp.c`

The source and the destination are two regular files. Every system call may
fail; a failed call ends the run through `errExit`.
-/
namespace Stage0.CopyHoles
open ByteFile Script

inductive Call where
  | openSrc | openDst | read | tellSrc | tellDst | seekDst | write | closeSrc | closeDst
  deriving DecidableEq, Repr

def Call.name : Call → String
  | .openSrc | .openDst => "open"
  | .read => "read"
  | .tellSrc | .tellDst | .seekDst => "lseek"
  | .write => "write"
  | .closeSrc | .closeDst => "close"

inductive Exit where
  | usageErr
  | errExit (call : String)
  | outOfFuel
  deriving DecidableEq, Repr

/-- Both files, the descriptions of `src_fd` and `dst_fd`, `inHole`, and the
offsets and bytes written to the destination so far. -/
structure Copy where
  src : List UInt8
  dst : List UInt8
  srcFd : Description
  dstFd : Description
  inHole : Bool
  writes : List (ℕ × UInt8)
  deriving DecidableEq, Repr

section Program

-- which calls fail: a call is told apart by its place and by the bytes read before it
variable (fails : Call → ℕ → Bool)

def attempt (place : Call) (s : Copy) : Except Exit Unit :=
  if fails place s.srcFd.offset then .error (.errExit place.name) else .ok ()

def seekHole (s : Copy) : Except Exit Copy := do
  attempt fails .tellSrc s
  let currSrcOffset := s.srcFd.offset
  attempt fails .tellDst s
  let currDstOffset := s.dstFd.offset
  if currSrcOffset ≠ currDstOffset then
    attempt fails .seekDst s
    return { s with dstFd := ⟨currSrcOffset - 1, s.dstFd.append⟩, inHole := false }
  else
    return s

def writeByte (c : UInt8) (s : Copy) : Except Exit Copy := do
  attempt fails .write s
  let (pos, dstFd, dst) := s.dstFd.write s.dst c
  return { s with dstFd, dst, writes := s.writes ++ [(pos, c)] }

def copyByte (c : UInt8) (s : Copy) : Except Exit Copy :=
  if c = 0 then .ok { s with inHole := true }
  else if s.inHole then seekHole fails s >>= writeByte fails c
  else writeByte fails c s

def copyLoop : ℕ → Copy → Except Exit Copy
  | 0, _ => .error .outOfFuel
  | fuel + 1, s => do
    attempt fails .read s
    match s.srcFd.read s.src with
    | (none, _) => return s
    | (some c, srcFd) => copyByte fails c { s with srcFd } >>= copyLoop fuel

/-- `main`, with `none` for a file that does not exist. The destination is opened
without truncation, and created empty when it does not exist. -/
def main (argv : List String) (src dst : Option (List UInt8)) : Except Exit Copy :=
  if argv.length ≠ 3 ∨ argv[1]? = some "--help" then .error .usageErr
  else match src with
    | none => .error (.errExit "open")
    | some content => do
      let start : Copy := ⟨content, dst.getD [], ⟨0, false⟩, ⟨0, false⟩, false, []⟩
      attempt fails .openSrc start
      attempt fails .openDst start
      let final ← copyLoop fails (content.length + 1) start
      attempt fails .closeSrc final
      attempt fails .closeDst final
      return final

end Program

/-! ### The loop invariant -/

/-- The run after `k` bytes of `data` have been copied over `old`: the offsets,
the flag and the writes are determined by the bytes read. -/
structure Copied (data old : List UInt8) (k : ℕ) (s : Copy) : Prop where
  src : s.src = data
  srcFd : s.srcFd = ⟨k, false⟩
  dst : s.dst = applyWrites old (dataWrites (data.take k))
  writes : s.writes = dataWrites (data.take k)
  dstFd : s.dstFd = ⟨dataEnd (data.take k), false⟩
  inHole : s.inHole = decide (dataEnd (data.take k) ≠ k)

theorem copied_start (data old : List UInt8) :
    Copied data old 0 ⟨data, old, ⟨0, false⟩, ⟨0, false⟩, false, []⟩ :=
  ⟨rfl, rfl, rfl, rfl, rfl, rfl⟩

section Steps

variable {fails : Call → ℕ → Bool} {data old : List UInt8}

theorem seekHole_ok {s u : Copy} (h : seekHole fails s = .ok u)
    (drift : s.srcFd.offset ≠ s.dstFd.offset) :
    u = { s with dstFd := ⟨s.srcFd.offset - 1, s.dstFd.append⟩, inHole := false } := by
  unfold seekHole at h
  obtain ⟨_, _, h⟩ := bind_eq_ok.1 h
  obtain ⟨_, _, h⟩ := bind_eq_ok.1 h
  rw [if_pos drift] at h
  obtain ⟨_, _, h⟩ := bind_eq_ok.1 h
  exact (Except.ok.inj h).symm

theorem writeByte_ok {c : UInt8} {s u : Copy} (h : writeByte fails c s = .ok u)
    (plain : s.dstFd.append = false) :
    u = { s with dstFd := ⟨s.dstFd.offset + 1, false⟩, dst := writeAt s.dst s.dstFd.offset c,
                 writes := s.writes ++ [(s.dstFd.offset, c)] } := by
  unfold writeByte at h
  obtain ⟨_, _, h⟩ := bind_eq_ok.1 h
  simp only [Description.write, plain, Bool.false_eq_true, if_false] at h
  exact (Except.ok.inj h).symm

theorem take_next {k : ℕ} {c : UInt8} (h : data[k]? = some c) :
    data.take (k + 1) = data.take k ++ [c] ∧ (data.take k).length = k := by
  have hk : k < data.length := (List.getElem?_eq_some_iff.1 h).1
  constructor
  · rw [List.take_add_one, h]
    rfl
  · rw [List.length_take]
    omega

theorem copyByte_data {k : ℕ} {c : UInt8} {s u : Copy} (inv : Copied data old k s)
    (hc : c ≠ 0) (hend : dataEnd (data.take k) ≤ k)
    (h : copyByte fails c { s with srcFd := ⟨k + 1, false⟩ } = .ok u) :
    u = ⟨data, writeAt s.dst k c, ⟨k + 1, false⟩, ⟨k + 1, false⟩, false, s.writes ++ [(k, c)]⟩ := by
  have hdst := inv.dstFd
  have hsrc := inv.src
  have hhole := inv.inHole
  obtain ⟨src, dst, srcFd, dstFd, inHole, writes⟩ := s
  simp only at hdst hsrc hhole
  subst hdst hsrc hhole
  simp only [copyByte, hc, if_false] at h
  split at h
  · obtain ⟨v, hv, hw⟩ := bind_eq_ok.1 h
    obtain rfl := seekHole_ok hv (by simp only; omega)
    exact writeByte_ok hw rfl
  · rename_i hflat
    have hsync : dataEnd (src.take k) = k := by simpa using hflat
    have hu := writeByte_ok h rfl
    simp only [hsync, ne_eq, not_true_eq_false, decide_false] at hu
    exact hu

theorem copyByte_copied {k : ℕ} {c : UInt8} {s u : Copy} (inv : Copied data old k s)
    (hc : data[k]? = some c) (h : copyByte fails c { s with srcFd := ⟨k + 1, false⟩ } = .ok u) :
    Copied data old (k + 1) u := by
  obtain ⟨htake, hlen⟩ := take_next hc
  have hend := dataEnd_le (data.take k)
  have hwrites := dataWrites_concat (data.take k) c
  have hdata := dataEnd_concat (data.take k) c
  rw [← htake] at hwrites hdata
  rw [hlen] at hwrites hdata hend
  by_cases hz : c = 0
  · rw [if_pos hz] at hwrites hdata
    rw [List.append_nil] at hwrites
    unfold copyByte at h
    rw [if_pos hz] at h
    obtain rfl := Except.ok.inj h
    refine ⟨inv.src, rfl, ?_, ?_, ?_, ?_⟩
    · rw [hwrites]
      exact inv.dst
    · rw [hwrites]
      exact inv.writes
    · rw [hdata]
      exact inv.dstFd
    · rw [hdata]
      exact (decide_eq_true (by omega)).symm
  · rw [if_neg hz] at hwrites hdata
    obtain rfl := copyByte_data inv hz hend h
    refine ⟨rfl, rfl, ?_, ?_, ?_, ?_⟩
    · rw [hwrites, applyWrites_append, ← inv.dst]
    · rw [hwrites, inv.writes]
    · rw [hdata]
    · simp [hdata]

theorem copyLoop_copied (fuel k : ℕ) {s u : Copy} (inv : Copied data old k s)
    (hk : k ≤ data.length) (h : copyLoop fails fuel s = .ok u) :
    Copied data old data.length u := by
  induction fuel generalizing k s with
  | zero => cases h
  | succ fuel ih =>
    rw [copyLoop] at h
    obtain ⟨_, _, h⟩ := bind_eq_ok.1 h
    rw [inv.srcFd, inv.src] at h
    cases hc : data[k]? with
    | none =>
      rw [read_none hc] at h
      obtain rfl := Except.ok.inj h
      have hlast : k = data.length := by
        have hle := List.getElem?_eq_none_iff.1 hc
        omega
      exact hlast ▸ inv
    | some c =>
      rw [read_some hc] at h
      obtain ⟨v, hv, h⟩ := bind_eq_ok.1 h
      have hlt := (List.getElem?_eq_some_iff.1 hc).1
      rw [← inv.src] at hv
      exact ih (k + 1) (copyByte_copied inv hc hv) (by omega) h

theorem main_copied {argv : List String} {dst : Option (List UInt8)} {final : Copy}
    (h : main fails argv (some data) dst = .ok final) :
    Copied data (dst.getD []) data.length final := by
  unfold main at h
  split at h
  · cases h
  · obtain ⟨_, _, h⟩ := bind_eq_ok.1 h
    obtain ⟨_, _, h⟩ := bind_eq_ok.1 h
    obtain ⟨s, hs, h⟩ := bind_eq_ok.1 h
    obtain ⟨_, _, h⟩ := bind_eq_ok.1 h
    obtain ⟨_, _, h⟩ := bind_eq_ok.1 h
    obtain rfl := Except.ok.inj h
    exact copyLoop_copied _ 0 (copied_start data (dst.getD [])) (Nat.zero_le _) hs

theorem copyLoop_total (fuel k : ℕ) {s : Copy} (inv : Copied data old k s)
    (hk : k ≤ data.length) (hfuel : data.length < k + fuel) :
    ∃ u, copyLoop (fun _ _ => false) fuel s = .ok u := by
  induction fuel generalizing k s with
  | zero => omega
  | succ fuel ih =>
    rw [copyLoop, inv.srcFd, inv.src]
    cases hc : data[k]? with
    | none =>
      rw [read_none hc]
      exact ⟨s, rfl⟩
    | some c =>
      rw [read_some hc]
      have hlt := (List.getElem?_eq_some_iff.1 hc).1
      have hbody : ∃ v, copyByte (fun _ _ => false) c { s with srcFd := ⟨k + 1, false⟩ } = .ok v := by
        unfold copyByte seekHole writeByte
        split
        · exact ⟨_, rfl⟩
        · split
          · simp only [ne_eq]
            split <;> exact ⟨_, rfl⟩
          · exact ⟨_, rfl⟩
      obtain ⟨v, hv⟩ := hbody
      obtain ⟨u, hu⟩ := ih (k + 1) (copyByte_copied inv hc hv) (by omega) (by omega)
      rw [inv.src] at hv
      refine ⟨u, ?_⟩
      change (copyByte _ c _ >>= copyLoop _ fuel) = _
      rw [hv]
      exact hu

theorem main_total (argv : List String) (dst : Option (List UInt8))
    (hargv : ¬(argv.length ≠ 3 ∨ argv[1]? = some "--help")) :
    ∃ final, main (fun _ _ => false) argv (some data) dst = .ok final := by
  obtain ⟨u, hu⟩ := copyLoop_total (data.length + 1) 0 (copied_start data (dst.getD []))
    (Nat.zero_le _) (by omega)
  refine ⟨u, ?_⟩
  rw [main, if_neg hargv]
  change (copyLoop _ _ _ >>= _) = _
  rw [hu]
  rfl

end Steps

/-! ### What the destination reads as -/

/-- The old content shows nowhere: it is no longer than the source, is NUL where
the source has a NUL, and holds the length of a source that ends in a NUL. -/
def Hidden (data old : List UInt8) : Prop :=
  old.length ≤ data.length ∧
  (∀ i < old.length, data[i]? = some 0 → old[i]? = some 0) ∧
  (old.length = data.length ∨ data.getLast? ≠ some 0)

theorem applyWrites_eq_iff (data old : List UInt8) :
    applyWrites old (dataWrites data) = data ↔ Hidden data old := by
  have hlen := applyWrites_length old data
  have hend := dataEnd_le data
  have hlast := dataEnd_eq_length_iff data
  constructor
  · intro h
    rw [h] at hlen
    refine ⟨by omega, ?_, ?_⟩
    · intro i hi hzero
      have hget := applyWrites_get old data i
      rw [h, hzero, nonNul_zero, Option.none_or, List.getElem?_eq_getElem hi, Option.some_or] at hget
      rw [List.getElem?_eq_getElem hi, hget]
    · by_cases he : old.length = data.length
      · exact .inl he
      · exact .inr (hlast.1 (by omega))
  · rintro ⟨hle, hnul, hfull⟩
    have hreach : max old.length (dataEnd data) = data.length := by
      rcases hfull with he | hne
      · omega
      · have heq := hlast.2 hne
        omega
    apply List.ext_getElem?
    intro i
    rw [applyWrites_get]
    cases hc : data[i]? with
    | none =>
      have hi := List.getElem?_eq_none_iff.1 hc
      rw [List.getElem?_eq_none (l := old) (by omega), gap, if_neg (by omega)]
      rfl
    | some c =>
      by_cases hz : c = 0
      · subst c
        have hi := (List.getElem?_eq_some_iff.1 hc).1
        by_cases ho : i < old.length
        · rw [hnul i ho hc]
          rfl
        · rw [List.getElem?_eq_none (l := old) (by omega), gap, if_pos (by omega)]
          rfl
      · rw [nonNul_some hz, Option.some_or]

/-- A successful run leaves a copy of the source exactly when nothing of the old
content shows through. -/
theorem main_copies_iff (fails : Call → ℕ → Bool) (argv : List String) (data : List UInt8)
    (dst : Option (List UInt8)) (final : Copy) (h : main fails argv (some data) dst = .ok final) :
    final.dst = data ↔ Hidden data (dst.getD []) := by
  have inv := main_copied h
  rw [inv.dst, List.take_length]
  exact applyWrites_eq_iff data (dst.getD [])

theorem main_copies_middle_hole :
    ∃ final, main (fun _ _ => false) ["cp", "a", "b"] (some [65, 0, 66]) none = .ok final ∧
      (final.dst = [65, 0, 66] ↔ Hidden [65, 0, 66] []) :=
  ⟨_, rfl, main_copies_iff (fun _ _ => false) ["cp", "a", "b"] [65, 0, 66] none _ rfl⟩

/-- A source that ends in a NUL byte is copied without it. -/
theorem main_drops_last_nul : ¬∀ (fails : Call → ℕ → Bool) (argv : List String)
    (data : List UInt8) (dst : Option (List UInt8)) (final : Copy),
    main fails argv (some data) dst = .ok final → final.dst = data := by
  intro h
  have hcopy := h (fun _ _ => false) ["cp", "a", "b"] [65, 0] none _ rfl
  revert hcopy
  decide

end Stage0.CopyHoles
