import Mathlib
import Stage0.LifeRender

set_option autoImplicit false

/-!
# The escape key of `life/main.c`

The loop tests `ch` after every read, whether or not the read has stored a byte there:
a read without data leaves in `ch` what was there before.
-/
namespace Stage0.LifeEscape
open Script LifeBoard LifeUpdate LifeRender

def carried (ch : UInt8) (reads : ℕ → KeyRead) : ℕ → UInt8
  | 0 => ch
  | k + 1 => readKey (carried ch reads k) (reads k)

/-- The loop gets through `k` iterations and leaves in the next one, which makes read `k`. -/
def LeavesAt (board : Board) (ch : UInt8) (reads : ℕ → KeyRead) (k : ℕ) : Prop :=
  ∃ s u, frames ((List.range k).map reads) (start board ch) = .ok s ∧
    frame (reads k) s = .error (.left u)

/-- Read `k` is the first to deliver the escape key. -/
def FirstEscape (reads : ℕ → KeyRead) (k : ℕ) : Prop :=
  reads k = .byte 27 ∧ ∀ j < k, reads j ≠ .byte 27

theorem frames_append (rs ts : List KeyRead) (s : Render) :
    frames (rs ++ ts) s = frames rs s >>= frames ts := by
  induction rs generalizing s with
  | nil => rfl
  | cons r rs ih =>
    rw [List.cons_append, frames, frames]
    cases frame r s with
    | error h => rfl
    | ok u => exact ih u

theorem frames_succ (reads : ℕ → KeyRead) (k : ℕ) (s : Render) :
    frames ((List.range (k + 1)).map reads) s =
      frames ((List.range k).map reads) s >>= frame (reads k) := by
  rw [List.range_succ, List.map_append, frames_append]
  congr 1
  funext u
  change frame (reads k) u >>= frames [] = _
  cases frame (reads k) u <;> rfl

section Run

variable {s₀ : Cell → Bool} {ch : UInt8} {reads : ℕ → KeyRead}

theorem frames_carried (s₀ : Cell → Bool) (k : ℕ) (h : ∀ j < k, carried ch reads (j + 1) ≠ 27) :
    ∃ s, frames ((List.range k).map reads) (start (boardOf s₀) ch) = .ok s ∧ Head s₀ k s ∧
      s.ch = carried ch reads k := by
  induction k with
  | zero => exact ⟨_, rfl, head_start s₀ ch, rfl⟩
  | succ k ih =>
    obtain ⟨s, hs, hhead, hch⟩ := ih (fun j hj => h j (by omega))
    have hne : readKey s.ch (reads k) ≠ 27 := by
      rw [hch]
      exact h k (Nat.lt_succ_self k)
    obtain ⟨u, hu, hnext, hkey⟩ := frame_on hhead hne
    refine ⟨u, ?_, hnext, ?_⟩
    · rw [frames_succ, hs, ok_bind, hu]
    · rw [hkey, hch]
      rfl

theorem carried_of_frames (k : ℕ) {s : Render}
    (h : frames ((List.range k).map reads) (start (boardOf s₀) ch) = .ok s) :
    ∀ j < k, carried ch reads (j + 1) ≠ 27 := by
  induction k generalizing s with
  | zero => exact fun j hj => absurd hj (Nat.not_lt_zero j)
  | succ k ih =>
    rw [frames_succ] at h
    obtain ⟨mid, hmid, hframe⟩ := bind_eq_ok.1 h
    have hbefore := ih hmid
    obtain ⟨s', hs', hhead, hch⟩ := frames_carried s₀ k hbefore
    obtain rfl : mid = s' := Except.ok.inj (hmid.symm.trans hs')
    intro j hj
    rcases Nat.lt_succ_iff_lt_or_eq.1 hj with hlt | rfl
    · exact hbefore j hlt
    · intro hkey
      obtain ⟨u, hu⟩ := frame_left hhead (r := reads j) (by rw [hch]; exact hkey)
      rw [hu] at hframe
      cases hframe

theorem leavesAt_iff (k : ℕ) : LeavesAt (boardOf s₀) ch reads k ↔
    carried ch reads (k + 1) = 27 ∧ ∀ j < k, carried ch reads (j + 1) ≠ 27 := by
  constructor
  · rintro ⟨s, u, hs, hleft⟩
    have hbefore := carried_of_frames k hs
    refine ⟨?_, hbefore⟩
    obtain ⟨s', hs', hhead, hch⟩ := frames_carried s₀ k hbefore
    obtain rfl : s = s' := Except.ok.inj (hs.symm.trans hs')
    by_contra hne
    obtain ⟨v, hv, -⟩ := frame_on hhead (r := reads k) (by rw [hch]; exact hne)
    rw [hv] at hleft
    cases hleft
  · rintro ⟨hkey, hbefore⟩
    obtain ⟨s, hs, hhead, hch⟩ := frames_carried s₀ k hbefore
    obtain ⟨u, hu⟩ := frame_left hhead (r := reads k) (by rw [hch]; exact hkey)
    exact ⟨s, u, hs, hu⟩

end Run

/-! ### What is carried over -/

section Carried

variable {ch : UInt8} {reads : ℕ → KeyRead}

theorem readKey_escape {c : UInt8} (h : c ≠ 27) (r : KeyRead) :
    readKey c r = 27 ↔ r = .byte 27 := by
  cases r <;> simp [readKey, h]

/-- A first read that stores a byte, or a value of `ch` that is not the escape key. -/
def Decided (ch : UInt8) (reads : ℕ → KeyRead) : Prop := ch ≠ 27 ∨ ∃ c, reads 0 = .byte c

theorem carried_escape (h : Decided ch reads) {k : ℕ}
    (hbefore : ∀ j < k, carried ch reads (j + 1) ≠ 27) :
    carried ch reads (k + 1) = 27 ↔ reads k = .byte 27 := by
  rw [carried]
  cases k with
  | zero =>
    rcases h with hch | ⟨c, hc⟩
    · exact readKey_escape hch (reads 0)
    · simp [hc, readKey]
  | succ k => exact readKey_escape (hbefore k (Nat.lt_succ_self k)) (reads (k + 1))

theorem carried_before (h : Decided ch reads) (k : ℕ) :
    (∀ j < k, carried ch reads (j + 1) ≠ 27) ↔ ∀ j < k, reads j ≠ .byte 27 := by
  induction k with
  | zero => simp
  | succ k ih =>
    rw [Nat.forall_lt_succ_right, Nat.forall_lt_succ_right, ← ih]
    exact and_congr_right fun hbefore => not_congr (carried_escape h hbefore)

end Carried

/-- The loop leaves in the iteration that first reads the escape key, and only there, exactly when
`ch` did not hold that key before the loop or the first read overwrites it. -/
theorem leaves_on_escape_iff (board : Board) (hb : Binary board) (ch : UInt8)
    (reads : ℕ → KeyRead) :
    (∀ k, LeavesAt board ch reads k ↔ FirstEscape reads k) ↔ ch ≠ 27 ∨ ∃ c, reads 0 = .byte c := by
  rw [← boardOf_live hb]
  constructor
  · intro h
    by_contra hnot
    obtain ⟨hch, hbyte⟩ := not_or.1 hnot
    have hkey : carried ch reads 1 = 27 := by
      change readKey ch (reads 0) = 27
      cases hread : reads 0 with
      | byte c => exact absurd ⟨c, hread⟩ hbyte
      | noData => exact not_not.1 hch
      | endOfInput => exact not_not.1 hch
    have hleaves : LeavesAt (boardOf (live board)) ch reads 0 :=
      (leavesAt_iff 0).2 ⟨hkey, fun j hj => absurd hj (Nat.not_lt_zero j)⟩
    exact hbyte ⟨27, ((h 0).1 hleaves).1⟩
  · intro h k
    rw [leavesAt_iff, FirstEscape, carried_before h k, and_comm, and_comm (a := _ = _)]
    exact and_congr_right fun hbefore => carried_escape h ((carried_before h k).2 hbefore)

theorem leaves_on_escape_iff_quiet :
    (∀ k, LeavesAt (boardOf pentomino) 0 (fun _ => .noData) k ↔ FirstEscape (fun _ => .noData) k) ↔
      (0 : UInt8) ≠ 27 ∨ ∃ c, (fun _ : ℕ => KeyRead.noData) 0 = .byte c :=
  leaves_on_escape_iff (boardOf pentomino) (binary_boardOf pentomino) 0 (fun _ => .noData)

/-- Without any key the loop leaves at once if `ch` happens to hold 27. -/
theorem leaves_without_key : ¬∀ (board : Board), Binary board → ∀ (ch : UInt8)
    (reads : ℕ → KeyRead) (k : ℕ), LeavesAt board ch reads k ↔ FirstEscape reads k := by
  intro h
  have hleaves : LeavesAt (boardOf pentomino) 27 (fun _ => .noData) 0 :=
    (leavesAt_iff 0).2 ⟨rfl, fun j hj => absurd hj (Nat.not_lt_zero j)⟩
  have hread := ((h _ (binary_boardOf pentomino) 27 (fun _ => .noData) 0).1 hleaves).1
  cases hread

end Stage0.LifeEscape
