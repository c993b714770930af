import Mathlib
import Stage0.Script

set_option autoImplicit false

/-!
# Key decoding in `kilo/kilo.c`

In raw mode (`VMIN` 0, `VTIME` 1) a read of one byte returns the byte, returns
nothing after 100 ms, or fails. `editorReadKey` takes the results of its reads
from the front of a list.
-/
namespace Stage0.KiloInput
open Script

/-- One `read(STDIN_FILENO, &c, 1)`; `fail` tells whether `errno` is `EAGAIN`. -/
inductive ReadResult where
  | byte (c : UInt8)
  | timeout
  | fail (eagain : Bool)
  deriving DecidableEq, Repr

/-- Why a call does not return: the script is at its end, `die`, some writes and then `exit`, or an
access outside an array. -/
inductive Stop where
  | waiting
  | died (message : String)
  | exited (writes : List (List UInt8)) (status : ℤ)
  | fault
  deriving DecidableEq, Repr

def escSeq : UInt8 := 0x1b
def ctrlKey (k : Char) : UInt8 := k.toUInt8 &&& 0x1f

def arrowLeft : ℤ := 1000
def arrowRight : ℤ := 1001
def arrowUp : ℤ := 1002
def arrowDown : ℤ := 1003

/-- A `char` as an `int`; `char` is signed. -/
def charInt (c : UInt8) : ℤ := c.toInt8.toInt

def readByte : List ReadResult → Except Stop (ReadResult × List ReadResult)
  | [] => .error .waiting
  | r :: input => .ok (r, input)

/-- `while ((nread = read(STDIN_FILENO, &c, 1)) != 1) ...` -/
def awaitByte : List ReadResult → Except Stop (UInt8 × List ReadResult)
  | [] => .error .waiting
  | .byte c :: input => .ok (c, input)
  | .timeout :: input => awaitByte input
  | .fail eagain :: input => if eagain then awaitByte input else .error (.died "read")

def escapeKey (seq0 seq1 : UInt8) : ℤ :=
  if seq0 = '['.toUInt8 then
    if seq1 = 'A'.toUInt8 then arrowUp
    else if seq1 = 'B'.toUInt8 then arrowDown
    else if seq1 = 'C'.toUInt8 then arrowRight
    else if seq1 = 'D'.toUInt8 then arrowLeft
    else charInt escSeq
  else charInt escSeq

def editorReadKey (input : List ReadResult) : Except Stop (ℤ × List ReadResult) := do
  let (c, input) ← awaitByte input
  if c = escSeq then
    match ← readByte input with
    | (.byte seq0, input) =>
      match ← readByte input with
      | (.byte seq1, input) => return (escapeKey seq0 seq1, input)
      | (_, input) => return (charInt escSeq, input)
    | (_, input) => return (charInt escSeq, input)
  else
    return (charInt c, input)

/-! ### What one call takes from the terminal -/

inductive Arrow where
  | up | down | right | left
  deriving DecidableEq, Repr

def Arrow.letter : Arrow → UInt8
  | .up => 'A'.toUInt8
  | .down => 'B'.toUInt8
  | .right => 'C'.toUInt8
  | .left => 'D'.toUInt8

def Arrow.key : Arrow → ℤ
  | .up => arrowUp
  | .down => arrowDown
  | .right => arrowRight
  | .left => arrowLeft

inductive Taken where
  | plain (c : UInt8) (h : c ≠ escSeq)
  | arrow (a : Arrow)
  | escape
  | escapeByte (b : UInt8)
  | escapeBytes (b0 b1 : UInt8) (h : ∀ a : Arrow, ¬(b0 = '['.toUInt8 ∧ b1 = a.letter))

def Taken.events : Taken → List ReadResult
  | .plain c _ => [.byte c]
  | .arrow a => [.byte escSeq, .byte '['.toUInt8, .byte a.letter]
  | .escape => [.byte escSeq, .timeout]
  | .escapeByte b => [.byte escSeq, .byte b, .timeout]
  | .escapeBytes b0 b1 _ => [.byte escSeq, .byte b0, .byte b1]

def Taken.key : Taken → ℤ
  | .plain c _ => charInt c
  | .arrow a => a.key
  | .escape | .escapeByte _ | .escapeBytes _ _ _ => charInt escSeq

/-- The bytes after an ESC that the returned key does not account for. -/
def Taken.swallowed : Taken → List UInt8
  | .plain _ _ | .arrow _ | .escape => []
  | .escapeByte b => [b]
  | .escapeBytes b0 b1 _ => [b0, b1]

/-- A whole call: timeouts while it waits for its first byte, then what it takes. -/
structure KeyCall where
  delay : ℕ
  taken : Taken

def KeyCall.events (call : KeyCall) : List ReadResult :=
  List.replicate call.delay .timeout ++ call.taken.events

def KeyCall.key (call : KeyCall) : ℤ := call.taken.key

def KeyCall.swallowed (call : KeyCall) : List UInt8 := call.taken.swallowed

theorem awaitByte_delay (delay : ℕ) (input : List ReadResult) :
    awaitByte (List.replicate delay .timeout ++ input) = awaitByte input := by
  induction delay with
  | zero => rfl
  | succ delay ih => exact ih

theorem escapeKey_arrow (a : Arrow) : escapeKey '['.toUInt8 a.letter = a.key := by
  cases a <;> decide

theorem escapeKey_other {b0 b1 : UInt8} (h : ∀ a : Arrow, ¬(b0 = '['.toUInt8 ∧ b1 = a.letter)) :
    escapeKey b0 b1 = charInt escSeq := by
  unfold escapeKey
  split
  · rename_i h0
    have hup : b1 ≠ 'A'.toUInt8 := fun h1 => h .up ⟨h0, h1⟩
    have hdown : b1 ≠ 'B'.toUInt8 := fun h1 => h .down ⟨h0, h1⟩
    have hright : b1 ≠ 'C'.toUInt8 := fun h1 => h .right ⟨h0, h1⟩
    have hleft : b1 ≠ 'D'.toUInt8 := fun h1 => h .left ⟨h0, h1⟩
    rw [if_neg hup, if_neg hdown, if_neg hright, if_neg hleft]
  · rfl

theorem taken_run (t : Taken) (rest : List ReadResult) :
    editorReadKey (t.events ++ rest) = .ok (t.key, rest) := by
  cases t with
  | plain c h =>
    change (if c = escSeq then _ else _) = _
    rw [if_neg h]
    rfl
  | arrow a =>
    change Except.ok (escapeKey '['.toUInt8 a.letter, rest) = _
    rw [escapeKey_arrow]
    rfl
  | escape => rfl
  | escapeByte b => rfl
  | escapeBytes b0 b1 h =>
    change Except.ok (escapeKey b0 b1, rest) = _
    rw [escapeKey_other h]
    rfl

theorem keyCall_run (call : KeyCall) (rest : List ReadResult) :
    editorReadKey (call.events ++ rest) = .ok (call.key, rest) := by
  have h := taken_run call.taken rest
  unfold editorReadKey at h ⊢
  rw [KeyCall.events, List.append_assoc, awaitByte_delay]
  exact h

def ReadResult.quiet : ReadResult → Prop
  | .fail _ => False
  | _ => True

theorem awaitByte_ok {input rest : List ReadResult} {c : UInt8}
    (quiet : ∀ r ∈ input, r.quiet) (h : awaitByte input = .ok (c, rest)) :
    ∃ delay, input = List.replicate delay .timeout ++ .byte c :: rest := by
  induction input with
  | nil => cases h
  | cons r input ih =>
    cases r with
    | byte b =>
      cases h
      exact ⟨0, rfl⟩
    | timeout =>
      obtain ⟨delay, hd⟩ := ih (fun r hr => quiet r (List.mem_cons_of_mem _ hr)) h
      exact ⟨delay + 1, congrArg (ReadResult.timeout :: ·) hd⟩
    | fail eagain => exact absurd (quiet _ List.mem_cons_self) id

theorem escape_cases (b0 b1 : UInt8) : (∃ a : Arrow, b0 = '['.toUInt8 ∧ b1 = a.letter) ∨
    ∀ a : Arrow, ¬(b0 = '['.toUInt8 ∧ b1 = a.letter) := by
  by_cases h : ∃ a : Arrow, b0 = '['.toUInt8 ∧ b1 = a.letter
  · exact .inl h
  · exact .inr (fun a ha => h ⟨a, ha⟩)

theorem editorReadKey_call (input : List ReadResult) (key : ℤ) (rest : List ReadResult)
    (quiet : ∀ r ∈ input, r.quiet) (h : editorReadKey input = .ok (key, rest)) :
    ∃ call : KeyCall, input = call.events ++ rest ∧ call.key = key := by
  obtain ⟨⟨c, input'⟩, hc, hbody⟩ := bind_eq_ok.1 h
  obtain ⟨delay, rfl⟩ := awaitByte_ok quiet hc
  have hquiet : ∀ r ∈ input', r.quiet := fun r hr =>
    quiet r (List.mem_append_right _ (List.mem_cons_of_mem _ hr))
  have found : ∀ (t : Taken) (tail : List ReadResult), .byte c :: tail = t.events ++ rest →
      t.key = key → ∃ call : KeyCall,
        List.replicate delay .timeout ++ .byte c :: tail = call.events ++ rest ∧ call.key = key := by
    intro t tail ht hk
    exact ⟨⟨delay, t⟩, by rw [ht, KeyCall.events, List.append_assoc], hk⟩
  by_cases hesc : c = escSeq
  · subst hesc
    match input', hquiet, hbody with
    | [], _, hbody => cases hbody
    | .timeout :: _, _, hbody =>
      cases hbody
      exact found .escape _ rfl rfl
    | .fail _ :: _, hquiet, _ => exact absurd (hquiet _ List.mem_cons_self) id
    | [.byte b0], _, hbody => cases hbody
    | .byte b0 :: .timeout :: _, _, hbody =>
      cases hbody
      exact found (.escapeByte b0) _ rfl rfl
    | .byte b0 :: .fail _ :: _, hquiet, _ =>
      exact absurd (hquiet _ (List.mem_cons_of_mem _ List.mem_cons_self)) id
    | .byte b0 :: .byte b1 :: _, _, hbody =>
      obtain ⟨hkey, rfl⟩ := Prod.mk.inj (Except.ok.inj hbody)
      rcases escape_cases b0 b1 with ⟨a, rfl, rfl⟩ | hother
      · exact found (.arrow a) _ rfl ((escapeKey_arrow a).symm.trans hkey)
      · exact found (.escapeBytes b0 b1 hother) _ rfl ((escapeKey_other hother).symm.trans hkey)
  · change (if c = escSeq then _ else _) = _ at hbody
    rw [if_neg hesc] at hbody
    cases hbody
    exact found (.plain c hesc) _ rfl rfl

end Stage0.KiloInput
