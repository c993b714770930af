import Mathlib
import Stage0.KiloInput

set_option autoImplicit false

/-!
# Keys sent and keys received

Decoding undoes the encoding of key presses. In the other direction a call that
returns ESC may have taken up to two bytes after it that no key reports.
-/
namespace Stage0.KiloKeys
open Script KiloInput

inductive Press where
  | plain (c : UInt8) (h : c ≠ escSeq)
  | arrow (a : Arrow)
  | escape

def Press.taken : Press → Taken
  | .plain c h => .plain c h
  | .arrow a => .arrow a
  | .escape => .escape

/-- What the terminal sends: the byte, ESC `[` and a letter, or ESC and a pause. -/
def Press.encode : Press → List ReadResult
  | .plain c _ => [.byte c]
  | .arrow a => [.byte escSeq, .byte '['.toUInt8, .byte a.letter]
  | .escape => [.byte escSeq, .timeout]

def Press.key : Press → ℤ
  | .plain c _ => charInt c
  | .arrow a => a.key
  | .escape => charInt escSeq

def encode (p : ℕ × Press) : List ReadResult := List.replicate p.1 .timeout ++ p.2.encode

theorem encode_run (p : ℕ × Press) (rest : List ReadResult) :
    editorReadKey (encode p ++ rest) = .ok (p.2.key, rest) := by
  have h := keyCall_run ⟨p.1, p.2.taken⟩ rest
  obtain ⟨delay, press⟩ := p
  cases press <;> exact h

theorem charInt_bounds (c : UInt8) : -128 ≤ charInt c ∧ charInt c < 128 :=
  ⟨c.toInt8.le_toInt, c.toInt8.toInt_lt⟩

theorem charInt_injective : Function.Injective charInt := by
  intro b c h
  have hbyte : b.toInt8 = c.toInt8 := Int8.toInt_inj.1 h
  rw [← UInt8.toUInt8_toInt8 b, hbyte, UInt8.toUInt8_toInt8]

theorem arrow_key_large (a : Arrow) : 1000 ≤ a.key := by
  cases a <;> decide

theorem charInt_ne_arrow (c : UInt8) (a : Arrow) : charInt c ≠ a.key := by
  have hc := (charInt_bounds c).2
  have ha := arrow_key_large a
  omega

theorem press_key_injective : Function.Injective Press.key := by
  intro p q h
  cases p with
  | plain b hb =>
    cases q with
    | plain c hc =>
      cases charInt_injective h
      rfl
    | arrow a => exact absurd h (charInt_ne_arrow b a)
    | escape => exact absurd (charInt_injective h) hb
  | arrow a =>
    cases q with
    | plain c hc => exact absurd h.symm (charInt_ne_arrow c a)
    | arrow a' => cases a <;> cases a' <;> first | rfl | exact absurd h (by decide)
    | escape => exact absurd h.symm (charInt_ne_arrow escSeq a)
  | escape =>
    cases q with
    | plain c hc => exact absurd (charInt_injective h).symm hc
    | arrow a => exact absurd h (charInt_ne_arrow escSeq a)
    | escape => rfl

theorem timeouts_wait (trailing : ℕ) :
    editorReadKey (List.replicate trailing .timeout) = .error .waiting := by
  have h := awaitByte_delay trailing []
  rw [List.append_nil] at h
  rw [editorReadKey, h]
  rfl

/-- Successive calls return the keys pressed, each as soon as its press is there
and whatever follows it; then they wait. Different presses give different keys. -/
theorem readKeys_encode (presses : List (ℕ × Press)) :
    (∀ rest, repeated editorReadKey presses.length (presses.flatMap encode ++ rest) =
      .ok (presses.map (fun p => p.2.key), rest)) ∧
    (∀ trailing, repeated editorReadKey (presses.length + 1)
      (presses.flatMap encode ++ List.replicate trailing .timeout) = .error .waiting) ∧
    Function.Injective Press.key ∧ ∀ c h a, (Press.plain c h).key ≠ (Press.arrow a).key := by
  refine ⟨?_, ?_, press_key_injective, fun c _ a => charInt_ne_arrow c a⟩
  · intro rest
    exact repeated_encoding encode_run presses rest
  · intro trailing
    exact repeated_encoding_stop encode_run presses _ (timeouts_wait trailing)

/-! ### Spelling keys back -/

/-- The bytes of a key: an arrow as ESC `[` and its letter, any other key as its byte. -/
def spell (key : ℤ) : List UInt8 :=
  if key = arrowUp then [escSeq, '['.toUInt8, 'A'.toUInt8]
  else if key = arrowDown then [escSeq, '['.toUInt8, 'B'.toUInt8]
  else if key = arrowRight then [escSeq, '['.toUInt8, 'C'.toUInt8]
  else if key = arrowLeft then [escSeq, '['.toUInt8, 'D'.toUInt8]
  else [(Int8.ofInt key).toUInt8]

theorem spell_charInt (c : UInt8) : spell (charInt c) = [c] := by
  have hup : charInt c ≠ arrowUp := charInt_ne_arrow c .up
  have hdown : charInt c ≠ arrowDown := charInt_ne_arrow c .down
  have hright : charInt c ≠ arrowRight := charInt_ne_arrow c .right
  have hleft : charInt c ≠ arrowLeft := charInt_ne_arrow c .left
  rw [spell, if_neg hup, if_neg hdown, if_neg hright, if_neg hleft, charInt, Int8.ofInt_toInt,
    UInt8.toUInt8_toInt8]

theorem spell_arrow (a : Arrow) : spell a.key = [escSeq, '['.toUInt8, a.letter] := by
  cases a <;> decide

def bytesOf (events : List ReadResult) : List UInt8 :=
  events.filterMap (fun r => match r with | .byte c => some c | _ => none)

theorem bytesOf_append (xs ys : List ReadResult) : bytesOf (xs ++ ys) = bytesOf xs ++ bytesOf ys :=
  List.filterMap_append

theorem bytesOf_delay (delay : ℕ) : bytesOf (List.replicate delay .timeout) = [] := by
  induction delay with
  | zero => rfl
  | succ delay ih => exact ih

theorem call_bytes (call : KeyCall) :
    bytesOf call.events = spell call.key ++ call.swallowed := by
  obtain ⟨delay, taken⟩ := call
  rw [KeyCall.events, bytesOf_append, bytesOf_delay, List.nil_append]
  cases taken with
  | plain c h => exact congrArg (· ++ []) (spell_charInt c).symm
  | arrow a => exact congrArg (· ++ []) (spell_arrow a).symm
  | escape => exact congrArg (· ++ []) (spell_charInt escSeq).symm
  | escapeByte b => exact congrArg (· ++ [b]) (spell_charInt escSeq).symm
  | escapeBytes b0 b1 h => exact congrArg (· ++ [b0, b1]) (spell_charInt escSeq).symm

theorem calls_bytes (calls : List KeyCall) : bytesOf (calls.flatMap KeyCall.events) =
    calls.flatMap (fun call => spell call.key ++ call.swallowed) := by
  induction calls with
  | nil => rfl
  | cons call calls ih => rw [List.flatMap_cons, bytesOf_append, call_bytes, ih, List.flatMap_cons]

/-- Spelling the keys gives back every byte exactly when no call swallowed one. -/
theorem spelled_iff (calls : List KeyCall) :
    (calls.map KeyCall.key).flatMap spell = bytesOf (calls.flatMap KeyCall.events) ↔
      ∀ call ∈ calls, call.swallowed = [] := by
  rw [calls_bytes, List.flatMap_map]
  exact flatMap_eq_append_iff (fun call => spell call.key) KeyCall.swallowed calls

/-- What successive calls consume is, call by call, the spelling of the key and the
bytes swallowed after an ESC. -/
theorem readKeys_consume (n : ℕ) (input : List ReadResult) (quiet : ∀ r ∈ input, r.quiet)
    (keys : List ℤ) (rest : List ReadResult)
    (h : repeated editorReadKey n input = .ok (keys, rest)) :
    ∃ calls : List KeyCall, input = calls.flatMap KeyCall.events ++ rest ∧
      calls.map KeyCall.key = keys ∧
      bytesOf (calls.flatMap KeyCall.events) =
        calls.flatMap (fun call => spell call.key ++ call.swallowed) ∧
      (keys.flatMap spell = bytesOf (calls.flatMap KeyCall.events) ↔
        ∀ call ∈ calls, call.swallowed = []) ∧
      ∀ call ∈ calls, ctrlKey 'q' ∈ bytesOf call.events →
        call.key = charInt (ctrlKey 'q') ∨ ctrlKey 'q' ∈ call.swallowed := by
  obtain ⟨calls, rfl, rfl⟩ := repeated_decoding editorReadKey_call n input keys rest quiet h
  refine ⟨calls, rfl, rfl, calls_bytes calls, spelled_iff calls, ?_⟩
  intro call _ hq
  rw [call_bytes] at hq
  rcases List.mem_append.1 hq with hkey | hlost
  · obtain ⟨delay, taken⟩ := call
    cases taken with
    | plain c hc =>
      rw [KeyCall.key, Taken.key, spell_charInt] at hkey
      exact .inl (congrArg charInt (List.mem_singleton.1 hkey).symm)
    | arrow a =>
      rw [KeyCall.key, Taken.key, spell_arrow] at hkey
      cases a <;> exact absurd hkey (by decide)
    | escape | escapeByte b | escapeBytes b0 b1 hb =>
      rw [KeyCall.key, Taken.key, spell_charInt] at hkey
      exact absurd hkey (by decide)
  · exact .inr hlost

/-- ESC and Ctrl-Q typed together: the second byte is swallowed. -/
theorem readKeys_consume_ctrl_q :
    ∃ calls : List KeyCall, [ReadResult.byte escSeq, .byte (ctrlKey 'q'), .timeout] =
        calls.flatMap KeyCall.events ++ [] ∧
      calls.map KeyCall.key = [charInt escSeq] ∧
      bytesOf (calls.flatMap KeyCall.events) =
        calls.flatMap (fun call => spell call.key ++ call.swallowed) ∧
      ([charInt escSeq].flatMap spell = bytesOf (calls.flatMap KeyCall.events) ↔
        ∀ call ∈ calls, call.swallowed = []) ∧
      ∀ call ∈ calls, ctrlKey 'q' ∈ bytesOf call.events →
        call.key = charInt (ctrlKey 'q') ∨ ctrlKey 'q' ∈ call.swallowed :=
  readKeys_consume 1 [.byte escSeq, .byte (ctrlKey 'q'), .timeout]
    (by simp [ReadResult.quiet]) [charInt escSeq] [] rfl

/-- Not every byte consumed is spelled back. -/
theorem readKeys_lose_ctrl_q : ¬∀ (n : ℕ) (input : List ReadResult), (∀ r ∈ input, r.quiet) →
    ∀ (keys : List ℤ) (used rest : List ReadResult), input = used ++ rest →
    repeated editorReadKey n input = .ok (keys, rest) → keys.flatMap spell = bytesOf used := by
  intro h
  have hlost := h 1 [.byte escSeq, .byte (ctrlKey 'q'), .timeout] (by simp [ReadResult.quiet])
    [charInt escSeq] [.byte escSeq, .byte (ctrlKey 'q'), .timeout] [] rfl rfl
  revert hlost
  decide

end Stage0.KiloKeys
