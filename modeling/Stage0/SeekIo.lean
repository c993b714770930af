import Mathlib
import Stage0.BlockFile
import Stage0.GetNum

set_option autoImplicit false

/-!
# The commands of `tlpi/fileio/seek_io.c`

Any call may fail, and a read or a write may transfer less than it is asked to. What the
calls have transferred is kept beside the state of the program.
-/
namespace Stage0.SeekIo
open ByteFile BlockFile Strtol GetNum
open Decimal (text)

inductive Failure where
  | usageErr (text : List UInt8)
  | cmdLineErr (text : List UInt8)
  | gnFail (text : List UInt8)
  | errExit (call : String)
  deriving DecidableEq, Repr

/-- What the system does: for every argument whether its call of `malloc` or `lseek` succeeds, and
how many bytes its read (beside the first) or write transfers at most, unless it fails. -/
structure Io where
  openFile : Bool
  malloc : ℕ → Bool
  read : ℕ → Option ℕ
  write : ℕ → Option ℕ
  lseek : ℕ → Bool
  closeFile : Bool

inductive Call where
  | read (off len : ℕ) (bs : List UInt8)
  | write (off : ℕ) (bs : List UInt8)
  | seek (off : ℕ)
  deriving DecidableEq, Repr

structure Event where
  arg : List UInt8
  call : Call
  deriving DecidableEq, Repr

structure State where
  content : List UInt8
  fd : Description
  out : List UInt8
  log : List Event

def isprint (c : UInt8) : Bool := decide (32 ≤ c ∧ c ≤ 126)

def hexDigit (n : ℕ) : UInt8 := (Nat.digitChar n).toUInt8

/-- A byte as a command shows it. -/
def shown (command : UInt8) (c : UInt8) : List UInt8 :=
  if command = 'r'.toUInt8 then [if isprint c then c else '?'.toUInt8]
  else [hexDigit (c.toNat / 16), hexDigit (c.toNat % 16), ' '.toUInt8]

def readLine (arg bs : List UInt8) : List UInt8 :=
  if bs = [] then arg ++ text ": end-of-file\n"
  else arg ++ text ": " ++ bs.flatMap (shown (arg.headD 0)) ++ text "\n"

def writeLine (arg : List UInt8) (n : ℕ) : List UInt8 :=
  arg ++ text ": wrote " ++ Decimal.formatNat n ++ text " bytes\n"

def seekLine (arg : List UInt8) : List UInt8 := arg ++ text ": seek succeeded\n"

def readCommand (io : Io) (k : ℕ) (arg : List UInt8) (s : State) : Except Failure State := do
  let res ← (getLong arg.tail gnAnyBase arg).mapError .gnFail
  -- a negative number becomes a large `size_t`
  let len := (res % 2 ^ 64).toNat
  if io.malloc k = false ∨ 2 ^ 63 ≤ len then .error (.errExit "malloc")
  else
    match io.read k with
    | none => .error (.errExit "read")
    | some n =>
      let (bs, fd) := BlockFile.get s.fd s.content (min (n + 1) len)
      return ⟨s.content, fd, s.out ++ readLine arg bs, s.log ++ [⟨arg, .read s.fd.offset len bs⟩]⟩

def writeCommand (io : Io) (k : ℕ) (arg : List UInt8) (s : State) : Except Failure State :=
  match io.write k with
  | none => .error (.errExit "write")
  | some n =>
    let bs := arg.tail.take n
    let (fd, content) := put s.fd s.content bs
    .ok ⟨content, fd, s.out ++ writeLine arg bs.length, s.log ++ [⟨arg, .write s.fd.offset bs⟩]⟩

def seekCommand (io : Io) (k : ℕ) (arg : List UInt8) (s : State) : Except Failure State := do
  let offset ← (getLong arg.tail gnAnyBase arg).mapError .gnFail
  if io.lseek k = false ∨ offset < 0 then .error (.errExit "lseek")
  else
    return ⟨s.content, { s.fd with offset := offset.toNat }, s.out ++ seekLine arg,
      s.log ++ [⟨arg, .seek offset.toNat⟩]⟩

def command (io : Io) (k : ℕ) (arg : List UInt8) (s : State) : Except Failure State :=
  let c := arg.headD 0
  if c = 'r'.toUInt8 ∨ c = 'R'.toUInt8 then readCommand io k arg s
  else if c = 'w'.toUInt8 then writeCommand io k arg s
  else if c = 's'.toUInt8 then seekCommand io k arg s
  else .error (.cmdLineErr (text "Argument must start with [rRws]: " ++ arg ++ text "\n"))

/-- The loop over the arguments, of which this is the `k`-th and the ones after it. -/
def commands (io : Io) : ℕ → List (List UInt8) → State → State × Option Failure
  | _, [], s => (s, if io.closeFile then none else some (.errExit "close"))
  | k, arg :: args, s =>
    match command io k arg s with
    | .error e => (s, some e)
    | .ok s => commands io (k + 1) args s

/-- `main` where the file holds `old`, or nothing if it is created. -/
def main (io : Io) (old : List UInt8) (argv : List (List UInt8)) : State × Option Failure :=
  let start : State := ⟨old, ⟨0, false⟩, [], []⟩
  match argv with
  | program :: file :: arg :: args =>
    if file = text "--help" then
      (start, some (.usageErr
        (program ++ text " file \x7br<length>|R<length>|w<string>|s<offset>\x7d...\n")))
    else if io.openFile = false then (start, some (.errExit "open"))
    else commands io 2 (arg :: args) start
  | _ => (start, some (.usageErr
      (argv.headD [] ++ text " file \x7br<length>|R<length>|w<string>|s<offset>\x7d...\n")))

/-! ### What the calls say of the file -/

def Call.block : Call → Option Block
  | .write off bs => some (off, bs)
  | _ => none

def Call.next : Call → ℕ
  | .read off _ bs => off + bs.length
  | .write off bs => off + bs.length
  | .seek off => off

def blocks (log : List Event) : List Block := log.filterMap (·.call.block)

def offset (log : List Event) : ℕ := (log.getLast?.map (·.call.next)).getD 0

def render (e : Event) : List UInt8 :=
  match e.call with
  | .read _ _ bs => readLine e.arg bs
  | .write _ bs => writeLine e.arg bs.length
  | .seek _ => seekLine e.arg

/-- What an argument may do after these calls: a read shows the bytes last written, and as long as
there are some it shows at least one if asked to. -/
def Allowed (old : List UInt8) (before : List Event) (e : Event) : Prop :=
  match e.call with
  | .read off len bs => (e.arg.headD 0 = 'r'.toUInt8 ∨ e.arg.headD 0 = 'R'.toUInt8) ∧
      off = offset before ∧ (∃ v, Accepted gnAnyBase e.arg.tail v ∧ len = (v % 2 ^ 64).toNat) ∧
      bs.length ≤ len ∧ (bs = [] → len = 0 ∨ extent old.length (blocks before) ≤ off) ∧
      ∀ i < bs.length, bs[i]? = byteAt old (blocks before) (off + i)
  | .write off bs => e.arg.headD 0 = 'w'.toUInt8 ∧ off = offset before ∧ bs <+: e.arg.tail
  | .seek off => e.arg.headD 0 = 's'.toUInt8 ∧ Accepted gnAnyBase e.arg.tail off

structure Trace (old : List UInt8) (s : State) : Prop where
  content : s.content = writeBlocks old (blocks s.log)
  fd : s.fd = ⟨offset s.log, false⟩
  out : s.out = s.log.flatMap render
  allowed : ∀ before e after, s.log = before ++ e :: after → Allowed old before e

section Runs

variable {io : Io} {old : List UInt8} {s s' : State} {arg : List UInt8} {k : ℕ}

theorem trace_start : Trace old ⟨old, ⟨0, false⟩, [], []⟩ :=
  ⟨rfl, rfl, rfl, fun before e after h => absurd h.symm (by simp)⟩

theorem blocks_concat (log : List Event) (e : Event) :
    blocks (log ++ [e]) = blocks log ++ (e.call.block.map ([·])).getD [] := by
  unfold blocks
  rw [List.filterMap_append]
  cases h : e.call.block <;> simp [h]

theorem trace_step (h : Trace old s) {e : Event} (hallowed : Allowed old s.log e)
    (hcontent : s'.content = writeBlocks old (blocks (s.log ++ [e])))
    (hfd : s'.fd = ⟨e.call.next, false⟩) (hout : s'.out = s.out ++ render e)
    (hlog : s'.log = s.log ++ [e]) : Trace old s' := by
  refine ⟨by rw [hlog]; exact hcontent, ?_, ?_, ?_⟩
  · rw [hlog, hfd, offset, List.getLast?_concat]
    rfl
  · rw [hlog, hout, h.out, List.flatMap_append, List.flatMap_singleton]
  · intro before e' after hsplit
    rw [hlog] at hsplit
    rcases List.eq_nil_or_concat after with rfl | ⟨after, last, rfl⟩
    · obtain ⟨rfl, he⟩ := List.append_inj' hsplit rfl
      obtain rfl := List.singleton_inj.1 he
      exact hallowed
    · have hcut : s.log ++ [e] = (before ++ e' :: after) ++ [last] := by simpa using hsplit
      exact h.allowed before e' after (List.append_inj' hcut rfl).1

theorem readBlock_shows (h : Trace old s) (off m i : ℕ) (hi : i < (readBlock s.content off m).length) :
    (readBlock s.content off m)[i]? = byteAt old (blocks s.log) (off + i) := by
  rw [readBlock_length] at hi
  rw [readBlock_get, if_pos (by omega), h.content, writeBlocks_get]

theorem readCommand_trace (h : Trace old s) (hc : arg.headD 0 = 'r'.toUInt8 ∨ arg.headD 0 = 'R'.toUInt8)
    (hs : readCommand io k arg s = .ok s') :
    Trace old s' ∧ ∃ call, s'.log = s.log ++ [⟨arg, call⟩] := by
  obtain ⟨v, hv, hs⟩ := bind_ok_iff.1 hs
  rw [mapError_ok_iff, getLong, getNum_ok_iff] at hv
  generalize hlen : (v % 2 ^ 64).toNat = len at hs
  simp only at hs
  split at hs
  · cases hs
  · split at hs
    · cases hs
    · rename_i n hn
      obtain rfl := Except.ok.inj hs
      simp only [BlockFile.get, h.fd]
      generalize hbs : readBlock s.content (offset s.log) (min (n + 1) len) = bs
      have hlength : bs.length = min (min (n + 1) len) (s.content.length - offset s.log) := by
        rw [← hbs, readBlock_length]
      have hallowed : Allowed old s.log ⟨arg, .read (offset s.log) len bs⟩ := by
        refine ⟨hc, rfl, ⟨v, hv, hlen.symm⟩, by omega, fun hnil => ?_, fun i hi => ?_⟩
        · have hsize := writeBlocks_length old (blocks s.log)
          rw [← h.content] at hsize
          rw [hnil, List.length_nil] at hlength
          omega
        · rw [← hbs] at hi ⊢
          exact readBlock_shows h _ _ i hi
      refine ⟨trace_step h hallowed ?_ rfl rfl rfl, _, rfl⟩
      rw [blocks_concat]
      simpa [Call.block] using h.content

theorem writeCommand_trace (h : Trace old s) (hc : arg.headD 0 = 'w'.toUInt8)
    (hs : writeCommand io k arg s = .ok s') :
    Trace old s' ∧ ∃ call, s'.log = s.log ++ [⟨arg, call⟩] := by
  unfold writeCommand at hs
  split at hs
  · cases hs
  · rename_i n hn
    have hput : put s.fd s.content (arg.tail.take n) = _ := put_over (by rw [h.fd]) _ _
    simp only [hput] at hs
    obtain rfl := Except.ok.inj hs
    rw [h.fd]
    have hallowed : Allowed old s.log ⟨arg, .write (offset s.log) (arg.tail.take n)⟩ :=
      ⟨hc, rfl, List.take_prefix n _⟩
    refine ⟨trace_step h hallowed ?_ rfl rfl rfl, _, rfl⟩
    rw [blocks_concat]
    change _ = writeBlocks old (blocks s.log ++ [(offset s.log, arg.tail.take n)])
    rw [writeBlocks_concat, ← h.content]

theorem seekCommand_trace (h : Trace old s) (hc : arg.headD 0 = 's'.toUInt8)
    (hs : seekCommand io k arg s = .ok s') :
    Trace old s' ∧ ∃ call, s'.log = s.log ++ [⟨arg, call⟩] := by
  obtain ⟨v, hv, hs⟩ := bind_ok_iff.1 hs
  rw [mapError_ok_iff, getLong, getNum_ok_iff] at hv
  split at hs
  · cases hs
  · rename_i hok
    obtain rfl := Except.ok.inj hs
    have hallowed : Allowed old s.log ⟨arg, .seek v.toNat⟩ := by
      refine ⟨hc, ?_⟩
      rw [Int.toNat_of_nonneg (by omega)]
      exact hv
    refine ⟨trace_step h hallowed ?_ (by rw [h.fd]; rfl) rfl rfl, _, rfl⟩
    rw [blocks_concat]
    simpa [Call.block] using h.content

theorem command_trace (h : Trace old s) (hs : command io k arg s = .ok s') :
    Trace old s' ∧ ∃ call, s'.log = s.log ++ [⟨arg, call⟩] := by
  simp only [command] at hs
  split at hs
  · rename_i hc
    exact readCommand_trace h hc hs
  · split at hs
    · rename_i hc
      exact writeCommand_trace h hc hs
    · split at hs
      · rename_i hc
        exact seekCommand_trace h hc hs
      · cases hs

theorem commands_trace (h : Trace old s) (args : List (List UInt8)) :
    Trace old (commands io k args s).1 ∧ ∃ rest,
      s.log.map (·.arg) ++ args = (commands io k args s).1.log.map (·.arg) ++ rest ∧
        ((commands io k args s).2 = none → rest = []) := by
  induction args generalizing k s with
  | nil => exact ⟨h, [], rfl, fun _ => rfl⟩
  | cons arg args ih =>
    rw [commands]
    cases hcommand : command io k arg s with
    | error e =>
      exact ⟨h, arg :: args, rfl, nofun⟩
    | ok s' =>
      obtain ⟨htrace, call, hlog⟩ := command_trace h hcommand
      obtain ⟨hfinal, rest, hargs, hall⟩ := ih (k := k + 1) htrace
      refine ⟨hfinal, rest, ?_, hall⟩
      rw [← hargs, hlog]
      simp

theorem main_state (io : Io) (old : List UInt8) (argv : List (List UInt8)) :
    Trace old (main io old argv).1 ∧ ∃ rest,
      argv.drop 2 = (main io old argv).1.log.map (·.arg) ++ rest ∧ ((main io old argv).2 = none → rest = []) := by
  unfold main
  split
  · rename_i program file arg args
    split
    · exact ⟨trace_start, _, rfl, nofun⟩
    · split
      · exact ⟨trace_start, _, rfl, nofun⟩
      · exact commands_trace trace_start (arg :: args)
  · exact ⟨trace_start, _, rfl, nofun⟩

theorem allowed_read {before between : List Event} {a b : List UInt8} {off from' len : ℕ}
    {bs cs : List UInt8} (h : Allowed old (before ++ ⟨a, .write off bs⟩ :: between) ⟨b, .read from' len cs⟩)
    (hkept : ∀ e ∈ between, ∀ o ds, e.call = .write o ds →
      ds = [] ∨ o + ds.length ≤ off ∨ off + bs.length ≤ o)
    {i j : ℕ} (hi : i < cs.length) (hj : j < bs.length) (hsame : from' + i = off + j) : cs[i]? = bs[j]? := by
  obtain ⟨-, -, -, -, -, hshow⟩ := h
  have hblocks : blocks (before ++ ⟨a, .write off bs⟩ :: between) =
      blocks before ++ [(off, bs)] ++ blocks between := by
    simp [blocks, Call.block]
  have helsewhere : ∀ c ∈ blocks between, off + j < c.1 ∨ c.1 + c.2.length ≤ off + j := by
    intro c hc
    obtain ⟨e, he, hblock⟩ := List.mem_filterMap.1 hc
    cases hcall : e.call with
    | write o ds =>
      rw [hcall] at hblock
      obtain rfl := Option.some.inj hblock
      simp only
      rcases hkept e he o ds hcall with rfl | hout
      · rw [List.length_nil]
        omega
      · omega
    | read | seek =>
      rw [hcall] at hblock
      cases hblock
  have hcover : cover (off + j) (off, bs) = bs[j]? := by
    rw [cover, if_pos (Nat.le_add_right _ _), Nat.add_sub_cancel_left]
  have hlast : lastWritten (blocks before ++ [(off, bs)] ++ blocks between) (off + j) = bs[j]? := by
    rw [lastWritten_append, lastWritten_elsewhere helsewhere, Option.none_or, lastWritten_concat, hcover,
      List.getElem?_eq_getElem hj, Option.some_or]
  have hread := hshow i hi
  rw [hsame, hblocks, byteAt, hlast] at hread
  split at hread
  · rw [hread, List.getElem?_eq_getElem hj, Option.getD_some]
  · rw [List.getElem?_eq_getElem hi] at hread
    cases hread

end Runs

/-- The file and the output after any run, as its calls tell them: every byte of the file is the one
last written there, every read showed the bytes last written before it, and the calls are those of the
arguments in their order, of all of them if the run ends well. -/
theorem main_trace (io : Io) (old : List UInt8) (argv : List (List UInt8)) :
    let s := (main io old argv).1
    (∀ i, s.content[i]? = byteAt old (blocks s.log) i) ∧ s.out = s.log.flatMap render ∧
      (∀ before e after, s.log = before ++ e :: after → Allowed old before e) ∧
      ∃ rest, argv.drop 2 = s.log.map (·.arg) ++ rest ∧ ((main io old argv).2 = none → rest = []) := by
  obtain ⟨htrace, hargs⟩ := main_state io old argv
  refine ⟨fun i => ?_, htrace.out, htrace.allowed, hargs⟩
  rw [htrace.content, writeBlocks_get]

/-- What a `w` has written an `r` shows as long as no `w` between them writes over it. -/
theorem main_shows_written {io : Io} {old : List UInt8} {argv : List (List UInt8)}
    {before between after : List Event} {a b : List UInt8} {off from' len : ℕ} {bs cs : List UInt8}
    (hlog : (main io old argv).1.log =
      before ++ ⟨a, .write off bs⟩ :: between ++ ⟨b, .read from' len cs⟩ :: after)
    (hkept : ∀ e ∈ between, ∀ o ds, e.call = .write o ds →
      ds = [] ∨ o + ds.length ≤ off ∨ off + bs.length ≤ o)
    {i j : ℕ} (hi : i < cs.length) (hj : j < bs.length) (hsame : from' + i = off + j) : cs[i]? = bs[j]? := by
  obtain ⟨htrace, -⟩ := main_state io old argv
  exact allowed_read (htrace.allowed _ _ _ hlog) hkept hi hj hsame

def working : Io := ⟨true, fun _ => true, fun _ => some 1024, fun _ => some 1024, fun _ => true, true⟩

theorem main_shows_written_two :
    ∃ cs, (main working [] [text "seek_io", text "file", text "wab", text "s0", text "r2"]).1.log =
        [⟨text "wab", .write 0 (text "ab")⟩, ⟨text "s0", .seek 0⟩, ⟨text "r2", .read 0 2 cs⟩] ∧
      cs[1]? = (text "ab")[1]? := by
  have hlog : (main working [] [text "seek_io", text "file", text "wab", text "s0", text "r2"]).1.log =
      [] ++ ⟨text "wab", .write 0 (text "ab")⟩ :: [⟨text "s0", .seek 0⟩] ++
        ⟨text "r2", .read 0 2 (text "ab")⟩ :: [] := rfl
  have hkept : ∀ e ∈ [(⟨text "s0", .seek 0⟩ : Event)], ∀ o ds, e.call = .write o ds →
      ds = [] ∨ o + ds.length ≤ 0 ∨ 0 + (text "ab").length ≤ o := by
    intro e he o ds hcall
    rw [List.mem_singleton.1 he] at hcall
    cases hcall
  exact ⟨text "ab", hlog, main_shows_written hlog hkept (i := 1) (j := 1) (by decide) (by decide) rfl⟩

end Stage0.SeekIo
