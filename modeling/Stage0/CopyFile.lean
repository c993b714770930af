import Mathlib
import Stage0.BlockFile

set_option autoImplicit false

/-!
# The copy of `tlpi/fileio/copy.c`

The two names may lead to one file. A read may deliver less than the buffer holds and a
write may transfer less than it is given, and every call may fail.
-/
namespace Stage0.CopyFile
open ByteFile BlockFile

def bufSize : ℕ := 1024

inductive Exit where
  | success
  | usageErr (text : String)
  | errExit (text : String)
  | fatal (text : String)
  deriving DecidableEq, Repr

/-- What the system does: which of the opens and closes succeed, and for every round how many bytes
the read (beside the first) and the write transfer at most, unless they fail. -/
structure Io where
  openInput : Bool
  openOutput : Bool
  read : ℕ → Option ℕ
  write : ℕ → Option ℕ
  closeInput : Bool
  closeOutput : Bool

structure Copy (ι : Type) where
  files : ι → Option (List UInt8)
  input : Description
  output : Description
  round : ℕ

section Program

variable {ι : Type} [DecidableEq ι] (io : Io) (src dst : ι)

def content (files : ι → Option (List UInt8)) (i : ι) : List UInt8 := (files i).getD []

def copyLoop : ℕ → Copy ι → Option (Exit × (ι → Option (List UInt8)))
  | 0, _ => none
  | fuel + 1, s =>
    match io.read s.round with
    | none => some (.errExit "read", s.files)
    | some n =>
      let (buf, input) := get s.input (content s.files src) (min (n + 1) bufSize)
      if buf = [] then some (.success, s.files)
      else
        match io.write s.round with
        | none => some (.fatal "write() returned error or partial write occurred", s.files)
        | some n =>
          let (output, bytes) := put s.output (content s.files dst) (buf.take n)
          let files := Function.update s.files dst (some bytes)
          if (buf.take n).length ≠ buf.length then
            some (.fatal "write() returned error or partial write occurred", files)
          else copyLoop fuel ⟨files, input, output, s.round + 1⟩

def closeFiles (r : Exit × (ι → Option (List UInt8))) : Exit × (ι → Option (List UInt8)) :=
  if r.1 ≠ .success then r
  else if io.closeInput = false then (.errExit "close input", r.2)
  else if io.closeOutput = false then (.errExit "close output", r.2)
  else r

/-- `main` in a file system that has these files, and where names lead to them so. -/
def main (fuel : ℕ) (resolve : String → ι) (files : ι → Option (List UInt8)) (argv : List String) :
    Option (Exit × (ι → Option (List UInt8))) :=
  match argv with
  | [program, old, new] =>
    if old = "--help" then some (.usageErr (program ++ " old-file new-file\n"), files)
    else if io.openInput = false ∨ files (resolve old) = none then
      some (.errExit ("opening file " ++ old), files)
    else if io.openOutput = false then some (.errExit ("opening file " ++ new), files)
    else
      -- O_TRUNC
      let files := Function.update files (resolve new) (some [])
      (copyLoop io (resolve old) (resolve new) fuel ⟨files, ⟨0, false⟩, ⟨0, false⟩, 0⟩).map (closeFiles io)
  | _ => some (.usageErr (argv.headD "" ++ " old-file new-file\n"), files)

end Program

/-- No call of the loop fails, and every write is complete. -/
def Works (io : Io) : Prop := ∀ k, io.read k ≠ none ∧ ∃ n, io.write k = some n ∧ bufSize ≤ n

section Loop

variable {ι : Type} {io : Io} {src dst : ι} {before : ι → Option (List UInt8)} {data : List UInt8}

structure Copied (before : ι → Option (List UInt8)) (src dst : ι) (data : List UInt8) (s : Copy ι) :
    Prop where
  others : ∀ i, i ≠ dst → s.files i = before i
  source : content s.files src = data
  copied : s.files dst = some (data.take s.input.offset)
  input : s.input.offset ≤ data.length
  output : s.output = ⟨s.input.offset, false⟩

structure Ended (before : ι → Option (List UInt8)) (dst : ι) (data : List UInt8)
    (r : Exit × (ι → Option (List UInt8))) : Prop where
  others : ∀ i, i ≠ dst → r.2 i = before i
  copied : ∃ n, r.2 dst = some (data.take n)
  whole : r.1 = .success → r.2 dst = some data

theorem copied_ended {s : Copy ι} (h : Copied before src dst data s) {exit : Exit}
    (hexit : exit ≠ .success) : Ended before dst data (exit, s.files) :=
  ⟨h.others, ⟨_, h.copied⟩, fun he => absurd he hexit⟩

theorem take_extend {data : List UInt8} {off m n : ℕ} :
    data.take off ++ ((readBlock data off m).take n) =
      data.take (off + ((readBlock data off m).take n).length) := by
  have hpart : (readBlock data off m).take n <+: data.drop off :=
    (List.take_prefix n _).trans (List.take_prefix m _)
  rw [List.take_add, ← List.prefix_iff_eq_take.1 hpart]

theorem closeFiles_exit (r : Exit × (ι → Option (List UInt8))) :
    (closeFiles io r).2 = r.2 ∧ ((closeFiles io r).1 = .success → r.1 = .success) ∧
      (io.closeInput = true → io.closeOutput = true → r.1 = .success → (closeFiles io r).1 = .success) := by
  unfold closeFiles
  by_cases hr : r.1 = .success
  · rw [if_neg (not_not.2 hr)]
    cases io.closeInput <;> cases io.closeOutput <;> simp [hr]
  · rw [if_pos hr]
    exact ⟨rfl, id, fun _ _ h => absurd h hr⟩

variable [DecidableEq ι]

theorem copied_write {s : Copy ι} (h : Copied before src dst data s) (hne : src ≠ dst) (m n : ℕ) :
    let part := (readBlock data s.input.offset m).take n
    put s.output (content s.files dst) part =
      (⟨s.input.offset + part.length, false⟩, data.take (s.input.offset + part.length)) ∧
    Copied before src dst data ⟨Function.update s.files dst (some (data.take (s.input.offset + part.length))),
      { s.input with offset := s.input.offset + part.length },
      ⟨s.input.offset + part.length, false⟩, s.round + 1⟩ := by
  intro part
  have hcontent : content s.files dst = data.take s.input.offset := by
    rw [content, h.copied, Option.getD_some]
  have hlen : (data.take s.input.offset).length = s.input.offset := by
    rw [List.length_take, Nat.min_eq_left h.input]
  have hfits : s.input.offset + part.length ≤ data.length := by
    have hread := readBlock_length data s.input.offset m
    have hpart : part.length = min n (readBlock data s.input.offset m).length := List.length_take
    have hin := h.input
    omega
  constructor
  · have hblock := writeBlock_end (data.take s.input.offset) part
    rw [hlen] at hblock
    rw [h.output, put_over rfl, hcontent, hblock, take_extend]
  · refine ⟨fun i hi => ?_, ?_, Function.update_self _ _ _, hfits, rfl⟩
    · exact (Function.update_of_ne hi _ _).trans (h.others i hi)
    · have hkept := Function.update_of_ne hne (some (data.take (s.input.offset + part.length))) s.files
      exact (congrArg (Option.getD · []) hkept).trans h.source

theorem copyLoop_ends (io : Io) (hsame : src = dst → data = []) (fuel : ℕ) {s : Copy ι}
    (h : Copied before src dst data s) (hfuel : data.length - s.input.offset < fuel) :
    ∃ r, copyLoop io src dst fuel s = some r ∧ Ended before dst data r ∧
      (Works io → r.1 = .success) := by
  induction fuel generalizing s with
  | zero => omega
  | succ fuel ih =>
    rw [copyLoop]
    cases hread : io.read s.round with
    | none => exact ⟨_, rfl, copied_ended h (by simp), fun hworks => absurd hread (hworks _).1⟩
    | some n =>
      simp only [BlockFile.get, h.source]
      generalize hm : min (n + 1) bufSize = m
      have hpos : 0 < m := by
        unfold bufSize at hm
        omega
      have hlen := readBlock_length data s.input.offset m
      by_cases hbuf : readBlock data s.input.offset m = []
      · rw [hbuf, List.length_nil] at hlen
        have hend : s.input.offset = data.length := by
          have hin := h.input
          omega
        have hwhole : s.files dst = some data := by
          rw [h.copied, hend, List.take_length]
        rw [if_pos hbuf]
        exact ⟨_, rfl, ⟨h.others, ⟨_, h.copied⟩, fun _ => hwhole⟩, fun _ => rfl⟩
      · have hlong := List.length_pos_iff.2 hbuf
        have hne : src ≠ dst := by
          intro he
          rw [hsame he] at hlen hlong
          rw [List.length_nil] at hlen
          omega
        rw [if_neg hbuf]
        cases hwrite : io.write s.round with
        | none =>
          refine ⟨_, rfl, copied_ended h (by simp), fun hworks => ?_⟩
          obtain ⟨n', hn', -⟩ := (hworks s.round).2
          rw [hwrite] at hn'
          cases hn'
        | some n' =>
          obtain ⟨hput, hcopied⟩ := copied_write h hne m n'
          simp only [hput]
          by_cases hshort : ((readBlock data s.input.offset m).take n').length =
              (readBlock data s.input.offset m).length
          · rw [if_neg (not_not.2 hshort), hshort]
            rw [hshort] at hcopied
            exact ih hcopied (by simp only; omega)
          · rw [if_pos hshort]
            refine ⟨_, rfl, copied_ended hcopied (by simp), fun hworks => absurd ?_ hshort⟩
            obtain ⟨n'', hn'', hlarge⟩ := (hworks s.round).2
            rw [hwrite] at hn''
            cases hn''
            rw [List.take_of_length_le (by omega)]

theorem truncated (src dst : ι) (files : ι → Option (List UInt8)) {source : List UInt8} (h : files src = some source) :
    Copied files src dst (if src = dst then [] else source)
      ⟨Function.update files dst (some []), ⟨0, false⟩, ⟨0, false⟩, 0⟩ := by
  refine ⟨fun i hi => Function.update_of_ne hi _ _, ?_, Function.update_self _ _ _, Nat.zero_le _, rfl⟩
  by_cases he : src = dst
  · rw [if_pos he, he]
    exact congrArg (Option.getD · []) (Function.update_self dst (some []) files)
  · rw [if_neg he]
    exact congrArg (Option.getD · []) ((Function.update_of_ne he (some []) files).trans h)

end Loop

/-- What `main` leaves behind whatever the calls do: other files as they were, and the new file as
it was or with a beginning of the old one. A success leaves all of it, but nothing when both names
lead to one file. Where every call does all it is asked to, `main` succeeds. -/
theorem main_copies {ι : Type} [DecidableEq ι] (io : Io) (resolve : String → ι)
    (files : ι → Option (List UInt8)) (name old new : String) (hname : old ≠ "--help")
    (source : List UInt8) (hsource : files (resolve old) = some source) (fuel : ℕ)
    (hfuel : source.length < fuel) :
    ∃ exit after, main io fuel resolve files [name, old, new] = some (exit, after) ∧
      (∀ i, i ≠ resolve new → after i = files i) ∧
      (after (resolve new) = files (resolve new) ∨ ∃ n, after (resolve new) = some (source.take n)) ∧
      (exit = .success →
        after (resolve new) = some (if resolve old = resolve new then [] else source)) ∧
      (io.openInput = true → io.openOutput = true → Works io → io.closeInput = true →
        io.closeOutput = true → exit = .success) := by
  rw [main, if_neg hname]
  cases hin : io.openInput with
  | false =>
    rw [if_pos (.inl rfl)]
    exact ⟨_, _, rfl, fun _ _ => rfl, .inl rfl, by simp, by simp⟩
  | true =>
    have hopen : ¬(true = false ∨ files (resolve old) = none) := by simp [hsource]
    rw [if_neg hopen]
    cases hout : io.openOutput with
    | false =>
      rw [if_pos rfl]
      exact ⟨_, _, rfl, fun _ _ => rfl, .inl rfl, by simp, by simp⟩
    | true =>
      rw [if_neg (by simp)]
      obtain ⟨r, hrun, hended, hworks⟩ := copyLoop_ends io (fun he => if_pos he) fuel
        (truncated (resolve old) (resolve new) files hsource)
        (show _ < fuel by split <;> simp only [List.length_nil] <;> omega)
      obtain ⟨hfiles, hsuccess, hcloses⟩ := @closeFiles_exit _ io r
      obtain ⟨n, hn⟩ := hended.copied
      have hwhole := fun he => hended.whole (hsuccess he)
      rw [← hfiles] at hn hwhole
      refine ⟨(closeFiles io r).1, (closeFiles io r).2, congrArg (Option.map (closeFiles io)) hrun, ?_,
        .inr ?_, ?_, fun _ _ hall hci hco => hcloses hci hco (hworks hall)⟩
      · rw [hfiles]
        exact hended.others
      · rw [hn]
        split
        · exact ⟨0, by simp⟩
        · exact ⟨n, rfl⟩
      · intro he
        rw [hwhole he]

def byteIo : Io := ⟨true, true, fun _ => some 0, fun _ => some bufSize, true, true⟩

theorem main_copies_pair : ∃ after,
    main byteIo 3 id (Function.update (fun _ => none) "a" (some [1, 2])) ["copy", "a", "b"] =
      some (.success, after) ∧ after "b" = some [1, 2] ∧ after "a" = some [1, 2] := by
  obtain ⟨exit, after, hmain, hothers, -, hsuccess, hworks⟩ := main_copies byteIo id
    (Function.update (fun _ => none) "a" (some [1, 2])) "copy" "a" "b" (by decide) [1, 2] rfl 3 (by decide)
  have hexit := hworks rfl rfl (fun _ => ⟨by simp [byteIo], bufSize, rfl, le_rfl⟩) rfl rfl
  subst hexit
  exact ⟨after, hmain, hsuccess rfl, hothers "a" (by decide)⟩

end Stage0.CopyFile
