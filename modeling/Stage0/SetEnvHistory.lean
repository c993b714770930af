import Mathlib
import Stage0.SetEnv

set_option autoImplicit false

/-!
# Histories of `setenv2` as histories of a map

An environment that gives every name one value stays one under `tlpi/proc/setenv.c`, and it
is the map that the calls have made, whatever strings they were given.
-/
namespace Stage0.SetEnvHistory
open Environ SetEnv

def getMap (m : Str → Option Str) (name : Str) : Option Str := if name = [] then none else read eq m name

/-- One call on the map of the environment: a name `p=t` sets `p` to a value that begins with `t=`. -/
def setMap (m : Str → Option Str) (call : Call) : Str → Option Str :=
  if call.formatted.length < 2 ^ 31 ∧ call.malloc = true ∧ call.putenv = true ∧
      (call.overwrite ≠ 0 ∨ getMap m call.name = none) then
    Function.update m (nameOf eq call.formatted)
      (some (call.formatted.drop ((nameOf eq call.formatted).length + 1)))
  else m

theorem represents_getMap {environ : List Str} {m : Str → Option Str} (h : Represents eq environ m)
    (name : Str) : getenv environ name = getMap m name := by
  rw [getenv, getMap, represents_lookup h]

theorem after_represents {environ : List Str} {m : Str → Option Str} (h : Represents eq environ m)
    (call : Call) : Represents eq (after environ call) (setMap m call) := by
  have hread : getenv environ call.name = getMap m call.name := represents_getMap h call.name
  by_cases hw : Writes environ call
  · have hset := hw
    rw [Writes, hread] at hset
    have hp : eq ∉ nameOf eq call.formatted := nameOf_not_mem call.formatted
    obtain ⟨r, hr⟩ := nameOf_split (List.mem_append_right call.name (List.mem_cons_self (a := eq)))
    rw [after, setenv2_writes hw, setMap, if_pos hset]
    change call.formatted = nameOf eq call.formatted ++ eq :: r at hr
    have hdrop : call.formatted.drop ((nameOf eq call.formatted).length + 1) = r := by
      generalize nameOf eq call.formatted = p at hr
      rw [hr, ← List.drop_drop, List.drop_left]
      rfl
    have hput := represents_putenv h hp r
    rw [← hr] at hput
    rw [hdrop]
    exact hput
  · have hset := hw
    rw [Writes, hread] at hset
    have hsame : after environ call = environ := by
      rcases setenv2_idle hw with hfail | ⟨hkeep, -⟩
      · rw [after, hfail]
      · rw [after, hkeep]
    rw [hsame, setMap, if_neg hset]
    exact h

/-- After any calls the strings of the environment are exactly the definitions of the map, each name
has one of them, and `getenv` reads the map. -/
theorem history_represents (environ : List Str) (m : Str → Option Str) (h : Represents eq environ m)
    (calls : List Call) :
    ((calls.foldl after environ).map (nameOf eq)).Nodup ∧
    (∀ e, e ∈ calls.foldl after environ ↔
      ∃ p v, IsName p ∧ calls.foldl setMap m p = some v ∧ e = p ++ eq :: v) ∧
    ∀ x, getenv (calls.foldl after environ) x = getMap (calls.foldl setMap m) x := by
  have hend : Represents eq (calls.foldl after environ) (calls.foldl setMap m) := by
    induction calls generalizing environ m with
    | nil => exact h
    | cons call calls ih => exact ih _ _ (after_represents h call)
  exact ⟨hend.names, represents_mem hend, represents_getMap hend⟩

/-- `setenv2("", "x", 1)` and `setenv2("", "y", 0)` leave `=y`, which no `getenv` sees. -/
def namelessPair : List Call :=
  [⟨[], ['x'.toUInt8], 1, true, true⟩, ⟨[], ['y'.toUInt8], 0, true, true⟩]

theorem history_represents_pairs :
    (((assignPair :: namelessPair).foldl after []).map (nameOf eq)).Nodup ∧
    (∀ e, e ∈ (assignPair :: namelessPair).foldl after [] ↔ ∃ p v, IsName p ∧
      (assignPair :: namelessPair).foldl setMap (fun _ => none) p = some v ∧ e = p ++ eq :: v) ∧
    ∀ x, getenv ((assignPair :: namelessPair).foldl after []) x =
      getMap ((assignPair :: namelessPair).foldl setMap (fun _ => none)) x :=
  history_represents [] (fun _ => none) represents_nil (assignPair :: namelessPair)

end Stage0.SetEnvHistory
