import Mathlib
import Stage0.Decimal
import Stage0.SetEnv

set_option autoImplicit false

/-!
# The environment that `tlpi/proc/modify_env.c` prints

The calls are those of the C library: `putenv` of a string without `=` removes the name,
and `setenv` and `unsetenv` are given names that are not empty.
-/
namespace Stage0.ModifyEnv
open Environ SetEnv
open Decimal (text)

def putenv (environ : List Str) (string : Str) : List Str :=
  if eq ∈ string then Environ.putenv eq environ string
  else if string = [] then environ
  else unsetenv eq environ string

/-- `setenv` with `overwrite` 0 -/
def setenv (environ : List Str) (name value : Str) : List Str :=
  if getenv environ name = none then Environ.putenv eq environ (name ++ eq :: value) else environ

inductive Failure where
  | putenv (arg : Str)
  | setenv
  deriving DecidableEq, Repr

/-- The loop over the arguments from the `j`-th on; `works` tells which calls of `putenv` succeed. -/
def putAll (works : ℕ → Bool) : ℕ → List Str → List Str → Except Failure (List Str)
  | _, [], environ => .ok environ
  | j, arg :: args, environ =>
    if works j then putAll works (j + 1) args (putenv environ arg) else .error (.putenv arg)

def main (works : ℕ → Bool) (setenvWorks : Bool) (argv : List Str) : Except Failure (List Str) :=
  match putAll works 1 argv.tail [] with
  | .error e => .error e
  | .ok environ =>
    if setenvWorks = false ∧ getenv environ (text "GREET") = none then .error .setenv
    else .ok (unsetenv eq (setenv environ (text "GREET") (text "Hello world")) (text "BYE"))

/-! ### The arguments as a map -/

/-- What an argument says of a name: nothing, or a value or that there is none. -/
def effect (name arg : Str) : Option (Option Str) :=
  if eq ∈ arg then if nameOf eq arg = name then some (some (arg.drop (name.length + 1))) else none
  else if arg = name ∧ arg ≠ [] then some none
  else none

def defined (args : List Str) (name : Str) : Option Str := ((args.filterMap (effect name)).getLast?).join

def asked (args : List Str) (name : Str) : Option Str :=
  if name = text "BYE" then none
  else if name = text "GREET" then some ((defined args name).getD (text "Hello world"))
  else defined args name

theorem defined_concat (args : List Str) (arg name : Str) :
    defined (args ++ [arg]) name = (effect name arg).getD (defined args name) := by
  unfold defined
  rw [List.filterMap_append]
  cases h : effect name arg with
  | none => simp [h]
  | some v => simp [h]

theorem represents_put {environ : List Str} {args : List Str} (h : Represents eq environ (defined args))
    (arg : Str) : Represents eq (putenv environ arg) (defined (args ++ [arg])) := by
  unfold putenv
  by_cases harg : eq ∈ arg
  · rw [if_pos harg]
    obtain ⟨v, hv⟩ := nameOf_split harg
    have hp : eq ∉ nameOf eq arg := nameOf_not_mem arg
    have hmap : defined (args ++ [arg]) = Function.update (defined args) (nameOf eq arg) (some v) := by
      funext name
      rw [defined_concat, effect, if_pos harg, Function.update_apply]
      by_cases hname : nameOf eq arg = name
      · rw [if_pos hname, if_pos hname.symm, Option.getD_some, ← hname]
        congr 1
        conv_lhs => rw [hv]
        rw [nameOf_append hp, ← List.drop_drop, List.drop_left]
        rfl
      · rw [if_neg hname, if_neg (Ne.symm hname), Option.getD_none]
    rw [hmap]
    have hput := represents_putenv h hp v
    rwa [← hv] at hput
  · rw [if_neg harg]
    by_cases hnil : arg = []
    · have hmap : defined (args ++ [arg]) = defined args := by
        funext name
        rw [defined_concat, effect, if_neg harg, if_neg (fun hempty => hempty.2 hnil), Option.getD_none]
      rw [if_pos hnil, hmap]
      exact h
    · have hmap : defined (args ++ [arg]) = Function.update (defined args) arg none := by
        funext name
        rw [defined_concat, effect, if_neg harg, Function.update_apply]
        by_cases hname : name = arg
        · rw [if_pos ⟨hname.symm, hnil⟩, if_pos hname, Option.getD_some]
        · rw [if_neg (fun hsame => hname hsame.1.symm), if_neg hname, Option.getD_none]
      rw [if_neg hnil, hmap]
      exact represents_unsetenv h harg

theorem putAll_represents {works : ℕ → Bool} (hworks : ∀ j, works j = true) (j : ℕ) {done : List Str}
    (args : List Str) {environ : List Str} (h : Represents eq environ (defined done)) :
    ∃ final, putAll works j args environ = .ok final ∧ Represents eq final (defined (done ++ args)) := by
  induction args generalizing j done environ with
  | nil => exact ⟨environ, rfl, by rwa [List.append_nil]⟩
  | cons arg args ih =>
    obtain ⟨final, hfinal, hrep⟩ := ih (j + 1) (represents_put h arg)
    refine ⟨final, ?_, by rwa [List.append_assoc] at hrep⟩
    rw [putAll, if_pos (hworks j)]
    exact hfinal

theorem represents_setenv {environ : List Str} {m : Str → Option Str} (h : Represents eq environ m)
    {name : Str} (hname : IsName name) (hne : name ≠ []) (value : Str) :
    Represents eq (setenv environ name value) (Function.update m name (some ((m name).getD value))) := by
  have hget : getenv environ name = m name := (getenv_nonempty hne environ).trans (h.lookup name hname)
  unfold setenv
  rw [hget]
  cases hm : m name with
  | none =>
    rw [if_pos rfl, Option.getD_none]
    exact represents_putenv h hname value
  | some w =>
    rw [if_neg (Option.some_ne_none w), Option.getD_some, ← hm, Function.update_eq_self]
    exact h

/-- Where the calls succeed, the lines are the definitions of the environment that the arguments ask
for, each name on one line: the last argument about it counts, `GREET` is there unless one defines it,
and `BYE` is not. -/
theorem main_prints {works : ℕ → Bool} (hworks : ∀ j, works j = true) (program : Str) (args : List Str) :
    ∃ lines, main works true (program :: args) = .ok lines ∧ (lines.map (nameOf eq)).Nodup ∧
      ∀ line, line ∈ lines ↔ ∃ p v, IsName p ∧ asked args p = some v ∧ line = p ++ eq :: v := by
  have hstart : Represents eq [] (defined []) := represents_nil
  obtain ⟨environ, hall, hrep⟩ := putAll_represents hworks 1 args hstart
  have hgreet : eq ∉ text "GREET" := by decide
  have hbye : eq ∉ text "BYE" := by decide
  have hfinal := represents_unsetenv (represents_setenv hrep hgreet (by decide) (text "Hello world")) hbye
  have hmap : Function.update (Function.update (defined ([] ++ args)) (text "GREET")
      (some ((defined ([] ++ args) (text "GREET")).getD (text "Hello world")))) (text "BYE") none = asked args := by
    funext name
    rw [List.nil_append, Function.update_apply, Function.update_apply]
    unfold asked
    split
    · rfl
    · split
      · rename_i hname
        rw [hname]
      · rfl
  rw [hmap] at hfinal
  refine ⟨_, ?_, hfinal.names, represents_mem hfinal⟩
  simp only [main, List.tail_cons, hall, Bool.true_eq_false, false_and, if_false]

def allWork : ℕ → Bool := fun _ => true

theorem main_prints_twice : ∃ lines, main allWork true [text "modify_env", text "A=1", text "A=2"] =
    .ok lines ∧ text "A=2" ∈ lines ∧ text "GREET=Hello world" ∈ lines := by
  have hworks : ∀ j, allWork j = true := fun _ => rfl
  obtain ⟨lines, hmain, -, hlines⟩ := main_prints hworks (text "modify_env") [text "A=1", text "A=2"]
  have hname : eq ∉ text "A" := by decide
  have hgreet : eq ∉ text "GREET" := by decide
  exact ⟨lines, hmain, (hlines _).2 ⟨text "A", text "2", hname, rfl, rfl⟩,
    (hlines _).2 ⟨text "GREET", text "Hello world", hgreet, rfl, rfl⟩⟩

end Stage0.ModifyEnv
