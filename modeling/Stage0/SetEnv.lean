import Mathlib
import Stage0.Environ
import Stage0.Script

set_option autoImplicit false

/-!
# `setenv2` of `tlpi/proc/setenv.c`

The call formats `name=value` into one string, which `putenv` splits again at its
first `=`. Strings are lists of bytes.
-/
namespace Stage0.SetEnv
open Script

abbrev Str := List UInt8

def eq : UInt8 := '='.toUInt8

/-- The empty name has no value, not even where a string begins with `=`. -/
def getenv (environ : List Str) (name : Str) : Option Str :=
  if name = [] then none else Environ.lookup eq environ name

def putenv (environ : List Str) (string : Str) : List Str := Environ.putenv eq environ string

structure Call where
  name : Str
  value : Str
  overwrite : ℤ
  malloc : Bool
  putenv : Bool
  deriving DecidableEq, Repr

def Call.formatted (call : Call) : Str := call.name ++ eq :: call.value

/-- `snprintf`: the length of the whole text, or `-1` when an `int` cannot hold it. -/
def snprintf (text : Str) : ℤ := if text.length < 2 ^ 31 then text.length else -1

def setenv2 (environ : List Str) (call : Call) : ℤ × List Str :=
  if snprintf call.formatted < 0 then (-1, environ)
  else if call.malloc = false then (-1, environ)
  -- the second snprintf prints the same text, so the test of its length cannot fail
  else if call.overwrite = 0 ∧ getenv environ call.name ≠ none then (0, environ)
  else if call.putenv = false then (-1, environ)
  else (0, putenv environ call.formatted)

/-- One call as `setenv` is described, for every observed name. -/
def Lawful (observed : Str → Prop) (environ : List Str) (call : Call) : Prop :=
  ((setenv2 environ call).1 = -1 ∧
    ∀ name, observed name → getenv (setenv2 environ call).2 name = getenv environ name) ∨
  ((setenv2 environ call).1 = 0 ∧
    getenv (setenv2 environ call).2 call.name =
      (if call.overwrite ≠ 0 ∨ getenv environ call.name = none then some call.value
        else getenv environ call.name) ∧
    ∀ name, observed name → name ≠ call.name →
      getenv (setenv2 environ call).2 name = getenv environ name)

/-! ### Calls that reach `putenv` -/

def Writes (environ : List Str) (call : Call) : Prop :=
  call.formatted.length < 2 ^ 31 ∧ call.malloc = true ∧ call.putenv = true ∧
    (call.overwrite ≠ 0 ∨ getenv environ call.name = none)

theorem setenv2_writes {environ : List Str} {call : Call} (h : Writes environ call) :
    setenv2 environ call = (0, putenv environ call.formatted) := by
  obtain ⟨hlen, hmalloc, hput, hfree⟩ := h
  have hprint : ¬snprintf call.formatted < 0 := by
    rw [snprintf, if_pos hlen]
    omega
  have hkeep : ¬(call.overwrite = 0 ∧ getenv environ call.name ≠ none) :=
    fun h => hfree.elim (fun ho => ho h.1) h.2
  rw [setenv2, if_neg hprint, if_neg (by rw [hmalloc]; decide), if_neg hkeep,
    if_neg (by rw [hput]; decide)]

theorem setenv2_idle {environ : List Str} {call : Call} (h : ¬Writes environ call) :
    setenv2 environ call = (-1, environ) ∨
      (setenv2 environ call = (0, environ) ∧ call.overwrite = 0 ∧
        getenv environ call.name ≠ none) := by
  unfold setenv2
  split_ifs with hprint hmalloc hkeep hput
  · exact .inl rfl
  · exact .inl rfl
  · exact .inr ⟨rfl, hkeep⟩
  · exact .inl rfl
  · refine absurd ⟨?_, by simpa using hmalloc, by simpa using hput, ?_⟩ h
    · by_contra hlen
      rw [snprintf, if_neg hlen] at hprint
      omega
    · by_contra hno
      exact hkeep ⟨not_not.1 (not_or.1 hno).1, (not_or.1 hno).2⟩

theorem idle_lawful (observed : Str → Prop) {environ : List Str} {call : Call}
    (h : ¬Writes environ call) : Lawful observed environ call := by
  rcases setenv2_idle h with hfail | ⟨hkeep, hzero, hbound⟩
  · refine .inl ⟨by rw [hfail], fun name _ => by rw [hfail]⟩
  · refine .inr ⟨by rw [hkeep], ?_, fun name _ _ => by rw [hkeep]⟩
    rw [hkeep, if_neg (not_or.2 ⟨not_not.2 hzero, hbound⟩)]

/-! ### What a write does to the names -/

theorem formatted_split (call : Call) : ∃ r, call.formatted = Environ.nameOf eq call.name ++ eq :: r ∧
    (eq ∉ call.name ∧ Environ.nameOf eq call.name = call.name ∧ r = call.value ∨
      ∃ t, call.name = Environ.nameOf eq call.name ++ eq :: t ∧ r = t ++ eq :: call.value) := by
  by_cases h : eq ∈ call.name
  · obtain ⟨t, ht⟩ := Environ.nameOf_split h
    refine ⟨t ++ eq :: call.value, ?_, .inr ⟨t, ht, rfl⟩⟩
    generalize Environ.nameOf eq call.name = p at ht
    rw [Call.formatted, ht, List.append_assoc]
    rfl
  · have hp := Environ.nameOf_self h
    exact ⟨call.value, by rw [hp]; rfl, .inl ⟨h, hp, rfl⟩⟩

theorem getenv_nonempty {name : Str} (h : name ≠ []) (environ : List Str) :
    getenv environ name = Environ.lookup eq environ name := if_neg h

theorem getenv_written (environ : List Str) {call : Call} (hname : call.name ≠ []) :
    getenv (putenv environ call.formatted) call.name = some call.value := by
  rw [getenv_nonempty hname]
  obtain ⟨r, hr, ⟨-, hp, rfl⟩ | ⟨t, hsplit, rfl⟩⟩ := formatted_split call
  · have hnot : eq ∉ Environ.nameOf eq call.name := Environ.nameOf_not_mem call.name
    rw [hr, hp] at *
    exact Environ.lookup_putenv_self hnot _ environ
  · have hnot : eq ∉ Environ.nameOf eq call.name := Environ.nameOf_not_mem call.name
    rw [hr]
    generalize Environ.nameOf eq call.name = p at hsplit hnot
    rw [hsplit]
    refine (Environ.lookup_putenv_nested hnot _ environ t).trans ?_
    rw [Environ.lookup, List.findSome?_cons, Environ.binding_eq_some.2 rfl]

theorem lawful_of_writes (observed : Str → Prop) {environ : List Str} {call : Call}
    (h : Writes environ call) : Lawful observed environ call ↔
      call.name ≠ [] ∧ ∀ name, observed name → name ≠ call.name →
        getenv (putenv environ call.formatted) name = getenv environ name := by
  unfold Lawful
  rw [setenv2_writes h, if_pos h.2.2.2]
  constructor
  · rintro (⟨hret, -⟩ | ⟨-, hself, hothers⟩)
    · simp only at hret
      omega
    · refine ⟨fun hempty => ?_, hothers⟩
      rw [hempty] at hself
      cases hself
  · exact fun ⟨hname, hothers⟩ => .inr ⟨rfl, getenv_written environ hname, hothers⟩

def IsName (x : Str) : Prop := eq ∉ x

/-- Where a call writes, its name is not empty, and if it is `p=t` with a `p` that is not empty,
`p` is bound to `t=value` already. -/
def Harmless (environ : List Str) (call : Call) : Prop :=
  Writes environ call → call.name ≠ [] ∧ ∀ p t, p ≠ [] → IsName p → call.name = p ++ eq :: t →
    getenv environ p = some (t ++ eq :: call.value)

/-- Where a call puts the string `p=r`, that hides or shows nothing to the other strings that go on
after `p=`: as environments, the values of `p` before and after agree on them. -/
def Unseen (environ : List Str) (call : Call) : Prop :=
  Writes environ call → ∀ p r, IsName p → call.formatted = p ++ eq :: r → ∀ t, p ++ eq :: t ≠ call.name →
    Environ.lookup eq (r :: (Environ.values eq environ p).tail) t =
      Environ.lookup eq (Environ.values eq environ p) t

theorem getenv_put {p x : Str} (hp : IsName p) (hx : IsName x) (hne : x ≠ []) (r : Str)
    (environ : List Str) :
    getenv (putenv environ (p ++ eq :: r)) x = if x = p then some r else getenv environ x := by
  rw [getenv_nonempty hne, getenv_nonempty hne]
  split
  · rename_i h
    rw [h]
    exact Environ.lookup_putenv_self hp r environ
  · rename_i h
    exact Environ.lookup_putenv_other hp r environ (by rw [Environ.nameOf_self hx]; exact h)

theorem formatted_name {call : Call} {p t : Str} (h : call.name = p ++ eq :: t) :
    call.formatted = p ++ eq :: (t ++ eq :: call.value) := by
  rw [Call.formatted, h, List.append_assoc]
  rfl

theorem split_ne_name {x p t : Str} (hp : IsName p) (h : x = p ++ eq :: t) : p ≠ x := by
  rintro rfl
  rw [h] at hp
  exact hp (List.mem_append_right _ List.mem_cons_self)

theorem lawful_iff_harmless (environ : List Str) (call : Call) :
    Lawful IsName environ call ↔ Harmless environ call := by
  by_cases hw : Writes environ call
  · rw [lawful_of_writes IsName hw]
    constructor
    · rintro ⟨hname, h⟩ -
      refine ⟨hname, fun p t hne hp hsplit => ?_⟩
      rw [← h p hp (split_ne_name hp hsplit), formatted_name hsplit, getenv_put hp hp hne, if_pos rfl]
    · intro h
      obtain ⟨hname, hbound⟩ := h hw
      refine ⟨hname, fun x hx hother => ?_⟩
      by_cases hne : x = []
      · rw [hne]
        rfl
      · by_cases hplain : IsName call.name
        · rw [Call.formatted, getenv_put hplain hx hne, if_neg hother]
        · obtain ⟨t, hsplit⟩ := Environ.nameOf_split (not_not.1 hplain)
          have hp : IsName (Environ.nameOf eq call.name) := Environ.nameOf_not_mem _
          rw [formatted_name hsplit, getenv_put hp hx hne]
          split
          · rename_i hxp
            rw [hxp] at hne ⊢
            rw [hbound _ t hne hp hsplit]
          · rfl
  · exact iff_of_true (idle_lawful IsName hw) (fun h => absurd h hw)

theorem getenv_nested {p : Str} (environ : List Str) (t : Str) : getenv environ (p ++ eq :: t) =
    Environ.lookup eq (Environ.values eq environ p) t := by
  rw [getenv_nonempty (List.append_ne_nil_of_right_ne_nil _ (List.cons_ne_nil _ _))]
  exact Environ.lookup_nested environ p t

theorem getenv_put_nested {p : Str} (hp : IsName p) (r : Str) (environ : List Str) (t : Str) :
    getenv (putenv environ (p ++ eq :: r)) (p ++ eq :: t) =
      Environ.lookup eq (r :: (Environ.values eq environ p).tail) t := by
  rw [getenv_nonempty (List.append_ne_nil_of_right_ne_nil _ (List.cons_ne_nil _ _))]
  exact Environ.lookup_putenv_nested hp r environ t

/-- Seen from every string, it also has to keep the strings that go on after `p=`. -/
theorem lawful_iff_unseen (environ : List Str) (call : Call) :
    Lawful (fun _ => True) environ call ↔ Harmless environ call ∧ Unseen environ call := by
  by_cases hw : Writes environ call
  · rw [← lawful_iff_harmless, lawful_of_writes IsName hw, lawful_of_writes _ hw]
    constructor
    · rintro ⟨hname, h⟩
      refine ⟨⟨hname, fun x _ => h x trivial⟩, fun _ p r hp hr t hother => ?_⟩
      have hkept := h (p ++ eq :: t) trivial hother
      rw [hr, getenv_put_nested hp, getenv_nested] at hkept
      exact hkept
    · rintro ⟨⟨hname, hnames⟩, hunseen⟩
      refine ⟨hname, fun x _ hother => ?_⟩
      obtain ⟨r, hr, -⟩ := formatted_split call
      have hp : IsName (Environ.nameOf eq call.name) := Environ.nameOf_not_mem call.name
      have hq : IsName (Environ.nameOf eq x) := Environ.nameOf_not_mem x
      have hsplit : x = Environ.nameOf eq x ∨ ∃ t, x = Environ.nameOf eq x ++ eq :: t :=
        Environ.name_cases x
      rcases hsplit with hx | ⟨t, hx⟩
      · exact hnames x (hx ▸ hq) hother
      · by_cases hsame : Environ.nameOf eq x = Environ.nameOf eq call.name
        · rw [hsame] at hx
          have hkept := hunseen hw _ r hp hr t (hx ▸ hother)
          rw [hx, hr, getenv_put_nested hp, getenv_nested]
          exact hkept
        · have hne : x ≠ [] := by
            rw [hx]
            exact List.append_ne_nil_of_right_ne_nil _ (List.cons_ne_nil _ _)
          rw [hr, getenv_nonempty hne, getenv_nonempty hne]
          exact Environ.lookup_putenv_other hp r environ hsame
  · exact iff_of_true (idle_lawful _ hw) ⟨fun h => absurd h hw, fun h => absurd h hw⟩

/-! ### Histories -/

def after (environ : List Str) (call : Call) : List Str := (setenv2 environ call).2

/-- Every call of a history follows `setenv` exactly where every call is harmless,
and for all strings exactly where every call also stays unseen. -/
theorem history_lawful_iff (environ : List Str) (calls : List Call) :
    (AlongCalls after (Lawful IsName) environ calls ↔ AlongCalls after Harmless environ calls) ∧
      (AlongCalls after (Lawful fun _ => True) environ calls ↔
        AlongCalls after (fun environ call => Harmless environ call ∧ Unseen environ call)
          environ calls) :=
  ⟨alongCalls_iff lawful_iff_harmless environ calls, alongCalls_iff lawful_iff_unseen environ calls⟩

/-- `setenv2("a=b", "c", 1)` -/
def assignPair : Call :=
  ⟨['a'.toUInt8, eq, 'b'.toUInt8], ['c'.toUInt8], 1, true, true⟩

/-- In an empty environment that call returns 0 and binds `a`. -/
theorem history_assignPair :
    ¬∀ (environ : List Str) (calls : List Call), AlongCalls after (Lawful IsName) environ calls := by
  intro h
  have hput : setenv2 [] assignPair = (0, [assignPair.formatted]) := by decide
  have ha : getenv [assignPair.formatted] ['a'.toUInt8] ≠ getenv [] ['a'.toUInt8] := by decide
  rcases (h [] [assignPair]).1 with ⟨hret, -⟩ | ⟨-, -, hothers⟩
  · rw [hput] at hret
    exact absurd hret (by decide)
  · rw [hput] at hothers
    exact ha (hothers ['a'.toUInt8] (by unfold IsName; decide) (by decide))

end Stage0.SetEnv
