import Mathlib

set_option autoImplicit false

/-!
# Environments of `name=value` strings

An environment is a list of strings over any alphabet with a separator. A string
`p=r` defines `p`, and seen from a longer name `p=t` its value `r` is a definition
of its own: the values of `p` form an environment again.
-/
namespace Stage0.Environ

variable {α : Type*} [DecidableEq α] (sep : α)

/-- The value that the string `e` gives to `name`. -/
def binding (name e : List α) : Option (List α) :=
  if name ++ [sep] <+: e then some (e.drop (name.length + 1)) else none

/-- The value of the first definition of `name`. -/
def lookup (env : List (List α)) (name : List α) : Option (List α) :=
  env.findSome? (binding sep name)

def nameOf (e : List α) : List α := e.takeWhile (fun a => a ≠ sep)

/-- Replaces the first definition of the name of `e`, or adds `e`. -/
def putenv (env : List (List α)) (e : List α) : List (List α) :=
  match env with
  | [] => [e]
  | d :: env => if (binding sep (nameOf sep e) d).isSome then e :: env else d :: putenv env e

/-- Removes every definition of `name`. -/
def unsetenv (env : List (List α)) (name : List α) : List (List α) :=
  env.filter fun d => (binding sep name d).isNone

def values (env : List (List α)) (name : List α) : List (List α) :=
  env.filterMap (binding sep name)

/-! ### Names -/

variable {sep}

theorem binding_eq_some {name e v : List α} : binding sep name e = some v ↔ e = name ++ sep :: v := by
  unfold binding
  constructor
  · intro h
    split at h
    · rename_i hp
      obtain ⟨w, rfl⟩ := hp
      rw [List.append_assoc] at h ⊢
      rw [← Option.some.inj h, List.drop_length_add_append]
      rfl
    · cases h
  · rintro rfl
    have hp : name ++ [sep] <+: name ++ sep :: v := ⟨v, by rw [List.append_assoc]; rfl⟩
    rw [if_pos hp, List.drop_length_add_append]
    rfl

theorem nameOf_append {p : List α} (hp : sep ∉ p) (r : List α) : nameOf sep (p ++ sep :: r) = p := by
  have hall : ∀ a ∈ p, decide (a ≠ sep) = true := fun a ha =>
    decide_eq_true (fun h => hp (h ▸ ha))
  rw [nameOf, List.takeWhile_append_of_pos hall, List.takeWhile_cons, if_neg (by simp),
    List.append_nil]

theorem nameOf_self {p : List α} (hp : sep ∉ p) : nameOf sep p = p :=
  List.takeWhile_eq_self_iff.2 (fun _ ha => decide_eq_true (fun h => hp (h ▸ ha)))

theorem nameOf_split {e : List α} (h : sep ∈ e) : ∃ r, e = nameOf sep e ++ sep :: r := by
  obtain ⟨p, r, rfl, hp⟩ := List.eq_append_cons_of_mem h
  rw [nameOf_append hp]
  exact ⟨r, rfl⟩

theorem nameOf_not_mem (e : List α) : sep ∉ nameOf sep e := by
  by_cases h : sep ∈ e
  · obtain ⟨p, r, rfl, hp⟩ := List.eq_append_cons_of_mem h
    rw [nameOf_append hp]
    exact hp
  · rw [nameOf_self h]
    exact h

theorem name_cases (x : List α) : x = nameOf sep x ∨ ∃ t, x = nameOf sep x ++ sep :: t := by
  by_cases h : sep ∈ x
  · exact .inr (nameOf_split h)
  · exact .inl (nameOf_self h).symm

theorem binding_nameOf {x e v : List α} (h : binding sep x e = some v) :
    nameOf sep e = nameOf sep x := by
  obtain rfl := binding_eq_some.1 h
  have hp : sep ∉ nameOf sep x := nameOf_not_mem x
  have hcases : x = nameOf sep x ∨ ∃ t, x = nameOf sep x ++ sep :: t := name_cases x
  rcases hcases with hx | ⟨t, hx⟩
  · rw [← hx] at hp
    rw [nameOf_append hp, nameOf_self hp]
  · generalize nameOf sep x = p at hx hp
    rw [hx, List.append_assoc, List.cons_append, nameOf_append hp]

theorem binding_nested (p t r : List α) :
    binding sep (p ++ sep :: t) (p ++ sep :: r) = binding sep t r := by
  refine Option.ext (fun v => ?_)
  rw [binding_eq_some, binding_eq_some, List.append_assoc, List.append_cancel_left_eq,
    List.cons_append, List.cons.injEq]
  exact and_iff_right rfl

theorem binding_longer {p e : List α} (h : binding sep p e = none) (t : List α) :
    binding sep (p ++ sep :: t) e = none := by
  refine Option.eq_none_iff_forall_ne_some.2 (fun v hv => ?_)
  have he : e = p ++ sep :: (t ++ sep :: v) := by
    rw [binding_eq_some.1 hv, List.append_assoc]
    rfl
  rw [binding_eq_some.2 he] at h
  cases h

/-! ### Reading -/

theorem lookup_head (env : List (List α)) (p : List α) :
    lookup sep env p = (values sep env p).head? :=
  List.head?_filterMap.symm

theorem lookup_nested (env : List (List α)) (p t : List α) :
    lookup sep env (p ++ sep :: t) = lookup sep (values sep env p) t := by
  induction env with
  | nil => rfl
  | cons e env ih =>
    rw [lookup, List.findSome?_cons]
    cases h : binding sep p e with
    | none =>
      rw [binding_longer h, values, List.filterMap_cons_none h]
      exact ih
    | some r =>
      have he := binding_eq_some.1 h
      rw [values, List.filterMap_cons_some h, lookup, List.findSome?_cons, he, binding_nested]
      cases binding sep t r with
      | none => exact ih
      | some v => rfl

/-! ### Writing -/

section Writing

variable {p : List α} (hp : sep ∉ p) (r : List α)
include hp

theorem values_putenv (env : List (List α)) :
    values sep (putenv sep env (p ++ sep :: r)) p = r :: (values sep env p).tail := by
  have hnew : binding sep p (p ++ sep :: r) = some r := binding_eq_some.2 rfl
  induction env with
  | nil => rw [putenv, values, List.filterMap_cons_some hnew]; rfl
  | cons d env ih =>
    rw [putenv, nameOf_append hp]
    cases h : binding sep p d with
    | none =>
      rw [Option.isSome_none, if_neg Bool.false_ne_true, values, values,
        List.filterMap_cons_none h, List.filterMap_cons_none h]
      exact ih
    | some v =>
      rw [Option.isSome_some, if_pos rfl, values, values, List.filterMap_cons_some hnew,
        List.filterMap_cons_some h]
      rfl

theorem lookup_putenv_other (env : List (List α)) {x : List α} (hx : nameOf sep x ≠ p) :
    lookup sep (putenv sep env (p ++ sep :: r)) x = lookup sep env x := by
  have hnone : ∀ {d v}, nameOf sep d = p → binding sep x d = some v → False :=
    fun hd h => hx ((binding_nameOf h).symm.trans hd)
  have hnew : binding sep x (p ++ sep :: r) = none :=
    Option.eq_none_iff_forall_ne_some.2 (fun _ h => hnone (nameOf_append hp r) h)
  induction env with
  | nil =>
    rw [putenv, lookup, List.findSome?_cons, hnew]
    rfl
  | cons d env ih =>
    rw [putenv, nameOf_append hp]
    cases h : binding sep p d with
    | none =>
      rw [Option.isSome_none, if_neg Bool.false_ne_true, lookup, lookup, List.findSome?_cons,
        List.findSome?_cons]
      cases binding sep x d with
      | none => exact ih
      | some v => rfl
    | some v =>
      have hd : binding sep x d = none := Option.eq_none_iff_forall_ne_some.2 (fun _ hv =>
        hnone ((binding_nameOf h).trans (nameOf_self hp)) hv)
      rw [Option.isSome_some, if_pos rfl, lookup, lookup, List.findSome?_cons,
        List.findSome?_cons, hnew, hd]

theorem lookup_putenv_nested (env : List (List α)) (t : List α) :
    lookup sep (putenv sep env (p ++ sep :: r)) (p ++ sep :: t) =
      lookup sep (r :: (values sep env p).tail) t := by
  rw [lookup_nested, values_putenv hp]

theorem lookup_putenv_self (env : List (List α)) :
    lookup sep (putenv sep env (p ++ sep :: r)) p = some r := by
  rw [lookup_head, values_putenv hp]
  rfl

end Writing

/-! ### Environments as maps -/

/-- Every string is a definition, no name has two, and reading a name gives what the map has. -/
structure Represents (sep : α) (env : List (List α)) (m : List α → Option (List α)) : Prop where
  names : (env.map (nameOf sep)).Nodup
  definitions : ∀ e ∈ env, sep ∈ e
  lookup : ∀ x, sep ∉ x → lookup sep env x = m x

section Maps

variable {env : List (List α)} {m : List α → Option (List α)}

theorem binding_isSome_iff {p d : List α} (hp : sep ∉ p) (hd : sep ∈ d) :
    (binding sep p d).isSome = true ↔ nameOf sep d = p := by
  rw [Option.isSome_iff_exists]
  constructor
  · rintro ⟨v, hv⟩
    rw [binding_nameOf hv, nameOf_self hp]
  · rintro rfl
    obtain ⟨r, hr⟩ := nameOf_split hd
    exact ⟨r, binding_eq_some.2 hr⟩

theorem putenv_names {p : List α} (hp : sep ∉ p) (r : List α) (henv : ∀ e ∈ env, sep ∈ e) :
    (putenv sep env (p ++ sep :: r)).map (nameOf sep) =
      if p ∈ env.map (nameOf sep) then env.map (nameOf sep) else env.map (nameOf sep) ++ [p] := by
  induction env with
  | nil =>
    rw [putenv, List.map_singleton, nameOf_append hp]
    rfl
  | cons d env ih =>
    have hiff := binding_isSome_iff hp (henv d List.mem_cons_self)
    have hrest := ih (fun e he => henv e (List.mem_cons_of_mem d he))
    rw [putenv, nameOf_append hp]
    by_cases hd : nameOf sep d = p
    · rw [if_pos (hiff.2 hd), List.map_cons, List.map_cons, nameOf_append hp, hd,
        if_pos List.mem_cons_self]
    · rw [if_neg (fun h => hd (hiff.1 h)), List.map_cons, List.map_cons, hrest]
      by_cases hmem : p ∈ env.map (nameOf sep)
      · rw [if_pos hmem, if_pos (List.mem_cons_of_mem _ hmem)]
      · rw [if_neg hmem, if_neg (List.not_mem_cons_of_ne_of_not_mem (Ne.symm hd) hmem), List.cons_append]

theorem mem_putenv {d e : List α} (h : d ∈ putenv sep env e) : d = e ∨ d ∈ env := by
  induction env with
  | nil => exact .inl (List.mem_singleton.1 h)
  | cons c env ih =>
    rw [putenv] at h
    split at h
    · exact (List.mem_cons.1 h).imp_right (List.mem_cons_of_mem c)
    · rcases List.mem_cons.1 h with rfl | h
      · exact .inr List.mem_cons_self
      · exact (ih h).imp_right (List.mem_cons_of_mem c)

theorem represents_putenv (h : Represents sep env m) {p : List α} (hp : sep ∉ p) (v : List α) :
    Represents sep (putenv sep env (p ++ sep :: v)) (Function.update m p (some v)) where
  names := by
    rw [putenv_names hp v h.definitions]
    split
    · exact h.names
    · rename_i hnew
      refine h.names.append (List.nodup_singleton p) ?_
      rw [List.disjoint_singleton]
      exact hnew
  definitions e he := by
    rcases mem_putenv he with rfl | he
    · exact List.mem_append_right p List.mem_cons_self
    · exact h.definitions e he
  lookup x hx := by
    by_cases hxp : x = p
    · rw [hxp, Function.update_self, lookup_putenv_self hp]
    · rw [Function.update_of_ne hxp, ← h.lookup x hx]
      exact lookup_putenv_other hp v env (by rwa [nameOf_self hx])

theorem lookup_cons (d : List α) (env : List (List α)) (x : List α) :
    Environ.lookup sep (d :: env) x = (binding sep x d).or (Environ.lookup sep env x) := by
  rw [Environ.lookup, List.findSome?_cons]
  cases binding sep x d <;> rfl

theorem lookup_unsetenv {p x : List α} (hp : sep ∉ p) (hx : sep ∉ x) (env : List (List α)) :
    Environ.lookup sep (unsetenv sep env p) x = if x = p then none else Environ.lookup sep env x := by
  induction env with
  | nil => simp [unsetenv, Environ.lookup]
  | cons d env ih =>
    cases hd : binding sep p d with
    | none =>
      have hkept : unsetenv sep (d :: env) p = d :: unsetenv sep env p :=
        List.filter_cons_of_pos (by rw [hd]; rfl)
      rw [hkept, lookup_cons, lookup_cons, ih]
      by_cases hxp : x = p
      · rw [if_pos hxp, if_pos hxp, hxp, hd, Option.none_or]
      · rw [if_neg hxp, if_neg hxp]
    | some v =>
      have hgone : unsetenv sep (d :: env) p = unsetenv sep env p :=
        List.filter_cons_of_neg (by rw [hd]; exact Bool.false_ne_true)
      rw [hgone, lookup_cons, ih]
      by_cases hxp : x = p
      · rw [if_pos hxp, if_pos hxp]
      · have hother : binding sep x d = none := by
          refine Option.eq_none_iff_forall_ne_some.2 fun w hw => hxp ?_
          rw [← nameOf_self hx, ← nameOf_self hp, ← binding_nameOf hw, ← binding_nameOf hd]
        rw [if_neg hxp, if_neg hxp, hother, Option.none_or]

theorem represents_unsetenv (h : Represents sep env m) {p : List α} (hp : sep ∉ p) :
    Represents sep (unsetenv sep env p) (Function.update m p none) where
  names := h.names.sublist (List.filter_sublist.map _)
  definitions e he := h.definitions e (List.mem_filter.1 he).1
  lookup x hx := by
    rw [lookup_unsetenv hp hx, h.lookup x hx, Function.update_apply]

theorem represents_nil : Represents sep [] (fun _ => none) :=
  ⟨List.nodup_nil, fun _ he => absurd he List.not_mem_nil, fun _ _ => rfl⟩

theorem values_length (hnames : (env.map (nameOf sep)).Nodup) (p : List α) :
    (values sep env p).length ≤ 1 := by
  induction env with
  | nil => exact Nat.zero_le _
  | cons d env ih =>
    rw [List.map_cons, List.nodup_cons] at hnames
    rw [values]
    cases hd : binding sep p d with
    | none =>
      rw [List.filterMap_cons_none hd]
      exact ih hnames.2
    | some w =>
      have hnone : values sep env p = [] := by
        refine List.filterMap_eq_nil_iff.2 (fun e he => Option.eq_none_iff_forall_ne_some.2 fun v hv => ?_)
        exact hnames.1 (List.mem_map.2 ⟨e, he, (binding_nameOf hv).trans (binding_nameOf hd).symm⟩)
      rw [List.filterMap_cons_some hd, List.length_cons]
      exact Nat.succ_le_succ (Nat.le_of_eq (List.length_eq_zero_iff.2 hnone))

theorem represents_values (h : Represents sep env m) {p : List α} (hp : sep ∉ p) :
    values sep env p = (m p).toList := by
  have hlen := values_length h.names p
  rw [← h.lookup p hp, lookup_head]
  match values sep env p, hlen with
  | [], _ => rfl
  | [v], _ => rfl

/-- What reading any string from a map gives: a name its value, and `p=t` what follows `t=` in the
value of `p`. -/
def read (sep : α) (m : List α → Option (List α)) (x : List α) : Option (List α) :=
  if sep ∈ x then (m (nameOf sep x)).bind (binding sep (x.drop ((nameOf sep x).length + 1))) else m x

theorem represents_lookup (h : Represents sep env m) (x : List α) :
    Environ.lookup sep env x = read sep m x := by
  unfold read
  split
  · rename_i hx
    obtain ⟨t, ht⟩ := nameOf_split hx
    have hp : sep ∉ nameOf sep x := nameOf_not_mem x
    generalize nameOf sep x = p at ht hp
    subst ht
    have hdrop : (p ++ sep :: t).drop (p.length + 1) = t := by
      rw [← List.drop_drop, List.drop_left]
      rfl
    rw [lookup_nested, represents_values h hp, hdrop]
    cases m p with
    | none => rfl
    | some w => exact List.findSome?_singleton
  · rename_i hx
    exact h.lookup x hx

theorem represents_mem (h : Represents sep env m) (e : List α) :
    e ∈ env ↔ ∃ p v, sep ∉ p ∧ m p = some v ∧ e = p ++ sep :: v := by
  have hvalue : ∀ {p v}, sep ∉ p → (m p = some v ↔ p ++ sep :: v ∈ env) := by
    intro p v hp
    rw [← Option.mem_toList, ← represents_values h hp, values, List.mem_filterMap]
    constructor
    · rintro ⟨d, hd, hbinding⟩
      rw [← binding_eq_some.1 hbinding]
      exact hd
    · exact fun hmem => ⟨_, hmem, binding_eq_some.2 rfl⟩
  constructor
  · intro he
    obtain ⟨v, hv⟩ := nameOf_split (h.definitions e he)
    have hp : sep ∉ nameOf sep e := nameOf_not_mem e
    exact ⟨nameOf sep e, v, hp, (hvalue hp).2 (hv ▸ he), hv⟩
  · rintro ⟨p, v, hp, hm, rfl⟩
    exact (hvalue hp).1 hm

end Maps

end Stage0.Environ
