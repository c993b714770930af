import Mathlib
import Stage0.Strtol

set_option autoImplicit false

/-!
# Names and numbers of users and groups (`tlpi/user_groups/ugid_functions.c`)

The functions for users and for groups differ in the database that they search.
-/
namespace Stage0.UgidFunctions
open CInt Strtol

structure Entry where
  name : List UInt8
  id : UInt32
  deriving DecidableEq, Repr

/-- `getpwuid` and `getgrgid` -/
def getById (db : List Entry) (id : UInt32) : Option Entry := db.find? (·.id = id)

/-- `getpwnam` and `getgrnam` -/
def getByName (db : List Entry) (name : List UInt8) : Option Entry := db.find? (·.name = name)

def nameFromId (db : List Entry) (id : UInt32) : Option (List UInt8) := (getById db id).map (·.name)

def noId : UInt32 := UInt32.ofInt (-1)

def idFromName (db : List Entry) (name : Option (List UInt8)) : UInt32 :=
  match name with
  | none => noId
  | some name =>
    if name = [] then noId
    else
      let res := strtol name 10
      -- the `long` is converted when it is assigned
      if res.endptr = [] then UInt32.ofInt res.value
      else
        match getByName db name with
        | none => noId
        | some e => e.id

def userNameFromId (passwd : List Entry) (uid : UInt32) : Option (List UInt8) := nameFromId passwd uid

def userIdFromName (passwd : List Entry) (name : Option (List UInt8)) : UInt32 := idFromName passwd name

def groupNameFromId (group : List Entry) (gid : UInt32) : Option (List UInt8) := nameFromId group gid

def groupIdFromName (group : List Entry) (name : Option (List UInt8)) : UInt32 := idFromName group name

section Lookup

variable {db : List Entry} {s : List UInt8} {id : UInt32}

/-- The number that a numeral gives, cut to a `long` and then to 32 bits. -/
def numericId (v : ℤ) : UInt32 := UInt32.ofInt (clampLong v)

theorem idFromName_numeral {v : ℤ} (h : Numeral 10 s v) : idFromName db (some s) = numericId v := by
  have hs := numeral_ne_nil h
  have hclamp : strtol s 10 = ⟨clampLong v, [], decide (v < longMin ∨ longMax < v)⟩ := by
    have hbounds : longMin < longMax := by decide
    rw [strtol_numeral h, clampLong]
    split
    · rename_i hlow
      rw [min_eq_right (by omega), max_eq_left (by omega), decide_eq_true (Or.inl hlow)]
    · split
      · rename_i hhigh
        rw [min_eq_left (by omega), max_eq_right (by omega), decide_eq_true (Or.inr hhigh)]
      · rename_i hlow hhigh
        rw [min_eq_right (by omega), max_eq_right (by omega), decide_eq_false (by omega)]
  simp only [idFromName, if_neg hs, hclamp, if_true, numericId]

theorem idFromName_other (hs : s ≠ []) (h : ∀ v, ¬Numeral 10 s v) :
    idFromName db (some s) = ((getByName db s).map (·.id)).getD noId := by
  have hend : (strtol s 10).endptr ≠ [] := by
    intro hend
    obtain ⟨v, hv⟩ := (strtol_whole hs).1 hend
    exact h v hv
  simp only [idFromName, if_neg hs, if_neg hend]
  cases getByName db s <;> rfl

theorem getById_some {e : Entry} (h : getById db id = some e) : e ∈ db ∧ e.id = id := by
  unfold getById at h
  exact ⟨List.mem_of_find?_eq_some h, by simpa using List.find?_some h⟩

theorem getByName_some {e : Entry} (h : getByName db s = some e) : e ∈ db ∧ e.name = s := by
  unfold getByName at h
  exact ⟨List.mem_of_find?_eq_some h, by simpa using List.find?_some h⟩

/-- The name found for a number leads back to it, unless the name is itself a number of another one. -/
theorem idFromName_nameFromId (hnames : (db.map (·.name)).Nodup) (hs : s ≠ [])
    (h : nameFromId db id = some s) :
    idFromName db (some s) = id ↔ ∀ v, Numeral 10 s v → numericId v = id := by
  constructor
  · intro hid v hv
    rw [← @idFromName_numeral db s v hv, hid]
  · intro hnumeric
    by_cases hnum : ∃ v, Numeral 10 s v
    · obtain ⟨v, hv⟩ := hnum
      rw [idFromName_numeral hv, hnumeric v hv]
    · obtain ⟨e, hfound, rfl⟩ := Option.map_eq_some_iff.1 h
      obtain ⟨hmem, hid⟩ := getById_some hfound
      have hback : getByName db e.name = some e := by
        cases hf : getByName db e.name with
        | none => exact absurd (decide_eq_true rfl) (List.find?_eq_none.1 hf e hmem)
        | some e' =>
          obtain ⟨hmem', hname⟩ := getByName_some hf
          rw [List.inj_on_of_nodup_map hnames hmem' hmem hname]
      rw [idFromName_other hs (fun v hv => hnum ⟨v, hv⟩), hback]
      exact hid

end Lookup

def confusing : List Entry := [⟨['7'.toUInt8], 1000⟩]

theorem idFromName_nameFromId_confusing : idFromName confusing (some ['7'.toUInt8]) ≠ 1000 := by
  intro h
  have hseven : Numeral 10 ['7'.toUInt8] 7 :=
    ⟨[], ['7'.toUInt8], .none, 7, rfl, by simp, .plain (by decide) ⟨List.cons_ne_nil _ _,
      fun c hc => List.mem_singleton.1 hc ▸ rfl⟩, rfl⟩
  have hid := (idFromName_nameFromId (by decide) (by decide) rfl).1 h 7 hseven
  exact absurd hid (by decide)

end Stage0.UgidFunctions
