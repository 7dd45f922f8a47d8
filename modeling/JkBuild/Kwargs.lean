import JkBuild.Basic
import JkBuild.Results

/-! The arguments of a rule function, `utils/kwargs.cc`: the accessors look a field up,
check the index of its variant and read it. -/
namespace JkBuild

inductive KwargsValue where
  | string (value : String)
  | list (value : List KwargsValue)
  | map (value : List (String × KwargsValue))
  | boolean (value : Bool)

def KwargsValue.index : KwargsValue → Nat
  | string _ => 0
  | list _ => 1
  | map _ => 2
  | boolean _ => 3

/-- `std::get` of an alternative throws on every other one. -/
def KwargsValue.getString : KwargsValue → Except Failure String
  | string value => .ok value
  | _ => .error .badVariantAccess

def KwargsValue.getStrings : KwargsValue → Except Failure (List String)
  | list value => value.mapM getString
  | _ => .error .badVariantAccess

def KwargsValue.getBoolean : KwargsValue → Except Failure Bool
  | boolean value => .ok value
  | _ => .error .badVariantAccess

abbrev Kwargs := List (String × KwargsValue)

namespace Kwargs

def absent (name : String) : Failure := .jkBuildError ("expect field '" ++ name ++ "' but not found")

def illTyped (name type : String) : Failure :=
  .jkBuildError ("field '" ++ name ++ "' expect type " ++ type)

/-- The check and the read that all accessors share. -/
def read (name : String) (index : Nat) (type : String) (get : KwargsValue → Except Failure α)
    (value : KwargsValue) : Except Failure α :=
  if value.index ≠ index then .error (illTyped name type) else get value

def required (kwargs : Kwargs) (name : String) (read : KwargsValue → Except Failure α) : Except Failure α :=
  match kwargs.lookup name with
  | none => .error (absent name)
  | some value => read value

def optional (kwargs : Kwargs) (name : String) (defaultValue : Option α)
    (read : KwargsValue → Except Failure α) : Except Failure α :=
  match kwargs.lookup name with
  | none =>
    match defaultValue with
    | some value => .ok value
    | none => .error (absent name)
  | some value => read value

def stringRequired (kwargs : Kwargs) (name : String) : Except Failure String :=
  kwargs.required name (read name 0 "str" KwargsValue.getString)

def listRequired (kwargs : Kwargs) (name : String) : Except Failure (List String) :=
  kwargs.required name (read name 1 "list" KwargsValue.getStrings)

/-- The index compared with is that of a list. -/
def stringOptional (kwargs : Kwargs) (name : String) (defaultValue : Option String) : Except Failure String :=
  kwargs.optional name defaultValue (read name 1 "str" KwargsValue.getString)

def listOptional (kwargs : Kwargs) (name : String) (defaultValue : Option (List String)) :
    Except Failure (List String) :=
  kwargs.optional name defaultValue (read name 1 "list" KwargsValue.getStrings)

def booleanRequired (kwargs : Kwargs) (name : String) : Except Failure Bool :=
  kwargs.required name (read name 3 "boolean" KwargsValue.getBoolean)

def booleanOptional (kwargs : Kwargs) (name : String) (defaultValue : Option Bool) : Except Failure Bool :=
  kwargs.optional name defaultValue (read name 3 "boolean" KwargsValue.getBoolean)

/-- A list field that is not there, or is a list of strings. -/
def ListField (kwargs : Kwargs) (name : String) : Prop :=
  ∀ value, kwargs.lookup name = some value → ∃ strings : List String, value = .list (strings.map .string)

/-- The strings a list field declares. -/
def declared (kwargs : Kwargs) (name : String) : List String :=
  (kwargs.listOptional name (some [])).toOption.getD []

theorem getString_exception {value : KwargsValue} (failed : value.getString = .error e) : e = .badVariantAccess := by
  cases value with
  | string s => contradiction
  | list values => exact (Except.error.inj failed).symm
  | map entries => exact (Except.error.inj failed).symm
  | boolean b => exact (Except.error.inj failed).symm

theorem getStrings_ok (values : List KwargsValue) (strings : List String) :
    values.mapM KwargsValue.getString = .ok strings ↔ values = strings.map .string := by
  constructor
  · intro done
    induction values generalizing strings with
    | nil =>
      obtain rfl := Except.ok.inj done
      rfl
    | cons value values ih =>
      rw [List.mapM_cons] at done
      obtain ⟨s,first,done⟩ := bind_ok done
      obtain ⟨rest,all,done⟩ := bind_ok done
      obtain rfl := Except.ok.inj done
      rw [ih rest all]
      cases value <;> cases first
      rfl
  · rintro rfl
    induction strings with
    | nil => rfl
    | cons s strings ih =>
      rw [List.map_cons,List.mapM_cons,ih]
      rfl

theorem getStrings_exception {values : List KwargsValue} (failed : values.mapM KwargsValue.getString = .error e) :
    e = .badVariantAccess := by
  obtain ⟨value,-,first⟩ := mapM_fails failed
  exact getString_exception first

theorem listOptional_ok_iff {kwargs : Kwargs} {name : String} :
    (∃ strings, kwargs.listOptional name (some []) = .ok strings) ↔ kwargs.ListField name := by
  unfold listOptional optional ListField
  cases found : kwargs.lookup name with
  | none => simp
  | some value =>
    cases value with
    | list values => simp [read,KwargsValue.index,KwargsValue.getStrings,getStrings_ok]
    | string s => simp [read,KwargsValue.index]
    | map entries => simp [read,KwargsValue.index]
    | boolean b => simp [read,KwargsValue.index]

theorem listOptional_exception {kwargs : Kwargs} {name : String} {defaultValue : Option (List String)}
    (failed : kwargs.listOptional name defaultValue = .error e) : e.isException = true := by
  unfold listOptional optional at failed
  split at failed
  · split at failed
    · contradiction
    · rw [← Except.error.inj failed]
      rfl
  · next value found =>
    unfold read at failed
    split at failed
    · rw [← Except.error.inj failed]
      rfl
    · cases value with
      | list values =>
        rw [getStrings_exception failed]
        rfl
      | string s => simp [KwargsValue.index] at *
      | map entries => simp [KwargsValue.index] at *
      | boolean b => simp [KwargsValue.index] at *

/-- A given string is refused: the index that is let through is none `get` can read. -/
theorem stringOptional_ok {kwargs : Kwargs} {name result : String} {defaultValue : Option String}
    (done : kwargs.stringOptional name defaultValue = .ok result) : defaultValue = some result := by
  unfold stringOptional optional at done
  cases found : kwargs.lookup name with
  | none =>
    rw [found] at done
    cases defaultValue with
    | none => contradiction
    | some value => exact congrArg some (Except.ok.inj done)
  | some value =>
    rw [found] at done
    cases value <;> contradiction

end Kwargs

end JkBuild
