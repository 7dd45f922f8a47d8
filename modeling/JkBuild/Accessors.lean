import JkBuild.Kwargs

/-! The six accessors of the arguments under one law: a required field is read or refused,
an optional one is read in the same way when it is there. Two of them break it. -/
namespace JkBuild.Accessors

/-- The types a field can be read at. -/
inductive FieldType where
  | string
  | list
  | boolean
  deriving DecidableEq, Repr

namespace FieldType

abbrev Value : FieldType → Type
  | string => String
  | list => List String
  | boolean => Bool

def required : (type : FieldType) → Kwargs → String → Except Failure type.Value
  | string => Kwargs.stringRequired
  | list => Kwargs.listRequired
  | boolean => Kwargs.booleanRequired

def optional : (type : FieldType) → Kwargs → String → Option type.Value → Except Failure type.Value
  | string => Kwargs.stringOptional
  | list => Kwargs.listOptional
  | boolean => Kwargs.booleanOptional

def embed : (type : FieldType) → type.Value → KwargsValue
  | string, value => .string value
  | list, values => .list (values.map .string)
  | boolean, value => .boolean value

end FieldType

/-- Both accessors read a stored value of their type alike, and only an absent field takes the default. -/
structure Agrees (type : FieldType) (kwargs : Kwargs) (name : String) : Prop where
  returns : ∀ value, type.required kwargs name = .ok value ↔ kwargs.lookup name = some (type.embed value)
  raises : (∀ value, type.required kwargs name ≠ .ok value) →
    ∃ message, type.required kwargs name = .error (.jkBuildError message)
  defaulted : kwargs.lookup name = none → ∀ value, type.optional kwargs name (some value) = .ok value
  missing : kwargs.lookup name = none → ∃ message, type.optional kwargs name none = .error (.jkBuildError message)
  present : (kwargs.lookup name).isSome = true → ∀ default,
    type.optional kwargs name default = type.required kwargs name

/-- The values whose type both accessors check: an optional string must not be given as a string
or a list, and the elements of a list are not looked at. -/
def Suits : FieldType → Option KwargsValue → Prop
  | .string, some (.string _) => False
  | .string, some (.list _) => False
  | .list, some (.list values) => ∃ strings : List String, values = strings.map .string
  | _, _ => True

section Laws

variable {kwargs : Kwargs} {name : String}

theorem agrees_absent (type : FieldType) (absent : kwargs.lookup name = none) : Agrees type kwargs name := by
  have refused : type.required kwargs name = .error (Kwargs.absent name) := by
    cases type <;> simp [FieldType.required,Kwargs.stringRequired,Kwargs.listRequired,Kwargs.booleanRequired,
      Kwargs.required,absent]
  have optional : ∀ default : Option type.Value, type.optional kwargs name default =
      match default with
      | some value => .ok value
      | none => .error (Kwargs.absent name) := by
    intro default
    cases type <;> cases default <;> simp [FieldType.optional,Kwargs.stringOptional,Kwargs.listOptional,
      Kwargs.booleanOptional,Kwargs.optional,absent]
  refine ⟨fun value => by simp [refused,absent],fun _ => ⟨_,refused⟩,fun _ value => optional (some value),
    fun _ => ⟨_,optional none⟩,?_⟩
  simp [absent]

theorem agrees_present {type : FieldType} {value : KwargsValue} (found : kwargs.lookup name = some value)
    (result : Except Failure type.Value) (same : type.required kwargs name = result)
    (optional : ∀ default, type.optional kwargs name default = result)
    (reads : (∃ v, value = type.embed v ∧ result = .ok v) ∨
      (∀ v, value ≠ type.embed v) ∧ ∃ message, result = .error (.jkBuildError message)) :
    Agrees type kwargs name := by
  have embed_injective : ∀ v w, type.embed v = type.embed w → v = w := by
    intro v w equal
    cases type with
    | string => exact KwargsValue.string.inj equal
    | list =>
      exact List.map_injective_iff.mpr (fun _ _ => KwargsValue.string.inj) (KwargsValue.list.inj equal)
    | boolean => exact KwargsValue.boolean.inj equal
  refine ⟨fun v => ?_,fun never => ?_,by simp [found],by simp [found],
    fun _ default => (optional default).trans same.symm⟩
  · rw [same,found]
    rcases reads with ⟨w,rfl,rfl⟩ | ⟨other,message,rfl⟩
    · constructor
      · rintro read
        rw [Except.ok.inj read]
      · intro equal
        rw [embed_injective w v (Option.some.inj equal)]
    · constructor
      · intro read
        contradiction
      · intro equal
        exact absurd (Option.some.inj equal) (other v)
  · rcases reads with ⟨w,rfl,rfl⟩ | ⟨-,message,failed⟩
    · exact absurd same (never w)
    · exact ⟨message,same.trans failed⟩

theorem required_found {read : KwargsValue → Except Failure α} (found : kwargs.lookup name = some value) :
    kwargs.required name read = read value := by
  rw [Kwargs.required,found]

theorem optional_found {read : KwargsValue → Except Failure α} (found : kwargs.lookup name = some value)
    (default : Option α) : kwargs.optional name default read = read value := by
  simp only [Kwargs.optional,found]

theorem boolean_agrees (kwargs : Kwargs) (name : String) : Agrees .boolean kwargs name := by
  cases found : kwargs.lookup name with
  | none => exact agrees_absent .boolean found
  | some value =>
    refine agrees_present found _ (required_found found) (optional_found found) ?_
    cases value with
    | boolean b => exact .inl ⟨b,rfl,rfl⟩
    | string _ | list _ | map _ => exact .inr ⟨fun v => by simp [FieldType.embed],_,rfl⟩

theorem list_agrees_iff : Agrees .list kwargs name ↔ Suits .list (kwargs.lookup name) := by
  cases found : kwargs.lookup name with
  | none => simp [Suits,agrees_absent .list found]
  | some value =>
    have agrees : _ → Agrees .list kwargs name :=
      agrees_present found _ (required_found found) (optional_found found)
    cases value with
    | list values =>
      constructor
      · intro agrees
        cases gotten : values.mapM KwargsValue.getString with
        | ok strings => exact ⟨strings,(Kwargs.getStrings_ok values strings).mp gotten⟩
        | error e =>
          -- the exception of an element that is no string is none of the program's own
          obtain rfl := Kwargs.getStrings_exception gotten
          have thrown : FieldType.list.required kwargs name = .error .badVariantAccess :=
            (required_found found).trans gotten
          obtain ⟨message,failed⟩ := agrees.raises fun v => by simp [thrown]
          rw [thrown] at failed
          simp at failed
      · rintro ⟨strings,rfl⟩
        exact agrees (.inl ⟨strings,rfl,(Kwargs.getStrings_ok _ strings).mpr rfl⟩)
    | string _ | map _ | boolean _ =>
      exact iff_of_true (agrees (.inr ⟨fun v => by simp [FieldType.embed],_,rfl⟩)) trivial

theorem string_agrees_iff : Agrees .string kwargs name ↔ Suits .string (kwargs.lookup name) := by
  cases found : kwargs.lookup name with
  | none => simp [Suits,agrees_absent .string found]
  | some value =>
    have required : FieldType.string.required kwargs name = Kwargs.read name 0 "str" KwargsValue.getString value :=
      required_found found
    have optional : ∀ default, FieldType.string.optional kwargs name default =
        Kwargs.read name 1 "str" KwargsValue.getString value := optional_found found
    have apart : Kwargs.read name 0 "str" KwargsValue.getString value ≠
        Kwargs.read name 1 "str" KwargsValue.getString value → ¬Agrees .string kwargs name := by
      intro differ agrees
      have same := agrees.present (by simp [found]) none
      rw [required,optional] at same
      exact differ same.symm
    cases value with
    | string _ | list _ =>
      exact iff_of_false (apart (by simp [Kwargs.read,KwargsValue.index,KwargsValue.getString,Kwargs.illTyped])) id
    | map _ | boolean _ =>
      exact iff_of_true (agrees_present found (.error (Kwargs.illTyped name "str")) required optional
        (.inr ⟨fun v => by simp [FieldType.embed],_,rfl⟩)) trivial

end Laws

/-- The accessors of a type agree at a field exactly when it suits them: always for booleans,
for lists unless one has an element that is no string, and for strings unless the field holds
a string or a list. -/
theorem agrees_iff (type : FieldType) (kwargs : Kwargs) (name : String) :
    Agrees type kwargs name ↔ Suits type (kwargs.lookup name) := by
  cases type with
  | string => exact string_agrees_iff
  | list => exact list_agrees_iff
  | boolean => exact iff_of_true (boolean_agrees kwargs name) trivial

/-- A version is read where it is required and refused where it is optional, and what comes
of a list is an exception of the variant. -/
theorem optional_string_refused :
    Kwargs.stringRequired [("version",.string "1.0.0")] "version" = .ok "1.0.0" ∧
      Kwargs.stringOptional [("version",.string "1.0.0")] "version" (some "DEFAULT") =
        .error (.jkBuildError "field 'version' expect type str") ∧
      Kwargs.stringOptional [("version",.list [])] "version" (some "DEFAULT") = .error .badVariantAccess ∧
      ¬Agrees .string [("version",.string "1.0.0")] "version" := by
  refine ⟨rfl,rfl,rfl,fun agrees => ?_⟩
  have same := agrees.present rfl none
  contradiction

end JkBuild.Accessors
