import JkBuild.Packages
import JkBuild.Tasks

/-! `ExtractFieldFromArguments`: the fields a rule takes from its arguments before it is
prepared. -/
namespace JkBuild

open Tasks

/-- The fields of all rule classes; a rule uses those of its own. -/
structure Fields where
  cFlags : List String := []
  cppFlags : List String := []
  cxxFlags : List String := []
  ldFlags : List String := []
  sources : List String := []
  excludes : List String := []
  includes : List String := []
  defines : List String := []
  headers : List String := []
  alwaysCompile : List String := []
  rawAddtionalDependencies : List (String × List String) := []
  script : String := ""
  exports : List String := []
  exportBin : List (String × String) := []

namespace Fields

def fillListField (kwargs : Kwargs) (key : String) (write : List String → Fields → Fields) :
    EStateM Failure Fields Unit := do
  let value ← attempt (kwargs.listOptional key (some []))
  modify (write value)

def ccLibrary (kwargs : Kwargs) : EStateM Failure Fields Unit := do
  fillListField kwargs "cflags" fun value s => { s with cFlags := value }
  fillListField kwargs "cppflags" fun value s => { s with cppFlags := value }
  fillListField kwargs "cxxflags" fun value s => { s with cxxFlags := value }
  fillListField kwargs "ldflags" fun value s => { s with ldFlags := value }
  fillListField kwargs "srcs" fun value s => { s with sources := value }
  fillListField kwargs "excludes" fun value s => { s with excludes := value }
  fillListField kwargs "includes" fun value s => { s with includes := value }
  fillListField kwargs "defines" fun value s => { s with defines := value }
  fillListField kwargs "headers" fun value s => { s with headers := value }
  fillListField kwargs "always_compile" fun value s => { s with alwaysCompile := value }
  modify fun s => if s.headers = [] then { s with headers := ["*.h","**/*.h"] } else s

/-- `RawAddtionalDependencies[r].push_back(dep)`. -/
def pushRaw (r dep : String) (raw : List (String × List String)) : List (String × List String) :=
  if raw.any (·.1 = r) then raw.map fun (k,vs) => if k = r then (k,vs ++ [dep]) else (k,vs)
  else raw ++ [(r,[dep])]

def addDepsEntry (entry : String × KwargsValue) : EStateM Failure (List (String × List String)) Unit :=
  match entry.2 with
  | .string dep => modify (pushRaw entry.1 dep)
  | .list deps => deps.forM fun
    | .string dep => modify (pushRaw entry.1 dep)
    | _ => throw (.jkBuildError "field 'add_deps' value expect str")
  | _ => throw (.jkBuildError "field 'add_deps' value expect str or list")

def addDeps (kwargs : Kwargs) : EStateM Failure (List (String × List String)) Unit :=
  match kwargs.lookup "add_deps" with
  | none => pure ()
  | some (.map entries) => entries.forM addDepsEntry
  | some _ => throw (.jkBuildError "field 'add_deps' expect type dict")

def ccBinary (kwargs : Kwargs) : EStateM Failure Fields Unit := do
  ccLibrary kwargs
  zoom (·.rawAddtionalDependencies) (fun raw s => { s with rawAddtionalDependencies := raw }) (addDeps kwargs)

def exportField (kwargs : Kwargs) : EStateM Failure Fields Unit :=
  match kwargs.lookup "export" with
  | none => throw (Kwargs.absent "export")
  | some (.string value) => modify fun s => { s with exports := [value] }
  | some (.list values) => do
    modify fun s => { s with exports := [] }
    values.forM fun value => do
      let value ← attempt value.getString
      modify fun s => { s with exports := s.exports ++ [value] }
  | some value =>
    throw (.jkBuildError ("field 'export' expect type list or str, but " ++ toString value.index))

def exportBinField (kwargs : Kwargs) : EStateM Failure Fields Unit :=
  match kwargs.lookup "export_bin" with
  | none => pure ()
  | some (.map entries) => do
    modify fun s => { s with exportBin := [] }
    entries.forM fun (k,v) => do
      let value ← attempt v.getString
      modify fun s => { s with exportBin := s.exportBin.filter (·.1 ≠ k) ++ [(k,value)] }
  | some _ => throw (.jkBuildError "field 'export_bin' expect type dict")

def shellScript (kwargs : Kwargs) : EStateM Failure Fields Unit := do
  let script ← attempt (kwargs.stringRequired "script")
  modify fun s => { s with script }
  exportField kwargs
  exportBinField kwargs
  fillListField kwargs "ldflags" fun value s => { s with ldFlags := value }

def extract (cls : RuleClass) (kwargs : Kwargs) : EStateM Failure Fields Unit :=
  match cls with
  | .ccLibrary | .protoLibrary => ccLibrary kwargs
  | .ccBinary | .ccTest => ccBinary kwargs
  | .shellScript => shellScript kwargs

def ccFields : List String :=
  ["cflags","cppflags","cxxflags","ldflags","srcs","excludes","includes","defines","headers","always_compile"]

def Entries (each : KwargsValue → Prop) (value : KwargsValue) : Prop :=
  ∃ entries, value = .map entries ∧ ∀ entry ∈ entries, each entry.2

def IsString (value : KwargsValue) : Prop := ∃ s, value = .string s

def IsStrings (value : KwargsValue) : Prop := ∃ strings : List String, value = .list (strings.map .string)

/-- The arguments a rule of the class can be made from. -/
def WellTyped (cls : RuleClass) (kwargs : Kwargs) : Prop :=
  match cls with
  | .ccLibrary | .protoLibrary => ∀ key ∈ ccFields, kwargs.ListField key
  | .ccBinary | .ccTest => (∀ key ∈ ccFields, kwargs.ListField key) ∧
    ∀ value, kwargs.lookup "add_deps" = some value → Entries (fun deps => IsString deps ∨ IsStrings deps) value
  | .shellScript => (∃ script, kwargs.lookup "script" = some (.string script)) ∧
    (∃ value, kwargs.lookup "export" = some value ∧ (IsString value ∨ IsStrings value)) ∧
    (∀ value, kwargs.lookup "export_bin" = some value → Entries IsString value) ∧ kwargs.ListField "ldflags"

section Extraction

variable {kwargs : Kwargs}

theorem isStrings_iff (values : List KwargsValue) : IsStrings (.list values) ↔ ∀ value ∈ values, IsString value := by
  constructor
  · rintro ⟨strings,same⟩ value member
    obtain rfl := KwargsValue.list.inj same
    obtain ⟨s,-,rfl⟩ := List.mem_map.mp member
    exact ⟨s,rfl⟩
  · intro each
    induction values with
    | nil => exact ⟨[],rfl⟩
    | cons value values ih =>
      obtain ⟨s,rfl⟩ := each value List.mem_cons_self
      obtain ⟨strings,same⟩ := ih fun v member => each v (List.mem_cons_of_mem _ member)
      exact ⟨s :: strings,by rw [KwargsValue.list.inj same]; rfl⟩

theorem settled_error {σ : Type} (message : String) :
    Settled (·.isException = true) (throw (.jkBuildError message) : EStateM Failure σ Unit) False :=
  settled_throw rfl

theorem fillListField_settled (kwargs : Kwargs) (key : String) (write : List String → Fields → Fields) :
    Settled (·.isException = true) (fillListField kwargs key write) (kwargs.ListField key) := by
  have value : Settled (·.isException = true) (attempt (kwargs.listOptional key (some [])) : EStateM Failure Fields _)
      (∃ strings, kwargs.listOptional key (some []) = .ok strings) :=
    settled_attempt fun _ failed => Kwargs.listOptional_exception failed
  have filled := value.bind fun strings => settled_modify (write strings)
  unfold fillListField
  apply filled.congr
  rw [and_true,Kwargs.listOptional_ok_iff]

theorem ccLibrary_settled (kwargs : Kwargs) :
    Settled (·.isException = true) (ccLibrary kwargs) (∀ key ∈ ccFields, kwargs.ListField key) := by
  have field := fillListField_settled kwargs
  refine Settled.congr ((field _ _).bind fun _ => (field _ _).bind fun _ => (field _ _).bind fun _ =>
    (field _ _).bind fun _ => (field _ _).bind fun _ => (field _ _).bind fun _ => (field _ _).bind fun _ =>
    (field _ _).bind fun _ => (field _ _).bind fun _ => (field _ _).bind fun _ => settled_modify _) ?_
  simp [ccFields]

theorem addDepsEntry_settled (entry : String × KwargsValue) :
    Settled (·.isException = true) (addDepsEntry entry) (IsString entry.2 ∨ IsStrings entry.2) := by
  obtain ⟨r,deps⟩ := entry
  cases deps with
  | string dep =>
    refine (settled_modify _).congr ?_
    simp [IsString]
  | list deps =>
    refine (settled_forM deps fun dep => (?_ : Settled _ _ (IsString dep))).congr ?_
    · cases dep with
      | string dep =>
        refine (settled_modify _).congr ?_
        simp [IsString]
      | list _ | map _ | boolean _ =>
        refine (settled_error _).congr ?_
        simp [IsString]
    · simp only [← isStrings_iff]
      simp [IsString]
  | map _ | boolean _ =>
    refine (settled_error _).congr ?_
    simp [IsString,IsStrings]

theorem addDeps_settled (kwargs : Kwargs) : Settled (·.isException = true) (addDeps kwargs)
    (∀ value, kwargs.lookup "add_deps" = some value → Entries (fun deps => IsString deps ∨ IsStrings deps) value) := by
  unfold addDeps
  cases kwargs.lookup "add_deps" with
  | none =>
    refine (settled_pure _).congr ?_
    simp
  | some value =>
    cases value with
    | map entries =>
      refine (settled_forM entries addDepsEntry_settled).congr ?_
      simp [Entries]
    | string _ | list _ | boolean _ =>
      refine (settled_error _).congr ?_
      simp [Entries]

theorem getString_settled (value : KwargsValue) :
    Settled (·.isException = true) (attempt value.getString : EStateM Failure Fields String) (IsString value) := by
  have exception : ∀ e, value.getString = .error e → e.isException = true := by
    intro e failed
    rw [Kwargs.getString_exception failed]
    rfl
  apply (settled_attempt exception).congr
  cases value <;> simp [KwargsValue.getString,IsString]

theorem exportField_settled (kwargs : Kwargs) : Settled (·.isException = true) (exportField kwargs)
    (∃ value, kwargs.lookup "export" = some value ∧ (IsString value ∨ IsStrings value)) := by
  unfold exportField
  cases kwargs.lookup "export" with
  | none =>
    refine (settled_error _).congr ?_
    simp
  | some value =>
    cases value with
    | string _ =>
      refine (settled_modify _).congr ?_
      simp [IsString]
    | list values =>
      have each := fun value => (getString_settled value).bind fun v =>
        settled_modify fun s : Fields => { s with exports := s.exports ++ [v] }
      refine ((settled_modify _).bind fun _ => settled_forM values each).congr ?_
      simp only [and_true,true_and,← isStrings_iff]
      simp [IsString]
    | map _ | boolean _ =>
      refine (settled_error _).congr ?_
      simp [IsString,IsStrings]

theorem exportBinField_settled (kwargs : Kwargs) : Settled (·.isException = true) (exportBinField kwargs)
    (∀ value, kwargs.lookup "export_bin" = some value → Entries IsString value) := by
  unfold exportBinField
  cases kwargs.lookup "export_bin" with
  | none =>
    refine (settled_pure _).congr ?_
    simp
  | some value =>
    cases value with
    | map entries =>
      have each := fun entry : String × KwargsValue => (getString_settled entry.2).bind fun v =>
        settled_modify fun s : Fields => { s with exportBin := s.exportBin.filter (·.1 ≠ entry.1) ++ [(entry.1,v)] }
      refine ((settled_modify _).bind fun _ => settled_forM entries each).congr ?_
      simp [Entries]
    | string _ | list _ | boolean _ =>
      refine (settled_error _).congr ?_
      simp [Entries]

theorem script_settled (kwargs : Kwargs) :
    Settled (·.isException = true) (attempt (kwargs.stringRequired "script") : EStateM Failure Fields String)
      (∃ script, kwargs.lookup "script" = some (.string script)) := by
  unfold Kwargs.stringRequired Kwargs.required
  refine (settled_attempt ?_).congr ?_
  · intro e failed
    split at failed
    · cases failed
      rfl
    · next value _ => cases value <;> cases failed <;> rfl
  · split
    · next missing => simp [missing]
    · next value found => cases value <;> simp [found,Kwargs.read,KwargsValue.index,KwargsValue.getString]

/-- Fields are extracted exactly from well-typed arguments; anything else throws. -/
theorem extract_settled (cls : RuleClass) (kwargs : Kwargs) :
    Settled (·.isException = true) (extract cls kwargs) (WellTyped cls kwargs) := by
  have binary := (ccLibrary_settled kwargs).bind fun _ => (addDeps_settled kwargs).zoom
    (·.rawAddtionalDependencies) (fun raw s => { s with rawAddtionalDependencies := raw })
  cases cls with
  | ccLibrary => exact ccLibrary_settled kwargs
  | protoLibrary => exact ccLibrary_settled kwargs
  | ccBinary => exact binary
  | ccTest => exact binary
  | shellScript =>
    apply ((script_settled kwargs).bind fun script => (settled_modify fun s => { s with script }).bind fun _ =>
      (exportField_settled kwargs).bind fun _ => (exportBinField_settled kwargs).bind fun _ =>
        fillListField_settled kwargs "ldflags" _).congr
    simp [WellTyped]

theorem fillListField_done {key : String} {write : List String → Fields → Fields} {s s' : Fields}
    (done : fillListField kwargs key write s = .ok u s') : s' = write (kwargs.declared key) s := by
  obtain ⟨value,middle,read,wrote⟩ := bind_done done
  obtain ⟨listed,same⟩ := attempt_done read
  rw [modify_done wrote,same]
  simp [Kwargs.declared,listed,Except.toOption]

def headersOf (kwargs : Kwargs) : List String :=
  if kwargs.declared "headers" = [] then ["*.h","**/*.h"] else kwargs.declared "headers"

/-- The fields of a cc rule that its preparation reads are as declared. -/
structure Declares (kwargs : Kwargs) (fields : Fields) : Prop where
  cFlags : fields.cFlags = kwargs.declared "cflags"
  cppFlags : fields.cppFlags = kwargs.declared "cppflags"
  cxxFlags : fields.cxxFlags = kwargs.declared "cxxflags"
  includes : fields.includes = kwargs.declared "includes"
  defines : fields.defines = kwargs.declared "defines"
  excludes : fields.excludes = kwargs.declared "excludes"
  sources : fields.sources = kwargs.declared "srcs"
  headers : fields.headers = headersOf kwargs
  alwaysCompile : fields.alwaysCompile = kwargs.declared "always_compile"

theorem ccLibrary_done (done : ccLibrary kwargs s = .ok u s') : Declares kwargs s' := by
  obtain ⟨_,_,step,done⟩ := bind_done done
  obtain rfl := fillListField_done step
  obtain ⟨_,_,step,done⟩ := bind_done done
  obtain rfl := fillListField_done step
  obtain ⟨_,_,step,done⟩ := bind_done done
  obtain rfl := fillListField_done step
  obtain ⟨_,_,step,done⟩ := bind_done done
  obtain rfl := fillListField_done step
  obtain ⟨_,_,step,done⟩ := bind_done done
  obtain rfl := fillListField_done step
  obtain ⟨_,_,step,done⟩ := bind_done done
  obtain rfl := fillListField_done step
  obtain ⟨_,_,step,done⟩ := bind_done done
  obtain rfl := fillListField_done step
  obtain ⟨_,_,step,done⟩ := bind_done done
  obtain rfl := fillListField_done step
  obtain ⟨_,_,step,done⟩ := bind_done done
  obtain rfl := fillListField_done step
  obtain ⟨_,_,step,done⟩ := bind_done done
  obtain rfl := fillListField_done step
  rw [modify_done done]
  split
  · next none => exact ⟨rfl,rfl,rfl,rfl,rfl,rfl,rfl,(if_pos none).symm,rfl⟩
  · next some => exact ⟨rfl,rfl,rfl,rfl,rfl,rfl,rfl,(if_neg some).symm,rfl⟩

theorem extract_done {cls : RuleClass} (cc : cls.isCCLibrary = true) (done : extract cls kwargs s = .ok u s') :
    Declares kwargs s' := by
  have binary : ccBinary kwargs s = .ok u s' → Declares kwargs s' := by
    intro done
    obtain ⟨_,_,step,done⟩ := bind_done done
    obtain ⟨_,-,rfl⟩ := zoom_done done
    obtain ⟨cFlags,cppFlags,cxxFlags,includes,defines,excludes,sources,headers,alwaysCompile⟩ := ccLibrary_done step
    exact ⟨cFlags,cppFlags,cxxFlags,includes,defines,excludes,sources,headers,alwaysCompile⟩
  cases cls with
  | ccLibrary => exact ccLibrary_done done
  | protoLibrary => exact ccLibrary_done done
  | ccBinary => exact binary done
  | ccTest => exact binary done
  | shellScript => contradiction

end Extraction

end Fields

end JkBuild
