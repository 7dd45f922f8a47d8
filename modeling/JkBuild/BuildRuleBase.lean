import JkBuild.Kwargs
import JkBuild.Dependent

/-! `core/models/build_rule_base.cc`: the names of a rule and the quoted names its build
outputs are kept under. Quoting maps the separator of path, package and name to a character that
packages and names may contain themselves, so two rules can share their outputs. -/
namespace JkBuild

/-- The comment of the quoted names says `@@`; the code writes one underscore. -/
def quoteCh (ch : Char) : Char := if ch = '/' then '_' else ch

def quote (s : String) : String := String.ofList (s.toList.map quoteCh)

structure BuildRuleBase where
  objectId : Nat
  typeName : String
  type : RuleType
  name : String
  packageName : String
  version : String
  dependencies : List String
  fullQualifiedName : String
  fullQualifiedNameWithoutVersion : String
  stringifyValue : String
  fullQuotedQualifiedName : String
  fullQuotedQualifiedNameWithoutVersion : String
  kwargs : Kwargs

namespace BuildRuleBase

def make (objectId : Nat) (typeName : String) (type : RuleType) (packageName : String) (kwargs : Kwargs) :
    Except Failure BuildRuleBase := do
  let name ← kwargs.stringRequired "name"
  let version ← kwargs.stringOptional "version" (some "DEFAULT")
  let dependencies ← kwargs.listOptional "deps" (some [])
  let fullQualifiedName := packageName ++ "/" ++ name ++ "@" ++ version
  let withoutVersion := packageName ++ "/" ++ name
  return {
    objectId, typeName, type, name, packageName, version, dependencies, fullQualifiedName, kwargs
    fullQualifiedNameWithoutVersion := withoutVersion
    stringifyValue := "<Rule:" ++ typeName ++ " \"" ++ packageName ++ ":" ++ name ++ "\">"
    fullQuotedQualifiedName := quote fullQualifiedName
    fullQuotedQualifiedNameWithoutVersion := quote withoutVersion }

/-- `BuildRule::DoPrepare`: the folder below the build root that holds all outputs. -/
def workingFolder (buildRoot : String) (base : BuildRuleBase) : String :=
  sub buildRoot base.fullQuotedQualifiedName

/-- Variables of a rule in a makefile start with this; keys are written in upper case. -/
def variablePrefix (base : BuildRuleBase) : String :=
  String.ofList (base.fullQuotedQualifiedNameWithoutVersion.toList.map Char.toUpper)

/-- What the constructor says about its result. A rule with a version is never built. -/
structure Made (packageName : String) (base : BuildRuleBase) : Prop where
  package : base.packageName = packageName
  version : base.version = "DEFAULT"
  quoted : base.fullQuotedQualifiedName = quote (packageName ++ "/" ++ base.name ++ "@DEFAULT")
  quotedWithoutVersion : base.fullQuotedQualifiedNameWithoutVersion = quote (packageName ++ "/" ++ base.name)

theorem make_made {id : Nat} {typeName packageName : String} {type : RuleType} {kwargs : Kwargs}
    {base : BuildRuleBase} (made : make id typeName type packageName kwargs = .ok base) :
    Made packageName base := by
  obtain ⟨name,-,made⟩ := bind_ok made
  obtain ⟨version,given,made⟩ := bind_ok made
  obtain ⟨dependencies,-,made⟩ := bind_ok made
  obtain rfl := Option.some.inj (Kwargs.stringOptional_ok given)
  obtain rfl := Except.ok.inj made
  exact ⟨rfl,rfl,by simp [String.append_assoc],rfl⟩

end BuildRuleBase

end JkBuild

namespace JkBuild.QuotedNames

def Alike (fold : Char → Char) (xs ys : List Char) : Prop :=
  List.Forall₂ (fun x y => fold x = fold y) xs ys

/-- The name `n` goes on in front of `n'`, and the package `p'` behind `p`, with the same
text and an underscore between. -/
def Longer (fold : Char → Char) (p n p' n' : List Char) : Prop :=
  ∃ text rest, n = text ++ '_' :: rest ∧ Alike fold rest n' ∧ Alike fold p' (p ++ '_' :: text)

/-- Different packages or names that cannot be told apart in quoted names. -/
def Confusable (fold : Char → Char) (b b' : BuildRuleBase) : Prop :=
  let p := b.packageName.toList
  let n := b.name.toList
  let p' := b'.packageName.toList
  let n' := b'.name.toList
  (b.packageName ≠ b'.packageName ∨ b.name ≠ b'.name) ∧
    ((Alike fold n n' ∧ Alike fold p p') ∨ Longer fold p n p' n' ∨ Longer fold p' n' p n)

theorem alike_iff {fold : Char → Char} {xs ys : List Char} : Alike fold xs ys ↔ xs.map fold = ys.map fold := by
  induction xs generalizing ys with
  | nil => cases ys <;> simp [Alike]
  | cons x xs ih =>
    cases ys with
    | nil => simp [Alike]
    | cons y ys =>
      have tail : Alike fold xs ys ↔ xs.map fold = ys.map fold := ih
      simp only [Alike] at tail
      simp [Alike,tail]

section Joined

variable {fold : Char → Char}

theorem longer_of_split (separators : ∀ ch, fold ch = fold '/' ↔ ch = '/' ∨ ch = '_') (plain : '/' ∉ n)
    (path : p'.map fold = p.map fold ++ fold '/' :: text)
    (name : n.map fold = text ++ fold '/' :: n'.map fold) : Longer fold p n p' n' := by
  obtain ⟨front,back,rfl,folded,rest⟩ := List.map_eq_append_iff.mp name
  obtain ⟨sep,back,rfl,same,rest⟩ := List.map_eq_cons_iff.mp rest
  have underscore : sep = '_' := by
    rcases (separators sep).mp same with rfl | rfl
    · exact absurd (by simp) plain
    · rfl
  subst underscore
  refine ⟨front,back,rfl,alike_iff.mpr (List.cons.inj rest).2,alike_iff.mpr ?_⟩
  rw [path,← folded,List.map_append,List.map_cons,same]

theorem Longer.joined (separators : ∀ ch, fold ch = fold '/' ↔ ch = '/' ∨ ch = '_') (h : Longer fold p n p' n') :
    (p ++ '/' :: n).map fold = (p' ++ '/' :: n').map fold := by
  obtain ⟨text,rest,rfl,name,path⟩ := h
  have underscore : fold '_' = fold '/' := (separators '_').mpr (.inr rfl)
  simp [alike_iff.mp path,← alike_iff.mp name,underscore]

/-- Joined packages and names fold to the same text exactly in these shapes. -/
theorem joined_iff (separators : ∀ ch, fold ch = fold '/' ↔ ch = '/' ∨ ch = '_')
    (plain : '/' ∉ n) (plain' : '/' ∉ n') : (p ++ '/' :: n).map fold = (p' ++ '/' :: n').map fold ↔
      (Alike fold n n' ∧ Alike fold p p') ∨ Longer fold p n p' n' ∨ Longer fold p' n' p n := by
  constructor
  · intro same
    simp only [List.map_append,List.map_cons] at same
    rcases List.append_eq_append_iff.mp same with ⟨more,path,name⟩ | ⟨more,path,name⟩
    · cases more with
      | nil =>
        have names := (List.cons.inj name).2
        exact .inl ⟨alike_iff.mpr names,alike_iff.mpr (by simpa using path.symm)⟩
      | cons sep text =>
        obtain ⟨rfl,names⟩ := List.cons.inj name
        exact .inr (.inl (longer_of_split separators plain path names))
    · cases more with
      | nil =>
        have names := (List.cons.inj name).2
        exact .inl ⟨alike_iff.mpr names.symm,alike_iff.mpr (by simpa using path)⟩
      | cons sep text =>
        obtain ⟨rfl,names⟩ := List.cons.inj name
        exact .inr (.inr (longer_of_split separators plain' path names))
  · rintro (⟨name,path⟩ | longer | longer)
    · simp [alike_iff.mp name,alike_iff.mp path]
    · exact longer.joined separators
    · exact (longer.joined separators).symm

end Joined

theorem quoteCh_separators (ch : Char) : quoteCh ch = quoteCh '/' ↔ ch = '/' ∨ ch = '_' := by
  by_cases slash : ch = '/'
  · simp [slash]
  · simp [quoteCh,slash]

theorem toUpper_underscore (ch : Char) : ch.toUpper = '_' ↔ ch = '_' := by
  unfold Char.toUpper
  split
  · next range =>
    constructor
    · intro same
      have value := congrArg (fun c => c.val.toNat) same
      have low := UInt32.le_iff_toNat_le.mp range.1
      have high := UInt32.le_iff_toNat_le.mp range.2
      simp [UInt32.toNat_add] at value low high
      omega
    · rintro rfl
      exact absurd range (by decide)
  · exact Iff.rfl

def upperQuoteCh (ch : Char) : Char := (quoteCh ch).toUpper

theorem upperQuoteCh_separators (ch : Char) : upperQuoteCh ch = upperQuoteCh '/' ↔ ch = '/' ∨ ch = '_' := by
  have sep : upperQuoteCh '/' = '_' := by decide
  rw [sep,upperQuoteCh,toUpper_underscore,← quoteCh_separators]
  rfl

/-- A rule as the constructor builds it, with a name of the identifier grammar. -/
structure Built (b : BuildRuleBase) : Prop where
  made : ∃ id typeName type kwargs, BuildRuleBase.make id typeName type b.packageName kwargs = .ok b
  name : ∀ ch ∈ b.name.toList, Dependent.isRuleNameCh ch = true

/-- What keeps the outputs of two rules apart. -/
structure OutputsDistinct (buildRoot : String) (b b' : BuildRuleBase) : Prop where
  quoted : b.packageName ≠ b'.packageName ∨ b.name ≠ b'.name ∨ b.version ≠ b'.version →
    b.fullQuotedQualifiedName ≠ b'.fullQuotedQualifiedName
  folder : b.packageName ≠ b'.packageName ∨ b.name ≠ b'.name ∨ b.version ≠ b'.version →
    b.workingFolder buildRoot ≠ b'.workingFolder buildRoot
  withoutVersion : b.packageName ≠ b'.packageName ∨ b.name ≠ b'.name →
    b.fullQuotedQualifiedNameWithoutVersion ≠ b'.fullQuotedQualifiedNameWithoutVersion

def VariablesDistinct (b b' : BuildRuleBase) : Prop :=
  b.packageName ≠ b'.packageName ∨ b.name ≠ b'.name → b.variablePrefix ≠ b'.variablePrefix

def joined (b : BuildRuleBase) : List Char := b.packageName.toList ++ '/' :: b.name.toList

theorem Built.facts (h : Built b) : BuildRuleBase.Made b.packageName b := by
  obtain ⟨_,_,_,_,made⟩ := h.made
  exact BuildRuleBase.make_made made

theorem Built.plain (h : Built b) : '/' ∉ b.name.toList := by
  intro member
  exact absurd (h.name '/' member) (by decide)

theorem Built.withoutVersion (h : Built b) :
    b.fullQuotedQualifiedNameWithoutVersion.toList = (joined b).map quoteCh := by
  rw [h.facts.quotedWithoutVersion]
  simp [quote,joined]

theorem Built.quoted (h : Built b) :
    b.fullQuotedQualifiedName.toList = (joined b).map quoteCh ++ "@DEFAULT".toList.map quoteCh := by
  rw [h.facts.quoted]
  simp [quote,joined]

theorem Built.relative (h : Built b) : b.fullQuotedQualifiedName.toList.head? ≠ some '/' := by
  intro first
  have member := List.mem_of_mem_head? first
  rw [h.quoted,← List.map_append] at member
  obtain ⟨ch,-,same⟩ := List.mem_map.mp member
  unfold quoteCh at same
  split at same
  · exact absurd same (by decide)
  · contradiction

theorem shared_iff (buildRoot : String) (h : Built b) (h' : Built b') :
    (b.fullQuotedQualifiedName = b'.fullQuotedQualifiedName ↔ (joined b).map quoteCh = (joined b').map quoteCh) ∧
    (b.workingFolder buildRoot = b'.workingFolder buildRoot ↔ (joined b).map quoteCh = (joined b').map quoteCh) ∧
    (b.fullQuotedQualifiedNameWithoutVersion = b'.fullQuotedQualifiedNameWithoutVersion ↔
      (joined b).map quoteCh = (joined b').map quoteCh) := by
  have quoted : b.fullQuotedQualifiedName = b'.fullQuotedQualifiedName ↔
      (joined b).map quoteCh = (joined b').map quoteCh := by
    rw [← String.toList_inj,h.quoted,h'.quoted,List.append_cancel_right_eq]
  refine ⟨quoted,?_,?_⟩
  · rw [← quoted]
    exact ⟨sub_injective h.relative h'.relative,fun same => by rw [BuildRuleBase.workingFolder,same]; rfl⟩
  · rw [← String.toList_inj,h.withoutVersion,h'.withoutVersion]

theorem confusable_iff {fold : Char → Char} (separators : ∀ ch, fold ch = fold '/' ↔ ch = '/' ∨ ch = '_')
    (h : Built b) (h' : Built b') : Confusable fold b b' ↔
      (b.packageName ≠ b'.packageName ∨ b.name ≠ b'.name) ∧ (joined b).map fold = (joined b').map fold := by
  unfold joined
  rw [joined_iff separators h.plain h'.plain]
  exact Iff.rfl

/-- Outputs are kept apart exactly when packages and names are not confusable, and the
variables written for them when this also holds up to the case of letters. -/
theorem outputs_distinct_iff (buildRoot : String) (h : Built b) (h' : Built b') :
    (OutputsDistinct buildRoot b b' ↔ ¬Confusable quoteCh b b') ∧
    (VariablesDistinct b b' ↔ ¬Confusable upperQuoteCh b b') := by
  obtain ⟨quoted,folder,withoutVersion⟩ := shared_iff buildRoot h h'
  have version : b.version = b'.version := h.facts.version.trans h'.facts.version.symm
  constructor
  · rw [confusable_iff quoteCh_separators h h']
    constructor
    · rintro distinct ⟨differ,same⟩
      exact distinct.withoutVersion differ (withoutVersion.mpr same)
    · intro apart
      have differ : b.packageName ≠ b'.packageName ∨ b.name ≠ b'.name ∨ b.version ≠ b'.version →
          b.packageName ≠ b'.packageName ∨ b.name ≠ b'.name := by
        rintro (package | name | other)
        · exact .inl package
        · exact .inr name
        · exact absurd version other
      exact ⟨fun d same => apart ⟨differ d,quoted.mp same⟩,fun d same => apart ⟨differ d,folder.mp same⟩,
        fun d same => apart ⟨d,withoutVersion.mp same⟩⟩
  · have variable_iff : b.variablePrefix = b'.variablePrefix ↔
        (joined b).map upperQuoteCh = (joined b').map upperQuoteCh := by
      rw [BuildRuleBase.variablePrefix,BuildRuleBase.variablePrefix,String.ofList_inj,h.withoutVersion,
        h'.withoutVersion,List.map_map,List.map_map]
      rfl
    rw [confusable_iff upperQuoteCh_separators h h',← variable_iff]
    constructor
    · rintro distinct ⟨differ,same⟩
      exact distinct differ same
    · intro apart differ same
      exact apart ⟨differ,same⟩

/-- The rules `a/b:c` and `a:b_c` are built into one folder. -/
theorem outputs_shared : ∃ b b', BuildRuleBase.make 0 "cc_library" RuleClass.ccLibrary.type "a/b"
      [("name",.string "c")] = .ok b ∧
    BuildRuleBase.make 1 "cc_library" RuleClass.ccLibrary.type "a" [("name",.string "b_c")] = .ok b' ∧
    b.workingFolder "/build" = "/build/a_b_c@DEFAULT" ∧ b'.workingFolder "/build" = "/build/a_b_c@DEFAULT" ∧
    ¬OutputsDistinct "/build" b b' := by
  refine ⟨_,_,rfl,rfl,rfl,rfl,fun distinct => ?_⟩
  exact distinct.withoutVersion (.inl (by decide)) (by decide)

/-- Two rules of one package under the equivalences. -/
theorem outputs_distinct_package : ∃ b b', BuildRuleBase.make 0 "cc_library" RuleClass.ccLibrary.type "a/b"
      [("name",.string "c")] = .ok b ∧
    BuildRuleBase.make 1 "cc_library" RuleClass.ccLibrary.type "a/b" [("name",.string "d.e")] = .ok b' ∧
    (OutputsDistinct "/build" b b' ↔ ¬Confusable quoteCh b b') ∧
    (VariablesDistinct b b' ↔ ¬Confusable upperQuoteCh b b') := by
  refine ⟨_,_,rfl,rfl,?_⟩
  exact outputs_distinct_iff "/build"
    ⟨⟨0,"cc_library",RuleClass.ccLibrary.type,[("name",.string "c")],rfl⟩,List.all_eq_true.mp rfl⟩
    ⟨⟨1,"cc_library",RuleClass.ccLibrary.type,[("name",.string "d.e")],rfl⟩,List.all_eq_true.mp rfl⟩

end JkBuild.QuotedNames
