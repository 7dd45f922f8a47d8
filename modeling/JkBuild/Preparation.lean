import JkBuild.Fields
import JkBuild.Tarjan

/-! The task `PrepareRules` pushes for a rule: it extracts the fields, expands the
patterns, and collects flags over everything the rule reaches, reading the fields other
rules have at that time. -/
namespace JkBuild.Preparation

open Tasks Reachability Tarjan

inductive TargetPlatform where
  | k32
  | k64
  deriving DecidableEq, Repr

def TargetPlatform.toString : TargetPlatform → String
  | k32 => "32"
  | k64 => "64"

/-- What a session is asked for. `glob` is the function of the C library, `lines` reads a
file if `std::filesystem::exists` finds it, and `relative` is that of `std::filesystem`. Both
functions throw, on a symbolic link to itself for one. -/
structure Session where
  projectRoot : String
  buildRoot : String
  platform : TargetPlatform
  buildTypes : List String
  glob : String → Nat × List String
  lines : String → Except String (Option (List String))
  relative : String → String → Except String String

def globNoMatch : Nat := 3

def expand (session : Session) (pattern path : String) : Except Failure (List String) :=
  let fullPattern := sub path pattern
  let (rv,paths) := session.glob fullPattern
  if rv ≠ 0 ∧ rv ≠ globNoMatch then
    .error (.jkBuildError ("Glob failed with error code: " ++ toString rv ++ ", pattern: '" ++ fullPattern ++ "'"))
  else .ok paths

/-- What `std::filesystem` throws. -/
def filesystem (x : Except String α) : Except Failure α := x.mapError .filesystemError

/-- What preparing a rule computes from its fields. -/
structure Files where
  workingFolder : String := ""
  packageRoot : Option String := none
  libraryFileName : String := ""
  nolintFiles : Finset String := ∅
  excludes : Finset String := ∅
  expandedHeaderFiles : List String := []
  expandedSourceFiles : List String := []
  expandedAlwaysCompileFiles : Finset String := ∅
  exportedLinkFlags : List String := []
  exportedEnvironmentVars : List (String × String) := []
  expandedCFileFlags : List String := []
  expandedCppFileFlags : List String := []
  artifacts : List String := []

def isAsciiWhitespace (ch : Char) : Bool := ch ∈ [' ','\t','\n','\x0b','\x0c','\r']

def stripAsciiWhitespace (s : String) : String :=
  String.ofList (((s.toList.dropWhile isAsciiWhitespace).reverse.dropWhile isAsciiWhitespace).reverse)

def startsWith (s start : String) : Bool := start.toList.isPrefixOf s.toList

/-- Expand patterns one after the other; what was added stays when a later one fails. -/
def expandAll (session : Session) (root : String) (patterns : List String)
    (add : List String → EStateM Failure Files Unit) : EStateM Failure Files Unit :=
  patterns.forM fun pattern => do
    let expanded ← attempt (expand session pattern root)
    add expanded

def sorted (files : List String) : List String := files.mergeSort fun a b => decide (a ≤ b)

/-- A file of a pattern is added relative to the package if it is not excluded. -/
def keepFile (session : Session) (root : String) (push : String → Files → Files) (f : String) :
    EStateM Failure Files Unit := do
  let s ← get
  if f ∈ s.excludes then pure ()
  else do
    let path ← attempt (filesystem (session.relative f root))
    modify (push path)

def addKept (session : Session) (root : String) (push : String → Files → Files) (expanded : List String) :
    EStateM Failure Files Unit := expanded.forM (keepFile session root push)

def prepareNolintFiles (session : Session) (root : String) : EStateM Failure Files Unit := do
  match ← attempt (filesystem (session.lines (sub root "nolint.txt"))) with
  | none => pure ()
  | some lines => do
    modify fun s => { s with nolintFiles := ∅ }
    expandAll session root (lines.map stripAsciiWhitespace) fun expanded =>
      modify fun s => { s with nolintFiles := s.nolintFiles ∪ expanded.toFinset }

def prepareExcludes (session : Session) (root : String) (fields : Fields) : EStateM Failure Files Unit := do
  modify fun s => { s with excludes := ∅ }
  expandAll session root fields.excludes fun expanded =>
    modify fun s => { s with excludes := s.excludes ∪ expanded.toFinset }

def prepareHeaderFiles (session : Session) (root : String) (fields : Fields) : EStateM Failure Files Unit := do
  modify fun s => { s with expandedHeaderFiles := [] }
  expandAll session root fields.headers
    (addKept session root fun path s => { s with expandedHeaderFiles := s.expandedHeaderFiles ++ [path] })
  modify fun s => { s with expandedHeaderFiles := sorted s.expandedHeaderFiles }

def prepareSourceFiles (session : Session) (root : String) (fields : Fields) : EStateM Failure Files Unit := do
  modify fun s => { s with expandedSourceFiles := [] }
  expandAll session root fields.sources
    (addKept session root fun path s => { s with expandedSourceFiles := s.expandedSourceFiles ++ [path] })
  modify fun s => { s with expandedSourceFiles := sorted s.expandedSourceFiles }

def prepareAlwaysCompileFiles (session : Session) (root : String) (fields : Fields) : EStateM Failure Files Unit := do
  modify fun s => { s with expandedAlwaysCompileFiles := ∅ }
  expandAll session root fields.alwaysCompile fun expanded =>
    modify fun s => { s with expandedAlwaysCompileFiles := s.expandedAlwaysCompileFiles ∪ expanded.toFinset \ s.excludes }

def withoutIncludes (flags : List String) : List String := flags.filter fun s => !startsWith s "-I"

/-- The steps of `CCLibrary::DoPrepare` before the flags. -/
def ccLibrary (session : Session) (base : BuildRuleBase) (fields : Fields) : EStateM Failure Files Unit := do
  let workingFolder := base.workingFolder session.buildRoot
  let root := sub session.projectRoot base.packageName
  let libraryFileName := "lib" ++ base.name ++ ".a"
  modify fun s => { s with workingFolder, packageRoot := some root, libraryFileName }
  prepareNolintFiles session root
  prepareExcludes session root fields
  prepareHeaderFiles session root fields
  prepareSourceFiles session root fields
  prepareAlwaysCompileFiles session root fields
  modify fun s => { s with
    exportedLinkFlags := fields.ldFlags
    exportedEnvironmentVars := s.exportedEnvironmentVars ++
      session.buildTypes.map (fun tp => ("artifact_" ++ tp,sub (sub workingFolder tp) libraryFileName)) ++
      [("working_folder",workingFolder)]
    expandedCFileFlags := withoutIncludes (fields.cFlags ++ fields.cxxFlags)
    expandedCppFileFlags := withoutIncludes (fields.cppFlags ++ fields.cxxFlags) }

def shellScript (session : Session) (base : BuildRuleBase) (fields : Fields) : EStateM Failure Files Unit :=
  modify fun s => { s with
    workingFolder := base.workingFolder session.buildRoot
    artifacts := fields.exports.map fun lib =>
      sub (sub (sub (sub (sub session.projectRoot ".build") ".lib") ("m" ++ session.platform.toString)) "lib") lib
    exportedLinkFlags := fields.ldFlags
    exportedEnvironmentVars := s.exportedEnvironmentVars ++ fields.exportBin }

structure Flags where
  resolvedIncludes : Finset String := ∅
  resolvedDefines : Finset String := ∅
  resolvedInherentFlags : Finset String := ∅

structure RuleState where
  fields : Fields := {}
  files : Files := {}
  flags : Flags := {}
  inherentFlags : List String := []
  prepared : Bool := false

/-- The rules of all loaded packages, with their dependencies resolved. -/
structure Project (n : Nat) where
  session : Session
  rules : Fin n → BuildRule
  graph : Graph n

def isCC (project : Project n) (q : Fin n) : Prop := (project.rules q).cls.isCCLibrary = true

instance (project : Project n) (q : Fin n) : Decidable (isCC project q) := inferInstanceAs (Decidable (_ = true))

def kwargs (project : Project n) (q : Fin n) : Kwargs := (project.rules q).base.kwargs

abbrev Store (n : Nat) := Fin n → RuleState

/-- Flags of a rule that keeps no fields for them, read from its arguments. -/
def fromArguments (kwargs : Kwargs) (key mark : String) : Except Failure (List String) := do
  let strings ← kwargs.listOptional key (some [])
  return strings.map (mark ++ ·)

/-- What a rule adds to the includes of its users. A proto rule adds its folder. -/
def includeFlags (session : Session) (rule : BuildRule) (fields : Fields) : Except Failure (List String) :=
  if rule.cls.isCCLibrary then
    .ok ((fields.cppFlags ++ fields.cFlags ++ fields.cxxFlags).filter (startsWith · "-I") ++
      fields.includes.map ("-I" ++ ·) ++
      if rule.base.type.isProto then ["-I" ++ rule.base.workingFolder session.buildRoot] else [])
  else fromArguments rule.base.kwargs "includes" "-I"

def defineFlags (rule : BuildRule) (fields : Fields) : Except Failure (List String) :=
  if rule.cls.isCCLibrary then .ok (fields.defines.map ("-D" ++ ·))
  else fromArguments rule.base.kwargs "defines" "-D"

/-- At one rule of a search: what it adds, or what was found when it threw. -/
def addFlags (flags : Fin n → Except Failure (List String)) (q : Fin n) (found : Finset String) :
    Except (Failure × Finset String) (Finset String) :=
  match flags q with
  | .ok new => .ok (found ∪ new.toFinset)
  | .error e => .error (e,found)

/-- The depth-first search all three flag steps make from a rule. -/
def collect (g : Graph n) (rule : Fin n) (flags : Fin n → Except Failure (List String)) :
    EStateM Failure (Finset String) Unit := fun resolved =>
  match visitAll g (addFlags flags) (Fintype.card (Fin n) + 1) [rule] ([],resolved) with
  | .ok (_,found) => .ok () found
  | .error (.raised (e,found)) => .error e found
  | .error .exhausted => .error .diverges resolved

def own (r : Fin n) (t : EStateM Failure RuleState Unit) : EStateM Failure (Store n) Unit :=
  zoom (· r) (fun state store => Function.update store r state) t

def onFields (t : EStateM Failure Fields Unit) : EStateM Failure RuleState Unit :=
  zoom (·.fields) (fun fields s => { s with fields }) t

def onFiles (t : EStateM Failure Files Unit) : EStateM Failure RuleState Unit :=
  zoom (·.files) (fun files s => { s with files }) t

def onIncludes (t : EStateM Failure (Finset String) Unit) : EStateM Failure RuleState Unit :=
  zoom (·.flags.resolvedIncludes) (fun found s => { s with flags := { s.flags with resolvedIncludes := found } }) t

def onDefines (t : EStateM Failure (Finset String) Unit) : EStateM Failure RuleState Unit :=
  zoom (·.flags.resolvedDefines) (fun found s => { s with flags := { s.flags with resolvedDefines := found } }) t

def onInherentFlags (t : EStateM Failure (Finset String) Unit) : EStateM Failure RuleState Unit :=
  zoom (·.flags.resolvedInherentFlags)
    (fun found s => { s with flags := { s.flags with resolvedInherentFlags := found } }) t

def prepareIncludeFlags (project : Project n) (r : Fin n) : EStateM Failure (Store n) Unit := do
  own r (onIncludes (modify (insert "-I.")))
  let store ← get
  own r (onIncludes (collect project.graph r fun q => includeFlags project.session (project.rules q) (store q).fields))

def prepareDefineFlags (project : Project n) (r : Fin n) : EStateM Failure (Store n) Unit := do
  let store ← get
  own r (onDefines (collect project.graph r fun q => defineFlags (project.rules q) (store q).fields))

def prepareInherentFlags (project : Project n) (r : Fin n) : EStateM Failure (Store n) Unit := do
  let store ← get
  own r (onInherentFlags (collect project.graph r fun q => .ok (store q).inherentFlags))

def doPrepare (project : Project n) (r : Fin n) : EStateM Failure (Store n) Unit := do
  let rule := project.rules r
  let store ← get
  if rule.cls.isCCLibrary then do
    own r (onFiles (ccLibrary project.session rule.base (store r).fields))
    prepareIncludeFlags project r
    prepareDefineFlags project r
    prepareInherentFlags project r
  else own r (onFiles (shellScript project.session rule.base (store r).fields))

def prepare (project : Project n) (r : Fin n) : EStateM Failure (Store n) Unit := do
  own r (onFields (Fields.extract (project.rules r).cls (project.rules r).base.kwargs))
  doPrepare project r
  own r (modify fun s => { s with prepared := true })

def initial : Store n := fun _ => {}

end JkBuild.Preparation
