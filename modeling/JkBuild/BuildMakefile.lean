import JkBuild.SourceFile

/-! The `build.make` of a library or a binary: its targets and the files it includes, in the
order in which they are written. Assignments and comments are left out. -/
namespace JkBuild.BuildMakefile

open Preparation SourceFile
open CompilationDatabase hiding objectPath

abbrev CustomCommandLine := List String

/-- What a target waits for: a file, or the stamp of a file that has been linted. -/
inductive Prerequisite where
  | file (path : String)
  | lint (path : String)
  deriving DecidableEq, Repr

structure Target where
  name : String
  deps : List Prerequisite
  cmds : List CustomCommandLine
  phony : Bool
  deriving DecidableEq, Repr

inductive Statement where
  | including (filename : String) (fatal : Bool)
  | target (t : Target)
  deriving DecidableEq, Repr

/-- What a rule leaves to link: an archive, or a binary with the files and the flags of what
is below it, as the link line has them for each build type. -/
inductive Artifact where
  | library
  | binary (dependenciesArtifact depsAndFlags : String → List String)

/-- A prepared rule with what the counter gives it: the number of a name, and all its numbers
when the artifact of a build type is written. -/
structure Rule where
  input : Input
  name : String
  artifact : Artifact
  step : String → Nat
  steps : String → List Nat

structure Source where
  filename : String
  lint : Bool
  deriving DecidableEq, Repr

namespace Rule

variable (r : Rule)

def workingFolder : String := r.input.files.workingFolder

def buildTypes : List String := r.input.session.buildTypes

def inNolint (path : String) : Bool := decide (path ∈ r.input.files.nolintFiles)

def printStatement (bold : Bool) (numbers text : String) : CustomCommandLine :=
  ["@$(PRINT)","--switch=$(COLOR)","--green"] ++ (if bold then ["--bold"] else []) ++
    ["--progress-num=" ++ numbers,"--progress-dir=" ++ r.input.session.buildRoot,text]

/-- `add_source_files_lint_commands`. -/
def lintTarget (filename : String) : Target where
  name := lintPath r.input filename
  deps := [.file (resolved r.input filename),.file (sub r.workingFolder "toolchain.make")]
  cmds :=
    let path := resolved r.input filename
    let fileType := if isHeaderFile (fullQualifiedPath r.input filename) then "Header" else "CXX"
    [r.printStatement false (toString (r.step path)) ("Linting " ++ fileType ++ " file " ++ path),
      ["@$(CPPLINT)",path,">/dev/null"],
      ["@$(MKDIR)",parentPath (sub r.workingFolder (fullQualifiedPath r.input filename))],
      ["@touch",lintPath r.input filename]]
  phony := false

def lintHeaders : List Target × List String :=
  let linted := r.input.files.expandedHeaderFiles.filter fun filename => !r.inNolint (resolved r.input filename)
  (linted.map r.lintTarget,linted.map (lintPath r.input))

def buildCommand (buildType filename compiler flags suffix : String) : CustomCommandLine :=
  ["@$(" ++ compiler ++ ")","$(CPP_DEFINES)","$(CPP_INCLUDES)","$(CPPFLAGS)","$(" ++ flags ++ ")",
    "$(" ++ buildType ++ suffix ++ ")","$(INHERENT_FLAGS)","-o",objectPath r.input buildType filename,"-c",
    resolved r.input filename]

def compileTarget (buildType filename : String) (headers : List String) (command : CustomCommandLine) : Target where
  name := objectPath r.input buildType filename
  deps := headers.map .lint ++ [.file (resolved r.input filename)]
  cmds :=
    [r.printStatement false (toString (r.step (fullQualifiedPath r.input filename)))
        ("Building CXX object " ++ objectPath r.input buildType filename),
      ["@$(MKDIR)",parentPath (objectPath r.input buildType filename)],command]
  phony := false

/-- `add_source_file_commands`: a file of another kind gets no recipe. -/
def addSourceFileCommands (buildType filename : String) (headers : List String) (neverLint : Bool) : List Statement :=
  let lint := !r.inNolint (resolved r.input filename) && !neverLint
  let deps := [.file (sub r.workingFolder "flags.make"),.file (sub r.workingFolder "toolchain.make")] ++
    if lint then [.lint (lintPath r.input filename)] else []
  [.including (dotDPath r.input filename) false,.target ⟨objectPath r.input buildType filename,deps,[],false⟩] ++
    if isCppSourceFile (fullQualifiedPath r.input filename) then
      [.target (r.compileTarget buildType filename headers
        (r.buildCommand buildType filename "CXX" "CXXFLAGS" "_CXXFLAGS"))]
    else if isCSourceFile (fullQualifiedPath r.input filename) then
      [.target (r.compileTarget buildType filename headers
        (r.buildCommand buildType filename "CC" "CFLAGS" "_CFLAGS"))]
    else []

/-- One round of `add_source_files_commands`: what is written for a file, and the file with
its mark set. -/
def addSourceFile (buildType : String) (headers : List String) (neverLint : Bool) (source : Source) :
    List Statement × Source :=
  let first := !source.lint && !neverLint
  let lint := if first && !r.inNolint (resolved r.input source.filename) then [.target (r.lintTarget source.filename)]
    else []
  let force := if resolved r.input source.filename ∈ r.input.files.expandedAlwaysCompileFiles then
      [.target ⟨objectPath r.input buildType source.filename,[.file "jk_force"],[],false⟩]
    else []
  (lint ++ r.addSourceFileCommands buildType source.filename headers neverLint ++ force,
    { source with lint := source.lint || first })

/-- `add_source_files_commands`: the statements, the files as they are left, and the objects. -/
def addSourceFilesCommands (buildType : String) (headers : List String) (neverLint : Bool) (sources : List Source) :
    List Statement × List Source × List String :=
  let rounds := sources.map (r.addSourceFile buildType headers neverLint)
  (rounds.flatMap (·.1),rounds.map (·.2),sources.map fun source => objectPath r.input buildType source.filename)

def artifactPath (buildType : String) : String :=
  match r.artifact with
  | .library => sub (sub r.workingFolder buildType) r.input.files.libraryFileName
  | .binary _ _ => sub (sub r.workingFolder buildType) r.name

def artifactCommand (buildType : String) (objects : List String) : CustomCommandLine :=
  match r.artifact with
  | .library => ["@$(AR)",r.artifactPath buildType] ++ objects
  | .binary _ depsAndFlags => ["@$(LINKER)"] ++ objects ++ depsAndFlags buildType ++
      ["-g","$\x7b" ++ buildType ++ "_LDFLAGS\x7d","-o",r.artifactPath buildType]

def artifactTargets (buildType : String) (headers objects : List String) : List Target :=
  let path := r.artifactPath buildType
  let make (name : String) : Prerequisite := .file (sub r.workingFolder name)
  let print (text : String) :=
    r.printStatement true (String.intercalate "," ((r.steps buildType).map toString)) (text ++ path)
  let mkdir : CustomCommandLine := ["@$(MKDIR)",parentPath path]
  match r.artifact with
  | .library =>
    [⟨path,[],[],false⟩,
      ⟨path,objects.map .file ++ headers.map .lint ++ [make "build.make",make "toolchain.make",make "flags.make"],
        [print "Linking CXX static library ",mkdir,["-@$(RM)","--silent",path],r.artifactCommand buildType objects],
        false⟩]
  | .binary dependenciesArtifact _ =>
    [⟨path,objects.map .file ++ headers.map .lint ++ (dependenciesArtifact buildType).map .file ++ [make "build.make"],
      [print "Linking binary ",mkdir,r.artifactCommand buildType objects],false⟩]

def buildTypeTargets (buildType : String) : List Target :=
  let build := sub (sub r.workingFolder buildType) "build"
  [⟨build,[.file (r.artifactPath buildType)],[],true⟩,⟨buildType,[.file build],[],true⟩]

def cleanCommands (buildType : String) (headers objects : List String) : List CustomCommandLine :=
  (r.artifactPath buildType :: objects ++ headers).map fun path => ["@$(RM)",path]

/-- The loop over the build types, with the files as the rounds before it left them. -/
def generateBuildTypes (headers : List String) (neverLint : Bool) :
    List String → List Source → List Statement × List CustomCommandLine
  | [], _ => ([],[])
  | buildType :: buildTypes, sources =>
    let (statements,left,objects) := r.addSourceFilesCommands buildType headers neverLint sources
    let (later,clean) := generateBuildTypes headers neverLint buildTypes left
    (statements ++ (r.artifactTargets buildType headers objects ++ r.buildTypeTargets buildType).map .target ++ later,
      r.cleanCommands buildType headers objects ++ clean)

/-- `new_makefile_with_common_commands`. -/
def commonStatements : List Statement :=
  [.target ⟨RootMakefile.defaultTarget,[],[],false⟩,.including (sub r.workingFolder "flags.make") true,
    .including (sub r.workingFolder "toolchain.make") true,.target ⟨"all",[.file "DEBUG"],[],true⟩,
    .target ⟨RootMakefile.defaultTarget,[.file "all"],[],false⟩,.target ⟨"jk_force",[],[],true⟩]

/-- `generate_build_file` of a library or a binary: both lint. -/
def generateBuildFile : List Statement :=
  let (linting,headers) := r.lintHeaders
  let sources := r.input.files.expandedSourceFiles.map fun filename => (⟨filename,false⟩ : Source)
  let (statements,clean) := r.generateBuildTypes headers false r.buildTypes sources
  r.commonStatements ++ linting.map .target ++ statements ++ [.target ⟨"clean",[],clean,true⟩]

end Rule

def Statement.toTarget : Statement → Option Target
  | target t => some t
  | including _ _ => none

def Statement.toInclusion : Statement → Option String
  | target _ => none
  | including filename _ => some filename

def targets (statements : List Statement) : List Target := statements.filterMap Statement.toTarget

def inclusions (statements : List Statement) : List String := statements.filterMap Statement.toInclusion

end JkBuild.BuildMakefile
