import JkBuild.BuildKeys

/-! The `build.make` of the rule classes: of libraries and binaries, of tests, which can be run,
of proto libraries, whose sources are generated, and of scripts. -/
namespace JkBuild.RuleMakefiles

open Reachability MakeRuns BuildMakefile Preparation SourceFile
open CompilationDatabase hiding objectPath

/-- A rule when it is compiled, with what the counter gives it. -/
structure PreparedRule where
  cls : RuleClass
  name : String
  fullQualifiedName : String
  input : Input
  step : String → Nat
  steps : String → List Nat

/-- What the link line of a binary has for each build type. -/
structure Link where
  dependenciesArtifact : String → List String
  depsAndFlags : String → List String

/-- `replace_extension` of `std::filesystem::path`. -/
def replaceExtension (path ext : String) : String :=
  String.ofList (path.toList.take (path.toList.length - (extension path).toList.length)) ++ "." ++ ext

/-- `new_makefile_with_common_commands`, without what it includes. -/
def commonTargets : List Target :=
  [⟨RootMakefile.defaultTarget,[],[],false⟩,⟨"all",[.file "DEBUG"],[],true⟩,
    ⟨RootMakefile.defaultTarget,[.file "all"],[],false⟩,⟨"jk_force",[],[],true⟩]

def hasRecipe (ts : List Target) (name : String) : Bool :=
  ts.any fun t => t.name = name && !t.cmds.isEmpty && !t.phony

namespace PreparedRule

variable (r : PreparedRule)

def workingFolder : String := r.input.files.workingFolder

def buildTypes : List String := r.input.session.buildTypes

def sourceFiles : List String := r.input.files.expandedSourceFiles

def exportedFiles (buildType : String) : List String :=
  match r.cls with
  | .ccLibrary | .protoLibrary => [sub (sub r.workingFolder buildType) r.input.files.libraryFileName]
  | .ccBinary | .ccTest => [sub (sub r.workingFolder buildType) r.name]
  | .shellScript => r.input.files.artifacts

/-- `PrintStatement`: an option that is off leaves an empty argument. -/
def printStatement (color : String) (bold : Bool) (number : Nat) (text : String) : CustomCommandLine :=
  ["@$(PRINT)","--switch=$(COLOR)",if color = "" then "" else "--" ++ color,if bold then "--bold" else "",
    "--progress-num=" ++ toString number,"--progress-dir=" ++ r.input.session.buildRoot,text]

def artifact (link : Link) : Artifact :=
  match r.cls with
  | .ccBinary | .ccTest => .binary link.dependenciesArtifact link.depsAndFlags
  | _ => .library

def buildRule (link : Link) : Rule := ⟨r.input,r.name,r.artifact link,r.step,r.steps⟩

/-- `CCTestCompiler::end_of_generate_build_file`: the first build type is tested. -/
def testTargets : List Target :=
  r.buildTypes.head?.toList.map fun buildType =>
    let binary := sub (sub r.workingFolder buildType) r.name
    ⟨"test",[.file binary],
      [["@$(PRINT)","--switch=$(COLOR)","--green","--bold","--simple","Running test, " ++ r.fullQualifiedName],[binary]],
      true⟩

section ProtoLibrary

def protoFile (filename : String) : String := sub r.input.packageName filename

def generatedSource (filename : String) : String :=
  sub r.workingFolder (replaceExtension (r.protoFile filename) "pb" ++ ".cc")

def generatedHeader (filename : String) : String :=
  sub r.workingFolder (replaceExtension (r.protoFile filename) "pb" ++ ".h")

/-- `add_proto_file_commands`: one line with two targets, which make takes as two rules. -/
def addProtoFileCommands (filename : String) : List Target :=
  [r.generatedSource filename,r.generatedHeader filename].map fun path =>
    ⟨path,[.file (r.protoFile filename)],
      [r.printStatement "green" false (r.step (r.protoFile filename))
          ("Compiling proto file " ++ r.protoFile filename ++ " into .cc/.h"),
        ["@$(MKDIR)",r.workingFolder],
        ["$\x7bTHIRD_PARTY_PROTOBUF_PROTOC\x7d","--python_out=" ++ r.workingFolder,"--cpp_out=" ++ r.workingFolder,
          "-I" ++ r.input.session.projectRoot,r.protoFile filename]],false⟩

/-- The path of a generated file from the project root. Where `fs::relative` throws there is no
makefile. -/
def generatedPath (filename : String) : String :=
  (r.input.session.relative (r.generatedSource filename) r.input.session.projectRoot).toOption.getD ""

/-- The rule with the generated files as its sources, which are named from the project root. -/
def generatedRule : Rule where
  input := { r.input with
    packageName := ""
    files := { r.input.files with
      expandedSourceFiles := r.sourceFiles.map r.generatedPath
      expandedHeaderFiles := [] } }
  name := r.name
  artifact := .library
  step := r.step
  steps := r.steps

def generatedSources : List Source := r.generatedRule.input.files.expandedSourceFiles.map (⟨·,false⟩)

/-- `ProtoLibraryCompiler::generate_build_file`: nothing is linted. -/
def protoLibraryTargets : List Target :=
  r.generatedRule.assemble [] true r.generatedSources (commonTargets ++ r.sourceFiles.flatMap r.addProtoFileCommands)
    [⟨"clean",[],(r.generatedRule.generateBuildTypes [] true r.buildTypes r.generatedSources).2,true⟩]

end ProtoLibrary

section ShellScript

def scriptTarget : String := sub r.workingFolder "CHECK_POINT"

def packagePath : String := sub r.input.session.projectRoot r.input.packageName

def scriptPath : String := sub r.packagePath r.input.fields.script

def externalInstalledPrefix : String := ".build/.lib/m$\x7bPLATFORM\x7d"

def shellScriptTargets : List Target :=
  commonTargets ++
  [⟨r.scriptTarget,[.file r.scriptPath],
      [r.printStatement "green" true (r.step "execute") ("Installing External Project " ++ r.fullQualifiedName),
        ["@$(MKDIR)",sub r.input.session.projectRoot externalInstalledPrefix],
        ["@" ++ r.packagePath ++ "/" ++ r.input.fields.script,r.input.session.platform.toString],
        ["@touch",r.scriptTarget]],false⟩,
    ⟨"clean",[],(r.input.files.artifacts ++ [r.scriptTarget]).map fun it => ["@$(RM)",it],false⟩] ++
  r.input.files.artifacts.map (fun it => ⟨it,[.file r.scriptTarget],[],false⟩) ++
  [⟨"build",r.input.files.artifacts.map .file,[],true⟩]

end ShellScript

def targets (link : Link) : List Target :=
  match r.cls with
  | .ccLibrary | .ccBinary => BuildMakefile.targets (r.buildRule link).generateBuildFile
  | .ccTest => BuildMakefile.targets (r.buildRule link).generateBuildFile ++ r.testTargets
  | .protoLibrary => r.protoLibraryTargets
  | .shellScript => r.shellScriptTargets

def goal (buildType : String) : String := if r.cls.type.isCC then buildType else "build"

/-- The files a recipe leaves. `protoc` writes both files of a source, a script what it exports;
the other recipes write the file they are named by. -/
def writes (link : Link) (name : String) : List String :=
  match r.cls with
  | .shellScript => if name = r.scriptTarget then r.scriptTarget :: r.input.files.artifacts else []
  | .protoLibrary =>
    match r.sourceFiles.find? fun f => name ∈ [r.generatedSource f,r.generatedHeader f] with
    | some f => [r.generatedSource f,r.generatedHeader f]
    | none => if hasRecipe (r.targets link) name then [name] else []
  | _ => if hasRecipe (r.targets link) name then [name] else []

def phony (link : Link) : List String := ((r.targets link).filter (·.phony)).map (·.name)

/-- The files that have to be there before a rule is made. -/
def inputs (link : Link) (buildType : String) : List String :=
  let makefiles := ["flags.make","toolchain.make","build.make"].map (sub r.workingFolder)
  match r.cls with
  | .ccLibrary =>
    (r.input.files.expandedHeaderFiles ++ r.sourceFiles).map (resolved r.input) ++ makefiles
  | .ccBinary | .ccTest =>
    (r.input.files.expandedHeaderFiles ++ r.sourceFiles).map (resolved r.input) ++ makefiles ++
      link.dependenciesArtifact buildType
  | .protoLibrary => r.sourceFiles.map r.protoFile ++ makefiles
  | .shellScript => [r.scriptPath]

/-- Names that no build type asks for. -/
def others : List String :=
  [RootMakefile.defaultTarget,"all","clean"] ++
    match r.cls with
    | .ccTest => ["test"]
    | .protoLibrary => r.sourceFiles.map r.generatedHeader
    | _ => []

/-- The rule whose objects are made. -/
def rule (link : Link) : Rule :=
  match r.cls with
  | .protoLibrary => r.generatedRule
  | _ => r.buildRule link

def keys (link : Link) : List Key :=
  match r.cls with
  | .protoLibrary => r.generatedRule.keys r.others (r.sourceFiles.map r.generatedSource) []
  | _ => (r.buildRule link).keys r.others [] (r.buildRule link).linted

def names (link : Link) : List String :=
  match r.cls with
  | .shellScript => [RootMakefile.defaultTarget,"all","jk_force","clean","build",r.scriptTarget] ++ r.input.files.artifacts
  | _ => (r.keys link).map (r.rule link).nameOf

/-- No two things a makefile makes have one name, none is a file it needs, and every source can
be compiled. The files generated for a proto library lie in the project. -/
structure Separate (link : Link) : Prop where
  names : (r.names link).Nodup
  inputs : ∀ buildType ∈ r.buildTypes, ∀ d ∈ r.inputs link buildType, d ∉ r.names link
  known : r.cls.type.isCC = true → r.cls.type.isProto = false →
    ∀ f ∈ r.sourceFiles, (r.buildRule link).known f = true
  generated : r.cls.type.isProto = true → ∀ f ∈ r.sourceFiles,
    r.input.session.relative (r.generatedSource f) r.input.session.projectRoot = .ok (r.generatedPath f) ∧
    r.generatedRule.known (r.generatedPath f) = true ∧
    sub r.input.session.projectRoot (r.generatedPath f) = r.generatedSource f

end PreparedRule

section Compiled

variable (r : PreparedRule) (link : Link)

theorem commonStatements_targets (b : Rule) : BuildMakefile.targets b.commonStatements = commonTargets := rfl

/-- The last target of libraries and binaries. -/
def cleanTarget (b : Rule) (headers : List String) (neverLint : Bool) (sources : List Source) : Target :=
  ⟨"clean",[],(b.generateBuildTypes headers neverLint b.buildTypes sources).2,true⟩

def unmarked (b : Rule) : List Source := b.input.files.expandedSourceFiles.map (⟨·,false⟩)

theorem unmarked_filenames (b : Rule) : filenames (unmarked b) = b.input.files.expandedSourceFiles := by
  simp [filenames,unmarked,Function.comp_def]

theorem generateBuildFile_targets (b : Rule) : BuildMakefile.targets b.generateBuildFile =
    b.assemble b.headerStamps false (unmarked b) (commonTargets ++ b.lintHeaders.1)
      [cleanTarget b b.headerStamps false (unmarked b)] := by
  simp only [Rule.generateBuildFile,targets_append,targets_map,commonStatements_targets,Rule.assemble,
    List.append_assoc]
  rfl

theorem assemble_append (b : Rule) (headers : List String) (neverLint : Bool) (sources : List Source)
    (front back more : List Target) : b.assemble headers neverLint sources front back ++ more =
      b.assemble headers neverLint sources front (back ++ more) := by
  simp [Rule.assemble]

theorem mem_keys {b : Rule} {others generated linted : List String} {k : Key} :
    k ∈ b.keys others generated linted ↔ (∃ name ∈ others, .other name = k) ∨ k = .force ∨
      (∃ path ∈ generated, .generated path = k) ∨ (∃ f ∈ linted, .stamp f = k) ∨
      ∃ buildType ∈ b.buildTypes, k ∈ b.typeKeys buildType := by
  simp [Rule.keys]

theorem keys_types {b : Rule} {others generated linted : List String} {k : Key}
    (listed : k ∈ b.keys others generated linted) (serves : k.serves buildType = true) :
    k.rank < 2 ∨ buildType ∈ b.buildTypes ∧ k ∈ b.typeKeys buildType := by
  rcases mem_keys.mp listed with ⟨name,-,rfl⟩ | rfl | ⟨path,-,rfl⟩ | ⟨f,-,rfl⟩ | ⟨bt,inTypes,own⟩
  · exact .inl Nat.two_pos
  · exact .inl Nat.two_pos
  · exact .inl Nat.two_pos
  · exact .inl Nat.one_lt_two
  · have same : bt = buildType := by
      simp only [Rule.typeKeys,List.mem_append,List.mem_map,List.mem_cons,List.not_mem_nil,or_false] at own
      rcases own with ⟨f,-,rfl⟩ | rfl | rfl | rfl <;> simpa [Key.serves] using serves
    exact .inr (same ▸ ⟨inTypes,own⟩)

/-- The classes whose sources are those of the rule. -/
def Plain (cls : RuleClass) : Prop := cls = .ccLibrary ∨ cls = .ccBinary ∨ cls = .ccTest

/-- What stands behind the statements of the build types. -/
def lastTargets : List Target :=
  [cleanTarget (r.buildRule link) (r.buildRule link).headerStamps false (unmarked (r.buildRule link))] ++
    if r.cls = .ccTest then r.testTargets else []

theorem plain_targets (plain : Plain r.cls) : r.targets link =
    (r.buildRule link).assemble (r.buildRule link).headerStamps false (unmarked (r.buildRule link))
      (commonTargets ++ (r.buildRule link).lintHeaders.1) (lastTargets r link) := by
  rcases plain with cls | cls | cls
  · simp [PreparedRule.targets,cls,generateBuildFile_targets,lastTargets]
  · simp [PreparedRule.targets,cls,generateBuildFile_targets,lastTargets]
  · simp [PreparedRule.targets,cls,generateBuildFile_targets,lastTargets,assemble_append]

theorem plain_names (plain : Plain r.cls) : r.rule link = r.buildRule link ∧
    r.keys link = (r.buildRule link).keys r.others [] (r.buildRule link).linted ∧
    r.names link = (r.keys link).map (r.buildRule link).nameOf := by
  rcases plain with cls | cls | cls <;> simp [PreparedRule.rule,PreparedRule.keys,PreparedRule.names,cls]

theorem plain_inputs (plain : Plain r.cls) (buildType : String) :
    (∀ f ∈ r.input.files.expandedHeaderFiles ++ r.sourceFiles, resolved r.input f ∈ r.inputs link buildType) ∧
    (∀ name ∈ ["flags.make","toolchain.make","build.make"], sub r.workingFolder name ∈ r.inputs link buildType) ∧
    (∀ dependenciesArtifact depsAndFlags, r.artifact link = .binary dependenciesArtifact depsAndFlags →
      ∀ d ∈ dependenciesArtifact buildType, d ∈ r.inputs link buildType) := by
  have own (f : String) (member : f ∈ r.input.files.expandedHeaderFiles ++ r.sourceFiles) :=
    List.mem_map_of_mem (f := resolved r.input) member
  have made (name : String) (member : name ∈ ["flags.make","toolchain.make","build.make"]) :=
    List.mem_map_of_mem (f := sub r.workingFolder) member
  refine ⟨fun f member => ?_,fun name member => ?_,fun da df binary d member => ?_⟩
  · rcases plain with cls | cls | cls <;> simp only [PreparedRule.inputs,cls]
    · exact List.mem_append_left _ (own f member)
    · exact List.mem_append_left _ (List.mem_append_left _ (own f member))
    · exact List.mem_append_left _ (List.mem_append_left _ (own f member))
  · rcases plain with cls | cls | cls <;> simp only [PreparedRule.inputs,cls]
    · exact List.mem_append_right _ (made name member)
    · exact List.mem_append_left _ (List.mem_append_right _ (made name member))
    · exact List.mem_append_left _ (List.mem_append_right _ (made name member))
  · rcases plain with cls | cls | cls <;> simp only [PreparedRule.artifact,cls] at binary
    · contradiction
    all_goals
      obtain ⟨rfl,rfl⟩ := Artifact.binary.inj binary
      simp only [PreparedRule.inputs,cls]
      exact List.mem_append_right _ member

def Given (buildType d : String) : Prop := d ∈ r.inputs link buildType

theorem plain_supplied (plain : Plain r.cls) : (r.buildRule link).Supplied (r.keys link) (Given r link)
    (r.buildRule link).headerStamps false := by
  obtain ⟨-,keys,-⟩ := plain_names r link plain
  have linted (f : String) : .stamp f ∈ r.keys link ↔ f ∈ (r.buildRule link).linted := by
    rw [keys,mem_keys]
    simp [Rule.typeKeys]
  have files (f : String) (member : f ∈ (r.buildRule link).linted) :
      f ∈ r.input.files.expandedHeaderFiles ++ r.sourceFiles := (List.mem_filter.mp member).1
  refine ⟨?_,?_,?_,?_,?_,?_,?_,?_⟩
  · rw [keys]
    exact mem_keys.mpr (.inr (.inl rfl))
  · intro buildType inTypes k own
    rw [keys]
    exact mem_keys.mpr (.inr (.inr (.inr (.inr ⟨buildType,inTypes,own⟩))))
  · intro _ f source lints
    exact (linted f).mpr (List.mem_filter.mpr ⟨List.mem_append_right _ source,lints⟩)
  · intro path header
    obtain ⟨f,member,rfl⟩ := List.mem_map.mp header
    obtain ⟨inHeaders,lints⟩ := List.mem_filter.mp member
    exact ⟨f,(linted f).mpr (List.mem_filter.mpr ⟨List.mem_append_left _ inHeaders,lints⟩),rfl⟩
  · intro f stamp buildType
    exact (plain_inputs r link plain buildType).1 f (files f ((linted f).mp stamp))
  · intro f source
    exact .inr fun buildType => (plain_inputs r link plain buildType).1 f (List.mem_append_right _ source)
  · intro name member buildType
    exact (plain_inputs r link plain buildType).2.1 name member
  · intro da df binary buildType d member
    exact (plain_inputs r link plain buildType).2.2 da df binary d member

theorem commonTargets_places {b : Rule} {keys : List Key} {given : String → String → Prop}
    (listed : ∀ name ∈ [RootMakefile.defaultTarget,"all"], .other name ∈ keys) (force : .force ∈ keys) :
    ∀ t ∈ commonTargets, ∃ k, b.Places keys given t k := by
  intro t member
  simp only [commonTargets,List.mem_cons,List.not_mem_nil,or_false] at member
  rcases member with rfl | rfl | rfl | rfl
  · exact ⟨_,other_places b given rfl (listed _ (by simp))⟩
  · exact ⟨_,other_places b given rfl (listed _ (by simp))⟩
  · exact ⟨_,other_places b given rfl (listed _ (by simp))⟩
  · exact ⟨.force,force,by rw [Rule.nameOf],fun _ _ d required => absurd required List.not_mem_nil,
      fun file => absurd file (by simp [Key.file]),fun _ _ _ => rfl⟩

theorem assembled_names {b : Rule} {keys : List Key} {given : String → String → Prop} {headers : List String}
    {neverLint : Bool} (supplied : b.Supplied keys given headers neverLint) {sources : List Source}
    (all : filenames sources = b.input.files.expandedSourceFiles) {front back : List Target}
    (places : ∀ t ∈ front ++ back, ∃ k, b.Places keys given t k) :
    ∀ name ∈ (makefile (b.assemble headers neverLint sources front back)).names, name ∈ keys.map b.nameOf := by
  intro name member
  obtain ⟨t,inside,rfl⟩ := mem_names.mp member
  have placed : ∃ k, b.Places keys given t k := by
    rcases List.mem_append.mp inside with first | later
    · exact places t (List.mem_append_left _ first)
    · rcases List.mem_append.mp later with middle | last
      · exact generateBuildTypes_places supplied all middle
      · exact places t (List.mem_append_right _ last)
  obtain ⟨k,spot⟩ := placed
  rw [spot.named]
  exact List.mem_map_of_mem spot.listed

theorem plain_places (plain : Plain r.cls) :
    ∀ t ∈ (commonTargets ++ (r.buildRule link).lintHeaders.1) ++ lastTargets r link,
      ∃ k, (r.buildRule link).Places (r.keys link) (Given r link) t k := by
  have supplied := plain_supplied r link plain
  obtain ⟨-,keys,-⟩ := plain_names r link plain
  have other (name : String) (member : name ∈ r.others) : .other name ∈ r.keys link := by
    rw [keys]
    exact mem_keys.mpr (.inl ⟨name,member,rfl⟩)
  intro t member
  rcases List.mem_append.mp member with front | back
  · rcases List.mem_append.mp front with common | linting
    · refine commonTargets_places (fun name among => other name ?_) supplied.force t common
      exact List.mem_append_left _ (by simp only [List.mem_cons,List.not_mem_nil,or_false] at among ⊢; tauto)
    · obtain ⟨f,inHeaders,rfl⟩ := List.mem_map.mp linting
      obtain ⟨header,lints⟩ := List.mem_filter.mp inHeaders
      have linted : f ∈ (r.buildRule link).linted := List.mem_filter.mpr ⟨List.mem_append_left _ header,lints⟩
      refine ⟨_,lintTarget_places supplied (f := f) ?_⟩
      rw [keys]
      exact mem_keys.mpr (.inr (.inr (.inr (.inl ⟨f,linted,rfl⟩))))
  · rcases List.mem_append.mp back with clean | test
    · obtain rfl := List.mem_singleton.mp clean
      exact ⟨_,other_places _ _ rfl (other "clean" (by simp [PreparedRule.others]))⟩
    · split at test
      · next cls =>
        obtain ⟨buildType,-,rfl⟩ := List.mem_map.mp test
        exact ⟨_,other_places _ _ rfl (other "test" (by simp [PreparedRule.others,cls]))⟩
      · exact absurd test List.not_mem_nil

theorem plain_assembles (plain : Plain r.cls) (separate : r.Separate link) (some : r.buildTypes ≠ []) :
    (r.buildRule link).Assembles (r.keys link) (Given r link) (r.buildRule link).headerStamps false
      (unmarked (r.buildRule link)) (commonTargets ++ (r.buildRule link).lintHeaders.1) (lastTargets r link) := by
  have supplied := plain_supplied r link plain
  have places := plain_places r link plain
  obtain ⟨-,keys,names⟩ := plain_names r link plain
  have cc : r.cls.type.isCC = true ∧ r.cls.type.isProto = false := by
    rcases plain with cls | cls | cls <;> rw [cls] <;> decide
  refine ⟨supplied,unmarked_filenames _,separate.known cc.1 cc.2,?_,places,?_,?_,?_,?_⟩
  · intro buildType k listed serves
    rw [keys] at listed
    exact keys_types listed serves
  · exact ⟨⟨"jk_force",[],[],true⟩,by simp [commonTargets],rfl,rfl⟩
  · intro k listed force low other
    rw [keys] at listed
    rcases mem_keys.mp listed with ⟨name,-,rfl⟩ | rfl | ⟨path,none,-⟩ | ⟨f,linted,rfl⟩ | ⟨bt,-,own⟩
    · exact absurd rfl (other name)
    · exact absurd rfl force
    · exact absurd none List.not_mem_nil
    · obtain ⟨member,lints⟩ := List.mem_filter.mp linted
      rcases List.mem_append.mp member with header | source
      · refine ⟨(r.buildRule link).lintTarget f,List.mem_append_left _ (List.mem_append_right _ ?_),lintTarget_makes _ f⟩
        exact List.mem_map_of_mem (List.mem_filter.mpr ⟨header,lints⟩)
      · have unseen : ⟨f,false⟩ ∈ unmarked (r.buildRule link) := List.mem_map_of_mem source
        obtain ⟨t,inside,makes⟩ := stamp_made (r.buildRule link) (r.buildRule link).headerStamps some unseen lints
        exact ⟨t,List.mem_append_right _ (List.mem_append_left _ inside),makes⟩
    · simp only [Rule.typeKeys,List.mem_append,List.mem_map,List.mem_cons,List.not_mem_nil,or_false] at own
      rcases own with ⟨f,-,rfl⟩ | rfl | rfl | rfl <;> simp [Key.rank] at low
  · rw [← names]
    exact separate.names
  · intro buildType inTypes d given inNames
    have listed := assembled_names supplied (unmarked_filenames _) places d inNames
    rw [← names] at listed
    exact separate.inputs buildType inTypes d given listed

theorem hasRecipe_iff {ts : List Target} {name : String} : hasRecipe ts name = true ↔ ∃ t ∈ ts, t.makes name := by
  simp [hasRecipe,Target.makes,and_assoc]

theorem mem_phony {t : Target} (member : t ∈ r.targets link) (phony : t.phony = true) : t.name ∈ r.phony link :=
  List.mem_map_of_mem (List.mem_filter.mpr ⟨member,phony⟩)

theorem of_phony (member : d ∈ r.phony link) : ∃ t ∈ r.targets link, t.phony = true ∧ t.name = d := by
  obtain ⟨t,inside,rfl⟩ := List.mem_map.mp member
  obtain ⟨listed,phony⟩ := List.mem_filter.mp inside
  exact ⟨t,listed,phony,rfl⟩

/-- Objects of sources that are compiled anew each time. -/
def Anew (u : String) : Prop := ∃ k, (r.rule link).Always k ∧ (r.rule link).nameOf k = u

theorem plain_written (plain : Plain r.cls) (u : String) :
    r.writes link u = if hasRecipe (r.targets link) u then [u] else [] := by
  rcases plain with cls | cls | cls <;> simp [PreparedRule.writes,cls]

theorem plain_only (plain : Plain r.cls) (member : d ∈ r.writes link u) : d = u ∧ hasRecipe (r.targets link) u = true := by
  rw [plain_written r link plain] at member
  split at member
  · next recipe => exact ⟨List.mem_singleton.mp member,recipe⟩
  · exact absurd member List.not_mem_nil

theorem plain_goal (plain : Plain r.cls) (buildType : String) : r.goal buildType = buildType := by
  rcases plain with cls | cls | cls <;> simp only [PreparedRule.goal,cls] <;> rfl

theorem plain_exported (plain : Plain r.cls) (buildType : String) :
    r.exportedFiles buildType = [(r.buildRule link).artifactPath buildType] := by
  rcases plain with cls | cls | cls <;>
    simp only [PreparedRule.exportedFiles,Rule.artifactPath,PreparedRule.buildRule,PreparedRule.artifact,cls] <;> rfl

theorem plain_solid (plain : Plain r.cls) (separate : r.Separate link) (inTypes : buildType ∈ r.buildTypes) :
    Solid (makefile (r.targets link)) (r.goal buildType) (r.phony link) (r.writes link) (Anew r link) := by
  have whole := plain_assembles r link plain separate (List.ne_nil_of_mem inTypes)
  have same := plain_targets r link plain
  have anew : Anew r link = fun u => ∃ k, (r.buildRule link).Always k ∧ (r.buildRule link).nameOf k = u := by
    unfold Anew
    rw [(plain_names r link plain).1]
  rw [plain_goal r plain,anew,same]
  refine whole.solid inTypes (fun d phony => same ▸ of_phony r link phony) ?_ (fun u recipe => ?_) fun u d written => ?_
  · refine mem_phony r link (t := ⟨"jk_force",[],[],true⟩) ?_ rfl
    rw [same]
    exact List.mem_append_left _ (List.mem_append_left _ (by simp [commonTargets]))
  · rw [plain_written r link plain,same,if_pos (hasRecipe_iff.mpr recipe)]
    exact List.mem_singleton_self u
  · rw [← same]
    exact hasRecipe_iff.mp (plain_only r link plain written).2

theorem plain_makes (plain : Plain r.cls) (separate : r.Separate link) (inTypes : buildType ∈ r.buildTypes) :
    Makes (makefile (r.targets link)) (r.goal buildType) (r.phony link) (r.writes link) (r.inputs link buildType)
      (r.exportedFiles buildType) := by
  have whole := plain_assembles r link plain separate (List.ne_nil_of_mem inTypes)
  have only {u d : String} := plain_only r link plain (u := u) (d := d)
  have same := plain_targets r link plain
  rw [plain_goal r plain,plain_exported r link plain]
  rw [same] at only ⊢
  refine whole.makes inTypes (fun t member => ?_) (fun u recipe => ?_) ?_ ?_ fun d given => given
  · exact mem_phony r link (same ▸ member)
  · rw [plain_written r link plain,same,if_pos (hasRecipe_iff.mpr recipe)]
    exact List.mem_singleton_self u
  · intro k listed serves d member
    obtain ⟨rfl,recipe⟩ := only member
    obtain ⟨t,inside,makes⟩ := hasRecipe_iff.mp recipe
    exact mem_names.mpr ⟨t,inside,makes.1⟩
  · intro k listed k' listed' _ _ d member member'
    exact whole.same_key listed listed' ((only member).1.symm.trans (only member').1)

end Compiled

section Proto

variable (r : PreparedRule) (link : Link)

theorem proto_names (cls : r.cls = .protoLibrary) : r.rule link = r.generatedRule ∧
    r.keys link = r.generatedRule.keys r.others (r.sourceFiles.map r.generatedSource) [] ∧
    r.names link = (r.keys link).map r.generatedRule.nameOf ∧
    r.others = [RootMakefile.defaultTarget,"all","clean"] ++ r.sourceFiles.map r.generatedHeader := by
  simp [PreparedRule.rule,PreparedRule.keys,PreparedRule.names,PreparedRule.others,cls]

def protoFront : List Target := commonTargets ++ r.sourceFiles.flatMap r.addProtoFileCommands

def protoBack : List Target := [cleanTarget r.generatedRule [] true (unmarked r.generatedRule)]

theorem proto_targets (cls : r.cls = .protoLibrary) : r.targets link =
    r.generatedRule.assemble [] true (unmarked r.generatedRule) (protoFront r) (protoBack r) := by
  simp only [PreparedRule.targets,cls]
  rfl

theorem sub_empty (part : String) : sub "" part = part := by
  unfold sub
  split
  · rfl
  · simp

theorem resolved_generated (f : String) : resolved r.generatedRule.input f = sub r.input.session.projectRoot f := by
  rw [resolved,sourceFilename,fullQualifiedPath]
  simp only [PreparedRule.generatedRule,sub_empty]

theorem proto_keys (cls : r.cls = .protoLibrary) (source : f ∈ r.sourceFiles) :
    .generated (r.generatedSource f) ∈ r.keys link ∧ .other (r.generatedHeader f) ∈ r.keys link := by
  obtain ⟨-,keys,-,others⟩ := proto_names r link cls
  rw [keys]
  exact ⟨mem_keys.mpr (.inr (.inr (.inl ⟨_,List.mem_map_of_mem source,rfl⟩))),
    mem_keys.mpr (.inl ⟨_,by rw [others]; exact List.mem_append_right _ (List.mem_map_of_mem source),rfl⟩)⟩

theorem proto_inputs (cls : r.cls = .protoLibrary) (buildType : String) :
    (∀ f ∈ r.sourceFiles, r.protoFile f ∈ r.inputs link buildType) ∧
    ∀ name ∈ ["flags.make","toolchain.make","build.make"], sub r.workingFolder name ∈ r.inputs link buildType := by
  simp only [PreparedRule.inputs,cls]
  exact ⟨fun f source => List.mem_append_left _ (List.mem_map_of_mem source),
    fun name member => List.mem_append_right _ (List.mem_map_of_mem member)⟩

theorem proto_supplied (cls : r.cls = .protoLibrary) (separate : r.Separate link) :
    r.generatedRule.Supplied (r.keys link) (Given r link) [] true := by
  obtain ⟨-,keys,-⟩ := proto_names r link cls
  refine ⟨?_,?_,fun none => absurd none (by decide),?_,?_,?_,?_,?_⟩
  · rw [keys]
    exact mem_keys.mpr (.inr (.inl rfl))
  · intro buildType inTypes k own
    rw [keys]
    exact mem_keys.mpr (.inr (.inr (.inr (.inr ⟨buildType,inTypes,own⟩))))
  · exact fun path header => absurd header List.not_mem_nil
  · intro f stamp
    rw [keys,mem_keys] at stamp
    simp [Rule.typeKeys] at stamp
  · intro path member
    obtain ⟨f,source,rfl⟩ := List.mem_map.mp member
    left
    rw [resolved_generated,(separate.generated (by rw [cls]; decide) f source).2.2]
    exact (proto_keys r link cls source).1
  · intro name member buildType
    exact (proto_inputs r link cls buildType).2 name member
  · intro da df binary
    exact absurd binary (by simp [PreparedRule.generatedRule])

theorem proto_places (cls : r.cls = .protoLibrary) (separate : r.Separate link) :
    ∀ t ∈ protoFront r ++ protoBack r, ∃ k, r.generatedRule.Places (r.keys link) (Given r link) t k := by
  obtain ⟨-,keys,-,others⟩ := proto_names r link cls
  have other (name : String) (member : name ∈ [RootMakefile.defaultTarget,"all","clean"]) :
      .other name ∈ r.keys link := by
    rw [keys]
    exact mem_keys.mpr (.inl ⟨name,others ▸ List.mem_append_left _ member,rfl⟩)
  intro t member
  rcases List.mem_append.mp member with front | back
  · rcases List.mem_append.mp front with common | proto
    · refine commonTargets_places (fun name among => other name ?_) (proto_supplied r link cls separate).force t common
      simp only [List.mem_cons,List.not_mem_nil,or_false] at among ⊢
      tauto
    · obtain ⟨f,source,own⟩ := List.mem_flatMap.mp proto
      obtain ⟨generated,header⟩ := proto_keys r link cls source
      simp only [PreparedRule.addProtoFileCommands,List.map_cons,List.map_nil,List.mem_cons,List.not_mem_nil,
        or_false] at own
      rcases own with rfl | rfl
      · refine ⟨_,generated,by rw [Rule.nameOf],fun buildType _ d required => .inr ?_,fun _ => rfl,
          fun _ _ other => absurd other (by simp [Key.file])⟩
        rw [List.mem_singleton.mp required]
        exact (proto_inputs r link cls buildType).1 f source
      · exact ⟨_,other_places _ _ (by simp only) header⟩
  · obtain rfl := List.mem_singleton.mp back
    exact ⟨_,other_places _ _ rfl (other "clean" (by simp))⟩

/-- Both files of a source have targets that make them, from the source. -/
theorem proto_target (source : f ∈ r.sourceFiles) {path : String} (own : path ∈ [r.generatedSource f,r.generatedHeader f]) :
    ∃ t ∈ protoFront r, t.makes path ∧ t.deps = [.file (r.protoFile f)] :=
  ⟨_,List.mem_append_right _ (List.mem_flatMap.mpr ⟨f,source,List.mem_map_of_mem own⟩),⟨rfl,List.cons_ne_nil _ _,rfl⟩,rfl⟩

theorem proto_made (source : f ∈ r.sourceFiles) {path : String} (own : path ∈ [r.generatedSource f,r.generatedHeader f]) :
    ∃ t ∈ protoFront r, t.makes path := by
  obtain ⟨t,member,makes,-⟩ := proto_target r source own
  exact ⟨t,member,makes⟩

theorem proto_assembles (cls : r.cls = .protoLibrary) (separate : r.Separate link) :
    r.generatedRule.Assembles (r.keys link) (Given r link) [] true (unmarked r.generatedRule) (protoFront r)
      (protoBack r) := by
  have supplied := proto_supplied r link cls separate
  have places := proto_places r link cls separate
  obtain ⟨-,keys,names,-⟩ := proto_names r link cls
  refine ⟨supplied,unmarked_filenames _,?_,?_,places,?_,?_,?_,?_⟩
  · intro path member
    obtain ⟨f,source,rfl⟩ := List.mem_map.mp member
    exact (separate.generated (by rw [cls]; decide) f source).2.1
  · intro buildType k listed serves
    rw [keys] at listed
    exact keys_types listed serves
  · exact ⟨⟨"jk_force",[],[],true⟩,by simp [protoFront,commonTargets],rfl,rfl⟩
  · intro k listed force low other
    rw [keys] at listed
    rcases mem_keys.mp listed with ⟨name,-,rfl⟩ | rfl | ⟨path,member,rfl⟩ | ⟨f,none,-⟩ | ⟨bt,-,own⟩
    · exact absurd rfl (other name)
    · exact absurd rfl force
    · obtain ⟨f,source,rfl⟩ := List.mem_map.mp member
      have first : r.generatedSource f ∈ [r.generatedSource f,r.generatedHeader f] := List.mem_cons_self
      obtain ⟨t,inside,makes⟩ := proto_made r source first
      exact ⟨t,List.mem_append_left _ inside,by rwa [Rule.nameOf]⟩
    · exact absurd none List.not_mem_nil
    · simp only [Rule.typeKeys,List.mem_append,List.mem_map,List.mem_cons,List.not_mem_nil,or_false] at own
      rcases own with ⟨f,-,rfl⟩ | rfl | rfl | rfl <;> simp [Key.rank] at low
  · rw [← names]
    exact separate.names
  · intro buildType inTypes d given inNames
    have listed := assembled_names supplied (unmarked_filenames _) places d inNames
    rw [← names] at listed
    exact separate.inputs buildType inTypes d given listed

theorem proto_headers (cls : r.cls = .protoLibrary) (separate : r.Separate link) :
    (r.sourceFiles.map r.generatedHeader).Nodup := by
  obtain ⟨-,keys,names,others⟩ := proto_names r link cls
  have whole := separate.names
  rw [names,keys,Rule.keys,others] at whole
  simp only [List.map_append,List.map_map,Function.comp_def,Rule.nameOf,List.append_assoc] at whole
  exact (List.nodup_append.mp (List.nodup_append.mp whole).2.1).1

/-- What the recipe of a key writes: the two files of a source, or the file it is named by. -/
theorem proto_writes (cls : r.cls = .protoLibrary) (separate : r.Separate link) (listed : k ∈ r.keys link)
    (serves : k.serves buildType = true) (written : d ∈ r.writes link (r.generatedRule.nameOf k)) :
    (∃ f ∈ r.sourceFiles, k = .generated (r.generatedSource f) ∧ d ∈ [r.generatedSource f,r.generatedHeader f]) ∨
    (d = r.generatedRule.nameOf k ∧ hasRecipe (r.targets link) d = true ∧
      ∀ f ∈ r.sourceFiles, d ∉ [r.generatedSource f,r.generatedHeader f]) := by
  have whole := proto_assembles r link cls separate
  simp only [PreparedRule.writes,cls] at written
  split at written
  · next f found =>
    have source := List.mem_of_find?_eq_some found
    have own : r.generatedRule.nameOf k ∈ [r.generatedSource f,r.generatedHeader f] := by
      simpa using List.find?_some found
    obtain ⟨generated,header⟩ := proto_keys r link cls source
    refine .inl ⟨f,source,?_,written⟩
    simp only [List.mem_cons,List.not_mem_nil,or_false] at own
    rcases own with same | same
    · exact whole.same_key listed generated (by rw [same,Rule.nameOf])
    · rw [whole.same_key listed header (by rw [same,Rule.nameOf])] at serves
      simp [Key.serves] at serves
  · next none =>
    split at written
    · next recipe =>
      obtain rfl := List.mem_singleton.mp written
      exact .inr ⟨rfl,recipe,fun f source => by simpa using List.find?_eq_none.mp none f source⟩
    · exact absurd written List.not_mem_nil

theorem proto_goal (cls : r.cls = .protoLibrary) (buildType : String) : r.goal buildType = buildType := by
  simp only [PreparedRule.goal,cls]
  rfl

theorem proto_exported (cls : r.cls = .protoLibrary) (buildType : String) :
    r.exportedFiles buildType = [r.generatedRule.artifactPath buildType] := by
  simp only [PreparedRule.exportedFiles,Rule.artifactPath,PreparedRule.generatedRule,cls]
  rfl

theorem proto_own (cls : r.cls = .protoLibrary) (u : String)
    (recipe : ∃ t ∈ r.generatedRule.assemble [] true (unmarked r.generatedRule) (protoFront r) (protoBack r), t.makes u) :
    u ∈ r.writes link u := by
  simp only [PreparedRule.writes,cls]
  split
  · next f found => simpa using List.find?_some found
  · rw [proto_targets r link cls,if_pos (hasRecipe_iff.mpr recipe)]
    exact List.mem_singleton_self u

theorem proto_solid (cls : r.cls = .protoLibrary) (separate : r.Separate link) (inTypes : buildType ∈ r.buildTypes) :
    Solid (makefile (r.targets link)) (r.goal buildType) (r.phony link) (r.writes link) (Anew r link) := by
  have whole := proto_assembles r link cls separate
  have same := proto_targets r link cls
  have anew : Anew r link = fun u => ∃ k, r.generatedRule.Always k ∧ r.generatedRule.nameOf k = u := by
    unfold Anew
    rw [(proto_names r link cls).1]
  rw [proto_goal r cls,anew,same]
  refine whole.solid inTypes (fun d phony => same ▸ of_phony r link phony) ?_ (proto_own r link cls) fun u d written => ?_
  · refine mem_phony r link (t := ⟨"jk_force",[],[],true⟩) ?_ rfl
    rw [same]
    exact List.mem_append_left _ (List.mem_append_left _ (by simp [commonTargets]))
  · simp only [PreparedRule.writes,cls] at written
    split at written
    · next f found =>
      have own : u ∈ [r.generatedSource f,r.generatedHeader f] := by simpa using List.find?_some found
      obtain ⟨t,inside,makes⟩ := proto_made r (List.mem_of_find?_eq_some found) own
      exact ⟨t,List.mem_append_left _ inside,makes⟩
    · split at written
      · next recipe => exact hasRecipe_iff.mp (same ▸ recipe)
      · exact absurd written List.not_mem_nil

theorem proto_makes (cls : r.cls = .protoLibrary) (separate : r.Separate link) (inTypes : buildType ∈ r.buildTypes) :
    Makes (makefile (r.targets link)) (r.goal buildType) (r.phony link) (r.writes link) (r.inputs link buildType)
      (r.exportedFiles buildType) := by
  have whole := proto_assembles r link cls separate
  have same := proto_targets r link cls
  have files {f d : String} (source : f ∈ r.sourceFiles) (own : d ∈ [r.generatedSource f,r.generatedHeader f]) :
      ∃ t ∈ r.targets link, t.makes d := by
    obtain ⟨t,inside,makes⟩ := proto_made r source own
    exact ⟨t,by rw [same]; exact List.mem_append_left _ inside,makes⟩
  rw [proto_goal r cls,proto_exported r cls,same]
  refine whole.makes inTypes (fun t member => mem_phony r link (same ▸ member)) (proto_own r link cls) ?_ ?_
    fun d given => given
  · intro k listed serves d written
    rw [← same]
    rcases proto_writes r link cls separate listed serves written with ⟨f,source,-,own⟩ | ⟨-,recipe,-⟩
    · obtain ⟨t,inside,makes⟩ := files source own
      exact mem_names.mpr ⟨t,inside,makes.1⟩
    · obtain ⟨t,inside,makes⟩ := hasRecipe_iff.mp recipe
      exact mem_names.mpr ⟨t,inside,makes.1⟩
  · intro k listed k' listed' serves serves' d written written'
    rcases proto_writes r link cls separate listed serves written with ⟨f,source,rfl,own⟩ | ⟨name,-,foreign⟩
    · rcases proto_writes r link cls separate listed' serves' written' with ⟨f',source',rfl,own'⟩ | ⟨-,-,foreign'⟩
      · have cross {g g' : String} (in_g : g ∈ r.sourceFiles) (in_g' : g' ∈ r.sourceFiles) :
            r.generatedSource g ≠ r.generatedHeader g' := by
          intro same
          have keys := whole.same_key (proto_keys r link cls in_g).1 (proto_keys r link cls in_g').2
            (by rw [Rule.nameOf,Rule.nameOf,same])
          simp at keys
        simp only [List.mem_cons,List.not_mem_nil,or_false] at own own'
        rcases own with first | first
        · rcases own' with second | second
          · rw [first.symm.trans second]
          · exact absurd (first.symm.trans second) (cross source source')
        · rcases own' with second | second
          · exact absurd (second.symm.trans first) (cross source' source)
          · have equal := List.inj_on_of_nodup_map (proto_headers r link cls separate) source source'
              (first.symm.trans second)
            rw [equal]
      · exact absurd own (foreign' f source)
    · rcases proto_writes r link cls separate listed' serves' written' with ⟨f',source',-,own'⟩ | ⟨name',-,-⟩
      · exact absurd own' (foreign f' source')
      · exact whole.same_key listed listed' (name.symm.trans name')

end Proto

section Script

variable (r : PreparedRule) (link : Link)

theorem script_targets (cls : r.cls = .shellScript) : r.targets link = r.shellScriptTargets := by
  simp only [PreparedRule.targets,cls]

/-- The kinds of names of a script: what it exports waits for the mark it leaves. -/
inductive ScriptKey where
  | checkPoint
  | artifact (path : String)
  | build

def ScriptKey.name : ScriptKey → String
  | checkPoint => r.scriptTarget
  | artifact path => path
  | build => "build"

def ScriptKey.rank : ScriptKey → Nat
  | checkPoint => 0
  | artifact _ => 1
  | build => 2

def ScriptKey.inside : ScriptKey → Prop
  | artifact path => path ∈ r.input.files.artifacts
  | _ => True

/-- Names of a script's makefile that nothing waits for. -/
def idle : List String := [RootMakefile.defaultTarget,"all","jk_force","clean"]

theorem script_cases (member : t ∈ r.shellScriptTargets) : t.name ∈ idle ∨
    (t.name = r.scriptTarget ∧ t.deps = [.file r.scriptPath]) ∨
    (t.name ∈ r.input.files.artifacts ∧ t.deps = [.file r.scriptTarget]) ∨
    (t.name = "build" ∧ t.deps = r.input.files.artifacts.map .file) := by
  simp only [PreparedRule.shellScriptTargets,List.mem_append,List.mem_cons,List.not_mem_nil,or_false,List.mem_map]
    at member
  rcases member with ((common | rfl | rfl) | ⟨path,listed,rfl⟩) | rfl
  · left
    simp only [commonTargets,List.mem_cons,List.not_mem_nil,or_false] at common
    rcases common with rfl | rfl | rfl | rfl <;> simp [idle]
  · exact .inr (.inl ⟨by simp only,by simp only⟩)
  · exact .inl (by simp [idle])
  · exact .inr (.inr (.inl ⟨by simpa only,by simp only⟩))
  · exact .inr (.inr (.inr ⟨by simp only,by simp only⟩))

/-- The names a script makes differ from each other and from the rest. -/
structure Apart : Prop where
  checkPoint : r.scriptTarget ∉ idle ∧ r.scriptTarget ≠ "build" ∧ r.scriptTarget ∉ r.input.files.artifacts
  artifacts : ∀ path ∈ r.input.files.artifacts, path ∉ idle ∧ path ≠ "build"

theorem script_apart (cls : r.cls = .shellScript) (separate : r.Separate link) : Apart r := by
  have distinct : (idle ++ ("build" :: r.scriptTarget :: r.input.files.artifacts)).Nodup := by
    have whole := separate.names
    simp only [PreparedRule.names,cls] at whole
    exact whole
  obtain ⟨-,last,disjoint⟩ := List.nodup_append.mp distinct
  obtain ⟨build,rest⟩ := List.nodup_cons.mp last
  have foreign (name : String) (member : name ∈ r.scriptTarget :: r.input.files.artifacts) :
      name ∉ idle ∧ name ≠ "build" :=
    ⟨fun inIdle => disjoint _ inIdle _ (List.mem_cons_of_mem _ member) rfl,fun same => build (same ▸ member)⟩
  exact ⟨⟨(foreign _ List.mem_cons_self).1,(foreign _ List.mem_cons_self).2,(List.nodup_cons.mp rest).1⟩,
    fun path member => foreign path (List.mem_cons_of_mem _ member)⟩

theorem script_keyed (cls : r.cls = .shellScript) (separate : r.Separate link) (inTypes : buildType ∈ r.buildTypes) :
    Keyed (makefile r.shellScriptTargets) (ScriptKey.name r) (ScriptKey.inside r) ScriptKey.rank (· = r.scriptPath) := by
  have apart := script_apart r link cls separate
  have build : "build" ∉ idle := by decide
  have foreign : r.scriptPath ∉ (makefile r.shellScriptTargets).names := by
    have unnamed := separate.inputs buildType inTypes r.scriptPath (by simp [PreparedRule.inputs,cls])
    simp only [PreparedRule.names,cls,List.mem_append,List.mem_cons,not_or] at unnamed
    intro member
    obtain ⟨t,inside,named⟩ := mem_names.mp member
    rcases script_cases r inside with other | ⟨same,-⟩ | ⟨listed,-⟩ | ⟨same,-⟩
    · rw [named] at other
      simp only [idle,List.mem_cons] at other
      tauto
    · exact unnamed.1.2.2.2.2.2.1 (named.symm.trans same)
    · exact unnamed.2 (named ▸ listed)
    · exact unnamed.1.2.2.2.2.1 (named.symm.trans same)
  refine ⟨?_,?_,?_⟩
  · intro k inside
    cases k with
    | checkPoint => exact mem_names.mpr ⟨_,List.mem_append_left _ (List.mem_append_left _
        (List.mem_append_right _ List.mem_cons_self)),rfl⟩
    | artifact path => exact mem_names.mpr ⟨_,List.mem_append_left _ (List.mem_append_right _
        (List.mem_map_of_mem inside)),rfl⟩
    | build => exact mem_names.mpr ⟨_,List.mem_append_right _ (List.mem_singleton.mpr rfl),rfl⟩
  · intro k k' inside inside' same
    cases k <;> cases k' <;> simp only [ScriptKey.name,ScriptKey.inside] at same inside inside'
    all_goals first | rfl | skip
    · exact absurd (same ▸ inside') apart.checkPoint.2.2
    · exact absurd same apart.checkPoint.2.1
    · exact absurd (same ▸ inside) apart.checkPoint.2.2
    · exact absurd same (apart.artifacts _ inside).2
    · exact absurd same.symm apart.checkPoint.2.1
    · exact absurd same.symm (apart.artifacts _ inside').2
  · intro k inside d required
    obtain ⟨t,member,named,dep,inDeps,rfl⟩ := mem_prerequisites.mp required
    rcases script_cases r member with other | ⟨same,deps⟩ | ⟨listed,deps⟩ | ⟨same,deps⟩ <;> rw [named] at *
    · cases k with
      | checkPoint => exact absurd other apart.checkPoint.1
      | artifact path => exact absurd other (apart.artifacts path inside).1
      | build => exact absurd other build
    · rw [deps] at inDeps
      rw [List.mem_singleton.mp inDeps]
      exact .inr ⟨foreign,rfl⟩
    · rw [deps] at inDeps
      rw [List.mem_singleton.mp inDeps]
      refine .inl ⟨.checkPoint,trivial,rfl,?_⟩
      cases k with
      | checkPoint => exact absurd listed apart.checkPoint.2.2
      | artifact path => exact Nat.one_pos
      | build => exact Nat.two_pos
    · rw [deps] at inDeps
      obtain ⟨path,listed,rfl⟩ := List.mem_map.mp inDeps
      refine .inl ⟨.artifact path,listed,rfl,?_⟩
      cases k with
      | checkPoint => exact absurd same apart.checkPoint.2.1
      | artifact path' => exact absurd same (apart.artifacts path' inside).2
      | build => exact Nat.one_lt_two

theorem script_waits (listed : path ∈ r.input.files.artifacts) :
    r.scriptTarget ∈ (makefile r.shellScriptTargets).prerequisites path :=
  mem_prerequisites.mpr ⟨_,List.mem_append_left _ (List.mem_append_right _ (List.mem_map_of_mem listed)),rfl,_,
    List.mem_singleton.mpr rfl,path_file _⟩

theorem script_asked (listed : path ∈ r.input.files.artifacts) :
    path ∈ (makefile r.shellScriptTargets).prerequisites "build" :=
  mem_prerequisites.mpr ⟨_,List.mem_append_right _ (List.mem_singleton.mpr rfl),rfl,_,List.mem_map_of_mem listed,path_file _⟩

/-- The script is run for the first file it exports, and once. -/
theorem script_makes (cls : r.cls = .shellScript) (separate : r.Separate link) (inTypes : buildType ∈ r.buildTypes) :
    Makes (makefile (r.targets link)) (r.goal buildType) (r.phony link) (r.writes link) (r.inputs link buildType)
      (r.exportedFiles buildType) := by
  have keyed := script_keyed r link cls separate inTypes
  have goal : r.goal buildType = ScriptKey.name r .build := by
    simp only [PreparedRule.goal,cls]
    rfl
  have writes (u : String) : r.writes link u = if u = r.scriptTarget then r.scriptTarget :: r.input.files.artifacts
      else [] := by
    simp [PreparedRule.writes,cls]
  have exported : r.exportedFiles buildType = r.input.files.artifacts := by
    simp [PreparedRule.exportedFiles,cls]
  have build : "build" ∈ r.phony link := mem_phony r link
    (t := ⟨"build",r.input.files.artifacts.map .file,[],true⟩)
    (by rw [script_targets r link cls]; exact List.mem_append_right _ (List.mem_singleton.mpr rfl)) rfl
  rw [goal,exported,script_targets r link cls]
  have start : ScriptKey.inside r .build := trivial
  refine ⟨keyed.names .build start,keyed.acyclic start,?_,?_,?_,?_,?_⟩
  · intro d path leaf
    rw [keyed.leaves start path leaf]
    simp [PreparedRule.inputs,cls]
  · intro d wanted meant
    have named := keyed.names .checkPoint trivial
    obtain ⟨k,inside,rfl⟩ := keyed.wanted start wanted
    refine ⟨r.scriptTarget,named,?_,?_⟩
    · cases k with
      | checkPoint => exact .refl _ _
      | artifact path => exact .single (script_waits r inside)
      | build => exact absurd build meant
    · rw [writes,if_pos rfl]
      cases k with
      | checkPoint => exact List.mem_cons_self
      | artifact path => exact List.mem_cons_of_mem _ inside
      | build => exact absurd build meant
  · intro u _ d written
    rw [writes] at written
    split at written
    · rcases List.mem_cons.mp written with rfl | listed
      · exact keyed.names .checkPoint trivial
      · exact keyed.names (.artifact d) listed
    · exact absurd written List.not_mem_nil
  · intro u v d _ _ written written'
    rw [writes] at written written'
    split at written
    · next same =>
      split at written'
      · next same' => rw [same,same']
      · exact absurd written' List.not_mem_nil
    · exact absurd written List.not_mem_nil
  · intro d listed
    refine ⟨r.scriptTarget,⟨.head (script_asked r listed) (.single (script_waits r listed)),keyed.names .checkPoint trivial⟩,?_⟩
    rw [writes,if_pos rfl]
    exact List.mem_cons_of_mem _ listed

theorem script_solid (cls : r.cls = .shellScript) (separate : r.Separate link) (inTypes : buildType ∈ r.buildTypes) :
    Solid (makefile (r.targets link)) (r.goal buildType) (r.phony link) (r.writes link) (Anew r link) := by
  have apart := script_apart r link cls separate
  have keyed := script_keyed r link cls separate inTypes
  have only {u d : String} (written : d ∈ r.writes link u) : u = r.scriptTarget := by
    simp only [PreparedRule.writes,cls] at written
    split at written
    · assumption
    · exact absurd written List.not_mem_nil
  refine ⟨fun u _ d written => ?_,fun u _ written phony => ?_,fun u _ written e edge ruled => ?_⟩
  · obtain rfl := only written
    simp [PreparedRule.writes,cls]
  · obtain rfl := only written
    obtain ⟨t,member,marked,named⟩ := of_phony r link phony
    rw [script_targets r link cls] at member
    simp only [PreparedRule.shellScriptTargets,List.mem_append,List.mem_cons,List.not_mem_nil,or_false,List.mem_map]
      at member
    rcases member with ((common | rfl | rfl) | ⟨path,listed,rfl⟩) | rfl
    · exact apart.checkPoint.1 (named ▸ by
        simp only [commonTargets,List.mem_cons,List.not_mem_nil,or_false] at common
        rcases common with rfl | rfl | rfl | rfl <;> simp [idle])
    · simp at marked
    · simp at marked
    · simp at marked
    · exact apart.checkPoint.2.1 named.symm
  · obtain rfl := only written
    rw [script_targets r link cls] at edge ruled
    have inside : ScriptKey.inside r .checkPoint := trivial
    rcases keyed.waits .checkPoint inside e edge with ⟨k,-,-,lower⟩ | ⟨leaf,-⟩
    · exact absurd lower (Nat.not_lt_zero _)
    · exact absurd ruled leaf

end Script

theorem rule_solid (r : PreparedRule) (link : Link) (separate : r.Separate link) (inTypes : buildType ∈ r.buildTypes) :
    Solid (makefile (r.targets link)) (r.goal buildType) (r.phony link) (r.writes link) (Anew r link) := by
  cases cls : r.cls with
  | ccLibrary => exact plain_solid r link (.inl cls) separate inTypes
  | ccBinary => exact plain_solid r link (.inr (.inl cls)) separate inTypes
  | ccTest => exact plain_solid r link (.inr (.inr cls)) separate inTypes
  | protoLibrary => exact proto_solid r link cls separate inTypes
  | shellScript => exact script_solid r link cls separate inTypes

theorem rule_makes (r : PreparedRule) (link : Link) (separate : r.Separate link) (inTypes : buildType ∈ r.buildTypes) :
    Makes (makefile (r.targets link)) (r.goal buildType) (r.phony link) (r.writes link) (r.inputs link buildType)
      (r.exportedFiles buildType) := by
  cases cls : r.cls with
  | ccLibrary => exact plain_makes r link (.inl cls) separate inTypes
  | ccBinary => exact plain_makes r link (.inr (.inl cls)) separate inTypes
  | ccTest => exact plain_makes r link (.inr (.inr cls)) separate inTypes
  | protoLibrary => exact proto_makes r link cls separate inTypes
  | shellScript => exact script_makes r link cls separate inTypes

section Leads

variable (r : PreparedRule) (link : Link)

end Leads

end JkBuild.RuleMakefiles
