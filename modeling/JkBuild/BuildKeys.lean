import JkBuild.Buildable
import JkBuild.MakeRuns

/-! What make reads in a `build.make`, sorted by what the targets are for. Each kind waits for
kinds before it, and for files that are given. -/
namespace JkBuild.BuildMakefile

open Reachability Preparation SourceFile MakeRuns
open CompilationDatabase hiding objectPath

def Prerequisite.path : Prerequisite → String
  | file path => path
  | lint path => path

@[simp] theorem path_file (path : String) : (Prerequisite.file path).path = path := rfl

@[simp] theorem path_lint (path : String) : (Prerequisite.lint path).path = path := rfl

def makefile (ts : List Target) : Makefile String where
  names := ts.map (·.name)
  prerequisites name := (ts.filter (·.name = name)).flatMap fun t => t.deps.map Prerequisite.path
  leaf name none := by
    have empty : ts.filter (·.name = name) = [] := by
      refine List.filter_eq_nil_iff.mpr fun t member => ?_
      simpa using fun same => none (List.mem_map.mpr ⟨t,member,same⟩)
    rw [empty,List.flatMap_nil]

theorem mem_prerequisites {ts : List Target} {name d : String} :
    d ∈ (makefile ts).prerequisites name ↔ ∃ t ∈ ts, t.name = name ∧ ∃ dep ∈ t.deps, dep.path = d := by
  simp [makefile,and_assoc]

theorem mem_names {ts : List Target} {name : String} : name ∈ (makefile ts).names ↔ ∃ t ∈ ts, t.name = name :=
  List.mem_map

/-- What a target is for. The first kind is never asked for by a build type. -/
inductive Key where
  | other (name : String)
  | force
  | generated (path : String)
  | stamp (filename : String)
  | object (buildType filename : String)
  | artifact (buildType : String)
  | build (buildType : String)
  | all (buildType : String)
  deriving DecidableEq, Repr

namespace Key

def rank : Key → Nat
  | other _ | force | generated _ => 0
  | stamp _ => 1
  | object _ _ => 2
  | artifact _ => 3
  | build _ => 4
  | all _ => 5

def serves (buildType : String) : Key → Bool
  | other _ => false
  | force | generated _ | stamp _ => true
  | object bt _ | artifact bt | build bt | all bt => bt = buildType

def file : Key → Bool
  | generated _ | stamp _ | object _ _ | artifact _ => true
  | other _ | force | build _ | all _ => false

end Key

namespace Rule

def nameOf (r : Rule) : Key → String
  | .other name => name
  | .force => "jk_force"
  | .generated path => path
  | .stamp filename => lintPath r.input filename
  | .object buildType filename => objectPath r.input buildType filename
  | .artifact buildType => r.artifactPath buildType
  | .build buildType => sub (sub r.workingFolder buildType) "build"
  | .all buildType => buildType

/-- The keys of a makefile, apart from the names only a user asks for. -/
def typeKeys (r : Rule) (buildType : String) : List Key :=
  r.input.files.expandedSourceFiles.map (.object buildType) ++ [.artifact buildType,.build buildType,.all buildType]

def keys (r : Rule) (others generated linted : List String) : List Key :=
  others.map .other ++ [.force] ++ generated.map .generated ++ linted.map .stamp ++ r.buildTypes.flatMap r.typeKeys

/-- The object of a source that is compiled anew each time. -/
def Always (r : Rule) (k : Key) : Prop :=
  ∃ buildType f, k = .object buildType f ∧ resolved r.input f ∈ r.input.files.expandedAlwaysCompileFiles

/-- A target has the name of its key and waits for keys of lower rank and for given files. -/
structure Places (r : Rule) (keys : List Key) (given : String → String → Prop) (t : Target) (k : Key) : Prop where
  listed : k ∈ keys
  named : t.name = r.nameOf k
  waits : ∀ buildType, k.serves buildType = true → ∀ d ∈ t.deps,
    (∃ k' ∈ keys, k'.serves buildType = true ∧ r.nameOf k' = d.path ∧ k'.rank < k.rank ∧ (k' = .force → r.Always k)) ∨
      given buildType d.path
  file : k.file = true → t.phony = false
  gathers : ∀ buildType, k.serves buildType = true → k.file = false → t.cmds = []

/-- What the statements of the build types refer to is listed or given. -/
structure Supplied (r : Rule) (keys : List Key) (given : String → String → Prop) (headers : List String)
    (neverLint : Bool) : Prop where
  force : Key.force ∈ keys
  types : ∀ buildType ∈ r.buildTypes, r.typeKeys buildType ⊆ keys
  stamps : neverLint = false → ∀ f ∈ r.input.files.expandedSourceFiles, r.lints f = true → .stamp f ∈ keys
  headers : ∀ path ∈ headers, ∃ f, .stamp f ∈ keys ∧ lintPath r.input f = path
  linted : ∀ f, .stamp f ∈ keys → ∀ buildType, given buildType (resolved r.input f)
  sources : ∀ f ∈ r.input.files.expandedSourceFiles, .generated (resolved r.input f) ∈ keys ∨
    ∀ buildType, given buildType (resolved r.input f)
  makefiles : ∀ name ∈ ["flags.make","toolchain.make","build.make"], ∀ buildType,
    given buildType (sub r.workingFolder name)
  artifacts : ∀ dependenciesArtifact depsAndFlags, r.artifact = .binary dependenciesArtifact depsAndFlags →
    ∀ buildType, ∀ d ∈ dependenciesArtifact buildType, given buildType d

end Rule

section Rounds

variable (r : Rule) (headers : List String) (neverLint : Bool)

def filenames (sources : List Source) : List String := sources.map (·.filename)

theorem addSourceFilesCommands_filenames (buildType : String) (sources : List Source) :
    filenames (r.addSourceFilesCommands buildType headers neverLint sources).2.1 = filenames sources := by
  simp only [filenames,Rule.addSourceFilesCommands,List.map_map]
  rfl

/-- The targets of one build type, with the files marked as they may be by then. -/
def Rule.round (buildType : String) (sources : List Source) : List Target :=
  targets (r.addSourceFilesCommands buildType headers neverLint sources).1 ++
    (r.artifactTargets buildType headers ((filenames sources).map (objectPath r.input buildType)) ++
      r.buildTypeTargets buildType)

theorem generateBuildTypes_cons (buildType : String) (buildTypes : List String) (sources : List Source) :
    ∃ left, filenames left = filenames sources ∧
      targets (r.generateBuildTypes headers neverLint (buildType :: buildTypes) sources).1 =
        r.round headers neverLint buildType sources ++
          targets (r.generateBuildTypes headers neverLint buildTypes left).1 := by
  refine ⟨(r.addSourceFilesCommands buildType headers neverLint sources).2.1,
    addSourceFilesCommands_filenames r headers neverLint buildType sources,?_⟩
  have objects : (r.addSourceFilesCommands buildType headers neverLint sources).2.2 =
      (filenames sources).map (objectPath r.input buildType) := by
    simp [Rule.addSourceFilesCommands,filenames]
  simp only [Rule.generateBuildTypes,targets_append,targets_map,objects,Rule.round]

theorem mem_rounds {buildTypes : List String} {sources : List Source} {t : Target}
    (member : t ∈ targets (r.generateBuildTypes headers neverLint buildTypes sources).1) :
    ∃ buildType ∈ buildTypes, ∃ marked, filenames marked = filenames sources ∧
      t ∈ r.round headers neverLint buildType marked := by
  induction buildTypes generalizing sources with
  | nil => exact absurd member List.not_mem_nil
  | cons buildType buildTypes ih =>
    obtain ⟨left,same,split⟩ := generateBuildTypes_cons r headers neverLint buildType buildTypes sources
    rw [split] at member
    rcases List.mem_append.mp member with own | later
    · exact ⟨buildType,List.mem_cons_self,sources,rfl,own⟩
    · obtain ⟨bt,inTypes,marked,same',inside⟩ := ih later
      exact ⟨bt,List.mem_cons_of_mem _ inTypes,marked,same'.trans same,inside⟩

theorem round_mem {buildTypes : List String} (sources : List Source) (listed : buildType ∈ buildTypes) :
    ∃ marked, filenames marked = filenames sources ∧ r.round headers neverLint buildType marked ⊆
      targets (r.generateBuildTypes headers neverLint buildTypes sources).1 := by
  induction buildTypes generalizing sources with
  | nil => exact absurd listed List.not_mem_nil
  | cons first buildTypes ih =>
    obtain ⟨left,same,split⟩ := generateBuildTypes_cons r headers neverLint first buildTypes sources
    rw [split]
    rcases List.mem_cons.mp listed with rfl | later
    · exact ⟨sources,rfl,List.subset_append_left _ _⟩
    · obtain ⟨marked,same',inside⟩ := ih left later
      exact ⟨marked,same'.trans same,fun t member => List.mem_append_right _ (inside member)⟩

theorem mem_addSourceFiles {buildType : String} {sources : List Source} {t : Target} :
    t ∈ targets (r.addSourceFilesCommands buildType headers neverLint sources).1 ↔
      ∃ source ∈ sources, t ∈ targets (r.addSourceFile buildType headers neverLint source).1 := by
  simp only [Rule.addSourceFilesCommands,List.flatMap_map]
  induction sources with
  | nil => simp [targets]
  | cons source sources ih => rw [List.flatMap_cons,targets_append,List.mem_append,ih,List.exists_mem_cons_iff]

def Rule.waitingTarget (buildType filename : String) : Target where
  name := objectPath r.input buildType filename
  deps := [.file (sub r.workingFolder "flags.make"),.file (sub r.workingFolder "toolchain.make")] ++
    if !r.inNolint (resolved r.input filename) && !neverLint then [.lint (lintPath r.input filename)] else []
  cmds := []
  phony := false

theorem addSourceFileCommands_targets (buildType filename : String) :
    targets (r.addSourceFileCommands buildType filename headers neverLint) =
      r.waitingTarget neverLint buildType filename :: r.compiled headers buildType filename := by
  unfold Rule.addSourceFileCommands Rule.compiled
  rw [targets_append]
  refine congrArg (r.waitingTarget neverLint buildType filename :: ·) ?_
  cases isCppSourceFile (fullQualifiedPath r.input filename) with
  | true => rfl
  | false => cases isCSourceFile (fullQualifiedPath r.input filename) <;> rfl

theorem mem_compiled {buildType filename : String} {t : Target} (member : t ∈ r.compiled headers buildType filename) :
    ∃ command, t = r.compileTarget buildType filename headers command := by
  unfold Rule.compiled at member
  split at member
  · exact ⟨_,List.mem_singleton.mp member⟩
  · split at member
    · exact ⟨_,List.mem_singleton.mp member⟩
    · exact absurd member List.not_mem_nil

/-- The targets of a source: its stamp the first time, the object it waits in, the recipe for
the object if it compiles, and the mark that it is made anew each time. -/
theorem mem_addSourceFile {buildType : String} {source : Source} {t : Target}
    (member : t ∈ targets (r.addSourceFile buildType headers neverLint source).1) :
    (t = r.lintTarget source.filename ∧ neverLint = false ∧ r.lints source.filename = true) ∨
    (t.name = objectPath r.input buildType source.filename ∧ t.phony = false ∧ ∀ d ∈ t.deps,
      d.path ∈ [sub r.workingFolder "flags.make",sub r.workingFolder "toolchain.make"] ∨
      (d.path = lintPath r.input source.filename ∧ neverLint = false ∧ r.lints source.filename = true) ∨
      d.path ∈ headers ∨ d.path = resolved r.input source.filename ∨
      (d.path = "jk_force" ∧ resolved r.input source.filename ∈ r.input.files.expandedAlwaysCompileFiles)) := by
  simp only [Rule.addSourceFile,targets_append,List.mem_append,addSourceFileCommands_targets,
    List.mem_cons] at member
  rcases member with (first | rfl | compiled) | force
  · split at first
    · next lint =>
      simp only [Bool.and_eq_true,Bool.not_eq_true'] at lint
      exact .inl ⟨List.mem_singleton.mp first,lint.1.2,by simp [Rule.lints,lint.2]⟩
    · exact absurd first List.not_mem_nil
  · refine .inr ⟨by rw [Rule.waitingTarget],rfl,fun d required => ?_⟩
    simp only [Rule.waitingTarget,List.mem_append,List.mem_cons,List.not_mem_nil,or_false] at required
    rcases required with (rfl | rfl) | stamp
    · exact .inl (by simp)
    · exact .inl (by simp)
    · split at stamp
      · next lint =>
        simp only [Bool.and_eq_true,Bool.not_eq_true'] at lint
        rw [List.mem_singleton.mp stamp]
        exact .inr (.inl ⟨path_lint _,lint.2,by simp [Rule.lints,lint.1]⟩)
      · exact absurd stamp List.not_mem_nil
  · obtain ⟨command,rfl⟩ := mem_compiled r headers compiled
    refine .inr ⟨by rw [Rule.compileTarget],rfl,fun d required => ?_⟩
    simp only [Rule.compileTarget] at required
    rcases List.mem_append.mp required with header | own
    · obtain ⟨path,member,rfl⟩ := List.mem_map.mp header
      exact .inr (.inr (.inl (by rwa [path_lint])))
    · rw [List.mem_singleton.mp own]
      exact .inr (.inr (.inr (.inl (path_file _))))
  · split at force
    · next always =>
      obtain rfl := List.mem_singleton.mp force
      refine .inr ⟨by simp only,rfl,fun d required => ?_⟩
      rw [List.mem_singleton.mp required]
      exact .inr (.inr (.inr (.inr ⟨path_file _,always⟩)))
    · exact absurd force List.not_mem_nil

end Rounds

section Placed

variable {r : Rule} {keys : List Key} {given : String → String → Prop} {headers : List String} {neverLint : Bool}

theorem typeKeys_object {buildType f : String} (source : f ∈ r.input.files.expandedSourceFiles) :
    .object buildType f ∈ r.typeKeys buildType := List.mem_append_left _ (List.mem_map_of_mem source)

theorem typeKeys_last (r : Rule) (buildType : String) :
    .artifact buildType ∈ r.typeKeys buildType ∧ .build buildType ∈ r.typeKeys buildType ∧
      .all buildType ∈ r.typeKeys buildType := by
  simp [Rule.typeKeys]

theorem lintTarget_places (supplied : r.Supplied keys given headers neverLint) (listed : .stamp f ∈ keys) :
    r.Places keys given (r.lintTarget f) (.stamp f) where
  listed := listed
  named := by rw [Rule.lintTarget,Rule.nameOf]
  waits buildType _ d required := by
    simp only [Rule.lintTarget,List.mem_cons,List.not_mem_nil,or_false] at required
    rcases required with rfl | rfl
    · exact .inr (supplied.linted f listed buildType)
    · exact .inr (supplied.makefiles "toolchain.make" (by simp) buildType)
  file _ := rfl
  gathers _ _ other := absurd other (by simp [Key.file])

theorem header_waits (supplied : r.Supplied keys given headers neverLint) (header : path ∈ headers) (k : Key)
    (above : 1 < k.rank) (buildType : String) : ∃ k' ∈ keys, k'.serves buildType = true ∧ r.nameOf k' = path ∧
      k'.rank < k.rank ∧ (k' = .force → r.Always k) := by
  obtain ⟨f,listed,rfl⟩ := supplied.headers path header
  exact ⟨.stamp f,listed,rfl,by rw [Rule.nameOf],above,fun same => by contradiction⟩

theorem addSourceFile_places (supplied : r.Supplied keys given headers neverLint) (inTypes : buildType ∈ r.buildTypes)
    {source : Source} (known : source.filename ∈ r.input.files.expandedSourceFiles)
    (member : t ∈ targets (r.addSourceFile buildType headers neverLint source).1) : ∃ k, r.Places keys given t k := by
  have stamp (lint : neverLint = false) (lints : r.lints source.filename = true) :=
    supplied.stamps lint source.filename known lints
  rcases mem_addSourceFile r headers neverLint member with ⟨rfl,lint,lints⟩ | ⟨named,real,waits⟩
  · exact ⟨_,lintTarget_places supplied (stamp lint lints)⟩
  · refine ⟨.object buildType source.filename,supplied.types buildType inTypes (typeKeys_object known),
      by rw [named,Rule.nameOf],fun bt _ d required => ?_,fun _ => real,fun _ _ other => absurd other (by simp [Key.file])⟩
    rcases waits d required with makefiles | ⟨path,lint,lints⟩ | header | path | ⟨path,always⟩
    · simp only [List.mem_cons,List.not_mem_nil,or_false] at makefiles
      rcases makefiles with path | path
      · exact .inr (path ▸ supplied.makefiles "flags.make" (by simp) bt)
      · exact .inr (path ▸ supplied.makefiles "toolchain.make" (by simp) bt)
    · exact .inl ⟨_,stamp lint lints,rfl,by rw [path,Rule.nameOf],Nat.one_lt_two,fun same => by contradiction⟩
    · exact .inl (header_waits supplied header (.object buildType source.filename) Nat.one_lt_two bt)
    · rcases supplied.sources source.filename known with generated | own
      · exact .inl ⟨_,generated,rfl,by rw [path,Rule.nameOf],Nat.two_pos,fun same => by contradiction⟩
      · exact .inr (path ▸ own bt)
    · exact .inl ⟨_,supplied.force,rfl,by rw [path,Rule.nameOf],Nat.two_pos,fun _ => ⟨_,_,rfl,always⟩⟩

theorem artifactTargets_places (supplied : r.Supplied keys given headers neverLint) (inTypes : buildType ∈ r.buildTypes)
    (member : t ∈ r.artifactTargets buildType headers (r.objects buildType)) :
    r.Places keys given t (.artifact buildType) := by
  have types := supplied.types buildType inTypes
  have object : ∀ path ∈ r.objects buildType, ∃ k' ∈ keys, k'.serves buildType = true ∧ r.nameOf k' = path ∧
      k'.rank < 3 ∧ (k' = .force → r.Always (.artifact buildType)) := by
    intro path member
    obtain ⟨f,source,rfl⟩ := List.mem_map.mp member
    exact ⟨.object buildType f,types (typeKeys_object source),by simp [Key.serves],by rw [Rule.nameOf],
      Nat.lt_succ_self 2,fun same => by contradiction⟩
  have common (extra : List Prerequisite) (given' : ∀ d ∈ extra, given buildType d.path) (d : Prerequisite)
      (required : d ∈ (r.objects buildType).map .file ++ headers.map .lint ++ extra) :
      (∃ k' ∈ keys, k'.serves buildType = true ∧ r.nameOf k' = d.path ∧ k'.rank < 3 ∧
        (k' = .force → r.Always (.artifact buildType))) ∨ given buildType d.path := by
    rcases List.mem_append.mp required with front | last
    · rcases List.mem_append.mp front with own | header
      · obtain ⟨path,member,rfl⟩ := List.mem_map.mp own
        exact .inl (object path member)
      · obtain ⟨path,member,rfl⟩ := List.mem_map.mp header
        exact .inl (header_waits supplied member (.artifact buildType) (Nat.lt_of_sub_eq_succ rfl) buildType)
    · exact .inr (given' d last)
  have made (name : String) (among : name ∈ ["flags.make","toolchain.make","build.make"]) :=
    supplied.makefiles name among buildType
  refine ⟨types (typeKeys_last r buildType).1,?_,?_,fun _ => ?_,fun _ _ other => absurd other (by simp [Key.file])⟩
  · unfold Rule.artifactTargets at member
    cases kind : r.artifact with
    | library =>
      simp only [kind,List.mem_cons,List.not_mem_nil,or_false] at member
      rcases member with rfl | rfl <;> rw [Rule.nameOf]
    | binary dependenciesArtifact depsAndFlags =>
      simp only [kind,List.mem_cons,List.not_mem_nil,or_false] at member
      rw [member,Rule.nameOf]
  · intro bt serves d required
    obtain rfl : buildType = bt := by simpa [Key.serves] using serves
    unfold Rule.artifactTargets at member
    cases kind : r.artifact with
    | library =>
      simp only [kind,List.mem_cons,List.not_mem_nil,or_false] at member
      rcases member with rfl | rfl
      · exact absurd required List.not_mem_nil
      · refine common _ (fun d last => ?_) d required
        simp only [List.mem_cons,List.not_mem_nil,or_false] at last
        rcases last with rfl | rfl | rfl
        · exact made "build.make" (by simp)
        · exact made "toolchain.make" (by simp)
        · exact made "flags.make" (by simp)
    | binary dependenciesArtifact depsAndFlags =>
      simp only [kind,List.mem_cons,List.not_mem_nil,or_false] at member
      rw [member] at required
      rw [List.append_assoc (_ ++ _)] at required
      refine common _ (fun d last => ?_) d required
      rcases List.mem_append.mp last with below | own
      · obtain ⟨path,member,rfl⟩ := List.mem_map.mp below
        exact supplied.artifacts _ _ kind buildType path member
      · rw [List.mem_singleton.mp own]
        exact made "build.make" (by simp)
  · unfold Rule.artifactTargets at member
    cases kind : r.artifact with
    | library =>
      simp only [kind,List.mem_cons,List.not_mem_nil,or_false] at member
      rcases member with rfl | rfl <;> rfl
    | binary dependenciesArtifact depsAndFlags =>
      simp only [kind,List.mem_cons,List.not_mem_nil,or_false] at member
      rw [member]

theorem buildTypeTargets_places (supplied : r.Supplied keys given headers neverLint) (inTypes : buildType ∈ r.buildTypes)
    (member : t ∈ r.buildTypeTargets buildType) : ∃ k, r.Places keys given t k := by
  have types := supplied.types buildType inTypes
  obtain ⟨artifact,build,all⟩ := typeKeys_last r buildType
  simp only [Rule.buildTypeTargets,List.mem_cons,List.not_mem_nil,or_false] at member
  rcases member with rfl | rfl
  · refine ⟨.build buildType,types build,by rw [Rule.nameOf],fun bt serves d required => ?_,
      fun file => absurd file (by simp [Key.file]),fun _ _ _ => rfl⟩
    obtain rfl : buildType = bt := by simpa [Key.serves] using serves
    rw [List.mem_singleton.mp required]
    exact .inl ⟨.artifact buildType,types artifact,by simp [Key.serves],by rw [Rule.nameOf,path_file],Nat.lt_succ_self 3,
      fun same => by contradiction⟩
  · refine ⟨.all buildType,types all,by rw [Rule.nameOf],fun bt serves d required => ?_,
      fun file => absurd file (by simp [Key.file]),fun _ _ _ => rfl⟩
    obtain rfl : buildType = bt := by simpa [Key.serves] using serves
    rw [List.mem_singleton.mp required]
    exact .inl ⟨.build buildType,types build,by simp [Key.serves],by rw [Rule.nameOf,path_file],Nat.lt_succ_self 4,
      fun same => by contradiction⟩

theorem generateBuildTypes_places (supplied : r.Supplied keys given headers neverLint) {sources : List Source}
    (all : filenames sources = r.input.files.expandedSourceFiles)
    (member : t ∈ targets (r.generateBuildTypes headers neverLint r.buildTypes sources).1) :
    ∃ k, r.Places keys given t k := by
  obtain ⟨buildType,inTypes,marked,same,inside⟩ := mem_rounds r headers neverLint member
  rw [Rule.round,same,all] at inside
  rcases List.mem_append.mp inside with compiled | linked
  · obtain ⟨source,inMarked,own⟩ := (mem_addSourceFiles r headers neverLint).mp compiled
    have known : source.filename ∈ r.input.files.expandedSourceFiles := by
      rw [← all,← same]
      exact List.mem_map_of_mem inMarked
    exact addSourceFile_places supplied inTypes known own
  · rcases List.mem_append.mp linked with artifact | last
    · exact ⟨_,artifactTargets_places supplied inTypes artifact⟩
    · exact buildTypeTargets_places supplied inTypes last

theorem other_places (r : Rule) (given : String → String → Prop) (named : t.name = name) (listed : .other name ∈ keys) :
    r.Places keys given t (.other name) where
  listed := listed
  named := by rw [named,Rule.nameOf]
  waits _ serves := absurd serves (by simp [Key.serves])
  file file := absurd file (by simp [Key.file])
  gathers _ serves := absurd serves (by simp [Key.serves])

end Placed

section Made

variable (r : Rule) (headers : List String) (neverLint : Bool)

def Target.makes (path : String) (t : Target) : Prop := t.name = path ∧ t.cmds ≠ [] ∧ t.phony = false

theorem compileTarget_makes (buildType f : String) (command : CustomCommandLine) :
    (r.compileTarget buildType f headers command).makes (objectPath r.input buildType f) :=
  ⟨by rw [Rule.compileTarget],by simp [Rule.compileTarget],rfl⟩

theorem lintTarget_makes (f : String) : (r.lintTarget f).makes (lintPath r.input f) :=
  ⟨by rw [Rule.lintTarget],by simp [Rule.lintTarget],rfl⟩

theorem compiled_target (buildType : String) (known : r.known f = true) :
    ∃ command, r.compileTarget buildType f headers command ∈ r.compiled headers buildType f := by
  unfold Rule.known isSourceFile at known
  unfold Rule.compiled
  by_cases cpp : isCppSourceFile (fullQualifiedPath r.input f) = true
  · rw [if_pos cpp]
    exact ⟨_,List.mem_singleton.mpr rfl⟩
  · have c : isCSourceFile (fullQualifiedPath r.input f) = true := by simpa [cpp] using known
    rw [if_neg cpp,if_pos c]
    exact ⟨_,List.mem_singleton.mpr rfl⟩

variable {buildTypes : List String} {sources : List Source}

theorem object_target (inTypes : buildType ∈ buildTypes) (source : f ∈ filenames sources) (known : r.known f = true) :
    ∃ command, r.compileTarget buildType f headers command ∈
      targets (r.generateBuildTypes headers neverLint buildTypes sources).1 := by
  obtain ⟨marked,same,inside⟩ := round_mem r headers neverLint sources inTypes
  rw [← same] at source
  obtain ⟨own,member,rfl⟩ := List.mem_map.mp source
  obtain ⟨command,compiled⟩ := compiled_target r headers buildType known
  refine ⟨command,inside (List.mem_append_left _ ((mem_addSourceFiles r headers neverLint).mpr ⟨own,member,?_⟩))⟩
  simp only [Rule.addSourceFile,targets_append,List.mem_append,addSourceFileCommands_targets]
  exact .inl (.inr (List.mem_cons_of_mem _ compiled))

theorem object_made (inTypes : buildType ∈ buildTypes) (source : f ∈ filenames sources) (known : r.known f = true) :
    ∃ t ∈ targets (r.generateBuildTypes headers neverLint buildTypes sources).1,
      t.makes (objectPath r.input buildType f) := by
  obtain ⟨command,member⟩ := object_target r headers neverLint inTypes source known
  exact ⟨_,member,compileTarget_makes r headers buildType f command⟩

def Rule.parts (r : Rule) (buildType : String) (objects : List String) : List String :=
  objects ++ match r.artifact with
    | .library => []
    | .binary dependenciesArtifact _ => dependenciesArtifact buildType

theorem artifact_target (inTypes : buildType ∈ buildTypes) :
    ∃ t ∈ targets (r.generateBuildTypes headers neverLint buildTypes sources).1, t.makes (r.artifactPath buildType) ∧
      ∀ d ∈ r.parts buildType ((filenames sources).map (objectPath r.input buildType)), .file d ∈ t.deps := by
  obtain ⟨marked,same,inside⟩ := round_mem r headers neverLint sources inTypes
  rw [← same]
  have some : ∃ t ∈ r.artifactTargets buildType headers ((filenames marked).map (objectPath r.input buildType)),
      t.makes (r.artifactPath buildType) ∧
        ∀ d ∈ r.parts buildType ((filenames marked).map (objectPath r.input buildType)), .file d ∈ t.deps := by
    unfold Rule.artifactTargets Rule.parts
    cases r.artifact with
    | library =>
      refine ⟨_,List.mem_cons_of_mem _ List.mem_cons_self,⟨rfl,List.cons_ne_nil _ _,rfl⟩,fun d part => ?_⟩
      rw [List.append_nil] at part
      exact List.mem_append_left _ (List.mem_append_left _ (List.mem_map_of_mem part))
    | binary =>
      refine ⟨_,List.mem_cons_self,⟨rfl,List.cons_ne_nil _ _,rfl⟩,fun d part => ?_⟩
      rcases List.mem_append.mp part with object | below
      · exact List.mem_append_left _ (List.mem_append_left _ (List.mem_append_left _ (List.mem_map_of_mem object)))
      · exact List.mem_append_left _ (List.mem_append_right _ (List.mem_map_of_mem below))
  obtain ⟨t,member,makes⟩ := some
  exact ⟨t,inside (List.mem_append_right _ (List.mem_append_left _ member)),makes⟩

theorem artifact_made (inTypes : buildType ∈ buildTypes) :
    ∃ t ∈ targets (r.generateBuildTypes headers neverLint buildTypes sources).1, t.makes (r.artifactPath buildType) := by
  obtain ⟨t,member,makes,-⟩ := artifact_target r headers neverLint inTypes
  exact ⟨t,member,makes⟩

theorem phony_made (inTypes : buildType ∈ buildTypes) :
    (∃ t ∈ targets (r.generateBuildTypes headers neverLint buildTypes sources).1,
      t.name = r.nameOf (.build buildType) ∧ t.phony = true) ∧
    ∃ t ∈ targets (r.generateBuildTypes headers neverLint buildTypes sources).1,
      t.name = r.nameOf (.all buildType) ∧ t.phony = true := by
  obtain ⟨marked,-,inside⟩ := round_mem r headers neverLint sources inTypes
  have last : r.buildTypeTargets buildType ⊆ targets (r.generateBuildTypes headers neverLint buildTypes sources).1 :=
    fun t member => inside (List.mem_append_right _ (List.mem_append_right _ member))
  unfold Rule.buildTypeTargets at last
  exact ⟨⟨_,last List.mem_cons_self,by rw [Rule.nameOf],rfl⟩,
    ⟨_,last (List.mem_cons_of_mem _ List.mem_cons_self),by rw [Rule.nameOf],rfl⟩⟩

theorem stamp_made (some : buildTypes ≠ []) (source : ⟨f,false⟩ ∈ sources) (lints : r.lints f = true) :
    ∃ t ∈ targets (r.generateBuildTypes headers false buildTypes sources).1, t.makes (lintPath r.input f) := by
  obtain ⟨first,later,rfl⟩ := List.exists_cons_of_ne_nil some
  obtain ⟨left,-,split⟩ := generateBuildTypes_cons r headers false first later sources
  rw [split]
  refine ⟨r.lintTarget f,List.mem_append_left _ (List.mem_append_left _
    ((mem_addSourceFiles r headers false).mpr ⟨_,source,?_⟩)),lintTarget_makes r f⟩
  have lint : r.inNolint (resolved r.input f) = false := by simpa [Rule.lints] using lints
  simp [Rule.addSourceFile,lint,targets,Statement.toTarget]

end Made

section Assembled

/-- The statements of the build types between other targets. -/
def Rule.assemble (r : Rule) (headers : List String) (neverLint : Bool) (sources : List Source)
    (front back : List Target) : List Target :=
  front ++ (targets (r.generateBuildTypes headers neverLint r.buildTypes sources).1 ++ back)

/-- A makefile put together around the statements of the build types. -/
structure Rule.Assembles (r : Rule) (keys : List Key) (given : String → String → Prop) (headers : List String)
    (neverLint : Bool) (sources : List Source) (front back : List Target) : Prop where
  supplied : r.Supplied keys given headers neverLint
  all : filenames sources = r.input.files.expandedSourceFiles
  known : ∀ f ∈ r.input.files.expandedSourceFiles, r.known f = true
  types : ∀ buildType k, k ∈ keys → k.serves buildType = true → k.rank < 2 ∨ buildType ∈ r.buildTypes ∧
    k ∈ r.typeKeys buildType
  places : ∀ t ∈ front ++ back, ∃ k, r.Places keys given t k
  forced : ∃ t ∈ front ++ back, t.name = "jk_force" ∧ t.phony = true
  made : ∀ k ∈ keys, k ≠ .force → k.rank < 2 → (∀ name, k ≠ .other name) →
    ∃ t ∈ r.assemble headers neverLint sources front back, t.makes (r.nameOf k)
  distinct : (keys.map r.nameOf).Nodup
  fresh : ∀ buildType ∈ r.buildTypes, ∀ d, given buildType d →
    d ∉ (makefile (r.assemble headers neverLint sources front back)).names

variable {r : Rule} {keys : List Key} {given : String → String → Prop} {headers : List String} {neverLint : Bool}
  {sources : List Source} {front back : List Target}

namespace Rule.Assembles

theorem placed (whole : r.Assembles keys given headers neverLint sources front back)
    (member : t ∈ r.assemble headers neverLint sources front back) :
    ∃ k, r.Places keys given t k := by
  rcases List.mem_append.mp member with first | later
  · exact whole.places t (List.mem_append_left _ first)
  · rcases List.mem_append.mp later with middle | last
    · exact generateBuildTypes_places whole.supplied whole.all middle
    · exact whole.places t (List.mem_append_right _ last)

theorem same_key (whole : r.Assembles keys given headers neverLint sources front back) (own : k ∈ keys)
    (other : k' ∈ keys) (same : r.nameOf k = r.nameOf k') : k = k' :=
  List.inj_on_of_nodup_map whole.distinct own other same

/-- What serves a build type is made by a recipe, or gathers what is. -/
theorem target (whole : r.Assembles keys given headers neverLint sources front back) (listed : k ∈ keys)
    (serves : k.serves buildType = true) :
    ∃ t ∈ r.assemble headers neverLint sources front back,
      t.name = r.nameOf k ∧ (t.phony = true ∨ t.makes (r.nameOf k)) := by
  have inner {path : String} (made : ∃ t ∈ targets (r.generateBuildTypes headers neverLint r.buildTypes sources).1,
      t.makes path) : ∃ t ∈ r.assemble headers neverLint sources front back,
      t.name = path ∧ (t.phony = true ∨ t.makes path) := by
    obtain ⟨t,member,makes⟩ := made
    exact ⟨t,List.mem_append_right _ (List.mem_append_left _ member),makes.1,.inr makes⟩
  have gathers {path : String} (made : ∃ t ∈ targets (r.generateBuildTypes headers neverLint r.buildTypes sources).1,
      t.name = path ∧ t.phony = true) :
      ∃ t ∈ r.assemble headers neverLint sources front back,
      t.name = path ∧ (t.phony = true ∨ t.makes path) := by
    obtain ⟨t,member,named,phony⟩ := made
    exact ⟨t,List.mem_append_right _ (List.mem_append_left _ member),named,.inl phony⟩
  rcases whole.types buildType k listed serves with low | ⟨inTypes,own⟩
  · by_cases force : k = .force
    · obtain ⟨t,member,named,phony⟩ := whole.forced
      refine ⟨t,?_,by rw [named,force,Rule.nameOf],.inl phony⟩
      rcases List.mem_append.mp member with first | last
      · exact List.mem_append_left _ first
      · exact List.mem_append_right _ (List.mem_append_right _ last)
    · obtain ⟨t,member,makes⟩ := whole.made k listed force low fun name other => by simp [other,Key.serves] at serves
      exact ⟨t,member,makes.1,.inr makes⟩
  · simp only [Rule.typeKeys,List.mem_append,List.mem_map,List.mem_cons,List.not_mem_nil,or_false] at own
    rcases own with ⟨f,source,rfl⟩ | rfl | rfl | rfl
    · have inSources : f ∈ filenames sources := whole.all ▸ source
      exact inner (object_made r headers neverLint inTypes inSources (whole.known f source))
    · exact inner (artifact_made r headers neverLint inTypes)
    · exact gathers (phony_made r headers neverLint inTypes).1
    · exact gathers (phony_made r headers neverLint inTypes).2

theorem keyed (whole : r.Assembles keys given headers neverLint sources front back) (inTypes : buildType ∈ r.buildTypes) :
    Keyed (makefile (r.assemble headers neverLint sources front back))
      r.nameOf (fun k => k ∈ keys ∧ k.serves buildType = true) Key.rank (given buildType) where
  names k own := by
    obtain ⟨t,member,named,-⟩ := whole.target own.1 own.2
    exact mem_names.mpr ⟨t,member,named⟩
  injective k k' own own' same := congrArg Key.rank (whole.same_key own.1 own'.1 same)
  waits k own d required := by
    obtain ⟨t,member,named,dep,inDeps,rfl⟩ := mem_prerequisites.mp required
    obtain ⟨k',places⟩ := whole.placed member
    obtain rfl := whole.same_key places.listed own.1 (places.named.symm.trans named)
    rcases places.waits buildType own.2 dep inDeps with ⟨k'',listed,serves,path,lower,-⟩ | input
    · exact .inl ⟨k'',⟨listed,serves⟩,path,lower⟩
    · exact .inr ⟨whole.fresh buildType inTypes _ input,input⟩

/-- A build type asks for its archive or binary. -/
theorem asks (inTypes : buildType ∈ r.buildTypes) :
    Reaches (makefile (r.assemble headers neverLint sources front back)).prerequisites buildType
      (r.artifactPath buildType) := by
  obtain ⟨marked,-,inside⟩ := round_mem r headers neverLint sources inTypes
  have last : r.buildTypeTargets buildType ⊆ r.assemble headers neverLint sources front back := fun t member =>
    List.mem_append_right _ (List.mem_append_left _ (inside (List.mem_append_right _ (List.mem_append_right _ member))))
  unfold Rule.buildTypeTargets at last
  have first : sub (sub r.workingFolder buildType) "build" ∈
      (makefile (r.assemble headers neverLint sources front back)).prerequisites buildType :=
    mem_prerequisites.mpr ⟨_,last (List.mem_cons_of_mem _ List.mem_cons_self),rfl,_,List.mem_singleton.mpr rfl,path_file _⟩
  have second : r.artifactPath buildType ∈
      (makefile (r.assemble headers neverLint sources front back)).prerequisites (sub (sub r.workingFolder buildType) "build") :=
    mem_prerequisites.mpr ⟨_,last List.mem_cons_self,rfl,_,List.mem_singleton.mpr rfl,path_file _⟩
  exact .head first (.single second)

/-- The makefile makes a build type from what it is given. -/
theorem makes (whole : r.Assembles keys given headers neverLint sources front back) (inTypes : buildType ∈ r.buildTypes)
    {phony : List String} {writes : String → List String} {inputs : List String}
    (phonies : ∀ t ∈ r.assemble headers neverLint sources front back, t.phony = true → t.name ∈ phony)
    (own : ∀ u, (∃ t ∈ r.assemble headers neverLint sources front back, t.makes u) → u ∈ writes u)
    (named : ∀ k ∈ keys, k.serves buildType = true → ∀ d ∈ writes (r.nameOf k),
      d ∈ (makefile (r.assemble headers neverLint sources front back)).names)
    (once : ∀ k ∈ keys, ∀ k' ∈ keys, k.serves buildType = true → k'.serves buildType = true →
      ∀ d ∈ writes (r.nameOf k), d ∈ writes (r.nameOf k') → k = k')
    (supply : ∀ d, given buildType d → d ∈ inputs) :
    Makes (makefile (r.assemble headers neverLint sources front back)) buildType phony writes inputs
      [r.artifactPath buildType] := by
  have keyed := whole.keyed inTypes
  have types := whole.supplied.types buildType inTypes
  obtain ⟨artifact,-,all⟩ := typeKeys_last r buildType
  have goal : Key.all buildType ∈ keys ∧ (Key.all buildType).serves buildType = true :=
    ⟨types all,by simp [Key.serves]⟩
  have goalName : r.nameOf (.all buildType) = buildType := by rw [Rule.nameOf]
  have made (k : Key) (listed : k ∈ keys ∧ k.serves buildType = true) (meant : r.nameOf k ∉ phony) :
      r.nameOf k ∈ writes (r.nameOf k) := by
    obtain ⟨t,member,same,isPhony | makes⟩ := whole.target listed.1 listed.2
    · exact absurd (same ▸ phonies t member isPhony) meant
    · exact own _ ⟨t,member,makes⟩
  have wanted {u : String} (asked : Wanted (makefile (r.assemble headers neverLint sources front back)) buildType u) :
      ∃ k, (k ∈ keys ∧ k.serves buildType = true) ∧ r.nameOf k = u :=
    keyed.wanted goal (goalName.symm ▸ asked)
  refine ⟨?_,?_,?_,?_,?_,?_,?_⟩
  · exact goalName ▸ keyed.names _ goal
  · exact goalName ▸ keyed.acyclic goal
  · intro d path leaf
    exact supply d (keyed.leaves goal (goalName.symm ▸ path) leaf)
  · intro d asked meant
    obtain ⟨k,listed,rfl⟩ := wanted asked
    exact ⟨_,asked.2,.refl _ _,made k listed meant⟩
  · intro u asked d written
    obtain ⟨k,listed,rfl⟩ := wanted asked
    exact named k listed.1 listed.2 d written
  · intro u v d asked asked' written written'
    obtain ⟨k,listed,rfl⟩ := wanted asked
    obtain ⟨k',listed',rfl⟩ := wanted asked'
    rw [once k listed.1 k' listed'.1 listed.2 listed'.2 d written written']
  · intro d exported
    obtain rfl := List.mem_singleton.mp exported
    have listed : Key.artifact buildType ∈ keys ∧ (Key.artifact buildType).serves buildType = true :=
      ⟨types artifact,by simp [Key.serves]⟩
    have made : ∃ t ∈ targets (r.generateBuildTypes headers neverLint r.buildTypes sources).1,
        t.makes (r.artifactPath buildType) := artifact_made r headers neverLint inTypes
    obtain ⟨t,member,makes⟩ := made
    have inside : t ∈ r.assemble headers neverLint sources front back :=
      List.mem_append_right _ (List.mem_append_left _ member)
    exact ⟨_,⟨asks inTypes,mem_names.mpr ⟨t,inside,makes.1⟩⟩,own _ ⟨t,inside,makes⟩⟩

theorem real (whole : r.Assembles keys given headers neverLint sources front back) (listed : k ∈ keys) (file : k.file = true)
    (member : t ∈ r.assemble headers neverLint sources front back) (named : t.name = r.nameOf k) : t.phony = false := by
  obtain ⟨k',places⟩ := whole.placed member
  obtain rfl := whole.same_key places.listed listed (places.named.symm.trans named)
  exact places.file file

theorem recipe (whole : r.Assembles keys given headers neverLint sources front back) (listed : k ∈ keys)
    (serves : k.serves buildType = true) (file : k.file = true) :
    ∃ t ∈ r.assemble headers neverLint sources front back, t.makes (r.nameOf k) := by
  obtain ⟨t,member,named,phony | makes⟩ := whole.target listed serves
  · rw [whole.real listed file member named] at phony
    contradiction
  · exact ⟨t,member,makes⟩

theorem file_of_recipe (whole : r.Assembles keys given headers neverLint sources front back) (listed : k ∈ keys)
    (serves : k.serves buildType = true) (member : t ∈ r.assemble headers neverLint sources front back)
    (makes : t.makes (r.nameOf k)) : k.file = true := by
  obtain ⟨k',places⟩ := whole.placed member
  obtain rfl := whole.same_key places.listed listed (places.named.symm.trans makes.1)
  by_contra gathers
  exact makes.2.1 (places.gathers buildType serves (by simpa using gathers))

theorem waits_file (whole : r.Assembles keys given headers neverLint sources front back) (inTypes : buildType ∈ r.buildTypes)
    (listed : k ∈ keys) (serves : k.serves buildType = true) (file : k.file = true)
    (edge : d ∈ (makefile (r.assemble headers neverLint sources front back)).prerequisites (r.nameOf k))
    (ruled : d ∈ (makefile (r.assemble headers neverLint sources front back)).names) :
    (∃ k' ∈ keys, k'.serves buildType = true ∧ r.nameOf k' = d ∧ k'.file = true) ∨ (d = "jk_force" ∧ r.Always k) := by
  obtain ⟨t,member,named,dep,inDeps,rfl⟩ := mem_prerequisites.mp edge
  obtain ⟨k',places⟩ := whole.placed member
  obtain rfl := whole.same_key places.listed listed (places.named.symm.trans named)
  rcases places.waits buildType serves dep inDeps with ⟨k'',listed',serves',path,lower,always⟩ | input
  · cases k'' with
    | other name => simp [Key.serves] at serves'
    | force => exact .inr ⟨path.symm.trans (by rw [Rule.nameOf]),always rfl⟩
    | build bt | all bt => cases k' <;> simp [Key.file,Key.rank] at file lower
    | generated | stamp | object | artifact => exact .inl ⟨_,listed',serves',path,rfl⟩
  · exact absurd ruled (whole.fresh buildType inTypes _ input)

theorem solid (whole : r.Assembles keys given headers neverLint sources front back) (inTypes : buildType ∈ r.buildTypes)
    {phony : List String} {writes : String → List String}
    (phonies : ∀ d ∈ phony, ∃ t ∈ r.assemble headers neverLint sources front back, t.phony = true ∧ t.name = d)
    (forced : "jk_force" ∈ phony)
    (own : ∀ u, (∃ t ∈ r.assemble headers neverLint sources front back, t.makes u) → u ∈ writes u)
    (only : ∀ u, ∀ d ∈ writes u, ∃ t ∈ r.assemble headers neverLint sources front back, t.makes u) :
    Solid (makefile (r.assemble headers neverLint sources front back)) buildType phony writes
      (fun u => ∃ k, r.Always k ∧ r.nameOf k = u) := by
  have keyed := whole.keyed inTypes
  have goal : Key.all buildType ∈ keys ∧ (Key.all buildType).serves buildType = true :=
    ⟨whole.supplied.types buildType inTypes (typeKeys_last r buildType).2.2,by simp [Key.serves]⟩
  have goalName : r.nameOf (.all buildType) = buildType := by rw [Rule.nameOf]
  have wanted {u : String} (asked : Wanted (makefile (r.assemble headers neverLint sources front back)) buildType u)
      (writes' : u ∈ writes u) : ∃ k ∈ keys, k.serves buildType = true ∧ k.file = true ∧ r.nameOf k = u := by
    obtain ⟨k,listed,rfl⟩ := keyed.wanted goal (goalName.symm ▸ asked)
    obtain ⟨t,member,makes⟩ := only _ _ writes'
    exact ⟨k,listed.1,listed.2,whole.file_of_recipe listed.1 listed.2 member makes,rfl⟩
  refine ⟨fun u _ d written => own u (only u d written),fun u asked written phony => ?_,
    fun u asked written e edge ruled => ?_⟩
  · obtain ⟨k,listed,-,file,rfl⟩ := wanted asked written
    obtain ⟨t,member,marked,named⟩ := phonies _ phony
    rw [whole.real listed file member named] at marked
    contradiction
  · obtain ⟨k,listed,serves,file,rfl⟩ := wanted asked written
    rcases whole.waits_file inTypes listed serves file edge ruled with ⟨k',listed',serves',rfl,file'⟩ | ⟨rfl,always⟩
    · exact .inl (own _ (whole.recipe listed' serves' file'))
    · exact .inr ⟨forced,k,always,rfl⟩

end Rule.Assembles

end Assembled

end JkBuild.BuildMakefile
