import JkBuild.BuildMakefile

/-! That all a `build.make` waits for can be made: an object by one recipe that compiles it, a
lint stamp by one recipe that lints its file. -/
namespace JkBuild.BuildMakefile

open Preparation SourceFile
open CompilationDatabase hiding objectPath

def Target.defines (path : String) (t : Target) : Bool := t.name = path && !t.cmds.isEmpty

def isCompiler (command : CustomCommandLine) : Bool :=
  command.head? = some "@$(CXX)" || command.head? = some "@$(CC)"

def Target.compiles (path : String) (t : Target) : Bool := t.name = path && t.cmds.any isCompiler

namespace Rule

variable (r : Rule)

def known (filename : String) : Bool := isSourceFile (fullQualifiedPath r.input filename)

def lints (filename : String) : Bool := !r.inNolint (resolved r.input filename)

def objects (buildType : String) : List String := r.input.files.expandedSourceFiles.map (objectPath r.input buildType)

def linted : List String := (r.input.files.expandedHeaderFiles ++ r.input.files.expandedSourceFiles).filter r.lints

/-- Every object and every lint stamp has one recipe, and what is in nolint.txt is not linted. -/
structure Buildable : Prop where
  listed : ∀ buildType ∈ r.buildTypes, ∃ t ∈ targets r.generateBuildFile, t.name = r.artifactPath buildType ∧
    r.artifactCommand buildType (r.objects buildType) ∈ t.cmds
  objects : ∀ buildType ∈ r.buildTypes, ∀ object ∈ r.objects buildType,
    (targets r.generateBuildFile).countP (Target.compiles object) = 1
  lints : ∀ t ∈ targets r.generateBuildFile, ∀ path, .lint path ∈ t.deps →
    (targets r.generateBuildFile).countP (Target.defines path) = 1
  nolint : ∀ filename, resolved r.input filename ∈ r.input.files.nolintFiles →
    ∀ t ∈ targets r.generateBuildFile, ["@$(CPPLINT)",resolved r.input filename,">/dev/null"] ∉ t.cmds

/-- Every source has a known extension, and no two of the files a recipe writes are one. -/
structure Consistent : Prop where
  known : ∀ filename ∈ r.input.files.expandedSourceFiles, r.known filename = true
  objects : (r.buildTypes.flatMap r.objects).Nodup
  lints : (r.linted.map (lintPath r.input)).Nodup
  artifact : ∀ buildType ∈ r.buildTypes, r.artifactPath buildType ∉ r.linted.map (lintPath r.input)

end Rule

section Names

variable (r : Rule)

theorem filename_objectPath (buildType filename : String) : JkBuild.filename (objectPath r.input buildType filename) =
    JkBuild.filename (fullQualifiedPath r.input filename) ++ ".o" := by
  rw [objectPath,filename_below,filename_withSuffix _ (by decide)]

theorem filename_lintPath (filename : String) : JkBuild.filename (lintPath r.input filename) =
    JkBuild.filename (fullQualifiedPath r.input filename) ++ ".lint" := by
  rw [lintPath,filename_below,filename_withSuffix _ (by decide)]

theorem getLast_append (name : String) {suffix : String} (last : suffix.toList.getLast? = some ch) :
    (name ++ suffix).toList.getLast? = some ch := by
  rw [String.toList_append,List.getLast?_append,last]
  rfl

theorem lintPath_last (f : String) : (JkBuild.filename (lintPath r.input f)).toList.getLast? = some 't' := by
  rw [filename_lintPath]
  exact getLast_append _ rfl

theorem lintPath_ne_objectPath (f buildType g : String) : lintPath r.input f ≠ objectPath r.input buildType g := by
  intro same
  have last := lintPath_last r f
  have other : (JkBuild.filename (objectPath r.input buildType g)).toList.getLast? = some 'o' := by
    rw [filename_objectPath]
    exact getLast_append _ rfl
  rw [same,other] at last
  simp at last

theorem lintPath_ne_clean (f : String) : lintPath r.input f ≠ "clean" := by
  intro same
  have last := lintPath_last r f
  have other : (JkBuild.filename "clean").toList.getLast? = some 'n' := by decide
  rw [same,other] at last
  simp at last

theorem known_of_object {buildType buildType' f g : String}
    (same : objectPath r.input buildType f = objectPath r.input buildType' g) : r.known f = r.known g := by
  have names := congrArg JkBuild.filename same
  rw [filename_objectPath,filename_objectPath] at names
  have extensions := extension_of_filename ((String.append_left_inj ".o").mp names)
  simp only [Rule.known,isSourceFile,isCSourceFile,isCppSourceFile,extensions]

end Names

section Recipes

def recipes (statements : List Statement) : List Target := (targets statements).filter fun t => !t.cmds.isEmpty

@[simp] theorem targets_append (first second : List Statement) :
    targets (first ++ second) = targets first ++ targets second := List.filterMap_append

@[simp] theorem targets_map (ts : List Target) : targets (ts.map .target) = ts := by
  induction ts with
  | nil => rfl
  | cons t ts ih => simpa [targets,Statement.toTarget] using ih

@[simp] theorem recipes_append (first second : List Statement) :
    recipes (first ++ second) = recipes first ++ recipes second := by
  simp [recipes]

@[simp] theorem recipes_flatMap (xs : List α) (f : α → List Statement) :
    recipes (xs.flatMap f) = xs.flatMap fun x => recipes (f x) := by
  induction xs with
  | nil => rfl
  | cons x xs ih => rw [List.flatMap_cons,recipes_append,ih,List.flatMap_cons]

theorem recipes_map (ts : List Target) : recipes (ts.map .target) = ts.filter fun t => !t.cmds.isEmpty := by
  rw [recipes,targets_map]

variable (r : Rule)

def Rule.compiled (headers : List String) (buildType filename : String) : List Target :=
  if isCppSourceFile (fullQualifiedPath r.input filename) then
    [r.compileTarget buildType filename headers (r.buildCommand buildType filename "CXX" "CXXFLAGS" "_CXXFLAGS")]
  else if isCSourceFile (fullQualifiedPath r.input filename) then
    [r.compileTarget buildType filename headers (r.buildCommand buildType filename "CC" "CFLAGS" "_CFLAGS")]
  else []

def Rule.stamped (filename : String) : List Target := if r.lints filename then [r.lintTarget filename] else []

def Rule.linking (headers : List String) (buildType : String) : List Target :=
  (r.artifactTargets buildType headers (r.objects buildType)).filter fun t => !t.cmds.isEmpty

theorem addSourceFileCommands_recipes (headers : List String) (buildType filename : String) (neverLint : Bool) :
    recipes (r.addSourceFileCommands buildType filename headers neverLint) = r.compiled headers buildType filename := by
  unfold Rule.addSourceFileCommands Rule.compiled
  split
  · rfl
  · split <;> rfl

/-- What is written for a file: its stamp the first time, and its object if it compiles. -/
theorem addSourceFile_recipes (headers : List String) (buildType filename : String) (mark : Bool) :
    recipes (r.addSourceFile buildType headers false ⟨filename,mark⟩).1 =
      (if mark then [] else r.stamped filename) ++ r.compiled headers buildType filename := by
  have force : recipes (if resolved r.input filename ∈ r.input.files.expandedAlwaysCompileFiles then
      [.target ⟨objectPath r.input buildType filename,[.file "jk_force"],[],false⟩] else []) = [] := by
    split <;> rfl
  simp only [Rule.addSourceFile,recipes_append,addSourceFileCommands_recipes]
  rw [force,List.append_nil]
  congr 1
  cases mark with
  | true => rfl
  | false =>
    unfold Rule.stamped Rule.lints
    cases r.inNolint (resolved r.input filename) <;> rfl

theorem addSourceFile_left (headers : List String) (buildType filename : String) (mark : Bool) :
    (r.addSourceFile buildType headers false ⟨filename,mark⟩).2 = ⟨filename,true⟩ := by
  cases mark <;> rfl

theorem addSourceFilesCommands_recipes (headers : List String) (buildType : String) (files : List String)
    (mark : Bool) : recipes (r.addSourceFilesCommands buildType headers false (files.map (⟨·,mark⟩))).1 =
      files.flatMap fun filename =>
        (if mark then [] else r.stamped filename) ++ r.compiled headers buildType filename := by
  simp only [Rule.addSourceFilesCommands,recipes_flatMap,List.flatMap_map,List.map_map,Function.comp_def,
    addSourceFile_recipes]

theorem addSourceFilesCommands_left (headers : List String) (buildType : String) (files : List String) (mark : Bool) :
    (r.addSourceFilesCommands buildType headers false (files.map (⟨·,mark⟩))).2.1 = files.map (⟨·,true⟩) := by
  simp only [Rule.addSourceFilesCommands,List.map_map,Function.comp_def,addSourceFile_left]

theorem addSourceFilesCommands_objects (headers : List String) (buildType : String) (mark : Bool) :
    (r.addSourceFilesCommands buildType headers false (r.input.files.expandedSourceFiles.map (⟨·,mark⟩))).2.2 =
      r.objects buildType := by
  simp only [Rule.addSourceFilesCommands,List.map_map,Function.comp_def]
  rfl

theorem artifact_recipes (headers : List String) (buildType : String) :
    recipes ((r.artifactTargets buildType headers (r.objects buildType) ++ r.buildTypeTargets buildType).map .target) =
      r.linking headers buildType := by
  rw [recipes_map,List.filter_append]
  have none : (r.buildTypeTargets buildType).filter (fun t => !t.cmds.isEmpty) = [] := by rfl
  rw [none,List.append_nil]
  rfl

/-- The recipes of the build types: stamps with the first of them, then objects and what is
linked, for each. -/
theorem buildTypes_recipes (headers : List String) (buildTypes : List String) (mark : Bool) :
    (recipes (r.generateBuildTypes headers false buildTypes
        (r.input.files.expandedSourceFiles.map (⟨·,mark⟩))).1).Perm
      ((if mark || buildTypes.isEmpty then [] else r.input.files.expandedSourceFiles.flatMap r.stamped) ++
        (buildTypes.flatMap (fun buildType => r.input.files.expandedSourceFiles.flatMap (r.compiled headers buildType)) ++
          buildTypes.flatMap (r.linking headers))) := by
  induction buildTypes generalizing mark with
  | nil => simp [Rule.generateBuildTypes,recipes,targets]
  | cons buildType buildTypes ih =>
    simp only [Rule.generateBuildTypes,recipes_append,addSourceFilesCommands_recipes,addSourceFilesCommands_left,
      addSourceFilesCommands_objects,artifact_recipes]
    apply List.perm_iff_count.mpr
    intro t
    have later := (ih true).count_eq t
    have split := (List.flatMap_append_perm r.input.files.expandedSourceFiles
      (fun filename => if mark then [] else r.stamped filename) (r.compiled headers buildType)).count_eq t
    have stamps : r.input.files.expandedSourceFiles.flatMap (fun filename => if mark then [] else r.stamped filename) =
        if mark then [] else r.input.files.expandedSourceFiles.flatMap r.stamped := by
      cases mark with
      | true => simp
      | false => rfl
    rw [stamps] at split
    simp only [List.count_append,List.flatMap_cons,Bool.true_or,if_true,List.count_nil,List.isEmpty_cons,
      Bool.or_false] at later split ⊢
    omega

end Recipes

section Spreading

/-- What a list of statements has just when a part of it has. -/
structure Spreads (P : List Statement → Prop) : Prop where
  nil : ¬P []
  append : ∀ first second, P (first ++ second) ↔ P first ∨ P second

theorem Spreads.flatMap {P : List Statement → Prop} (spreads : Spreads P) (xs : List α) (f : α → List Statement) :
    P (xs.flatMap f) ↔ ∃ x ∈ xs, P (f x) := by
  induction xs with
  | nil => simp [spreads.nil]
  | cons x xs ih => rw [List.flatMap_cons,spreads.append,ih,List.exists_mem_cons_iff]

/-- The statements of the build types have what those of a source have, or those of a link:
the first build type already shows it, the others repeat it. -/
theorem Spreads.buildTypes {P : List Statement → Prop} (spreads : Spreads P) (r : Rule) (headers : List String)
    {own : String → Prop} {linked : Prop}
    (source : ∀ buildType filename mark, P (r.addSourceFile buildType headers false ⟨filename,mark⟩).1 ↔ own filename)
    (link : ∀ buildType objects, P ((r.artifactTargets buildType headers objects ++
      r.buildTypeTargets buildType).map .target) ↔ linked) (buildTypes : List String) (mark : Bool) :
    P (r.generateBuildTypes headers false buildTypes (r.input.files.expandedSourceFiles.map (⟨·,mark⟩))).1 ↔
      buildTypes ≠ [] ∧ ((∃ filename ∈ r.input.files.expandedSourceFiles, own filename) ∨ linked) := by
  induction buildTypes generalizing mark with
  | nil => simp [Rule.generateBuildTypes,spreads.nil]
  | cons buildType buildTypes ih =>
    have sources : P (r.addSourceFilesCommands buildType headers false
        (r.input.files.expandedSourceFiles.map (⟨·,mark⟩))).1 ↔
          ∃ filename ∈ r.input.files.expandedSourceFiles, own filename := by
      simp only [Rule.addSourceFilesCommands,spreads.flatMap,List.mem_map,exists_exists_and_eq_and,source]
    simp only [Rule.generateBuildTypes,spreads.append,sources,link,addSourceFilesCommands_left,ih,ne_eq,
      reduceCtorEq,not_false_eq_true,true_and]
    exact ⟨fun found => found.elim id And.right,.inl⟩

end Spreading

section Waiting

/-- Some target waits for the stamp of this path. -/
def Awaits (path : String) (statements : List Statement) : Prop := ∃ t ∈ targets statements, .lint path ∈ t.deps

theorem awaits_append {path : String} {first second : List Statement} :
    Awaits path (first ++ second) ↔ Awaits path first ∨ Awaits path second := by
  simp only [Awaits,targets_append,List.mem_append,or_and_right,exists_or]

theorem awaits_spreads (path : String) : Spreads (Awaits path) := ⟨by simp [Awaits,targets],fun _ _ => awaits_append⟩

theorem awaits_map {path : String} {ts : List Target} : Awaits path (ts.map .target) ↔
    ∃ t ∈ ts, .lint path ∈ t.deps := by
  rw [Awaits,targets_map]

variable (r : Rule)

theorem awaits_source {path : String} (headers : List String) (buildType filename : String) (mark : Bool) :
    Awaits path (r.addSourceFile buildType headers false ⟨filename,mark⟩).1 ↔
      (r.lints filename = true ∧ lintPath r.input filename = path) ∨ (r.known filename = true ∧ path ∈ headers) := by
  have stamp : ∀ c : Prop, ∀ _ : Decidable c, ¬Awaits path (if c then [.target (r.lintTarget filename)] else []) := by
    intro c _
    split <;> simp [Awaits,targets,Statement.toTarget,Rule.lintTarget]
  have force : ¬Awaits path (if resolved r.input filename ∈ r.input.files.expandedAlwaysCompileFiles then
      [.target ⟨objectPath r.input buildType filename,[.file "jk_force"],[],false⟩] else []) := by
    split <;> simp [Awaits,targets,Statement.toTarget]
  have commands : Awaits path (r.addSourceFileCommands buildType filename headers false) ↔
      (r.lints filename = true ∧ lintPath r.input filename = path) ∨ (r.known filename = true ∧ path ∈ headers) := by
    unfold Rule.addSourceFileCommands Rule.lints Rule.known isSourceFile
    rw [awaits_append]
    refine or_congr ?_ ?_
    · simp [Awaits,targets,Statement.toTarget]
      exact fun _ => eq_comm
    · split
      · next cpp => simp [Awaits,targets,Statement.toTarget,Rule.compileTarget,cpp]
      · split
        · next c => simp [Awaits,targets,Statement.toTarget,Rule.compileTarget,c]
        · next cpp c => simp [Awaits,targets,cpp,c]
  simp only [Rule.addSourceFile,awaits_append,commands]
  simp only [stamp,force,false_or,or_false]

theorem awaits_artifact {path : String} (headers objects : List String) (buildType : String) :
    Awaits path ((r.artifactTargets buildType headers objects ++ r.buildTypeTargets buildType).map .target) ↔
      path ∈ headers := by
  rw [awaits_map]
  unfold Rule.artifactTargets Rule.buildTypeTargets
  cases r.artifact <;> simp

theorem awaits_buildTypes {path : String} (headers : List String) (buildTypes : List String) (mark : Bool) :
    Awaits path (r.generateBuildTypes headers false buildTypes
        (r.input.files.expandedSourceFiles.map (⟨·,mark⟩))).1 ↔
      buildTypes ≠ [] ∧ (path ∈ headers ∨
        ∃ filename ∈ r.input.files.expandedSourceFiles, r.lints filename = true ∧ lintPath r.input filename = path) := by
  rw [(awaits_spreads path).buildTypes r headers
    (fun buildType filename mark => awaits_source r headers buildType filename mark)
    (fun buildType objects => awaits_artifact r headers objects buildType)]
  refine and_congr_right' ?_
  constructor
  · rintro (⟨filename,member,own | ⟨-,header⟩⟩ | header)
    · exact .inr ⟨filename,member,own⟩
    · exact .inl header
    · exact .inl header
  · rintro (header | ⟨filename,member,own⟩)
    · exact .inr header
    · exact .inl ⟨filename,member,.inl own⟩

end Waiting

section Whole

variable (r : Rule)

def Rule.headerStamps : List String := r.lintHeaders.2

/-- The recipes of the file, sorted by what they are for. -/
def Rule.sortedRecipes : List Target :=
  (if r.buildTypes.isEmpty then r.input.files.expandedHeaderFiles.filter r.lints else r.linted).map r.lintTarget ++
    (r.buildTypes.flatMap (fun buildType =>
      r.input.files.expandedSourceFiles.flatMap (r.compiled r.headerStamps buildType)) ++
    r.buildTypes.flatMap (r.linking r.headerStamps))

def Target.IsClean (t : Target) : Prop := t.name = "clean" ∧ ∀ command ∈ t.cmds, command.head? = some "@$(RM)"

theorem clean_heads (headers : List String) (buildTypes : List String) (sources : List Source) :
    ∀ command ∈ (r.generateBuildTypes headers false buildTypes sources).2, command.head? = some "@$(RM)" := by
  induction buildTypes generalizing sources with
  | nil => simp [Rule.generateBuildTypes]
  | cons buildType buildTypes ih =>
    simp only [Rule.generateBuildTypes]
    refine List.forall_mem_append.mpr ⟨?_,ih _⟩
    intro command member
    obtain ⟨path,-,rfl⟩ := List.mem_map.mp member
    rfl

theorem stamped_all (files : List String) : files.flatMap r.stamped = (files.filter r.lints).map r.lintTarget := by
  induction files with
  | nil => rfl
  | cons filename files ih =>
    rw [List.flatMap_cons,ih,Rule.stamped,List.filter_cons]
    split <;> rfl

theorem generate_recipes : ∃ clean : List Target, (∀ t ∈ clean, t.IsClean) ∧
    (recipes r.generateBuildFile).Perm (r.sortedRecipes ++ clean) := by
  have linting : recipes (r.lintHeaders.1.map .target) =
      (r.input.files.expandedHeaderFiles.filter r.lints).map r.lintTarget := by
    rw [recipes_map]
    apply List.filter_eq_self.mpr
    intro t member
    obtain ⟨filename,-,rfl⟩ := List.mem_map.mp member
    rfl
  have heads := clean_heads r r.headerStamps r.buildTypes
    (r.input.files.expandedSourceFiles.map fun filename => ⟨filename,false⟩)
  refine ⟨recipes [.target ⟨"clean",[],(r.generateBuildTypes r.headerStamps false r.buildTypes
    (r.input.files.expandedSourceFiles.map fun filename => ⟨filename,false⟩)).2,true⟩],?_,?_⟩
  · intro t member
    have inside := (List.mem_filter.mp member).1
    obtain rfl := List.mem_singleton.mp inside
    exact ⟨rfl,heads⟩
  · have types := buildTypes_recipes r r.headerStamps r.buildTypes false
    have whole : recipes r.generateBuildFile = (r.input.files.expandedHeaderFiles.filter r.lints).map r.lintTarget ++
        recipes (r.generateBuildTypes r.headerStamps false r.buildTypes
          (r.input.files.expandedSourceFiles.map (⟨·,false⟩))).1 ++
        recipes [.target ⟨"clean",[],(r.generateBuildTypes r.headerStamps false r.buildTypes
          (r.input.files.expandedSourceFiles.map (⟨·,false⟩))).2,true⟩] := by
      simp only [Rule.generateBuildFile,recipes_append,linting]
      rfl
    rw [whole]
    refine List.Perm.append_right _ ?_
    refine (types.append_left _).trans ?_
    rw [stamped_all,← List.append_assoc,Rule.sortedRecipes]
    refine List.Perm.append_right _ ?_
    cases r.buildTypes with
    | nil => simp
    | cons buildType buildTypes => simp [Rule.linted]

theorem awaits_generate {path : String} : Awaits path r.generateBuildFile ↔
    r.buildTypes ≠ [] ∧ path ∈ r.linted.map (lintPath r.input) := by
  have common : ¬Awaits path r.commonStatements := by
    simp [Awaits,targets,Statement.toTarget,Rule.commonStatements]
  have linting : ¬Awaits path (r.lintHeaders.1.map .target) := by
    rw [awaits_map]
    simp [Rule.lintHeaders,Rule.lintTarget]
  have clean : ∀ cmds, ¬Awaits path [.target ⟨"clean",[],cmds,true⟩] := by
    simp [Awaits,targets,Statement.toTarget]
  simp only [Rule.generateBuildFile,awaits_append,common,linting,clean,false_or,or_false]
  rw [awaits_buildTypes]
  refine and_congr_right' ?_
  simp only [Rule.lintHeaders,Rule.linted,List.mem_map,List.mem_filter,List.mem_append]
  constructor
  · rintro (⟨filename,⟨member,own⟩,rfl⟩ | ⟨filename,member,own,rfl⟩)
    · exact ⟨filename,⟨.inl member,own⟩,rfl⟩
    · exact ⟨filename,⟨.inr member,own⟩,rfl⟩
  · rintro ⟨filename,⟨member | member,own⟩,rfl⟩
    · exact .inl ⟨filename,⟨member,own⟩,rfl⟩
    · exact .inr ⟨filename,member,own,rfl⟩

end Whole

section Counting

variable (r : Rule)

def Rule.compiledObjects : List String :=
  r.buildTypes.flatMap fun buildType => (r.input.files.expandedSourceFiles.filter r.known).map (objectPath r.input buildType)

theorem defines_recipes (path : String) (statements : List Statement) :
    (targets statements).countP (Target.defines path) = (recipes statements).countP fun t => t.name = path := by
  rw [recipes,List.countP_filter]
  rfl

theorem compiles_recipes (path : String) (statements : List Statement) :
    (targets statements).countP (Target.compiles path) = (recipes statements).countP (Target.compiles path) := by
  rw [recipes,List.countP_filter]
  apply List.countP_congr
  intro t _
  unfold Target.compiles
  cases t.cmds <;> simp

theorem compiled_names (headers : List String) (buildType filename : String) :
    (r.compiled headers buildType filename).map (·.name) =
      if r.known filename then [objectPath r.input buildType filename] else [] := by
  unfold Rule.compiled Rule.known isSourceFile
  cases isCppSourceFile (fullQualifiedPath r.input filename) <;>
    cases isCSourceFile (fullQualifiedPath r.input filename) <;> simp [Rule.compileTarget]

theorem compileTarget_compiles (headers : List String) (buildType filename : String) {command : CustomCommandLine}
    (compiler : isCompiler command = true) :
    (r.compileTarget buildType filename headers command).cmds.any isCompiler = true := by
  apply List.any_eq_true.mpr
  exact ⟨command,by simp [Rule.compileTarget],compiler⟩

theorem compiled_compiles (headers : List String) (buildType filename : String) :
    ∀ t ∈ r.compiled headers buildType filename, t.cmds.any isCompiler = true := by
  intro t member
  unfold Rule.compiled at member
  split at member
  · obtain rfl := List.mem_singleton.mp member
    exact compileTarget_compiles r headers buildType filename (by simp [isCompiler,Rule.buildCommand])
  · split at member
    · obtain rfl := List.mem_singleton.mp member
      exact compileTarget_compiles r headers buildType filename (by simp [isCompiler,Rule.buildCommand])
    · exact absurd member List.not_mem_nil

theorem lintTarget_plain (filename : String) : (r.lintTarget filename).cmds.any isCompiler = false := by
  simp [Rule.lintTarget,Rule.printStatement,isCompiler]

theorem linking_names (headers : List String) (buildType : String) :
    (r.linking headers buildType).map (·.name) = [r.artifactPath buildType] := by
  unfold Rule.linking Rule.artifactTargets
  cases r.artifact <;> rfl

theorem linking_heads (headers : List String) (buildType : String) : ∀ t ∈ r.linking headers buildType,
    ∀ command ∈ t.cmds, ∃ head, command.head? = some head ∧
      head ∈ ["@$(PRINT)","@$(MKDIR)","-@$(RM)","@$(AR)","@$(LINKER)"] := by
  intro t member command inside
  have made := (List.mem_filter.mp member).1
  unfold Rule.artifactTargets Rule.artifactCommand at made
  cases kind : r.artifact with
  | library =>
    simp only [kind,List.mem_cons,List.not_mem_nil,or_false] at made
    rcases made with rfl | rfl
    · exact absurd inside List.not_mem_nil
    · simp only [List.mem_cons,List.not_mem_nil,or_false] at inside
      rcases inside with rfl | rfl | rfl | rfl <;> simp [Rule.printStatement]
  | binary dependenciesArtifact depsAndFlags =>
    simp only [kind,List.mem_cons,List.not_mem_nil,or_false] at made
    obtain rfl := made
    simp only [List.mem_cons,List.not_mem_nil,or_false] at inside
    rcases inside with rfl | rfl | rfl <;> simp [Rule.printStatement]

theorem linking_plain (headers : List String) (buildType : String) :
    ∀ t ∈ r.linking headers buildType, t.cmds.any isCompiler = false := by
  intro t member
  apply List.any_eq_false.mpr
  intro command inside
  obtain ⟨head,first,among⟩ := linking_heads r headers buildType t member command inside
  simp only [List.mem_cons,List.not_mem_nil,or_false] at among
  rcases among with rfl | rfl | rfl | rfl | rfl <;> simp [isCompiler,first]

theorem compiled_heads (headers : List String) (buildType filename : String) :
    ∀ t ∈ r.compiled headers buildType filename, ∀ command ∈ t.cmds, ∃ head, command.head? = some head ∧
      head ∈ ["@$(PRINT)","@$(MKDIR)","@$(CXX)","@$(CC)"] := by
  intro t member command inside
  unfold Rule.compiled at member
  split at member
  · obtain rfl := List.mem_singleton.mp member
    simp only [Rule.compileTarget,List.mem_cons,List.not_mem_nil,or_false] at inside
    rcases inside with rfl | rfl | rfl <;> simp [Rule.printStatement,Rule.buildCommand]
  · split at member
    · obtain rfl := List.mem_singleton.mp member
      simp only [Rule.compileTarget,List.mem_cons,List.not_mem_nil,or_false] at inside
      rcases inside with rfl | rfl | rfl <;> simp [Rule.printStatement,Rule.buildCommand]
    · exact absurd member List.not_mem_nil

theorem clean_plain {t : Target} (clean : t.IsClean) : t.cmds.any isCompiler = false := by
  apply List.any_eq_false.mpr
  intro command member
  simp [isCompiler,clean.2 command member]

theorem countP_name (path : String) (ts : List Target) :
    (ts.countP fun t => t.name = path) = (ts.map (·.name)).count path := by
  rw [List.count,List.countP_map]
  apply List.countP_congr
  intro t _
  simp

theorem compiledObjects_names (headers : List String) : (r.buildTypes.flatMap fun buildType =>
    r.input.files.expandedSourceFiles.flatMap (r.compiled headers buildType)).map (·.name) = r.compiledObjects := by
  rw [List.map_flatMap,Rule.compiledObjects]
  congr 1
  funext buildType
  rw [List.map_flatMap]
  induction r.input.files.expandedSourceFiles with
  | nil => rfl
  | cons filename files ih =>
    rw [List.flatMap_cons,ih,compiled_names,List.filter_cons]
    split <;> rfl

theorem linking_paths (headers : List String) (buildTypes : List String) :
    (buildTypes.flatMap (r.linking headers)).map (·.name) = buildTypes.map r.artifactPath := by
  induction buildTypes with
  | nil => rfl
  | cons buildType buildTypes ih =>
    rw [List.flatMap_cons,List.map_append,ih,linking_names,List.map_cons,List.singleton_append]

theorem lintTarget_names (files : List String) :
    (files.map r.lintTarget).map (·.name) = files.map (lintPath r.input) := by
  rw [List.map_map]
  apply List.map_congr_left
  intro f _
  simp [Rule.lintTarget]

theorem generate_names : ∃ clean : List String, (∀ name ∈ clean, name = "clean") ∧
    ((recipes r.generateBuildFile).map (·.name)).Perm
      ((if r.buildTypes.isEmpty then r.input.files.expandedHeaderFiles.filter r.lints else r.linted).map
        (lintPath r.input) ++ (r.compiledObjects ++ r.buildTypes.map r.artifactPath) ++ clean) := by
  obtain ⟨clean,isClean,perm⟩ := generate_recipes r
  refine ⟨clean.map (·.name),?_,?_⟩
  · intro name member
    obtain ⟨t,inClean,rfl⟩ := List.mem_map.mp member
    exact (isClean t inClean).1
  · have names := perm.map (·.name)
    rw [Rule.sortedRecipes,List.map_append,List.map_append,List.map_append,lintTarget_names,compiledObjects_names,
      linking_paths] at names
    exact names

theorem defines_stamp (some : r.buildTypes ≠ []) (f : String) :
    (targets r.generateBuildFile).countP (Target.defines (lintPath r.input f)) =
      (r.linted.map (lintPath r.input)).count (lintPath r.input f) +
        (r.buildTypes.map r.artifactPath).count (lintPath r.input f) := by
  obtain ⟨clean,isClean,perm⟩ := generate_names r
  have objects : r.compiledObjects.count (lintPath r.input f) = 0 := by
    apply List.count_eq_zero.mpr
    intro member
    obtain ⟨buildType,-,member⟩ := List.mem_flatMap.mp member
    obtain ⟨g,-,same⟩ := List.mem_map.mp member
    exact lintPath_ne_objectPath r f buildType g same.symm
  have cleaned : clean.count (lintPath r.input f) = 0 := by
    apply List.count_eq_zero.mpr
    intro member
    exact lintPath_ne_clean r f (isClean _ member)
  have counted := perm.count_eq (lintPath r.input f)
  rw [if_neg (by simpa using some),List.count_append,List.count_append,List.count_append,objects,cleaned,
    Nat.zero_add,Nat.add_zero] at counted
  rw [defines_recipes,countP_name,counted]

theorem compiles_object (path : String) :
    (targets r.generateBuildFile).countP (Target.compiles path) = r.compiledObjects.count path := by
  obtain ⟨clean,isClean,perm⟩ := generate_recipes r
  have plain : ∀ ts : List Target, (∀ t ∈ ts, t.cmds.any isCompiler = false) →
      ts.countP (Target.compiles path) = 0 := by
    intro ts all
    apply List.countP_eq_zero.mpr
    intro t member
    simp [Target.compiles,all t member]
  have stamps := plain ((if r.buildTypes.isEmpty then r.input.files.expandedHeaderFiles.filter r.lints else
    r.linted).map r.lintTarget) (by
      intro t member
      obtain ⟨f,-,rfl⟩ := List.mem_map.mp member
      exact lintTarget_plain r f)
  have links := plain (r.buildTypes.flatMap (r.linking r.headerStamps)) (by
    intro t member
    obtain ⟨buildType,-,inside⟩ := List.mem_flatMap.mp member
    exact linking_plain r _ buildType t inside)
  have cleans := plain clean fun t member => clean_plain (isClean t member)
  rw [compiles_recipes,perm.countP_eq,Rule.sortedRecipes,List.countP_append,List.countP_append,List.countP_append,stamps,
    links,cleans,Nat.zero_add,Nat.add_zero,← compiledObjects_names r r.headerStamps,← countP_name]
  apply List.countP_congr
  intro t member
  obtain ⟨buildType,-,member⟩ := List.mem_flatMap.mp member
  obtain ⟨filename,-,inside⟩ := List.mem_flatMap.mp member
  simp [Target.compiles,compiled_compiles r _ buildType filename t inside]

end Counting

section Counts

variable (r : Rule)

/-- The archive and the link command list the objects of all sources. -/
theorem generate_lists : ∀ buildType ∈ r.buildTypes, ∃ t ∈ targets r.generateBuildFile,
    t.name = r.artifactPath buildType ∧ r.artifactCommand buildType (r.objects buildType) ∈ t.cmds := by
  intro buildType member
  obtain ⟨clean,-,perm⟩ := generate_recipes r
  have linked : ∃ t ∈ r.linking r.headerStamps buildType, t.name = r.artifactPath buildType ∧
      r.artifactCommand buildType (r.objects buildType) ∈ t.cmds := by
    unfold Rule.linking Rule.artifactTargets
    cases r.artifact <;> simp
  obtain ⟨t,inLinking,found⟩ := linked
  have inside : t ∈ recipes r.generateBuildFile := by
    apply perm.mem_iff.mpr
    simp only [Rule.sortedRecipes,List.mem_append]
    exact .inl (.inr (.inr (List.mem_flatMap.mpr ⟨buildType,member,inLinking⟩)))
  exact ⟨t,(List.mem_filter.mp inside).1,found⟩

theorem generate_nolint {f : String} (listed : resolved r.input f ∈ r.input.files.nolintFiles) :
    ∀ t ∈ targets r.generateBuildFile, ["@$(CPPLINT)",resolved r.input f,">/dev/null"] ∉ t.cmds := by
  intro t member command
  obtain ⟨clean,isClean,perm⟩ := generate_recipes r
  have inside : t ∈ recipes r.generateBuildFile := by
    apply List.mem_filter.mpr ⟨member,?_⟩
    cases given : t.cmds with
    | nil => rw [given] at command; exact absurd command List.not_mem_nil
    | cons first rest => rfl
  have sorted := perm.mem_iff.mp inside
  simp only [Rule.sortedRecipes,List.mem_append] at sorted
  rcases sorted with (stamp | object | link) | removed
  · obtain ⟨g,inLinted,rfl⟩ := List.mem_map.mp stamp
    have linted : r.lints g = true := by
      split at inLinted
      · exact (List.mem_filter.mp inLinted).2
      · exact (List.mem_filter.mp inLinted).2
    have same : resolved r.input f = resolved r.input g := by
      simpa [Rule.lintTarget,Rule.printStatement] using command
    rw [Rule.lints,Rule.inNolint,← same,decide_eq_true listed] at linted
    simp at linted
  · obtain ⟨buildType,-,object⟩ := List.mem_flatMap.mp object
    obtain ⟨g,-,object⟩ := List.mem_flatMap.mp object
    obtain ⟨head,first,among⟩ := compiled_heads r _ buildType g t object _ command
    obtain rfl := Option.some.inj first
    simp at among
  · obtain ⟨buildType,-,link⟩ := List.mem_flatMap.mp link
    obtain ⟨head,first,among⟩ := linking_heads r _ buildType t link _ command
    obtain rfl := Option.some.inj first
    simp at among
  · have head := (isClean t removed).2 _ command
    simp at head

theorem compiledObjects_known (all : ∀ f ∈ r.input.files.expandedSourceFiles, r.known f = true) :
    r.compiledObjects = r.buildTypes.flatMap r.objects := by
  rw [Rule.compiledObjects,List.filter_eq_self.mpr all]
  rfl

/-- Every object that is listed has one recipe. -/
theorem objects_once : (∀ buildType ∈ r.buildTypes, ∀ object ∈ r.objects buildType,
    (targets r.generateBuildFile).countP (Target.compiles object) = 1) ↔
      (r.buildTypes ≠ [] → ∀ f ∈ r.input.files.expandedSourceFiles, r.known f = true) ∧
        (r.buildTypes.flatMap r.objects).Nodup := by
  simp only [compiles_object]
  constructor
  · intro once
    have known : r.buildTypes ≠ [] → ∀ f ∈ r.input.files.expandedSourceFiles, r.known f = true := by
      intro some f member
      obtain ⟨buildType,first⟩ := List.exists_mem_of_ne_nil _ some
      have counted := once buildType first _ (List.mem_map_of_mem member)
      have listed : objectPath r.input buildType f ∈ r.compiledObjects := by
        apply List.count_pos_iff.mp
        omega
      obtain ⟨other,-,listed⟩ := List.mem_flatMap.mp listed
      obtain ⟨g,inside,same⟩ := List.mem_map.mp listed
      rw [← known_of_object r same]
      exact (List.mem_filter.mp inside).2
    refine ⟨known,?_⟩
    cases types : r.buildTypes with
    | nil => exact List.nodup_nil
    | cons buildType buildTypes =>
      rw [← types]
      have all := known (by rw [types]; exact List.cons_ne_nil _ _)
      rw [← compiledObjects_known r all]
      apply List.nodup_iff_count_eq_one.mpr
      intro object member
      rw [compiledObjects_known r all] at member
      obtain ⟨other,inside,listed⟩ := List.mem_flatMap.mp member
      exact once other inside object listed
  · rintro ⟨known,distinct⟩ buildType member object listed
    rw [compiledObjects_known r (known (List.ne_nil_of_mem member))]
    exact List.count_eq_one_of_mem distinct (List.mem_flatMap.mpr ⟨buildType,member,listed⟩)

/-- Every stamp that is waited for is made once. -/
theorem stamps_once (some : r.buildTypes ≠ []) : (∀ t ∈ targets r.generateBuildFile, ∀ path, .lint path ∈ t.deps →
    (targets r.generateBuildFile).countP (Target.defines path) = 1) ↔
      (r.linted.map (lintPath r.input)).Nodup ∧
        ∀ buildType ∈ r.buildTypes, r.artifactPath buildType ∉ r.linted.map (lintPath r.input) := by
  have waits : (∀ t ∈ targets r.generateBuildFile, ∀ path, .lint path ∈ t.deps →
      (targets r.generateBuildFile).countP (Target.defines path) = 1) ↔
        ∀ path ∈ r.linted.map (lintPath r.input),
          (r.linted.map (lintPath r.input)).count path + (r.buildTypes.map r.artifactPath).count path = 1 := by
    constructor
    · intro once path member
      obtain ⟨t,inside,dep⟩ := (awaits_generate r).mpr ⟨some,member⟩
      obtain ⟨f,-,rfl⟩ := List.mem_map.mp member
      rw [← defines_stamp r some f]
      exact once t inside _ dep
    · intro once t inside path dep
      have member := ((awaits_generate r).mp ⟨t,inside,dep⟩).2
      have counted := once path member
      obtain ⟨f,-,rfl⟩ := List.mem_map.mp member
      rw [defines_stamp r some f,counted]
  rw [waits]
  constructor
  · intro once
    refine ⟨List.nodup_iff_count_eq_one.mpr fun path member => ?_,fun buildType inside member => ?_⟩
    · have counted := once path member
      have positive := List.count_pos_iff.mpr member
      omega
    · have counted := once _ member
      have positive := List.count_pos_iff.mpr member
      have linked := List.count_pos_iff.mpr (List.mem_map_of_mem (f := r.artifactPath) inside)
      omega
  · rintro ⟨distinct,apart⟩ path member
    have stamps := List.count_eq_one_of_mem distinct member
    have links : (r.buildTypes.map r.artifactPath).count path = 0 := by
      apply List.count_eq_zero.mpr
      intro linked
      obtain ⟨buildType,inside,rfl⟩ := List.mem_map.mp linked
      exact apart buildType inside member
    omega

/-- What a `build.make` lists can be made exactly if no source is of an unknown kind and no two
recipes write one file. -/
theorem buildable_iff : r.Buildable ↔ (r.buildTypes ≠ [] → r.Consistent) := by
  constructor
  · intro buildable some
    have objects := (objects_once r).mp buildable.objects
    have stamps := (stamps_once r some).mp buildable.lints
    exact ⟨objects.1 some,objects.2,stamps.1,stamps.2⟩
  · intro consistent
    refine ⟨generate_lists r,?_,?_,fun f listed => generate_nolint r listed⟩
    · apply (objects_once r).mpr
      refine ⟨fun some => (consistent some).known,?_⟩
      cases types : r.buildTypes with
      | nil => exact List.nodup_nil
      | cons buildType buildTypes =>
        rw [← types]
        exact (consistent (by rw [types]; exact List.cons_ne_nil _ _)).objects
    · intro t inside path dep
      have some := ((awaits_generate r).mp ⟨t,inside,dep⟩).1
      exact (stamps_once r some).mpr ⟨(consistent some).lints,(consistent some).artifact⟩ t inside path dep

end Counts

/-- A library with an assembly file and a file of C++. -/
def assembled : Rule where
  input := ⟨sampleSession,usualConfiguration,[],"app",{},{
    workingFolder := "/p/.build/m64/app@lib"
    libraryFileName := "liblib.a"
    expandedSourceFiles := ["a.cc","fast.S"] },{},[]⟩
  name := "lib"
  artifact := .library
  step := fun _ => 0
  steps := fun _ => []

/-- The archive waits for the object of the assembly file, and nothing makes it. -/
theorem assembly_object_missing :
    assembled.objects "DEBUG" =
      ["/p/.build/m64/app@lib/DEBUG/app/a.cc.o","/p/.build/m64/app@lib/DEBUG/app/fast.S.o"] ∧
    assembled.artifactCommand "DEBUG" (assembled.objects "DEBUG") =
      ["@$(AR)","/p/.build/m64/app@lib/DEBUG/liblib.a","/p/.build/m64/app@lib/DEBUG/app/a.cc.o",
        "/p/.build/m64/app@lib/DEBUG/app/fast.S.o"] ∧
    (targets assembled.generateBuildFile).countP (Target.compiles "/p/.build/m64/app@lib/DEBUG/app/fast.S.o") = 0 ∧
    ¬assembled.Buildable := by
  have none : (targets assembled.generateBuildFile).countP
      (Target.compiles "/p/.build/m64/app@lib/DEBUG/app/fast.S.o") = 0 := by decide +kernel
  have listed : "/p/.build/m64/app@lib/DEBUG/app/fast.S.o" ∈ assembled.objects "DEBUG" := by decide +kernel
  refine ⟨by decide +kernel,by decide +kernel,none,fun buildable => ?_⟩
  have once := buildable.objects "DEBUG" (by decide) _ listed
  omega

end JkBuild.BuildMakefile
