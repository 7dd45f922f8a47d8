import JkBuild.MakeGraph
import JkBuild.MakefileText
import JkBuild.ProjectRoot
import JkBuild.RootKeys
import JkBuild.RuleMakefiles

/-! What the compilers ask of a makefile, call by call, and what make has of it in the end: the
targets of `RuleMakefiles`. -/
namespace JkBuild.MakefileCalls

open MakefileText CommandLines RuleMakefiles BuildMakefile Preparation SourceFile MakeSyntax
open CompilationDatabase (Input Variables SetOrder generateFlagFile generateToolchainFile)

/-- What the session and the configuration add to the makefiles. A hash set is read in some order. -/
structure Setting where
  jkPath : String
  platform : TargetPlatform
  ldFlags : List String
  debugLdFlagsExtra : List String
  releaseLdFlagsExtra : List String
  profilingLdFlagsExtra : List String
  order : SetOrder

section Calls

def strJoin (parts : List String) (separator : String) : String := String.intercalate separator parts

def env (key value comment : String) : MakefileText.Call := .env key.toList value.toList comment.toList

def remark (parts : List String) : MakefileText.Call := .comments (parts.map String.toList)

def including (filename comment : String) (fatal : Bool) : MakefileText.Call :=
  .includes filename.toList comment.toList fatal

/-- The redirection of the linter is the one argument of all that is not escaped. -/
def command (args : BuildMakefile.CustomCommandLine) : List CustomArgument :=
  args.map fun a => ⟨a.toList,decide (a = ">/dev/null" ∧ args.head? = some "@$(CPPLINT)")⟩

def target (comment : String) (t : BuildMakefile.Target) : MakefileText.Call :=
  .target t.name.toList (t.deps.map (·.path.toList)) (t.cmds.map command) comment.toList t.phony

def statement : Statement → MakefileText.Call
  | .including filename fatal => including filename "" fatal
  | .target t => target "" t

def commonVariables (jkPath projectRoot buildRoot : String) (platform : TargetPlatform) : List MakefileText.Call :=
  [env "SHELL" "/bin/bash" "The shell in which to execute make rules.",
    env "JK_COMMAND" jkPath "The command Jk executable.",
    env "JK_SOURCE_DIR" projectRoot "The top-level source directory on which Jk was run.",
    env "JK_BINARY_DIR" buildRoot "The top-level build directory on which Jk was run.",
    env "JK_BUNDLE_LIBRARY_PREFIX" (sub (sub (sub projectRoot ".build") ".lib") (ProjectRoot.toExternalPathSpec platform))
      "The bundled libraries prefix on which Jk was run.",
    env "EQUALS" "=" "Escaping for special characters.",
    env "PRINT" (jkPath ++ " echo_color") "",
    env "JK_VERBOSE_FLAG" "V$(VERBOSE)" "",
    env "PLATFORM" (if platform = .k32 then "32" else "64") ""]

/-- What it includes, for rules that have flags. -/
def commonInclusions (workingFolder : String) (noInclude : Bool) : List MakefileText.Call :=
  if noInclude then []
  else
    [including (sub workingFolder "flags.make") "Include the compile flags for this rule's objectes." true,
      including (sub workingFolder "toolchain.make") "Include used toolchains for this rule's objects." true]

def newMakefileWithCommonCommands (setting : Setting) (s : Preparation.Session) (workingFolder : String) (noInclude : Bool) :
    List MakefileText.Call :=
  commonVariables setting.jkPath s.projectRoot s.buildRoot s.platform ++
  [target "" ⟨RootMakefile.defaultTarget,[],[],false⟩] ++ commonInclusions workingFolder noInclude ++
  [target "" ⟨"all",[.file "DEBUG"],[],true⟩,target "" ⟨RootMakefile.defaultTarget,[.file "all"],[],false⟩,
    target "This target is always outdated." ⟨"jk_force",[],[],true⟩]

def flagCalls (i : Input) : List MakefileText.Call :=
  (generateFlagFile i).map fun entry => env entry.1 (strJoin entry.2 " ") ""

def toolchainCalls (i : Input) : List MakefileText.Call :=
  (generateToolchainFile i).map fun entry =>
    env entry.1 (strJoin entry.2 " ") (if entry.1 = "RM" then "The command to remove a file." else "")

/-- The loop over the build types, with the comments on what it makes. -/
def buildTypesCalls (b : BuildMakefile.Rule) (headers : List String) (neverLint : Bool) :
    List String → List Source → List MakefileText.Call
  | [],_ => []
  | buildType :: buildTypes,sources =>
    let (statements,left,objects) := b.addSourceFilesCommands buildType headers neverLint sources
    statements.map statement ++ (b.artifactTargets buildType headers objects).map (target "") ++
      (b.buildTypeTargets buildType).map (target "Rule to build all files generated by this target.") ++
      buildTypesCalls b headers neverLint buildTypes left

/-- The targets of a rule's objects and artifacts, and `clean`. -/
def buildCalls (b : BuildMakefile.Rule) (headers : List String) (neverLint : Bool) : List MakefileText.Call :=
  buildTypesCalls b headers neverLint b.buildTypes (unmarked b) ++ [target "" (cleanTarget b headers neverLint (unmarked b))]

variable (setting : Setting) (r : PreparedRule) (link : Link)

def libraryComments : List MakefileText.Call :=
  [remark ["Headers: ",strJoin r.input.files.expandedHeaderFiles ", "],
    remark ["Sources: ",strJoin r.sourceFiles ", "],
    remark ["ACF: ",strJoin (setting.order.toVector r.input.files.expandedAlwaysCompileFiles) ", "]]

def linkVariables : List MakefileText.Call :=
  [env "DEBUG_LDFLAGS" (strJoin (["-ftest-coverage","-fprofile-arcs"] ++ setting.ldFlags ++ setting.debugLdFlagsExtra) " ") "",
    env "RELEASE_LDFLAGS" (strJoin (setting.ldFlags ++ setting.releaseLdFlagsExtra) " ") "",
    env "PROFILING_LDFLAGS" (strJoin (setting.ldFlags ++ setting.profilingLdFlagsExtra) " ") ""]

/-- `add_proto_file_commands`: one rule for both files. -/
def protoCall (filename : String) : MakefileText.Call :=
  .target (r.generatedSource filename ++ " " ++ r.generatedHeader filename).toList [(r.protoFile filename).toList]
    (((r.addProtoFileCommands filename).head?.elim [] (·.cmds)).map command) [] false

def protoComments : List MakefileText.Call :=
  [remark ["Gen-Headers: ",strJoin (r.sourceFiles.map r.generatedHeader) ", "],
    remark ["Gen-Sources: ",strJoin (r.sourceFiles.map r.generatedSource) ", "]]

def scriptVariables : List MakefileText.Call :=
  [env "JK_COMMAND" "jk" "",env "MKDIR" "mkdir -p" "",
    env "RM" "$(JK_COMMAND) delete_file" "The command to remove a file."]

def buildFile : List MakefileText.Call :=
  let b := r.buildRule link
  let opening := newMakefileWithCommonCommands setting r.input.session r.workingFolder
  let compiled := b.lintHeaders.1.map (target "") ++ buildCalls b b.headerStamps false
  match r.cls with
  | .ccLibrary => opening false ++ libraryComments setting r ++ compiled
  | .ccBinary => opening false ++ linkVariables setting ++ compiled
  | .ccTest =>
    opening false ++ linkVariables setting ++ compiled ++
      r.testTargets.map (target "Rule to run all test binaries in this target.")
  | .protoLibrary =>
    opening false ++ [remark ["Sources: ",strJoin r.sourceFiles ", "]] ++ r.sourceFiles.map (protoCall r) ++
      protoComments r ++ buildCalls r.generatedRule [] true
  | .shellScript => opening true ++ scriptVariables ++ (r.shellScriptTargets.drop commonTargets.length).map (target "")

/-- The calls for each makefile of a rule. -/
def calls (name : String) : List MakefileText.Call :=
  if name = "flags.make" then flagCalls r.input
  else if name = "toolchain.make" then toolchainCalls r.input
  else buildFile setting r link

def rootTarget (t : RootMakefile.Target) : MakefileText.Call := target t.comment t.read

/-- `Makefile` at the root of the project. -/
def rootCalls (session : RootMakefile.Session) (ts : List RootMakefile.Target) : List MakefileText.Call :=
  commonVariables setting.jkPath session.projectRoot session.buildRoot setting.platform ++ ts.map rootTarget

end Calls

section Shows

open MakeGraph (names isName prerequisites)

def lines (t : BuildMakefile.Target) : List (List Char) := t.cmds.map fun args => stringify (command args)

/-- Names that are read as one word each. -/
structure Spelled (t : BuildMakefile.Target) : Prop where
  name : words t.name.toList = [t.name.toList]
  meant : isName t.name.toList = true
  deps : ∀ d ∈ t.deps, words d.path.toList = [d.path.toList]

instance (t : BuildMakefile.Target) : Decidable (Spelled t) :=
  decidable_of_iff (words t.name.toList = [t.name.toList] ∧ isName t.name.toList = true ∧
    ∀ d ∈ t.deps, words d.path.toList = [d.path.toList])
    ⟨fun ⟨name,meant,deps⟩ => ⟨name,meant,deps⟩,fun ⟨name,meant,deps⟩ => ⟨name,meant,deps⟩⟩

/-- Rules that say of each name what some targets say. -/
structure Shows (rs : List MakeGraph.Rule) (ts : List BuildMakefile.Target) : Prop where
  named : ∀ t ∈ ts, t.name.toList ∈ names rs
  only : ∀ w ∈ names rs, w = RootMakefile.defaultTarget.toList ∨ ∃ t ∈ ts, t.name.toList = w
  waits : ∀ w, isName w = true →
    prerequisites rs w = ts.flatMap fun t => if t.name.toList = w then t.deps.map (·.path.toList) else []
  phony : ∀ w, w ∈ MakeGraph.phony rs ↔ ∃ t ∈ ts, t.phony = true ∧ t.name.toList = w
  written : ∀ r ∈ rs, r.commands ≠ [] → ∀ w ∈ r.targets, ∃ t ∈ ts, t.name.toList = w ∧ r.commands = lines t
  runs : ∀ t ∈ ts, t.cmds ≠ [] → ∃ r ∈ rs, t.name.toList ∈ r.targets ∧ r.commands ≠ []

variable {rs rs' : List MakeGraph.Rule} {ts ts' : List BuildMakefile.Target}

theorem Shows.append (first : Shows rs ts) (second : Shows rs' ts') : Shows (rs ++ rs') (ts ++ ts') where
  named t member := by
    rw [MakeGraph.names_append]
    rcases List.mem_append.mp member with member | member
    · exact List.mem_append_left _ (first.named t member)
    · exact List.mem_append_right _ (second.named t member)
  only w member := by
    rw [MakeGraph.names_append] at member
    rcases List.mem_append.mp member with member | member
    · rcases first.only w member with same | ⟨t,inside,same⟩
      · exact .inl same
      · exact .inr ⟨t,List.mem_append_left _ inside,same⟩
    · rcases second.only w member with same | ⟨t,inside,same⟩
      · exact .inl same
      · exact .inr ⟨t,List.mem_append_right _ inside,same⟩
  waits w meant := by
    rw [MakeGraph.prerequisites_append,first.waits w meant,second.waits w meant,List.flatMap_append]
  phony w := by
    rw [MakeGraph.phony_append,List.mem_append,first.phony,second.phony]
    simp only [List.mem_append,or_and_right,exists_or]
  written r member some w inside := by
    rcases List.mem_append.mp member with member | member
    · obtain ⟨t,own,same⟩ := first.written r member some w inside
      exact ⟨t,List.mem_append_left _ own,same⟩
    · obtain ⟨t,own,same⟩ := second.written r member some w inside
      exact ⟨t,List.mem_append_right _ own,same⟩
  runs t member some := by
    rcases List.mem_append.mp member with member | member
    · obtain ⟨r,own,same⟩ := first.runs t member some
      exact ⟨r,List.mem_append_left _ own,same⟩
    · obtain ⟨r,own,same⟩ := second.runs t member some
      exact ⟨r,List.mem_append_right _ own,same⟩

theorem shows_nil : Shows [] [] where
  named _ member := absurd member List.not_mem_nil
  only := by simp [names]
  waits := by simp [prerequisites]
  phony := by simp [MakeGraph.phony]
  written := by simp
  runs := by simp

theorem shows_block {b : MakeGraph.Block} (spelled : ∀ t ∈ ts, Spelled t)
    (targets : b.targets = ts.map (·.name.toList)) (once : (ts.map (·.name)).Nodup)
    (each : ∀ t ∈ ts, b.prerequisites = t.deps.map (·.path.toList) ∧ b.commands = lines t ∧ b.phony = t.phony) :
    Shows b.rules ts := by
  have mem {w : List Char} : w ∈ b.targets ↔ ∃ t ∈ ts, t.name.toList = w := by rw [targets,List.mem_map]
  have named : b.Named := by
    intro w inside
    obtain ⟨t,member,rfl⟩ := mem.mp inside
    exact (spelled t member).meant
  refine ⟨fun t member => named.mem_names.mpr (mem.mpr ⟨t,member,rfl⟩),
    fun w inside => .inr (mem.mp (named.mem_names.mp inside)),fun w meant => ?_,fun w => ?_,fun r member full w inside => ?_,
    fun t member full => ?_⟩
  · rw [MakeGraph.block_prerequisites b meant]
    split
    · next inside =>
      obtain ⟨t,member,rfl⟩ := mem.mp inside
      rw [(each t member).1]
      -- Of targets with different names only one is meant.
      clear targets mem named each
      induction ts with
      | nil => exact absurd member List.not_mem_nil
      | cons t' ts ih =>
        obtain ⟨fresh,once⟩ := List.nodup_cons.mp once
        rw [List.flatMap_cons]
        rcases List.mem_cons.mp member with rfl | later
        · have others : (ts.flatMap fun t' => if t'.name.toList = t.name.toList then t'.deps.map (·.path.toList) else []) = [] := by
            refine List.flatMap_eq_nil_iff.mpr fun t' inside => if_neg fun same => fresh ?_
            exact List.mem_map.mpr ⟨t',inside,String.toList_inj.mp same⟩
          rw [if_pos rfl,others,List.append_nil]
        · have other : ¬t'.name.toList = t.name.toList := fun same =>
            fresh (List.mem_map.mpr ⟨t,later,(String.toList_inj.mp same).symm⟩)
          rw [if_neg other,List.nil_append]
          exact ih (fun t'' inside => spelled t'' (List.mem_cons_of_mem _ inside)) once later
    · next outside =>
      refine (List.flatMap_eq_nil_iff.mpr fun t member => if_neg fun same => outside ?_).symm
      exact mem.mpr ⟨t,member,same⟩
  · rw [named.phony_rules]
    constructor
    · intro inside
      split at inside
      · next forced =>
        obtain ⟨t,member,same⟩ := mem.mp inside
        exact ⟨t,member,(each t member).2.2 ▸ forced,same⟩
      · exact absurd inside List.not_mem_nil
    · rintro ⟨t,member,forced,same⟩
      rw [if_pos ((each t member).2.2.trans forced)]
      exact mem.mpr ⟨t,member,same⟩
  · rcases MakeGraph.mem_block_rules member with ⟨same,none | own⟩ | ⟨-,none⟩
    · exact absurd none full
    · obtain ⟨t,inside,named⟩ := mem.mp (same ▸ inside)
      exact ⟨t,inside,named,own.trans (each t inside).2.1⟩
    · exact absurd none full
  · refine ⟨⟨b.targets,[],b.commands⟩,by simp [MakeGraph.Block.rules],mem.mpr ⟨t,member,rfl⟩,?_⟩
    show b.commands ≠ []
    rw [(each t member).2.1]
    simpa [lines] using full

theorem shows_mute (only : ∀ w ∈ names rs, w = RootMakefile.defaultTarget.toList)
    (waits : ∀ w, prerequisites rs w = []) (phony : MakeGraph.phony rs = []) (bare : ∀ r ∈ rs, r.commands = []) : Shows rs [] where
  named _ member := absurd member List.not_mem_nil
  only w member := .inl (only w member)
  waits w _ := waits w
  phony w := by simp [phony]
  written r member full := absurd (bare r member) full
  runs := by simp

theorem Shows.recipe (shows : Shows rs ts) (w : List Char) :
    MakeGraph.recipe rs w = [] ∨ ∃ t ∈ ts, t.name.toList = w ∧ MakeGraph.recipe rs w = lines t := by
  rcases MakeGraph.recipe_cases rs w with none | ⟨r,member,inside,full,same⟩
  · exact .inl none
  · obtain ⟨t,own,named,written⟩ := shows.written r member full w inside
    exact .inr ⟨t,own,named,same.trans written⟩

theorem Shows.recipe_some (shows : Shows rs ts) {t : BuildMakefile.Target} (member : t ∈ ts) (full : t.cmds ≠ []) :
    MakeGraph.recipe rs t.name.toList ≠ [] := by
  obtain ⟨r,own,inside,some⟩ := shows.runs t member full
  exact MakeGraph.recipe_some own inside some

theorem Shows.alike (shows : Shows rs ts) (spelled : ∀ t ∈ ts, Spelled t)
    (first : ∃ t ∈ ts, t.name = RootMakefile.defaultTarget) : MakeRuns.Alike (BuildMakefile.makefile ts) (MakeGraph.graph rs) where
  names t := by
    rw [BuildMakefile.mem_names]
    constructor
    · intro member
      obtain ⟨w,inside,rfl⟩ := List.mem_map.mp member
      rcases shows.only w inside with rfl | ⟨t,own,rfl⟩
      · obtain ⟨t,own,same⟩ := first
        exact ⟨t,own,by rw [String.ofList_toList,same]⟩
      · exact ⟨t,own,String.ofList_toList.symm⟩
    · rintro ⟨t,own,rfl⟩
      exact List.mem_map.mpr ⟨_,shows.named t own,String.ofList_toList⟩
  prerequisites := by
    funext t
    show (prerequisites rs t.toList).map String.ofList = _
    by_cases meant : isName t.toList = true
    · rw [shows.waits t.toList meant,List.map_flatMap]
      simp only [BuildMakefile.makefile,String.toList_inj]
      clear shows spelled first
      induction ts with
      | nil => rfl
      | cons t' ts ih =>
        rw [List.flatMap_cons,ih]
        by_cases same : t'.name = t
        · simp [same,Function.comp_def]
        · simp [same]
    · have none : ∀ t' ∈ ts, t'.name ≠ t := fun t' own same => meant (same ▸ (spelled t' own).meant)
      have left : prerequisites rs t.toList = [] := by rw [prerequisites,if_neg meant]
      have right : (BuildMakefile.makefile ts).prerequisites t = [] :=
        (BuildMakefile.makefile ts).leaf t fun member => by
          obtain ⟨t',own,same⟩ := BuildMakefile.mem_names.mp member
          exact none t' own same
      rw [left,right,List.map_nil]

end Shows

section Means

open MakeGraph (splice Closed)

variable {file : List Char → Option (List Char)} {reader : List Char → Option (List Item)}
  {cs cs' : List MakefileText.Call} {ts ts' : List BuildMakefile.Target}

/-- With the files that are there, the calls come to the rules of some targets. -/
def Means (file : List Char → Option (List Char)) (reader : List Char → Option (List Item))
    (cs : List MakefileText.Call) (ts : List BuildMakefile.Target) : Prop :=
  ∃ items, splice file reader (cs.flatMap Call.items) = some items ∧ Closed items ∧ Shows (MakeGraph.rules items) ts

theorem means_nil : Means file reader [] [] := ⟨[],rfl,rfl,shows_nil⟩

theorem Means.append (first : Means file reader cs ts) (second : Means file reader cs' ts') :
    Means file reader (cs ++ cs') (ts ++ ts') := by
  obtain ⟨items,spliced,closed,shows⟩ := first
  obtain ⟨items',spliced',closed',shows'⟩ := second
  refine ⟨items ++ items',?_,closed.append closed',?_⟩
  · rw [List.flatMap_append]
    exact MakeGraph.splice_append spliced spliced'
  · rw [MakeGraph.rules_append closed']
    exact shows.append shows'

theorem means_flatMap {xs : List α} {f : α → List MakefileText.Call} {g : α → List BuildMakefile.Target}
    (each : ∀ x ∈ xs, Means file reader (f x) (g x)) : Means file reader (xs.flatMap f) (xs.flatMap g) := by
  induction xs with
  | nil => exact means_nil
  | cons x xs ih =>
    exact (each x List.mem_cons_self).append (ih fun y member => each y (List.mem_cons_of_mem _ member))

theorem means_env (key value comment : String) : Means file reader [env key value comment] [] :=
  ⟨[_],rfl,rfl,shows_nil⟩

theorem means_remark (parts : List String) : Means file reader [remark parts] [] := ⟨[],rfl,rfl,shows_nil⟩

theorem means_quiet (quiet : ∀ c ∈ cs, Means file reader [c] []) : Means file reader cs [] := by
  have all := means_flatMap quiet
  rwa [List.flatMap_singleton',List.flatMap_eq_nil_iff.mpr fun _ _ => rfl] at all

theorem target_gather (name : List Char) {deps : List (List Char)} (cmds : List (List CustomArgument)) (comment : List Char)
    (phony : Bool) (single : ∀ d ∈ deps, words d = [d]) : MakeGraph.gather (Call.items (.target name deps cmds comment phony)) =
      ([],MakeGraph.Block.rules ⟨words name,deps,cmds.map stringify,phony⟩) := by
  have last : MakeGraph.gather (if phony then [.rule [phonyName] (words name)] else []) =
      ([],if phony then [⟨[MakeGraph.phonyTarget],words name,[]⟩] else []) := by cases phony <;> rfl
  have lines : cmds.map (fun stmt => Item.recipe (stringify stmt)) = (cmds.map stringify).map .recipe := by
    rw [List.map_map]
    rfl
  have front : deps.map (fun d => Item.rule (words name) (words d)) = (deps.map words).map fun d => .rule (words name) d := by
    rw [List.map_map]
    rfl
  have waits : (deps.map words).map (fun d => (⟨words name,d,[]⟩ : MakeGraph.Rule)) =
      deps.map fun d => ⟨words name,[d],[]⟩ := by
    rw [List.map_map]
    exact List.map_congr_left fun d member => by simp [single d member]
  have back : MakeGraph.gather (.rule (words name) [] :: ((cmds.map stringify).map .recipe ++
      if phony then [.rule [phonyName] (words name)] else [])) =
      ([],⟨words name,[],cmds.map stringify⟩ :: if phony then [⟨[MakeGraph.phonyTarget],words name,[]⟩] else []) := by
    simp only [MakeGraph.gather,MakeGraph.gather_recipes,last,List.append_nil]
  have closed : Closed (.rule (words name) [] :: ((cmds.map stringify).map .recipe ++
      if phony then [.rule [phonyName] (words name)] else [])) := congrArg Prod.fst back
  rw [Call.items,lines,front,List.append_assoc,List.append_assoc,List.singleton_append,MakeGraph.gather_spread _ _ closed,waits,
    MakeGraph.rules,back,MakeGraph.Block.rules,List.append_assoc,List.singleton_append]

theorem means_line {name : List Char} {deps : List (List Char)} {cmds : List (List CustomArgument)} {comment : List Char}
    {phony : Bool} (single : ∀ d ∈ deps, words d = [d]) (spelled : ∀ t ∈ ts, Spelled t)
    (targets : words name = ts.map (·.name.toList)) (once : (ts.map (·.name)).Nodup)
    (each : ∀ t ∈ ts, deps = t.deps.map (·.path.toList) ∧ cmds.map stringify = lines t ∧ phony = t.phony) :
    Means file reader [.target name deps cmds comment phony] ts := by
  have gathered := target_gather name cmds comment phony single
  refine ⟨Call.items (.target name deps cmds comment phony),?_,congrArg Prod.fst gathered,?_⟩
  · rw [List.flatMap_cons,List.flatMap_nil,List.append_nil]
    refine MakeGraph.splice_plain fun names fatal member => ?_
    simp only [Call.items,List.mem_append,List.mem_map,List.mem_singleton,reduceCtorEq,and_false,exists_false,or_false,
      false_or] at member
    split at member
    · exact absurd (List.mem_singleton.mp member) (by simp)
    · exact absurd member List.not_mem_nil
  · rw [MakeGraph.rules,gathered]
    exact shows_block spelled targets once each

theorem means_target (comment : String) {t : BuildMakefile.Target} (spelled : Spelled t) :
    Means file reader [target comment t] [t] := by
  refine means_line (fun d member => ?_) (fun t' member => List.mem_singleton.mp member ▸ spelled) ?_ (by simp)
    fun t' member => ?_
  · obtain ⟨dep,inside,rfl⟩ := List.mem_map.mp member
    exact spelled.deps dep inside
  · exact spelled.name
  · obtain rfl := List.mem_singleton.mp member
    exact ⟨rfl,by rw [lines,List.map_map]; rfl,rfl⟩

theorem means_targets (comment : String) (spelled : ∀ t ∈ ts, Spelled t) : Means file reader (ts.map (target comment)) ts := by
  have all : Means file reader (ts.flatMap fun t => [target comment t]) (ts.flatMap fun t => [t]) :=
    means_flatMap fun t member => means_target comment (spelled t member)
  rwa [List.flatMap_singleton',← List.map_eq_flatMap] at all

theorem means_missing {filename : String} (comment : String) (whole : words filename.toList = [filename.toList])
    (missing : file filename.toList = none) : Means file reader [including filename comment false] [] := by
  refine ⟨[],?_,rfl,shows_nil⟩
  simp only [including,List.flatMap_cons,List.flatMap_nil,List.append_nil,Call.items,whole]
  exact MakeGraph.splice_missing missing

theorem means_brought {filename : String} (comment : String) (whole : words filename.toList = [filename.toList])
    {content : List Char} {own : List Item} (there : file filename.toList = some content) (read : reader content = some own)
    (closed : Closed own) (shows : Shows (MakeGraph.rules own) []) :
    Means file reader [including filename comment true] [] := by
  refine ⟨own,?_,closed,shows⟩
  simp only [including,List.flatMap_cons,List.flatMap_nil,List.append_nil,Call.items,whole]
  exact MakeGraph.splice_brought there read true

theorem means_statements {statements : List Statement} (spelled : ∀ t ∈ BuildMakefile.targets statements, Spelled t)
    (missing : ∀ filename fatal, .including filename fatal ∈ statements →
      words filename.toList = [filename.toList] ∧ file filename.toList = none ∧ fatal = false) :
    Means file reader (statements.map statement) (BuildMakefile.targets statements) := by
  induction statements with
  | nil => exact means_nil
  | cons first statements ih =>
    have later := fun filename fatal member => missing filename fatal (List.mem_cons_of_mem first member)
    cases first with
    | including filename fatal =>
      obtain ⟨whole,none,rfl⟩ := missing filename fatal List.mem_cons_self
      exact (means_missing "" whole none).append (ih spelled later)
    | target t =>
      have own := List.forall_mem_cons.mp spelled
      exact (means_target "" own.1).append (ih own.2 later)

end Means

section Compilers

variable {file : List Char → Option (List Char)} {reader : List Char → Option (List Item)} {setting : Setting}
  {r : PreparedRule} {link : Link} {headers : List String} {neverLint : Bool}

/-- The only files that a rule includes and that may be missing are the dependency files. -/
theorem inclusion_dotD {b : BuildMakefile.Rule} {buildType : String} {sources : List Source} {filename : String} {fatal : Bool}
    (member : .including filename fatal ∈ (b.addSourceFilesCommands buildType headers neverLint sources).1) :
    fatal = false ∧ ∃ f ∈ filenames sources, filename = dotDPath b.input f := by
  simp only [Rule.addSourceFilesCommands,List.mem_flatMap,List.mem_map] at member
  obtain ⟨_,⟨source,inSources,rfl⟩,member⟩ := member
  have own : filename = dotDPath b.input source.filename ∧ fatal = false := by
    simp only [Rule.addSourceFile,Rule.addSourceFileCommands,List.mem_append] at member
    rcases member with (lint | (included | compiled)) | force
    · split at lint <;> simp at lint
    · simpa using included
    · split at compiled
      · simp at compiled
      · split at compiled <;> simp at compiled
    · split at force <;> simp at force
  exact ⟨own.2,source.filename,List.mem_map_of_mem inSources,own.1⟩

/-- The dependency files of the sources of a rule are not there. -/
def Unwritten (file : List Char → Option (List Char)) (b : BuildMakefile.Rule) : Prop :=
  ∀ f ∈ b.input.files.expandedSourceFiles, words (dotDPath b.input f).toList = [(dotDPath b.input f).toList] ∧
    file (dotDPath b.input f).toList = none

theorem buildTypes_means {b : BuildMakefile.Rule} (unwritten : Unwritten file b) (buildTypes : List String)
    (sources : List Source) (all : ∀ f ∈ filenames sources, f ∈ b.input.files.expandedSourceFiles)
    (spelled : ∀ t ∈ BuildMakefile.targets (b.generateBuildTypes headers neverLint buildTypes sources).1, Spelled t) :
    Means file reader (buildTypesCalls b headers neverLint buildTypes sources)
      (BuildMakefile.targets (b.generateBuildTypes headers neverLint buildTypes sources).1) := by
  induction buildTypes generalizing sources with
  | nil => exact means_nil
  | cons buildType buildTypes ih =>
    have left := addSourceFilesCommands_filenames b headers neverLint buildType sources
    have optional (filename : String) (fatal : Bool)
        (member : .including filename fatal ∈ (b.addSourceFilesCommands buildType headers neverLint sources).1) :
        fatal = false ∧ ∃ f ∈ filenames sources, filename = dotDPath b.input f := inclusion_dotD member
    simp only [Rule.generateBuildTypes,buildTypesCalls,targets_append,targets_map,List.mem_append] at spelled ⊢
    generalize b.addSourceFilesCommands buildType headers neverLint sources = result at spelled left optional ⊢
    obtain ⟨statements,later,objects⟩ := result
    have whole : Means file reader (statements.map statement) (BuildMakefile.targets statements) := by
      refine means_statements (fun t member => spelled t (.inl (.inl member))) fun filename fatal member => ?_
      obtain ⟨off,f,source,same⟩ := optional filename fatal member
      exact ⟨same ▸ (unwritten f (all f source)).1,same ▸ (unwritten f (all f source)).2,off⟩
    have artifact : Means file reader ((b.artifactTargets buildType headers objects).map (target "")) _ :=
      means_targets "" fun t member => spelled t (.inl (.inr (.inl member)))
    have types : Means file reader
        ((b.buildTypeTargets buildType).map (target "Rule to build all files generated by this target.")) _ :=
      means_targets _ fun t member => spelled t (.inl (.inr (.inr member)))
    have covered : ∀ f ∈ filenames later, f ∈ b.input.files.expandedSourceFiles := left ▸ all
    have rest := ih later covered fun t member => spelled t (.inr member)
    have front := (whole.append (artifact.append types)).append rest
    rwa [← List.append_assoc (statements.map statement)] at front

theorem build_means {b : BuildMakefile.Rule} (unwritten : Unwritten file b)
    (spelled : ∀ t ∈ BuildMakefile.targets (b.generateBuildTypes headers neverLint b.buildTypes (unmarked b)).1 ++
      [cleanTarget b headers neverLint (unmarked b)], Spelled t) :
    Means file reader (buildCalls b headers neverLint)
      (BuildMakefile.targets (b.generateBuildTypes headers neverLint b.buildTypes (unmarked b)).1 ++
        [cleanTarget b headers neverLint (unmarked b)]) := by
  refine Means.append (buildTypes_means unwritten b.buildTypes (unmarked b) (fun f member => ?_) fun t member =>
    spelled t (List.mem_append_left _ member)) (means_target "" (spelled _ (by simp)))
  rwa [unmarked_filenames] at member

theorem variables_means (jkPath projectRoot buildRoot : String) (platform : TargetPlatform) :
    Means file reader (commonVariables jkPath projectRoot buildRoot platform) [] := by
  refine means_quiet fun c member => ?_
  simp only [commonVariables,List.mem_cons,List.not_mem_nil,or_false] at member
  rcases member with rfl | rfl | rfl | rfl | rfl | rfl | rfl | rfl | rfl <;> exact means_env _ _ _

theorem common_spelled : ∀ t ∈ commonTargets, Spelled t := by decide +kernel

theorem common_means {s : Preparation.Session} {workingFolder : String} {noInclude : Bool}
    (included : Means file reader (commonInclusions workingFolder noInclude) []) :
    Means file reader (newMakefileWithCommonCommands setting s workingFolder noInclude) commonTargets := by
  have own (comment : String) {t : BuildMakefile.Target} (member : t ∈ commonTargets) :
      Means file reader [target comment t] [t] := means_target comment (common_spelled t member)
  have first := own "" (t := ⟨RootMakefile.defaultTarget,[],[],false⟩) (by simp [commonTargets])
  have last := (own "" (t := ⟨"all",[.file "DEBUG"],[],true⟩) (by simp [commonTargets])).append
    ((own "" (t := ⟨RootMakefile.defaultTarget,[.file "all"],[],false⟩) (by simp [commonTargets])).append
      (own "This target is always outdated." (t := ⟨"jk_force",[],[],true⟩) (by simp [commonTargets])))
  exact (((variables_means _ _ _ _).append first).append included).append last

theorem generated_apart (r : PreparedRule) (f : String) : r.generatedSource f ≠ r.generatedHeader f := by
  intro same
  obtain ⟨front,source,-⟩ := sub_toList r.workingFolder (replaceExtension (r.protoFile f) "pb" ++ ".cc")
  obtain ⟨front',header,-⟩ := sub_toList r.workingFolder (replaceExtension (r.protoFile f) "pb" ++ ".h")
  have equal := congrArg (fun path => path.toList.getLast?) same
  simp only [PreparedRule.generatedSource,PreparedRule.generatedHeader,source,header,String.toList_append] at equal
  simp at equal

theorem proto_means (f : String) (spelled : ∀ t ∈ r.addProtoFileCommands f, Spelled t) :
    Means file reader [protoCall r f] (r.addProtoFileCommands f) := by
  have source := spelled _ (List.mem_map_of_mem List.mem_cons_self)
  have header := spelled _ (List.mem_map_of_mem (List.mem_cons_of_mem _ List.mem_cons_self))
  refine means_line (fun d member => ?_) spelled ?_ ?_ fun t member => ?_
  · rw [List.mem_singleton.mp member]
    exact source.deps (.file (r.protoFile f)) List.mem_cons_self
  · have both : (r.generatedSource f ++ " " ++ r.generatedHeader f).toList =
        (r.generatedSource f).toList ++ ' ' :: (r.generatedHeader f).toList := by simp
    rw [both,words_cons source.name,header.name]
    rfl
  · simpa [PreparedRule.addProtoFileCommands] using generated_apart r f
  · obtain ⟨path,-,rfl⟩ := List.mem_map.mp member
    refine ⟨rfl,?_,rfl⟩
    rw [lines,List.map_map]
    rfl

theorem plain_means (plain : Plain r.cls) (spelled : ∀ t ∈ r.targets link, Spelled t)
    (included : Means file reader (commonInclusions r.workingFolder false) []) (unwritten : Unwritten file (r.buildRule link)) :
    Means file reader (buildFile setting r link) (r.targets link) := by
  have parts := plain_targets r link plain
  rw [parts,Rule.assemble,lastTargets] at spelled
  simp only [List.mem_append] at spelled
  have opening : Means file reader (newMakefileWithCommonCommands setting r.input.session r.workingFolder false) commonTargets :=
    common_means included
  have comments : Means file reader (libraryComments setting r) [] := by
    refine means_quiet fun c member => ?_
    simp only [libraryComments,List.mem_cons,List.not_mem_nil,or_false] at member
    rcases member with rfl | rfl | rfl <;> exact means_remark _
  have linking : Means file reader (linkVariables setting) [] := by
    refine means_quiet fun c member => ?_
    simp only [linkVariables,List.mem_cons,List.not_mem_nil,or_false] at member
    rcases member with rfl | rfl | rfl <;> exact means_env _ _ _
  have linting : Means file reader ((r.buildRule link).lintHeaders.1.map (target "")) _ :=
    means_targets "" fun t member => spelled t (.inl (.inr member))
  have building : Means file reader (buildCalls (r.buildRule link) (r.buildRule link).headerStamps false) _ :=
    build_means unwritten fun t member => by
      rcases List.mem_append.mp member with member | member
      · exact spelled t (.inr (.inl member))
      · exact spelled t (.inr (.inr (.inl member)))
  have compiled := linting.append building
  rw [parts,Rule.assemble,lastTargets]
  rcases plain with cls | cls | cls
  · have all := (opening.append comments).append compiled
    simpa only [buildFile,cls,reduceCtorEq,if_false,List.append_nil,List.append_assoc] using all
  · have all := (opening.append linking).append compiled
    simpa only [buildFile,cls,reduceCtorEq,if_false,List.append_nil,List.append_assoc] using all
  · have testing : Means file reader
        (r.testTargets.map (target "Rule to run all test binaries in this target.")) r.testTargets :=
      means_targets _ fun t member => spelled t (.inr (.inr (.inr (by rwa [if_pos cls]))))
    have all := ((opening.append linking).append compiled).append testing
    simpa only [buildFile,cls,if_true,List.append_nil,List.append_assoc] using all

theorem protoLibrary_means (cls : r.cls = .protoLibrary) (spelled : ∀ t ∈ r.targets link, Spelled t)
    (included : Means file reader (commonInclusions r.workingFolder false) []) (unwritten : Unwritten file r.generatedRule) :
    Means file reader (buildFile setting r link) (r.targets link) := by
  have parts := proto_targets r link cls
  rw [parts,Rule.assemble,protoFront,protoBack] at spelled
  simp only [List.mem_append] at spelled
  have opening : Means file reader (newMakefileWithCommonCommands setting r.input.session r.workingFolder false) commonTargets :=
    common_means included
  have protos : Means file reader (r.sourceFiles.flatMap fun f => [protoCall r f]) (r.sourceFiles.flatMap r.addProtoFileCommands) :=
    means_flatMap fun f source => proto_means f fun t member => spelled t (.inl (.inr (List.mem_flatMap.mpr ⟨f,source,member⟩)))
  have comments : Means file reader (protoComments r) [] := by
    refine means_quiet fun c member => ?_
    simp only [protoComments,List.mem_cons,List.not_mem_nil,or_false] at member
    rcases member with rfl | rfl <;> exact means_remark _
  have building : Means file reader (buildCalls r.generatedRule [] true) _ :=
    build_means unwritten fun t member => spelled t (.inr (List.mem_append.mp member))
  have all := (((opening.append (means_remark ["Sources: ",strJoin r.sourceFiles ", "])).append protos).append comments).append
    building
  rw [parts,Rule.assemble,protoFront,protoBack]
  simpa only [buildFile,cls,← List.map_eq_flatMap,List.append_nil,List.append_assoc] using all

theorem shellScript_means (cls : r.cls = .shellScript) (spelled : ∀ t ∈ r.targets link, Spelled t) :
    Means file reader (buildFile setting r link) (r.targets link) := by
  have parts : r.targets link = commonTargets ++ r.shellScriptTargets.drop commonTargets.length := by
    rw [script_targets r link cls,PreparedRule.shellScriptTargets,List.append_assoc,List.append_assoc,List.drop_left]
  have opening : Means file reader (newMakefileWithCommonCommands setting r.input.session r.workingFolder true) commonTargets :=
    common_means means_nil
  have assigned : Means file reader scriptVariables [] := by
    refine means_quiet fun c member => ?_
    simp only [scriptVariables,List.mem_cons,List.not_mem_nil,or_false] at member
    rcases member with rfl | rfl | rfl <;> exact means_env _ _ _
  have rest : Means file reader ((r.shellScriptTargets.drop commonTargets.length).map (target "")) _ :=
    means_targets "" fun t member => spelled t (parts ▸ List.mem_append_right _ member)
  have all := (opening.append assigned).append rest
  rw [parts]
  simpa only [buildFile,cls,List.append_nil] using all

/-- What a rule needs around its `build.make` to have it read: the included files are there, the
dependency files are not. -/
structure Surrounded (file : List Char → Option (List Char)) (reader : List Char → Option (List Item)) (r : PreparedRule)
    (link : Link) : Prop where
  included : r.cls ≠ .shellScript → Means file reader (commonInclusions r.workingFolder false) []
  unwritten : r.cls ≠ .shellScript → Unwritten file (r.rule link)

/-- In the `build.make` of every rule make finds the targets of the rule. -/
theorem buildFile_means (spelled : ∀ t ∈ r.targets link, Spelled t) (around : Surrounded file reader r link) :
    Means file reader (buildFile setting r link) (r.targets link) := by
  have plain (is : Plain r.cls) (other : r.cls ≠ .shellScript) : Means file reader (buildFile setting r link) (r.targets link) :=
    plain_means is spelled (around.included other) ((plain_names r link is).1 ▸ around.unwritten other)
  cases cls : r.cls with
  | ccLibrary => exact plain (.inl cls) (by simp [cls])
  | ccBinary => exact plain (.inr (.inl cls)) (by simp [cls])
  | ccTest => exact plain (.inr (.inr cls)) (by simp [cls])
  | protoLibrary =>
    have other : r.cls ≠ .shellScript := by simp [cls]
    exact protoLibrary_means cls spelled (around.included other) ((proto_names r link cls).1 ▸ around.unwritten other)
  | shellScript => exact shellScript_means cls spelled

theorem root_means {session : RootMakefile.Session} {ts : List RootMakefile.Target}
    (spelled : ∀ t ∈ ts.map RootMakefile.Target.read, Spelled t) :
    Means file reader (rootCalls setting session ts) (ts.map RootMakefile.Target.read) := by
  have targets : Means file reader (ts.flatMap fun t => [rootTarget t]) (ts.flatMap fun t => [t.read]) :=
    means_flatMap fun t member => means_target t.comment (spelled _ (List.mem_map_of_mem member))
  rw [← List.map_eq_flatMap,← List.map_eq_flatMap] at targets
  exact (variables_means _ _ _ _).append targets

end Compilers

end JkBuild.MakefileCalls
