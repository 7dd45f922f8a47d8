import JkBuild.MakefileCalls
import JkBuild.ParallelBuild
import JkBuild.ParallelWriters

/-! From the rules to a build by way of the disk: the generator writes the makefiles, make reads
them there, and it has in them the plan of `ParallelBuild`. -/
namespace JkBuild.WrittenBuild

open Reachability MakeRuns NestedMakes RuleMakefiles MakefileCalls MakefileText FileWriter AssumeFolder FolderTree
open ParallelBuild ParallelWriters MakeSyntax CommandLines
open MakeGraph (splice readWith)

section Paths

/-- The components of a path, with what has been read of one and the ones before it. -/
def locateFrom (name : List Char) (above : FilePath) : List Char → FilePath
  | [] => if name = [] then above else String.ofList name :: above
  | ch :: rest =>
    if ch = '/' then locateFrom [] (if name = [] then above else String.ofList name :: above) rest
    else locateFrom (name ++ [ch]) above rest

def locate (path : String) : FilePath := locateFrom [] [] path.toList

theorem locateFrom_name {name : List Char} (plain : '/' ∉ name) (before : List Char) (above : FilePath) :
    locateFrom before above name = if before ++ name = [] then above else String.ofList (before ++ name) :: above := by
  induction name generalizing before with
  | nil => simp [locateFrom]
  | cons ch name ih =>
    have other : ch ≠ '/' := fun same => plain (same ▸ List.mem_cons_self)
    simp [locateFrom,other,ih fun member => plain (List.mem_cons_of_mem _ member)]

theorem locateFrom_append (folder rest before : List Char) (above : FilePath) :
    locateFrom before above (folder ++ '/' :: rest) = locateFrom [] (locateFrom before above folder) rest := by
  induction folder generalizing before above with
  | nil => simp [locateFrom]
  | cons ch folder ih =>
    simp only [List.cons_append,locateFrom]
    split <;> exact ih _ _

theorem locate_sub (folder : String) {name : String} (plain : '/' ∉ name.toList) (nonempty : name ≠ "") :
    locate (sub folder name) = name :: locate folder := by
  have relative : name.toList.head? ≠ some '/' := fun first => plain (List.mem_of_head? first)
  have single (above : FilePath) : locateFrom [] above name.toList = name :: above := by
    rw [locateFrom_name plain,List.nil_append,if_neg (by simpa using nonempty),String.ofList_toList]
  unfold sub
  rw [if_neg relative]
  split
  · next ends =>
    rcases ends with slash | rfl
    · obtain ⟨front,same⟩ := List.getLast?_eq_some_iff.mp slash
      have own : locate folder = locateFrom [] [] front := by
        rw [locate,same,locateFrom_append]
        rfl
      rw [own,locate,String.toList_append,same,List.append_assoc,List.singleton_append,locateFrom_append,single]
    · rw [locate,String.empty_append,single]
      rfl
  · have slash : (folder ++ "/" ++ name).toList = folder.toList ++ '/' :: name.toList := by simp
    rw [locate,slash,locateFrom_append,single]
    rfl

end Paths

section Commands

/-- A word that neither make nor the generator changes in a command. -/
structure Bare (word : List Char) : Prop where
  nonempty : word ≠ []
  plain : ∀ ch ∈ word, isBlank ch = false ∧ isEscaped ch = false ∧ ch ≠ '\x00'

theorem bare_iff (word : List Char) : Bare word ↔
    word ≠ [] ∧ (word.all fun ch => !isBlank ch && !isEscaped ch && decide (ch ≠ '\x00')) = true := by
  rw [List.all_eq_true]
  simp only [Bool.and_eq_true,Bool.not_eq_true',decide_eq_true_eq,and_assoc]
  exact ⟨fun ⟨nonempty,plain⟩ => ⟨nonempty,plain⟩,fun ⟨nonempty,plain⟩ => ⟨nonempty,plain⟩⟩

instance (word : List Char) : Decidable (Bare word) := decidable_of_iff _ (bare_iff word).symm

theorem Bare.word {word : List Char} (bare : Bare word) : words word = [word] :=
  words_word (fun ch member => (bare.plain ch member).1) bare.nonempty

theorem Bare.escape {word : List Char} (bare : Bare word) : escapeForShellStyle word = word := by
  have plain := bare.plain
  clear bare
  induction word with
  | nil => rfl
  | cons ch word ih =>
    have own := plain ch List.mem_cons_self
    rw [escapeForShellStyle,if_neg own.2.2,escapeChar,if_neg (by simp [own.2.1]),
      ih fun c member => plain c (List.mem_cons_of_mem _ member)]
    rfl

theorem Bare.below {folder name : String} (bare : Bare folder.toList) (own : Bare name.toList) : Bare (sub folder name).toList := by
  have slash : isBlank '/' = false ∧ isEscaped '/' = false ∧ '/' ≠ '\x00' := by decide
  unfold sub
  split
  · exact own
  · split
    · refine ⟨by simp [own.nonempty],fun ch member => ?_⟩
      rcases List.mem_append.mp (String.toList_append ▸ member) with member | member
      · exact bare.plain ch member
      · exact own.plain ch member
    · refine ⟨by simp,fun ch member => ?_⟩
      simp only [String.toList_append,List.mem_append] at member
      rcases member with (member | member) | member
      · exact bare.plain ch member
      · obtain rfl : ch = '/' := by simpa using member
        exact slash
      · exact own.plain ch member

theorem stringify_program {program : String} (bare : Bare program.toList) (args : List String) :
    ∃ rest, stringify (command (program :: args)) = program.toList ++ rest ∧ (rest = [] ∨ rest.head? = some ' ') := by
  have own : decide (program = ">/dev/null" ∧ (program :: args).head? = some "@$(CPPLINT)") = false := by
    rw [decide_eq_false_iff_not]
    rintro ⟨rfl,-⟩
    exact absurd (bare.plain '>' (by decide)).2.1 (by decide)
  simp only [stringify,command,List.map_cons,joinString,if_true,List.nil_append,CustomArgument.text,own,Bool.false_eq_true,
    if_false,bare.escape,joinString_later]
  refine ⟨_,rfl,?_⟩
  cases args with
  | nil => exact .inl rfl
  | cons => exact .inr rfl

theorem words_command {args : List String} (nonempty : args ≠ []) (bare : ∀ a ∈ args, Bare a.toList) :
    words (stringify (command args)) = args.map String.toList := by
  have text : stringify (command args) = joinString [' '] String.toList true args := by
    have each : ∀ a ∈ args, CustomArgument.text ⟨a.toList,decide (a = ">/dev/null" ∧ args.head? = some "@$(CPPLINT)")⟩ =
        a.toList := by
      intro a member
      have own : decide (a = ">/dev/null" ∧ args.head? = some "@$(CPPLINT)") = false := by
        rw [decide_eq_false_iff_not]
        rintro ⟨rfl,-⟩
        exact absurd ((bare _ member).plain '>' (by decide)).2.1 (by decide)
      rw [CustomArgument.text,own]
      exact (bare a member).escape
    have general (xs : List String) (inside : ∀ a ∈ xs, a ∈ args) (first : Bool) :
        joinString [' '] CustomArgument.text first
          (xs.map fun a => ⟨a.toList,decide (a = ">/dev/null" ∧ args.head? = some "@$(CPPLINT)")⟩) =
        joinString [' '] String.toList first xs := by
      induction xs generalizing first with
      | nil => rfl
      | cons x xs ih =>
        rw [List.map_cons,joinString,joinString,each x (inside x List.mem_cons_self),
          ih fun a member => inside a (List.mem_cons_of_mem _ member)]
    exact general args (fun _ member => member) true
  rw [text]
  clear text
  induction args with
  | nil => exact absurd rfl nonempty
  | cons a args ih =>
    have own := (bare a List.mem_cons_self).word
    cases args with
    | nil => simp [joinString,own]
    | cons b args =>
      have rest := ih (List.cons_ne_nil _ _) fun c member => bare c (List.mem_cons_of_mem _ member)
      have step : joinString [' '] String.toList true (a :: b :: args) =
          a.toList ++ ' ' :: joinString [' '] String.toList true (b :: args) := by simp [joinString]
      rw [step,words_cons own,rest]
      rfl

theorem words_program {program : String} (bare : Bare program.toList) (args : List String) :
    ∃ others, words (stringify (command (program :: args))) = program.toList :: others := by
  obtain ⟨rest,same,head⟩ := stringify_program bare args
  rw [same]
  rcases head with rfl | first
  · exact ⟨[],by rw [List.append_nil,bare.word]⟩
  · obtain ⟨others,rfl⟩ := List.head?_eq_some_iff.mp first
    exact ⟨_,words_cons bare.word others⟩

end Commands

section Reading

def fileAt (t : Disk) (path : List Char) : Option (List Char) := t.readFile (locateFrom [] [] path)

/-- The rules make reads at a path. A makefile that cannot be read has none. -/
def rulesAt (t : Disk) (depth : Nat) (path : String) : List MakeGraph.Rule :=
  ((fileAt t path.toList).bind (readWith (fileAt t) depth)).elim [] MakeGraph.rules

variable {file : List Char → Option (List Char)} {depth : Nat} {cs : List MakefileText.Call}
  {ts : List BuildMakefile.Target} {content : List Char}

theorem header_plain : ∀ item ∈ headerItems, ∀ names fatal, Item.inclusion names fatal ≠ item := by
  intro item member names fatal
  simp only [headerItems,List.mem_cons,List.not_mem_nil,or_false] at member
  rintro rfl
  simp at member

theorem header_closed : MakeGraph.Closed headerItems := rfl

theorem shows_header : Shows (MakeGraph.rules headerItems) [] := by
  have mute : ∀ r ∈ MakeGraph.rules headerItems, r.commands = [] ∧
      (r.prerequisites = [] ∨ ∀ w ∈ r.targets, MakeGraph.isName w = false) := by decide +kernel
  refine shows_mute (by decide +kernel) (fun w => ?_) (by decide +kernel) fun r member => (mute r member).1
  unfold MakeGraph.prerequisites
  split
  · next meant =>
    refine List.flatMap_eq_nil_iff.mpr fun r member => ?_
    split
    · next inside =>
      rcases (mute r member).2 with none | special
      · exact none
      · rw [special w (List.contains_iff_mem.mp inside)] at meant
        contradiction
    · rfl
  · rfl

/-- Where the calls come to some targets, so does the makefile. -/
theorem readWith_means (written : read content = some (headerItems ++ cs.flatMap Call.items))
    (means : Means file (readWith file depth) cs ts) :
    ∃ items, readWith file (depth + 1) content = some items ∧ MakeGraph.Closed items ∧ Shows (MakeGraph.rules items) ts := by
  obtain ⟨items,spliced,closed,shows⟩ := means
  have header : splice file (readWith file depth) headerItems = some headerItems :=
    MakeGraph.splice_plain fun names fatal member => header_plain _ member names fatal rfl
  refine ⟨headerItems ++ items,?_,header_closed.append closed,?_⟩
  · rw [readWith,written]
    exact MakeGraph.splice_append header spliced
  · rw [MakeGraph.rules_append closed]
    exact shows_header.append shows

theorem brought_means {filename : String} (comment : String) (bare : Bare filename.toList)
    (there : file filename.toList = some content) (written : read content = some (headerItems ++ cs.flatMap Call.items))
    (quiet : ∀ reader, Means file reader cs []) : Means file (readWith file (depth + 1)) [including filename comment true] [] := by
  obtain ⟨own,reads,closed,shows⟩ := readWith_means written (quiet (readWith file depth))
  exact means_brought comment bare.word there reads closed shows

theorem flags_quiet (i : CompilationDatabase.Input) {reader : List Char → Option (List Item)} :
    Means file reader (flagCalls i) [] := by
  refine means_quiet fun c member => ?_
  obtain ⟨entry,-,rfl⟩ := List.mem_map.mp member
  exact means_env _ _ _

theorem toolchain_quiet (i : CompilationDatabase.Input) {reader : List Char → Option (List Item)} :
    Means file reader (toolchainCalls i) [] := by
  refine means_quiet fun c member => ?_
  obtain ⟨entry,-,rfl⟩ := List.mem_map.mp member
  exact means_env _ _ _

end Reading

section Plan

variable (p : Project n) (setting : Setting) (s : Tarjan.State n) (emitted : List (Fin n))

def rootMakefile : String := sub p.session.projectRoot "Makefile"

/-- What make does with the makefiles that are on the disk. What a recipe leaves is not written in
them. -/
def diskPlan (depth : Nat) (t : Disk) : Plan String (Fin n) where
  outer := MakeGraph.graph (rulesAt t depth (rootMakefile p))
  call name := (MakeGraph.recipe (rulesAt t depth (rootMakefile p)) name.toList).findSome? fun line =>
    p.nested emitted ((words line).map String.ofList)
  inner r := MakeGraph.graph (rulesAt t depth (p.makefilePath r))
  phony r := (MakeGraph.phony (rulesAt t depth (p.makefilePath r))).map String.ofList
  writes r := (p.rules r).writes (p.link s r)

/-- Names that make reads as they were meant. -/
structure Legible (ts : List RootMakefile.Target) : Prop where
  sound : ∀ r ∈ emitted, ∀ name ∈ makefiles (p.rules r).cls, MakefileText.Sound (calls setting (p.rules r) (p.link s r) name)
  rootSound : MakefileText.Sound (rootCalls setting p.session ts)
  targets : ∀ r ∈ emitted, ∀ t ∈ (p.rules r).targets (p.link s r), Spelled t
  rootTargets : ∀ t ∈ ts.map RootMakefile.Target.read, Spelled t
  folders : ∀ r ∈ emitted, Bare (p.rules r).workingFolder.toList
  types : ∀ buildType ∈ p.session.buildTypes, Bare buildType.toList
  dependencies : ∀ r ∈ emitted, (p.rules r).cls ≠ .shellScript →
    ∀ f ∈ ((p.rules r).rule (p.link s r)).input.files.expandedSourceFiles,
      words (SourceFile.dotDPath ((p.rules r).rule (p.link s r)).input f).toList =
        [(SourceFile.dotDPath ((p.rules r).rule (p.link s r)).input f).toList]

/-- The makefiles are on the disk, and no dependency file is. -/
structure OnDisk (ts : List RootMakefile.Target) (t : Disk) : Prop where
  rules : ∀ r ∈ emitted, ∀ name ∈ makefiles (p.rules r).cls,
    ∃ content, t.readFile (locate (sub (p.rules r).workingFolder name)) = some content ∧
      read content = some (headerItems ++ (calls setting (p.rules r) (p.link s r) name).flatMap Call.items)
  root : ∃ content, t.readFile (locate (rootMakefile p)) = some content ∧
    read content = some (headerItems ++ (rootCalls setting p.session ts).flatMap Call.items)
  unwritten : ∀ r ∈ emitted, (p.rules r).cls ≠ .shellScript →
    ∀ f ∈ ((p.rules r).rule (p.link s r)).input.files.expandedSourceFiles,
      t.readFile (locate (SourceFile.dotDPath ((p.rules r).rule (p.link s r)).input f)) = none

end Plan

section Agreement

variable {p : Project n} {setting : Setting} {s : Tarjan.State n} {emitted : List (Fin n)} {sources : List String}
  {ts : List RootMakefile.Target} {t : Disk} {buildType : String}

theorem makefile_bare : ∀ name ∈ ["flags.make","toolchain.make","build.make"], Bare name.toList := by decide +kernel

theorem build_listed (cls : RuleClass) : "build.make" ∈ makefiles cls := by cases cls <;> decide

theorem flags_listed {cls : RuleClass} (other : cls ≠ .shellScript) : makefiles cls = ["flags.make","toolchain.make","build.make"] := by
  cases cls <;> first | rfl | exact absurd rfl other

/-- Make finds in a makefile on the disk what it was written for. -/
theorem rulesAt_shows {path : String} {content : List Char} {cs : List MakefileText.Call} {targets : List BuildMakefile.Target}
    {depth : Nat} (there : t.readFile (locate path) = some content)
    (written : read content = some (headerItems ++ cs.flatMap Call.items))
    (means : Means (fileAt t) (readWith (fileAt t) (depth + 1)) cs targets) : Shows (rulesAt t (depth + 2) path) targets := by
  obtain ⟨items,reads,-,shows⟩ := readWith_means written means
  have file : fileAt t path.toList = some content := there
  rw [rulesAt,file,Option.bind_some,reads]
  exact shows

theorem inner_shows (legible : Legible p setting s emitted ts) (onDisk : OnDisk p setting s emitted ts t) (depth : Nat)
    (own : r ∈ emitted) : Shows (rulesAt t (depth + 2) (p.makefilePath r)) ((p.rules r).targets (p.link s r)) := by
  have bare := fun name listed => (legible.folders r own).below (makefile_bare name listed)
  have around : Surrounded (fileAt t) (readWith (fileAt t) (depth + 1)) (p.rules r) (p.link s r) := by
    refine ⟨fun other => ?_,fun other f source => ⟨legible.dependencies r own other f source,onDisk.unwritten r own other f source⟩⟩
    have listed := flags_listed other
    obtain ⟨flags,there,written⟩ := onDisk.rules r own "flags.make" (by rw [listed]; decide)
    obtain ⟨tools,there',written'⟩ := onDisk.rules r own "toolchain.make" (by rw [listed]; decide)
    have first : Means (fileAt t) (readWith (fileAt t) (depth + 1)) [including (sub (p.rules r).workingFolder "flags.make")
        "Include the compile flags for this rule's objectes." true] [] :=
      brought_means _ (bare "flags.make" (by decide)) there written fun _ => flags_quiet _
    have second : Means (fileAt t) (readWith (fileAt t) (depth + 1)) [including (sub (p.rules r).workingFolder "toolchain.make")
        "Include used toolchains for this rule's objects." true] [] :=
      brought_means _ (bare "toolchain.make" (by decide)) there' written' fun _ => toolchain_quiet _
    exact first.append second
  obtain ⟨content,there,written⟩ := onDisk.rules r own "build.make" (build_listed _)
  exact rulesAt_shows there written (buildFile_means (legible.targets r own) around)

theorem root_shows (legible : Legible p setting s emitted ts) (onDisk : OnDisk p setting s emitted ts t) (depth : Nat) :
    Shows (rulesAt t (depth + 2) (rootMakefile p)) (ts.map RootMakefile.Target.read) := by
  obtain ⟨content,there,written⟩ := onDisk.root
  exact rulesAt_shows there written (root_means legible.rootTargets)

def Other (args : List String) : Prop := ∃ program rest, args = program :: rest ∧ Bare program.toList ∧ program ≠ "@$(MAKE)"

theorem other_nested {args : List String} (other : Other args) :
    p.nested emitted args = none ∧ p.nested emitted ((words (stringify (command args))).map String.ofList) = none := by
  obtain ⟨program,rest,rfl,bare,apart⟩ := other
  obtain ⟨others,same⟩ := words_program bare rest
  refine ⟨nested_other p emitted program rest apart,?_⟩
  rw [same,List.map_cons,String.ofList_toList]
  exact nested_other p emitted program _ apart

theorem quiet_call {depth : Nat} (shows : Shows (rulesAt t depth (rootMakefile p)) (ts.map RootMakefile.Target.read))
    (quiet : ∀ t' ∈ ts, t'.name = name → ∀ c ∈ t'.cmds, Other c) :
    (diskPlan p s emitted depth t).call name = (p.plan s emitted ts).call name := by
  rw [call_none fun t' member named c inCmds => (other_nested (quiet t' member named c inCmds)).1]
  refine List.findSome?_eq_none_iff.mpr fun line member => ?_
  rcases shows.recipe name.toList with none | ⟨_,inTargets,named,same⟩
  · rw [none] at member
    exact absurd member List.not_mem_nil
  · obtain ⟨t',inTs,rfl⟩ := List.mem_map.mp inTargets
    rw [same] at member
    obtain ⟨c,inCmds,rfl⟩ := List.mem_map.mp member
    exact (other_nested (quiet t' inTs (String.toList_inj.mp named) c inCmds)).2

theorem rule_call (gen : Generated p s emitted sources ts) (legible : Legible p setting s emitted ts) {depth : Nat}
    (shows : Shows (rulesAt t depth (rootMakefile p)) (ts.map RootMakefile.Target.read)) (inTypes : buildType ∈ p.session.buildTypes)
    (own : r ∈ emitted) : (diskPlan p s emitted depth t).call (RootMakefile.targetName (p.rootRule r) buildType) =
      some (r,(p.rules r).goal buildType) := by
  have goal : RootMakefile.goal (p.rootRule r) buildType = (p.rules r).goal buildType := rfl
  have asked : Bare (RootMakefile.goal (p.rootRule r) buildType).toList := by
    unfold RootMakefile.goal
    split
    · exact legible.types buildType inTypes
    · decide +kernel
  have bare : ∀ a ∈ RootMakefile.makeCommand (p.rootRule r) (RootMakefile.goal (p.rootRule r) buildType), Bare a.toList := by
    intro a member
    simp only [RootMakefile.makeCommand,List.mem_cons,List.not_mem_nil,or_false] at member
    rcases member with rfl | rfl | rfl | rfl
    · decide +kernel
    · decide +kernel
    · exact (legible.folders r own).below (makefile_bare "build.make" (by decide))
    · exact asked
  obtain ⟨numbers,present⟩ := gen.written.rules r own
  obtain ⟨_,full⟩ := RootMakefile.ruleTarget_cmds p.session p.rootRule p.graph r numbers buildType
  have there := shows.recipe_some (List.mem_map_of_mem (present buildType inTypes)) (by
    rw [RootMakefile.Target.read,full]
    exact List.cons_ne_nil _ _)
  rw [RootMakefile.Target.read,RootMakefile.ruleTarget_name] at there
  rcases shows.recipe (RootMakefile.targetName (p.rootRule r) buildType).toList with none | ⟨_,inTargets,named,same⟩
  · exact absurd none there
  · obtain ⟨t',inTs,rfl⟩ := List.mem_map.mp inTargets
    obtain ⟨numbers,rfl⟩ := gen.written.rule_target gen.laid.names inTypes own inTs (String.toList_inj.mp named)
    obtain ⟨printed,cmds⟩ := RootMakefile.ruleTarget_cmds p.session p.rootRule p.graph r numbers buildType
    have line : words (stringify (command (RootMakefile.makeCommand (p.rootRule r)
        (RootMakefile.goal (p.rootRule r) buildType)))) = _ := words_command (List.cons_ne_nil _ _) bare
    simp only [diskPlan,same,MakefileCalls.lines,RootMakefile.Target.read,cmds,List.map_cons,List.findSome?_cons]
    rw [line,List.map_map,String.ofList_comp_toList,List.map_id,nested_make gen.laid own,goal]

theorem compile_default (compiled : RootMakefile.compile p.session p.rootRule p.graph s.sccs s.sccId p.requested = .ok ts) :
    ∃ t ∈ ts.map RootMakefile.Target.read, t.name = RootMakefile.defaultTarget := by
  unfold RootMakefile.compile at compiled
  split at compiled
  · contradiction
  · split at compiled
    · contradiction
    · rw [← Except.ok.inj compiled]
      exact ⟨RootMakefile.Target.read ⟨RootMakefile.defaultTarget,[],[],"",false⟩,
        List.mem_map_of_mem (by simp [RootMakefile.leadingTargets,RootMakefile.commonTargets]),rfl⟩

theorem targets_default (r : PreparedRule) (link : Link) : ∃ t ∈ r.targets link, t.name = RootMakefile.defaultTarget := by
  have first : ∃ back, r.targets link = commonTargets ++ back := by
    have plain (is : Plain r.cls) : ∃ back, r.targets link = commonTargets ++ back :=
      ⟨_,by rw [plain_targets r link is,BuildMakefile.Rule.assemble,List.append_assoc]⟩
    cases cls : r.cls with
    | ccLibrary => exact plain (.inl cls)
    | ccBinary => exact plain (.inr (.inl cls))
    | ccTest => exact plain (.inr (.inr cls))
    | protoLibrary => exact ⟨_,by rw [proto_targets r link cls,BuildMakefile.Rule.assemble,protoFront,List.append_assoc]⟩
    | shellScript =>
      exact ⟨_,by rw [script_targets r link cls,PreparedRule.shellScriptTargets,List.append_assoc,List.append_assoc]⟩
  obtain ⟨back,same⟩ := first
  exact ⟨⟨RootMakefile.defaultTarget,[],[],false⟩,same ▸ List.mem_append_left _ List.mem_cons_self,rfl⟩

/-- Make has from the disk what the plan says. -/
theorem alike (gen : Generated p s emitted sources ts)
    (compiled : RootMakefile.compile p.session p.rootRule p.graph s.sccs s.sccId p.requested = .ok ts)
    (legible : Legible p setting s emitted ts) (onDisk : OnDisk p setting s emitted ts t) (inTypes : buildType ∈ p.session.buildTypes) (depth : Nat) :
    (p.plan s emitted ts).Alike (diskPlan p s emitted (depth + 2) t) buildType where
  outer := (root_shows legible onDisk depth).alike legible.rootTargets (compile_default compiled)
  call := by
    intro name wanted
    have shows := root_shows legible onDisk depth
    have start : RootMakefile.RootKey.inside emitted (.all : RootMakefile.RootKey n) := trivial
    obtain ⟨k,inside,rfl⟩ := (gen.keyed inTypes).wanted start wanted
    cases k with
    | mark =>
      refine quiet_call shows fun t' member named c inCmds => ?_
      rw [gen.written.mark_target gen.laid.names member named] at inCmds
      simp only [RootMakefile.regen,List.mem_cons,List.not_mem_nil,or_false] at inCmds
      rcases inCmds with rfl | rfl <;> exact ⟨_,_,rfl,by decide +kernel,by decide⟩
    | pre =>
      refine quiet_call shows fun t' member named c inCmds => ?_
      rw [gen.written.pre_target gen.laid.names member named] at inCmds
      simp only [RootMakefile.preTarget,List.mem_cons,List.not_mem_nil,or_false] at inCmds
      rcases inCmds with rfl | rfl | rfl <;> exact ⟨_,_,rfl,by decide +kernel,by decide⟩
    | rule r => exact (rule_call gen legible shows inTypes inside).trans (call_rule gen.laid gen.written inTypes inside).symm
    | all =>
      refine quiet_call shows fun t' member named c inCmds => ?_
      obtain ⟨r',-,rfl⟩ := gen.written.buildType_target gen.laid.names inTypes member named
      exact absurd inCmds List.not_mem_nil
  inner := by
    intro name r g called
    obtain ⟨own,-,-⟩ := gen.called_cases inTypes called
    exact (inner_shows legible onDisk depth own).alike (legible.targets r own) (targets_default _ _)
  phony := by
    intro name r g called d
    obtain ⟨own,-,-⟩ := gen.called_cases inTypes called
    have shows := inner_shows legible onDisk depth own
    constructor
    · intro member
      obtain ⟨w,inside,rfl⟩ := List.mem_map.mp member
      obtain ⟨t',inTargets,forced,rfl⟩ := (shows.phony w).mp inside
      rw [String.ofList_toList]
      exact mem_phony _ _ inTargets forced
    · intro member
      obtain ⟨t',inTargets,forced,rfl⟩ := of_phony _ _ member
      exact List.mem_map.mpr ⟨_,(shows.phony _).mpr ⟨t',inTargets,forced,rfl⟩,String.ofList_toList⟩
  writes := rfl

end Agreement

end JkBuild.WrittenBuild
