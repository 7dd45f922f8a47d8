import JkBuild.Buildable

/-! The dependency files of a `build.make`: what the compiler leaves next to an object, and what
the makefile includes. -/
namespace JkBuild

section Paths

def directory (base : String) : String :=
  if base.toList.getLast? = some '/' ∨ base = "" then base else base ++ "/"

theorem sub_relative (base : String) {part : String} (relative : part.toList.head? ≠ some '/') :
    sub base part = directory base ++ part := by
  unfold sub directory
  rw [if_neg relative]
  split <;> rfl

def stem (path : String) : String := directory (parentPath path) ++ filename path

theorem withSuffix_stem (path : String) {suffix : String} (plain : '/' ∉ suffix.toList) :
    withSuffix path suffix = stem path ++ suffix := by
  have relative : (filename path ++ suffix).toList.head? ≠ some '/' := by
    intro first
    have member := List.mem_of_head? first
    simp only [String.toList_append,List.mem_append] at member
    exact member.elim (filename_plain path) plain
  rw [withSuffix,sub_relative _ relative,stem,String.append_assoc]

theorem directory_head {base : String} (relative : base.toList.head? ≠ some '/') :
    (directory base).toList.head? ≠ some '/' := by
  unfold directory
  split
  · exact relative
  · next other =>
    rw [String.toList_append,List.head?_append_of_ne_nil]
    · exact relative
    · intro none
      exact other (.inr (String.toList_inj.mp none))

theorem parentPath_head {path : String} (relative : path.toList.head? ≠ some '/') :
    (parentPath path).toList.head? ≠ some '/' := by
  have start : ∀ ch, (folderChars path.toList).head? = some ch → ch ≠ '/' := by
    rintro ch first rfl
    apply relative
    obtain ⟨rest,found⟩ := List.head?_eq_some_iff.mp first
    rw [← folder_filename path.toList,found]
    rfl
  have parts : folderChars path.toList = ((folderChars path.toList).reverse.dropWhile (· = '/')).reverse ++
      ((folderChars path.toList).reverse.takeWhile (· = '/')).reverse := by
    rw [← List.reverse_append,List.takeWhile_append_dropWhile,List.reverse_reverse]
  unfold parentPath
  simp only [String.toList_ofList]
  intro first
  split at first
  · rw [List.head?_take] at first
    simp only [one_ne_zero,if_false] at first
    exact start _ first rfl
  · apply start '/' _ rfl
    rw [parts,List.head?_append,first]
    rfl

theorem stem_head {path : String} (relative : path.toList.head? ≠ some '/') : (stem path).toList.head? ≠ some '/' := by
  have front := directory_head (parentPath_head relative)
  rw [stem,String.toList_append,List.head?_append]
  cases found : (directory (parentPath path)).toList.head? with
  | none =>
    intro first
    exact filename_plain path (List.mem_of_head? first)
  | some ch =>
    rw [found] at front
    exact front

end Paths

namespace BuildMakefile

open Preparation SourceFile
open CompilationDatabase hiding objectPath

section Compiler

def argument (word : String) : Argument :=
  match word.toList.dropWhile (· = '@') with
  | '$' :: '(' :: rest => if rest.getLast? = some ')' then .ref (String.ofList rest.dropLast) else .word word
  | _ => .word word

def expandWords (env : Variables) (words : List String) : List String :=
  words.flatMap fun word => (argument word).expand env

/-- What a command gives the compiler before the name of the output. -/
def options (command : CustomCommandLine) : List String := command.takeWhile (· ≠ "-o")

def output (command : CustomCommandLine) : Option String := (command.dropWhile (· ≠ "-o")).tail.head?

/-- `F.d` for `F.o`. -/
def besides (object : String) : Option String :=
  if object.toList.reverse.take 2 = ['o','.'] then some (String.ofList object.toList.dropLast.dropLast ++ ".d") else none

/-- The file the compiler writes for `-MMD -o F.o`. -/
def dependencyFile (env : Variables) (command : CustomCommandLine) : Option String :=
  if "-MMD" ∈ expandWords env (options command) then (output command).bind besides else none

namespace Rule

variable (r : Rule)

def environment : Variables := included r.input

def compileCommand (buildType filename : String) : Option CustomCommandLine :=
  if isCppSourceFile (fullQualifiedPath r.input filename) then
    some (r.buildCommand buildType filename "CXX" "CXXFLAGS" "_CXXFLAGS")
  else if isCSourceFile (fullQualifiedPath r.input filename) then
    some (r.buildCommand buildType filename "CC" "CFLAGS" "_CFLAGS")
  else none

def produced (buildType filename : String) : Option String :=
  (r.compileCommand buildType filename).bind (dependencyFile r.environment)

/-- The dependencies found by the compiler reach the next run of make, and none are overwritten. -/
structure ReadBack : Prop where
  included : ∀ t ∈ targets r.generateBuildFile, ∀ command ∈ t.cmds, isCompiler command = true →
    ∀ file, dependencyFile r.environment command = some file → file ∈ inclusions r.generateBuildFile
  distinct : ∀ buildType ∈ r.buildTypes, ∀ f ∈ r.input.files.expandedSourceFiles, ∀ buildType' ∈ r.buildTypes,
    ∀ f' ∈ r.input.files.expandedSourceFiles, ∀ file, r.produced buildType f = some file →
      r.produced buildType' f' = some file → buildType = buildType' ∧ f = f'

/-- The source is compiled with `-MMD` under this build type. -/
def Tracks (buildType filename : String) : Prop := ∃ command, r.compileCommand buildType filename = some command ∧
  "-MMD" ∈ expandWords r.environment (options command)

/-- No package is named by an absolute path, and no source in it. -/
def Relative : Prop := ∀ f ∈ r.input.files.expandedSourceFiles,
  (fullQualifiedPath r.input f).toList.head? ≠ some '/'

instance : Decidable r.Relative := List.decidableBAll ..

/-- Where dependencies are tracked, a build type has no folder of its own, and a path one use. -/
structure InPlace : Prop where
  folder : ∀ buildType ∈ r.buildTypes, ∀ f ∈ r.input.files.expandedSourceFiles, r.Tracks buildType f →
    directory (sub r.workingFolder buildType) = directory r.workingFolder
  apart : ∀ buildType ∈ r.buildTypes, ∀ f ∈ r.input.files.expandedSourceFiles, ∀ buildType' ∈ r.buildTypes,
    ∀ f' ∈ r.input.files.expandedSourceFiles, r.Tracks buildType f → r.Tracks buildType' f' →
      stem (fullQualifiedPath r.input f) = stem (fullQualifiedPath r.input f') → buildType = buildType' ∧ f = f'

end Rule

end Compiler

section Files

variable (r : Rule)

theorem besides_object (front : String) : besides (front ++ ".o") = some (front ++ ".d") := by
  simp [besides]

theorem below_stem (base : String) {path suffix : String} (relative : path.toList.head? ≠ some '/')
    (plain : '/' ∉ suffix.toList) : sub base (withSuffix path suffix) = directory base ++ stem path ++ suffix := by
  have front := stem_head relative
  have behind : (stem path ++ suffix).toList.head? ≠ some '/' := by
    rw [String.toList_append,List.head?_append]
    cases found : (stem path).toList.head? with
    | none =>
      intro first
      exact plain (List.mem_of_head? first)
    | some ch =>
      rw [found] at front
      exact front
  rw [withSuffix_stem path plain,sub_relative base behind,String.append_assoc]

theorem options_buildCommand (buildType f compiler flags suffix : String) :
    options (r.buildCommand buildType f compiler flags suffix) =
      ["@$(" ++ compiler ++ ")","$(CPP_DEFINES)","$(CPP_INCLUDES)","$(CPPFLAGS)","$(" ++ flags ++ ")",
        "$(" ++ buildType ++ suffix ++ ")","$(INHERENT_FLAGS)"] ∧
    output (r.buildCommand buildType f compiler flags suffix) = some (objectPath r.input buildType f) := by
  have silenced : "@$(" ++ compiler ++ ")" ≠ "-o" := by
    intro same
    simpa using congrArg String.toList same
  have other : ∀ name : String, "$(" ++ name ++ ")" ≠ "-o" := by
    intro name same
    simpa using congrArg String.toList same
  have typed : "$(" ++ buildType ++ suffix ++ ")" ≠ "-o" := by
    intro same
    simpa using congrArg String.toList same
  simp [options,output,Rule.buildCommand,silenced,other,typed]

theorem produced_iff {buildType f file : String} (relative : (fullQualifiedPath r.input f).toList.head? ≠ some '/') :
    r.produced buildType f = some file ↔ r.Tracks buildType f ∧
      file = directory (sub r.workingFolder buildType) ++ stem (fullQualifiedPath r.input f) ++ ".d" := by
  have object : objectPath r.input buildType f =
      directory (sub r.workingFolder buildType) ++ stem (fullQualifiedPath r.input f) ++ ".o" :=
    below_stem _ relative (by decide)
  have written : ∀ command, r.compileCommand buildType f = some command →
      output command = some (objectPath r.input buildType f) := by
    intro command found
    unfold Rule.compileCommand at found
    split at found
    · obtain rfl := Option.some.inj found
      exact (options_buildCommand ..).2
    · split at found
      · obtain rfl := Option.some.inj found
        exact (options_buildCommand ..).2
      · cases found
  unfold Rule.produced Rule.Tracks
  cases found : r.compileCommand buildType f with
  | none => simp
  | some command =>
    simp only [Option.bind_some,dependencyFile,written command found,object,besides_object,Option.some.injEq,
      exists_eq_left']
    split
    · next tracked => simpa [tracked] using eq_comm
    · next untracked => simp [untracked]

end Files

section Inclusions

@[simp] theorem inclusions_append (first second : List Statement) :
    inclusions (first ++ second) = inclusions first ++ inclusions second := List.filterMap_append

theorem inclusions_spreads (file : String) : Spreads (fun statements => file ∈ inclusions statements) :=
  ⟨by simp [inclusions],fun first second => by rw [inclusions_append,List.mem_append]⟩

@[simp] theorem inclusions_map (ts : List Target) : inclusions (ts.map .target) = [] := by
  induction ts with
  | nil => rfl
  | cons t ts ih => simp [inclusions,Statement.toInclusion]

variable (r : Rule)

theorem inclusions_source (headers : List String) (buildType filename : String) (mark : Bool) :
    inclusions (r.addSourceFile buildType headers false ⟨filename,mark⟩).1 = [dotDPath r.input filename] := by
  have single : ∀ c : Prop, ∀ _ : Decidable c, ∀ t : Target, inclusions (if c then [.target t] else []) = [] := by
    intro c _ t
    split <;> rfl
  have either : ∀ c : Prop, ∀ _ : Decidable c, ∀ t : Target, ∀ others, inclusions others = [] →
      inclusions (if c then [.target t] else others) = [] := by
    intro c _ t others none
    split
    · rfl
    · exact none
  have first : ∀ t : Target, inclusions [.including (dotDPath r.input filename) false,.target t] =
      [dotDPath r.input filename] := fun _ => rfl
  simp only [Rule.addSourceFile,Rule.addSourceFileCommands,inclusions_append,single,either,first,List.nil_append,
    List.append_nil]

theorem inclusions_buildTypes (headers : List String) (buildTypes : List String) (mark : Bool) (file : String) :
    file ∈ inclusions (r.generateBuildTypes headers false buildTypes
        (r.input.files.expandedSourceFiles.map (⟨·,mark⟩))).1 ↔
      buildTypes ≠ [] ∧ ∃ f ∈ r.input.files.expandedSourceFiles, file = dotDPath r.input f := by
  rw [(inclusions_spreads file).buildTypes r headers
    (fun buildType filename mark => by rw [inclusions_source,List.mem_singleton])
    (fun buildType objects => iff_false_intro (by simp only [inclusions_map,List.not_mem_nil,not_false_eq_true])),
    or_false]

theorem inclusions_generate (file : String) : file ∈ inclusions r.generateBuildFile ↔
    file = sub r.workingFolder "flags.make" ∨ file = sub r.workingFolder "toolchain.make" ∨
      (r.buildTypes ≠ [] ∧ ∃ f ∈ r.input.files.expandedSourceFiles, file = dotDPath r.input f) := by
  have common : inclusions r.commonStatements = [sub r.workingFolder "flags.make",sub r.workingFolder "toolchain.make"] :=
    rfl
  have clean : ∀ cmds, inclusions [.target ⟨"clean",[],cmds,true⟩] = [] := fun _ => rfl
  simp only [Rule.generateBuildFile,inclusions_append,common,inclusions_map,clean,List.append_nil,List.mem_append,
    inclusions_buildTypes,List.mem_cons,List.not_mem_nil,or_false,or_assoc]

end Inclusions

section Commands

variable (r : Rule)

theorem compiled_command (headers : List String) (buildType f : String) {command : CustomCommandLine}
    (compiler : isCompiler command = true) : (∃ t ∈ r.compiled headers buildType f, command ∈ t.cmds) ↔
      r.compileCommand buildType f = some command := by
  have last : ∀ made : CustomCommandLine,
      command ∈ (r.compileTarget buildType f headers made).cmds ↔ made = command := by
    intro made
    simp only [Rule.compileTarget,List.mem_cons,List.not_mem_nil,or_false]
    constructor
    · rintro (rfl | rfl | rfl)
      · simp [isCompiler,Rule.printStatement] at compiler
      · simp [isCompiler] at compiler
      · rfl
    · rintro rfl
      exact .inr (.inr rfl)
  unfold Rule.compiled Rule.compileCommand
  split
  · simp [last]
  · split
    · simp [last]
    · simp

theorem generate_commands {command : CustomCommandLine} (compiler : isCompiler command = true) :
    (∃ t ∈ targets r.generateBuildFile, command ∈ t.cmds) ↔
      ∃ buildType ∈ r.buildTypes, ∃ f ∈ r.input.files.expandedSourceFiles,
        r.compileCommand buildType f = some command := by
  obtain ⟨clean,isClean,perm⟩ := generate_recipes r
  have compiles : ∀ t : Target, command ∈ t.cmds → t.cmds.any isCompiler ≠ false := by
    intro t member none
    exact List.any_eq_false.mp none command member compiler
  constructor
  · rintro ⟨t,member,inside⟩
    have recipe : t ∈ recipes r.generateBuildFile := by
      apply List.mem_filter.mpr ⟨member,?_⟩
      simpa using List.ne_nil_of_mem inside
    have sorted := perm.mem_iff.mp recipe
    simp only [Rule.sortedRecipes,List.mem_append] at sorted
    rcases sorted with (stamp | object | link) | removed
    · obtain ⟨g,-,rfl⟩ := List.mem_map.mp stamp
      exact absurd (lintTarget_plain r g) (compiles _ inside)
    · obtain ⟨buildType,typed,object⟩ := List.mem_flatMap.mp object
      obtain ⟨f,source,object⟩ := List.mem_flatMap.mp object
      exact ⟨buildType,typed,f,source,(compiled_command r _ buildType f compiler).mp ⟨t,object,inside⟩⟩
    · obtain ⟨buildType,-,link⟩ := List.mem_flatMap.mp link
      exact absurd (linking_plain r _ buildType t link) (compiles _ inside)
    · exact absurd (clean_plain (isClean t removed)) (compiles _ inside)
  · rintro ⟨buildType,typed,f,source,found⟩
    obtain ⟨t,object,inside⟩ := (compiled_command r r.headerStamps buildType f compiler).mpr found
    have recipe : t ∈ recipes r.generateBuildFile := by
      apply perm.mem_iff.mpr
      simp only [Rule.sortedRecipes,List.mem_append]
      exact .inl (.inr (.inl (List.mem_flatMap.mpr ⟨buildType,typed,List.mem_flatMap.mpr ⟨f,source,object⟩⟩)))
    exact ⟨t,(List.mem_filter.mp recipe).1,inside⟩

end Commands

section FirstRule

variable (r : Rule)

theorem compileCommand_compiler {buildType f : String} {command : CustomCommandLine}
    (found : r.compileCommand buildType f = some command) : isCompiler command = true := by
  unfold Rule.compileCommand at found
  split at found
  · obtain rfl := Option.some.inj found
    simp [isCompiler,Rule.buildCommand]
  · split at found
    · obtain rfl := Option.some.inj found
      simp [isCompiler,Rule.buildCommand]
    · cases found

theorem tracks_extension {buildType f g : String}
    (same : extension (fullQualifiedPath r.input f) = extension (fullQualifiedPath r.input g))
    (tracks : r.Tracks buildType f) : r.Tracks buildType g := by
  obtain ⟨command,found,tracked⟩ := tracks
  have cpp : isCppSourceFile (fullQualifiedPath r.input f) = isCppSourceFile (fullQualifiedPath r.input g) := by
    rw [isCppSourceFile,isCppSourceFile,same]
  have c : isCSourceFile (fullQualifiedPath r.input f) = isCSourceFile (fullQualifiedPath r.input g) := by
    rw [isCSourceFile,isCSourceFile,same]
  unfold Rule.compileCommand at found
  unfold Rule.Tracks Rule.compileCommand
  rw [cpp,c] at found
  split at found
  · next isCpp =>
    obtain rfl := Option.some.inj found
    rw [(options_buildCommand ..).1] at tracked
    refine ⟨_,if_pos isCpp,?_⟩
    rw [(options_buildCommand ..).1]
    exact tracked
  · next notCpp =>
    split at found
    · next isC =>
      obtain rfl := Option.some.inj found
      rw [(options_buildCommand ..).1] at tracked
      refine ⟨_,(if_neg notCpp).trans (if_pos isC),?_⟩
      rw [(options_buildCommand ..).1]
      exact tracked
    · cases found

/-- A list cannot have, for each element of a kind, one of that kind that is larger. -/
theorem none_of_larger [LinearOrder β] {xs : List α} {p : α → Prop} (measure : α → β)
    (larger : ∀ x ∈ xs, p x → ∃ y ∈ xs, p y ∧ measure x < measure y) : ∀ x ∈ xs, ¬p x := by
  classical
  intro x member holds
  obtain ⟨y,inside,largest⟩ := (xs.toFinset.filter p).exists_max_image measure ⟨x,by simp [member,holds]⟩
  obtain ⟨listed,kind⟩ := by simpa using inside
  obtain ⟨z,member,holds,above⟩ := larger y listed kind
  exact absurd (largest z (by simp [member,holds])) (not_le.mpr above)

/-- A tracked source whose dependencies are included under another folder is tracked there as well. -/
theorem tracks_of_path {buildType base f g : String} (relative : r.Relative)
    (member : f ∈ r.input.files.expandedSourceFiles) (inside : g ∈ r.input.files.expandedSourceFiles)
    (same : directory base ++ stem (fullQualifiedPath r.input f) =
      directory r.workingFolder ++ stem (fullQualifiedPath r.input g)) (tracks : r.Tracks buildType f) :
    r.Tracks buildType g := by
  have objects : sub base (withSuffix (fullQualifiedPath r.input f) ".o") =
      sub r.workingFolder (withSuffix (fullQualifiedPath r.input g) ".o") := by
    rw [below_stem _ (relative f member) (by decide),below_stem _ (relative g inside) (by decide),same]
  have names := congrArg filename objects
  rw [filename_below,filename_below,filename_withSuffix _ (by decide),filename_withSuffix _ (by decide)] at names
  exact tracks_extension r (extension_of_filename ((String.append_left_inj ".o").mp names)) tracks

/-- All dependency files of a build type are included only if it has no folder of its own. -/
theorem folder_of_included {buildType : String} (relative : r.Relative)
    (included : ∀ f ∈ r.input.files.expandedSourceFiles, r.Tracks buildType f →
      ∃ g ∈ r.input.files.expandedSourceFiles, directory (sub r.workingFolder buildType) ++
        stem (fullQualifiedPath r.input f) = directory r.workingFolder ++ stem (fullQualifiedPath r.input g)) :
    ∀ f ∈ r.input.files.expandedSourceFiles, r.Tracks buildType f →
      directory (sub r.workingFolder buildType) = directory r.workingFolder := by
  let length (f : String) := (stem (fullQualifiedPath r.input f)).toList.length
  have step : ∀ f ∈ r.input.files.expandedSourceFiles, r.Tracks buildType f →
      ∃ g ∈ r.input.files.expandedSourceFiles, r.Tracks buildType g ∧
        (directory (sub r.workingFolder buildType)).toList.length + length f =
          (directory r.workingFolder).toList.length + length g := by
    intro f member tracks
    obtain ⟨g,inside,same⟩ := included f member tracks
    have lengths := congrArg (fun path => path.toList.length) same
    simp only [String.toList_append,List.length_append] at lengths
    exact ⟨g,inside,tracks_of_path r relative member inside same tracks,lengths⟩
  rcases lt_trichotomy (directory (sub r.workingFolder buildType)).toList.length
    (directory r.workingFolder).toList.length with shorter | equal | longer
  · -- The paths that are tracked become shorter and shorter.
    intro f member tracks
    refine absurd tracks (none_of_larger (fun f => -(length f : Int)) ?_ f member)
    intro f member tracks
    obtain ⟨g,inside,tracked,lengths⟩ := step f member tracks
    exact ⟨g,inside,tracked,by omega⟩
  · intro f member tracks
    obtain ⟨g,-,same⟩ := included f member tracks
    apply String.toList_inj.mp
    have texts := congrArg String.toList same
    rw [String.toList_append,String.toList_append] at texts
    exact List.append_inj_left texts equal
  · intro f member tracks
    refine absurd tracks (none_of_larger length ?_ f member)
    intro f member tracks
    obtain ⟨g,inside,tracked,lengths⟩ := step f member tracks
    exact ⟨g,inside,tracked,by omega⟩

/-- All that is written is included exactly if what tracks dependencies has no folder of its own. -/
theorem included_iff (relative : r.Relative) :
    (∀ t ∈ targets r.generateBuildFile, ∀ command ∈ t.cmds, isCompiler command = true →
      ∀ file, dependencyFile r.environment command = some file → file ∈ inclusions r.generateBuildFile) ↔
        ∀ buildType ∈ r.buildTypes, ∀ f ∈ r.input.files.expandedSourceFiles, r.Tracks buildType f →
          directory (sub r.workingFolder buildType) = directory r.workingFolder := by
  have last : ∀ path : String, (path ++ ".d").toList.getLast? = some 'd' := by simp
  have make : ∀ name path : String, name.toList.getLast? = some 'e' → sub r.workingFolder name ≠ path ++ ".d" := by
    intro name path ends same
    obtain ⟨front,text,-⟩ := sub_toList r.workingFolder name
    have final := last path
    rw [← same,text,List.getLast?_append,ends] at final
    simp at final
  constructor
  · intro included buildType typed
    apply folder_of_included r relative
    intro f member tracks
    have written := (produced_iff r (relative f member)).mpr ⟨tracks,rfl⟩
    unfold Rule.produced at written
    obtain ⟨command,found,written⟩ := Option.bind_eq_some_iff.mp written
    have compiler := compileCommand_compiler r found
    obtain ⟨t,target,inside⟩ := (generate_commands r compiler).mpr ⟨buildType,typed,f,member,found⟩
    have listed := included t target command inside compiler _ written
    rcases (inclusions_generate r _).mp listed with flags | toolchain | ⟨-,g,source,same⟩
    · exact absurd flags.symm (make _ _ rfl)
    · exact absurd toolchain.symm (make _ _ rfl)
    · rw [dotDPath,below_stem _ (relative g source) (by decide)] at same
      exact ⟨g,source,(String.append_left_inj ".d").mp same⟩
  · intro folder t target command inside compiler file written
    obtain ⟨buildType,typed,f,member,found⟩ := (generate_commands r compiler).mp ⟨t,target,inside⟩
    have produced : r.produced buildType f = some file := Option.bind_eq_some_iff.mpr ⟨command,found,written⟩
    obtain ⟨tracks,rfl⟩ := (produced_iff r (relative f member)).mp produced
    apply (inclusions_generate r _).mpr
    refine .inr (.inr ⟨List.ne_nil_of_mem typed,f,member,?_⟩)
    rw [dotDPath,below_stem _ (relative f member) (by decide),folder buildType typed f member tracks]
    rfl

/-- Dependencies are read back exactly if what tracks them adds nothing to the working folder. -/
theorem readBack_iff (relative : r.Relative) : r.ReadBack ↔ r.InPlace := by
  have paths : ∀ folder folder' name name' : String, folder = folder' →
      (folder ++ name ++ ".d" = folder' ++ name' ++ ".d" ↔ name = name') := by
    rintro folder _ name name' rfl
    exact (String.append_left_inj _).trans (String.append_right_inj _)
  constructor
  · intro back
    have folder := (included_iff r relative).mp back.included
    refine ⟨folder,?_⟩
    intro buildType typed f member buildType' typed' f' member' tracks tracks' same
    apply back.distinct buildType typed f member buildType' typed' f' member'
    · exact (produced_iff r (relative f member)).mpr ⟨tracks,rfl⟩
    · refine (produced_iff r (relative f' member')).mpr ⟨tracks',?_⟩
      apply (paths _ _ _ _ _).mpr same
      rw [folder buildType typed f member tracks,folder buildType' typed' f' member' tracks']
  · intro place
    refine ⟨(included_iff r relative).mpr place.folder,?_⟩
    intro buildType typed f member buildType' typed' f' member' file written written'
    obtain ⟨tracks,rfl⟩ := (produced_iff r (relative f member)).mp written
    obtain ⟨tracks',same⟩ := (produced_iff r (relative f' member')).mp written'
    apply place.apart buildType typed f member buildType' typed' f' member' tracks tracks'
    apply (paths _ _ _ _ _).mp same
    rw [place.folder buildType typed f member tracks,place.folder buildType' typed' f' member' tracks']

end FirstRule

def tracked (buildTypes : List String) : Rule where
  input := ⟨{ sampleSession with buildTypes := buildTypes },{ usualConfiguration with compileFlags := ["-MP","-MMD"] },
    [],"app",{},{ workingFolder := "/p/.build/m64/app@lib", libraryFileName := "liblib.a"
                  expandedSourceFiles := ["a.cc"] },{},[]⟩
  name := "lib"
  artifact := .library
  step := fun _ => 0
  steps := fun _ => []

/-- No build type, nothing to read back; for `DEBUG` the file is in its folder and not included. -/
theorem tracked_place : ((tracked []).ReadBack ↔ (tracked []).InPlace) ∧
    ((tracked ["DEBUG"]).ReadBack ↔ (tracked ["DEBUG"]).InPlace) :=
  ⟨readBack_iff _ (by decide +kernel),readBack_iff _ (by decide +kernel)⟩

/-- The compiler writes below `DEBUG`, and the makefile includes a file above it. -/
theorem debug_dependencies_lost :
    (tracked ["DEBUG"]).produced "DEBUG" "a.cc" = some "/p/.build/m64/app@lib/DEBUG/app/a.cc.d" ∧
    inclusions (tracked ["DEBUG"]).generateBuildFile = ["/p/.build/m64/app@lib/flags.make",
      "/p/.build/m64/app@lib/toolchain.make","/p/.build/m64/app@lib/app/a.cc.d"] ∧
    ¬(tracked ["DEBUG"]).ReadBack := by
  have written : (tracked ["DEBUG"]).produced "DEBUG" "a.cc" = some "/p/.build/m64/app@lib/DEBUG/app/a.cc.d" := by
    decide +kernel
  have including : inclusions (tracked ["DEBUG"]).generateBuildFile = ["/p/.build/m64/app@lib/flags.make",
      "/p/.build/m64/app@lib/toolchain.make","/p/.build/m64/app@lib/app/a.cc.d"] := by decide +kernel
  refine ⟨written,including,fun back => ?_⟩
  obtain ⟨command,found,file⟩ := Option.bind_eq_some_iff.mp written
  have compiler := compileCommand_compiler _ found
  obtain ⟨t,target,inside⟩ := (generate_commands _ compiler).mpr ⟨"DEBUG",by decide,"a.cc",by decide,found⟩
  have listed := back.included t target command inside compiler _ file
  rw [including] at listed
  simp at listed

end BuildMakefile

end JkBuild
