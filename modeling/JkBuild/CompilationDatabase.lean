import JkBuild.Preparation
import JkBuild.RootMakefile
import Mathlib.Data.Finset.Sort
import Mathlib.Data.String.Basic

/-! The two compilers of a `cc_library`: the recipes of its makefile with the variables they
use, and the commands of the compilation database. A flag is taken as one word: what make
and the shell read in its text is left out, and so is the `@` that silences a recipe. -/
namespace JkBuild.CompilationDatabase

open Preparation

structure Configuration where
  cpplintPath : String
  cc : List String
  cxx : List String
  compileFlags : List String
  cflags : List String
  cxxflags : List String
  debugCflagsExtra : List String
  debugCxxflagsExtra : List String
  releaseCflagsExtra : List String
  releaseCxxflagsExtra : List String
  profilingCflagsExtra : List String
  profilingCxxflagsExtra : List String

structure Exported where
  packageName : String
  name : String
  key : String
  value : String

/-- What both compilers read: the session and a rule that has been prepared. -/
structure Input where
  session : Session
  config : Configuration
  extraFlags : List String
  packageName : String
  fields : Fields
  files : Files
  flags : Flags
  exported : List Exported

/-- The words of a command: the compiler with the option for the platform, then the rest. -/
structure Command where
  compiler : List String
  flags : List String
  deriving DecidableEq, Repr

def Command.arguments (command : Command) : List String := command.compiler ++ command.flags

section SourceFile

def extension (path : String) : String :=
  let filename := (path.toList.reverse.takeWhile (· ≠ '/')).reverse
  let suffix := (filename.reverse.takeWhile (· ≠ '.')).reverse
  if filename = ['.','.'] ∨ filename.length ≤ suffix.length + 1 then "" else "." ++ String.ofList suffix

def cppExtensions : List String := [".cc",".cpp",".cxx"]

def cExtensions : List String := [".c"]

def isCppSourceFile (path : String) : Bool := cppExtensions.contains (RootMakefile.asciiStrToLower (extension path))

def isCSourceFile (path : String) : Bool := cExtensions.contains (RootMakefile.asciiStrToLower (extension path))

def fullQualifiedPath (i : Input) (filename : String) : String := sub i.packageName filename

def objectPath (i : Input) (buildType filename : String) : String :=
  sub (sub i.files.workingFolder buildType) (fullQualifiedPath i filename ++ ".o")

def sourceFilename (i : Input) (filename : String) : String :=
  sub i.session.projectRoot (fullQualifiedPath i filename)

end SourceFile

def platformFlag : TargetPlatform → String
  | .k64 => "-m64"
  | .k32 => "-m32"

def cppincludes (platform : TargetPlatform) : List String :=
  ["-isystem",".build/.lib/m" ++ platform.toString ++ "/include","-I.build/include"]

def cxxincludes : List String := ["-I.build/pb/c++"]

section Makefile

def gitDesc (i : Input) : String :=
  "-DGIT_DESC=\"\\\"`cd " ++ i.packageName ++ " && git describe --tags --always`\\\"\""

abbrev Variables := List (String × List String)

def buildTypeVariables (i : Input) (buildType : String) (cflagsExtra cxxflagsExtra : List String) : Variables :=
  let compileFlags := i.config.compileFlags ++ [gitDesc i]
  [(buildType ++ "_CFLAGS",compileFlags ++ i.config.cflags ++ cflagsExtra ++ cppincludes i.session.platform),
    (buildType ++ "_CXXFLAGS",
      compileFlags ++ i.config.cxxflags ++ cxxflagsExtra ++ cppincludes i.session.platform ++ cxxincludes)]

def Exported.variable (e : Exported) : String × List String :=
  (String.ofList ((quote (e.packageName ++ "/" ++ e.name) ++ "_" ++ e.key).toList.map Char.toUpper),[e.value])

/-- `generate_flag_file`: the assignments of `flags.make` in their order. -/
def generateFlagFile (i : Input) : Variables :=
  [("WORKING_FOLDER",[i.files.workingFolder]),
    ("CFLAGS",sorted i.files.expandedCFileFlags),
    ("CPPFLAGS",sorted i.files.expandedCppFileFlags),
    ("CXXFLAGS",i.fields.cxxFlags ++ i.extraFlags),
    ("INHERENT_FLAGS",i.flags.resolvedInherentFlags.sort)] ++
  buildTypeVariables i "DEBUG" i.config.debugCflagsExtra i.config.debugCxxflagsExtra ++
  buildTypeVariables i "RELEASE" i.config.releaseCflagsExtra i.config.releaseCxxflagsExtra ++
  buildTypeVariables i "PROFILING" i.config.profilingCflagsExtra i.config.profilingCxxflagsExtra ++
  [("CPP_DEFINES",i.flags.resolvedDefines.sort),("CPP_INCLUDES",i.flags.resolvedIncludes.sort)] ++
  i.exported.map Exported.variable

def generateToolchainFile (i : Input) : Variables :=
  [("CXX",i.config.cxx ++ [platformFlag i.session.platform]),
    ("CC",i.config.cc ++ [platformFlag i.session.platform]),
    ("LINKER",["g++"]),("AR",["ar","rcs"]),("RM",["$(JK_COMMAND)","delete_file"]),
    ("CPPLINT",[i.config.cpplintPath]),("MKDIR",["mkdir","-p"])]

def valueOf (env : Variables) (name : String) : List String :=
  env.foldl (fun found entry => if entry.1 = name then entry.2 else found) []

inductive Argument where
  | ref (name : String)
  | word (text : String)
  deriving DecidableEq, Repr

def Argument.expand (env : Variables) : Argument → List String
  | ref name => valueOf env name
  | word text => [text]

structure Recipe where
  compiler : String
  arguments : List Argument

/-- The build statement for one language, with the variables of that language. -/
def buildStatement (i : Input) (buildType filename compiler flags suffix : String) : Recipe :=
  ⟨compiler,[.ref "CPP_DEFINES",.ref "CPP_INCLUDES",.ref "CPPFLAGS",.ref flags,.ref (buildType ++ suffix),
    .ref "INHERENT_FLAGS",.word "-o",.word (objectPath i buildType filename),.word "-c",
    .word (sourceFilename i filename)]⟩

/-- `add_source_file_commands`: files with other extensions are not compiled. -/
def addSourceFileCommands (i : Input) (buildType filename : String) : Option Recipe :=
  if isCppSourceFile (fullQualifiedPath i filename) then
    some (buildStatement i buildType filename "CXX" "CXXFLAGS" "_CXXFLAGS")
  else if isCSourceFile (fullQualifiedPath i filename) then
    some (buildStatement i buildType filename "CC" "CFLAGS" "_CFLAGS")
  else none

/-- The makefile of the rule includes `flags.make` and then `toolchain.make`. -/
def included (i : Input) : Variables := generateFlagFile i ++ generateToolchainFile i

def Recipe.expand (env : Variables) (recipe : Recipe) : Command :=
  ⟨valueOf env recipe.compiler,recipe.arguments.flatMap (Argument.expand env)⟩

end Makefile

section Database

/-- The order in which a hash set of flags is read, which the library leaves open. -/
structure SetOrder where
  toVector : Finset String → List String
  perm : ∀ s, (toVector s).Perm s.sort

/-- The command of one source file, with the variables under the names the source gives them. -/
def databaseCommand (i : Input) (order : SetOrder) (filename : String) : Command :=
  let platform := i.session.platform
  let CXX := i.config.cxx ++ [platformFlag platform]
  let CC := i.config.cxx ++ [platformFlag platform]
  let CPPFLAGS := i.files.expandedCFileFlags
  let CXXFLAGS := i.fields.cxxFlags ++ i.extraFlags
  let INHERENT_FLAGS := order.toVector i.flags.resolvedInherentFlags
  let CFLAGS := i.files.expandedCFileFlags
  let CPP_DEFINES := order.toVector i.flags.resolvedDefines
  let CPP_INCLUDES := order.toVector i.flags.resolvedIncludes
  let compileFlags := i.config.compileFlags ++ ["-DGIT_DESC"]
  let DEBUG_CXX_FLAGS := compileFlags ++ i.config.cxxflags ++ i.config.releaseCxxflagsExtra ++
    cppincludes platform ++ cxxincludes
  let DEBUG_C_FLAGS := compileFlags ++ i.config.cflags ++ i.config.releaseCflagsExtra ++ cppincludes platform
  if isCSourceFile (fullQualifiedPath i filename) then
    ⟨CXX,CPP_DEFINES ++ CPP_INCLUDES ++ CPPFLAGS ++ CXXFLAGS ++ DEBUG_CXX_FLAGS ++ INHERENT_FLAGS ++
      ["-c",sourceFilename i filename]⟩
  else
    ⟨CC,CPP_DEFINES ++ CPP_INCLUDES ++ CPPFLAGS ++ CFLAGS ++ DEBUG_C_FLAGS ++ INHERENT_FLAGS ++
      ["-c",sourceFilename i filename]⟩

end Database

/-- The same compiler words, and the same flags with repetitions, once the output and the
define of the description are taken away. -/
structure SameCommand (i : Input) (object : String) (database recipe : Command) : Prop where
  compiler : database.compiler = recipe.compiler
  flags : ∃ flags, database.flags.Perm ("-DGIT_DESC" :: flags) ∧
    recipe.flags.Perm (gitDesc i :: "-o" :: object :: flags)

/-- The database has for this file what the `DEBUG` recipe of the makefile runs. -/
def Agrees (i : Input) (order : SetOrder) (filename : String) : Prop :=
  ∃ recipe, addSourceFileCommands i "DEBUG" filename = some recipe ∧
    SameCommand i (objectPath i "DEBUG" filename) (databaseCommand i order filename) (recipe.expand (included i))

/-- A C++ file: the database uses the C groups and the release extras. -/
def CppAgrees (i : Input) : Prop :=
  (i.files.expandedCFileFlags ++ i.files.expandedCFileFlags ++ i.config.cflags ++ i.config.releaseCflagsExtra).Perm
    (i.files.expandedCppFileFlags ++ i.fields.cxxFlags ++ i.extraFlags ++ i.config.cxxflags ++
      i.config.debugCxxflagsExtra ++ cxxincludes)

/-- A C file: the database uses the C++ compiler, the C++ groups and the release extras. -/
def CAgrees (i : Input) : Prop :=
  i.config.cxx = i.config.cc ∧
    (i.fields.cxxFlags ++ i.extraFlags ++ i.config.cxxflags ++ i.config.releaseCxxflagsExtra ++ cxxincludes).Perm
      (i.files.expandedCppFileFlags ++ i.config.cflags ++ i.config.debugCflagsExtra)

section Values

theorem exported_underscores (e : Exported) : 2 ≤ e.variable.1.toList.count '_' := by
  have slash : '_' ∈ (quote (e.packageName ++ "/" ++ e.name)).toList.map Char.toUpper := by
    refine List.mem_map.mpr ⟨'_',?_,rfl⟩
    simp only [quote,String.toList_ofList,List.mem_map]
    exact ⟨'/',by simp,rfl⟩
  have one := List.one_le_count_iff.mpr slash
  have sign : ("_".toList.map Char.toUpper).count '_' = 1 := by decide
  simp only [Exported.variable,String.toList_ofList,String.toList_append,List.map_append,List.count_append]
  omega

theorem valueOf_append (env later : Variables) (name : String) :
    valueOf (env ++ later) name = later.foldl (fun found entry => if entry.1 = name then entry.2 else found)
      (valueOf env name) := List.foldl_append

theorem valueOf_skip (env : Variables) {later : Variables} (apart : ∀ entry ∈ later, entry.1 ≠ name) :
    valueOf (env ++ later) name = valueOf env name := by
  rw [valueOf_append]
  induction later with
  | nil => rfl
  | cons entry later ih =>
    rw [List.foldl_cons,if_neg (apart entry (by simp))]
    exact ih fun other member => apart other (List.mem_cons_of_mem _ member)

variable (i : Input)

/-- A variable that `toolchain.make` does not assign has its value from `flags.make`, where
nothing that is exported can stand in the way of a name with one underscore. -/
theorem included_flags (few : name.toList.count '_' ≤ 1)
    (apart : ∀ entry ∈ generateToolchainFile i, entry.1 ≠ name) :
    valueOf (included i) name = valueOf (generateFlagFile { i with exported := [] }) name := by
  have exported : ∀ entry ∈ i.exported.map Exported.variable, entry.1 ≠ name := by
    rintro entry member rfl
    obtain ⟨e,-,rfl⟩ := List.mem_map.mp member
    have := exported_underscores e
    omega
  rw [included,valueOf_skip _ apart,generateFlagFile,valueOf_skip _ exported]
  simp only [generateFlagFile,List.map_nil,List.append_nil]
  rfl

theorem included_compilers :
    valueOf (included i) "CXX" = i.config.cxx ++ [platformFlag i.session.platform] ∧
      valueOf (included i) "CC" = i.config.cc ++ [platformFlag i.session.platform] := by
  simp [included,valueOf_append,generateToolchainFile]

theorem included_groups :
    valueOf (included i) "CPP_DEFINES" = i.flags.resolvedDefines.sort ∧
      valueOf (included i) "CPP_INCLUDES" = i.flags.resolvedIncludes.sort ∧
      valueOf (included i) "CPPFLAGS" = sorted i.files.expandedCppFileFlags ∧
      valueOf (included i) "CFLAGS" = sorted i.files.expandedCFileFlags ∧
      valueOf (included i) "CXXFLAGS" = i.fields.cxxFlags ++ i.extraFlags ∧
      valueOf (included i) "INHERENT_FLAGS" = i.flags.resolvedInherentFlags.sort := by
  have apart : ∀ name ∈ ["CPP_DEFINES","CPP_INCLUDES","CPPFLAGS","CFLAGS","CXXFLAGS","INHERENT_FLAGS"],
      ∀ entry ∈ generateToolchainFile i, entry.1 ≠ name := by
    simp [generateToolchainFile]
  refine ⟨?_,?_,?_,?_,?_,?_⟩
  all_goals rw [included_flags i (by decide) (apart _ (by simp))]
  all_goals simp [generateFlagFile,buildTypeVariables,valueOf]

theorem included_debug :
    valueOf (included i) "DEBUG_CFLAGS" = i.config.compileFlags ++ [gitDesc i] ++ i.config.cflags ++
        i.config.debugCflagsExtra ++ cppincludes i.session.platform ∧
      valueOf (included i) "DEBUG_CXXFLAGS" = i.config.compileFlags ++ [gitDesc i] ++ i.config.cxxflags ++
        i.config.debugCxxflagsExtra ++ cppincludes i.session.platform ++ cxxincludes := by
  have apart : ∀ name ∈ ["DEBUG_CFLAGS","DEBUG_CXXFLAGS"],
      ∀ entry ∈ generateToolchainFile i, entry.1 ≠ name := by
    simp [generateToolchainFile]
  have same : gitDesc { i with exported := [] } = gitDesc i := rfl
  constructor
  · rw [included_flags i (by decide) (apart _ (by simp))]
    simp [generateFlagFile,buildTypeVariables,valueOf,same]
  · rw [included_flags i (by decide) (apart _ (by simp))]
    simp [generateFlagFile,buildTypeVariables,valueOf,same]

end Values

section Agreement

variable {i : Input} {order : SetOrder} {filename : String}

theorem cpp_not_c (cpp : isCppSourceFile path = true) : isCSourceFile path = false := by
  unfold isCppSourceFile at cpp
  unfold isCSourceFile
  have one := List.contains_iff_mem.mp cpp
  simp only [cppExtensions,List.mem_cons,List.not_mem_nil,or_false] at one
  rcases one with same | same | same <;> simp [same,cExtensions]

/-- Groups that both commands have cancel; what is left must be the same. -/
theorem sameCommand_iff {object : String} {database recipe : Command} {common left right : List String}
    (first : database.flags.Perm ("-DGIT_DESC" :: (common ++ left)))
    (second : recipe.flags.Perm (gitDesc i :: "-o" :: object :: (common ++ right))) :
    SameCommand i object database recipe ↔ database.compiler = recipe.compiler ∧ left.Perm right := by
  constructor
  · rintro ⟨compiler,flags,one,two⟩
    have here : flags.Perm (common ++ left) := (one.symm.trans first).cons_inv
    have there : flags.Perm (common ++ right) := (two.symm.trans second).cons_inv.cons_inv.cons_inv
    exact ⟨compiler,(List.perm_append_left_iff common).mp (here.symm.trans there)⟩
  · rintro ⟨compiler,same⟩
    refine ⟨compiler,common ++ left,first,second.trans ?_⟩
    exact (((same.symm.append_left common).cons _).cons _).cons _

def sharedGroups (i : Input) (filename : String) : List String :=
  i.flags.resolvedDefines.sort ++ i.flags.resolvedIncludes.sort ++ i.config.compileFlags ++
    cppincludes i.session.platform ++ i.flags.resolvedInherentFlags.sort ++ ["-c",sourceFilename i filename]

theorem sorted_perm (flags : List String) : (sorted flags).Perm flags := List.mergeSort_perm ..

theorem cpp_recipe (cpp : isCppSourceFile (fullQualifiedPath i filename) = true) :
    ∃ recipe, addSourceFileCommands i "DEBUG" filename = some recipe ∧
      (recipe.expand (included i)).compiler = i.config.cxx ++ [platformFlag i.session.platform] ∧
      (recipe.expand (included i)).flags.Perm (gitDesc i :: "-o" :: objectPath i "DEBUG" filename ::
        (sharedGroups i filename ++ (i.files.expandedCppFileFlags ++ i.fields.cxxFlags ++ i.extraFlags ++
          i.config.cxxflags ++ i.config.debugCxxflagsExtra ++ cxxincludes))) := by
  refine ⟨_,by rw [addSourceFileCommands,if_pos cpp],?_,?_⟩
  · exact (included_compilers i).1
  obtain ⟨defines,includes,cppflags,-,cxxflags,inherent⟩ := included_groups i
  have debug : valueOf (included i) ("DEBUG" ++ "_CXXFLAGS") = _ := (included_debug i).2
  rw [List.perm_iff_count]
  intro flag
  have order := (sorted_perm i.files.expandedCppFileFlags).count_eq flag
  simp only [Recipe.expand,buildStatement,List.flatMap_cons,List.flatMap_nil,Argument.expand,defines,includes,
    cppflags,cxxflags,inherent,debug,sharedGroups,List.count_append,List.count_cons,List.count_nil,order]
  omega

theorem c_recipe (c : isCSourceFile (fullQualifiedPath i filename) = true) :
    ∃ recipe, addSourceFileCommands i "DEBUG" filename = some recipe ∧
      (recipe.expand (included i)).compiler = i.config.cc ++ [platformFlag i.session.platform] ∧
      (recipe.expand (included i)).flags.Perm (gitDesc i :: "-o" :: objectPath i "DEBUG" filename ::
        (sharedGroups i filename ++ i.files.expandedCFileFlags ++ (i.files.expandedCppFileFlags ++
          i.config.cflags ++ i.config.debugCflagsExtra))) := by
  have other : isCppSourceFile (fullQualifiedPath i filename) ≠ true := fun cpp => by
    simp [cpp_not_c cpp] at c
  refine ⟨_,by rw [addSourceFileCommands,if_neg other,if_pos c],?_,?_⟩
  · exact (included_compilers i).2
  obtain ⟨defines,includes,cppflags,cflags,-,inherent⟩ := included_groups i
  have debug : valueOf (included i) ("DEBUG" ++ "_CFLAGS") = _ := (included_debug i).1
  rw [List.perm_iff_count]
  intro flag
  have order := (sorted_perm i.files.expandedCppFileFlags).count_eq flag
  have order' := (sorted_perm i.files.expandedCFileFlags).count_eq flag
  simp only [Recipe.expand,buildStatement,List.flatMap_cons,List.flatMap_nil,Argument.expand,defines,includes,
    cppflags,cflags,inherent,debug,sharedGroups,List.count_append,List.count_cons,List.count_nil,order,order']
  omega

theorem cpp_database (order : SetOrder) (cpp : isCppSourceFile (fullQualifiedPath i filename) = true) :
    (databaseCommand i order filename).compiler = i.config.cxx ++ [platformFlag i.session.platform] ∧
      (databaseCommand i order filename).flags.Perm ("-DGIT_DESC" :: (sharedGroups i filename ++
        (i.files.expandedCFileFlags ++ i.files.expandedCFileFlags ++ i.config.cflags ++
          i.config.releaseCflagsExtra))) := by
  have other := cpp_not_c cpp
  constructor
  · simp [databaseCommand,other]
  rw [List.perm_iff_count]
  intro flag
  have inherent := (order.perm i.flags.resolvedInherentFlags).count_eq flag
  have defines := (order.perm i.flags.resolvedDefines).count_eq flag
  have includes := (order.perm i.flags.resolvedIncludes).count_eq flag
  simp only [databaseCommand,other,Bool.false_eq_true,if_false,sharedGroups,List.count_append,List.count_cons,
    List.count_nil,inherent,defines,includes]
  omega

theorem c_database (order : SetOrder) (c : isCSourceFile (fullQualifiedPath i filename) = true) :
    (databaseCommand i order filename).compiler = i.config.cxx ++ [platformFlag i.session.platform] ∧
      (databaseCommand i order filename).flags.Perm ("-DGIT_DESC" :: (sharedGroups i filename ++
        i.files.expandedCFileFlags ++ (i.fields.cxxFlags ++ i.extraFlags ++ i.config.cxxflags ++
          i.config.releaseCxxflagsExtra ++ cxxincludes))) := by
  constructor
  · simp [databaseCommand,c]
  rw [List.perm_iff_count]
  intro flag
  have inherent := (order.perm i.flags.resolvedInherentFlags).count_eq flag
  have defines := (order.perm i.flags.resolvedDefines).count_eq flag
  have includes := (order.perm i.flags.resolvedIncludes).count_eq flag
  simp only [databaseCommand,c,if_true,sharedGroups,List.count_append,List.count_cons,List.count_nil,inherent,
    defines,includes]
  omega

theorem agrees_iff_of (emitted : addSourceFileCommands i "DEBUG" filename = some recipe) :
    Agrees i order filename ↔ SameCommand i (objectPath i "DEBUG" filename) (databaseCommand i order filename)
      (recipe.expand (included i)) := by
  simp [Agrees,emitted]

theorem cpp_agrees_iff (cpp : isCppSourceFile (fullQualifiedPath i filename) = true) :
    Agrees i order filename ↔ CppAgrees i := by
  obtain ⟨recipe,emitted,compiler,flags⟩ := cpp_recipe cpp
  obtain ⟨compiler',flags'⟩ := cpp_database order cpp
  rw [agrees_iff_of emitted,sameCommand_iff flags' flags,compiler,compiler',CppAgrees]
  exact and_iff_right rfl

theorem c_agrees_iff (c : isCSourceFile (fullQualifiedPath i filename) = true) :
    Agrees i order filename ↔ CAgrees i := by
  obtain ⟨recipe,emitted,compiler,flags⟩ := c_recipe c
  obtain ⟨compiler',flags'⟩ := c_database order c
  rw [agrees_iff_of emitted,sameCommand_iff flags' flags,compiler,compiler',CAgrees]
  exact and_congr_left' (List.append_left_inj _)

end Agreement

/-- Where the database agrees with the makefile, for a C++ and for a C file of any rule. -/
theorem database_agrees_iff (i : Input) (order : SetOrder) (filename : String)
    (source : isCppSourceFile (fullQualifiedPath i filename) = true ∨
      isCSourceFile (fullQualifiedPath i filename) = true) :
    Agrees i order filename ↔
      if isCSourceFile (fullQualifiedPath i filename) then CAgrees i else CppAgrees i := by
  rcases source with cpp | c
  · rw [cpp_agrees_iff cpp,cpp_not_c cpp]
    rfl
  · rw [c_agrees_iff c,if_pos c]

def sampleOrder : SetOrder := ⟨fun s => s.sort,fun _ => .refl _⟩

def sampleSession : Session :=
  ⟨"/p","/p/.build/m64",.k64,["DEBUG"],fun _ => (0,[]),fun _ => .ok none,fun path _ => .ok path⟩

def sampleInput (config : Configuration) : Input :=
  ⟨sampleSession,config,[],"app",{},{ expandedSourceFiles := ["a.cc","b.c"] },{},[]⟩

/-- One compiler for both languages, and flags that make up for the groups the database mixes up. -/
def evenConfiguration : Configuration :=
  ⟨"cpplint",["clang"],["clang"],["-Wall"],[],[],["-I.build/pb/c++"],[],[],[],[],[]⟩

theorem evenConfiguration_agrees : Agrees (sampleInput evenConfiguration) sampleOrder "b.c" ∧
    ¬Agrees (sampleInput evenConfiguration) sampleOrder "a.cc" := by
  have c : isCSourceFile (fullQualifiedPath (sampleInput evenConfiguration) "b.c") = true := by decide +kernel
  have cpp : isCppSourceFile (fullQualifiedPath (sampleInput evenConfiguration) "a.cc") = true := by decide +kernel
  constructor
  · rw [database_agrees_iff _ _ _ (.inr c),if_pos c]
    exact ⟨rfl,.refl _⟩
  · rw [database_agrees_iff _ _ _ (.inl cpp),cpp_not_c cpp]
    exact fun same => by simpa [sampleInput,evenConfiguration,cxxincludes] using same.length_eq

def usualConfiguration : Configuration :=
  ⟨"cpplint",["gcc"],["g++"],["-Wall"],["-std=c99"],["-std=c++17"],["-O0"],["-O0"],["-O3"],["-O3"],["-O2"],["-O2"]⟩

/-- Neither file of the project has its command: both get the release extras, the C++ file
the flags of C and the C file those of C++ together with the C++ compiler. -/
theorem usualConfiguration_disagrees :
    (databaseCommand (sampleInput usualConfiguration) sampleOrder "a.cc").arguments =
      ["g++","-m64","-Wall","-DGIT_DESC","-std=c99","-O3","-isystem",".build/.lib/m64/include","-I.build/include",
        "-c","/p/app/a.cc"] ∧
    (databaseCommand (sampleInput usualConfiguration) sampleOrder "b.c").arguments =
      ["g++","-m64","-Wall","-DGIT_DESC","-std=c++17","-O3","-isystem",".build/.lib/m64/include","-I.build/include",
        "-I.build/pb/c++","-c","/p/app/b.c"] ∧
    ¬Agrees (sampleInput usualConfiguration) sampleOrder "a.cc" ∧
    ¬Agrees (sampleInput usualConfiguration) sampleOrder "b.c" := by
  have c : isCSourceFile (fullQualifiedPath (sampleInput usualConfiguration) "b.c") = true := by decide +kernel
  have cpp : isCppSourceFile (fullQualifiedPath (sampleInput usualConfiguration) "a.cc") = true := by decide +kernel
  refine ⟨by decide +kernel,by decide +kernel,?_,?_⟩
  · rw [cpp_agrees_iff cpp]
    exact fun same => by simpa [sampleInput,usualConfiguration,cxxincludes] using same.length_eq
  · rw [c_agrees_iff c]
    exact fun same => absurd same.1 (by decide)

end JkBuild.CompilationDatabase
