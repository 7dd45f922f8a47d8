import JkBuild.LinkedRules
import JkBuild.NestedMakes
import JkBuild.RootKeys
import JkBuild.RuleMakefiles

/-! `make` at the root of a project, with any number of jobs. The root makefile runs make on the
makefile of every rule. -/
namespace JkBuild.ParallelBuild

open Reachability MakeRuns NestedMakes RuleMakefiles Tarjan
open RootMakefile (Target CustomCommandLine RootKey targetName readMakefile)

/-- The rules when their makefiles are written, with the numbers each has drawn. -/
structure Project (n : Nat) where
  session : RootMakefile.Session
  rules : Fin n → PreparedRule
  steps : Fin n → List Nat
  graph : Graph n
  requested : List (Fin n)

namespace Project

variable (p : Project n)

def rootRule (r : Fin n) : RootMakefile.Rule where
  packageName := (p.rules r).input.packageName
  name := (p.rules r).name
  type := (p.rules r).cls.type
  fullQualifiedName := (p.rules r).fullQualifiedName
  workingFolder := (p.rules r).workingFolder
  steps := p.steps r
  exportedFiles := (p.rules r).exportedFiles

def exports (buildType : String) : LinkLine.Exports n where
  exportedFiles r := (p.rules r).exportedFiles buildType
  exportedLinkFlags r := (p.rules r).input.files.exportedLinkFlags

/-- What the search found below the component of a rule. -/
def link (s : State n) (r : Fin n) : Link where
  dependenciesArtifact buildType := ((s.sccId r).bind (LinkLine.dependenciesArtifact (p.exports buildType) s.sccs)).getD []
  depsAndFlags buildType := ((s.sccId r).bind (LinkLine.depsAndFlags (p.exports buildType) s.sccs)).getD []

def makefilePath (r : Fin n) : String := sub (p.rules r).workingFolder "build.make"

/-- The makefile and the goal of a command that runs make. -/
def nested (emitted : List (Fin n)) : CustomCommandLine → Option (Fin n × String)
  | [program,option,file,goal] =>
    if program = "@$(MAKE)" ∧ option = "-f" then (emitted.find? (p.makefilePath · = file)).map (·,goal) else none
  | _ => none

def plan (s : State n) (emitted : List (Fin n)) (ts : List Target) : Plan String (Fin n) where
  outer := readMakefile ts
  call name := ((ts.filter (·.name = name)).flatMap (·.cmds)).findSome? (p.nested emitted)
  inner r := BuildMakefile.makefile ((p.rules r).targets (p.link s r))
  phony r := (p.rules r).phony (p.link s r)
  writes r := (p.rules r).writes (p.link s r)

def outputs (s : State n) (r : Fin n) : List String :=
  (BuildMakefile.makefile ((p.rules r).targets (p.link s r))).names.flatMap ((p.rules r).writes (p.link s r))

def ownInputs (r : Fin n) (buildType : String) : List String := (p.rules r).inputs ⟨fun _ => [],fun _ => []⟩ buildType

/-- A project whose files do not get in each other's way: no rule needs itself, nothing has two
names or is made twice, and what no rule makes is there. -/
structure Laid (s : State n) (emitted : List (Fin n)) (sources : List String) : Prop where
  external : ∀ r, (p.rules r).cls.type.isExternal = true → ∀ d ∈ p.graph r, (p.rules d).cls.type.isExternal = true
  clear : ∀ r ∈ emitted, ¬OnCycle p.graph r
  types : ∀ r ∈ emitted, (p.rules r).buildTypes = p.session.buildTypes
  names : (RootMakefile.names p.session p.rootRule emitted).Nodup
  marked : ∀ d ∈ (RootMakefile.regen p.session p.rootRule emitted).deps,
    d ∈ sources ∧ d ∉ RootMakefile.names p.session p.rootRule emitted
  makefiles : ∀ r ∈ emitted, ∀ r' ∈ emitted, p.makefilePath r = p.makefilePath r' → r = r'
  separate : ∀ r ∈ emitted, (p.rules r).Separate (p.link s r)
  given : ∀ r ∈ emitted, ∀ buildType ∈ p.session.buildTypes, ∀ d ∈ p.ownInputs r buildType, d ∈ sources
  kept : ∀ r ∈ emitted, ∀ d ∈ p.outputs s r, d ∉ sources
  apart : ∀ r ∈ emitted, ∀ r' ∈ emitted, ∀ d ∈ p.outputs s r, d ∈ p.outputs s r' → r = r'

end Project

section Calls

variable {p : Project n} {s : State n} {emitted : List (Fin n)} {sources : List String} {ts : List Target}

theorem Project.Laid.kinds (laid : p.Laid s emitted sources) : RootMakefile.WellKinded p.rootRule p.graph where
  kind r := (RuleClass.kind (p.rules r).cls).1
  external := laid.external

theorem nested_make (laid : p.Laid s emitted sources) (own : r ∈ emitted) (goal : String) :
    p.nested emitted (RootMakefile.makeCommand (p.rootRule r) goal) = some (r,goal) := by
  have found : emitted.find? (p.makefilePath · = p.makefilePath r) = some r := by
    cases search : emitted.find? (p.makefilePath · = p.makefilePath r) with
    | none => exact absurd (List.find?_eq_none.mp search r own) (by simp)
    | some r' =>
      have same : p.makefilePath r' = p.makefilePath r := by simpa using List.find?_some search
      rw [laid.makefiles r' (List.mem_of_find?_eq_some search) r own same]
  have path : sub (p.rootRule r).workingFolder "build.make" = p.makefilePath r := by
    simp only [Project.makefilePath,Project.rootRule]
  simp only [RootMakefile.makeCommand,Project.nested,path,found,and_self,if_true,Option.map_some]

theorem nested_other (p : Project n) (emitted : List (Fin n)) (program : String) (arguments : List String)
    (other : program ≠ "@$(MAKE)") : p.nested emitted (program :: arguments) = none := by
  unfold Project.nested
  split
  · next head => 
    obtain ⟨rfl,-⟩ := List.cons.inj head
    rw [if_neg fun both => other both.1]
  · rfl

theorem call_rule (laid : p.Laid s emitted sources)
    (written : RootMakefile.Written p.session p.rootRule p.graph emitted ts)
    (inTypes : buildType ∈ p.session.buildTypes) (own : r ∈ emitted) :
    (p.plan s emitted ts).call (targetName (p.rootRule r) buildType) = some (r,(p.rules r).goal buildType) := by
  obtain ⟨numbers,present⟩ := written.rules r own
  have some : ts.filter (·.name = targetName (p.rootRule r) buildType) ≠ [] := by
    refine List.ne_nil_of_mem (List.mem_filter.mpr ⟨present buildType inTypes,?_⟩)
    simp only [RootMakefile.ruleTarget_name,decide_true]
  obtain ⟨t,others,split⟩ := List.exists_cons_of_ne_nil some
  obtain ⟨member,named⟩ := List.mem_filter.mp (split ▸ List.mem_cons_self : t ∈ ts.filter _)
  obtain ⟨numbers,rfl⟩ := written.rule_target laid.names inTypes own member (of_decide_eq_true named)
  obtain ⟨printed,cmds⟩ := RootMakefile.ruleTarget_cmds p.session p.rootRule p.graph r numbers buildType
  have goal : RootMakefile.goal (p.rootRule r) buildType = (p.rules r).goal buildType := rfl
  simp only [Project.plan]
  rw [split,List.flatMap_cons,cmds,List.cons_append,List.findSome?_cons,nested_make laid own,goal]

theorem call_none (named : ∀ t ∈ ts, t.name = name → ∀ c ∈ t.cmds, p.nested emitted c = none) :
    (p.plan s emitted ts).call name = none := by
  refine List.findSome?_eq_none_iff.mpr fun c member => ?_
  obtain ⟨t,inFilter,inCmds⟩ := List.mem_flatMap.mp member
  obtain ⟨inTs,same⟩ := List.mem_filter.mp inFilter
  exact named t inTs (of_decide_eq_true same) c inCmds

end Calls

section Fit

variable {p : Project n} {order : HashOrder} {s : State n} {emitted : List (Fin n)} {sources : List String}
  {ts : List Target} {buildType : String}

/-- What the files of a project rest on: how its components and its root makefile came about. -/
structure Generated (p : Project n) (s : State n) (emitted : List (Fin n)) (sources : List String) (ts : List Target) :
    Prop where
  laid : p.Laid s emitted sources
  searched : Searched p.graph p.requested s
  tight : LinkedRules.Tight p.graph s.log
  reached : ∀ r, r ∈ emitted ↔ ReachedFrom p.graph p.requested r
  written : RootMakefile.Written p.session p.rootRule p.graph emitted ts
  requested : p.requested ≠ []

namespace Generated

theorem next (gen : Generated p s emitted sources ts) (own : r ∈ emitted) (edge : d ∈ p.graph r) : d ∈ emitted := by
  obtain ⟨root,inRoots,path⟩ := (gen.reached r).mp own
  exact (gen.reached d).mpr ⟨root,inRoots,path.tail edge⟩

theorem below_emitted (gen : Generated p s emitted sources ts) (own : r ∈ emitted) (path : Reaches p.graph r d) :
    d ∈ emitted := path.closed (· ∈ emitted) (fun _ member _ edge => gen.next member edge) own

theorem some (gen : Generated p s emitted sources ts) : emitted ≠ [] := by
  obtain ⟨r,member⟩ := List.exists_mem_of_ne_nil _ gen.requested
  exact List.ne_nil_of_mem ((gen.reached r).mpr ⟨r,member,.refl _ _⟩)

theorem keyed (gen : Generated p s emitted sources ts) (inTypes : buildType ∈ p.session.buildTypes) :
    Keyed (readMakefile ts) (RootKey.name p.session p.rootRule buildType) (RootKey.inside emitted)
      (RootKey.rank p.graph) (· ∈ (RootMakefile.regen p.session p.rootRule emitted).deps) :=
  gen.written.keyed ⟨gen.laid.kinds,fun _ own _ => gen.next own,gen.laid.clear⟩ gen.laid.names inTypes gen.some
    fun d member => (gen.laid.marked d member).2

/-- The makefile of a rule makes it from its inputs. -/
theorem makes (gen : Generated p s emitted sources ts) (inTypes : buildType ∈ p.session.buildTypes) (own : r ∈ emitted) :
    Makes (BuildMakefile.makefile ((p.rules r).targets (p.link s r))) ((p.rules r).goal buildType)
      ((p.rules r).phony (p.link s r)) ((p.rules r).writes (p.link s r)) ((p.rules r).inputs (p.link s r) buildType)
      ((p.rules r).exportedFiles buildType) :=
  rule_makes (p.rules r) (p.link s r) (gen.laid.separate r own) (gen.laid.types r own ▸ inTypes)

/-- Every make that the root makefile runs is that of a rule. -/
theorem called_cases (gen : Generated p s emitted sources ts) (inTypes : buildType ∈ p.session.buildTypes)
    (called : Called (p.plan s emitted ts) buildType t r g) :
    r ∈ emitted ∧ t = targetName (p.rootRule r) buildType ∧ g = (p.rules r).goal buildType := by
  obtain ⟨wanted,calls⟩ := called
  have start : RootKey.inside emitted (.all : RootKey n) := trivial
  obtain ⟨k,inside,rfl⟩ := (gen.keyed inTypes).wanted start wanted
  have quiet (none : ∀ t ∈ ts, t.name = RootKey.name p.session p.rootRule buildType k → ∀ c ∈ t.cmds,
      p.nested emitted c = Option.none) : False := by
    rw [call_none none] at calls
    contradiction
  cases k with
  | mark =>
    refine (quiet fun t member named c inCmds => ?_).elim
    rw [gen.written.mark_target gen.laid.names member named] at inCmds
    simp only [RootMakefile.regen,List.mem_cons,List.not_mem_nil,or_false] at inCmds
    rcases inCmds with rfl | rfl <;> exact nested_other p emitted _ _ (by decide)
  | pre =>
    refine (quiet fun t member named c inCmds => ?_).elim
    rw [gen.written.pre_target gen.laid.names member named] at inCmds
    simp only [RootMakefile.preTarget,List.mem_cons,List.not_mem_nil,or_false] at inCmds
    rcases inCmds with rfl | rfl | rfl <;> exact nested_other p emitted _ _ (by decide)
  | rule r' =>
    obtain ⟨rfl,rfl⟩ := Prod.mk.inj (Option.some.inj ((call_rule gen.laid gen.written inTypes inside).symm.trans calls))
    exact ⟨inside,rfl,rfl⟩
  | all =>
    refine (quiet fun t member named c inCmds => ?_).elim
    obtain ⟨r',-,rfl⟩ := gen.written.buildType_target gen.laid.names inTypes member named
    exact absurd inCmds List.not_mem_nil

theorem called_rule (gen : Generated p s emitted sources ts) (inTypes : buildType ∈ p.session.buildTypes) (own : r ∈ emitted) :
    Called (p.plan s emitted ts) buildType (targetName (p.rootRule r) buildType) r ((p.rules r).goal buildType) := by
  have asked : targetName (p.rootRule r) buildType ∈ (readMakefile ts).prerequisites buildType := by
    refine RootMakefile.mem_readPrerequisites.mpr ⟨_,gen.written.buildTypes
      (List.mem_flatMap.mpr ⟨r,own,List.mem_map_of_mem inTypes⟩),rfl,List.mem_cons_self⟩
  exact ⟨⟨.single asked,(gen.keyed inTypes).names (.rule r) own⟩,call_rule gen.laid gen.written inTypes own⟩

theorem below (gen : Generated p s emitted sources ts) (inTypes : buildType ∈ p.session.buildTypes) (own : r ∈ emitted)
    (edge : d ∈ p.graph r) (path : Reaches p.graph d r') :
    Below (p.plan s emitted ts).outer (targetName (p.rootRule r) buildType) (targetName (p.rootRule r') buildType) := by
  have step {r d : Fin n} (own : r ∈ emitted) (edge : d ∈ p.graph r) : targetName (p.rootRule d) buildType ∈
      (readMakefile ts).prerequisites (targetName (p.rootRule r) buildType) := by
    obtain ⟨numbers,present⟩ := gen.written.rules r own
    refine RootMakefile.mem_readPrerequisites.mpr ⟨_,present buildType inTypes,RootMakefile.ruleTarget_name ..,?_⟩
    rw [RootMakefile.ruleTarget_deps gen.laid.kinds]
    exact List.mem_append_left _ (List.mem_map_of_mem edge)
  refine ⟨_,step own edge,?_⟩
  have first := gen.next own edge
  clear edge
  induction path with
  | refl => exact .refl _ _
  | tail front last ih => exact ih.tail (step (gen.below_emitted first front) last)

theorem linked (gen : Generated p s emitted sources ts) (own : r ∈ emitted)
    (member : d ∈ (p.link s r).dependenciesArtifact buildType) :
    ∃ e ∈ p.graph r, ∃ r', Reaches p.graph e r' ∧ d ∈ (p.rules r').exportedFiles buildType := by
  obtain ⟨i,owned⟩ := (gen.searched.owned_iff r).mpr ((gen.reached r).mp own)
  obtain ⟨groups,found,links⟩ := LinkedRules.blocks_below gen.searched gen.tight owned
  simp only [Project.link,owned,Option.bind_some,LinkLine.dependenciesArtifact,found,Option.map_some,Option.getD_some,
    List.mem_flatMap,LinkLine.visitScc,Project.exports] at member
  obtain ⟨block,inGroups,r',inBlock,exported⟩ := member
  obtain ⟨e,edge,path⟩ := links.below block inGroups r' inBlock
  exact ⟨e,edge,r',path,exported⟩

end Generated

theorem inputs_cases (r : PreparedRule) (link : Link) (member : d ∈ r.inputs link buildType) :
    d ∈ r.inputs ⟨fun _ => [],fun _ => []⟩ buildType ∨ d ∈ link.dependenciesArtifact buildType := by
  cases cls : r.cls with
  | ccBinary | ccTest =>
    simp only [PreparedRule.inputs,cls] at member ⊢
    rcases List.mem_append.mp member with own | below
    · exact .inl (List.mem_append_left _ own)
    · exact .inr below
  | _ => exact .inl (by simpa only [PreparedRule.inputs,cls] using member)

theorem mem_outputs {goal u : String} (wanted : Wanted ((p.plan s emitted ts).inner r) goal u)
    (written : d ∈ (p.plan s emitted ts).writes r u) : d ∈ p.outputs s r :=
  List.mem_flatMap.mpr ⟨u,wanted.2,written⟩

theorem Generated.fits (gen : Generated p s emitted sources ts) (inTypes : buildType ∈ p.session.buildTypes) :
    Fits (p.plan s emitted ts) buildType { d | d ∈ sources } := by
  have keyed := gen.keyed inTypes
  have start : RootKey.inside emitted (.all : RootKey n) := trivial
  refine ⟨keyed.names .all start,keyed.acyclic start,?_,?_,?_,?_,?_,?_,?_⟩
  · intro d path leaf
    exact (gen.laid.marked d (keyed.leaves start path leaf)).1
  · intro t r g called
    obtain ⟨own,-,rfl⟩ := gen.called_cases inTypes called
    exact ⟨(gen.makes inTypes own).ruled,(gen.makes inTypes own).acyclic⟩
  · intro t t' r g g' called called'
    rw [(gen.called_cases inTypes called).2.1,(gen.called_cases inTypes called').2.1]
  · intro t r g d called path leaf
    obtain ⟨own,rfl,rfl⟩ := gen.called_cases inTypes called
    rcases inputs_cases _ _ ((gen.makes inTypes own).leaves d path leaf) with given | linked
    · exact .inl (gen.laid.given r own buildType inTypes d given)
    · obtain ⟨e,edge,r',path,exported⟩ := gen.linked own linked
      have own' := gen.below_emitted (gen.next own edge) path
      obtain ⟨u,wanted,written⟩ := (gen.makes inTypes own').exported d exported
      exact .inr ⟨_,r',_,u,gen.below inTypes own edge path,gen.called_rule inTypes own',wanted,written⟩
  · intro t r g d called wanted meant
    obtain ⟨own,rfl,rfl⟩ := gen.called_cases inTypes called
    exact (gen.makes inTypes own).made d wanted meant
  · intro t r g u d called wanted written
    obtain ⟨own,rfl,rfl⟩ := gen.called_cases inTypes called
    exact gen.laid.kept r own d (mem_outputs wanted written)
  · intro t r g u t' r' g' v d called wanted called' wanted' written written'
    obtain ⟨own,rfl,rfl⟩ := gen.called_cases inTypes called
    obtain ⟨own',rfl,rfl⟩ := gen.called_cases inTypes called'
    obtain rfl := gen.laid.apart r own r' own' d (mem_outputs wanted written)
      (mem_outputs wanted' written')
    exact ⟨rfl,(gen.makes inTypes own).once u v d wanted wanted' written written'⟩

/-- The root makefile of a project is written, and it and the others fit together. -/
theorem generated (order : HashOrder) (runs : tarjan p.graph order p.requested = .ok s)
    (all : RootMakefile.allRules s.sccs s.sccId p.requested = some emitted) (laid : p.Laid s emitted sources)
    (requested : p.requested ≠ []) :
    ∃ ts, RootMakefile.compile p.session p.rootRule p.graph s.sccs s.sccId p.requested = .ok ts ∧
      Generated p s emitted sources ts := by
  obtain ⟨s',runs',searched⟩ := tarjan_searched p.graph order p.requested
  obtain rfl := Except.ok.inj (runs.symm.trans runs')
  obtain ⟨emitted',all',reached⟩ := RootMakefile.allRules_reached searched
  obtain rfl := Option.some.inj (all.symm.trans all')
  obtain ⟨ts,compiled,written⟩ := RootMakefile.compile_written p.session laid.kinds all
  exact ⟨ts,compiled,laid,searched,LinkedRules.tarjan_tight runs,reached,written,requested⟩

end Fit

/-- A tool over a library and a script that installs an archive. -/
def toolGraph : Graph 3 := fun r => if r.val = 0 then (List.finRange 3).tail else []

def toolSession : Preparation.Session where
  projectRoot := "/p"
  buildRoot := "/p/.build"
  platform := .k64
  buildTypes := ["DEBUG"]
  glob := fun pattern => (0,[pattern])
  lines := fun _ => .ok none
  relative := fun path _ => .ok path

def toolRule (cls : RuleClass) (packageName : String) (files : Preparation.Files) (fields : Fields) : PreparedRule where
  cls := cls
  name := packageName
  fullQualifiedName := packageName ++ "@DEFAULT"
  input := {
    session := toolSession
    config := ⟨"cpplint.py",["gcc"],["g++"],[],[],[],[],[],[],[],[],[]⟩
    extraFlags := []
    packageName := packageName
    fields := fields
    files := { files with workingFolder := "/p/.build/" ++ packageName, libraryFileName := "lib" ++ packageName ++ ".a" }
    flags := {}
    exported := [] }
  step := fun _ => 0
  steps := fun _ => [0]

def tool : Project 3 where
  session := ⟨["DEBUG"],"/p","/p/.build","JK_ROOT",["jk","gen"]⟩
  rules r :=
    if r.val = 0 then toolRule .ccBinary "app" { expandedSourceFiles := ["main.cc"] } {}
    else if r.val = 1 then
      toolRule .ccLibrary "base" { expandedSourceFiles := ["util.cc"], expandedHeaderFiles := ["util.h"] } {}
    else toolRule .shellScript "zlib" { artifacts := ["/p/.build/.lib/libz.a"] } { script := "install.sh" }
  steps := fun _ => [0]
  graph := toolGraph
  requested := (List.finRange 3).take 1

end JkBuild.ParallelBuild
