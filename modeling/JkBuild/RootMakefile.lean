import JkBuild.Basic
import JkBuild.ComponentOrder

/-! The root makefile: `generate_all` compiles the rules its depth-first search meets,
and `RootCompiler::Compile` emits targets for the rules of the components it visits. -/
namespace JkBuild.RootMakefile

open Reachability ComponentLog Tarjan ComponentOrder

abbrev CustomCommandLine := List String

structure Target where
  name : String
  deps : List String
  cmds : List CustomCommandLine
  comment : String
  phony : Bool
  deriving DecidableEq, Repr

structure Session where
  buildTypes : List String
  projectRoot : String
  buildRoot : String
  projectMarker : String
  commandLineArguments : List String

/-- The fields of a rule that the root makefile reads. -/
structure Rule where
  packageName : String
  name : String
  type : RuleType
  fullQualifiedName : String
  workingFolder : String
  steps : List Nat
  exportedFiles : String → List String

structure Emitted where
  targets : List Target
  cleanTargets : List String
  testTargets : List String

def Emitted.append (first second : Emitted) : Emitted :=
  ⟨first.targets ++ second.targets,first.cleanTargets ++ second.cleanTargets,
    first.testTargets ++ second.testTargets⟩

/-- Progress numbers of a rule and everything below it, each rule once. -/
def mergeNumbers (rules : Fin n → Rule) (g : Graph n) (rule : Fin n) :
    Except (Stop Failure) (List Nat) :=
  match visit g (fun r numbers => .ok (numbers ++ (rules r).steps)) (n + 1) rule ([],[]) with
  | .error stop => .error stop
  | .ok (_,numbers) => .ok numbers

def printStatement (session : Session) (color : String) (bold : Bool) (numbers : List Nat)
    (text : String) : CustomCommandLine :=
  ["@$(PRINT)","--switch=$(COLOR)",if color = "" then "" else "--" ++ color,
    if bold then "--bold" else "","--progress-num=" ++ String.intercalate "," (numbers.map toString),
    "--progress-dir=" ++ session.buildRoot,text]

/-- The target a rule is built by, and that rules depending on it name. -/
def targetName (rule : Rule) (buildType : String) : String :=
  if rule.type.isCC then rule.fullQualifiedName ++ "/" ++ buildType
  else rule.fullQualifiedName ++ "/build"

/-- The makefile of a rule run for one of its own targets. -/
def makeCommand (rule : Rule) (target : String) : CustomCommandLine :=
  ["@$(MAKE)","-f",sub rule.workingFolder "build.make",target]

def ccTarget (session : Session) (rules : Fin n → Rule) (g : Graph n) (r : Fin n)
    (numbers : List Nat) (buildType : String) : Target where
  name := targetName (rules r) buildType
  deps := (g r).map (fun d => targetName (rules d) buildType) ++ ["pre"]
  cmds :=
    [makeCommand (rules r) buildType,
      printStatement session "" false numbers <|
        "Built rule <cyan>" ++ (rules r).packageName ++ ":" ++ (rules r).name ++ "</cyan>, artifact: [" ++
          String.intercalate ", " (((rules r).exportedFiles buildType).map fun s => "<green>" ++ s ++ "</green>") ++ "]"]
  comment := ""
  phony := false

/-- The prerequisites of a rule that is not a cc rule, written one after the other. -/
def simpleDeps (rules : Fin n → Rule) (ds : List (Fin n)) : Except (Stop Failure) (List String) :=
  ds.mapM fun d =>
    if (rules d).type.isExternal then .ok ((rules d).fullQualifiedName ++ "/build")
    else .error (.raised (.jkBuildError "ExternalProject can only depend on another ExternalProject."))

def simpleTarget (session : Session) (rule : Rule) (numbers : List Nat) (deps : List String) : Target where
  name := rule.fullQualifiedName ++ "/build"
  deps := deps ++ ["pre"]
  cmds :=
    [makeCommand rule "build",
      printStatement session "" false numbers
        ("Built rule <cyan>" ++ rule.packageName ++ ":" ++ rule.name ++ "</cyan>")]
  comment := ""
  phony := true

/-- The phony target of a rule that only runs its own makefile: `clean` and `test`. -/
def forwardTarget (rule : Rule) (target : String) : Target :=
  ⟨sub rule.workingFolder target,[],[makeCommand rule target],"",true⟩

def generateTargets (session : Session) (rules : Fin n → Rule) (g : Graph n) (r : Fin n) :
    Except (Stop Failure) Emitted :=
  let rule := rules r
  match mergeNumbers rules g r with
  | .error stop => .error stop
  | .ok numbers =>
    let clean := if rule.type.isExternal then [forwardTarget rule "clean"] else []
    let test := if rule.type.isCC && rule.type.isTest then [forwardTarget rule "test"] else []
    if rule.type.isCC then
      .ok ⟨clean ++ test ++ session.buildTypes.map (ccTarget session rules g r numbers),
        clean.map (·.name),test.map (·.name)⟩
    else
      match simpleDeps rules (g r) with
      | .error stop => .error stop
      | .ok deps =>
        let target := simpleTarget session rule numbers deps
        .ok ⟨clean ++ test ++ [target,⟨"external",[target.name],[],"",false⟩],
          clean.map (·.name),test.map (·.name)⟩

/-- Here a call inserts its own index as well. -/
def dfs (deps : Nat → List Nat) : Nat → Nat → List Nat → Option (List Nat) :=
  walk (fun id visited => visited.insert id) deps

/-- The rules that get targets. A requested rule without component is never met. -/
def allRules (sccs : List (StronglyConnectedComponent n)) (sccId : Fin n → Option Nat)
    (requested : List (Fin n)) : Option (List (Fin n)) :=
  (requested.foldlM (fun visited r =>
      (sccId r).bind fun id => dfs (depsOf sccs) sccs.length id visited) []).bind fun visited =>
    (keep sccs visited).map (·.flatMap (rulesOf sccs))

def defaultTarget : String := "JK_DRFAULT_TARGET"

/-- The targets every makefile starts with. -/
def commonTargets : List Target :=
  [⟨defaultTarget,[],[],"",false⟩,⟨"all",["DEBUG"],[],"",true⟩,⟨defaultTarget,["all"],[],"",false⟩,
    ⟨"jk_force",[],[],"This target is always outdated.",true⟩]

def regenTarget (session : Session) : String := sub session.buildRoot "build_files.mark"

/-- What every rule waits for; the second and third command keep old layouts working. -/
def preTarget (session : Session) : Target where
  name := "pre"
  deps := [regenTarget session]
  cmds :=
    [["@$(JK_COMMAND)","start_progress","--progress-mark=" ++ sub session.buildRoot "progress.mark",
        "--progress-dir=" ++ session.buildRoot],
      ["mkdir","-p",sub (sub (sub session.projectRoot ".build") "pb") "c++"],
      ["mkdir","-p",sub (sub (sub (sub session.projectRoot ".build") ".lib") "m64") "include"]]
  comment := ""
  phony := true

def leadingTargets (session : Session) : List Target :=
  commonTargets ++
  [⟨"all",["debug"],[],"",false⟩,⟨defaultTarget,["all"],[],"",false⟩,preTarget session,
    ⟨"external",[],[],"",true⟩]

/-- Regeneration depends on the BUILD file of every package of the emitted rules. -/
def regen (session : Session) (rules : Fin n → Rule) (emitted : List (Fin n)) : Target where
  name := regenTarget session
  deps :=
    (emitted.map fun r => (rules r).packageName).dedup.map (fun s => sub (sub session.projectRoot s) "BUILD") ++
      [sub session.projectRoot session.projectMarker]
  cmds := ["-@$(JK_COMMAND)" :: session.commandLineArguments.drop 1,["@touch",regenTarget session]]
  comment := ""
  phony := false

def buildTypeTargets (session : Session) (rules : Fin n → Rule) (emitted : List (Fin n)) : List Target :=
  emitted.flatMap fun r => session.buildTypes.map fun buildType =>
    ⟨buildType,[targetName (rules r) buildType,"pre"],[],"",true⟩

def asciiStrToLower (s : String) : String := String.ofList (s.toList.map Char.toLower)

def closingTargets (session : Session) (all : Emitted) : List Target :=
  session.buildTypes.map (fun buildType => ⟨asciiStrToLower buildType,[buildType],[],"simple usage",false⟩) ++
  [⟨"clean",all.cleanTargets,[],"",true⟩,⟨"test",all.testTargets,[],"",true⟩]

def compile (session : Session) (rules : Fin n → Rule) (g : Graph n)
    (sccs : List (StronglyConnectedComponent n)) (sccId : Fin n → Option Nat) (requested : List (Fin n)) :
    Except (Stop Failure) (List Target) :=
  match allRules sccs sccId requested with
  | none => .error .exhausted
  | some emitted =>
    match emitted.mapM (generateTargets session rules g) with
    | .error stop => .error stop
    | .ok parts =>
      let all := parts.foldl Emitted.append ⟨[],[],[]⟩
      .ok (leadingTargets session ++ [regen session rules emitted] ++ all.targets ++
        buildTypeTargets session rules emitted ++ closingTargets session all)

/-- The search of `generate_all`, which lists the rules to compile. -/
def compiledRules (g : Graph n) (requested : List (Fin n)) : Except (Stop Failure) (List (Fin n) × Unit) :=
  visitAll g (fun _ _ => .ok ()) (n + 1) requested ([],())

/-- The targets by which rules depending on this one name it. -/
def ownTargets (session : Session) (rule : Rule) : List String :=
  if rule.type.isCC then session.buildTypes.map (targetName rule)
  else [rule.fullQualifiedName ++ "/build"]

theorem targetName_own (session : Session) (rule : Rule) (member : buildType ∈ session.buildTypes) :
    targetName rule buildType ∈ ownTargets session rule := by
  cases cc : rule.type.isCC with
  | true => simpa [ownTargets,cc] using ⟨buildType,member,rfl⟩
  | false => simp [ownTargets,targetName,cc]

theorem mergeNumbers_total (rules : Fin n → Rule) (g : Graph n) (r : Fin n) :
    ∃ numbers, mergeNumbers rules g r = .ok numbers := by
  have enough : unseen ([] : List (Fin n)) < n + 1 := by
    have := unseen_le_card ([] : List (Fin n))
    rw [Fintype.card_fin] at this
    omega
  rcases visit_ends g (fun v numbers => (.ok (numbers ++ (rules v).steps) : Except Failure _))
      (n + 1) r ([],[]) enough with ⟨⟨seen,numbers⟩,done⟩ | ⟨e,v,s,-,-,raised⟩
  · exact ⟨numbers,by simp [mergeNumbers,done]⟩
  · contradiction

theorem simpleDeps_external (rules : Fin n → Rule) (ds : List (Fin n))
    (external : ∀ d ∈ ds, (rules d).type.isExternal = true) :
    simpleDeps rules ds = .ok (ds.map fun d => (rules d).fullQualifiedName ++ "/build") := by
  induction ds with
  | nil => rfl
  | cons d ds ih =>
    have first := external d (by simp)
    have rest := ih fun d' member => external d' (List.mem_cons_of_mem _ member)
    unfold simpleDeps at rest ⊢
    rw [List.mapM_cons,rest]
    simp [first,pure,Except.pure]

/-- The kinds of rules a project has: cc rules and external ones, where an external rule
depends on external rules only. -/
structure WellKinded (rules : Fin n → Rule) (g : Graph n) : Prop where
  kind : ∀ r, (rules r).type.isCC = !(rules r).type.isExternal
  external : ∀ r, (rules r).type.isExternal = true → ∀ d ∈ g r, (rules d).type.isExternal = true

/-- What the targets of one rule define and require. -/
structure RuleTargets (session : Session) (rules : Fin n → Rule) (g : Graph n) (r : Fin n)
    (part : Emitted) : Prop where
  defines : ∀ name ∈ ownTargets session (rules r), ∃ t ∈ part.targets, t.name = name
  requires : ∀ t ∈ part.targets, ∀ dep ∈ t.deps, dep = "pre" ∨
    dep ∈ ownTargets session (rules r) ∨ ∃ d ∈ g r, dep ∈ ownTargets session (rules d)

theorem forwardTarget_deps (rule : Rule) (target : String) : (forwardTarget rule target).deps = [] := rfl

theorem ccTarget_requires (session : Session) (rules : Fin n → Rule) (g : Graph n) (r : Fin n)
    (numbers : List Nat) (member : buildType ∈ session.buildTypes) :
    ∀ dep ∈ (ccTarget session rules g r numbers buildType).deps, dep = "pre" ∨
      ∃ d ∈ g r, dep ∈ ownTargets session (rules d) := by
  intro dep required
  rcases List.mem_append.mp required with named | last
  · obtain ⟨d,edge,rfl⟩ := List.mem_map.mp named
    exact .inr ⟨d,edge,targetName_own session (rules d) member⟩
  · exact .inl (List.mem_singleton.mp last)

theorem generateTargets_cc (session : Session) {rules : Fin n → Rule} {g : Graph n} {r : Fin n}
    (cc : (rules r).type.isCC = true) :
    ∃ part, generateTargets session rules g r = .ok part ∧ RuleTargets session rules g r part := by
  obtain ⟨numbers,merged⟩ := mergeNumbers_total rules g r
  refine ⟨_,by simp only [generateTargets,merged,cc,if_true]; rfl,?_,?_⟩
  · intro name own
    simp only [ownTargets,cc,if_true] at own
    obtain ⟨buildType,member,rfl⟩ := List.mem_map.mp own
    exact ⟨_,List.mem_append_right _ (List.mem_map_of_mem member),rfl⟩
  · intro t member dep required
    rcases List.mem_append.mp member with forwarded | built
    · have none : t.deps = [] := by
        rcases List.mem_append.mp forwarded with clean | test
        · split at clean <;> simp_all [forwardTarget_deps]
        · split at test <;> simp_all [forwardTarget_deps]
      simp [none] at required
    · obtain ⟨buildType,inTypes,rfl⟩ := List.mem_map.mp built
      rcases ccTarget_requires session rules g r numbers inTypes dep required with pre | other
      · exact .inl pre
      · exact .inr (.inr other)

theorem generateTargets_external (session : Session) {rules : Fin n → Rule} {g : Graph n} {r : Fin n}
    (kinds : WellKinded rules g) (external : (rules r).type.isExternal = true) :
    ∃ part, generateTargets session rules g r = .ok part ∧ RuleTargets session rules g r part := by
  have notCC : ∀ v, (rules v).type.isExternal = true → (rules v).type.isCC = false :=
    fun v h => by rw [kinds.kind v,h]; rfl
  obtain ⟨numbers,merged⟩ := mergeNumbers_total rules g r
  have deps := simpleDeps_external rules (g r) (kinds.external r external)
  have mine : ownTargets session (rules r) = [(rules r).fullQualifiedName ++ "/build"] := by
    simp [ownTargets,notCC r external]
  refine ⟨_,by simp only [generateTargets,merged,deps,notCC r external,external,if_true]; rfl,?_,?_⟩
  · intro name own
    rw [mine] at own
    rw [List.mem_singleton.mp own]
    exact ⟨simpleTarget session (rules r) numbers
      ((g r).map fun d => (rules d).fullQualifiedName ++ "/build"),by simp,rfl⟩
  · intro t member dep required
    simp only [Bool.false_and,List.append_nil,List.mem_append,List.mem_cons,
      List.not_mem_nil,or_false,if_false,Bool.false_eq_true] at member
    rcases member with rfl | rfl | rfl
    · simp [forwardTarget_deps] at required
    · rcases List.mem_append.mp required with named | last
      · obtain ⟨d,edge,rfl⟩ := List.mem_map.mp named
        have own : (rules d).fullQualifiedName ++ "/build" ∈ ownTargets session (rules d) := by
          simp [ownTargets,notCC d (kinds.external r external d edge)]
        exact .inr (.inr ⟨d,edge,own⟩)
      · exact .inl (List.mem_singleton.mp last)
    · exact .inr (.inl (by rw [mine]; exact required))

theorem generateTargets_spec (session : Session) {rules : Fin n → Rule} {g : Graph n}
    (kinds : WellKinded rules g) (r : Fin n) :
    ∃ part, generateTargets session rules g r = .ok part ∧ RuleTargets session rules g r part := by
  cases external : (rules r).type.isExternal with
  | true => exact generateTargets_external session kinds external
  | false => exact generateTargets_cc session (by rw [kinds.kind r,external]; rfl)

theorem foldl_append_targets (parts : List Emitted) (start : Emitted) :
    (parts.foldl Emitted.append start).targets = start.targets ++ parts.flatMap (·.targets) := by
  induction parts generalizing start with
  | nil => simp
  | cons part parts ih => rw [List.foldl_cons,ih]; simp [Emitted.append]

/-- Every prerequisite written for an emitted rule is a target of the makefile. -/
structure Closed (session : Session) (rules : Fin n → Rule) (g : Graph n) (emitted : List (Fin n))
    (makefile : List Target) : Prop where
  defined : ∀ r ∈ emitted, ∀ name ∈ ownTargets session (rules r), ∃ t ∈ makefile, t.name = name
  prerequisites : ∀ r ∈ emitted, ∃ part, generateTargets session rules g r = .ok part ∧
    part.targets ⊆ makefile ∧ ∀ t ∈ part.targets, ∀ dep ∈ t.deps, ∃ t' ∈ makefile, t'.name = dep

theorem leadingTargets_pre (session : Session) : ∃ t ∈ leadingTargets session, t.name = "pre" :=
  ⟨preTarget session,by simp [leadingTargets],rfl⟩

/-- Emitting targets for a list of rules closed under dependencies. -/
theorem compile_closed (session : Session) {rules : Fin n → Rule} {g : Graph n} {emitted : List (Fin n)}
    (kinds : WellKinded rules g) (all : allRules sccs sccId requested = some emitted)
    (next : ∀ r ∈ emitted, ∀ d ∈ g r, d ∈ emitted) :
    ∃ makefile, compile session rules g sccs sccId requested = .ok makefile ∧
      Closed session rules g emitted makefile := by
  obtain ⟨parts,mapped,each⟩ := mapM_total emitted fun r _ => generateTargets_spec session kinds r
  have emits : ∀ r ∈ emitted, ∃ part ∈ parts, generateTargets session rules g r = .ok part ∧
      RuleTargets session rules g r part := by
    intro r member
    clear mapped next all
    induction each with
    | nil => simp at member
    | cons first _ ih =>
      rcases List.mem_cons.mp member with rfl | member
      · exact ⟨_,by simp,first⟩
      · obtain ⟨part,inParts,spec⟩ := ih member
        exact ⟨part,List.mem_cons_of_mem _ inParts,spec⟩
  refine ⟨_,by simp only [compile,all,mapped]; rfl,?_⟩
  have inside : ∀ part ∈ parts, part.targets ⊆ leadingTargets session ++ [regen session rules emitted] ++
      (parts.foldl Emitted.append ⟨[],[],[]⟩).targets ++ buildTypeTargets session rules emitted ++
      closingTargets session (parts.foldl Emitted.append ⟨[],[],[]⟩) := by
    intro part member t inPart
    have folded : t ∈ (parts.foldl Emitted.append ⟨[],[],[]⟩).targets := by
      rw [foldl_append_targets]
      simpa using ⟨part,member,inPart⟩
    simp [folded]
  have defined : ∀ r ∈ emitted, ∀ name ∈ ownTargets session (rules r), ∃ t ∈ leadingTargets session ++
      [regen session rules emitted] ++ (parts.foldl Emitted.append ⟨[],[],[]⟩).targets ++
      buildTypeTargets session rules emitted ++ closingTargets session (parts.foldl Emitted.append ⟨[],[],[]⟩),
      t.name = name := by
    intro r member name own
    obtain ⟨part,inParts,-,spec⟩ := emits r member
    obtain ⟨t,inPart,named⟩ := spec.defines name own
    exact ⟨t,inside part inParts inPart,named⟩
  refine ⟨defined,fun r member => ?_⟩
  obtain ⟨part,inParts,generated,spec⟩ := emits r member
  refine ⟨part,generated,inside part inParts,fun t inPart dep required => ?_⟩
  rcases spec.requires t inPart dep required with rfl | own | ⟨d,edge,own⟩
  · obtain ⟨pre,leading,named⟩ := leadingTargets_pre session
    exact ⟨pre,by simp [leading],named⟩
  · exact defined r member dep own
  · exact defined d (next r member d edge) dep own

theorem visited_members {g : Graph n} {s : State n} (h : Searched g roots s) (requested : List (Fin n))
    (known : ∀ r ∈ requested, ∃ id, s.sccId r = some id) (start : List Nat) :
    ∃ visited, requested.foldlM (fun visited r =>
        (s.sccId r).bind fun id => dfs (depsOf s.sccs) s.sccs.length id visited) start = some visited ∧
      ∀ m, m ∈ visited ↔ m ∈ start ∨
        ∃ r ∈ requested, ∃ id, s.sccId r = some id ∧ Reaches (depsOf s.sccs) id m := by
  induction requested generalizing start with
  | nil => exact ⟨start,rfl,by simp⟩
  | cons r requested ih =>
    obtain ⟨id,own⟩ := known r (by simp)
    have bound : id < s.sccs.length := by
      have := h.invariant.sound.owner_lt own
      simpa [State.log] using this
    have inserted : ∀ (id : Nat) (visited : List Nat), id ∈ visited → ∀ m,
        m ∈ (fun (id : Nat) (visited : List Nat) => visited.insert id) id visited ↔ m ∈ visited := by
      intro id visited member m
      simp [List.insert_of_mem member]
    obtain ⟨middle,runs,members⟩ := walk_members (Searched.deps_lt h) inserted s.sccs.length id start bound
    obtain ⟨visited,rest,all⟩ := ih (fun r' member => known r' (List.mem_cons_of_mem _ member)) middle
    refine ⟨visited,?_,fun m => ?_⟩
    · have one : ((s.sccId r).bind fun id => dfs (depsOf s.sccs) s.sccs.length id start) = some middle := by
        rw [own]
        exact runs
      rw [List.foldlM_cons,one]
      exact rest
    · rw [all,members,List.mem_insert_iff]
      constructor
      · rintro (((rfl | old) | ⟨k,edge,path⟩) | ⟨r',member,reach⟩)
        · exact .inr ⟨r,by simp,m,own,.refl _ _⟩
        · exact .inl old
        · exact .inr ⟨r,by simp,id,own,.head edge path⟩
        · exact .inr ⟨r',List.mem_cons_of_mem _ member,reach⟩
      · rintro (old | ⟨r',member,id',own',path⟩)
        · exact .inl (.inl (.inr old))
        · rcases List.mem_cons.mp member with rfl | member
          · obtain rfl := Option.some.inj (own.symm.trans own')
            rcases Relation.ReflTransGen.cases_head path with rfl | ⟨k,edge,rest⟩
            · exact .inl (.inl (.inl rfl))
            · exact .inl (.inr ⟨k,edge,rest⟩)
          · exact .inr ⟨r',member,id',own',path⟩

/-- Targets are emitted exactly for the rules reachable from the requested ones. -/
theorem allRules_reached {g : Graph n} {s : State n} (h : Searched g requested s) :
    ∃ emitted, allRules s.sccs s.sccId requested = some emitted ∧
      ∀ r, r ∈ emitted ↔ ReachedFrom g requested r := by
  have known : ∀ r ∈ requested, ∃ id, s.sccId r = some id :=
    fun r member => (h.owned_iff r).mpr ⟨r,member,.refl _ _⟩
  obtain ⟨visited,runs,members⟩ := visited_members h requested known []
  have bounded : ∀ m ∈ visited, m < s.sccs.length := by
    intro m member
    obtain ⟨r,-,id,own,path⟩ := ((members m).mp member).resolve_left (by simp)
    rw [depsOf_eq] at path
    have low := h.invariant.sound.deps_reaches_le path
    have bound := h.invariant.sound.owner_lt own
    simp only [State.log,List.length_map] at bound
    omega
  obtain ⟨kept,eq,spec⟩ := keep_kept h visited bounded
  refine ⟨kept.flatMap (rulesOf s.sccs),by simp [allRules,runs,eq],fun v => ?_⟩
  rw [List.mem_flatMap]
  constructor
  · rintro ⟨m,-,inside⟩
    cases at_m : s.sccs[m]? with
    | none => simp [rulesOf,at_m] at inside
    | some scc => exact h.member_reached at_m (by rwa [rulesOf_of at_m] at inside)
  · rintro ⟨r,member,path⟩
    obtain ⟨id,own⟩ := known r member
    obtain ⟨c,at_id,inside⟩ := h.invariant.sound.owned r id own
    obtain ⟨j,c',walk,at_j,target⟩ := h.invariant.sound.reaches at_id inside path
    obtain ⟨scc,atScc,rfl⟩ := (log_comp_iff s j c').mp at_j
    rw [← depsOf_eq] at walk
    refine ⟨j,(spec.members j).mpr ((members j).mpr (.inr ⟨r,member,id,own,walk⟩)),?_⟩
    rw [rulesOf_of atScc]
    exact target

theorem compiledRules_reached (g : Graph n) (requested : List (Fin n)) :
    ∃ compiled, compiledRules g requested = .ok (compiled,()) ∧ compiled.Nodup ∧
      ∀ r, r ∈ compiled ↔ ReachedFrom g requested r := by
  obtain ⟨⟨compiled,payload⟩,done⟩ := visitAll_total g (fun _ _ => (.ok () : Except Failure Unit))
    requested ([],()) fun _ _ _ _ _ => ⟨(),rfl⟩
  rw [Fintype.card_fin] at done
  obtain ⟨nodup,members,-⟩ := visitAll_complete done
  exact ⟨compiled,done,nodup,members⟩

/-- The makefile has targets for the compiled rules, which are the reachable ones, and
every prerequisite of these targets is a target itself. -/
theorem root_makefile_closed (session : Session) (rules : Fin n → Rule) (g : Graph n) (order : HashOrder)
    (requested : List (Fin n)) (kinds : WellKinded rules g) :
    ∃ s compiled emitted makefile, tarjan g order requested = .ok s ∧
      compiledRules g requested = .ok (compiled,()) ∧
      allRules s.sccs s.sccId requested = some emitted ∧
      compile session rules g s.sccs s.sccId requested = .ok makefile ∧
      (∀ r, r ∈ emitted ↔ r ∈ compiled) ∧ (∀ r, r ∈ compiled ↔ ReachedFrom g requested r) ∧
      Closed session rules g emitted makefile := by
  obtain ⟨s,runs,searched⟩ := tarjan_searched g order requested
  obtain ⟨compiled,done,-,inCompiled⟩ := compiledRules_reached g requested
  obtain ⟨emitted,all,inEmitted⟩ := allRules_reached searched
  have next : ∀ r ∈ emitted, ∀ d ∈ g r, d ∈ emitted := by
    intro r member d edge
    obtain ⟨root,inRoots,path⟩ := (inEmitted r).mp member
    exact (inEmitted d).mpr ⟨root,inRoots,path.tail edge⟩
  obtain ⟨makefile,written,closed⟩ := compile_closed session kinds all next
  exact ⟨s,compiled,emitted,makefile,runs,done,all,written,
    fun r => (inEmitted r).trans (inCompiled r).symm,inCompiled,closed⟩

/-- Two libraries in a cycle, one of them over an external rule, and a user nobody asks for. -/
def mixedGraph : Graph 4
  | 0 => [1,2]
  | 1 => [0]
  | 2 => []
  | 3 => [1]

def mixedRules (r : Fin 4) : Rule where
  packageName := "base"
  name := toString r.val
  type := if r = 2 then .ofList [.external] else .ofList [.library,.cc]
  fullQualifiedName := "base/" ++ toString r.val ++ "@DEFAULT"
  workingFolder := "/build/" ++ toString r.val
  steps := [r.val]
  exportedFiles := fun _ => []

def mixedSession : Session := ⟨["DEBUG","RELEASE"],"/project","/build","JK_ROOT",["jk","gen","//base:1"]⟩

theorem root_makefile_mixed : ∃ s compiled emitted makefile, tarjan mixedGraph .insertion [1] = .ok s ∧
    compiledRules mixedGraph [1] = .ok (compiled,()) ∧
    allRules s.sccs s.sccId [1] = some emitted ∧
    compile mixedSession mixedRules mixedGraph s.sccs s.sccId [1] = .ok makefile ∧
    (∀ r, r ∈ emitted ↔ r ∈ compiled) ∧ (∀ r, r ∈ compiled ↔ ReachedFrom mixedGraph [1] r) ∧
    Closed mixedSession mixedRules mixedGraph emitted makefile :=
  root_makefile_closed mixedSession mixedRules mixedGraph .insertion [1] ⟨by decide,by decide⟩

end JkBuild.RootMakefile
