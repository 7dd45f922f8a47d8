import JkBuild.Readiness
import JkBuild.Resolution
import JkBuild.RootMakefile

/-! `generate_all` once the packages are loaded: dependencies are resolved, rules are
prepared, requested rules are compiled, each in tasks whose futures are waited for and
never asked. The search for components cannot fail and is left out. -/
namespace JkBuild.Pipeline

open Dependent Tasks Reachability Tarjan Preparation Resolution Packages

/-- The loaded rules and what a run is asked for. Rules are told apart by their object ids,
and dependencies have been parsed by the loader. What a compiler does to a rule is given. -/
structure Input (V : Type) (n : Nat) where
  assertions : Bool
  semver : Semver V
  session : Session
  rules : Fin n → BuildRule
  packages : List String
  requested : List (String × String)
  generators : List String
  finds : String → String → Bool
  compile : String → Fin n → Option Failure
  markWritable : Bool
  releaseFolder : Except String Unit
  ids : ∀ r q, (rules r).base.objectId = (rules q).base.objectId → r = q
  parsed : ∀ r, ∀ dep ∈ (rules r).base.dependencies, Accepted semver dep

/-- The orders in which tasks are run, and how many run on other workers after one that ends
the process. -/
structure Orders (n : Nat) where
  late : Nat
  link : List (Fin n)
  prepare : List (Fin n)
  compile : String → List (Fin n) → List (Fin n)
  linkAll : link.Perm (List.finRange n)
  prepareAll : prepare.Perm (List.finRange n)
  compileAll : ∀ generator rules, (compile generator rules).Perm rules

def inOrder : Orders n := ⟨0,List.finRange n,List.finRange n,fun _ rules => rules,.refl _,.refl _,fun _ _ => .refl _⟩

/-- The given rules come first, and the second of two may be late. -/
def beginning (rules : List (Fin n)) : Orders n where
  late := 1
  link := rules.dedup ++ (List.finRange n).filter fun r => !rules.contains r
  prepare := List.finRange n
  compile := fun _ order => order.filter rules.contains ++ order.filter fun r => !rules.contains r
  linkAll := by
    have apart : (rules.dedup ++ (List.finRange n).filter fun r => !rules.contains r).Nodup := by
      refine List.nodup_append.mpr ⟨List.nodup_dedup rules,(List.nodup_finRange n).filter _,?_⟩
      rintro r inside q outside rfl
      have present := List.contains_iff_mem.mpr (List.mem_dedup.mp inside)
      have absent := (List.mem_filter.mp outside).2
      rw [present] at absent
      contradiction
    refine (List.perm_ext_iff_of_nodup apart (List.nodup_finRange n)).mpr fun r => ?_
    simp [em]
  prepareAll := .refl _
  compileAll := fun _ order => List.filter_append_perm rules.contains order

theorem beginning_link (rules : List (Fin n)) (once : rules.Nodup) : ∃ rest, (beginning rules).link = rules ++ rest :=
  ⟨_,congrArg (· ++ _) once.dedup⟩

theorem beginning_compile (generator : String) {r : Fin n} {order : List (Fin n)} (member : r ∈ order) :
    ∃ rest, (beginning [r]).compile generator order = r :: rest := by
  have only : ∀ q ∈ order.filter [r].contains, q = r := by simp
  have found : r ∈ order.filter [r].contains := by simp [member]
  show ∃ rest, order.filter [r].contains ++ _ = r :: rest
  cases first : order.filter [r].contains with
  | nil =>
    rw [first] at found
    contradiction
  | cons q rest =>
    rw [first] at only
    obtain rfl := only q List.mem_cons_self
    exact ⟨_,rfl⟩

structure Report (n : Nat) where
  factory : Loaded
  linked : Fin n → Linked := fun _ => {}
  store : Store n := initial
  prepareReturned : Bool := false
  compiled : List (String × Fin n) := []
  futures : List (Option Failure) := []

namespace Input

variable (input : Input V n)

def loaded : Loaded where
  packages := input.packages.map fun package =>
    (package,((List.finRange n).map input.rules).filter (·.base.packageName = package))
  named := by
    intro entry member rule inEntry
    obtain ⟨package,-,rfl⟩ := List.mem_map.mp member
    exact of_decide_eq_true (List.mem_filter.mp inEntry).2

/-- A rule is a pointer: the object of this id. -/
def index (rule : BuildRule) : Option (Fin n) :=
  (List.finRange n).find? fun r => (input.rules r).base.objectId = rule.base.objectId

def graph (linked : Fin n → Linked) : Graph n := fun r => (linked r).dependencies.filterMap input.index

def start : Report n := { factory := input.loaded }

/-- The rules that answer the dependencies of a rule. -/
def links (r : Fin n) : Linked :=
  { dependencies := answers input.semver input.loaded (input.rules r).base.packageName (input.rules r).base.dependencies }

/-- The table of a binary is read from the fields as they are by then. -/
def linkTask (store : Store n) (r : Fin n) : EStateM Failure (Loaded × (Fin n → Linked)) Unit :=
  zoom (fun s => ⟨s.1,s.2 r⟩) (fun part s => (part.factory,Function.update s.2 r part.linked))
    (makeDepStrToRule input.assertions input.semver (input.rules r) (store r).fields.rawAddtionalDependencies)

def project (linked : Fin n → Linked) : Project n := ⟨input.session,input.rules,input.graph linked⟩

def compileTask (generator : String) (r : Fin n) : EStateM Failure (List (String × Fin n)) Unit :=
  if input.finds generator (input.rules r).base.typeName then do
    modify (· ++ [(generator,r)])
    match input.compile generator r with
    | none => pure ()
    | some e => throw e
  else pure ()

/-- What comes of a rule under a generator, which may have no compiler for it. -/
def outcome (generator : String) (r : Fin n) : Option Failure :=
  if input.finds generator (input.rules r).base.typeName then input.compile generator r else none

/-- The rules one argument stands for. -/
def argRules (id : String × String) : Except Failure (List (Fin n)) :=
  let rules := (List.finRange n).filter fun r => (input.rules r).base.packageName = id.1
  if id.1 ∉ input.packages then .error (.terminate id.1)
  else if id.2 = "..." then .ok rules
  else
    match rules.find? fun r => (input.rules r).base.name = id.2 with
    | some r => .ok [r]
    | none => .error (.jkBuildError ("No rule named '" ++ id.2 ++ "' in package '" ++ id.1 ++ "'"))

/-- `progress.mark`, then the folder of `git_version.h`. -/
def written : Except Failure Unit :=
  if input.markWritable then filesystem input.releaseFolder
  else .error (.jkBuildError
    ("Could not write progress count file to " ++ sub input.session.buildRoot "progress.mark" ++ "."))

end Input

def allRules (g : Graph n) (requested : List (Fin n)) : Except Failure (List (Fin n)) :=
  match RootMakefile.compiledRules g requested with
  | .ok (rules,_) => .ok rules
  | .error _ => .error .diverges

section Stages

variable (input : Input V n)

/-- Push the tasks of a stage and wait for them. -/
def stage {σ : Type} (late : Nat) (read : Report n → σ) (write : σ → Report n → Report n)
    (task : Fin n → EStateM Failure σ Unit) (order : List (Fin n)) : EStateM Failure (Report n) Unit := do
  let futures ← zoom read write (runWorkers Failure.isException (fun e => e = .undefined) late task order)
  modify fun s => { s with futures := s.futures ++ futures }

def prepareDependencies (orders : Orders n) : EStateM Failure (Report n) Unit := do
  let s ← get
  stage orders.late (fun s => (s.factory,s.linked)) (fun (factory,linked) s => { s with factory, linked })
    (input.linkTask s.store) orders.link

def prepareRules (orders : Orders n) : EStateM Failure (Report n) Unit := do
  let s ← get
  stage orders.late (·.store) (fun store s => { s with store }) (prepare (input.project s.linked)) orders.prepare
  modify fun s => { s with prepareReturned := true }

def compileRules (late : Nat) (order : List (Fin n)) (generator : String) : EStateM Failure (Report n) Unit :=
  stage late (·.compiled) (fun compiled s => { s with compiled }) (input.compileTask generator) order

/-- From the requested rules to the end. -/
def compileAll (orders : Orders n) : EStateM Failure (Report n) Unit := do
  let requested ← attempt (input.requested.mapM input.argRules)
  let s ← get
  let rules ← attempt (allRules (input.graph s.linked) requested.flatten)
  input.generators.forM fun generator => compileRules input orders.late (orders.compile generator rules) generator
  attempt input.written

def generateAll (orders : Orders n) : EStateM Failure (Report n) Unit := do
  prepareDependencies input orders
  prepareRules input orders
  compileAll input orders

end Stages

/-- A run does not complete when a task threw, and does not get into what is undefined. Once
rules are prepared all of them are, and what is compiled is prepared. -/
structure NothingSwallowed (result : EStateM.Result Failure (Report n) Unit) : Prop where
  thrown : ∀ s, result = .ok () s → ∀ f ∈ s.futures, f = none
  defined : ∀ s, result ≠ .error .undefined s
  prepared : (left result).prepareReturned = true → ∀ r, ((left result).store r).prepared = true
  compiled : ∀ entry ∈ (left result).compiled, ((left result).store entry.2).prepared = true

section Conditions

variable (input : Input V n)

/-- Every dependency is found where it is looked for. -/
def Answers : Prop := ∀ r, ∀ dep ∈ (input.rules r).base.dependencies,
  Answered input.semver input.loaded (input.rules r).base.packageName dep

/-- The first dependency of a rule that is not found is checked, and is about this package. -/
def Misses (r : Fin n) (package : String) : Prop :=
  ∃ dep, firstUnanswered input.semver input.loaded (input.rules r).base.packageName (input.rules r).base.dependencies =
    some dep ∧ Checked input.assertions input.semver input.loaded dep package

/-- A rule whose dependencies are not all found misses a package of its own. -/
structure Stops : Prop where
  checked : ∀ r, (∃ dep ∈ (input.rules r).base.dependencies,
    ¬Answered input.semver input.loaded (input.rules r).base.packageName dep) → ∃ package, Misses input r package
  apart : ∀ r q package, Misses input r package → Misses input q package → r = q

def resolved : Project n := input.project input.links

def Found : Prop := ∀ id ∈ input.requested, ∃ rules, input.argRules id = .ok rules

/-- Rules that a run compiles: the requested ones and all they reach. -/
def Wanted (r : Fin n) : Prop :=
  ∃ id ∈ input.requested, ∃ rules, input.argRules id = .ok rules ∧
    ∃ root ∈ rules, Reaches (resolved input).graph root r

/-- No compiler ends the process. -/
def Survives (generator : String) : Prop :=
  ∀ r, Wanted input r → ∀ e, input.outcome generator r = some e → e.isException = true

/-- Until one ends the process, no compiler gets into what is undefined. -/
def Defined : List String → Prop
  | [] => True
  | generator :: later => (∀ r, Wanted input r → input.outcome generator r ≠ some .undefined) ∧
      (Survives input generator → Defined later)

/-- Every failure of a run is reported. Where dependencies are not found it ends by a check;
otherwise all rules are ready, and if it gets to its end no compiler throws. -/
structure Reported : Prop where
  stops : Stops input
  ready : Answers input → ∀ r, Ready (resolved input) r
  defined : Answers input → Found input → Defined input input.generators
  compiled : Answers input → Found input → (∀ generator ∈ input.generators, Survives input generator) →
    input.written = .ok () → ∀ generator ∈ input.generators, ∀ r, Wanted input r → input.outcome generator r = none

end Conditions

section Linking

variable (input : Input V n)

/-- The rule at which the resolver stops is looked up in a factory that lookups have changed. -/
theorem linkTask_answered {r : Fin n} {made : String → Prop} {factory : Loaded}
    (grown : Grown input.loaded made factory)
    (all : firstUnanswered input.semver input.loaded (input.rules r).base.packageName (input.rules r).base.dependencies = none)
    (linked : Fin n → Linked) : input.linkTask Preparation.initial r (factory,linked) =
      .ok () (factory,Function.update linked r { linked r with
        dependencies := (linked r).dependencies ++ (input.links r).dependencies }) := by
  rw [← firstUnanswered_congr grown.declared] at all
  rw [Input.links,← answers_congr grown.declared,Input.linkTask,zoom]
  rw [show (Preparation.initial r).fields.rawAddtionalDependencies = [] from rfl,makeDepStrToRule_answered (linked r) all]

theorem linkTask_failed {r : Fin n} {made : String → Prop} {factory : Loaded}
    (grown : Grown input.loaded made factory)
    (first : firstUnanswered input.semver input.loaded (input.rules r).base.packageName (input.rules r).base.dependencies = some dep)
    (failed : depStrToRule input.assertions input.semver (input.rules r) dep factory = .error e factory')
    (linked : Fin n → Linked) :
    ∃ linked', input.linkTask Preparation.initial r (factory,linked) = .error e (factory',linked') := by
  rw [← firstUnanswered_congr grown.declared] at first
  exact ⟨_,by rw [Input.linkTask,zoom,makeDepStrToRule_failed _ (linked r) first failed]⟩

theorem first_unanswered {r : Fin n} (unanswered : ∃ dep ∈ (input.rules r).base.dependencies,
    ¬Answered input.semver input.loaded (input.rules r).base.packageName dep) : ∃ dep,
    firstUnanswered input.semver input.loaded (input.rules r).base.packageName (input.rules r).base.dependencies = some dep := by
  apply Option.ne_none_iff_exists'.mp
  rw [Ne,firstUnanswered_none]
  simpa using unanswered

theorem linkTask_ends {r : Fin n} {made : String → Prop} {factory : Loaded} (grown : Grown input.loaded made factory)
    (first : firstUnanswered input.semver input.loaded (input.rules r).base.packageName (input.rules r).base.dependencies = some dep)
    (linked : Fin n → Linked) :
    (∃ package message linked', Misses input r package ∧ ¬made package ∧
      input.linkTask Preparation.initial r (factory,linked) = .error (.terminate message) (factory.make package,linked')) ∨
    ((∀ package, Misses input r package → made package) ∧
      ∃ s', input.linkTask Preparation.initial r (factory,linked) = .error .undefined s') := by
  have none : answer input.semver factory (input.rules r).base.packageName dep = none := by
    rw [answer_congr grown.declared]
    simpa using List.find?_some first
  have accepted := input.parsed r dep (List.mem_of_find?_eq_some first)
  rcases lookup_ends accepted none with ⟨package,message,checked,failed⟩ | ⟨unchecked,s',failed⟩
  · obtain ⟨checked,unmade⟩ := grown.checked_iff.mp checked
    obtain ⟨linked',ended⟩ := linkTask_failed input grown first failed linked
    exact .inl ⟨package,message,linked',⟨dep,first,checked⟩,unmade,ended⟩
  · obtain ⟨linked',ended⟩ := linkTask_failed input grown first failed linked
    refine .inr ⟨fun package ⟨other,again,checked⟩ => ?_,_,ended⟩
    obtain rfl := Option.some.inj (first.symm.trans again)
    by_contra unmade
    exact unchecked ⟨package,grown.checked_iff.mpr ⟨checked,unmade⟩⟩

theorem runLinks_answered (answers : Answers input) (late : Nat) (order : List (Fin n)) (once : order.Nodup)
    (linked : Fin n → Linked) (fresh : ∀ r ∈ order, linked r = {}) : ∃ futures,
    runWorkers Failure.isException (fun e => e = .undefined) late (input.linkTask Preparation.initial) order (input.loaded,linked) =
      .ok futures (input.loaded,fun r => if r ∈ order then input.links r else linked r) ∧ ∀ f ∈ futures, f = none := by
  induction order generalizing linked with
  | nil => exact ⟨[],by simp [runWorkers,pure,EStateM.pure],by simp⟩
  | cons r order ih =>
    obtain ⟨apart,once⟩ := List.nodup_cons.mp once
    have done := linkTask_answered input (grown_start input.loaded) (firstUnanswered_none.mpr (answers r)) linked
    rw [fresh r List.mem_cons_self,List.nil_append] at done
    have fresh' : ∀ q ∈ order, Function.update linked r (input.links r) q = {} := by
      intro q member
      have other : q ≠ r := fun same => apart (same ▸ member)
      rw [Function.update_of_ne other]
      exact fresh q (List.mem_cons_of_mem _ member)
    obtain ⟨futures,ran,quiet⟩ := ih once _ fresh'
    refine ⟨none :: futures,?_,by simpa using quiet⟩
    rw [runWorkers_begun (inFuture_ok done)]
    refine (bind_of_ok ran).trans ?_
    show EStateM.Result.ok _ _ = EStateM.Result.ok _ _
    congr 2
    funext q
    by_cases same : q = r
    · simp [same,apart]
    · simp [same]

/-- Rules that miss packages of their own end the process by a check, whatever runs late. -/
theorem runLinks_stops (stops : Stops input) {late : Nat} {order : List (Fin n)} (once : order.Nodup)
    (linked : Fin n → Linked)
    (ended : runWorkers Failure.isException (fun e => e = .undefined) late (input.linkTask Preparation.initial) order
      (input.loaded,linked) = .error e s') : e ≠ .undefined := by
  let holds : List (Fin n) → Loaded × (Fin n → Linked) → Prop := fun rest s =>
    ∃ made, Grown input.loaded made s.1 ∧ rest.Nodup ∧ ∀ r ∈ rest, ∀ package, Misses input r package → ¬made package
  have fewer : ∀ rest count s, holds rest s → holds (rest.take count) s := by
    rintro rest count s ⟨made,grown,once,unmade⟩
    exact ⟨made,grown,once.sublist (List.take_sublist _ _),fun r member => unmade r (List.mem_of_mem_take member)⟩
  refine runWorkers_error holds (· ≠ .undefined) fewer ?_ order _ ⟨_,grown_start input.loaded,once,fun _ _ _ _ made => made⟩ ended
  rintro r rest ⟨factory,linked⟩ ⟨made,grown,once,unmade⟩
  obtain ⟨apart,once⟩ := List.nodup_cons.mp once
  cases first : firstUnanswered input.semver input.loaded (input.rules r).base.packageName (input.rules r).base.dependencies with
  | none =>
    rw [linkTask_answered input grown first linked]
    exact ⟨⟨made,grown,once,fun q member => unmade q (List.mem_cons_of_mem _ member)⟩,fun e s' failed => by contradiction⟩
  | some dep =>
    rcases linkTask_ends input grown first linked with ⟨package,message,linked',misses,absent,failed⟩ | ⟨taken,-⟩
    · rw [failed]
      refine ⟨⟨fun other => made other ∨ other = package,?_,once,?_⟩,fun e s' same => ?_⟩
      · have missing : factory.packages.lookup package = none := by
          obtain ⟨other,again,checked⟩ := misses
          obtain ⟨-,-,-,-,missing⟩ := grown.checked_iff.mpr ⟨checked,absent⟩
          exact missing
        rw [← with_missing missing]
        exact grown.with package
      · rintro q member other missed (before | rfl)
        · exact unmade q (List.mem_cons_of_mem _ member) other missed before
        · exact apart (stops.apart q r other missed misses ▸ member)
      · rw [← (EStateM.Result.error.inj same).1]
        simp
    · have unanswered : ∃ dep ∈ (input.rules r).base.dependencies,
          ¬Answered input.semver input.loaded (input.rules r).base.packageName dep := by
        refine ⟨dep,List.mem_of_find?_eq_some first,?_⟩
        rw [answered_iff]
        have none := List.find?_some first
        simp only [Option.isNone_iff_eq_none] at none
        simp [none]
      obtain ⟨package,misses⟩ := stops.checked r unanswered
      exact absurd (taken package misses) (unmade r List.mem_cons_self package misses)

theorem runLinks_done {late : Nat} {order : List (Fin n)} {made : String → Prop} {factory : Loaded}
    {linked : Fin n → Linked} (grown : Grown input.loaded made factory)
    (ran : runWorkers Failure.isException (fun e => e = .undefined) late (input.linkTask Preparation.initial) order
      (factory,linked) = .ok futures s') : ∀ r ∈ order,
    firstUnanswered input.semver input.loaded (input.rules r).base.packageName (input.rules r).base.dependencies = none := by
  induction order generalizing linked futures s' with
  | nil => exact fun r absent => absurd absent List.not_mem_nil
  | cons r order ih =>
    cases first : firstUnanswered input.semver input.loaded (input.rules r).base.packageName (input.rules r).base.dependencies with
    | none =>
      rw [runWorkers_begun (inFuture_ok (linkTask_answered input grown first linked))] at ran
      obtain ⟨rest,middle,later,-⟩ := bind_done ran
      exact List.forall_mem_cons.mpr ⟨first,ih later⟩
    | some dep =>
      have ended : ∃ e middle, inFuture Failure.isException (input.linkTask Preparation.initial r) (factory,linked) =
          .error e middle := by
        rcases linkTask_ends input grown first linked with ⟨_,_,_,-,-,failed⟩ | ⟨-,_,failed⟩
        · exact ⟨_,_,by rw [inFuture,failed]; rfl⟩
        · exact ⟨_,_,by rw [inFuture,failed]; rfl⟩
      obtain ⟨e,middle,ended⟩ := ended
      obtain ⟨_,_,last,-⟩ := outlive_fails (order.take late) e middle
      rw [runWorkers_ended ended,last] at ran
      contradiction

end Linking

theorem undefined_ends : Failure.isException .undefined = false := rfl

theorem undefined_worst (e : Failure) : decide (e = .undefined) = true ↔ e = .undefined := decide_eq_true_iff

section Stages

variable {σ : Type} {late : Nat} {read : Report n → σ} {write : σ → Report n → Report n}
  {task : Fin n → EStateM Failure σ Unit} {order : List (Fin n)} {s : Report n}

theorem stage_ok
    (ran : runWorkers Failure.isException (fun e => e = .undefined) late task order (read s) = .ok futures part) :
    stage late read write task order s = .ok () { write part s with futures := (write part s).futures ++ futures } := by
  have zoomed : zoom read write (runWorkers Failure.isException (fun e => e = .undefined) late task order) s =
      .ok futures (write part s) := by
    rw [zoom,ran]
  rw [stage,bind_of_ok zoomed]
  rfl

theorem stage_error
    (ran : runWorkers Failure.isException (fun e => e = .undefined) late task order (read s) = .error e part) :
    stage late read write task order s = .error e (write part s) := by
  have zoomed : zoom read write (runWorkers Failure.isException (fun e => e = .undefined) late task order) s =
      .error e (write part s) := by
    rw [zoom,ran]
  rw [stage,bind_of_error zoomed]

theorem stage_failed (failed : stage late read write task order s = .error e s') :
    ∃ part, runWorkers Failure.isException (fun e => e = .undefined) late task order (read s) = .error e part := by
  cases ran : runWorkers Failure.isException (fun e => e = .undefined) late task order (read s) with
  | ok futures part =>
    rw [stage_ok ran] at failed
    contradiction
  | error e' part =>
    rw [stage_error ran] at failed
    exact ⟨part,by rw [(EStateM.Result.error.inj failed).1]⟩

theorem stage_keeps {property : Report n → Prop} (wrote : ∀ part s, property s → property (write part s))
    (gathered : ∀ futures s, property s → property { s with futures }) :
    Keeps property (stage late read write task order) :=
  (keeps_zoom wrote).bind fun _ => keeps_modify fun s holds => gathered _ s holds

end Stages

section Preparing

variable (input : Input V n) (orders : Orders n)

theorem prepareDependencies_answered (answers : Answers input) : ∃ s,
    prepareDependencies input orders input.start = .ok () s ∧ s.linked = input.links ∧
      s.store = Preparation.initial ∧ s.compiled = [] ∧ ∀ f ∈ s.futures, f = none := by
  have once : orders.link.Nodup := orders.linkAll.nodup_iff.mpr (List.nodup_finRange n)
  obtain ⟨futures,ran,quiet⟩ := runLinks_answered input answers orders.late orders.link once _ fun _ _ => rfl
  refine ⟨_,stage_ok ran,?_,rfl,rfl,by simpa [Input.start] using quiet⟩
  funext r
  exact if_pos (orders.linkAll.mem_iff.mpr (List.mem_finRange r))

theorem prepareDependencies_unanswered (unanswered : ¬Answers input) : ∃ e s,
    prepareDependencies input orders input.start = .error e s ∧ s.prepareReturned = false ∧ s.compiled = [] ∧
      (Stops input → e ≠ .undefined) := by
  have once : orders.link.Nodup := orders.linkAll.nodup_iff.mpr (List.nodup_finRange n)
  cases ran : runWorkers Failure.isException (fun e => e = .undefined) orders.late (input.linkTask Preparation.initial)
      orders.link (input.loaded,fun _ => {}) with
  | error e part =>
    exact ⟨e,_,stage_error ran,rfl,rfl,fun stops => runLinks_stops input stops once _ ran⟩
  | ok futures part =>
    refine absurd (fun r => firstUnanswered_none.mp ?_) unanswered
    exact runLinks_done input (grown_start input.loaded) ran r (orders.linkAll.mem_iff.mpr (List.mem_finRange r))

/-- `PrepareRules` always returns. Its futures know who threw, and the marks who did not. -/
theorem prepareRules_spec (s : Report n) (linked : s.linked = input.links)
    (fresh : s.store = Preparation.initial) : ∃ s', prepareRules input orders s = .ok () s' ∧
      s'.linked = s.linked ∧ s'.compiled = s.compiled ∧ s'.prepareReturned = true ∧
      (∀ r, (s'.store r).prepared = true ↔ Ready (resolved input) r) ∧
      ((∀ f ∈ s.futures, f = none) → (∀ r, Ready (resolved input) r) → ∀ f ∈ s'.futures, f = none) := by
  have settled : ∀ r ∈ orders.prepare, Settled (fun e => e.isException = true ↔ True) (prepare (resolved input) r)
      (Ready (resolved input) r) :=
    fun r _ => (prepare_settled (resolved input) r).weaken fun e kind => by simp [kind]
  obtain ⟨futures,store,ran,clean⟩ := (runTasks_spec orders.prepare settled Preparation.initial).1 (by simp)
  have task : prepare (input.project s.linked) = prepare (resolved input) := by rw [linked,resolved]
  have here : runTasks Failure.isException (prepare (input.project s.linked)) orders.prepare s.store = .ok futures store := by
    rw [task,fresh]
    exact ran
  have staged : stage orders.late (·.store) (fun store s => { s with store }) (prepare (input.project s.linked)) orders.prepare s =
      .ok () { s with store, futures := s.futures ++ futures } := stage_ok (runWorkers_ok _ _ _ _ here)
  refine ⟨{ s with store, futures := s.futures ++ futures, prepareReturned := true },?_,rfl,rfl,rfl,
    prepared_iff_ready (resolved input) orders.prepare orders.prepareAll store futures ran,?_⟩
  · show (stage orders.late (·.store) _ _ _ >>= _) s = _
    rw [bind_of_ok staged]
    rfl
  · intro before ready f member
    cases List.mem_append.mp member with
    | inl old => exact before f old
    | inr new => exact clean.mpr (fun r _ => ready r) f new

end Preparing

section Compiling

variable (input : Input V n) (orders : Orders n)

theorem compileTask_settled (generator : String) (r : Fin n) :
    Settled (fun e => e.isException = true ↔ ∀ e, input.outcome generator r = some e → e.isException = true)
      (input.compileTask generator r) (input.outcome generator r = none) := by
  unfold Input.compileTask Input.outcome
  split
  · cases input.compile generator r with
    | none =>
      refine ((settled_modify _).bind fun _ => settled_pure _).congr ?_
      simp
    | some e =>
      refine ((settled_modify _).bind fun _ => settled_throw ?_).congr ?_
      · simp
      · simp
  · refine (settled_pure _).congr ?_
    simp

theorem compileTask_error {generator : String} {r : Fin n} (failed : input.compileTask generator r s = .error e s') :
    input.outcome generator r = some e := by
  unfold Input.compileTask at failed
  unfold Input.outcome
  split at failed
  · next found =>
    rw [if_pos found]
    cases compiled : input.compile generator r with
    | none =>
      rw [compiled] at failed
      contradiction
    | some e' =>
      rw [compiled] at failed
      cases failed
      rfl
  · contradiction

/-- One generator: the process ends, or its futures are gathered. -/
theorem compileRules_spec (late : Nat) (generator : String) (order : List (Fin n)) (s : Report n) :
    ((∀ r ∈ order, ∀ e, input.outcome generator r = some e → e.isException = true) →
      ∃ s', compileRules input late order generator s = .ok () s' ∧ ((∀ f ∈ s'.futures, f = none) ↔
        (∀ f ∈ s.futures, f = none) ∧ ∀ r ∈ order, input.outcome generator r = none)) ∧
    ((¬∀ r ∈ order, ∀ e, input.outcome generator r = some e → e.isException = true) →
      ∃ e s', compileRules input late order generator s = .error e s') := by
  obtain ⟨succeeds,fails⟩ := runWorkers_spec order (fun r _ => compileTask_settled input generator r) s.compiled
  have either : ∀ r,
      (input.outcome generator r = none ∨ ∀ e, input.outcome generator r = some e → e.isException = true) ↔
      ∀ e, input.outcome generator r = some e → e.isException = true := by
    intro r
    cases input.outcome generator r <;> simp
  simp only [either] at succeeds fails
  constructor
  · intro survives
    obtain ⟨futures,compiled,ran,clean⟩ := succeeds survives
    refine ⟨_,stage_ok ran,?_⟩
    simp only [List.mem_append,or_imp,forall_and,clean]
  · intro ends
    obtain ⟨e,compiled,ran⟩ := fails ends
    exact ⟨e,_,stage_error ran⟩

theorem compileRules_defined {late : Nat} {generator : String} {order : List (Fin n)}
    (defined : ∀ r ∈ order, input.outcome generator r ≠ some .undefined)
    (failed : compileRules input late order generator s = .error e s') : e ≠ .undefined := by
  obtain ⟨part,ended⟩ := stage_failed failed
  refine runWorkers_error (fun rest _ => ∀ r ∈ rest, input.outcome generator r ≠ some .undefined) (· ≠ .undefined)
    ?_ ?_ order _ defined ended
  · exact fun rest count _ all r member => all r (List.mem_of_mem_take member)
  · intro r rest s all
    refine ⟨fun q member => all q (List.mem_cons_of_mem _ member),?_⟩
    rintro e s' thrown rfl
    exact all r List.mem_cons_self (compileTask_error input thrown)

theorem compileRules_undefined {late : Nat} {generator : String} {r : Fin n} {rest : List (Fin n)}
    (outcome : input.outcome generator r = some .undefined) (s : Report n) :
    ∃ s', compileRules input late (r :: rest) generator s = .error .undefined s' := by
  have thrown : ∃ middle, input.compileTask generator r s.compiled = .error .undefined middle := by
    have fails := (compileTask_settled input generator r).fails (by simp [outcome]) s.compiled
    obtain ⟨e,middle,thrown,-⟩ := fails
    obtain rfl := Option.some.inj (outcome.symm.trans (compileTask_error input thrown))
    exact ⟨middle,thrown⟩
  obtain ⟨middle,thrown⟩ := thrown
  obtain ⟨part,ended⟩ := runWorkers_worst undefined_worst undefined_ends thrown
  exact ⟨_,stage_error ended⟩

theorem generators_cons (generator : String) (generators : List String) (rules : List (Fin n)) (s : Report n) :
    (generator :: generators).forM
        (fun generator => compileRules input orders.late (orders.compile generator rules) generator) s =
      (do
        compileRules input orders.late (orders.compile generator rules) generator
        generators.forM fun generator => compileRules input orders.late (orders.compile generator rules) generator) s :=
  rfl

theorem generators_spec (rules : List (Fin n)) (generators : List String) (s : Report n) :
    ((∀ generator ∈ generators, ∀ r ∈ rules, ∀ e, input.outcome generator r = some e → e.isException = true) →
      ∃ s', generators.forM (fun generator =>
          compileRules input orders.late (orders.compile generator rules) generator) s = .ok () s' ∧
        ((∀ f ∈ s'.futures, f = none) ↔ (∀ f ∈ s.futures, f = none) ∧
          ∀ generator ∈ generators, ∀ r ∈ rules, input.outcome generator r = none)) ∧
    ((¬∀ generator ∈ generators, ∀ r ∈ rules, ∀ e, input.outcome generator r = some e → e.isException = true) →
      ∃ e s', generators.forM (fun generator =>
          compileRules input orders.late (orders.compile generator rules) generator) s = .error e s') := by
  induction generators generalizing s with
  | nil => exact ⟨fun _ => ⟨s,rfl,by simp⟩,fun fails => absurd (by simp) fails⟩
  | cons generator generators ih =>
    obtain ⟨succeeds,fails⟩ := compileRules_spec input orders.late generator (orders.compile generator rules) s
    simp only [(orders.compileAll generator rules).mem_iff] at succeeds fails
    rw [generators_cons]
    simp only [List.forall_mem_cons]
    constructor
    · rintro ⟨here,later⟩
      obtain ⟨middle,ran,clean⟩ := succeeds here
      obtain ⟨s',rest,clean'⟩ := (ih middle).1 later
      refine ⟨s',by rw [bind_of_ok ran,rest],?_⟩
      rw [clean',clean,and_assoc]
    · intro ends
      by_cases here : ∀ r ∈ rules, ∀ e, input.outcome generator r = some e → e.isException = true
      · obtain ⟨middle,ran,-⟩ := succeeds here
        obtain ⟨e,s',rest⟩ := (ih middle).2 fun later => ends ⟨here,later⟩
        exact ⟨e,s',by rw [bind_of_ok ran,rest]⟩
      · obtain ⟨e,s',ran⟩ := fails here
        exact ⟨e,s',bind_of_error ran⟩

section Wants

variable {rules : List (Fin n)} (members : ∀ r, r ∈ rules ↔ Wanted input r)
include members

theorem generators_defined {generators : List String} {s : Report n} (defined : Defined input generators)
    (failed : generators.forM (fun generator =>
      compileRules input orders.late (orders.compile generator rules) generator) s = .error e s') : e ≠ .undefined := by
  induction generators generalizing s with
  | nil => contradiction
  | cons generator generators ih =>
    rw [generators_cons] at failed
    have listed : ∀ r, r ∈ orders.compile generator rules ↔ Wanted input r := fun r =>
      (orders.compileAll generator rules).mem_iff.trans (members r)
    obtain ⟨succeeds,fails⟩ := compileRules_spec input orders.late generator (orders.compile generator rules) s
    simp only [listed] at succeeds fails
    by_cases survives : Survives input generator
    · obtain ⟨middle,ran,-⟩ := succeeds survives
      rw [bind_of_ok ran] at failed
      exact ih (defined.2 survives) failed
    · obtain ⟨e',middle,ran⟩ := fails survives
      rw [bind_of_error ran] at failed
      rw [← (EStateM.Result.error.inj failed).1]
      exact compileRules_defined input (fun r member => defined.1 r ((listed r).mp member)) ran

theorem generators_undefined {generators : List String} (undefined : ¬Defined input generators) :
    ∃ r, ∀ s, ∃ s', generators.forM (fun generator =>
      compileRules input (beginning [r]).late ((beginning [r]).compile generator rules) generator) s =
        .error .undefined s' := by
  induction generators with
  | nil => exact absurd trivial undefined
  | cons generator generators ih =>
    by_cases here : ∀ r, Wanted input r → input.outcome generator r ≠ some .undefined
    · have later : Survives input generator ∧ ¬Defined input generators := by
        rw [Defined,and_iff_right here] at undefined
        exact Classical.not_imp.mp undefined
      obtain ⟨r,ends⟩ := ih later.2
      refine ⟨r,fun s => ?_⟩
      have survives : ∀ q ∈ (beginning [r]).compile generator rules, ∀ e, input.outcome generator q = some e →
          e.isException = true := by
        intro q member
        exact later.1 q ((members q).mp (((beginning [r]).compileAll generator rules).mem_iff.mp member))
      obtain ⟨middle,ran,-⟩ := (compileRules_spec input _ generator _ s).1 survives
      rw [generators_cons,bind_of_ok ran]
      exact ends middle
    · obtain ⟨r,missed⟩ := not_forall.mp here
      obtain ⟨wanted,outcome⟩ := Classical.not_imp.mp missed
      have outcome := not_not.mp outcome
      refine ⟨r,fun s => ?_⟩
      obtain ⟨rest,order⟩ := beginning_compile generator ((members r).mpr wanted)
      obtain ⟨s',ran⟩ := compileRules_undefined input outcome s
      rw [generators_cons,order]
      exact ⟨s',bind_of_error ran⟩

end Wants

/-- The arguments stand for rules, and the search lists what is wanted. -/
theorem wanted_listed (found : Found input) : ∃ requested rules, input.requested.mapM input.argRules = .ok requested ∧
    allRules (resolved input).graph requested.flatten = .ok rules ∧ ∀ r, r ∈ rules ↔ Wanted input r := by
  have each : ∀ id ∈ input.requested, ∃ rules, input.argRules id = .ok rules ∧ True := by
    intro id member
    obtain ⟨rules,named⟩ := found id member
    exact ⟨rules,named,trivial⟩
  obtain ⟨requested,done,named⟩ := mapM_total input.requested each
  obtain ⟨rules,searched,-,members⟩ := RootMakefile.compiledRules_reached (resolved input).graph requested.flatten
  refine ⟨requested,rules,done,by rw [allRules,searched],fun r => ?_⟩
  rw [members]
  constructor
  · rintro ⟨root,member,path⟩
    obtain ⟨part,inParts,inPart⟩ := List.mem_flatten.mp member
    obtain ⟨id,inRequested,same,-⟩ := forall₂_right named inParts
    exact ⟨id,inRequested,part,same,root,inPart,path⟩
  · rintro ⟨id,inRequested,part,same,root,inPart,path⟩
    obtain ⟨part',inParts,same',-⟩ := forall₂_left named inRequested
    obtain rfl := Except.ok.inj (same.symm.trans same')
    exact ⟨root,List.mem_flatten.mpr ⟨part,inParts,inPart⟩,path⟩

theorem compileAll_found (s : Report n) (linked : s.linked = input.links) (found : Found input) :
    ∃ rules, (∀ r, r ∈ rules ↔ Wanted input r) ∧ compileAll input orders s = (do
      input.generators.forM fun generator => compileRules input orders.late (orders.compile generator rules) generator
      attempt input.written) s := by
  obtain ⟨requested,rules,parsed,searched,members⟩ := wanted_listed input found
  refine ⟨rules,members,?_⟩
  rw [compileAll,bind_of_ok (attempt_ok parsed s)]
  show (attempt (allRules (input.graph s.linked) requested.flatten) >>= _) s = _
  rw [linked]
  exact bind_of_ok (attempt_ok searched s)

theorem compileAll_unfound (s : Report n) (unfound : ¬Found input) :
    ∃ e, e ≠ .undefined ∧ compileAll input orders s = .error e s := by
  cases parsed : input.requested.mapM input.argRules with
  | ok requested => exact absurd (fun id member => mapM_each parsed member) unfound
  | error e =>
    refine ⟨e,?_,?_⟩
    · obtain ⟨id,-,failed⟩ := mapM_fails parsed
      unfold Input.argRules at failed
      split at failed
      · rw [← Except.error.inj failed]
        simp
      · split at failed
        · contradiction
        · simp only at failed
          split at failed
          · contradiction
          · rw [← Except.error.inj failed]
            simp
    · rw [compileAll,parsed]
      rfl

theorem written_defined : input.written ≠ .error .undefined := by
  unfold Input.written
  split
  · cases input.releaseFolder <;> simp [filesystem,Except.mapError]
  · simp

theorem compileAll_spec (s : Report n) (linked : s.linked = input.links) :
    (Found input → (∀ generator ∈ input.generators, Survives input generator) → input.written = .ok () →
      ∃ s', compileAll input orders s = .ok () s') ∧
    ∀ s', compileAll input orders s = .ok () s' → Found input ∧
      (∀ generator ∈ input.generators, Survives input generator) ∧ input.written = .ok () ∧
      ((∀ f ∈ s'.futures, f = none) ↔ (∀ f ∈ s.futures, f = none) ∧
        ∀ generator ∈ input.generators, ∀ r, Wanted input r → input.outcome generator r = none) := by
  by_cases found : Found input
  · obtain ⟨rules,members,run⟩ := compileAll_found input orders s linked found
    obtain ⟨succeeds,fails⟩ := generators_spec input orders rules input.generators s
    simp only [members] at succeeds fails
    rw [run]
    constructor
    · intro _ survives written
      obtain ⟨s',ran,-⟩ := succeeds survives
      exact ⟨s',by rw [bind_of_ok ran]; exact attempt_ok written s'⟩
    · intro s' done
      obtain ⟨_,middle,generated,last⟩ := bind_done done
      obtain ⟨written,rfl⟩ := attempt_done last
      have survives : ∀ generator ∈ input.generators, Survives input generator := by
        by_contra ends
        obtain ⟨e,s',thrown⟩ := fails ends
        rw [thrown] at generated
        contradiction
      obtain ⟨s',ran,clean⟩ := succeeds survives
      obtain ⟨-,rfl⟩ := EStateM.Result.ok.inj (generated.symm.trans ran)
      exact ⟨found,survives,written,clean⟩
  · obtain ⟨e,-,ended⟩ := compileAll_unfound input orders s found
    refine ⟨fun found' => absurd found' found,fun s' done => ?_⟩
    rw [ended] at done
    contradiction

theorem compileAll_defined (s : Report n) (linked : s.linked = input.links)
    (defined : Found input → Defined input input.generators) (failed : compileAll input orders s = .error e s') :
    e ≠ .undefined := by
  by_cases found : Found input
  · obtain ⟨rules,members,run⟩ := compileAll_found input orders s linked found
    rw [run] at failed
    cases generated : input.generators.forM (fun generator =>
        compileRules input orders.late (orders.compile generator rules) generator) s with
    | ok u middle =>
      rw [bind_of_ok generated] at failed
      rintro rfl
      cases written : input.written with
      | ok u =>
        rw [written] at failed
        contradiction
      | error e =>
        rw [written] at failed
        obtain rfl := (EStateM.Result.error.inj failed).1
        exact written_defined input written
    | error e' middle =>
      rw [bind_of_error generated] at failed
      rw [← (EStateM.Result.error.inj failed).1]
      exact generators_defined input orders members (defined found) generated
  · obtain ⟨e',visible,ended⟩ := compileAll_unfound input orders s found
    rw [ended] at failed
    rwa [← (EStateM.Result.error.inj failed).1]

theorem compileAll_undefined (found : Found input) (undefined : ¬Defined input input.generators) :
    ∃ orders, ∀ s, s.linked = input.links → ∃ s', compileAll input orders s = .error .undefined s' := by
  obtain ⟨requested,rules,parsed,searched,members⟩ := wanted_listed input found
  obtain ⟨r,ends⟩ := generators_undefined input members undefined
  refine ⟨beginning [r],fun s linked => ?_⟩
  obtain ⟨s',ended⟩ := ends s
  refine ⟨s',?_⟩
  rw [compileAll,bind_of_ok (attempt_ok parsed s)]
  show (attempt (allRules (input.graph s.linked) requested.flatten) >>= _) s = _
  rw [linked]
  refine (bind_of_ok (attempt_ok searched s)).trans ?_
  exact bind_of_error ended

theorem compileAll_keeps (store : Store n) (returned : Bool) :
    Keeps (fun s : Report n => s.store = store ∧ s.prepareReturned = returned) (compileAll input orders) := by
  unfold compileAll
  refine (keeps_attempt _).bind fun requested => keeps_get fun s => (keeps_attempt _).bind fun rules => ?_
  refine (keeps_forM _ fun generator => stage_keeps ?_ ?_).bind fun _ => keeps_attempt _
  · exact fun _ _ holds => holds
  · exact fun _ _ holds => holds

end Compiling

section Runs

variable (input : Input V n) (orders : Orders n)

/-- Once dependencies are resolved the outcome is that of the last part, begun with every
rule marked whose task went through. -/
theorem generateAll_answered (answers : Answers input) :
    ∃ s, generateAll input orders input.start = compileAll input orders s ∧ s.linked = input.links ∧
      (∀ r, ((left (generateAll input orders input.start)).store r).prepared = true ↔ Ready (resolved input) r) ∧
      (left (generateAll input orders input.start)).prepareReturned = true ∧
      ((∀ r, Ready (resolved input) r) → ∀ f ∈ s.futures, f = none) := by
  obtain ⟨s,resolving,linked,fresh,-,quiet⟩ := prepareDependencies_answered input orders answers
  obtain ⟨s',preparing,kept,-,returned,marks,quiet'⟩ := prepareRules_spec input orders s linked fresh
  have run : generateAll input orders input.start = compileAll input orders s' := by
    rw [generateAll,bind_of_ok resolving,bind_of_ok preparing]
  obtain ⟨store,stays⟩ := compileAll_keeps input orders s'.store true s' ⟨rfl,returned⟩
  rw [← run] at store stays
  exact ⟨s',run,kept.trans linked,by simpa only [store] using marks,stays,quiet' quiet⟩

theorem generateAll_unanswered (unanswered : ¬Answers input) (stops : Stops input) :
    NothingSwallowed (generateAll input orders input.start) := by
  obtain ⟨e,s,ended,before,empty,defined⟩ := prepareDependencies_unanswered input orders unanswered
  have run : generateAll input orders input.start = .error e s := by rw [generateAll,bind_of_error ended]
  rw [run]
  refine ⟨fun s' done => by contradiction,fun s' same => ?_,fun returned => ?_,fun entry member => ?_⟩
  · exact defined stops (EStateM.Result.error.inj same).1
  · rw [left,before] at returned
    contradiction
  · rw [left,empty] at member
    contradiction

theorem generateAll_reports (reported : Reported input) : NothingSwallowed (generateAll input orders input.start) := by
  by_cases answers : Answers input
  · obtain ⟨s,run,linked,marks,returned,quiet⟩ := generateAll_answered input orders answers
    have ready := reported.ready answers
    refine ⟨fun s' done => ?_,fun s' ended => ?_,fun _ r => (marks r).mpr (ready r),
      fun entry _ => (marks entry.2).mpr (ready entry.2)⟩
    · obtain ⟨found,survives,written,clean⟩ := (compileAll_spec input orders s linked).2 s' (run.symm.trans done)
      exact clean.mpr ⟨quiet ready,reported.compiled answers found survives written⟩
    · exact compileAll_defined input orders s linked (reported.defined answers) (run.symm.trans ended) rfl
  · exact generateAll_unanswered input orders answers reported.stops

theorem link_undefined (ended : ∃ part, runWorkers Failure.isException (fun e => e = .undefined) orders.late
      (input.linkTask Preparation.initial) orders.link (input.loaded,fun _ => {}) = .error .undefined part) :
    ¬NothingSwallowed (generateAll input orders input.start) := by
  obtain ⟨part,ended⟩ := ended
  intro nothing
  have resolving : prepareDependencies input orders input.start = .error .undefined _ := stage_error ended
  exact nothing.defined _ (by rw [generateAll,bind_of_error resolving])

/-- Some order of tasks reads past the end of a map unless all of them stop before. -/
theorem stops_of (nothing : ∀ orders, NothingSwallowed (generateAll input orders input.start)) : Stops input := by
  constructor
  · intro r unanswered
    by_contra unmissed
    obtain ⟨dep,first⟩ := first_unanswered input unanswered
    rcases linkTask_ends input (grown_start input.loaded) first (fun _ => {}) with
      ⟨package,_,_,misses,-⟩ | ⟨-,middle,read⟩
    · exact unmissed ⟨package,misses⟩
    obtain ⟨rest,order⟩ := beginning_link [r] (List.nodup_singleton r)
    apply link_undefined input (beginning [r]) _ (nothing _)
    rw [order]
    exact runWorkers_worst undefined_worst undefined_ends read
  · intro r q package misses misses'
    by_contra apart
    -- the task of the second rule finds the package that the task of the first has made
    obtain ⟨dep,first,checked⟩ := misses
    obtain ⟨dep',first',checked'⟩ := misses'
    obtain ⟨rest,order⟩ := beginning_link [r,q] (by simpa using apart)
    apply link_undefined input (beginning [r,q]) _ (nothing _)
    rw [order]
    rcases linkTask_ends input (grown_start input.loaded) first (fun _ => {}) with
      ⟨made,message,linked,⟨_,again,checkedMade⟩,-,ended⟩ | ⟨taken,-⟩
    · obtain rfl := Option.some.inj (first.symm.trans again)
      obtain rfl := Option.some.inj (checkedMade.asked.symm.trans checked.asked)
      have grown := (grown_start input.loaded).with made
      obtain ⟨-,-,-,-,missing⟩ := checked
      rw [with_missing missing] at grown
      have read : ∃ s', input.linkTask Preparation.initial q (input.loaded.make made,linked) = .error .undefined s' := by
        rcases linkTask_ends input grown first' linked with ⟨other,_,_,⟨_,again',checkedOther⟩,unmade,-⟩ | ⟨-,read⟩
        · obtain rfl := Option.some.inj (first'.symm.trans again')
          exact absurd (.inr (Option.some.inj (checkedOther.asked.symm.trans checked'.asked))) unmade
        · exact read
      obtain ⟨s',read⟩ := read
      refine ⟨s',(runWorkers_ended (inFuture_ends rfl ended)).trans ?_⟩
      show outlive _ _ _ [q] _ = _
      simp only [outlive,read]
      rfl
    · exact (taken package ⟨dep,first,checked⟩).elim

end Runs

/-- The pipeline waits for its futures and asks none of them. So in some order a failure is
swallowed exactly when a rule is not ready, when a compiler throws in a run that goes through,
or when what is undefined comes before the end of the process. -/
theorem generate_all_reports_iff (input : Input V n) :
    (∀ orders, NothingSwallowed (generateAll input orders input.start)) ↔ Reported input := by
  refine ⟨fun nothing => ⟨stops_of input nothing,?_,?_,?_⟩,fun reported orders => generateAll_reports input orders reported⟩
  · intro answers r
    obtain ⟨s,-,-,marks,returned,-⟩ := generateAll_answered input inOrder answers
    exact (marks r).mp ((nothing inOrder).prepared returned r)
  · intro answers found
    by_contra undefined
    obtain ⟨orders,ends⟩ := compileAll_undefined input found undefined
    obtain ⟨s,run,linked,-⟩ := generateAll_answered input orders answers
    obtain ⟨s',ended⟩ := ends s linked
    exact (nothing orders).defined s' (run.trans ended)
  · intro answers found survives written
    obtain ⟨s,run,linked,-⟩ := generateAll_answered input inOrder answers
    obtain ⟨completes,completed⟩ := compileAll_spec input inOrder s linked
    obtain ⟨s',done⟩ := completes found survives written
    obtain ⟨-,-,-,clean⟩ := completed s' done
    exact (clean.mp ((nothing inOrder).thrown s' (run.trans done))).2

/-- A library whose sources are no list. -/
def illTyped : Input (Fin 10 × Fin 10 × Fin 10) 1 where
  assertions := true
  semver := digitVersions
  session := emptySession
  rules := fun _ => (create 0 "a" ⟨"cc_library",[("name",.string "r"),("srcs",.string "r.cc")]⟩).toOption.get rfl
  packages := ["a"]
  requested := [("a","r")]
  generators := ["makefile"]
  finds := fun generator typeName => generator = "makefile" && typeName = "cc_library"
  compile := fun _ _ => none
  markWritable := true
  releaseFolder := .ok ()
  ids := fun r q _ => Subsingleton.elim r q
  parsed := by
    intro r dep member
    contradiction

/-- Its task throws, the rule is compiled all the same, and the run completes. -/
theorem generate_all_swallows : (∃ s, generateAll illTyped inOrder illTyped.start = .ok () s ∧
    some (Kwargs.illTyped "srcs" "list") ∈ s.futures ∧ (s.store 0).prepared = false ∧ ("makefile",0) ∈ s.compiled) ∧
    ¬NothingSwallowed (generateAll illTyped inOrder illTyped.start) := by
  have completed : ∃ s, generateAll illTyped inOrder illTyped.start = .ok () s ∧
      some (Kwargs.illTyped "srcs" "list") ∈ s.futures ∧ (s.store 0).prepared = false ∧
        ("makefile",0) ∈ s.compiled := by decide +kernel
  refine ⟨completed,fun nothing => ?_⟩
  obtain ⟨s,done,thrown,-⟩ := completed
  exact absurd (nothing.thrown s done _ thrown) (by simp)

end JkBuild.Pipeline
