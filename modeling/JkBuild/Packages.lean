import JkBuild.BuildRuleBase
import Mathlib.Algebra.BigOperators.Group.Finset.Basic

/-! Packages and their rules: `BuildPackage::ConstructRules` and `LoadBuildFiles`. A tree
of BUILD files is the list of rule calls each package evaluates to; the order in which a
hash map of rules is walked is left open. -/
namespace JkBuild

open Dependent

structure EvalResult where
  funcName : String
  args : Kwargs

structure BuildRule where
  cls : RuleClass
  base : BuildRuleBase

namespace Packages

/-- A rule function nobody registered fails an `expect`. -/
def create (objectId : Nat) (package : String) (call : EvalResult) : Except Failure BuildRule :=
  match RuleClass.ofName call.funcName with
  | none => .error (.terminate call.funcName)
  | some cls => do
    let base ← BuildRuleBase.make objectId cls.typeName cls.type package call.args
    return ⟨cls,base⟩

/-- `RulesMap.emplace`: a rule whose name is taken is dropped. -/
def emplace (rules : List BuildRule) (rule : BuildRule) : List BuildRule :=
  if rules.any (·.base.name = rule.base.name) then rules else rules ++ [rule]

def constructRules (package : String) : List EvalResult → Nat → List BuildRule →
    Except Failure (List BuildRule × Nat)
  | [], objectId, rules => .ok (rules,objectId)
  | call :: calls, objectId, rules => do
    let rule ← create objectId package call
    constructRules package calls (objectId + 1) (emplace rules rule)

theorem constructRules_each {package : String} (calls : List EvalResult) {id id' : Nat} {rules rules' : List BuildRule}
    (done : constructRules package calls id rules = .ok (rules',id')) : ∃ declared,
      List.Forall₂ (fun rule call => ∃ objectId, create objectId package call = .ok rule) declared calls ∧
        rules' = declared.foldl emplace rules := by
  induction calls generalizing id rules with
  | nil =>
    obtain ⟨rfl,rfl⟩ := Prod.mk.inj (Except.ok.inj done)
    exact ⟨[],.nil,rfl⟩
  | cons call calls ih =>
    rw [constructRules] at done
    obtain ⟨rule,created,rest⟩ := bind_ok done
    obtain ⟨declared,made,same⟩ := ih rest
    exact ⟨rule :: declared,.cons ⟨id,created⟩ made,same⟩

abbrev Tree := List (String × List EvalResult)

/-- A missing BUILD file reads as an empty script. -/
def evalFile (tree : Tree) (name : String) : List EvalResult := (tree.lookup name).getD []

/-- How the rules of a package are walked, depending on the package alone. -/
structure IterRules where
  iter : String → List BuildRule → List BuildRule
  perm : ∀ name rules, (iter name rules).Perm rules

/-- `packages` is the factory; `evaluated` lists the BUILD files in evaluation order. -/
structure Loader where
  packages : List (String × List BuildRule)
  nextId : Nat
  evaluated : List String

/-- The package files a dependency asks for. For a relative one this is the package that
is being loaded. -/
def nextFile (semver : Semver V) (name dep : String) : Except Failure (List String) := do
  let id ← parseIdString semver dep
  match id.position,id.packageName with
  | .absolute,some package => .ok [package]
  | .absolute,none => .error .undefined
  | .builtin,_ => .error (.jkBuildError "not supported")
  | .relative,_ => .ok [name]
  | .this,_ => .ok []

def nextFiles (semver : Semver V) (name : String) (rules : List BuildRule) : Except Failure (List String) := do
  let files ← (rules.flatMap (·.base.dependencies)).mapM (nextFile semver name)
  return files.flatten

def loadBuildFile (semver : Semver V) (order : IterRules) (tree : Tree) (name : String) (s : Loader) :
    Except Failure (Loader × List String) :=
  if (s.packages.lookup name).isSome then .ok (s,[])
  else do
    let (rules,nextId) ← constructRules name (evalFile tree name) s.nextId []
    let deps ← nextFiles semver name (order.iter name rules)
    return (⟨s.packages ++ [(name,rules)],nextId,s.evaluated ++ [name]⟩,deps)

/-- The queue of package names, worked off from the front. -/
def loadLoop (semver : Semver V) (order : IterRules) (tree : Tree) :
    Nat → Loader → List String → Except Failure Loader
  | _, s, [] => .ok s
  | 0, _, _ :: _ => .error .diverges
  | fuel + 1, s, name :: queue => do
    let (s,deps) ← loadBuildFile semver order tree name s
    loadLoop semver order tree fuel s (queue ++ deps)

def callName (call : EvalResult) : String := (call.args.stringRequired "name").toOption.getD ""

def callDeps (call : EvalResult) : List String := (call.args.listOptional "deps" (some [])).toOption.getD []

/-- The calls whose rules are kept: the first of each name. -/
def keptCalls (calls : List EvalResult) : List EvalResult :=
  calls.foldl (fun kept call => if kept.any (callName · = callName call) then kept else kept ++ [call]) []

def keptDeps (tree : Tree) (name : String) : List String := (keptCalls (evalFile tree name)).flatMap callDeps

/-- Every dependency queues at most one package, so this many rounds are enough. -/
def rounds (tree : Tree) (files : List String) : Nat :=
  files.length + ∑ name ∈ (tree.map Prod.fst).toFinset, (keptDeps tree name).length

def loadBuildFiles (semver : Semver V) (order : IterRules) (tree : Tree) (files : List String) :
    Except Failure Loader :=
  loadLoop semver order tree (rounds tree files) ⟨[],0,[]⟩ files

/-- What a created rule takes over from its call. -/
structure Stored (package : String) (rule : BuildRule) (call : EvalResult) : Prop where
  name : rule.base.name = callName call
  dependencies : rule.base.dependencies = callDeps call
  package : rule.base.packageName = package

/-- The call creates a rule. Object ids and packages play no part in that. -/
def Creates (call : EvalResult) : Prop := ∃ rule, create 0 "" call = .ok rule

theorem create_stored {id : Nat} {package : String} (created : create id package call = .ok rule) :
    Stored package rule call := by
  unfold create at created
  split at created
  · contradiction
  · obtain ⟨base,made,done⟩ := bind_ok created
    obtain ⟨name,named,made⟩ := bind_ok made
    obtain ⟨version,-,made⟩ := bind_ok made
    obtain ⟨dependencies,listed,made⟩ := bind_ok made
    obtain rfl := Except.ok.inj made
    obtain rfl := Except.ok.inj done
    exact ⟨by simp [callName,named,Except.toOption],by simp [callDeps,listed,Except.toOption],rfl⟩

theorem Creates.create (h : Creates call) (id : Nat) (package : String) :
    ∃ rule, Packages.create id package call = .ok rule := by
  obtain ⟨rule,created⟩ := h
  unfold Packages.create at created ⊢
  split at created
  · contradiction
  · obtain ⟨base,made,-⟩ := bind_ok created
    obtain ⟨name,named,made⟩ := bind_ok made
    obtain ⟨version,versioned,made⟩ := bind_ok made
    obtain ⟨dependencies,listed,-⟩ := bind_ok made
    exact ⟨_,by simp only [BuildRuleBase.make,named,versioned,listed,ok_bind,ok_pure]; rfl⟩

theorem stored_any {package : String} (h : List.Forall₂ (Stored package) rules calls) (name : String) :
    (rules.any (·.base.name = name)) = calls.any (callName · = name) := by
  induction h with
  | nil => rfl
  | cons stored _ ih => simp [stored.name,ih]

theorem stored_deps {package : String} (h : List.Forall₂ (Stored package) rules calls) :
    rules.flatMap (·.base.dependencies) = calls.flatMap callDeps := by
  induction h with
  | nil => rfl
  | cons stored _ ih => rw [List.flatMap_cons,List.flatMap_cons,stored.dependencies,ih]

theorem stored_emplace {package : String} (h : List.Forall₂ (Stored package) rules kept)
    (stored : Stored package rule call) : List.Forall₂ (Stored package) (emplace rules rule)
      (if kept.any (callName · = callName call) then kept else kept ++ [call]) := by
  unfold emplace
  rw [stored_any h,stored.name]
  split
  · exact h
  · exact List.rel_append h (.cons stored .nil)

theorem constructRules_fold {package : String} (calls : List EvalResult) (created : ∀ call ∈ calls, Creates call)
    (id : Nat) (rules : List BuildRule) (kept : List EvalResult) (h : List.Forall₂ (Stored package) rules kept) :
    ∃ rules' id', constructRules package calls id rules = .ok (rules',id') ∧
      List.Forall₂ (Stored package) rules' (calls.foldl (fun kept call =>
        if kept.any (callName · = callName call) then kept else kept ++ [call]) kept) := by
  induction calls generalizing id rules kept with
  | nil => exact ⟨rules,id,rfl,h⟩
  | cons call calls ih =>
    obtain ⟨rule,made⟩ := (created call (by simp)).create id package
    obtain ⟨rules',id',done,all⟩ := ih (fun c member => created c (List.mem_cons_of_mem _ member))
      (id + 1) (emplace rules rule) _ (stored_emplace h (create_stored made))
    refine ⟨rules',id',?_,all⟩
    rw [constructRules,made]
    exact done

theorem mem_of_kept (calls : List EvalResult) (member : call ∈ keptCalls calls) : call ∈ calls := by
  have inside : ∀ (calls kept : List EvalResult), call ∈ calls.foldl (fun kept call =>
      if kept.any (callName · = callName call) then kept else kept ++ [call]) kept → call ∈ kept ∨ call ∈ calls := by
    intro calls
    induction calls with
    | nil => exact fun kept member => .inl member
    | cons first calls ih =>
      intro kept member
      rw [List.foldl_cons] at member
      cases ih _ member with
      | inl old =>
        split at old
        · exact .inl old
        · cases List.mem_append.mp old with
          | inl old => exact .inl old
          | inr single => exact .inr (by simp [List.mem_singleton.mp single])
      | inr later => exact .inr (List.mem_cons_of_mem _ later)
  exact (inside calls [] member).resolve_left (by simp)

/-- The rules of a package are those of its kept calls, in order. -/
theorem constructRules_stored (package : String) (calls : List EvalResult)
    (created : ∀ call ∈ calls, Creates call) (id : Nat) :
    ∃ rules id', constructRules package calls id [] = .ok (rules,id') ∧
      List.Forall₂ (Stored package) rules (keptCalls calls) :=
  constructRules_fold calls created id [] [] .nil

end Packages

end JkBuild
