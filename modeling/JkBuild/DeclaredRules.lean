import JkBuild.Resolution

/-! Which declarations of a BUILD file become rules. The changelog makes the version a part
of what a rule is called; the map of a package is keyed by the name alone, and a name that
is taken goes unreported. -/
namespace JkBuild.DeclaredRules

open Packages

def declaredName (call : EvalResult) : Option String :=
  match call.args.lookup "name" with
  | some (.string name) => some name
  | _ => none

def declaredVersion (call : EvalResult) : Option String :=
  match call.args.lookup "version" with
  | none => some "DEFAULT"
  | some (.string version) => some version
  | some _ => none

/-- The documented identity of a rule. -/
def key (call : EvalResult) : Option (String × String) :=
  match declaredName call,declaredVersion call with
  | some name,some version => some (name,version)
  | _,_ => none

/-- A call of a registered function with a name, at most one version and a list of
dependencies. -/
structure Formed (call : EvalResult) : Prop where
  registered : (RuleClass.ofName call.funcName).isSome = true
  keyed : (key call).isSome = true
  deps : call.args.ListField "deps"

def Distinct (calls : List EvalResult) : Prop :=
  calls.Pairwise fun a b => ∀ k, key a = some k → key b ≠ some k

def Unversioned (call : EvalResult) : Prop := call.args.lookup "version" = none

/-- A package keeps a rule for every call, or refuses its calls because two share a key. -/
structure KeepsDeclared (package : String) (objectId : Nat) (calls : List EvalResult) : Prop where
  stored : (∀ call ∈ calls, Formed call) → Distinct calls →
    ∃ rules nextId, constructRules package calls objectId [] = .ok (rules,nextId) ∧
      ∀ call ∈ calls, ∃ rule ∈ rules, key call = some (rule.base.name,rule.base.version) ∧
        rule.base.kwargs = call.args
  refused : ¬Distinct calls → ∃ e, constructRules package calls objectId [] = .error e

/-- The rule made of a call: it has the key and the arguments of the call. -/
structure Made (rule : BuildRule) (call : EvalResult) : Prop where
  keyed : key call = some (rule.base.name,rule.base.version)
  kwargs : rule.base.kwargs = call.args

section Creation

variable {package : String} {id id' : Nat} {rules rules' : List BuildRule} {call : EvalResult}

theorem stringRequired_declared {name : String} : call.args.stringRequired "name" = .ok name ↔
    declaredName call = some name := by
  unfold Kwargs.stringRequired Kwargs.required declaredName
  cases call.args.lookup "name" with
  | none => simp
  | some value => cases value <;> simp [Kwargs.read,KwargsValue.index,KwargsValue.getString]

theorem stringOptional_unversioned {version : String} :
    call.args.stringOptional "version" (some "DEFAULT") = .ok version ↔ Unversioned call ∧ version = "DEFAULT" := by
  unfold Kwargs.stringOptional Kwargs.optional Unversioned
  cases call.args.lookup "version" with
  | none => simp [eq_comm]
  | some value => cases value <;> simp [Kwargs.read,KwargsValue.index,KwargsValue.getString]

theorem create_made (created : create id package call = .ok rule) :
    Made rule call ∧ Formed call ∧ Unversioned call := by
  unfold create at created
  split at created
  · contradiction
  · next cls registered =>
    obtain ⟨base,made,done⟩ := bind_ok created
    obtain ⟨name,named,made⟩ := bind_ok made
    obtain ⟨version,versioned,made⟩ := bind_ok made
    obtain ⟨dependencies,listed,made⟩ := bind_ok made
    obtain rfl := Except.ok.inj made
    obtain rfl := Except.ok.inj done
    obtain ⟨unversioned,rfl⟩ := stringOptional_unversioned.mp versioned
    have keyed : key call = some (name,"DEFAULT") := by
      have default : declaredVersion call = some "DEFAULT" := by
        rw [declaredVersion,unversioned]
      simp only [key,stringRequired_declared.mp named,default]
    refine ⟨⟨keyed,rfl⟩,⟨by simp [registered],by simp [keyed],?_⟩,unversioned⟩
    exact Kwargs.listOptional_ok_iff.mp ⟨dependencies,listed⟩

/-- A call that is well formed creates a rule when it gives no version. -/
theorem creates_iff : Creates call ↔ Formed call ∧ Unversioned call := by
  constructor
  · rintro ⟨rule,created⟩
    exact (create_made created).2
  · rintro ⟨formed,unversioned⟩
    obtain ⟨cls,registered⟩ := Option.isSome_iff_exists.mp formed.registered
    obtain ⟨name,named⟩ : ∃ name, declaredName call = some name := by
      have keyed := formed.keyed
      unfold key at keyed
      split at keyed
      · next named _ => exact ⟨_,named⟩
      · contradiction
    obtain ⟨dependencies,listed⟩ := Kwargs.listOptional_ok_iff.mpr formed.deps
    have versioned := stringOptional_unversioned.mpr ⟨unversioned,rfl⟩
    have made : ∃ base, BuildRuleBase.make 0 cls.typeName cls.type "" call.args = .ok base := by
      simp only [BuildRuleBase.make,stringRequired_declared.mpr named,versioned,listed,ok_bind,ok_pure]
      exact ⟨_,rfl⟩
    obtain ⟨base,made⟩ := made
    exact ⟨⟨cls,base⟩,by simp only [create,registered,made,ok_bind,ok_pure]⟩

theorem unversioned_key (unversioned : Unversioned call) (keyed : key call = some (name,version)) :
    version = "DEFAULT" := by
  unfold key declaredVersion at keyed
  rw [unversioned] at keyed
  split at keyed
  · next default =>
    obtain ⟨-,rfl⟩ := Prod.mk.inj (Option.some.inj keyed)
    exact (Option.some.inj default).symm
  · contradiction

theorem constructRules_created (calls : List EvalResult)
    (done : constructRules package calls id rules = .ok (rules',id')) : ∃ declared,
    List.Forall₂ (fun rule call => Made rule call ∧ Formed call ∧ Unversioned call) declared calls ∧
      rules' = declared.foldl emplace rules := by
  obtain ⟨declared,made,same⟩ := constructRules_each calls done
  exact ⟨declared,made.imp fun rule call ⟨_,created⟩ => create_made created,same⟩

theorem emplace_distinct (declared : List BuildRule) (rules : List BuildRule)
    (distinct : (rules ++ declared).Pairwise fun a b => a.base.name ≠ b.base.name) :
    declared.foldl emplace rules = rules ++ declared := by
  induction declared generalizing rules with
  | nil => simp
  | cons rule declared ih =>
    have fresh : rules.any (·.base.name = rule.base.name) = false := by
      apply List.any_eq_false.mpr
      intro old member
      have apart := (List.pairwise_append.mp distinct).2.2 old member rule (by simp)
      simpa using apart
    have split : rules ++ rule :: declared = (rules ++ [rule]) ++ declared := by simp
    rw [List.foldl_cons,emplace,fresh,split]
    exact ih _ (split ▸ distinct)

/-- Among rules without versions, keys are as different as names. -/
theorem distinct_names
    (made : List.Forall₂ (fun rule call => Made rule call ∧ Formed call ∧ Unversioned call) declared calls) :
    declared.Pairwise (fun a b => a.base.name ≠ b.base.name) ↔ Distinct calls := by
  induction made with
  | nil => simp [Distinct]
  | @cons rule call declared calls head tail ih =>
    rw [List.pairwise_cons,Distinct,List.pairwise_cons,ih,Distinct]
    refine and_congr_left' ⟨?_,?_⟩
    · intro apart other member k first second
      obtain ⟨rule',inRules,made,-,unversioned⟩ := forall₂_right tail member
      have same : (rule.base.name,rule.base.version) = (rule'.base.name,rule'.base.version) :=
        (Option.some.inj (head.1.keyed.symm.trans first)).trans (Option.some.inj (made.keyed.symm.trans second)).symm
      exact apart rule' inRules (Prod.mk.inj same).1
    · intro apart rule' inRules same
      obtain ⟨other,member,made,-,unversioned⟩ := forall₂_left tail inRules
      have version := unversioned_key head.2.2 head.1.keyed
      have version' := unversioned_key unversioned made.keyed
      apply apart other member _ head.1.keyed
      rw [made.keyed,same,version,version']

end Creation

/-- Rules are kept and collisions are refused exactly when, of well-formed calls, the keys
are distinct if and only if no call gives a version. -/
theorem keeps_declared_iff (package : String) (objectId : Nat) (calls : List EvalResult) :
    KeepsDeclared package objectId calls ↔
      ((∀ call ∈ calls, Formed call) → (Distinct calls ↔ ∀ call ∈ calls, Unversioned call)) := by
  constructor
  · intro keeps formed
    constructor
    · intro distinct call member
      obtain ⟨rules,nextId,done,-⟩ := keeps.stored formed distinct
      obtain ⟨declared,made,-⟩ := constructRules_created calls done
      obtain ⟨rule,-,-,-,unversioned⟩ := forall₂_right made member
      exact unversioned
    · intro unversioned
      have creates : ∀ call ∈ calls, Creates call :=
        fun call member => creates_iff.mpr ⟨formed call member,unversioned call member⟩
      obtain ⟨rules,nextId,done,-⟩ := constructRules_stored package calls creates objectId
      by_contra clash
      obtain ⟨e,failed⟩ := keeps.refused clash
      rw [done] at failed
      contradiction
  · intro agree
    constructor
    · intro formed distinct
      have creates : ∀ call ∈ calls, Creates call := fun call member =>
        creates_iff.mpr ⟨formed call member,(agree formed).mp distinct call member⟩
      obtain ⟨rules,nextId,done,-⟩ := constructRules_stored package calls creates objectId
      obtain ⟨declared,made,same⟩ := constructRules_created calls done
      rw [emplace_distinct declared [] ((distinct_names made).mpr distinct),List.nil_append] at same
      refine ⟨rules,nextId,done,fun call member => ?_⟩
      obtain ⟨rule,inRules,made,-⟩ := forall₂_right made member
      exact ⟨rule,same ▸ inRules,made.keyed,made.kwargs⟩
    · intro clash
      cases done : constructRules package calls objectId [] with
      | error e => exact ⟨e,rfl⟩
      | ok result =>
        obtain ⟨declared,made,-⟩ := constructRules_created calls done
        have formed : ∀ call ∈ calls, Formed call ∧ Unversioned call := by
          intro call member
          obtain ⟨rule,-,-,both⟩ := forall₂_right made member
          exact both
        exact absurd ((agree fun call member => (formed call member).1).mpr
          fun call member => (formed call member).2) clash

/-- Two libraries of one name: the second is dropped without a word. -/
theorem second_library_lost : (∃ rule, constructRules "a" [library "x" ["//b:y"],library "x" ["//c:z"]] 0 [] =
      .ok ([rule],2) ∧ rule.base.dependencies = ["//b:y"]) ∧
    ¬KeepsDeclared "a" 0 [library "x" ["//b:y"],library "x" ["//c:z"]] := by
  have done : ∃ rule, constructRules "a" [library "x" ["//b:y"],library "x" ["//c:z"]] 0 [] =
      .ok ([rule],2) ∧ rule.base.dependencies = ["//b:y"] := ⟨_,by rfl,by rfl⟩
  refine ⟨done,fun keeps => ?_⟩
  have clash : ¬Distinct [library "x" ["//b:y"],library "x" ["//c:z"]] := by
    intro distinct
    exact List.rel_of_pairwise_cons distinct (List.mem_singleton.mpr rfl) ("x","DEFAULT") rfl rfl
  obtain ⟨e,failed⟩ := keeps.refused clash
  obtain ⟨rule,done,-⟩ := done
  rw [done] at failed
  contradiction

end JkBuild.DeclaredRules
