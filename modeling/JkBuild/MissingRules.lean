import JkBuild.Resolution

/-! What the resolver of `PrepareDependencies` does with a dependency that names no declared
rule, after whatever other tasks have looked up in the same factory. -/
namespace JkBuild.MissingRules

open Dependent Packages Resolution Tasks

/-- No rule of the name is declared in the package that the dependency is about. -/
def Unnamed (semver : Semver V) (loaded : Loaded) (package depStr : String) : Prop :=
  ∀ id, parseIdString semver depStr = .ok id → ∀ place, target package id = some place →
    ∀ rule ∈ loaded.declared place, rule.base.name ≠ id.ruleName

/-- An error is reported, nothing is read past the end of a map, and the rule gets no
dependency. -/
structure Rejected (assertions : Bool) (semver : Semver V) (rule : BuildRule) (depStr : String) (loaded : Loaded) :
    Prop where
  reported : ∃ e s', depStrToRule assertions semver rule depStr loaded = .error e s' ∧ e ≠ .undefined
  nothing : ∀ rest linked,
    (left ((depStr :: rest).forM (pushDependency assertions semver rule) ⟨loaded,linked⟩)).linked = linked

/-- The factory after lookups for the given rules. One that fails ends the process, but not
before other workers have seen the package it made. -/
def lookups (assertions : Bool) (semver : Semver V) (earlier : List (BuildRule × String)) (loaded : Loaded) : Loaded :=
  earlier.foldl (fun loaded call => left (depStrToRule assertions semver call.1 call.2 loaded)) loaded

def LookedUp (semver : Semver V) (earlier : List (BuildRule × String)) (package : String) : Prop :=
  ∃ call ∈ earlier, asked semver call.2 = some package

section Resolver

variable {assertions : Bool} {semver : Semver V} {loaded start : Loaded} {made : String → Prop} {rule : BuildRule}
  {depStr package : String}

theorem lookups_grown (earlier : List (BuildRule × String)) (h : Grown start made loaded) :
    Grown start (fun package => made package ∨ LookedUp semver earlier package)
      (lookups assertions semver earlier loaded) := by
  induction earlier generalizing loaded made with
  | nil => exact h.congr (by simp [LookedUp])
  | cons call earlier ih =>
    exact (ih h.lookup).congr fun package => by simp [LookedUp,or_assoc]

theorem rejected_of_error (failed : depStrToRule assertions semver rule depStr loaded = .error e s')
    (visible : e ≠ .undefined) : Rejected assertions semver rule depStr loaded := by
  refine ⟨⟨e,s',failed,visible⟩,fun rest linked => ?_⟩
  show (left ((pushDependency assertions semver rule depStr >>= fun _ =>
    rest.forM (pushDependency assertions semver rule)) _)).linked = linked
  rw [bind_of_error (push_failed failed linked)]
  rfl

theorem not_rejected_undefined (failed : ∃ s', depStrToRule assertions semver rule depStr loaded = .error .undefined s') :
    ¬Rejected assertions semver rule depStr loaded := by
  rintro ⟨⟨e,_,thrown,visible⟩,-⟩
  obtain ⟨s',failed⟩ := failed
  rw [failed] at thrown
  exact visible (EStateM.Result.error.inj thrown).1.symm

theorem not_rejected_answered (found : answer semver loaded rule.base.packageName depStr = some q) :
    ¬Rejected assertions semver rule depStr loaded := by
  rintro ⟨⟨e,_,thrown,-⟩,-⟩
  rw [lookup_answered found] at thrown
  contradiction

theorem checked_unanswered (checked : Checked assertions semver loaded depStr package) (own : String) :
    answer semver loaded own depStr = none := by
  obtain ⟨id,parsed,form,named,missing⟩ := checked
  have about : searched own id = some package := by
    rcases form with form | ⟨form,-⟩ <;> simp [searched,form,named]
  rw [answer_of parsed about,declared_missing missing,List.find?_nil]

end Resolver

/-- A dependency is rejected exactly where its package is checked, is not loaded, and no
lookup has asked for it before. -/
theorem rejected_iff (assertions : Bool) (semver : Semver V) (loaded : Loaded) (earlier : List (BuildRule × String))
    (rule : BuildRule) (depStr : String) (accepted : Accepted semver depStr) :
    Rejected assertions semver rule depStr (lookups assertions semver earlier loaded) ↔
      ∃ package, Checked assertions semver loaded depStr package ∧ ¬LookedUp semver earlier package := by
  have grown : Grown loaded (LookedUp semver earlier) (lookups assertions semver earlier loaded) :=
    (lookups_grown earlier (grown_start loaded)).congr fun package => by simp
  simp only [← grown.checked_iff]
  cases found : answer semver (lookups assertions semver earlier loaded) rule.base.packageName depStr with
  | some q =>
    refine iff_of_false (not_rejected_answered found) ?_
    rintro ⟨package,checked⟩
    rw [checked_unanswered checked] at found
    contradiction
  | none =>
    rcases lookup_ends accepted found with ⟨package,message,checked,failed⟩ | ⟨unchecked,read⟩
    · exact iff_of_true (rejected_of_error failed (by simp)) ⟨package,checked⟩
    · exact iff_of_false (not_rejected_undefined read) unchecked

/-- The package of the first dependency is not loaded; the second is looked up in a package
that exists at the root. -/
def client : Loaded := libraries [("app",[("main",["//gone:x","lib:y",":z","//lib:z"])]),("lib",[("y",[])])]

theorem rejected_gone : ∃ rule ∈ client.declared "app", ∀ assertions,
    Rejected assertions digitVersions rule "//gone:x" (lookups assertions digitVersions [(rule,"//lib:y")] client) := by
  refine ⟨_,List.mem_cons_self,fun assertions => ?_⟩
  apply (rejected_iff assertions digitVersions client _ _ "//gone:x" ⟨_,rfl,by decide⟩).mpr
  refine ⟨"gone",⟨_,rfl,.inl rfl,rfl,rfl⟩,?_⟩
  rintro ⟨call,member,asks⟩
  obtain rfl := List.mem_singleton.mp member
  contradiction

/-- With and without assertions, an unknown name in a loaded package is read past the end of
its map, and so is one in a missing package that was looked up before; a relative dependency
on a missing package gets a rule of another one. -/
theorem missing_not_rejected : ∃ rule ∈ client.declared "app", ∀ assertions,
    (∀ depStr ∈ ["//lib:z",":z"], Accepted digitVersions depStr ∧ Unnamed digitVersions client "app" depStr ∧
      (∃ s', depStrToRule assertions digitVersions rule depStr client = .error .undefined s') ∧
      ¬Rejected assertions digitVersions rule depStr client) ∧
    (Accepted digitVersions "//gone:x" ∧ Unnamed digitVersions client "app" "//gone:x" ∧
      ¬Rejected assertions digitVersions rule "//gone:x"
        (lookups assertions digitVersions [(rule,"//gone:x")] client)) ∧
    Accepted digitVersions "lib:y" ∧ Unnamed digitVersions client "app" "lib:y" ∧
    (∃ q ∈ client.declared "lib",
      ((left (pushDependency assertions digitVersions rule "lib:y" ⟨client,{}⟩)).linked.dependencies = [q])) ∧
    ¬Rejected assertions digitVersions rule "lib:y" client := by
  have none_named : ∀ (id : BuildRuleId (Fin 10 × Fin 10 × Fin 10)) depStr place,
      parseIdString digitVersions depStr = .ok id → target "app" id = some place →
      (∀ rule ∈ client.declared place, rule.base.name ≠ id.ruleName) → Unnamed digitVersions client "app" depStr := by
    intro id depStr place parsed about missing other again place' about'
    obtain rfl := Except.ok.inj (parsed.symm.trans again)
    obtain rfl := Option.some.inj (about.symm.trans about')
    exact missing
  refine ⟨_,List.mem_cons_self,fun assertions => ⟨?_,⟨⟨_,rfl,by decide⟩,none_named _ _ _ rfl rfl (by decide),?_⟩,
    ⟨_,rfl,by decide⟩,none_named _ _ _ rfl rfl (by decide),?_,?_⟩⟩
  · intro depStr member
    cases member with
    | head =>
      refine ⟨⟨_,rfl,by decide⟩,none_named _ _ _ rfl rfl (by decide),⟨client,?_⟩,not_rejected_undefined ⟨client,?_⟩⟩
      all_goals cases assertions <;> rfl
    | tail _ member =>
      obtain rfl := List.mem_singleton.mp member
      refine ⟨⟨_,rfl,by decide⟩,none_named _ _ _ rfl rfl (by decide),⟨client,?_⟩,not_rejected_undefined ⟨client,?_⟩⟩
      all_goals cases assertions <;> rfl
  · exact not_rejected_undefined ⟨_,by cases assertions <;> rfl⟩
  · exact ⟨_,List.mem_cons_self,by cases assertions <;> rfl⟩
  · exact not_rejected_answered rfl

end JkBuild.MissingRules
