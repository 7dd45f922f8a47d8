import JkBuild.Loading
import JkBuild.Tasks

/-! How `PrepareDependencies` turns the dependencies of a rule into rules, in builds with and
without assertions. Every task writes to its own rule, but all look packages up in one
factory, and a lookup makes a package that is missing. -/
namespace JkBuild.Resolution

open Dependent Packages Tasks

/-- The factory: for each package the rules that are declared in it. -/
structure Loaded where
  packages : List (String × List BuildRule)
  named : ∀ entry ∈ packages, ∀ rule ∈ entry.2, rule.base.packageName = entry.1

def Loaded.declared (loaded : Loaded) (package : String) : List BuildRule :=
  (loaded.packages.lookup package).getD []

/-- A package that a lookup makes has no rules. -/
def Loaded.make (loaded : Loaded) (package : String) : Loaded where
  packages := loaded.packages ++ [(package,[])]
  named := List.forall_mem_append.mpr ⟨loaded.named,by simp⟩

/-- Of declarations with one name the map holds the first. -/
def rulesMap (declared : List BuildRule) : List BuildRule := declared.foldl emplace []

/-- `RulesMap.find`, dereferenced without a look at the end of the map. -/
def find (rules : List BuildRule) (name : String) : Except Failure BuildRule :=
  match rules.find? (·.base.name = name) with
  | some rule => .ok rule
  | none => .error .undefined

/-- The rules of a package, and whether it is new. -/
def packageUnsafe (package : String) : EStateM Failure Loaded (List BuildRule × Bool) := fun loaded =>
  match loaded.packages.lookup package with
  | some declared => .ok (rulesMap declared,false) loaded
  | none => .ok ([],true) (loaded.make package)

def depStrToRule (assertions : Bool) (semver : Semver V) (rule : BuildRule) (depStr : String) :
    EStateM Failure Loaded BuildRule := do
  let dep ← attempt (parseIdString semver depStr)
  match dep.position,dep.packageName with
  | .absolute,some package => do
    let (rules,new) ← packageUnsafe package
    if new then throw (.terminate package) else attempt (find rules dep.ruleName)
  | .builtin,_ => if assertions then throw (.terminate "false") else throw (.jkBuildError "not supported")
  | .relative,some package => do
    -- The name below the package of the rule is computed here and never used.
    let (rules,new) ← packageUnsafe package
    if assertions && new then throw (.terminate "pkg.second == false") else attempt (find rules dep.ruleName)
  | .this,_ => do
    let loaded ← get
    attempt (find (rulesMap (loaded.declared rule.base.packageName)) dep.ruleName)
  | _,none => throw .undefined

/-- What the task of a rule fills in. -/
structure Linked where
  dependencies : List BuildRule := []
  inBinary : List (BuildRule × List BuildRule) := []

structure Linking where
  factory : Loaded
  linked : Linked := {}

section Tasks

variable (assertions : Bool) (semver : Semver V) (rule : BuildRule)

def lookUp (depStr : String) : EStateM Failure Linking BuildRule :=
  zoom (·.factory) (fun factory s => { s with factory }) (depStrToRule assertions semver rule depStr)

def pushDependency (depStr : String) : EStateM Failure Linking Unit := do
  let dep ← lookUp assertions semver rule depStr
  modify fun s => { s with linked := { s.linked with dependencies := s.linked.dependencies ++ [dep] } }

/-- The values of a binary's table are not looked at: its key is resolved for each. -/
def pushInBinary (entry : String × List String) : EStateM Failure Linking Unit := do
  let dep ← lookUp assertions semver rule entry.1
  let dependencies ← entry.2.mapM fun _ => lookUp assertions semver rule entry.1
  modify fun s => { s with linked := { s.linked with inBinary := s.linked.inBinary ++ [(dep,dependencies)] } }

def makeDepStrToRule (raw : List (String × List String)) : EStateM Failure Linking Unit := do
  rule.base.dependencies.forM (pushDependency assertions semver rule)
  if rule.base.typeName = "cc_binary" then raw.forM (pushInBinary assertions semver rule) else pure ()

end Tasks

/-- The package a dependency written in the given package is about. -/
def target (package : String) (id : BuildRuleId V) : Option String :=
  match id.position with
  | .absolute => id.packageName
  | .relative => id.packageName.map fun inner => package ++ "/" ++ inner
  | .this => some package
  | .builtin => none

/-- The package in which the rule is looked for. -/
def searched (package : String) (id : BuildRuleId V) : Option String :=
  if id.position = .this then some package
  else if id.position = .builtin then none
  else id.packageName

/-- A dependency string denotes a declared rule: one of that name in the package it is
about, of the version it asks for. -/
def Denotes (semver : Semver V) (loaded : Loaded) (package depStr : String) (rule : BuildRule) : Prop :=
  ∃ id, parseIdString semver depStr = .ok id ∧ ∃ place, target package id = some place ∧
    rule ∈ loaded.declared place ∧ rule.base.name = id.ruleName ∧
    ∀ version, id.versionReq = some version → semver.parse rule.base.version = .ok version

def Relative (semver : Semver V) (depStr : String) : Prop :=
  ∃ id, parseIdString semver depStr = .ok id ∧ id.position = .relative

/-- A lookup that is checked to find its package, and makes it: the absolute form is, and with
assertions the relative one. -/
def Checked (assertions : Bool) (semver : Semver V) (loaded : Loaded) (depStr package : String) : Prop :=
  ∃ id, parseIdString semver depStr = .ok id ∧
    (id.position = .absolute ∨ id.position = .relative ∧ assertions = true) ∧
    id.packageName = some package ∧ loaded.packages.lookup package = none

/-- Some rule of the name is declared where the dependency is looked for. -/
def Answered (semver : Semver V) (loaded : Loaded) (package depStr : String) : Prop :=
  ∃ id, parseIdString semver depStr = .ok id ∧ ∃ place, searched package id = some place ∧
    ∃ rule ∈ loaded.declared place, rule.base.name = id.ruleName

/-- No rule of the same name is declared before this one in its package. -/
def FirstOfName (loaded : Loaded) (rule : BuildRule) : Prop :=
  (loaded.declared rule.base.packageName).find? (·.base.name = rule.base.name) = some rule

section Lookup

variable {semver : Semver V} {loaded : Loaded} {rule q : BuildRule} {assertions : Bool}
  {depStr package place : String} {id : BuildRuleId V}

theorem find_emplace (rules declared : List BuildRule) (name : String) :
    (declared.foldl emplace rules).find? (·.base.name = name) = (rules ++ declared).find? (·.base.name = name) := by
  induction declared generalizing rules with
  | nil => rw [List.append_nil]; rfl
  | cons rule declared ih =>
    rw [List.foldl_cons,ih,emplace]
    split
    · next taken =>
      obtain ⟨old,member,same⟩ := List.any_eq_true.mp taken
      simp only [List.find?_append,List.find?_cons]
      cases found : rules.find? (·.base.name = name) with
      | some first => rfl
      | none =>
        -- a rule that is dropped cannot be the one looked for: an older one has its name
        have other := List.find?_eq_none.mp found old member
        have apart : ¬rule.base.name = name := by
          intro named
          simp only [decide_eq_true_eq] at same other
          exact other (same.trans named)
        simp [apart]
    · rw [List.append_assoc]
      rfl

theorem find_rulesMap (declared : List BuildRule) (name : String) :
    (rulesMap declared).find? (·.base.name = name) = declared.find? (·.base.name = name) :=
  find_emplace [] declared name

/-- The rule a dependency comes to: the first of its name in the package searched. -/
def answer (semver : Semver V) (loaded : Loaded) (package depStr : String) : Option BuildRule :=
  match parseIdString semver depStr with
  | .ok id => (searched package id).bind fun place => (loaded.declared place).find? (·.base.name = id.ruleName)
  | .error _ => none

theorem answer_of (parsed : parseIdString semver depStr = .ok id) (about : searched package id = some place) :
    answer semver loaded package depStr = (loaded.declared place).find? (·.base.name = id.ruleName) := by
  simp [answer,parsed,about]

theorem answered_iff :
    Answered semver loaded package depStr ↔ ∃ q, answer semver loaded package depStr = some q := by
  constructor
  · rintro ⟨id,parsed,place,inPlace,other,member,named⟩
    have found : ((loaded.declared place).find? (·.base.name = id.ruleName)).isSome = true :=
      List.find?_isSome.mpr ⟨other,member,by simpa using named⟩
    rw [answer_of parsed inPlace]
    exact Option.isSome_iff_exists.mp found
  · rintro ⟨q,found⟩
    unfold answer at found
    split at found
    · next id parsed =>
      obtain ⟨place,inPlace,found⟩ := Option.bind_eq_some_iff.mp found
      exact ⟨id,parsed,place,inPlace,q,List.mem_of_find?_eq_some found,by simpa using List.find?_some found⟩
    · contradiction

theorem find_spec (declared : List BuildRule) (name : String) (s : Loaded) :
    (attempt (find (rulesMap declared) name) : EStateM Failure Loaded BuildRule) s =
      match declared.find? (·.base.name = name) with
      | some q => .ok q s
      | none => .error .undefined s := by
  rw [find,find_rulesMap]
  cases declared.find? (·.base.name = name) <;> rfl

theorem packageUnsafe_there (there : loaded.packages.lookup package = some declared) :
    packageUnsafe package loaded = .ok (rulesMap (loaded.declared package),false) loaded := by
  simp [packageUnsafe,Loaded.declared,there]

theorem packageUnsafe_missing (missing : loaded.packages.lookup package = none) :
    packageUnsafe package loaded = .ok ([],true) (loaded.make package) := by
  simp [packageUnsafe,missing]

/-- The factory once a package was looked up. -/
def Loaded.with (loaded : Loaded) (package : String) : Loaded :=
  if (loaded.packages.lookup package).isSome then loaded else loaded.make package

theorem declared_missing (missing : loaded.packages.lookup package = none) : loaded.declared package = [] := by
  rw [Loaded.declared,missing]
  rfl

theorem unparsed (failed : parseIdString semver depStr = .error e) :
    depStrToRule assertions semver rule depStr loaded = .error e loaded := by
  rw [depStrToRule,failed]
  rfl

section Forms

variable (parsed : parseIdString semver depStr = .ok id)
include parsed

theorem absolute_there (form : id.position = .absolute) (named : id.packageName = some package)
    (there : loaded.packages.lookup package = some declared) :
    depStrToRule assertions semver rule depStr loaded =
      (attempt (find (rulesMap (loaded.declared package)) id.ruleName) : EStateM Failure Loaded BuildRule) loaded := by
  rw [depStrToRule,bind_of_ok (attempt_ok parsed loaded)]
  simp only [form,named]
  rw [bind_of_ok (packageUnsafe_there there)]
  rfl

theorem absolute_missing (form : id.position = .absolute) (named : id.packageName = some package)
    (missing : loaded.packages.lookup package = none) :
    depStrToRule assertions semver rule depStr loaded = .error (.terminate package) (loaded.make package) := by
  rw [depStrToRule,bind_of_ok (attempt_ok parsed loaded)]
  simp only [form,named]
  rw [bind_of_ok (packageUnsafe_missing missing)]
  rfl

theorem relative_there (form : id.position = .relative) (named : id.packageName = some package)
    (there : loaded.packages.lookup package = some declared) :
    depStrToRule assertions semver rule depStr loaded =
      (attempt (find (rulesMap (loaded.declared package)) id.ruleName) : EStateM Failure Loaded BuildRule) loaded := by
  rw [depStrToRule,bind_of_ok (attempt_ok parsed loaded)]
  simp only [form,named]
  rw [bind_of_ok (packageUnsafe_there there)]
  simp

theorem relative_missing (form : id.position = .relative) (named : id.packageName = some package)
    (missing : loaded.packages.lookup package = none) :
    depStrToRule assertions semver rule depStr loaded =
      .error (if assertions then .terminate "pkg.second == false" else .undefined) (loaded.make package) := by
  rw [depStrToRule,bind_of_ok (attempt_ok parsed loaded)]
  simp only [form,named]
  rw [bind_of_ok (packageUnsafe_missing missing)]
  cases assertions <;> rfl

theorem this_found (form : id.position = .this) : depStrToRule assertions semver rule depStr loaded =
    (attempt (find (rulesMap (loaded.declared rule.base.packageName)) id.ruleName) : EStateM Failure Loaded BuildRule) loaded := by
  rw [depStrToRule,bind_of_ok (attempt_ok parsed loaded)]
  simp only [form]
  rfl

theorem package_read (form : id.position = .absolute ∨ id.position = .relative) (unnamed : id.packageName = none) :
    depStrToRule assertions semver rule depStr loaded = .error .undefined loaded := by
  rw [depStrToRule,bind_of_ok (attempt_ok parsed loaded)]
  rcases form with form | form <;> simp only [form,unnamed] <;> rfl

theorem builtin_refused (form : id.position = .builtin) : ∃ e, e ≠ .undefined ∧
    depStrToRule assertions semver rule depStr loaded = .error e loaded := by
  rw [depStrToRule,bind_of_ok (attempt_ok parsed loaded)]
  simp only [form]
  cases assertions
  · exact ⟨_,by simp,rfl⟩
  · exact ⟨_,by simp,rfl⟩

theorem checked_of (form : id.position = .absolute ∨ id.position = .relative ∧ assertions = true)
    (named : id.packageName = some package) (missing : loaded.packages.lookup package = none) :
    Checked assertions semver loaded depStr package :=
  ⟨id,parsed,form,named,missing⟩

theorem not_checked (apart : ∀ package, (id.position = .absolute ∨ id.position = .relative ∧ assertions = true) →
    id.packageName = some package → loaded.packages.lookup package ≠ none) :
    ¬∃ package, Checked assertions semver loaded depStr package := by
  rintro ⟨package,other,again,form,named,missing⟩
  obtain rfl := Except.ok.inj (parsed.symm.trans again)
  exact apart package form named missing

theorem not_checked_there (named : id.packageName = some package)
    (there : loaded.packages.lookup package = some declared) :
    ¬∃ package, Checked assertions semver loaded depStr package := by
  apply not_checked parsed
  intro other _ same missing
  obtain rfl := Option.some.inj (named.symm.trans same)
  rw [there] at missing
  contradiction

/-- What a lookup can do: look into a map, stop at a missing package where that is checked,
read past the end of what it has, or refuse a built-in name. -/
theorem depStrToRule_cases :
    (∃ place, searched rule.base.packageName id = some place ∧
      (¬∃ package, Checked assertions semver loaded depStr package) ∧
      depStrToRule assertions semver rule depStr loaded =
        (attempt (find (rulesMap (loaded.declared place)) id.ruleName) : EStateM Failure Loaded BuildRule) loaded) ∨
    (answer semver loaded rule.base.packageName depStr = none ∧
      ∃ package message, Checked assertions semver loaded depStr package ∧
        depStrToRule assertions semver rule depStr loaded = .error (.terminate message) (loaded.make package)) ∨
    (answer semver loaded rule.base.packageName depStr = none ∧
      (¬∃ package, Checked assertions semver loaded depStr package) ∧
      ∃ s', depStrToRule assertions semver rule depStr loaded = .error .undefined s') ∨
    (id.position = .builtin ∧ answer semver loaded rule.base.packageName depStr = none ∧
      ∃ e s', depStrToRule assertions semver rule depStr loaded = .error e s') := by
  cases form : id.position with
  | absolute =>
    cases named : id.packageName with
    | none =>
      refine .inr (.inr (.inl ⟨?_,?_,loaded,package_read parsed (.inl form) named⟩))
      · simp [answer,parsed,searched,form,named]
      · exact not_checked parsed (by simp [named])
    | some package =>
      have about : searched rule.base.packageName id = some package := by simp [searched,form,named]
      cases present : loaded.packages.lookup package with
      | none =>
        refine .inr (.inl ⟨?_,package,package,checked_of parsed (.inl form) named present,
          absolute_missing parsed form named present⟩)
        rw [answer_of parsed about,declared_missing present,List.find?_nil]
      | some declared =>
        exact .inl ⟨package,about,not_checked_there parsed named present,absolute_there parsed form named present⟩
  | relative =>
    cases named : id.packageName with
    | none =>
      refine .inr (.inr (.inl ⟨?_,?_,loaded,package_read parsed (.inr form) named⟩))
      · simp [answer,parsed,searched,form,named]
      · exact not_checked parsed (by simp [named])
    | some package =>
      have about : searched rule.base.packageName id = some package := by simp [searched,form,named]
      cases present : loaded.packages.lookup package with
      | none =>
        have empty : answer semver loaded rule.base.packageName depStr = none := by
          rw [answer_of parsed about,declared_missing present,List.find?_nil]
        cases assertions with
        | true => exact .inr (.inl ⟨empty,package,_,checked_of parsed (.inr ⟨form,rfl⟩) named present,
            relative_missing parsed form named present⟩)
        | false => exact .inr (.inr (.inl ⟨empty,not_checked parsed (by simp [form]),_,
            relative_missing parsed form named present⟩))
      | some declared =>
        exact .inl ⟨package,about,not_checked_there parsed named present,relative_there parsed form named present⟩
  | this =>
    refine .inl ⟨rule.base.packageName,by simp [searched,form],?_,this_found parsed form⟩
    exact not_checked parsed (by simp [form])
  | builtin =>
    obtain ⟨e,-,refused⟩ := builtin_refused parsed form
    exact .inr (.inr (.inr ⟨rfl,by simp [answer,parsed,searched,form],e,loaded,refused⟩))

end Forms

theorem lookup_answered (found : answer semver loaded rule.base.packageName depStr = some q) :
    depStrToRule assertions semver rule depStr loaded = .ok q loaded := by
  cases parsed : parseIdString semver depStr with
  | error e => simp [answer,parsed] at found
  | ok id =>
    rcases depStrToRule_cases parsed with
      ⟨place,about,-,looked⟩ | ⟨none,-⟩ | ⟨none,-⟩ | ⟨-,none,-⟩
    · rw [answer_of parsed about] at found
      rw [looked,find_spec,found]
    all_goals
      rw [none] at found
      contradiction

theorem lookup_unanswered (none : answer semver loaded rule.base.packageName depStr = none) :
    ∃ e s', depStrToRule assertions semver rule depStr loaded = .error e s' := by
  cases parsed : parseIdString semver depStr with
  | error e => exact ⟨e,loaded,unparsed parsed⟩
  | ok id =>
    rcases depStrToRule_cases parsed with
      ⟨place,about,-,looked⟩ | ⟨-,_,_,-,failed⟩ | ⟨-,-,_,failed⟩ | ⟨-,-,_,_,failed⟩
    · rw [answer_of parsed about] at none
      exact ⟨_,_,by rw [looked,find_spec,none]⟩
    all_goals exact ⟨_,_,failed⟩

/-- A dependency that was parsed when its package was loaded throws no exception: it ends the
process where its package is checked and missing, and else reads past the end of a map. -/
theorem lookup_ends (accepted : Accepted semver depStr) (none : answer semver loaded rule.base.packageName depStr = none) :
    (∃ package message, Checked assertions semver loaded depStr package ∧
      depStrToRule assertions semver rule depStr loaded = .error (.terminate message) (loaded.make package)) ∨
    ((¬∃ package, Checked assertions semver loaded depStr package) ∧
      ∃ s', depStrToRule assertions semver rule depStr loaded = .error .undefined s') := by
  obtain ⟨id,parsed,notBuiltin⟩ := accepted
  rcases depStrToRule_cases parsed with
    ⟨place,about,unchecked,looked⟩ | ⟨-,stopped⟩ | ⟨-,read⟩ | ⟨builtin,-⟩
  · rw [answer_of parsed about] at none
    exact .inr ⟨unchecked,_,by rw [looked,find_spec,none]⟩
  · exact .inl stopped
  · exact .inr read
  · exact absurd builtin notBuiltin

end Lookup

/-- The package a lookup asks the factory for. -/
def asked (semver : Semver V) (depStr : String) : Option String :=
  match parseIdString semver depStr with
  | .ok id => if id.position = .absolute ∨ id.position = .relative then id.packageName else none
  | .error _ => none

/-- A factory in which lookups have made some packages. -/
structure Grown (start : Loaded) (made : String → Prop) (loaded : Loaded) : Prop where
  declared : ∀ package, loaded.declared package = start.declared package
  missing : ∀ package, loaded.packages.lookup package = none ↔ start.packages.lookup package = none ∧ ¬made package

section Growth

variable {semver : Semver V} {start loaded : Loaded} {made : String → Prop} {rule q : BuildRule} {assertions : Bool}
  {depStr package : String}

theorem grown_start (start : Loaded) : Grown start (fun _ => False) start := ⟨fun _ => rfl,fun _ => by simp⟩

theorem lookup_make (loaded : Loaded) (package other : String) : (loaded.make package).packages.lookup other =
    (loaded.packages.lookup other).or (if other = package then some [] else none) := by
  rw [Loaded.make,List.lookup_append]
  by_cases same : other = package
  · simp [same]
  · simp [same,List.lookup_cons,beq_false_of_ne same]

theorem Grown.with (h : Grown start made loaded) (package : String) :
    Grown start (fun other => made other ∨ other = package) (loaded.with package) := by
  unfold Loaded.with
  split
  · next there =>
    refine ⟨h.declared,fun other => (h.missing other).trans ?_⟩
    constructor
    · rintro ⟨missing,unmade⟩
      refine ⟨missing,fun made => made.elim unmade ?_⟩
      rintro rfl
      rw [(h.missing other).mpr ⟨missing,unmade⟩] at there
      contradiction
    · exact fun ⟨missing,unmade⟩ => ⟨missing,fun made => unmade (.inl made)⟩
  · next absent =>
    have missing : loaded.packages.lookup package = none := Option.not_isSome_iff_eq_none.mp absent
    refine ⟨fun other => ?_,fun other => ?_⟩
    · rw [← h.declared other,Loaded.declared,lookup_make,Loaded.declared]
      by_cases same : other = package
      · rw [same,missing]
        simp
      · simp [same]
    · rw [lookup_make,Option.or_eq_none_iff,h.missing other,not_or,and_assoc]
      simp

theorem Grown.congr (h : Grown start made loaded) (same : ∀ package, made package ↔ made' package) :
    Grown start made' loaded :=
  ⟨h.declared,fun package => by rw [h.missing,same]⟩

theorem answer_congr (same : ∀ package, loaded.declared package = start.declared package) (package depStr : String) :
    answer semver loaded package depStr = answer semver start package depStr := by
  simp only [answer,same]

theorem asked_named {id : BuildRuleId V} (parsed : parseIdString semver depStr = .ok id)
    (form : id.position = .absolute ∨ id.position = .relative) : asked semver depStr = id.packageName := by
  rw [asked,parsed]
  exact if_pos form

theorem asked_none {id : BuildRuleId V} (parsed : parseIdString semver depStr = .ok id)
    (form : ¬(id.position = .absolute ∨ id.position = .relative)) : asked semver depStr = none := by
  rw [asked,parsed]
  exact if_neg form

theorem with_there (there : loaded.packages.lookup package = some declared) : loaded.with package = loaded := by
  simp only [Loaded.with,there,Option.isSome_some,if_true]

theorem with_missing (missing : loaded.packages.lookup package = none) : loaded.with package = loaded.make package := by
  simp [Loaded.with,missing]

theorem left_find (rules : List BuildRule) (name : String) (s : Loaded) :
    left ((attempt (find rules name) : EStateM Failure Loaded BuildRule) s) = s := by
  cases find rules name <;> rfl

theorem lookup_left : left (depStrToRule assertions semver rule depStr loaded) =
    (asked semver depStr).elim loaded loaded.with := by
  cases parsed : parseIdString semver depStr with
  | error e =>
    rw [unparsed parsed,asked,parsed]
    rfl
  | ok id =>
    cases form : id.position with
    | absolute =>
      rw [asked_named parsed (.inl form)]
      cases named : id.packageName with
      | none => rw [package_read parsed (.inl form) named]; rfl
      | some package =>
        rw [Option.elim_some]
        cases present : loaded.packages.lookup package with
        | none => rw [absolute_missing parsed form named present,with_missing present]; rfl
        | some declared => rw [absolute_there parsed form named present,left_find,with_there present]
    | relative =>
      rw [asked_named parsed (.inr form)]
      cases named : id.packageName with
      | none => rw [package_read parsed (.inr form) named]; rfl
      | some package =>
        rw [Option.elim_some]
        cases present : loaded.packages.lookup package with
        | none => rw [relative_missing parsed form named present,with_missing present]; rfl
        | some declared => rw [relative_there parsed form named present,left_find,with_there present]
    | this =>
      rw [this_found parsed form,left_find,asked_none parsed (by simp [form])]
      rfl
    | builtin =>
      obtain ⟨e,-,refused⟩ := builtin_refused parsed form
      rw [refused,asked_none parsed (by simp [form])]
      rfl

/-- A lookup makes the package it asks for, and nothing else changes. -/
theorem Grown.lookup (h : Grown start made loaded) :
    Grown start (fun package => made package ∨ asked semver depStr = some package)
      (left (depStrToRule assertions semver rule depStr loaded)) := by
  rw [lookup_left]
  cases asks : asked semver depStr with
  | none => exact h.congr (by simp)
  | some package => exact (h.with package).congr (by simp [eq_comm])

theorem Checked.asked (h : Checked assertions semver loaded depStr package) : asked semver depStr = some package := by
  obtain ⟨id,parsed,form,named,-⟩ := h
  rw [Resolution.asked,parsed]
  rcases form with form | ⟨form,-⟩ <;> simp [form,named]

theorem Grown.checked_iff (h : Grown start made loaded) :
    Checked assertions semver loaded depStr package ↔ Checked assertions semver start depStr package ∧ ¬made package := by
  constructor
  · rintro ⟨id,parsed,form,named,missing⟩
    obtain ⟨missing,unmade⟩ := (h.missing package).mp missing
    exact ⟨⟨id,parsed,form,named,missing⟩,unmade⟩
  · rintro ⟨⟨id,parsed,form,named,missing⟩,unmade⟩
    exact ⟨id,parsed,form,named,(h.missing package).mpr ⟨missing,unmade⟩⟩

end Growth

/-- What is pushed for a list of dependencies: their answers, up to the first without one. -/
def answers (semver : Semver V) (loaded : Loaded) (package : String) : List String → List BuildRule
  | [] => []
  | depStr :: rest =>
    match answer semver loaded package depStr with
    | some dep => dep :: answers semver loaded package rest
    | none => []

/-- The dependency at which the resolver of a rule stops. -/
def firstUnanswered (semver : Semver V) (loaded : Loaded) (package : String) (deps : List String) : Option String :=
  deps.find? fun depStr => (answer semver loaded package depStr).isNone

section Pushing

variable {semver : Semver V} {loaded : Loaded} {rule q : BuildRule} {assertions : Bool} {depStr : String}

theorem firstUnanswered_none {package : String} {deps : List String} :
    firstUnanswered semver loaded package deps = none ↔ ∀ depStr ∈ deps, Answered semver loaded package depStr := by
  simp only [firstUnanswered,List.find?_eq_none,answered_iff,Option.isNone_iff_eq_none,Option.ne_none_iff_exists']

theorem answers_congr {start : Loaded} (same : ∀ package, loaded.declared package = start.declared package)
    {package : String} {deps : List String} :
    answers semver loaded package deps = answers semver start package deps := by
  induction deps with
  | nil => rfl
  | cons dep deps ih => rw [answers,answers,ih,answer_congr same]

theorem firstUnanswered_congr {start : Loaded} (same : ∀ package, loaded.declared package = start.declared package)
    {package : String} {deps : List String} :
    firstUnanswered semver loaded package deps = firstUnanswered semver start package deps := by
  simp only [firstUnanswered,answer_congr same]

theorem push_answered (found : answer semver loaded rule.base.packageName depStr = some q) (linked : Linked) :
    pushDependency assertions semver rule depStr ⟨loaded,linked⟩ =
      .ok () ⟨loaded,{ linked with dependencies := linked.dependencies ++ [q] }⟩ := by
  have looked : lookUp assertions semver rule depStr ⟨loaded,linked⟩ = .ok q ⟨loaded,linked⟩ := by
    rw [lookUp,zoom,lookup_answered found]
  rw [pushDependency,bind_of_ok looked]
  rfl

theorem push_failed (failed : depStrToRule assertions semver rule depStr loaded = .error e s') (linked : Linked) :
    pushDependency assertions semver rule depStr ⟨loaded,linked⟩ = .error e ⟨s',linked⟩ := by
  have looked : lookUp assertions semver rule depStr ⟨loaded,linked⟩ = .error e ⟨s',linked⟩ := by
    rw [lookUp,zoom,failed]
  rw [pushDependency,bind_of_error looked]

theorem pushAll_answered (deps : List String) (linked : Linked)
    (all : firstUnanswered semver loaded rule.base.packageName deps = none) :
    deps.forM (pushDependency assertions semver rule) ⟨loaded,linked⟩ =
      .ok () ⟨loaded,{ linked with dependencies := linked.dependencies ++ answers semver loaded rule.base.packageName deps }⟩ := by
  induction deps generalizing linked with
  | nil => simp [answers,pure,EStateM.pure]
  | cons dep deps ih =>
    obtain ⟨answered,all⟩ := List.forall_mem_cons.mp (firstUnanswered_none.mp all)
    obtain ⟨q,found⟩ := answered_iff.mp answered
    show (pushDependency assertions semver rule dep >>= fun _ => deps.forM (pushDependency assertions semver rule)) _ = _
    rw [bind_of_ok (push_answered found linked),ih _ (firstUnanswered_none.mpr all),answers,found]
    simp

theorem pushAll_failed (deps : List String) (linked : Linked)
    (first : firstUnanswered semver loaded rule.base.packageName deps = some depStr)
    (failed : depStrToRule assertions semver rule depStr loaded = .error e s') :
    deps.forM (pushDependency assertions semver rule) ⟨loaded,linked⟩ =
      .error e ⟨s',{ linked with dependencies := linked.dependencies ++ answers semver loaded rule.base.packageName deps }⟩ := by
  induction deps generalizing linked with
  | nil => contradiction
  | cons dep deps ih =>
    show (pushDependency assertions semver rule dep >>= fun _ => deps.forM (pushDependency assertions semver rule)) _ = _
    rw [firstUnanswered,List.find?_cons] at first
    cases found : answer semver loaded rule.base.packageName dep with
    | none =>
      simp only [found,Option.isNone_none,Option.some.injEq] at first
      rw [← first] at failed
      rw [bind_of_error (push_failed failed linked),answers,found]
      simp
    | some q =>
      simp only [found,Option.isNone_some] at first
      rw [bind_of_ok (push_answered found linked),ih _ first,answers,found]
      simp

/-- Before a binary is prepared its table is empty, and the dependencies decide alone. -/
theorem makeDepStrToRule_answered (linked : Linked)
    (all : firstUnanswered semver loaded rule.base.packageName rule.base.dependencies = none) :
    makeDepStrToRule assertions semver rule [] ⟨loaded,linked⟩ = .ok () ⟨loaded,{ linked with
      dependencies := linked.dependencies ++ answers semver loaded rule.base.packageName rule.base.dependencies }⟩ := by
  rw [makeDepStrToRule,bind_of_ok (pushAll_answered _ _ all)]
  split <;> rfl

theorem makeDepStrToRule_failed (raw : List (String × List String)) (linked : Linked)
    (first : firstUnanswered semver loaded rule.base.packageName rule.base.dependencies = some depStr)
    (failed : depStrToRule assertions semver rule depStr loaded = .error e s') :
    makeDepStrToRule assertions semver rule raw ⟨loaded,linked⟩ = .error e ⟨s',{ linked with
      dependencies := linked.dependencies ++ answers semver loaded rule.base.packageName rule.base.dependencies }⟩ := by
  rw [makeDepStrToRule,bind_of_error (pushAll_failed _ _ first failed)]

theorem keeps_lookUp (dependencies : List BuildRule) (depStr : String) :
    Keeps (fun s : Linking => s.linked.dependencies = dependencies) (lookUp assertions semver rule depStr) :=
  keeps_zoom fun _ _ holds => holds

theorem keeps_pushInBinary (dependencies : List BuildRule) (entry : String × List String) :
    Keeps (fun s : Linking => s.linked.dependencies = dependencies) (pushInBinary assertions semver rule entry) := by
  refine (keeps_lookUp dependencies entry.1).bind fun dep => Keeps.bind ?_ fun _ => keeps_modify fun _ holds => holds
  exact keeps_mapM _ fun _ => keeps_lookUp dependencies entry.1

theorem makeDepStrToRule_dependencies (raw : List (String × List String)) :
    (left (makeDepStrToRule assertions semver rule raw ⟨loaded,{}⟩)).linked.dependencies =
      answers semver loaded rule.base.packageName rule.base.dependencies := by
  cases first : firstUnanswered semver loaded rule.base.packageName rule.base.dependencies with
  | some depStr =>
    have none : answer semver loaded rule.base.packageName depStr = none := by simpa using List.find?_some first
    obtain ⟨e,s',failed⟩ := lookup_unanswered none
    rw [makeDepStrToRule_failed raw _ first failed]
    exact List.nil_append _
  | none =>
    rw [makeDepStrToRule,bind_of_ok (pushAll_answered _ _ first)]
    apply (show Keeps (fun s : Linking => s.linked.dependencies = _) (ite _ _ _) from ?_) _ (List.nil_append _)
    split
    · exact keeps_forM raw fun entry => keeps_pushInBinary _ entry
    · exact keeps_pure _

theorem answers_get (package : String) (deps : List String) (i : Nat) :
    (answers semver loaded package deps)[i]? = some q ↔
      (∀ depStr ∈ deps.take i, Answered semver loaded package depStr) ∧
        ∃ depStr, deps[i]? = some depStr ∧ answer semver loaded package depStr = some q := by
  simp only [answered_iff]
  induction deps generalizing i with
  | nil => simp [answers]
  | cons dep deps ih =>
    rw [answers]
    cases found : answer semver loaded package dep with
    | none => cases i <;> simp [found]
    | some r =>
      cases i with
      | zero => simp [found]
      | succ i => simpa [found] using ih i

theorem Loaded.declared_named {package : String} (member : rule ∈ loaded.declared package) :
    rule.base.packageName = package := by
  unfold Loaded.declared at member
  cases found : loaded.packages.lookup package with
  | none => simp [found] at member
  | some rules =>
    rw [found] at member
    obtain ⟨before,after,split,-⟩ := List.lookup_eq_some_iff.mp found
    exact loaded.named (package,rules) (by simp [split]) rule member

theorem below_ne (package inner : String) : package ++ "/" ++ inner ≠ inner := by
  intro same
  have lengths := congrArg String.length same
  simp at lengths

/-- Where a dependency denotes a rule, that rule is its answer unless the dependency is
relative or an earlier declaration has its name. -/
theorem denoted_answered {package : String} (denotes : Denotes semver loaded package depStr q) :
    answer semver loaded package depStr = some q ↔ ¬Relative semver depStr ∧ FirstOfName loaded q := by
  obtain ⟨id,parsed,place,about,member,named,-⟩ := denotes
  have inPlace := loaded.declared_named member
  rw [FirstOfName,inPlace,named]
  have direct : id.position ≠ .relative → searched package id = target package id := by
    intro apart
    cases position : id.position <;> simp [searched,target,position] at apart ⊢
  constructor
  · intro found
    by_cases position : id.position = .relative
    · -- its answer is declared at the root and not below the package
      obtain ⟨inner,here,rfl⟩ := Option.map_eq_some_iff.mp (by simpa only [target,position] using about)
      have root : searched package id = some inner := by simp [searched,position,here]
      rw [answer_of parsed root] at found
      have other := loaded.declared_named (List.mem_of_find?_eq_some found)
      exact absurd (inPlace.symm.trans other) (below_ne package inner)
    · rw [answer_of parsed ((direct position).trans about)] at found
      refine ⟨?_,found⟩
      rintro ⟨id',again,relative⟩
      obtain rfl := Except.ok.inj (parsed.symm.trans again)
      exact position relative
  · rintro ⟨apart,found⟩
    rwa [answer_of parsed ((direct fun relative => apart ⟨id,parsed,relative⟩).trans about)]

end Pushing

/-- The rule pushed for a dependency is the one it denotes exactly when the earlier ones
are answered, it is not relative, and its rule is the first declared under its name: the
version it asks for plays no part. -/
theorem dependencies_faithful_iff (assertions : Bool) (semver : Semver V) (loaded : Loaded) (rule q : BuildRule)
    (raw : List (String × List String)) (i : Nat) (depStr : String) (present : rule.base.dependencies[i]? = some depStr)
    (denotes : Denotes semver loaded rule.base.packageName depStr q) :
    (left (makeDepStrToRule assertions semver rule raw ⟨loaded,{}⟩)).linked.dependencies[i]? = some q ↔
      (∀ earlier ∈ rule.base.dependencies.take i, Answered semver loaded rule.base.packageName earlier) ∧
        ¬Relative semver depStr ∧ FirstOfName loaded q := by
  rw [makeDepStrToRule_dependencies,answers_get]
  simp only [present,Option.some.injEq,exists_eq_left',denoted_answered denotes]

/-- Packages of libraries, as their BUILD files declare them. -/
def libraries (packages : List (String × List (String × List String))) : Loaded where
  packages := packages.map fun (package,rules) =>
    (package,rules.zipIdx.flatMap fun ((name,deps),id) => (create id package (library name deps)).toOption.toList)
  named := by
    intro entry member rule inEntry
    obtain ⟨⟨package,rules⟩,-,rfl⟩ := List.mem_map.mp member
    obtain ⟨⟨⟨name,deps⟩,id⟩,-,created⟩ := List.mem_flatMap.mp inEntry
    cases made : create id package (library name deps) with
    | error e => simp [made,Except.toOption] at created
    | ok built =>
      simp only [made,Except.toOption,Option.toList_some,List.mem_singleton] at created
      rw [created]
      exact (create_stored made).package

def siblings : Loaded := libraries [("a",[("r",["b:x",":s","//b:x"]),("s",[])]),("a/b",[("x",[])]),("b",[("x",[])])]

theorem dependencies_faithful_absolute : ∃ rule q, rule ∈ siblings.declared "a" ∧ q ∈ siblings.declared "b" ∧
    ∀ assertions,
      (left (makeDepStrToRule assertions digitVersions rule [] ⟨siblings,{}⟩)).linked.dependencies[2]? = some q := by
  refine ⟨_,_,List.mem_cons_self,List.mem_cons_self,fun assertions => ?_⟩
  apply (dependencies_faithful_iff assertions digitVersions siblings _ _ [] 2 "//b:x" rfl
    ⟨_,rfl,_,rfl,List.mem_cons_self,rfl,by simp⟩).mpr
  refine ⟨?_,?_,rfl⟩
  · intro earlier member
    rw [answered_iff]
    cases member with
    | head => exact ⟨_,rfl⟩
    | tail _ member =>
      obtain rfl := List.mem_singleton.mp member
      exact ⟨_,rfl⟩
  · rintro ⟨id,parsed,position⟩
    obtain rfl := Except.ok.inj parsed
    contradiction

/-- A relative dependency is answered from the root of the project. -/
theorem dependencies_from_root : ∃ rule q other, rule ∈ siblings.declared "a" ∧
    Denotes digitVersions siblings "a" "b:x" q ∧ q.base.packageName = "a/b" ∧ other.base.packageName = "b" ∧
    ∀ assertions,
      (left (makeDepStrToRule assertions digitVersions rule [] ⟨siblings,{}⟩)).linked.dependencies[0]? = some other :=
  ⟨_,_,_,List.mem_cons_self,⟨_,rfl,_,rfl,List.mem_cons_self,rfl,by simp⟩,rfl,rfl,fun assertions => by cases assertions <;> rfl⟩

end JkBuild.Resolution
