import JkBuild.DependentGrammar
import JkBuild.Resolution

/-! Where a package is read out of an identifier. The loader and the resolver look at the
position alone, and what a command line names has to be absolute. -/
namespace JkBuild.PackagePresence

open Dependent hiding Rootless Denotes
open Packages Resolution Tasks

/-- Rules are named on a command line by identifiers, or by the paths of BUILD files. -/
inductive Style where
  | identifiers
  | files
  deriving DecidableEq, Repr

def Style.text : Style → String → String
  | identifiers, str => str
  | files, str => "//" ++ str ++ ":..."

/-- One round of the loop of `Generate` over its arguments. -/
def ruleId (semver : Semver V) (style : Style) (str : String) : Except Failure (BuildRuleId V) :=
  if style = .files ∧ ¬['B','U','I','L','D'] <:+ str.toList then
    .error (.jkBuildError "Only support rule file named 'BUILD'.")
  else do
    let id ← parseIdString semver (style.text str)
    if id.position = .absolute then return id
    else .error (.terminate "Only absolute rule is allowed in command-line.")

/-- `*id.PackageName`, in `generate_all` and then in `Generate`. -/
def packageOf (id : BuildRuleId V) : Except Failure String :=
  match id.packageName with
  | some package => .ok package
  | none => .error .undefined

/-- The packages and names a command line asks for. -/
def requested (semver : Semver V) (style : Style) (rulesName : List String) :
    Except Failure (List (String × String)) := do
  let ids ← rulesName.mapM (ruleId semver style)
  ids.mapM fun id => do
    let package ← packageOf id
    return (package,id.ruleName)

/-- The position of a string tells whether there is a package, so that no reader of it goes
wrong. The resolver may still miss a rule, in a package it knows. -/
structure Present (semver : Semver V) (s : String) : Prop where
  position : ∀ id, parseIdString semver s = .ok id →
    (id.position = .absolute ∨ id.position = .relative → id.packageName.isSome = true) ∧
      (id.position = .this → id.packageName = none)
  load : ∀ name, nextFile semver name s ≠ .error .undefined
  resolve : ∀ assertions loaded rule s', depStrToRule assertions semver rule s loaded = .error .undefined s' →
    ∃ id, parseIdString semver s = .ok id ∧ ∃ place, searched rule.base.packageName id = some place ∧
      find (rulesMap (loaded.declared place)) id.ruleName = .error .undefined
  request : ∀ style str, style.text str = s → ∀ id, ruleId semver style str = .ok id →
    ∃ package, packageOf id = .ok package

/-- The string starts with `//:` and a rule name, and a version after it can be read. -/
def Unpackaged (semver : Semver V) (s : String) : Prop :=
  ∃ name rest, s.toList = absoluteLead ++ ':' :: (name ++ rest) ∧ name ≠ [] ∧
    (∀ ch ∈ name, isRuleNameCh ch = true) ∧ NameStop rest ∧
    ∀ text, versionText rest = some text → ∃ version, semver.parse (String.ofList text) = .ok version

section Positions

variable {semver : Semver V} {s : String} {id : BuildRuleId V}

theorem parsed_head (parsed : parseIdString semver s = .ok id) : ∃ head rest versionReq,
    Splits s.toList head rest ∧ parseVersion semver (versionText rest) = .ok versionReq ∧
      id = head.toId versionReq := by
  by_cases splits : ∃ head rest, Splits s.toList head rest
  · obtain ⟨head,rest,splits⟩ := splits
    rw [parse_of_splits semver splits] at parsed
    cases version : parseVersion semver (versionText rest) with
    | error e =>
      rw [version] at parsed
      contradiction
    | ok versionReq =>
      rw [version] at parsed
      exact ⟨head,rest,versionReq,splits,version,(Except.ok.inj parsed).symm⟩
  · obtain ⟨message,failed⟩ := parse_without_head semver splits
    rw [failed] at parsed
    contradiction

theorem parseVersion_error {ver : Option (List Char)} (failed : parseVersion semver ver = .error e) :
    ∃ message, e = .jkBuildError message := by
  unfold parseVersion at failed
  split at failed
  · contradiction
  · split at failed
    · contradiction
    · exact ⟨_,(Except.error.inj failed).symm⟩

theorem parse_error (failed : parseIdString semver s = .error e) : ∃ message, e = .jkBuildError message := by
  by_cases splits : ∃ head rest, Splits s.toList head rest
  · obtain ⟨head,rest,splits⟩ := splits
    rw [parse_of_splits semver splits] at failed
    cases version : parseVersion semver (versionText rest) with
    | error e' =>
      rw [version] at failed
      obtain rfl := Except.error.inj failed
      exact parseVersion_error version
    | ok versionReq =>
      rw [version] at failed
      contradiction
  · obtain ⟨message,failed'⟩ := parse_without_head semver splits
    rw [failed'] at failed
    exact ⟨message,(Except.error.inj failed).symm⟩

theorem parseVersion_total {rest : List Char} : (∃ versionReq, parseVersion semver (versionText rest) = .ok versionReq) ↔
    ∀ text, versionText rest = some text → ∃ version, semver.parse (String.ofList text) = .ok version := by
  cases written : versionText rest with
  | none => simp [parseVersion]
  | some text =>
    cases parsed : semver.parse (String.ofList text) <;> simp [parseVersion,parsed]

theorem package_absent (h : Package text none) : text = [] := by
  cases h
  rfl

theorem rootless_iff : Rootless semver s ↔ Unpackaged semver s := by
  constructor
  · rintro ⟨id,parsed,position,package⟩
    obtain ⟨head,rest,versionReq,splits,version,rfl⟩ := parsed_head parsed
    have lead : head.lead = absoluteLead := by
      by_contra other
      simp only [Head.toId,Head.position,other,if_false] at position
      split at position
      · contradiction
      · split at position <;> contradiction
    have unpackaged : head.package = none := by simpa [Head.toId] using package
    have text : head.packageText = [] := package_absent (unpackaged ▸ splits.valid.package)
    refine ⟨head.name,rest,?_,splits.valid.nonempty,splits.valid.chars,splits.stop,?_⟩
    · rw [splits.same,Head.text,lead,text]
      simp
    · exact parseVersion_total.mp ⟨versionReq,version⟩
  · rintro ⟨name,rest,same,nonempty,chars,stop,readable⟩
    obtain ⟨versionReq,version⟩ := parseVersion_total.mpr readable
    have splits : Splits s.toList ⟨absoluteLead,[],none,name⟩ rest :=
      ⟨by simp [same,Head.text],⟨.inr (.inl rfl),.absent,nonempty,chars⟩,stop⟩
    refine ⟨Head.toId ⟨absoluteLead,[],none,name⟩ versionReq,?_,rfl,rfl⟩
    rw [parse_of_splits semver splits,version]
    rfl

/-- Below every other position the package follows from it. -/
theorem position_present (parsed : parseIdString semver s = .ok id) (rooted : ¬Rootless semver s) :
    (id.position = .absolute ∨ id.position = .relative → id.packageName.isSome = true) ∧
      (id.position = .this → id.packageName = none) := by
  obtain ⟨head,rest,versionReq,-,-,rfl⟩ := parsed_head parsed
  have absolute : head.position = .absolute → head.package.isSome = true := by
    intro position
    rw [Option.isSome_iff_ne_none]
    intro none
    exact rooted ⟨_,parsed,position,by simp [Head.toId,none]⟩
  have derived : (head.position = .relative → head.package.isSome = true) ∧
      (head.position = .this → head.package = none) := by
    unfold Head.position
    split
    · simp
    · split
      · simp
      · cases head.package <;> simp
  refine ⟨?_,fun this => by simp [Head.toId,derived.2 this]⟩
  rintro (position | position)
  · simpa [Head.toId] using absolute position
  · simpa [Head.toId] using derived.1 position

end Positions

section Readers

variable {semver : Semver V} {s : String}

theorem nextFile_undefined {name : String} (failed : nextFile semver name s = .error .undefined) :
    Rootless semver s := by
  cases parsed : parseIdString semver s with
  | error e =>
    obtain ⟨message,rfl⟩ := parse_error parsed
    simp [nextFile,parsed] at failed
  | ok id =>
    simp only [nextFile,parsed,ok_bind] at failed
    split at failed <;> try contradiction
    next position package => exact ⟨id,parsed,position,package⟩

theorem find_read {rules : List BuildRule} {loaded s' : Loaded}
    (failed : (attempt (find rules name) : EStateM Failure Loaded BuildRule) loaded = .error .undefined s') :
    find rules name = .error .undefined := by
  unfold attempt at failed
  split at failed
  · contradiction
  · next e thrown =>
    rw [thrown,(EStateM.Result.error.inj failed).1]

/-- Apart from a missing package only a missing rule is not looked for first. -/
theorem depStrToRule_undefined {assertions : Bool} {loaded s' : Loaded} {rule : BuildRule}
    (failed : depStrToRule assertions semver rule s loaded = .error .undefined s') (rooted : ¬Rootless semver s) :
    ∃ id, parseIdString semver s = .ok id ∧ ∃ place, searched rule.base.packageName id = some place ∧
      find (rulesMap (loaded.declared place)) id.ruleName = .error .undefined := by
  cases parsed : parseIdString semver s with
  | error e =>
    obtain ⟨message,rfl⟩ := parse_error parsed
    rw [unparsed parsed] at failed
    cases failed
  | ok id =>
    have present := position_present parsed rooted
    cases form : id.position with
    | absolute =>
      obtain ⟨package,named⟩ := Option.isSome_iff_exists.mp (present.1 (.inl form))
      cases there : loaded.packages.lookup package with
      | none =>
        rw [absolute_missing parsed form named there] at failed
        cases failed
      | some declared =>
        rw [absolute_there parsed form named there] at failed
        exact ⟨id,rfl,package,by simp [searched,form,named],find_read failed⟩
    | relative =>
      obtain ⟨package,named⟩ := Option.isSome_iff_exists.mp (present.1 (.inr form))
      refine ⟨id,rfl,package,by simp [searched,form,named],?_⟩
      cases there : loaded.packages.lookup package with
      | none => rw [declared_missing there]; rfl
      | some declared =>
        rw [relative_there parsed form named there] at failed
        exact find_read failed
    | this =>
      rw [this_found parsed form] at failed
      exact ⟨id,rfl,_,by simp [searched,form],find_read failed⟩
    | builtin =>
      obtain ⟨e,visible,refused⟩ := builtin_refused parsed form
      rw [refused] at failed
      exact absurd (EStateM.Result.error.inj failed).1 visible

theorem ruleId_parsed {style : Style} {str : String} {id : BuildRuleId V} (done : ruleId semver style str = .ok id) :
    parseIdString semver (style.text str) = .ok id ∧ id.position = .absolute := by
  unfold ruleId at done
  split at done
  · contradiction
  · obtain ⟨id',parsed,done⟩ := bind_ok done
    split at done
    · next position =>
      obtain rfl := Except.ok.inj done
      exact ⟨parsed,position⟩
    · contradiction

theorem packageOf_present {id : BuildRuleId V} (present : id.packageName.isSome = true) :
    ∃ package, packageOf id = .ok package := by
  obtain ⟨package,named⟩ := Option.isSome_iff_exists.mp present
  exact ⟨package,by simp [packageOf,named]⟩

end Readers

/-- The position decides about the package, and every reader finds the one it takes for
granted, exactly on strings that do not put the colon right after the root. -/
theorem present_iff (semver : Semver V) (s : String) : Present semver s ↔ ¬Unpackaged semver s := by
  rw [← rootless_iff]
  constructor
  · rintro present ⟨id,parsed,position,package⟩
    have named := (present.position id parsed).1 (.inl position)
    rw [package] at named
    contradiction
  · intro rooted
    refine ⟨fun id parsed => position_present parsed rooted,fun name failed => rooted (nextFile_undefined failed),
      fun assertions loaded rule s' failed => depStrToRule_undefined failed rooted,?_⟩
    rintro style str rfl id done
    obtain ⟨parsed,position⟩ := ruleId_parsed done
    exact packageOf_present ((position_present parsed rooted).1 (.inl position))

/-- The loader and the resolver read the package that `//:x` does not have, and so does the
command line, which calls it absolute. -/
theorem root_colon_unpackaged : parseIdString digitVersions "//:x" = .ok ⟨none,"x",.absolute,none⟩ ∧
    nextFile digitVersions "a" "//:x" = .error .undefined ∧
    requested digitVersions .identifiers ["//:x"] = .error .undefined ∧ ¬Present digitVersions "//:x" := by
  have parsed : parseIdString digitVersions "//:x" = .ok ⟨none,"x",.absolute,none⟩ := by rfl
  refine ⟨parsed,by rfl,by rfl,fun present => ?_⟩
  have named := (present.position _ parsed).1 (.inl rfl)
  contradiction

end JkBuild.PackagePresence
