import JkBuild.DependentGrammar

/-! Writing identifiers so that the parser reads them back: package characters that the
grammar does not allow as they are get a backslash in front. -/
namespace JkBuild.Dependent

open Combinators

/-- The text form of a version is read back, and is not empty. -/
structure Semver.RoundTrips (semver : Semver V) : Prop where
  parse_toString : ∀ v, semver.parse (semver.toString v) = .ok v
  toString_ne : ∀ v, semver.toString v ≠ ""

def escapeCh (ch : Char) : List Char := if isPackageCh ch then [ch] else ['\\',ch]

def writeComponent (component : List Char) : List Char := component.flatMap escapeCh

def joinPath : List (List Char) → List Char
  | [] => []
  | first :: rest => joinSegments first rest

def lastComponent (path : List Char) : List Char := (path.reverse.takeWhile (· ≠ '/')).reverse

def leadText : RuleRelativePosition → List Char
  | .absolute => absoluteLead
  | .builtin => builtinLead
  | .relative => []
  | .this => []

/-- An identifier to be written: components of the package path, any characters. -/
structure Written (V : Type) where
  position : RuleRelativePosition
  components : List (List Char)
  name : List Char
  version : Option V

structure Written.Valid (w : Written V) : Prop where
  package : w.position = .this ↔ w.components = []
  nonempty : ∀ component ∈ w.components, component ≠ []
  last : lastComponent (joinPath w.components) ≠ ['B','U','I','L','D']
  name : w.name ≠ []
  chars : ∀ ch ∈ w.name, isRuleNameCh ch = true

def writeVersion (semver : Semver V) : Option V → List Char
  | none => []
  | some v => '@' :: (semver.toString v).toList

/-- `build` asks for the form with `/BUILD` before the colon. -/
def Written.text (w : Written V) (semver : Semver V) (build : Bool) : List Char :=
  leadText w.position ++ joinPath (w.components.map writeComponent) ++
    (if build then buildSuffix else []) ++ ':' :: w.name ++ writeVersion semver w.version

def Written.toId (w : Written V) : BuildRuleId V :=
  ⟨if w.position = .this then none else some (String.ofList (joinPath w.components)),
    String.ofList w.name,w.position,w.version⟩

theorem escaped_write (component : List Char) : Escaped (writeComponent component) component := by
  induction component with
  | nil => exact .nil
  | cons ch component ih =>
    by_cases plain : isPackageCh ch = true
    · have same : writeComponent (ch :: component) = ch :: writeComponent component := by
        simp [writeComponent,escapeCh,plain]
      rw [same]
      exact .plain plain ih
    · have same : writeComponent (ch :: component) = '\\' :: ch :: writeComponent component := by
        simp [writeComponent,escapeCh,plain]
      rw [same]
      exact .escape ch ih

theorem segments_write (components : List (List Char)) (nonempty : ∀ component ∈ components, component ≠ []) :
    Segments ((components.map writeComponent).flatMap ('/' :: ·)) components := by
  induction components with
  | nil => exact .nil
  | cons component components ih =>
    exact .cons (escaped_write component) (nonempty component (by simp))
      (ih fun c member => nonempty c (List.mem_cons_of_mem _ member))

/-- Written components spell their path, less a trailing `/BUILD`. -/
theorem package_write (components : List (List Char)) (given : components ≠ [])
    (nonempty : ∀ component ∈ components, component ≠ []) :
    Package (joinPath (components.map writeComponent)) (some (stripBuild (joinPath components))) := by
  cases components with
  | nil => contradiction
  | cons first rest =>
    exact .path (escaped_write first) (nonempty first (by simp))
      (segments_write rest fun c member => nonempty c (List.mem_cons_of_mem _ member))

theorem stripBuild_other (path : List Char) (last : lastComponent path ≠ ['B','U','I','L','D']) :
    stripBuild path = path := by
  have absent : ¬buildSuffix <:+ path := by
    rintro ⟨front,rfl⟩
    exact last (by simp [lastComponent,buildSuffix])
  simp [stripBuild,absent]

theorem stripBuild_append (path : List Char) : stripBuild (path ++ buildSuffix) = path := by
  simp [stripBuild,buildSuffix]

theorem joinPath_snoc (components : List (List Char)) (given : components ≠ []) (last : List Char) :
    joinPath (components ++ [last]) = joinPath components ++ '/' :: last := by
  cases components with
  | nil => contradiction
  | cons first rest => simp [joinPath,joinSegments]

theorem package_written (w : Written V) (valid : w.Valid) (given : w.components ≠ []) (build : Bool) :
    Package (joinPath (w.components.map writeComponent) ++ (if build then buildSuffix else []))
      (some (joinPath w.components)) := by
  cases build with
  | false =>
    have written := package_write w.components given valid.nonempty
    rw [stripBuild_other _ valid.last] at written
    simpa using written
  | true =>
    have more : ∀ component ∈ w.components ++ [['B','U','I','L','D']], component ≠ [] := by
      intro component member
      rcases List.mem_append.mp member with member | member
      · exact valid.nonempty component member
      · rw [List.mem_singleton.mp member]
        simp
    have written := package_write (w.components ++ [['B','U','I','L','D']]) (by simp) more
    rw [joinPath_snoc _ given,List.map_append,List.map_singleton,joinPath_snoc _ (by simpa using given)] at written
    rw [show ('/' :: ['B','U','I','L','D']) = buildSuffix from rfl,stripBuild_append] at written
    exact written

theorem versionPart_written {semver : Semver V} (laws : semver.RoundTrips) (version : Option V) :
    VersionPart semver (writeVersion semver version) version := by
  cases version with
  | none => exact .absent
  | some v =>
    refine .given ?_ ?_
    · rw [String.ofList_toList]
      exact laws.parse_toString v
    · simpa using laws.toString_ne v

/-- The head of a written identifier, with its package where it has one. -/
def Written.head (w : Written V) (build : Bool) : Head where
  lead := leadText w.position
  packageText := joinPath (w.components.map writeComponent) ++ (if build then buildSuffix else [])
  package := if w.position = .this then none else some (joinPath w.components)
  name := w.name

theorem Written.head_valid (w : Written V) (valid : w.Valid) (variant : build = true → w.position ≠ .this) :
    (w.head build).Valid where
  lead := by cases position : w.position <;> simp [Written.head,leadText,position]
  package := by
    by_cases this : w.position = .this
    · have plain : build = false := Bool.eq_false_iff.mpr fun asked => variant asked this
      have empty := valid.package.mp this
      have nothing : Package [] none := .absent
      simpa [Written.head,this,empty,plain,joinPath] using nothing
    · have written := package_written w valid (fun empty => this (valid.package.mpr empty)) build
      simpa [Written.head,this] using written
  nonempty := valid.name
  chars := valid.chars

theorem Written.head_position (w : Written V) (build : Bool) : (w.head build).position = w.position := by
  cases position : w.position <;>
    simp [Head.position,Written.head,leadText,position,absoluteLead,builtinLead]

/-- Parsing inverts writing, in the plain form for every identifier and in the form
with `/BUILD` for every identifier with a package. -/
theorem parse_written (semver : Semver V) (laws : semver.RoundTrips) (w : Written V) (valid : w.Valid)
    (build : Bool) (variant : build = true → w.position ≠ .this) :
    parseIdString semver (String.ofList (w.text semver build)) = .ok w.toId := by
  have part := versionPart_written laws w.version
  have splits : Splits (String.ofList (w.text semver build)).toList (w.head build) (writeVersion semver w.version) := by
    refine ⟨?_,w.head_valid valid variant,versionPart_stops part⟩
    simp [Written.text,Written.head,Head.text]
  have rooted : (w.head build).lead = absoluteLead → (w.head build).package.isSome = true := by
    intro lead
    cases position : w.position <;>
      simp_all [Written.head,leadText,absoluteLead,builtinLead]
  have same : (w.head build).toId w.version = w.toId := by
    by_cases this : w.position = .this <;>
      simp [Head.toId,Written.toId,Written.head_position,this] <;> simp [Written.head,this]
  have denoted : Denotes semver (String.ofList (w.text semver build)) w.toId :=
    ⟨_,_,w.version,splits,rooted,part,same.symm⟩
  exact parse_of_denotes denoted

theorem digitVersions_roundTrips : digitVersions.RoundTrips where
  parse_toString := by
    have digits : ∀ d : Fin 10, (Nat.digitChar d).isDigit = true ∧
        Fin.ofNat 10 ((Nat.digitChar d).toNat - 48) = d := by decide
    rintro ⟨major,minor,patch⟩
    simp only [digitVersions,String.toList_ofList,digits,Bool.and_self,if_true]
  toString_ne := by
    rintro v empty
    simpa [digitVersions] using congrArg String.toList empty

/-- A path whose first component has a colon and a slash, with `/BUILD` and a version. -/
theorem parse_written_escaped :
    parseIdString digitVersions "//a\\:\\/b/c/BUILD:n.1@1.2.3" =
      .ok ⟨some "a:/b/c","n.1",.absolute,some (1,2,3)⟩ :=
  parse_written digitVersions digitVersions_roundTrips
    ⟨.absolute,[['a',':','/','b'],['c']],['n','.','1'],some (1,2,3)⟩
    ⟨by decide,by decide,by decide,by decide,List.all_eq_true.mp rfl⟩ true (by decide)

/-- The form with `/BUILD` is refused where there is no package. -/
theorem parse_written_this :
    ∃ message, parseIdString digitVersions
      (String.ofList ((⟨.this,[],['n'],none⟩ : Written _).text digitVersions true)) =
        .error (.jkBuildError message) := ⟨_,by rfl⟩

end JkBuild.Dependent
