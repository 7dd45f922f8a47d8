import JkBuild.Combinators

/-! `core/models/dependent.cc`: identifiers of build rules and their parser. The vendored
version parser is a parameter. -/
namespace JkBuild.Dependent

open Combinators

/-- `semver::version` from a string, with the text of its exception, and its text form. -/
structure Semver (V : Type) where
  parse : String → Except String V
  toString : V → String

inductive RuleRelativePosition where
  | absolute
  | builtin
  | relative
  | this
  deriving DecidableEq, Repr

structure BuildRuleId (V : Type) where
  packageName : Option String
  ruleName : String
  position : RuleRelativePosition
  versionReq : Option V
  deriving DecidableEq, Repr

def absoluteLead : List Char := ['/','/']

def builtinLead : List Char := ['#','#']

def buildSuffix : List Char := ['/','B','U','I','L','D']

def isPackageCh (ch : Char) : Bool := ch.isAlphanum || ch = '_' || ch = '-'

def isRuleNameCh (ch : Char) : Bool := ch.isAlphanum || ch = '_' || ch = '.' || ch = '-'

def positionLead : Parser (List Char) := or (makeStringEq absoluteLead) (makeStringEq builtinLead)

def escapeChar : Parser Char := convert (plus (makeCharEq '\\') makeCharAny) Prod.snd

def packageNameCh : Parser Char := or (makeCharPredict isPackageCh) escapeChar

def packageName : Parser (List Char) := convert (many packageNameCh 1) id

def segment : Parser (List Char) := convert (plus (makeCharEq '/') packageName) Prod.snd

def stripBuild (res : List Char) : List Char :=
  if buildSuffix <:+ res then res.take (res.length - 6) else res

def joinSegments (first : List Char) (rest : List (List Char)) : List Char :=
  first ++ rest.flatMap ('/' :: ·)

def pPackage : Parser (List Char) :=
  convert (plus packageName (many segment 0)) fun (first,rest) => stripBuild (joinSegments first rest)

def ruleName : Parser (List Char) :=
  convert (plus (makeCharEq ':') (convert (many (makeCharPredict isRuleNameCh) 1) id)) Prod.snd

def versionStr : Parser (List Char) :=
  convert (plus (makeCharEq '@') (many makeCharAny 1)) Prod.snd

def headParser : Parser ((Option (List Char) × Option (List Char)) × List Char) :=
  plus (plus (optional positionLead) (optional pPackage)) ruleName

def dependencyParser : Parser (((Option (List Char) × Option (List Char)) × List Char) × Option (List Char)) :=
  plus headParser (optional versionStr)

def positionOf (lead package : Option (List Char)) : RuleRelativePosition :=
  match lead with
  | some text => if text = absoluteLead then .absolute else .builtin
  | none => if package.isSome then .relative else .this

def parseVersion (semver : Semver V) (ver : Option (List Char)) : Except Failure (Option V) :=
  match ver with
  | none => .ok none
  | some text =>
    match semver.parse (String.ofList text) with
    | .ok v => .ok (some v)
    | .error what =>
      .error (.jkBuildError ("Failed to parse ver req '" ++ String.ofList text ++ "', " ++ what))

/-- `ParseIdString` on a view with the characters that follow it in memory. -/
def parseView (semver : Semver V) (str beyond : List Char) : Except Failure (BuildRuleId V) :=
  if str = [] then
    .error (.jkBuildError ("Failed to parse dependent identifier '" ++ String.ofList str ++ "'."))
  else do
    let pres ← dependencyParser (.ofView str beyond)
    match pres.result with
    | none => .error (.jkBuildError ("Failed to parse dep id '" ++ String.ofList str ++ "', unknown error"))
    | some (((lead,package),rule),ver) => do
      let version ← parseVersion semver ver
      return ⟨package.map String.ofList,String.ofList rule,positionOf lead package,version⟩

/-- Callers pass whole strings, which end with a NUL character in memory. -/
def terminator : List Char := [Char.ofNat 0]

def parseIdString (semver : Semver V) (s : String) : Except Failure (BuildRuleId V) :=
  parseView semver s.toList terminator

def digitVersions : Semver (Fin 10 × Fin 10 × Fin 10) where
  parse s :=
    let digit (ch : Char) : Fin 10 := Fin.ofNat 10 (ch.toNat - 48)
    match s.toList with
    | [major,'.',minor,'.',patch] =>
      if major.isDigit && minor.isDigit && patch.isDigit then .ok (digit major,digit minor,digit patch)
      else .error "semver::version::from_string invalid version."
    | _ => .error "semver::version::from_string invalid version."
  toString v :=
    String.ofList [Nat.digitChar v.1,'.',Nat.digitChar v.2.1,'.',Nat.digitChar v.2.2]

/-- The characters of a package component as written, and the component they spell. -/
inductive Escaped : List Char → List Char → Prop
  | nil : Escaped [] []
  | plain : isPackageCh ch = true → Escaped text value → Escaped (ch :: text) (ch :: value)
  | escape (ch : Char) : Escaped text value → Escaped ('\\' :: ch :: text) (ch :: value)

inductive Segments : List Char → List (List Char) → Prop
  | nil : Segments [] []
  | cons : Escaped text value → value ≠ [] → Segments texts values →
      Segments ('/' :: text ++ texts) (value :: values)

/-- A package path as written, or none. A trailing `/BUILD` is not part of what it names. -/
inductive Package : List Char → Option (List Char) → Prop
  | absent : Package [] none
  | path : Escaped text first → first ≠ [] → Segments texts rest →
      Package (text ++ texts) (some (stripBuild (joinSegments first rest)))

/-- No package character starts here. -/
def PackageStop (view : List Char) : Prop :=
  ∀ ch cs, view = ch :: cs → isPackageCh ch = false ∧ (ch = '\\' → cs = [])

def SegmentStop (view : List Char) : Prop := ∀ cs, view = '/' :: cs → PackageStop cs

def NameStop (view : List Char) : Prop := ∀ ch, view.head? = some ch → isRuleNameCh ch = false

theorem packageStop_of_head (ch : Char) (cs : List Char) (plain : isPackageCh ch = false) (other : ch ≠ '\\') :
    PackageStop (ch :: cs) := by
  intro c rest same
  obtain ⟨rfl,rfl⟩ := List.cons.inj same
  exact ⟨plain,fun escape => absurd escape other⟩

theorem packageStop_nil : PackageStop [] := by
  intro ch cs same
  contradiction

theorem packageStop_segments (h : Segments texts values) (stop : PackageStop rest) :
    PackageStop (texts ++ rest) := by
  cases h with
  | nil => exact stop
  | cons _ _ _ => exact packageStop_of_head '/' _ (by decide) (by decide)

section Runs

variable {beyond rest : List Char}

theorem escapeChar_accepts (ch : Char) : Accepts beyond escapeChar ['\\',ch] rest ch :=
  Accepts.convert Prod.snd ((accepts_charEq '\\').plus (accepts_predict rfl))

theorem packageNameCh_rejects (stop : PackageStop rest) : Rejects beyond packageNameCh rest := by
  apply Rejects.or
  · apply rejects_predict
    intro ch first
    cases rest with
    | nil => contradiction
    | cons c cs =>
      obtain rfl := Option.some.inj first
      exact (stop c cs rfl).1
  · apply Rejects.convert
    cases rest with
    | nil => exact Rejects.plus_left _ (rejects_charEq (by simp))
    | cons c cs =>
      by_cases escape : c = '\\'
      · subst escape
        obtain rfl := (stop '\\' cs rfl).2 rfl
        exact Rejects.plus_right ['\\'] (accepts_charEq '\\') (rejects_predict (by simp))
      · exact Rejects.plus_left _ (rejects_charEq (by simpa using escape))

theorem Escaped.repeats (h : Escaped text value) (stop : PackageStop rest) :
    Repeats beyond packageNameCh rest text value := by
  induction h with
  | nil => exact .stop (packageNameCh_rejects stop)
  | @plain ch text value plain _ ih =>
    exact Repeats.more [ch] (Accepts.or_left (accepts_predict plain)) (by simp) ih
  | @escape text value ch _ ih =>
    have notPlain : Rejects beyond (makeCharPredict isPackageCh) (['\\',ch] ++ (text ++ rest)) := by
      apply rejects_predict
      intro c first
      obtain rfl := Option.some.inj first
      decide
    exact Repeats.more ['\\',ch] (Accepts.or_right notPlain (escapeChar_accepts ch)) (by simp) ih

theorem packageName_accepts (h : Escaped text value) (nonempty : value ≠ []) (stop : PackageStop rest) :
    Accepts beyond packageName text rest value :=
  Accepts.convert id ((h.repeats stop).accepts 1 (List.length_pos_iff.mpr nonempty))

theorem packageName_rejects (stop : PackageStop rest) : Rejects beyond packageName rest :=
  Rejects.convert id (Repeats.rejects (.stop (packageNameCh_rejects stop)) 1 (by simp))

theorem segment_rejects (stop : SegmentStop rest) : Rejects beyond segment rest := by
  apply Rejects.convert
  cases rest with
  | nil => exact Rejects.plus_left _ (rejects_charEq (by simp))
  | cons c cs =>
    by_cases slash : c = '/'
    · subst slash
      exact Rejects.plus_right ['/'] (accepts_charEq '/') (packageName_rejects (stop cs rfl))
    · exact Rejects.plus_left _ (rejects_charEq (by simpa using slash))

theorem Segments.repeats (h : Segments text values) (stop : PackageStop rest) (last : SegmentStop rest) :
    Repeats beyond segment rest text values := by
  induction h with
  | nil => exact .stop (segment_rejects last)
  | @cons text value texts values escaped nonempty more ih =>
    have component : Accepts beyond packageName text (texts ++ rest) value :=
      packageName_accepts escaped nonempty (packageStop_segments more stop)
    exact Repeats.more ('/' :: text)
      (Accepts.convert Prod.snd ((accepts_charEq '/').plus component)) (by simp) ih

/-- Greedy reading takes a package path as far as it goes. -/
theorem package_accepts (h : Package text package) (stop : PackageStop rest)
    (last : package.isSome = true → SegmentStop rest) :
    Accepts beyond (optional pPackage) text rest package := by
  cases h with
  | absent =>
    exact Rejects.optional (Rejects.convert _ (Rejects.plus_left _ (packageName_rejects stop)))
  | @path text first texts values escaped nonempty segments =>
    have component : Accepts beyond packageName text (texts ++ rest) first :=
      packageName_accepts escaped nonempty (packageStop_segments segments stop)
    have more : Accepts beyond (many segment 0) texts rest values :=
      (segments.repeats stop (last rfl)).accepts 0 (Nat.zero_le _)
    exact Accepts.optional (Accepts.convert _ (component.plus more))

theorem ruleName_accepts (name : List Char) (nonempty : name ≠ []) (all : ∀ ch ∈ name, isRuleNameCh ch = true)
    (stop : NameStop rest) : Accepts beyond ruleName (':' :: name) rest name := by
  have chars : Accepts beyond (many (makeCharPredict isRuleNameCh) 1) name rest name :=
    (repeats_predict all stop).accepts 1 (List.length_pos_iff.mpr nonempty)
  exact Accepts.convert Prod.snd ((accepts_charEq ':').plus (Accepts.convert id chars))

end Runs

end JkBuild.Dependent
