import JkBuild.Dependent
import Mathlib.Data.List.TakeWhile

/-! The language of identifiers. Every string either splits in one way into a head (an
optional position, an optional package path, a colon and a rule name) and a rest that
does not continue the name, or it has no head and is refused. -/
namespace JkBuild.Dependent

open Combinators

/-- What stands before the rest: `lead`, the package as written and as named, the name. -/
structure Head where
  lead : List Char
  packageText : List Char
  package : Option (List Char)
  name : List Char

def Head.text (h : Head) : List Char := h.lead ++ h.packageText ++ ':' :: h.name

structure Head.Valid (h : Head) : Prop where
  lead : h.lead = [] ∨ h.lead = absoluteLead ∨ h.lead = builtinLead
  package : Package h.packageText h.package
  nonempty : h.name ≠ []
  chars : ∀ ch ∈ h.name, isRuleNameCh ch = true

def Head.position (h : Head) : RuleRelativePosition :=
  if h.lead = absoluteLead then .absolute
  else if h.lead = builtinLead then .builtin
  else if h.package.isSome then .relative else .this

/-- `view` is a valid head followed by `rest`, where the name ends. -/
structure Splits (view : List Char) (h : Head) (rest : List Char) : Prop where
  same : view = h.text ++ rest
  valid : h.Valid
  stop : NameStop rest

def versionText : List Char → Option (List Char)
  | '@' :: ch :: text => some (ch :: text)
  | _ => none

theorem escaped_split (view : List Char) : ∃ text value rest, view = text ++ rest ∧
    Escaped text value ∧ PackageStop rest := by
  induction size : view.length using Nat.strong_induction_on generalizing view with
  | _ size ih =>
    subst size
    cases view with
    | nil => exact ⟨[],[],[],rfl,.nil,packageStop_nil⟩
    | cons ch cs =>
      by_cases plain : isPackageCh ch = true
      · obtain ⟨text,value,rest,rfl,escaped,stop⟩ := ih cs.length (by simp) cs rfl
        exact ⟨ch :: text,ch :: value,rest,rfl,.plain plain escaped,stop⟩
      · by_cases escape : ch = '\\'
        · subst escape
          cases cs with
          | nil =>
            refine ⟨[],[],['\\'],rfl,.nil,?_⟩
            intro c rest same
            obtain ⟨rfl,rfl⟩ := List.cons.inj same
            exact ⟨by decide,fun _ => rfl⟩
          | cons c cs =>
            obtain ⟨text,value,rest,rfl,escaped,stop⟩ := ih cs.length (by simp only [List.length_cons]; omega) cs rfl
            exact ⟨'\\' :: c :: text,c :: value,rest,rfl,.escape c escaped,stop⟩
        · exact ⟨[],[],ch :: cs,rfl,.nil,packageStop_of_head ch cs (by simpa using plain) escape⟩

theorem escaped_value_nil (h : Escaped text []) : text = [] := by
  cases h
  rfl

theorem segments_split (view : List Char) (start : PackageStop view) : ∃ text values rest,
    view = text ++ rest ∧ Segments text values ∧ PackageStop rest ∧ SegmentStop rest := by
  induction size : view.length using Nat.strong_induction_on generalizing view with
  | _ size ih =>
    subst size
    cases view with
    | nil => exact ⟨[],[],[],rfl,.nil,start,fun cs same => by contradiction⟩
    | cons ch cs =>
      by_cases slash : ch = '/'
      · subst slash
        obtain ⟨text,value,rest,rfl,escaped,stop⟩ := escaped_split cs
        cases value with
        | nil =>
          obtain rfl := escaped_value_nil escaped
          refine ⟨[],[],'/' :: rest,rfl,.nil,start,fun cs same => ?_⟩
          obtain rfl := (List.cons.inj same).2
          exact stop
        | cons c value =>
          have shorter : rest.length < ('/' :: (text ++ rest)).length := by
            simp only [List.length_cons,List.length_append]
            omega
          obtain ⟨texts,values,left,rfl,segments,stop',last⟩ := ih _ shorter rest stop rfl
          exact ⟨'/' :: text ++ texts,(c :: value) :: values,left,by simp,
            .cons escaped (by simp) segments,stop',last⟩
      · exact ⟨[],[],ch :: cs,rfl,.nil,start,fun rest same => absurd (List.cons.inj same).1 slash⟩

theorem package_split (view : List Char) : ∃ text package rest, view = text ++ rest ∧
    Package text package ∧ PackageStop rest ∧ (package.isSome = true → SegmentStop rest) := by
  obtain ⟨text,value,rest,rfl,escaped,stop⟩ := escaped_split view
  cases value with
  | nil =>
    obtain rfl := escaped_value_nil escaped
    exact ⟨[],none,rest,rfl,.absent,stop,fun some => by contradiction⟩
  | cons c value =>
    obtain ⟨texts,values,left,rfl,segments,stop',last⟩ := segments_split rest stop
    exact ⟨text ++ texts,_,left,by simp,.path escaped (by simp) segments,stop',fun _ => last⟩

def leadOf (lead : List Char) : Option (List Char) := if lead = [] then none else some lead

theorem lead_accepts (lead rest : List Char) (known : lead = absoluteLead ∨ lead = builtinLead) :
    Accepts beyond (optional positionLead) lead rest (some lead) := by
  apply Accepts.optional
  rcases known with rfl | rfl
  · exact Accepts.or_left (accepts_stringEq absoluteLead)
  · apply Accepts.or_right
    · apply rejects_stringEq
      rintro ⟨tail,same⟩
      simp [absoluteLead,builtinLead] at same
    · exact accepts_stringEq builtinLead

/-- Text with a NUL behind it is not mistaken for a position. -/
theorem lead_absent {view : List Char} (absolute : ¬absoluteLead <+: view) (builtin : ¬builtinLead <+: view) :
    Accepts terminator (optional positionLead) [] view none := by
  have inside : ∀ ch ∈ [Char.ofNat 0], ch ∉ absoluteLead ∧ ch ∉ builtinLead := by
    intro ch member
    obtain rfl := List.mem_singleton.mp member
    decide
  have visible : ∀ lead : List Char, Char.ofNat 0 ∉ lead → lead <+: view ++ terminator → lead <+: view := by
    intro lead plain start
    rcases List.prefix_concat_iff.mp start with all | proper
    · exact absurd (by rw [all]; simp) plain
    · exact proper
  apply Rejects.optional
  apply Rejects.or
  · exact rejects_stringEq fun start => absolute (visible _ (inside _ (by simp)).1 start)
  · exact rejects_stringEq fun start => builtin (visible _ (inside _ (by simp)).2 start)

theorem package_head (h : Package text package) (rest : List Char) :
    ¬absoluteLead <+: text ++ ':' :: rest ∧ ¬builtinLead <+: text ++ ':' :: rest := by
  have first : ∀ ch, (text ++ ':' :: rest).head? = some ch → ch ≠ '/' ∧ ch ≠ '#' := by
    intro ch start
    cases h with
    | absent =>
      obtain rfl := Option.some.inj start
      decide
    | @path text first texts values escaped nonempty segments =>
      cases escaped with
      | nil => exact absurd rfl nonempty
      | plain plain _ =>
        obtain rfl := Option.some.inj start
        constructor <;> rintro rfl <;> contradiction
      | escape _ _ =>
        obtain rfl := Option.some.inj start
        decide
  constructor
  · rintro ⟨tail,same⟩
    exact (first '/' (by rw [← same]; rfl)).1 rfl
  · rintro ⟨tail,same⟩
    exact (first '#' (by rw [← same]; rfl)).2 rfl

theorem colon_stops (rest : List Char) : PackageStop (':' :: rest) ∧ SegmentStop (':' :: rest) :=
  ⟨packageStop_of_head ':' rest (by decide) (by decide),fun _ same => absurd (List.cons.inj same).1 (by decide)⟩

/-- Reading a valid head takes its text and yields its parts. -/
theorem head_accepts (h : Splits view head rest) :
    Accepts terminator headParser head.text rest ((leadOf head.lead,head.package),head.name) := by
  obtain ⟨-,⟨lead,package,nonempty,chars⟩,stop⟩ := h
  have name : Accepts terminator ruleName (':' :: head.name) rest head.name :=
    ruleName_accepts head.name nonempty chars stop
  have path : Accepts terminator (optional pPackage) head.packageText (':' :: head.name ++ rest) head.package :=
    package_accepts package (colon_stops _).1 fun _ => (colon_stops _).2
  have position : Accepts terminator (optional positionLead) head.lead
      (head.packageText ++ (':' :: head.name ++ rest)) (leadOf head.lead) := by
    rcases lead with none | known
    · obtain ⟨absolute,builtin⟩ := package_head package (head.name ++ rest)
      rw [none]
      exact lead_absent (by simpa using absolute) (by simpa using builtin)
    · have found : Accepts terminator (optional positionLead) head.lead
          (head.packageText ++ (':' :: head.name ++ rest)) (some head.lead) := lead_accepts _ _ known
      rcases known with same | same <;> simpa [leadOf,same,absoluteLead,builtinLead] using found
  exact (position.plus path).plus name

theorem lead_split (view : List Char) : ∃ lead rest, view = lead ++ rest ∧
    (lead = [] ∨ lead = absoluteLead ∨ lead = builtinLead) ∧
    Accepts terminator (optional positionLead) lead rest (leadOf lead) := by
  by_cases absolute : absoluteLead <+: view
  · obtain ⟨rest,rfl⟩ := absolute
    exact ⟨absoluteLead,rest,rfl,.inr (.inl rfl),lead_accepts absoluteLead rest (.inl rfl)⟩
  · by_cases builtin : builtinLead <+: view
    · obtain ⟨rest,rfl⟩ := builtin
      exact ⟨builtinLead,rest,rfl,.inr (.inr rfl),lead_accepts builtinLead rest (.inr rfl)⟩
    · exact ⟨[],view,rfl,.inl rfl,lead_absent absolute builtin⟩

theorem ruleName_rejects {view : List Char}
    (no : ∀ name rest, view = ':' :: (name ++ rest) → (∀ ch ∈ name, isRuleNameCh ch = true) →
      NameStop rest → name = []) :
    Rejects beyond ruleName view := by
  apply Rejects.convert
  cases view with
  | nil => exact Rejects.plus_left _ (rejects_charEq (by simp))
  | cons ch cs =>
    by_cases colon : ch = ':'
    · subst colon
      have split := List.takeWhile_append_dropWhile (p := isRuleNameCh) (l := cs)
      have stop : NameStop (cs.dropWhile isRuleNameCh) := by
        intro c first
        have := List.head?_dropWhile_not isRuleNameCh cs
        simpa [first] using this
      have chars : ∀ c ∈ cs.takeWhile isRuleNameCh, isRuleNameCh c = true :=
        fun c member => List.mem_takeWhile_imp member
      have none := no _ _ (by rw [split]) chars stop
      have whole : cs.dropWhile isRuleNameCh = cs := by simpa [none] using split
      rw [whole] at stop
      have many : Rejects beyond (many (makeCharPredict isRuleNameCh) 1) cs :=
        Repeats.rejects (.stop (rejects_predict stop)) 1 (by simp)
      exact Rejects.plus_right [':'] (accepts_charEq ':') (Rejects.convert id many)
    · exact Rejects.plus_left _ (rejects_charEq (by simpa using colon))

theorem head_rejects {view : List Char} (no : ¬∃ head rest, Splits view head rest) :
    Rejects terminator headParser view := by
  obtain ⟨lead,afterLead,rfl,known,position⟩ := lead_split view
  obtain ⟨text,package,afterPackage,rfl,path,stop,last⟩ := package_split afterLead
  have named : Rejects terminator ruleName afterPackage := by
    apply ruleName_rejects
    intro name rest same chars ends
    by_contra nonempty
    exact no ⟨⟨lead,text,package,name⟩,rest,by simp [Head.text,same],⟨known,path,nonempty,chars⟩,ends⟩
  have both : Accepts terminator (plus (optional positionLead) (optional pPackage)) (lead ++ text)
      afterPackage (leadOf lead,package) := position.plus (package_accepts path stop last)
  rw [← List.append_assoc]
  exact Rejects.plus_right _ both named

/-- A head is determined by the string it starts. -/
theorem Splits.unique (h : Splits view head rest) (h' : Splits view head' rest') :
    head' = head ∧ rest' = rest := by
  have first := head_accepts h (.ofView view terminator) h.same rfl
  have second := head_accepts h' (.ofView view terminator) h'.same rfl
  obtain ⟨input,parts⟩ := ParseResult.mk.inj (Except.ok.inj (first.symm.trans second))
  obtain ⟨both,name⟩ := Prod.mk.inj (Option.some.inj parts)
  obtain ⟨lead,package⟩ := Prod.mk.inj both
  have dropped := congrArg (List.length ∘ InputStream.str) input
  have total := congrArg List.length (h.same.symm.trans h'.same)
  have left := congrArg List.length h.same
  simp only [Function.comp,advance_str,InputStream.ofView,List.length_drop,List.length_append] at dropped total left
  obtain ⟨text,rests⟩ := List.append_inj (h.same.symm.trans h'.same) (by omega)
  have leads : head.lead = head'.lead := by
    unfold leadOf at lead
    split at lead <;> split at lead <;> simp_all
  have texts : head.packageText = head'.packageText := by
    simpa [Head.text,leads,name] using text
  refine ⟨?_,rests.symm⟩
  cases head
  cases head'
  simp_all

theorem positionOf_head {head : Head} (h : head.Valid) : positionOf (leadOf head.lead) head.package = head.position := by
  rcases h.lead with same | same | same <;>
    simp [positionOf,leadOf,Head.position,same,absoluteLead,builtinLead]

theorem version_accepts (rest : List Char) : ∃ text left, rest = text ++ left ∧
    Accepts beyond (optional versionStr) text left (versionText rest) := by
  have any : ∀ text : List Char, Repeats beyond makeCharAny [] text text :=
    fun text => repeats_predict (fun _ _ => rfl) (fun _ first => by contradiction)
  cases rest with
  | nil => exact ⟨[],[],rfl,Rejects.optional (Rejects.convert _ (Rejects.plus_left _ (rejects_charEq (by simp))))⟩
  | cons ch text =>
    by_cases at_sign : ch = '@'
    · subst at_sign
      cases text with
      | nil =>
        have none : Rejects beyond (many makeCharAny 1) [] := Repeats.rejects (any []) 1 (by simp)
        exact ⟨[],['@'],rfl,Rejects.optional (Rejects.convert _ (Rejects.plus_right ['@'] (accepts_charEq '@') none))⟩
      | cons c text =>
        have read : Accepts beyond (many makeCharAny 1) (c :: text) [] (c :: text) := (any _).accepts 1 (by simp)
        exact ⟨'@' :: c :: text,[],by simp,Accepts.optional (Accepts.convert _ ((accepts_charEq '@').plus read))⟩
    · have none : versionText (ch :: text) = none := by
        unfold versionText
        split
        · next eq => exact absurd (List.cons.inj eq).1 at_sign
        · rfl
      rw [none]
      exact ⟨[],ch :: text,rfl,Rejects.optional
        (Rejects.convert _ (Rejects.plus_left _ (rejects_charEq (by simpa using at_sign))))⟩

def Head.toId (head : Head) (versionReq : Option V) : BuildRuleId V :=
  ⟨head.package.map String.ofList,String.ofList head.name,head.position,versionReq⟩

theorem parse_of_splits (semver : Semver V) {s : String} (h : Splits s.toList head rest) :
    parseIdString semver s = (parseVersion semver (versionText rest)).map head.toId := by
  have tail : ∃ text left, rest = text ++ left ∧
      Accepts terminator (optional versionStr) text left (versionText rest) := version_accepts rest
  obtain ⟨text,left,same,version⟩ := tail
  have nonempty : s.toList ≠ [] := by
    rw [h.same]
    simp [Head.text]
  have reads : Accepts terminator dependencyParser (head.text ++ text) left _ :=
    (same ▸ head_accepts h).plus version
  have run := reads (.ofView s.toList terminator) (by rw [List.append_assoc,← same]; exact h.same) rfl
  simp only [parseIdString,parseView,nonempty,if_false,run,ok_bind,positionOf_head h.valid]
  cases parseVersion semver (versionText rest) <;> rfl

theorem parse_without_head (semver : Semver V) {s : String} (no : ¬∃ head rest, Splits s.toList head rest) :
    ∃ message, parseIdString semver s = .error (.jkBuildError message) := by
  by_cases empty : s.toList = []
  · exact ⟨_,by simp only [parseIdString,parseView,empty,if_true]; rfl⟩
  · obtain ⟨left,fails⟩ := Rejects.plus_left (optional versionStr) (head_rejects no)
      (.ofView s.toList terminator) rfl rfl
    refine ⟨"Failed to parse dep id '" ++ String.ofList s.toList ++ "', unknown error",?_⟩
    have run : dependencyParser (.ofView s.toList terminator) = .ok ⟨left,none⟩ := fails
    simp only [parseIdString,parseView,empty,if_false,run,ok_bind]

/-- What may follow a head: nothing, or `@` and a version. -/
inductive VersionPart (semver : Semver V) : List Char → Option V → Prop
  | absent : VersionPart semver [] none
  | given : semver.parse (String.ofList text) = .ok v → text ≠ [] → VersionPart semver ('@' :: text) (some v)

/-- The documented grammar, with the identifier a string spells. A path is required
after the position of the root. -/
def Denotes (semver : Semver V) (s : String) (id : BuildRuleId V) : Prop :=
  ∃ head rest versionReq, Splits s.toList head rest ∧
    (head.lead = absoluteLead → head.package.isSome = true) ∧
    VersionPart semver rest versionReq ∧ id = head.toId versionReq

/-- Characters are left that are no version part: the parser stops before them. -/
def Unread (s : String) : Prop :=
  ∃ head rest, Splits s.toList head rest ∧ rest ≠ [] ∧ ∀ text, rest = '@' :: text → text = []

/-- The position of the root is followed by the colon, and all else is well formed. -/
def Rootless (semver : Semver V) (s : String) : Prop :=
  ∃ head rest versionReq, Splits s.toList head rest ∧ head.lead = absoluteLead ∧ head.package = none ∧
    VersionPart semver rest versionReq

structure Conforms (semver : Semver V) (s : String) : Prop where
  sound : ∀ id, parseIdString semver s = .ok id → Denotes semver s id
  refused : (¬∃ id, Denotes semver s id) → ∃ message, parseIdString semver s = .error (.jkBuildError message)

theorem versionPart_stops {semver : Semver V} (h : VersionPart semver rest versionReq) : NameStop rest := by
  intro ch first
  cases h with
  | absent => contradiction
  | given _ _ =>
    obtain rfl := Option.some.inj first
    decide

theorem parseVersion_part {semver : Semver V} (h : VersionPart semver rest versionReq) :
    parseVersion semver (versionText rest) = .ok versionReq := by
  cases h with
  | absent => rfl
  | @given text v parsed nonempty =>
    cases text with
    | nil => contradiction
    | cons ch text => simp only [versionText,parseVersion,parsed]

/-- Everything the grammar spells is accepted. -/
theorem parse_of_denotes {semver : Semver V} {id : BuildRuleId V} (h : Denotes semver s id) :
    parseIdString semver s = .ok id := by
  obtain ⟨head,rest,versionReq,splits,-,part,rfl⟩ := h
  rw [parse_of_splits semver splits,parseVersion_part part]
  rfl

theorem unread_not_conforms {semver : Semver V} (h : Unread s) : ¬Conforms semver s := by
  intro conforms
  obtain ⟨head,rest,splits,nonempty,alone⟩ := h
  have unversioned : versionText rest = none := by
    unfold versionText
    split
    · next eq => exact absurd (alone _ rfl) (by simp)
    · rfl
  have run : parseIdString semver s = .ok (head.toId none) := by
    rw [parse_of_splits semver splits,unversioned]
    rfl
  obtain ⟨_,_,_,splits',-,part,-⟩ := conforms.sound _ run
  obtain ⟨-,rfl⟩ := splits.unique splits'
  cases part with
  | absent => exact nonempty rfl
  | given _ more => exact more (alone _ rfl)

theorem rootless_not_conforms {semver : Semver V} (h : Rootless semver s) : ¬Conforms semver s := by
  intro conforms
  obtain ⟨head,rest,versionReq,splits,lead,package,part⟩ := h
  have run : parseIdString semver s = .ok (head.toId versionReq) := by
    rw [parse_of_splits semver splits,parseVersion_part part]
    rfl
  obtain ⟨_,_,_,splits',path,-,-⟩ := conforms.sound _ run
  obtain ⟨rfl,rfl⟩ := splits.unique splits'
  have given := path lead
  rw [package] at given
  contradiction

theorem conforms_of_splits {semver : Semver V} (splits : Splits s.toList head rest)
    (read : ¬Unread s) (rooted : ¬Rootless semver s) : Conforms semver s := by
  have tail : rest = [] ∨ ∃ text, rest = '@' :: text ∧ text ≠ [] := by
    by_contra neither
    simp only [not_or,not_exists,not_and,not_not] at neither
    exact read ⟨head,rest,splits,neither.1,neither.2⟩
  have root : ∀ versionReq, VersionPart semver rest versionReq → head.lead = absoluteLead →
      head.package.isSome = true := by
    intro versionReq part lead
    rw [Option.isSome_iff_ne_none]
    intro package
    exact rooted ⟨head,rest,versionReq,splits,lead,package,part⟩
  rcases tail with rfl | ⟨text,rfl,nonempty⟩
  · have denoted : Denotes semver s (head.toId none) := ⟨head,[],none,splits,root none .absent,.absent,rfl⟩
    refine ⟨fun id run => ?_,fun no => absurd ⟨_,denoted⟩ no⟩
    rw [parse_of_denotes denoted] at run
    exact Except.ok.inj run ▸ denoted
  · cases parsed : semver.parse (String.ofList text) with
    | ok v =>
      have part : VersionPart semver ('@' :: text) (some v) := .given parsed nonempty
      have denoted : Denotes semver s (head.toId (some v)) := ⟨head,_,some v,splits,root _ part,part,rfl⟩
      refine ⟨fun id run => ?_,fun no => absurd ⟨_,denoted⟩ no⟩
      rw [parse_of_denotes denoted] at run
      exact Except.ok.inj run ▸ denoted
    | error what =>
      have run : ∃ message, parseIdString semver s = .error (.jkBuildError message) := by
        rw [parse_of_splits semver splits]
        cases text with
        | nil => contradiction
        | cons ch text =>
          simp only [versionText,parseVersion,parsed]
          exact ⟨_,rfl⟩
      refine ⟨fun id accepted => ?_,fun _ => run⟩
      obtain ⟨message,failed⟩ := run
      rw [failed] at accepted
      contradiction

/-- The parser accepts only the grammar, with the values spelled, exactly on strings that
do not go on after the identifier and name a package after the root position. -/
theorem parse_conforms_iff (semver : Semver V) (s : String) :
    Conforms semver s ↔ ¬Unread s ∧ ¬Rootless semver s := by
  constructor
  · intro conforms
    exact ⟨fun unread => unread_not_conforms unread conforms,
      fun rootless => rootless_not_conforms rootless conforms⟩
  · rintro ⟨read,rooted⟩
    by_cases splits : ∃ head rest, Splits s.toList head rest
    · obtain ⟨head,rest,splits⟩ := splits
      exact conforms_of_splits splits read rooted
    · obtain ⟨message,failed⟩ := parse_without_head semver splits
      refine ⟨fun id accepted => ?_,fun _ => ⟨message,failed⟩⟩
      rw [failed] at accepted
      contradiction

/-- A path after the rule name is dropped without a word. -/
theorem parse_leaves_rest : parseIdString digitVersions "//a:b/c" = .ok ⟨some "a","b",.absolute,none⟩ ∧
    ¬Conforms digitVersions "//a:b/c" := by
  refine ⟨by rfl,unread_not_conforms ⟨⟨['/','/'],['a'],some ['a'],['b']⟩,['/','c'],?_,by simp,?_⟩⟩
  · have path : Package ['a'] (some ['a']) := .path (.plain (by decide) .nil) (by simp) .nil
    exact ⟨by rfl,⟨.inr (.inl rfl),path,by simp,List.all_eq_true.mp rfl⟩,by simp [NameStop]; decide⟩
  · intro text same
    exact absurd (List.cons.inj same).1 (by decide)

end JkBuild.Dependent
