import JkBuild.PyParser
import Mathlib.Data.List.TakeWhile

/-! `core/gnu/mm_parser.cc`: the first rule of a dependency file, its target and its
prerequisites. A backslash before white space continues a line between names and escapes a
character within them; a name that starts with such a character is cut there. A line break is
white space like any other, so that the names of later rules follow those of the first one. -/
namespace JkBuild.MmParser

open Combinators
open PyParser (isSpace)

section Code

structure MM where
  target : List Char
  dependencies : List (List Char)
  deriving DecidableEq, Repr

def espacedChar : Parser Char := convert (plus (makeCharEq '\\') makeCharAny) fun r => r.2

def espacedSpace : Parser Char := convert (plus (makeCharEq '\\') (makeCharPredict isSpace)) fun r => r.2

def emptyCh : Parser Char := convert (or (makeCharPredict isSpace) espacedSpace) fun _ => ' '

def isTargetCh (ch : Char) : Bool := if isSpace ch then false else ch ≠ '\\' && ch ≠ ':'

def targetChar : Parser Char := makeCharPredict isTargetCh

def ruleCh : Parser Char := or targetChar espacedChar

def targetName : Parser (List Char) :=
  convert (plus (plus (many emptyCh 0) (many ruleCh 1)) (many emptyCh 0)) fun rp => rp.1.2

def mm : Parser MM := convert (plus (plus targetName (makeCharEq ':')) (many targetName 0)) fun tp => ⟨tp.1.1,tp.2⟩

def parse (text beyond : List Char) : Except Failure (Option MM) := do
  let res ← mm (.ofView text beyond)
  return res.result

end Code

/-- White space that is read between names, with or without backslashes. -/
inductive Blanks : List Char → Prop
  | nil : Blanks []
  | space : isSpace ch = true → Blanks text → Blanks (ch :: text)
  | escaped : isSpace ch = true → Blanks text → Blanks ('\\' :: ch :: text)

/-- No white space starts here, also none behind a backslash. -/
def Solid (view : List Char) : Prop :=
  ∀ ch tail, view = ch :: tail → isSpace ch = false ∧ (ch = '\\' → ∀ c, tail.head? = some c → isSpace c = false)

/-- A name that comes before this does not go on. -/
def NameStop (view : List Char) : Prop := ∀ ch, view.head? = some ch → isSpace ch = true ∨ ch = ':'

/-- There is no name here, nor white space. -/
def Ends (view : List Char) : Prop := ∀ ch, view.head? = some ch → ch = ':'

def writeChar (ch : Char) : List Char := if isSpace ch || ch = '\\' || ch = ':' then ['\\',ch] else [ch]

def writeName (name : List Char) : List Char := name.flatMap writeChar

/-- The name does not start with white space. -/
def Starts (name : List Char) : Prop := ∀ ch, name.head? = some ch → isSpace ch = false

section Pieces

variable {beyond text rest : List Char}

theorem Ends.solid (ends : Ends rest) : Solid rest := by
  rintro ch tail rfl
  obtain rfl := ends ch rfl
  exact ⟨rfl,fun slash => absurd slash (by decide)⟩

theorem Ends.stop (ends : Ends rest) : NameStop rest := fun ch first => .inr (ends ch first)

theorem Blanks.append (blanks : Blanks text) (blanks' : Blanks rest) : Blanks (text ++ rest) := by
  induction blanks with
  | nil => exact blanks'
  | space space _ ih => exact .space space ih
  | escaped space _ ih => exact .escaped space ih

theorem espacedSpace_accepts {ch : Char} (space : isSpace ch = true) :
    Accepts beyond espacedSpace ['\\',ch] rest ch := by
  have slash : Accepts beyond (makeCharEq '\\') ['\\'] ([ch] ++ rest) '\\' := accepts_charEq '\\'
  have second : Accepts beyond (makeCharPredict isSpace) [ch] rest ch := accepts_predict space
  exact (slash.plus second).convert _

theorem emptyCh_rejects (solid : Solid rest) : Rejects beyond emptyCh rest := by
  apply Rejects.convert
  apply Rejects.or
  · apply rejects_predict
    intro ch first
    cases rest with
    | nil => contradiction
    | cons c tail =>
      obtain rfl := Option.some.inj first
      exact (solid c tail rfl).1
  · apply Rejects.convert
    cases rest with
    | nil => exact Rejects.plus_left _ (rejects_charEq (by simp))
    | cons c tail =>
      by_cases slash : c = '\\'
      · subst slash
        exact Rejects.plus_right ['\\'] (accepts_charEq '\\') (rejects_predict ((solid _ tail rfl).2 rfl))
      · exact Rejects.plus_left _ (rejects_charEq (by simpa using slash))

theorem blanks_repeats (beyond : List Char) (blanks : Blanks text) (solid : Solid rest) :
    ∃ chars, Repeats beyond emptyCh rest text chars := by
  induction blanks with
  | nil => exact ⟨[],.stop (emptyCh_rejects solid)⟩
  | @space ch text space _ ih =>
    obtain ⟨chars,repeats⟩ := ih
    have one : Accepts beyond emptyCh [ch] (text ++ rest) ' ' := (Accepts.or_left (accepts_predict space)).convert _
    exact ⟨' ' :: chars,.more [ch] one (by simp) repeats⟩
  | @escaped ch text space _ ih =>
    obtain ⟨chars,repeats⟩ := ih
    have other : Rejects beyond (makeCharPredict isSpace) (['\\',ch] ++ (text ++ rest)) := by
      apply rejects_predict
      intro c first
      obtain rfl := Option.some.inj first
      rfl
    have one : Accepts beyond emptyCh ['\\',ch] (text ++ rest) ' ' :=
      (Accepts.or_right other (espacedSpace_accepts space)).convert _
    exact ⟨' ' :: chars,.more ['\\',ch] one (by simp) repeats⟩

theorem ruleCh_rejects (stop : NameStop rest) : Rejects beyond ruleCh rest := by
  have head : ∀ ch, rest.head? = some ch → isTargetCh ch = false ∧ ch ≠ '\\' := by
    intro ch first
    rcases stop ch first with space | rfl
    · refine ⟨by simp [isTargetCh,space],?_⟩
      rintro rfl
      exact absurd space (by decide)
    · decide
  apply Rejects.or
  · exact rejects_predict fun ch first => (head ch first).1
  · apply Rejects.convert
    apply Rejects.plus_left
    exact rejects_charEq fun first => (head '\\' first).2 rfl

theorem writeChar_accepts (ch : Char) : Accepts beyond ruleCh (writeChar ch) rest ch := by
  unfold writeChar
  by_cases special : (isSpace ch || decide (ch = '\\') || decide (ch = ':')) = true
  · rw [if_pos special]
    have slash : Accepts beyond (makeCharEq '\\') ['\\'] ([ch] ++ rest) '\\' := accepts_charEq '\\'
    have second : Accepts beyond makeCharAny [ch] rest ch := accepts_predict rfl
    refine Accepts.or_right (rejects_predict ?_) ((slash.plus second).convert _)
    intro c first
    obtain rfl := Option.some.inj first
    rfl
  · rw [if_neg special]
    apply Accepts.or_left
    apply accepts_predict
    simp only [Bool.or_eq_true,decide_eq_true_eq,not_or,Bool.not_eq_true] at special
    simp [isTargetCh,special]

theorem writeChar_ne_nil (ch : Char) : writeChar ch ≠ [] := by
  unfold writeChar
  split <;> simp

theorem writeName_ne_nil {name : List Char} (nonempty : name ≠ []) : writeName name ≠ [] := by
  cases name with
  | nil => contradiction
  | cons ch name => simp [writeName,writeChar_ne_nil]

theorem name_repeats (beyond name : List Char) (stop : NameStop rest) :
    Repeats beyond ruleCh rest (writeName name) name := by
  induction name with
  | nil => exact .stop (ruleCh_rejects stop)
  | cons ch name ih => exact .more (writeChar ch) (writeChar_accepts ch) (writeChar_ne_nil ch) ih

theorem blanks_write {front : List Char} (spaces : ∀ ch ∈ front, isSpace ch = true) : Blanks (writeName front) := by
  induction front with
  | nil => exact .nil
  | cons ch front ih =>
    have space := spaces ch List.mem_cons_self
    have written : writeChar ch = ['\\',ch] := by simp [writeChar,space]
    rw [writeName,List.flatMap_cons,written]
    exact .escaped space (ih fun c member => spaces c (List.mem_cons_of_mem _ member))

theorem write_solid {name : List Char} (nonempty : name ≠ []) (starts : Starts name) (rest : List Char) :
    Solid (writeName name ++ rest) := by
  cases name with
  | nil => contradiction
  | cons ch name =>
    have plain := starts ch rfl
    rintro c tail same
    rw [writeName,List.flatMap_cons,writeChar] at same
    split at same
    · obtain ⟨rfl,rfl⟩ := List.cons.inj same
      refine ⟨rfl,fun _ c' first => ?_⟩
      obtain rfl := Option.some.inj first
      exact plain
    · next special =>
      obtain ⟨rfl,rfl⟩ := List.cons.inj same
      refine ⟨plain,fun slash => absurd ?_ special⟩
      simp [slash]

theorem targetName_accepts {before name after : List Char} (blanks : Blanks before) (nonempty : name ≠ [])
    (starts : Starts name) (blanks' : Blanks after) (stop : NameStop (after ++ rest)) (solid : Solid rest) :
    Accepts beyond targetName (before ++ writeName name ++ after) rest name := by
  obtain ⟨chars,first⟩ := blanks_repeats beyond blanks (write_solid nonempty starts (after ++ rest))
  obtain ⟨chars',last⟩ := blanks_repeats beyond blanks' solid
  have middle := (name_repeats beyond name stop).accepts 1 (List.length_pos_iff.mpr nonempty)
  have front := (first.accepts 0 (Nat.zero_le _)).plus middle
  exact (front.plus (last.accepts 0 (Nat.zero_le _))).convert _

theorem targetName_rejects {before : List Char} (blanks : Blanks before) (ends : Ends rest) :
    Rejects beyond targetName (before ++ rest) := by
  obtain ⟨chars,first⟩ := blanks_repeats beyond blanks ends.solid
  have none : Rejects beyond (many ruleCh 1) rest := Repeats.rejects (.stop (ruleCh_rejects ends.stop)) 1 (by simp)
  exact ((Rejects.plus_right before (first.accepts 0 (Nat.zero_le _)) none).plus_left _).convert _

end Pieces

section Names

/-- Names as they are written, each with the white space after it. -/
inductive Items (rest : List Char) : List Char → List (List Char) → Prop
  | nil : Items rest [] []
  | cons : name ≠ [] → Starts name → Blanks after → NameStop (after ++ (texts ++ rest)) → Items rest texts names →
      Items rest (writeName name ++ after ++ texts) (name :: names)

variable {rest : List Char}

theorem Items.solid (items : Items rest texts names) (ends : Ends rest) : Solid (texts ++ rest) := by
  cases items with
  | nil => exact ends.solid
  | cons nonempty starts _ _ _ =>
    rw [List.append_assoc,List.append_assoc]
    exact write_solid nonempty starts _

theorem items_repeats (beyond : List Char) (items : Items rest texts names) (ends : Ends rest) :
    Repeats beyond targetName rest texts names := by
  induction items with
  | nil => exact .stop (targetName_rejects .nil ends)
  | @cons name after texts names nonempty starts blanks stop items ih =>
    have one : Accepts beyond targetName ([] ++ writeName name ++ after) (texts ++ rest) name :=
      targetName_accepts .nil nonempty starts blanks stop (items.solid ends)
    have filled : [] ++ writeName name ++ after ≠ [] := by simp [writeName_ne_nil nonempty]
    exact .more _ one filled ih

theorem names_accepts (beyond : List Char) (blanks : Blanks lead) (items : Items rest texts names) (ends : Ends rest) :
    ∃ text left, lead ++ texts ++ rest = text ++ left ∧ Accepts beyond (many targetName 0) text left names := by
  cases items with
  | nil =>
    have none : Repeats beyond targetName (lead ++ rest) [] [] := .stop (targetName_rejects blanks ends)
    exact ⟨[],lead ++ rest,by simp,none.accepts 0 (Nat.zero_le _)⟩
  | @cons name after texts names nonempty starts blanks' stop items =>
    have one : Accepts beyond targetName (lead ++ writeName name ++ after) (texts ++ rest) name :=
      targetName_accepts blanks nonempty starts blanks' stop (items.solid ends)
    have filled : lead ++ writeName name ++ after ≠ [] := by simp [writeName_ne_nil nonempty]
    have all := Repeats.more _ one filled (items_repeats beyond items ends)
    exact ⟨_,rest,by simp,all.accepts 0 (Nat.zero_le _)⟩

/-- What is left of a name that is written behind white space. -/
def strip (name : List Char) : List Char := name.dropWhile isSpace

theorem strip_starts (name : List Char) : Starts (strip name) := by
  intro ch first
  have stopped := List.head?_dropWhile_not isSpace name
  rw [show name.dropWhile isSpace = strip name from rfl,first] at stopped
  simpa using stopped

theorem strip_self {name : List Char} (starts : Starts name) : strip name = name := by
  cases name with
  | nil => rfl
  | cons ch name => simp [strip,starts ch rfl]

theorem write_strip (name : List Char) : ∃ front, Blanks front ∧ writeName name = front ++ writeName (strip name) := by
  refine ⟨writeName (name.takeWhile isSpace),?_,?_⟩
  · apply blanks_write
    intro ch member
    exact List.mem_takeWhile_imp member
  · rw [writeName,writeName,writeName,← List.flatMap_append,strip,List.takeWhile_append_dropWhile]

theorem ends_colon (view : List Char) : Ends (':' :: view) := fun _ first => (Option.some.inj first).symm

/-- The target and the names behind the colon, all cut at the start. -/
theorem parse_names (beyond target : List Char) (blanks : Blanks lead) (items : Items rest texts names)
    (ends : Ends rest) : parse (writeName target ++ ':' :: (lead ++ texts ++ rest)) beyond =
      .ok (if strip target = [] then none else some ⟨strip target,names⟩) := by
  obtain ⟨front,blanks',written⟩ := write_strip target
  rw [written]
  by_cases empty : strip target = []
  · have none : Rejects beyond mm (front ++ ':' :: (lead ++ texts ++ rest)) :=
      (((targetName_rejects blanks' (ends_colon _)).plus_left _).plus_left _).convert _
    obtain ⟨left,failed⟩ := none (.ofView (front ++ ':' :: (lead ++ texts ++ rest)) beyond) rfl rfl
    rw [empty,if_pos rfl,writeName,List.flatMap_nil,List.append_nil,parse,failed]
    rfl
  · obtain ⟨text,left,same,all⟩ := names_accepts beyond blanks items ends
    have name : Accepts beyond targetName (front ++ writeName (strip target) ++ []) ([':'] ++ (text ++ left))
        (strip target) :=
      targetName_accepts blanks' empty (strip_starts target) .nil (ends_colon _).stop (ends_colon _).solid
    have whole := ((name.plus (accepts_charEq ':')).plus all).convert fun tp => (⟨tp.1.1,tp.2⟩ : MM)
    rw [if_neg empty,same,parse]
    have view : front ++ writeName (strip target) ++ ':' :: (text ++ left) =
        front ++ writeName (strip target) ++ [] ++ [':'] ++ text ++ left := by simp
    have done := whole (.ofView (front ++ writeName (strip target) ++ ':' :: (text ++ left)) beyond) view rfl
    have read : mm = convert (plus (plus targetName (makeCharEq ':')) (many targetName 0)) fun tp => ⟨tp.1.1,tp.2⟩ := rfl
    rw [read,done]
    rfl

end Names

section Rules

/-- White space between names: blanks, line breaks, and line breaks that are continued, with
a blank before the backslash. -/
inductive Run : List Char → Prop
  | nil : Run []
  | blank : isSpace ch = true → Run text → Run (ch :: text)
  | continued : isSpace ch = true → Run text → Run (ch :: '\\' :: '\n' :: text)

/-- Names of prerequisites, each behind some white space. -/
inductive Prerequisites : List Char → List (List Char) → Prop
  | nil : Prerequisites [] []
  | cons : Run gap → gap ≠ [] → Prerequisites texts names →
      Prerequisites (gap ++ writeName name ++ texts) (name :: names)

/-- One rule: the target, a colon, and the prerequisites. The first may follow at once. -/
inductive RuleText : List Char → List Char → List (List Char) → Prop
  | alone : Run tail → RuleText (writeName target ++ ':' :: tail) target []
  | rule : Run gap → Prerequisites texts names → Run tail →
      RuleText (writeName target ++ ':' :: (gap ++ writeName name ++ texts ++ tail)) target (name :: names)

/-- What is left of the names that are more than white space. -/
def kept (names : List (List Char)) : List (List Char) := (names.map strip).filter (· ≠ [])

theorem kept_cons (name : List Char) (names : List (List Char)) : kept (name :: names) = kept [name] ++ kept names := by
  rw [kept,kept,kept,← List.filter_append,← List.map_append,List.singleton_append]

theorem Run.blanks (run : Run text) : Blanks text := by
  induction run with
  | nil => exact .nil
  | blank space _ ih => exact .space space ih
  | continued space _ ih => exact .space space (.escaped rfl ih)

theorem Run.stop (run : Run text) (nonempty : text ≠ []) (rest : List Char) : NameStop (text ++ rest) := by
  cases run with
  | nil => contradiction
  | blank space _ | continued space _ =>
    intro ch first
    obtain rfl := Option.some.inj first
    exact .inl space

/-- A name in front of names: what is left of it comes behind blanks, or it is blank itself. -/
theorem items_name (name : List Char) (blanks : Blanks gap) (blanks' : Blanks lead) (items : Items rest texts names)
    (stop : NameStop (lead ++ (texts ++ rest))) : ∃ lead' texts',
      gap ++ writeName name ++ (lead ++ texts) = lead' ++ texts' ∧
        Blanks lead' ∧ Items rest texts' (kept [name] ++ names) := by
  obtain ⟨front,blanks'',written⟩ := write_strip name
  rw [written]
  by_cases empty : strip name = []
  · refine ⟨gap ++ front ++ lead,texts,by simp [empty,writeName],(blanks.append blanks'').append blanks',?_⟩
    simpa [kept,empty] using items
  · refine ⟨gap ++ front,writeName (strip name) ++ lead ++ texts,by simp,blanks.append blanks'',?_⟩
    have more := Items.cons empty (strip_starts name) blanks' stop items
    simpa [kept,empty] using more

theorem prerequisites_items (given : Prerequisites texts names) (blanks : Blanks lead) (items : Items rest body more)
    (stop : NameStop (lead ++ (body ++ rest))) : ∃ lead' body', texts ++ (lead ++ body) = lead' ++ body' ∧
      Blanks lead' ∧ NameStop (lead' ++ (body' ++ rest)) ∧ Items rest body' (kept names ++ more) := by
  induction given with
  | nil => exact ⟨lead,body,rfl,blanks,stop,items⟩
  | @cons gap texts names name run nonempty _ ih =>
    obtain ⟨lead',body',same,blanks',stop',items'⟩ := ih
    obtain ⟨lead'',body'',same',blanks'',items''⟩ := items_name name run.blanks blanks' items' stop'
    have whole : gap ++ writeName name ++ texts ++ (lead ++ body) = lead'' ++ body'' := by
      rw [List.append_assoc,same,same']
    refine ⟨lead'',body'',whole,blanks'',?_,by simpa [kept_cons name names] using items''⟩
    rw [← List.append_assoc,← whole,List.append_assoc,List.append_assoc,List.append_assoc]
    exact run.stop nonempty _

theorem ends_nil : Ends [] := fun _ first => by cases first

theorem parse_rule (beyond : List Char) (given : RuleText text target names) :
    parse text beyond = .ok (if strip target = [] then none else some ⟨strip target,kept names⟩) := by
  cases given with
  | @alone tail _ run =>
    have read := parse_names beyond target run.blanks (.nil : Items [] [] []) ends_nil
    simpa [kept] using read
  | @rule gap texts names tail _ name run given last =>
    have tailStop : NameStop (tail ++ ([] ++ [])) := by
      by_cases empty : tail = []
      · rw [empty]
        exact ends_nil.stop
      · exact last.stop empty _
    obtain ⟨lead,body,same,blanks,stop,items⟩ := prerequisites_items given last.blanks .nil tailStop
    obtain ⟨lead',body',same',blanks',items'⟩ := items_name name run.blanks blanks items stop
    have read := parse_names beyond target blanks' items' ends_nil
    rw [List.append_nil] at same
    rw [List.append_nil,← same',← same,List.append_nil,← kept_cons name names] at read
    rw [List.append_assoc _ texts tail,read]

theorem kept_self {names : List (List Char)} (starts : ∀ name ∈ names, Starts name) (filled : ∀ name ∈ names, name ≠ []) :
    kept names = names := by
  induction names with
  | nil => rfl
  | cons name names ih =>
    have whole := strip_self (starts name List.mem_cons_self)
    have rest := ih (fun n member => starts n (List.mem_cons_of_mem _ member))
      fun n member => filled n (List.mem_cons_of_mem _ member)
    have one : kept [name] = [name] := by simp [kept,whole,filled name List.mem_cons_self]
    rw [kept_cons,one,rest]
    rfl

theorem starts_of_kept {names : List (List Char)} (same : kept names = names) : ∀ name ∈ names, Starts name := by
  have all : (names.map strip).filter (· ≠ []) = names.map strip := by
    apply List.filter_eq_self.mpr
    apply List.length_filter_eq_length_iff.mp
    rw [List.length_map]
    exact congrArg List.length same
  intro name member
  have cut : names.map strip = names.map id := by rw [← all,List.map_id]; exact same
  have own : strip name = name := (List.map_inj_left.mp cut) name member
  exact own ▸ strip_starts name

/-- A rule is read back as it was written, exactly if none of its names starts with white space. -/
theorem ruleRead_iff (beyond : List Char) (given : RuleText text target names)
    (filled : ∀ name ∈ target :: names, name ≠ []) :
    parse text beyond = .ok (some ⟨target,names⟩) ↔ ∀ name ∈ target :: names, Starts name := by
  rw [parse_rule beyond given]
  constructor
  · intro same
    split at same
    · cases same
    · obtain ⟨whole,all⟩ := MM.mk.inj (Option.some.inj (Except.ok.inj same))
      intro name member
      cases member with
      | head => exact whole ▸ strip_starts target
      | tail _ member => exact starts_of_kept all name member
  · intro starts
    have whole := strip_self (starts target List.mem_cons_self)
    have all : kept names = names := kept_self (fun name member => starts name (List.mem_cons_of_mem _ member))
      fun name member => filled name (List.mem_cons_of_mem _ member)
    rw [whole,all,if_neg (filled target List.mem_cons_self)]

/-- `m\ o: a \`, continued by ` b\:`. -/
def sampleRule : List Char := ['m','\\',' ','o',':',' ','a',' ','\\','\n',' ','b','\\',':','\n']

theorem sample_rule : RuleText sampleRule ['m',' ','o'] [['a'],['b',':']] := by
  have blank : Run [' '] := .blank (by decide) .nil
  have line : Run ['\n'] := .blank (by decide) .nil
  have gap : Run [' ','\\','\n',' '] := .continued (by decide) blank
  have others : Prerequisites ([' ','\\','\n',' '] ++ writeName ['b',':'] ++ []) [['b',':']] :=
    .cons gap (by decide) .nil
  have whole : RuleText (writeName ['m',' ','o'] ++ ':' :: ([' '] ++ writeName ['a'] ++
      ([' ','\\','\n',' '] ++ writeName ['b',':'] ++ []) ++ ['\n'])) ['m',' ','o'] [['a'],['b',':']] :=
    .rule blank others line
  exact whole

theorem sampleRule_read : parse sampleRule [] = .ok (some ⟨['m',' ','o'],[['a'],['b',':']]⟩) :=
  (ruleRead_iff [] sample_rule (by decide)).mpr (by simp [Starts,isSpace])

theorem leading_rule : RuleText ['t',':',' ','\\',' ','a'] ['t'] [[' ','a']] := by
  have blank : Run [' '] := .blank (by decide) .nil
  have whole : RuleText (writeName ['t'] ++ ':' :: ([' '] ++ writeName [' ','a'] ++ [] ++ [])) ['t'] [[' ','a']] :=
    .rule blank .nil .nil
  exact whole

/-- The backslash before the blank is taken for one that continues the line. -/
theorem leading_blank_lost : ∃ text, RuleText text ['t'] [[' ','a']] ∧
    parse text [] = .ok (some ⟨['t'],[['a']]⟩) ∧ parse text [] ≠ .ok (some ⟨['t'],[[' ','a']]⟩) :=
  ⟨_,leading_rule,by decide,by decide⟩

end Rules

section Files

structure Plain (name : List Char) : Prop where
  nonempty : name ≠ []
  chars : ∀ ch ∈ name, isTargetCh ch = true

/-- White space within a rule, where a line ends only if it is continued. -/
inductive Join : List Char → Prop
  | nil : Join []
  | blank : isSpace ch = true → ch ≠ '\n' → Join text → Join (ch :: text)
  | continued : isSpace ch = true → ch ≠ '\n' → Join text → Join (ch :: '\\' :: '\n' :: text)

inductive Joined : List Char → List (List Char) → Prop
  | nil : Joined [] []
  | cons : Join gap → gap ≠ [] → Plain name → Joined texts names → Joined (gap ++ name ++ texts) (name :: names)

structure LineEnd (text : List Char) : Prop where
  blank : ∀ ch ∈ text, isSpace ch = true
  line : '\n' ∈ text

/-- Phony rules, each on a line of its own. -/
inductive Phony : List Char → List (List Char) → Prop
  | nil : Phony [] []
  | cons : Plain name → LineEnd ends → Phony texts names → Phony (name ++ ':' :: (ends ++ texts)) (name :: names)

/-- A dependency file as `-MMD -MP` makes the compiler write it. -/
inductive FileText : List Char → List Char → List (List Char) → List (List Char) → Prop
  | file : Plain target → Joined texts names → LineEnd ends → Phony lines phony →
      FileText (target ++ ':' :: (texts ++ (ends ++ lines))) target names phony

theorem Plain.written {name : List Char} (plain : Plain name) : writeName name = name := by
  have chars := plain.chars
  clear plain
  induction name with
  | nil => rfl
  | cons ch name ih =>
    have own := chars ch List.mem_cons_self
    have one : writeChar ch = [ch] := by
      unfold isTargetCh at own
      unfold writeChar
      split at own
      · contradiction
      · next dense => simp_all
    rw [writeName,List.flatMap_cons,one]
    exact congrArg (ch :: ·) (ih fun c member => chars c (List.mem_cons_of_mem _ member))

theorem Plain.starts {name : List Char} (plain : Plain name) : Starts name := by
  intro ch first
  have own := plain.chars ch (List.mem_of_head? first)
  unfold isTargetCh at own
  split at own
  · contradiction
  · next dense => simpa using dense

theorem Join.run (join : Join text) : Run text := by
  induction join with
  | nil => exact .nil
  | blank space _ _ ih => exact .blank space ih
  | continued space _ _ ih => exact .continued space ih

theorem Joined.prerequisites (given : Joined texts names) : Prerequisites texts names ∧ kept names = names := by
  induction given with
  | nil => exact ⟨.nil,rfl⟩
  | @cons gap name texts names join nonempty plain _ ih =>
    obtain ⟨given,same⟩ := ih
    have one : kept [name] = [name] := by simp [kept,strip_self plain.starts,plain.nonempty]
    constructor
    · have all : Prerequisites (gap ++ writeName name ++ texts) (name :: names) := .cons join.run nonempty given
      rwa [plain.written] at all
    · rw [kept_cons,one,same]
      rfl

theorem LineEnd.run (line : LineEnd text) : Run text := by
  have blank := line.blank
  clear line
  induction text with
  | nil => exact .nil
  | cons ch text ih =>
    exact .blank (blank ch List.mem_cons_self) (ih fun c member => blank c (List.mem_cons_of_mem _ member))

theorem LineEnd.nonempty (line : LineEnd text) : text ≠ [] := by
  rintro rfl
  cases line.line

/-- Behind the first rule, the name of the first phony one is read as well. -/
theorem phony_items (phony : Phony lines names) : ∃ body rest, lines = body ++ rest ∧ Ends rest ∧
    Items rest body (names.take 1) := by
  cases phony with
  | nil => exact ⟨[],[],rfl,ends_nil,.nil⟩
  | @cons name ends texts names plain line _ =>
    refine ⟨name,':' :: (ends ++ texts),rfl,ends_colon _,?_⟩
    have one := Items.cons plain.nonempty plain.starts .nil (ends_colon (ends ++ texts)).stop .nil
    simpa [plain.written] using one

theorem parse_file (beyond : List Char) (given : FileText text target names phony) :
    parse text beyond = .ok (some ⟨target,names ++ phony.take 1⟩) := by
  cases given with
  | @file _ texts _ ends lines _ plain joined line phony =>
    obtain ⟨body,rest,rfl,stop,items⟩ := phony_items phony
    obtain ⟨given,same⟩ := joined.prerequisites
    obtain ⟨lead,body',whole,blanks,-,items'⟩ :=
      prerequisites_items given line.run.blanks items (line.run.stop line.nonempty _)
    have read := parse_names beyond target blanks items' stop
    rw [plain.written,strip_self plain.starts,if_neg plain.nonempty,same,← whole] at read
    simpa using read

/-- Nothing but the prerequisites of the first rule is reported, exactly if there is no phony rule. -/
theorem firstRule_iff (beyond : List Char) (given : FileText text target names phony) :
    parse text beyond = .ok (some ⟨target,names⟩) ↔ phony = [] := by
  rw [parse_file beyond given]
  constructor
  · intro same
    have lengths := congrArg List.length (MM.mk.inj (Option.some.inj (Except.ok.inj same))).2
    cases phony with
    | nil => rfl
    | cons name phony => simp at lengths
  · rintro rfl
    rw [List.take_nil,List.append_nil]

theorem plain_file : FileText ['t',':',' ','a','\n'] ['t'] [['a']] [] := by
  have plain : ∀ ch, isTargetCh ch = true → Plain [ch] := fun ch own => ⟨by simp,by simpa using own⟩
  have joined : Joined ([' '] ++ ['a'] ++ []) [['a']] :=
    .cons (.blank (by decide) (by decide) .nil) (by decide) (plain 'a' (by decide)) .nil
  have line : LineEnd ['\n'] := ⟨by simp [PyParser.isSpace],by simp⟩
  have whole : FileText (['t'] ++ ':' :: ([' '] ++ ['a'] ++ [] ++ (['\n'] ++ []))) ['t'] [['a']] [] :=
    .file (plain 't' (by decide)) joined line .nil
  exact whole

theorem plain_file_read : parse ['t',':',' ','a','\n'] [] = .ok (some ⟨['t'],[['a']]⟩) :=
  (firstRule_iff [] plain_file).mpr rfl

/-- `t: a b` with a phony rule for `b`, which is reported twice. -/
theorem phony_reported : ∃ text, FileText text ['t'] [['a'],['b']] [['b']] ∧
    parse text [] = .ok (some ⟨['t'],[['a'],['b'],['b']]⟩) ∧ parse text [] ≠ .ok (some ⟨['t'],[['a'],['b']]⟩) := by
  have plain : ∀ ch, isTargetCh ch = true → Plain [ch] := fun ch own => ⟨by simp,by simpa using own⟩
  have blank : Join [' '] := .blank (by decide) (by decide) .nil
  have joined : Joined ([' '] ++ ['a'] ++ ([' '] ++ ['b'] ++ [])) [['a'],['b']] :=
    .cons blank (by decide) (plain 'a' (by decide)) (.cons blank (by decide) (plain 'b' (by decide)) .nil)
  have line : LineEnd ['\n'] := ⟨by simp [PyParser.isSpace],by simp⟩
  have phony : Phony (['b'] ++ ':' :: (['\n'] ++ [])) [['b']] := .cons (plain 'b' (by decide)) line .nil
  exact ⟨_,.file (plain 't' (by decide)) joined line phony,by decide,by decide⟩

end Files

end JkBuild.MmParser
