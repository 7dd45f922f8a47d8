import JkBuild.CommandLines
import JkBuild.FileWriter
import JkBuild.MakeSyntax

/-! `core/generators/makefile.cc`: what is printed goes to every writer, and make reads it back
as what was asked for. -/
namespace JkBuild.MakefileText

open CommandLines FileWriter TextLines MakeSyntax

structure Makefile where
  path : Destination
  writers : List Writer

inductive Call where
  | env (key value comment : List Char)
  | target (name : List Char) (deps : List (List Char)) (cmds : List (List CustomArgument)) (comment : List Char)
      (phony : Bool)
  | includes (filename comment : List Char) (fatal : Bool)
  | comments (parts : List (List Char))

def phonyName : List Char := ".PHONY".toList

def asciiStrToUpper (text : List Char) : List Char := text.map Char.toUpper

namespace Makefile

def toEach (f : Writer → Writer) (m : Makefile) : Makefile := { m with writers := m.writers.map f }

def printLine : List (List Char) → Makefile → Makefile
  | [], m => m.toEach Writer.endLine
  | [s], m => m.toEach (Writer.writeLine s)
  | s :: parts, m => printLine parts (m.toEach (Writer.write s))

/-- A comment without text is not printed. -/
def printComment (parts : List (List Char)) (m : Makefile) : Makefile :=
  if parts.flatten.length = 0 then m else m.printLine (['#',' '] :: parts)

def env (key value comment : List Char) (m : Makefile) : Makefile :=
  ((m.printComment [comment]).printLine [asciiStrToUpper key,[' ','=',' '],value]).printLine []

def target (name : List Char) (deps : List (List Char)) (cmds : List (List CustomArgument)) (comment : List Char)
    (phony : Bool) (m : Makefile) : Makefile :=
  let m := m.printComment [comment]
  let m := deps.foldl (fun m dep => m.printLine [name,[':',' '],dep]) m
  let m := m.printLine [name,[':']]
  let m := cmds.foldl (fun m stmt => m.printLine [['\t'],stringify stmt]) m
  let m := if phony then m.printLine [(phonyName ++ [':',' ']),name] else m
  m.printLine []

def includes (filename comment : List Char) (fatal : Bool) (m : Makefile) : Makefile :=
  (m.printComment [comment]).printLine [(if fatal then "include " else "-include ").toList,filename]

def call (m : Makefile) : Call → Makefile
  | .env key value comment => m.env key value comment
  | .target name deps cmds comment phony => m.target name deps cmds comment phony
  | .includes filename comment fatal => m.includes filename comment fatal
  | .comments parts => m.printComment parts

def commonHeader : List String :=
  ["# JK generated file: DO NOT EDIT!","# Generated by \"Unix Makefiles\" Generator, JK Version 1.3.0"]

def separator : String := "#============================================================================="

def defaultTarget : String := "JK_DRFAULT_TARGET"

/-- The lines of one text. -/
def specialTargets : List String :=
  ["","# Disable implicit rules so canonical targets will work.",".SUFFIXES:","",
    "# Disable VCS-based implicit rules.","% : %,v","",
    "# Disable VCS-based implicit rules.","% : RCS/%","",
    "# Disable VCS-based implicit rules.","% : RCS/%,v","",
    "# Disable VCS-based implicit rules.","% : SCCS/s.%","",
    "# Disable VCS-based implicit rules.","% : s.%","",
    ".SUFFIXES: .hpux_make_needs_suffix_list","",
    "# Command-line flag to silence nested $(MAKE).","$(VERBOSE)MAKESILENT = -s","",
    "# Suppress display of executed commands.","$(VERBOSE).SILENT:","  "]

def printSep (m : Makefile) : Makefile := m.printLine [separator.toList]

def header (m : Makefile) : Makefile :=
  let m := commonHeader.foldl (fun m line => m.toEach (Writer.writeLine line.toList)) m
  let m := m.printSep.printLine []
  let m := (m.printComment ["default target".toList]).printLine [defaultTarget.toList,[':']]
  let m := (m.printLine []).printComment ["Delete rule output on recipe failure.".toList]
  let m := ((m.printLine [".DELETE_ON_ERROR:".toList]).printSep).printLine []
  let m := m.printComment ["Special targets provided by jk.".toList]
  (m.printLine [List.intercalate ['\n'] (specialTargets.map String.toList)]).printSep

/-- The constructor: a writer from each factory. -/
def create (path : Destination) (factories : Nat) : Makefile :=
  header ⟨path,(List.replicate factories Writer.new).map (Writer.openAt path)⟩

def generate (path : Destination) (factories : Nat) (calls : List Call) : Makefile :=
  calls.foldl call (create path factories)

def close (m : Makefile) (t : Disk) : Except AssumeFolder.Fault Disk := m.writers.foldlM (fun t w => w.close t) t

end Makefile

section Lines

def Call.lines : Call → List (List Char)
  | env key value comment => commented [comment] ++ [asciiStrToUpper key ++ [' ','=',' '] ++ value,[]]
  | target name deps cmds comment phony =>
    commented [comment] ++ deps.map (fun dep => name ++ [':',' '] ++ dep) ++ [name ++ [':']] ++
      cmds.map (fun stmt => '\t' :: stringify stmt) ++ (if phony then [(phonyName ++ [':',' ']) ++ name] else []) ++ [[]]
  | includes filename comment fatal =>
    commented [comment] ++ [(if fatal then "include " else "-include ").toList ++ filename]
  | comments parts => commented parts
where
  commented (parts : List (List Char)) : List (List Char) :=
    if parts.flatten.length = 0 then [] else [['#',' '] ++ parts.flatten]

def headerLines : List (List Char) :=
  Makefile.commonHeader.map String.toList ++
    [Makefile.separator.toList,[],['#',' '] ++ "default target".toList,Makefile.defaultTarget.toList ++ [':'],[],
      ['#',' '] ++ "Delete rule output on recipe failure.".toList,".DELETE_ON_ERROR:".toList,Makefile.separator.toList,[],
      ['#',' '] ++ "Special targets provided by jk.".toList] ++
    Makefile.specialTargets.map String.toList ++ [Makefile.separator.toList]

def text (calls : List Call) : List Char := unlines (headerLines ++ calls.flatMap Call.lines)

def filled (path : Destination) (factories : Nat) (content : List Char) : Makefile :=
  ⟨path,List.replicate factories ⟨some path,content⟩⟩

section Filled

variable (path : Destination) (factories : Nat) (content : List Char)

theorem toEach_filled {more : List Char} {f : Writer → Writer} (adds : f ⟨some path,content⟩ = ⟨some path,more⟩) :
    (filled path factories content).toEach f = filled path factories more := by
  simp [filled,Makefile.toEach,adds]

theorem printLine_filled (parts : List (List Char)) : (filled path factories content).printLine parts =
    filled path factories (content ++ unlines [parts.flatten]) := by
  induction parts generalizing content with
  | nil => exact toEach_filled path factories content (by simp [Writer.endLine,unlines])
  | cons s parts ih =>
    cases parts with
    | nil => exact toEach_filled path factories content (by simp [Writer.writeLine,unlines])
    | cons s' parts =>
      rw [Makefile.printLine,toEach_filled path factories content rfl,ih]
      · simp [unlines]
      · simp

theorem printComment_filled (parts : List (List Char)) : (filled path factories content).printComment parts =
    filled path factories (content ++ unlines (Call.lines.commented parts)) := by
  unfold Makefile.printComment Call.lines.commented
  split
  · simp [unlines]
  · rw [printLine_filled]
    rfl

theorem printLines_filled (xs : List α) (parts : α → List (List Char)) :
    xs.foldl (fun m x => m.printLine (parts x)) (filled path factories content) =
      filled path factories (content ++ unlines (xs.map fun x => (parts x).flatten)) := by
  induction xs generalizing content with
  | nil => simp [unlines]
  | cons x xs ih =>
    rw [List.foldl_cons,printLine_filled,ih]
    simp [unlines]

theorem call_filled (c : Call) : (filled path factories content).call c =
    filled path factories (content ++ unlines c.lines) := by
  cases c with
  | env key value comment =>
    simp only [Makefile.call,Makefile.env,printComment_filled,printLine_filled]
    simp [unlines,Call.lines]
  | comments parts => exact printComment_filled path factories content parts
  | includes filename comment fatal =>
    simp only [Makefile.call,Makefile.includes,printComment_filled,printLine_filled]
    simp [unlines,Call.lines]
  | target name deps cmds comment phony =>
    simp only [Makefile.call,Makefile.target,printComment_filled]
    rw [printLines_filled path factories _ deps fun dep => [name,[':',' '],dep],printLine_filled,
      printLines_filled path factories _ cmds fun stmt => [['\t'],stringify stmt]]
    cases phony <;> simp [printLine_filled,unlines,Call.lines,List.flatMap_map]

theorem calls_filled (calls : List Call) : calls.foldl Makefile.call (filled path factories content) =
    filled path factories (content ++ unlines (calls.flatMap Call.lines)) := by
  induction calls generalizing content with
  | nil => simp [unlines]
  | cons c calls ih =>
    rw [List.foldl_cons,call_filled,ih]
    simp [List.append_assoc]

end Filled

theorem intercalate_unlines {ls : List (List Char)} (some : ls ≠ []) : List.intercalate ['\n'] ls ++ ['\n'] = unlines ls := by
  induction ls with
  | nil => exact absurd rfl some
  | cons l ls ih =>
    cases ls with
    | nil => simp [unlines]
    | cons l' ls =>
      have rest := ih (by simp)
      rw [List.intercalate_cons_cons]
      simp only [unlines,List.flatMap_cons] at rest ⊢
      simp [rest]

theorem special_text : unlines [[List.intercalate ['\n'] (Makefile.specialTargets.map String.toList)].flatten] =
    unlines (Makefile.specialTargets.map String.toList) := by
  have some : Makefile.specialTargets.map String.toList ≠ [] := by simp [Makefile.specialTargets]
  rw [← intercalate_unlines some]
  simp [unlines]

theorem header_filled (path : Destination) (factories : Nat) :
    (filled path factories []).header = filled path factories (unlines headerLines) := by
  have generated (m : Makefile) : Makefile.commonHeader.foldl (fun m line => m.toEach (Writer.writeLine line.toList)) m =
      Makefile.commonHeader.foldl (fun m line => m.printLine [line.toList]) m := rfl
  have commented (text : String) (some : text ≠ "") : Call.lines.commented [text.toList] = [['#',' '] ++ text.toList] := by
    simp [Call.lines.commented,some]
  simp only [Makefile.header,Makefile.printSep,generated,printLine_filled,printComment_filled,
    printLines_filled path factories _ Makefile.commonHeader fun line => [line.toList],special_text]
  rw [commented "default target" (by decide),commented "Delete rule output on recipe failure." (by decide),
    commented "Special targets provided by jk." (by decide)]
  simp only [List.nil_append,← unlines_append,headerLines,List.flatten_cons,List.flatten_nil,List.append_nil]
  rfl

theorem create_filled (path : Destination) (factories : Nat) :
    Makefile.create path factories = filled path factories (unlines headerLines) := by
  rw [← header_filled,Makefile.create,List.map_replicate]
  rfl

theorem generate_filled (path : Destination) (factories : Nat) (calls : List Call) :
    Makefile.generate path factories calls = filled path factories (text calls) := by
  rw [Makefile.generate,create_filled,calls_filled,← unlines_append]
  rfl

end Lines

section Reading

/-- A remark of one line that does not run on. -/
def Remark (text : List Char) : Prop := '\n' ∉ text ∧ '\\' ∉ text

instance (text : List Char) : Decidable (Remark text) := inferInstanceAs (Decidable (_ ∧ _))

/-- The text of a command fills its line and ends there. -/
structure Command (text : List Char) : Prop where
  line : '\n' ∉ text
  continues : text.getLast? ≠ some '\\'

/-- Names are such as make takes as they are, and nothing reaches into the next line. -/
inductive Call.Formed : Call → Prop
  | env (named : Key (asciiStrToUpper key)) (given : Value value) (remark : Remark comment) : Formed (.env key value comment)
  | target (named : Heads name) (waits : ∀ dep ∈ deps, Names dep) (runs : ∀ stmt ∈ cmds, Command (stringify stmt))
      (remark : Remark comment) : Formed (.target name deps cmds comment phony)
  | includes {filename comment : List Char} {fatal : Bool} (named : Names filename) (present : words filename ≠ [])
      (remark : Remark comment) :
      Formed (.includes filename comment fatal)
  | comments (remark : Remark parts.flatten) : Formed (.comments parts)

instance (text : List Char) : Decidable (Command text) :=
  decidable_of_iff ('\n' ∉ text ∧ text.getLast? ≠ some '\\')
    ⟨fun ⟨line,continues⟩ => ⟨line,continues⟩,fun ⟨line,continues⟩ => ⟨line,continues⟩⟩

instance (c : Call) : Decidable c.Formed :=
  match c with
  | .env key value comment =>
    decidable_of_iff (Key (asciiStrToUpper key) ∧ Value value ∧ Remark comment)
      ⟨fun ⟨named,given,remark⟩ => .env named given remark,fun | .env named given remark => ⟨named,given,remark⟩⟩
  | .target name deps cmds comment _ =>
    decidable_of_iff (Heads name ∧ (∀ dep ∈ deps, Names dep) ∧ (∀ stmt ∈ cmds, Command (stringify stmt)) ∧ Remark comment)
      ⟨fun ⟨named,waits,runs,remark⟩ => .target named waits runs remark,
        fun | .target named waits runs remark => ⟨named,waits,runs,remark⟩⟩
  | .includes filename comment _ =>
    decidable_of_iff (Names filename ∧ words filename ≠ [] ∧ Remark comment)
      ⟨fun ⟨named,present,remark⟩ => .includes named present remark,
        fun | .includes named present remark => ⟨named,present,remark⟩⟩
  | .comments parts =>
    decidable_of_iff (Remark parts.flatten) ⟨.comments,fun | .comments remark => remark⟩

/-- What a call means to make. -/
def Call.items : Call → List Item
  | env key value _ => [.assignment (asciiStrToUpper key) (value.dropWhile isBlank)]
  | target name deps cmds _ phony =>
    deps.map (fun dep => .rule (words name) (words dep)) ++ [.rule (words name) []] ++
      cmds.map (fun stmt => .recipe (stringify stmt)) ++ if phony then [.rule [phonyName] (words name)] else []
  | includes filename _ fatal => [.inclusion (words filename) fatal]
  | comments _ => []

def headerItems : List Item :=
  [.rule [Makefile.defaultTarget.toList] [],.rule [".DELETE_ON_ERROR".toList] [],.rule [".SUFFIXES".toList] [],
    .rule [['%']] ["%,v".toList],.rule [['%']] ["RCS/%".toList],.rule [['%']] ["RCS/%,v".toList],
    .rule [['%']] ["SCCS/s.%".toList],.rule [['%']] ["s.%".toList],
    .rule [".SUFFIXES".toList] [".hpux_make_needs_suffix_list".toList],
    .assignment "$(VERBOSE)MAKESILENT".toList "-s".toList,.rule ["$(VERBOSE).SILENT".toList] []]

theorem headerLines_read : readLines false headerLines = some (headerItems,true) := by decide +kernel

theorem remark_read {parts : List (List Char)} (remark : Remark parts.flatten) (inRule : Bool) :
    readLines inRule (Call.lines.commented parts) = some ([],inRule) := by
  unfold Call.lines.commented
  split
  · rfl
  · refine readLines_single (readLine_comment (getLast_other ?_) inRule)
    simp [remark.2]

theorem readLines_map {xs : List α} {line : α → List Char} {item : α → Item} {inRule : Bool}
    (later : ∀ x ∈ xs, readLine true (line x) = some ([item x],true))
    (first : ∀ x ∈ xs, readLine inRule (line x) = some ([item x],true)) :
    ∃ last, readLines inRule (xs.map line) = some (xs.map item,last) ∧ (inRule = true → last = true) := by
  induction xs generalizing inRule with
  | nil => exact ⟨inRule,rfl,id⟩
  | cons x xs ih =>
    have rest := fun y member => later y (List.mem_cons_of_mem x member)
    obtain ⟨last,more,kept⟩ := ih rest rest
    exact ⟨last,by simp [readLines,first x List.mem_cons_self,more],fun _ => kept rfl⟩

theorem phony_heads : Heads phonyName where
  names := by decide +kernel
  starts := ⟨'.',_,rfl,by decide⟩
  balanced := by decide +kernel
  word := by decide +kernel

theorem phony_word : words phonyName = [phonyName] := by decide +kernel

theorem names_after {dep : List Char} (names : Names dep) : Names (' ' :: dep) := by
  simpa [Names,MakeSyntax.isPlain] using names.plain

/-- What a call prints is read as what it means, wherever it stands. -/
theorem Call.Formed.reads {c : Call} (formed : c.Formed) (inRule : Bool) :
    ∃ last, readLines inRule c.lines = some (c.items,last) := by
  cases formed with
  | comments remark => exact ⟨inRule,remark_read remark inRule⟩
  | @includes filename comment fatal named present remark =>
    have line : (if fatal then "include " else "-include ").toList ++ filename = including fatal ++ ' ' :: filename := by
      cases fatal <;> rfl
    have own := readLines_single (readLine_inclusion named present fatal inRule)
    rw [← line] at own
    exact ⟨false,readLines_append (remark_read (by simpa using remark) inRule) own⟩
  | @env key value comment named given remark =>
    have hash : '#' ∉ ' ' :: value := fun member => by
      rcases List.mem_cons.mp member with same | member
      · exact absurd same (by decide)
      · exact given.hash member
    have continues : (' ' :: value).getLast? ≠ some '\\' := by
      cases value with
      | nil => decide
      | cons ch value => simpa [List.getLast?_cons] using given.continues
    have own := readLine_assignment named hash continues inRule
    have line : asciiStrToUpper key ++ [' ','=',' '] ++ value = asciiStrToUpper key ++ ' ' :: '=' :: ' ' :: value := by simp
    rw [← line] at own
    have both : readLines inRule [asciiStrToUpper key ++ [' ','=',' '] ++ value,[]] =
        some ([.assignment (asciiStrToUpper key) (value.dropWhile isBlank)],false) := by
      simp only [readLines,own,readLine_empty]
      simp [isBlank]
    exact ⟨false,readLines_append (remark_read (by simpa using remark) inRule) both⟩
  | @target name deps cmds comment phony named waits runs remark =>
    have opening : readLines inRule (Call.lines.commented [comment]) = some ([],inRule) :=
      remark_read (by simpa using remark) inRule
    have waiting (dep : List Char) (member : dep ∈ deps) (inRule : Bool) :
        readLine inRule (name ++ [':',' '] ++ dep) = some ([.rule (words name) (words dep)],true) := by
      have read := readLine_rule named (names_after (waits dep member)) inRule
      rw [words_blank] at read
      rw [← read]
      simp
    have prerequisites : ∃ last, readLines inRule (deps.map fun dep => name ++ [':',' '] ++ dep) =
        some (deps.map fun dep => .rule (words name) (words dep),last) := by
      obtain ⟨last,read,-⟩ := readLines_map (fun dep member => waiting dep member true)
        fun dep member => waiting dep member inRule
      exact ⟨last,read⟩
    obtain ⟨_,prerequisites⟩ := prerequisites
    have heading (inRule : Bool) : readLines inRule [name ++ [':']] = some ([.rule (words name) []],true) :=
      readLines_single (readLine_rule named (show Names [] from rfl) inRule)
    have running (stmt : List CustomArgument) (member : stmt ∈ cmds) :
        readLine true ('\t' :: stringify stmt) = some ([.recipe (stringify stmt)],true) :=
      readLine_recipe (runs stmt member).continues
    obtain ⟨last,recipe,kept⟩ := readLines_map running running
    obtain rfl := kept rfl
    have closing : readLines true ((if phony then [(phonyName ++ [':',' ']) ++ name] else []) ++ [[]]) =
        some (if phony then [.rule [phonyName] (words name)] else [],true) := by
      cases phony with
      | false => rfl
      | true =>
        have read := readLine_rule phony_heads (names_after named.names) true
        rw [words_blank,phony_word] at read
        have line : phonyName ++ [':',' '] ++ name = phonyName ++ ':' :: ' ' :: name := by simp
        simp only [if_true,line,List.cons_append,List.nil_append,readLines,read,readLine_empty]
    have all := readLines_append (readLines_append (readLines_append (readLines_append opening prerequisites)
      (heading _)) recipe) closing
    refine ⟨true,?_⟩
    simpa only [Call.lines,Call.items,List.append_assoc,List.nil_append] using all

theorem calls_read {calls : List Call} (formed : ∀ c ∈ calls, c.Formed) (inRule : Bool) :
    ∃ last, readLines inRule (calls.flatMap Call.lines) = some (calls.flatMap Call.items,last) := by
  induction calls generalizing inRule with
  | nil => exact ⟨inRule,rfl⟩
  | cons c calls ih =>
    obtain ⟨middle,first⟩ := (formed c List.mem_cons_self).reads inRule
    obtain ⟨last,rest⟩ := ih (fun c' member => formed c' (List.mem_cons_of_mem _ member)) middle
    exact ⟨last,readLines_append first rest⟩

/-- No line but that of a variable without value ends in white space. -/
def Call.Tidy : Call → Prop
  | env _ value _ => trimEnd value = value
  | target name deps cmds _ _ => trimEnd name = name ∧ (∀ dep ∈ deps, dep ≠ [] ∧ trimEnd dep = dep) ∧
      ∀ stmt ∈ cmds, stringify stmt ≠ [] ∧ trimEnd (stringify stmt) = stringify stmt
  | includes filename _ _ => trimEnd filename = filename
  | comments _ => True

/-- Not a comment without text, of which nothing is printed. -/
def Call.prints : Call → Bool
  | comments parts => parts.flatten.length ≠ 0
  | _ => true

/-- The end of the makefile is tidy. -/
def Closed (calls : List Call) : Prop := ∀ c ∈ (calls.filter Call.prints).getLast?, c.Tidy

/-- The calls of a makefile that make reads as it is meant. -/
structure Sound (calls : List Call) : Prop where
  formed : ∀ c ∈ calls, c.Formed
  closed : Closed calls

instance (c : Call) : Decidable c.Tidy :=
  match c with
  | .env .. => inferInstanceAs (Decidable (_ = _))
  | .target .. => inferInstanceAs (Decidable (_ ∧ _ ∧ _))
  | .includes .. => inferInstanceAs (Decidable (_ = _))
  | .comments .. => inferInstanceAs (Decidable True)

instance (calls : List Call) : Decidable (Closed calls) :=
  inferInstanceAs (Decidable (∀ c ∈ (calls.filter Call.prints).getLast?, c.Tidy))

instance (calls : List Call) : Decidable (Sound calls) :=
  decidable_of_iff ((∀ c ∈ calls, c.Formed) ∧ Closed calls)
    ⟨fun ⟨formed,closed⟩ => ⟨formed,closed⟩,fun ⟨formed,closed⟩ => ⟨formed,closed⟩⟩

theorem Names.newline {text : List Char} (names : Names text) : '\n' ∉ text := fun member => (names.space _ member).1 rfl

theorem remark_newline {parts : List (List Char)} (remark : Remark parts.flatten) :
    ∀ l ∈ Call.lines.commented parts, '\n' ∉ l := by
  unfold Call.lines.commented
  split
  · simp
  · intro l member
    rw [List.mem_singleton.mp member]
    simpa using remark.1

theorem Call.Formed.newline {c : Call} (formed : c.Formed) : ∀ l ∈ c.lines, '\n' ∉ l := by
  cases formed with
  | comments remark => exact remark_newline remark
  | @includes filename comment fatal named present remark =>
    intro l member
    rcases List.mem_append.mp member with member | member
    · exact remark_newline (by simpa using remark) l member
    · rw [List.mem_singleton.mp member]
      have keyword : '\n' ∉ (if fatal then "include " else "-include ").toList := by cases fatal <;> decide
      simp [keyword,Names.newline named]
  | @env key value comment named given remark =>
    intro l member
    rcases List.mem_append.mp member with member | member
    · exact remark_newline (by simpa using remark) l member
    · rcases List.mem_cons.mp member with rfl | member
      · simp [Names.newline named.names,given.line]
      · rw [List.mem_singleton.mp member]
        exact List.not_mem_nil
  | @target name deps cmds comment phony named waits runs remark =>
    have plain := Names.newline named.names
    intro l member
    simp only [Call.lines,List.mem_append,List.mem_map,List.mem_singleton] at member
    rcases member with ((((member | ⟨dep,inside,rfl⟩) | rfl) | ⟨stmt,inside,rfl⟩) | member) | rfl
    · exact remark_newline (by simpa using remark) l member
    · simp [plain,Names.newline (waits dep inside)]
    · simp [plain]
    · simpa using (runs stmt inside).line
    · cases phony with
      | false => simp at member
      | true =>
        have word : '\n' ∉ phonyName := by decide
        rw [if_pos rfl,List.mem_singleton] at member
        subst member
        simp [word,plain]
    · exact List.not_mem_nil

theorem remark_steady {parts : List (List Char)} (remark : Remark parts.flatten) :
    ∀ l ∈ Call.lines.commented parts, Steady l := by
  unfold Call.lines.commented
  split
  · simp
  · intro l member
    rw [List.mem_singleton.mp member]
    have cut : trimEnd ('#' :: ' ' :: parts.flatten) = '#' :: trimEnd (' ' :: parts.flatten) := by
      by_cases blank : trimEnd (' ' :: parts.flatten) = []
      · rw [blank]
        exact trimEnd_spaces ['#'] (trimEnd_eq_nil.mp blank)
      · exact trimEnd_append ['#'] blank
    have rest : '\\' ∉ trimEnd (' ' :: parts.flatten) := fun member => by
      have whole := (List.rdropWhile_prefix isSpace _).subset member
      simp [remark.2] at whole
    have whole : '\\' ∉ ' ' :: parts.flatten := by simp [remark.2]
    refine fun inRule => ⟨fun none => ?_,fun _ => ?_⟩
    · rw [List.cons_append,List.cons_append,List.nil_append,cut] at none
      contradiction
    · show readLine inRule (trimEnd ('#' :: ' ' :: parts.flatten)) = readLine inRule ('#' :: ' ' :: parts.flatten)
      rw [cut,readLine_comment (getLast_other (by simpa using rest)),readLine_comment (getLast_other (by simpa using whole))]

theorem steady_append (front : List Char) {rest : List Char} (some : rest ≠ []) (tight : trimEnd rest = rest) :
    Steady (front ++ rest) := by
  refine Steady.of_same ?_
  rw [trimEnd_append front (by rwa [tight]),tight]

theorem Call.Formed.steady {c : Call} (formed : c.Formed) (tidy : c.Tidy) : ∀ l ∈ c.lines, Steady l := by
  have empty : Steady [] := Steady.of_same rfl
  cases formed with
  | comments remark => exact remark_steady remark
  | @includes filename comment fatal named present remark =>
    have some : filename ≠ [] := by
      rintro rfl
      exact present rfl
    intro l member
    rcases List.mem_append.mp member with member | member
    · exact remark_steady (by simpa using remark) l member
    · rw [List.mem_singleton.mp member]
      exact steady_append _ some tidy
  | @env key value comment named given remark =>
    intro l member
    rcases List.mem_append.mp member with member | member
    · exact remark_steady (by simpa using remark) l member
    · rcases List.mem_cons.mp member with rfl | member
      · by_cases none : value = []
        · subst none
          have spaced : trimEnd (asciiStrToUpper key ++ [' ','='] ++ [' ']) = trimEnd (asciiStrToUpper key ++ [' ','=']) :=
            trimEnd_space _ (by decide)
          have kept : trimEnd (asciiStrToUpper key ++ [' ','=']) = asciiStrToUpper key ++ [' ','='] :=
            trimEnd_append _ (by decide)
          have line : asciiStrToUpper key ++ [' ','=',' '] ++ [] = asciiStrToUpper key ++ [' ','='] ++ [' '] := by simp
          rw [line]
          refine fun inRule => ⟨fun nothing => ?_,fun _ => ?_⟩
          · rw [spaced,kept] at nothing
            simp at nothing
          · rw [spaced,kept,List.append_assoc]
            have short := readLine_assignment named List.not_mem_nil (by decide) inRule
            have long := readLine_assignment named (show '#' ∉ [' '] by decide) (by decide) inRule
            exact short.trans long.symm
        · exact steady_append _ none tidy
      · rw [List.mem_singleton.mp member]
        exact empty
  | @target name deps cmds comment phony named waits runs remark =>
    obtain ⟨tightName,tightDeps,tightCmds⟩ := tidy
    intro l member
    simp only [Call.lines,List.mem_append,List.mem_map,List.mem_singleton] at member
    rcases member with ((((member | ⟨dep,inside,rfl⟩) | rfl) | ⟨stmt,inside,rfl⟩) | member) | rfl
    · exact remark_steady (by simpa using remark) l member
    · exact steady_append _ (tightDeps dep inside).1 (tightDeps dep inside).2
    · exact steady_append name (by simp) (by decide)
    · exact steady_append ['\t'] (tightCmds stmt inside).1 (tightCmds stmt inside).2
    · cases phony with
      | false => simp at member
      | true =>
        rw [if_pos rfl,List.mem_singleton] at member
        subst member
        obtain ⟨ch,rest,same,-⟩ := named.starts
        exact steady_append _ (by simp [same]) tightName
    · exact empty

theorem header_tight : ∀ l ∈ headerLines, '\n' ∉ l ∧ (trimEnd l = l ∨ l = [' ',' ']) := by decide +kernel

theorem header_steady : ∀ l ∈ headerLines, Steady l := by
  intro l member
  rcases (header_tight l member).2 with same | rfl
  · exact Steady.of_same same
  · exact fun inRule => ⟨fun _ => by cases inRule <;> rfl,fun some => absurd rfl some⟩

theorem text_read {calls : List Call} (formed : ∀ c ∈ calls, c.Formed) :
    read (text calls) = some (headerItems ++ calls.flatMap Call.items) := by
  have plain : ∀ l ∈ headerLines ++ calls.flatMap Call.lines, '\n' ∉ l := by
    intro l member
    rcases List.mem_append.mp member with member | member
    · exact (header_tight l member).1
    · obtain ⟨c,inside,own⟩ := List.mem_flatMap.mp member
      exact (formed c inside).newline l own
  obtain ⟨last,rest⟩ := calls_read formed true
  rw [MakeSyntax.read,text,lines_unlines plain,readLines_append headerLines_read rest]
  rfl

theorem Call.Formed.visible {c : Call} (formed : c.Formed) (prints : c.prints = true) : ∃ l ∈ c.lines, trimEnd l ≠ [] := by
  have starts {ch : Char} {rest : List Char} (other : isSpace ch = false) : trimEnd (ch :: rest) ≠ [] := by
    intro blank
    have space := trimEnd_eq_nil.mp blank ch List.mem_cons_self
    rw [other] at space
    contradiction
  cases formed with
  | @comments parts remark =>
    have text : parts.flatten.length ≠ 0 := of_decide_eq_true prints
    refine ⟨['#',' '] ++ parts.flatten,?_,starts (by decide)⟩
    rw [Call.lines,Call.lines.commented,if_neg text]
    exact List.mem_cons_self
  | @includes filename comment fatal named present remark =>
    refine ⟨_,List.mem_append_right _ List.mem_cons_self,?_⟩
    cases fatal
    · exact starts (by decide)
    · exact starts (by decide)
  | @env key value comment named given remark =>
    refine ⟨_,List.mem_append_right _ List.mem_cons_self,fun blank => ?_⟩
    have space := trimEnd_eq_nil.mp blank '=' (by simp)
    contradiction
  | @target name deps cmds comment phony named waits runs remark =>
    refine ⟨name ++ [':'],by simp [Call.lines],fun blank => ?_⟩
    have space := trimEnd_eq_nil.mp blank ':' (by simp)
    contradiction

theorem mem_of_blank_after {xs ys before after : List (List Char)} {l m : List Char} (same : xs ++ ys = before ++ l :: after)
    (blank : ∀ l' ∈ after, trimEnd l' = []) (member : m ∈ ys) (visible : trimEnd m ≠ []) : l ∈ ys := by
  rcases List.append_eq_append_iff.mp same with ⟨rest,-,later⟩ | ⟨rest,-,earlier⟩
  · rw [later]
    exact List.mem_append_right _ List.mem_cons_self
  · cases rest with
    | nil =>
      rw [← show l :: after = ys from earlier]
      exact List.mem_cons_self
    | cons first rest =>
      obtain ⟨-,rfl⟩ := List.cons.inj earlier
      exact absurd (blank m (List.mem_append_right _ member)) visible

/-- The lines at the end of a makefile are those of its last call. -/
theorem Sound.steady {calls : List Call} (sound : Sound calls) (before : List (List Char)) (l : List Char)
    (after : List (List Char)) (same : headerLines ++ calls.flatMap Call.lines = before ++ l :: after)
    (blank : ∀ l' ∈ after, trimEnd l' = []) : Steady l := by
  obtain ⟨formed,closed⟩ := sound
  induction calls using List.reverseRecOn with
  | nil =>
    have member : l ∈ headerLines := by
      rw [List.flatMap_nil,List.append_nil] at same
      rw [same]
      exact List.mem_append_right _ List.mem_cons_self
    exact header_steady l member
  | append_singleton calls c ih =>
    rw [List.flatMap_append,List.flatMap_singleton,← List.append_assoc] at same
    have own := formed c (List.mem_append_right _ List.mem_cons_self)
    cases prints : c.prints with
    | true =>
      obtain ⟨m,member,visible⟩ := own.visible prints
      refine own.steady (closed c ?_) l (mem_of_blank_after same blank member visible)
      simp [List.filter_append,prints]
    | false =>
      have nothing : c.lines = [] := by
        cases c with
        | comments parts =>
          have empty : parts.flatten.length = 0 := by simpa [Call.prints] using prints
          exact if_pos empty
        | _ => contradiction
      rw [nothing,List.append_nil] at same
      refine ih same (fun c' member => formed c' (List.mem_append_left _ member)) fun c' member => closed c' ?_
      simpa [List.filter_append,prints] using member

theorem Sound.read_trimEnd {calls : List Call} (sound : Sound calls) : read (trimEnd (text calls)) = read (text calls) := by
  refine MakeSyntax.read_trimEnd (fun l member => ?_) sound.steady
  rcases List.mem_append.mp member with member | member
  · exact (header_tight l member).1
  · obtain ⟨c,inside,own⟩ := List.mem_flatMap.mp member
    exact (sound.formed c inside).newline l own

/-- A makefile starts with a comment, so that only its end is trimmed. -/
theorem text_trim (calls : List Call) : trimCopy (text calls) = trimEnd (text calls) := by
  have starts : ∃ rest, text calls = '#' :: rest := ⟨_,rfl⟩
  obtain ⟨rest,same⟩ := starts
  have cut : ∃ rest', trimEnd ('#' :: rest) = '#' :: rest' := by
    have prefixed := List.rdropWhile_prefix isSpace ('#' :: rest)
    cases trimmed : trimEnd ('#' :: rest) with
    | nil =>
      have space := trimEnd_eq_nil.mp trimmed '#' List.mem_cons_self
      exact absurd space (by decide)
    | cons ch rest' =>
      rw [← trimEnd,trimmed] at prefixed
      obtain rfl := (List.cons_prefix_cons.mp prefixed).1
      exact ⟨rest',rfl⟩
  obtain ⟨rest',trimmed⟩ := cut
  rw [trimCopy,trim,same,trimmed]
  rfl

/-- Texts that the writer takes for the same mean the same to make. -/
theorem read_of_trim {calls calls' : List Call} (sound : Sound calls) (sound' : Sound calls')
    (same : trimCopy (text calls) = trimCopy (text calls')) : read (text calls) = read (text calls') := by
  rw [text_trim,text_trim] at same
  rw [← sound.read_trimEnd,← sound'.read_trimEnd,same]

/-- All writers of a makefile end with one text, and make reads in it what was asked for. -/
theorem generated_read (path : Destination) (factories : Nat) (calls : List Call) (formed : ∀ c ∈ calls, c.Formed) :
    (Makefile.generate path factories calls).writers = List.replicate factories ⟨some path,text calls⟩ ∧
      read (text calls) = some (headerItems ++ calls.flatMap Call.items) := by
  rw [generate_filled]
  exact ⟨rfl,text_read formed⟩

/-- A variable and an archive as a library has them, with one flag open. -/
def archiveCalls (flag : String) : List Call :=
  [.env "cxxflags".toList flag.toList "Flags.".toList,
    .target "DEBUG/lib.a".toList ["a.o".toList,"b.o".toList] [[⟨"@$(AR)".toList,false⟩,⟨"DEBUG/lib.a".toList,false⟩]] [] true]

theorem archiveCalls_sound {flag : String} (given : Value flag.toList) : Sound (archiveCalls flag) := by
  have key : Key (asciiStrToUpper "cxxflags".toList) := by
    refine ⟨by decide +kernel,by decide +kernel,by decide +kernel,by decide +kernel,fun ch last => ?_⟩
    have same : 'S' = ch := Option.some.inj last
    subst same
    decide +kernel
  have heads : Heads "DEBUG/lib.a".toList := ⟨by decide +kernel,⟨'D',_,rfl,by decide +kernel⟩,by decide +kernel,by decide +kernel⟩
  have command : Command (stringify [⟨"@$(AR)".toList,false⟩,⟨"DEBUG/lib.a".toList,false⟩]) := ⟨by decide +kernel,by decide +kernel⟩
  constructor
  · intro c member
    rcases List.mem_cons.mp member with rfl | member
    · exact .env key given (by decide +kernel)
    · rw [List.mem_singleton.mp member]
      exact .target heads (by decide +kernel) (fun stmt inside => List.mem_singleton.mp inside ▸ command) (by decide +kernel)
  · intro c member
    obtain rfl := Option.some.inj member
    exact ⟨by decide +kernel,by decide +kernel,by decide +kernel⟩

theorem archive_read : read (text (archiveCalls "-O2")) = some (headerItems ++
    [.assignment "CXXFLAGS".toList "-O2".toList,.rule ["DEBUG/lib.a".toList] ["a.o".toList],
      .rule ["DEBUG/lib.a".toList] ["b.o".toList],.rule ["DEBUG/lib.a".toList] [],
      .recipe "@$(AR) DEBUG/lib.a".toList,.rule [".PHONY".toList] ["DEBUG/lib.a".toList]]) := by
  have sound : Sound (archiveCalls "-O2") := archiveCalls_sound ⟨by decide +kernel,by decide +kernel,by decide +kernel⟩
  have spec := (generated_read ⟨"build.make",["lib@DEFAULT"]⟩ 2 (archiveCalls "-O2") sound.formed).2
  rw [spec]
  decide +kernel

end Reading

section Regeneration

/-- One run of the generator after another, each for the same makefile. -/
def regenerate (path : Destination) (factories : Nat) (t : Disk) (runs : List (List Call)) :
    Except AssumeFolder.Fault Disk :=
  runs.foldlM (fun t calls => (Makefile.generate path factories calls).close t) t

/-- The makefile on disk is from some run, and as good to a writer as that of these calls. -/
structure Current (asked : List Call → Prop) (path : Destination) (calls : List Call) (t : Disk) : Prop where
  clear : ∀ q, ¬t.Blocks q path.folder
  there : ∃ earlier, asked earlier ∧ trimCopy (text earlier) = trimCopy (text calls) ∧
    t.entry path.path = some (.file (text earlier))

/-- What another makefile would leave at its place, and nothing anywhere else but its folders. -/
def Apart (path : Destination) (t t' : Disk) : Prop :=
  ∀ q, q ≠ path.path → ¬q <:+ path.folder → t'.entry q = t.entry q

/-- Nothing, or a makefile of an earlier run. -/
def Ready (asked : List Call → Prop) (path : Destination) (t : Disk) : Prop :=
  (∀ q, ¬t.Blocks q path.folder) ∧ t.entry path.path = none ∨ ∃ calls, Current asked path calls t

variable {path : Destination} {t t' : Disk} {asked : List Call → Prop}

theorem Current.unblocked {calls : List Call} (entries : ∀ q, t'.entry q =
      if q = path.path then some (settled (t.entry path.path) (text calls))
      else if q <:+ path.folder then some .directory else t.entry q) : ∀ q, ¬t'.Blocks q path.folder := by
  rintro q ⟨above,content,file⟩
  have apart : q ≠ path.path := by
    rintro rfl
    exact path_not_suffix path above
  rw [entries,if_neg apart,if_pos above] at file
  cases file

theorem Ready.settled {calls : List Call} (own : asked calls) (ready : Ready asked path t) :
    ∃ earlier, asked earlier ∧ trimCopy (text earlier) = trimCopy (text calls) ∧
      FileWriter.settled (t.entry path.path) (text calls) = .file (text earlier) := by
  rcases ready with ⟨-,none⟩ | ⟨_,current⟩
  · exact ⟨calls,own,rfl,by rw [none]; rfl⟩
  · obtain ⟨earlier,before,-,file⟩ := current.there
    rw [file]
    by_cases same : trimCopy (text earlier) = trimCopy (text calls)
    · exact ⟨earlier,before,same,by rw [FileWriter.settled,if_pos same]⟩
    · exact ⟨calls,own,rfl,by rw [FileWriter.settled,if_neg same]⟩

theorem Ready.clear (ready : Ready asked path t) : ∀ q, ¬t.Blocks q path.folder := by
  rcases ready with ⟨clear,-⟩ | ⟨_,current⟩
  · exact clear
  · exact current.clear

/-- Make reads in a makefile of an earlier run what was asked for, where that is as good. -/
theorem earlier_read {calls earlier : List Call} (sound : Sound calls) (soundEarlier : Sound earlier)
    (same : trimCopy (text earlier) = trimCopy (text calls)) (file : t.entry path.path = some (.file (text earlier))) :
    ∃ content, t.readFile path.path = some content ∧
      MakeSyntax.read content = some (headerItems ++ calls.flatMap Call.items) := by
  refine ⟨text earlier,by simp [FolderTree.Tree.readFile,file],?_⟩
  rw [read_of_trim soundEarlier sound same,text_read sound.formed]

theorem Ready.read {calls : List Call} (sound : Sound calls) (ready : Ready Sound path t)
    (here : t'.entry path.path = some (FileWriter.settled (t.entry path.path) (text calls))) :
    ∃ content, t'.readFile path.path = some content ∧
      MakeSyntax.read content = some (headerItems ++ calls.flatMap Call.items) := by
  obtain ⟨earlier,soundEarlier,same,file⟩ := ready.settled sound
  exact earlier_read sound soundEarlier same (here.trans (congrArg some file))

theorem Current.read {calls : List Call} (sound : Sound calls) (current : Current Sound path calls t) :
    ∃ content, t.readFile path.path = some content ∧
      MakeSyntax.read content = some (headerItems ++ calls.flatMap Call.items) := by
  obtain ⟨earlier,soundEarlier,same,file⟩ := current.there
  exact earlier_read sound soundEarlier same file

theorem Ready.kept (ready : Ready asked path t) (clear : ∀ q, ¬t'.Blocks q path.folder)
    (same : t'.entry path.path = t.entry path.path) : Ready asked path t' := by
  rcases ready with ⟨-,none⟩ | ⟨calls,current⟩
  · exact .inl ⟨clear,same.trans none⟩
  · obtain ⟨earlier,before,equal,file⟩ := current.there
    exact .inr ⟨calls,clear,earlier,before,equal,same.trans file⟩

theorem Apart.readFile {q : AssumeFolder.FilePath} (apart : Apart path t t') (before : ∀ q, ¬t.Blocks q path.folder)
    (after : ∀ q, ¬t'.Blocks q path.folder) (other : q ≠ path.path) : t'.readFile q = t.readFile q := by
  by_cases above : q <:+ path.folder
  · rw [readFile_above above before,readFile_above above after]
  · rw [FolderTree.Tree.readFile,FolderTree.Tree.readFile,apart q other above]

theorem flush_current {calls : List Call} (own : asked calls) (ready : Ready asked path t) :
    ∃ t', flush t path (text calls) = .ok t' ∧ Current asked path calls t' ∧ Apart path t t' := by
  obtain ⟨t',flushed,entries⟩ := (flush_spec t path (text calls)).2 ready.clear
  obtain ⟨earlier,before,same,file⟩ := ready.settled own
  have here : t'.entry path.path = some (.file (text earlier)) := by simp [entries,file]
  refine ⟨t',flushed,⟨Current.unblocked entries,earlier,before,same,here⟩,fun q apart other => ?_⟩
  rw [entries,if_neg apart,if_neg other]

/-- A text that says the same as the one on disk is not written. -/
theorem flush_same {calls calls' : List Call} (current : Current asked path calls t)
    (same : trimCopy (text calls) = trimCopy (text calls')) : flush t path (text calls') = .ok t := by
  obtain ⟨earlier,-,equal,file⟩ := current.there
  obtain ⟨t',flushed,entries⟩ := (flush_spec t path (text calls')).2 current.clear
  have unchanged : t' = t := by
    apply FolderTree.Tree.ext
    funext q
    rw [entries]
    split
    · next here => rw [here,file,settled,if_pos (equal.trans same)]
    · split
      · next apart above =>
        have present : t.entry path.path ≠ none := by simp [file]
        exact (t.above_directory present (above.trans (List.suffix_cons _ _)) apart).symm
      · rfl
  rw [flushed,unchanged]

theorem close_filled (factories : Nat) (content : List Char) : (filled path (factories + 1) content).close t =
    (flush t path content).bind fun t' => (filled path factories content).close t' := by
  simp only [filled,Makefile.close,List.replicate_succ,List.foldlM_cons]
  rfl

theorem close_same {calls calls' : List Call} (factories : Nat) (current : Current asked path calls t)
    (same : trimCopy (text calls) = trimCopy (text calls')) : (filled path factories (text calls')).close t = .ok t := by
  induction factories with
  | zero => rfl
  | succ factories ih => rw [close_filled,flush_same current same,Except.bind,ih]

theorem close_current {calls : List Call} (own : asked calls) (ready : Ready asked path t) (factories : Nat) :
    ∃ t', (Makefile.generate path (factories + 1) calls).close t = .ok t' ∧ Current asked path calls t' ∧ Apart path t t' := by
  obtain ⟨t',flushed,current,apart⟩ := flush_current own ready
  exact ⟨t',by rw [generate_filled,close_filled,flushed,Except.bind,close_same factories current rfl],current,apart⟩

theorem regenerate_current (factories : Nat) (runs : List (List Call)) (ready : Ready asked path t)
    (all : ∀ calls ∈ runs, asked calls) : ∃ t', regenerate path (factories + 1) t runs = .ok t' ∧ Apart path t t' ∧
      ∀ last, runs.getLast? = some last → Current asked path last t' := by
  induction runs generalizing t with
  | nil => exact ⟨t,rfl,fun _ _ _ => rfl,by simp⟩
  | cons calls runs ih =>
    obtain ⟨middle,closed,current,first⟩ := close_current (all calls List.mem_cons_self) ready factories
    obtain ⟨t',rest,later,latest⟩ := ih (.inr ⟨calls,current⟩) fun c member => all c (List.mem_cons_of_mem _ member)
    refine ⟨t',?_,fun q apart other => (later q apart other).trans (first q apart other),fun last is => ?_⟩
    · rw [regenerate,List.foldlM_cons,closed]
      exact rest
    · cases runs with
      | nil =>
        obtain rfl := Option.some.inj is
        obtain rfl := Except.ok.inj rest
        exact current
      | cons => exact latest last (by simpa using is)

/-- Whatever runs there have been, make reads on disk what some run asked for whose text is that
of the last one but for white space at the end. Where no run leaves such white space, this is
what the last one asked for. Another run that says the same writes nothing. -/
theorem regenerated_read (asked : List Call → Prop) (formed : ∀ calls, asked calls → ∀ c ∈ calls, c.Formed)
    (path : Destination) (factories : Nat) (t : Disk) (ready : Ready asked path t) (runs : List (List Call))
    (all : ∀ calls ∈ runs, asked calls) (last : List Call) (latest : runs.getLast? = some last) :
    ∃ t' earlier, regenerate path (factories + 1) t runs = .ok t' ∧ Apart path t t' ∧
      asked earlier ∧ trimCopy (text earlier) = trimCopy (text last) ∧ t'.readFile path.path = some (text earlier) ∧
      read (text earlier) = some (headerItems ++ earlier.flatMap Call.items) ∧
      ((∀ calls, asked calls → Closed calls) → read (text earlier) = some (headerItems ++ last.flatMap Call.items)) ∧
      ∀ again, trimCopy (text last) = trimCopy (text again) → regenerate path (factories + 1) t' [again] = .ok t' := by
  obtain ⟨t',done,apart,current⟩ := regenerate_current factories runs ready all
  have current := current last latest
  obtain ⟨earlier,own,same,file⟩ := current.there
  have formedLast := formed last (all last (List.mem_of_getLast? latest))
  refine ⟨t',earlier,done,apart,own,same,by simp [FolderTree.Tree.readFile,file],text_read (formed earlier own),?_,?_⟩
  · intro closed
    rw [read_of_trim ⟨formed earlier own,closed earlier own⟩
      ⟨formedLast,closed last (all last (List.mem_of_getLast? latest))⟩ same,text_read formedLast]
  · intro again equal
    rw [regenerate,List.foldlM_cons,generate_filled,close_same _ current equal]
    rfl

/-- Where they do, a value keeps its blank: the second text is not written. -/
example : (regenerate ⟨"flags.make",[]⟩ 1 .empty [[.env ['A'] ['x',' '] []],[.env ['A'] ['x'] []]]).toOption.bind
    (·.readFile ["flags.make"]) = some (text [.env ['A'] ['x',' '] []]) := by decide +kernel

theorem flags_regenerated : ∃ t' content, regenerate ⟨"build.make",["lib@DEFAULT"]⟩ 1 .empty
      [archiveCalls "-O2",archiveCalls "-O3",archiveCalls "-O3"] = .ok t' ∧
    t'.readFile ["build.make","lib@DEFAULT"] = some content ∧
    read content = some (headerItems ++ (archiveCalls "-O3").flatMap Call.items) := by
  have clear : Ready Sound ⟨"build.make",["lib@DEFAULT"]⟩ .empty := by
    refine .inl ⟨?_,rfl⟩
    rintro q ⟨-,content,file⟩
    cases q <;> cases file
  have sound (flag : String) (member : flag ∈ ["-O2","-O3","-O3"]) : Sound (archiveCalls flag) := by
    simp only [List.mem_cons,List.not_mem_nil,or_false] at member
    rcases member with rfl | rfl | rfl <;> exact archiveCalls_sound ⟨by decide +kernel,by decide +kernel,by decide +kernel⟩
  obtain ⟨t',earlier,done,-,-,-,file,-,meant,-⟩ := regenerated_read Sound (fun calls sound => sound.formed)
    ⟨"build.make",["lib@DEFAULT"]⟩ 0 .empty clear (["-O2","-O3","-O3"].map archiveCalls) (fun calls member => by
      obtain ⟨flag,inside,rfl⟩ := List.mem_map.mp member
      exact sound flag inside) (archiveCalls "-O3") rfl
  exact ⟨t',text earlier,done,file,meant fun calls sound => sound.closed⟩

end Regeneration

end JkBuild.MakefileText
