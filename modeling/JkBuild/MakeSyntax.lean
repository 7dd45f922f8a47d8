import JkBuild.TextLines

/-! A reader for a part of the makefile language: assignments, inclusions, rules and recipes as
they are written, before any reference is expanded. It has no answer for lines of other forms. -/
namespace JkBuild.MakeSyntax

open TextLines

inductive Item where
  | assignment (name value : List Char)
  | inclusion (files : List (List Char)) (fatal : Bool)
  | rule (targets prerequisites : List (List Char))
  /-- A line in the recipe of the rule before it. -/
  | recipe (command : List Char)
  deriving DecidableEq, Repr

def isBlank (ch : Char) : Bool := ch ∈ [' ','\t']

def wordsFrom (word : List Char) : List Char → List (List Char)
  | [] => if word = [] then [] else [word]
  | ch :: rest =>
    if isBlank ch then (if word = [] then [] else [word]) ++ wordsFrom [] rest else wordsFrom (word ++ [ch]) rest

def words (text : List Char) : List (List Char) := wordsFrom [] text

def firstWord (text : List Char) : List Char := text.takeWhile fun ch => !isBlank ch

/-- First words that make a line something else than a rule. -/
def directives : List (List Char) :=
  ["define","endef","undefine","ifdef","ifndef","ifeq","ifneq","else","endif","sinclude","override","export",
    "unexport","private","vpath","load","-load"].map String.toList

def including (fatal : Bool) : List Char := if fatal then "include".toList else "-include".toList

def keywords : List (List Char) := including true :: including false :: directives

def isSeparator (ch : Char) : Bool := ch ∈ [':','=']

/-- Characters with a meaning of their own in what a rule waits for. -/
def isSpecial (ch : Char) : Bool := ch ∈ [':','=',';','|','$','\\','#']

/-- What stands before a separator, which is not inside a reference. -/
def leads (before : List Char) : Bool :=
  '\\' ∉ before && before.count '(' = before.count ')' && before.count '\x7b' = before.count '\x7d' &&
    ('$' ∉ before || (words before).length = 1)

/-- An assignment has one name. The other operators of make end in the same sign. -/
def readAssignment (before after : List Char) : Option Item :=
  match words before with
  | [name] =>
    if leads before && name.getLast?.all fun ch => ch ∉ ['?','+','!'] then
      some (.assignment name (after.dropWhile isBlank))
    else none
  | _ => none

def readInclusion (fatal : Bool) (rest : List Char) : Option Item :=
  if words rest = [] || rest.any isSpecial then none else some (.inclusion (words rest) fatal)

def readRule (before after : List Char) : Option Item :=
  if words before = [] || !leads before || after.any isSpecial then none else some (.rule (words before) (words after))

/-- A line that is neither blank nor a comment nor part of a recipe, from its first word on. -/
def readStatement (text : List Char) : Option Item :=
  let before := text.takeWhile fun ch => !isSeparator ch
  match text.dropWhile fun ch => !isSeparator ch with
  | [] =>
    if firstWord text = including true then readInclusion true (text.dropWhile fun ch => !isBlank ch)
    else if firstWord text = including false then readInclusion false (text.dropWhile fun ch => !isBlank ch)
    else none
  | separator :: after =>
    if separator = '=' then readAssignment before after
    else if firstWord text ∈ keywords then none
    else readRule before after

/-- What a line says, and whether a recipe can go on after it. -/
def readLine (inRule : Bool) (line : List Char) : Option (List Item × Bool) :=
  if line.getLast? = some '\\' then none
  else if line.head? = some '\t' then
    if inRule then some ([.recipe line.tail],true) else none
  else
    let text := line.dropWhile isBlank
    if text = [] ∨ text.head? = some '#' then some ([],inRule)
    else if '#' ∈ text then none
    else
      match readStatement text with
      | some (.rule targets prerequisites) => some ([.rule targets prerequisites],true)
      | some item => some ([item],false)
      | none => none

def readLines (inRule : Bool) : List (List Char) → Option (List Item × Bool)
  | [] => some ([],inRule)
  | line :: ls =>
    match readLine inRule line with
    | none => none
    | some (items,inRule') =>
      match readLines inRule' ls with
      | none => none
      | some (more,last) => some (items ++ more,last)

def read (text : List Char) : Option (List Item) := (readLines false (lines text)).map Prod.fst

section Lines

theorem readLines_append {ls ls' : List (List Char)} {items more : List Item} {before middle last : Bool}
    (first : readLines before ls = some (items,middle)) (second : readLines middle ls' = some (more,last)) :
    readLines before (ls ++ ls') = some (items ++ more,last) := by
  induction ls generalizing before items with
  | nil =>
    obtain ⟨rfl,rfl⟩ := Prod.mk.inj (Option.some.inj first)
    exact second
  | cons l ls ih =>
    rw [List.cons_append]
    unfold readLines at first ⊢
    cases head : readLine before l with
    | none => simp [head] at first
    | some result =>
      obtain ⟨own,inRule⟩ := result
      simp only [head] at first ⊢
      cases rest : readLines inRule ls with
      | none => simp [rest] at first
      | some result =>
        obtain ⟨others,end'⟩ := result
        simp only [rest] at first
        obtain ⟨rfl,rfl⟩ := Prod.mk.inj (Option.some.inj first)
        rw [ih rest]
        simp

theorem readLines_single {line : List Char} {items : List Item} {before last : Bool}
    (only : readLine before line = some (items,last)) : readLines before [line] = some (items,last) := by
  simp [readLines,only]

/-- White space at the end of such a line says nothing. -/
def Steady (l : List Char) : Prop := ∀ inRule,
  (trimEnd l = [] → readLine inRule l = some ([],inRule)) ∧ (trimEnd l ≠ [] → readLine inRule (trimEnd l) = readLine inRule l)

theorem readLines_blank {ls : List (List Char)} (steady : ∀ l ∈ ls, Steady l) (blank : ∀ l ∈ ls, trimEnd l = [])
    (inRule : Bool) : readLines inRule ls = some ([],inRule) := by
  induction ls with
  | nil => rfl
  | cons l ls ih =>
    have first := (steady l List.mem_cons_self inRule).1 (blank l List.mem_cons_self)
    have rest := ih (fun l' member => steady l' (List.mem_cons_of_mem _ member))
      fun l' member => blank l' (List.mem_cons_of_mem _ member)
    simp [readLines,first,rest]

theorem readLines_congr {l l' : List Char} (same : ∀ inRule, readLine inRule l = readLine inRule l') (inRule : Bool)
    (before : List (List Char)) : readLines inRule (before ++ [l]) = readLines inRule (before ++ [l']) := by
  induction before generalizing inRule with
  | nil => simp [readLines,same]
  | cons first before ih => simp [readLines,ih]

theorem readLines_drop {after : List (List Char)} (silent : ∀ inRule, readLines inRule after = some ([],inRule)) (inRule : Bool)
    (before : List (List Char)) : readLines inRule (before ++ after) = readLines inRule before := by
  induction before generalizing inRule with
  | nil => simp [readLines,silent]
  | cons first before ih => simp [readLines,ih]

/-- A text can be cut at its end where the lines there are steady. -/
theorem read_trimEnd {ls : List (List Char)} (plain : ∀ l ∈ ls, '\n' ∉ l)
    (steady : ∀ before l after, ls = before ++ l :: after → (∀ l' ∈ after, trimEnd l' = []) → Steady l) :
    read (trimEnd (unlines ls)) = read (unlines ls) := by
  have ending : ∀ before after : List (List Char), ls = before ++ after → (∀ l ∈ after, trimEnd l = []) →
      ∀ l ∈ after, Steady l := by
    intro before after same blank l member
    obtain ⟨front,back,rfl⟩ := List.append_of_mem member
    refine steady (before ++ front) l back (by rw [same,List.append_assoc]) fun l' inside => blank l' ?_
    exact List.mem_append_right _ (List.mem_cons_of_mem _ inside)
  unfold read
  rw [lines_unlines plain]
  rcases trimEnd_unlines ls with ⟨nothing,all⟩ | ⟨before,l,after,rfl,blank,some,same⟩
  · rw [nothing,readLines_blank (ending [] ls rfl all) all]
    rfl
  · have cut : '\n' ∉ trimEnd l := fun member =>
      plain l (by simp) ((List.rdropWhile_prefix isSpace l).subset member)
    rw [same,lines_unlines_append fun l' member => plain l' (by simp [member]),lines_single cut some]
    have silent := readLines_blank (ending (before ++ [l]) after (by simp) blank) blank
    rw [List.append_cons before l after,readLines_drop silent]
    rw [readLines_congr fun inRule => (steady before l after rfl blank inRule).2 some]

end Lines

section Forms

def isPlain (ch : Char) : Bool := !isSpecial ch && !isSpace ch || ch = ' '

/-- Names of files with blanks between them. -/
def Names (text : List Char) : Prop := text.all isPlain = true

instance (text : List Char) : Decidable (Names text) := inferInstanceAs (Decidable (_ = _))

theorem Names.plain {text : List Char} (names : Names text) : ∀ ch ∈ text, isPlain ch = true := List.all_eq_true.mp names

/-- What a rule can be for. -/
structure Heads (text : List Char) : Prop where
  names : Names text
  starts : ∃ ch rest, text = ch :: rest ∧ ch ≠ ' '
  balanced : text.count '(' = text.count ')' ∧ text.count '\x7b' = text.count '\x7d'
  word : firstWord text ∉ keywords

structure Key (name : List Char) : Prop where
  names : Names name
  solid : ' ' ∉ name
  nonempty : name ≠ []
  balanced : name.count '(' = name.count ')' ∧ name.count '\x7b' = name.count '\x7d'
  operator : ∀ ch, name.getLast? = some ch → ch ∉ ['?','+','!']

/-- What a variable can stand for: the rest of a line. -/
structure Value (text : List Char) : Prop where
  hash : '#' ∉ text
  line : '\n' ∉ text
  continues : text.getLast? ≠ some '\\'

theorem heads_iff (text : List Char) : Heads text ↔ Names text ∧ text.headD ' ' ≠ ' ' ∧
    (text.count '(' = text.count ')' ∧ text.count '\x7b' = text.count '\x7d') ∧ keywords.contains (firstWord text) = false := by
  constructor
  · rintro ⟨names,⟨ch,rest,rfl,solid⟩,balanced,word⟩
    exact ⟨names,solid,balanced,by simpa using word⟩
  · rintro ⟨names,solid,balanced,word⟩
    refine ⟨names,?_,balanced,by simpa using word⟩
    cases text with
    | nil => exact absurd rfl solid
    | cons ch rest => exact ⟨ch,rest,rfl,solid⟩

instance (text : List Char) : Decidable (Heads text) := decidable_of_iff _ (heads_iff text).symm

theorem key_iff (name : List Char) : Key name ↔ Names name ∧ ' ' ∉ name ∧ name ≠ [] ∧
    (name.count '(' = name.count ')' ∧ name.count '\x7b' = name.count '\x7d') ∧
    name.getLast?.all (fun ch => !(['?','+','!'].contains ch)) = true := by
  constructor
  · rintro ⟨names,solid,nonempty,balanced,operator⟩
    exact ⟨names,solid,nonempty,balanced,by simpa [Option.all_eq_true] using operator⟩
  · rintro ⟨names,solid,nonempty,balanced,operator⟩
    exact ⟨names,solid,nonempty,balanced,by simpa [Option.all_eq_true] using operator⟩

instance (name : List Char) : Decidable (Key name) := decidable_of_iff _ (key_iff name).symm

instance (text : List Char) : Decidable (Value text) :=
  decidable_of_iff ('#' ∉ text ∧ '\n' ∉ text ∧ text.getLast? ≠ some '\\')
    ⟨fun ⟨hash,line,continues⟩ => ⟨hash,line,continues⟩,fun ⟨hash,line,continues⟩ => ⟨hash,line,continues⟩⟩

theorem isPlain_special {ch : Char} (plain : isPlain ch = true) : isSpecial ch = false := by
  by_cases blank : ch = ' '
  · subst blank
    decide
  · simp [isPlain,blank] at plain
    exact plain.1

theorem isPlain_cases {ch : Char} (plain : isPlain ch = true) : ch = ' ' ∨ isBlank ch = false ∧ isSpace ch = false := by
  by_cases blank : ch = ' '
  · exact .inl blank
  · simp only [isPlain,blank,decide_false,Bool.or_false,Bool.and_eq_true,Bool.not_eq_true'] at plain
    refine .inr ⟨?_,plain.2⟩
    have spaces := plain.2
    simp only [isSpace,isBlank,List.mem_cons,List.not_mem_nil,or_false,decide_eq_false_iff_not,not_or] at spaces ⊢
    exact ⟨spaces.1,spaces.2.1⟩

theorem not_special {ch : Char} (special : isSpecial ch = false) : ch ≠ ':' ∧ ch ≠ '=' ∧ ch ≠ ';' ∧ ch ≠ '|' ∧ ch ≠ '$' ∧
    ch ≠ '\\' ∧ ch ≠ '#' := by
  simpa [isSpecial] using special

theorem Names.special {text : List Char} (names : Names text) : text.any isSpecial = false := by
  rw [List.any_eq_false]
  intro ch member
  simp [isPlain_special (names.plain ch member)]

theorem Names.separators {text : List Char} (names : Names text) : ∀ ch ∈ text, (!isSeparator ch) = true := by
  intro ch member
  have plain := not_special (isPlain_special (names.plain ch member))
  simp [isSeparator,plain.1,plain.2.1]

theorem Names.not_mem {text : List Char} (names : Names text) {ch : Char} (special : isSpecial ch = true) : ch ∉ text := by
  intro member
  rw [isPlain_special (names.plain ch member)] at special
  contradiction

theorem wordsFrom_word {word : List Char} (solid : ∀ ch ∈ word, isBlank ch = false) (before : List Char) :
    wordsFrom before word = if before ++ word = [] then [] else [before ++ word] := by
  induction word generalizing before with
  | nil => simp [wordsFrom]
  | cons ch word ih =>
    have own := solid ch List.mem_cons_self
    simp [wordsFrom,own,ih (fun c member => solid c (List.mem_cons_of_mem _ member))]

theorem words_word {word : List Char} (solid : ∀ ch ∈ word, isBlank ch = false) (nonempty : word ≠ []) :
    words word = [word] := by
  simp [words,wordsFrom_word solid,nonempty]

theorem wordsFrom_ne {before text : List Char} (nonempty : before ≠ []) : wordsFrom before text ≠ [] := by
  induction text generalizing before with
  | nil => simp [wordsFrom,nonempty]
  | cons c text ih =>
    unfold wordsFrom
    split
    · simp
    · exact ih (by simp)

theorem words_blank (text : List Char) : words (' ' :: text) = words text := by simp [words,wordsFrom,isBlank]

theorem wordsFrom_end (text before : List Char) : wordsFrom before (text ++ [' ']) = wordsFrom before text := by
  induction text generalizing before with
  | nil => simp [wordsFrom,isBlank]
  | cons ch text ih => simp [wordsFrom,ih]

theorem words_end (text : List Char) : words (text ++ [' ']) = words text := wordsFrom_end text []

theorem wordsFrom_solid {before : List Char} (solid : ∀ ch ∈ before, isBlank ch = false) (text : List Char) :
    ∀ word ∈ wordsFrom before text, word ≠ [] ∧ ∀ ch ∈ word, isBlank ch = false := by
  have own (before : List Char) (solid : ∀ ch ∈ before, isBlank ch = false) :
      ∀ word ∈ (if before = [] then [] else [before]), word ≠ [] ∧ ∀ ch ∈ word, isBlank ch = false := by
    intro word member
    split at member
    · exact absurd member List.not_mem_nil
    · next some => exact List.mem_singleton.mp member ▸ ⟨some,solid⟩
  induction text generalizing before with
  | nil => exact own before solid
  | cons ch text ih =>
    intro word member
    unfold wordsFrom at member
    split at member
    · rcases List.mem_append.mp member with member | member
      · exact own before solid word member
      · exact ih (by simp) word member
    · next other =>
      refine ih (fun c inside => ?_) word member
      rcases List.mem_append.mp inside with inside | inside
      · exact solid c inside
      · simpa [List.mem_singleton.mp inside] using other

theorem words_single {word : List Char} (single : words word = [word]) : word ≠ [] ∧ ∀ ch ∈ word, isBlank ch = false :=
  wordsFrom_solid (by simp) word word (single ▸ List.mem_cons_self)

theorem words_cons {word : List Char} (single : words word = [word]) (rest : List Char) :
    words (word ++ ' ' :: rest) = word :: words rest := by
  obtain ⟨some,solid⟩ := words_single single
  have step (before word : List Char) (solid : ∀ ch ∈ word, isBlank ch = false) :
      wordsFrom before (word ++ ' ' :: rest) = (if before ++ word = [] then [] else [before ++ word]) ++ words rest := by
    induction word generalizing before with
    | nil => simp [wordsFrom,isBlank,words]
    | cons ch word ih =>
      have own := solid ch List.mem_cons_self
      simp [wordsFrom,own,ih _ fun c member => solid c (List.mem_cons_of_mem _ member)]
  rw [words,step [] word solid,List.nil_append,if_neg some,List.singleton_append]

theorem Names.space {text : List Char} (names : Names text) : ∀ ch ∈ text, ch ≠ '\n' ∧ ch ≠ '\t' := by
  intro ch member
  rcases isPlain_cases (names.plain ch member) with rfl | ⟨-,solid⟩
  · decide
  · exact ⟨fun same => by simp [same,isSpace] at solid,fun same => by simp [same,isSpace] at solid⟩

theorem Heads.words_ne {name : List Char} (heads : Heads name) : words name ≠ [] := by
  obtain ⟨ch,rest,rfl,other⟩ := heads.starts
  have solid := (isPlain_cases (heads.names.plain ch List.mem_cons_self)).resolve_left other
  simpa [words,wordsFrom,solid.1] using wordsFrom_ne (List.cons_ne_nil ch [])

theorem Heads.leads {name : List Char} (heads : Heads name) : leads name = true := by
  have backslash : '\\' ∉ name := heads.names.not_mem (by decide)
  have dollar : '$' ∉ name := heads.names.not_mem (by decide)
  simp [MakeSyntax.leads,backslash,dollar,heads.balanced.1,heads.balanced.2]

theorem keyword_plain : ∀ word ∈ keywords, ':' ∉ word := by decide +kernel

theorem Heads.firstWord {name : List Char} (heads : Heads name) (rest : List Char) :
    firstWord (name ++ ':' :: rest) ∉ keywords := by
  by_cases solid : ∀ ch ∈ name, (!isBlank ch) = true
  · intro member
    refine keyword_plain _ member ?_
    rw [MakeSyntax.firstWord,List.takeWhile_append_of_pos solid]
    simp [isBlank]
  · rw [MakeSyntax.firstWord,List.takeWhile_append,if_neg ?_]
    · exact heads.word
    · intro whole
      refine solid fun ch member => ?_
      have same := (List.takeWhile_prefix fun ch => !isBlank ch).eq_of_length whole
      rw [← same] at member
      exact List.mem_takeWhile_imp (p := fun ch => !isBlank ch) member

theorem takeWhile_separator {before : List Char} (plain : ∀ ch ∈ before, (!isSeparator ch) = true) (separator : Char)
    (stops : isSeparator separator = true) (after : List Char) :
    ((before ++ separator :: after).takeWhile fun ch => !isSeparator ch) = before ∧
      ((before ++ separator :: after).dropWhile fun ch => !isSeparator ch) = separator :: after := by
  constructor
  · rw [List.takeWhile_append_of_pos plain]
    simp [stops]
  · rw [List.dropWhile_append_of_pos plain]
    simp [stops]

/-- A line that starts with a character of its own is read as a statement. -/
theorem readLine_statement {ch : Char} {rest : List Char} (solid : isBlank ch = false) (hash : '#' ∉ ch :: rest)
    (continues : (ch :: rest).getLast? ≠ some '\\') (inRule : Bool) : readLine inRule (ch :: rest) =
      match readStatement (ch :: rest) with
      | some (.rule targets prerequisites) => some ([.rule targets prerequisites],true)
      | some item => some ([item],false)
      | none => none := by
  have tab : ch ≠ '\t' := fun same => by simp [same,isBlank] at solid
  have comment : ch ≠ '#' := fun same => hash (same ▸ List.mem_cons_self)
  have text : (ch :: rest).dropWhile isBlank = ch :: rest := by simp [solid]
  unfold readLine
  rw [if_neg continues,if_neg (by simpa using tab),text]
  simp only [reduceCtorEq,List.head?_cons,Option.some.injEq,comment,or_self,if_false,hash]

theorem getLast_other {line : List Char} {ch : Char} (absent : ch ∉ line) : line.getLast? ≠ some ch :=
  fun last => absent (List.mem_of_getLast? last)

theorem readLine_rule {name after : List Char} (heads : Heads name) (names : Names after) (inRule : Bool) :
    readLine inRule (name ++ ':' :: after) = some ([.rule (words name) (words after)],true) := by
  have starts := heads.starts
  have absent (ch : Char) (special : isSpecial ch = true) (colon : ch ≠ ':') : ch ∉ name ++ ':' :: after := by
    simp [heads.names.not_mem special,names.not_mem special,colon]
  have parts := takeWhile_separator heads.names.separators ':' (by decide) after
  have statement : readStatement (name ++ ':' :: after) = some (.rule (words name) (words after)) := by
    simp only [readStatement,parts,if_neg (heads.firstWord after),readRule,heads.leads,names.special]
    simp [heads.words_ne]
  obtain ⟨ch,rest,same,other⟩ := starts
  have solid := (isPlain_cases (heads.names.plain ch (same ▸ List.mem_cons_self))).resolve_left other
  have hash := absent '#' (by decide) (by decide)
  have continues := getLast_other (absent '\\' (by decide) (by decide))
  rw [same,List.cons_append] at statement hash continues ⊢
  rw [readLine_statement solid.1 hash continues,statement]

theorem Key.words {name : List Char} (key : Key name) : words (name ++ [' ']) = [name] := by
  rw [words_end,words_word (fun ch member => ?_) key.nonempty]
  exact ((isPlain_cases (key.names.plain ch member)).resolve_left fun same => key.solid (same ▸ member)).1

theorem readLine_assignment {name after : List Char} (key : Key name) (hash : '#' ∉ after)
    (continues : after.getLast? ≠ some '\\') (inRule : Bool) :
    readLine inRule (name ++ ' ' :: '=' :: after) = some ([.assignment name (after.dropWhile isBlank)],false) := by
  have names := key.names
  have separators : ∀ ch ∈ name ++ [' '], (!isSeparator ch) = true := by
    intro ch member
    rcases List.mem_append.mp member with member | member
    · exact names.separators ch member
    · rw [List.mem_singleton.mp member]
      decide
  have parts := takeWhile_separator separators '=' (by decide) after
  have split : name ++ [' '] ++ '=' :: after = name ++ ' ' :: '=' :: after := by simp
  rw [split] at parts
  have operator : (name.getLast?.all fun ch => decide (ch ∉ ['?','+','!'])) = true := by
    cases last : name.getLast? with
    | none => rfl
    | some ch => simpa using key.operator ch last
  have before : leads (name ++ [' ']) = true := by
    have backslash : '\\' ∉ name := names.not_mem (by decide)
    simp [leads,key.words,backslash,key.balanced.1,key.balanced.2]
  have statement : readStatement (name ++ ' ' :: '=' :: after) = some (.assignment name (after.dropWhile isBlank)) := by
    simp only [readStatement,parts,if_true,readAssignment,key.words,before,operator,Bool.and_self]
  obtain ⟨ch,rest,same⟩ := List.exists_cons_of_ne_nil key.nonempty
  have member : ch ∈ name := same ▸ List.mem_cons_self
  have solid := (isPlain_cases (names.plain ch member)).resolve_left fun blank => key.solid (blank ▸ member)
  have noHash : '#' ∉ name ++ ' ' :: '=' :: after := by
    have own : '#' ∉ name := names.not_mem (by decide)
    simp [own,hash]
  have ends : (name ++ ' ' :: '=' :: after).getLast? ≠ some '\\' := by
    cases after with
    | nil => simp
    | cons first after => simpa [List.getLast?_append] using continues
  rw [same,List.cons_append] at statement noHash ends ⊢
  rw [readLine_statement solid.1 noHash ends,statement]

theorem readLine_inclusion {file : List Char} (names : Names file) (present : words file ≠ []) (fatal inRule : Bool) :
    readLine inRule (including fatal ++ ' ' :: file) = some ([.inclusion (words file) fatal],false) := by
  have keyword : ∀ ch ∈ including fatal, isBlank ch = false ∧ isSpecial ch = false := by
    have all : (including fatal).all (fun ch => !isBlank ch && !isSpecial ch) = true := by cases fatal <;> decide +kernel
    simpa using List.all_eq_true.mp all
  have plain : ∀ ch ∈ including fatal ++ ' ' :: file, isSpecial ch = false := by
    intro ch member
    rcases List.mem_append.mp member with member | member
    · exact (keyword ch member).2
    · rcases List.mem_cons.mp member with rfl | member
      · decide
      · exact isPlain_special (names.plain ch member)
  have separators : ∀ ch ∈ including fatal ++ ' ' :: file, (!isSeparator ch) = true := by
    intro ch member
    have other := not_special (plain ch member)
    simp [isSeparator,other.1,other.2.1]
  have solid : ∀ ch ∈ including fatal, (!isBlank ch) = true := fun ch member => by simp [(keyword ch member).1]
  have word : firstWord (including fatal ++ ' ' :: file) = including fatal := by
    rw [firstWord,List.takeWhile_append_of_pos solid]
    simp [isBlank]
  have rest : (including fatal ++ ' ' :: file).dropWhile (fun ch => !isBlank ch) = ' ' :: file := by
    rw [List.dropWhile_append_of_pos solid]
    simp [isBlank]
  have after : (' ' :: file).any isSpecial = false := by
    simpa [isSpecial] using names.special
  have nothing : (including fatal ++ ' ' :: file).dropWhile (fun ch => !isSeparator ch) = [] :=
    List.dropWhile_eq_nil_iff.mpr separators
  have statement : readStatement (including fatal ++ ' ' :: file) = some (.inclusion (words file) fatal) := by
    have apart : including false ≠ including true := by decide
    simp only [readStatement,nothing,word,rest]
    cases fatal with
    | false => simp [apart,readInclusion,words_blank,present,after]
    | true => simp [readInclusion,words_blank,present,after]
  have starts : ∃ ch line, including fatal ++ ' ' :: file = ch :: line ∧ isBlank ch = false := by
    cases fatal
    · exact ⟨'-',_,rfl,by decide⟩
    · exact ⟨'i',_,rfl,by decide⟩
  have hash : '#' ∉ including fatal ++ ' ' :: file := fun member => by
    have := plain _ member
    contradiction
  have continues : (including fatal ++ ' ' :: file).getLast? ≠ some '\\' := getLast_other fun member => by
    have := plain _ member
    contradiction
  obtain ⟨ch,line,same,first⟩ := starts
  rw [same] at statement hash continues ⊢
  rw [readLine_statement first hash continues,statement]

theorem readLine_comment {text : List Char} (continues : ('#' :: text).getLast? ≠ some '\\') (inRule : Bool) :
    readLine inRule ('#' :: text) = some ([],inRule) := by
  simp [readLine,continues,isBlank]

theorem readLine_empty (inRule : Bool) : readLine inRule [] = some ([],inRule) := by simp [readLine]

theorem readLine_recipe {command : List Char} (continues : command.getLast? ≠ some '\\') :
    readLine true ('\t' :: command) = some ([.recipe command],true) := by
  cases command with
  | nil => simp [readLine]
  | cons ch command =>
    simpa [readLine] using continues

theorem Steady.of_same {l : List Char} (same : trimEnd l = l) : Steady l := by
  intro inRule
  refine ⟨fun none => ?_,fun _ => by rw [same]⟩
  rw [← same,none]
  exact readLine_empty inRule

end Forms

end JkBuild.MakeSyntax
