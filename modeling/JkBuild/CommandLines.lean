import JkBuild.ShellWords

/-! `CustomCommandLine`: the text of a command, with the arguments escaped for the shell. -/
namespace JkBuild.CommandLines

open Shell

structure CustomArgument where
  argument : List Char
  raw : Bool
  deriving DecidableEq, Repr

def isEscaped (ch : Char) : Bool := ch ∈ [' ','<','>']

def escapeChar (ch : Char) : List Char := if isEscaped ch then ['\\',ch] else [ch]

/-- `EscapeForShellStyle` reads up to the first NUL. -/
def escapeForShellStyle : List Char → List Char
  | [] => []
  | ch :: text => if ch = '\x00' then [] else escapeChar ch ++ escapeForShellStyle text

def joinString (separator : List Char) (func : α → List Char) (first : Bool) : List α → List Char
  | [] => []
  | x :: xs => (if first then [] else separator) ++ func x ++ joinString separator func false xs

def CustomArgument.text (s : CustomArgument) : List Char := if s.raw then s.argument else escapeForShellStyle s.argument

/-- `gen_stringify_cache` of a command line. -/
def stringify (command : List CustomArgument) : List Char := joinString [' '] CustomArgument.text true command

/-- A text that make passes on to the shell as it is, in one line. -/
structure Argument where
  text : List Char
  nul : '\x00' ∉ text
  newline : '\n' ∉ text
  dollar : '$' ∉ text

/-- The shell reads back what was given. -/
def Survive (args : List Argument) : Prop :=
  split (stringify (args.map fun a => ⟨a.text,false⟩)) = some (args.map fun a => .word a.text)

/-- No character that the shell takes for itself, unless it is escaped. -/
def Plain (text : List Char) : Prop := text ≠ [] ∧ ∀ ch ∈ text, isEscaped ch = true ∨ isLiteral ch = true

section Text

theorem escape_flatMap {text : List Char} (nul : '\x00' ∉ text) :
    escapeForShellStyle text = text.flatMap escapeChar := by
  induction text with
  | nil => rfl
  | cons ch text ih =>
    have other : ch ≠ '\x00' := fun same => nul (same ▸ List.mem_cons_self)
    rw [escapeForShellStyle,if_neg other,ih fun member => nul (List.mem_cons_of_mem _ member),List.flatMap_cons]

theorem joinString_later (separator : List Char) (func : α → List Char) (xs : List α) :
    joinString separator func false xs = xs.flatMap fun x => separator ++ func x := by
  induction xs with
  | nil => rfl
  | cons x xs ih => simp [joinString,ih]

theorem stringify_cons (a : Argument) (args : List Argument) :
    stringify ((a :: args).map fun a => ⟨a.text,false⟩) =
      a.text.flatMap escapeChar ++ args.flatMap fun a => ' ' :: a.text.flatMap escapeChar := by
  have each : ∀ a : Argument, CustomArgument.text ⟨a.text,false⟩ = a.text.flatMap escapeChar :=
    fun a => escape_flatMap a.nul
  simp [stringify,joinString,joinString_later,each,List.flatMap_map]

end Text

section Run

/-- The shell after one character of an argument. -/
def stepChar (s : State) (ch : Char) : State := (escapeChar ch).foldl step s

def stepArgument (s : State) (text : List Char) : State := text.foldl stepChar s

def stepSeparated (s : State) (text : List Char) : State := stepArgument (step s ' ') text

theorem run_argument (text : List Char) (s : State) : (text.flatMap escapeChar).foldl step s = stepArgument s text := by
  rw [List.foldl_flatMap]
  rfl

theorem split_stringify (a : Argument) (args : List Argument) :
    split (stringify ((a :: args).map fun a => ⟨a.text,false⟩)) =
      finish ((args.map (·.text)).foldl stepSeparated (stepArgument initial a.text)) := by
  rw [split,stringify_cons,List.foldl_append,run_argument,List.foldl_flatMap,List.foldl_map]
  congr 2
  funext s a
  rw [List.foldl_cons,run_argument]
  rfl

end Run

section Reading

/-- The shell has read just what was written: `q` quotes, and text of weight `b` with the
argument that has been begun. -/
structure Even (q b : Nat) (s : State) : Prop where
  mode : s.mode = .plain
  quotes : s.quotes = q
  weight : s.weight + (if s.word = none then 1 else 0) = b

/-- The shell will have fewer quotes than were written, or as few and less text. A word that is
yet to begin has `reserve` left. -/
def Behind (reserve q b : Nat) (s : State) : Prop :=
  s.quotes < q ∨ (s.quotes ≤ q ∧
    ((s.mode = .plain ∧ s.weight + (if s.word = none then reserve else 1) ≤ b) ∨
      (s.mode = .escaped ∧ s.word ≠ none ∧ s.weight + 2 ≤ b)))

def isPlain (ch : Char) : Bool := isEscaped ch || isLiteral ch

theorem stepChar_plain {s : State} {ch : Char} (mode : s.mode = .plain) (plain : isPlain ch = true) :
    stepChar s ch = s.push ch := by
  unfold stepChar escapeChar
  split
  · exact step_escaped mode ch
  · next other =>
    have literal : isLiteral ch = true := by simpa [isPlain,other] using plain
    exact step_literal mode literal

theorem quotes_char (s : State) (ch : Char) : (stepChar s ch).quotes ≤ s.quotes + if isQuote ch then 1 else 0 := by
  have run := quotes_run (escapeChar ch) s
  have written : (escapeChar ch).countP isQuote = if isQuote ch then 1 else 0 := by
    unfold escapeChar
    split
    · rw [List.countP_cons]
      simp [isQuote]
    · simp
  rw [written] at run
  exact run

theorem stepChar_special {s : State} {ch : Char} (mode : s.mode = .plain) (special : isPlain ch = false) :
    (ch = '\\' ∧ stepChar s ch = s.start.enter .escaped) ∨ (isQuote ch = true ∧ (stepChar s ch).quotes = s.quotes) ∨
      ((stepChar s ch).mode = .plain ∧ (stepChar s ch).word = none ∧ (stepChar s ch).quotes = s.quotes ∧
        (stepChar s ch).weight = s.weight) := by
  obtain ⟨notEscaped,notLiteral⟩ : isEscaped ch = false ∧ isLiteral ch = false := by simpa [isPlain] using special
  have single : stepChar s ch = stepPlain s ch := by
    unfold stepChar escapeChar
    rw [notEscaped]
    simp [step,mode]
  rw [single]
  unfold stepPlain
  split
  · next same => exact .inl ⟨same,rfl⟩
  · split
    · next same => exact .inr (.inl ⟨by rw [same]; rfl,by rw [quotes_enter,quotes_start]⟩)
    · split
      · next same => exact .inr (.inl ⟨by rw [same]; rfl,by rw [quotes_enter,quotes_start]⟩)
      · split
        · exact .inr (.inr ⟨mode,rfl,quotes_finishWord s,weight_finishWord s⟩)
        · split
          · refine .inr (.inr ⟨mode,rfl,?_,?_⟩)
            · rw [quotes_operator,quotes_finishWord]
            · rw [weight_operator,weight_finishWord]
          · next backslash single double blank operator =>
            simp [isLiteral,isQuote,backslash,single,double,blank,operator] at notLiteral

theorem isPlain_quote {ch : Char} (plain : isPlain ch = true) : isQuote ch = false := by
  cases quote : isQuote ch with
  | false => rfl
  | true =>
    have cases : ch = '\'' ∨ ch = '"' := by simpa [isQuote] using quote
    rcases cases with rfl | rfl <;> exact absurd plain (by decide)

theorem even_plain {q b : Nat} {s : State} {ch : Char} (even : Even q b s) (plain : isPlain ch = true) :
    Even q (b + 2) (stepChar s ch) ∧ (stepChar s ch).word ≠ none := by
  have pushed := quotes_push s ch
  have heavier := weight_push s ch
  have weight := even.weight
  rw [isPlain_quote plain] at pushed
  rw [stepChar_plain even.mode plain]
  refine ⟨⟨even.mode,?_,?_⟩,nofun⟩
  · rw [pushed,even.quotes]; simp
  · have begun : (s.push ch).word ≠ none := nofun
    rw [if_neg begun]
    omega

theorem even_special {q b : Nat} {s : State} {ch : Char} (even : Even q b s) (special : isPlain ch = false) :
    Behind 2 (q + if isQuote ch then 1 else 0) (b + 2) (stepChar s ch) := by
  have weight := even.weight
  have quotes := even.quotes
  rcases stepChar_special even.mode special with ⟨rfl,found⟩ | ⟨quote,found⟩ | ⟨mode,word,same,light⟩
  · have started := weight_start s
    rw [found]
    refine .inr ⟨?_,.inr ⟨rfl,nofun,?_⟩⟩
    · rw [quotes_enter,quotes_start]; omega
    · rw [weight_enter]; omega
  · refine .inl ?_
    rw [found,if_pos quote]
    omega
  · refine .inr ⟨by omega,.inl ⟨mode,?_⟩⟩
    rw [if_pos word,light]
    omega

/-- Once the shell is behind, no character lets it catch up. -/
theorem behind_char {q b : Nat} {s : State} (ch : Char) (behind : Behind 2 q b s) :
    Behind 2 (q + if isQuote ch then 1 else 0) (b + 2) (stepChar s ch) := by
  have kept := quotes_char s ch
  rcases behind with fewer | ⟨quotes,⟨mode,weight⟩ | ⟨mode,word,weight⟩⟩
  · exact .inl (by omega)
  · cases plain : isPlain ch with
    | true =>
      have heavier := weight_push s ch
      have begun : (s.push ch).word ≠ none := nofun
      rw [stepChar_plain mode plain] at kept ⊢
      refine .inr ⟨by omega,.inl ⟨mode,?_⟩⟩
      rw [if_neg begun]
      split at weight
      · next none => rw [if_pos none] at heavier; omega
      · next some => rw [if_neg some] at heavier; omega
    | false =>
      rcases stepChar_special mode plain with ⟨rfl,found⟩ | ⟨quote,found⟩ | ⟨mode,none,same,light⟩
      · have started := weight_start s
        rw [found] at kept ⊢
        refine .inr ⟨by omega,.inr ⟨rfl,nofun,?_⟩⟩
        rw [weight_enter]
        split at weight
        · next none => rw [if_pos none] at started; omega
        · next some => rw [if_neg some] at started; omega
      · refine .inl ?_
        rw [found,if_pos quote]
        omega
      · refine .inr ⟨by omega,.inl ⟨mode,?_⟩⟩
        rw [if_pos none,light]
        split at weight <;> omega
  · have escaped := step_quoted mode
    cases special : isEscaped ch with
    | true =>
      -- The backslash is kept, and what it should have quoted ends the word.
      have heavier := weight_push s '\\'
      have ended : (stepChar s ch).mode = .plain ∧ (stepChar s ch).word = none ∧
          (stepChar s ch).weight = (s.push '\\').weight := by
        have both : stepChar s ch = stepPlain ((s.push '\\').enter .plain) ch := by
          simp only [stepChar,escapeChar,special,if_true,List.foldl_cons,List.foldl_nil,escaped]
          rfl
        have cases : ch = ' ' ∨ ch = '<' ∨ ch = '>' := by simpa [isEscaped] using special
        rw [both]
        rcases cases with rfl | rfl | rfl
        · exact ⟨rfl,rfl,weight_finishWord _⟩
        · exact ⟨rfl,rfl,(weight_operator _ _).trans (weight_finishWord _)⟩
        · exact ⟨rfl,rfl,(weight_operator _ _).trans (weight_finishWord _)⟩
      obtain ⟨plain,none,light⟩ := ended
      refine .inr ⟨by omega,.inl ⟨plain,?_⟩⟩
      rw [if_neg word] at heavier
      rw [if_pos none,light]
      omega
    | false =>
      have heavier := weight_push s ch
      have found : stepChar s ch = (s.push ch).enter .plain := by simp [stepChar,escapeChar,special,escaped]
      have begun : ((s.push ch).enter .plain).word ≠ none := nofun
      rw [found] at kept ⊢
      refine .inr ⟨by omega,.inl ⟨rfl,?_⟩⟩
      rw [if_neg word] at heavier
      rw [if_neg begun,weight_enter]
      omega

theorem behind_weaken {q b : Nat} {s : State} (behind : Behind 2 q b s) : Behind 1 q b s := by
  rcases behind with fewer | ⟨quotes,⟨mode,weight⟩ | escaped⟩
  · exact .inl fewer
  · refine .inr ⟨quotes,.inl ⟨mode,?_⟩⟩
    split at weight
    · next none => rw [if_pos none]; omega
    · next begun => rw [if_neg begun]; exact weight
  · exact .inr ⟨quotes,.inr escaped⟩

theorem behind_separator {q b : Nat} {s : State} (behind : Behind 1 q b s) : Behind 2 q (b + 1) (step s ' ') := by
  have kept := quotes_step s ' '
  have blank : ¬isQuote ' ' = true := by decide
  rw [if_neg blank] at kept
  rcases behind with fewer | ⟨quotes,⟨mode,weight⟩ | ⟨mode,word,weight⟩⟩
  · exact .inl (by omega)
  · have none : s.finishWord.word = none := rfl
    rw [step_blank mode] at kept ⊢
    refine .inr ⟨by omega,.inl ⟨mode,?_⟩⟩
    rw [if_pos none,weight_finishWord]
    split at weight <;> omega
  · have heavier := weight_push s ' '
    have found := step_quoted mode ' '
    have begun : ((s.push ' ').enter .plain).word ≠ none := nofun
    rw [found] at kept ⊢
    refine .inr ⟨by omega,.inl ⟨rfl,?_⟩⟩
    rw [if_neg word] at heavier
    rw [if_neg begun,weight_enter]
    omega

theorem behind_argument {q b : Nat} {s : State} (text : List Char) (behind : Behind 2 q b s) :
    Behind 2 (q + text.countP isQuote) (b + 2 * text.length) (stepArgument s text) := by
  induction text generalizing q b s with
  | nil => exact behind
  | cons ch text ih =>
    have later := ih (behind_char ch behind)
    rw [List.countP_cons,List.length_cons]
    have quotes : q + (text.countP isQuote + if isQuote ch = true then 1 else 0) =
        q + (if isQuote ch = true then 1 else 0) + text.countP isQuote := by omega
    have weight : b + 2 * (text.length + 1) = b + 2 + 2 * text.length := by omega
    rw [quotes,weight]
    exact later

/-- The shell stays even over an argument of plain characters, and falls behind with any other. -/
theorem even_argument {q b : Nat} {s : State} (text : List Char) (even : Even q b s) :
    if text.all isPlain then Even q (b + 2 * text.length) (stepArgument s text) ∧
        (s.word ≠ none ∨ text ≠ [] → (stepArgument s text).word ≠ none)
      else Behind 2 (q + text.countP isQuote) (b + 2 * text.length) (stepArgument s text) := by
  induction text generalizing q b s with
  | nil => exact ⟨even,fun begun => begun.resolve_right fun nonempty => nonempty rfl⟩
  | cons ch text ih =>
    have weight : b + 2 * (text.length + 1) = b + 2 + 2 * text.length := by omega
    have quotes : q + (text.countP isQuote + if isQuote ch = true then 1 else 0) =
        q + (if isQuote ch = true then 1 else 0) + text.countP isQuote := by omega
    rw [List.countP_cons,List.length_cons,quotes,weight,List.all_cons]
    cases plain : isPlain ch with
    | false =>
      rw [Bool.false_and,if_neg Bool.false_ne_true]
      exact behind_argument text (even_special even plain)
    | true =>
      obtain ⟨still,begun⟩ := even_plain even plain
      have later := ih still
      rw [Bool.true_and,isPlain_quote plain,if_neg Bool.false_ne_true,Nat.add_zero]
      split
      · next all =>
        rw [if_pos all] at later
        exact ⟨later.1,fun _ => later.2 (.inl begun)⟩
      · next some =>
        rw [if_neg some] at later
        exact later

/-- The measures of arguments that are still to be read, each after a separator. -/
def writtenQuotes (texts : List (List Char)) : Nat := quotes (texts.map .word)

def writtenWeight (texts : List (List Char)) : Nat := weight (texts.map .word)

theorem plain_iff (text : List Char) : Plain text ↔ text ≠ [] ∧ text.all isPlain = true := by
  simp [Plain,isPlain]

/-- An argument leaves the shell even and in a word, or behind: an empty one has no word. -/
theorem read_argument {q b : Nat} {s : State} (text : List Char) (even : Even q b s) (fresh : s.word = none) :
    (Plain text → Even q (b + 2 * text.length) (stepArgument s text) ∧ (stepArgument s text).word ≠ none) ∧
      (¬Plain text → Behind 1 (q + text.countP isQuote) (b + 2 * text.length) (stepArgument s text)) := by
  have read := even_argument text even
  rw [plain_iff]
  constructor
  · rintro ⟨nonempty,all⟩
    rw [if_pos all] at read
    exact ⟨read.1,read.2 (.inr nonempty)⟩
  · intro special
    cases text with
    | nil =>
      have weight := even.weight
      rw [if_pos fresh] at weight
      refine .inr ⟨Nat.le_of_eq even.quotes,.inl ⟨even.mode,?_⟩⟩
      rw [ite_self]
      exact Nat.le_of_eq weight
    | cons ch text =>
      have some : ¬(ch :: text).all isPlain = true := fun all => special ⟨List.cons_ne_nil _ _,all⟩
      rw [if_neg some] at read
      exact behind_weaken read

theorem even_separator {q b : Nat} {s : State} (even : Even q b s) (begun : s.word ≠ none) :
    Even q (b + 1) (step s ' ') ∧ (step s ' ').word = none := by
  have weight := even.weight
  have none : s.finishWord.word = none := rfl
  rw [if_neg begun] at weight
  rw [step_blank even.mode]
  refine ⟨⟨even.mode,(quotes_finishWord s).trans even.quotes,?_⟩,none⟩
  rw [if_pos none,weight_finishWord]
  omega

theorem plain_quotes {text : List Char} (plain : Plain text) : text.countP isQuote = 0 := by
  apply List.countP_eq_zero.mpr
  intro ch member
  rw [isPlain_quote (List.all_eq_true.mp ((plain_iff text).mp plain).2 ch member)]
  exact Bool.false_ne_true

theorem written_cons (text : List Char) (texts : List (List Char)) :
    writtenQuotes (text :: texts) = text.countP isQuote + writtenQuotes texts ∧
      writtenWeight (text :: texts) = 2 * text.length + 1 + writtenWeight texts := by
  simp [writtenQuotes,writtenWeight,quotes,weight,Token.quotes,Token.weight]

theorem behind_rest {q b : Nat} {s : State} (texts : List (List Char)) (behind : Behind 1 q b s) :
    Behind 1 (q + writtenQuotes texts) (b + writtenWeight texts) (texts.foldl stepSeparated s) := by
  induction texts generalizing q b s with
  | nil => exact behind
  | cons text texts ih =>
    have later := ih (behind_weaken (behind_argument text (behind_separator behind)))
    obtain ⟨quotes,weight⟩ := written_cons text texts
    have counted : q + writtenQuotes (text :: texts) = q + text.countP isQuote + writtenQuotes texts := by omega
    have total : b + writtenWeight (text :: texts) = b + 1 + 2 * text.length + writtenWeight texts := by omega
    rw [counted,total]
    exact later

theorem even_rest {q b : Nat} {s : State} (texts : List (List Char)) (even : Even q b s) (begun : s.word ≠ none)
    (special : ∃ text ∈ texts, ¬Plain text) :
    Behind 1 (q + writtenQuotes texts) (b + writtenWeight texts) (texts.foldl stepSeparated s) := by
  induction texts generalizing q b s with
  | nil => exact absurd special (by simp)
  | cons text texts ih =>
    obtain ⟨fresh,none⟩ := even_separator even begun
    have read := read_argument text fresh none
    obtain ⟨quotes,weight⟩ := written_cons text texts
    by_cases plain : Plain text
    · obtain ⟨still,begun⟩ := read.1 plain
      have later := ih still begun (by simpa [plain] using special)
      have total : b + writtenWeight (text :: texts) = b + 1 + 2 * text.length + writtenWeight texts := by omega
      rw [quotes,plain_quotes plain,Nat.zero_add,total]
      exact later
    · have later := behind_rest texts (read.2 plain)
      have counted : q + writtenQuotes (text :: texts) = q + text.countP isQuote + writtenQuotes texts := by omega
      have total : b + writtenWeight (text :: texts) = b + 1 + 2 * text.length + writtenWeight texts := by omega
      rw [counted,total]
      exact later

theorem push_argument {text : List Char} (all : text.all isPlain = true) (done : List Token) (word : List Char) :
    stepArgument ⟨done,some word,.plain⟩ text = ⟨done,some (word ++ text),.plain⟩ := by
  induction text generalizing word with
  | nil => simp [stepArgument]
  | cons ch text ih =>
    simp only [List.all_cons,Bool.and_eq_true] at all
    have pushed : stepChar ⟨done,some word,.plain⟩ ch = ⟨done,some (word ++ [ch]),.plain⟩ := stepChar_plain rfl all.1
    have later := ih all.2 (word ++ [ch])
    rw [List.append_assoc] at later
    rw [stepArgument,List.foldl_cons,pushed]
    exact later

theorem begin_argument {text : List Char} (plain : Plain text) (done : List Token) :
    stepArgument ⟨done,none,.plain⟩ text = ⟨done,some text,.plain⟩ := by
  obtain ⟨nonempty,all⟩ := (plain_iff text).mp plain
  cases text with
  | nil => contradiction
  | cons ch text =>
    simp only [List.all_cons,Bool.and_eq_true] at all
    have pushed : stepChar ⟨done,none,.plain⟩ ch = ⟨done,some [ch],.plain⟩ := stepChar_plain rfl all.1
    rw [stepArgument,List.foldl_cons,pushed]
    exact push_argument all.2 done [ch]

theorem read_plain {texts : List (List Char)} (plain : ∀ text ∈ texts, Plain text) (done : List Token)
    (word : List Char) :
    finish (texts.foldl stepSeparated ⟨done,some word,.plain⟩) = some (done ++ .word word :: texts.map .word) := by
  induction texts generalizing done word with
  | nil => rfl
  | cons text texts ih =>
    have next : stepSeparated ⟨done,some word,.plain⟩ text = ⟨done ++ [.word word],some text,.plain⟩ :=
      begin_argument (plain text List.mem_cons_self) _
    have later := ih (fun text member => plain text (List.mem_cons_of_mem _ member)) (done ++ [.word word]) text
    rw [List.append_assoc] at later
    rw [List.foldl_cons,next]
    exact later

end Reading

section Survival

theorem behind_lost {q b : Nat} {s : State} (behind : Behind 1 q b s) {tokens : List Token}
    (found : finish s = some tokens) :
    quotes tokens ≠ q ∨ weight tokens ≠ b := by
  obtain ⟨sameQuotes,sameWeight⟩ := finish_measures found
  rcases behind with fewer | ⟨-,⟨-,lighter⟩ | ⟨-,-,lighter⟩⟩
  · left; omega
  · right
    split at lighter <;> omega
  · right; omega

/-- A command survives the shell exactly if no argument is empty and none has a character that
the shell takes for itself, other than the three that are escaped. -/
theorem survive_iff (args : List Argument) : Survive args ↔ ∀ a ∈ args, Plain a.text := by
  cases args with
  | nil => simp [Survive,stringify,joinString,split,finish,initial,flush]
  | cons a args =>
    rw [Survive,split_stringify,List.forall_mem_cons]
    constructor
    · intro found
      by_contra special
      have even : Even 0 1 initial := ⟨rfl,rfl,rfl⟩
      have read := read_argument a.text even rfl
      have behind : Behind 1 (0 + a.text.countP isQuote + writtenQuotes (args.map (·.text)))
          (1 + 2 * a.text.length + writtenWeight (args.map (·.text)))
          ((args.map (·.text)).foldl stepSeparated (stepArgument initial a.text)) := by
        by_cases plain : Plain a.text
        · obtain ⟨still,begun⟩ := read.1 plain
          have other : ∃ text ∈ args.map (·.text), ¬Plain text := by simpa [plain] using special
          rw [plain_quotes plain]
          exact even_rest _ still begun other
        · exact behind_rest _ (read.2 plain)
      have tokens : (a :: args).map (fun a => Token.word a.text) = (a.text :: args.map (·.text)).map .word := by simp
      obtain ⟨quotes,weight⟩ := written_cons a.text (args.map (·.text))
      rw [writtenQuotes] at quotes
      rw [writtenWeight] at weight
      rw [tokens] at found
      have lost := behind_lost behind found
      omega
    · rintro ⟨plain,others⟩
      have first : stepArgument initial a.text = ⟨[],some a.text,.plain⟩ := begin_argument plain []
      have texts : ∀ text ∈ args.map (·.text), Plain text := by simpa using others
      rw [first,read_plain texts]
      simp

def quotedDefine : Argument := ⟨"-DNAME=\"jk\"".toList,by decide,by decide,by decide⟩

/-- The quotes of the string are gone, and a semicolon makes two commands. -/
theorem quoted_define_lost :
    split (stringify [⟨"-DNAME=\"jk\"".toList,false⟩]) = some [.word "-DNAME=jk".toList] ∧
    split (stringify [⟨"a;b".toList,false⟩]) = some [.word ['a'],.operator ';',.word ['b']] ∧
    ¬Survive [quotedDefine] := by
  refine ⟨by decide,by decide,?_⟩
  unfold Survive
  decide

end Survival

end JkBuild.CommandLines
