import JkBuild.PyParser

/-! Every layout of function calls is read back as these calls. The parsers are greedy: each
takes all the white space it can, so a layout is cut into pieces where they stop. -/
namespace JkBuild.PyParser

open Combinators

/-- A parser that reads every text of a kind, whatever comes after it. -/
structure Reads (beyond : List Char) (p : Parser α) (item : List Char → α → Prop) : Prop where
  accepts : ∀ {text x}, item text x → ∀ rest, Accepts beyond p text rest x
  dense : ∀ {text x}, item text x → ∃ ch tail, text = ch :: tail ∧ isSpace ch = false
  rejects : ∀ {close}, close = ']' ∨ close = ')' → ∀ rest, Rejects beyond p (close :: rest)

theorem blank_nil : Blank [] := fun _ member => absurd member List.not_mem_nil

section Brackets

variable {beyond : List Char} {close : Char} {p : Parser α} {item : List Char → α → Prop}

theorem Reads.dense_append (reads : Reads beyond p item) (given : item text x) (rest : List Char) :
    Dense (text ++ rest) := by
  obtain ⟨ch,tail,rfl,plain⟩ := reads.dense given
  exact dense_cons plain _

theorem dense_close (bracket : close = ']' ∨ close = ')') (rest : List Char) : Dense (close :: rest) := by
  apply dense_cons
  rcases bracket with rfl | rfl <;> rfl

theorem dense_comma (rest : List Char) : Dense (',' :: rest) := dense_cons rfl rest

theorem comma_rejects (bracket : close = ']' ∨ close = ')') (rest : List Char) :
    Rejects beyond comma (close :: rest) := by
  apply rejects_charEq
  rcases bracket with rfl | rfl <;> simp

theorem separator_accepts (blank : Blank before) (blank' : Blank after) (dense : Dense rest) :
    Accepts beyond (plus (plus space comma) space) (before ++ [','] ++ after) rest ((before,','),after) :=
  ((space_accepts blank (dense_comma _)).plus (accepts_charEq ',')).plus (space_accepts blank' dense)

/-- The loop stops at what comes before the bracket, also at a comma that is left over. -/
theorem ending_rejects (reads : Reads beyond p item) (ends : Ending ending) (bracket : close = ']' ∨ close = ')')
    (rest : List Char) : Rejects beyond (plus (plus (plus space comma) space) p) (ending ++ close :: rest) := by
  cases ends with
  | blank blank =>
    have first : Rejects beyond (plus space comma) (ending ++ close :: rest) :=
      Rejects.plus_right ending (space_accepts blank (dense_close bracket rest)) (comma_rejects bracket rest)
    exact (first.plus_left _).plus_left _
  | @comma before after blank blank' =>
    have found : Accepts beyond (plus (plus space comma) space) (before ++ [','] ++ after) (close :: rest)
        ((before,','),after) := separator_accepts blank blank' (dense_close bracket rest)
    have none := Rejects.plus_right _ found (reads.rejects bracket rest)
    simpa using none

theorem later_repeats (reads : Reads beyond p item) (later : Later item text xs) (ends : Ending ending)
    (bracket : close = ']' ∨ close = ')') (rest : List Char) :
    ∃ rounds : List (((List Char × Char) × List Char) × α), rounds.map (·.2) = xs ∧
      Repeats beyond (plus (plus (plus space comma) space) p) (ending ++ close :: rest) text rounds := by
  induction later with
  | nil => exact ⟨[],rfl,.stop (ending_rejects reads ends bracket rest)⟩
  | @cons before after text x texts xs blank blank' given _ ih =>
    obtain ⟨rounds,same,repeats⟩ := ih
    have separator : Accepts beyond (plus (plus space comma) space) (before ++ [','] ++ after)
        (text ++ (texts ++ (ending ++ close :: rest))) ((before,','),after) :=
      separator_accepts blank blank' (reads.dense_append given _)
    have one := separator.plus (reads.accepts given (texts ++ (ending ++ close :: rest)))
    have nonempty : before ++ [','] ++ after ++ text ≠ [] := by simp
    refine ⟨(((before,','),after),x) :: rounds,by rw [List.map_cons,same],?_⟩
    have all := Repeats.more _ one nonempty repeats
    simpa using all

theorem ending_accepts (beyond : List Char) (ends : Ending ending) (bracket : close = ']' ∨ close = ')')
    (rest : List Char) : ∃ inner mark outer found, ending = inner ++ mark ++ outer ∧ Blank outer ∧
      Accepts beyond space inner (mark ++ (outer ++ close :: rest)) inner ∧
      Accepts beyond (Combinators.optional comma) mark (outer ++ close :: rest) found := by
  cases ends with
  | blank blank =>
    refine ⟨ending,[],[],none,by simp,blank_nil,?_,?_⟩
    · exact space_accepts blank (dense_close bracket rest)
    · exact Rejects.optional (comma_rejects bracket rest)
  | @comma before after blank blank' =>
    refine ⟨before,[','],after,some ',',by simp,blank',?_,?_⟩
    · exact space_accepts blank (dense_comma _)
    · exact Accepts.optional (accepts_charEq ',')

theorem elements_rejects (reads : Reads beyond p item) (bracket : close = ']' ∨ close = ')') (rest : List Char) :
    Rejects beyond (elements p) (close :: rest) :=
  ((((reads.rejects bracket rest).plus_left _).plus_left _).plus_left _).convert _

theorem elements_accepts (reads : Reads beyond p item) (given : item text x) (later : Later item texts xs)
    (ends : Ending ending) (bracket : close = ']' ∨ close = ')') (rest : List Char) :
    ∃ inner outer, ending = inner ++ outer ∧ Blank outer ∧
      Accepts beyond (elements p) (text ++ texts ++ inner) (outer ++ close :: rest) (x :: xs) := by
  obtain ⟨inner,mark,outer,found,rfl,blank,spaces,marks⟩ := ending_accepts beyond ends bracket rest
  obtain ⟨rounds,rfl,repeats⟩ := later_repeats reads later ends bracket rest
  have loop : Accepts beyond (many (plus (plus (plus space comma) space) p) 0) texts
      (inner ++ (mark ++ (outer ++ close :: rest))) rounds := by
    simpa using repeats.accepts 0 (Nat.zero_le _)
  have first := reads.accepts given (texts ++ (inner ++ (mark ++ (outer ++ close :: rest))))
  have whole := (((first.plus loop).plus spaces).plus marks).convert
    fun tp => tp.1.1.1 :: tp.1.1.2.map (·.2)
  exact ⟨inner ++ mark,outer,rfl,blank,by simpa [elements] using whole⟩

theorem inside_accepts {open_ : Parser β} {a : β} (reads : Reads beyond p item) (inside : Inside item text xs)
    (bracket : close = ']' ∨ close = ')') (rest : List Char)
    (opens : Accepts beyond open_ front (text ++ close :: rest) a) :
    ∃ before found after, found.getD [] = xs ∧
      Accepts beyond (plus (plus (plus (plus open_ space) (Combinators.optional (elements p))) space) (makeCharEq close))
        (front ++ text ++ [close]) rest ((((a,before),found),after),close) := by
  cases inside with
  | empty blank =>
    refine ⟨text,none,[],rfl,?_⟩
    have none : Accepts beyond (Combinators.optional (elements p)) [] ([] ++ (close :: rest)) none :=
      Rejects.optional (elements_rejects reads bracket rest)
    have left : Accepts beyond space [] (close :: rest) [] := space_accepts blank_nil (dense_close bracket rest)
    have spaces : Accepts beyond space text (close :: rest) text := space_accepts blank (dense_close bracket rest)
    have whole := (((opens.plus spaces).plus none).plus left).plus (accepts_charEq close)
    simpa using whole
  | @some before text x texts xs ending blank given later ends =>
    obtain ⟨inner,outer,rfl,blank',elements⟩ := elements_accepts reads given later ends bracket rest
    refine ⟨before,some (x :: xs),outer,rfl,?_⟩
    have spaces : Accepts beyond space before (text ++ (texts ++ (inner ++ (outer ++ close :: rest)))) before :=
      space_accepts blank (reads.dense_append given _)
    have left : Accepts beyond space outer (close :: rest) outer := space_accepts blank' (dense_close bracket rest)
    have start : Accepts beyond open_ front (before ++ (text ++ (texts ++ (inner ++ (outer ++ close :: rest))))) a := by
      simpa using opens
    have middle : Accepts beyond (Combinators.optional (JkBuild.PyParser.elements p)) (text ++ texts ++ inner)
        (outer ++ close :: rest) (some (x :: xs)) := elements.optional
    have spaced : Accepts beyond (plus open_ space) (front ++ before) (text ++ texts ++ inner ++ (outer ++ close :: rest))
        (a,before) := by
      simpa using start.plus spaces
    have whole := ((spaced.plus middle).plus left).plus (accepts_charEq close)
    simpa using whole

end Brackets

section Calls

variable {beyond : List Char}

theorem string_dense (string : StringForm text content) : ∃ ch tail, text = ch :: tail ∧ isSpace ch = false := by
  cases string
  exact ⟨'"',_,rfl,rfl⟩

theorem string_reads : Reads beyond stringLiteral StringForm where
  accepts := fun string _ => stringLiteral_accepts string
  dense := string_dense
  rejects := by
    intro close bracket rest
    apply stringLiteral_rejects
    rcases bracket with rfl | rfl <;> simp

theorem listString_accepts (inside : Inside StringForm text contents) (rest : List Char) :
    Accepts beyond listString ('[' :: text ++ [']']) rest contents := by
  have opens : Accepts beyond (makeCharEq '[') ['['] (text ++ ']' :: rest) '[' := accepts_charEq '['
  obtain ⟨before,found,after,rfl,whole⟩ := inside_accepts string_reads inside (.inl rfl) rest opens
  exact whole.convert _

theorem value_accepts (given : ValueForm text v) (rest : List Char) : Accepts beyond value text rest v := by
  cases given with
  | string string => exact ((stringLiteral_accepts string).convert _).or_left
  | @strings text contents inside =>
    have other : Rejects beyond (convert stringLiteral Value.string) ('[' :: text ++ [']'] ++ rest) :=
      (stringLiteral_rejects (by simp)).convert _
    exact Accepts.or_right other ((listString_accepts inside rest).convert _)

theorem name_stops {before : List Char} (blank : Blank before) {sign : Char}
    (plain : (isDigit sign || isAlpha sign) = false)
    (rest : List Char) : ∀ ch, (before ++ sign :: rest).head? = some ch → (isDigit ch || isAlpha ch) = false := by
  intro ch first
  cases before with
  | nil =>
    obtain rfl := Option.some.inj first
    exact plain
  | cons c before =>
    obtain rfl := Option.some.inj first
    have space := blank c List.mem_cons_self
    simp only [isSpace,decide_eq_true_eq,List.mem_cons,List.not_mem_nil,or_false] at space
    rcases space with rfl | rfl | rfl | rfl | rfl | rfl <;> rfl

theorem value_dense (given : ValueForm text v) : ∃ ch tail, text = ch :: tail ∧ isSpace ch = false := by
  cases given with
  | string string => exact string_dense string
  | strings inside => exact ⟨'[',_,rfl,rfl⟩

theorem identifier_head (name : Identifier text) : ∃ ch tail, text = ch :: tail ∧ isAlpha ch = true := by
  cases text with
  | nil => contradiction
  | cons ch tail => exact ⟨ch,tail,rfl,name.1⟩

theorem alpha_plain {ch : Char} (alpha : isAlpha ch = true) : isSpace ch = false := by
  cases space : isSpace ch with
  | false => rfl
  | true =>
    simp only [isSpace,decide_eq_true_eq,List.mem_cons,List.not_mem_nil,or_false] at space
    rcases space with rfl | rfl | rfl | rfl | rfl | rfl <;> exact absurd alpha (by decide)

theorem argument_reads : Reads beyond argument ArgumentForm where
  accepts := by
    rintro text x ⟨name,blank,blank',given⟩ rest
    rename_i key before after text v
    obtain ⟨ch,tail,rfl,plain⟩ := value_dense given
    have named : Accepts beyond identifier key (before ++ (['='] ++ (after ++ (ch :: tail ++ rest)))) key :=
      identifier_accepts name (name_stops blank rfl _)
    have spaces : Accepts beyond space before (['='] ++ (after ++ (ch :: tail ++ rest))) before :=
      space_accepts blank (dense_cons rfl _)
    have spaces' : Accepts beyond space after (ch :: tail ++ rest) after := space_accepts blank' (dense_cons plain _)
    have whole := ((((named.plus spaces).plus (accepts_charEq '=')).plus spaces').plus (value_accepts given rest)).convert
      fun tp => (tp.1.1.1.1,tp.2)
    simpa [argument] using whole
  dense := by
    rintro text x ⟨name,blank,blank',given⟩
    obtain ⟨ch,tail,rfl,alpha⟩ := identifier_head name
    exact ⟨ch,_,rfl,alpha_plain alpha⟩
  rejects := by
    intro close bracket rest
    have stops : ∀ ch, (close :: rest).head? = some ch → isAlpha ch = false := by
      intro ch first
      obtain rfl := Option.some.inj first
      rcases bracket with rfl | rfl <;> rfl
    exact (((((identifier_rejects stops).plus_left _).plus_left _).plus_left _).plus_left _).convert _

theorem functionCall_accepts (given : CallForm text call) (rest : List Char) :
    Accepts beyond functionCall text rest call := by
  cases given with
  | @call name before text args named blank inside =>
    have identifiers : Accepts beyond identifier name (before ++ (['('] ++ (text ++ ')' :: rest))) name :=
      identifier_accepts named (name_stops blank rfl _)
    have spaces : Accepts beyond space before (['('] ++ (text ++ ')' :: rest)) before :=
      space_accepts blank (dense_cons rfl _)
    have opens := (identifiers.plus spaces).plus (accepts_charEq '(')
    obtain ⟨before',found,after,rfl,whole⟩ := inside_accepts argument_reads inside (.inr rfl) rest opens
    have converted := whole.convert fun tp => (⟨tp.1.1.1.1.1.1,(tp.1.1.2.getD []).foldl insert []⟩ : PyFunc)
    simpa [functionCall] using converted

theorem call_dense (given : CallForm text call) : ∃ ch tail, text = ch :: tail ∧ isSpace ch = false := by
  cases given with
  | call named =>
    obtain ⟨ch,tail,rfl,alpha⟩ := identifier_head named
    exact ⟨ch,_,rfl,alpha_plain alpha⟩

theorem dense_nil : Dense [] := fun _ first => absurd first (by simp)

theorem calls_dense (given : CallForms text calls) : Dense text := by
  cases given with
  | nil => exact dense_nil
  | cons call blank later =>
    obtain ⟨ch,tail,rfl,plain⟩ := call_dense call
    exact dense_cons plain _

theorem end_rejects (blank : Blank text) : Rejects beyond (plus (plus space functionCall) space) text := by
  have stops : ∀ ch, ([] : List Char).head? = some ch → isAlpha ch = false := fun _ first => absurd first (by simp)
  have none : Rejects beyond functionCall [] :=
    ((((((identifier_rejects stops).plus_left _).plus_left _).plus_left _).plus_left _).plus_left _).plus_left _ |>.convert _
  have spaces : Accepts beyond space text [] text := space_accepts blank dense_nil
  have first := Rejects.plus_right text spaces none
  rw [List.append_nil] at first
  exact first.plus_left _

theorem call_accepts (blank : Blank before) (given : CallForm text call) (blank' : Blank after) (dense : Dense rest) :
    Accepts beyond (plus (plus space functionCall) space) (before ++ text ++ after) rest ((before,call),after) := by
  obtain ⟨ch,tail,rfl,plain⟩ := call_dense given
  exact ((space_accepts blank (dense_cons plain _)).plus (functionCall_accepts given _)).plus (space_accepts blank' dense)

theorem calls_repeats (given : CallForms text calls) : ∃ rounds : List ((List Char × PyFunc) × List Char),
    rounds.map (fun v => v.1.2) = calls ∧ Repeats beyond (plus (plus space functionCall) space) [] text rounds := by
  induction given with
  | nil => exact ⟨[],rfl,.stop (end_rejects blank_nil)⟩
  | @cons text call after texts calls given blank later ih =>
    obtain ⟨rounds,rfl,repeats⟩ := ih
    have one : Accepts beyond (plus (plus space functionCall) space) ([] ++ text ++ after) (texts ++ [])
        (([],call),after) := by
      apply call_accepts blank_nil given blank
      rw [List.append_nil]
      exact calls_dense later
    have nonempty : [] ++ text ++ after ≠ [] := by
      obtain ⟨ch,tail,rfl,-⟩ := call_dense given
      simp
    exact ⟨(([],call),after) :: rounds,rfl,.more _ one nonempty repeats⟩

theorem parse_of_repeats {rounds : List ((List Char × PyFunc) × List Char)} (beyond : List Char)
    (repeats : Repeats beyond (plus (plus space functionCall) space) rest text rounds) :
    parse (text ++ rest) beyond = .ok (some (rounds.map fun v => v.1.2)) := by
  have read : Accepts beyond functions text rest (rounds.map fun v => v.1.2) :=
    (repeats.accepts 0 (Nat.zero_le _)).convert _
  have done := read (.ofView (text ++ rest) beyond) rfl rfl
  rw [parse,done]
  rfl

/-- Every sequence of calls is read as what the calls say. -/
theorem parse_program {text : List Char} {calls : List PyFunc} (program : Program text calls) (beyond : List Char) :
    parse text beyond = .ok (some calls) := by
  cases program with
  | @program before text _ blank given =>
    cases given with
    | nil =>
      -- White space before no call is not read at all.
      have none := parse_of_repeats beyond (.stop (end_rejects blank))
      simpa using none
    | @cons text call after texts calls given blank' later =>
      obtain ⟨rounds,rfl,repeats⟩ := calls_repeats (later : CallForms texts calls)
      have dense : Dense (texts ++ []) := by
        rw [List.append_nil]
        exact calls_dense later
      have nonempty : before ++ text ++ after ≠ [] := by
        obtain ⟨ch,tail,rfl,-⟩ := call_dense given
        simp
      have all := parse_of_repeats beyond (.more _ (call_accepts blank given blank' dense) nonempty repeats)
      simpa using all

end Calls

section Layouts

theorem insert_all {kwargs : List (List Char × Value)} (distinct : (kwargs.map (·.1)).Nodup) :
    kwargs.foldl insert [] = kwargs := by
  have all : ∀ front, ((front ++ kwargs).map (·.1)).Nodup → kwargs.foldl insert front = front ++ kwargs := by
    clear distinct
    induction kwargs with
    | nil => simp
    | cons arg kwargs ih =>
      intro front distinct
      have fresh : front.any (·.1 = arg.1) = false := by
        apply List.any_eq_false.mpr
        intro other member same
        rw [List.map_append,List.map_cons] at distinct
        have apart := (List.nodup_append.mp distinct).2.2 other.1 (List.mem_map_of_mem member) arg.1 (by simp)
        exact apart (of_decide_eq_true same)
      have inserted : insert front arg = front ++ [arg] := by simp [insert,fresh]
      have later := ih (front ++ [arg]) (by simpa using distinct)
      rw [List.foldl_cons,inserted,later,List.append_assoc]
      rfl
  exact all [] distinct

theorem Quoted.literal (quoted : Quoted text content) : Literal text content := by
  induction quoted with
  | nil => exact .nil
  | plain notBackslash notQuote _ ih => exact .plain notBackslash notQuote ih
  | quote _ ih => exact .escaped '"' ih
  | backslash _ ih => exact .escaped '\\' ih
  | newline _ ih => exact .escaped 'n' ih
  | carriage _ ih => exact .escaped 'r' ih

theorem StringText.form (string : StringText text content) : StringForm text content := by
  cases string with
  | quoted quoted => exact .quoted quoted.literal

theorem Later.mono {item item' : List Char → α → Prop} (weaker : ∀ {text x}, item text x → item' text x)
    (later : Later item text xs) : Later item' text xs := by
  induction later with
  | nil => exact .nil
  | cons blank blank' given _ ih => exact .cons blank blank' (weaker given) ih

theorem Inside.mono {item item' : List Char → α → Prop} (weaker : ∀ {text x}, item text x → item' text x)
    (inside : Inside item text xs) : Inside item' text xs := by
  cases inside with
  | empty blank => exact .empty blank
  | some blank given later ends => exact .some blank (weaker given) (later.mono weaker) ends

theorem ArgumentText.form (given : ArgumentText text arg) : ArgumentForm text arg := by
  cases given with
  | argument name blank blank' value =>
    refine .argument name blank blank' ?_
    cases value with
    | string string => exact .string string.form
    | strings inside => exact .strings (inside.mono StringText.form)

theorem CallText.form {made : PyFunc} (given : CallText text made) : CallForm text made := by
  cases given with
  | call named blank inside distinct =>
    have form := CallForm.call named blank (inside.mono ArgumentText.form)
    rwa [insert_all distinct] at form

theorem Layout.program (layout : Layout text calls) : Program text calls := by
  cases layout with
  | layout blank given =>
    refine .program blank ?_
    clear blank
    induction given with
    | nil => exact .nil
    | cons call blank _ ih => exact .cons call.form blank ih

/-- Every layout of a list of calls is read back as that list. -/
theorem parse_layout {text : List Char} {calls : List PyFunc} (layout : Layout text calls) (beyond : List Char) :
    parse text beyond = .ok (some calls) := parse_program layout.program beyond

/-- `f ( a = "\"" ,b=["x", ] )` and `g()` on the next line. -/
def sampleText : List Char :=
  ['f',' ','(',' ','a',' ','=',' ','"','\\','"','"',' ',',','b','=','[','"','x','"',',',' ',']',' ',')','\n','g','(',')']

def sampleCalls : List PyFunc := [⟨['f'],[(['a'],.string ['"']),(['b'],.strings [['x']])]⟩,⟨['g'],[]⟩]

theorem sample_layout : Layout sampleText sampleCalls := by
  have blank : Blank [' '] := by simp [Blank,isSpace]
  have line : Blank ['\n'] := by simp [Blank,isSpace]
  have one : ∀ ch, isAlpha ch = true → Identifier [ch] := fun _ alpha => ⟨alpha,nofun⟩
  have a : ArgumentText ['a',' ','=',' ','"','\\','"','"'] (['a'],.string ['"']) :=
    .argument (one 'a' (by decide)) blank blank (.string (.quoted (.quote .nil)))
  have x : StringText ['"','x','"'] ['x'] := .quoted (.plain (by decide) (by decide) .nil)
  have xs : Inside StringText ['"','x','"',',',' '] [['x']] := .some blank_nil x .nil (.comma blank_nil blank)
  have b : ArgumentText ['b','=','[','"','x','"',',',' ',']'] (['b'],.strings [['x']]) :=
    .argument (one 'b' (by decide)) blank_nil blank_nil (.strings xs)
  have later : Later ArgumentText [' ',',','b','=','[','"','x','"',',',' ',']'] [(['b'],.strings [['x']])] :=
    .cons blank blank_nil b .nil
  have f : CallText (sampleText.take 25) ⟨['f'],[(['a'],.string ['"']),(['b'],.strings [['x']])]⟩ :=
    .call (one 'f' (by decide)) blank (.some blank a later (.blank blank)) (by decide)
  have g : CallText ['g','(',')'] ⟨['g'],[]⟩ := .call (one 'g' (by decide)) blank_nil (.empty blank_nil) (by decide)
  exact .layout blank_nil (.cons f line (.cons g blank_nil .nil))

theorem sample_read : parse sampleText [] = .ok (some sampleCalls) := parse_layout sample_layout []

end Layouts

end JkBuild.PyParser
