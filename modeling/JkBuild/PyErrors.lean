import JkBuild.PyRoundTrip
import JkBuild.ParserTermination
import Mathlib.Data.List.TakeWhile

/-! What `Py::Parse` makes of any text: the calls of the longest sequence of calls the text
starts with. A text with a syntax error is such a sequence and something more, which is not
looked at. -/
namespace JkBuild.PyParser

open Combinators

section Soundness

theorem blank_append (blank : Blank first) (blank' : Blank second) : Blank (first ++ second) := by
  intro ch member
  exact (List.mem_append.mp member).elim (blank ch) (blank' ch)

theorem series_chars {good : Char → Bool} (series : Series (fun text ch => text = [ch] ∧ good ch = true) text chars) :
    text = chars ∧ ∀ ch ∈ chars, good ch = true := by
  induction series with
  | nil => exact ⟨rfl,fun _ member => absurd member List.not_mem_nil⟩
  | cons one _ ih =>
    obtain ⟨rfl,holds⟩ := one
    obtain ⟨rfl,all⟩ := ih
    exact ⟨rfl,List.forall_mem_cons.mpr ⟨holds,all⟩⟩

theorem space_yields : Yields space fun text chars => text = chars ∧ Blank chars := by
  intro input output value done
  obtain ⟨text,view,series⟩ := (predict_yields isSpace).many 0 _ _ _ done
  exact ⟨text,view,series_chars series⟩

theorem charEq_yields (sign : Char) : Yields (makeCharEq sign) fun text ch => text = [sign] ∧ ch = sign := by
  intro input output value done
  obtain ⟨text,view,rfl,holds⟩ := predict_yields _ _ _ _ done
  obtain rfl := of_decide_eq_true holds
  exact ⟨_,view,rfl,rfl⟩

theorem identifier_yields : Yields identifier fun text name => text = name ∧ Identifier name := by
  have others : Yields (many (or digit alpha) 0) fun text tail =>
      text = tail ∧ ∀ c ∈ tail, (isDigit c || isAlpha c) = true := by
    intro input output value done
    rw [digit_alpha_predict] at done
    obtain ⟨text,view,series⟩ := (predict_yields _).many 0 _ _ _ done
    exact ⟨text,view,series_chars series⟩
  have start : Yields alpha fun text ch => text = [ch] ∧ isAlpha ch = true := alpha_predict ▸ predict_yields isAlpha
  refine (start.plus others).convert ?_
  rintro text ⟨ch,tail⟩ ⟨first,second,rfl,⟨rfl,alpha⟩,rfl,all⟩
  exact ⟨rfl,alpha,all⟩

theorem escapeChar_yields : Yields escapeChar fun text ch => ∃ c, text = ['\\',c] ∧ ch = unescape c := by
  refine ((charEq_yields '\\').plus (predict_yields _)).convert ?_
  rintro text ⟨slash,c⟩ ⟨first,second,rfl,⟨rfl,-⟩,rfl,-⟩
  exact ⟨c,rfl,rfl⟩

theorem literal_series (series : Series (fun text ch => (text = [ch] ∧ ch ≠ '\\' ∧ ch ≠ '"') ∨
    ∃ c, text = ['\\',c] ∧ ch = unescape c) text content) : Literal text content := by
  induction series with
  | nil => exact .nil
  | cons one _ ih =>
    obtain ⟨rfl,notBackslash,notQuote⟩ | ⟨c,rfl,rfl⟩ := one
    · exact .plain notBackslash notQuote ih
    · exact .escaped c ih

theorem stringLiteral_yields : Yields stringLiteral StringForm := by
  have plain : Yields (makeCharNot ['\\','"']) fun text ch => (text = [ch] ∧ ch ≠ '\\' ∧ ch ≠ '"') ∨
      ∃ c, text = ['\\',c] ∧ ch = unescape c := by
    intro input output value done
    obtain ⟨text,view,rfl,holds⟩ := predict_yields _ _ _ _ done
    exact ⟨_,view,.inl ⟨rfl,by simpa using holds⟩⟩
  have escaped : Yields escapeChar fun text ch => (text = [ch] ∧ ch ≠ '\\' ∧ ch ≠ '"') ∨
      ∃ c, text = ['\\',c] ∧ ch = unescape c := by
    intro input output value done
    obtain ⟨text,view,given⟩ := escapeChar_yields _ _ _ done
    exact ⟨text,view,.inr given⟩
  have inside := ((charEq_yields '"').plus ((plain.or escaped).many 0)).plus (charEq_yields '"')
  refine inside.convert ?_
  rintro text ⟨⟨quote,content⟩,quote'⟩ ⟨_,_,rfl,⟨_,body,rfl,⟨rfl,-⟩,series⟩,rfl,-⟩
  exact .quoted (literal_series series)

/-- Elements and, at their end, white space and perhaps a comma. -/
inductive Elements (item : List Char → α → Prop) : List Char → List α → Prop
  | elements : item text x → Later item texts xs → Blank before → mark = [] ∨ mark = [','] →
      Elements item (text ++ texts ++ before ++ mark) (x :: xs)

variable {p : Parser α} {item : List Char → α → Prop}

theorem separator_yields : Yields (plus (plus space comma) space) fun text _ =>
    ∃ before after, text = before ++ ',' :: after ∧ Blank before ∧ Blank after := by
  intro input output value done
  obtain ⟨text,view,first,after,rfl,⟨before,mark,rfl,⟨rfl,blank⟩,rfl,-⟩,rfl,blank'⟩ :=
    (space_yields.plus (charEq_yields ',')).plus space_yields _ _ _ done
  exact ⟨_,view,_,_,List.append_cons .. ▸ rfl,blank,blank'⟩

theorem later_series {rounds : List (((List Char × Char) × List Char) × α)}
    (series : Series (fun text found => ∃ first second, text = first ++ second ∧
      (∃ before after, first = before ++ ',' :: after ∧ Blank before ∧ Blank after) ∧ item second found.2) text rounds) :
    Later item text (rounds.map (·.2)) := by
  induction series with
  | nil => exact .nil
  | cons one _ ih =>
    obtain ⟨_,second,rfl,⟨before,after,rfl,blank,blank'⟩,given⟩ := one
    exact .cons blank blank' given ih

theorem elements_yields (yields : Yields p item) : Yields (elements p) (Elements item) := by
  refine (((yields.plus ((separator_yields.plus yields).many 0)).plus space_yields).plus
    (charEq_yields ',').optional).convert ?_
  rintro text ⟨⟨⟨x,rounds⟩,blanks⟩,found⟩ ⟨_,mark,rfl,⟨_,before,rfl,⟨first,texts,rfl,given,series⟩,rfl,blank⟩,marked⟩
  refine .elements given (later_series series) blank ?_
  obtain ⟨rfl,-⟩ | ⟨_,-,rfl,-⟩ := marked
  · exact .inl rfl
  · exact .inr rfl

theorem inside_of_elements (blank : Blank before) (blank' : Blank after)
    (given : (text = [] ∧ found = none) ∨ ∃ xs, found = some xs ∧ Elements item text xs) :
    Inside item (before ++ text ++ after) (found.getD []) := by
  obtain ⟨rfl,rfl⟩ | ⟨_,rfl,given⟩ := given
  · rw [List.append_nil]
    exact .empty (blank_append blank blank')
  · cases given with
    | @elements text x texts xs inner mark given later blank'' marked =>
      have ends : Ending (inner ++ mark ++ after) := by
        rcases marked with rfl | rfl
        · rw [List.append_nil]
          exact .blank (blank_append blank'' blank')
        · rw [List.append_assoc]
          exact .comma blank'' blank'
      have whole := Inside.some blank given later ends
      simpa using whole

theorem listString_yields : Yields listString fun text contents =>
    ∃ inside, text = '[' :: inside ++ [']'] ∧ Inside StringForm inside contents := by
  refine (((((charEq_yields '[').plus space_yields).plus (elements_yields stringLiteral_yields).optional).plus
    space_yields).plus (charEq_yields ']')).convert ?_
  rintro text ⟨⟨⟨⟨_,_⟩,found⟩,_⟩,_⟩
    ⟨_,_,rfl,⟨_,after,rfl,⟨_,middle,rfl,⟨_,before,rfl,⟨rfl,-⟩,rfl,blank⟩,given⟩,rfl,blank'⟩,rfl,-⟩
  exact ⟨_,by simp,inside_of_elements blank blank' given⟩

theorem value_yields : Yields value ValueForm := by
  refine (stringLiteral_yields.convert .string).or (listString_yields.convert ?_)
  rintro text contents ⟨inside,rfl,given⟩
  exact .strings given

theorem argument_yields : Yields argument ArgumentForm := by
  refine ((((identifier_yields.plus space_yields).plus (charEq_yields '=')).plus space_yields).plus
    value_yields).convert ?_
  rintro text ⟨⟨⟨⟨key,_⟩,_⟩,_⟩,v⟩
    ⟨_,value,rfl,⟨_,after,rfl,⟨_,_,rfl,⟨_,before,rfl,⟨rfl,name⟩,rfl,blank⟩,rfl,-⟩,rfl,blank'⟩,given⟩
  have whole := ArgumentForm.argument name blank blank' given
  simpa using whole

theorem functionCall_yields : Yields functionCall CallForm := by
  refine ((((((identifier_yields.plus space_yields).plus (charEq_yields '(')).plus space_yields).plus
    (elements_yields argument_yields).optional).plus space_yields).plus (charEq_yields ')')).convert ?_
  rintro text ⟨⟨⟨⟨⟨⟨name,_⟩,_⟩,_⟩,found⟩,_⟩,_⟩
    ⟨_,_,rfl,⟨_,after,rfl,⟨_,middle,rfl,⟨_,inner,rfl,⟨_,_,rfl,⟨_,before,rfl,⟨rfl,named⟩,rfl,blank⟩,rfl,-⟩,
      rfl,blank'⟩,given⟩,rfl,blank''⟩,rfl,-⟩
  have whole := CallForm.call named blank (inside_of_elements blank' blank'' given)
  simpa using whole

end Soundness

section Programs

variable {beyond text : List Char}

def RoundText (text : List Char) (found : (List Char × PyFunc) × List Char) : Prop :=
  ∃ first after, text = first ++ after ∧
    (∃ before body, first = before ++ body ∧ (before = found.1.1 ∧ Blank found.1.1) ∧ CallForm body found.1.2) ∧
      after = found.2 ∧ Blank found.2

theorem round_yields : Yields (plus (plus space functionCall) space) RoundText :=
  (space_yields.plus functionCall_yields).plus space_yields

theorem rounds_program {rounds : List ((List Char × PyFunc) × List Char)} (series : Series RoundText text rounds) :
    Program text (rounds.map fun v => v.1.2) := by
  induction series with
  | nil => exact .program blank_nil .nil
  | @cons text found texts rounds one _ ih =>
    obtain ⟨_,after,rfl,⟨before,body,rfl,⟨rfl,blank⟩,given⟩,rfl,blank'⟩ := one
    rw [List.map_cons]
    generalize rounds.map (fun v => v.1.2) = calls at ih ⊢
    cases ih with
    | @program inner texts _ blank'' forms =>
      have whole := Program.program blank (CallForms.cons given (blank_append blank' blank'') forms)
      simpa using whole

/-- No call starts here, also not behind white space. -/
def NoCall (view : List Char) : Prop :=
  ∀ before text rest call, view = before ++ text ++ rest → Blank before → ¬CallForm text call

theorem noCall_of_fails {input left : InputStream}
    (fails : plus (plus space functionCall) space input = .ok ⟨left,none⟩) : NoCall input.str := by
  rintro before text rest call view blank given
  have spaces : Blank (rest.takeWhile isSpace) := fun ch member => List.mem_takeWhile_imp member
  have dense : Dense (rest.dropWhile isSpace) := by
    intro ch first
    have stopped := List.head?_dropWhile_not isSpace rest
    rw [first] at stopped
    simpa using stopped
  have one : Accepts input.beyond (plus (plus space functionCall) space) (before ++ text ++ rest.takeWhile isSpace)
      (rest.dropWhile isSpace) ((before,call),rest.takeWhile isSpace) := call_accepts blank given spaces dense
  have done := one input (by rw [view,List.append_assoc _ (rest.takeWhile isSpace),List.takeWhile_append_dropWhile]) rfl
  rw [fails] at done
  cases done

/-- Every text is read as the calls of a sequence it starts with, up to where no call follows. -/
theorem parse_longest (text beyond : List Char) : ∃ read left calls, text = read ++ left ∧ Program read calls ∧
    NoCall left ∧ parse text beyond = .ok (some calls) := by
  obtain ⟨res,done⟩ := functions_grammar.total (.ofView text beyond)
  obtain ⟨⟨output,result⟩,looped,rfl⟩ := convert_ok done
  obtain ⟨rounds,left,ran,fails,found⟩ := many_ok looped
  obtain rfl : result = some rounds := found
  obtain ⟨read,view,series⟩ := ran.series round_yields
  refine ⟨read,output.str,rounds.map fun v => v.1.2,view,rounds_program series,noCall_of_fails fails,?_⟩
  rw [parse,done]
  rfl

/-- A text with a syntax error is refused, and all of any other text is read. -/
structure RejectsErrors (text beyond : List Char) : Prop where
  whole : ∀ calls, parse text beyond = .ok (some calls) → Program text calls
  refused : (¬∃ calls, Program text calls) → parse text beyond = .ok none

/-- That is so exactly for the texts that have no syntax error. -/
theorem rejectsErrors_iff (text beyond : List Char) : RejectsErrors text beyond ↔ ∃ calls, Program text calls := by
  constructor
  · intro rejects
    obtain ⟨_,_,calls,-,-,-,read⟩ := parse_longest text beyond
    exact ⟨calls,rejects.whole calls read⟩
  · rintro ⟨calls,program⟩
    have read := parse_program program beyond
    constructor
    · intro calls' read'
      rw [read] at read'
      obtain rfl := Option.some.inj (Except.ok.inj read')
      exact program
    · exact fun none => absurd ⟨calls,program⟩ none

theorem callForm_last (given : CallForm text call) : text.getLast? = some ')' := by
  cases given with
  | call named blank inside => exact List.getLast?_concat

theorem program_last (program : Program text calls) : ∀ ch, text.getLast? = some ch → ch = ')' ∨ isSpace ch = true := by
  cases program with
  | @program before texts _ blank forms =>
    have blanks : ∀ {text : List Char}, Blank text → ∀ ch, text.getLast? = some ch → ch = ')' ∨ isSpace ch = true :=
      fun blank ch last => .inr (blank ch (List.mem_of_getLast? last))
    have joined : ∀ {first second : List Char}, (∀ ch, first.getLast? = some ch → ch = ')' ∨ isSpace ch = true) →
        (∀ ch, second.getLast? = some ch → ch = ')' ∨ isSpace ch = true) →
          ∀ ch, (first ++ second).getLast? = some ch → ch = ')' ∨ isSpace ch = true := by
      intro first second one two ch last
      rw [List.getLast?_append] at last
      cases ends : second.getLast? with
      | none =>
        rw [ends] at last
        exact one ch last
      | some c =>
        rw [ends] at last
        exact two ch (ends.trans last)
    refine joined (blanks blank) ?_
    clear blank
    induction forms with
    | nil => exact blanks blank_nil
    | cons call blank _ ih =>
      refine joined (joined ?_ (blanks blank)) ih
      intro ch last
      rw [callForm_last call] at last
      exact .inl (Option.some.inj last).symm

/-- In `f() g(` the second call is not closed. The first one is returned alone. -/
theorem later_error_ignored : parse ['f','(',')',' ','g','('] [] = .ok (some [⟨['f'],[]⟩]) ∧
    ¬RejectsErrors ['f','(',')',' ','g','('] [] := by
  have read : parse ['f','(',')',' ','g','('] [] = .ok (some [⟨['f'],[]⟩]) := by decide
  refine ⟨read,fun rejects => ?_⟩
  obtain ⟨⟩ | space := program_last (rejects.whole _ read) '(' rfl
  · contradiction
  · cases space

end Programs

end JkBuild.PyParser
