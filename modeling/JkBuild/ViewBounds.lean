import JkBuild.ParserTermination
import JkBuild.StreamPositions

/-! What the parser of identifiers reads. A parser of one character looks whether the view has
one; the comparison with a position reads two characters, whatever the view has. -/
namespace JkBuild.Combinators

/-- The same view in another buffer. -/
def InputStream.within (input : InputStream) (beyond : List Char) : InputStream := { input with beyond := beyond }

def ParseResult.within (res : ParseResult α) (beyond : List Char) : ParseResult α :=
  { res with input := res.input.within beyond }

/-- On this view, what follows it in the buffer makes no difference. -/
def BlindAt (p : Parser α) (input : InputStream) : Prop :=
  ∀ beyond, p (input.within beyond) = (p input).map (·.within beyond)

section Rules

variable {p : Parser α} {input : InputStream}

theorem predict_blind (pred : Char → Bool) (input : InputStream) : BlindAt (makeCharPredict pred) input := by
  intro beyond
  cases view : input.str with
  | nil => simp [makeCharPredict,InputStream.within,view,Except.map,ParseResult.within]
  | cons ch rest =>
    cases holds : pred ch <;>
      simp [makeCharPredict,InputStream.within,InputStream.consume,InputStream.advance,view,holds,Except.map,
        ParseResult.within]

theorem BlindAt.convert (blind : BlindAt p input) (f : α → β) : BlindAt (convert p f) input := by
  intro beyond
  simp only [Combinators.convert,blind beyond]
  cases p input <;> rfl

theorem BlindAt.or {q : Parser α} (blind : BlindAt p input) (blind' : BlindAt q input) : BlindAt (or p q) input := by
  intro beyond
  simp only [Combinators.or,blind beyond,blind' beyond]
  rcases p input with e | ⟨left,_ | value⟩ <;> rfl

theorem BlindAt.plus {q : Parser β} (blind : BlindAt p input) (later : ∀ middle, BlindAt q middle) :
    BlindAt (plus p q) input := by
  intro beyond
  simp only [Combinators.plus,blind beyond]
  rcases p input with e | ⟨middle,_ | a⟩
  · rfl
  · rfl
  · have second := later middle beyond
    simp only [Except.map,ok_bind,ParseResult.within] at second ⊢
    rw [second]
    rcases q middle with e | ⟨output,_ | b⟩ <;> rfl

theorem BlindAt.optional (blind : BlindAt p input) : BlindAt (optional p) input := by
  intro beyond
  simp only [Combinators.optional,blind beyond]
  rcases p input with e | ⟨left,_ | value⟩ <;> rfl

theorem manyLoop_blind (blind : ∀ input, BlindAt p input) (fuel : Nat) (input : InputStream) (beyond : List Char)
    (ret : List α) : manyLoop p fuel (input.within beyond) ret =
      (manyLoop p fuel input ret).map fun found => (found.1,found.2.within beyond) := by
  induction fuel generalizing input ret with
  | zero => rfl
  | succ fuel ih =>
    simp only [manyLoop,blind input beyond]
    rcases p input with e | ⟨middle,_ | value⟩
    · rfl
    · rfl
    · exact ih middle (ret ++ [value])

theorem many_blind (blind : ∀ input, BlindAt p input) (minOccr : Nat) (input : InputStream) :
    BlindAt (many p minOccr) input := by
  intro beyond
  have looped := manyLoop_blind blind (input.str.length + 1) input beyond []
  simp only [Combinators.many,InputStream.within] at looped ⊢
  rw [looped]
  rcases manyLoop p (input.str.length + 1) input [] with e | ⟨ret,current⟩ <;> rfl

theorem Built.blind {repeated : ∀ {α : Type}, Parser α → Prop} (built : Built OneChar repeated p)
    (input : InputStream) : BlindAt p input := by
  induction built generalizing input with
  | atom one =>
    cases one with
    | predict pred => exact predict_blind pred input
  | convert f _ ih => exact (ih input).convert f
  | or _ _ ih ih' => exact (ih input).or (ih' input)
  | plus _ _ ih ih' => exact (ih input).plus ih'
  | optional _ ih => exact (ih input).optional
  | many minOccr _ _ ih => exact many_blind ih minOccr input

/-- `MakeStringEq` where a comparison must not look behind the view. -/
def makeStringEqWithin (s : List Char) : Parser (List Char) := fun input =>
  if s.length ≤ input.str.length then makeStringEq s input else .error .undefined

theorem stringEq_within {s : List Char} (enough : s.length ≤ input.str.length) :
    makeStringEqWithin s input = makeStringEq s input := if_pos enough

theorem stringEq_blind {s : List Char} (enough : s.length ≤ input.str.length) : BlindAt (makeStringEq s) input := by
  intro beyond
  have front : ∀ beyond, (input.str ++ beyond).take s.length = input.str.take s.length :=
    fun _ => List.take_append_of_le_length enough
  simp only [makeStringEq,InputStream.within,front]
  split
  · simp [InputStream.consume,enough,Except.map,ParseResult.within,InputStream.within,InputStream.advance]
  · rfl

/-- The comparison is with the view where it succeeds: beyond it, nothing can be consumed. -/
theorem stringEq_iff (s : List Char) (input : InputStream) :
    (∃ output value, makeStringEq s input = .ok ⟨output,some value⟩) ↔ s <+: input.str := by
  constructor
  · rintro ⟨output,value,done⟩
    simp only [makeStringEq] at done
    split at done
    · next same =>
      obtain ⟨left,consumed,-⟩ := bind_ok done
      rw [List.take_append_of_le_length (consume_ok consumed).1] at same
      exact same ▸ List.take_prefix _ _
    · cases done
  · rintro ⟨rest,same⟩
    exact ⟨_,_,accepts_stringEq s input same.symm rfl⟩

end Rules

end JkBuild.Combinators

namespace JkBuild.Dependent

open Combinators

/-- The positions where comparisons must not look behind the view. -/
def positionLeadWithin : Parser (List Char) := or (makeStringEqWithin absoluteLead) (makeStringEqWithin builtinLead)

/-- `dependency_parser` with any parser of positions. -/
def dependencyParserOver (lead : Parser (List Char)) :
    Parser (((Option (List Char) × Option (List Char)) × List Char) × Option (List Char)) :=
  plus (plus (plus (optional lead) (optional pPackage)) ruleName) (optional versionStr)

/-- `ParseIdString` with any parser of positions. -/
def parseViewOver (semver : Semver V) (positions : Parser (List Char)) (str beyond : List Char) :
    Except Failure (BuildRuleId V) :=
  if str = [] then
    .error (.jkBuildError ("Failed to parse dependent identifier '" ++ String.ofList str ++ "'."))
  else do
    let pres ← dependencyParserOver positions (.ofView str beyond)
    match pres.result with
    | none => .error (.jkBuildError ("Failed to parse dep id '" ++ String.ofList str ++ "', unknown error"))
    | some (((lead,package),rule),ver) => do
      let version ← parseVersion semver ver
      return ⟨package.map String.ofList,String.ofList rule,positionOf lead package,version⟩

theorem parseView_over (semver : Semver V) (str beyond : List Char) :
    parseView semver str beyond = parseViewOver semver positionLead str beyond := rfl

/-- Nothing outside of the view is read: what follows it in the buffer does not change the
outcome, nothing is compared with it, and a comparison succeeds on what the view starts with. -/
structure ReadsOnlyView (semver : Semver V) (view : List Char) : Prop where
  same : ∀ beyond beyond', parseView semver view beyond = parseView semver view beyond'
  inside : ∀ beyond, parseViewOver semver positionLeadWithin view beyond = parseView semver view beyond
  prefixes : ∀ s beyond position, (∃ output value, makeStringEq s ⟨view,beyond,position⟩ = .ok ⟨output,some value⟩) ↔
    s <+: view

section Views

variable {semver : Semver V} {view : List Char}

theorem rest_blind (lead : Parser (List Char)) {input : InputStream} (blind : BlindAt lead input) :
    BlindAt (dependencyParserOver lead) input :=
  ((blind.optional.plus (Built.blind (.optional pPackage_grammar))).plus (Built.blind ruleName_grammar)).plus
    (Built.blind (.optional versionStr_grammar))

theorem same_of_two (two : 2 ≤ view.length) (beyond beyond' : List Char) :
    parseView semver view beyond = parseView semver view beyond' := by
  have first : BlindAt (makeStringEq absoluteLead) (.ofView view beyond) := stringEq_blind two
  have second : BlindAt (makeStringEq builtinLead) (.ofView view beyond) := stringEq_blind two
  have lead : BlindAt positionLead (.ofView view beyond) := first.or second
  have parsed := rest_blind positionLead lead beyond'
  have nonempty : view ≠ [] := by
    rintro rfl
    contradiction
  rw [parseView_over,parseView_over,parseViewOver,parseViewOver,if_neg nonempty,if_neg nonempty]
  have other : InputStream.ofView view beyond' = (InputStream.ofView view beyond).within beyond' := rfl
  rw [other,parsed]
  cases dependencyParserOver positionLead (.ofView view beyond) <;> rfl

theorem inside_of_two (two : 2 ≤ view.length) (beyond : List Char) :
    parseViewOver semver positionLeadWithin view beyond = parseView semver view beyond := by
  have lead : positionLeadWithin (.ofView view beyond) = positionLead (.ofView view beyond) := by
    have first : makeStringEqWithin absoluteLead (.ofView view beyond) = makeStringEq absoluteLead (.ofView view beyond) :=
      stringEq_within two
    have second : makeStringEqWithin builtinLead (.ofView view beyond) = makeStringEq builtinLead (.ofView view beyond) :=
      stringEq_within two
    rw [positionLeadWithin,positionLead,Combinators.or,Combinators.or,first,second]
  have parser : dependencyParserOver positionLeadWithin (.ofView view beyond) =
      dependencyParserOver positionLead (.ofView view beyond) := by
    simp only [dependencyParserOver,Combinators.plus,Combinators.optional,lead]
  rw [parseView_over,parseViewOver,parseViewOver,parser]

/-- With a single character, the first comparison already looks behind the view. -/
theorem outside_of_one (ch : Char) (beyond : List Char) :
    parseViewOver semver positionLeadWithin [ch] beyond = .error .undefined := rfl

/-- Parsing reads its view only, exactly if the view has more than one character. -/
theorem readsOnlyView_iff (semver : Semver V) {view : List Char} (nonempty : view ≠ []) :
    ReadsOnlyView semver view ↔ 2 ≤ view.length := by
  constructor
  · intro reads
    by_contra few
    obtain ⟨ch,rfl⟩ : ∃ ch, view = [ch] := by
      apply List.length_eq_one_iff.mp
      have positive := List.length_pos_iff.mpr nonempty
      omega
    have inside := reads.inside []
    rw [outside_of_one] at inside
    obtain beyond | ⟨message,own⟩ := parseView_error inside.symm
    · cases beyond
    · cases own
  · intro two
    exact ⟨same_of_two two,inside_of_two two,fun s beyond position => stringEq_iff s ⟨view,beyond,position⟩⟩

theorem package_reads : ReadsOnlyView digitVersions ['/','/','a',':','b'] :=
  (readsOnlyView_iff digitVersions (by decide)).mpr (by decide)

/-- A slash at the end of a buffer is no identifier. With another slash behind it, the two are
taken for a position, and there are not that many characters to consume. -/
theorem slash_reads_beyond : ¬ReadsOnlyView digitVersions ['/'] := by
  intro reads
  have same := reads.same ['/'] terminator
  have beyond : parseView digitVersions ['/'] ['/'] = .error .outOfRange := rfl
  have refused : parseView digitVersions ['/'] terminator =
      .error (.jkBuildError ("Failed to parse dep id '" ++ String.ofList ['/'] ++ "', unknown error")) := rfl
  rw [beyond,refused] at same
  cases same

end Views

end JkBuild.Dependent
