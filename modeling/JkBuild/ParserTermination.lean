import JkBuild.Constructions
import JkBuild.Dependent
import JkBuild.MmParser
import JkBuild.PyParser

/-! Every loop of the three grammars comes to an end: what it repeats takes a character
whenever it succeeds. -/
namespace JkBuild.Combinators

/-- Success takes a character at least. -/
def Productive (p : Parser α) : Prop :=
  ∀ input output value, p input = .ok ⟨output,some value⟩ → output.str.length < input.str.length

/-- The loop of `Many` over a parser: on every input it ends, with no more rounds than there
are characters left. -/
structure Finite (p : Parser α) : Prop where
  consumes : Productive p
  ends : ∀ input, ∃ values output, Rounds p input values output ∧ ∀ left value, p output ≠ .ok ⟨left,some value⟩
  bounded : ∀ {input values output}, Rounds p input values output → values.length ≤ input.str.length

section Rules

variable {p : Parser α} {q : Parser β}

theorem Productive.rounds (consumes : Productive p) (rounds : Rounds p input values output) :
    values.length + output.str.length ≤ input.str.length := by
  induction rounds with
  | stop => simp
  | next first _ ih =>
    have less := consumes _ _ _ first
    simp only [List.length_cons]
    omega

theorem Productive.ends (consumes : Productive p) (input : InputStream) :
    ∃ values output, Rounds p input values output ∧ ∀ left value, p output ≠ .ok ⟨left,some value⟩ := by
  induction size : input.str.length using Nat.strongRecOn generalizing input with
  | ind size ih =>
    by_cases more : ∃ left value, p input = .ok ⟨left,some value⟩
    · obtain ⟨left,value,first⟩ := more
      obtain ⟨values,output,rounds,last⟩ := ih left.str.length (size ▸ consumes _ _ _ first) left rfl
      exact ⟨value :: values,output,.next first rounds,last⟩
    · exact ⟨[],input,.stop input,fun left value first => more ⟨left,value,first⟩⟩

theorem Productive.finite (consumes : Productive p) : Finite p where
  consumes := consumes
  ends := consumes.ends
  bounded := fun rounds => Nat.le_of_add_right_le (consumes.rounds rounds)

theorem Advances.length (advances : Advances p) {res : ParseResult α} (done : p input = .ok res) :
    res.input.str.length ≤ input.str.length := by
  obtain ⟨n,-,same⟩ := advances _ _ done
  simp [same]

theorem predict_productive (pred : Char → Bool) : Productive (makeCharPredict pred) := by
  intro input output value done
  unfold makeCharPredict at done
  split at done
  · cases done
  · split at done
    · obtain ⟨left,consumed,last⟩ := bind_ok done
      obtain ⟨bound,rfl⟩ := consume_ok consumed
      cases last
      simp only [advance_str,List.length_drop]
      omega
    · cases done

theorem Productive.convert (f : α → γ) (consumes : Productive p) : Productive (convert p f) := by
  intro input output value done
  obtain ⟨⟨left,result⟩,first,same⟩ := convert_ok done
  cases result with
  | none => cases same
  | some a =>
    cases same
    exact consumes _ _ _ first

theorem Productive.or {p q : Parser α} (consumes : Productive p) (consumes' : Productive q) : Productive (or p q) := by
  intro input output value done
  obtain ⟨_,first,-⟩ | ⟨_,-,second⟩ := or_ok done
  · exact consumes _ _ _ first
  · exact consumes' _ _ _ second

theorem Productive.plus_left (consumes : Productive p) (advances : Advances q) : Productive (plus p q) := by
  intro input output value done
  obtain same | ⟨middle,left,a,b,first,second,same⟩ := plus_ok done
  · cases same
  · cases same
    exact Nat.lt_of_le_of_lt (advances.length second) (consumes _ _ _ first)

theorem Productive.plus_right (advances : Advances p) (consumes : Productive q) : Productive (plus p q) := by
  intro input output value done
  obtain same | ⟨middle,left,a,b,first,second,same⟩ := plus_ok done
  · cases same
  · cases same
    exact Nat.lt_of_lt_of_le (consumes _ _ _ second) (advances.length first)

theorem Productive.many (consumes : Productive p) (minOccr : Nat) : Productive (many p (minOccr + 1)) := by
  intro input output value done
  obtain ⟨values,left,rounds,-,found⟩ := many_ok done
  have enough : minOccr + 1 ≤ values.length := by
    by_contra few
    rw [if_neg few] at found
    cases found
  have bound := consumes.rounds rounds
  dsimp only at bound
  omega

/-- With a parser that consumes, the fuel of a loop is enough. -/
theorem many_raises {kind : Failure → Prop} (consumes : Productive p) (raises : Raises kind p) (minOccr : Nat) :
    Raises kind (many p minOccr) := by
  intro input e failed
  obtain ⟨values,output,rounds,fails | ⟨all,-⟩⟩ := many_error failed
  · exact raises _ _ fails
  · have bound := consumes.rounds rounds
    omega

end Rules

/-- A parser of single characters whose loops all come to an end. -/
abbrev Grammar (p : Parser α) : Prop := Built OneChar Finite p

theorem Built.predict (pred : Char → Bool) : Grammar (makeCharPredict pred) := .atom (.predict pred)

theorem pair_grammar (first second : Char → Bool) (f : Char × Char → γ) :
    Grammar (convert (plus (makeCharPredict first) (makeCharPredict second)) f) :=
  .convert _ (.plus (.predict _) (.predict _))

theorem pair_productive (first second : Char → Bool) (f : Char × Char → γ) :
    Productive (convert (plus (makeCharPredict first) (makeCharPredict second)) f) :=
  ((predict_productive _).plus_left (predict_advances _)).convert _

theorem Grammar.advances {p : Parser α} (grammar : Grammar p) : Advances p :=
  Built.advances (fun one => one.advances) grammar

theorem Grammar.repeated {p : Parser α} (grammar : Grammar p) (consumes : Productive p) (minOccr : Nat) :
    Grammar (many p minOccr) := .many minOccr consumes.finite grammar

/-- All loops of a parser end, and so does the parser. -/
structure Terminates (p : Parser α) : Prop where
  loops : Built Atom Finite p
  total : ∀ input, p input ≠ .error .diverges

theorem finite_raises {kind : Failure → Prop} {p : Parser α} (minOccr : Nat) (finite : Finite p)
    (raises : Raises kind p) : Raises kind (many p minOccr) := many_raises finite.consumes raises minOccr

theorem atoms_raises {p : Parser α} (built : Built Atom Finite p) : Raises (· = .outOfRange) p :=
  built.raises (fun atom => atom.raises) finite_raises

theorem Built.terminates {p : Parser α} (built : Built Atom Finite p) : Terminates p where
  loops := built
  total := fun _ diverges => Failure.noConfusion (atoms_raises built _ _ diverges)

theorem Grammar.total {p : Parser α} (grammar : Grammar p) (input : InputStream) : ∃ res, p input = .ok res := by
  have raises : Raises (fun _ => False) p := Built.raises (fun one => one.raises _) finite_raises grammar
  cases done : p input with
  | error e => exact (raises _ _ done).elim
  | ok res => exact ⟨res,rfl⟩

theorem Grammar.terminates {p : Parser α} (grammar : Grammar p) : Terminates p :=
  (Built.mono Atom.one grammar).terminates

end JkBuild.Combinators

namespace JkBuild

open Combinators

section Identifiers

open Dependent

theorem packageNameCh_grammar : Grammar packageNameCh := .or (.predict _) (pair_grammar _ _ _)

theorem packageNameCh_productive : Productive packageNameCh := (predict_productive _).or (pair_productive _ _ _)

theorem packageName_grammar : Grammar packageName :=
  .convert _ (packageNameCh_grammar.repeated packageNameCh_productive 1)

theorem segment_grammar : Grammar segment := .convert _ (.plus (.predict _) packageName_grammar)

theorem segment_productive : Productive segment :=
  ((predict_productive _).plus_left packageName_grammar.advances).convert _

theorem pPackage_grammar : Grammar pPackage :=
  .convert _ (.plus packageName_grammar (segment_grammar.repeated segment_productive 0))

theorem ruleName_grammar : Grammar ruleName :=
  .convert _ (.plus (.predict _) (.convert _ (Grammar.repeated (.predict _) (predict_productive _) 1)))

theorem versionStr_grammar : Grammar versionStr :=
  .convert _ (.plus (.predict _) (Grammar.repeated (.predict _) (predict_productive _) 1))

theorem dependency_built : Built Atom Finite dependencyParser := by
  have lead : Built Atom Finite positionLead := .or (.atom (.stringEq _)) (.atom (.stringEq _))
  exact .plus (.plus (.plus (.optional lead) (.optional (pPackage_grammar.mono .one))) (ruleName_grammar.mono .one))
    (.optional (versionStr_grammar.mono .one))

end Identifiers

section DependencyFiles

open MmParser

theorem emptyCh_grammar : Grammar emptyCh := .convert _ (.or (.predict _) (pair_grammar _ _ _))

theorem emptyCh_productive : Productive emptyCh := ((predict_productive _).or (pair_productive _ _ _)).convert _

theorem ruleCh_grammar : Grammar ruleCh := .or (.predict _) (pair_grammar _ _ _)

theorem ruleCh_productive : Productive ruleCh := (predict_productive _).or (pair_productive _ _ _)

theorem targetName_grammar : Grammar targetName :=
  .convert _ (.plus (.plus (emptyCh_grammar.repeated emptyCh_productive 0)
    (ruleCh_grammar.repeated ruleCh_productive 1)) (emptyCh_grammar.repeated emptyCh_productive 0))

/-- The blanks around a name may be missing, the name may not. -/
theorem targetName_productive : Productive targetName := by
  have blanks := emptyCh_grammar.repeated emptyCh_productive 0
  have name : Productive (many ruleCh 1) := ruleCh_productive.many 0
  exact ((Productive.plus_right blanks.advances name).plus_left blanks.advances).convert _

theorem mm_grammar : Grammar mm :=
  .convert _ (.plus (.plus targetName_grammar (.predict _)) (targetName_grammar.repeated targetName_productive 0))

end DependencyFiles

section Calls

open PyParser

theorem alpha_grammar : Grammar alpha := .or (.or (.predict _) (.predict _)) (.predict _)

theorem alpha_productive : Productive alpha :=
  ((predict_productive _).or (predict_productive _)).or (predict_productive _)

theorem others_grammar : Grammar (many (or digit alpha) 0) :=
  Grammar.repeated (.or (.predict _) alpha_grammar) ((predict_productive _).or alpha_productive) 0

theorem identifier_grammar : Grammar identifier := .convert _ (.plus alpha_grammar others_grammar)

theorem identifier_productive : Productive identifier :=
  (alpha_productive.plus_left others_grammar.advances).convert _

theorem stringLiteral_grammar : Grammar stringLiteral := by
  have escape : Grammar escapeChar := pair_grammar _ _ _
  have consumes : Productive escapeChar := pair_productive _ _ _
  exact .convert _ (.plus (.plus (.predict _)
    (Grammar.repeated (.or (.predict _) escape) ((predict_productive _).or consumes) 0)) (.predict _))

theorem space_grammar : Grammar space := Grammar.repeated (.predict _) (predict_productive _) 0

theorem separator_productive : Productive (plus (plus space comma) space) :=
  (Productive.plus_right space_grammar.advances (predict_productive _)).plus_left space_grammar.advances

theorem elements_grammar {p : Parser α} (grammar : Grammar p) : Grammar (elements p) :=
  .convert _ (.plus (.plus (.plus grammar (Grammar.repeated
    (.plus (.plus (.plus space_grammar (.predict _)) space_grammar) grammar)
    (separator_productive.plus_left grammar.advances) 0)) space_grammar) (.optional (.predict _)))

theorem value_grammar : Grammar value :=
  .or (.convert _ stringLiteral_grammar) (.convert _ (.convert _ (.plus (.plus (.plus (.plus (.predict _) space_grammar)
    (.optional (elements_grammar stringLiteral_grammar))) space_grammar) (.predict _))))

theorem argument_grammar : Grammar argument :=
  .convert _ (.plus (.plus (.plus (.plus identifier_grammar space_grammar) (.predict _)) space_grammar) value_grammar)

theorem functionCall_grammar : Grammar functionCall :=
  .convert _ (.plus (.plus (.plus (.plus (.plus (.plus identifier_grammar space_grammar) (.predict _)) space_grammar)
    (.optional (elements_grammar argument_grammar))) space_grammar) (.predict _))

theorem functionCall_productive : Productive functionCall :=
  ((((((identifier_productive.plus_left space_grammar.advances).plus_left (predict_advances _)).plus_left
    space_grammar.advances).plus_left (Grammar.advances (.optional (elements_grammar argument_grammar)))).plus_left
      space_grammar.advances).plus_left (predict_advances _)).convert _

theorem functions_grammar : Grammar functions :=
  .convert _ (Grammar.repeated (.plus (.plus space_grammar functionCall_grammar) space_grammar)
    ((Productive.plus_right space_grammar.advances functionCall_productive).plus_left space_grammar.advances) 0)

end Calls

/-- The exceptions of `ParseIdString`: its own, and that of a comparison beyond the view. -/
theorem parseView_error {semver : Dependent.Semver V} {str beyond : List Char}
    (failed : Dependent.parseView semver str beyond = .error e) :
    e = .outOfRange ∨ ∃ message, e = .jkBuildError message := by
  unfold Dependent.parseView at failed
  split at failed
  · exact .inr ⟨_,(Except.error.inj failed).symm⟩
  · obtain first | ⟨pres,-,last⟩ := bind_error failed
    · exact .inl (atoms_raises dependency_built _ _ first)
    · split at last
      · exact .inr ⟨_,(Except.error.inj last).symm⟩
      · obtain version | ⟨_,-,⟨⟩⟩ := bind_error last
        unfold Dependent.parseVersion at version
        split at version
        · cases version
        · split at version
          · cases version
          · exact .inr ⟨_,(Except.error.inj version).symm⟩

theorem parseView_total (semver : Dependent.Semver V) (str beyond : List Char) :
    Dependent.parseView semver str beyond ≠ .error .diverges := by
  intro diverges
  obtain beyond | ⟨message,own⟩ := parseView_error diverges
  · cases beyond
  · cases own

/-- Parsing ends on every input, in all three grammars, and every loop in them makes no more
rounds than there are characters left. -/
theorem parsing_terminates :
    (Terminates Dependent.dependencyParser ∧ Terminates MmParser.mm ∧ Terminates PyParser.functions) ∧
      (∀ {V : Type} (semver : Dependent.Semver V) (str beyond : List Char),
        Dependent.parseView semver str beyond ≠ .error .diverges) ∧
      (∀ text beyond, MmParser.parse text beyond ≠ .error .diverges) ∧
        ∀ text beyond, PyParser.parse text beyond ≠ .error .diverges := by
  refine ⟨⟨dependency_built.terminates,mm_grammar.terminates,functions_grammar.terminates⟩,parseView_total,?_,?_⟩
  · intro text beyond diverges
    obtain first | ⟨_,-,⟨⟩⟩ := bind_error diverges
    exact mm_grammar.terminates.total _ first
  · intro text beyond diverges
    obtain first | ⟨_,-,⟨⟩⟩ := bind_error diverges
    exact functions_grammar.terminates.total _ first

end JkBuild
