import Mathlib.Data.List.Basic
import Mathlib.Algebra.Group.Nat.Defs

/-! The words of one line of a POSIX shell: blanks end them, operators end them and stand for
themselves, backslashes and quotes are removed. Comments, expansions and substitutions are
left out. -/
namespace JkBuild.Shell

inductive Token where
  | word (text : List Char)
  | operator (ch : Char)
  deriving DecidableEq, Repr

inductive Mode where
  | plain
  | escaped
  | single
  | double
  | doubleEscaped
  deriving DecidableEq, Repr

/-- The tokens so far and the word that has been begun. -/
structure State where
  done : List Token
  word : Option (List Char)
  mode : Mode
  deriving DecidableEq, Repr

def isBlank (ch : Char) : Bool := ch ∈ [' ','\t']

def isOperator (ch : Char) : Bool := ch ∈ ['|','&',';','<','>','(',')']

def isQuote (ch : Char) : Bool := ch ∈ ['\'','"']

/-- What a backslash quotes between double quotes. -/
def isQuotedInDouble (ch : Char) : Bool := ch ∈ ['$','`','"','\\']

def State.push (s : State) (ch : Char) : State := { s with word := some (s.word.getD [] ++ [ch]) }

/-- A word begins, also an empty one. -/
def State.start (s : State) : State := { s with word := some (s.word.getD []) }

def State.enter (s : State) (mode : Mode) : State := { s with mode := mode }

def flush : Option (List Char) → List Token
  | none => []
  | some text => [.word text]

def State.finishWord (s : State) : State := { s with done := s.done ++ flush s.word, word := none }

def State.operator (s : State) (ch : Char) : State := { s with done := s.done ++ [.operator ch] }

def stepPlain (s : State) (ch : Char) : State :=
  if ch = '\\' then s.start.enter .escaped
  else if ch = '\'' then s.start.enter .single
  else if ch = '"' then s.start.enter .double
  else if isBlank ch then s.finishWord
  else if isOperator ch then s.finishWord.operator ch
  else s.push ch

def step (s : State) (ch : Char) : State :=
  match s.mode with
  | .plain => stepPlain s ch
  | .escaped => (s.push ch).enter .plain
  | .single => if ch = '\'' then s.enter .plain else s.push ch
  | .double => if ch = '"' then s.enter .plain else if ch = '\\' then s.enter .doubleEscaped else s.push ch
  | .doubleEscaped => (if isQuotedInDouble ch then s.push ch else (s.push '\\').push ch).enter .double

def initial : State := ⟨[],none,.plain⟩

/-- A quote that is open at the end is an error. -/
def finish (s : State) : Option (List Token) :=
  match s.mode with
  | .plain | .escaped => some (s.done ++ flush s.word)
  | .single | .double | .doubleEscaped => none

def split (text : List Char) : Option (List Token) := finish (text.foldl step initial)

section Measures

/-- The quotes that are kept as characters of words. -/
def Token.quotes : Token → Nat
  | word text => text.countP isQuote
  | operator _ => 0

def quotes : List Token → Nat
  | [] => 0
  | token :: tokens => token.quotes + quotes tokens

def State.quotes (s : State) : Nat := Shell.quotes (s.done ++ flush s.word)

/-- A word weighs two for each character and one for itself. -/
def Token.weight : Token → Nat
  | word text => 2 * text.length + 1
  | operator _ => 0

def weight : List Token → Nat
  | [] => 0
  | token :: tokens => token.weight + weight tokens

def State.weight (s : State) : Nat := Shell.weight (s.done ++ flush s.word)

@[simp] theorem quotes_append (first second : List Token) :
    quotes (first ++ second) = quotes first + quotes second := by
  induction first with
  | nil => simp [quotes]
  | cons token first ih => simp [quotes,ih,Nat.add_assoc]

@[simp] theorem weight_append (first second : List Token) :
    weight (first ++ second) = weight first + weight second := by
  induction first with
  | nil => simp [weight]
  | cons token first ih => simp [weight,ih,Nat.add_assoc]

@[simp] theorem quotes_enter (s : State) (mode : Mode) : (s.enter mode).quotes = s.quotes := rfl

@[simp] theorem weight_enter (s : State) (mode : Mode) : (s.enter mode).weight = s.weight := rfl

theorem quotes_push (s : State) (ch : Char) : (s.push ch).quotes = s.quotes + if isQuote ch then 1 else 0 := by
  cases given : s.word <;>
    simp [State.quotes,State.push,given,flush,quotes,Token.quotes,List.countP_append,List.countP_cons,Nat.add_assoc]

theorem quotes_start (s : State) : s.start.quotes = s.quotes := by
  cases given : s.word <;> simp [State.quotes,State.start,given,flush,quotes,Token.quotes]

theorem quotes_finishWord (s : State) : s.finishWord.quotes = s.quotes := by
  simp [State.quotes,State.finishWord,flush]

theorem quotes_operator (s : State) (ch : Char) : (s.operator ch).quotes = s.quotes := by
  simp [State.quotes,State.operator,quotes,Token.quotes]

theorem weight_push (s : State) (ch : Char) :
    (s.push ch).weight = s.weight + 2 + if s.word = none then 1 else 0 := by
  cases given : s.word with
  | none => simp [State.weight,State.push,given,flush,weight,Token.weight]
  | some text =>
    simp only [State.weight,State.push,given,flush,weight_append]
    simp [weight,Token.weight]
    omega

theorem weight_start (s : State) : s.start.weight = s.weight + if s.word = none then 1 else 0 := by
  cases given : s.word <;> simp [State.weight,State.start,given,flush,weight,Token.weight]

theorem weight_finishWord (s : State) : s.finishWord.weight = s.weight := by
  simp [State.weight,State.finishWord,flush]

theorem weight_operator (s : State) (ch : Char) : (s.operator ch).weight = s.weight := by
  simp [State.weight,State.operator,weight,Token.weight]

theorem quotes_step (s : State) (ch : Char) : (step s ch).quotes ≤ s.quotes + if isQuote ch then 1 else 0 := by
  have less : s.quotes ≤ s.quotes + if isQuote ch then 1 else 0 := Nat.le_add_right ..
  have pushed := Nat.le_of_eq (quotes_push s ch)
  cases given : s.mode with
  | plain =>
    simp only [step,given,stepPlain]
    split
    · simpa only [quotes_enter,quotes_start] using less
    · split
      · simpa only [quotes_enter,quotes_start] using less
      · split
        · simpa only [quotes_enter,quotes_start] using less
        · split
          · simpa only [quotes_finishWord] using less
          · split
            · simpa only [quotes_operator,quotes_finishWord] using less
            · exact pushed
  | escaped =>
    simp only [step,given]
    exact pushed
  | single =>
    simp only [step,given]
    split
    · exact less
    · exact pushed
  | double =>
    simp only [step,given]
    split
    · exact less
    · split
      · exact less
      · exact pushed
  | doubleEscaped =>
    have kept : (s.push '\\').quotes = s.quotes := quotes_push s '\\'
    have both := quotes_push (s.push '\\') ch
    simp only [step,given,quotes_enter]
    split
    · exact pushed
    · omega

theorem quotes_run (text : List Char) (s : State) : (text.foldl step s).quotes ≤ s.quotes + text.countP isQuote := by
  induction text generalizing s with
  | nil => simp
  | cons ch text ih =>
    have one := quotes_step s ch
    have later := ih (step s ch)
    rw [List.foldl_cons,List.countP_cons]
    omega

/-- What is found at the end has the measures of the state. -/
theorem finish_measures {s : State} {tokens : List Token} (found : finish s = some tokens) :
    quotes tokens = s.quotes ∧ weight tokens = s.weight := by
  unfold finish at found
  split at found
  · obtain rfl := Option.some.inj found
    exact ⟨rfl,rfl⟩
  · obtain rfl := Option.some.inj found
    exact ⟨rfl,rfl⟩
  all_goals cases found

end Measures

section Plain

/-- A character that stands for itself wherever it is not quoted. -/
def isLiteral (ch : Char) : Bool := !isBlank ch && !isOperator ch && !isQuote ch && ch ≠ '\\'

theorem step_literal {s : State} {ch : Char} (plain : s.mode = .plain) (literal : isLiteral ch = true) :
    step s ch = s.push ch := by
  simp only [isLiteral,isQuote,Bool.and_eq_true,Bool.not_eq_true',decide_eq_true_eq,decide_eq_false_iff_not,List.mem_cons,
    List.not_mem_nil,or_false,not_or,ne_eq] at literal
  obtain ⟨⟨⟨blank,op⟩,single,double⟩,backslash⟩ := literal
  simp [step,plain,stepPlain,blank,op,single,double,backslash]

theorem step_escaped {s : State} (plain : s.mode = .plain) (ch : Char) : step (step s '\\') ch = s.push ch := by
  cases s
  simp only at plain
  subst plain
  rfl

theorem step_quoted {s : State} (escaped : s.mode = .escaped) (ch : Char) : step s ch = (s.push ch).enter .plain := by
  simp [step,escaped]

theorem step_blank {s : State} (plain : s.mode = .plain) : step s ' ' = s.finishWord := by
  simp [step,plain,stepPlain,isBlank]

end Plain

end JkBuild.Shell
