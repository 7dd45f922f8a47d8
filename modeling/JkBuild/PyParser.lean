import JkBuild.Combinators

/-! `core/gnu/py_parser.cc`: function calls with keyword arguments. The results of a sequence
of parsers are nested pairs, so that `std::get<i>` is a path into them. -/
namespace JkBuild.PyParser

open Combinators

inductive Value where
  | string (text : List Char)
  | strings (texts : List (List Char))
  deriving DecidableEq, Repr

/-- The arguments are in the order in which they were inserted, which the map leaves open. -/
structure PyFunc where
  name : List Char
  kwargs : List (List Char × Value)
  deriving DecidableEq, Repr

def isDigit (ch : Char) : Bool := '0' ≤ ch && ch ≤ '9'

def isAlpha (ch : Char) : Bool := ('a' ≤ ch && ch ≤ 'z') || ('A' ≤ ch && ch ≤ 'Z') || ch = '_'

def isSpace (ch : Char) : Bool := ch ∈ [' ','\t','\n','\x0b','\x0c','\r']

def makeCharRange (first last : Char) : Parser Char := makeCharPredict fun c => first ≤ c && c ≤ last

def makeCharNot (chars : List Char) : Parser Char := makeCharPredict fun c => chars.all (c ≠ ·)

def digit : Parser Char := makeCharRange '0' '9'

def alpha : Parser Char := or (or (makeCharRange 'a' 'z') (makeCharRange 'A' 'Z')) (makeCharEq '_')

def identifier : Parser (List Char) := convert (plus alpha (many (or digit alpha) 0)) fun tp => tp.1 :: tp.2

def doubleQuote : Parser Char := makeCharEq '"'

def unescape (ch : Char) : Char := if ch = 'n' then '\n' else if ch = 'r' then '\r' else ch

def escapeChar : Parser Char := convert (plus (makeCharEq '\\') makeCharAny) fun tp => unescape tp.2

def stringLiteral : Parser (List Char) :=
  convert (plus (plus doubleQuote (many (or (makeCharNot ['\\','"']) escapeChar) 0)) doubleQuote) fun tp => tp.1.2

def space : Parser (List Char) := many (makeCharPredict isSpace) 0

def comma : Parser Char := makeCharEq ','

/-- `p + Many(space + comma + space + p) + space + Optional(comma)`, as lists and arguments
have it, with what is read out of it. -/
def elements (p : Parser α) : Parser (List α) :=
  convert (plus (plus (plus p (many (plus (plus (plus space comma) space) p) 0)) space) (Combinators.optional comma))
    fun tp => tp.1.1.1 :: tp.1.1.2.map (·.2)

def listString : Parser (List (List Char)) :=
  convert (plus (plus (plus (plus (makeCharEq '[') space) (Combinators.optional (elements stringLiteral))) space)
    (makeCharEq ']')) fun tp => tp.1.1.2.getD []

def value : Parser Value := or (convert stringLiteral .string) (convert listString .strings)

def argument : Parser (List Char × Value) :=
  convert (plus (plus (plus (plus identifier space) (makeCharEq '=')) space) value) fun tp => (tp.1.1.1.1,tp.2)

/-- `std::unordered_map::insert`: the first argument of a name stays. -/
def insert (kwargs : List (List Char × Value)) (arg : List Char × Value) : List (List Char × Value) :=
  if kwargs.any (·.1 = arg.1) then kwargs else kwargs ++ [arg]

def functionCall : Parser PyFunc :=
  convert (plus (plus (plus (plus (plus (plus identifier space) (makeCharEq '(')) space)
    (Combinators.optional (elements argument))) space) (makeCharEq ')'))
      fun tp => ⟨tp.1.1.1.1.1.1,(tp.1.1.2.getD []).foldl insert []⟩

def functions : Parser (List PyFunc) :=
  convert (many (plus (plus space functionCall) space) 0) fun tp => tp.map fun v => v.1.2

def parse (text beyond : List Char) : Except Failure (Option (List PyFunc)) := do
  let res ← functions (.ofView text beyond)
  return res.result

section Layouts

def Blank (text : List Char) : Prop := ∀ ch ∈ text, isSpace ch = true

/-- A letter or an underscore, then such characters and digits. -/
def Identifier : List Char → Prop
  | [] => False
  | ch :: tail => isAlpha ch = true ∧ ∀ c ∈ tail, (isDigit c || isAlpha c) = true

/-- The inside of a string literal, with what it means. -/
inductive Quoted : List Char → List Char → Prop
  | nil : Quoted [] []
  | plain : ch ≠ '\\' → ch ≠ '"' → Quoted text content → Quoted (ch :: text) (ch :: content)
  | quote : Quoted text content → Quoted ('\\' :: '"' :: text) ('"' :: content)
  | backslash : Quoted text content → Quoted ('\\' :: '\\' :: text) ('\\' :: content)
  | newline : Quoted text content → Quoted ('\\' :: 'n' :: text) ('\n' :: content)
  | carriage : Quoted text content → Quoted ('\\' :: 'r' :: text) ('\r' :: content)

inductive StringText : List Char → List Char → Prop
  | quoted : Quoted text content → StringText ('"' :: text ++ ['"']) content

/-- The elements after the first one, each with its comma. -/
inductive Later (item : List Char → α → Prop) : List Char → List α → Prop
  | nil : Later item [] []
  | cons : Blank before → Blank after → item text x → Later item texts xs →
      Later item (before ++ ',' :: after ++ text ++ texts) (x :: xs)

/-- What comes before a closing bracket: white space, and a comma if one is left over. -/
inductive Ending : List Char → Prop
  | blank : Blank text → Ending text
  | comma : Blank before → Blank after → Ending (before ++ ',' :: after)

inductive Inside (item : List Char → α → Prop) : List Char → List α → Prop
  | empty : Blank text → Inside item text []
  | some : Blank before → item text x → Later item texts xs → Ending ending →
      Inside item (before ++ text ++ texts ++ ending) (x :: xs)

inductive ValueText : List Char → Value → Prop
  | string : StringText text content → ValueText text (.string content)
  | strings : Inside StringText text contents → ValueText ('[' :: text ++ [']']) (.strings contents)

inductive ArgumentText : List Char → List Char × Value → Prop
  | argument : Identifier key → Blank before → Blank after → ValueText text v →
      ArgumentText (key ++ before ++ '=' :: after ++ text) (key,v)

inductive CallText : List Char → PyFunc → Prop
  | call : Identifier name → Blank before → Inside ArgumentText text kwargs → (kwargs.map (·.1)).Nodup →
      CallText (name ++ before ++ '(' :: text ++ [')']) ⟨name,kwargs⟩

/-- Calls, each with the white space after it. -/
inductive CallTexts : List Char → List PyFunc → Prop
  | nil : CallTexts [] []
  | cons : CallText text call → Blank after → CallTexts texts calls → CallTexts (text ++ after ++ texts) (call :: calls)

/-- A text in which the calls are laid out. -/
inductive Layout : List Char → List PyFunc → Prop
  | layout : Blank before → CallTexts text calls → Layout (before ++ text) calls

end Layouts

section Forms

/-- The inside of a string literal as the grammar has it, with any character behind a backslash. -/
inductive Literal : List Char → List Char → Prop
  | nil : Literal [] []
  | plain : ch ≠ '\\' → ch ≠ '"' → Literal text content → Literal (ch :: text) (ch :: content)
  | escaped (ch : Char) : Literal text content → Literal ('\\' :: ch :: text) (unescape ch :: content)

inductive StringForm : List Char → List Char → Prop
  | quoted : Literal text content → StringForm ('"' :: text ++ ['"']) content

inductive ValueForm : List Char → Value → Prop
  | string : StringForm text content → ValueForm text (.string content)
  | strings : Inside StringForm text contents → ValueForm ('[' :: text ++ [']']) (.strings contents)

inductive ArgumentForm : List Char → List Char × Value → Prop
  | argument : Identifier key → Blank before → Blank after → ValueForm text v →
      ArgumentForm (key ++ before ++ '=' :: after ++ text) (key,v)

/-- A call, where the first argument of a key counts. -/
inductive CallForm : List Char → PyFunc → Prop
  | call : Identifier name → Blank before → Inside ArgumentForm text args →
      CallForm (name ++ before ++ '(' :: text ++ [')']) ⟨name,args.foldl insert []⟩

inductive CallForms : List Char → List PyFunc → Prop
  | nil : CallForms [] []
  | cons : CallForm text call → Blank after → CallForms texts calls → CallForms (text ++ after ++ texts) (call :: calls)

/-- A text that is a sequence of calls, with what they say. -/
inductive Program : List Char → List PyFunc → Prop
  | program : Blank before → CallForms text calls → Program (before ++ text) calls

end Forms

section Tokens

variable {beyond text rest : List Char}

/-- The text goes on with something else than white space. -/
def Dense (view : List Char) : Prop := ∀ ch, view.head? = some ch → isSpace ch = false

theorem dense_cons {ch : Char} (plain : isSpace ch = false) (rest : List Char) : Dense (ch :: rest) := by
  intro c first
  obtain rfl := Option.some.inj first
  exact plain

theorem space_accepts (blank : Blank text) (dense : Dense rest) : Accepts beyond space text rest text :=
  (repeats_predict blank dense).accepts 0 (Nat.zero_le _)

theorem alpha_predict : alpha = makeCharPredict isAlpha := by
  unfold alpha makeCharRange makeCharEq
  rw [or_predict,or_predict]
  rfl

theorem digit_alpha_predict : or digit alpha = makeCharPredict fun ch => isDigit ch || isAlpha ch := by
  rw [alpha_predict]
  exact or_predict ..

theorem identifier_accepts (name : Identifier text)
    (stop : ∀ ch, rest.head? = some ch → (isDigit ch || isAlpha ch) = false) :
    Accepts beyond identifier text rest text := by
  cases text with
  | nil => contradiction
  | cons ch tail =>
    have first : Accepts beyond alpha [ch] (tail ++ rest) ch := alpha_predict ▸ accepts_predict name.1
    have others : Accepts beyond (many (or digit alpha) 0) tail rest tail := by
      rw [digit_alpha_predict]
      exact (repeats_predict name.2 stop).accepts 0 (Nat.zero_le _)
    exact (first.plus others).convert _

theorem identifier_rejects {view : List Char} (start : ∀ ch, view.head? = some ch → isAlpha ch = false) :
    Rejects beyond identifier view := by
  unfold identifier
  rw [alpha_predict]
  exact (Rejects.plus_left _ (rejects_predict start)).convert _

theorem escapeChar_accepts (ch : Char) : Accepts beyond escapeChar ['\\',ch] rest (unescape ch) := by
  have slash : Accepts beyond (makeCharEq '\\') ['\\'] ([ch] ++ rest) '\\' := accepts_charEq '\\'
  have second : Accepts beyond makeCharAny [ch] rest ch := accepts_predict rfl
  exact (slash.plus second).convert _

theorem literal_repeats (literal : Literal text content) :
    Repeats beyond (or (makeCharNot ['\\','"']) escapeChar) ('"' :: rest) text content := by
  induction literal with
  | nil =>
    apply Repeats.stop
    apply Rejects.or
    · apply rejects_predict
      intro c first
      obtain rfl := Option.some.inj first
      rfl
    · exact (Rejects.plus_left _ (rejects_charEq (by simp))).convert _
  | @plain ch text content notBackslash notQuote _ ih =>
    have one : Accepts beyond (or (makeCharNot ['\\','"']) escapeChar) [ch] (text ++ '"' :: rest) ch := by
      apply Accepts.or_left
      apply accepts_predict
      simp [notBackslash,notQuote]
    exact .more [ch] one (by simp) ih
  | @escaped text content ch _ ih =>
    have one : Accepts beyond (or (makeCharNot ['\\','"']) escapeChar) ['\\',ch] (text ++ '"' :: rest) (unescape ch) := by
      apply Accepts.or_right
      · apply rejects_predict
        intro c first
        obtain rfl := Option.some.inj first
        rfl
      · exact escapeChar_accepts ch
    exact .more ['\\',ch] one (by simp) ih

theorem stringLiteral_accepts (string : StringForm text content) : Accepts beyond stringLiteral text rest content := by
  cases string with
  | @quoted inside _ literal =>
  have opening : Accepts beyond doubleQuote ['"'] (inside ++ (['"'] ++ rest)) '"' := accepts_charEq '"'
  have body : Accepts beyond (many (or (makeCharNot ['\\','"']) escapeChar) 0) inside ('"' :: rest) content :=
    (literal_repeats literal).accepts 0 (Nat.zero_le _)
  exact ((opening.plus body).plus (accepts_charEq '"')).convert _

theorem stringLiteral_rejects {view : List Char} (start : view.head? ≠ some '"') : Rejects beyond stringLiteral view :=
  (Rejects.plus_left _ (Rejects.plus_left _ (rejects_charEq start))).convert _

end Tokens

end JkBuild.PyParser
