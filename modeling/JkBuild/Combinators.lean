import JkBuild.Basic
import JkBuild.Results

/-! The parser combinators of `core/parser`. A view into a character buffer is read
together with the characters behind it, since a comparison of a fixed number of
characters reads the buffer, not the view. -/
namespace JkBuild.Combinators

structure Position where
  row : UInt32
  column : UInt32
  deriving DecidableEq, Repr

def Position.pass (position : Position) (ch : Char) : Position :=
  if ch = '\n' then ⟨position.row + 1,1⟩ else ⟨position.row,position.column + 1⟩

/-- `str` is the view and `beyond` the buffer after its end. -/
structure InputStream where
  str : List Char
  beyond : List Char
  position : Position
  deriving DecidableEq, Repr

def InputStream.ofView (str beyond : List Char) : InputStream := ⟨str,beyond,⟨1,1⟩⟩

def InputStream.advance (input : InputStream) (n : Nat) : InputStream :=
  ⟨input.str.drop n,input.beyond,(input.str.take n).foldl Position.pass input.position⟩

/-- Taking more characters than the view has is an error of `substr`. -/
def InputStream.consume (input : InputStream) (n : Nat) : Except Failure InputStream :=
  if n ≤ input.str.length then .ok (input.advance n) else .error .outOfRange

structure ParseResult (α : Type) where
  input : InputStream
  result : Option α
  deriving DecidableEq, Repr

abbrev Parser (α : Type) := InputStream → Except Failure (ParseResult α)

def makeCharPredict (pred : Char → Bool) : Parser Char := fun input =>
  match input.str with
  | [] => .ok ⟨input,none⟩
  | first :: _ =>
    if pred first then do return ⟨← input.consume 1,some first⟩
    else .ok ⟨input,none⟩

def makeCharAny : Parser Char := makeCharPredict fun _ => true

def makeCharEq (ch : Char) : Parser Char := makeCharPredict fun c => c = ch

/-- The comparison reads `s.size()` characters from the start of the view. -/
def makeStringEq (s : List Char) : Parser (List Char) := fun input =>
  let firstBytes := (input.str ++ input.beyond).take s.length
  if s = firstBytes then do return ⟨← input.consume s.length,some firstBytes⟩
  else .ok ⟨input,none⟩

def convert (p : Parser α) (f : α → β) : Parser β := fun input => do
  let res ← p input
  return ⟨res.input,res.result.map f⟩

def or (lhs rhs : Parser α) : Parser α := fun input => do
  let res ← lhs input
  match res.result with
  | some value => return ⟨res.input,some value⟩
  | none => rhs input

def plus (lhs : Parser α) (rhs : Parser β) : Parser (α × β) := fun input => do
  let first ← lhs input
  match first.result with
  | none => return ⟨input,none⟩
  | some a =>
    let second ← rhs first.input
    match second.result with
    | none => return ⟨input,none⟩
    | some b => return ⟨second.input,some (a,b)⟩

def optional (p : Parser α) : Parser (Option α) := fun input => do
  let res ← p input
  match res.result with
  | none => return ⟨input,some none⟩
  | some value => return ⟨res.input,some (some value)⟩

/-- The loop of `Many`. A parser that succeeds without consuming would repeat forever. -/
def manyLoop (p : Parser α) : Nat → InputStream → List α → Except Failure (List α × InputStream)
  | 0, _, _ => .error .diverges
  | fuel + 1, input, ret => do
    let res ← p input
    match res.result with
    | none => return (ret,input)
    | some value => manyLoop p fuel res.input (ret ++ [value])

def many (p : Parser α) (minOccr : Nat) : Parser (List α) := fun input => do
  let (ret,current) ← manyLoop p (input.str.length + 1) input []
  return ⟨current,if minOccr ≤ ret.length then some ret else none⟩

@[simp] theorem advance_str (input : InputStream) (n : Nat) : (input.advance n).str = input.str.drop n := rfl

theorem advance_zero (input : InputStream) : input.advance 0 = input := rfl

theorem advance_advance (input : InputStream) (m n : Nat) :
    (input.advance m).advance n = input.advance (m + n) := by
  simp [InputStream.advance,List.take_add,List.foldl_append]

/-- On every view that starts with `text` and goes on with `rest`, the parser takes
exactly `text` and returns `value`. -/
def Accepts (beyond : List Char) (p : Parser α) (text rest : List Char) (value : α) : Prop :=
  ∀ input : InputStream, input.str = text ++ rest → input.beyond = beyond →
    p input = .ok ⟨input.advance text.length,some value⟩

/-- On every view with these characters the parser fails. -/
def Rejects (beyond : List Char) (p : Parser α) (view : List Char) : Prop :=
  ∀ input : InputStream, input.str = view → input.beyond = beyond →
    ∃ left, p input = .ok ⟨left,none⟩

/-- Successive non-empty texts a parser takes before it fails on the rest. -/
inductive Repeats (beyond : List Char) (p : Parser α) (rest : List Char) : List Char → List α → Prop
  | stop : Rejects beyond p rest → Repeats beyond p rest [] []
  | more (text : List Char) : Accepts beyond p text (texts ++ rest) value → text ≠ [] →
      Repeats beyond p rest texts values → Repeats beyond p rest (text ++ texts) (value :: values)

section Rules

variable {beyond text rest : List Char}

theorem accepts_predict {pred : Char → Bool} (holds : pred ch = true) :
    Accepts beyond (makeCharPredict pred) [ch] rest ch := by
  intro input view _
  simp [makeCharPredict,view,holds,InputStream.consume]

theorem rejects_predict {pred : Char → Bool} {view : List Char}
    (fails : ∀ ch, view.head? = some ch → pred ch = false) :
    Rejects beyond (makeCharPredict pred) view := by
  intro input same _
  cases view with
  | nil => exact ⟨input,by simp [makeCharPredict,same]⟩
  | cons ch view => exact ⟨input,by simp [makeCharPredict,same,fails ch rfl]⟩

theorem accepts_charEq (ch : Char) : Accepts beyond (makeCharEq ch) [ch] rest ch :=
  accepts_predict (by simp)

theorem rejects_charEq {view : List Char} (fails : view.head? ≠ some ch) :
    Rejects beyond (makeCharEq ch) view := by
  apply rejects_predict
  intro c first
  simp only [decide_eq_false_iff_not]
  rintro rfl
  exact fails first

theorem accepts_stringEq (s : List Char) : Accepts beyond (makeStringEq s) s rest s := by
  intro input view _
  simp [makeStringEq,view,InputStream.consume]

/-- The characters behind the view take part in a comparison that fails. -/
theorem rejects_stringEq {s view : List Char} (fails : ¬s <+: view ++ beyond) :
    Rejects beyond (makeStringEq s) view := by
  intro input same behind
  refine ⟨input,?_⟩
  have differs : s ≠ (view ++ beyond).take s.length := fun eq => fails (eq ▸ List.take_prefix _ _)
  simp [makeStringEq,same,behind,differs]

theorem Accepts.convert {p : Parser α} (f : α → β) (h : Accepts beyond p text rest value) :
    Accepts beyond (convert p f) text rest (f value) := by
  intro input view behind
  simp [Combinators.convert,h input view behind]

theorem Rejects.convert {p : Parser α} (f : α → β) (h : Rejects beyond p view) :
    Rejects beyond (convert p f) view := by
  intro input same behind
  obtain ⟨left,fails⟩ := h input same behind
  exact ⟨left,by simp [Combinators.convert,fails]⟩

theorem Accepts.or_left {p q : Parser α} (h : Accepts beyond p text rest value) :
    Accepts beyond (or p q) text rest value := by
  intro input view behind
  simp [Combinators.or,h input view behind]

theorem Accepts.or_right {p q : Parser α} (first : Rejects beyond p (text ++ rest))
    (h : Accepts beyond q text rest value) : Accepts beyond (or p q) text rest value := by
  intro input view behind
  obtain ⟨left,fails⟩ := first input view behind
  simp [Combinators.or,fails,h input view behind]

theorem Rejects.or {p q : Parser α} (first : Rejects beyond p view) (second : Rejects beyond q view) :
    Rejects beyond (or p q) view := by
  intro input same behind
  obtain ⟨left,fails⟩ := first input same behind
  obtain ⟨left',fails'⟩ := second input same behind
  exact ⟨left',by simp [Combinators.or,fails,fails']⟩

theorem or_predict (first second : Char → Bool) :
    or (makeCharPredict first) (makeCharPredict second) = makeCharPredict fun ch => first ch || second ch := by
  funext input
  cases view : input.str with
  | nil => simp [Combinators.or,makeCharPredict,view]
  | cons ch rest =>
    cases holds : first ch <;> simp [Combinators.or,makeCharPredict,view,holds,InputStream.consume]

theorem Accepts.plus {p : Parser α} {q : Parser β} {text' : List Char}
    (first : Accepts beyond p text (text' ++ rest) a) (second : Accepts beyond q text' rest b) :
    Accepts beyond (plus p q) (text ++ text') rest (a,b) := by
  intro input view behind
  have one := first input (by rw [view,List.append_assoc]) behind
  have two := second (input.advance text.length) (by simp [view]) behind
  simp [Combinators.plus,one,two,advance_advance]

theorem Rejects.plus_left {p : Parser α} (q : Parser β) (first : Rejects beyond p view) :
    Rejects beyond (plus p q) view := by
  intro input same behind
  obtain ⟨left,fails⟩ := first input same behind
  exact ⟨input,by simp [Combinators.plus,fails]⟩

theorem Rejects.plus_right {p : Parser α} {q : Parser β} (text : List Char)
    (first : Accepts beyond p text rest a)
    (second : Rejects beyond q rest) : Rejects beyond (plus p q) (text ++ rest) := by
  intro input same behind
  have one := first input same behind
  obtain ⟨left,fails⟩ := second (input.advance text.length) (by simp [same]) behind
  exact ⟨input,by simp [Combinators.plus,one,fails]⟩

theorem Accepts.optional {p : Parser α} (h : Accepts beyond p text rest value) :
    Accepts beyond (optional p) text rest (some value) := by
  intro input view behind
  simp [Combinators.optional,h input view behind]

theorem Rejects.optional {p : Parser α} (h : Rejects beyond p rest) :
    Accepts beyond (optional p) [] rest none := by
  intro input view behind
  obtain ⟨left,fails⟩ := h input view behind
  simp [Combinators.optional,fails,advance_zero]

/-- The loop makes one round for each text and one that fails. -/
theorem Repeats.loop {p : Parser α} (h : Repeats beyond p rest text values) (fuel : Nat)
    (input : InputStream) (ret : List α) (view : input.str = text ++ rest) (behind : input.beyond = beyond)
    (enough : text.length < fuel) :
    manyLoop p fuel input ret = .ok (ret ++ values,input.advance text.length) := by
  induction h generalizing fuel input ret with
  | stop fails =>
    obtain ⟨left,failed⟩ := fails input view behind
    cases fuel with
    | zero => simp at enough
    | succ fuel => simp [manyLoop,failed,advance_zero]
  | @more texts value values text takes nonempty _ ih =>
    have one := takes input (by rw [view,List.append_assoc]) behind
    cases fuel with
    | zero => simp at enough
    | succ fuel =>
      have positive := List.length_pos_iff.mpr nonempty
      simp only [List.length_append] at enough
      have next := ih fuel (input.advance text.length) (ret ++ [value]) (by simp [view]) behind (by omega)
      simp [manyLoop,one,next,advance_advance]

theorem Repeats.accepts {p : Parser α} (h : Repeats beyond p rest text values) (minOccr : Nat)
    (enough : minOccr ≤ values.length) : Accepts beyond (many p minOccr) text rest values := by
  intro input view behind
  have looped := h.loop (input.str.length + 1) input [] view behind (by rw [view,List.length_append]; omega)
  simp [Combinators.many,looped,enough]

theorem Repeats.rejects {p : Parser α} (h : Repeats beyond p rest text values) (minOccr : Nat)
    (few : values.length < minOccr) : Rejects beyond (many p minOccr) (text ++ rest) := by
  intro input view behind
  have looped := h.loop (input.str.length + 1) input [] view behind (by rw [view,List.length_append]; omega)
  exact ⟨_,by simp [Combinators.many,looped,Nat.not_le.mpr few]; rfl⟩

theorem repeats_predict {pred : Char → Bool} (all : ∀ ch ∈ text, pred ch = true)
    (stop : ∀ ch, rest.head? = some ch → pred ch = false) :
    Repeats beyond (makeCharPredict pred) rest text text := by
  induction text with
  | nil => exact .stop (rejects_predict stop)
  | cons ch text ih =>
    exact .more [ch] (accepts_predict (all ch (by simp))) (by simp)
      (ih fun c member => all c (List.mem_cons_of_mem _ member))

end Rules

end JkBuild.Combinators
