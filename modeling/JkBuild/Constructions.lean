import JkBuild.Combinators

/-! Parsers built by the combinators: what one application of a combinator does, and what holds
of every parser that is built of parsers it holds of. The loop of `Many` is related to rounds
that are not counted by fuel. -/
namespace JkBuild.Combinators

section Steps

variable {input : InputStream}

theorem convert_ok {p : Parser α} {f : α → β} {res : ParseResult β} (done : convert p f input = .ok res) :
    ∃ inner, p input = .ok inner ∧ res = ⟨inner.input,inner.result.map f⟩ := by
  obtain ⟨inner,first,last⟩ := bind_ok done
  exact ⟨inner,first,(Except.ok.inj last).symm⟩

theorem or_ok {p q : Parser α} {res : ParseResult α} (done : or p q input = .ok res) :
    (∃ value, p input = .ok res ∧ res.result = some value) ∨
      ∃ left, p input = .ok ⟨left,none⟩ ∧ q input = .ok res := by
  obtain ⟨⟨left,result⟩,first,last⟩ := bind_ok done
  cases result with
  | none => exact .inr ⟨left,first,last⟩
  | some value =>
    obtain rfl := Except.ok.inj last
    exact .inl ⟨value,first,rfl⟩

theorem plus_ok {p : Parser α} {q : Parser β} {res : ParseResult (α × β)} (done : plus p q input = .ok res) :
    res = ⟨input,none⟩ ∨ ∃ middle output a b,
      p input = .ok ⟨middle,some a⟩ ∧ q middle = .ok ⟨output,some b⟩ ∧ res = ⟨output,some (a,b)⟩ := by
  obtain ⟨⟨middle,result⟩,first,last⟩ := bind_ok done
  cases result with
  | none => exact .inl (Except.ok.inj last).symm
  | some a =>
    obtain ⟨⟨output,result⟩,second,last⟩ := bind_ok last
    cases result with
    | none => exact .inl (Except.ok.inj last).symm
    | some b => exact .inr ⟨middle,output,a,b,first,second,(Except.ok.inj last).symm⟩

theorem optional_ok {p : Parser α} {res : ParseResult (Option α)} (done : optional p input = .ok res) :
    res = ⟨input,some none⟩ ∨ ∃ output a, p input = .ok ⟨output,some a⟩ ∧ res = ⟨output,some (some a)⟩ := by
  obtain ⟨⟨output,result⟩,first,last⟩ := bind_ok done
  cases result with
  | none => exact .inl (Except.ok.inj last).symm
  | some a => exact .inr ⟨output,a,first,(Except.ok.inj last).symm⟩

end Steps

section Loops

/-- Rounds of a loop, one after the other, with what they return. -/
inductive Rounds (p : Parser α) : InputStream → List α → InputStream → Prop
  | stop (input : InputStream) : Rounds p input [] input
  | next : p input = .ok ⟨middle,some value⟩ → Rounds p middle values output →
      Rounds p input (value :: values) output

variable {p : Parser α}

theorem manyLoop_ok {fuel : Nat} {input : InputStream} {ret : List α} {found : List α × InputStream}
    (done : manyLoop p fuel input ret = .ok found) : ∃ values, found.1 = ret ++ values ∧
      Rounds p input values found.2 ∧ ∃ left, p found.2 = .ok ⟨left,none⟩ := by
  induction fuel generalizing input ret with
  | zero => contradiction
  | succ fuel ih =>
    obtain ⟨⟨middle,result⟩,first,last⟩ := bind_ok done
    cases result with
    | none =>
      obtain rfl := Except.ok.inj last
      exact ⟨[],by simp,.stop input,middle,first⟩
    | some value =>
      obtain ⟨values,same,rounds,fails⟩ := ih last
      exact ⟨value :: values,by simp [same],.next first rounds,fails⟩

theorem many_ok {minOccr : Nat} {input : InputStream} {res : ParseResult (List α)}
    (done : many p minOccr input = .ok res) : ∃ values left, Rounds p input values res.input ∧
      p res.input = .ok ⟨left,none⟩ ∧ res.result = if minOccr ≤ values.length then some values else none := by
  obtain ⟨⟨ret,current⟩,first,last⟩ := bind_ok done
  obtain rfl := Except.ok.inj last
  obtain ⟨values,same,rounds,left,fails⟩ := manyLoop_ok first
  obtain rfl : ret = values := same
  exact ⟨ret,left,rounds,fails,rfl⟩

end Loops

section Building

/-- Parsers built of atoms, each parser that is repeated being of a kind. -/
inductive Built (atom repeated : ∀ {α : Type}, Parser α → Prop) : ∀ {α : Type}, Parser α → Prop
  | atom {α : Type} {p : Parser α} : atom p → Built atom repeated p
  | convert {α β : Type} {p : Parser α} (f : α → β) : Built atom repeated p → Built atom repeated (convert p f)
  | or {α : Type} {p q : Parser α} : Built atom repeated p → Built atom repeated q → Built atom repeated (or p q)
  | plus {α β : Type} {p : Parser α} {q : Parser β} : Built atom repeated p → Built atom repeated q →
      Built atom repeated (plus p q)
  | optional {α : Type} {p : Parser α} : Built atom repeated p → Built atom repeated (optional p)
  | many {α : Type} {p : Parser α} (minOccr : Nat) : repeated p → Built atom repeated p →
      Built atom repeated (many p minOccr)

/-- What is left is the input some characters later. -/
def Advances (p : Parser α) : Prop :=
  ∀ input res, p input = .ok res → ∃ n ≤ input.str.length, res.input = input.advance n

theorem advances_refl (input : InputStream) : ∃ n ≤ input.str.length, input = input.advance n :=
  ⟨0,Nat.zero_le _,rfl⟩

theorem advances_trans {input middle output : InputStream} (first : ∃ n ≤ input.str.length, middle = input.advance n)
    (second : ∃ n ≤ middle.str.length, output = middle.advance n) :
    ∃ n ≤ input.str.length, output = input.advance n := by
  obtain ⟨n,bound,rfl⟩ := first
  obtain ⟨m,bound',rfl⟩ := second
  rw [advance_str,List.length_drop] at bound'
  exact ⟨n + m,by omega,advance_advance input n m⟩

theorem Rounds.advances {p : Parser α} (advances : Advances p) (rounds : Rounds p input values output) :
    ∃ n ≤ input.str.length, output = input.advance n := by
  induction rounds with
  | stop => exact advances_refl _
  | next first _ ih => exact advances_trans (advances _ _ first) ih

theorem consume_ok {input output : InputStream} {n : Nat} (done : input.consume n = .ok output) :
    n ≤ input.str.length ∧ output = input.advance n := by
  unfold InputStream.consume at done
  split at done
  · next bound => exact ⟨bound,(Except.ok.inj done).symm⟩
  · contradiction

theorem predict_advances (pred : Char → Bool) : Advances (makeCharPredict pred) := by
  intro input res done
  unfold makeCharPredict at done
  split at done
  · obtain rfl := Except.ok.inj done
    exact advances_refl input
  · next first rest view =>
    split at done
    · obtain ⟨output,consumed,last⟩ := bind_ok done
      obtain rfl := Except.ok.inj last
      exact ⟨1,consume_ok consumed⟩
    · obtain rfl := Except.ok.inj done
      exact advances_refl input

theorem predict_total (pred : Char → Bool) (input : InputStream) : ∃ res, makeCharPredict pred input = .ok res := by
  unfold makeCharPredict
  split
  · exact ⟨_,rfl⟩
  · next first rest view =>
    split
    · simp [InputStream.consume,view]
    · exact ⟨_,rfl⟩

variable {atom repeated : ∀ {α : Type}, Parser α → Prop}

/-- Failed alternatives and a round that fails leave nothing behind in the input. -/
theorem Built.advances (atoms : ∀ {α : Type} {p : Parser α}, atom p → Advances p) {p : Parser α}
    (built : Built atom repeated p) : Advances p := by
  induction built with
  | atom known => exact atoms known
  | convert f _ ih =>
    intro input res done
    obtain ⟨inner,first,rfl⟩ := convert_ok done
    exact ih _ _ first
  | or _ _ ih ih' =>
    intro input res done
    obtain ⟨_,first,-⟩ | ⟨_,-,second⟩ := or_ok done
    · exact ih _ _ first
    · exact ih' _ _ second
  | plus _ _ ih ih' =>
    intro input res done
    obtain rfl | ⟨middle,output,a,b,first,second,rfl⟩ := plus_ok done
    · exact advances_refl input
    · exact advances_trans (ih _ _ first) (ih' _ _ second)
  | optional _ ih =>
    intro input res done
    obtain rfl | ⟨output,a,first,rfl⟩ := optional_ok done
    · exact advances_refl input
    · exact ih _ _ first
  | many minOccr _ _ ih =>
    intro input res done
    obtain ⟨values,left,rounds,-,-⟩ := many_ok done
    exact rounds.advances ih

/-- The errors of a parser are of a kind. -/
def Raises (kind : Failure → Prop) (p : Parser α) : Prop := ∀ input e, p input = .error e → kind e

/-- Only a loop adds errors to those of the atoms. -/
theorem Built.raises {kind : Failure → Prop} (atoms : ∀ {α : Type} {p : Parser α}, atom p → Raises kind p)
    (loops : ∀ {α : Type} {p : Parser α} (minOccr : Nat), repeated p → Raises kind p →
      Raises kind (Combinators.many p minOccr))
    {p : Parser α} (built : Built atom repeated p) : Raises kind p := by
  induction built with
  | atom known => exact atoms known
  | convert f _ ih =>
    intro input e failed
    obtain first | ⟨_,-,last⟩ := bind_error failed
    · exact ih _ _ first
    · contradiction
  | or _ _ ih ih' =>
    intro input e failed
    obtain first | ⟨⟨left,result⟩,-,last⟩ := bind_error failed
    · exact ih _ _ first
    · cases result with
      | none => exact ih' _ _ last
      | some value => contradiction
  | plus _ _ ih ih' =>
    intro input e failed
    obtain first | ⟨⟨middle,result⟩,-,last⟩ := bind_error failed
    · exact ih _ _ first
    · cases result with
      | none => contradiction
      | some a =>
        obtain second | ⟨⟨output,result⟩,-,last⟩ := bind_error last
        · exact ih' _ _ second
        · cases result <;> contradiction
  | optional _ ih =>
    intro input e failed
    obtain first | ⟨⟨left,result⟩,-,last⟩ := bind_error failed
    · exact ih _ _ first
    · cases result <;> contradiction
  | many minOccr kept _ ih => exact loops minOccr kept ih

theorem manyLoop_error {p : Parser α} {fuel : Nat} {input : InputStream} {ret : List α}
    (failed : manyLoop p fuel input ret = .error e) : ∃ values output,
      Rounds p input values output ∧ (p output = .error e ∨ (values.length = fuel ∧ e = .diverges)) := by
  induction fuel generalizing input ret with
  | zero => exact ⟨[],input,.stop input,.inr ⟨rfl,(Except.error.inj failed).symm⟩⟩
  | succ fuel ih =>
    obtain first | ⟨⟨middle,result⟩,first,last⟩ := bind_error failed
    · exact ⟨[],input,.stop input,.inl first⟩
    · cases result with
      | none => contradiction
      | some value =>
        obtain ⟨values,output,rounds,ends⟩ := ih last
        refine ⟨value :: values,output,.next first rounds,ends.imp_right ?_⟩
        rintro ⟨rfl,same⟩
        exact ⟨rfl,same⟩

theorem many_error {p : Parser α} {minOccr : Nat} {input : InputStream} (failed : many p minOccr input = .error e) :
    ∃ values output, Rounds p input values output ∧
      (p output = .error e ∨ (values.length = input.str.length + 1 ∧ e = .diverges)) := by
  obtain first | ⟨found,-,last⟩ := bind_error failed
  · exact manyLoop_error first
  · contradiction

inductive OneChar : ∀ {α : Type}, Parser α → Prop
  | predict (pred : Char → Bool) : OneChar (makeCharPredict pred)

inductive Atom : ∀ {α : Type}, Parser α → Prop
  | one {α : Type} {p : Parser α} : OneChar p → Atom p
  | stringEq (s : List Char) : Atom (makeStringEq s)

theorem OneChar.advances {p : Parser α} (one : OneChar p) : Advances p := by
  cases one with
  | predict pred => exact predict_advances pred

theorem OneChar.raises (kind : Failure → Prop) {p : Parser α} (one : OneChar p) : Raises kind p := by
  intro input e failed
  cases one with
  | predict pred =>
    obtain ⟨res,done⟩ := predict_total pred input
    rw [done] at failed
    cases failed

/-- Only a comparison can ask for more characters than there are. -/
theorem Atom.raises {p : Parser α} (atom : Atom p) : Raises (· = .outOfRange) p := by
  intro input e failed
  cases atom with
  | one one => exact one.raises (· = .outOfRange) _ _ failed
  | stringEq s =>
    simp only [makeStringEq] at failed
    split at failed
    · obtain beyond | ⟨_,-,last⟩ := bind_error failed
      · unfold InputStream.consume at beyond
        split at beyond
        · contradiction
        · exact (Except.error.inj beyond).symm
      · contradiction
    · contradiction

theorem Built.mono {atom' : ∀ {α : Type}, Parser α → Prop} (weaker : ∀ {α : Type} {p : Parser α}, atom p → atom' p)
    {p : Parser α} (built : Built atom repeated p) : Built atom' repeated p := by
  induction built with
  | atom known => exact .atom (weaker known)
  | convert f _ ih => exact .convert f ih
  | or _ _ ih ih' => exact .or ih ih'
  | plus _ _ ih ih' => exact .plus ih ih'
  | optional _ ih => exact .optional ih
  | many minOccr kept _ ih => exact .many minOccr kept ih

end Building

section Yielding

/-- What is returned stands in the text that is taken. -/
def Yields (p : Parser α) (item : List Char → α → Prop) : Prop :=
  ∀ input output value, p input = .ok ⟨output,some value⟩ →
    ∃ text, input.str = text ++ output.str ∧ item text value

inductive Series (item : List Char → α → Prop) : List Char → List α → Prop
  | nil : Series item [] []
  | cons : item text value → Series item texts values → Series item (text ++ texts) (value :: values)

variable {p : Parser α} {q : Parser β} {item : List Char → α → Prop} {item' : List Char → β → Prop}

theorem predict_yields (pred : Char → Bool) :
    Yields (makeCharPredict pred) fun text ch => text = [ch] ∧ pred ch = true := by
  intro input output value done
  unfold makeCharPredict at done
  split at done
  · cases done
  · next first rest view =>
    split at done
    · next holds =>
      obtain ⟨left,consumed,last⟩ := bind_ok done
      obtain ⟨-,rfl⟩ := consume_ok consumed
      cases last
      exact ⟨[value],by simp [view],rfl,holds⟩
    · cases done

theorem Yields.convert {f : α → β} (yields : Yields p item) (same : ∀ {text x}, item text x → item' text (f x)) :
    Yields (convert p f) item' := by
  intro input output value done
  obtain ⟨⟨left,result⟩,first,whole⟩ := convert_ok done
  cases result with
  | none => cases whole
  | some x =>
    cases whole
    obtain ⟨text,view,given⟩ := yields _ _ _ first
    exact ⟨text,view,same given⟩

theorem Yields.or {p q : Parser α} (yields : Yields p item) (yields' : Yields q item) : Yields (or p q) item := by
  intro input output value done
  obtain ⟨_,first,-⟩ | ⟨_,-,second⟩ := or_ok done
  · exact yields _ _ _ first
  · exact yields' _ _ _ second

theorem Yields.plus (yields : Yields p item) (yields' : Yields q item') : Yields (plus p q) fun text found =>
    ∃ first second, text = first ++ second ∧ item first found.1 ∧ item' second found.2 := by
  intro input output value done
  obtain whole | ⟨middle,left,a,b,first,second,whole⟩ := plus_ok done
  · cases whole
  · cases whole
    obtain ⟨text,view,given⟩ := yields _ _ _ first
    obtain ⟨text',view',given'⟩ := yields' _ _ _ second
    exact ⟨text ++ text',by rw [view,view',List.append_assoc],text,text',rfl,given,given'⟩

theorem Yields.optional (yields : Yields p item) : Yields (optional p) fun text found =>
    (text = [] ∧ found = none) ∨ ∃ x, found = some x ∧ item text x := by
  intro input output value done
  obtain whole | ⟨left,x,first,whole⟩ := optional_ok done
  · cases whole
    exact ⟨[],rfl,.inl ⟨rfl,rfl⟩⟩
  · cases whole
    obtain ⟨text,view,given⟩ := yields _ _ _ first
    exact ⟨text,view,.inr ⟨x,rfl,given⟩⟩

theorem Rounds.series (yields : Yields p item) (rounds : Rounds p input values output) :
    ∃ text, input.str = text ++ output.str ∧ Series item text values := by
  induction rounds with
  | stop => exact ⟨[],rfl,.nil⟩
  | next first _ ih =>
    obtain ⟨text,view,given⟩ := yields _ _ _ first
    obtain ⟨texts,view',series⟩ := ih
    exact ⟨text ++ texts,by rw [view,view',List.append_assoc],.cons given series⟩

theorem Yields.many (yields : Yields p item) (minOccr : Nat) : Yields (many p minOccr) (Series item) := by
  intro input output value done
  obtain ⟨values,left,rounds,-,found⟩ := many_ok done
  split at found
  · obtain rfl := Option.some.inj found
    exact rounds.series yields
  · cases found

end Yielding

end JkBuild.Combinators
