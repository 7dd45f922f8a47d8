import JkBuild.Constructions
import Mathlib.Data.List.Induction

/-! Where a stream stands after a parser has read from it: the line and the column of the text
that is consumed, counted in 32 bits as the source does. -/
namespace JkBuild.Combinators

/-- The characters of a text behind its last line break. -/
def lastLine (text : List Char) : List Char := (text.reverse.takeWhile (· ≠ '\n')).reverse

/-- The position at the start of a text, moved over it. -/
def passed (text : List Char) : Position := text.foldl Position.pass ⟨1,1⟩

theorem pass_row (text : List Char) (position : Position) :
    (text.foldl Position.pass position).row = position.row + UInt32.ofNat (text.count '\n') := by
  induction text generalizing position with
  | nil => simp
  | cons ch text ih =>
    rw [List.foldl_cons,ih]
    by_cases line : ch = '\n'
    · subst line
      simp only [Position.pass,if_true,List.count_cons_self,UInt32.ofNat_add]
      rw [UInt32.add_assoc,UInt32.add_comm 1]
      rfl
    · simp [Position.pass,line]

theorem lastLine_concat (text : List Char) (ch : Char) :
    lastLine (text ++ [ch]) = if ch = '\n' then [] else lastLine text ++ [ch] := by
  unfold lastLine
  split <;> simp [*]

theorem passed_column (text : List Char) : (passed text).column = 1 + UInt32.ofNat (lastLine text).length := by
  induction text using List.reverseRecOn with
  | nil => rfl
  | append_singleton text ch ih =>
    rw [passed,List.foldl_append,List.foldl_cons,List.foldl_nil,lastLine_concat,Position.pass]
    split
    · rfl
    · rw [List.length_append,UInt32.ofNat_add,← UInt32.add_assoc,← ih]
      rfl

theorem passed_append (first second : List Char) : passed (first ++ second) = second.foldl Position.pass (passed first) :=
  List.foldl_append

theorem loop_raises {p : Parser α} (minOccr : Nat) (raises : Raises (· = .diverges) p) :
    Raises (· = .diverges) (many p minOccr) := by
  intro input e failed
  obtain ⟨values,output,-,fails | ⟨-,diverges⟩⟩ := many_error failed
  · exact raises _ _ fails
  · exact diverges

/-- A parser built of `MakeCharPredict` in any way takes a prefix of what it is given, never
asks for more characters than there are, and leaves the stream at the line and the column
behind what it took. -/
theorem built_consumes {p : Parser α} (built : Built OneChar (fun _ => True) p) (read : List Char) (input : InputStream)
    (position : input.position = passed read) :
    p input ≠ .error .outOfRange ∧ ∀ output value, p input = .ok ⟨output,some value⟩ →
      ∃ consumed, input.str = consumed ++ output.str ∧
        output.position.row = input.position.row + UInt32.ofNat (consumed.count '\n') ∧
        output.position.column = 1 + UInt32.ofNat (lastLine (read ++ consumed)).length ∧
        output.position = passed (read ++ consumed) := by
  have advances := built.advances fun one => one.advances
  have raises := built.raises (fun one => one.raises _) fun minOccr _ => loop_raises minOccr
  constructor
  · intro failed
    exact Failure.noConfusion (raises _ _ failed)
  · intro output value done
    obtain ⟨n,bound,same⟩ := advances _ _ done
    obtain rfl : output = input.advance n := same
    have here : (input.advance n).position = passed (read ++ input.str.take n) := by
      rw [passed_append,← position]
      rfl
    exact ⟨input.str.take n,(List.take_append_drop n input.str).symm,pass_row _ _,
      by rw [here,passed_column],here⟩

/-- `x`, a line break, `y` and a blank are read behind a first line. -/
theorem word_consumed : ∃ consumed, ['x','\n','y',' ','z'] = consumed ++ ['z'] ∧
    (3 : UInt32) = 2 + UInt32.ofNat (consumed.count '\n') ∧
      (3 : UInt32) = 1 + UInt32.ofNat (lastLine (['a','\n'] ++ consumed)).length ∧
        ⟨3,3⟩ = passed (['a','\n'] ++ consumed) :=
  (built_consumes (.plus (.many 0 trivial (.atom (.predict (· ≠ ' ')))) (.atom (.predict (· = ' ')))) ['a','\n']
    ⟨['x','\n','y',' ','z'],[],⟨2,1⟩⟩ rfl).2 ⟨['z'],[],⟨3,3⟩⟩ (['x','\n','y'],' ') (by decide)

end JkBuild.Combinators
