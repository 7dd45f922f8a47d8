import JkBuild.Basic
import JkBuild.Occurrences
import Mathlib.Algebra.Ring.Int.Defs

/-! `ReplaceAllSlow` of `utils/str.cc`, which counts down an `int` also where no count is
given. A `Char` is one `char` of the source. -/
namespace JkBuild.Replacement

open Occurrences

/-- `std::string::find` of a string from a position on. -/
def find (text pattern : List Char) (startPos : Nat) : Option Nat :=
  if startPos ≤ text.length then (leftmost pattern (text.drop startPos)).map (startPos + ·) else none

/-- `std::string::replace` of the characters from a position on. -/
def replace (text : List Char) (pos length : Nat) (newStr : List Char) : List Char :=
  text.take pos ++ newStr ++ text.drop (pos + length)

/-- The loop with a bound on its rounds. The count is -1 where the caller gives none. -/
def replaceAllLoop (pattern newStr : List Char) : Nat → List Char → Nat → Int32 → Except Failure (List Char)
  | 0, _, _, _ => .error .diverges
  | fuel + 1, text, startPos, count =>
    match find text pattern startPos with
    | none => .ok text
    | some startPos =>
      if count < 0 ∨ count > 0 then
        if count = Int32.minValue then .error .undefined
        else replaceAllLoop pattern newStr fuel (replace text startPos pattern.length newStr)
          (startPos + newStr.length) (count - 1)
      else .ok text

def replaceAllSlow (fuel : Nat) (text pattern newStr : List Char) (count : Int32) : Except Failure (List Char) :=
  if pattern = [] then .ok text else replaceAllLoop pattern newStr fuel text 0 count

/-- How many of the occurrences are to be replaced. -/
def wanted (count : Int) (number : Nat) : Nat := if count < 0 then number else min count.toNat number

/-- The text after the replacement that is asked for. -/
def reference (text pattern newStr : List Char) (count : Int32) : List Char :=
  if pattern = [] then text
  else replaceFirst pattern newStr 0 (wanted count.toInt (occurrences pattern 0 text)) text

/-- Every bound above the length of the text lets the loop come to its end. -/
def Replaces (text pattern newStr : List Char) (count : Int32) : Prop :=
  ∀ fuel > text.length, replaceAllSlow fuel text pattern newStr count = .ok (reference text pattern newStr count)

/-- The count can be decremented for each occurrence. -/
def Fits (count : Int) (number : Nat) : Prop := 0 ≤ count ∨ number ≤ count + 2 ^ 31

instance (count : Int) (number : Nat) : Decidable (Fits count number) := inferInstanceAs (Decidable (_ ∨ _))

section Loop

theorem find_append (done rest pattern : List Char) :
    find (done ++ rest) pattern done.length = (leftmost pattern rest).map (done.length + ·) := by
  have inside : done.length ≤ (done ++ rest).length := by simp
  rw [find,if_pos inside,List.drop_left]

theorem replace_append (done rest newStr : List Char) (i length : Nat) :
    replace (done ++ rest) (done.length + i) length newStr =
      (done ++ (rest.take i ++ newStr)) ++ rest.drop (i + length) := by
  rw [replace,List.take_length_add_append,Nat.add_assoc,List.drop_length_add_append]
  simp only [List.append_assoc]

section Rounds

variable {pattern rest : List Char} {i : Nat} (newStr done : List Char) (fuel : Nat)

theorem loop_absent (absent : leftmost pattern rest = none) (count : Int32) :
    replaceAllLoop pattern newStr (fuel + 1) (done ++ rest) done.length count = .ok (done ++ rest) := by
  rw [replaceAllLoop,find_append,absent]
  rfl

theorem loop_spent (found : leftmost pattern rest = some i) :
    replaceAllLoop pattern newStr (fuel + 1) (done ++ rest) done.length 0 = .ok (done ++ rest) := by
  rw [replaceAllLoop,find_append,found]
  rfl

/-- One round: what is inserted is finished, and the search goes on behind the occurrence. -/
theorem loop_round (found : leftmost pattern rest = some i) (inside : i + pattern.length ≤ rest.length) {count : Int32}
    (other : count ≠ 0) : replaceAllLoop pattern newStr (fuel + 1) (done ++ rest) done.length count =
      if count = Int32.minValue then .error .undefined
      else replaceAllLoop pattern newStr fuel ((done ++ (rest.take i ++ newStr)) ++ rest.drop (i + pattern.length))
        (done ++ (rest.take i ++ newStr)).length (count - 1) := by
  have value : count.toInt ≠ 0 := fun same => other (Int32.toInt_inj.mp same)
  have running : count < 0 ∨ count > 0 := by
    rw [gt_iff_lt,Int32.lt_iff_toInt_lt,Int32.lt_iff_toInt_lt,Int32.toInt_zero]
    omega
  have moved : done.length + i + newStr.length = (done ++ (rest.take i ++ newStr)).length := by
    rw [List.length_append,List.length_append,List.length_take]
    omega
  rw [replaceAllLoop,find_append,found,Option.map_some]
  simp only [if_pos running]
  rw [replace_append,moved]

end Rounds

theorem wanted_step {count : Int} (other : count ≠ 0) (number : Nat) :
    wanted count (number + 1) = wanted (count - 1) number + 1 := by
  rw [wanted,wanted]
  split <;> split <;> omega

theorem fits_step {count : Int} (other : count ≠ 0) (least : count ≠ -2 ^ 31) (number : Nat) :
    Fits count (number + 1) ↔ Fits (count - 1) number := by
  rw [Fits,Fits]
  omega

theorem fits_none (count : Int32) : Fits count.toInt 0 := by
  have lower := count.le_toInt
  exact .inr (by omega)

theorem least_unfit (number : Nat) : ¬Fits Int32.minValue.toInt (number + 1) := by
  rw [Fits,Int32.toInt_minValue]
  omega

/-- The finished part is never searched again, and the rest is that of the original text. -/
theorem replaceAllLoop_result {pattern : List Char} (nonempty : pattern ≠ []) (newStr : List Char) (fuel : Nat)
    (done rest : List Char) (count : Int32) (enough : rest.length < fuel) :
    replaceAllLoop pattern newStr fuel (done ++ rest) done.length count =
      if Fits count.toInt (occurrences pattern 0 rest) then
        .ok (done ++ replaceFirst pattern newStr 0 (wanted count.toInt (occurrences pattern 0 rest)) rest)
      else .error .undefined := by
  induction fuel generalizing done rest count with
  | zero => contradiction
  | succ fuel ih =>
    cases found : leftmost pattern rest with
    | none =>
      obtain ⟨none,same⟩ := leftmost_none found
      rw [loop_absent newStr done fuel found,none,if_pos (fits_none count),same]
    | some i =>
      obtain ⟨inside,number,replaced⟩ := leftmost_some nonempty found
      by_cases zero : count = 0
      · subst zero
        rw [loop_spent newStr done fuel found,if_pos (.inl (Int.le_refl 0))]
        simp [wanted]
      · rw [loop_round newStr done fuel found inside zero,number]
        have other : count.toInt ≠ 0 := fun same => zero (Int32.toInt_inj.mp same)
        by_cases least : count = Int32.minValue
        · subst least
          rw [if_pos rfl,if_neg (least_unfit _)]
        · have value : count.toInt ≠ -2 ^ 31 := fun same =>
            least (Int32.toInt_inj.mp (same.trans Int32.toInt_minValue.symm))
          have positive := List.length_pos_iff.mpr nonempty
          have shorter : (rest.drop (i + pattern.length)).length < fuel := by
            rw [List.length_drop]
            omega
          have lowered : (count - 1).toInt = count.toInt - 1 := by
            have lower := count.le_toInt
            have upper := count.toInt_lt
            rw [Int32.toInt_sub,Int32.toInt_one,Int.bmod_eq_of_le (by omega) (by omega)]
          rw [if_neg least,ih _ _ _ shorter,lowered,wanted_step other,replaced]
          simp only [fits_step other value,List.append_assoc]

end Loop

/-- The text is the one asked for exactly when the count stays in its range. -/
theorem replaces_iff (text pattern newStr : List Char) (count : Int32) :
    Replaces text pattern newStr count ↔
      pattern = [] ∨ 0 ≤ count.toInt ∨ (occurrences pattern 0 text : Int) ≤ count.toInt + 2 ^ 31 := by
  by_cases empty : pattern = []
  · have returned : Replaces text pattern newStr count := fun fuel _ => by
      rw [replaceAllSlow,reference,if_pos empty,if_pos empty]
    exact ⟨fun _ => .inl empty,fun _ => returned⟩
  · have result (fuel : Nat) (enough : text.length < fuel) := replaceAllLoop_result empty newStr fuel [] text count enough
    constructor
    · intro replaces
      have done := replaces (text.length + 1) (Nat.lt_succ_self _)
      rw [replaceAllSlow,if_neg empty] at done
      by_contra beyond
      have unfit : ¬Fits count.toInt (occurrences pattern 0 text) := fun fits => beyond (.inr fits)
      have failed := result (text.length + 1) (Nat.lt_succ_self _)
      rw [if_neg unfit] at failed
      have clash := failed.symm.trans done
      contradiction
    · intro condition fuel enough
      have fits : Fits count.toInt (occurrences pattern 0 text) := condition.resolve_left empty
      rw [replaceAllSlow,if_neg empty,reference,if_neg empty]
      exact (result fuel enough).trans (if_pos fits)

/-- The count is decremented below the least `int` after the only replacement. -/
theorem least_count_decremented : ¬∀ text pattern newStr count, Replaces text pattern newStr count := by
  intro all
  have done := all ['a'] ['a'] ['b'] Int32.minValue 2 (by decide)
  revert done
  decide

end JkBuild.Replacement
