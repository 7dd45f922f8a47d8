import Mathlib.Data.List.Basic

/-! Where a pattern occurs in a text. A scan from left to right takes the leftmost occurrence
and goes on behind it, so that no two of the occurrences that it counts overlap. -/
namespace JkBuild.Occurrences

variable {α : Type} [DecidableEq α]

def leftmost (pattern : List α) : List α → Option Nat
  | [] => if pattern.isPrefixOf [] then some 0 else none
  | x :: text => if pattern.isPrefixOf (x :: text) then some 0 else (leftmost pattern text).map (· + 1)

/-- The first elements are skipped. -/
def occurrences (pattern : List α) : Nat → List α → Nat
  | _, [] => 0
  | skip + 1, _ :: text => occurrences pattern skip text
  | 0, x :: text =>
    if pattern.isPrefixOf (x :: text) then occurrences pattern (pattern.length - 1) text + 1
    else occurrences pattern 0 text

/-- The first `count` occurrences are replaced, and the first elements are dropped. -/
def replaceFirst (pattern new : List α) : Nat → Nat → List α → List α
  | _, _, [] => []
  | skip + 1, count, _ :: text => replaceFirst pattern new skip count text
  | 0, 0, x :: text => x :: text
  | 0, count + 1, x :: text =>
    if pattern.isPrefixOf (x :: text) then new ++ replaceFirst pattern new (pattern.length - 1) count text
    else x :: replaceFirst pattern new 0 (count + 1) text

theorem occurrences_skip (pattern : List α) (skip : Nat) (text : List α) :
    occurrences pattern skip text = occurrences pattern 0 (text.drop skip) := by
  induction text generalizing skip with
  | nil => rw [List.drop_nil,occurrences,occurrences]
  | cons x text ih =>
    cases skip with
    | zero => rfl
    | succ skip => exact ih skip

theorem replaceFirst_skip (pattern new : List α) (skip count : Nat) (text : List α) :
    replaceFirst pattern new skip count text = replaceFirst pattern new 0 count (text.drop skip) := by
  induction text generalizing skip with
  | nil => rw [List.drop_nil,replaceFirst,replaceFirst]
  | cons x text ih =>
    cases skip with
    | zero => rfl
    | succ skip =>
      rw [replaceFirst]
      exact ih skip

@[simp] theorem replaceFirst_zero (pattern new text : List α) : replaceFirst pattern new 0 0 text = text := by
  cases text <;> rfl

theorem leftmost_none {pattern text : List α} (absent : leftmost pattern text = none) :
    occurrences pattern 0 text = 0 ∧ ∀ new count, replaceFirst pattern new 0 count text = text := by
  induction text with
  | nil => exact ⟨rfl,fun _ _ => by rw [replaceFirst]⟩
  | cons x text ih =>
    rw [leftmost] at absent
    split at absent
    · contradiction
    · rename_i here
      obtain ⟨none,same⟩ := ih (Option.map_eq_none_iff.mp absent)
      refine ⟨by rw [occurrences,if_neg here,none],fun new count => ?_⟩
      cases count with
      | zero => rfl
      | succ count => rw [replaceFirst,if_neg here,same]

/-- One step of the scan, over the text in front of the leftmost occurrence. -/
theorem leftmost_some {pattern text : List α} (nonempty : pattern ≠ []) (found : leftmost pattern text = some i) :
    i + pattern.length ≤ text.length ∧
      occurrences pattern 0 text = occurrences pattern 0 (text.drop (i + pattern.length)) + 1 ∧
      ∀ new count, replaceFirst pattern new 0 (count + 1) text =
        text.take i ++ new ++ replaceFirst pattern new 0 count (text.drop (i + pattern.length)) := by
  have positive := List.length_pos_iff.mpr nonempty
  induction text generalizing i with
  | nil =>
    rw [leftmost] at found
    split at found
    · rename_i here
      exact absurd (List.prefix_nil.mp (List.isPrefixOf_iff_prefix.mp here)) nonempty
    · contradiction
  | cons x text ih =>
    rw [leftmost] at found
    split at found
    · rename_i here
      obtain rfl := Option.some.inj found
      have behind : (x :: text).drop (0 + pattern.length) = text.drop (pattern.length - 1) := by
        rw [Nat.zero_add,← Nat.sub_add_cancel positive]
        rfl
      refine ⟨?_,?_,fun new count => ?_⟩
      · rw [Nat.zero_add]
        exact (List.isPrefixOf_iff_prefix.mp here).length_le
      · rw [occurrences,if_pos here,occurrences_skip,behind]
      · rw [replaceFirst,if_pos here,replaceFirst_skip,behind]
        rfl
    · rename_i here
      obtain ⟨j,later,rfl⟩ := Option.map_eq_some_iff.mp found
      obtain ⟨inside,number,replaced⟩ := ih later
      have behind : (x :: text).drop (j + 1 + pattern.length) = text.drop (j + pattern.length) := by
        rw [Nat.add_right_comm]
        rfl
      refine ⟨?_,?_,fun new count => ?_⟩
      · rw [List.length_cons]
        omega
      · rw [occurrences,if_neg here,number,behind]
      · rw [replaceFirst,if_neg here,replaced,behind]
        rfl

end JkBuild.Occurrences
