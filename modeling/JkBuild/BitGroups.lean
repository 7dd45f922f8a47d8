import Mathlib.Algebra.Ring.Nat
import Mathlib.Tactic.Ring

/-! Numbers as lists of bits, the most significant first, and such lists cut into groups. The
last group is filled up with zeros. -/
namespace JkBuild.BitGroups

def bits : Nat → Nat → List Bool
  | 0, _ => []
  | width + 1, n => n.testBit width :: bits width n

def number (bs : List Bool) : Nat := bs.foldl (fun n b => 2 * n + b.toNat) 0

def cut (width : Nat) : Nat → List Bool → List (List Bool)
  | 0, _ => []
  | count + 1, bs => (bs.take width ++ List.replicate (width - bs.length) false) :: cut width count (bs.drop width)

/-- As many groups as it takes. -/
def groupsOf (width : Nat) (bs : List Bool) : List (List Bool) := cut width ((bs.length + (width - 1)) / width) bs

@[simp] theorem bits_length (width n : Nat) : (bits width n).length = width := by
  induction width with
  | zero => rfl
  | succ width ih => rw [bits,List.length_cons,ih]

theorem bits_add (upper lower n : Nat) : bits (upper + lower) n = bits upper (n / 2 ^ lower) ++ bits lower n := by
  induction upper with
  | zero => rw [Nat.zero_add]; rfl
  | succ upper ih =>
    rw [Nat.add_right_comm,bits,ih,bits,Nat.testBit_div_two_pow]
    rfl

theorem number_append (first second : List Bool) :
    number (first ++ second) = number first * 2 ^ second.length + number second := by
  have fold : ∀ start, second.foldl (fun n b => 2 * n + b.toNat) start = start * 2 ^ second.length + number second := by
    induction second with
    | nil => simp [number]
    | cons b second ih =>
      intro start
      have own := ih (2 * 0 + b.toNat)
      rw [number,List.foldl_cons,List.foldl_cons,ih,own,List.length_cons,Nat.pow_succ]
      ring
  rw [number,List.foldl_append]
  exact fold _

theorem number_bits (width n : Nat) : number (bits width n) = n % 2 ^ width := by
  induction width with
  | zero => simp [bits,number,Nat.mod_one]
  | succ width ih =>
    have split : bits (width + 1) n = [n.testBit width] ++ bits width n := rfl
    have digit : (n.testBit width).toNat = n / 2 ^ width % 2 := by
      rw [Nat.testBit_eq_decide_div_mod_eq]
      have small := Nat.mod_lt (n / 2 ^ width) (show 0 < 2 by decide)
      by_cases odd : n / 2 ^ width % 2 = 1
      · simp [odd]
      · have even : n / 2 ^ width % 2 = 0 := by omega
        simp [even]
    have single : number [n.testBit width] = n / 2 ^ width % 2 := by
      rw [← digit]
      simp [number]
    rw [split,number_append,single,ih,bits_length,Nat.mod_pow_succ]
    ring

theorem number_lt (bs : List Bool) : number bs < 2 ^ bs.length := by
  induction bs with
  | nil => decide
  | cons b bs ih =>
    have digit : number [b] ≤ 1 := by cases b <;> decide
    have scaled := Nat.mul_le_mul_right (2 ^ bs.length) digit
    rw [← List.singleton_append,number_append,List.length_append,List.length_singleton,Nat.pow_add]
    omega

theorem cut_length (width count : Nat) (bs : List Bool) : (cut width count bs).length = count := by
  induction count generalizing bs with
  | zero => rfl
  | succ count ih => rw [cut,List.length_cons,ih]

theorem cut_width (width count : Nat) (bs : List Bool) : ∀ group ∈ cut width count bs, group.length = width := by
  induction count generalizing bs with
  | zero => simp [cut]
  | succ count ih =>
    intro group member
    rw [cut] at member
    cases member with
    | head =>
      rw [List.length_append,List.length_take,List.length_replicate]
      omega
    | tail _ member => exact ih _ group member

theorem groupsOf_length (width : Nat) (bs : List Bool) :
    (groupsOf width bs).length = (bs.length + (width - 1)) / width := cut_length _ _ _

theorem number_group {group : List Bool} (member : group ∈ groupsOf width bs) : number group < 2 ^ width := by
  rw [← cut_width width _ bs group member]
  exact number_lt group

theorem groupsOf_append {width : Nat} (positive : 0 < width) {group : List Bool} (full : group.length = width)
    (rest : List Bool) : groupsOf width (group ++ rest) = group :: groupsOf width rest := by
  have count : ((group ++ rest).length + (width - 1)) / width = (rest.length + (width - 1)) / width + 1 := by
    rw [List.length_append,full,Nat.add_assoc,Nat.add_comm,Nat.add_div_right _ positive]
  have filled : width - (group ++ rest).length = 0 := by
    rw [List.length_append]
    omega
  rw [groupsOf,count,cut,filled,List.take_append_of_le_length (Nat.le_of_eq full.symm),List.take_of_length_le
    (Nat.le_of_eq full),List.replicate_zero,List.append_nil,← full,List.drop_left]
  rfl

theorem groupsOf_last {width : Nat} {group : List Bool} (nonempty : group ≠ []) (short : group.length ≤ width) :
    groupsOf width group = [group ++ List.replicate (width - group.length) false] := by
  have positive := List.length_pos_iff.mpr nonempty
  have count : (group.length + (width - 1)) / width = 1 := by
    apply Nat.div_eq_of_lt_le <;> omega
  rw [groupsOf,count,cut,List.take_of_length_le short]
  rfl

end JkBuild.BitGroups
