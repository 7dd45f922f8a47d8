import JkBuild.Basic
import JkBuild.Results
import Mathlib.Data.Rat.Floor

/-! The bar of `utils/progress.hh`. Its constructor has a width for an argument and leaves the
member for it as it finds the memory. The ratio of the progress is taken as exact. -/
namespace JkBuild.BarPrinting

section Code

structure ProgressBar where
  barWidth : UInt32
  base : Char
  arrow : Bool
  firstPrint : Bool
  deriving DecidableEq, Repr

/-- The base is `=` and there is an arrow where the caller says nothing else. -/
def ProgressBar.make (memory _barWidth : UInt32) (base : Char) (arrow : Bool) : ProgressBar :=
  ⟨memory,base,arrow,true⟩

/-- The unsigned subtractions of the code wrap around. The checked ones fail then. -/
inductive Arithmetic where
  | wrapping
  | checked
  deriving DecidableEq, Repr

def Arithmetic.minus : Arithmetic → UInt32 → Nat → Except Failure UInt32
  | wrapping,a,b => .ok (a - UInt32.ofNat b)
  | checked,a,b => if b ≤ a.toNat then .ok (a - UInt32.ofNat b) else .error .outOfRange

/-- The conversion to `int32_t`, of a number that is not negative. -/
def toInt32 (value : ℚ) : Except Failure Int32 :=
  if ⌊value⌋ < 2 ^ 31 then .ok (Int32.ofInt ⌊value⌋) else .error .undefined

def ratio (now total : UInt64) : ℚ := if total = 0 then 0 else (now.toNat : ℚ) / total.toNat

/-- `place_numbers` as the loop over it finds it. -/
def placeNumbers (arrow : Bool) (width : UInt32) (percent : ℚ) : Except Failure Int32 := do
  let places ← toInt32 (width.toNat * percent)
  let places := min places width.toInt32
  if arrow then
    if places = Int32.minValue then .error .undefined else return max (places - 1) 0
  else return places

def fill (arithmetic : Arithmetic) (base : Char) : Nat → List Char → UInt32 → Except Failure (List Char × UInt32)
  | 0,oss,rest => .ok (oss,rest)
  | places + 1,oss,rest => do fill arithmetic base places (oss ++ [base]) (← arithmetic.minus rest 1)

def point (arithmetic : Arithmetic) (pointed : Bool) (oss : List Char) (rest : UInt32) :
    Except Failure (List Char × UInt32) :=
  if pointed then do return (oss ++ ['>'],← arithmetic.minus rest 1) else return (oss,rest)

def threeDigits (n : Int) : List Char :=
  List.replicate (3 - (toString n).length) ' ' ++ (toString n).toList

def print (arithmetic : Arithmetic) (bar : ProgressBar) (now total : UInt64) (msg : List Char) :
    Except Failure (List Char × ProgressBar) := do
  let percent := ratio now total
  let width ← arithmetic.minus bar.barWidth (msg.length + 1)
  let places ← placeNumbers bar.arrow width percent
  let begun := if bar.firstPrint then [] else ['\r']
  let (oss,rest) ← fill arithmetic bar.base places.toInt.toNat (begun ++ ['[']) width
  let (oss,rest) ← point arithmetic (bar.arrow && places > 0) oss rest
  let done ← toInt32 (percent * 100)
  let oss := oss ++ List.replicate rest.toNat ' '
  return (oss ++ "] ".toList ++ threeDigits done.toInt ++ "%".toList ++ " ".toList ++ msg,{ bar with firstPrint := false })

end Code

section MachineIntegers

theorem toNat_minus {a : UInt32} {b : Nat} (enough : b ≤ a.toNat) : (a - UInt32.ofNat b).toNat = a.toNat - b := by
  have bound := a.toNat_lt
  have value : (UInt32.ofNat b).toNat = b := by
    rw [UInt32.toNat_ofNat']
    exact Nat.mod_eq_of_lt (by omega)
  rw [UInt32.toNat_sub,value]
  omega

theorem toInt_min (a b : Int32) : (min a b).toInt = min a.toInt b.toInt := by
  change (if a ≤ b then a else b).toInt = _
  split
  · rename_i below
    exact (min_eq_left (Int32.le_iff_toInt_le.mp below)).symm
  · rename_i above
    have other : b.toInt ≤ a.toInt := by
      rw [Int32.le_iff_toInt_le] at above
      omega
    exact (min_eq_right other).symm

theorem toInt_max (a b : Int32) : (max a b).toInt = max a.toInt b.toInt := by
  change (if a ≤ b then b else a).toInt = _
  split
  · rename_i below
    exact (max_eq_right (Int32.le_iff_toInt_le.mp below)).symm
  · rename_i above
    have other : b.toInt ≤ a.toInt := by
      rw [Int32.le_iff_toInt_le] at above
      omega
    exact (max_eq_left other).symm

theorem toInt_unsigned (a : UInt32) :
    a.toInt32.toInt = if a.toNat < 2 ^ 31 then (a.toNat : Int) else a.toNat - 2 ^ 32 := by
  have bound := a.toNat_lt
  change a.toBitVec.toInt = _
  rw [BitVec.toInt_eq_toNat_cond]
  have value : a.toBitVec.toNat = a.toNat := rfl
  rw [value]
  split <;> split <;> omega

end MachineIntegers

section Purpose

def caption (now total : UInt64) (msg : List Char) : List Char :=
  ' ' :: threeDigits (now.toNat * 100 / total.toNat : Nat) ++ '%' :: ' ' :: msg

/-- The output when `filled` and that many blanks are between the brackets. -/
def output (first : Bool) (filled : List Char) (blanks : Nat) (now total : UInt64) (msg : List Char) : List Char :=
  (if first then [] else ['\r']) ++ '[' :: (filled ++ List.replicate blanks ' ') ++ ']' :: caption now total msg

/-- Both arithmetics give one output, with exactly the width that the message leaves. -/
def WithinWidth (memory barWidth : UInt32) (base : Char) (arrow first : Bool) (now total : UInt64)
    (msg : List Char) : Prop :=
  let bar := { ProgressBar.make memory barWidth base arrow with firstPrint := first }
  ∃ filled blanks, (∀ ch ∈ filled, ch = base ∨ ch = '>') ∧ filled.length + blanks = barWidth.toNat - (msg.length + 1) ∧
    ∀ arithmetic, print arithmetic bar now total msg =
      .ok (output first filled blanks now total msg,{ bar with firstPrint := false })

/-- The conversions to signed numbers are defined. -/
def Converts (width : Nat) (arrow : Bool) (now total : UInt64) : Prop :=
  width * now.toNat / total.toNat < 2 ^ 31 ∧ (arrow = true → width ≠ 2 ^ 31)

end Purpose

section Steps

theorem minus_fits (arithmetic : Arithmetic) {a : UInt32} {b : Nat} (enough : b ≤ a.toNat) :
    arithmetic.minus a b = .ok (a - UInt32.ofNat b) := by
  cases arithmetic with
  | wrapping => rfl
  | checked => exact if_pos enough

theorem minus_wraps {a : UInt32} {b : Nat} (short : a.toNat < b) : Arithmetic.checked.minus a b = .error .outOfRange :=
  if_neg (Nat.not_le_of_lt short)

theorem floor_ratio (n : Nat) (now total : UInt64) :
    ⌊(n : ℚ) * ratio now total⌋ = (n * now.toNat / total.toNat : Nat) := by
  rw [ratio]
  split
  · rename_i zero
    rw [zero]
    simp
  · have quotient : (n : ℚ) * ((now.toNat : ℚ) / total.toNat) = ((n * now.toNat : Nat) : ℚ) / (total.toNat : Nat) := by
      rw [Nat.cast_mul,mul_div_assoc]
    rw [quotient,Rat.floor_natCast_div_natCast,Int.natCast_ediv]

theorem part_le {now total : UInt64} (done : now ≤ total) (n : Nat) : n * now.toNat / total.toNat ≤ n := by
  have le : now.toNat ≤ total.toNat := UInt64.le_iff_toNat_le.mp done
  exact Nat.div_le_of_le_mul (by rw [Nat.mul_comm total.toNat]; exact Nat.mul_le_mul_left n le)

theorem toInt32_fits {value : ℚ} {n : Nat} (floor : ⌊value⌋ = n) (small : n < 2 ^ 31) :
    ∃ i : Int32, toInt32 value = .ok i ∧ i.toInt = n := by
  have below : ⌊value⌋ < 2 ^ 31 := by omega
  refine ⟨Int32.ofInt ⌊value⌋,if_pos below,?_⟩
  rw [Int32.toInt_ofInt_of_le (by omega) below,floor]

variable {now total : UInt64}

theorem placeNumbers_fits (done : now ≤ total) {width : UInt32} {arrow : Bool}
    (converts : Converts width.toNat arrow now total) :
    ∃ places, placeNumbers arrow width (ratio now total) = .ok places ∧
      places.toInt.toNat + (arrow && places > 0).toNat ≤ width.toNat := by
  obtain ⟨small,arrowed⟩ := converts
  obtain ⟨whole,converted,value⟩ := toInt32_fits (floor_ratio width.toNat now total) small
  have part := part_le done width.toNat
  have least : (min whole width.toInt32).toInt ≤ (width.toNat * now.toNat / total.toNat : Nat) := by
    rw [toInt_min,value]
    exact min_le_left _ _
  rw [placeNumbers,converted,ok_bind]
  generalize width.toNat * now.toNat / total.toNat = n at small value part least
  cases arrow with
  | false =>
    refine ⟨_,rfl,?_⟩
    rw [Bool.false_and,Bool.toNat_false]
    omega
  | true =>
    have other : min whole width.toInt32 ≠ Int32.minValue := fun same => by
      have both := congrArg Int32.toInt same
      rw [toInt_min,value,toInt_unsigned,Int32.toInt_minValue] at both
      have differs := arrowed rfl
      split at both
      · omega
      · omega
    refine ⟨max (min whole width.toInt32 - 1) 0,by simp only [if_true,if_neg other]; rfl,?_⟩
    have after : (max (min whole width.toInt32 - 1) 0).toInt = max ((min whole width.toInt32).toInt - 1) 0 := by
      have lower := (min whole width.toInt32).le_toInt
      have upper := (min whole width.toInt32).toInt_lt
      have above : (min whole width.toInt32).toInt ≠ -2 ^ 31 := fun same =>
        other (Int32.toInt_inj.mp (same.trans Int32.toInt_minValue.symm))
      rw [toInt_max,Int32.toInt_zero,Int32.toInt_sub,Int32.toInt_one,Int.bmod_eq_of_le (by omega) (by omega)]
    rw [Bool.true_and,after]
    by_cases positive : max (min whole width.toInt32 - 1) 0 > 0
    · have above : 0 < max ((min whole width.toInt32).toInt - 1) 0 := by
        rw [gt_iff_lt,Int32.lt_iff_toInt_lt,after,Int32.toInt_zero] at positive
        exact positive
      rw [decide_eq_true positive,Bool.toNat_true]
      omega
    · rw [decide_eq_false positive,Bool.toNat_false]
      omega

theorem placeNumbers_undefined {width : UInt32} {arrow : Bool} (fails : ¬Converts width.toNat arrow now total) :
    placeNumbers arrow width (ratio now total) = .error .undefined := by
  by_cases small : width.toNat * now.toNat / total.toNat < 2 ^ 31
  · obtain ⟨whole,converted,value⟩ := toInt32_fits (floor_ratio width.toNat now total) small
    have arrowed : arrow = true := by
      by_contra plain
      exact fails ⟨small,fun same => absurd same plain⟩
    have exactly : width.toNat = 2 ^ 31 := by
      by_contra other
      exact fails ⟨small,fun _ => other⟩
    have least : min whole width.toInt32 = Int32.minValue := by
      apply Int32.toInt_inj.mp
      generalize width.toNat * now.toNat / total.toNat = n at value
      have negative : width.toInt32.toInt = -2 ^ 31 := by
        rw [toInt_unsigned,if_neg (by omega)]
        omega
      rw [toInt_min,value,negative,Int32.toInt_minValue]
      exact min_eq_right (by omega)
    rw [placeNumbers,converted,ok_bind,arrowed]
    simp only [least]
    rfl
  · have large : ¬⌊(width.toNat : ℚ) * ratio now total⌋ < 2 ^ 31 := by
      rw [floor_ratio]
      omega
    rw [placeNumbers,toInt32,if_neg large]
    rfl

theorem fill_fits (arithmetic : Arithmetic) (base : Char) (places : Nat) (oss : List Char) (rest : UInt32)
    (enough : places ≤ rest.toNat) :
    fill arithmetic base places oss rest = .ok (oss ++ List.replicate places base,rest - UInt32.ofNat places) := by
  induction places generalizing oss rest with
  | zero => simp [fill]
  | succ places ih =>
    have one : (rest - UInt32.ofNat 1).toNat = rest.toNat - 1 := toNat_minus (by omega)
    have next : rest - UInt32.ofNat 1 - UInt32.ofNat places = rest - UInt32.ofNat (places + 1) := by
      apply UInt32.toNat_inj.mp
      rw [toNat_minus (by omega),toNat_minus enough,one]
      omega
    rw [fill,minus_fits arithmetic (by omega),ok_bind,ih _ _ (by omega),next,List.append_assoc,List.replicate_succ]
    rfl

variable {bar : ProgressBar} {msg : List Char}

theorem percent_fits (done : now ≤ total) :
    ∃ i : Int32, toInt32 (ratio now total * 100) = .ok i ∧ i.toInt = (now.toNat * 100 / total.toNat : Nat) := by
  have floor : ⌊ratio now total * 100⌋ = (now.toNat * 100 / total.toNat : Nat) := by
    have same := floor_ratio 100 now total
    rw [Nat.mul_comm] at same
    rw [mul_comm]
    exact same
  have part := part_le done 100
  rw [Nat.mul_comm] at part
  exact toInt32_fits floor (by omega)

theorem point_fits (arithmetic : Arithmetic) (pointed : Bool) (oss : List Char) (rest : UInt32)
    (enough : pointed.toNat ≤ rest.toNat) :
    point arithmetic pointed oss rest =
      .ok (oss ++ List.replicate pointed.toNat '>',rest - UInt32.ofNat pointed.toNat) := by
  cases pointed with
  | false => simp [point]
  | true =>
    have one : 1 ≤ rest.toNat := enough
    rw [point,if_pos rfl,minus_fits arithmetic one]
    rfl

/-- Where nothing wraps and the conversions are defined, the brackets hold the width. -/
theorem print_fits (bar : ProgressBar) (done : now ≤ total) (room : msg.length + 1 ≤ bar.barWidth.toNat)
    (converts : Converts (bar.barWidth.toNat - (msg.length + 1)) bar.arrow now total) :
    ∃ filled blanks, (∀ ch ∈ filled, ch = bar.base ∨ ch = '>') ∧
      filled.length + blanks = bar.barWidth.toNat - (msg.length + 1) ∧
      ∀ arithmetic, print arithmetic bar now total msg =
        .ok (output bar.firstPrint filled blanks now total msg,{ bar with firstPrint := false }) := by
  have width := toNat_minus room
  rw [← width] at converts
  obtain ⟨places,placed,inside⟩ := placeNumbers_fits done converts
  obtain ⟨percent,converted,value⟩ := percent_fits done
  have left : (bar.barWidth - UInt32.ofNat (msg.length + 1) - UInt32.ofNat places.toInt.toNat).toNat =
      (bar.barWidth - UInt32.ofNat (msg.length + 1)).toNat - places.toInt.toNat := toNat_minus (by omega)
  refine ⟨List.replicate places.toInt.toNat bar.base ++ List.replicate (bar.arrow && places > 0).toNat '>',
    (bar.barWidth - UInt32.ofNat (msg.length + 1) - UInt32.ofNat places.toInt.toNat -
      UInt32.ofNat (bar.arrow && places > 0).toNat).toNat,?_,?_,?_⟩
  · intro ch member
    rcases List.mem_append.mp member with base | arrow
    · exact .inl (List.eq_of_mem_replicate base)
    · exact .inr (List.eq_of_mem_replicate arrow)
  · rw [toNat_minus (by omega),List.length_append,List.length_replicate,List.length_replicate]
    omega
  · intro arithmetic
    have filled := fill_fits arithmetic bar.base places.toInt.toNat ((if bar.firstPrint then [] else ['\r']) ++ ['['])
      (bar.barWidth - UInt32.ofNat (msg.length + 1)) (by omega)
    rw [print,minus_fits arithmetic room,ok_bind,placed,ok_bind]
    simp only [filled,ok_bind]
    rw [point_fits arithmetic _ _ _ (by omega),ok_bind,converted]
    simp [output,caption,value]

theorem print_wraps (short : bar.barWidth.toNat < msg.length + 1) :
    print .checked bar now total msg = .error .outOfRange := by
  rw [print,minus_wraps short]
  rfl

theorem print_undefined (room : msg.length + 1 ≤ bar.barWidth.toNat)
    (fails : ¬Converts (bar.barWidth.toNat - (msg.length + 1)) bar.arrow now total) :
    print .checked bar now total msg = .error .undefined := by
  rw [← toNat_minus room] at fails
  rw [print,minus_fits .checked room,ok_bind,placeNumbers_undefined fails]
  rfl

/-- The length of an output tells what is between the brackets. -/
theorem output_length (first : Bool) (filled : List Char) (blanks : Nat) :
    (output first filled blanks now total msg).length =
      (output first [] 0 now total msg).length + (filled.length + blanks) := by
  simp [output]
  omega

end Steps

/-- The bar keeps to the width asked for exactly when the memory leaves as much room beside the
message as that width does, without wrapping, and the conversions are defined. -/
theorem withinWidth_iff (memory barWidth : UInt32) (base : Char) (arrow first : Bool) (now total : UInt64)
    (msg : List Char) (done : now ≤ total) :
    WithinWidth memory barWidth base arrow first now total msg ↔
      msg.length + 1 ≤ memory.toNat ∧ memory.toNat - (msg.length + 1) = barWidth.toNat - (msg.length + 1) ∧
        Converts (memory.toNat - (msg.length + 1)) arrow now total := by
  constructor
  · rintro ⟨filled,blanks,-,size,prints⟩
    have checked := prints .checked
    have room : msg.length + 1 ≤ memory.toNat := by
      by_contra short
      rw [print_wraps (Nat.lt_of_not_le short)] at checked
      contradiction
    have converts : Converts (memory.toNat - (msg.length + 1)) arrow now total := by
      by_contra fails
      rw [print_undefined room fails] at checked
      contradiction
    obtain ⟨filled',blanks',-,size',prints'⟩ :=
      print_fits { ProgressBar.make memory barWidth base arrow with firstPrint := first } done room converts
    have same := congrArg (fun text => text.1.length) (Except.ok.inj ((prints' .checked).symm.trans checked))
    simp only [output_length first filled,output_length first filled'] at same
    have leaves : memory.toNat - (msg.length + 1) = filled'.length + blanks' := size'.symm
    exact ⟨room,by omega,converts⟩
  · rintro ⟨room,same,converts⟩
    obtain ⟨filled,blanks,made,size,prints⟩ :=
      print_fits { ProgressBar.make memory barWidth base arrow with firstPrint := first } done room converts
    exact ⟨filled,blanks,made,size.trans same,prints⟩

/-- A memory that holds the width, and room for the message. -/
theorem half_done_within : WithinWidth 20 20 '=' true true 1 2 "ab".toList := by
  have within := withinWidth_iff 20 20 '=' true true 1 2 "ab".toList (by decide)
  exact within.mpr ⟨by decide,rfl,by decide,by decide⟩

/-- The width is lost in a memory of zeros, and a message as long as the width wraps. -/
theorem width_lost : ¬WithinWidth 0 80 '=' true true 0 1 [] ∧
    ¬WithinWidth 80 80 '=' true true 0 1 (List.replicate 80 'm') := by
  constructor
  · rintro ⟨filled,blanks,-,-,prints⟩
    have checked := prints .checked
    rw [print_wraps (by decide)] at checked
    contradiction
  · rintro ⟨filled,blanks,-,-,prints⟩
    have checked := prints .checked
    rw [print_wraps (by rw [List.length_replicate]; decide)] at checked
    contradiction

end JkBuild.BarPrinting
