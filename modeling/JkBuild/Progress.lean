import JkBuild.CountableSteps
import JkBuild.Preparation
import Mathlib.Data.Finset.Card
import Mathlib.Data.List.TakeWhile

/-! Progress of a build: `start_progress` writes the number of steps to a file, recipes
name their steps by number, and each `echo_color` leaves a file for every step it is told
about and counts the files. Calls run one after the other, and files can be written. -/
namespace JkBuild.Progress

open CountableSteps Preparation

/-- The folder `Progress`: its entries with what is in them. -/
abbrev Directory := List (String × String)

def write (name content : String) (dir : Directory) : Directory :=
  if dir.any (·.1 = name) then dir.map fun entry => if entry.1 = name then (name,content) else entry
  else dir ++ [(name,content)]

/-- `operator>>` into a 32 bit unsigned integer. -/
def readUnsigned (text : List Char) : Nat :=
  let text := text.dropWhile isAsciiWhitespace
  let (negative,rest) := match text with
    | '-' :: rest => (true,rest)
    | '+' :: rest => (false,rest)
    | text => (false,text)
  let value := Nat.ofDigitChars 10 (rest.takeWhile Char.isDigit) 0
  if value ≥ wordSize then wordSize - 1 else if negative then (wordSize - value) % wordSize else value

/-- The loop of `getline` with the delimiter `,`; `item` is what is read of the next item. -/
def getlines : List Char → List Char → List (List Char)
  | item, [] => if item = [] then [] else [item]
  | item, ch :: text => if ch = ',' then item :: getlines [] text else getlines (item ++ [ch]) text

def progressNumbers (progressNum : String) : List Nat := (getlines [] progressNum.toList).map readUnsigned

/-- The text of `--progress-num`: the numbers of a rule, joined by commas. -/
def strJoin (numbers : List Nat) : String :=
  String.ofList (List.intercalate [','] (numbers.map fun n => (toString n).toList))

def startProgress (progressMark : Option String) : Except Failure Directory :=
  match progressMark with
  | none => .error (.jkBuildError "Could not read from count file.")
  | some text => .ok (write "count.txt" (toString (readUnsigned text.toList)) [])

def getNumberOfFilesInDirectory (dir : Directory) : Nat := dir.length % wordSize

/-- The percentage that is shown, if any, and the folder afterwards. -/
def progressReport (dir : Directory) (num : List Nat) : Except Failure (Option Nat × Directory) :=
  match dir.lookup "count.txt" with
  | none => .error (.jkBuildError "Could not read from progress file.")
  | some text =>
    let total := readUnsigned text.toList
    let dir := num.foldl (fun dir n => write (toString n) "empty" dir) dir
    let count := getNumberOfFilesInDirectory dir
    let done := (count + wordSize - 1) % wordSize
    .ok (if total > 0 then some (done * 100 % wordSize / total) else none,dir)

/-- What `EchoColor` does about progress unless it is `--simple`. -/
def echoColor (progressNum : String) (dir : Directory) : Except Failure (Option Nat × Directory) :=
  progressReport dir (progressNumbers progressNum)

def echoAll : List String → Directory → Except Failure (List (Option Nat) × Directory)
  | [], dir => .ok ([],dir)
  | progressNum :: rest, dir => do
    let (shown,dir) ← echoColor progressNum dir
    let (later,dir) ← echoAll rest dir
    return (shown :: later,dir)

section Decimal

theorem digits_isDigit (n : Nat) : ∀ ch ∈ (toString n).toList, ch.isDigit = true := by
  rw [Nat.toString_eq_repr,Nat.toList_repr]
  exact fun ch member => Nat.isDigit_of_mem_toDigits (by decide) (by decide) member

theorem digits_ne_nil (n : Nat) : (toString n).toList ≠ [] := by
  rw [Nat.toString_eq_repr,Nat.toList_repr]
  exact Nat.toDigits_ne_nil

theorem digit_ne {ch other : Char} (digit : ch.isDigit = true) (not : other.isDigit = false) : ch ≠ other := by
  rintro rfl
  rw [digit] at not
  contradiction

theorem readUnsigned_toString (small : n < wordSize) : readUnsigned (toString n).toList = n := by
  have digits := digits_isDigit n
  obtain ⟨ch,rest,shape⟩ := List.exists_cons_of_ne_nil (digits_ne_nil n)
  have first : ch.isDigit = true := digits ch (shape ▸ List.mem_cons_self)
  have visible : isAsciiWhitespace ch = false := by
    by_contra blank
    have member := of_decide_eq_true (Bool.not_eq_false _ ▸ blank : isAsciiWhitespace ch = true)
    simp only [List.mem_cons,List.not_mem_nil,or_false] at member
    rcases member with rfl | rfl | rfl | rfl | rfl | rfl <;> contradiction
  have whole : (toString n).toList.takeWhile Char.isDigit = (toString n).toList :=
    List.takeWhile_eq_self_iff.mpr digits
  have value : Nat.ofDigitChars 10 (toString n).toList 0 = n := by
    rw [Nat.toString_eq_repr,Nat.toList_repr]
    exact Nat.ofDigitChars_ten_toDigits
  have kept : (toString n).toList.dropWhile isAsciiWhitespace = (toString n).toList := by
    rw [shape,List.dropWhile_cons_of_neg (by simp [visible])]
  have plain : (match (toString n).toList with
      | '-' :: rest => (true,rest)
      | '+' :: rest => (false,rest)
      | text => (false,text)) = (false,(toString n).toList) := by
    rw [shape]
    split
    · next same => exact absurd (List.cons.inj same).1 (digit_ne first rfl)
    · next same => exact absurd (List.cons.inj same).1 (digit_ne first rfl)
    · rfl
  simp only [readUnsigned,kept,plain,whole,value]
  rw [if_neg (by omega)]
  rfl

theorem toString_inj {n m : Nat} (same : toString n = toString m) : n = m := by
  have digits := congrArg String.toList same
  rw [Nat.toString_eq_repr,Nat.toString_eq_repr,Nat.toList_repr,Nat.toList_repr] at digits
  have value := congrArg (fun l => Nat.ofDigitChars 10 l 0) digits
  simpa using value

end Decimal

section Text

theorem getlines_item (item xs : List Char) (plain : ∀ ch ∈ xs, ch ≠ ',') (nonempty : item ++ xs ≠ []) :
    getlines item xs = [item ++ xs] := by
  induction xs generalizing item with
  | nil =>
    rw [List.append_nil] at nonempty ⊢
    rw [getlines,if_neg nonempty]
  | cons ch xs ih =>
    rw [getlines,if_neg (plain ch (by simp)),ih _ (fun c member => plain c (List.mem_cons_of_mem _ member)) (by simp)]
    simp

theorem getlines_delimited (item xs rest : List Char) (plain : ∀ ch ∈ xs, ch ≠ ',') :
    getlines item (xs ++ ',' :: rest) = (item ++ xs) :: getlines [] rest := by
  induction xs generalizing item with
  | nil => simp [getlines]
  | cons ch xs ih =>
    rw [List.cons_append,getlines,if_neg (plain ch (by simp)),
      ih _ fun c member => plain c (List.mem_cons_of_mem _ member)]
    simp

theorem getlines_join (numbers : List Nat) :
    getlines [] (List.intercalate [','] (numbers.map fun n => (toString n).toList)) =
      numbers.map fun n => (toString n).toList := by
  have plain : ∀ n : Nat, ∀ ch ∈ (toString n).toList, ch ≠ ',' :=
    fun n ch member => digit_ne (digits_isDigit n ch member) rfl
  induction numbers with
  | nil => rfl
  | cons n numbers ih =>
    cases numbers with
    | nil =>
      have single := getlines_item [] (toString n).toList (plain n) (digits_ne_nil n)
      simpa using single
    | cons m numbers =>
      have rest := getlines_delimited [] (toString n).toList
        (List.intercalate [','] ((m :: numbers).map fun n => (toString n).toList)) (plain n)
      rw [ih] at rest
      simpa [List.intercalate] using rest

theorem progressNumbers_strJoin (small : ∀ n ∈ numbers, n < wordSize) :
    progressNumbers (strJoin numbers) = numbers := by
  rw [progressNumbers,strJoin,String.toList_ofList,getlines_join,List.map_map]
  have each : ∀ n ∈ numbers, (readUnsigned ∘ fun n => (toString n).toList) n = id n := by
    intro n member
    rw [Function.comp_apply,readUnsigned_toString (small n member),id_eq]
  rw [List.map_congr_left each,List.map_id]

end Text

section Folder

/-- The folder holds the total and one file for every number reported. -/
structure Shows (total : Nat) (reported : Finset Nat) (dir : Directory) : Prop where
  count : dir.lookup "count.txt" = some (toString total)
  files : dir.length = reported.card + 1
  named : ∀ n : Nat, toString n ∈ dir.map Prod.fst ↔ n ∈ reported

theorem count_ne (n : Nat) : "count.txt" ≠ toString n := by
  intro same
  have digit := digits_isDigit n 'c' (by rw [← same]; decide)
  contradiction

theorem write_names (name content : String) (dir : Directory) : (write name content dir).map Prod.fst =
    if name ∈ dir.map Prod.fst then dir.map Prod.fst else dir.map Prod.fst ++ [name] := by
  have present : dir.any (·.1 = name) = true ↔ name ∈ dir.map Prod.fst := by
    simp [List.any_eq_true]
  unfold write
  by_cases there : name ∈ dir.map Prod.fst
  · rw [if_pos (present.mpr there),if_pos there,List.map_map]
    refine List.map_congr_left fun entry _ => ?_
    by_cases same : entry.1 = name
    · simp [same]
    · simp [same]
  · rw [if_neg (fun any => there (present.mp any)),if_neg there,List.map_append]
    rfl

theorem lookup_write {name other : String} (content : String) (apart : other ≠ name) (dir : Directory) :
    (write name content dir).lookup other = dir.lookup other := by
  have differ : (other == name) = false := by simpa using apart
  unfold write
  split
  · clear * - differ
    induction dir with
    | nil => rfl
    | cons entry dir ih =>
      obtain ⟨key,value⟩ := entry
      rw [List.map_cons]
      by_cases same : key = name
      · rw [if_pos same,List.lookup_cons,List.lookup_cons,differ,ih,same,differ]
      · rw [if_neg same,List.lookup_cons,List.lookup_cons,ih]
  · rw [List.lookup_append,List.lookup_cons,differ]
    simp

theorem Shows.write {dir : Directory} (h : Shows total reported dir) (n : Nat) :
    Shows total (insert n reported) (Progress.write (toString n) "empty" dir) := by
  have names := write_names (toString n) "empty" dir
  have length : ∀ dir : Directory, dir.length = (dir.map Prod.fst).length := by simp
  constructor
  · rw [lookup_write _ (count_ne n),h.count]
  · rw [length,names]
    by_cases old : n ∈ reported
    · rw [if_pos ((h.named n).mpr old),List.length_map,h.files,Finset.insert_eq_of_mem old]
    · rw [if_neg fun member => old ((h.named n).mp member),List.length_append,List.length_map,h.files,
        Finset.card_insert_of_notMem old]
      rfl
  · intro m
    rw [names,Finset.mem_insert]
    by_cases old : n ∈ reported
    · rw [if_pos ((h.named n).mpr old),h.named m]
      exact ⟨.inr,fun either => either.elim (fun same => same ▸ old) id⟩
    · rw [if_neg fun member => old ((h.named n).mp member),List.mem_append,h.named m,List.mem_singleton,or_comm]
      exact or_congr_left ⟨toString_inj,fun same => same ▸ rfl⟩

theorem Shows.writeAll {dir : Directory} (h : Shows total reported dir) (num : List Nat) :
    Shows total (reported ∪ num.toFinset) (num.foldl (fun dir n => Progress.write (toString n) "empty" dir) dir) := by
  induction num generalizing reported dir with
  | nil => simpa using h
  | cons n num ih =>
    have next := ih (h.write n)
    rw [Finset.insert_union,← Finset.union_insert] at next
    rwa [List.toFinset_cons,List.foldl_cons]

theorem startProgress_shows (total : Nat) (small : total < wordSize) :
    ∃ dir, startProgress (some (toString total)) = .ok dir ∧ Shows total ∅ dir := by
  refine ⟨_,rfl,?_⟩
  rw [readUnsigned_toString small]
  refine ⟨rfl,rfl,fun n => ?_⟩
  have apart := count_ne n
  simpa [Progress.write] using Ne.symm apart

/-- One report: the share of the steps that have been reported, this one's included. -/
theorem progressReport_shows {dir : Directory} (h : Shows total reported dir) (num : List Nat)
    (fits : 100 * total < wordSize) (known : ∀ n ∈ reported ∪ num.toFinset, n < total) :
    ∃ dir', progressReport dir num =
        .ok (if total > 0 then some (100 * (reported ∪ num.toFinset).card / total) else none,dir') ∧
      Shows total (reported ∪ num.toFinset) dir' := by
  have after := h.writeAll num
  have small : total < wordSize := by omega
  have bound : (reported ∪ num.toFinset).card ≤ total := by
    have within : reported ∪ num.toFinset ⊆ Finset.range total :=
      fun n member => Finset.mem_range.mpr (known n member)
    simpa using Finset.card_le_card within
  refine ⟨_,?_,after⟩
  have files := after.files
  have done : (getNumberOfFilesInDirectory (num.foldl (fun dir n => Progress.write (toString n) "empty" dir) dir) +
      wordSize - 1) % wordSize * 100 % wordSize = 100 * (reported ∪ num.toFinset).card := by
    rw [getNumberOfFilesInDirectory,files]
    generalize (reported ∪ num.toFinset).card = k at bound
    have word : wordSize = 4294967296 := rfl
    have one : (k + 1) % wordSize = k + 1 := Nat.mod_eq_of_lt (by omega)
    have back : (k + 1 + wordSize - 1) % wordSize = k := by
      rw [Nat.add_right_comm,Nat.add_sub_cancel,Nat.add_mod_right]
      exact Nat.mod_eq_of_lt (by omega)
    rw [one,back,Nat.mul_comm]
    exact Nat.mod_eq_of_lt (by omega)
  simp only [progressReport,h.count,readUnsigned_toString small,done]

end Folder

section Accounts

/-- The numbers named in the first calls, each once. -/
def reportedBy (reports : List (List Nat)) (i : Nat) : Finset Nat := (reports.take i).flatten.toFinset

/-- What the calls of a build show, where a project without steps shows nothing. -/
structure Accounts (total : Nat) (reports : List (List Nat)) (shown : List (Option Nat)) : Prop where
  length : shown.length = reports.length
  each : ∀ i p, shown[i]? = some p →
    p = if total > 0 then some (100 * (reportedBy reports (i + 1)).card / total) else none
  bounded : ∀ p, some p ∈ shown → p ≤ 100
  monotone : ∀ (i j : Nat) p q, i ≤ j → shown[i]? = some (some p) → shown[j]? = some (some q) → p ≤ q
  complete : ∀ i p, shown[i]? = some (some p) → (p = 100 ↔ ∀ v < total, v ∈ reportedBy reports (i + 1))

theorem reportedBy_mono (reports : List (List Nat)) {i j : Nat} (before : i ≤ j) :
    reportedBy reports i ⊆ reportedBy reports j := by
  intro v member
  simp only [reportedBy,List.mem_toFinset,List.mem_flatten] at member ⊢
  obtain ⟨nums,inside,named⟩ := member
  exact ⟨nums,(List.take_sublist_take_left before).subset inside,named⟩

/-- All is said by the values: the rest is arithmetic of a share of the total. -/
theorem Accounts.of_each (length : shown.length = reports.length) (each : ∀ i p, shown[i]? = some p →
      p = if total > 0 then some (100 * (reportedBy reports (i + 1)).card / total) else none)
    (known : ∀ nums ∈ reports, ∀ v ∈ nums, v < total) : Accounts total reports shown := by
  have within : ∀ i, reportedBy reports i ⊆ Finset.range total := by
    intro i v member
    simp only [reportedBy,List.mem_toFinset,List.mem_flatten] at member
    obtain ⟨nums,inside,named⟩ := member
    exact Finset.mem_range.mpr (known nums (List.mem_of_mem_take inside) v named)
  have share : ∀ i p, shown[i]? = some (some p) →
      total > 0 ∧ p = 100 * (reportedBy reports (i + 1)).card / total := by
    intro i p here
    have value := each i (some p) here
    split at value
    · next positive => exact ⟨positive,Option.some.inj value⟩
    · contradiction
  have bound : ∀ i, (reportedBy reports i).card ≤ total := fun i => by
    simpa using Finset.card_le_card (within i)
  refine ⟨length,each,?_,?_,?_⟩
  · intro p member
    obtain ⟨i,here⟩ := List.getElem?_of_mem member
    obtain ⟨positive,rfl⟩ := share i p here
    exact Nat.div_le_of_le_mul (by have := bound (i + 1); rw [Nat.mul_comm total]; omega)
  · intro i j p q before first second
    obtain ⟨-,rfl⟩ := share i p first
    obtain ⟨-,rfl⟩ := share j q second
    have more := Finset.card_le_card (reportedBy_mono reports (Nat.add_le_add_right before 1))
    exact Nat.div_le_div_right (Nat.mul_le_mul_left 100 more)
  · intro i p here
    obtain ⟨positive,rfl⟩ := share i p here
    constructor
    · intro all v inside
      have reached : total ≤ (reportedBy reports (i + 1)).card := by
        by_contra fewer
        have : 100 * (reportedBy reports (i + 1)).card / total < 100 := Nat.div_lt_of_lt_mul (by
          rw [Nat.mul_comm total]; omega)
        omega
      have whole := Finset.eq_of_subset_of_card_le (within (i + 1)) (by simpa using reached)
      rw [whole]
      exact Finset.mem_range.mpr inside
    · intro all
      have whole : reportedBy reports (i + 1) = Finset.range total :=
        Finset.Subset.antisymm (within (i + 1)) fun v member => all v (Finset.mem_range.mp member)
      rw [whole,Finset.card_range,Nat.mul_div_cancel _ positive]

/-- A sequence of calls, begun when some numbers have been reported. -/
theorem echoAll_shows (total : Nat) (fits : 100 * total < wordSize) (reports : List (List Nat))
    (known : ∀ nums ∈ reports, ∀ v ∈ nums, v < total) {reported : Finset Nat} {dir : Directory}
    (h : Shows total reported dir) (inside : ∀ v ∈ reported, v < total) :
    ∃ shown dir', echoAll (reports.map strJoin) dir = .ok (shown,dir') ∧ shown.length = reports.length ∧
      ∀ i p, shown[i]? = some p →
        p = if total > 0 then some (100 * (reported ∪ reportedBy reports (i + 1)).card / total) else none := by
  induction reports generalizing reported dir with
  | nil => exact ⟨[],dir,rfl,rfl,by simp⟩
  | cons nums reports ih =>
    have small : ∀ v ∈ nums, v < wordSize := fun v member => by
      have := known nums (by simp) v member
      omega
    have union : ∀ v ∈ reported ∪ nums.toFinset, v < total := by
      intro v member
      rcases Finset.mem_union.mp member with old | new
      · exact inside v old
      · exact known nums (by simp) v (List.mem_toFinset.mp new)
    obtain ⟨middle,first,after⟩ := progressReport_shows h nums fits union
    obtain ⟨shown,dir',rest,length,each⟩ :=
      ih (fun nums member => known nums (List.mem_cons_of_mem _ member)) after union
    refine ⟨(if total > 0 then some (100 * (reported ∪ nums.toFinset).card / total) else none) :: shown,dir',?_,
      by rw [List.length_cons,length,List.length_cons],?_⟩
    · rw [List.map_cons,echoAll,echoColor,progressNumbers_strJoin small,first]
      simp only [ok_bind,rest]
      rfl
    · intro i p here
      cases i with
      | zero =>
        obtain rfl := Option.some.inj here
        simp [reportedBy]
      | succ i =>
        have value := each i p here
        have same : reported ∪ nums.toFinset ∪ reportedBy reports (i + 1) =
            reported ∪ reportedBy (nums :: reports) (i + 1 + 1) := by
          simp [reportedBy,Finset.union_assoc]
        rwa [same] at value

end Accounts

/-- The numbers given to the steps of all rules are exactly those below the total, and from
the total in the mark file the percentages follow, whatever the recipes report and when. -/
theorem accounting_exact {ρ : Type} [DecidableEq ρ] (calls : List (ρ × String))
    (few : (stepped [] calls).length < wordSize) :
    Exact calls (run calls initial).1 (run calls initial).2.count ∧
      ∀ reports : List (List Nat), (∀ nums ∈ reports, ∀ v ∈ nums, v ∈ (run calls initial).1) →
        100 * (run calls initial).2.count < wordSize →
        (∀ nums ∈ reports, progressNumbers (strJoin nums) = nums) ∧
        ∃ dir shown dir', startProgress (some (toString (run calls initial).2.count)) = .ok dir ∧
          echoAll (reports.map strJoin) dir = .ok (shown,dir') ∧
          Accounts (run calls initial).2.count reports shown := by
  have exact := run_exact calls few
  refine ⟨exact,fun reports handed fits => ?_⟩
  have known : ∀ nums ∈ reports, ∀ v ∈ nums, v < (run calls initial).2.count :=
    fun nums member v named => (exact.counted v).mp (handed nums member v named)
  refine ⟨fun nums member => progressNumbers_strJoin fun v named => ?_,?_⟩
  · have := known nums member v named
    omega
  · obtain ⟨dir,started,shows⟩ := startProgress_shows (run calls initial).2.count (by omega)
    obtain ⟨shown,dir',echoed,length,each⟩ := echoAll_shows _ fits reports known shows (by simp)
    refine ⟨dir,shown,dir',started,echoed,.of_each length ?_ known⟩
    simpa using each

def sampleCalls : List (Nat × String) := [(0,"a"),(1,"a"),(0,"a")]

theorem sampleCalls_account : Exact sampleCalls [0,1,0] 2 ∧ ∃ dir shown dir', startProgress (some "2") = .ok dir ∧
    echoAll ["0","1,0"] dir = .ok (shown,dir') ∧ Accounts 2 [[0],[1,0]] shown := by
  obtain ⟨exact,account⟩ := accounting_exact sampleCalls (by decide)
  have numbers : (run sampleCalls initial).1 = [0,1,0] := by decide
  have count : (run sampleCalls initial).2.count = 2 := by decide
  have total : toString 2 = "2" := rfl
  have texts : [[0],[1,0]].map strJoin = ["0","1,0"] := by decide +kernel
  rw [numbers,count] at exact
  rw [count,total] at account
  obtain ⟨-,shows⟩ := account [[0],[1,0]] (by decide) (by decide)
  rw [texts] at shows
  exact ⟨exact,shows⟩

theorem stepped_nodup (seen calls : List (Nat × String)) (fresh : (seen ++ calls).Nodup) :
    stepped seen calls = seen ++ calls := by
  induction calls generalizing seen with
  | nil => simp [stepped]
  | cons call calls ih =>
    have new : call ∉ seen := fun member => (List.nodup_append.mp fresh).2.2 call member call (by simp) rfl
    rw [stepped,List.foldl_cons,if_neg new,← stepped,ih _ (by simpa using fresh)]
    simp

def manyCalls (n : Nat) : List (Nat × String) := (List.range n).map fun rule => (rule,"")

theorem manyCalls_length (n : Nat) : (stepped [] (manyCalls n)).length = n := by
  have nodup : (manyCalls n).Nodup := List.nodup_range.map fun _ _ same => (Prod.mk.inj same).1
  rw [stepped_nodup [] (manyCalls n) nodup,List.nil_append,manyCalls,List.length_map,List.length_range]

/-- With as many steps as the counter has values it is back at zero after all its numbers. -/
theorem counter_wraps : (run (manyCalls wordSize) initial).2.count = 0 ∧
    ¬∀ calls : List (Nat × String), Exact calls (run calls initial).1 (run calls initial).2.count := by
  obtain ⟨zero,inexact⟩ := run_wraps (manyCalls wordSize) (manyCalls_length wordSize)
  exact ⟨zero,fun all => inexact (all (manyCalls wordSize))⟩

end JkBuild.Progress
