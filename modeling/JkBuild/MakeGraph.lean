import JkBuild.MakeRuns
import JkBuild.MakeSyntax

/-! What make has after reading a makefile and those it includes: for each name its prerequisites
and its recipe. -/
namespace JkBuild.MakeGraph

open MakeSyntax

structure Rule where
  targets : List (List Char)
  prerequisites : List (List Char)
  commands : List (List Char)
  deriving DecidableEq, Repr

section Inclusion

/-- The items of files that are included. Make stops where one is missing that has to be there. -/
def bring (file : List Char → Option (List Char)) (reader : List Char → Option (List Item)) (fatal : Bool) :
    List (List Char) → Option (List Item)
  | [] => some []
  | name :: names =>
    match file name with
    | none => if fatal then none else bring file reader fatal names
    | some content =>
      match reader content,bring file reader fatal names with
      | some own,some rest => some (own ++ rest)
      | _,_ => none

def splice (file : List Char → Option (List Char)) (reader : List Char → Option (List Item)) :
    List Item → Option (List Item)
  | [] => some []
  | .inclusion names fatal :: items =>
    match bring file reader fatal names,splice file reader items with
    | some brought,some rest => some (brought ++ rest)
    | _,_ => none
  | item :: items => (splice file reader items).map (item :: ·)

/-- Includes nest up to a depth. -/
def readWith (file : List Char → Option (List Char)) : Nat → List Char → Option (List Item)
  | 0,_ => none
  | depth + 1,content => (read content).bind (splice file (readWith file depth))

variable {file : List Char → Option (List Char)} {reader : List Char → Option (List Item)}

theorem splice_append {xs ys : List Item} {first second : List Item} (own : splice file reader xs = some first)
    (rest : splice file reader ys = some second) : splice file reader (xs ++ ys) = some (first ++ second) := by
  induction xs generalizing first with
  | nil =>
    obtain rfl := Option.some.inj own
    exact rest
  | cons item xs ih =>
    rw [List.cons_append]
    cases item with
    | inclusion names fatal =>
      simp only [splice] at own ⊢
      split at own
      · next brought more here later =>
        obtain rfl := Option.some.inj own
        rw [here,ih later,List.append_assoc]
      · contradiction
    | _ =>
      simp only [splice] at own ⊢
      obtain ⟨more,later,rfl⟩ := Option.map_eq_some_iff.mp own
      rw [ih later]
      rfl

theorem splice_plain {items : List Item} (plain : ∀ names fatal, .inclusion names fatal ∉ items) :
    splice file reader items = some items := by
  induction items with
  | nil => rfl
  | cons item items ih =>
    have rest := ih fun names fatal member => plain names fatal (List.mem_cons_of_mem _ member)
    cases item with
    | inclusion names fatal => exact absurd List.mem_cons_self (plain names fatal)
    | _ => simp only [splice,rest,Option.map_some]

theorem splice_missing {name : List Char} (missing : file name = none) :
    splice file reader [.inclusion [name] false] = some [] := by
  simp [splice,bring,missing]

theorem splice_brought {name content : List Char} {own : List Item} (there : file name = some content)
    (read : reader content = some own) (fatal : Bool) : splice file reader [.inclusion [name] fatal] = some own := by
  simp [splice,bring,there,read]

end Inclusion

section Gathering

/-- The rules of a makefile, and the recipe lines before the first of them. -/
def gather : List Item → List (List Char) × List Rule
  | [] => ([],[])
  | .recipe command :: items => (command :: (gather items).1,(gather items).2)
  | .rule targets prerequisites :: items => ([],⟨targets,prerequisites,(gather items).1⟩ :: (gather items).2)
  | .assignment _ _ :: items => ([],(gather items).2)
  | .inclusion _ _ :: items => ([],(gather items).2)

def rules (items : List Item) : List Rule := (gather items).2

/-- No recipe line stands before the first rule. -/
def Closed (items : List Item) : Prop := (gather items).1 = []

theorem gather_append {xs ys : List Item} (closed : Closed ys) :
    gather (xs ++ ys) = ((gather xs).1,rules xs ++ rules ys) := by
  induction xs with
  | nil => exact Prod.ext closed rfl
  | cons item xs ih =>
    rw [List.cons_append]
    cases item <;> simp only [gather,rules,ih,List.cons_append]

theorem rules_append {xs ys : List Item} (closed : Closed ys) : rules (xs ++ ys) = rules xs ++ rules ys :=
  congrArg Prod.snd (gather_append closed)

theorem Closed.append {xs ys : List Item} (first : Closed xs) (second : Closed ys) : Closed (xs ++ ys) := by
  unfold Closed
  rw [gather_append second]
  exact first

theorem gather_recipes (commands : List (List Char)) (items : List Item) :
    gather (commands.map .recipe ++ items) = (commands ++ (gather items).1,(gather items).2) := by
  induction commands with
  | nil => rfl
  | cons command commands ih => simp only [List.map_cons,List.cons_append,gather,ih]

/-- One rule for each prerequisite. -/
theorem gather_spread (targets : List (List Char)) (deps : List (List (List Char))) {items : List Item} (closed : Closed items) :
    gather (deps.map (fun dep => .rule targets dep) ++ items) =
      ([],deps.map (fun dep => ⟨targets,dep,[]⟩) ++ rules items) := by
  induction deps with
  | nil => exact Prod.ext closed rfl
  | cons dep deps ih => simp only [List.map_cons,List.cons_append,gather,ih]

end Gathering

section Graph

def specialTargets : List (List Char) :=
  [".PHONY",".SUFFIXES",".DEFAULT",".PRECIOUS",".INTERMEDIATE",".NOTINTERMEDIATE",".SECONDARY",".SECONDEXPANSION",
    ".DELETE_ON_ERROR",".IGNORE",".LOW_RESOLUTION_TIME",".SILENT",".EXPORT_ALL_VARIABLES",".NOTPARALLEL",".ONESHELL",
    ".POSIX"].map String.toList

def phonyTarget : List Char := ".PHONY".toList

/-- Neither special nor a pattern, and not open before a variable is known. -/
def isName (word : List Char) : Bool := !specialTargets.contains word && !word.contains '%' && !word.contains '$'

def names (rs : List Rule) : List (List Char) := rs.flatMap fun r => r.targets.filter isName

/-- What a name waits for by all its rules. -/
def prerequisites (rs : List Rule) (name : List Char) : List (List Char) :=
  if isName name then rs.flatMap fun r => if r.targets.contains name then r.prerequisites else [] else []

def recipe (rs : List Rule) (name : List Char) : List (List Char) :=
  (((rs.filter fun r => r.targets.contains name && !r.commands.isEmpty).getLast?).map (·.commands)).getD []

def phony (rs : List Rule) : List (List Char) := rs.flatMap fun r => if r.targets.contains phonyTarget then r.prerequisites else []

theorem prerequisites_leaf {rs : List Rule} {name : List Char} (leaf : name ∉ names rs) : prerequisites rs name = [] := by
  unfold prerequisites
  split
  · next meant =>
    refine List.flatMap_eq_nil_iff.mpr fun r member => if_neg fun inside => leaf ?_
    exact List.mem_flatMap.mpr ⟨r,member,List.mem_filter.mpr ⟨List.contains_iff_mem.mp inside,meant⟩⟩
  · rfl

def graph (rs : List Rule) : MakeRuns.Makefile String where
  names := (names rs).map String.ofList
  prerequisites t := (prerequisites rs t.toList).map String.ofList
  leaf t leaf := by
    have none : t.toList ∉ names rs := fun member => leaf (List.mem_map.mpr ⟨_,member,String.ofList_toList⟩)
    rw [prerequisites_leaf none,List.map_nil]

/-- Several rules for the same names: one for each prerequisite, and one with the recipe. -/
structure Block where
  targets : List (List Char)
  prerequisites : List (List Char)
  commands : List (List Char)
  phony : Bool

def Block.rules (b : Block) : List Rule :=
  b.prerequisites.map (fun d => ⟨b.targets,[d],[]⟩) ++ [⟨b.targets,[],b.commands⟩] ++
    if b.phony then [⟨[phonyTarget],b.targets,[]⟩] else []

/-- Every target of a block is a name. -/
def Block.Named (b : Block) : Prop := ∀ word ∈ b.targets, isName word = true

theorem phony_special : isName phonyTarget = false := by decide +kernel

theorem isName_other {word : List Char} (meant : isName word = true) : word ≠ phonyTarget := by
  rintro rfl
  rw [phony_special] at meant
  contradiction

variable {rs rs' : List Rule} {b : Block} {name : List Char}

theorem names_append (rs rs' : List Rule) : names (rs ++ rs') = names rs ++ names rs' := List.flatMap_append

theorem phony_append (rs rs' : List Rule) : phony (rs ++ rs') = phony rs ++ phony rs' := List.flatMap_append

theorem prerequisites_append (rs rs' : List Rule) (name : List Char) :
    prerequisites (rs ++ rs') name = prerequisites rs name ++ prerequisites rs' name := by
  unfold prerequisites
  split
  · exact List.flatMap_append
  · rfl

theorem mem_block_rules {r : Rule} (member : r ∈ b.rules) :
    (r.targets = b.targets ∧ (r.commands = [] ∨ r.commands = b.commands)) ∨ (r.targets = [phonyTarget] ∧ r.commands = []) := by
  simp only [Block.rules,List.mem_append,List.mem_map,List.mem_singleton] at member
  rcases member with (⟨d,-,rfl⟩ | rfl) | isPhony
  · exact .inl ⟨rfl,.inl rfl⟩
  · exact .inl ⟨rfl,.inr rfl⟩
  · split at isPhony
    · obtain rfl := List.mem_singleton.mp isPhony
      exact .inr ⟨rfl,rfl⟩
    · exact absurd isPhony List.not_mem_nil

theorem Block.Named.mem_names (named : b.Named) : name ∈ names b.rules ↔ name ∈ b.targets := by
  simp only [names,List.mem_flatMap,List.mem_filter]
  constructor
  · rintro ⟨r,member,inside,meant⟩
    rcases mem_block_rules member with ⟨same,-⟩ | ⟨same,-⟩
    · exact same ▸ inside
    · rw [same,List.mem_singleton] at inside
      exact absurd inside (isName_other meant)
  · exact fun inside => ⟨⟨b.targets,[],b.commands⟩,by simp [Block.rules],inside,named name inside⟩

theorem block_prerequisites (b : Block) (meant : isName name = true) :
    prerequisites b.rules name = if name ∈ b.targets then b.prerequisites else [] := by
  have last : (if b.phony then [(⟨[phonyTarget],b.targets,[]⟩ : Rule)] else []).flatMap
      (fun r => if r.targets.contains name then r.prerequisites else []) = [] := by
    split <;> simp [isName_other meant]
  simp only [prerequisites,Block.rules,meant,if_true,List.flatMap_append,List.flatMap_map,List.flatMap_cons,List.flatMap_nil,
    ite_self,List.append_nil,last]
  by_cases inside : name ∈ b.targets
  · simp only [List.contains_iff_mem,inside,if_true]
    exact List.flatMap_singleton' b.prerequisites
  · simp [inside]

theorem Block.Named.phony_rules (named : b.Named) : MakeGraph.phony b.rules = if b.phony then b.targets else [] := by
  have other : ¬b.targets.contains phonyTarget = true := fun inside =>
    isName_other (named _ (List.contains_iff_mem.mp inside)) rfl
  simp only [MakeGraph.phony,Block.rules,List.flatMap_append,List.flatMap_map,List.flatMap_cons,List.flatMap_nil,other,
    List.append_nil]
  cases b.phony <;> simp

theorem recipe_cases (rs : List Rule) (name : List Char) :
    recipe rs name = [] ∨ ∃ r ∈ rs, name ∈ r.targets ∧ r.commands ≠ [] ∧ recipe rs name = r.commands := by
  unfold recipe
  cases last : (rs.filter fun r => r.targets.contains name && !r.commands.isEmpty).getLast? with
  | none => exact .inl rfl
  | some r =>
    obtain ⟨member,own⟩ := List.mem_filter.mp (List.mem_of_getLast? last)
    simp only [Bool.and_eq_true,List.contains_iff_mem,Bool.not_eq_true',List.isEmpty_eq_false_iff] at own
    exact .inr ⟨r,member,own.1,own.2,rfl⟩

theorem recipe_some {r : Rule} (member : r ∈ rs) (own : name ∈ r.targets) (some : r.commands ≠ []) : recipe rs name ≠ [] := by
  have inside : r ∈ rs.filter fun r => r.targets.contains name && !r.commands.isEmpty :=
    List.mem_filter.mpr ⟨member,by simp [own,some]⟩
  unfold recipe
  cases last : (rs.filter fun r => r.targets.contains name && !r.commands.isEmpty).getLast? with
  | none =>
    rw [List.getLast?_eq_none_iff.mp last] at inside
    exact absurd inside List.not_mem_nil
  | some r' =>
    have own := (List.mem_filter.mp (List.mem_of_getLast? last)).2
    simp only [Bool.and_eq_true,List.contains_iff_mem,Bool.not_eq_true',List.isEmpty_eq_false_iff] at own
    simpa using own.2

end Graph

end JkBuild.MakeGraph
