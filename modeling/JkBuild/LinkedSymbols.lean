import JkBuild.LinkedRules
import JkBuild.StaticLinking

/-! What the order of a link line is for: the linker goes through it once, from left to right, and
finds a definition for every symbol. -/
namespace JkBuild.LinkedSymbols

open Reachability Tarjan LinkLine LinkedRules StaticLinking

universe u

/-- The line as the linker reads it: what stands between the marks is one group, and anything
else is a group of its own. `open'` is what has been read of a group. -/
def groupsFrom : Option (List String) → List String → List (List String)
  | none, [] => []
  | some open', [] => [open']
  | none, argument :: line =>
    if argument = "-Wl,--start-group" then groupsFrom (some []) line else [argument] :: groupsFrom none line
  | some open', argument :: line =>
    if argument = "-Wl,--end-group" then open' :: groupsFrom none line else groupsFrom (some (open' ++ [argument])) line

def Marked (argument : String) : Prop := argument = "-Wl,--start-group" ∨ argument = "-Wl,--end-group"

theorem groupsFrom_group (open' files line : List String) (plain : ∀ f ∈ files, ¬Marked f) :
    groupsFrom (some open') (files ++ "-Wl,--end-group" :: line) = (open' ++ files) :: groupsFrom none line := by
  induction files generalizing open' with
  | nil => simp [groupsFrom]
  | cons f files ih =>
    obtain ⟨first,rest⟩ := List.forall_mem_cons.mp plain
    rw [List.cons_append,groupsFrom,if_neg fun last => first (.inr last),ih _ rest]
    simp

section Line

variable {n : Nat} {σ : Type u}

def exported (exports : Exports n) (r : Fin n) : List String := exports.exportedFiles r ++ exports.exportedLinkFlags r

theorem groupsFrom_line (exports : Exports n) (groups : List (List (Fin n)))
    (plain : ∀ block ∈ groups, ∀ r ∈ block, ∀ f ∈ exported exports r, ¬Marked f) :
    groupsFrom none (groups.flatMap (visitSccGroup exports)) = groups.map (·.flatMap (exported exports)) := by
  induction groups with
  | nil => rfl
  | cons block groups ih =>
    obtain ⟨first,rest⟩ := List.forall_mem_cons.mp plain
    have files : ∀ f ∈ block.flatMap (exported exports), ¬Marked f := by
      intro f member
      obtain ⟨r,inBlock,own⟩ := List.mem_flatMap.mp member
      exact first r inBlock f own
    have line : (block :: groups).flatMap (visitSccGroup exports) = "-Wl,--start-group" ::
        (block.flatMap (exported exports) ++ "-Wl,--end-group" :: groups.flatMap (visitSccGroup exports)) := by
      simp only [List.flatMap_cons,visitSccGroup,List.cons_append,List.nil_append,List.append_assoc]
      rfl
    rw [line,groupsFrom,if_pos rfl,groupsFrom_group _ _ _ files,ih rest]
    simp

/-- The objects that end up in the binary. `contents` has the members of the files, and of the
libraries that options stand for. -/
def Loads (contents : String → List (Object σ)) (line : List String) (objects loaded : List (Object σ)) : Prop :=
  Pass ((groupsFrom none line).map (·.flatMap contents)) objects loaded

/-- The objects in what a rule brings. -/
def archived (exports : Exports n) (contents : String → List (Object σ)) (r : Fin n) : List (Object σ) :=
  (exported exports r).flatMap contents

/-- What is linked for a rule: its own objects for the binary, and what the others export. -/
def linkedFor (exports : Exports n) (contents : String → List (Object σ)) (binary : Fin n) (objects : List (Object σ))
    (r : Fin n) : List (Object σ) := if r = binary then objects else archived exports contents r

/-- Rules declare what they use: a symbol is given, or defined by a rule that is depended on. -/
def Declared (g : Graph n) (binary : Fin n) (given : σ → Prop) (own : Fin n → List (Object σ)) : Prop :=
  ∀ r, Reaches g binary r → ∀ o ∈ own r, ∀ symbol ∈ o.needs,
    given symbol ∨ ∃ q, Reaches g r q ∧ ∃ o' ∈ own q, symbol ∈ o'.defines

variable {g : Graph n} {binary : Fin n} {groups : List (List (Fin n))} {exports : Exports n}
  {contents : String → List (Object σ)} {objects : List (Object σ)} {given : σ → Prop}

theorem reaches_later (ordered : Ordered g binary groups) (clear : ¬OnCycle g binary)
    (below : ∃ d ∈ g binary, Reaches g d r) (split : groups = before ++ block :: after) (member : r ∈ block)
    (path : Reaches g r q) : ∃ later ∈ block :: after, q ∈ later := by
  induction path with
  | refl => exact ⟨block,List.mem_cons_self,member⟩
  | @tail b c front last ih =>
    obtain ⟨d,edge,way⟩ := below
    have other : c ≠ binary := by
      rintro rfl
      exact clear ⟨d,edge,(way.trans front).tail last⟩
    obtain ⟨later,inside,inLater⟩ := ih
    rcases List.mem_cons.mp inside with rfl | behind
    · rcases ordered before later after split b inLater c last other with same | ⟨next,inAfter,inNext⟩
      · exact ⟨later,List.mem_cons_self,same⟩
      · exact ⟨next,List.mem_cons_of_mem _ inAfter,inNext⟩
    · obtain ⟨front',rest,rfl⟩ := List.append_of_mem behind
      have split' : groups = (before ++ block :: front') ++ later :: rest := by simp [split]
      rcases ordered _ later rest split' b inLater c last other with same | ⟨next,inRest,inNext⟩
      · exact ⟨later,List.mem_cons_of_mem _ behind,same⟩
      · exact ⟨next,by simp [inRest],inNext⟩

/-- Whatever a block needs is given, defined by the binary, or in the block or behind it. -/
theorem forward_of_ordered (links : Links g binary groups) (ordered : Ordered g binary groups) (clear : ¬OnCycle g binary)
    (declared : Declared g binary given (linkedFor exports contents binary objects)) :
    Forward (fun symbol => given symbol ∨ ∃ o ∈ objects, symbol ∈ o.defines)
      (groups.map (·.flatMap (archived exports contents))) := by
  intro before members after split o inMembers symbol needs
  obtain ⟨front,rest,rfl,rfl,tail⟩ := List.map_eq_append_iff.mp split
  obtain ⟨block,back,rfl,rfl,rfl⟩ := List.map_eq_cons_iff.mp tail
  obtain ⟨r,inBlock,own⟩ := List.mem_flatMap.mp inMembers
  obtain ⟨d,edge,path⟩ := links.below block (by simp) r inBlock
  have apart : r ≠ binary := by
    rintro rfl
    exact clear ⟨d,edge,path⟩
  have linked : o ∈ linkedFor exports contents binary objects r := by rwa [linkedFor,if_neg apart]
  rcases declared r (.head edge path) o linked symbol needs with outside | ⟨q,way,o',inQ,defines⟩
  · exact .inl (.inl outside)
  · by_cases same : q = binary
    · rw [same,linkedFor,if_pos rfl] at inQ
      exact .inl (.inr ⟨o',inQ,defines⟩)
    · rw [linkedFor,if_neg same] at inQ
      obtain ⟨later,inside,inLater⟩ := reaches_later ordered clear ⟨d,edge,path⟩ rfl inBlock way
      have listed : later.flatMap (archived exports contents) ∈ (block :: back).map (·.flatMap (archived exports contents)) :=
        List.mem_map_of_mem inside
      exact .inr ⟨_,listed,o',List.mem_flatMap.mpr ⟨q,inLater,inQ⟩,defines⟩

theorem line_groups (exports : Exports n) (contents : String → List (Object σ)) (groups : List (List (Fin n)))
    (plain : ∀ block ∈ groups, ∀ r ∈ block, ∀ f ∈ exported exports r, ¬Marked f) :
    (groupsFrom none (groups.flatMap (visitSccGroup exports))).map (·.flatMap contents) =
      groups.map (·.flatMap (archived exports contents)) := by
  rw [groupsFrom_line exports groups plain,List.map_map]
  refine List.map_congr_left fun block _ => ?_
  simp only [Function.comp_def,List.flatMap_assoc]
  rfl

/-- A binary that is on no cycle is linked completely: the linker ends, and whichever members it
takes first, it leaves no symbol undefined but those that are given. -/
theorem link_resolves (g : Graph n) (order : HashOrder) (roots : List (Fin n)) (binary : Fin n)
    (reached : ReachedFrom g roots binary) (clear : ¬OnCycle g binary) (exports : Exports n)
    (plain : ∀ r, Reaches g binary r → ∀ f ∈ exported exports r, ¬Marked f)
    (contents : String → List (Object σ)) (objects : List (Object σ)) (given : σ → Prop)
    (declared : Declared g binary given (linkedFor exports contents binary objects)) :
    ∃ s i line, tarjan g order roots = .ok s ∧ s.sccId binary = some i ∧ depsAndFlags exports s.sccs i = some line ∧
      (∃ loaded, Loads contents line objects loaded) ∧
      ∀ loaded, Loads contents line objects loaded → ∀ symbol, Undefined loaded symbol → given symbol := by
  obtain ⟨s,runs,searched⟩ := tarjan_searched g order roots
  obtain ⟨i,own⟩ := (searched.owned_iff binary).mpr reached
  obtain ⟨c,at_i,member⟩ := searched.invariant.sound.owned binary i own
  obtain ⟨scc,atScc,rfl⟩ := (log_comp_iff s i c).mp at_i
  have tight := tarjan_tight runs
  have alone := tight.alone atScc member clear
  obtain ⟨visited,kept,eq,spec,below⟩ := linked_kept searched (List.getElem?_eq_some_iff.mp atScc).1
  have links := links_of_kept tight atScc member spec below
  have ordered : Ordered g binary _ := ordered_of_kept searched spec below
  have covers := covers_of_kept searched atScc alone spec below
  have found : blocks s.sccs i = some (kept.map (ComponentOrder.rulesOf s.sccs)) := by simp [blocks,eq]
  generalize kept.map (ComponentOrder.rulesOf s.sccs) = groups at links ordered covers found
  have marks : ∀ block ∈ groups, ∀ r ∈ block, ∀ f ∈ exported exports r, ¬Marked f := by
    intro block inGroups r inBlock
    obtain ⟨d,edge,path⟩ := links.below block inGroups r inBlock
    exact plain r (.head edge path)
  refine ⟨s,i,_,runs,own,by rw [depsAndFlags,found]; rfl,pass_exists _ _,fun loaded loads symbol undefined => ?_⟩
  rw [Loads,line_groups exports contents groups marks] at loads
  have start : ∀ symbol, Undefined objects symbol → (given symbol ∨ ∃ o ∈ objects, symbol ∈ o.defines) ∨
      Provided (groups.map (·.flatMap (archived exports contents))) symbol := by
    rintro symbol ⟨⟨o,inside,needs⟩,missing⟩
    have linked : o ∈ linkedFor exports contents binary objects binary := by rwa [linkedFor,if_pos rfl]
    rcases declared binary (.refl g binary) o linked symbol needs with outside | ⟨q,path,o',inQ,defines⟩
    · exact .inl (.inl outside)
    · by_cases same : q = binary
      · rw [same,linkedFor,if_pos rfl] at inQ
        exact absurd defines (missing o' inQ)
      · rw [linkedFor,if_neg same] at inQ
        obtain ⟨block,inGroups,inBlock⟩ := covers q path same
        exact .inr ⟨_,List.mem_map_of_mem inGroups,o',List.mem_flatMap.mpr ⟨q,inBlock,inQ⟩,defines⟩
  rcases loads.resolves (forward_of_ordered links ordered clear declared) start symbol undefined with outside | own
  · exact outside
  · obtain ⟨o,inside,defines⟩ := own
    exact absurd defines (undefined.2 o (loads.subset inside))

end Line

/-- Two libraries that call each other, one of them also a function that is not theirs. -/
def toolExports : Exports 4 := ⟨fun r => ["lib" ++ toString r.val ++ ".a"],fun _ => ["-lm"]⟩

def toolContents (file : String) : List (Object String) :=
  if file = "lib1.a" then [⟨["open"],["read"]⟩] else if file = "lib2.a" then [⟨["read"],["open","printf"]⟩] else []

def toolObjects : List (Object String) := [⟨["main"],["open"]⟩]

theorem tool_declared : Declared besideTool 0 (· = "printf") (linkedFor toolExports toolContents 0 toolObjects) := by
  have uses : ∀ r : Fin 4, ∀ o ∈ linkedFor toolExports toolContents 0 toolObjects r, ∀ symbol ∈ o.needs,
      symbol = "printf" ∨ ∃ q ∈ besideTool r, ∃ o' ∈ linkedFor toolExports toolContents 0 toolObjects q,
        symbol ∈ o'.defines := by decide +kernel
  intro r _ o own symbol needs
  exact (uses r o own symbol needs).imp_right fun ⟨q,edge,defines⟩ => ⟨q,.single edge,defines⟩

theorem tool_resolves : ∃ s i line, tarjan besideTool .insertion [3,0,2,0] = .ok s ∧ s.sccId 0 = some i ∧
    depsAndFlags toolExports s.sccs i = some line ∧ (∃ loaded, Loads toolContents line toolObjects loaded) ∧
    ∀ loaded, Loads toolContents line toolObjects loaded → ∀ symbol, Undefined loaded symbol → symbol = "printf" := by
  refine link_resolves besideTool .insertion [3,0,2,0] 0 ⟨0,by simp,.refl _ _⟩ ?_ toolExports ?_ toolContents toolObjects
    (· = "printf") tool_declared
  · rintro ⟨d,edge,path⟩
    have apart : ∀ a b : Fin 4, b ∈ besideTool a → b ≠ 0 := by decide
    rcases Relation.ReflTransGen.cases_tail path with same | ⟨b,-,last⟩
    · exact apart 0 d edge same.symm
    · exact apart b 0 last rfl
  · intro r _ f member
    have files : ∀ r : Fin 4, ∀ f ∈ exported toolExports r, f ≠ "-Wl,--start-group" ∧ f ≠ "-Wl,--end-group" := by
      decide +kernel
    exact fun mark => mark.elim (files r f member).1 (files r f member).2

end JkBuild.LinkedSymbols
