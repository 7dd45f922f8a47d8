import JkBuild.ComponentOrder

/-! The link line of `CCBinaryCompiler::generate_build_file`: one start-group/end-group
block for each component below the component of the binary, in topological order. -/
namespace JkBuild.LinkLine

open Reachability ComponentLog Tarjan ComponentOrder

structure Exports (n : Nat) where
  exportedFiles : Fin n → List String
  exportedLinkFlags : Fin n → List String

/-- Here a call inserts the dependencies of its index, not the index. -/
def dfs (deps : Nat → List Nat) : Nat → Nat → List Nat → Option (List Nat) :=
  walk (fun _ visited => visited) deps

/-- The kept component indices for the binary in component `sccId`. Dependencies
descend, so the recursion is at most `sccId` deep. -/
def linked (sccs : List (StronglyConnectedComponent n)) (sccId : Nat) : Option (List Nat) :=
  (dfs (depsOf sccs) (sccId + 1) sccId []).bind (keep sccs)

def visitScc (exports : Exports n) (rules : List (Fin n)) : List String :=
  rules.flatMap exports.exportedFiles

def visitSccGroup (exports : Exports n) (rules : List (Fin n)) : List String :=
  ["-Wl,--start-group"] ++
    rules.flatMap (fun r => exports.exportedFiles r ++ exports.exportedLinkFlags r) ++
    ["-Wl,--end-group"]

/-- The rules of the blocks, in the order of the link line. -/
def blocks (sccs : List (StronglyConnectedComponent n)) (sccId : Nat) : Option (List (List (Fin n))) :=
  (linked sccs sccId).map (·.map (rulesOf sccs))

def dependenciesArtifact (exports : Exports n) (sccs : List (StronglyConnectedComponent n)) (sccId : Nat) :
    Option (List String) := (blocks sccs sccId).map (·.flatMap (visitScc exports))

def depsAndFlags (exports : Exports n) (sccs : List (StronglyConnectedComponent n)) (sccId : Nat) :
    Option (List String) := (blocks sccs sccId).map (·.flatMap (visitSccGroup exports))

/-- Every rule below the binary is in a block. -/
def Covers (g : Graph n) (binary : Fin n) (blocks : List (List (Fin n))) : Prop :=
  ∀ r, Reaches g binary r → r ≠ binary → ∃ block ∈ blocks, r ∈ block

/-- A dependency is in the block of its user or in a later one. -/
def Ordered (g : Graph n) (binary : Fin n) (blocks : List (List (Fin n))) : Prop :=
  ∀ before block after, blocks = before ++ block :: after →
    ∀ r ∈ block, ∀ d ∈ g r, d ≠ binary → d ∈ block ∨ ∃ later ∈ after, d ∈ later

/-- The recursion of the binary inserts the components strictly below its own. -/
theorem linked_kept {g : Graph n} {s : State n} {i : Nat} (h : Searched g roots s)
    (inRange : i < s.sccs.length) : ∃ visited kept, linked s.sccs i = some kept ∧
      Kept (depsOf s.sccs) visited kept ∧
      ∀ m, m ∈ visited ↔ ∃ k ∈ depsOf s.sccs i, Reaches (depsOf s.sccs) k m := by
  have lower := Searched.deps_lt h
  have own : ∀ (id : Nat) (visited : List Nat), id ∈ visited → ∀ m,
      m ∈ (fun _ visited => visited : Nat → List Nat → List Nat) id visited ↔ m ∈ visited :=
    fun _ _ _ _ => Iff.rfl
  obtain ⟨visited,runs,members⟩ := walk_members lower own (i + 1) i [] (Nat.lt_succ_self i)
  have below : ∀ m, m ∈ visited ↔ ∃ k ∈ depsOf s.sccs i, Reaches (depsOf s.sccs) k m := by
    intro m
    rw [members]
    simp
  have bounded : ∀ m ∈ visited, m < s.sccs.length := by
    intro m member
    obtain ⟨k,dep,path⟩ := (below m).mp member
    rw [depsOf_eq] at path
    have := h.invariant.sound.deps_reaches_le path
    have := lower i k dep
    omega
  obtain ⟨kept,eq,spec⟩ := keep_kept h visited bounded
  refine ⟨visited,kept,?_,spec,below⟩
  have walked : dfs (depsOf s.sccs) (i + 1) i [] = some visited := runs
  simp [linked,walked,eq]

section Binary

variable {g : Graph n} {roots : List (Fin n)} {s : State n} {binary : Fin n} {i : Nat}
  {visited kept : List Nat} {scc : StronglyConnectedComponent n}

theorem covers_of_kept (h : Searched g roots s) (at_i : s.sccs[i]? = some scc) (alone : scc.rules = [binary])
    (spec : Kept (depsOf s.sccs) visited kept)
    (below : ∀ m, m ∈ visited ↔ ∃ k ∈ depsOf s.sccs i, Reaches (depsOf s.sccs) k m) :
    Covers g binary (kept.map (rulesOf s.sccs)) := by
  intro r path ne
  obtain ⟨j,c,walk,at_j,member⟩ := h.invariant.sound.reaches (log_comp at_i) (by simp [alone]) path
  obtain ⟨other,atOther,rfl⟩ := (log_comp_iff s j c).mp at_j
  rw [← depsOf_eq] at walk
  -- The component of the binary holds nothing else, so the path leaves it.
  rcases Relation.ReflTransGen.cases_head walk with rfl | ⟨k,edge,rest⟩
  · obtain rfl := Option.some.inj (at_i.symm.trans atOther)
    rw [alone] at member
    exact absurd (List.mem_singleton.mp member) ne
  · have keptJ := (spec.members j).mpr ((below j).mpr ⟨k,edge,rest⟩)
    exact ⟨_,List.mem_map_of_mem keptJ,by rw [rulesOf_of atOther]; exact member⟩

theorem ordered_of_kept (h : Searched g roots s) (spec : Kept (depsOf s.sccs) visited kept)
    (below : ∀ m, m ∈ visited ↔ ∃ k ∈ depsOf s.sccs i, Reaches (depsOf s.sccs) k m) :
    Ordered g binary (kept.map (rulesOf s.sccs)) := by
  intro before block after split r inBlock d edge _
  obtain ⟨front,rest,rfl,rfl,tail⟩ := List.map_eq_append_iff.mp split
  obtain ⟨j,back,rfl,rfl,rfl⟩ := List.map_eq_cons_iff.mp tail
  cases at_j : s.sccs[j]? with
  | none => simp [rulesOf,at_j] at inBlock
  | some c =>
    rw [rulesOf_of at_j] at inBlock ⊢
    rcases h.invariant.sound.covered j _ (log_comp at_j) r inBlock d edge with same | ⟨k,dep,c',at_k,inside⟩
    · exact .inl same
    · obtain ⟨other,atOther,rfl⟩ := (log_comp_iff s k c').mp at_k
      have depK : k ∈ depsOf s.sccs j := by simpa [depsOf,at_j] using dep
      have visitedJ := (spec.members j).mp (by simp)
      obtain ⟨first,start,path⟩ := (below j).mp visitedJ
      have visitedK := (below k).mpr ⟨first,start,path.tail depK⟩
      have late := spec.later front j back rfl k depK visitedK
      exact .inr ⟨_,List.mem_map_of_mem late,by rw [rulesOf_of atOther]; exact inside⟩

end Binary

section Line

variable {exports : Exports n} {r : Fin n} {group : List (Fin n)}

theorem infix_flatMap_of_mem {f : α → List β} {x : α} {xs : List α} (member : x ∈ xs) : f x <:+: xs.flatMap f := by
  obtain ⟨before,after,rfl⟩ := List.append_of_mem member
  exact ⟨before.flatMap f,after.flatMap f,by simp⟩

theorem exported_in_group (member : r ∈ group) :
    exports.exportedFiles r <:+: group.flatMap fun r => exports.exportedFiles r ++ exports.exportedLinkFlags r :=
  (List.prefix_append _ _).isInfix.trans (infix_flatMap_of_mem (f := fun r => _ ++ exports.exportedLinkFlags r) member)

theorem exported_in_line {groups : List (List (Fin n))} (inLine : group ∈ groups) (member : r ∈ group) :
    exports.exportedFiles r <:+: groups.flatMap (visitSccGroup exports) := by
  have inside : exports.exportedFiles r <:+: visitSccGroup exports group := by
    have exported : exports.exportedFiles r <:+: _ := exported_in_group member
    obtain ⟨front,back,eq⟩ := exported
    exact ⟨"-Wl,--start-group" :: front,back ++ ["-Wl,--end-group"],by simp [visitSccGroup,← eq]⟩
  exact inside.trans (infix_flatMap_of_mem inLine)

/-- The line is cut at a group: what stands before it, between its marks and after it. -/
theorem line_split (before after : List (List (Fin n))) (group : List (Fin n)) :
    (before ++ group :: after).flatMap (visitSccGroup exports) = before.flatMap (visitSccGroup exports) ++
      ("-Wl,--start-group" :: group.flatMap (fun r => exports.exportedFiles r ++ exports.exportedLinkFlags r) ++
        ["-Wl,--end-group"]) ++ after.flatMap (visitSccGroup exports) := by
  simp [visitSccGroup]

/-- Where the archives of a rule below the binary stand, and those of its dependencies. -/
theorem archives_placed {g : Graph n} {groups : List (List (Fin n))} (covers : Covers g binary groups)
    (ordered : Ordered g binary groups) (path : Reaches g binary r) (ne : r ≠ binary) :
    ∃ front inner back, groups.flatMap (visitSccGroup exports) =
        front ++ ("-Wl,--start-group" :: inner ++ ["-Wl,--end-group"]) ++ back ∧
      exports.exportedFiles r <:+: inner ∧
      ∀ d ∈ g r, d ≠ binary → exports.exportedFiles d <:+: inner ∨ exports.exportedFiles d <:+: back := by
  obtain ⟨group,inLine,member⟩ := covers r path ne
  obtain ⟨before,after,rfl⟩ := List.append_of_mem inLine
  refine ⟨_,_,_,line_split before after group,exported_in_group member,fun d edge apart => ?_⟩
  rcases ordered before group after rfl r member d edge apart with same | ⟨later,inAfter,inside⟩
  · exact .inl (exported_in_group same)
  · exact .inr (exported_in_line inAfter inside)

end Line

/-- For a binary alone in its component the link line exists. It is a sequence of groups, each
between its marks; every rule below the binary is in one, and its archives stand with or
before those of its dependencies. -/
theorem link_line_sound (g : Graph n) (order : HashOrder) (roots : List (Fin n)) (exports : Exports n)
    (binary : Fin n) (reached : ReachedFrom g roots binary) :
    ∃ s i scc, tarjan g order roots = .ok s ∧ s.sccId binary = some i ∧ s.sccs[i]? = some scc ∧
      (scc.rules.length = 1 → ∃ groups line, depsAndFlags exports s.sccs i = some line ∧
        line = groups.flatMap (fun group => "-Wl,--start-group" ::
          group.flatMap (fun r => exports.exportedFiles r ++ exports.exportedLinkFlags r) ++ ["-Wl,--end-group"]) ∧
        Covers g binary groups ∧ Ordered g binary groups ∧
        ∀ r, Reaches g binary r → r ≠ binary →
          ∃ front inner back, line = front ++ ("-Wl,--start-group" :: inner ++ ["-Wl,--end-group"]) ++ back ∧
            exports.exportedFiles r <:+: inner ∧
            ∀ d ∈ g r, d ≠ binary → exports.exportedFiles d <:+: inner ∨ exports.exportedFiles d <:+: back) := by
  obtain ⟨s,runs,searched⟩ := tarjan_searched g order roots
  obtain ⟨i,own⟩ := (searched.owned_iff binary).mpr reached
  obtain ⟨c,at_i,member⟩ := searched.invariant.sound.owned binary i own
  obtain ⟨scc,atScc,rfl⟩ := (log_comp_iff s i c).mp at_i
  refine ⟨s,i,scc,runs,own,atScc,fun single => ?_⟩
  have alone : scc.rules = [binary] := by
    obtain ⟨r,eq⟩ := List.length_eq_one_iff.mp single
    rw [eq] at member
    rw [eq,List.mem_singleton.mp member]
  obtain ⟨visited,kept,eq,spec,below⟩ := linked_kept searched (List.getElem?_eq_some_iff.mp atScc).1
  have found : blocks s.sccs i = some (kept.map (rulesOf s.sccs)) := by simp [blocks,eq]
  have covers := covers_of_kept searched atScc alone spec below
  have ordered : Ordered g binary (kept.map (rulesOf s.sccs)) := ordered_of_kept searched spec below
  exact ⟨_,_,by rw [depsAndFlags,found]; rfl,rfl,covers,ordered,fun r path ne => archives_placed covers ordered path ne⟩

def overCycle : Graph 3
  | 0 => [1]
  | 1 => [2]
  | 2 => [1,2]

def overCycleExports : Exports 3 where
  exportedFiles r := [["tool"],["one.a"],["two.a"]].getD r []
  exportedLinkFlags r := [[],["-lpthread"],[]].getD r []

theorem link_line_over_cycle : ∃ s i groups line, tarjan overCycle .insertion [2,0] = .ok s ∧ s.sccId 0 = some i ∧
    depsAndFlags overCycleExports s.sccs i = some line ∧
    line = ["-Wl,--start-group","one.a","-lpthread","two.a","-Wl,--end-group"] ∧
    Covers overCycle 0 groups ∧ Ordered overCycle 0 groups ∧
    ∃ front inner back, line = front ++ ("-Wl,--start-group" :: inner ++ ["-Wl,--end-group"]) ++ back ∧
      ["one.a"] <:+: inner ∧ (["two.a"] <:+: inner ∨ ["two.a"] <:+: back) := by
  have result : (tarjan overCycle .insertion [2,0]).map (fun s => (s.sccId 0,s.sccs)) =
      .ok (some 1,[⟨[1,2],[]⟩,⟨[0],[0]⟩]) := by decide
  obtain ⟨s,i,scc,runs,own,at_i,sound⟩ := link_line_sound overCycle .insertion [2,0] overCycleExports 0
    ⟨0,by simp,.refl _ _⟩
  rw [runs] at result
  obtain ⟨component,sccs⟩ := Prod.mk.inj (Except.ok.inj result)
  obtain rfl : i = 1 := Option.some.inj (own.symm.trans component)
  rw [sccs] at at_i
  obtain rfl := Option.some.inj at_i
  obtain ⟨groups,line,found,-,covers,ordered,placed⟩ := sound rfl
  obtain ⟨front,inner,back,eq,own',after⟩ := placed 1 (.single (by decide)) (by decide)
  refine ⟨s,1,groups,line,runs,own,found,?_,covers,ordered,front,inner,back,eq,own',after 2 (by decide) (by decide)⟩
  rw [sccs] at found
  exact (Option.some.inj found).symm

end JkBuild.LinkLine
