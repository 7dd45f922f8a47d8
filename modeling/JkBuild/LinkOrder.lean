import JkBuild.LinkLine
import JkBuild.QueueOrder
import JkBuild.TopologicalSort
import Mathlib.Algebra.Order.BigOperators.Group.List

/-! How far the iteration order of the hash sets reaches. The search never reads a vector
made of such a set, so all runs find the same components and the same sets; the topological
order, and with it the link line, may differ. -/
namespace JkBuild.LinkOrder

open Reachability ComponentLog Tarjan ComponentOrder QueueOrder

/-- The components once each set of dependencies was turned into a vector. -/
def vectors (order : HashOrder) (sets : List (StronglyConnectedComponent n)) : List (StronglyConnectedComponent n) :=
  sets.mapIdx fun id scc => ⟨scc.rules,order.toVector id scc.deps⟩

def withVectors (order : HashOrder) (s : State n) : State n := { s with sccs := vectors order s.sccs }

section Vectors

variable (order : HashOrder) (sets : List (StronglyConnectedComponent n))

@[simp] theorem vectors_length : (vectors order sets).length = sets.length := by simp [vectors]

theorem vectors_snoc (scc : StronglyConnectedComponent n) :
    vectors order (sets ++ [scc]) = vectors order sets ++ [⟨scc.rules,order.toVector sets.length scc.deps⟩] := by
  simp [vectors,List.mapIdx_append]

theorem vectors_depsOf (id : Nat) : depsOf (vectors order sets) id = order.toVector id (depsOf sets id) := by
  cases at_id : sets[id]? with
  | none =>
    have empty : order.toVector id [] = [] := List.perm_nil.mp (order.perm id [])
    simp [depsOf,vectors,at_id,empty]
  | some scc => simp [depsOf,vectors,at_id]

theorem vectors_rulesOf : rulesOf (vectors order sets) = rulesOf sets := by
  funext id
  cases at_id : sets[id]? with
  | none => simp [rulesOf,vectors,at_id]
  | some scc => simp [rulesOf,vectors,at_id]

end Vectors

section Search

variable {g : Graph n} (order : HashOrder)

theorem close_vectors (rule : Fin n) (s : State n) :
    close g order rule (withVectors order s) = (close g .insertion rule s).map (withVectors order) := by
  unfold close
  have stack : (withVectors order s).stack = s.stack := rfl
  rw [stack]
  cases popScc rule s.stack with
  | none => rfl
  | some popped =>
    obtain ⟨scc,rest⟩ := popped
    simp only [withVectors,vectors_length]
    cases insertDeps g (fun v => if v ∈ scc then some s.sccs.length else s.sccId v) s.sccs.length scc with
    | error fault => rfl
    | ok deps => simp [Except.map,closed,withVectors,vectors_snoc,HashOrder.insertion]

theorem finish_vectors (rule : Fin n) (s : State n) :
    finish g order rule (withVectors order s) = (finish g .insertion rule s).map (withVectors order) := by
  unfold finish
  by_cases root : s.low rule = s.dfn rule
  · rw [if_pos root,← close_vectors order rule s]
    exact if_pos root
  · rw [if_neg root]
    exact if_neg root

theorem foldlM_vectors {body body' : State n → Fin n → Except Fault (State n)}
    (each : ∀ s rule, body' (withVectors order s) rule = (body s rule).map (withVectors order))
    (rules : List (Fin n)) (s : State n) :
    rules.foldlM body' (withVectors order s) = (rules.foldlM body s).map (withVectors order) := by
  induction rules generalizing s with
  | nil => rfl
  | cons rule rules ih =>
    rw [List.foldlM_cons,List.foldlM_cons,each]
    cases body s rule with
    | error fault => rfl
    | ok s' => exact ih s'

theorem visitDep_vectors {dfs dfs' : Fin n → State n → Except Fault (State n)}
    (nested : ∀ v s, dfs' v (withVectors order s) = (dfs v s).map (withVectors order)) (rule : Fin n) (s : State n)
    (v : Fin n) : visitDep dfs' rule (withVectors order s) v = (visitDep dfs rule s v).map (withVectors order) := by
  unfold visitDep
  by_cases unseen : s.dfn v = 0
  · rw [if_pos unseen]
    refine (if_pos unseen).trans ?_
    rw [nested]
    cases dfs v s with
    | error fault => rfl
    | ok s' => rfl
  · rw [if_neg unseen]
    refine (if_neg unseen).trans ?_
    by_cases stacked : s.inStack v = true
    · rw [if_pos stacked]
      exact if_pos stacked
    · rw [if_neg stacked]
      exact if_neg stacked

theorem dfs_vectors (fuel : Nat) (rule : Fin n) (s : State n) :
    dfs g order fuel rule (withVectors order s) = (dfs g .insertion fuel rule s).map (withVectors order) := by
  induction fuel generalizing rule s with
  | zero => rfl
  | succ fuel ih =>
    have scan := foldlM_vectors order (visitDep_vectors order ih rule) (g rule) (enter rule s)
    have entered : enter rule (withVectors order s) = withVectors order (enter rule s) := rfl
    simp only [dfs,entered,scan]
    cases (g rule).foldlM (visitDep (dfs g .insertion fuel) rule) (enter rule s) with
    | error fault => rfl
    | ok s' => exact finish_vectors order rule s'

theorem tarjan_vectors (roots : List (Fin n)) :
    tarjan g order roots = (tarjan g .insertion roots).map (withVectors order) :=
  foldlM_vectors order (fun s rule => dfs_vectors order (n + 1) rule s) roots initial

theorem visitDep_keeps (property : State n → Prop) {dfs : Fin n → State n → Except Fault (State n)}
    (lowered : ∀ rule value s, property s → property (lower rule value s))
    (nested : ∀ v s s', property s → dfs v s = .ok s' → property s') (h : property s)
    (runs : visitDep dfs rule s v = .ok s') : property s' := by
  unfold visitDep at runs
  split at runs
  · split at runs
    · contradiction
    · next searched =>
      obtain rfl := Except.ok.inj runs
      exact lowered _ _ _ (nested v s _ h searched)
  · split at runs
    · obtain rfl := Except.ok.inj runs
      exact lowered _ _ _ h
    · obtain rfl := Except.ok.inj runs
      exact h

/-- What entering, lowering and closing keep holds at the end of every search. -/
theorem dfs_keeps (property : State n → Prop)
    (entered : ∀ rule s, property s → property (enter rule s))
    (lowered : ∀ rule value s, property s → property (lower rule value s))
    (closes : ∀ rule s s', property s → close g order rule s = .ok s' → property s')
    (fuel : Nat) (rule : Fin n) (s s' : State n) (h : property s) (runs : dfs g order fuel rule s = .ok s') :
    property s' := by
  induction fuel generalizing rule s s' with
  | zero => contradiction
  | succ fuel ih =>
    simp only [dfs] at runs
    split at runs
    · contradiction
    · next s₂ scanned =>
      have h₂ : property s₂ := foldlM_keeps property (g rule)
        (fun _ _ _ _ => visitDep_keeps property lowered ih) (entered rule s h) scanned
      unfold finish at runs
      split at runs
      · exact closes rule s₂ s' h₂ runs
      · obtain rfl := Except.ok.inj runs
        exact h₂

theorem insertDeps_nodup {id : Nat} {sccId : Fin n → Option Nat} (inserted : insertDeps g sccId id scc = .ok deps) :
    deps.Nodup := by
  refine foldlM_keeps List.Nodup (scc.flatMap g) (fun d _ deps deps' nodup step => ?_) List.nodup_nil inserted
  split at step
  · contradiction
  · obtain rfl := Except.ok.inj step
    split
    · exact nodup
    · exact List.Nodup.insert nodup

/-- The vectors repeat no dependency, whether or not roots repeat. -/
theorem tarjan_nodup (runs : tarjan g order roots = .ok s) : ∀ scc ∈ s.sccs, scc.deps.Nodup := by
  let property (s : State n) : Prop := ∀ scc ∈ s.sccs, scc.deps.Nodup
  have closes : ∀ rule s s', property s → close g order rule s = .ok s' → property s' := by
    intro rule s s' h closes
    unfold close at closes
    split at closes
    · contradiction
    · simp only at closes
      split at closes
      · contradiction
      · next deps inserted =>
        obtain rfl := Except.ok.inj closes
        have nodup := (order.perm s.sccs.length deps).nodup_iff.mpr (insertDeps_nodup inserted)
        exact List.forall_mem_append.mpr ⟨h,List.forall_mem_singleton.mpr nodup⟩
  have start : property initial := by simp [property,initial]
  refine foldlM_keeps property roots (fun x _ s s' h runs => ?_) start runs
  exact dfs_keeps order property (fun _ _ h => h) (fun _ _ _ h => h) closes _ x s s' h runs

end Search

/-- The components in the order in which both compilers go through them. -/
def sequence (sccs : List (StronglyConnectedComponent n)) : Option (List Nat) :=
  Kahn.sort sccs.length (depsOf sccs)

/-- The vectors of dependencies in 32 bits, as the sort of the source gets them. -/
def words (sccs : List (StronglyConnectedComponent n)) : List (List UInt32) :=
  sccs.map fun scc => scc.deps.map UInt32.ofNat

theorem words_exact {sccs : List (StronglyConnectedComponent n)} (lower : ∀ p, ∀ i ∈ depsOf sccs p, i < p)
    (few : sccs.length < UInt32.size) (member : scc ∈ sccs) : ∀ d ∈ scc.deps, (UInt32.ofNat d).toNat = d := by
  intro d dep
  obtain ⟨id,at_id⟩ := List.mem_iff_getElem?.mp member
  have below := lower id d (by rwa [depsOf,at_id])
  have bound := (List.getElem?_eq_some_iff.mp at_id).1
  exact UInt32.toNat_ofNat_of_lt' (Nat.lt_trans (Nat.lt_trans below bound) few)

theorem words_edges {sccs : List (StronglyConnectedComponent n)} (lower : ∀ p, ∀ i ∈ depsOf sccs p, i < p)
    (few : sccs.length < UInt32.size) : TopologicalSort.edges (words sccs) = depsOf sccs := by
  funext id
  simp only [TopologicalSort.edges,words,depsOf,List.getElem?_map]
  cases at_id : sccs[id]? with
  | none => rfl
  | some scc =>
    have exact := words_exact lower few (List.mem_of_getElem? at_id)
    simp only [Option.map_some,Option.getD_some,List.map_map]
    exact (List.map_congr_left exact).trans (List.map_id _)

/-- A search with fewer than 2^32 components repeats no edge, so no counter of the code wraps. -/
theorem sequence_code {g : Graph n} (runs : tarjan g order roots = .ok s) (few : s.sccs.length < UInt32.size)
    (fuel : Nat) (enough : s.sccs.length ≤ fuel) :
    (TopologicalSort.topologicalSort fuel (words s.sccs)).map (·.map UInt32.toNat) = sequence s.sccs := by
  obtain ⟨s',runs',searched⟩ := tarjan_searched g order roots
  obtain rfl : s = s' := Except.ok.inj (runs.symm.trans runs')
  have lower := Searched.deps_lt searched
  have same := words_edges lower few
  have size : (words s.sccs).length = s.sccs.length := List.length_map _
  have valid : ∀ scc ∈ words s.sccs, ∀ d ∈ scc, d.toNat < (words s.sccs).length := by
    intro scc member d inScc
    obtain ⟨id,at_id⟩ := List.mem_iff_getElem?.mp member
    have edge : d.toNat ∈ depsOf s.sccs id := by
      rw [← same,TopologicalSort.edges,at_id]
      exact List.mem_map_of_mem inScc
    exact Nat.lt_trans (lower id _ edge) (List.getElem?_eq_some_iff.mp at_id).1
  have once : ∀ scc ∈ words s.sccs, scc.Nodup := by
    intro held member
    obtain ⟨scc,inside,rfl⟩ := List.mem_map.mp member
    have exact := words_exact lower few inside
    refine List.Nodup.of_map UInt32.toNat ?_
    have numbers : (scc.deps.map UInt32.ofNat).map UInt32.toNat = scc.deps := by
      rw [List.map_map]
      exact (List.map_congr_left exact).trans (List.map_id _)
    rw [numbers]
    exact tarjan_nodup order runs scc inside
  have unwrapped (i : UInt32) : (words s.sccs).flatten.count i < UInt32.size := by
    have single : ∀ k ∈ (words s.sccs).map (List.count i), k ≤ 1 := by
      intro k member
      obtain ⟨scc,inside,rfl⟩ := List.mem_map.mp member
      exact List.nodup_iff_count_le_one.mp (once scc inside) i
    have atMost : ((words s.sccs).map (List.count i)).sum ≤ s.sccs.length := by
      simpa [size] using List.sum_le_card_nsmul _ 1 single
    rw [List.count_flatten]
    exact Nat.lt_of_le_of_lt atMost few
  obtain ⟨sorted,sorts,-⟩ := Kahn.sort_sorted s.sccs.length (depsOf s.sccs) fun i bound m dep => Nat.lt_trans (lower i m dep) bound
  rw [TopologicalSort.topologicalSort_eq (by rwa [size]) valid unwrapped fuel (by rwa [size]),same,size,sequence,sorts]
  exact Kahn.loop_more enough _ sorts

/-- Two runs that differ in how hash sets are iterated generate the same. -/
def Reproducible (g : Graph n) (roots : List (Fin n)) : Prop :=
  ∀ (order order' : HashOrder) (s s' : State n), tarjan g order roots = .ok s → tarjan g order' roots = .ok s' →
    sequence s.sccs = sequence s'.sccs ∧ ∀ (exports : LinkLine.Exports n) (sccId : Nat),
      LinkLine.depsAndFlags exports s.sccs sccId = LinkLine.depsAndFlags exports s'.sccs sccId ∧
      LinkLine.dependenciesArtifact exports s.sccs sccId = LinkLine.dependenciesArtifact exports s'.sccs sccId

theorem tarjan_sets (g : Graph n) (roots : List (Fin n)) : ∃ sets : List (StronglyConnectedComponent n),
    (∀ p, ∀ i ∈ depsOf sets p, i < p) ∧ (∀ p, (depsOf sets p).Nodup) ∧
    ∀ order, ∃ s, tarjan g order roots = .ok s ∧ s.sccs = vectors order sets := by
  obtain ⟨s,runs,searched⟩ := tarjan_searched g .insertion roots
  refine ⟨s.sccs,Searched.deps_lt searched,fun p => ?_,fun order => ?_⟩
  · unfold depsOf
    split
    · next scc at_p => exact tarjan_nodup .insertion runs scc (List.mem_of_getElem? at_p)
    · exact List.nodup_nil
  · exact ⟨withVectors order s,by rw [tarjan_vectors,runs]; rfl,rfl⟩

section Lines

variable {sets : List (StronglyConnectedComponent n)}

theorem vectors_edge (order : HashOrder) (sets : List (StronglyConnectedComponent n)) (i j : Nat) :
    j ∈ depsOf (vectors order sets) i ↔ j ∈ depsOf sets i := by
  rw [vectors_depsOf]
  exact (order.perm i _).mem_iff

theorem vectors_visited (order : HashOrder) (lower : ∀ p, ∀ i ∈ depsOf sets p, i < p) (sccId : Nat) :
    ∃ visited, LinkLine.dfs (depsOf (vectors order sets)) (sccId + 1) sccId [] = some visited ∧
      ∀ m, m ∈ visited ↔ ∃ k ∈ depsOf sets sccId, Reaches (depsOf sets) k m := by
  have lower' : ∀ p, ∀ i ∈ depsOf (vectors order sets) p, i < p :=
    fun p i edge => lower p i ((vectors_edge order sets p i).mp edge)
  obtain ⟨visited,runs,members⟩ := walk_members lower' (fun _ _ _ _ => Iff.rfl) (sccId + 1) sccId []
    (Nat.lt_succ_self sccId)
  refine ⟨visited,runs,fun m => ?_⟩
  rw [members]
  constructor
  · rintro (absent | ⟨k,edge,path⟩)
    · contradiction
    · exact ⟨k,(vectors_edge order sets sccId k).mp edge,path.congr (vectors_edge order sets)⟩
  · rintro ⟨k,edge,path⟩
    exact .inr ⟨k,(vectors_edge order sets sccId k).mpr edge,
      path.congr fun i j => (vectors_edge order sets i j).symm⟩

theorem vectors_blocks (order order' : HashOrder) (lower : ∀ p, ∀ i ∈ depsOf sets p, i < p)
    (same : sequence (vectors order sets) = sequence (vectors order' sets)) (sccId : Nat) :
    LinkLine.blocks (vectors order sets) sccId = LinkLine.blocks (vectors order' sets) sccId := by
  obtain ⟨visited,runs,members⟩ := vectors_visited order lower sccId
  obtain ⟨visited',runs',members'⟩ := vectors_visited order' lower sccId
  have filters : ∀ sorted : List Nat, sorted.filter (· ∈ visited) = sorted.filter (· ∈ visited') := by
    intro sorted
    refine List.filter_congr fun m _ => ?_
    exact decide_eq_decide.mpr ((members m).trans (members' m).symm)
  have kept : keep (vectors order sets) visited = keep (vectors order' sets) visited' := by
    show (sequence _).map _ = (sequence _).map _
    rw [same]
    exact congrArg (Option.map · _) (funext filters)
  simp only [LinkLine.blocks,LinkLine.linked,runs,runs',Option.bind_some,kept,vectors_rulesOf]

/-- An order that makes the vector `deps' id` of the set of the component `id`. -/
def orderOf (sets : List (StronglyConnectedComponent n)) (deps' : Nat → List Nat)
    (perm : ∀ id, (deps' id).Perm (depsOf sets id)) : HashOrder where
  toVector id keys := if keys = depsOf sets id then deps' id else keys
  perm := by
    intro id keys
    split
    · next own => exact own ▸ perm id
    · exact .refl keys

end Lines

/-- The sequence of components and the link lines are the same in all runs exactly when the
numbers of the components and their sets force an order on any two of them. -/
theorem reproducible_iff (g : Graph n) (roots : List (Fin n)) : ∃ sets : List (StronglyConnectedComponent n),
    (∀ order, ∃ s, tarjan g order roots = .ok s ∧ s.sccs = vectors order sets) ∧
    (Reproducible g roots ↔ Untied sets.length (depsOf sets)) := by
  obtain ⟨sets,lower,nodup,each⟩ := tarjan_sets g roots
  have stable := stable_iff_untied sets.length (depsOf sets) (fun p _ => lower p) fun p _ => nodup p
  refine ⟨sets,each,fun reproducible => ?_,fun untied order order' s s' runs runs' => ?_⟩
  · refine stable.mp fun deps' perm => ?_
    obtain ⟨s,runs,same⟩ := each (orderOf sets deps' perm)
    obtain ⟨s',runs',same'⟩ := each .insertion
    have equal := (reproducible _ _ s s' runs runs').1
    have listed : depsOf (vectors (orderOf sets deps' perm) sets) = deps' := by
      funext id
      rw [vectors_depsOf]
      exact if_pos rfl
    have inserted : depsOf (vectors .insertion sets) = depsOf sets := by
      funext id
      rw [vectors_depsOf]
      rfl
    rw [same,same'] at equal
    simpa only [sequence,vectors_length,listed,inserted] using equal
  · obtain ⟨t,again,same⟩ := each order
    obtain ⟨t',again',same'⟩ := each order'
    obtain rfl := Except.ok.inj (runs.symm.trans again)
    obtain rfl := Except.ok.inj (runs'.symm.trans again')
    have sorted : ∀ order : HashOrder, sequence (vectors order sets) = sequence sets := by
      intro order
      have perm : ∀ id, (depsOf (vectors order sets) id).Perm (depsOf sets id) := by
        intro id
        rw [vectors_depsOf]
        exact order.perm id _
      simpa only [sequence,vectors_length] using stable.mpr untied _ perm
    have sequences : sequence (vectors order sets) = sequence (vectors order' sets) :=
      (sorted order).trans (sorted order').symm
    rw [same,same']
    refine ⟨sequences,fun exports sccId => ?_⟩
    have blocks := vectors_blocks order order' lower sequences sccId
    simp only [LinkLine.depsAndFlags,LinkLine.dependenciesArtifact,blocks,and_self]

def fork : Graph 3 := fun r => if r.val = 0 then (List.finRange 3).tail else []

def reversed : HashOrder := ⟨fun _ keys => keys.reverse,fun _ keys => keys.reverse_perm⟩

/-- The two libraries come in either order on the link line. -/
theorem fork_not_reproducible : (∃ s s', tarjan fork .insertion [0] = .ok s ∧ tarjan fork reversed [0] = .ok s' ∧
    LinkLine.blocks s.sccs 2 = some [[2],[1]] ∧ LinkLine.blocks s'.sccs 2 = some [[1],[2]]) ∧
    ¬Reproducible fork [0] := by
  have first : (tarjan fork .insertion [0]).map State.sccs = .ok [⟨[1],[]⟩,⟨[2],[]⟩,⟨[0],[1,0]⟩] := by decide
  have second : (tarjan fork reversed [0]).map State.sccs = .ok [⟨[1],[]⟩,⟨[2],[]⟩,⟨[0],[0,1]⟩] := by decide
  obtain ⟨s,runs,-⟩ := tarjan_searched fork .insertion [0]
  obtain ⟨s',runs',-⟩ := tarjan_searched fork reversed [0]
  rw [runs] at first
  rw [runs'] at second
  have sccs : s.sccs = _ := Except.ok.inj first
  have sccs' : s'.sccs = _ := Except.ok.inj second
  refine ⟨⟨s,s',runs,runs',by rw [sccs]; decide,by rw [sccs']; decide⟩,fun reproducible => ?_⟩
  have same := (reproducible _ _ s s' runs runs').1
  rw [sccs,sccs'] at same
  exact absurd same (by decide)

end JkBuild.LinkOrder
