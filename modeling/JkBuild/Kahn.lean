import JkBuild.Reachability
import Mathlib.Algebra.BigOperators.Intervals
import Mathlib.Algebra.BigOperators.Ring.Finset

/-! Topological sorting of `size` dependency lists with a queue. The in-degree of an index
counts the edges from indices not emitted yet, so an index is queued exactly when its last
predecessor is emitted. The counters are natural numbers. -/
namespace JkBuild.Kahn

open Reachability

def bump (cnt : Nat → Nat) (id : Nat) : Nat → Nat := Function.update cnt id (cnt id + 1)

def inDegree (size : Nat) (deps : Nat → List Nat) : Nat → Nat :=
  (List.range size).foldl (fun cnt scc => (deps scc).foldl bump cnt) (fun _ => 0)

structure State where
  inDegree : Nat → Nat
  queue : List Nat
  sorted : List Nat

/-- The body of the loop over the dependencies of an emitted index. -/
def release (s : State) (m : Nat) : State :=
  let cnt := Function.update s.inDegree m (s.inDegree m - 1)
  { s with inDegree := cnt, queue := if cnt m = 0 then s.queue ++ [m] else s.queue }

def loop (deps : Nat → List Nat) : Nat → State → Option (List Nat)
  | _, ⟨_,[],sorted⟩ => some sorted
  | 0, ⟨_,_ :: _,_⟩ => none
  | fuel + 1, ⟨cnt,id :: queue,sorted⟩ =>
    loop deps fuel ((deps id).foldl release ⟨cnt,queue,sorted ++ [id]⟩)

theorem loop_more {deps : Nat → List Nat} (more : fuel ≤ fuel') (s : State) (runs : loop deps fuel s = some sorted) :
    loop deps fuel' s = some sorted := by
  induction fuel generalizing fuel' s with
  | zero =>
    obtain ⟨cnt,queue,emitted⟩ := s
    cases queue with
    | nil => simpa [loop] using runs
    | cons => simp [loop] at runs
  | succ fuel ih =>
    obtain ⟨fuel',rfl⟩ : ∃ k, fuel' = k + 1 := ⟨fuel' - 1,by omega⟩
    obtain ⟨cnt,queue,emitted⟩ := s
    cases queue with
    | nil => simpa [loop] using runs
    | cons id queue =>
      rw [loop] at runs ⊢
      exact ih (Nat.le_of_succ_le_succ more) _ runs

def start (size : Nat) (deps : Nat → List Nat) : State :=
  let cnt := inDegree size deps
  ⟨cnt,(List.range size).filter (cnt · = 0),[]⟩

/-- Every index is queued at most once, so `size` rounds are enough. -/
def sort (size : Nat) (deps : Nat → List Nat) : Option (List Nat) :=
  loop deps size (start size deps)

def outstanding (size : Nat) (deps : Nat → List Nat) (sorted : List Nat) (i : Nat) : Nat :=
  ∑ p ∈ (Finset.range size).filter (· ∉ sorted), (deps p).count i

theorem foldl_bump (ds : List Nat) (cnt : Nat → Nat) (i : Nat) :
    ds.foldl bump cnt i = cnt i + ds.count i := by
  induction ds generalizing cnt with
  | nil => simp
  | cons d ds ih =>
    rw [List.foldl_cons,ih]
    by_cases same : d = i
    · subst same; simp [bump]; omega
    · simp [bump,same,Ne.symm same]

theorem foldl_inDegree (ids : List Nat) (deps : Nat → List Nat) (cnt : Nat → Nat) (i : Nat) :
    ids.foldl (fun cnt scc => (deps scc).foldl bump cnt) cnt i =
      cnt i + (ids.map fun p => (deps p).count i).sum := by
  induction ids generalizing cnt with
  | nil => simp
  | cons id ids ih =>
    rw [List.foldl_cons,ih,foldl_bump]
    simp only [List.map_cons,List.sum_cons]
    omega

theorem inDegree_eq (size : Nat) (deps : Nat → List Nat) (i : Nat) :
    inDegree size deps i = outstanding size deps [] i := by
  rw [inDegree,foldl_inDegree]
  simp [outstanding,← List.toFinset_range,List.sum_toFinset _ List.nodup_range]

theorem outstanding_snoc (size : Nat) (deps : Nat → List Nat) (sorted : List Nat) (id i : Nat)
    (inRange : id < size) (fresh : id ∉ sorted) :
    outstanding size deps sorted i = (deps id).count i + outstanding size deps (sorted ++ [id]) i := by
  have split : (Finset.range size).filter (· ∉ sorted) =
      insert id ((Finset.range size).filter (· ∉ sorted ++ [id])) := by
    ext p
    simp only [Finset.mem_filter,Finset.mem_range,Finset.mem_insert,List.mem_append,
      List.mem_singleton,not_or]
    by_cases same : p = id
    · simp [same,inRange,fresh]
    · simp [same]
  rw [outstanding,split,Finset.sum_insert (by simp),outstanding]

theorem outstanding_eq_zero : outstanding size deps sorted i = 0 ↔
    ∀ p < size, p ∉ sorted → i ∉ deps p := by
  simp [outstanding,Finset.sum_eq_zero_iff,List.count_eq_zero]

/-- The emitted indices are listed after all their predecessors. -/
def PredecessorsFirst (size : Nat) (deps : Nat → List Nat) (sorted : List Nat) : Prop :=
  ∀ before i after, sorted = before ++ i :: after → ∀ p < size, i ∈ deps p → p ∈ before

/-- The state while the edges `rest` of the index emitted last are still unsettled. -/
structure Invariant (size : Nat) (deps : Nat → List Nat) (rest : List Nat) (s : State) : Prop where
  nodup : (s.sorted ++ s.queue).Nodup
  inRange : ∀ i ∈ s.sorted ++ s.queue, i < size
  count : ∀ i < size, s.inDegree i = outstanding size deps s.sorted i + rest.count i
  ready : ∀ i < size, i ∈ s.sorted ++ s.queue ↔ s.inDegree i = 0
  first : PredecessorsFirst size deps s.sorted

theorem start_invariant (size : Nat) (deps : Nat → List Nat) :
    Invariant size deps [] (start size deps) where
  nodup := by simpa [start] using List.nodup_range.filter _
  inRange := by simp [start]; omega
  count := by intro i _; simp [start,inDegree_eq]
  ready := by intro i bound; simp [start,bound]
  first := by intro before i after eq; simp [start] at eq

theorem release_invariant {size : Nat} {deps : Nat → List Nat} {s : State}
    (h : Invariant size deps (m :: rest) s) (bound : m < size) :
    Invariant size deps rest (release s m) ∧ (release s m).sorted = s.sorted := by
  refine ⟨?_,rfl⟩
  have positive : s.inDegree m = outstanding size deps s.sorted m + rest.count m + 1 := by
    rw [h.count m bound,List.count_cons_self]; omega
  have absent : m ∉ s.sorted ++ s.queue := fun member => by
    have := (h.ready m bound).mp member
    omega
  have count : ∀ i < size, (release s m).inDegree i =
      outstanding size deps s.sorted i + rest.count i := by
    intro i inRange
    by_cases same : i = m
    · subst same; simp [release,positive]
    · simp only [release,Function.update_of_ne same]
      rw [h.count i inRange,List.count_cons_of_ne (Ne.symm same)]
  have queue : (release s m).queue = if (release s m).inDegree m = 0 then s.queue ++ [m] else s.queue := by
    simp [release]
  by_cases zero : (release s m).inDegree m = 0
  · rw [if_pos zero] at queue
    have all : (release s m).sorted ++ (release s m).queue = (s.sorted ++ s.queue) ++ [m] := by
      rw [queue]; simp [release]
    refine ⟨?_,?_,count,?_,h.first⟩
    · rw [all]
      simpa using h.nodup.concat absent
    · rw [all]
      exact List.forall_mem_append.mpr ⟨h.inRange,List.forall_mem_singleton.mpr bound⟩
    · intro i inRange
      rw [all]
      by_cases same : i = m
      · subst same; simp [zero]
      · rw [List.mem_append,h.ready i inRange]
        simp [release,same]
  · rw [if_neg zero] at queue
    have all : (release s m).sorted ++ (release s m).queue = s.sorted ++ s.queue := by
      rw [queue]; simp [release]
    refine ⟨by rw [all]; exact h.nodup,by rw [all]; exact h.inRange,count,?_,h.first⟩
    intro i inRange
    rw [all]
    by_cases same : i = m
    · subst same; simp [absent,zero]
    · rw [h.ready i inRange]
      simp [release,same]

theorem release_all {size : Nat} {deps : Nat → List Nat} (rest : List Nat) (s : State)
    (h : Invariant size deps rest s) (valid : ∀ m ∈ rest, m < size) :
    Invariant size deps [] (rest.foldl release s) ∧ (rest.foldl release s).sorted = s.sorted := by
  induction rest generalizing s with
  | nil => exact ⟨h,rfl⟩
  | cons m rest ih =>
    obtain ⟨next,same⟩ := release_invariant h (valid m (by simp))
    obtain ⟨last,sorted⟩ := ih (release s m) next fun x member => valid x (List.mem_cons_of_mem _ member)
    exact ⟨last,sorted.trans same⟩

/-- Taking an index off the queue: its predecessors are all emitted. -/
theorem emit_invariant {size id : Nat} {deps : Nat → List Nat}
    (h : Invariant size deps [] ⟨cnt,id :: queue,sorted⟩) :
    Invariant size deps (deps id) ⟨cnt,queue,sorted ++ [id]⟩ := by
  have inRange : id < size := h.inRange id (by simp)
  have fresh : id ∉ sorted := by
    intro member
    exact (List.nodup_append.mp h.nodup).2.2 id member id (by simp) rfl
  have same : (sorted ++ [id]) ++ queue = sorted ++ id :: queue := by simp
  refine ⟨by rw [same]; exact h.nodup,by rw [same]; exact h.inRange,?_,by rw [same]; exact h.ready,?_⟩
  · intro i bound
    have count := h.count i bound
    simp only [List.count_nil,Nat.add_zero] at count
    show cnt i = outstanding size deps (sorted ++ [id]) i + (deps id).count i
    rw [count,outstanding_snoc size deps sorted id i inRange fresh]
    exact Nat.add_comm _ _
  · intro before i after eq p bound edge
    rcases List.eq_nil_or_concat after with rfl | ⟨after',last,rfl⟩
    · obtain ⟨rfl,single⟩ := List.append_inj' eq rfl
      obtain rfl := (List.cons.inj single).1
      have zero := (h.ready id inRange).mp (by simp)
      rw [h.count id inRange] at zero
      by_contra absent
      exact outstanding_eq_zero.mp (Nat.eq_zero_of_add_eq_zero_right zero) p bound absent edge
    · have eq' : sorted ++ [id] = (before ++ i :: after') ++ [last] := by simpa using eq
      obtain ⟨prior,-⟩ := List.append_inj' eq' rfl
      exact h.first before i after' prior p bound edge

/-- What the sort returns: indices in range, each once and after all its predecessors,
and every index whose predecessors were all returned. -/
structure Sorted (size : Nat) (deps : Nat → List Nat) (sorted : List Nat) : Prop where
  nodup : sorted.Nodup
  inRange : ∀ i ∈ sorted, i < size
  first : PredecessorsFirst size deps sorted
  complete : ∀ i < size, (∀ p < size, i ∈ deps p → p ∈ sorted) → i ∈ sorted

theorem Invariant.finished {size : Nat} {deps : Nat → List Nat}
    (h : Invariant size deps [] ⟨cnt,[],sorted⟩) : Sorted size deps sorted := by
  refine ⟨by simpa using h.nodup,by simpa using h.inRange,h.first,fun i bound preds => ?_⟩
  have settled := outstanding_eq_zero.mpr fun p inRange absent edge => absent (preds p inRange edge)
  have zero := h.count i bound
  rw [settled] at zero
  simpa using (h.ready i bound).mpr zero

theorem loop_sorted {size : Nat} {deps : Nat → List Nat} (valid : ∀ i < size, ∀ m ∈ deps i, m < size)
    (fuel : Nat) (s : State) (h : Invariant size deps [] s) (enough : size ≤ s.sorted.length + fuel) :
    ∃ sorted, loop deps fuel s = some sorted ∧ Sorted size deps sorted := by
  induction fuel generalizing s with
  | zero =>
    obtain ⟨cnt,queue,sorted⟩ := s
    cases queue with
    | nil => exact ⟨sorted,rfl,h.finished⟩
    | cons id queue =>
      -- More than `size` distinct indices below `size` would be emitted or queued.
      have sub : (sorted ++ id :: queue).toFinset ⊆ Finset.range size := by
        intro i member
        exact Finset.mem_range.mpr (h.inRange i (List.mem_toFinset.mp member))
      have card := Finset.card_le_card sub
      rw [List.toFinset_card_of_nodup h.nodup,Finset.card_range] at card
      simp at card enough
      omega
  | succ fuel ih =>
    obtain ⟨cnt,queue,sorted⟩ := s
    cases queue with
    | nil => exact ⟨sorted,by simp [loop],h.finished⟩
    | cons id queue =>
      obtain ⟨next,same⟩ := release_all (deps id) _ (emit_invariant h) (valid id (h.inRange id (by simp)))
      refine ih _ next ?_
      rw [same]
      simp only [List.length_append,List.length_singleton] at enough ⊢
      omega

/-- The sort terminates on every vector of valid dependency lists. -/
theorem sort_sorted (size : Nat) (deps : Nat → List Nat)
    (valid : ∀ i < size, ∀ m ∈ deps i, m < size) :
    ∃ sorted, sort size deps = some sorted ∧ Sorted size deps sorted :=
  loop_sorted valid size _ (start_invariant size deps) (Nat.le_add_left _ _)

/-- When dependencies lead to lower indices nothing is left out: by induction from the
highest index down, every predecessor of an index is returned. -/
theorem Sorted.all {size : Nat} {deps : Nat → List Nat} (h : Sorted size deps sorted)
    (lower : ∀ p < size, ∀ i ∈ deps p, i < p) (i : Nat) (bound : i < size) : i ∈ sorted := by
  induction gap : size - i using Nat.strong_induction_on generalizing i with
  | _ gap ih =>
    refine h.complete i bound fun p inRange edge => ?_
    have less := lower p inRange i edge
    exact ih (size - p) (by omega) p inRange rfl

theorem Sorted.after {size i j : Nat} {deps : Nat → List Nat} {before after : List Nat}
    (h : Sorted size deps (before ++ i :: after)) (edge : j ∈ deps i)
    (member : j ∈ before ++ i :: after) : j ∈ i :: after := by
  refine (List.mem_append.mp member).resolve_left fun early => ?_
  obtain ⟨front,back,rfl⟩ := List.append_of_mem early
  have inRange := h.inRange i (by simp)
  have prior := h.first front j (back ++ i :: after) (by simp) i inRange edge
  have nodup := h.nodup
  simp only [List.append_assoc] at nodup
  exact (List.nodup_append.mp nodup).2.2 i prior i (by simp) rfl

section Cycles

variable {size : Nat} {deps : Nat → List Nat} {sorted : List Nat}

theorem Sorted.before (h : Sorted size deps sorted) (bound : p < size) (edge : i ∈ deps p) (member : i ∈ sorted) :
    p ∈ sorted ∧ sorted.idxOf p < sorted.idxOf i := by
  obtain ⟨before,after,rfl⟩ := List.append_of_mem member
  have prior := h.first before i after rfl p bound edge
  have absent : i ∉ before := fun inside => (List.nodup_append.mp h.nodup).2.2 i inside i (by simp) rfl
  refine ⟨List.mem_append_left _ prior,?_⟩
  rw [List.idxOf_append_of_mem prior,List.idxOf_append_of_notMem absent]
  have := List.idxOf_lt_length_of_mem prior
  omega

theorem Sorted.ancestor (h : Sorted size deps sorted) (valid : ∀ i < size, ∀ m ∈ deps i, m < size) (bound : c < size)
    (path : Reaches deps c i) (member : i ∈ sorted) : c ∈ sorted ∧ sorted.idxOf c ≤ sorted.idxOf i := by
  induction path with
  | refl => exact ⟨member,Nat.le_refl _⟩
  | tail path edge ih =>
    have inRange := Reaches.closed (· < size) valid path bound
    obtain ⟨inside,less⟩ := h.before inRange edge member
    obtain ⟨first,le⟩ := ih inside
    exact ⟨first,Nat.le_trans le (Nat.le_of_lt less)⟩

theorem Sorted.off_cycle (h : Sorted size deps sorted) (valid : ∀ i < size, ∀ m ∈ deps i, m < size) (bound : c < size)
    (cycle : OnCycle deps c) : c ∉ sorted := by
  intro member
  obtain ⟨d,edge,back⟩ := cycle
  obtain ⟨inside,le⟩ := h.ancestor valid (valid c bound d edge) back member
  have less := (h.before bound edge inside).2
  omega

/-- The sort returns exactly the indices that no cycle leads to. -/
theorem Sorted.members (h : Sorted size deps sorted) (valid : ∀ i < size, ∀ m ∈ deps i, m < size) (i : Nat) :
    i ∈ sorted ↔ i < size ∧ ¬OnCycle deps i ∧ ∀ c < size, OnCycle deps c → ¬Reaches deps c i := by
  constructor
  · intro member
    have bound := h.inRange i member
    refine ⟨bound,fun cycle => h.off_cycle valid bound cycle member,fun c inRange cycle path => ?_⟩
    exact h.off_cycle valid inRange cycle (h.ancestor valid inRange path member).1
  · rintro ⟨bound,-,clear⟩
    refine acyclic_induction (Finset.range size) (· ∈ sorted) (fun a inRange preds => ?_) i
      (Finset.mem_range.mpr bound) fun c inRange => clear c (Finset.mem_range.mp inRange)
    exact h.complete a (Finset.mem_range.mp inRange) fun p bound => preds p (Finset.mem_range.mpr bound)

end Cycles

end JkBuild.Kahn
