import JkBuild.Kahn

/-! `core/algorithms/topological_sort.hh` on the dependency vectors of the components. Ids,
counters and the index of the first loop have 32 bits. While none of them wraps the code
returns what the sort with unbounded counters returns. -/
namespace JkBuild.TopologicalSort

open Reachability

def depsAt (sccs : List (List UInt32)) (id : UInt32) : List UInt32 := (sccs[id.toNat]?).getD []

def bump (cnt : UInt32 → UInt32) (id : UInt32) : UInt32 → UInt32 := Function.update cnt id (cnt id + 1)

def ingressCnt (sccs : List (List UInt32)) : UInt32 → UInt32 :=
  sccs.foldl (fun cnt scc => scc.foldl bump cnt) fun _ => 0

/-- `for (auto i = 0u; i < sccs.size(); i++)`: the index wraps, the size does not. -/
def enqueue (size : Nat) (cnt : UInt32 → UInt32) : Nat → UInt32 → List UInt32 → Option (List UInt32)
  | 0, i, queue => if i.toNat < size then none else some queue
  | fuel + 1, i, queue =>
    if i.toNat < size then enqueue size cnt fuel (i + 1) (if cnt i = 0 then queue ++ [i] else queue) else some queue

structure State where
  ingressCnt : UInt32 → UInt32
  queue : List UInt32
  sorted : List UInt32

/-- The body of the loop over the dependencies of an emitted id. -/
def release (s : State) (n : UInt32) : State :=
  let cnt := Function.update s.ingressCnt n (s.ingressCnt n - 1)
  { s with ingressCnt := cnt, queue := if cnt n = 0 then s.queue ++ [n] else s.queue }

def loop (sccs : List (List UInt32)) : Nat → State → Option (List UInt32)
  | _, ⟨_,[],sorted⟩ => some sorted
  | 0, ⟨_,_ :: _,_⟩ => none
  | fuel + 1, ⟨cnt,id :: queue,sorted⟩ =>
    loop sccs fuel ((depsAt sccs id).foldl release ⟨cnt,queue,sorted ++ [id]⟩)

/-- Each of the two loops may take `fuel` rounds. -/
def topologicalSort (fuel : Nat) (sccs : List (List UInt32)) : Option (List UInt32) :=
  (enqueue sccs.length (ingressCnt sccs) fuel 0 []).bind fun queue =>
    loop sccs fuel ⟨ingressCnt sccs,queue,[]⟩

def edges (sccs : List (List UInt32)) (id : Nat) : List Nat := ((sccs[id]?).getD []).map UInt32.toNat

section Counters

variable {sccs : List (List UInt32)}

theorem foldl_bump (ds : List UInt32) (cnt : UInt32 → UInt32) (i : UInt32) :
    ds.foldl bump cnt i = cnt i + UInt32.ofNat (ds.count i) := by
  induction ds generalizing cnt with
  | nil => simp
  | cons d ds ih =>
    rw [List.foldl_cons,ih]
    by_cases same : d = i
    · subst same
      rw [bump,Function.update_self,List.count_cons_self,UInt32.ofNat_add,UInt32.add_assoc,UInt32.add_comm 1]
      rfl
    · rw [bump,Function.update_of_ne (Ne.symm same),List.count_cons_of_ne same]

theorem ingressCnt_eq (sccs : List (List UInt32)) (i : UInt32) :
    ingressCnt sccs i = UInt32.ofNat (sccs.flatten.count i) := by
  have folded (cnt : UInt32 → UInt32) :
      sccs.foldl (fun cnt scc => scc.foldl bump cnt) cnt i = cnt i + UInt32.ofNat (sccs.flatten.count i) := by
    induction sccs generalizing cnt with
    | nil => simp
    | cons scc sccs ih =>
      rw [List.foldl_cons,ih,foldl_bump,List.flatten_cons,List.count_append,UInt32.ofNat_add,UInt32.add_assoc]
  rw [ingressCnt,folded]
  exact UInt32.zero_add _

theorem mem_edges (d id : UInt32) : d.toNat ∈ edges sccs id.toNat ↔ d ∈ depsAt sccs id := by
  simp [edges,depsAt,UInt32.toNat_inj]

theorem edges_of (id : UInt32) : edges sccs id.toNat = (depsAt sccs id).map UInt32.toNat := rfl

theorem edges_valid (valid : ∀ scc ∈ sccs, ∀ d ∈ scc, d.toNat < sccs.length) :
    ∀ i < sccs.length, ∀ m ∈ edges sccs i, m < sccs.length := by
  intro i bound m edge
  simp only [edges,List.getElem?_eq_getElem bound,Option.getD_some,List.mem_map] at edge
  obtain ⟨d,inScc,rfl⟩ := edge
  exact valid _ (List.getElem_mem bound) d inScc

theorem inDegree_count (sccs : List (List UInt32)) (i : UInt32) :
    Kahn.inDegree sccs.length (edges sccs) i.toNat = sccs.flatten.count i := by
  have counts : (List.range sccs.length).map (fun p => (edges sccs p).count i.toNat) = sccs.map (List.count i) := by
    refine List.ext_getElem (by simp) fun p inRange _ => ?_
    have bound : p < sccs.length := by simpa using inRange
    rw [List.getElem_map,List.getElem_range,List.getElem_map]
    simp only [edges,List.getElem?_eq_getElem bound,Option.getD_some]
    exact List.count_map_of_injective _ UInt32.toNat (fun a b => UInt32.toNat_inj.mp) i
  rw [Kahn.inDegree,Kahn.foldl_inDegree,counts,List.count_flatten,Nat.zero_add]

end Counters

section Simulation

/-- The state of the code holds the numbers of the state with unbounded counters. -/
structure Agrees (size : Nat) (s : State) (t : Kahn.State) : Prop where
  counters : ∀ i : UInt32, i.toNat < size → (s.ingressCnt i).toNat = t.inDegree i.toNat
  queue : s.queue.map UInt32.toNat = t.queue
  sorted : s.sorted.map UInt32.toNat = t.sorted

/-- The counter of the next edge is positive, so taking one off does not wrap. -/
theorem release_agrees {size : Nat} {deps : Nat → List Nat} {s : State} {t : Kahn.State} {n : UInt32} {rest : List Nat}
    (h : Kahn.Invariant size deps (n.toNat :: rest) t) (agrees : Agrees size s t) (bound : n.toNat < size) :
    Agrees size (release s n) (Kahn.release t n.toNat) := by
  have positive : 1 ≤ t.inDegree n.toNat := by
    rw [h.count _ bound,List.count_cons_self]
    exact Nat.le_add_left _ _
  have lowered : (s.ingressCnt n - 1).toNat = t.inDegree n.toNat - 1 := by
    rw [← agrees.counters n bound] at positive ⊢
    exact UInt32.toNat_sub_of_le _ _ (UInt32.le_iff_toNat_le.mpr positive)
  have zero : s.ingressCnt n - 1 = 0 ↔ t.inDegree n.toNat - 1 = 0 := by
    rw [← UInt32.toNat_inj,lowered]
    rfl
  refine ⟨fun i inRange => ?_,?_,agrees.sorted⟩
  · by_cases same : i = n
    · subst same
      simpa [release,Kahn.release] using lowered
    · have apart : i.toNat ≠ n.toNat := fun eq => same (UInt32.toNat_inj.mp eq)
      simpa [release,Kahn.release,same,apart] using agrees.counters i inRange
  · simp only [release,Kahn.release,Function.update_self,zero]
    split
    · simp [agrees.queue]
    · exact agrees.queue

theorem release_all_agrees {size : Nat} {deps : Nat → List Nat} (rest : List UInt32) (s : State) (t : Kahn.State)
    (h : Kahn.Invariant size deps (rest.map UInt32.toNat) t) (agrees : Agrees size s t)
    (valid : ∀ n ∈ rest, n.toNat < size) :
    Agrees size (rest.foldl release s) ((rest.map UInt32.toNat).foldl Kahn.release t) := by
  induction rest generalizing s t with
  | nil => exact agrees
  | cons n rest ih =>
    have bound := valid n List.mem_cons_self
    exact ih _ _ (Kahn.release_invariant h bound).1 (release_agrees h agrees bound)
      fun x member => valid x (List.mem_cons_of_mem _ member)

variable {sccs : List (List UInt32)}

theorem loop_agrees (valid : ∀ i < sccs.length, ∀ m ∈ edges sccs i, m < sccs.length) (fuel : Nat) (s : State)
    (t : Kahn.State) (h : Kahn.Invariant sccs.length (edges sccs) [] t) (agrees : Agrees sccs.length s t) :
    (loop sccs fuel s).map (·.map UInt32.toNat) = Kahn.loop (edges sccs) fuel t := by
  induction fuel generalizing s t with
  | zero =>
    obtain ⟨cnt,queue,sorted⟩ := s
    obtain ⟨cnt',queue',sorted'⟩ := t
    obtain ⟨counters,rfl,rfl⟩ := agrees
    cases queue <;> rfl
  | succ fuel ih =>
    obtain ⟨cnt,queue,sorted⟩ := s
    obtain ⟨cnt',queue',sorted'⟩ := t
    obtain ⟨counters,rfl,rfl⟩ := agrees
    cases queue with
    | nil => rfl
    | cons id queue =>
      have taken := Kahn.emit_invariant h
      have inRange : id.toNat < sccs.length := h.inRange _ (by simp)
      have targets := valid id.toNat inRange
      rw [edges_of] at taken targets
      have same : (⟨cnt',queue.map UInt32.toNat,sorted.map UInt32.toNat ++ [id.toNat]⟩ : Kahn.State) =
          ⟨cnt',queue.map UInt32.toNat,(sorted ++ [id]).map UInt32.toNat⟩ := by simp
      refine ih _ _ (Kahn.release_all _ _ taken targets).1 ?_
      rw [edges_of]
      exact release_all_agrees _ _ _ taken ⟨counters,rfl,by simp⟩ fun n member => targets _ (List.mem_map_of_mem member)

theorem enqueue_spec {size : Nat} (few : size < UInt32.size) (cnt : UInt32 → UInt32) (fuel : Nat) (i : UInt32)
    (queue : List UInt32) (le : i.toNat ≤ size) (enough : size ≤ i.toNat + fuel) :
    ∃ queue', enqueue size cnt fuel i queue = some queue' ∧ queue'.map UInt32.toNat = queue.map UInt32.toNat ++
      (List.range' i.toNat (size - i.toNat)).filter (fun j => cnt (UInt32.ofNat j) = 0) := by
  induction fuel generalizing i queue with
  | zero =>
    have done : size = i.toNat := by omega
    exact ⟨queue,by simp [enqueue,done],by simp [done]⟩
  | succ fuel ih =>
    by_cases more : i.toNat < size
    · have next : (i + 1).toNat = i.toNat + 1 := by
        rw [UInt32.toNat_add]
        exact Nat.mod_eq_of_lt (Nat.lt_of_le_of_lt more few)
      obtain ⟨queue',runs,eq⟩ := ih (i + 1) (if cnt i = 0 then queue ++ [i] else queue) (by omega) (by omega)
      refine ⟨queue',by rw [enqueue,if_pos more,runs],?_⟩
      rw [eq,next,show size - i.toNat = (size - (i.toNat + 1)) + 1 by omega,List.range'_succ,List.filter_cons]
      simp only [UInt32.ofNat_toNat,decide_eq_true_eq]
      split
      · simp
      · rfl
    · have done : size = i.toNat := by omega
      exact ⟨queue,by simp [enqueue,done],by simp [done]⟩

/-- While no counter and no index wraps the code is the sort with unbounded counters. -/
theorem topologicalSort_eq (few : sccs.length < UInt32.size) (valid : ∀ scc ∈ sccs, ∀ d ∈ scc, d.toNat < sccs.length)
    (unwrapped : ∀ i, sccs.flatten.count i < UInt32.size) (fuel : Nat) (enough : sccs.length ≤ fuel) :
    (topologicalSort fuel sccs).map (·.map UInt32.toNat) = Kahn.loop (edges sccs) fuel (Kahn.start sccs.length (edges sccs)) := by
  have counters (i : UInt32) : (ingressCnt sccs i).toNat = Kahn.inDegree sccs.length (edges sccs) i.toNat := by
    rw [ingressCnt_eq,inDegree_count]
    exact UInt32.toNat_ofNat_of_lt (unwrapped i)
  obtain ⟨queue,runs,eq⟩ := enqueue_spec few (ingressCnt sccs) fuel 0 [] (Nat.zero_le _) (by simpa using enough)
  have start : queue.map UInt32.toNat = (Kahn.start sccs.length (edges sccs)).queue := by
    rw [eq]
    simp only [Kahn.start,List.map_nil,List.nil_append,UInt32.toNat_zero,Nat.sub_zero,← List.range_eq_range']
    refine List.filter_congr fun j member => decide_eq_decide.mpr ?_
    have small : j < UInt32.size := Nat.lt_trans (List.mem_range.mp member) few
    rw [← UInt32.toNat_inj,counters,UInt32.toNat_ofNat_of_lt' small]
    rfl
  rw [topologicalSort,runs]
  exact loop_agrees (edges_valid valid) fuel _ _ (Kahn.start_invariant _ _) ⟨fun i _ => counters i,start,rfl⟩

end Simulation

section Exact

variable {sccs : List (List UInt32)}

theorem idxOf_map_toNat (ids : List UInt32) (a : UInt32) : (ids.map UInt32.toNat).idxOf a.toNat = ids.idxOf a := by
  induction ids with
  | nil => rfl
  | cons id ids ih =>
    by_cases same : id = a
    · simp [same]
    · have apart : id.toNat ≠ a.toNat := fun eq => same (UInt32.toNat_inj.mp eq)
      rw [List.map_cons,List.idxOf_cons_ne _ apart,List.idxOf_cons_ne _ same,ih]

/-- With fewer than 2^32 components and no id repeated 2^32 times the sort terminates and
returns, each once and in order, the ids that are neither on a cycle nor reachable from one. -/
theorem topologicalSort_unwrapped (sccs : List (List UInt32)) (few : sccs.length < UInt32.size)
    (valid : ∀ scc ∈ sccs, ∀ d ∈ scc, d.toNat < sccs.length) (unwrapped : ∀ i, sccs.flatten.count i < UInt32.size) :
    ∃ sorted, (∀ fuel ≥ sccs.length, topologicalSort fuel sccs = some sorted) ∧ sorted.Nodup ∧
      (∀ i, i ∈ sorted ↔ i.toNat < sccs.length ∧ ¬OnCycle (edges sccs) i.toNat ∧
        ∀ c < sccs.length, OnCycle (edges sccs) c → ¬Reaches (edges sccs) c i.toNat) ∧
      (∀ a ∈ sorted, ∀ b ∈ sorted, b ∈ depsAt sccs a → sorted.idxOf a < sorted.idxOf b) ∧
      ((∀ i < sccs.length, ¬OnCycle (edges sccs) i) → sorted.Perm ((List.range sccs.length).map UInt32.ofNat)) := by
  have inRange := edges_valid valid
  obtain ⟨numbers,runs,h⟩ := Kahn.sort_sorted sccs.length (edges sccs) inRange
  have code (fuel : Nat) (enough : sccs.length ≤ fuel) : (topologicalSort fuel sccs).map (·.map UInt32.toNat) = some numbers := by
    rw [topologicalSort_eq few valid unwrapped fuel enough]
    exact Kahn.loop_more enough _ runs
  obtain ⟨sorted,-,eq⟩ := Option.map_eq_some_iff.mp (code _ (Nat.le_refl _))
  subst eq
  have member (i : UInt32) : i ∈ sorted ↔ i.toNat ∈ sorted.map UInt32.toNat := by simp [UInt32.toNat_inj]
  refine ⟨sorted,fun fuel enough => ?_,List.Nodup.of_map _ h.nodup,fun i => ?_,fun a _ b inB edge => ?_,fun acyclic => ?_⟩
  · obtain ⟨found,returned,same⟩ := Option.map_eq_some_iff.mp (code fuel enough)
    rw [returned,List.map_injective_iff.mpr (fun a b => UInt32.toNat_inj.mp) same]
  · rw [member,h.members inRange]
  · rw [← idxOf_map_toNat,← idxOf_map_toNat]
    by_cases bound : a.toNat < sccs.length
    · exact (h.before bound ((mem_edges b a).mpr edge) ((member b).mp inB)).2
    · simp [depsAt,Nat.le_of_not_lt bound] at edge
  · have all := (List.perm_ext_iff_of_nodup h.nodup List.nodup_range).mpr fun i => by
      rw [h.members inRange,List.mem_range]
      exact ⟨fun member => member.1,fun bound => ⟨bound,acyclic i bound,fun c below cycle => absurd cycle (acyclic c below)⟩⟩
    simpa [Function.comp_def] using all.map UInt32.ofNat

/-- A repeated edge from 0, and a cycle of 2 and 3 that leads to 4. -/
def partlyCyclic : List (List UInt32) := [[1,1],[],[3],[2,4],[]]

theorem topologicalSort_partlyCyclic : ∃ sorted, (∀ fuel ≥ 5, topologicalSort fuel partlyCyclic = some sorted) ∧ sorted.Nodup ∧
    (∀ i, i ∈ sorted ↔ i.toNat < 5 ∧ ¬OnCycle (edges partlyCyclic) i.toNat ∧
      ∀ c < 5, OnCycle (edges partlyCyclic) c → ¬Reaches (edges partlyCyclic) c i.toNat) ∧
    (∀ a ∈ sorted, ∀ b ∈ sorted, b ∈ depsAt partlyCyclic a → sorted.idxOf a < sorted.idxOf b) ∧
    ((∀ i < 5, ¬OnCycle (edges partlyCyclic) i) → sorted.Perm ((List.range 5).map UInt32.ofNat)) :=
  topologicalSort_unwrapped partlyCyclic (by decide) (by simp [partlyCyclic])
    fun i => Nat.lt_of_le_of_lt List.count_le_length (by decide)

example : topologicalSort 5 partlyCyclic = some [0,1] := by decide

end Exact

section Wrapping

theorem release_copies (s : State) (n : UInt32) (zero : s.ingressCnt n = 0) (k : Nat) (few : k < UInt32.size) :
    (List.replicate k n).foldl release s = ⟨Function.update s.ingressCnt n (-UInt32.ofNat k),s.queue,s.sorted⟩ := by
  induction k with
  | zero =>
    have same : Function.update s.ingressCnt n (-UInt32.ofNat 0) = s.ingressCnt :=
      Function.update_eq_self_iff.mpr (by rw [zero]; exact UInt32.neg_zero)
    rw [same]
    rfl
  | succ k ih =>
    have lowered : -UInt32.ofNat k - 1 = -UInt32.ofNat (k + 1) := by
      rw [UInt32.ofNat_add,UInt32.neg_add]
      rfl
    have positive : -UInt32.ofNat (k + 1) ≠ 0 := by
      intro none
      have zero : UInt32.ofNat (k + 1) = 0 := by
        have twice := congrArg (- ·) none
        simpa only [UInt32.neg_neg,UInt32.neg_zero] using twice
      have number := congrArg UInt32.toNat zero
      rw [UInt32.toNat_ofNat_of_lt' few] at number
      exact Nat.succ_ne_zero k number
    rw [List.replicate_succ',List.foldl_append,ih (by omega)]
    simp only [List.foldl_cons,List.foldl_nil,release,Function.update_self,Function.update_idem,lowered,if_neg positive]

/-- The counter of an id with 2^32 edges is 0 from the start, and again at its last edge. -/
theorem topologicalSort_copies (copies : Nat) (all : copies = UInt32.size) :
    topologicalSort 3 [List.replicate copies 1,[]] = some [0,1,1] := by
  have counter (i : UInt32) : ingressCnt [List.replicate copies 1,[]] i = 0 := by
    rw [ingressCnt_eq]
    simp only [List.flatten_cons,List.flatten_nil,List.append_nil,List.count_replicate,beq_iff_eq]
    split
    · rw [all]
      rfl
    · rfl
  have queued : enqueue 2 (ingressCnt [List.replicate copies 1,[]]) 3 0 [] = some [0,1] := by
    simp [enqueue,counter]
  have released (s : State) (zero : s.ingressCnt 1 = 0) : ∃ cnt,
      (List.replicate copies 1).foldl release s = ⟨cnt,s.queue ++ [1],s.sorted⟩ := by
    obtain ⟨k,rfl⟩ : ∃ k, copies = k + 1 := ⟨UInt32.size - 1,all⟩
    have last : -UInt32.ofNat k - 1 = 0 := by
      obtain rfl : k = UInt32.size - 1 := Nat.succ.inj all
      rfl
    rw [List.replicate_succ',List.foldl_append,release_copies s 1 zero k (by omega)]
    exact ⟨_,by simp only [List.foldl_cons,List.foldl_nil,release,Function.update_self,last]; rfl⟩
  obtain ⟨cnt,eq⟩ := released ⟨ingressCnt [List.replicate copies 1,[]],[1],[0]⟩ (counter 1)
  have first : depsAt [List.replicate copies 1,[]] 0 = List.replicate copies 1 := rfl
  have second : depsAt [List.replicate copies 1,[]] 1 = [] := rfl
  rw [topologicalSort]
  simp only [List.length_cons,List.length_nil,Nat.zero_add,Nat.reduceAdd,queued,Option.bind_some,loop,first,second,
    List.nil_append,eq,List.foldl_nil,List.cons_append]

theorem enqueue_endless (size : Nat) (many : UInt32.size ≤ size) (cnt : UInt32 → UInt32) (fuel : Nat) (i : UInt32)
    (queue : List UInt32) : enqueue size cnt fuel i queue = none := by
  have more : i.toNat < size := Nat.lt_of_lt_of_le i.toNat_lt many
  induction fuel generalizing i queue with
  | zero => rw [enqueue,if_pos more]
  | succ fuel ih => rw [enqueue,if_pos more,ih]; exact Nat.lt_of_lt_of_le (i + 1).toNat_lt many

/-- An id that is a dependency 2^32 times is returned twice, and 2^32 components without any
dependency are sorted forever. -/
theorem topologicalSort_wraps : topologicalSort 3 [List.replicate UInt32.size 1,[]] = some [0,1,1] ∧
    ¬∃ fuel sorted, topologicalSort fuel (List.replicate UInt32.size []) = some sorted := by
  refine ⟨topologicalSort_copies _ rfl,?_⟩
  rintro ⟨fuel,sorted,returned⟩
  rw [topologicalSort,enqueue_endless _ (by rw [List.length_replicate])] at returned
  contradiction

end Wrapping

end JkBuild.TopologicalSort
