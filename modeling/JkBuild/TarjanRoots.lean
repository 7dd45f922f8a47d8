import JkBuild.TarjanInvariant

/-! The root loop. A root that an earlier root already reached is searched again: its
number changes, nothing else is visited, and it alone forms one more component. -/
namespace JkBuild.Tarjan

open Reachability ComponentLog

def ReachedFrom (g : Graph n) (roots : List (Fin n)) (v : Fin n) : Prop :=
  ∃ root ∈ roots, Reaches g root v

/-- Some rule is a member of two components. -/
def Repeated (s : State n) : Prop :=
  ∃ (i j : Nat) (ci cj : StronglyConnectedComponent n) (v : Fin n), i ≠ j ∧
    s.sccs[i]? = some ci ∧ s.sccs[j]? = some cj ∧ v ∈ ci.rules ∧ v ∈ cj.rules

theorem log_comp_iff (s : State n) (i : Nat) (c : Component (Fin n)) :
    s.log.comp i = some c ↔ ∃ scc, s.sccs[i]? = some scc ∧ c = ⟨scc.rules,scc.deps⟩ := by
  simp [Log.comp,State.log,eq_comm]

theorem log_comp {s : State n} {i : Nat} (at_i : s.sccs[i]? = some scc) :
    s.log.comp i = some ⟨scc.rules,scc.deps⟩ := (log_comp_iff s i _).mpr ⟨scc,at_i,rfl⟩

theorem getElem?_mono {xs ys : List α} (h : xs <+: ys) {i : Nat} (at_i : xs[i]? = some x) :
    ys[i]? = some x := by
  obtain ⟨bound,rfl⟩ := List.getElem?_eq_some_iff.mp at_i
  exact List.prefix_iff_getElem?.mp h i bound

theorem Repeated.mono {s s' : State n} (h : Repeated s) (grows : s.sccs <+: s'.sccs) :
    Repeated s' := by
  obtain ⟨i,j,ci,cj,v,ne,at_i,at_j,inI,inJ⟩ := h
  exact ⟨i,j,ci,cj,v,ne,getElem?_mono grows at_i,getElem?_mono grows at_j,inI,inJ⟩

theorem Invariant.stack_nil {g : Graph n} (h : Invariant g [] s) : s.stack = [] := by
  apply List.eq_nil_iff_forall_not_mem.mpr
  intro x member
  obtain ⟨_,open',-⟩ := h.down x member
  simp at open'

theorem Invariant.visited_reaches {g : Graph n} (h : Invariant g [] s) (seen : s.dfn u ≠ 0)
    (path : Reaches g u v) : s.dfn v ≠ 0 :=
  path.closed (fun x => s.dfn x ≠ 0) (fun x seen d edge => h.next x seen (by simp) d edge) seen

/-- What one call of the root loop does. -/
structure RootStep (g : Graph n) (u : Fin n) (s s' : State n) : Prop where
  invariant : Invariant g [] s'
  visited : ∀ v, s'.dfn v ≠ 0 ↔ s.dfn v ≠ 0 ∨ Reaches g u v
  grows : s.sccs <+: s'.sccs
  exactly : s.dfn u = 0 → Exact g s.log → Exact g s'.log
  repeated : s.dfn u ≠ 0 → Repeated s'

section Revisit

variable {g : Graph n} {s : State n} {u : Fin n}

/-- Searching a visited root again lowers nothing: a dependency is either closed, or
the root itself. -/
theorem revisit_fold (inv : Invariant g [] s) (seen : s.dfn u ≠ 0) (fuel : Nat) (order : HashOrder)
    (ds : List (Fin n)) (sub : ∀ d ∈ ds, d ∈ g u) :
    ds.foldlM (visitDep (dfs g order fuel) u) (enter u s) = .ok (enter u s) := by
  have lowered : lower u (s.dfncnt + 1) (enter u s) = enter u s := by
    simp [lower,enter]
  induction ds with
  | nil => rfl
  | cons d ds ih =>
    have visited : (enter u s).dfn d ≠ 0 := by
      by_cases same : d = u
      · rw [same,enter_dfn_self]; omega
      · rw [enter_dfn_other s same]
        exact inv.next u seen (by simp) d (sub d (by simp))
    have one : visitDep (dfs g order fuel) u (enter u s) d = .ok (enter u s) := by
      by_cases same : d = u
      · subst same
        simp [visitDep,enter,lower]
      · have closed' : (enter u s).inStack d = false := by
          have := inv.inStack_false (v := d) (by rw [inv.stack_nil]; simp)
          simpa [enter,same] using this
        simp [visitDep,visited,closed']
    rw [List.foldlM_cons,one]
    exact ih fun d member => sub d (List.mem_cons_of_mem _ member)

theorem revisit (inv : Invariant g [] s) (seen : s.dfn u ≠ 0) (fuel : Nat) (order : HashOrder) :
    ∃ s', dfs g order (fuel + 1) u s = .ok s' ∧ RootStep g u s s' := by
  have empty := inv.stack_nil
  have popped : popScc u (enter u s).stack = some ([u],[]) := by simp [enter,empty,popScc]
  have covered : ∀ a ∈ [u], ∀ d ∈ g a, d ∈ [u] ∨ ∃ i, (enter u s).sccId d = some i := by
    intro a member d edge
    rw [List.mem_singleton.mp member] at edge
    exact .inr ((inv.owned d).mpr ⟨inv.next u seen (by simp) d edge,by rw [empty]; simp⟩)
  obtain ⟨deps,closes,emits⟩ := close_emits g order (enter u s) inv.sound popped covered
  have visited : ∀ v, (enter u s).dfn v ≠ 0 ↔ s.dfn v ≠ 0 := by
    intro v
    by_cases same : v = u
    · rw [same,enter_dfn_self]
      simp [seen]
    · rw [enter_dfn_other s same]
  have final : dfs g order (fuel + 1) u s = .ok (closed [u] [] deps (enter u s)) := by
    simp only [dfs,revisit_fold inv seen fuel order (g u) (fun _ h => h),finish]
    rw [if_pos (by rw [enter_low_self,enter_dfn_self])]
    exact closes
  refine ⟨_,final,⟨?_,?_,List.prefix_append _ _,fun fresh => absurd fresh seen,fun _ => ?_⟩⟩
  · refine ⟨List.Pairwise.nil,?_,?_,?_,by simp,?_,by simp,?_,?_,?_⟩
    · intro v
      by_cases same : v = u
      · subst same; simp [closed,enter]
      · show (enter u s).dfn v ≤ s.dfncnt + 1
        rw [enter_dfn_other s same]
        exact Nat.le_succ_of_le (inv.bounded v)
    · intro v
      by_cases same : v = u
      · simp [closed,same]
      · have off := inv.inStack_false (v := v) (by rw [empty]; simp)
        simp [closed,enter,same,off]
    · intro v member
      simp [closed] at member
    · intro v member
      simp [closed] at member
    · intro v seenV _ d edge
      exact (visited d).mpr (inv.next v ((visited v).mp seenV) (by simp) d edge)
    · intro v
      have owned := inv.owned v
      rw [empty] at owned
      show (∃ i, _ = some i) ↔ (enter u s).dfn v ≠ 0 ∧ v ∉ []
      rw [visited v,← owned]
      by_cases same : v = u
      · subst same
        simpa [closed,empty,seen] using owned
      · simp [closed,enter,same]
    · rw [closed_log]
      exact emit_sound inv.sound emits
  · intro v
    show (enter u s).dfn v ≠ 0 ↔ _
    rw [visited v]
    exact ⟨.inl,fun h => h.elim id (inv.visited_reaches seen)⟩
  · -- The old component of the root is still there, before the new one.
    obtain ⟨i,own⟩ := (inv.owned u).mpr ⟨seen,by rw [empty]; simp⟩
    obtain ⟨c,at_i,member⟩ := inv.sound.owned u i own
    obtain ⟨scc,atScc,rfl⟩ := (log_comp_iff s i c).mp at_i
    have bound := (List.getElem?_eq_some_iff.mp atScc).1
    refine ⟨i,s.sccs.length,scc,⟨[u],deps⟩,u,Nat.ne_of_lt bound,?_,?_,member,by simp⟩
    · simpa [closed,enter,List.getElem?_append_left bound] using atScc
    · simp [closed,enter]

end Revisit

theorem white_le (s : State n) : white s ≤ n := by
  simpa [white] using Finset.card_filter_le (Finset.univ : Finset (Fin n)) (fun v => s.dfn v = 0)

theorem root_step (g : Graph n) (order : HashOrder) (s : State n) (inv : Invariant g [] s)
    (u : Fin n) : ∃ s', dfs g order (n + 1) u s = .ok s' ∧ RootStep g u s s' := by
  by_cases fresh : s.dfn u = 0
  · obtain ⟨s',runs,inv',progress,visited,-⟩ := dfs_spec g order (n + 1) [] u s inv fresh (by simp)
      (Nat.le_succ_of_le (white_le s))
    refine ⟨s',runs,inv',fun v => ⟨fun seen => ?_,?_⟩,progress.grows,fun _ => progress.exactly,
      fun seen => absurd fresh seen⟩
    · by_cases old : s.dfn v = 0
      · exact .inr (progress.reached v old seen)
      · exact .inl old
    · rintro (old | path)
      · rw [progress.dfn v old]
        exact old
      · exact inv'.visited_reaches visited path
  · exact revisit inv fresh n order

/-- No root is reached, or repeated, by an earlier one. -/
def FreshRoots (g : Graph n) (roots : List (Fin n)) : Prop :=
  roots.Pairwise (fun earlier later => ¬Reaches g earlier later)

/-- The state after a list of roots. -/
structure Searched (g : Graph n) (roots : List (Fin n)) (s : State n) : Prop where
  invariant : Invariant g [] s
  visited : ∀ v, s.dfn v ≠ 0 ↔ ReachedFrom g roots v
  exactly : FreshRoots g roots → Exact g s.log
  repeated : ¬FreshRoots g roots → Repeated s

theorem Searched.snoc {g : Graph n} (h : Searched g roots s) (step : RootStep g u s s') :
    Searched g (roots ++ [u]) s' where
  invariant := step.invariant
  visited := by
    intro v
    rw [step.visited,h.visited]
    simp [ReachedFrom,or_and_right,exists_or]
  exactly := by
    intro fresh
    obtain ⟨before,-,apart⟩ := List.pairwise_append.mp fresh
    refine step.exactly ?_ (h.exactly before)
    by_contra seen
    obtain ⟨root,member,path⟩ := (h.visited u).mp seen
    exact apart root member u (by simp) path
  repeated := by
    intro stale
    by_cases before : FreshRoots g roots
    · refine step.repeated ?_
      by_contra fresh
      refine stale (List.pairwise_append.mpr ⟨before,List.pairwise_singleton _ _,?_⟩)
      intro root member v inU path
      rw [List.mem_singleton.mp inU] at path
      exact (h.visited u).mpr ⟨root,member,path⟩ fresh
    · exact (h.repeated before).mono step.grows

theorem searched_fold (g : Graph n) (order : HashOrder) (done roots : List (Fin n)) (s : State n)
    (h : Searched g done s) : ∃ s', roots.foldlM (fun s x => dfs g order (n + 1) x s) s = .ok s' ∧
      Searched g (done ++ roots) s' := by
  induction roots generalizing done s with
  | nil => exact ⟨s,rfl,by simpa using h⟩
  | cons u roots ih =>
    obtain ⟨s₁,runs,step⟩ := root_step g order s h.invariant u
    obtain ⟨s',folds,searched⟩ := ih (done ++ [u]) s₁ (h.snoc step)
    refine ⟨s',?_,by simpa using searched⟩
    rw [List.foldlM_cons,runs]
    exact folds

/-- Every search returns: no fault, whatever the graph, the roots and the hash order. -/
theorem tarjan_searched (g : Graph n) (order : HashOrder) (roots : List (Fin n)) :
    ∃ s, tarjan g order roots = .ok s ∧ Searched g roots s := by
  refine searched_fold g order [] roots initial ⟨initial_invariant g,?_,?_,?_⟩
  · simp [initial,ReachedFrom]
  · exact fun _ => empty_exact g
  · exact fun stale => absurd List.Pairwise.nil stale

theorem Searched.owned_iff {g : Graph n} (h : Searched g roots s) (v : Fin n) :
    (∃ i, s.sccId v = some i) ↔ ReachedFrom g roots v := by
  rw [h.invariant.owned v,h.visited v,h.invariant.stack_nil]
  simp

theorem Searched.member_reached {g : Graph n} {s : State n} (h : Searched g roots s) {i : Nat}
    (at_i : s.sccs[i]? = some scc) (member : v ∈ scc.rules) : ReachedFrom g roots v :=
  (h.owned_iff v).mp (h.invariant.sound.known i _ v (log_comp at_i) member)

/-- The components partition the reached rules by strong connection, ids are component
indices, and dependencies are the direct ones. -/
structure ComputesComponents (g : Graph n) (roots : List (Fin n)) (s : State n) : Prop where
  once : ∀ v, ReachedFrom g roots v → ∃ (i : Nat) (scc : StronglyConnectedComponent n),
    s.sccs[i]? = some scc ∧ scc.rules.count v = 1 ∧
    ∀ (j : Nat) (scc' : StronglyConnectedComponent n), s.sccs[j]? = some scc' → v ∈ scc'.rules → j = i
  together : ∀ v w, ReachedFrom g roots v → ReachedFrom g roots w →
    ((∃ scc ∈ s.sccs, v ∈ scc.rules ∧ w ∈ scc.rules) ↔ Mutual g v w)
  index : ∀ (i : Nat) (scc : StronglyConnectedComponent n), s.sccs[i]? = some scc →
    ∀ v ∈ scc.rules, s.sccId v = some i
  deps : ∀ (i : Nat) (scc : StronglyConnectedComponent n), s.sccs[i]? = some scc → scc.deps.Nodup ∧
    ∀ j, j ∈ scc.deps ↔ j ≠ i ∧ ∃ r ∈ scc.rules, ∃ d ∈ g r,
      ∃ scc', s.sccs[j]? = some scc' ∧ d ∈ scc'.rules

theorem Repeated.not_computes {g : Graph n} (twice : Repeated s) : ¬ComputesComponents g roots s := by
  intro h
  obtain ⟨i,j,ci,cj,v,ne,at_i,at_j,inI,inJ⟩ := twice
  have first := h.index i ci at_i v inI
  rw [h.index j cj at_j v inJ] at first
  exact ne (Option.some.inj first).symm

theorem Searched.computes {g : Graph n} (h : Searched g roots s) (fresh : FreshRoots g roots) :
    ComputesComponents g roots s := by
  have distinct := h.exactly fresh
  have place : ∀ v, ReachedFrom g roots v → ∃ i scc, s.sccId v = some i ∧ s.sccs[i]? = some scc ∧
      v ∈ scc.rules := by
    intro v reached
    obtain ⟨i,own⟩ := (h.owned_iff v).mpr reached
    obtain ⟨c,at_i,member⟩ := distinct.owned v i own
    obtain ⟨scc,atScc,rfl⟩ := (log_comp_iff s i c).mp at_i
    exact ⟨i,scc,own,atScc,member⟩
  refine ⟨fun v reached => ?_,fun v w reachedV _ => ?_,fun i scc at_i v member => ?_,
    fun i scc at_i => ⟨(distinct.nodup i _ (log_comp at_i)).2,fun j => ?_⟩⟩
  · obtain ⟨i,scc,own,at_i,member⟩ := place v reached
    refine ⟨i,scc,at_i,List.count_eq_one_of_mem (distinct.nodup i _ (log_comp at_i)).1 member,?_⟩
    intro j scc' at_j inside
    have other := (distinct.owner_iff j _ (log_comp at_j) v).mp inside
    have same : s.sccId v = some j := other
    rw [own] at same
    exact (Option.some.inj same).symm
  · constructor
    · rintro ⟨scc,inList,inV,inW⟩
      obtain ⟨i,at_i⟩ := List.mem_iff_getElem?.mp inList
      exact (distinct.connected i _ (log_comp at_i) v inV w).mp inW
    · intro both
      obtain ⟨i,scc,-,at_i,member⟩ := place v reachedV
      exact ⟨scc,List.mem_of_getElem? at_i,member,(distinct.connected i _ (log_comp at_i) v member w).mpr both⟩
  · exact (distinct.owner_iff i _ (log_comp at_i) v).mp member
  · rw [distinct.deps_iff i _ (log_comp at_i) j]
    constructor
    · rintro ⟨ne,r,inR,d,edge,c,at_j,inside⟩
      obtain ⟨scc',atScc,rfl⟩ := (log_comp_iff s j c).mp at_j
      exact ⟨ne,r,inR,d,edge,scc',atScc,inside⟩
    · rintro ⟨ne,r,inR,d,edge,scc',at_j,inside⟩
      exact ⟨ne,r,inR,d,edge,_,log_comp at_j,inside⟩

/-- The search computes the strongly connected components exactly when no requested
root repeats or was already reached from an earlier one. -/
theorem tarjan_computes_iff (g : Graph n) (order : HashOrder) (roots : List (Fin n)) :
    ∃ s, tarjan g order roots = .ok s ∧ (ComputesComponents g roots s ↔ FreshRoots g roots) := by
  obtain ⟨s,runs,searched⟩ := tarjan_searched g order roots
  refine ⟨s,runs,fun computes => ?_,searched.computes⟩
  by_contra stale
  exact (searched.repeated stale).not_computes computes

/-- One rule without dependencies, requested twice, is put in two components. -/
theorem tarjan_repeated_root : ∃ s, tarjan (fun _ : Fin 1 => []) .insertion [0,0] = .ok s ∧
    s.sccs = [⟨[0],[]⟩,⟨[0],[]⟩] ∧ ¬ComputesComponents (fun _ : Fin 1 => []) [0,0] s := by
  refine ⟨_,rfl,by decide,?_⟩
  exact Repeated.not_computes ⟨0,1,⟨[0],[]⟩,⟨[0],[]⟩,0,by decide,by decide,by decide,by simp,by simp⟩

end JkBuild.Tarjan
