import JkBuild.TarjanRoots
import JkBuild.Kahn

/-! What the makefile compilers read off a finished search: the components a recursion
over component dependencies inserts, and these components in topological order. -/
namespace JkBuild.ComponentOrder

open Reachability ComponentLog Tarjan Kahn

def depsOf (sccs : List (StronglyConnectedComponent n)) (id : Nat) : List Nat :=
  match sccs[id]? with
  | some scc => scc.deps
  | none => []

def rulesOf (sccs : List (StronglyConnectedComponent n)) (id : Nat) : List (Fin n) :=
  match sccs[id]? with
  | some scc => scc.rules
  | none => []

/-- The recursion both compilers write as a lambda `dfs`: it inserts every dependency
and descends, whether or not it was there already. `enter` is what a call inserts for
its own index. -/
def walk (enter : Nat → List Nat → List Nat) (deps : Nat → List Nat) :
    Nat → Nat → List Nat → Option (List Nat)
  | 0, _, _ => none
  | fuel + 1, id, visited =>
    (deps id).foldlM (fun visited n => walk enter deps fuel n (visited.insert n)) (enter id visited)

section Walk

variable {enter : Nat → List Nat → List Nat} {deps : Nat → List Nat}

theorem walk_fold (fuel : Nat)
    (one : ∀ (n : Nat) (visited : List Nat), n < fuel →
      ∃ visited', walk enter deps fuel n (visited.insert n) = some visited' ∧
      ∀ m, m ∈ visited' ↔ m ∈ visited ∨ Reaches deps n m)
    (ds : List Nat) (visited : List Nat) (enough : ∀ n ∈ ds, n < fuel) :
    ∃ visited', ds.foldlM (fun visited n => walk enter deps fuel n (visited.insert n)) visited = some visited' ∧
      ∀ m, m ∈ visited' ↔ m ∈ visited ∨ ∃ n ∈ ds, Reaches deps n m := by
  induction ds generalizing visited with
  | nil => exact ⟨visited,rfl,by simp⟩
  | cons n ds ih =>
    obtain ⟨middle,first,members⟩ := one n visited (enough n (by simp))
    obtain ⟨visited',rest,all⟩ := ih middle fun d member => enough d (List.mem_cons_of_mem _ member)
    refine ⟨visited',by rw [List.foldlM_cons,first]; exact rest,fun m => ?_⟩
    rw [all,members]
    simp [or_assoc]

/-- Below an index whose dependencies descend, the recursion returns and inserts what
the dependencies reach. -/
theorem walk_members (lower : ∀ i, ∀ j ∈ deps i, j < i)
    (own : ∀ (id : Nat) (visited : List Nat), id ∈ visited → ∀ m, m ∈ enter id visited ↔ m ∈ visited)
    (fuel id : Nat) (visited : List Nat) (enough : id < fuel) :
    ∃ visited', walk enter deps fuel id visited = some visited' ∧
      ∀ m, m ∈ visited' ↔ m ∈ enter id visited ∨ ∃ n ∈ deps id, Reaches deps n m := by
  induction fuel generalizing id visited with
  | zero => omega
  | succ fuel ih =>
    refine walk_fold fuel (fun n visited bound => ?_) (deps id) (enter id visited) fun n edge => ?_
    · obtain ⟨visited',runs,members⟩ := ih n (visited.insert n) bound
      refine ⟨visited',runs,fun m => ?_⟩
      rw [members,own n _ (List.mem_insert_self),List.mem_insert_iff]
      constructor
      · rintro ((rfl | old) | ⟨k,edge,path⟩)
        · exact .inr (.refl _ _)
        · exact .inl old
        · exact .inr (.head edge path)
      · rintro (old | path)
        · exact .inl (.inr old)
        · rcases Relation.ReflTransGen.cases_head path with rfl | ⟨k,edge,rest⟩
          · exact .inl (.inl rfl)
          · exact .inr ⟨k,edge,rest⟩
    · have := lower id n edge
      omega

end Walk

/-- The indices that a compiler keeps of the topological order. The counters of the source
have 32 bits and do not wrap on these vectors (`LinkOrder.sequence_code`). -/
def keep (sccs : List (StronglyConnectedComponent n)) (visited : List Nat) : Option (List Nat) :=
  (sort sccs.length (depsOf sccs)).map (·.filter (· ∈ visited))

theorem depsOf_eq (s : State n) : depsOf s.sccs = s.log.deps := by
  funext id
  simp only [depsOf,Log.deps,Log.comp,State.log,List.getElem?_map]
  cases s.sccs[id]? <;> rfl

theorem rulesOf_of {sccs : List (StronglyConnectedComponent n)} {id : Nat}
    (at_id : sccs[id]? = some scc) : rulesOf sccs id = scc.rules := by
  simp [rulesOf,at_id]

/-- The kept indices: exactly the visited components, each once, and every dependency
of a kept component that is kept itself comes after it. -/
structure Kept (deps : Nat → List Nat) (visited kept : List Nat) : Prop where
  nodup : kept.Nodup
  members : ∀ i, i ∈ kept ↔ i ∈ visited
  later : ∀ before i after, kept = before ++ i :: after →
    ∀ j ∈ deps i, j ∈ visited → j ∈ after

theorem Searched.deps_lt {g : Graph n} (h : Searched g roots s) (i : Nat) :
    ∀ j ∈ depsOf s.sccs i, j < i := by
  intro j dep
  rw [depsOf_eq] at dep
  exact h.invariant.sound.deps_lt dep

theorem split_of_filter {p : α → Bool} {xs before after : List α} {x : α}
    (split : xs.filter p = before ++ x :: after) :
    ∃ front back, xs = front ++ x :: back ∧ back.filter p = after := by
  obtain ⟨front,rest,rfl,-,tail⟩ := List.filter_eq_append_iff.mp split
  obtain ⟨skipped,back,rfl,-,-,same⟩ := List.filter_eq_cons_iff.mp tail
  exact ⟨front ++ skipped,back,by simp,same⟩

/-- Topological sorting of the components of a search leaves none out. -/
theorem keep_kept {g : Graph n} (h : Searched g roots s) (visited : List Nat)
    (inRange : ∀ i ∈ visited, i < s.sccs.length) :
    ∃ kept, keep s.sccs visited = some kept ∧ Kept (depsOf s.sccs) visited kept := by
  have lower := Searched.deps_lt h
  have valid : ∀ i < s.sccs.length, ∀ m ∈ depsOf s.sccs i, m < s.sccs.length :=
    fun i bound m dep => Nat.lt_trans (lower i m dep) bound
  obtain ⟨sorted,eq,spec⟩ := sort_sorted s.sccs.length (depsOf s.sccs) valid
  have all := spec.all fun p _ i dep => lower p i dep
  refine ⟨sorted.filter (· ∈ visited),by simp [keep,eq],spec.nodup.filter _,fun i => ?_,?_⟩
  · simp only [List.mem_filter,decide_eq_true_eq,and_iff_right_iff_imp]
    exact fun member => all i (inRange i member)
  · intro before i after split j dep member
    obtain ⟨front,back,rfl,rfl⟩ := split_of_filter split
    have below := lower i j dep
    have placed := spec.after dep (all j (inRange j member))
    rcases List.mem_cons.mp placed with rfl | placed
    · omega
    · simpa using ⟨placed,member⟩

end JkBuild.ComponentOrder
