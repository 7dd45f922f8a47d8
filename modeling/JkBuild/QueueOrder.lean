import JkBuild.Kahn

/-! In which order the sort queues indices. The list of emitted and queued indices grows at
its end only. An index is appended once its last user is emitted, together with the others
that this user releases, in the order of its dependency list. -/
namespace JkBuild.QueueOrder

open Kahn

section Positions

variable {α : Type u} {xs front back : List α} {a b : α}

theorem listed_cases (inA : a ∈ xs) (inB : b ∈ xs) (apart : a ≠ b) : [a,b].Sublist xs ∨ [b,a].Sublist xs := by
  obtain ⟨front,back,rfl⟩ := List.append_of_mem inA
  rcases List.mem_append.mp inB with early | late
  · right
    exact (List.singleton_sublist.mpr early).append (List.singleton_sublist.mpr List.mem_cons_self)
  · left
    have behind : b ∈ back := (List.mem_cons.mp late).resolve_left fun same => apart same.symm
    exact (List.Sublist.cons_cons a (List.singleton_sublist.mpr behind)).trans (List.sublist_append_right _ _)

variable [DecidableEq α]

theorem idxOf_lt_of_prefix (h : front <+: xs) (inside : a ∈ front) (outside : b ∉ front) :
    xs.idxOf a < xs.idxOf b := by
  obtain ⟨back,rfl⟩ := h
  rw [List.idxOf_append_of_mem inside,List.idxOf_append_of_notMem outside]
  have := List.idxOf_lt_length_of_mem inside
  omega

theorem mem_of_idxOf_lt (nodup : (front ++ b :: back).Nodup)
    (less : (front ++ b :: back).idxOf a < (front ++ b :: back).idxOf b) : a ∈ front := by
  have absent : b ∉ front := fun inside => (List.nodup_append.mp nodup).2.2 b inside b (by simp) rfl
  rw [List.idxOf_append_of_notMem absent,List.idxOf_cons_self] at less
  by_contra outside
  rw [List.idxOf_append_of_notMem outside] at less
  omega

theorem idxOf_lt_iff (nodup : xs.Nodup) (member : b ∈ xs) : xs.idxOf a < xs.idxOf b ↔ [a,b].Sublist xs := by
  constructor
  · intro less
    have inside : a ∈ xs := List.idxOf_lt_length_iff.mp (Nat.lt_trans less (List.idxOf_lt_length_of_mem member))
    obtain ⟨front,back,rfl⟩ := List.append_of_mem inside
    have absent : a ∉ front := fun early => (List.nodup_append.mp nodup).2.2 a early a (by simp) rfl
    rw [List.idxOf_append_of_notMem absent,List.idxOf_cons_self] at less
    have late : b ∉ front := by
      intro early
      rw [List.idxOf_append_of_mem early] at less
      have := List.idxOf_lt_length_of_mem early
      omega
    have apart : b ≠ a := by
      rintro rfl
      rw [List.idxOf_append_of_notMem late,List.idxOf_cons_self] at less
      omega
    have behind : b ∈ back := by simpa [late,apart] using member
    exact (List.Sublist.cons_cons a (List.singleton_sublist.mpr behind)).trans (List.sublist_append_right _ _)
  · intro listed
    obtain ⟨front,back,rfl,inside,rest⟩ := List.cons_sublist_iff.mp listed
    have behind := List.singleton_sublist.mp rest
    refine idxOf_lt_of_prefix (List.prefix_append front back) inside fun early => ?_
    exact (List.nodup_append.mp nodup).2.2 b early b behind rfl

end Positions

/-- All users of `i` are among `emitted`. -/
def Enabled (size : Nat) (deps : Nat → List Nat) (emitted : List Nat) (i : Nat) : Prop :=
  ∀ p < size, i ∈ deps p → p ∈ emitted

instance (size : Nat) (deps : Nat → List Nat) (emitted : List Nat) :
    DecidablePred (Enabled size deps emitted) := fun i =>
  inferInstanceAs (Decidable (∀ p < size, i ∈ deps p → p ∈ emitted))

/-- How `queued` came about: what nobody uses comes first, and each emitted index appends
what waited for it last behind all that could be queued before. -/
structure Queued (size : Nat) (deps : Nat → List Nat) (emitted queued : List Nat) : Prop where
  first : (List.range size).filter (Enabled size deps []) <+: queued
  released : ∀ before q after, emitted = before ++ q :: after → ∃ earlier,
    earlier ++ (deps q).filter (Enabled size deps (before ++ [q])) <+: queued ∧
    (∀ i < size, Enabled size deps before i → i ∈ earlier) ∧ ∀ i ∈ deps q, i ∉ earlier

section Loop

variable {size id : Nat} {deps : Nat → List Nat}

theorem outstanding_enabled : outstanding size deps emitted i = 0 ↔ Enabled size deps emitted i := by
  rw [outstanding_eq_zero]
  exact forall₂_congr fun p _ => not_imp_not.symm.trans (by simp)

theorem release_queue (rest : List Nat) (s : State) (nodup : rest.Nodup) :
    (rest.foldl release s).queue = s.queue ++ rest.filter (s.inDegree · - 1 = 0) := by
  induction rest generalizing s with
  | nil => simp
  | cons m rest ih =>
    obtain ⟨fresh,nodup⟩ := List.nodup_cons.mp nodup
    have kept : rest.filter ((release s m).inDegree · - 1 = 0) = rest.filter (s.inDegree · - 1 = 0) := by
      refine List.filter_congr fun i member => ?_
      have apart : i ≠ m := fun same => fresh (same ▸ member)
      simp [release,apart]
    rw [List.foldl_cons,ih _ nodup,kept]
    by_cases zero : s.inDegree m - 1 = 0
    · simp [release,zero]
    · simp [release,zero]

theorem start_queued (size : Nat) (deps : Nat → List Nat) :
    Queued size deps (start size deps).sorted ((start size deps).sorted ++ (start size deps).queue) where
  first := by
    have same : (List.range size).filter (Enabled size deps []) = (start size deps).queue := by
      refine List.filter_congr fun i _ => ?_
      simp [inDegree_eq,outstanding_enabled]
    rw [same]
    exact List.prefix_refl _
  released := by
    intro before q after split
    simp [start] at split

theorem emit_queued (valid : ∀ i < size, ∀ m ∈ deps i, m < size) (nodup : ∀ i < size, (deps i).Nodup)
    (h : Invariant size deps [] ⟨cnt,id :: queue,sorted⟩) :
    let next := (deps id).foldl release ⟨cnt,queue,sorted ++ [id]⟩
    next.sorted ++ next.queue = (sorted ++ id :: queue) ++ (deps id).filter (Enabled size deps (sorted ++ [id])) := by
  have inRange : id < size := h.inRange id (by simp)
  have fresh : id ∉ sorted := fun member => (List.nodup_append.mp h.nodup).2.2 id member id (by simp) rfl
  obtain ⟨-,same⟩ := release_all (deps id) _ (emit_invariant h) (valid id inRange)
  have released : (deps id).filter (cnt · - 1 = 0) = (deps id).filter (Enabled size deps (sorted ++ [id])) := by
    refine List.filter_congr fun m edge => ?_
    have count := h.count m (valid id inRange m edge)
    rw [outstanding_snoc size deps sorted id m inRange fresh,List.count_eq_one_of_mem (nodup id inRange) edge] at count
    have left : cnt m - 1 = outstanding size deps (sorted ++ [id]) m := by
      simp only [List.count_nil] at count
      omega
    rw [left]
    exact decide_eq_decide.mpr outstanding_enabled
  have queued := release_queue (deps id) ⟨cnt,queue,sorted ++ [id]⟩ (nodup id inRange)
  simp only at queued
  show ((deps id).foldl release ⟨cnt,queue,sorted ++ [id]⟩).sorted ++
    ((deps id).foldl release ⟨cnt,queue,sorted ++ [id]⟩).queue = _
  rw [same,queued,released]
  simp

theorem Queued.emit (valid : ∀ i < size, ∀ m ∈ deps i, m < size)
    (h : Invariant size deps [] ⟨cnt,id :: queue,sorted⟩) (queued : Queued size deps sorted (sorted ++ id :: queue)) :
    Queued size deps (sorted ++ [id])
      ((sorted ++ id :: queue) ++ (deps id).filter (Enabled size deps (sorted ++ [id]))) where
  first := queued.first.trans (List.prefix_append _ _)
  released := by
    intro before q after split
    rcases List.eq_nil_or_concat after with rfl | ⟨after',last,rfl⟩
    · obtain ⟨rfl,single⟩ := List.append_inj' split rfl
      obtain rfl := (List.cons.inj single).1
      have inRange : id < size := h.inRange id (by simp)
      refine ⟨sorted ++ id :: queue,List.prefix_refl _,fun i bound enabled => ?_,fun i edge member => ?_⟩
      · have count := h.count i bound
        rw [outstanding_enabled.mpr enabled] at count
        exact (h.ready i bound).mpr count
      · have bound := valid id inRange i edge
        have zero := (h.ready i bound).mp member
        rw [h.count i bound] at zero
        have settled := outstanding_enabled.mp (Nat.eq_zero_of_add_eq_zero_right zero) id inRange edge
        exact (List.nodup_append.mp h.nodup).2.2 id settled id (by simp) rfl
    · have split' : sorted ++ [id] = (before ++ q :: after') ++ [last] := by simpa using split
      obtain ⟨prior,-⟩ := List.append_inj' split' rfl
      obtain ⟨earlier,listed,enabled,blocked⟩ := queued.released before q after' prior
      exact ⟨earlier,listed.trans (List.prefix_append _ _),enabled,blocked⟩

theorem loop_queued (valid : ∀ i < size, ∀ m ∈ deps i, m < size) (nodup : ∀ i < size, (deps i).Nodup)
    (fuel : Nat) (s : State) (h : Invariant size deps [] s) (queued : Queued size deps s.sorted (s.sorted ++ s.queue))
    (done : loop deps fuel s = some sorted) : Queued size deps sorted sorted := by
  induction fuel generalizing s with
  | zero =>
    obtain ⟨cnt,queue,emitted⟩ := s
    cases queue with
    | nil =>
      obtain rfl := Option.some.inj done
      simpa using queued
    | cons id queue => contradiction
  | succ fuel ih =>
    obtain ⟨cnt,queue,emitted⟩ := s
    cases queue with
    | nil =>
      obtain rfl := Option.some.inj done
      simpa using queued
    | cons id queue =>
      obtain ⟨next,same⟩ := release_all (deps id) _ (emit_invariant h) (valid id (h.inRange id (by simp)))
      refine ih _ next ?_ done
      rw [emit_queued valid nodup h,same]
      exact queued.emit valid h

end Loop

/-- What the sort returns when nothing is left out, with the order of its queue. -/
structure Ordered (size : Nat) (deps : Nat → List Nat) (sorted : List Nat) : Prop extends
    Sorted size deps sorted where
  queued : Queued size deps sorted sorted
  all : ∀ i < size, i ∈ sorted

theorem sort_ordered (size : Nat) (deps : Nat → List Nat) (lower : ∀ p < size, ∀ i ∈ deps p, i < p)
    (nodup : ∀ i < size, (deps i).Nodup) :
    ∃ sorted, sort size deps = some sorted ∧ Ordered size deps sorted := by
  have valid : ∀ i < size, ∀ m ∈ deps i, m < size := fun i bound m edge => Nat.lt_trans (lower i bound m edge) bound
  obtain ⟨sorted,runs,h⟩ := sort_sorted size deps valid
  exact ⟨sorted,runs,h,loop_queued valid nodup size _ (start_invariant size deps) (start_queued size deps) runs,
    h.all lower⟩

/-- The order that the numbers and the edges force: of two indices without users the lower
number comes first; otherwise one comes before another when all its users come before some
user of the other. -/
inductive Precedes (size : Nat) (deps : Nat → List Nat) : Nat → Nat → Prop
  | unused : Enabled size deps [] a → Enabled size deps [] b → a < b → Precedes size deps a b
  | users (q : Nat) : q < size → b ∈ deps q → (∀ p < size, a ∈ deps p → Precedes size deps p q) →
      Precedes size deps a b

/-- Any two indices are in a forced order. -/
def Untied (size : Nat) (deps : Nat → List Nat) : Prop :=
  ∀ a < size, ∀ b < size, a ≠ b → Precedes size deps a b ∨ Precedes size deps b a

/-- `q` is emitted last of the users of `a`. -/
structure Releases (size : Nat) (deps : Nat → List Nat) (sorted : List Nat) (q a : Nat) : Prop where
  bound : q < size
  edge : a ∈ deps q
  last : ∀ p < size, a ∈ deps p → sorted.idxOf p ≤ sorted.idxOf q

theorem Precedes.congr (same : ∀ i j, j ∈ deps i ↔ j ∈ deps' i) (h : Precedes size deps a b) :
    Precedes size deps' a b := by
  induction h with
  | unused first second less =>
    exact .unused (fun p bound edge => first p bound ((same p _).mpr edge))
      (fun p bound edge => second p bound ((same p _).mpr edge)) less
  | users q bound edge _ ih =>
    exact .users q bound ((same q _).mp edge) fun p bound edge => ih p bound ((same p _).mpr edge)

section Runs

variable {size : Nat} {deps deps' : Nat → List Nat} {sorted sorted' : List Nat} {a b q : Nat}

theorem Ordered.unused (h : Ordered size deps sorted) (first : Enabled size deps [] a)
    (second : Enabled size deps [] b) (bound : b < size) (less : a < b) : sorted.idxOf a < sorted.idxOf b := by
  have listed : [a,b].Sublist (List.range size) := by
    have upTo := (List.singleton_sublist.mpr (List.mem_range.mpr less)).append (List.Sublist.refl [b])
    rw [← List.range_succ] at upTo
    exact upTo.trans (List.range_sublist.mpr bound)
  have kept : ([a,b].filter (Enabled size deps [])).Sublist ((List.range size).filter (Enabled size deps [])) :=
    listed.filter _
  rw [List.filter_eq_self.mpr (by simp [first,second])] at kept
  exact (idxOf_lt_iff h.nodup (h.all b bound)).mpr (kept.trans h.queued.first.sublist)

theorem Ordered.waits (h : Ordered size deps sorted) (inRange : a < size) (bound : q < size) (edge : b ∈ deps q)
    (users : ∀ p < size, a ∈ deps p → sorted.idxOf p < sorted.idxOf q) : sorted.idxOf a < sorted.idxOf b := by
  obtain ⟨before,after,split⟩ := List.append_of_mem (h.all q bound)
  obtain ⟨earlier,listed,enabled,blocked⟩ := h.queued.released before q after split
  have nodup := h.nodup
  have ready : Enabled size deps before a := by
    intro p inRange edge
    have less := users p inRange edge
    rw [split] at less nodup
    exact mem_of_idxOf_lt nodup less
  exact idxOf_lt_of_prefix ((List.prefix_append _ _).trans listed) (enabled a inRange ready) (blocked b edge)

theorem Ordered.listed (h : Ordered size deps sorted) (first : Releases size deps sorted q a)
    (second : Releases size deps sorted q b) (inRange : b < size) (order : [a,b].Sublist (deps q)) :
    sorted.idxOf a < sorted.idxOf b := by
  obtain ⟨before,after,split⟩ := List.append_of_mem (h.all q first.bound)
  obtain ⟨earlier,prefixed,-,-⟩ := h.queued.released before q after split
  have ready : ∀ i, Releases size deps sorted q i → Enabled size deps (before ++ [q]) i := by
    intro i releases p bound edge
    rcases Nat.lt_or_eq_of_le (releases.last p bound edge) with less | same
    · have nodup := h.nodup
      rw [split] at less nodup
      exact List.mem_append_left _ (mem_of_idxOf_lt nodup less)
    · rw [(List.idxOf_inj (h.all p bound)).mp same]
      simp
  have kept := order.filter (Enabled size deps (before ++ [q]))
  rw [List.filter_eq_self.mpr (by simp [ready a first,ready b second])] at kept
  exact (idxOf_lt_iff h.nodup (h.all b inRange)).mpr
    ((kept.trans (List.sublist_append_right _ _)).trans prefixed.sublist)

theorem Ordered.sound (h : Ordered size deps sorted) (forced : Precedes size deps a b) (inA : a < size)
    (inB : b < size) : sorted.idxOf a < sorted.idxOf b := by
  induction forced with
  | unused first second less => exact h.unused first second inB less
  | users q bound edge _ ih => exact h.waits inA bound edge fun p inRange edge => ih p inRange edge inRange bound

theorem exists_releases (sorted : List Nat) (used : ¬Enabled size deps [] a) :
    ∃ q, Releases size deps sorted q a := by
  have some_user : ((Finset.range size).filter (a ∈ deps ·)).Nonempty := by
    unfold Enabled at used
    push Not at used
    obtain ⟨p,bound,edge,-⟩ := used
    exact ⟨p,by simp [bound,edge]⟩
  obtain ⟨q,member,last⟩ := Finset.exists_max_image _ sorted.idxOf some_user
  obtain ⟨bound,edge⟩ := Finset.mem_filter.mp member
  exact ⟨q,Finset.mem_range.mp bound,edge,fun p bound edge => last p (by simp [bound,edge])⟩

/-- When no index releases two others, the order of the run was forced. By induction on the
position of the later index. -/
theorem Ordered.forced (h : Ordered size deps sorted)
    (single : ∀ q a b, Releases size deps sorted q a → Releases size deps sorted q b → a = b) (b : Nat)
    (inB : b < size) (a : Nat) (inA : a < size) (less : sorted.idxOf a < sorted.idxOf b) : Precedes size deps a b := by
  induction place : sorted.idxOf b using Nat.strong_induction_on generalizing a b with
  | _ k ih =>
    by_cases unusedB : Enabled size deps [] b
    · have unusedA : Enabled size deps [] a := by
        by_contra used
        have inFirst : b ∈ (List.range size).filter (Enabled size deps []) := by simp [inB,unusedB]
        have notFirst : a ∉ (List.range size).filter (Enabled size deps []) := by simp [used]
        have := idxOf_lt_of_prefix h.queued.first inFirst notFirst
        omega
      rcases Nat.lt_trichotomy a b with lower | rfl | higher
      · exact .unused unusedA unusedB lower
      · omega
      · have := h.unused unusedB unusedA inA higher
        omega
    · obtain ⟨q,releases⟩ := exists_releases sorted unusedB
      have earlier := (h.before releases.bound releases.edge (h.all b inB)).2
      refine .users q releases.bound releases.edge fun p bound edge => ?_
      refine ih _ (by omega) q releases.bound p bound ?_ rfl
      by_contra late
      obtain ⟨r,other⟩ := exists_releases sorted fun unused : Enabled size deps [] a => by
        simpa using unused p bound edge
      have later := other.last p bound edge
      rcases Nat.lt_or_eq_of_le (Nat.le_trans (Nat.le_of_not_lt late) later) with apart | same
      · have := h.waits inB other.bound other.edge fun p bound edge =>
          Nat.lt_of_le_of_lt (releases.last p bound edge) apart
        omega
      · rw [(List.idxOf_inj (h.all q releases.bound)).mp same] at releases
        have := single r a b other releases
        subst this
        omega

theorem Ordered.unique (h : Ordered size deps sorted) (h' : Ordered size deps' sorted')
    (same : ∀ i j, j ∈ deps i ↔ j ∈ deps' i) (untied : Untied size deps) : sorted = sorted' := by
  have members : sorted.Perm sorted' := by
    refine (List.perm_ext_iff_of_nodup h.nodup h'.nodup).mpr fun i => ?_
    exact ⟨fun member => h'.all i (h.inRange i member),fun member => h.all i (h'.inRange i member)⟩
  have pairwise : ∀ {deps : Nat → List Nat} {sorted : List Nat}, Ordered size deps sorted →
      Untied size deps → sorted.Pairwise (Precedes size deps) := by
    intro deps sorted h untied
    refine List.pairwise_iff_forall_sublist.mpr fun {a b} listed => ?_
    have inA := h.inRange a (listed.subset (by simp))
    have inB := h.inRange b (listed.subset (by simp))
    have less := (idxOf_lt_iff h.nodup (h.all b inB)).mpr listed
    have apart : a ≠ b := by
      rintro rfl
      omega
    refine (untied a inA b inB apart).resolve_right fun back => ?_
    have := h.sound back inB inA
    omega
  have untied' : Untied size deps' := fun a inA b inB apart =>
    (untied a inA b inB apart).imp (Precedes.congr same) (Precedes.congr same)
  have back : sorted'.Pairwise (Precedes size deps) :=
    (pairwise h' untied').imp fun forced => forced.congr fun i j => (same i j).symm
  refine members.eq_of_pairwise (fun a b inA inB forth forced => ?_) (pairwise h untied) back
  have first := h.sound forth (h.inRange a inA) (h'.inRange b inB)
  have second := h.sound forced (h'.inRange b inB) (h.inRange a inA)
  omega

/-- Reversing the list of an index that releases two others swaps these two. -/
theorem Ordered.single (h : Ordered size deps sorted)
    (h' : Ordered size (Function.update deps q (deps q).reverse) sorted) (valid : ∀ i < size, ∀ m ∈ deps i, m < size)
    (first : Releases size deps sorted q a) (second : Releases size deps sorted q b) : a = b := by
  by_contra apart
  have same : ∀ i j, j ∈ Function.update deps q (deps q).reverse i ↔ j ∈ deps i := by
    intro i j
    by_cases own : i = q
    · subst own; simp
    · simp [own]
  have again : ∀ {i}, Releases size deps sorted q i →
      Releases size (Function.update deps q (deps q).reverse) sorted q i := fun {i} releases =>
    ⟨releases.bound,(same q i).mpr releases.edge,fun p bound edge => releases.last p bound ((same p i).mp edge)⟩
  have swap : ∀ {a b}, Releases size deps sorted q a → Releases size deps sorted q b → ¬[a,b].Sublist (deps q) := by
    intro a b first second listed
    have forth := h.listed first second (valid q second.bound b second.edge) listed
    have reversed : [b,a].Sublist (Function.update deps q (deps q).reverse q) := by
      simpa using listed.reverse
    have back := h'.listed (again second) (again first) (valid q first.bound a first.edge) reversed
    omega
  exact (listed_cases first.edge second.edge apart).elim (swap first second) (swap second first)

/-- The sort does not depend on how the dependencies of each index are listed exactly when
any two indices are in a forced order. -/
theorem stable_iff_untied (size : Nat) (deps : Nat → List Nat) (lower : ∀ p < size, ∀ i ∈ deps p, i < p)
    (nodup : ∀ i < size, (deps i).Nodup) :
    (∀ deps' : Nat → List Nat, (∀ i, (deps' i).Perm (deps i)) →
      sort size deps' = sort size deps) ↔ Untied size deps := by
  have valid : ∀ i < size, ∀ m ∈ deps i, m < size := fun i bound m edge => Nat.lt_trans (lower i bound m edge) bound
  obtain ⟨sorted,runs,h⟩ := sort_ordered size deps lower nodup
  have other : ∀ deps' : Nat → List Nat, (∀ i, (deps' i).Perm (deps i)) →
      ∃ sorted', sort size deps' = some sorted' ∧ Ordered size deps' sorted' := fun deps' perm =>
    sort_ordered size deps' (fun p bound i edge => lower p bound i ((perm p).mem_iff.mp edge))
      fun i bound => (perm i).nodup_iff.mpr (nodup i bound)
  constructor
  · intro stable
    have single : ∀ q a b, Releases size deps sorted q a → Releases size deps sorted q b → a = b := by
      intro q a b first second
      have perm : ∀ i, (Function.update deps q (deps q).reverse i).Perm (deps i) := by
        intro i
        by_cases own : i = q
        · subst own
          rw [Function.update_self]
          exact List.reverse_perm _
        · rw [Function.update_of_ne own]
      obtain ⟨sorted',runs',h'⟩ := other _ perm
      rw [stable _ perm,runs] at runs'
      obtain rfl := Option.some.inj runs'
      exact h.single h' valid first second
    intro a inA b inB apart
    rcases Nat.lt_trichotomy (sorted.idxOf a) (sorted.idxOf b) with less | same | more
    · exact .inl (h.forced single b inB a inA less)
    · exact absurd ((List.idxOf_inj (h.all a inA)).mp same) apart
    · exact .inr (h.forced single a inA b inB more)
  · intro untied deps' perm
    obtain ⟨sorted',runs',h'⟩ := other deps' perm
    rw [runs,runs',h.unique h' (fun i j => (perm i).mem_iff.symm) untied]

end Runs

end JkBuild.QueueOrder
