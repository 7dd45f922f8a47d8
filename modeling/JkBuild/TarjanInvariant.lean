import JkBuild.Tarjan

/-! The low-link argument. `gray` lists the rules whose search is still open. The
stack is sorted by discovery number, every stacked rule reaches an open rule found no
later, and every open rule reaches all that is stacked above it. -/
namespace JkBuild.Tarjan

open Reachability ComponentLog

structure Invariant (g : Graph n) (gray : List (Fin n)) (s : State n) : Prop where
  sorted : s.stack.Pairwise (fun a b => s.dfn b < s.dfn a)
  bounded : ∀ v, s.dfn v ≤ s.dfncnt
  inStack : ∀ v, s.inStack v = true ↔ v ∈ s.stack
  visited : ∀ v ∈ s.stack, s.dfn v ≠ 0
  stacked : ∀ v ∈ gray, v ∈ s.stack
  down : ∀ x ∈ s.stack, ∃ y ∈ gray, s.dfn y ≤ s.dfn x ∧ Reaches g x y
  up : ∀ x ∈ gray, ∀ y ∈ s.stack, s.dfn x ≤ s.dfn y → Reaches g x y
  next : ∀ v, s.dfn v ≠ 0 → v ∉ gray → ∀ d ∈ g v, s.dfn d ≠ 0
  owned : ∀ v, (∃ i, s.sccId v = some i) ↔ s.dfn v ≠ 0 ∧ v ∉ s.stack
  sound : Sound g s.log

/-- What a search from an unvisited `u` leaves alone, and where it got to. -/
structure Progress (g : Graph n) (u : Fin n) (s s' : State n) : Prop where
  count : s.dfncnt ≤ s'.dfncnt
  dfn : ∀ v, s.dfn v ≠ 0 → s'.dfn v = s.dfn v
  low : ∀ v, s.dfn v ≠ 0 → s'.low v = s.low v
  numbers : ∀ v, s.dfn v = 0 → s'.dfn v ≠ 0 → s.dfncnt < s'.dfn v
  stack : ∃ new, s'.stack = new ++ s.stack
  reached : ∀ v, s.dfn v = 0 → s'.dfn v ≠ 0 → Reaches g u v
  grows : s.sccs <+: s'.sccs
  exactly : Exact g s.log → Exact g s'.log

/-- The value a finished search hands to its caller: below every edge into the old
stack, and either useless (the component was closed) or attained on the stack. -/
structure LowLink (g : Graph n) (u : Fin n) (s s' : State n) : Prop where
  bound : ∀ x ∈ s'.stack, x ∉ s.stack → ∀ d ∈ g x, d ∈ s.stack → s'.low u ≤ s'.dfn d
  attained : s.dfncnt < s'.low u ∨ ∃ w ∈ s'.stack, s'.dfn w = s'.low u ∧ Reaches g u w

/-- Rules not yet visited; each nested search has fewer. -/
def white (s : State n) : Nat := (Finset.univ.filter (fun v => s.dfn v = 0)).card

theorem initial_invariant (g : Graph n) : Invariant g [] initial := by
  constructor <;> simp [initial]
  exact (empty_exact g).toSound

theorem Invariant.stack_nodup {g : Graph n} (h : Invariant g gray s) : s.stack.Nodup :=
  h.sorted.imp fun {a b} lt => by rintro rfl; exact Nat.lt_irrefl _ lt

theorem Invariant.unowned {g : Graph n} (h : Invariant g gray s) (member : v ∈ s.stack) :
    s.sccId v = none := by
  cases own : s.sccId v with
  | none => rfl
  | some i => exact absurd member ((h.owned v).mp ⟨i,own⟩).2

theorem Invariant.inStack_false {g : Graph n} (h : Invariant g gray s) (absent : v ∉ s.stack) :
    s.inStack v = false := by
  have := h.inStack v
  cases stacked : s.inStack v <;> simp_all

/-- Only `low` changes when a low-link is lowered, and no invariant mentions it. -/
theorem Invariant.lower {g : Graph n} (h : Invariant g gray s) (rule : Fin n) (value : Nat) :
    Invariant g gray (Tarjan.lower rule value s) :=
  ⟨h.sorted,h.bounded,h.inStack,h.visited,h.stacked,h.down,h.up,h.next,h.owned,h.sound⟩

section Enter

variable {g : Graph n} {gray : List (Fin n)} {u : Fin n} {s : State n}

theorem Invariant.enter (h : Invariant g gray s) (fresh : s.dfn u = 0)
    (access : ∀ x ∈ gray, Reaches g x u) : Invariant g (u :: gray) (Tarjan.enter u s) := by
  have off : u ∉ s.stack := fun member => h.visited u member fresh
  have other : ∀ v, v ∈ s.stack → v ≠ u := fun v member same => off (same ▸ member)
  have kept : ∀ v, v ∈ s.stack → (Tarjan.enter u s).dfn v = s.dfn v :=
    fun v member => enter_dfn_other s (other v member)
  have nonzero : ∀ v, s.dfn v ≠ 0 → (Tarjan.enter u s).dfn v ≠ 0 := by
    intro v seen
    by_cases same : v = u
    · rw [same,enter_dfn_self]; omega
    · rw [enter_dfn_other s same]; exact seen
  constructor
  · refine List.pairwise_cons.mpr ⟨fun b member => ?_,?_⟩
    · rw [kept b member,enter_dfn_self]
      exact Nat.lt_succ_of_le (h.bounded b)
    · refine h.sorted.imp_of_mem fun {a b} inA inB lt => ?_
      rw [kept a inA,kept b inB]
      exact lt
  · intro v
    by_cases same : v = u
    · subst same; simp [Tarjan.enter]
    · rw [enter_dfn_other s same]
      exact Nat.le_succ_of_le (h.bounded v)
  · intro v
    by_cases same : v = u
    · subst same; simp [Tarjan.enter]
    · simpa [Tarjan.enter,same] using h.inStack v
  · intro v member
    rcases List.mem_cons.mp member with rfl | member
    · rw [enter_dfn_self]; omega
    · exact nonzero v (h.visited v member)
  · intro v member
    rcases List.mem_cons.mp member with rfl | member
    · exact List.mem_cons_self
    · exact List.mem_cons_of_mem _ (h.stacked v member)
  · intro x member
    rcases List.mem_cons.mp member with rfl | member
    · exact ⟨x,List.mem_cons_self,Nat.le_refl _,.refl g x⟩
    · obtain ⟨y,open',le,path⟩ := h.down x member
      refine ⟨y,List.mem_cons_of_mem _ open',?_,path⟩
      rw [kept y (h.stacked y open'),kept x member]
      exact le
  · intro x open' y member le
    rcases List.mem_cons.mp member with rfl | below
    · rcases List.mem_cons.mp open' with rfl | open'
      · exact .refl g x
      · exact access x open'
    · rcases List.mem_cons.mp open' with rfl | older
      · rw [enter_dfn_self,kept y below] at le
        have := h.bounded y
        omega
      · rw [kept x (h.stacked x older),kept y below] at le
        exact h.up x older y below le
  · intro v seen closed d edge
    simp only [List.mem_cons,not_or] at closed
    rw [enter_dfn_other s closed.1] at seen
    exact nonzero d (h.next v seen closed.2 d edge)
  · intro v
    by_cases same : v = u
    · subst same
      have unowned := h.owned v
      simp only [fresh,ne_eq,not_true_eq_false,false_and,iff_false] at unowned
      simp only [Tarjan.enter,List.mem_cons,true_or,not_true_eq_false,and_false,iff_false]
      exact unowned
    · rw [enter_dfn_other s same]
      simpa [Tarjan.enter,same] using h.owned v
  · exact h.sound

theorem Progress.enter (fresh : s.dfn u = 0) : Progress g u s (Tarjan.enter u s) := by
  have other : ∀ v, s.dfn v ≠ 0 → v ≠ u := fun v seen same => seen (by rw [same]; exact fresh)
  have self : ∀ v, s.dfn v = 0 → (Tarjan.enter u s).dfn v ≠ 0 → v = u := by
    intro v unseen seen
    by_contra ne
    rw [enter_dfn_other s ne] at seen
    exact seen unseen
  refine ⟨Nat.le_succ _,fun v seen => enter_dfn_other s (other v seen),
    fun v seen => enter_low_other s (other v seen),fun v unseen seen => ?_,⟨[u],rfl⟩,
    fun v unseen seen => ?_,List.prefix_refl _,id⟩
  · rw [self v unseen seen,enter_dfn_self]
    exact Nat.lt_succ_self _
  · rw [self v unseen seen]
    exact .refl g u

end Enter

theorem Progress.lower {g : Graph n} (h : Progress g u s s') (fresh : s.dfn u = 0) (value : Nat) :
    Progress g u s (Tarjan.lower u value s') :=
  ⟨h.count,h.dfn,fun v seen => (lower_low_other value s' fun same => seen (by rw [same]; exact fresh)).trans (h.low v seen),
    h.numbers,h.stack,h.reached,h.grows,h.exactly⟩

theorem Progress.trans {g : Graph n} (first : Progress g u s s₁) (second : Progress g v s₁ s₂)
    (path : Reaches g u v) : Progress g u s s₂ where
  count := Nat.le_trans first.count second.count
  dfn := fun x seen => by
    rw [second.dfn x (by rw [first.dfn x seen]; exact seen),first.dfn x seen]
  low := fun x seen => by
    rw [second.low x (by rw [first.dfn x seen]; exact seen),first.low x seen]
  numbers := by
    intro x unseen seen
    by_cases zero : s₁.dfn x = 0
    · exact Nat.lt_of_le_of_lt first.count (second.numbers x zero seen)
    · rw [second.dfn x zero]
      exact first.numbers x unseen zero
  stack := by
    obtain ⟨new₁,eq₁⟩ := first.stack
    obtain ⟨new₂,eq₂⟩ := second.stack
    exact ⟨new₂ ++ new₁,by rw [eq₂,eq₁,List.append_assoc]⟩
  reached := by
    intro x unseen seen
    by_cases zero : s₁.dfn x = 0
    · exact path.trans (second.reached x zero seen)
    · exact first.reached x unseen zero
  grows := first.grows.trans second.grows
  exactly := fun h => second.exactly (first.exactly h)

theorem Progress.white_le {g : Graph n} (h : Progress g u s s') : white s' ≤ white s := by
  refine Finset.card_le_card fun v member => ?_
  simp only [Finset.mem_filter,Finset.mem_univ,true_and] at member ⊢
  by_contra seen
  exact seen (by rw [← h.dfn v seen]; exact member)

theorem white_enter_lt (s : State n) (fresh : s.dfn u = 0) : white (enter u s) < white s := by
  refine Finset.card_lt_card (Finset.ssubset_iff_of_subset ?_ |>.mpr ⟨u,by simpa using fresh,by simp⟩)
  intro v member
  simp only [Finset.mem_filter,Finset.mem_univ,true_and] at member ⊢
  by_cases same : v = u
  · rw [same,enter_dfn_self] at member; omega
  · rwa [enter_dfn_other s same] at member

/-- The loop over the dependencies of `u`, after those in `done`. The search was
entered in `s₀`, whose stack lies below `u`. -/
structure Scanning (g : Graph n) (gray : List (Fin n)) (u : Fin n) (s₀ : State n)
    (done : List (Fin n)) (s : State n) : Prop where
  invariant : Invariant g (u :: gray) s
  progress : Progress g u s₀ s
  stack : ∃ new, s.stack = new ++ u :: s₀.stack
  number : s.dfn u = s₀.dfncnt + 1
  scanned : ∀ d ∈ done, s.dfn d ≠ 0
  boundNew : ∀ x ∈ s.stack, x ∉ s₀.stack → x ≠ u → ∀ d ∈ g x, d ∈ s₀.stack → s.low u ≤ s.dfn d
  boundSelf : ∀ d ∈ done, d ∈ s₀.stack → s.low u ≤ s.dfn d
  lowLe : s.low u ≤ s.dfn u
  attained : ∃ w ∈ s.stack, s.dfn w = s.low u ∧ Reaches g u w

section Search

variable {g : Graph n} {gray : List (Fin n)} {u : Fin n} {s₀ : State n}

theorem Scanning.enter (h : Invariant g gray s₀) (fresh : s₀.dfn u = 0)
    (access : ∀ x ∈ gray, Reaches g x u) : Scanning g gray u s₀ [] (Tarjan.enter u s₀) where
  invariant := h.enter fresh access
  progress := .enter fresh
  stack := ⟨[],rfl⟩
  number := enter_dfn_self u s₀
  scanned := by simp
  boundNew := by
    intro x member off ne
    rcases List.mem_cons.mp member with same | member
    · exact absurd same ne
    · exact absurd member off
  boundSelf := by simp
  lowLe := by rw [enter_low_self,enter_dfn_self]
  attained := ⟨u,List.mem_cons_self,by rw [enter_low_self,enter_dfn_self],.refl g u⟩

theorem Scanning.self_visited (h : Scanning g gray u s₀ done s) : s.dfn u ≠ 0 := by
  rw [h.number]; omega

theorem Scanning.below (h : Scanning g gray u s₀ done s) (base : Invariant g gray s₀)
    (member : v ∈ s₀.stack) : v ∈ s.stack ∧ s.dfn v = s₀.dfn v ∧ s.dfn v < s.dfn u := by
  obtain ⟨new,eq⟩ := h.stack
  have kept := h.progress.dfn v (base.visited v member)
  refine ⟨by rw [eq]; simp [member],kept,?_⟩
  rw [kept,h.number]
  exact Nat.lt_succ_of_le (base.bounded v)

theorem Scanning.above (h : Scanning g gray u s₀ done s) (member : v ∈ s.stack)
    (off : v ∉ s₀.stack) : s.dfn u ≤ s.dfn v := by
  obtain ⟨new,eq⟩ := h.stack
  have sorted := h.invariant.sorted
  rw [eq] at member sorted
  rcases List.mem_append.mp member with inNew | tail
  · exact Nat.le_of_lt ((List.pairwise_append.mp sorted).2.2 v inNew u List.mem_cons_self)
  · rcases List.mem_cons.mp tail with rfl | below
    · exact Nat.le_refl _
    · exact absurd below off

theorem Scanning.old (h : Scanning g gray u s₀ done s) (fresh : s₀.dfn u = 0) (edge : v ∈ g u)
    (seen : s.dfn v ≠ 0) : Scanning g gray u s₀ (done ++ [v])
      (if s.inStack v then Tarjan.lower u (s.dfn v) s else s) := by
  by_cases stacked : s.inStack v = true
  · rw [if_pos stacked]
    have member := (h.invariant.inStack v).mp stacked
    refine ⟨h.invariant.lower u _,h.progress.lower fresh _,h.stack,h.number,?_,?_,?_,?_,?_⟩
    · intro d inside
      rcases List.mem_append.mp inside with inside | inside
      · exact h.scanned d inside
      · rw [List.mem_singleton.mp inside]; exact seen
    · intro x inside off ne d edge' below
      rw [lower_low_self]
      exact Nat.le_trans (Nat.min_le_left _ _) (h.boundNew x inside off ne d edge' below)
    · intro d inside below
      rw [lower_low_self]
      rcases List.mem_append.mp inside with inside | inside
      · exact Nat.le_trans (Nat.min_le_left _ _) (h.boundSelf d inside below)
      · rw [List.mem_singleton.mp inside]
        exact Nat.min_le_right _ _
    · rw [lower_low_self]
      exact Nat.le_trans (Nat.min_le_left _ _) h.lowLe
    · rw [lower_low_self]
      rcases Nat.le_total (s.low u) (s.dfn v) with le | le
      · rw [Nat.min_eq_left le]
        exact h.attained
      · rw [Nat.min_eq_right le]
        exact ⟨v,member,rfl,.single edge⟩
  · rw [if_neg stacked]
    have off : v ∉ s.stack := fun member => stacked ((h.invariant.inStack v).mpr member)
    refine ⟨h.invariant,h.progress,h.stack,h.number,?_,h.boundNew,?_,h.lowLe,h.attained⟩
    · intro d inside
      rcases List.mem_append.mp inside with inside | inside
      · exact h.scanned d inside
      · rw [List.mem_singleton.mp inside]; exact seen
    · intro d inside below
      rcases List.mem_append.mp inside with inside | inside
      · exact h.boundSelf d inside below
      · obtain ⟨new,eq⟩ := h.stack
        rw [List.mem_singleton.mp inside] at below
        exact absurd (by rw [eq]; simp [below]) off

theorem Scanning.returned (h : Scanning g gray u s₀ done s) (base : Invariant g gray s₀)
    (fresh : s₀.dfn u = 0) (edge : v ∈ g u) (inv : Invariant g (u :: gray) s₁)
    (progress : Progress g v s s₁) (visited : s₁.dfn v ≠ 0) (link : LowLink g v s s₁)
    (unseen : s.dfn v = 0) :
    Scanning g gray u s₀ (done ++ [v]) (Tarjan.lower u (s₁.low v) s₁) := by
  have lowU : s₁.low u = s.low u := progress.low u h.self_visited
  have dfnU : s₁.dfn u = s.dfn u := progress.dfn u h.self_visited
  obtain ⟨new₁,eq₁⟩ := progress.stack
  have keep : ∀ x, x ∈ s.stack → x ∈ s₁.stack := fun x member => by rw [eq₁]; simp [member]
  have below : ∀ d, d ∈ s₀.stack → d ∈ s.stack ∧ s₁.dfn d = s.dfn d := by
    intro d member
    have old := h.below base member
    exact ⟨old.1,progress.dfn d (h.invariant.visited d old.1)⟩
  refine ⟨inv.lower u _,(h.progress.trans progress (.single edge)).lower fresh _,?_,?_,?_,?_,?_,?_,?_⟩
  · obtain ⟨new,eq⟩ := h.stack
    exact ⟨new₁ ++ new,by show s₁.stack = _; rw [eq₁,eq,List.append_assoc]⟩
  · exact dfnU.trans h.number
  · intro d inside
    rcases List.mem_append.mp inside with inside | inside
    · show s₁.dfn d ≠ 0
      rw [progress.dfn d (h.scanned d inside)]
      exact h.scanned d inside
    · rw [List.mem_singleton.mp inside]; exact visited
  · intro x member off ne d edge' old
    rw [lower_low_self]
    show _ ≤ s₁.dfn d
    by_cases inOld : x ∈ s.stack
    · refine Nat.le_trans (Nat.min_le_left _ _) ?_
      rw [lowU,(below d old).2]
      exact h.boundNew x inOld off ne d edge' old
    · exact Nat.le_trans (Nat.min_le_right _ _) (link.bound x member inOld d edge' (below d old).1)
  · intro d inside old
    rw [lower_low_self]
    show _ ≤ s₁.dfn d
    rcases List.mem_append.mp inside with inside | inside
    · refine Nat.le_trans (Nat.min_le_left _ _) ?_
      rw [lowU,(below d old).2]
      exact h.boundSelf d inside old
    · rw [List.mem_singleton.mp inside] at old
      exact absurd unseen (h.invariant.visited v (below v old).1)
  · rw [lower_low_self]
    show _ ≤ s₁.dfn u
    refine Nat.le_trans (Nat.min_le_left _ _) ?_
    rw [lowU,dfnU]
    exact h.lowLe
  · rw [lower_low_self]
    show ∃ w ∈ s₁.stack, s₁.dfn w = _ ∧ _
    rcases Nat.le_total (s₁.low u) (s₁.low v) with le | le
    · rw [Nat.min_eq_left le,lowU]
      obtain ⟨w,member,number,path⟩ := h.attained
      exact ⟨w,keep w member,by rw [progress.dfn w (h.invariant.visited w member)]; exact number,path⟩
    · rw [Nat.min_eq_right le]
      rcases link.attained with useless | ⟨w,member,number,path⟩
      · -- A closed component returns a number above every stacked one.
        have := h.invariant.bounded u
        have := h.lowLe
        omega
      · exact ⟨w,member,number,.head edge path⟩

/-- All dependencies are done and a smaller number is reachable: `u` stays stacked. -/
theorem Scanning.retire (h : Scanning g gray u s₀ (g u) s) (base : Invariant g gray s₀)
    (lt : s.low u < s.dfn u) : Invariant g gray s := by
  obtain ⟨w,stacked,number,path⟩ := h.attained
  have inBase : w ∈ s₀.stack := by
    by_contra off
    have := h.above stacked off
    omega
  obtain ⟨y,open',le,onward⟩ := base.down w inBase
  have inv := h.invariant
  refine ⟨inv.sorted,inv.bounded,inv.inStack,inv.visited,?_,?_,?_,?_,inv.owned,inv.sound⟩
  · exact fun v member => inv.stacked v (List.mem_cons_of_mem _ member)
  · intro x member
    obtain ⟨z,openZ,leZ,pathZ⟩ := inv.down x member
    rcases List.mem_cons.mp openZ with rfl | openZ
    · refine ⟨y,open',?_,pathZ.trans (path.trans onward)⟩
      have lower := h.below base inBase
      have lowerY := h.below base (base.stacked y open')
      omega
    · exact ⟨z,openZ,leZ,pathZ⟩
  · exact fun x openX => inv.up x (List.mem_cons_of_mem _ openX)
  · intro v seen closed d edge
    by_cases same : v = u
    · rw [same] at edge
      exact h.scanned d edge
    · exact inv.next v seen (by simp [same,closed]) d edge

theorem Scanning.retire_link (h : Scanning g gray u s₀ (g u) s) : LowLink g u s₀ s where
  bound := by
    intro x member off d edge below
    by_cases same : x = u
    · rw [same] at edge
      exact h.boundSelf d edge below
    · exact h.boundNew x member off same d edge below
  attained := .inr h.attained

/-- When the number of `u` was not lowered, the rules stacked above it and `u` itself
form a fresh emission: no dependency of theirs is still open below. -/
theorem Scanning.emits (h : Scanning g gray u s₀ (g u) s) (base : Invariant g gray s₀)
    (access : ∀ x ∈ gray, Reaches g x u) (root : s.low u = s.dfn u)
    (eq : s.stack = new ++ u :: s₀.stack) :
    (∀ a ∈ new ++ [u], ∀ d ∈ g a, d ∈ new ++ [u] ∨ ∃ i, s.sccId d = some i) ∧
    (∀ a ∈ new ++ [u], s.sccId a = none) ∧ (new ++ [u]).Nodup ∧
    ∀ a ∈ new ++ [u], ∀ b ∈ new ++ [u], Mutual g a b := by
  have split : s.stack = (new ++ [u]) ++ s₀.stack := by rw [eq]; simp
  have nodup := h.invariant.stack_nodup
  rw [split] at nodup
  obtain ⟨nodupScc,-,disjoint⟩ := List.nodup_append.mp nodup
  have stacked : ∀ a ∈ new ++ [u], a ∈ s.stack ∧ a ∉ s₀.stack := by
    intro a member
    exact ⟨by rw [split]; exact List.mem_append_left _ member,fun old => disjoint a member a old rfl⟩
  have toRoot : ∀ a ∈ new ++ [u], Reaches g a u := by
    intro a member
    obtain ⟨y,open',-,path⟩ := h.invariant.down a (stacked a member).1
    rcases List.mem_cons.mp open' with rfl | open'
    · exact path
    · exact path.trans (access y open')
  have fromRoot : ∀ b ∈ new ++ [u], Reaches g u b := by
    intro b member
    exact h.invariant.up u List.mem_cons_self b (stacked b member).1
      (h.above (stacked b member).1 (stacked b member).2)
  refine ⟨fun a member d edge => ?_,fun a member => h.invariant.unowned (stacked a member).1,
    nodupScc,fun a inA b inB => ⟨(toRoot a inA).trans (fromRoot b inB),(toRoot b inB).trans (fromRoot a inA)⟩⟩
  have seen : s.dfn d ≠ 0 := by
    by_cases same : a = u
    · rw [same] at edge
      exact h.scanned d edge
    · refine h.invariant.next a (h.invariant.visited a (stacked a member).1) ?_ d edge
      simp only [List.mem_cons,same,false_or]
      exact fun open' => (stacked a member).2 (base.stacked a open')
  by_cases onStack : d ∈ s.stack
  · left
    rw [split] at onStack
    refine (List.mem_append.mp onStack).resolve_right fun old => ?_
    have bound : s.low u ≤ s.dfn d := by
      by_cases same : a = u
      · rw [same] at edge
        exact h.boundSelf d edge old
      · exact h.boundNew a (stacked a member).1 (stacked a member).2 same d edge old
    have := h.below base old
    omega
  · exact .inr ((h.invariant.owned d).mpr ⟨seen,onStack⟩)

theorem Scanning.close (h : Scanning g gray u s₀ (g u) s) (base : Invariant g gray s₀)
    (access : ∀ x ∈ gray, Reaches g x u) (root : s.low u = s.dfn u)
    (order : HashOrder) :
    ∃ s', Tarjan.close g order u s = .ok s' ∧ Invariant g gray s' ∧ Progress g u s₀ s' ∧
      s'.dfn u ≠ 0 ∧ LowLink g u s₀ s' := by
  obtain ⟨new,eq⟩ := h.stack
  have inv := h.invariant
  have split : s.stack = (new ++ [u]) ++ s₀.stack := by rw [eq]; simp
  have nodup := inv.stack_nodup
  rw [split] at nodup
  have disjoint := (List.nodup_append.mp nodup).2.2
  have off : u ∉ new := by
    have := (List.nodup_append.mp nodup).1
    grind
  obtain ⟨covered,unowned,nodupScc,connected⟩ := h.emits base access root eq
  have popped := popScc_append u new s₀.stack off
  rw [← eq] at popped
  obtain ⟨deps,closes,emits⟩ := close_emits g order s inv.sound popped covered
  have kept : ∀ v ∈ s₀.stack, s.dfn v = s₀.dfn v := fun v member => (h.below base member).2.1
  refine ⟨_,closes,⟨?_,inv.bounded,?_,?_,base.stacked,?_,?_,?_,?_,?_⟩,?_,h.self_visited,?_⟩
  · have sorted := inv.sorted
    rw [split] at sorted
    exact (List.pairwise_append.mp sorted).2.1
  · intro v
    by_cases member : v ∈ new ++ [u]
    · have absent : v ∉ s₀.stack := fun old => disjoint v member v old rfl
      simp only [closed,member,if_true,absent,Bool.false_eq_true]
    · have := inv.inStack v
      simp only [split,List.mem_append,member,false_or] at this
      simpa only [closed,member,if_false] using this
  · exact fun v member => inv.visited v (h.below base member).1
  · intro x member
    obtain ⟨y,open',le,path⟩ := base.down x member
    refine ⟨y,open',?_,path⟩
    show s.dfn y ≤ s.dfn x
    rw [kept y (base.stacked y open'),kept x member]
    exact le
  · intro x open' y member le
    change s.dfn x ≤ s.dfn y at le
    rw [kept x (base.stacked x open'),kept y member] at le
    exact base.up x open' y member le
  · intro v seen closed' d edge
    by_cases same : v = u
    · rw [same] at edge
      exact h.scanned d edge
    · exact inv.next v seen (by simp [same,closed']) d edge
  · intro v
    by_cases member : v ∈ new ++ [u]
    · have absent : v ∉ s₀.stack := fun old => disjoint v member v old rfl
      have seen : s.dfn v ≠ 0 := inv.visited v (by rw [split]; exact List.mem_append_left _ member)
      simp only [closed,member,if_true,Option.some.injEq,exists_eq',absent,not_false_eq_true,
        and_true,true_iff]
      exact seen
    · have := inv.owned v
      simp only [split,List.mem_append,member,false_or] at this
      simpa only [closed,member,if_false] using this
  · rw [closed_log]
    exact emit_sound inv.sound emits
  · have progress := h.progress
    refine ⟨progress.count,progress.dfn,progress.low,progress.numbers,⟨[],rfl⟩,progress.reached,
      progress.grows.trans (List.prefix_append _ _),fun distinct => ?_⟩
    rw [closed_log]
    exact emit_exact (progress.exactly distinct) ⟨emits,nodupScc,unowned,connected⟩
  · refine ⟨fun x member absent => absurd member absent,.inl ?_⟩
    show s₀.dfncnt < s.low u
    rw [root,h.number]
    exact Nat.lt_succ_self _

end Search

/-- The search from an unvisited rule returns, keeps the invariant of its caller and
hands back a correct low-link. By induction on the fuel; the dependencies of the rule
are scanned left to right. -/
theorem dfs_spec (g : Graph n) (order : HashOrder) (fuel : Nat) (gray : List (Fin n)) (u : Fin n)
    (s : State n) (inv : Invariant g gray s) (fresh : s.dfn u = 0)
    (access : ∀ x ∈ gray, Reaches g x u) (enough : white s ≤ fuel) :
    ∃ s', dfs g order fuel u s = .ok s' ∧ Invariant g gray s' ∧ Progress g u s s' ∧
      s'.dfn u ≠ 0 ∧ LowLink g u s s' := by
  induction fuel generalizing gray u s with
  | zero =>
    have := white_enter_lt s fresh
    omega
  | succ fuel ih =>
    have scan : ∀ rest done s₁, g u = done ++ rest → Scanning g gray u s done s₁ →
        white s₁ ≤ fuel → ∃ s₂, rest.foldlM (visitDep (dfs g order fuel) u) s₁ = .ok s₂ ∧
          Scanning g gray u s (g u) s₂ := by
      intro rest
      induction rest with
      | nil =>
        intro done s₁ all scanning _
        rw [List.append_nil] at all
        exact ⟨s₁,rfl,all ▸ scanning⟩
      | cons v rest ihRest =>
        intro done s₁ all scanning few
        have edge : v ∈ g u := by rw [all]; simp
        have all' : g u = (done ++ [v]) ++ rest := by rw [all]; simp
        by_cases unseen : s₁.dfn v = 0
        · have access' : ∀ x ∈ u :: gray, Reaches g x v := by
            intro x open'
            rcases List.mem_cons.mp open' with rfl | open'
            · exact .single edge
            · exact (access x open').tail edge
          obtain ⟨s₂,runs,inv₂,progress,visited,link⟩ :=
            ih (u :: gray) v s₁ scanning.invariant unseen access' few
          have next := scanning.returned inv fresh edge inv₂ progress visited link unseen
          obtain ⟨s₃,folds,finished⟩ := ihRest (done ++ [v]) _ all' next
            (Nat.le_trans progress.white_le few)
          refine ⟨s₃,?_,finished⟩
          rw [List.foldlM_cons]
          simpa [visitDep,unseen,runs] using folds
        · have next := scanning.old fresh edge unseen
          obtain ⟨s₃,folds,finished⟩ := ihRest (done ++ [v]) _ all' next (by split <;> exact few)
          refine ⟨s₃,?_,finished⟩
          rw [List.foldlM_cons]
          by_cases stacked : s₁.inStack v = true
          · simpa [visitDep,unseen,stacked] using folds
          · simpa [visitDep,unseen,stacked] using folds
    obtain ⟨s₂,folds,scanned⟩ := scan (g u) [] _ rfl (.enter inv fresh access)
      (Nat.le_of_lt_succ (Nat.lt_of_lt_of_le (white_enter_lt s fresh) enough))
    simp only [dfs,folds,finish]
    by_cases root : s₂.low u = s₂.dfn u
    · rw [if_pos root]
      exact scanned.close inv access root order
    · rw [if_neg root]
      have lt : s₂.low u < s₂.dfn u := Nat.lt_of_le_of_ne scanned.lowLe root
      exact ⟨s₂,rfl,scanned.retire inv lt,scanned.progress,scanned.self_visited,scanned.retire_link⟩

end JkBuild.Tarjan
