import JkBuild.LinkLine
import JkBuild.RootMakefile

/-! The search of `core/algorithms/tarjan.hh` on the vectors it is written with: reads and
writes are checked against their lengths, `stack.top()` against the empty stack, and a
component is popped one rule at a time. The search on functions simulates it. -/
namespace JkBuild.TarjanVectors

open Reachability ComponentLog Tarjan ComponentOrder

/-- Object ids tell the rules apart and lie below the counter that they were drawn from. -/
structure ObjectIds (n : Nat) where
  objectId : Fin n → Nat
  currentObjectId : Nat
  bounded : ∀ rule, objectId rule < currentObjectId
  distinct : Function.Injective objectId

inductive Fault where
  | exhausted
  | outOfBounds
  | emptyStack
  | unassigned
  deriving DecidableEq, Repr

/-- `sccId` is the field of the rule, -1 at first. -/
structure State (n : Nat) where
  dfncnt : Nat
  stack : List (Fin n)
  sccs : List (StronglyConnectedComponent n)
  low : List Nat
  dfn : List Nat
  inStack : List Bool
  sccId : Fin n → Int

def fetch (vector : List α) (i : Nat) : Except Fault α :=
  match vector[i]? with
  | none => .error .outOfBounds
  | some value => .ok value

def store (vector : List α) (i : Nat) (value : α) : Except Fault (List α) :=
  if i < vector.length then .ok (vector.set i value) else .error .outOfBounds

def top (stack : List (Fin n)) : Except Fault (Fin n) :=
  match stack with
  | [] => .error .emptyStack
  | rule :: _ => .ok rule

def initial (ids : ObjectIds n) : State n where
  dfncnt := 0
  stack := []
  sccs := []
  low := List.replicate ids.currentObjectId 0
  dfn := List.replicate ids.currentObjectId 0
  inStack := List.replicate ids.currentObjectId false
  sccId _ := -1

def enter (ids : ObjectIds n) (rule : Fin n) (s : State n) : Except Fault (State n) := do
  let u := ids.objectId rule
  let dfn ← store s.dfn u (s.dfncnt + 1)
  let low ← store s.low u (s.dfncnt + 1)
  let inStack ← store s.inStack u true
  .ok { s with dfncnt := s.dfncnt + 1, low, dfn, stack := rule :: s.stack, inStack }

def lower (ids : ObjectIds n) (rule : Fin n) (value : Nat) (s : State n) : Except Fault (State n) := do
  let u := ids.objectId rule
  let old ← fetch s.low u
  let low ← store s.low u (min old value)
  .ok { s with low }

def visitDep (ids : ObjectIds n) (dfs : Fin n → State n → Except Fault (State n)) (rule : Fin n)
    (s : State n) (dep : Fin n) : Except Fault (State n) := do
  let v := ids.objectId dep
  let number ← fetch s.dfn v
  if number = 0 then
    let s ← dfs dep s
    let value ← fetch s.low v
    lower ids rule value s
  else
    let stacked ← fetch s.inStack v
    if stacked then lower ids rule number s else .ok s

/-- Moves the top of the stack into the component with index `id`. -/
def popTop (ids : ObjectIds n) (id : Nat) (s : State n) (scc : List (Fin n)) :
    Except Fault (State n × List (Fin n)) := do
  let rule ← top s.stack
  let inStack ← store s.inStack (ids.objectId rule) false
  .ok ({ s with stack := s.stack.tail, inStack, sccId := Function.update s.sccId rule id },scc ++ [rule])

def popLoop (ids : ObjectIds n) (id : Nat) (rule : Fin n) : Nat → State n → List (Fin n) →
    Except Fault (State n × List (Fin n))
  | 0, _, _ => .error .exhausted
  | fuel + 1, s, scc => do
    let last ← top s.stack
    if last = rule then .ok (s,scc)
    else
      let (s,scc) ← popTop ids id s scc
      popLoop ids id rule fuel s scc

def insertDeps (g : Graph n) (sccId : Fin n → Int) (id : Nat) (scc : List (Fin n)) :
    Except Fault (List Nat) :=
  (scc.flatMap g).foldlM (fun deps d =>
    if sccId d < 0 then .error .unassigned
    else .ok (if sccId d = id then deps else deps.insert (sccId d).toNat)) []

def close (ids : ObjectIds n) (g : Graph n) (order : HashOrder) (rule : Fin n) (s : State n) :
    Except Fault (State n) := do
  let id := s.sccs.length
  let (s,scc) ← popLoop ids id rule (s.stack.length + 1) s []
  -- The loop left `rule` on top, as the source asserts here.
  let (s,scc) ← popTop ids id s scc
  let deps ← insertDeps g s.sccId id scc
  .ok { s with sccs := s.sccs ++ [⟨scc,order.toVector id deps⟩] }

def finish (ids : ObjectIds n) (g : Graph n) (order : HashOrder) (rule : Fin n) (s : State n) :
    Except Fault (State n) := do
  let low ← fetch s.low (ids.objectId rule)
  let number ← fetch s.dfn (ids.objectId rule)
  if low = number then close ids g order rule s else .ok s

def dfs (ids : ObjectIds n) (g : Graph n) (order : HashOrder) : Nat → Fin n → State n → Except Fault (State n)
  | 0, _, _ => .error .exhausted
  | fuel + 1, rule, s => do
    let s ← enter ids rule s
    let s ← (g rule).foldlM (visitDep ids (dfs ids g order fuel) rule) s
    finish ids g order rule s

def tarjan (ids : ObjectIds n) (g : Graph n) (order : HashOrder) (roots : List (Fin n)) :
    Except Fault (State n) :=
  roots.foldlM (fun s x => dfs ids g order (n + 1) x s) (initial ids)

def field : Option Nat → Int
  | none => -1
  | some id => id

/-- The vector holds the values of a function at the object ids. -/
def Holds (ids : ObjectIds n) (vector : List α) (f : Fin n → α) : Prop :=
  ∀ rule, vector[ids.objectId rule]? = some (f rule)

structure Represents (ids : ObjectIds n) (v : State n) (s : Tarjan.State n) : Prop where
  dfncnt : v.dfncnt = s.dfncnt
  stack : v.stack = s.stack
  sccs : v.sccs = s.sccs
  low : Holds ids v.low s.low
  dfn : Holds ids v.dfn s.dfn
  inStack : Holds ids v.inStack s.inStack
  sccId : ∀ rule, v.sccId rule = field (s.sccId rule)

section Access

variable {ids : ObjectIds n} {vector : List α} {f : Fin n → α}

theorem Holds.replicate (value : α) : Holds ids (List.replicate ids.currentObjectId value) fun _ => value := by
  intro rule
  simp [ids.bounded rule]

theorem Holds.fetch (h : Holds ids vector f) (rule : Fin n) :
    TarjanVectors.fetch vector (ids.objectId rule) = .ok (f rule) := by
  simp [TarjanVectors.fetch,h rule]

theorem Holds.store (h : Holds ids vector f) (rule : Fin n) (value : α) :
    ∃ vector', TarjanVectors.store vector (ids.objectId rule) value = .ok vector' ∧
      Holds ids vector' (Function.update f rule value) := by
  have bound : ids.objectId rule < vector.length := (List.getElem?_eq_some_iff.mp (h rule)).1
  refine ⟨vector.set (ids.objectId rule) value,if_pos bound,fun other => ?_⟩
  by_cases same : other = rule
  · subst same
    simp [bound]
  · have apart : ids.objectId rule ≠ ids.objectId other := fun equal => same (ids.distinct equal).symm
    rw [List.getElem?_set_ne apart,h other,Function.update_of_ne same]

end Access

theorem initial_represents (ids : ObjectIds n) : Represents ids (initial ids) Tarjan.initial :=
  ⟨rfl,rfl,rfl,.replicate 0,.replicate 0,.replicate false,fun _ => rfl⟩

section Steps

variable {ids : ObjectIds n} {v : State n} {s : Tarjan.State n}

theorem Represents.enter (h : Represents ids v s) (rule : Fin n) :
    ∃ v', TarjanVectors.enter ids rule v = .ok v' ∧ Represents ids v' (Tarjan.enter rule s) := by
  obtain ⟨dfn,wroteDfn,holdsDfn⟩ := h.dfn.store rule (v.dfncnt + 1)
  obtain ⟨low,wroteLow,holdsLow⟩ := h.low.store rule (v.dfncnt + 1)
  obtain ⟨inStack,wroteStack,holdsStack⟩ := h.inStack.store rule true
  refine ⟨⟨v.dfncnt + 1,rule :: v.stack,v.sccs,low,dfn,inStack,v.sccId⟩,?_,?_⟩
  · simp [TarjanVectors.enter,wroteDfn,wroteLow,wroteStack]
  · rw [h.dfncnt] at holdsDfn holdsLow
    exact ⟨by simp [Tarjan.enter,h.dfncnt],by simp [Tarjan.enter,h.stack],h.sccs,holdsLow,holdsDfn,
      holdsStack,h.sccId⟩

theorem Represents.lower (h : Represents ids v s) (rule : Fin n) (value : Nat) :
    ∃ v', TarjanVectors.lower ids rule value v = .ok v' ∧ Represents ids v' (Tarjan.lower rule value s) := by
  obtain ⟨low,wrote,holds⟩ := h.low.store rule (min (s.low rule) value)
  refine ⟨{ v with low },?_,⟨h.dfncnt,h.stack,h.sccs,holds,h.dfn,h.inStack,h.sccId⟩⟩
  simp [TarjanVectors.lower,h.low.fetch rule,wrote]

/-- Given that the nested search is simulated, so is the body of the loop. -/
theorem Represents.visitDep (h : Represents ids v s) {nested : Fin n → State n → Except Fault (State n)}
    {nested' : Fin n → Tarjan.State n → Except Tarjan.Fault (Tarjan.State n)}
    (simulated : ∀ dep v s s', Represents ids v s → nested' dep s = .ok s' →
      ∃ v', nested dep v = .ok v' ∧ Represents ids v' s')
    (runs : Tarjan.visitDep nested' rule s dep = .ok s') :
    ∃ v', TarjanVectors.visitDep ids nested rule v dep = .ok v' ∧ Represents ids v' s' := by
  unfold Tarjan.visitDep at runs
  simp only [TarjanVectors.visitDep,h.dfn.fetch dep,ok_bind]
  split at runs
  · next unseen =>
    cases inner : nested' dep s with
    | error fault => simp [inner] at runs
    | ok s₁ =>
      obtain ⟨v₁,runs₁,h₁⟩ := simulated dep v s s₁ h inner
      obtain ⟨v',lowered,h'⟩ := h₁.lower rule (s₁.low dep)
      rw [inner] at runs
      obtain rfl := Except.ok.inj runs
      exact ⟨v',by simp [unseen,runs₁,h₁.low.fetch dep,lowered],h'⟩
  · next seen =>
    rw [if_neg seen,h.inStack.fetch dep,ok_bind]
    split at runs
    · next stacked =>
      obtain rfl := Except.ok.inj runs
      rw [if_pos stacked]
      exact h.lower rule (s.dfn dep)
    · next off =>
      obtain rfl := Except.ok.inj runs
      exact ⟨v,if_neg off,h⟩

end Steps

/-- What moving the rules `moved` from the stack into the component `id` changes. The vector
`in_stack` held `f` before. -/
structure Moved (ids : ObjectIds n) (id : Nat) (f : Fin n → Bool) (v v' : State n) (moved rest : List (Fin n)) :
    Prop where
  dfncnt : v'.dfncnt = v.dfncnt
  stack : v'.stack = rest
  sccs : v'.sccs = v.sccs
  low : v'.low = v.low
  dfn : v'.dfn = v.dfn
  inStack : Holds ids v'.inStack fun rule => if rule ∈ moved then false else f rule
  sccId : ∀ rule, v'.sccId rule = if rule ∈ moved then (id : Int) else v.sccId rule

section Popping

variable {ids : ObjectIds n} {id : Nat} {f : Fin n → Bool} {v v₁ v₂ : State n} {rule : Fin n}
  {moved above rest : List (Fin n)}

theorem Moved.nil (h : Holds ids v.inStack f) (all : v.stack = rest) : Moved ids id f v v [] rest :=
  ⟨rfl,all,rfl,rfl,rfl,by simpa using h,by simp⟩

theorem Moved.append (first : Moved ids id f v v₁ moved (above ++ rest))
    (second : Moved ids id (fun rule => if rule ∈ moved then false else f rule) v₁ v₂ above rest) :
    Moved ids id f v v₂ (moved ++ above) rest := by
  refine ⟨second.dfncnt.trans first.dfncnt,second.stack,second.sccs.trans first.sccs,second.low.trans first.low,
    second.dfn.trans first.dfn,fun rule => ?_,fun rule => ?_⟩
  · rw [second.inStack rule]
    grind
  · rw [second.sccId rule,first.sccId rule]
    grind

theorem popTop_moved (id : Nat) (h : Holds ids v.inStack f) (all : v.stack = rule :: rest) (scc : List (Fin n)) :
    ∃ v', popTop ids id v scc = .ok (v',scc ++ [rule]) ∧ Moved ids id f v v' [rule] rest := by
  obtain ⟨inStack,wrote,holds⟩ := h.store rule false
  refine ⟨⟨v.dfncnt,rest,v.sccs,v.low,v.dfn,inStack,Function.update v.sccId rule id⟩,?_,?_⟩
  · simp [popTop,all,top,wrote]
  · refine ⟨rfl,rfl,rfl,rfl,rfl,fun other => ?_,fun other => ?_⟩
    · rw [holds other]
      by_cases same : other = rule
      · subst same; simp
      · simp [same]
    · by_cases same : other = rule
      · subst same; simp
      · simp [same]

theorem popLoop_moved (id : Nat) (above : List (Fin n)) (f : Fin n → Bool) (v : State n) (scc : List (Fin n))
    (h : Holds ids v.inStack f) (all : v.stack = above ++ rule :: rest) (first : rule ∉ above)
    (enough : above.length < fuel) :
    ∃ v', popLoop ids id rule fuel v scc = .ok (v',scc ++ above) ∧ Moved ids id f v v' above (rule :: rest) := by
  induction above generalizing f v scc fuel with
  | nil =>
    obtain ⟨fuel,rfl⟩ : ∃ k, fuel = k + 1 := ⟨fuel - 1,by simp at enough; omega⟩
    have done : popLoop ids id rule (fuel + 1) v scc = .ok (v,scc) := by simp [popLoop,all,top]
    exact ⟨v,by simpa using done,.nil h all⟩
  | cons last above ih =>
    obtain ⟨fuel,rfl⟩ : ∃ k, fuel = k + 1 := ⟨fuel - 1,by simp at enough; omega⟩
    simp only [List.mem_cons,not_or] at first
    obtain ⟨v₁,popped,moved₁⟩ := popTop_moved id h all scc
    obtain ⟨v₂,rest',moved₂⟩ := ih _ v₁ (scc ++ [last]) moved₁.inStack moved₁.stack first.2
      (by simp at enough; omega)
    refine ⟨v₂,?_,by simpa using moved₁.append moved₂⟩
    have unequal : last ≠ rule := Ne.symm first.1
    simp [popLoop,all,top,unequal,popped,rest']

theorem pop_moved (id : Nat) (h : Holds ids v.inStack f) (all : v.stack = above ++ rule :: rest) (first : rule ∉ above) :
    ∃ v₁ v', popLoop ids id rule (v.stack.length + 1) v [] = .ok (v₁,above) ∧
      popTop ids id v₁ above = .ok (v',above ++ [rule]) ∧ Moved ids id f v v' (above ++ [rule]) rest := by
  have enough : above.length < v.stack.length + 1 := by
    rw [all,List.length_append]
    omega
  obtain ⟨v₁,looped,moved₁⟩ := popLoop_moved id above f v [] h all first enough
  obtain ⟨v',popped,moved₂⟩ := popTop_moved id moved₁.inStack moved₁.stack above
  exact ⟨v₁,v',by simpa using looped,popped,moved₁.append moved₂⟩

end Popping

theorem popScc_split (stack : List (Fin n)) (popped : popScc rule stack = some (scc,rest)) :
    ∃ above, stack = above ++ rule :: rest ∧ scc = above ++ [rule] ∧ rule ∉ above := by
  induction stack generalizing scc with
  | nil => simp [popScc] at popped
  | cons last stack ih =>
    rw [popScc] at popped
    split at popped
    · next same =>
      obtain ⟨rfl,rfl⟩ := Prod.mk.inj (Option.some.inj popped)
      exact ⟨[],by simp [same],rfl,by simp⟩
    · next unequal =>
      obtain ⟨⟨scc',rest'⟩,inner,same⟩ := Option.map_eq_some_iff.mp popped
      obtain ⟨rfl,rfl⟩ := Prod.mk.inj same
      obtain ⟨above,rfl,rfl,first⟩ := ih inner
      exact ⟨last :: above,rfl,rfl,by simp [first,Ne.symm unequal]⟩

theorem insertDeps_field (g : Graph n) (sccId : Fin n → Option Nat) (sccId' : Fin n → Int)
    (fields : ∀ rule, sccId' rule = field (sccId rule)) (id : Nat) (scc : List (Fin n))
    (inserted : Tarjan.insertDeps g sccId id scc = .ok deps) : insertDeps g sccId' id scc = .ok deps := by
  unfold Tarjan.insertDeps at inserted
  unfold insertDeps
  generalize scc.flatMap g = ds at inserted ⊢
  generalize ([] : List Nat) = start at inserted ⊢
  induction ds generalizing start with
  | nil =>
    obtain rfl := Except.ok.inj inserted
    rfl
  | cons d ds ih =>
    rw [List.foldlM_cons] at inserted ⊢
    obtain ⟨next,one,rest⟩ := bind_ok inserted
    cases own : sccId d with
    | none => simp [own] at one
    | some j =>
      have same : sccId' d = j := by simp [fields,own,field]
      simp only [own,Except.ok.injEq] at one
      have step : (if sccId' d < 0 then .error .unassigned
          else .ok (if sccId' d = id then start else start.insert (sccId' d).toNat)) =
          (.ok next : Except Fault (List Nat)) := by simp [same,one]
      rw [step]
      exact ih next rest

section Search

variable {ids : ObjectIds n} {g : Graph n} {order : HashOrder} {v : State n} {s s' : Tarjan.State n}

theorem Represents.close (h : Represents ids v s) (runs : Tarjan.close g order rule s = .ok s') :
    ∃ v', TarjanVectors.close ids g order rule v = .ok v' ∧ Represents ids v' s' := by
  unfold Tarjan.close at runs
  cases popped : popScc rule s.stack with
  | none => simp [popped] at runs
  | some split =>
    obtain ⟨scc,rest⟩ := split
    simp only [popped] at runs
    obtain ⟨above,all,rfl,first⟩ := popScc_split s.stack popped
    rw [← h.stack] at all
    obtain ⟨v₁,v₂,looped,last,moved⟩ := pop_moved v.sccs.length h.inStack all first
    have length : v.sccs.length = s.sccs.length := by rw [h.sccs]
    have fields : ∀ r, v₂.sccId r = field (if r ∈ above ++ [rule] then some s.sccs.length else s.sccId r) := by
      intro r
      rw [moved.sccId r,length]
      split
      · rfl
      · exact h.sccId r
    cases inserted : Tarjan.insertDeps g (fun r => if r ∈ above ++ [rule] then some s.sccs.length else s.sccId r)
        s.sccs.length (above ++ [rule]) with
    | error fault =>
      rw [inserted] at runs
      contradiction
    | ok deps =>
      rw [inserted] at runs
      obtain rfl := Except.ok.inj runs
      have inserted' := insertDeps_field g _ _ fields _ _ inserted
      rw [← length] at inserted'
      refine ⟨{ v₂ with sccs := v₂.sccs ++ [⟨above ++ [rule],order.toVector v.sccs.length deps⟩] },?_,?_⟩
      · simp only [TarjanVectors.close,looped,ok_bind,last,inserted']
      · refine ⟨moved.dfncnt.trans h.dfncnt,moved.stack,?_,?_,?_,moved.inStack,fields⟩
        · simp [closed,moved.sccs,h.sccs]
        · rw [moved.low]
          exact h.low
        · rw [moved.dfn]
          exact h.dfn

theorem Represents.finish (h : Represents ids v s) (runs : Tarjan.finish g order rule s = .ok s') :
    ∃ v', TarjanVectors.finish ids g order rule v = .ok v' ∧ Represents ids v' s' := by
  unfold Tarjan.finish at runs
  simp only [TarjanVectors.finish,h.low.fetch rule,h.dfn.fetch rule,ok_bind]
  split at runs
  · next root =>
    rw [if_pos root]
    exact h.close runs
  · next inner =>
    obtain rfl := Except.ok.inj runs
    exact ⟨v,if_neg inner,h⟩

theorem foldlM_represents (body : State n → Fin n → Except Fault (State n))
    (body' : Tarjan.State n → Fin n → Except Tarjan.Fault (Tarjan.State n))
    (simulated : ∀ rule v s s', Represents ids v s → body' s rule = .ok s' →
      ∃ v', body v rule = .ok v' ∧ Represents ids v' s')
    (rules : List (Fin n)) (h : Represents ids v s) (runs : rules.foldlM body' s = .ok s') :
    ∃ v', rules.foldlM body v = .ok v' ∧ Represents ids v' s' := by
  induction rules generalizing v s with
  | nil =>
    obtain rfl := Except.ok.inj runs
    exact ⟨v,rfl,h⟩
  | cons rule rules ih =>
    rw [List.foldlM_cons] at runs
    obtain ⟨s₁,first,rest⟩ := bind_ok runs
    obtain ⟨v₁,first',h₁⟩ := simulated rule v s s₁ h first
    obtain ⟨v',rest',h'⟩ := ih h₁ rest
    exact ⟨v',by rw [List.foldlM_cons,first',ok_bind,rest'],h'⟩

/-- A search on functions that returns is simulated by the search on vectors. -/
theorem dfs_represents (fuel : Nat) (rule : Fin n) (v : State n) (s s' : Tarjan.State n) (h : Represents ids v s)
    (runs : Tarjan.dfs g order fuel rule s = .ok s') :
    ∃ v', dfs ids g order fuel rule v = .ok v' ∧ Represents ids v' s' := by
  induction fuel generalizing rule v s s' with
  | zero => contradiction
  | succ fuel ih =>
    simp only [Tarjan.dfs] at runs
    split at runs
    · contradiction
    · next s₂ scanned =>
      obtain ⟨v₁,entered,h₁⟩ := h.enter rule
      obtain ⟨v₂,scanned',h₂⟩ := foldlM_represents (TarjanVectors.visitDep ids (dfs ids g order fuel) rule)
        (Tarjan.visitDep (Tarjan.dfs g order fuel) rule)
        (fun dep v s s' h runs => h.visitDep ih runs) (g rule) h₁ scanned
      obtain ⟨v',finished,h'⟩ := h₂.finish runs
      exact ⟨v',by simp [dfs,entered,scanned',finished],h'⟩

theorem tarjan_represents (ids : ObjectIds n) (g : Graph n) (order : HashOrder) (roots : List (Fin n))
    (runs : Tarjan.tarjan g order roots = .ok s) : ∃ v, tarjan ids g order roots = .ok v ∧ Represents ids v s :=
  foldlM_represents _ _ (fun x v s s' h runs => dfs_represents (n + 1) x v s s' h runs) roots
    (initial_represents ids) runs

end Search

/-- How far the counters move: `extra` of the searches started at a visited rule. -/
structure Counts (extra : Nat) (s s' : Tarjan.State n) : Prop where
  searches : s'.dfncnt + white s' ≤ s.dfncnt + white s + extra
  components : s'.sccs.length + s.dfncnt ≤ s.sccs.length + s'.dfncnt

section Counters

variable {g : Graph n} {order : HashOrder} {s s₁ s' : Tarjan.State n}

theorem Counts.refl (s : Tarjan.State n) : Counts 0 s s := ⟨Nat.le_refl _,Nat.le_refl _⟩

theorem Counts.trans (first : Counts extra s s₁) (second : Counts extra' s₁ s') : Counts (extra + extra') s s' := by
  have searches := first.searches
  have components := first.components
  have searches' := second.searches
  have components' := second.components
  constructor <;> omega

theorem white_enter_le (rule : Fin n) (s : Tarjan.State n) : white (Tarjan.enter rule s) ≤ white s := by
  by_cases fresh : s.dfn rule = 0
  · exact Nat.le_of_lt (white_enter_lt s fresh)
  · refine Finset.card_le_card fun v member => ?_
    simp only [Finset.mem_filter,Finset.mem_univ,true_and] at member ⊢
    by_cases same : v = rule
    · rw [same,enter_dfn_self] at member
      omega
    · rwa [enter_dfn_other s same] at member

theorem finish_counts (runs : Tarjan.finish g order rule s = .ok s') :
    s'.dfncnt = s.dfncnt ∧ white s' = white s ∧ s'.sccs.length ≤ s.sccs.length + 1 := by
  unfold Tarjan.finish at runs
  split at runs
  · unfold Tarjan.close at runs
    split at runs
    · contradiction
    · next scc rest popped =>
      simp only at runs
      split at runs
      · contradiction
      · obtain rfl := Except.ok.inj runs
        exact ⟨rfl,rfl,by simp [closed]⟩
  · obtain rfl := Except.ok.inj runs
    exact ⟨rfl,rfl,Nat.le_succ _⟩

theorem visitDep_counts {nested : Fin n → Tarjan.State n → Except Tarjan.Fault (Tarjan.State n)}
    (counted : ∀ v s s', s.dfn v = 0 → nested v s = .ok s' → Counts 0 s s')
    (runs : Tarjan.visitDep nested rule s v = .ok s') : Counts 0 s s' := by
  unfold Tarjan.visitDep at runs
  split at runs
  · next unseen =>
    split at runs
    · contradiction
    · next searched =>
      obtain rfl := Except.ok.inj runs
      have counts := counted v s _ unseen searched
      exact ⟨counts.searches,counts.components⟩
  · split at runs
    · obtain rfl := Except.ok.inj runs
      exact ⟨Nat.le_refl _,Nat.le_refl _⟩
    · obtain rfl := Except.ok.inj runs
      exact .refl s

/-- A search numbers each rule that it is the first to visit once; only a search started
at a visited rule counts twice. -/
theorem dfs_counts (fuel : Nat) (rule : Fin n) (s s' : Tarjan.State n)
    (runs : Tarjan.dfs g order fuel rule s = .ok s') : Counts (if s.dfn rule = 0 then 0 else 1) s s' := by
  induction fuel generalizing rule s s' with
  | zero => contradiction
  | succ fuel ih =>
    have nested : ∀ v s s', s.dfn v = 0 → Tarjan.dfs g order fuel v s = .ok s' → Counts 0 s s' := by
      intro v s s' unseen searched
      simpa [unseen] using ih v s s' searched
    simp only [Tarjan.dfs] at runs
    split at runs
    · contradiction
    · next s₂ scanned =>
      have scanned : Counts 0 (Tarjan.enter rule s) s₂ := by
        refine foldlM_keeps (Counts 0 (Tarjan.enter rule s)) (g rule) (fun v _ s₁ s₂ h visits => ?_) (.refl _) scanned
        exact h.trans (visitDep_counts nested visits)
      obtain ⟨count,same,length⟩ := finish_counts runs
      have searches := scanned.searches
      have components := scanned.components
      have entered : (Tarjan.enter rule s).dfncnt = s.dfncnt + 1 := rfl
      have kept : (Tarjan.enter rule s).sccs = s.sccs := rfl
      rw [entered] at searches components
      rw [kept] at components
      constructor
      · split
        · next fresh =>
          have := white_enter_lt s fresh
          omega
        · have := white_enter_le rule s
          omega
      · omega

/-- Neither counter exceeds the number of rules and roots, so that 32 bits hold both unless
that number does not fit. -/
theorem tarjan_counts (runs : Tarjan.tarjan g order roots = .ok s) :
    s.dfncnt ≤ n + roots.length ∧ s.sccs.length ≤ n + roots.length := by
  have fold : ∀ (roots : List (Fin n)) (s₁ s₂ : Tarjan.State n),
      roots.foldlM (fun s x => Tarjan.dfs g order (n + 1) x s) s₁ = .ok s₂ → Counts roots.length s₁ s₂ := by
    intro roots
    induction roots with
    | nil =>
      intro s₁ s₂ done
      obtain rfl := Except.ok.inj done
      exact .refl s₁
    | cons x roots ih =>
      intro s₁ s₂ done
      rw [List.foldlM_cons] at done
      obtain ⟨s₃,first,rest⟩ := bind_ok done
      have counts := (dfs_counts _ x s₁ s₃ first).trans (ih s₃ s₂ rest)
      have searches := counts.searches
      refine ⟨?_,counts.components⟩
      rw [List.length_cons]
      split at searches
      · omega
      · omega
  have counts := fold roots Tarjan.initial s runs
  have start := white_le (Tarjan.initial : Tarjan.State n)
  have searches := counts.searches
  have components := counts.components
  simp only [Tarjan.initial,List.length_nil] at searches components start
  omega

end Counters

/-- What the compilers rely on: dependencies of components descend, lead to all the rules
that the members need, and can be followed without looking at what was visited. -/
structure ComponentGraph (g : Graph n) (roots : List (Fin n)) (s : State n) : Prop where
  lower : ∀ (i : Nat) (scc : StronglyConnectedComponent n), s.sccs[i]? = some scc → ∀ j ∈ scc.deps, j < i
  acyclic : ∀ i, ∀ j ∈ depsOf s.sccs i, ¬Reaches (depsOf s.sccs) j i
  covered : ∀ (i : Nat) (scc : StronglyConnectedComponent n), s.sccs[i]? = some scc → ∀ r ∈ scc.rules, ∀ d ∈ g r,
    d ∈ scc.rules ∨ ∃ j ∈ scc.deps, ∃ scc', s.sccs[j]? = some scc' ∧ d ∈ scc'.rules
  placed : ∀ r, ReachedFrom g roots r → ∃ (i : Nat) (scc : StronglyConnectedComponent n),
    s.sccId r = i ∧ s.sccs[i]? = some scc ∧ r ∈ scc.rules
  binary : ∀ i < s.sccs.length, ∀ visited, ∃ visited',
    LinkLine.dfs (depsOf s.sccs) (i + 1) i visited = some visited' ∧ ∀ m ∈ visited', m ∈ visited ∨ m < s.sccs.length
  root : ∀ i < s.sccs.length, ∀ visited, ∃ visited',
    RootMakefile.dfs (depsOf s.sccs) (i + 1) i visited = some visited' ∧ ∀ m ∈ visited', m ∈ visited ∨ m < s.sccs.length

theorem walk_returns {g : Graph n} {s : Tarjan.State n} {into : Nat → List Nat → List Nat} (h : Searched g roots s)
    (own : ∀ (id : Nat) (visited : List Nat), id ∈ visited → ∀ m, m ∈ into id visited ↔ m ∈ visited)
    (entered : ∀ (id : Nat) (visited : List Nat), ∀ m ∈ into id visited, m = id ∨ m ∈ visited)
    (inRange : i < s.sccs.length) (visited : List Nat) :
    ∃ visited', walk into (depsOf s.sccs) (i + 1) i visited = some visited' ∧
      ∀ m ∈ visited', m ∈ visited ∨ m < s.sccs.length := by
  obtain ⟨visited',runs,members⟩ := walk_members (Searched.deps_lt h) own (i + 1) i visited (Nat.lt_succ_self i)
  refine ⟨visited',runs,fun m member => ?_⟩
  rcases (members m).mp member with first | ⟨k,dep,path⟩
  · rcases entered i visited m first with rfl | old
    · exact .inr inRange
    · exact .inl old
  · have low := Searched.deps_lt h i k dep
    rw [depsOf_eq] at path
    have below := h.invariant.sound.deps_reaches_le path
    exact .inr (by omega)

theorem Searched.component_graph {g : Graph n} {v : State n} {s : Tarjan.State n} (h : Searched g roots s)
    (represents : Represents ids v s) : ComponentGraph g roots v := by
  have sound := h.invariant.sound
  have descends := Searched.deps_lt h
  have same := represents.sccs
  refine ⟨fun i scc at_i => ?_,fun i j dep path => ?_,fun i scc at_i r member d edge => ?_,fun r reached => ?_,
    fun i inRange visited => ?_,fun i inRange visited => ?_⟩
  · rw [same] at at_i
    exact sound.backward i _ (log_comp at_i)
  · rw [same] at dep path
    rw [depsOf_eq] at path
    have low := descends i j dep
    have := sound.deps_reaches_le path
    omega
  · rw [same] at at_i ⊢
    rcases sound.covered i _ (log_comp at_i) r member d edge with inside | ⟨j,dep,c,at_j,inside⟩
    · exact .inl inside
    · obtain ⟨scc',atScc,rfl⟩ := (log_comp_iff s j c).mp at_j
      exact .inr ⟨j,dep,scc',atScc,inside⟩
  · obtain ⟨i,own⟩ := (h.owned_iff r).mpr reached
    obtain ⟨c,at_i,inside⟩ := sound.owned r i own
    obtain ⟨scc,atScc,rfl⟩ := (log_comp_iff s i c).mp at_i
    exact ⟨i,scc,by rw [represents.sccId r,own]; rfl,by rw [same]; exact atScc,inside⟩
  · rw [same] at inRange ⊢
    exact walk_returns h (fun _ _ _ _ => Iff.rfl) (fun _ _ _ old => .inr old) inRange visited
  · rw [same] at inRange ⊢
    refine walk_returns h (fun id visited member m => ?_) (fun id visited m inside => ?_) inRange visited
    · simp [List.insert_of_mem member]
    · exact List.mem_insert_iff.mp inside

/-- On every rule graph and every list of roots the search on vectors returns, without an
access out of bounds, a read of the empty stack or a failed assertion. -/
theorem tarjan_component_graph (ids : ObjectIds n) (g : Graph n) (order : HashOrder) (roots : List (Fin n)) :
    ∃ s, tarjan ids g order roots = .ok s ∧ ComponentGraph g roots s ∧
      s.dfncnt ≤ n + roots.length ∧ s.sccs.length ≤ n + roots.length := by
  obtain ⟨s,runs,searched⟩ := tarjan_searched g order roots
  obtain ⟨v,runs',represents⟩ := tarjan_represents ids g order roots runs
  refine ⟨v,runs',Searched.component_graph searched represents,?_⟩
  rw [represents.dfncnt,represents.sccs]
  exact tarjan_counts runs

end JkBuild.TarjanVectors
