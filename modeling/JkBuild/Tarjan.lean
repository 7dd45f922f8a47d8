import JkBuild.ComponentLog

/-! The component search of `core/algorithms/tarjan.hh`. Rules are their object ids,
so the vectors indexed by object id are functions of the rule. The counter is a
`uint32_t` and a component id an `int32_t` there. A run counts no further than the number
of rules and roots together, so `Nat` is exact while these are below 2^31. A run that would
read an empty stack or fail the assertion on `_scc_id` ends in a fault; so does a recursion
deeper than its fuel. -/
namespace JkBuild.Tarjan

open Reachability ComponentLog

/-- `Dependencies` of every rule. -/
abbrev Graph (n : Nat) := Fin n → List (Fin n)

structure StronglyConnectedComponent (n : Nat) where
  rules : List (Fin n)
  deps : List Nat
  deriving DecidableEq, Repr

/-- The order in which the hash set of the component numbered `id` is turned into a
vector. The library leaves it unspecified; it only never loses or repeats a key. -/
structure HashOrder where
  toVector : Nat → List Nat → List Nat
  perm : ∀ id keys, (toVector id keys).Perm keys

inductive Fault where
  | exhausted
  | emptyStack
  | unassigned
  deriving DecidableEq, Repr

/-- `sccId` is `_scc_id`, with `none` for the initial -1. -/
structure State (n : Nat) where
  dfncnt : Nat
  stack : List (Fin n)
  sccs : List (StronglyConnectedComponent n)
  low : Fin n → Nat
  dfn : Fin n → Nat
  inStack : Fin n → Bool
  sccId : Fin n → Option Nat

def initial : State n := ⟨0,[],[],fun _ => 0,fun _ => 0,fun _ => false,fun _ => none⟩

def enter (rule : Fin n) (s : State n) : State n :=
  { s with
    dfncnt := s.dfncnt + 1
    low := Function.update s.low rule (s.dfncnt + 1)
    dfn := Function.update s.dfn rule (s.dfncnt + 1)
    stack := rule :: s.stack
    inStack := Function.update s.inStack rule true }

def lower (rule : Fin n) (value : Nat) (s : State n) : State n :=
  { s with low := Function.update s.low rule (min (s.low rule) value) }

def visitDep (dfs : Fin n → State n → Except Fault (State n)) (rule : Fin n)
    (s : State n) (v : Fin n) : Except Fault (State n) :=
  if s.dfn v = 0 then
    match dfs v s with
    | .error fault => .error fault
    | .ok s => .ok (lower rule (s.low v) s)
  else if s.inStack v then .ok (lower rule (s.dfn v) s)
  else .ok s

/-- Pops down to `rule`: the popped rules in popping order, and what remains. -/
def popScc (rule : Fin n) : List (Fin n) → Option (List (Fin n) × List (Fin n))
  | [] => none
  | top :: rest =>
    if top = rule then some ([rule],rest)
    else (popScc rule rest).map fun (scc,rest) => (top :: scc,rest)

/-- The hash set of component ids that the popped rules depend on. -/
def insertDeps (g : Graph n) (sccId : Fin n → Option Nat) (id : Nat) (scc : List (Fin n)) :
    Except Fault (List Nat) :=
  (scc.flatMap g).foldlM (fun deps d =>
    match sccId d with
    | none => .error .unassigned
    | some j => .ok (if j = id then deps else deps.insert j)) []

/-- The state once the component `scc` with dependencies `deps` is pushed. -/
def closed (scc rest : List (Fin n)) (deps : List Nat) (s : State n) : State n :=
  { s with
    stack := rest
    sccs := s.sccs ++ [⟨scc,deps⟩]
    inStack := fun v => if v ∈ scc then false else s.inStack v
    sccId := fun v => if v ∈ scc then some s.sccs.length else s.sccId v }

def close (g : Graph n) (order : HashOrder) (rule : Fin n) (s : State n) :
    Except Fault (State n) :=
  match popScc rule s.stack with
  | none => .error .emptyStack
  | some (scc,rest) =>
    let id := s.sccs.length
    match insertDeps g (fun v => if v ∈ scc then some id else s.sccId v) id scc with
    | .error fault => .error fault
    | .ok deps => .ok (closed scc rest (order.toVector id deps) s)

def finish (g : Graph n) (order : HashOrder) (rule : Fin n) (s : State n) :
    Except Fault (State n) :=
  if s.low rule = s.dfn rule then close g order rule s else .ok s

def dfs (g : Graph n) (order : HashOrder) : Nat → Fin n → State n → Except Fault (State n)
  | 0, _, _ => .error .exhausted
  | fuel + 1, rule, s =>
    match (g rule).foldlM (visitDep (dfs g order fuel) rule) (enter rule s) with
    | .error fault => .error fault
    | .ok s => finish g order rule s

/-- The root loop runs `dfs` on every requested rule, visited or not. -/
def tarjan (g : Graph n) (order : HashOrder) (roots : List (Fin n)) : Except Fault (State n) :=
  roots.foldlM (fun s x => dfs g order (n + 1) x s) initial

/-- The components found so far and the component each rule was last put in. -/
def State.log (s : State n) : Log (Fin n) :=
  ⟨s.sccs.map fun c => ⟨c.rules,c.deps⟩,s.sccId⟩

/-- The hash set in insertion order, most recent first. -/
def HashOrder.insertion : HashOrder := ⟨fun _ keys => keys,fun _ _ => .refl _⟩

@[simp] theorem initial_log : (initial : State n).log = Log.empty := rfl

@[simp] theorem enter_log (rule : Fin n) (s : State n) : (enter rule s).log = s.log := rfl

@[simp] theorem closed_log (scc rest : List (Fin n)) (deps : List Nat) (s : State n) :
    (closed scc rest deps s).log = s.log.emit scc deps := by
  simp [closed,State.log,Log.emit]

@[simp] theorem enter_dfn_self (rule : Fin n) (s : State n) :
    (enter rule s).dfn rule = s.dfncnt + 1 := by simp [enter]

@[simp] theorem enter_low_self (rule : Fin n) (s : State n) :
    (enter rule s).low rule = s.dfncnt + 1 := by simp [enter]

theorem enter_dfn_other (s : State n) (h : v ≠ rule) : (enter rule s).dfn v = s.dfn v := by
  simp [enter,h]

theorem enter_low_other (s : State n) (h : v ≠ rule) : (enter rule s).low v = s.low v := by
  simp [enter,h]

@[simp] theorem lower_low_self (rule : Fin n) (value : Nat) (s : State n) :
    (lower rule value s).low rule = min (s.low rule) value := by simp [lower]

theorem lower_low_other (value : Nat) (s : State n) (h : v ≠ rule) :
    (lower rule value s).low v = s.low v := by simp [lower,h]

theorem popScc_append (rule : Fin n) (above rest : List (Fin n)) (first : rule ∉ above) :
    popScc rule (above ++ rule :: rest) = some (above ++ [rule],rest) := by
  induction above with
  | nil => simp [popScc]
  | cons top above ih =>
    simp only [List.mem_cons,not_or] at first
    simp [popScc,Ne.symm first.1,ih first.2]

theorem insertDeps_fold (sccId : Fin n → Option Nat) (id : Nat) (ds : List (Fin n))
    (deps : List Nat) (assigned : ∀ d ∈ ds, ∃ j, sccId d = some j) (nodup : deps.Nodup) :
    ∃ deps', ds.foldlM (fun deps d =>
        match sccId d with
        | none => Except.error Fault.unassigned
        | some j => .ok (if j = id then deps else deps.insert j)) deps = .ok deps' ∧
      deps'.Nodup ∧ ∀ j, j ∈ deps' ↔ j ∈ deps ∨ (j ≠ id ∧ ∃ d ∈ ds, sccId d = some j) := by
  induction ds generalizing deps with
  | nil => exact ⟨deps,rfl,nodup,by simp⟩
  | cons d ds ih =>
    obtain ⟨k,own⟩ := assigned d (by simp)
    have rest : ∀ d ∈ ds, ∃ j, sccId d = some j :=
      fun d member => assigned d (List.mem_cons_of_mem _ member)
    by_cases same : k = id
    · obtain ⟨deps',eq,nodup',iff⟩ := ih deps rest nodup
      refine ⟨deps',by simpa [own,same] using eq,nodup',fun j => ?_⟩
      rw [iff]
      grind
    · obtain ⟨deps',eq,nodup',iff⟩ := ih (deps.insert k) rest (List.Nodup.insert nodup)
      refine ⟨deps',by simpa [own,same] using eq,nodup',fun j => ?_⟩
      rw [iff]
      grind

/-- Closing a component whose members' dependencies are all assigned succeeds, and is a
sound emission of the component log. -/
theorem close_emits (g : Graph n) (order : HashOrder) (s : State n) (sound : Sound g s.log)
    (popped : popScc rule s.stack = some (scc,rest))
    (covered : ∀ a ∈ scc, ∀ d ∈ g a, d ∈ scc ∨ ∃ i, s.sccId d = some i) :
    ∃ deps, close g order rule s = .ok (closed scc rest deps s) ∧ Emits g s.log scc deps := by
  let id := s.sccs.length
  let sccId := fun v => if v ∈ scc then some id else s.sccId v
  have assigned : ∀ d ∈ scc.flatMap g, ∃ j, sccId d = some j := by
    intro d member
    obtain ⟨a,inside,edge⟩ := List.mem_flatMap.mp member
    by_cases same : d ∈ scc
    · exact ⟨id,by simp [sccId,same]⟩
    · simpa [sccId,same] using covered a inside d edge
  obtain ⟨deps,eq,nodup,iff⟩ := insertDeps_fold sccId id _ [] assigned List.nodup_nil
  have perm := order.perm id deps
  refine ⟨order.toVector id deps,?_,covered,fun j => ?_,perm.nodup_iff.mpr nodup⟩
  · simp only [close,popped]
    have inserted : insertDeps g sccId id scc = .ok deps := eq
    rw [inserted]
  · rw [perm.mem_iff,iff]
    have ids : ∀ b i, s.sccId b = some i → i ≠ id := by
      intro b i own
      have bound := sound.owner_lt own
      simp only [State.log,List.length_map] at bound
      exact Nat.ne_of_lt bound
    constructor
    · rintro (absent | ⟨ne,b,member,own⟩)
      · simp at absent
      · obtain ⟨a,inside,edge⟩ := List.mem_flatMap.mp member
        by_cases same : b ∈ scc
        · simp only [sccId,same,if_true,Option.some.injEq] at own
          exact absurd own.symm ne
        · exact ⟨a,inside,b,edge,same,by simpa [sccId,same,State.log] using own⟩
    · rintro ⟨a,inside,b,edge,same,own⟩
      exact .inr ⟨ids b j own,b,List.mem_flatMap.mpr ⟨a,inside,edge⟩,by simpa [sccId,same,State.log] using own⟩

end JkBuild.Tarjan
