import JkBuild.LinkLine

/-! Which rules a binary is linked with: those below it and no others, also when requested
roots repeat or reach each other. -/
namespace JkBuild.LinkedRules

open Reachability ComponentLog Tarjan ComponentOrder

universe u

section Emission

variable {α : Type u} {next : α → List α} {log : Log α}

/-- No component holds or depends on more than it has to. -/
structure Tight (next : α → List α) (log : Log α) : Prop where
  once : ∀ i c, log.comp i = some c → c.members.Nodup
  connected : ∀ i c, log.comp i = some c → ∀ a ∈ c.members, ∀ b ∈ c.members, Mutual next a b
  edges : ∀ i c, log.comp i = some c → ∀ j ∈ c.deps, ∃ a ∈ c.members, ∃ b ∈ next a,
    ∃ c', log.comp j = some c' ∧ b ∈ c'.members

theorem empty_tight (next : α → List α) : Tight next Log.empty := by
  constructor <;> simp [Log.comp,Log.empty]

theorem emit_tight [DecidableEq α] (sound : Sound next log) (tight : Tight next log) (emits : Emits next log members deps)
    (once : members.Nodup) (connected : ∀ a ∈ members, ∀ b ∈ members, Mutual next a b) : Tight next (log.emit members deps) where
  once i c at_i := by
    rcases emit_cases at_i with old | ⟨-,rfl⟩
    · exact tight.once i c old
    · exact once
  connected i c at_i := by
    rcases emit_cases at_i with old | ⟨-,rfl⟩
    · exact tight.connected i c old
    · exact connected
  edges i c at_i j dep := by
    rcases emit_cases at_i with old | ⟨-,rfl⟩
    · obtain ⟨a,member,b,edge,c',at_j,inside⟩ := tight.edges i c old j dep
      exact ⟨a,member,b,edge,c',emit_old at_j,inside⟩
    · obtain ⟨a,member,b,edge,-,own⟩ := (emits.deps_iff j).mp dep
      obtain ⟨c',at_j,inside⟩ := sound.owned b j own
      exact ⟨a,member,b,edge,c',emit_old at_j,inside⟩

theorem Tight.reaches (tight : Tight next log) (path : Reaches log.deps i j) (at_i : log.comp i = some c)
    (at_j : log.comp j = some c') (member : a ∈ c.members) (inside : b ∈ c'.members) : Reaches next a b := by
  induction path using Relation.ReflTransGen.head_induction_on generalizing a c with
  | refl =>
    obtain rfl := Option.some.inj (at_i.symm.trans at_j)
    exact (tight.connected j c at_i a member b inside).1
  | head dep _ ih =>
    rw [Edge,Log.deps_of at_i] at dep
    obtain ⟨x,inX,y,edge,c'',at_k,inY⟩ := tight.edges _ c at_i _ dep
    have first := (tight.connected _ c at_i a member x inX).1.tail edge
    exact first.trans (ih at_k inY)

end Emission

section Search

variable {g : Graph n} {order : HashOrder} {gray : List (Fin n)} {u : Fin n} {s₀ s s' : State n}

theorem finish_tight (scanned : Scanning g gray u s₀ (g u) s) (base : Invariant g gray s₀)
    (access : ∀ x ∈ gray, Reaches g x u) (tight : Tight g s.log) (runs : finish g order u s = .ok s') :
    Tight g s'.log := by
  unfold finish at runs
  split at runs
  · next root =>
    obtain ⟨new,stacked⟩ := scanned.stack
    obtain ⟨covered,-,nodup,connected⟩ := scanned.emits base access root stacked
    have off : u ∉ new := fun member => (List.nodup_append.mp nodup).2.2 u member u (by simp) rfl
    have popped := popScc_append u new s₀.stack off
    rw [← stacked] at popped
    obtain ⟨deps,closes,emits⟩ := close_emits g order s scanned.invariant.sound popped covered
    obtain rfl := Except.ok.inj (closes.symm.trans runs)
    rw [closed_log]
    exact emit_tight scanned.invariant.sound tight emits nodup connected
  · obtain rfl := Except.ok.inj runs
    exact tight

/-- By induction on the fuel, along the search of `dfs_spec`. -/
theorem dfs_tight (fuel : Nat) (inv : Invariant g gray s) (fresh : s.dfn u = 0) (access : ∀ x ∈ gray, Reaches g x u)
    (enough : white s ≤ fuel) (tight : Tight g s.log) (runs : dfs g order fuel u s = .ok s') : Tight g s'.log := by
  induction fuel generalizing gray u s s' with
  | zero => contradiction
  | succ fuel ih =>
    have scan : ∀ rest done s₁ s₂, g u = done ++ rest → Scanning g gray u s done s₁ → white s₁ ≤ fuel →
        Tight g s₁.log → rest.foldlM (visitDep (dfs g order fuel) u) s₁ = .ok s₂ →
        Scanning g gray u s (g u) s₂ ∧ Tight g s₂.log := by
      intro rest
      induction rest with
      | nil =>
        intro done s₁ s₂ all scanning _ tight runs
        obtain rfl := Except.ok.inj runs
        rw [List.append_nil] at all
        exact ⟨all ▸ scanning,tight⟩
      | cons v rest ihRest =>
        intro done s₁ s₂ all scanning few tight runs
        have edge : v ∈ g u := by rw [all]; simp
        have all' : g u = (done ++ [v]) ++ rest := by rw [all]; simp
        rw [List.foldlM_cons] at runs
        by_cases unseen : s₁.dfn v = 0
        · have access' : ∀ x ∈ u :: gray, Reaches g x v := by
            intro x open'
            rcases List.mem_cons.mp open' with rfl | open'
            · exact .single edge
            · exact (access x open').tail edge
          obtain ⟨s₃,nested,inv₃,progress,visited,link⟩ :=
            dfs_spec g order fuel (u :: gray) v s₁ scanning.invariant unseen access' few
          have tight₃ : Tight g s₃.log := ih scanning.invariant unseen access' few tight nested
          have next := scanning.returned inv fresh edge inv₃ progress visited link unseen
          have one : visitDep (dfs g order fuel) u s₁ v = .ok (lower u (s₃.low v) s₃) := by
            simp [visitDep,unseen,nested]
          rw [one] at runs
          exact ihRest (done ++ [v]) _ s₂ all' next (Nat.le_trans progress.white_le few) tight₃ runs
        · have next := scanning.old fresh edge unseen
          have one : visitDep (dfs g order fuel) u s₁ v =
              .ok (if s₁.inStack v then lower u (s₁.dfn v) s₁ else s₁) := by
            simp only [visitDep,unseen,if_false]
            split <;> rfl
          rw [one] at runs
          exact ihRest (done ++ [v]) _ s₂ all' next (by split <;> exact few) (by split <;> exact tight) runs
    simp only [dfs] at runs
    split at runs
    · contradiction
    · next s₂ scanned =>
      have few := Nat.le_of_lt_succ (Nat.lt_of_lt_of_le (white_enter_lt s fresh) enough)
      obtain ⟨complete,tight₂⟩ := scan (g u) [] _ s₂ rfl (.enter inv fresh access) few (by simpa using tight) scanned
      exact finish_tight complete inv access tight₂ runs

/-- A root that was reached before forms one more component, of itself. -/
theorem revisit_tight (inv : Invariant g [] s) (seen : s.dfn u ≠ 0) (tight : Tight g s.log)
    (runs : dfs g order (fuel + 1) u s = .ok s') : Tight g s'.log := by
  have empty := inv.stack_nil
  have popped : popScc u (enter u s).stack = some ([u],[]) := by simp [enter,empty,popScc]
  have covered : ∀ a ∈ [u], ∀ d ∈ g a, d ∈ [u] ∨ ∃ i, (enter u s).sccId d = some i := by
    intro a member d edge
    rw [List.mem_singleton.mp member] at edge
    exact .inr ((inv.owned d).mpr ⟨inv.next u seen (by simp) d edge,by rw [empty]; simp⟩)
  obtain ⟨deps,closes,emits⟩ := close_emits g order (enter u s) inv.sound popped covered
  simp only [dfs,revisit_fold inv seen fuel order (g u) (fun _ h => h),finish] at runs
  rw [if_pos (by rw [enter_low_self,enter_dfn_self]),closes] at runs
  obtain rfl := Except.ok.inj runs
  rw [closed_log]
  refine emit_tight inv.sound tight emits (List.nodup_singleton u) fun a member b inside => ?_
  rw [List.mem_singleton.mp member,List.mem_singleton.mp inside]
  exact ⟨.refl g u,.refl g u⟩

theorem root_tight (inv : Invariant g [] s) (tight : Tight g s.log) (runs : dfs g order (n + 1) u s = .ok s') :
    Tight g s'.log := by
  by_cases fresh : s.dfn u = 0
  · exact dfs_tight (n + 1) inv fresh (by simp) (Nat.le_succ_of_le (white_le s)) tight runs
  · exact revisit_tight inv fresh tight runs

theorem tarjan_tight (runs : tarjan g order roots = .ok s) : Tight g s.log := by
  have fold : ∀ (roots : List (Fin n)) (s s' : State n), Invariant g [] s → Tight g s.log →
      roots.foldlM (fun s x => dfs g order (n + 1) x s) s = .ok s' → Tight g s'.log := by
    intro roots
    induction roots with
    | nil =>
      intro s s' _ tight runs
      exact Except.ok.inj runs ▸ tight
    | cons u roots ih =>
      intro s s' inv tight runs
      obtain ⟨s₁,first,step⟩ := root_step g order s inv u
      rw [List.foldlM_cons,first] at runs
      exact ih s₁ s' step.invariant (root_tight inv tight first) runs
  exact fold roots initial s (initial_invariant g) (empty_tight g) runs

end Search

section Binary

open LinkLine

variable {g : Graph n} {order : HashOrder} {roots : List (Fin n)} {s : State n} {binary : Fin n} {i : Nat}

/-- What a link line holds at most, whatever was requested. -/
structure Links (g : Graph n) (binary : Fin n) (groups : List (List (Fin n))) : Prop where
  below : ∀ block ∈ groups, ∀ r ∈ block, ∃ d ∈ g binary, Reaches g d r
  together : ∀ block ∈ groups, ∀ r ∈ block, ∀ r' ∈ block, Mutual g r r'

theorem Tight.below (tight : Tight g s.log) (at_i : s.sccs[i]? = some scc) (member : binary ∈ scc.rules)
    (dep : k ∈ s.log.deps i) (path : Reaches s.log.deps k m) (at_m : s.sccs[m]? = some other) (inside : r ∈ other.rules) :
    ∃ d ∈ g binary, Reaches g d r := by
  rw [Log.deps_of (log_comp at_i)] at dep
  obtain ⟨a,inI,d,edge,c,at_k,inK⟩ := tight.edges i _ (log_comp at_i) k dep
  have rest := tight.reaches path at_k (log_comp at_m) inK inside
  rcases Relation.ReflTransGen.cases_head (tight.connected i _ (log_comp at_i) binary member a inI).1 with rfl | ⟨b,first,way⟩
  · exact ⟨d,edge,rest⟩
  · exact ⟨b,first,(Reaches.tail way edge).trans rest⟩

theorem links_of_kept (tight : Tight g s.log) (at_i : s.sccs[i]? = some scc) (member : binary ∈ scc.rules)
    (spec : Kept (depsOf s.sccs) visited kept)
    (below : ∀ m, m ∈ visited ↔ ∃ k ∈ depsOf s.sccs i, Reaches (depsOf s.sccs) k m) :
    Links g binary (kept.map (rulesOf s.sccs)) := by
  have found {r : Fin n} {m : Nat} (inside : r ∈ rulesOf s.sccs m) : ∃ other, s.sccs[m]? = some other ∧ r ∈ other.rules := by
    cases at_m : s.sccs[m]? with
    | none => simp [rulesOf,at_m] at inside
    | some other => exact ⟨other,rfl,by rwa [rulesOf_of at_m] at inside⟩
  refine ⟨fun block inGroups r inBlock => ?_,fun block inGroups r inBlock r' inBlock' => ?_⟩
  · obtain ⟨m,inKept,rfl⟩ := List.mem_map.mp inGroups
    obtain ⟨other,at_m,inside⟩ := found inBlock
    obtain ⟨k,dep,path⟩ := (below m).mp ((spec.members m).mp inKept)
    rw [depsOf_eq] at dep path
    exact tight.below at_i member dep path at_m inside
  · obtain ⟨m,-,rfl⟩ := List.mem_map.mp inGroups
    obtain ⟨other,at_m,inside⟩ := found inBlock
    rw [rulesOf_of at_m] at inBlock'
    exact tight.connected m _ (log_comp at_m) r inside r' inBlock'

/-- A binary alone in its component is linked with the rules below it and with no others, and
what shares a group depends on each other. -/
theorem link_line_exact (g : Graph n) (order : HashOrder) (roots : List (Fin n)) (exports : Exports n) (binary : Fin n)
    (reached : ReachedFrom g roots binary) :
    ∃ s i scc, tarjan g order roots = .ok s ∧ s.sccId binary = some i ∧ s.sccs[i]? = some scc ∧
      (scc.rules.length = 1 → ∃ groups, blocks s.sccs i = some groups ∧
        depsAndFlags exports s.sccs i = some (groups.flatMap fun group => "-Wl,--start-group" ::
          group.flatMap (fun r => exports.exportedFiles r ++ exports.exportedLinkFlags r) ++ ["-Wl,--end-group"]) ∧
        Links g binary groups ∧ ∀ r ≠ binary, (∃ block ∈ groups, r ∈ block) ↔ Reaches g binary r) := by
  obtain ⟨s,runs,searched⟩ := tarjan_searched g order roots
  obtain ⟨i,own⟩ := (searched.owned_iff binary).mpr reached
  obtain ⟨c,at_i,member⟩ := searched.invariant.sound.owned binary i own
  obtain ⟨scc,atScc,rfl⟩ := (log_comp_iff s i c).mp at_i
  refine ⟨s,i,scc,runs,own,atScc,fun single => ?_⟩
  have alone : scc.rules = [binary] := by
    obtain ⟨r,eq⟩ := List.length_eq_one_iff.mp single
    rw [eq] at member
    rw [eq,List.mem_singleton.mp member]
  obtain ⟨visited,kept,eq,spec,below⟩ := linked_kept searched (List.getElem?_eq_some_iff.mp atScc).1
  have links := links_of_kept (tarjan_tight runs) atScc member spec below
  have found : blocks s.sccs i = some (kept.map (rulesOf s.sccs)) := by simp [blocks,eq]
  refine ⟨_,found,by rw [depsAndFlags,found]; rfl,links,fun r apart => ⟨?_,fun path => ?_⟩⟩
  · rintro ⟨block,inGroups,inBlock⟩
    obtain ⟨d,edge,path⟩ := links.below block inGroups r inBlock
    exact .head edge path
  · exact covers_of_kept searched atScc alone spec below r path apart

theorem Tight.alone (tight : Tight g s.log) (at_i : s.sccs[i]? = some scc) (member : r ∈ scc.rules) (clear : ¬OnCycle g r) :
    scc.rules = [r] := by
  have same : ∀ r' ∈ scc.rules, r' = r := by
    intro r' other
    obtain ⟨path,back⟩ := tight.connected i _ (log_comp at_i) r member r' other
    rcases Relation.ReflTransGen.cases_head path with same | ⟨d,edge,rest⟩
    · exact same.symm
    · exact absurd ⟨d,edge,Reaches.trans rest back⟩ clear
  have copies := List.eq_replicate_of_mem same
  have once := tight.once i _ (log_comp at_i)
  have some := List.length_pos_of_mem member
  change scc.rules.Nodup at once
  rw [copies,List.nodup_replicate] at once
  rw [copies,show scc.rules.length = 1 by omega,List.replicate_one]

/-- Whatever the component of a rule holds, its groups are found and lie below the rule. -/
theorem blocks_below (searched : Searched g roots s) (tight : Tight g s.log) (own : s.sccId r = some i) :
    ∃ groups, blocks s.sccs i = some groups ∧ Links g r groups := by
  obtain ⟨c,at_i,member⟩ := searched.invariant.sound.owned r i own
  obtain ⟨scc,atScc,rfl⟩ := (log_comp_iff s i c).mp at_i
  obtain ⟨visited,kept,eq,spec,below⟩ := linked_kept searched (List.getElem?_eq_some_iff.mp atScc).1
  exact ⟨_,by simp [blocks,eq],links_of_kept tight atScc member spec below⟩

def besideTool : Graph 4 := fun r =>
  (List.finRange 4).filter fun d => decide ((r.val,d.val) ∈ [(0,1),(1,2),(2,1),(3,2)])

def besideExports : Exports 4 where
  exportedFiles r := [[],["1.a"],["2.a"],["3.a"]].getD r []
  exportedLinkFlags r := [[],[],["-lz"],[]].getD r []

theorem link_line_beside : ∃ s i groups, tarjan besideTool .insertion [3,0,2,0] = .ok s ∧ s.sccId 0 = some i ∧
    blocks s.sccs i = some groups ∧
    depsAndFlags besideExports s.sccs i = some ["-Wl,--start-group","1.a","2.a","-lz","-Wl,--end-group"] ∧
    Links besideTool 0 groups ∧ (∀ r ≠ 0, (∃ block ∈ groups, r ∈ block) ↔ Reaches besideTool 0 r) ∧ groups = [[1,2]] := by
  have result : (tarjan besideTool .insertion [3,0,2,0]).map (fun s => (s.sccId 0,s.sccs)) =
      .ok (some 4,[⟨[1,2],[]⟩,⟨[3],[0]⟩,⟨[0],[0]⟩,⟨[2],[0]⟩,⟨[0],[0]⟩]) := by decide +kernel
  obtain ⟨s,i,scc,runs,own,at_i,exact⟩ := link_line_exact besideTool .insertion [3,0,2,0]
    besideExports 0 ⟨0,by simp,.refl _ _⟩
  rw [runs] at result
  obtain ⟨component,sccs⟩ := Prod.mk.inj (Except.ok.inj result)
  obtain rfl : i = 4 := Option.some.inj (own.symm.trans component)
  rw [sccs] at at_i
  obtain rfl := Option.some.inj at_i
  obtain ⟨groups,found,line,links,linked⟩ := exact rfl
  have only : groups = [[1,2]] := by
    rw [sccs] at found
    exact (Option.some.inj found).symm
  subst only
  exact ⟨s,4,[[1,2]],runs,own,found,line,links,linked,rfl⟩

end Binary

end JkBuild.LinkedRules
