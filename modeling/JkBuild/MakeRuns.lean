import JkBuild.Reachability

/-! What one make process does, with any number of jobs: the recipe of a name is started once
the prerequisites that have rules are made, and each recipe once. -/
namespace JkBuild.MakeRuns

open Reachability

universe u v

variable {α : Type u}

/-- The rules make has read: the names that have one, and what a name waits for by all its rules. -/
structure Makefile (α : Type u) where
  names : List α
  prerequisites : α → List α
  leaf : ∀ t, t ∉ names → prerequisites t = []

/-- The recipes a process has started, apart as they are at work or done. -/
structure Process (α : Type u) where
  running : List α
  done : List α

namespace Process

def idle : Process α := ⟨[],[]⟩

def started (p : Process α) : List α := p.running ++ p.done

def start (p : Process α) (t : α) : Process α := { p with running := t :: p.running }

def finish [DecidableEq α] (p : Process α) (t : α) : Process α := ⟨p.running.erase t,t :: p.done⟩

@[simp] theorem mem_started {p : Process α} : t ∈ p.started ↔ t ∈ p.running ∨ t ∈ p.done := List.mem_append

@[simp] theorem start_done (p : Process α) (t : α) : (p.start t).done = p.done := rfl

theorem finish_started [DecidableEq α] {p : Process α} (running : t ∈ p.running) :
    List.Perm (p.finish t).started p.started :=
  (List.perm_middle.trans (List.Perm.append_right p.done (List.perm_cons_erase running).symm))

end Process

/-- Names that make works on for a goal. -/
def Wanted (m : Makefile α) (goal t : α) : Prop := Reaches m.prerequisites goal t ∧ t ∈ m.names

structure Ready (m : Makefile α) (goal : α) (p : Process α) (t : α) : Prop where
  wanted : Wanted m goal t
  fresh : t ∉ p.started
  waited : ∀ d ∈ m.prerequisites t, d ∈ m.names → d ∈ p.done

/-- What holds of a process at any time. -/
structure Sound (m : Makefile α) (goal : α) (p : Process α) : Prop where
  once : p.started.Nodup
  wanted : ∀ t ∈ p.started, Wanted m goal t
  waited : ∀ t ∈ p.started, ∀ d ∈ m.prerequisites t, d ∈ m.names → d ∈ p.done

def Acyclic (m : Makefile α) (goal : α) : Prop :=
  ∃ rank : α → Nat, ∀ t, Wanted m goal t → ∀ d ∈ m.prerequisites t, d ∈ m.names → rank d < rank t

section Steps

variable {m : Makefile α} {goal : α} {p : Process α}

theorem sound_idle (m : Makefile α) (goal : α) : Sound m goal .idle where
  once := List.nodup_nil
  wanted := by simp [Process.idle]
  waited := by simp [Process.idle]

theorem Sound.start (sound : Sound m goal p) (ready : Ready m goal p t) : Sound m goal (p.start t) where
  once := List.nodup_cons.mpr ⟨ready.fresh,sound.once⟩
  wanted := List.forall_mem_cons.mpr ⟨ready.wanted,sound.wanted⟩
  waited := List.forall_mem_cons.mpr ⟨ready.waited,sound.waited⟩

theorem Sound.finish [DecidableEq α] (sound : Sound m goal p) (running : t ∈ p.running) : Sound m goal (p.finish t) := by
  have same := Process.finish_started running
  refine ⟨same.nodup_iff.mpr sound.once,fun u member => sound.wanted u (same.mem_iff.mp member),?_⟩
  intro u member d required named
  exact List.mem_cons_of_mem _ (sound.waited u (same.mem_iff.mp member) d required named)

/-- What a name that has been started waits for is made, however far below. -/
theorem Sound.below (sound : Sound m goal p) (started : t ∈ p.started) (edge : d ∈ m.prerequisites t)
    (path : Reaches m.prerequisites d e) (named : e ∈ m.names) : e ∈ p.done := by
  -- A name above one with a rule has a rule itself, for it has prerequisites.
  induction path using Relation.ReflTransGen.head_induction_on generalizing t with
  | refl => exact sound.waited t started e edge named
  | head next rest ih =>
    rename_i a c
    have inner : a ∈ m.names := by
      by_contra none
      rw [Edge,m.leaf a none] at next
      exact absurd next List.not_mem_nil
    have finished := sound.waited t started a edge inner
    exact ih (Process.mem_started.mpr (.inr finished)) next

theorem Sound.complete (sound : Sound m goal p) (finished : goal ∈ p.done) (wanted : Wanted m goal t) : t ∈ p.done := by
  rcases Relation.ReflTransGen.cases_head wanted.1 with rfl | ⟨d,edge,path⟩
  · exact finished
  · exact sound.below (Process.mem_started.mpr (.inr finished)) edge path wanted.2

theorem Sound.rests (sound : Sound m goal p) (finished : goal ∈ p.done) : p.running = [] := by
  refine List.eq_nil_iff_forall_not_mem.mpr fun t running => ?_
  have wanted := sound.wanted t (Process.mem_started.mpr (.inl running))
  exact List.disjoint_of_nodup_append sound.once running (sound.complete finished wanted)

theorem ready_exists (acyclic : Acyclic m goal) (named : goal ∈ m.names)
    (resting : p.running = []) (unfinished : goal ∉ p.done) : ∃ t, Ready m goal p t := by
  obtain ⟨rank,lower⟩ := acyclic
  -- Of the wanted names that are not made, one of the lowest rank.
  have some : ∃ k t, rank t = k ∧ Wanted m goal t ∧ t ∉ p.done := ⟨_,goal,rfl,⟨.refl _ _,named⟩,unfinished⟩
  classical
  obtain ⟨t,least,wanted,left⟩ := Nat.find_spec some
  refine ⟨t,wanted,by simp [resting,left],fun d required ruled => ?_⟩
  by_contra undone
  have fewer := lower t wanted d required ruled
  rw [least] at fewer
  exact Nat.find_min some fewer ⟨d,rfl,⟨wanted.1.tail required,ruled⟩,undone⟩

/-- Steps that a process can still take. -/
def Process.left (m : Makefile α) (p : Process α) : Nat := 2 * m.names.length - (2 * p.done.length + p.running.length)

theorem Sound.started_length (sound : Sound m goal p) : p.running.length + p.done.length ≤ m.names.length := by
  rw [← List.length_append]
  exact (sound.once.subperm fun t member => (sound.wanted t member).2).length_le

theorem Sound.start_left (sound : Sound m goal p) (ready : Ready m goal p t) : (p.start t).left m < p.left m := by
  have bound := (sound.start ready).started_length
  simp only [Process.left,Process.start,List.length_cons] at bound ⊢
  omega

theorem Sound.finish_left [DecidableEq α] (sound : Sound m goal p) (running : t ∈ p.running) :
    (p.finish t).left m < p.left m := by
  have bound := sound.started_length
  have fewer := List.length_erase_of_mem running
  have some := List.length_pos_of_mem running
  simp only [Process.left,Process.finish,List.length_cons]
  omega

end Steps

/-- What can be relied on when a makefile is run for a goal: the files it needs, the files its
recipes write, and those of them that others use. A phony name is not a file. -/
structure Makes (m : Makefile α) (goal : α) (phony : List α) (writes : α → List α) (inputs exported : List α) : Prop where
  ruled : goal ∈ m.names
  acyclic : Acyclic m goal
  leaves : ∀ d, Reaches m.prerequisites goal d → d ∉ m.names → d ∈ inputs
  made : ∀ d, Wanted m goal d → d ∉ phony → ∃ u ∈ m.names, Reaches m.prerequisites d u ∧ d ∈ writes u
  named : ∀ u, Wanted m goal u → ∀ d ∈ writes u, d ∈ m.names
  once : ∀ u v d, Wanted m goal u → Wanted m goal v → d ∈ writes u → d ∈ writes v → u = v
  exported : ∀ d ∈ exported, ∃ u, Wanted m goal u ∧ d ∈ writes u

/-- Recipes that leave files leave the one they are named by, and are made from files, apart
from those that are run anew each time. -/
structure Solid (m : Makefile α) (goal : α) (phony : List α) (writes : α → List α) (anew : α → Prop) : Prop where
  own : ∀ u, Wanted m goal u → ∀ d ∈ writes u, u ∈ writes u
  meant : ∀ u, Wanted m goal u → u ∈ writes u → u ∉ phony
  below : ∀ u, Wanted m goal u → u ∈ writes u → ∀ e ∈ m.prerequisites u, e ∈ m.names →
    e ∈ writes e ∨ (e ∈ phony ∧ anew u)

section Keys

variable {κ : Type v} {m : Makefile α} {name : κ → α} {inside : κ → Prop} {rank : κ → Nat} {input : α → Prop}

/-- The names that make works on, given by keys of different ranks: each waits for keys of
lower rank, and for names without rule. -/
structure Keyed (m : Makefile α) (name : κ → α) (inside : κ → Prop) (rank : κ → Nat) (input : α → Prop) : Prop where
  names : ∀ k, inside k → name k ∈ m.names
  injective : ∀ k k', inside k → inside k' → name k = name k' → rank k = rank k'
  waits : ∀ k, inside k → ∀ d ∈ m.prerequisites (name k),
    (∃ k', inside k' ∧ name k' = d ∧ rank k' < rank k) ∨ (d ∉ m.names ∧ input d)

theorem Keyed.reached (keyed : Keyed m name inside rank input) (own : inside k)
    (path : Reaches m.prerequisites (name k) t) : (∃ k', inside k' ∧ name k' = t) ∨ (t ∉ m.names ∧ input t) := by
  refine path.closed (fun t => (∃ k', inside k' ∧ name k' = t) ∨ (t ∉ m.names ∧ input t)) ?_ (.inl ⟨k,own,rfl⟩)
  rintro t (⟨k',own',rfl⟩ | ⟨leaf,-⟩) d edge
  · rcases keyed.waits k' own' d edge with ⟨k'',own'',same,-⟩ | given
    · exact .inl ⟨k'',own'',same⟩
    · exact .inr given
  · rw [m.leaf t leaf] at edge
    exact absurd edge List.not_mem_nil

theorem Keyed.wanted (keyed : Keyed m name inside rank input) (own : inside k) (wanted : Wanted m (name k) t) :
    ∃ k', inside k' ∧ name k' = t := (keyed.reached own wanted.1).resolve_right fun leaf => leaf.1 wanted.2

theorem Keyed.leaves (keyed : Keyed m name inside rank input) (own : inside k)
    (path : Reaches m.prerequisites (name k) t) (leaf : t ∉ m.names) : input t := by
  rcases keyed.reached own path with ⟨k',own',rfl⟩ | ⟨-,given⟩
  · exact absurd (keyed.names k' own') leaf
  · exact given

theorem Keyed.acyclic (keyed : Keyed m name inside rank input) (own : inside k) : Acyclic m (name k) := by
  classical
  have ranked : ∀ k', inside k' →
      (if h : ∃ k, inside k ∧ name k = name k' then rank h.choose else 0) = rank k' := by
    intro k' own'
    have some : ∃ k, inside k ∧ name k = name k' := ⟨k',own',rfl⟩
    rw [dif_pos some]
    exact keyed.injective _ _ some.choose_spec.1 own' some.choose_spec.2
  refine ⟨fun t => if h : ∃ k, inside k ∧ name k = t then rank h.choose else 0,fun t wanted d edge ruled => ?_⟩
  obtain ⟨k',own',rfl⟩ := keyed.wanted own wanted
  rcases keyed.waits k' own' d edge with ⟨k'',own'',rfl,lower⟩ | ⟨leaf,-⟩
  · simpa only [ranked k'' own'',ranked k' own'] using lower
  · exact absurd ruled leaf

end Keys

section Alike

/-- Two makefiles with the same rules, however often they name them. -/
structure Alike (m m' : Makefile α) : Prop where
  names : ∀ t, t ∈ m'.names ↔ t ∈ m.names
  prerequisites : m'.prerequisites = m.prerequisites

variable {m m' : Makefile α}

theorem Alike.reaches (alike : Alike m m') : Reaches m'.prerequisites t d ↔ Reaches m.prerequisites t d := by
  rw [alike.prerequisites]

theorem Alike.wanted (alike : Alike m m') : Wanted m' goal t ↔ Wanted m goal t :=
  and_congr alike.reaches (alike.names t)

theorem Alike.symm (alike : Alike m m') : Alike m' m := ⟨fun t => (alike.names t).symm,alike.prerequisites.symm⟩

theorem Alike.ready (alike : Alike m m') (ready : Ready m goal p t) : Ready m' goal p t where
  wanted := alike.wanted.mpr ready.wanted
  fresh := ready.fresh
  waited d edge named := by
    rw [alike.prerequisites] at edge
    exact ready.waited d edge ((alike.names d).mp named)

theorem Alike.acyclic (alike : Alike m m') (acyclic : Acyclic m goal) : Acyclic m' goal := by
  obtain ⟨rank,lower⟩ := acyclic
  refine ⟨rank,fun t wanted d edge named => ?_⟩
  rw [alike.prerequisites] at edge
  exact lower t (alike.wanted.mp wanted) d edge ((alike.names d).mp named)

end Alike

end JkBuild.MakeRuns
