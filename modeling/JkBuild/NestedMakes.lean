import JkBuild.MakeRuns
import Mathlib.Algebra.BigOperators.Fin
import Mathlib.Algebra.Order.BigOperators.Group.Finset

/-! A make whose recipes run make on other makefiles. All of them run on one disk, with any
number of jobs: a recipe of any process may take its next step at any time. -/
namespace JkBuild.NestedMakes

open Reachability MakeRuns

universe u v

variable {α : Type u} {ι : Type v}

structure Plan (α : Type u) (ι : Type v) where
  outer : Makefile α
  /-- The make that the recipe of a name runs, with its goal. -/
  call : α → Option (ι × α)
  inner : ι → Makefile α
  /-- The names of a makefile that are not meant as files. -/
  phony : ι → List α
  /-- The files that a recipe of a makefile leaves. -/
  writes : ι → α → List α

structure State (α : Type u) (ι : Type v) where
  outer : Process α
  inner : ι → Process α
  disk : Set α

def begin (disk : Set α) : State α ι := ⟨.idle,fun _ => .idle,disk⟩

/-- A recipe may remove the files it writes when it starts, and has written them when it ends.
A recipe that runs make ends when that make has made its goal. -/
inductive Step [DecidableEq α] [DecidableEq ι] (plan : Plan α ι) (goal : α) (s : State α ι) : State α ι → Prop
  | start (ready : Ready plan.outer goal s.outer t) : Step plan goal s { s with outer := s.outer.start t }
  | finish (running : t ∈ s.outer.running) (returned : ∀ i g, plan.call t = some (i,g) → g ∈ (s.inner i).done) :
      Step plan goal s { s with outer := s.outer.finish t }
  | innerStart (running : t ∈ s.outer.running) (calls : plan.call t = some (i,g))
      (ready : Ready (plan.inner i) g (s.inner i) u) :
      Step plan goal s ⟨s.outer,Function.update s.inner i ((s.inner i).start u),s.disk \ { d | d ∈ plan.writes i u }⟩
  | innerFinish (running : u ∈ (s.inner i).running) :
      Step plan goal s ⟨s.outer,Function.update s.inner i ((s.inner i).finish u),s.disk ∪ { d | d ∈ plan.writes i u }⟩

def Reachable [DecidableEq α] [DecidableEq ι] (plan : Plan α ι) (goal : α) (disk : Set α) : State α ι → Prop :=
  Relation.ReflTransGen (Step plan goal) (begin disk)

/-- A name that is worked on runs a make. -/
def Called (plan : Plan α ι) (goal t : α) (i : ι) (g : α) : Prop :=
  Wanted plan.outer goal t ∧ plan.call t = some (i,g)

/-- The second name has to be made before the first. -/
def Below (m : Makefile α) (t t' : α) : Prop := ∃ d ∈ m.prerequisites t, Reaches m.prerequisites d t'

/-- The makefiles fit together: what one of them lacks a rule for is a source, or written
before it runs. -/
structure Fits (plan : Plan α ι) (goal : α) (sources : Set α) : Prop where
  named : goal ∈ plan.outer.names
  acyclic : Acyclic plan.outer goal
  leaves : ∀ d, Reaches plan.outer.prerequisites goal d → d ∉ plan.outer.names → d ∈ sources
  called : ∀ t i g, Called plan goal t i g → g ∈ (plan.inner i).names ∧ Acyclic (plan.inner i) g
  alone : ∀ t t' i g g', Called plan goal t i g → Called plan goal t' i g' → t = t'
  inputs : ∀ t i g d, Called plan goal t i g → Reaches (plan.inner i).prerequisites g d →
    d ∉ (plan.inner i).names → d ∈ sources ∨ ∃ t' j g' u, Below plan.outer t t' ∧ Called plan goal t' j g' ∧
      Wanted (plan.inner j) g' u ∧ d ∈ plan.writes j u
  made : ∀ t i g d, Called plan goal t i g → Wanted (plan.inner i) g d → d ∉ plan.phony i →
    ∃ u ∈ (plan.inner i).names, Reaches (plan.inner i).prerequisites d u ∧ d ∈ plan.writes i u
  kept : ∀ t i g u d, Called plan goal t i g → Wanted (plan.inner i) g u → d ∈ plan.writes i u → d ∉ sources
  apart : ∀ t i g u t' j g' v d, Called plan goal t i g → Wanted (plan.inner i) g u → Called plan goal t' j g' →
    Wanted (plan.inner j) g' v → d ∈ plan.writes i u → d ∈ plan.writes j v → i = j ∧ u = v

/-- Make stops with an error: no rule for a name it works on, and no file. -/
def Missing (plan : Plan α ι) (goal : α) (s : State α ι) (d : α) : Prop :=
  (Reaches plan.outer.prerequisites goal d ∧ d ∉ plan.outer.names ∧ d ∉ s.disk) ∨
  ∃ t i g, t ∈ s.outer.running ∧ plan.call t = some (i,g) ∧ Reaches (plan.inner i).prerequisites g d ∧
    d ∉ (plan.inner i).names ∧ d ∉ s.disk

def Starved (plan : Plan α ι) (s : State α ι) (i : ι) (u d : α) : Prop :=
  u ∈ (s.inner i).running ∧ d ∈ (plan.inner i).prerequisites u ∧ d ∉ plan.phony i ∧ d ∉ s.disk

/-- What holds at any time. -/
structure Kept (plan : Plan α ι) (goal : α) (sources : Set α) (s : State α ι) : Prop where
  outer : Sound plan.outer goal s.outer
  inner : ∀ t ∈ s.outer.started, ∀ i g, plan.call t = some (i,g) → Sound (plan.inner i) g (s.inner i)
  idle : ∀ i, (∀ t ∈ s.outer.started, ∀ g, plan.call t ≠ some (i,g)) → s.inner i = .idle
  returned : ∀ t ∈ s.outer.done, ∀ i g, plan.call t = some (i,g) → g ∈ (s.inner i).done
  sources : sources ⊆ s.disk
  written : ∀ i, ∀ u ∈ (s.inner i).done, ∀ d ∈ plan.writes i u, d ∈ s.disk

section Steps

variable {plan : Plan α ι} {goal : α} {sources : Set α} {s s' : State α ι}

theorem kept_begin (plan : Plan α ι) (goal : α) (sources disk : Set α) (given : sources ⊆ disk) :
    Kept plan goal sources (begin disk) where
  outer := sound_idle _ _
  inner := by simp [begin,Process.idle]
  idle _ _ := rfl
  returned := by simp [begin,Process.idle]
  sources := given
  written := by simp [begin,Process.idle]

theorem Kept.called (kept : Kept plan goal sources s) (started : t ∈ s.outer.started)
    (calls : plan.call t = some (i,g)) : Called plan goal t i g := ⟨kept.outer.wanted t started,calls⟩

theorem Kept.caller (kept : Kept plan goal sources s) (started : u ∈ (s.inner i).started) :
    ∃ t ∈ s.outer.started, ∃ g, plan.call t = some (i,g) := by
  by_contra none
  have idle := kept.idle i fun t member g calls => none ⟨t,member,g,calls⟩
  rw [idle] at started
  exact List.not_mem_nil started

theorem Kept.innerWanted (kept : Kept plan goal sources s) (started : u ∈ (s.inner i).started) :
    ∃ t g, t ∈ s.outer.started ∧ Called plan goal t i g ∧ Wanted (plan.inner i) g u := by
  obtain ⟨t,member,g,calls⟩ := kept.caller started
  exact ⟨t,g,member,kept.called member calls,(kept.inner t member i g calls).wanted u started⟩

theorem Kept.start (kept : Kept plan goal sources s) (fits : Fits plan goal sources)
    (ready : Ready plan.outer goal s.outer t) : Kept plan goal sources { s with outer := s.outer.start t } where
  outer := kept.outer.start ready
  inner := by
    intro t' member i g calls
    rcases List.mem_cons.mp member with rfl | before
    · -- Its make has not been called by another name.
      have idle : s.inner i = .idle := kept.idle i fun t'' started g' other =>
        ready.fresh (fits.alone t' t'' i g g' ⟨ready.wanted,calls⟩ (kept.called started other) ▸ started)
      exact idle ▸ sound_idle _ _
    · exact kept.inner t' before i g calls
  idle i uncalled := kept.idle i fun t' member => uncalled t' (List.mem_cons_of_mem _ member)
  returned := kept.returned
  sources := kept.sources
  written := kept.written

theorem Kept.finish [DecidableEq α] (kept : Kept plan goal sources s) (running : t ∈ s.outer.running)
    (returned : ∀ i g, plan.call t = some (i,g) → g ∈ (s.inner i).done) :
    Kept plan goal sources { s with outer := s.outer.finish t } := by
  have same : ∀ t', t' ∈ (s.outer.finish t).started ↔ t' ∈ s.outer.started :=
    fun t' => (Process.finish_started running).mem_iff
  exact {
    outer := kept.outer.finish running
    inner := fun t' member => kept.inner t' ((same t').mp member)
    idle := fun i uncalled => kept.idle i fun t' member => uncalled t' ((same t').mpr member)
    returned := List.forall_mem_cons.mpr ⟨returned,kept.returned⟩
    sources := kept.sources
    written := kept.written }

section Updates

variable [DecidableEq ι] {inner : ι → Process α} {i j : ι} {u v : α}

theorem start_done (inner : ι → Process α) (i : ι) (u : α) (j : ι) :
    (Function.update inner i ((inner i).start u) j).done = (inner j).done := by
  by_cases same : j = i
  · subst same
    rw [Function.update_self,Process.start_done]
  · rw [Function.update_of_ne same]

theorem mem_start_running : v ∈ (Function.update inner i ((inner i).start u) j).running ↔
    (j = i ∧ v = u) ∨ v ∈ (inner j).running := by
  by_cases same : j = i
  · subst same
    simp [Process.start]
  · simp [same]

theorem mem_finish_done [DecidableEq α] : v ∈ (Function.update inner i ((inner i).finish u) j).done ↔
    (j = i ∧ v = u) ∨ v ∈ (inner j).done := by
  by_cases same : j = i
  · subst same
    simp [Process.finish]
  · simp [same]

theorem of_finish_running [DecidableEq α] (member : v ∈ (Function.update inner i ((inner i).finish u) j).running) :
    v ∈ (inner j).running := by
  by_cases same : j = i
  · subst same
    rw [Function.update_self] at member
    exact List.mem_of_mem_erase member
  · rwa [Function.update_of_ne same] at member

theorem finish_running [DecidableEq α] (i : ι) (u : α) (member : v ∈ (inner j).running) :
    (j = i ∧ v = u) ∨ v ∈ (Function.update inner i ((inner i).finish u) j).running := by
  by_cases same : j = i
  · subst same
    rw [Function.update_self]
    by_cases own : v = u
    · exact .inl ⟨rfl,own⟩
    · exact .inr ((List.mem_erase_of_ne own).mpr member)
  · rw [Function.update_of_ne same]
    exact .inr member

end Updates

section Inner

variable [DecidableEq ι]

theorem Kept.innerSound (kept : Kept plan goal sources s) (fits : Fits plan goal sources) (started : t ∈ s.outer.started)
    (calls : plan.call t = some (i,g)) (sound : Sound (plan.inner i) g p) :
    ∀ t' ∈ s.outer.started, ∀ j g', plan.call t' = some (j,g') →
      Sound (plan.inner j) g' (Function.update s.inner i p j) := by
  intro t' member j g' calls'
  by_cases same : j = i
  · subst same
    obtain rfl := fits.alone t t' j g g' (kept.called started calls) (kept.called member calls')
    obtain ⟨-,rfl⟩ := Prod.mk.inj (Option.some.inj (calls.symm.trans calls'))
    rwa [Function.update_self]
  · rw [Function.update_of_ne same]
    exact kept.inner t' member j g' calls'

theorem Kept.innerIdle (kept : Kept plan goal sources s) (started : t ∈ s.outer.started)
    (calls : plan.call t = some (i,g)) (p : Process α) (j : ι)
    (uncalled : ∀ t' ∈ s.outer.started, ∀ g', plan.call t' ≠ some (j,g')) :
    Function.update s.inner i p j = .idle := by
  have other : j ≠ i := fun same => uncalled t started g (same ▸ calls)
  rw [Function.update_of_ne other]
  exact kept.idle j uncalled

theorem Kept.innerStart (kept : Kept plan goal sources s) (fits : Fits plan goal sources) (running : t ∈ s.outer.running)
    (calls : plan.call t = some (i,g)) (ready : Ready (plan.inner i) g (s.inner i) u) :
    Kept plan goal sources
      ⟨s.outer,Function.update s.inner i ((s.inner i).start u),s.disk \ { d | d ∈ plan.writes i u }⟩ := by
  have started : t ∈ s.outer.started := Process.mem_started.mpr (.inl running)
  have own := kept.called started calls
  exact {
    outer := kept.outer
    inner := kept.innerSound fits started calls ((kept.inner t started i g calls).start ready)
    idle := kept.innerIdle started calls _
    returned := fun t' member j g' calls' => by
      rw [start_done]
      exact kept.returned t' member j g' calls'
    sources := fun d source =>
      ⟨kept.sources source,fun writes => fits.kept t i g u d own ready.wanted writes source⟩
    written := fun j v finished d writes => by
      rw [start_done] at finished
      refine ⟨kept.written j v finished d writes,fun removed => ?_⟩
      obtain ⟨t',g',-,called,wanted⟩ := kept.innerWanted (Process.mem_started.mpr (.inr finished))
      obtain ⟨rfl,rfl⟩ := fits.apart t i g u t' j g' v d own ready.wanted called wanted removed writes
      exact ready.fresh (Process.mem_started.mpr (.inr finished)) }

theorem Kept.innerFinish [DecidableEq α] (kept : Kept plan goal sources s) (fits : Fits plan goal sources)
    (running : u ∈ (s.inner i).running) : Kept plan goal sources
      ⟨s.outer,Function.update s.inner i ((s.inner i).finish u),s.disk ∪ { d | d ∈ plan.writes i u }⟩ := by
  obtain ⟨t,started,g,calls⟩ := kept.caller (Process.mem_started.mpr (.inl running))
  exact {
    outer := kept.outer
    inner := kept.innerSound fits started calls ((kept.inner t started i g calls).finish running)
    idle := kept.innerIdle started calls _
    returned := fun t' member j g' calls' => mem_finish_done.mpr (.inr (kept.returned t' member j g' calls'))
    sources := fun d source => .inl (kept.sources source)
    written := fun j v finished d writes => by
      rcases mem_finish_done.mp finished with ⟨rfl,rfl⟩ | before
      · exact .inr writes
      · exact .inl (kept.written j v before d writes) }

end Inner

variable [DecidableEq α] [DecidableEq ι]

theorem Kept.step (kept : Kept plan goal sources s) (fits : Fits plan goal sources) (moved : Step plan goal s s') :
    Kept plan goal sources s' := by
  cases moved with
  | start ready => exact kept.start fits ready
  | finish running returned => exact kept.finish running returned
  | innerStart running calls ready => exact kept.innerStart fits running calls ready
  | innerFinish running => exact kept.innerFinish fits running

end Steps

section Results

variable {plan : Plan α ι} {goal : α} {sources : Set α} {s : State α ι}

theorem Kept.supplied (kept : Kept plan goal sources s) (fits : Fits plan goal sources) (started : t ∈ s.outer.started)
    (calls : plan.call t = some (i,g)) (path : Reaches (plan.inner i).prerequisites g d)
    (leaf : d ∉ (plan.inner i).names) : d ∈ s.disk := by
  rcases fits.inputs t i g d (kept.called started calls) path leaf with source | ⟨t',j,g',u,below,called,wanted,writes⟩
  · exact kept.sources source
  · obtain ⟨e,edge,path'⟩ := below
    have finished := kept.outer.below started edge path' called.1.2
    have member : t' ∈ s.outer.started := Process.mem_started.mpr (.inr finished)
    have sound := kept.inner t' member j g' called.2
    exact kept.written j u (sound.complete (kept.returned t' finished j g' called.2) wanted) d writes

theorem Kept.present (kept : Kept plan goal sources s) (fits : Fits plan goal sources) (d : α) :
    ¬Missing plan goal s d := by
  rintro (⟨path,leaf,absent⟩ | ⟨t,i,g,running,calls,path,leaf,absent⟩)
  · exact absent (kept.sources (fits.leaves d path leaf))
  · exact absent (kept.supplied fits (Process.mem_started.mpr (.inl running)) calls path leaf)

theorem Kept.fed (kept : Kept plan goal sources s) (fits : Fits plan goal sources) (i : ι) (u d : α) :
    ¬Starved plan s i u d := by
  rintro ⟨running,required,meant,absent⟩
  have started : u ∈ (s.inner i).started := Process.mem_started.mpr (.inl running)
  obtain ⟨t,member,g,calls⟩ := kept.caller started
  have sound := kept.inner t member i g calls
  by_cases ruled : d ∈ (plan.inner i).names
  · have wanted : Wanted (plan.inner i) g d := ⟨(sound.wanted u started).1.tail required,ruled⟩
    obtain ⟨v,named,path,writes⟩ := fits.made t i g d (kept.called member calls) wanted meant
    exact absent (kept.written i v (sound.below started required path named) d writes)
  · exact absent (kept.supplied fits member calls ((sound.wanted u started).1.tail required) ruled)

/-- A make only works once every make below it has made its goal. -/
theorem Kept.ordered (kept : Kept plan goal sources s) (fits : Fits plan goal sources)
    (own : Called plan goal t i g) (other : Called plan goal t' j g') (below : Below plan.outer t t')
    (started : u ∈ (s.inner i).started) : g' ∈ (s.inner j).done ∧ (s.inner j).running = [] := by
  obtain ⟨t'',member,g'',calls⟩ := kept.caller started
  obtain rfl := fits.alone t t'' i g g'' own (kept.called member calls)
  obtain ⟨d,edge,path⟩ := below
  have finished := kept.outer.below member edge path other.1.2
  have returned := kept.returned t' finished j g' other.2
  exact ⟨returned,(kept.inner t' (Process.mem_started.mpr (.inr finished)) j g' other.2).rests returned⟩

structure Complete (plan : Plan α ι) (goal : α) (s : State α ι) : Prop where
  outer : ∀ t, Wanted plan.outer goal t → t ∈ s.outer.done
  inner : ∀ t i g, Called plan goal t i g → ∀ u, Wanted (plan.inner i) g u → u ∈ (s.inner i).done
  written : ∀ t i g, Called plan goal t i g → ∀ u, Wanted (plan.inner i) g u → ∀ d ∈ plan.writes i u, d ∈ s.disk
  rests : s.outer.running = [] ∧ ∀ i, (s.inner i).running = []

theorem Kept.complete (kept : Kept plan goal sources s) (finished : goal ∈ s.outer.done) : Complete plan goal s := by
  have outer : ∀ t, Wanted plan.outer goal t → t ∈ s.outer.done := fun t wanted => kept.outer.complete finished wanted
  have returned : ∀ t i g, Called plan goal t i g → Sound (plan.inner i) g (s.inner i) ∧ g ∈ (s.inner i).done :=
    fun t i g called => ⟨kept.inner t (Process.mem_started.mpr (.inr (outer t called.1))) i g called.2,
      kept.returned t (outer t called.1) i g called.2⟩
  have inner : ∀ t i g, Called plan goal t i g → ∀ u, Wanted (plan.inner i) g u → u ∈ (s.inner i).done :=
    fun t i g called u wanted => (returned t i g called).1.complete (returned t i g called).2 wanted
  refine ⟨outer,inner,fun t i g called u wanted => kept.written i u (inner t i g called u wanted),
    kept.outer.rests finished,fun i => ?_⟩
  by_cases calls : ∃ t ∈ s.outer.started, ∃ g, plan.call t = some (i,g)
  · obtain ⟨t,started,g,calls⟩ := calls
    obtain ⟨sound,made⟩ := returned t i g (kept.called started calls)
    exact sound.rests made
  · rw [kept.idle i fun t member g calls' => calls ⟨t,member,g,calls'⟩]
    rfl

/-- Where every step leaves fewer to be taken, no run is endless. -/
theorem not_endless {σ : Type*} {step : σ → σ → Prop} {first : σ} (left : σ → Nat)
    (lower : ∀ {a b}, Relation.ReflTransGen step first a → step a b → left b < left a) (states : Nat → σ)
    (start : states 0 = first) : ¬∀ k, step (states k) (states (k + 1)) := by
  intro endless
  have reached : ∀ k, Relation.ReflTransGen step first (states k) := by
    intro k
    induction k with
    | zero => exact start ▸ .refl
    | succ k ih => exact ih.tail (endless k)
  have sum : ∀ k, left (states k) + k ≤ left (states 0) := by
    intro k
    induction k with
    | zero => exact Nat.le_refl _
    | succ k ih =>
      have := lower (reached k) (endless k)
      omega
  have := sum (left (states 0) + 1)
  omega

section Measure

variable [Fintype ι]

def State.left (plan : Plan α ι) (s : State α ι) : Nat :=
  s.outer.left plan.outer + ∑ i, (s.inner i).left (plan.inner i)

theorem inner_left [DecidableEq ι] (plan : Plan α ι) (processes : ι → Process α) {i : ι} {p : Process α}
    (less : p.left (plan.inner i) < (processes i).left (plan.inner i)) :
    ∑ j, (Function.update processes i p j).left (plan.inner j) < ∑ j, (processes j).left (plan.inner j) := by
  refine Finset.sum_lt_sum (fun j _ => ?_) ⟨i,Finset.mem_univ i,by rwa [Function.update_self]⟩
  by_cases same : j = i
  · subst same
    rw [Function.update_self]
    exact less.le
  · rw [Function.update_of_ne same]

theorem Kept.step_left [DecidableEq α] [DecidableEq ι] (kept : Kept plan goal sources s) (moved : Step plan goal s s') :
    s'.left plan < s.left plan := by
  cases moved with
  | start ready => exact Nat.add_lt_add_right (kept.outer.start_left ready) _
  | finish running returned => exact Nat.add_lt_add_right (kept.outer.finish_left running) _
  | @innerStart t i g u running calls ready =>
    have sound := kept.inner t (Process.mem_started.mpr (.inl running)) i g calls
    exact Nat.add_lt_add_left (inner_left plan s.inner (sound.start_left ready)) _
  | @innerFinish i u running =>
    obtain ⟨t,started,g,calls⟩ := kept.caller (Process.mem_started.mpr (.inl running))
    exact Nat.add_lt_add_left (inner_left plan s.inner ((kept.inner t started i g calls).finish_left running)) _

end Measure

variable [DecidableEq α] [DecidableEq ι]

/-- As long as the goal is not made, some step can be taken. -/
theorem Kept.progress (kept : Kept plan goal sources s) (fits : Fits plan goal sources)
    (unfinished : goal ∉ s.outer.done) : ∃ s', Step plan goal s s' := by
  rcases atWork : s.outer.running with _ | ⟨t,others⟩
  · obtain ⟨t,ready⟩ := ready_exists fits.acyclic fits.named atWork unfinished
    exact ⟨_,.start ready⟩
  · have running : t ∈ s.outer.running := by simp [atWork]
    rcases calls : plan.call t with _ | ⟨i,g⟩
    · exact ⟨_,.finish running (by simp [calls])⟩
    · by_cases returned : g ∈ (s.inner i).done
      · refine ⟨_,.finish running fun i' g' calls' => ?_⟩
        obtain ⟨rfl,rfl⟩ := Prod.mk.inj (Option.some.inj (calls.symm.trans calls'))
        exact returned
      · obtain ⟨named,acyclic⟩ := fits.called t i g (kept.called (Process.mem_started.mpr (.inl running)) calls)
        rcases inside : (s.inner i).running with _ | ⟨u,_⟩
        · obtain ⟨u,ready⟩ := ready_exists acyclic named inside returned
          exact ⟨_,.innerStart running calls ready⟩
        · exact ⟨_,.innerFinish (i := i) (u := u) (by simp [inside])⟩

end Results

section Alike

variable {plan plan' : Plan α ι} {goal : α} {sources : Set α}

/-- Plans that call the same makes on makefiles with the same rules. -/
structure Plan.Alike (plan plan' : Plan α ι) (goal : α) : Prop where
  outer : MakeRuns.Alike plan.outer plan'.outer
  call : ∀ t, Wanted plan.outer goal t → plan'.call t = plan.call t
  inner : ∀ t i g, Called plan goal t i g → MakeRuns.Alike (plan.inner i) (plan'.inner i)
  phony : ∀ t i g, Called plan goal t i g → ∀ d, d ∈ plan'.phony i ↔ d ∈ plan.phony i
  writes : plan'.writes = plan.writes

theorem Plan.Alike.called (alike : plan.Alike plan' goal) : Called plan' goal t i g ↔ Called plan goal t i g := by
  constructor
  · rintro ⟨wanted,calls⟩
    have wanted := alike.outer.wanted.mp wanted
    exact ⟨wanted,(alike.call t wanted).symm.trans calls⟩
  · rintro ⟨wanted,calls⟩
    exact ⟨alike.outer.wanted.mpr wanted,(alike.call t wanted).trans calls⟩

theorem Plan.Alike.below (alike : plan.Alike plan' goal) : Below plan'.outer t t' ↔ Below plan.outer t t' := by
  unfold Below
  rw [alike.outer.prerequisites]

theorem Plan.Alike.symm (alike : plan.Alike plan' goal) : plan'.Alike plan goal where
  outer := alike.outer.symm
  call t wanted := (alike.call t (alike.outer.wanted.mp wanted)).symm
  inner t i g called := (alike.inner t i g (alike.called.mp called)).symm
  phony t i g called d := (alike.phony t i g (alike.called.mp called) d).symm
  writes := alike.writes.symm

theorem Fits.alike (fits : Fits plan goal sources) (alike : plan.Alike plan' goal) : Fits plan' goal sources where
  named := (alike.outer.names goal).mpr fits.named
  acyclic := alike.outer.acyclic fits.acyclic
  leaves d path leaf := fits.leaves d (alike.outer.reaches.mp path) fun named => leaf ((alike.outer.names d).mpr named)
  called t i g called := by
    have called := alike.called.mp called
    have inner := alike.inner t i g called
    obtain ⟨named,acyclic⟩ := fits.called t i g called
    exact ⟨(inner.names g).mpr named,inner.acyclic acyclic⟩
  alone t t' i g g' called called' := fits.alone t t' i g g' (alike.called.mp called) (alike.called.mp called')
  inputs t i g d called path leaf := by
    have called := alike.called.mp called
    have inner := alike.inner t i g called
    rcases fits.inputs t i g d called (inner.reaches.mp path) fun named => leaf ((inner.names d).mpr named) with
      given | ⟨t',j,g',u,below,called',wanted,written⟩
    · exact .inl given
    · refine .inr ⟨t',j,g',u,alike.below.mpr below,alike.called.mpr called',?_,?_⟩
      · exact (alike.inner t' j g' called').wanted.mpr wanted
      · rwa [alike.writes]
  made t i g d called wanted meant := by
    have called := alike.called.mp called
    have inner := alike.inner t i g called
    obtain ⟨u,named,path,written⟩ := fits.made t i g d called (inner.wanted.mp wanted) fun isPhony =>
      meant ((alike.phony t i g called d).mpr isPhony)
    exact ⟨u,(inner.names u).mpr named,inner.reaches.mpr path,by rwa [alike.writes]⟩
  kept t i g u d called wanted written := by
    have called := alike.called.mp called
    rw [alike.writes] at written
    exact fits.kept t i g u d called ((alike.inner t i g called).wanted.mp wanted) written
  apart t i g u t' j g' v d called wanted called' wanted' written written' := by
    have called := alike.called.mp called
    have called' := alike.called.mp called'
    rw [alike.writes] at written written'
    exact fits.apart t i g u t' j g' v d called ((alike.inner t i g called).wanted.mp wanted) called'
      ((alike.inner t' j g' called').wanted.mp wanted') written written'

variable [DecidableEq α] [DecidableEq ι] {s s' : State α ι}

theorem Plan.Alike.step (alike : plan.Alike plan' goal) (sound : Sound plan.outer goal s.outer) (step : Step plan goal s s') :
    Step plan' goal s s' := by
  have called {t : α} {i : ι} {g : α} (running : t ∈ s.outer.running) (calls : plan.call t = some (i,g)) :
      Called plan goal t i g := ⟨sound.wanted t (Process.mem_started.mpr (.inl running)),calls⟩
  cases step with
  | start ready => exact .start (alike.outer.ready ready)
  | finish running returned =>
    refine .finish running fun i g calls => returned i g ?_
    rwa [alike.call _ (sound.wanted _ (Process.mem_started.mpr (.inl running)))] at calls
  | innerStart running calls ready =>
    have called := called running calls
    rw [← alike.writes]
    exact .innerStart running (alike.called.mpr called).2 ((alike.inner _ _ _ called).ready ready)
  | innerFinish running =>
    rw [← alike.writes]
    exact .innerFinish running

theorem step_outer (sound : Sound plan.outer goal s.outer) (step : Step plan goal s s') : Sound plan.outer goal s'.outer := by
  cases step with
  | start ready => exact sound.start ready
  | finish running => exact sound.finish running
  | innerStart | innerFinish => exact sound

theorem reachable_outer {disk : Set α} (reached : Reachable plan goal disk s) : Sound plan.outer goal s.outer := by
  induction reached with
  | refl => exact sound_idle _ _
  | tail _ moved ih => exact step_outer ih moved

theorem Plan.Alike.reaches {disk : Set α} (alike : plan.Alike plan' goal) (reached : Reachable plan goal disk s) :
    Reachable plan' goal disk s := by
  induction reached with
  | refl => exact .refl
  | tail before moved ih => exact ih.tail (alike.step (reachable_outer before) moved)

end Alike

end JkBuild.NestedMakes
