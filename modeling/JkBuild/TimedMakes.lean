import JkBuild.NestedMakes

/-! Makes that find the results of earlier runs on the disk. The recipe of a name is run only
when the file is missing or older than what it is made from. -/
namespace JkBuild.TimedMakes

open Reachability MakeRuns NestedMakes

universe u v

variable {α : Type u} {ι : Type v}

/-- As `NestedMakes.State`, with the recipes that were run and the times of the files that are
on the disk. -/
structure Timed (α : Type u) (ι : Type v) where
  outer : Process α
  inner : ι → Process α
  remade : ι → List α
  time : α → Option Nat
  clock : Nat

def Timed.begin (time : α → Option Nat) (clock : Nat) : Timed α ι := ⟨.idle,fun _ => .idle,fun _ => [],time,clock⟩

def Timed.plain (s : Timed α ι) : State α ι := ⟨s.outer,s.inner,{ d | s.time d ≠ none }⟩

/-- Both files are there, and the first is the newer one. -/
def Newer (time : α → Option Nat) (e u : α) : Prop := ∃ a b, time e = some a ∧ time u = some b ∧ b < a

/-- What the times alone tell: a name that is no file, a missing file, or a newer prerequisite. -/
def Behind (plan : Plan α ι) (time : α → Option Nat) (i : ι) (u : α) : Prop :=
  u ∈ plan.phony i ∨ time u = none ∨ ∃ e ∈ (plan.inner i).prerequisites u, time e = none ∨ Newer time e u

/-- A make runs the recipe of a name whose prerequisites it is done with. -/
def OutOfDate (plan : Plan α ι) (s : Timed α ι) (i : ι) (u : α) : Prop :=
  Behind plan s.time i u ∨ ∃ e ∈ (plan.inner i).prerequisites u, e ∈ s.remade i

/-- Files a recipe writes are gone while it is at work. It leaves each of them with a time of
its own. -/
inductive Timed.Step [DecidableEq α] [DecidableEq ι] (plan : Plan α ι) (goal : α) (s : Timed α ι) : Timed α ι → Prop
  | start (ready : Ready plan.outer goal s.outer t) : Step plan goal s { s with outer := s.outer.start t }
  | finish (running : t ∈ s.outer.running) (returned : ∀ i g, plan.call t = some (i,g) → g ∈ (s.inner i).done) :
      Step plan goal s { s with outer := s.outer.finish t }
  | skip (running : t ∈ s.outer.running) (calls : plan.call t = some (i,g))
      (ready : Ready (plan.inner i) g (s.inner i) u) (current : ¬OutOfDate plan s i u) :
      Step plan goal s { s with inner := Function.update s.inner i (((s.inner i).start u).finish u) }
  | remake (running : t ∈ s.outer.running) (calls : plan.call t = some (i,g))
      (ready : Ready (plan.inner i) g (s.inner i) u) (outdated : OutOfDate plan s i u) :
      Step plan goal s { s with
        inner := Function.update s.inner i ((s.inner i).start u)
        time := fun d => if d ∈ plan.writes i u then none else s.time d }
  | write (running : u ∈ (s.inner i).running) (time : α → Option Nat) (now : Nat) (later : s.clock ≤ now)
      (written : ∀ d ∈ plan.writes i u, ∃ a, time d = some a ∧ s.clock < a ∧ a ≤ now)
      (others : ∀ d, d ∉ plan.writes i u → time d = s.time d) :
      Step plan goal s ⟨s.outer,Function.update s.inner i ((s.inner i).finish u),
        Function.update s.remade i (u :: s.remade i),time,now⟩

def Timed.Reachable [DecidableEq α] [DecidableEq ι] (plan : Plan α ι) (goal : α) (s : Timed α ι) : Timed α ι → Prop :=
  Relation.ReflTransGen (Timed.Step plan goal) s

/-- A name that some make works on. -/
def Works (plan : Plan α ι) (goal : α) (i : ι) (u : α) : Prop :=
  ∃ t g, Called plan goal t i g ∧ Wanted (plan.inner i) g u

/-- What is made again when some names are: the names above them, in the same makefile or in one
that uses a file they write. -/
inductive Above (plan : Plan α ι) (goal : α) (cause : ι → α → Prop) : ι → α → Prop
  | first (works : Works plan goal i u) (own : cause i u) : Above plan goal cause i u
  | prerequisite (works : Works plan goal i u) (edge : e ∈ (plan.inner i).prerequisites u)
      (above : Above plan goal cause i e) : Above plan goal cause i u
  | file (works : Works plan goal i u) (edge : e ∈ (plan.inner i).prerequisites u) (written : e ∈ plan.writes j v)
      (above : Above plan goal cause j v) : Above plan goal cause i u

/-- What is to be made again, as the files are found. -/
def Stale (plan : Plan α ι) (goal : α) (time : α → Option Nat) : ι → α → Prop := Above plan goal (Behind plan time)

/-- Where a file is there, so are the others its recipe leaves. -/
def Whole (plan : Plan α ι) (goal : α) (time : α → Option Nat) : Prop :=
  ∀ i u, Works plan goal i u → time u ≠ none → ∀ d ∈ plan.writes i u, time d ≠ none

theorem Above.works {plan : Plan α ι} (above : Above plan goal cause i u) : Works plan goal i u := by
  cases above <;> assumption

section Writers

variable {plan : Plan α ι} {goal : α} {sources : Set α} {s : State α ι}

theorem Works.tail (works : Works plan goal i u) (path : Reaches (plan.inner i).prerequisites u e)
    (named : e ∈ (plan.inner i).names) : Works plan goal i e := by
  obtain ⟨t,g,called,wanted⟩ := works
  exact ⟨t,g,called,wanted.1.trans path,named⟩

theorem named_of_edge {m : Makefile α} (edge : d ∈ m.prerequisites t) : t ∈ m.names := by
  by_contra none
  rw [m.leaf t none] at edge
  exact absurd edge List.not_mem_nil

theorem Above.climb (above : Above plan goal cause i e) (works : Works plan goal i u)
    (path : Reaches (plan.inner i).prerequisites u e) : Above plan goal cause i u := by
  induction path using Relation.ReflTransGen.head_induction_on with
  | refl => exact above
  | head edge rest ih =>
    rename_i a c
    rcases Relation.ReflTransGen.cases_head rest with rfl | ⟨b,next,-⟩
    · exact .prerequisite works edge above
    · exact .prerequisite works edge (ih (works.tail (.single edge) (named_of_edge next)))

theorem Kept.works (kept : Kept plan goal sources s) (started : u ∈ (s.inner i).started) : Works plan goal i u := by
  obtain ⟨t,g,-,called,wanted⟩ := kept.innerWanted started
  exact ⟨t,g,called,wanted⟩

theorem Kept.writer (kept : Kept plan goal sources s) (fits : Fits plan goal sources) (member : t ∈ s.outer.started)
    (calls : plan.call t = some (i,g)) (wanted : Wanted (plan.inner i) g u)
    (waited : ∀ d ∈ (plan.inner i).prerequisites u, d ∈ (plan.inner i).names → d ∈ (s.inner i).done)
    (edge : e ∈ (plan.inner i).prerequisites u) (meant : e ∈ (plan.inner i).names → e ∉ plan.phony i)
    (works : Works plan goal j v) (written : e ∈ plan.writes j v) : v ∈ (s.inner j).done := by
  obtain ⟨t',g',called',wanted'⟩ := works
  have called := kept.called member calls
  have sound := kept.inner t member i g calls
  by_cases ruled : e ∈ (plan.inner i).names
  · obtain ⟨w,named,path,writes⟩ := fits.made t i g e called ⟨wanted.1.tail edge,ruled⟩ (meant ruled)
    obtain ⟨rfl,rfl⟩ := fits.apart t i g w t' j g' v e called ⟨(wanted.1.tail edge).trans path,named⟩ called' wanted'
      writes written
    have finished := waited e edge ruled
    rcases Relation.ReflTransGen.cases_head path with rfl | ⟨d,next,path'⟩
    · exact finished
    · exact sound.below (Process.mem_started.mpr (.inr finished)) next path' named
  · rcases fits.inputs t i g e called (wanted.1.tail edge) ruled with source | ⟨t'',k,g'',w,below,called'',wanted'',writes⟩
    · exact absurd source (fits.kept t' j g' v e called' wanted' written)
    · obtain ⟨rfl,rfl⟩ := fits.apart t'' k g'' w t' j g' v e called'' wanted'' called' wanted' writes written
      obtain ⟨d,next,path⟩ := below
      have finished := kept.outer.below member next path called''.1.2
      have started : t'' ∈ s.outer.started := Process.mem_started.mpr (.inr finished)
      exact (kept.inner t'' started k g'' called''.2).complete (kept.returned t'' finished k g'' called''.2) wanted''

theorem Works.own_writer (fits : Fits plan goal sources) (works : Works plan goal i u) (meant : u ∉ plan.phony i)
    (works' : Works plan goal j v) (written : u ∈ plan.writes j v) :
    j = i ∧ (v = u ∨ ∃ e ∈ (plan.inner i).prerequisites u, Reaches (plan.inner i).prerequisites e v) := by
  obtain ⟨t,g,called,wanted⟩ := works
  obtain ⟨t',g',called',wanted'⟩ := works'
  obtain ⟨w,named,path,writes⟩ := fits.made t i g u called wanted meant
  obtain ⟨rfl,rfl⟩ := fits.apart t i g w t' j g' v u called ⟨wanted.1.trans path,named⟩ called' wanted' writes written
  refine ⟨rfl,?_⟩
  rcases Relation.ReflTransGen.cases_head path with rfl | below
  · exact .inl rfl
  · exact .inr below

theorem Works.apart (fits : Fits plan goal sources) (works : Works plan goal i u) (works' : Works plan goal j v)
    (written : d ∈ plan.writes i u) (written' : d ∈ plan.writes j v) : i = j ∧ u = v := by
  obtain ⟨t,g,called,wanted⟩ := works
  obtain ⟨t',g',called',wanted'⟩ := works'
  exact fits.apart t i g u t' j g' v d called wanted called' wanted' written written'

end Writers

/-- What holds at any time of a run, given what was found at its start. -/
structure Timely (plan : Plan α ι) (goal : α) (sources : Set α) (found s : Timed α ι) : Prop where
  kept : Kept plan goal sources s.plain
  clock : found.clock ≤ s.clock
  past : ∀ d a, s.time d = some a → a ≤ s.clock
  remade : ∀ i, ∀ u ∈ s.remade i, u ∈ (s.inner i).done
  running : ∀ i, ∀ u ∈ (s.inner i).running, Stale plan goal found.time i u
  done : ∀ i, ∀ u ∈ (s.inner i).done, (u ∈ s.remade i ↔ Stale plan goal found.time i u)
  same : ∀ d, (∀ i u, u ∈ (s.inner i).running ∨ u ∈ s.remade i → d ∉ plan.writes i u) → s.time d = found.time d
  fresh : ∀ i, ∀ u ∈ s.remade i, ∀ d ∈ plan.writes i u, ∃ a, s.time d = some a ∧ found.clock < a
  ahead : ∀ i, ∀ u ∈ s.remade i, ∀ d ∈ plan.writes i u, ∀ e ∈ (plan.inner i).prerequisites u,
    (e ∈ (plan.inner i).names → e ∉ plan.phony i) → ¬Newer s.time e d

section Decisions

variable {plan : Plan α ι} {goal : α} {sources : Set α} {found s : Timed α ι}

/-- A name is about to be looked at. -/
structure Next (plan : Plan α ι) (s : Timed α ι) (i : ι) (u : α) : Prop where
  ready : ∃ t ∈ s.outer.started, ∃ g, plan.call t = some (i,g) ∧ Ready (plan.inner i) g (s.inner i) u

theorem Timely.works (timely : Timely plan goal sources found s) (started : u ∈ (s.inner i).started) :
    Works plan goal i u := Kept.works timely.kept started

theorem Timely.atWork (timely : Timely plan goal sources found s) (either : u ∈ (s.inner i).running ∨ u ∈ s.remade i) :
    u ∈ (s.inner i).started := Process.mem_started.mpr (either.imp_right (timely.remade i u))

theorem Timely.stale (timely : Timely plan goal sources found s) (either : u ∈ (s.inner i).running ∨ u ∈ s.remade i) :
    Stale plan goal found.time i u := by
  rcases either with running | remade
  · exact timely.running i u running
  · exact (timely.done i u (timely.remade i u remade)).mp remade

theorem Timely.busy (timely : Timely plan goal sources found s) (running : u ∈ (s.inner i).running) :
    u ∉ (s.inner i).done := by
  obtain ⟨t,member,g,calls⟩ := timely.kept.caller (Process.mem_started.mpr (.inl running))
  exact List.disjoint_of_nodup_append (timely.kept.inner t member i g calls).once running

theorem Next.works (timely : Timely plan goal sources found s) (next : Next plan s i u) : Works plan goal i u := by
  obtain ⟨t,member,g,calls,ready⟩ := next
  exact ⟨t,g,timely.kept.called member calls,ready.wanted⟩

theorem Next.writer (timely : Timely plan goal sources found s) (fits : Fits plan goal sources) (next : Next plan s i u)
    (edge : e ∈ (plan.inner i).prerequisites u) (meant : e ∈ (plan.inner i).names → e ∉ plan.phony i)
    (works : Works plan goal j v) (written : e ∈ plan.writes j v) : v ∈ (s.inner j).done := by
  obtain ⟨t,member,g,calls,ready⟩ := next
  exact Kept.writer timely.kept fits member calls ready.wanted ready.waited edge meant works written

theorem Next.up (timely : Timely plan goal sources found s) (next : Next plan s i u)
    (edge : e ∈ (plan.inner i).prerequisites u) (stale : Stale plan goal found.time i e) : e ∈ s.remade i := by
  obtain ⟨t,member,g,calls,ready⟩ := next
  obtain ⟨t',g',-,wanted⟩ := stale.works
  exact (timely.done i e (ready.waited e edge wanted.2)).mpr stale

/-- A prerequisite is as it was found, or was written in this run. -/
theorem Next.settled (timely : Timely plan goal sources found s) (fits : Fits plan goal sources) (next : Next plan s i u)
    (edge : e ∈ (plan.inner i).prerequisites u) (meant : e ∈ (plan.inner i).names → e ∉ plan.phony i) :
    s.time e = found.time e ∨ ∃ j, ∃ v ∈ s.remade j, e ∈ plan.writes j v := by
  by_cases written : ∃ j v, (v ∈ (s.inner j).running ∨ v ∈ s.remade j) ∧ e ∈ plan.writes j v
  · obtain ⟨j,v,running | remade,writes⟩ := written
    · have finished := next.writer timely fits edge meant (timely.works (timely.atWork (.inl running))) writes
      exact absurd finished (timely.busy running)
    · exact .inr ⟨j,v,remade,writes⟩
  · exact .inl (timely.same e fun j v either writes => written ⟨j,v,either,writes⟩)

theorem Next.own (timely : Timely plan goal sources found s) (fits : Fits plan goal sources) (next : Next plan s i u)
    (meant : u ∉ plan.phony i) :
    s.time u = found.time u ∨ ∃ e ∈ (plan.inner i).prerequisites u, e ∈ s.remade i := by
  by_cases written : ∃ j v, (v ∈ (s.inner j).running ∨ v ∈ s.remade j) ∧ u ∈ plan.writes j v
  · obtain ⟨j,v,either,writes⟩ := written
    have started := timely.atWork either
    obtain ⟨rfl,same | ⟨e,edge,path⟩⟩ := (next.works timely).own_writer fits meant (timely.works started) writes
    · subst same
      obtain ⟨t,member,g,calls,ready⟩ := next
      exact absurd started ready.fresh
    · have stale := timely.stale either
      have named : e ∈ (plan.inner j).names := by
        rcases Relation.ReflTransGen.cases_head path with rfl | ⟨b,first,-⟩
        · obtain ⟨t,g,-,wanted⟩ := timely.works started
          exact wanted.2
        · exact named_of_edge first
      have works := (next.works timely).tail (.single edge) named
      exact .inr ⟨e,edge,next.up timely edge (stale.climb works path)⟩
  · exact .inl (timely.same u fun j v either writes => written ⟨j,v,either,writes⟩)

theorem Next.fed (timely : Timely plan goal sources found s) (fits : Fits plan goal sources)
    (before : ∀ d a, found.time d = some a → a ≤ found.clock) (next : Next plan s i u)
    (edge : e ∈ (plan.inner i).prerequisites u) (remade : v ∈ s.remade j) (written : e ∈ plan.writes j v) :
    OutOfDate plan s i u := by
  by_cases meant : u ∈ plan.phony i
  · exact .inl (.inl meant)
  · obtain ⟨a,time,later⟩ := timely.fresh j v remade e written
    rcases next.own timely fits meant with same | below
    · rcases old : found.time u with _ | b
      · exact .inl (.inr (.inl (same.trans old)))
      · have newer : Newer s.time e u := ⟨a,b,time,same.trans old,Nat.lt_of_le_of_lt (before u b old) later⟩
        exact .inl (.inr (.inr ⟨e,edge,.inr newer⟩))
    · exact .inr below

theorem Next.phony (timely : Timely plan goal sources found s) (next : Next plan s i u)
    (edge : e ∈ (plan.inner i).prerequisites u) (named : e ∈ (plan.inner i).names) (phony : e ∈ plan.phony i) :
    Stale plan goal found.time i e := .first ((next.works timely).tail (.single edge) named) (.inl phony)

/-- Make decides by what it sees then, and that is what was to be made again from the start. -/
theorem Next.outOfDate_iff (timely : Timely plan goal sources found s) (fits : Fits plan goal sources)
    (before : ∀ d a, found.time d = some a → a ≤ found.clock) (next : Next plan s i u) :
    OutOfDate plan s i u ↔ Stale plan goal found.time i u := by
  have works := next.works timely
  have remade_stale (e : α) (edge : e ∈ (plan.inner i).prerequisites u) (remade : e ∈ s.remade i) :
      Stale plan goal found.time i u := .prerequisite works edge (timely.stale (.inr remade))
  constructor
  · rintro (behind | ⟨e,edge,remade⟩)
    · by_cases meant : u ∈ plan.phony i
      · exact .first works (.inl meant)
      rcases next.own timely fits meant with same | ⟨e,edge,remade⟩
      · rcases behind with phony | absent | ⟨e,edge,lacking⟩
        · exact absurd phony meant
        · exact .first works (.inr (.inl (same.symm.trans absent)))
        · by_cases phony : e ∈ (plan.inner i).names ∧ e ∈ plan.phony i
          · exact .prerequisite works edge (next.phony timely edge phony.1 phony.2)
          rcases next.settled timely fits edge (fun named forced => phony ⟨named,forced⟩) with old | ⟨j,v,remade,written⟩
          · refine .first works (.inr (.inr ⟨e,edge,?_⟩))
            simpa only [Newer,same,old] using lacking
          · exact .file works edge written (timely.stale (.inr remade))
      · exact remade_stale e edge remade
    · exact remade_stale e edge remade
  · intro stale
    cases stale with
    | first _ behind =>
      by_cases meant : u ∈ plan.phony i
      · exact .inl (.inl meant)
      rcases next.own timely fits meant with same | below
      · rcases behind with phony | absent | ⟨e,edge,lacking⟩
        · exact absurd phony meant
        · exact .inl (.inr (.inl (same.trans absent)))
        · by_cases phony : e ∈ (plan.inner i).names ∧ e ∈ plan.phony i
          · exact .inr ⟨e,edge,next.up timely edge (next.phony timely edge phony.1 phony.2)⟩
          rcases next.settled timely fits edge (fun named forced => phony ⟨named,forced⟩) with old | ⟨j,v,remade,written⟩
          · refine .inl (.inr (.inr ⟨e,edge,?_⟩))
            simpa only [Newer,same,old] using lacking
          · exact next.fed timely fits before edge remade written
      · exact .inr below
    | prerequisite _ edge above => exact .inr ⟨_,edge,next.up timely edge above⟩
    | @file _ _ e j v _ edge written above =>
      by_cases phony : e ∈ (plan.inner i).names ∧ e ∈ plan.phony i
      · exact .inr ⟨e,edge,next.up timely edge (next.phony timely edge phony.1 phony.2)⟩
      have finished := next.writer timely fits edge (fun named forced => phony ⟨named,forced⟩) above.works written
      exact next.fed timely fits before edge ((timely.done j v finished).mpr above) written

end Decisions

section Steps

variable {plan : Plan α ι} {goal : α} {sources : Set α} {found s s' : Timed α ι}

theorem timely_begin (plan : Plan α ι) (goal : α) (sources : Set α) (time : α → Option Nat) (clock : Nat)
    (given : ∀ d ∈ sources, time d ≠ none) (before : ∀ d a, time d = some a → a ≤ clock) :
    Timely plan goal sources (.begin time clock) (.begin time clock) where
  kept := kept_begin plan goal sources _ given
  clock := Nat.le_refl _
  past := before
  remade := by simp [Timed.begin]
  running := by simp [Timed.begin,Process.idle]
  done := by simp [Timed.begin,Process.idle]
  same _ _ := rfl
  fresh := by simp [Timed.begin]
  ahead := by simp [Timed.begin]

theorem Timely.outer (timely : Timely plan goal sources found s)
    (kept : Kept plan goal sources ({ s with outer := p } : Timed α ι).plain) :
    Timely plan goal sources found { s with outer := p } := { timely with kept := kept }

theorem Timely.skipped (timely : Timely plan goal sources found s) (fits : Fits plan goal sources)
    (whole : Whole plan goal found.time) (works : Works plan goal i u) (calm : ¬Stale plan goal found.time i u)
    (written : d ∈ plan.writes i u) : s.time d ≠ none := by
  have there : found.time u ≠ none := fun absent => calm (.first works (.inr (.inl absent)))
  rw [timely.same d fun j v either writes => ?_]
  · exact whole i u works there d written
  · obtain ⟨rfl,rfl⟩ := works.apart fits (timely.works (timely.atWork either)) written writes
    exact calm (timely.stale either)

variable [DecidableEq ι] [DecidableEq α]

theorem skip_done (inner : ι → Process α) (i : ι) (u : α) :
    v ∈ (Function.update inner i (((inner i).start u).finish u) j).done ↔ (j = i ∧ v = u) ∨ v ∈ (inner j).done := by
  by_cases same : j = i
  · subst same
    simp [Process.finish,Process.start]
  · simp [same]

theorem skip_running (inner : ι → Process α) (i : ι) (u : α) (j : ι) :
    (Function.update inner i (((inner i).start u).finish u) j).running = (inner j).running := by
  by_cases same : j = i
  · subst same
    simp [Process.finish,Process.start]
  · rw [Function.update_of_ne same]

theorem Timely.skip (timely : Timely plan goal sources found s) (fits : Fits plan goal sources)
    (before : ∀ d a, found.time d = some a → a ≤ found.clock) (whole : Whole plan goal found.time)
    (running : t ∈ s.outer.running) (calls : plan.call t = some (i,g)) (ready : Ready (plan.inner i) g (s.inner i) u)
    (current : ¬OutOfDate plan s i u) :
    Timely plan goal sources found { s with inner := Function.update s.inner i (((s.inner i).start u).finish u) } := by
  have next : Next plan s i u := ⟨t,Process.mem_started.mpr (.inl running),g,calls,ready⟩
  have calm : ¬Stale plan goal found.time i u := fun stale => current ((next.outOfDate_iff timely fits before).mpr stale)
  -- As if the recipe had been run, for its files are there.
  have begun := timely.kept.innerStart fits running calls ready
  have ended := begun.innerFinish fits (u := u) (mem_start_running.mpr (.inl ⟨rfl,rfl⟩))
  have disk : (s.plain.disk \ { d | d ∈ plan.writes i u }) ∪ { d | d ∈ plan.writes i u } = s.plain.disk :=
    Set.sdiff_union_of_subset fun d written => timely.skipped fits whole (next.works timely) calm written
  have unmade : u ∉ s.remade i := fun remade =>
    ready.fresh (Process.mem_started.mpr (.inr (timely.remade i u remade)))
  exact {
    kept := by
      simp only [disk,Function.update_self,Function.update_idem] at ended
      exact ended
    clock := timely.clock
    past := timely.past
    remade := fun j v member => (skip_done ..).mpr (.inr (timely.remade j v member))
    running := fun j v member => timely.running j v (by rwa [skip_running] at member)
    done := fun j v member => by
      rcases (skip_done ..).mp member with ⟨rfl,rfl⟩ | old
      · exact iff_of_false unmade calm
      · exact timely.done j v old
    same := fun d unwritten => timely.same d fun j v either => unwritten j v (by rwa [skip_running])
    fresh := timely.fresh
    ahead := timely.ahead }

theorem Timely.remake (timely : Timely plan goal sources found s) (fits : Fits plan goal sources)
    (before : ∀ d a, found.time d = some a → a ≤ found.clock)
    (running : t ∈ s.outer.running) (calls : plan.call t = some (i,g)) (ready : Ready (plan.inner i) g (s.inner i) u)
    (outdated : OutOfDate plan s i u) :
    Timely plan goal sources found { s with
      inner := Function.update s.inner i ((s.inner i).start u)
      time := fun d => if d ∈ plan.writes i u then none else s.time d } := by
  have next : Next plan s i u := ⟨t,Process.mem_started.mpr (.inl running),g,calls,ready⟩
  have works := next.works timely
  have disk : { d | (if d ∈ plan.writes i u then none else s.time d) ≠ none } =
      s.plain.disk \ { d | d ∈ plan.writes i u } := by
    ext d
    by_cases written : d ∈ plan.writes i u <;> simp [Timed.plain,written]
  have unmade : u ∉ s.remade i := fun remade =>
    ready.fresh (Process.mem_started.mpr (.inr (timely.remade i u remade)))
  -- No file is written by two recipes.
  have kept {j : ι} {v d : α} (remade : v ∈ s.remade j) (written : d ∈ plan.writes j v) : d ∉ plan.writes i u := by
    intro again
    obtain ⟨rfl,rfl⟩ := works.apart fits (timely.works (timely.atWork (.inr remade))) again written
    exact unmade remade
  exact {
    kept := by
      have := timely.kept.innerStart fits running calls ready
      rw [← disk] at this
      exact this
    clock := timely.clock
    past := fun d a time => by
      by_cases written : d ∈ plan.writes i u <;> simp [written] at time
      exact timely.past d a time
    remade := fun j v member => by
      rw [start_done]
      exact timely.remade j v member
    running := fun j v member => by
      rcases mem_start_running.mp member with ⟨rfl,rfl⟩ | old
      · exact (next.outOfDate_iff timely fits before).mp outdated
      · exact timely.running j v old
    done := fun j v member => by
      rw [start_done] at member
      exact timely.done j v member
    same := fun d unwritten => by
      have own : d ∉ plan.writes i u := unwritten i u (.inl (mem_start_running.mpr (.inl ⟨rfl,rfl⟩)))
      simp only [own,if_false]
      exact timely.same d fun j v either => unwritten j v (either.imp_left fun old => mem_start_running.mpr (.inr old))
    fresh := fun j v remade d written => by
      simp only [kept remade written,if_false]
      exact timely.fresh j v remade d written
    ahead := fun j v remade d written e edge meant => by
      rintro ⟨a,b,first,second,less⟩
      refine timely.ahead j v remade d written e edge meant ⟨a,b,?_,?_,less⟩
      · by_cases gone : e ∈ plan.writes i u
        · simp [gone] at first
        · simpa only [gone,if_false] using first
      · simpa only [kept remade written,if_false] using second }

theorem Timely.write (timely : Timely plan goal sources found s) (fits : Fits plan goal sources)
    (running : u ∈ (s.inner i).running) (later : s.clock ≤ now)
    (written : ∀ d ∈ plan.writes i u, ∃ a, time d = some a ∧ s.clock < a ∧ a ≤ now)
    (others : ∀ d, d ∉ plan.writes i u → time d = s.time d) :
    Timely plan goal sources found ⟨s.outer,Function.update s.inner i ((s.inner i).finish u),
      Function.update s.remade i (u :: s.remade i),time,now⟩ := by
  have works := timely.works (Process.mem_started.mpr (.inl running))
  have busy := timely.busy running
  have disk : { d | time d ≠ none } = s.plain.disk ∪ { d | d ∈ plan.writes i u } := by
    ext d
    by_cases own : d ∈ plan.writes i u
    · obtain ⟨a,now',-⟩ := written d own
      simp [own,now']
    · simp [Timed.plain,own,others d own]
  have made {j : ι} {v : α} : v ∈ Function.update s.remade i (u :: s.remade i) j ↔
      (j = i ∧ v = u) ∨ v ∈ s.remade j := by
    by_cases same : j = i
    · subst same
      simp
    · simp [same]
  -- What another recipe wrote, and what it was made from, stays as it is.
  have kept {j : ι} {v d : α} (remade : v ∈ s.remade j) (own : d ∈ plan.writes j v) : time d = s.time d := by
    refine others d fun again => ?_
    obtain ⟨rfl,rfl⟩ := works.apart fits (timely.works (timely.atWork (.inr remade))) again own
    exact busy (timely.remade i u remade)
  have settled {j : ι} {v e : α} (started : v ∈ (s.inner j).started) (edge : e ∈ (plan.inner j).prerequisites v)
      (meant : e ∈ (plan.inner j).names → e ∉ plan.phony j) : time e = s.time e := by
    obtain ⟨t,member,g,calls⟩ := timely.kept.caller started
    have sound := timely.kept.inner t member j g calls
    exact others e fun again => busy (Kept.writer timely.kept fits member calls (sound.wanted v started)
      (sound.waited v started) edge meant works again)
  exact {
    kept := by
      have := timely.kept.innerFinish fits running
      rw [← disk] at this
      exact this
    clock := timely.clock.trans later
    past := fun d a at_d => by
      by_cases own : d ∈ plan.writes i u
      · obtain ⟨b,at_d',-,bound⟩ := written d own
        exact Option.some.inj (at_d'.symm.trans at_d) ▸ bound
      · exact (timely.past d a ((others d own).symm.trans at_d)).trans later
    remade := fun j v member => mem_finish_done.mpr ((made.mp member).imp_right (timely.remade j v))
    running := fun j v member => timely.running j v (of_finish_running member)
    done := fun j v member => by
      rcases mem_finish_done.mp member with ⟨rfl,rfl⟩ | old
      · exact iff_of_true (made.mpr (.inl ⟨rfl,rfl⟩)) (timely.running _ _ running)
      · refine ⟨fun remade => ?_,fun stale => made.mpr (.inr ((timely.done j v old).mpr stale))⟩
        rcases made.mp remade with ⟨rfl,rfl⟩ | before
        · exact timely.running _ _ running
        · exact (timely.done j v old).mp before
    same := fun d unwritten => by
      have own : d ∉ plan.writes i u := unwritten i u (.inr (made.mpr (.inl ⟨rfl,rfl⟩)))
      refine (others d own).trans (timely.same d fun j v either => ?_)
      rcases either with atWork | before
      · rcases finish_running i u atWork with ⟨rfl,rfl⟩ | still
        · exact own
        · exact unwritten j v (.inl still)
      · exact unwritten j v (.inr (made.mpr (.inr before)))
    fresh := fun j v remade d own => by
      rcases made.mp remade with ⟨rfl,rfl⟩ | before
      · obtain ⟨a,at_d,late,-⟩ := written d own
        exact ⟨a,at_d,Nat.lt_of_le_of_lt timely.clock late⟩
      · obtain ⟨a,at_d,late⟩ := timely.fresh j v before d own
        exact ⟨a,(kept before own).trans at_d,late⟩
    ahead := fun j v remade d own e edge meant => by
      rcases made.mp remade with ⟨rfl,rfl⟩ | before
      · rintro ⟨a,b,at_e,at_d,less⟩
        obtain ⟨b',at_d',late,-⟩ := written d own
        obtain rfl := Option.some.inj (at_d.symm.trans at_d')
        have unchanged := settled (Process.mem_started.mpr (.inl running)) edge meant
        have bound := timely.past e a (unchanged.symm.trans at_e)
        omega
      · have unchanged := settled (timely.atWork (.inr before)) edge meant
        simpa only [Newer,unchanged,kept before own] using timely.ahead j v before d own e edge meant }

theorem Timely.step (timely : Timely plan goal sources found s) (fits : Fits plan goal sources)
    (before : ∀ d a, found.time d = some a → a ≤ found.clock) (whole : Whole plan goal found.time)
    (moved : Timed.Step plan goal s s') : Timely plan goal sources found s' := by
  cases moved with
  | start ready => exact timely.outer (timely.kept.start fits ready)
  | finish running returned => exact timely.outer (timely.kept.finish running returned)
  | skip running calls ready current => exact timely.skip fits before whole running calls ready current
  | remake running calls ready outdated => exact timely.remake fits before running calls ready outdated
  | write running time now later written others => exact timely.write fits running later written others

end Steps

section Results

variable {plan : Plan α ι} {goal : α} {sources : Set α} {s : Timed α ι} {time : α → Option Nat} {clock : Nat}

/-- What is on the disk when make is started: the sources, and what earlier runs left. -/
structure Found (plan : Plan α ι) (goal : α) (sources : Set α) (time : α → Option Nat) (clock : Nat) : Prop where
  given : ∀ d ∈ sources, time d ≠ none
  past : ∀ d a, time d = some a → a ≤ clock
  whole : Whole plan goal time

/-- Runs on what earlier runs left: none is endless, stops early or lacks a file, and in all of
them the same recipes are run. -/
structure Incremental [DecidableEq α] [DecidableEq ι] (plan : Plan α ι) (goal : α) (found : Timed α ι) : Prop where
  ends : ∀ states : Nat → Timed α ι, states 0 = found → ¬∀ k, Timed.Step plan goal (states k) (states (k + 1))
  present : ∀ s, Timed.Reachable plan goal found s → ∀ d, ¬Missing plan goal s.plain d
  fed : ∀ s, Timed.Reachable plan goal found s → ∀ i u d, ¬Starved plan s.plain i u d
  completes : ∀ s, Timed.Reachable plan goal found s → (∀ s', ¬Timed.Step plan goal s s') → Complete plan goal s.plain
  remade : ∀ s, Timed.Reachable plan goal found s → (∀ s', ¬Timed.Step plan goal s s') →
    ∀ i u, u ∈ s.remade i ↔ Stale plan goal found.time i u

theorem works_done (complete : Complete plan goal s.plain) (works : Works plan goal i u) : u ∈ (s.inner i).done := by
  obtain ⟨t,g,called,wanted⟩ := works
  exact complete.inner t i g called u wanted

variable [DecidableEq α] [DecidableEq ι]

theorem Found.timely (found : Found plan goal sources time clock) (fits : Fits plan goal sources)
    (reached : Timed.Reachable plan goal (.begin time clock) s) : Timely plan goal sources (.begin time clock) s := by
  induction reached with
  | refl => exact timely_begin plan goal sources time clock found.given found.past
  | tail _ moved ih => exact ih.step fits found.past found.whole moved

theorem Timely.step_left [Fintype ι] (timely : Timely plan goal sources found s) (fits : Fits plan goal sources)
    (moved : Timed.Step plan goal s s') : s'.plain.left plan < s.plain.left plan := by
  cases moved with
  | start ready => exact timely.kept.step_left (.start ready)
  | finish running returned => exact timely.kept.step_left (.finish running returned)
  | skip running calls ready current =>
    have begun := timely.kept.step_left (.innerStart running calls ready)
    have ended := (timely.kept.innerStart fits running calls ready).step_left
      (.innerFinish (mem_start_running.mpr (.inl ⟨rfl,rfl⟩)))
    simp only [Function.update_self,Function.update_idem] at ended
    exact Nat.lt_trans ended begun
  | remake running calls ready outdated =>
    have less := timely.kept.step_left (.innerStart running calls ready)
    exact less
  | write running time now later written others =>
    have less := timely.kept.step_left (.innerFinish running)
    exact less

theorem Timely.progress (timely : Timely plan goal sources found s) (fits : Fits plan goal sources)
    (unfinished : goal ∉ s.outer.done) : ∃ s', Timed.Step plan goal s s' := by
  obtain ⟨s',moved⟩ := timely.kept.progress fits unfinished
  cases moved with
  | start ready => exact ⟨_,.start ready⟩
  | finish running returned => exact ⟨_,.finish running returned⟩
  | @innerStart t i g u running calls ready =>
    by_cases outdated : OutOfDate plan s i u
    · exact ⟨_,.remake running calls ready outdated⟩
    · exact ⟨_,.skip running calls ready outdated⟩
  | @innerFinish i u running =>
    refine ⟨_,.write running (fun d => if d ∈ plan.writes i u then some (s.clock + 1) else s.time d) (s.clock + 1)
      (Nat.le_succ _) (fun d own => ?_) fun d other => ?_⟩
    · exact ⟨s.clock + 1,by simp [own],Nat.lt_succ_self _,Nat.le_refl _⟩
    · simp [other]

theorem Found.incremental [Fintype ι] (found : Found plan goal sources time clock) (fits : Fits plan goal sources) :
    Incremental plan goal (.begin time clock) := by
  have completes (s : Timed α ι) (reached : Timed.Reachable plan goal (.begin time clock) s)
      (stuck : ∀ s', ¬Timed.Step plan goal s s') : Complete plan goal s.plain := by
    have timely := found.timely fits reached
    refine timely.kept.complete (by_contra fun unfinished => ?_)
    obtain ⟨s',moved⟩ := timely.progress fits unfinished
    exact stuck s' moved
  refine ⟨fun states => ?_,fun s reached => ?_,fun s reached => ?_,completes,fun s reached stuck i u => ?_⟩
  · exact not_endless (·.plain.left plan) (fun reached => (found.timely fits reached).step_left fits) states
  · exact (found.timely fits reached).kept.present fits
  · exact (found.timely fits reached).kept.fed fits
  · have timely := found.timely fits reached
    refine ⟨fun remade => timely.stale (.inr remade),fun stale => ?_⟩
    exact (timely.done i u (works_done (completes s reached stuck) stale.works)).mpr stale

end Results

section Edits

variable {plan : Plan α ι} {goal : α} {sources : Set α} {found s : Timed α ι} {time : α → Option Nat} {clock : Nat}

/-- Recipes that leave files leave the one they are named by, and are made from files. -/
structure Firm (plan : Plan α ι) (goal : α) : Prop where
  own : ∀ i u d, Works plan goal i u → d ∈ plan.writes i u → u ∈ plan.writes i u
  meant : ∀ i u, Works plan goal i u → u ∈ plan.writes i u → u ∉ plan.phony i
  below : ∀ i u e, Works plan goal i u → u ∈ plan.writes i u → e ∈ (plan.inner i).prerequisites u →
    e ∈ (plan.inner i).names → e ∈ plan.phony i ∨ e ∈ plan.writes i e

/-- Some files were written after the run. -/
structure Edited (files : Set α) (s : Timed α ι) (time : α → Option Nat) : Prop where
  later : ∀ d ∈ files, ∃ a, time d = some a ∧ s.clock < a
  others : ∀ d, d ∉ files → time d = s.time d

/-- A file with a recipe is there at the end, and not older than what it is made from. -/
theorem Timely.current (timely : Timely plan goal sources found s) (fits : Fits plan goal sources)
    (complete : Complete plan goal s.plain) (works : Works plan goal i u) (own : u ∈ plan.writes i u) :
    s.time u ≠ none ∧ ∀ e ∈ (plan.inner i).prerequisites u, (e ∈ (plan.inner i).names → e ∉ plan.phony i) →
      s.time e ≠ none ∧ ¬Newer s.time e u := by
  obtain ⟨t,g,called,wanted⟩ := works
  have written (w d : α) (wanted' : Wanted (plan.inner i) g w) (writes : d ∈ plan.writes i w) : s.time d ≠ none :=
    complete.written t i g called w wanted' d writes
  have member : t ∈ s.outer.started := Process.mem_started.mpr (.inr (complete.outer t called.1))
  have works : Works plan goal i u := ⟨t,g,called,wanted⟩
  have finished := works_done complete works
  refine ⟨written u u wanted own,fun e edge file => ⟨?_,fun newer => ?_⟩⟩
  · by_cases ruled : e ∈ (plan.inner i).names
    · obtain ⟨w,named,path,writes⟩ := fits.made t i g e called ⟨wanted.1.tail edge,ruled⟩ (file ruled)
      exact written w e ⟨(wanted.1.tail edge).trans path,named⟩ writes
    · exact timely.kept.supplied fits member called.2 (wanted.1.tail edge) ruled
  · by_cases remade : u ∈ s.remade i
    · exact timely.ahead i u remade u own e edge file newer
    -- Neither the file nor what it is made from was written, so it was older from the start.
    · have calm : ¬Stale plan goal found.time i u := fun stale => remade ((timely.done i u finished).mpr stale)
      have same : s.time u = found.time u := by
        refine timely.same u fun j v either writes => ?_
        obtain ⟨rfl,rfl⟩ := works.apart fits (timely.works (timely.atWork either)) own writes
        exact calm (timely.stale either)
      have old : s.time e = found.time e := by
        refine timely.same e fun j v either writes => ?_
        exact calm (.file works edge writes (timely.stale either))
      exact calm (.first works (.inr (.inr ⟨e,edge,.inr (by simpa only [Newer,same,old] using newer)⟩)))

theorem Works.unedited (fits : Fits plan goal sources) (works : Works plan goal i u) (written : d ∈ plan.writes i u) :
    d ∉ sources := by
  obtain ⟨t,g,called,wanted⟩ := works
  exact fits.kept t i g u d called wanted written

/-- What a run leaves can be built on after an edit. -/
theorem Timely.leaves (timely : Timely plan goal sources found s) (fits : Fits plan goal sources)
    (complete : Complete plan goal s.plain) (inside : files ⊆ sources) (edited : Edited files s time)
    (past : ∀ d a, time d = some a → a ≤ clock) : Found plan goal sources time clock where
  given d source := by
    by_cases edit : d ∈ files
    · obtain ⟨a,at_d,-⟩ := edited.later d edit
      simp [at_d]
    · rw [edited.others d edit]
      exact timely.kept.sources source
  past := past
  whole i u works _ d written := by
    rw [edited.others d fun edit => works.unedited fits written (inside edit)]
    obtain ⟨t,g,called,wanted⟩ := works
    exact complete.written t i g called u wanted d written

theorem found_clean (fits : Fits plan goal sources) (firm : Firm plan goal) (given : ∀ d ∈ sources, time d ≠ none)
    (others : ∀ d, d ∉ sources → time d = none) (past : ∀ d a, time d = some a → a ≤ clock) :
    Found plan goal sources time clock where
  given := given
  past := past
  whole i u works there d written := by
    have made := works.unedited fits (firm.own i u d works written)
    exact absurd (others u made) there

end Edits

section Histories

variable {plan : Plan α ι} {goal : α} {sources inputs : Set α}

/-- A disk after any number of runs, each followed by edits of some of the given files. -/
inductive History [DecidableEq α] [DecidableEq ι] (plan : Plan α ι) (goal : α) (sources inputs : Set α) :
    (α → Option Nat) → Nat → Prop
  | clean (given : ∀ d ∈ sources, time d ≠ none) (others : ∀ d, d ∉ sources → time d = none)
      (past : ∀ d a, time d = some a → a ≤ clock) : History plan goal sources inputs time clock
  | run (before : History plan goal sources inputs time clock) (reached : Timed.Reachable plan goal (.begin time clock) s)
      (stuck : ∀ s', ¬Timed.Step plan goal s s') (inside : files ⊆ inputs) (edited : Edited files s time')
      (past : ∀ d a, time' d = some a → a ≤ clock') : History plan goal sources inputs time' clock'

theorem History.found [DecidableEq α] [DecidableEq ι] [Fintype ι] (history : History plan goal sources inputs time clock)
    (fits : Fits plan goal sources) (firm : Firm plan goal) (inside : inputs ⊆ sources) :
    Found plan goal sources time clock := by
  induction history with
  | clean given others past => exact found_clean fits firm given others past
  | run _ reached stuck files edited past ih =>
    have complete := (ih.incremental fits).completes _ reached stuck
    exact (ih.timely fits reached).leaves fits complete (files.trans inside) edited past

end Histories

end JkBuild.TimedMakes
