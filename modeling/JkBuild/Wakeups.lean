import JkBuild.WorkerPool
import Mathlib.Data.Finset.Basic

/-! The pool with its condition variable, on which the workers wait for a task and the
destructor for an empty queue. A step is one critical section, up to where a thread blocks. -/
namespace JkBuild.ConditionVariable

/-! A condition variable, by the set of the threads that are asleep on it: blocked in `wait`
with no wake-up delivered. A thread that has been woken looks at its predicate again like one
that calls `wait` anew, so it is in no set. -/

variable [DecidableEq ι]

def block (asleep : Finset ι) (thread : ι) : Finset ι := insert thread asleep

def wake (asleep : Finset ι) (thread : ι) : Finset ι := asleep.erase thread

/-- The threads `notify_one` may pick: any that is asleep, and none if there is none. -/
def Chooses (asleep : Finset ι) : Option ι → Prop
  | none => asleep = ∅
  | some thread => thread ∈ asleep

instance (asleep : Finset ι) : (chosen : Option ι) → Decidable (Chooses asleep chosen)
  | none => inferInstanceAs (Decidable (asleep = ∅))
  | some thread => inferInstanceAs (Decidable (thread ∈ asleep))

def notifyOne (asleep : Finset ι) : Option ι → Finset ι
  | none => asleep
  | some thread => wake asleep thread

@[simp] theorem mem_block {asleep : Finset ι} : other ∈ block asleep thread ↔ other = thread ∨ other ∈ asleep :=
  Finset.mem_insert

@[simp] theorem mem_wake {asleep : Finset ι} : other ∈ wake asleep thread ↔ other ≠ thread ∧ other ∈ asleep :=
  Finset.mem_erase

theorem notifyOne_subset (asleep : Finset ι) (chosen : Option ι) : notifyOne asleep chosen ⊆ asleep := by
  cases chosen with
  | none => exact Finset.Subset.refl _
  | some thread => exact Finset.erase_subset thread asleep

/-- If only threads of one group are asleep, `notify_one` leaves one of the group awake. -/
theorem notifyOne_awake {asleep : Finset ι} {group : ι → Prop} (member : group thread)
    (only : ∀ other ∈ asleep, group other) (chooses : Chooses asleep chosen) :
    ∃ other, group other ∧ other ∉ notifyOne asleep chosen := by
  cases chosen with
  | none =>
    obtain rfl : asleep = ∅ := chooses
    exact ⟨thread,member,Finset.notMem_empty _⟩
  | some other => exact ⟨other,only other chooses,by simp [notifyOne]⟩

end JkBuild.ConditionVariable

namespace JkBuild.WorkerPool.Wakeups

open ConditionVariable

inductive Thread (n : Nat) where
  | worker (i : Fin n)
  | destructor
  deriving DecidableEq, Repr

structure State (n : Nat) where
  pool : WorkerPool.State n
  asleep : Finset (Thread n)
  /-- The owner has entered the destructor. -/
  destroying : Bool

variable {n : Nat}

/-- The sections of `WorkerPool`, with the thread that a `notify_one` wakes, and with `pop` and
`waitUntilEmpty` as the sections that may block, again after each wake-up. -/
inductive Label (n : Nat) where
  | push (source : Option (Fin n)) (chosen : Option (Thread n))
  | pop (worker : Fin n)
  | start (worker : Fin n)
  | finish (worker : Fin n)
  | spurious (thread : Thread n)
  | abort (source : Option (Fin n))
  | destroy
  | waitUntilEmpty
  | setAbortFlag
  | join

def initial (n : Nat) : State n := ⟨WorkerPool.initial n,∅,false⟩

/-- The owner calls the pool until it enters the destructor, a worker from within a task. -/
def Calls (s : State n) : Option (Fin n) → Bool
  | none => !s.destroying && Pushes s.pool none
  | some worker => Pushes s.pool (some worker)

def push (s : State n) (chosen : Option (Thread n)) : Option (State n) :=
  if s.pool.aborted then if chosen = none then some s else none
  else if Chooses s.asleep chosen then
    some { s with pool := WorkerPool.push s.pool, asleep := notifyOne s.asleep chosen }
  else none

/-- The predicate is checked under the lock; a task that is taken is announced to all. -/
def pop (s : State n) (worker : Fin n) : Option (State n) :=
  if s.pool.aborted then (WorkerPool.pop s.pool worker).map fun pool => { s with pool := pool }
  else if s.pool.data = [] then some { s with asleep := block s.asleep (.worker worker) }
  else (WorkerPool.pop s.pool worker).map fun pool => { s with pool := pool, asleep := ∅ }

/-- `set_abort_flag` called by another than the destructor. -/
def abort (s : State n) : State n :=
  { s with pool := { WorkerPool.setAbortFlag s.pool with phase := s.pool.phase }, asleep := ∅ }

def waitUntilEmpty (s : State n) : Option (State n) :=
  if s.pool.data = [] then
    (WorkerPool.advance .waitUntilEmpty s.pool).map fun pool => { s with pool := pool }
  else some { s with asleep := block s.asleep .destructor }

/-- One section, or nothing where the thread that would run it is asleep or elsewhere. -/
def advance : Label n → State n → Option (State n)
  | .push source chosen, s => if Calls s source then push s chosen else none
  | .pop worker, s => if s.pool.workers worker = .waiting ∧ .worker worker ∉ s.asleep then pop s worker else none
  | .start worker, s => (WorkerPool.advance (.start worker) s.pool).map fun pool => { s with pool := pool }
  | .finish worker, s => (WorkerPool.advance (.finish worker) s.pool).map fun pool => { s with pool := pool }
  | .spurious thread, s => if thread ∈ s.asleep then some { s with asleep := wake s.asleep thread } else none
  | .abort source, s => if Calls s source then some (abort s) else none
  | .destroy, s => if s.destroying then none else some { s with destroying := true }
  | .waitUntilEmpty, s =>
    if s.destroying ∧ s.pool.phase = .alive ∧ .destructor ∉ s.asleep then waitUntilEmpty s else none
  | .setAbortFlag, s =>
    (WorkerPool.advance .setAbortFlag s.pool).map fun pool => { s with pool := pool, asleep := ∅ }
  | .join, s => (WorkerPool.advance .join s.pool).map fun pool => { s with pool := pool }

def execute : List (Label n) → State n → Option (State n)
  | [], s => some s
  | label :: schedule, s => (advance label s).bind (execute schedule)

/-- Nobody sleeps on work that is there to do. -/
structure Attentive (s : State n) : Prop where
  workers : s.pool.aborted = false → s.pool.data ≠ [] → ¬∀ i, .worker i ∈ s.asleep
  destructor : ¬(s.pool.data = [] ∧ .destructor ∈ s.asleep)

structure Invariant (s : State n) : Prop where
  pending : s.pool.aborted = false → s.pool.data ≠ [] → ∃ i, .worker i ∉ s.asleep
  unfinished : .destructor ∈ s.asleep → s.pool.data ≠ []
  outside : s.destroying = false → .destructor ∉ s.asleep
  waiting : ∀ i, .worker i ∈ s.asleep → s.pool.workers i = .waiting

theorem initial_invariant : Invariant (initial n) := by
  constructor <;> simp [initial,WorkerPool.initial]

theorem Invariant.awake {s : State n} (valid : Invariant s) (calls : Pushes s.pool (some i) = true) :
    .worker i ∉ s.asleep := by
  intro asleep
  rw [Pushes,valid.waiting i asleep] at calls
  contradiction

theorem push_invariant {s s' : State n} (positive : 0 < n) (valid : Invariant s) (calls : Calls s source = true)
    (moved : push s chosen = some s') : Invariant s' := by
  unfold push at moved
  split at moved
  · obtain ⟨-,⟨⟩⟩ := Option.ite_none_right_eq_some.mp moved
    exact valid
  · next working =>
    obtain ⟨chooses,⟨⟩⟩ := Option.ite_none_right_eq_some.mp moved
    have fewer := notifyOne_subset s.asleep chosen
    have queue : (WorkerPool.push s.pool).data ≠ [] := by simp [WorkerPool.push,working]
    have workers : (WorkerPool.push s.pool).workers = s.pool.workers := by simp [WorkerPool.push,working]
    constructor
    case pending =>
      intro _ _
      cases source with
      | some i => exact ⟨i,fun asleep => valid.awake calls (fewer asleep)⟩
      | none =>
        -- The destructor does not wait yet, so a worker is woken if all are asleep.
        have outside : s.destroying = false := by
          simp only [Calls,Bool.and_eq_true,Bool.not_eq_true'] at calls
          exact calls.1
        have only : ∀ thread ∈ s.asleep, ∃ i, thread = .worker i := by
          intro thread member
          cases thread with
          | worker i => exact ⟨i,rfl⟩
          | destructor => exact absurd member (valid.outside outside)
        obtain ⟨_,⟨i,rfl⟩,awake⟩ := notifyOne_awake ⟨⟨0,positive⟩,rfl⟩ only chooses
        exact ⟨i,awake⟩
    case unfinished => exact fun _ => queue
    case outside => exact fun outside asleep => valid.outside outside (fewer asleep)
    case waiting => exact fun i asleep => (congrFun workers i).trans (valid.waiting i (fewer asleep))

theorem Invariant.moved {s : State n} (valid : Invariant s) {i : Fin n} (awake : .worker i ∉ s.asleep) (now : Worker)
    (other : Fin n) (asleep : .worker other ∈ s.asleep) : (install s.pool i now).workers other = .waiting := by
  have apart : other ≠ i := by
    rintro rfl
    exact awake asleep
  rw [install_other s.pool now apart]
  exact valid.waiting other asleep

theorem pop_invariant {s s' : State n} (valid : Invariant s) (idle : s.pool.workers i = .waiting)
    (awake : .worker i ∉ s.asleep) (moved : pop s i = some s') : Invariant s' := by
  unfold pop at moved
  split at moved
  · next aborted =>
    rw [WorkerPool.pop,if_pos aborted] at moved
    cases moved
    exact ⟨valid.pending,valid.unfinished,valid.outside,valid.moved awake .exited⟩
  · next working =>
    split at moved
    · next queue =>
      cases moved
      constructor
      case pending => exact fun _ pending => absurd queue pending
      case unfinished => exact fun asleep => valid.unfinished ((mem_block.mp asleep).resolve_left (by simp))
      case outside => exact fun outside asleep => valid.outside outside ((mem_block.mp asleep).resolve_left (by simp))
      case waiting =>
        intro other asleep
        rcases mem_block.mp asleep with same | asleep
        · cases same
          exact idle
        · exact valid.waiting other asleep
    · obtain ⟨pool,-,⟨⟩⟩ := Option.map_eq_some_iff.mp moved
      constructor <;> simp
      exact fun _ _ => ⟨i⟩

theorem step_invariant {s : State n} (valid : Invariant s) {pool : WorkerPool.State n} (data : pool.data = s.pool.data)
    (aborted : pool.aborted = s.pool.aborted)
    (workers : ∀ i, .worker i ∈ s.asleep → s.pool.workers i = .waiting → pool.workers i = .waiting) :
    Invariant { s with pool := pool } where
  pending := fun working queue => valid.pending (aborted.symm.trans working) (data ▸ queue)
  unfinished := fun asleep => data ▸ valid.unfinished asleep
  outside := valid.outside
  waiting := fun i asleep => workers i asleep (valid.waiting i asleep)

theorem waitUntilEmpty_invariant {s s' : State n} (valid : Invariant s) (destroying : s.destroying = true)
    (moved : waitUntilEmpty s = some s') : Invariant s' := by
  unfold waitUntilEmpty at moved
  split at moved
  · obtain ⟨pool,left,⟨⟩⟩ := Option.map_eq_some_iff.mp moved
    obtain ⟨-,⟨⟩⟩ := Option.ite_none_right_eq_some.mp left
    exact step_invariant valid rfl rfl fun _ _ waiting => waiting
  · next queue =>
    cases moved
    constructor
    case pending =>
      intro working pending
      obtain ⟨i,awake⟩ := valid.pending working pending
      exact ⟨i,fun asleep => awake ((mem_block.mp asleep).resolve_left (by simp))⟩
    case unfinished => exact fun _ => queue
    case outside => exact fun outside => absurd (destroying.symm.trans outside) (by simp)
    case waiting => exact fun i asleep => valid.waiting i ((mem_block.mp asleep).resolve_left (by simp))

theorem everybody_invariant {s : State n} {pool : WorkerPool.State n} (aborted : pool.aborted = true) :
    Invariant { s with pool := pool, asleep := ∅ } := by
  constructor <;> simp [aborted]

theorem advance_invariant {s s' : State n} (positive : 0 < n) (label : Label n) (valid : Invariant s)
    (moved : advance label s = some s') : Invariant s' := by
  cases label with
  | push source chosen =>
    obtain ⟨calls,moved⟩ := Option.ite_none_right_eq_some.mp moved
    exact push_invariant positive valid calls moved
  | pop worker =>
    obtain ⟨⟨idle,awake⟩,moved⟩ := Option.ite_none_right_eq_some.mp moved
    exact pop_invariant valid idle awake moved
  | start worker =>
    obtain ⟨pool,began,⟨⟩⟩ := Option.map_eq_some_iff.mp moved
    simp only [WorkerPool.advance] at began
    split at began
    · next holds =>
      cases began
      refine step_invariant valid rfl rfl ?_
      intro other asleep waiting
      apply (install_other _ _ ?_).trans waiting
      rintro rfl
      exact absurd (waiting.symm.trans holds) (by simp)
    · contradiction
  | finish worker =>
    obtain ⟨pool,ended,⟨⟩⟩ := Option.map_eq_some_iff.mp moved
    simp only [WorkerPool.advance] at ended
    split at ended
    · next runs =>
      cases ended
      refine step_invariant valid rfl rfl ?_
      intro other asleep waiting
      apply (install_other _ _ ?_).trans waiting
      rintro rfl
      exact absurd (waiting.symm.trans runs) (by simp)
    · contradiction
  | spurious thread =>
    obtain ⟨-,⟨⟩⟩ := Option.ite_none_right_eq_some.mp moved
    constructor
    case pending =>
      intro working queue
      obtain ⟨i,awake⟩ := valid.pending working queue
      exact ⟨i,fun asleep => awake (mem_wake.mp asleep).2⟩
    case unfinished => exact fun asleep => valid.unfinished (mem_wake.mp asleep).2
    case outside => exact fun outside asleep => valid.outside outside (mem_wake.mp asleep).2
    case waiting => exact fun i asleep => valid.waiting i (mem_wake.mp asleep).2
  | abort source =>
    obtain ⟨-,⟨⟩⟩ := Option.ite_none_right_eq_some.mp moved
    exact everybody_invariant rfl
  | destroy =>
    obtain ⟨-,⟨⟩⟩ := Option.ite_none_left_eq_some.mp moved
    exact ⟨valid.pending,valid.unfinished,fun outside => absurd outside (by simp),valid.waiting⟩
  | waitUntilEmpty =>
    obtain ⟨⟨destroying,-,-⟩,moved⟩ := Option.ite_none_right_eq_some.mp moved
    exact waitUntilEmpty_invariant valid destroying moved
  | setAbortFlag =>
    obtain ⟨pool,raised,⟨⟩⟩ := Option.map_eq_some_iff.mp moved
    obtain ⟨-,⟨⟩⟩ := Option.ite_none_right_eq_some.mp raised
    exact everybody_invariant rfl
  | join =>
    obtain ⟨pool,joined,⟨⟩⟩ := Option.map_eq_some_iff.mp moved
    obtain ⟨-,⟨⟩⟩ := Option.ite_none_right_eq_some.mp joined
    exact step_invariant valid rfl rfl fun _ _ waiting => waiting

theorem execute_invariant {s s' : State n} (positive : 0 < n) (schedule : List (Label n)) (valid : Invariant s)
    (ran : execute schedule s = some s') : Invariant s' := by
  induction schedule generalizing s with
  | nil =>
    cases ran
    exact valid
  | cons label schedule ih =>
    obtain ⟨middle,moved,rest⟩ := Option.bind_eq_some_iff.mp ran
    exact ih (advance_invariant positive label valid moved) rest

/-- In every run of a pool with a worker, no task waits while all workers sleep, and the
destructor does not sleep over an empty queue. -/
theorem attentive {s : State n} (positive : 0 < n) (schedule : List (Label n))
    (ran : execute schedule (initial n) = some s) : Attentive s := by
  have valid := execute_invariant positive schedule initial_invariant ran
  constructor
  · intro working pending all
    obtain ⟨i,awake⟩ := valid.pending working pending
    exact awake (all i)
  · rintro ⟨queue,asleep⟩
    exact valid.unfinished asleep queue

section Refinement

/-- What a label means for a pool where blocking takes no step. -/
def coarse (s : State n) : Label n → List (WorkerPool.Label n)
  | .push source _ => [.push source]
  | .pop worker => if s.pool.aborted ∨ s.pool.data ≠ [] then [.pop worker] else []
  | .start worker => [.start worker]
  | .finish worker => [.finish worker]
  | .waitUntilEmpty => if s.pool.data = [] then [.waitUntilEmpty] else []
  | .setAbortFlag => [.setAbortFlag]
  | .join => [.join]
  | .spurious _ | .destroy | .abort _ => []

def Label.isAbort : Label n → Bool
  | abort _ => true
  | _ => false

/-- A section is one step of that pool, or none. -/
theorem advance_refines {s s' : State n} (label : Label n) (inner : label.isAbort = false)
    (moved : advance label s = some s') : WorkerPool.execute (coarse s label) s.pool = some s'.pool := by
  have single : ∀ label : WorkerPool.Label n, ∀ {pool}, WorkerPool.advance label s.pool = some pool →
      WorkerPool.execute [label] s.pool = some pool := by
    intro label pool taken
    rw [WorkerPool.execute,taken]
    rfl
  cases label with
  | push source chosen =>
    obtain ⟨calls,moved⟩ := Option.ite_none_right_eq_some.mp moved
    have outside : Pushes s.pool source = true := by
      cases source with
      | some i => exact calls
      | none => exact (Bool.and_eq_true_iff.mp calls).2
    have taken : WorkerPool.advance (.push source) s.pool = some (WorkerPool.push s.pool) := if_pos outside
    apply single
    unfold push at moved
    split at moved
    · next aborted =>
      obtain ⟨-,⟨⟩⟩ := Option.ite_none_right_eq_some.mp moved
      rw [taken,WorkerPool.push,if_pos aborted]
    · obtain ⟨-,⟨⟩⟩ := Option.ite_none_right_eq_some.mp moved
      exact taken
  | pop worker =>
    obtain ⟨⟨idle,-⟩,moved⟩ := Option.ite_none_right_eq_some.mp moved
    have taken : WorkerPool.advance (.pop worker) s.pool = WorkerPool.pop s.pool worker := if_pos idle
    unfold pop at moved
    split at moved
    · next aborted =>
      obtain ⟨pool,popped,⟨⟩⟩ := Option.map_eq_some_iff.mp moved
      rw [coarse,if_pos (.inl aborted)]
      exact single _ (taken.trans popped)
    · next working =>
      split at moved
      · next queue =>
        cases moved
        simp [coarse,working,queue,WorkerPool.execute]
      · next queue =>
        obtain ⟨pool,popped,⟨⟩⟩ := Option.map_eq_some_iff.mp moved
        rw [coarse,if_pos (.inr queue)]
        exact single _ (taken.trans popped)
  | start worker | finish worker | setAbortFlag | join =>
    obtain ⟨pool,taken,⟨⟩⟩ := Option.map_eq_some_iff.mp moved
    exact single _ taken
  | spurious thread =>
    obtain ⟨-,⟨⟩⟩ := Option.ite_none_right_eq_some.mp moved
    rfl
  | abort source => contradiction
  | destroy =>
    obtain ⟨-,⟨⟩⟩ := Option.ite_none_left_eq_some.mp moved
    rfl
  | waitUntilEmpty =>
    obtain ⟨-,moved⟩ := Option.ite_none_right_eq_some.mp moved
    unfold waitUntilEmpty at moved
    split at moved
    · next queue =>
      obtain ⟨pool,taken,⟨⟩⟩ := Option.map_eq_some_iff.mp moved
      rw [coarse,if_pos queue]
      exact single _ taken
    · next queue =>
      cases moved
      rw [coarse,if_neg queue]
      rfl

theorem execute_append (first second : List (WorkerPool.Label n)) (s : WorkerPool.State n) :
    WorkerPool.execute (first ++ second) s = (WorkerPool.execute first s).bind (WorkerPool.execute second) := by
  induction first generalizing s with
  | nil => rfl
  | cons label first ih =>
    rw [List.cons_append,WorkerPool.execute,WorkerPool.execute]
    cases WorkerPool.advance label s with
    | none => rfl
    | some middle => exact ih middle

/-- What threads do while others sleep is a run of the pool in which nobody has to. -/
theorem execute_refines {s s' : State n} (schedule : List (Label n)) (inner : ∀ label ∈ schedule, label.isAbort = false)
    (ran : execute schedule s = some s') : ∃ steps, WorkerPool.execute steps s.pool = some s'.pool := by
  induction schedule generalizing s with
  | nil =>
    cases ran
    exact ⟨[],rfl⟩
  | cons label schedule ih =>
    obtain ⟨middle,moved,rest⟩ := Option.bind_eq_some_iff.mp ran
    obtain ⟨steps,later⟩ := ih (fun other member => inner other (List.mem_cons_of_mem _ member)) rest
    refine ⟨coarse s label ++ steps,?_⟩
    rw [execute_append,advance_refines label (inner label List.mem_cons_self) moved]
    exact later

/-- Sleeping and waking lose no task: what is kept depends on the tasks that were broken alone. -/
theorem execute_kept {s : State n} (schedule : List (Label n)) (inner : ∀ label ∈ schedule, label.isAbort = false)
    (ran : execute schedule (initial n) = some s) : Kept s.pool ↔ (s.pool.phase = .returned → s.pool.broken = []) := by
  obtain ⟨steps,taken⟩ := execute_refines schedule inner ran
  have valid := WorkerPool.execute_invariant steps WorkerPool.initial_invariant taken
  exact ⟨valid.whole,valid.kept⟩

end Refinement

/-- With two workers and the destructor asleep, a task pushes twice. The second wake-up goes to
the destructor, which finds a queue that is not empty and sleeps on. -/
def divertedRun (first second third : Fin n) : List (Label n) :=
  [.push none none,.pop third,.start third,.pop first,.pop second,.push (some third) (some (.worker second)),.destroy,
    .waitUntilEmpty,.push (some third) (some .destructor),.waitUntilEmpty]

theorem divertedRun_attentive : ∃ s, execute (divertedRun 0 1 2) (initial 3) = some s ∧ s.pool.data = [1,2] ∧
    .worker 0 ∈ s.asleep ∧ .destructor ∈ s.asleep ∧ Attentive s :=
  ⟨_,rfl,rfl,by decide,by decide,attentive (by decide) (divertedRun 0 1 2) rfl⟩

end JkBuild.WorkerPool.Wakeups
