import Mathlib.Data.Fin.Basic
import Mathlib.Data.List.Nodup
import Mathlib.Logic.Function.Basic

/-! The pool of workers behind one locked queue. A step is one critical section of the
queue, or the start or the end of a task on one worker; `execute` interleaves them in any
order. A task is known by its ticket: the number of tasks accepted before it. -/
namespace JkBuild.WorkerPool

/-- Where a thread of the pool stands in `run`. -/
inductive Worker where
  | waiting
  | holding (task : Nat)
  | running (task : Nat)
  | exited
  deriving DecidableEq, Repr

/-- How far the destructor is: it waits until the queue is empty, raises the abort flag and
joins the threads, each in a critical section of its own. -/
inductive Phase where
  | alive
  | drained
  | aborted
  | returned
  deriving DecidableEq, Repr

structure State (n : Nat) where
  data : List Nat
  aborted : Bool
  phase : Phase
  workers : Fin n → Worker
  /-- How many calls of `Push` returned a valid future. -/
  accepted : Nat
  /-- The tasks that left the queue by `pop`, in that order. -/
  popped : List Nat
  started : List Nat
  finished : List Nat
  /-- The tasks destroyed unrun, whose futures hold a broken promise. -/
  broken : List Nat

variable {n : Nat}

/-- A push comes from outside the pool or from the task that a worker is running. -/
inductive Label (n : Nat) where
  | push (source : Option (Fin n))
  | pop (worker : Fin n)
  | start (worker : Fin n)
  | finish (worker : Fin n)
  | waitUntilEmpty
  | setAbortFlag
  | join

def Label.isPush : Label n → Bool
  | push _ => true
  | _ => false

def initial (n : Nat) : State n :=
  ⟨[],false,.alive,fun _ => .waiting,0,[],[],[],[]⟩

def install (s : State n) (worker : Fin n) (now : Worker) : State n :=
  { s with workers := Function.update s.workers worker now }

/-- `threadsafe_queue::push`: an aborted queue turns the task away. -/
def push (s : State n) : State n :=
  if s.aborted then s else { s with data := s.data ++ [s.accepted], accepted := s.accepted + 1 }

/-- Whether a push can come from there: the pool still exists, or the worker is in a task. -/
def Pushes (s : State n) : Option (Fin n) → Bool
  | none => s.phase ≠ .returned
  | some worker => match s.workers worker with
    | .running _ => true
    | _ => false

/-- `threadsafe_queue::pop`, which waits while the queue is empty and not aborted. An
aborted queue has nothing for the worker, which then leaves `run`. -/
def pop (s : State n) (worker : Fin n) : Option (State n) :=
  if s.aborted then some (install s worker .exited)
  else match s.data with
    | [] => none
    | task :: data => some (install { s with data := data, popped := s.popped ++ [task] } worker (.holding task))

def setAbortFlag (s : State n) : State n :=
  { s with aborted := true, phase := .aborted, data := [], broken := s.broken ++ s.data }

/-- One atomic step, or nothing where the thread that would take it is blocked. -/
def advance : Label n → State n → Option (State n)
  | .push source, s => if Pushes s source then some (push s) else none
  | .pop worker, s => if s.workers worker = .waiting then pop s worker else none
  | .start worker, s => match s.workers worker with
    | .holding task => some (install { s with started := s.started ++ [task] } worker (.running task))
    | _ => none
  | .finish worker, s => match s.workers worker with
    | .running task => some (install { s with finished := s.finished ++ [task] } worker .waiting)
    | _ => none
  | .waitUntilEmpty, s => if s.phase = .alive ∧ s.data = [] then some { s with phase := .drained } else none
  | .setAbortFlag, s => if s.phase = .drained then some (setAbortFlag s) else none
  | .join, s => if s.phase = .aborted ∧ ∀ worker, s.workers worker = .exited
    then some { s with phase := .returned } else none

def execute : List (Label n) → State n → Option (State n)
  | [], s => some s
  | label :: schedule, s => (advance label s).bind (execute schedule)

/-- Every task that `Push` accepted is executed exactly once before the destructor
returns, never twice before that, and tasks leave the queue in the order of acceptance. -/
structure Kept (s : State n) : Prop where
  order : s.popped <+: List.range s.accepted
  started : s.started.Nodup ∧ ∀ task ∈ s.started, task < s.accepted
  finished : s.finished.Nodup ∧ ∀ task ∈ s.finished, task < s.accepted
  all : s.phase = .returned → ∀ task < s.accepted, task ∈ s.started ∧ task ∈ s.finished

/-- The abort flag is only ever raised over an empty queue: no push was accepted since the
destructor saw it empty, or what was accepted has been popped. -/
def AbortsEmpty (s : State n) (schedule : List (Label n)) : Prop :=
  ∀ before after middle, schedule = before ++ .setAbortFlag :: after →
    execute before s = some middle → middle.data = []

/-- What a worker says about a task it has. -/
def Worker.has : Worker → Nat → Prop
  | holding task, t => t = task
  | running task, t => t = task
  | _, _ => False

structure Invariant (s : State n) : Prop where
  order : s.popped ++ s.broken ++ s.data = List.range s.accepted
  flag : s.aborted = true ↔ s.phase = .aborted ∨ s.phase = .returned
  emptied : s.aborted = true → s.data = []
  unbroken : s.aborted = false → s.broken = []
  working : s.aborted = false → ∀ worker, s.workers worker ≠ .exited
  joined : s.phase = .returned → ∀ worker, s.workers worker = .exited
  held : ∀ worker task, s.workers worker = .holding task → task ∈ s.popped ∧ task ∉ s.started
  run : ∀ worker task, s.workers worker = .running task → task ∈ s.started ∧ task ∉ s.finished
  apart : ∀ worker other task, (s.workers worker).has task → (s.workers other).has task → worker = other
  started : s.started.Nodup ∧ ∀ task ∈ s.started, task ∈ s.popped
  finished : s.finished.Nodup ∧ ∀ task ∈ s.finished, task ∈ s.started
  served : ∀ task ∈ s.popped, task ∈ s.finished ∨ ∃ worker, (s.workers worker).has task

theorem initial_invariant : Invariant (initial n) := by
  constructor <;> simp [initial,Worker.has]

theorem install_same (s : State n) (worker : Fin n) (now : Worker) :
    (install s worker now).workers worker = now := by simp [install]

theorem install_other (s : State n) (now : Worker) (apart : other ≠ worker) :
    (install s worker now).workers other = s.workers other := by simp [install,apart]

theorem install_workers (s : State n) (worker : Fin n) (now : Worker) (other : Fin n) :
    (other = worker ∧ (install s worker now).workers other = now) ∨
      (other ≠ worker ∧ (install s worker now).workers other = s.workers other) := by
  by_cases same : other = worker
  · exact .inl ⟨same,by rw [same,install_same]⟩
  · exact .inr ⟨same,install_other s now same⟩

theorem install_kept {s : State n} {worker other : Fin n} {now state : Worker}
    (here : (install s worker now).workers other = state) (moved : now ≠ state) :
    other ≠ worker ∧ s.workers other = state := by
  rcases install_workers s worker now other with ⟨-,there⟩ | ⟨apart,there⟩
  · exact absurd (there.symm.trans here) moved
  · exact ⟨apart,there.symm.trans here⟩

theorem install_apart {s : State n} {worker : Fin n} {now : Worker}
    (apart : ∀ worker other task, (s.workers worker).has task → (s.workers other).has task → worker = other)
    (own : ∀ task, now.has task → ∀ other, other ≠ worker → ¬(s.workers other).has task) :
    ∀ first second task, ((install s worker now).workers first).has task →
      ((install s worker now).workers second).has task → first = second := by
  intro first second task one two
  rcases install_workers s worker now first with ⟨same,here⟩ | ⟨different,here⟩ <;>
    rcases install_workers s worker now second with ⟨same',there⟩ | ⟨different',there⟩ <;>
    rw [here] at one <;> rw [there] at two
  · rw [same,same']
  · exact absurd two (own task one second different')
  · exact absurd one (own task two first different)
  · exact apart first second task one two

/-- Tickets are given once, so no task is queued and popped at the same time. -/
theorem Invariant.distinct {s : State n} (valid : Invariant s) : (s.popped ++ s.broken ++ s.data).Nodup := by
  rw [valid.order]
  exact List.nodup_range

theorem Invariant.popped_lt {s : State n} (valid : Invariant s) (member : task ∈ s.popped) :
    task < s.accepted := by
  rw [←List.mem_range,←valid.order]
  simp [member]

theorem Invariant.has_popped {s : State n} (valid : Invariant s) (has : (s.workers worker).has task) :
    task ∈ s.popped := by
  cases now : s.workers worker with
  | waiting | exited => simp [now,Worker.has] at has
  | holding t =>
    rw [now] at has
    exact has ▸ (valid.held worker t now).1
  | running t =>
    rw [now] at has
    exact has ▸ valid.started.2 t (valid.run worker t now).1

theorem Invariant.served_install {s : State n} {worker : Fin n} (valid : Invariant s)
    (idle : ¬(s.workers worker).has task) (member : task ∈ s.popped) :
    task ∈ s.finished ∨ ∃ other, ((install s worker now).workers other).has task := by
  refine (valid.served task member).imp_right fun ⟨other,has⟩ => ⟨other,?_⟩
  have apart : other ≠ worker := fun same => idle (same ▸ has)
  rw [install_other s now apart]
  exact has

theorem push_invariant {s : State n} (valid : Invariant s) : Invariant (push s) := by
  unfold push
  split
  · exact valid
  · next working =>
    refine { valid with order := ?_, emptied := fun aborted => absurd aborted working }
    rw [List.range_succ,←valid.order]
    simp

/-- The worker took the front of the queue; nobody has had that task before. -/
theorem take_invariant {s : State n} {worker : Fin n} (valid : Invariant s) (working : s.aborted = false)
    (queue : s.data = task :: data) (idle : s.workers worker = .waiting) :
    Invariant (install { s with data := data, popped := s.popped ++ [task] } worker (.holding task)) := by
  have unbroken := valid.unbroken working
  have fresh : task ∉ s.popped := by
    have distinct := valid.distinct
    rw [unbroken,queue,List.append_nil] at distinct
    exact fun member => (List.nodup_append.mp distinct).2.2 task member task (by simp) rfl
  have unowned : ∀ other, ¬(s.workers other).has task := fun other has => fresh (valid.has_popped has)
  constructor
  case order => simpa [install,unbroken,queue] using valid.order
  case flag => exact valid.flag
  case emptied => exact fun aborted => by simp [install,working] at aborted
  case unbroken => exact valid.unbroken
  case working =>
    intro _ other now
    exact valid.working working other (install_kept now (by simp)).2
  case joined =>
    intro returned
    exact absurd (valid.flag.mpr (.inr returned)) (by simp [working])
  case held =>
    intro other t now
    rcases install_workers _ worker (.holding task) other with ⟨-,here⟩ | ⟨-,here⟩ <;> rw [here] at now
    · cases now
      exact ⟨by simp [install],fun member => fresh (valid.started.2 task member)⟩
    · exact ⟨List.mem_append_left _ (valid.held other t now).1,(valid.held other t now).2⟩
  case run =>
    intro other t now
    exact valid.run other t (install_kept now (by simp)).2
  case apart =>
    refine install_apart valid.apart ?_
    rintro t rfl other _
    exact unowned other
  case started => exact ⟨valid.started.1,fun t member => List.mem_append_left _ (valid.started.2 t member)⟩
  case finished => exact valid.finished
  case served =>
    intro t member
    rcases List.mem_append.mp member with member | single
    · exact valid.served_install (by simp [idle,Worker.has]) member
    · exact .inr ⟨worker,by rw [install_same]; exact List.mem_singleton.mp single⟩

theorem leave_invariant {s : State n} {worker : Fin n} (valid : Invariant s) (aborted : s.aborted = true)
    (idle : s.workers worker = .waiting) : Invariant (install s worker .exited) := by
  constructor
  case order => exact valid.order
  case flag => exact valid.flag
  case emptied => exact valid.emptied
  case unbroken => exact valid.unbroken
  case working => exact fun working => absurd (aborted.symm.trans working) (by simp)
  case joined =>
    intro returned other
    rcases install_workers s worker .exited other with ⟨-,here⟩ | ⟨-,here⟩
    · exact here
    · exact here.trans (valid.joined returned other)
  case held =>
    intro other t now
    exact valid.held other t (install_kept now (by simp)).2
  case run =>
    intro other t now
    exact valid.run other t (install_kept now (by simp)).2
  case apart => exact install_apart valid.apart (by simp [Worker.has])
  case started => exact valid.started
  case finished => exact valid.finished
  case served => exact fun t member => valid.served_install (by simp [idle,Worker.has]) member

theorem start_invariant {s : State n} {worker : Fin n} (valid : Invariant s)
    (holds : s.workers worker = .holding task) :
    Invariant (install { s with started := s.started ++ [task] } worker (.running task)) := by
  have owned : (s.workers worker).has task := by rw [holds]; rfl
  obtain ⟨taken,fresh⟩ := valid.held worker task holds
  constructor
  case order => exact valid.order
  case flag => exact valid.flag
  case emptied => exact valid.emptied
  case unbroken => exact valid.unbroken
  case working =>
    intro working other now
    exact valid.working working other (install_kept now (by simp)).2
  case joined => exact fun returned => absurd (holds.symm.trans (valid.joined returned worker)) (by simp)
  case held =>
    intro other t now
    obtain ⟨different,now⟩ := install_kept now (by simp)
    refine ⟨(valid.held other t now).1,?_⟩
    simp only [install,List.mem_append,List.mem_singleton,not_or]
    refine ⟨(valid.held other t now).2,?_⟩
    rintro rfl
    exact different (valid.apart other worker t (now ▸ rfl) owned)
  case run =>
    intro other t now
    rcases install_workers _ worker (.running task) other with ⟨-,here⟩ | ⟨-,here⟩ <;> rw [here] at now
    · cases now
      exact ⟨by simp [install],fun member => fresh (valid.finished.2 task member)⟩
    · exact ⟨List.mem_append_left _ (valid.run other t now).1,(valid.run other t now).2⟩
  case apart =>
    refine install_apart valid.apart ?_
    rintro t rfl other different has
    exact different (valid.apart other worker t has owned)
  case started =>
    refine ⟨by simpa [install] using valid.started.1.concat fresh,?_⟩
    intro t member
    rcases List.mem_append.mp member with member | single
    · exact valid.started.2 t member
    · exact List.mem_singleton.mp single ▸ taken
  case finished => exact ⟨valid.finished.1,fun t member => List.mem_append_left _ (valid.finished.2 t member)⟩
  case served =>
    intro t member
    by_cases same : t = task
    · exact .inr ⟨worker,by rw [install_same]; exact same⟩
    · exact valid.served_install (by rw [holds]; exact same) member

theorem finish_invariant {s : State n} {worker : Fin n} (valid : Invariant s)
    (runs : s.workers worker = .running task) :
    Invariant (install { s with finished := s.finished ++ [task] } worker .waiting) := by
  have owned : (s.workers worker).has task := by rw [runs]; rfl
  obtain ⟨begun,fresh⟩ := valid.run worker task runs
  constructor
  case order => exact valid.order
  case flag => exact valid.flag
  case emptied => exact valid.emptied
  case unbroken => exact valid.unbroken
  case working =>
    intro working other now
    exact valid.working working other (install_kept now (by simp)).2
  case joined => exact fun returned => absurd (runs.symm.trans (valid.joined returned worker)) (by simp)
  case held =>
    intro other t now
    exact valid.held other t (install_kept now (by simp)).2
  case run =>
    intro other t now
    obtain ⟨different,now⟩ := install_kept now (by simp)
    refine ⟨(valid.run other t now).1,?_⟩
    simp only [install,List.mem_append,List.mem_singleton,not_or]
    refine ⟨(valid.run other t now).2,?_⟩
    rintro rfl
    exact different (valid.apart other worker t (now ▸ rfl) owned)
  case apart => exact install_apart valid.apart (by simp [Worker.has])
  case started => exact valid.started
  case finished =>
    refine ⟨by simpa [install] using valid.finished.1.concat fresh,?_⟩
    intro t member
    rcases List.mem_append.mp member with member | single
    · exact valid.finished.2 t member
    · exact List.mem_singleton.mp single ▸ begun
  case served =>
    intro t member
    by_cases same : t = task
    · exact .inl (by simp [install,same])
    · refine (valid.served_install (by rw [runs]; exact same) member).imp_left ?_
      exact List.mem_append_left _

theorem setAbortFlag_invariant {s : State n} (valid : Invariant s) : Invariant (setAbortFlag s) where
  order := by simpa [setAbortFlag,←List.append_assoc] using valid.order
  flag := by simp [setAbortFlag]
  emptied := fun _ => rfl
  unbroken := fun working => by simp [setAbortFlag] at working
  working := fun working => by simp [setAbortFlag] at working
  joined := fun returned => by simp [setAbortFlag] at returned
  held := valid.held
  run := valid.run
  apart := valid.apart
  started := valid.started
  finished := valid.finished
  served := valid.served

theorem waitUntilEmpty_invariant {s : State n} (valid : Invariant s) (alive : s.phase = .alive) :
    Invariant { s with phase := .drained } where
  order := valid.order
  flag := by simpa [alive] using valid.flag
  emptied := valid.emptied
  unbroken := valid.unbroken
  working := valid.working
  joined := fun returned => by simp at returned
  held := valid.held
  run := valid.run
  apart := valid.apart
  started := valid.started
  finished := valid.finished
  served := valid.served

theorem join_invariant {s : State n} (valid : Invariant s) (aborted : s.phase = .aborted)
    (exited : ∀ worker, s.workers worker = .exited) : Invariant { s with phase := .returned } where
  order := valid.order
  flag := by simpa [aborted] using valid.flag
  emptied := valid.emptied
  unbroken := valid.unbroken
  working := valid.working
  joined := fun _ => exited
  held := valid.held
  run := valid.run
  apart := valid.apart
  started := valid.started
  finished := valid.finished
  served := valid.served

theorem advance_invariant {s s' : State n} (label : Label n) (valid : Invariant s)
    (moved : advance label s = some s') : Invariant s' := by
  cases label with
  | push source =>
    obtain ⟨-,⟨⟩⟩ := Option.ite_none_right_eq_some.mp moved
    exact push_invariant valid
  | pop worker =>
    obtain ⟨idle,moved⟩ := Option.ite_none_right_eq_some.mp moved
    unfold pop at moved
    split at moved
    · next aborted =>
      cases moved
      exact leave_invariant valid aborted idle
    · next working =>
      split at moved
      · contradiction
      · next queue =>
        cases moved
        exact take_invariant valid (by simpa using working) queue idle
  | start worker =>
    simp only [advance] at moved
    split at moved
    · next holds =>
      cases moved
      exact start_invariant valid holds
    · contradiction
  | finish worker =>
    simp only [advance] at moved
    split at moved
    · next runs =>
      cases moved
      exact finish_invariant valid runs
    · contradiction
  | waitUntilEmpty =>
    obtain ⟨⟨alive,-⟩,⟨⟩⟩ := Option.ite_none_right_eq_some.mp moved
    exact waitUntilEmpty_invariant valid alive
  | setAbortFlag =>
    obtain ⟨-,⟨⟩⟩ := Option.ite_none_right_eq_some.mp moved
    exact setAbortFlag_invariant valid
  | join =>
    obtain ⟨⟨aborted,exited⟩,⟨⟩⟩ := Option.ite_none_right_eq_some.mp moved
    exact join_invariant valid aborted exited

theorem execute_invariant {s s' : State n} (schedule : List (Label n)) (valid : Invariant s)
    (ran : execute schedule s = some s') : Invariant s' := by
  induction schedule generalizing s with
  | nil =>
    cases ran
    exact valid
  | cons label schedule ih =>
    obtain ⟨middle,moved,rest⟩ := Option.bind_eq_some_iff.mp ran
    exact ih (advance_invariant label valid moved) rest

theorem advance_broken {s s' : State n} {label : Label n} (moved : advance label s = some s') :
    s'.broken = [] ↔ s.broken = [] ∧ (label = .setAbortFlag → s.data = []) := by
  cases label with
  | push source =>
    obtain ⟨-,⟨⟩⟩ := Option.ite_none_right_eq_some.mp moved
    unfold push
    split <;> simp
  | pop worker =>
    obtain ⟨-,moved⟩ := Option.ite_none_right_eq_some.mp moved
    unfold pop at moved
    repeat' split at moved
    all_goals cases moved
    all_goals simp [install]
  | start worker | finish worker =>
    simp only [advance] at moved
    split at moved <;> cases moved
    simp [install]
  | waitUntilEmpty | join =>
    obtain ⟨-,⟨⟩⟩ := Option.ite_none_right_eq_some.mp moved
    simp
  | setAbortFlag =>
    obtain ⟨-,⟨⟩⟩ := Option.ite_none_right_eq_some.mp moved
    simp [setAbortFlag]

theorem abortsEmpty_cons {s s' : State n} {label : Label n} (moved : advance label s = some s') :
    AbortsEmpty s (label :: schedule) ↔ (label = .setAbortFlag → s.data = []) ∧ AbortsEmpty s' schedule := by
  constructor
  · intro empty
    refine ⟨fun abort => empty [] schedule s (by rw [abort]; rfl) rfl,?_⟩
    rintro before after middle rfl ran
    exact empty (label :: before) after middle rfl (by rw [execute,moved]; exact ran)
  · rintro ⟨first,rest⟩ before after middle shape ran
    cases before with
    | nil =>
      cases shape
      cases ran
      exact first rfl
    | cons head before =>
      cases shape
      rw [execute,moved] at ran
      exact rest before after middle rfl ran

theorem execute_broken {s s' : State n} (schedule : List (Label n)) (ran : execute schedule s = some s') :
    s'.broken = [] ↔ s.broken = [] ∧ AbortsEmpty s schedule := by
  induction schedule generalizing s with
  | nil =>
    cases ran
    simp [AbortsEmpty]
  | cons label schedule ih =>
    obtain ⟨middle,moved,rest⟩ := Option.bind_eq_some_iff.mp ran
    rw [ih rest,advance_broken moved,abortsEmpty_cons moved,and_assoc]

theorem Invariant.kept {s : State n} (valid : Invariant s) (whole : s.phase = .returned → s.broken = []) :
    Kept s where
  order := ⟨s.broken ++ s.data,by rw [←List.append_assoc,valid.order]⟩
  started := ⟨valid.started.1,fun t member => valid.popped_lt (valid.started.2 t member)⟩
  finished := ⟨valid.finished.1,
    fun t member => valid.popped_lt (valid.started.2 t (valid.finished.2 t member))⟩
  all := by
    intro returned t bound
    have emptied := valid.emptied (valid.flag.mpr (.inr returned))
    have taken : t ∈ s.popped := by
      rw [←List.mem_range,←valid.order,whole returned,emptied] at bound
      simpa using bound
    have done : t ∈ s.finished := by
      refine (valid.served t taken).resolve_right ?_
      rintro ⟨worker,has⟩
      rw [valid.joined returned worker] at has
      exact has
    exact ⟨valid.finished.2 t done,done⟩

theorem Invariant.whole {s : State n} (valid : Invariant s) (kept : Kept s) (returned : s.phase = .returned) :
    s.broken = [] := by
  refine List.eq_nil_iff_forall_not_mem.mpr fun t member => ?_
  have bound : t < s.accepted := by
    rw [←List.mem_range,←valid.order]
    simp [member]
  have taken := valid.started.2 t (kept.all returned t bound).1
  have distinct := (List.nodup_append.mp valid.distinct).1
  exact (List.nodup_append.mp distinct).2.2 t taken t member rfl

/-- Over every run: accepted tasks are kept as long as the abort flag meets an empty queue,
and once the destructor has returned they were kept only if it did. -/
theorem tasks_kept_iff {s : State n} (schedule : List (Label n)) (ran : execute schedule (initial n) = some s) :
    Kept s ↔ (s.phase = .returned → AbortsEmpty (initial n) schedule) := by
  have valid := execute_invariant schedule initial_invariant ran
  have broken := execute_broken schedule ran
  constructor
  · exact fun kept returned => (broken.mp (valid.whole kept returned)).2
  · exact fun empty => valid.kept fun returned => broken.mpr ⟨rfl,empty returned⟩

/-- A task that was in the queue when the destructor came is executed. -/
def servedRun : List (Label 1) :=
  [.push none,.pop 0,.start 0,.push (some 0),.finish 0,.pop 0,.waitUntilEmpty,.start 0,.finish 0,
    .setAbortFlag,.pop 0,.join]

theorem servedRun_kept : ∃ s, execute servedRun (initial 1) = some s ∧ s.phase = .returned ∧ s.accepted = 2 ∧
    s.finished = [0,1] ∧ Kept s := by
  refine ⟨_,rfl,rfl,rfl,rfl,(tasks_kept_iff servedRun rfl).mpr fun _ => ?_⟩
  exact ((execute_broken (s := initial 1) servedRun rfl).mp rfl).2

/-- The only task of the queue is running when the destructor sees the queue empty, and it
pushes another one before the flag is raised. -/
def lostRun : List (Label 1) :=
  [.push none,.pop 0,.start 0,.waitUntilEmpty,.push (some 0),.setAbortFlag,.finish 0,.pop 0,.join]

theorem lostRun_loses : ∃ s, execute lostRun (initial 1) = some s ∧ s.phase = .returned ∧ s.accepted = 2 ∧
    s.popped = [0] ∧ s.started = [0] ∧ s.finished = [0] ∧ s.broken = [1] ∧ ¬Kept s := by
  refine ⟨_,rfl,rfl,rfl,rfl,rfl,rfl,rfl,fun kept => ?_⟩
  have lost : 1 ∈ [0] := (kept.all rfl 1 (by decide)).1
  simp at lost

/-- With at least one worker the pool is never stuck: while the destructor has not returned,
a worker or the destructor can take a step, whether or not anybody pushes again. -/
theorem unblocked {s : State n} (schedule : List (Label n)) (ran : execute schedule (initial n) = some s)
    (positive : 0 < n) (active : s.phase ≠ .returned) :
    ∃ label s', label.isPush = false ∧ advance label s = some s' := by
  have valid := execute_invariant schedule initial_invariant ran
  by_cases busy : ∃ worker task, s.workers worker = .holding task ∨ s.workers worker = .running task
  · obtain ⟨worker,task,holds | runs⟩ := busy
    · exact ⟨.start worker,_,rfl,by rw [advance,holds]⟩
    · exact ⟨.finish worker,_,rfl,by rw [advance,runs]⟩
  have idle : ∀ worker, s.workers worker = .waiting ∨ s.workers worker = .exited := by
    intro worker
    cases now : s.workers worker with
    | waiting => exact .inl rfl
    | exited => exact .inr rfl
    | holding task => exact absurd ⟨worker,task,.inl now⟩ busy
    | running task => exact absurd ⟨worker,task,.inr now⟩ busy
  cases flag : s.aborted with
  | true =>
    have aborted := (valid.flag.mp flag).resolve_right active
    by_cases exited : ∀ worker, s.workers worker = .exited
    · exact ⟨.join,_,rfl,if_pos ⟨aborted,exited⟩⟩
    · obtain ⟨worker,stays⟩ := not_forall.mp exited
      have waits := (idle worker).resolve_right stays
      exact ⟨.pop worker,_,rfl,by rw [advance,if_pos waits,pop,if_pos flag]⟩
  | false =>
    have waits := (idle ⟨0,positive⟩).resolve_right (valid.working flag _)
    cases queue : s.data with
    | cons task data =>
      exact ⟨.pop ⟨0,positive⟩,_,rfl,by rw [advance,if_pos waits,pop,if_neg (by simp [flag]),queue]⟩
    | nil =>
      cases phase : s.phase with
      | alive => exact ⟨.waitUntilEmpty,_,rfl,if_pos ⟨phase,queue⟩⟩
      | drained => exact ⟨.setAbortFlag,_,rfl,if_pos phase⟩
      | aborted => exact absurd (valid.flag.mpr (.inl phase)) (by simp [flag])
      | returned => exact absurd phase active

end JkBuild.WorkerPool
