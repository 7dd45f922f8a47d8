import JkBuild.Results

/-! Tasks that may throw. What a task had written when it threw stays written, and an
executor keeps the exception for whoever asks the future of the task. -/
namespace JkBuild.Tasks

universe u

variable {ε σ τ α β : Type u}

def attempt (x : Except ε α) : EStateM ε σ α := fun s =>
  match x with
  | .ok a => .ok a s
  | .error e => .error e s

def zoom (read : σ → τ) (write : τ → σ → σ) (t : EStateM ε τ α) : EStateM ε σ α := fun s =>
  match t (read s) with
  | .ok a part => .ok a (write part s)
  | .error e part => .error e (write part s)

@[simp] theorem bind_of_ok {t : EStateM ε σ α} {f : α → EStateM ε σ β} (done : t s = .ok a s') :
    (t >>= f) s = f a s' := by
  show EStateM.bind t f s = f a s'
  rw [EStateM.bind,done]

theorem bind_of_error {t : EStateM ε σ α} {f : α → EStateM ε σ β} (thrown : t s = .error e s') :
    (t >>= f) s = .error e s' := by
  show EStateM.bind t f s = .error e s'
  rw [EStateM.bind,thrown]

theorem bind_done {t : EStateM ε σ α} {f : α → EStateM ε σ β} (done : (t >>= f) s = .ok b s') :
    ∃ a middle, t s = .ok a middle ∧ f a middle = .ok b s' := by
  cases first : t s with
  | ok a middle =>
    rw [bind_of_ok first] at done
    exact ⟨a,middle,rfl,done⟩
  | error e middle =>
    rw [bind_of_error first] at done
    contradiction

theorem attempt_ok {x : Except ε α} (done : x = .ok a) (s : σ) : (attempt x : EStateM ε σ α) s = .ok a s := by
  subst done
  rfl

theorem attempt_done {x : Except ε α} {s : σ} (done : (attempt x : EStateM ε σ α) s = .ok a s') :
    x = .ok a ∧ s' = s := by
  unfold attempt at done
  split at done
  · cases done
    exact ⟨rfl,rfl⟩
  · contradiction

theorem modify_done {f : σ → σ} {s : σ} (done : (modify f : EStateM ε σ PUnit) s = .ok u s') : s' = f s := by
  cases done
  rfl

/-- Whether a task throws, and what, does not depend on the state it starts from. -/
structure Settled (expected : ε → Prop) (t : EStateM ε σ α) (property : Prop) : Prop where
  succeeds : property → ∀ s, ∃ a s', t s = .ok a s'
  fails : ¬property → ∀ s, ∃ e s', t s = .error e s' ∧ expected e

section Rules

variable {expected : ε → Prop} {property : Prop}

theorem settled_pure (a : α) : Settled expected (pure a : EStateM ε σ α) True where
  succeeds := fun _ s => ⟨a,s,rfl⟩
  fails := fun absurd => by simp at absurd

theorem settled_modify (f : σ → σ) : Settled expected (modify f : EStateM ε σ PUnit) True where
  succeeds := fun _ s => ⟨.unit,f s,rfl⟩
  fails := fun absurd => by simp at absurd

theorem settled_throw (holds : expected e) : Settled expected (throw e : EStateM ε σ α) False where
  succeeds := fun absurd => by contradiction
  fails := fun _ s => ⟨e,s,rfl,holds⟩

theorem settled_attempt {x : Except ε α} (only : ∀ e, x = .error e → expected e) :
    Settled expected (attempt x : EStateM ε σ α) (∃ a, x = .ok a) where
  succeeds := by
    rintro ⟨a,rfl⟩ s
    exact ⟨a,s,rfl⟩
  fails := by
    intro fails s
    cases x with
    | ok a => exact absurd ⟨a,rfl⟩ fails
    | error e => exact ⟨e,s,rfl,only e rfl⟩

theorem Settled.congr {t : EStateM ε σ α} (h : Settled expected t property) (same : property ↔ property') :
    Settled expected t property' := propext same ▸ h

theorem Settled.weaken {expected' : ε → Prop} {t : EStateM ε σ α} (h : Settled expected t property)
    (weaker : ∀ e, expected e → expected' e) : Settled expected' t property where
  succeeds := h.succeeds
  fails := by
    intro fails s
    obtain ⟨e,s',thrown,kind⟩ := h.fails fails s
    exact ⟨e,s',thrown,weaker e kind⟩

theorem Settled.bind {t : EStateM ε σ α} {f : α → EStateM ε σ β} (first : Settled expected t property)
    (second : ∀ a, Settled expected (f a) property') : Settled expected (t >>= f) (property ∧ property') where
  succeeds := by
    rintro ⟨holds,holds'⟩ s
    obtain ⟨a,middle,done⟩ := first.succeeds holds s
    rw [bind_of_ok done]
    exact (second a).succeeds holds' middle
  fails := by
    intro fails s
    by_cases holds : property
    · obtain ⟨a,middle,done⟩ := first.succeeds holds s
      rw [bind_of_ok done]
      exact (second a).fails (fun holds' => fails ⟨holds,holds'⟩) middle
    · obtain ⟨e,middle,thrown,kind⟩ := first.fails holds s
      exact ⟨e,middle,bind_of_error thrown,kind⟩

theorem settled_get {f : σ → EStateM ε σ α} (each : ∀ s, Settled expected (f s) property) :
    Settled expected (get >>= f) property where
  succeeds := fun holds s => (each s).succeeds holds s
  fails := fun fails s => (each s).fails fails s

theorem settled_forM {f : α → EStateM ε σ PUnit} {property : α → Prop} (xs : List α)
    (each : ∀ x, Settled expected (f x) (property x)) : Settled expected (xs.forM f) (∀ x ∈ xs, property x) := by
  induction xs with
  | nil => exact (settled_pure _).congr (by simp)
  | cons x xs ih => exact ((each x).bind fun _ => ih).congr (by simp)

theorem Settled.zoom {t : EStateM ε τ α} (h : Settled expected t property) (read : σ → τ) (write : τ → σ → σ) :
    Settled expected (Tasks.zoom read write t) property where
  succeeds := by
    intro holds s
    obtain ⟨a,part,done⟩ := h.succeeds holds (read s)
    exact ⟨a,write part s,by rw [Tasks.zoom,done]⟩
  fails := by
    intro fails s
    obtain ⟨e,part,thrown,kind⟩ := h.fails fails (read s)
    exact ⟨e,write part s,by rw [Tasks.zoom,thrown],kind⟩

end Rules

theorem forM_fold {f : α → EStateM ε σ PUnit} {step : α → σ → σ} (xs : List α)
    (each : ∀ x ∈ xs, ∀ s, f x s = .ok .unit (step x s)) (s : σ) :
    xs.forM f s = .ok .unit (xs.foldl (fun s x => step x s) s) := by
  induction xs generalizing s with
  | nil => rfl
  | cons x xs ih =>
    show (f x >>= fun _ => xs.forM f) s = _
    rw [bind_of_ok (each x List.mem_cons_self s)]
    exact ih (fun y member => each y (List.mem_cons_of_mem _ member)) _

theorem zoom_done {read : σ → τ} {write : τ → σ → σ} {t : EStateM ε τ α}
    (done : zoom read write t s = .ok a s') :
    ∃ part, t (read s) = .ok a part ∧ s' = write part s := by
  unfold zoom at done
  split at done
  · next b part ran =>
    cases done
    exact ⟨part,ran,rfl⟩
  · contradiction

/-- The state a task leaves, whether it throws or not. -/
def left : EStateM.Result ε σ α → σ
  | .ok _ s => s
  | .error _ s => s

instance decidableDone (result : EStateM.Result ε σ PUnit) (property : σ → Prop) [DecidablePred property] :
    Decidable (∃ s, result = .ok .unit s ∧ property s) :=
  match result with
  | .ok _ s => decidable_of_iff (property s)
      ⟨fun holds => ⟨s,rfl,holds⟩,fun ⟨_,same,holds⟩ => (EStateM.Result.ok.inj same).2 ▸ holds⟩
  | .error _ _ => isFalse fun ⟨_,same,_⟩ => by contradiction

/-- What a task keeps, even when it throws. -/
def Keeps (property : σ → Prop) (t : EStateM ε σ α) : Prop := ∀ s, property s → property (left (t s))

section Frames

variable {property : σ → Prop}

theorem keeps_pure (a : α) : Keeps property (pure a : EStateM ε σ α) := fun _ holds => holds

theorem keeps_modify {f : σ → σ} (keeps : ∀ s, property s → property (f s)) :
    Keeps property (modify f : EStateM ε σ PUnit) := keeps

theorem keeps_attempt (x : Except ε α) : Keeps property (attempt x : EStateM ε σ α) := by
  intro s holds
  cases x <;> exact holds

theorem Keeps.bind {t : EStateM ε σ α} {f : α → EStateM ε σ β} (first : Keeps property t)
    (second : ∀ a, Keeps property (f a)) : Keeps property (t >>= f) := by
  intro s holds
  have middle := first s holds
  cases ran : t s with
  | ok a s' =>
    rw [ran] at middle
    rw [bind_of_ok ran]
    exact second a s' middle
  | error e s' =>
    rw [ran] at middle
    rw [bind_of_error ran]
    exact middle

theorem keeps_get {f : σ → EStateM ε σ α} (each : ∀ s, Keeps property (f s)) : Keeps property (get >>= f) :=
  fun s holds => each s s holds

theorem keeps_forM {f : α → EStateM ε σ PUnit} (xs : List α) (each : ∀ x, Keeps property (f x)) :
    Keeps property (xs.forM f) := by
  induction xs with
  | nil => exact keeps_pure _
  | cons x xs ih => exact (each x).bind fun _ => ih

theorem keeps_mapM {f : α → EStateM ε σ β} (xs : List α) (each : ∀ x, Keeps property (f x)) :
    Keeps property (xs.mapM f) := by
  induction xs with
  | nil => exact keeps_pure _
  | cons x xs ih =>
    rw [List.mapM_cons]
    exact (each x).bind fun _ => ih.bind fun _ => keeps_pure _

theorem keeps_zoom {read : σ → τ} {write : τ → σ → σ} {t : EStateM ε τ α}
    (keeps : ∀ part s, property s → property (write part s)) : Keeps property (zoom read write t) := by
  intro s holds
  unfold zoom
  split
  · exact keeps _ s holds
  · exact keeps _ s holds

end Frames

theorem Keeps.done {property : σ → Prop} {t : EStateM ε σ α} (keeps : Keeps property t) (holds : property s)
    (done : t s = .ok a s') : property s' := by
  have stays := keeps s holds
  rwa [done] at stays

/-- A task that is settled as long as it starts from a state of a kind. -/
structure SettledFrom (start : σ → Prop) (expected : ε → Prop) (t : EStateM ε σ α) (property : Prop) : Prop where
  succeeds : property → ∀ s, start s → ∃ a s', t s = .ok a s'
  fails : ¬property → ∀ s, start s → ∃ e s', t s = .error e s' ∧ expected e

section From

theorem SettledFrom.congr {start : σ → Prop} {expected : ε → Prop} {property property' : Prop} {t : EStateM ε σ α}
    (h : SettledFrom start expected t property) (same : property ↔ property') : SettledFrom start expected t property' :=
  propext same ▸ h

variable {start : σ → Prop} {expected : ε → Prop} {property property' : Prop}

theorem Settled.fromAny {t : EStateM ε σ α} (h : Settled expected t property) : SettledFrom start expected t property :=
  ⟨fun holds s _ => h.succeeds holds s,fun fails s _ => h.fails fails s⟩

theorem SettledFrom.settled {t : EStateM ε σ α} (h : SettledFrom (fun _ => True) expected t property) :
    Settled expected t property :=
  ⟨fun holds s => h.succeeds holds s trivial,fun fails s => h.fails fails s trivial⟩

theorem SettledFrom.given {fact : Prop} {t : EStateM ε σ α} (h : fact → SettledFrom start expected t property) :
    SettledFrom (fun s => fact ∧ start s) expected t property :=
  ⟨fun holds s begins => (h begins.1).succeeds holds s begins.2,fun fails s begins => (h begins.1).fails fails s begins.2⟩

theorem SettledFrom.bind {t : EStateM ε σ α} {f : α → EStateM ε σ β} {next : α → σ → Prop}
    (first : SettledFrom start expected t property) (leads : ∀ s a s', start s → t s = .ok a s' → next a s')
    (second : ∀ a, SettledFrom (next a) expected (f a) property') :
    SettledFrom start expected (t >>= f) (property ∧ property') where
  succeeds := by
    rintro ⟨holds,holds'⟩ s begins
    obtain ⟨a,middle,done⟩ := first.succeeds holds s begins
    rw [bind_of_ok done]
    exact (second a).succeeds holds' middle (leads s a middle begins done)
  fails := by
    intro fails s begins
    by_cases holds : property
    · obtain ⟨a,middle,done⟩ := first.succeeds holds s begins
      rw [bind_of_ok done]
      exact (second a).fails (fun holds' => fails ⟨holds,holds'⟩) middle (leads s a middle begins done)
    · obtain ⟨e,middle,thrown,kind⟩ := first.fails holds s begins
      exact ⟨e,middle,bind_of_error thrown,kind⟩

theorem settledFrom_get {f : σ → EStateM ε σ α} (each : ∀ s, start s → Settled expected (f s) property) :
    SettledFrom start expected (get >>= f) property :=
  ⟨fun holds s begins => (each s begins).succeeds holds s,fun fails s begins => (each s begins).fails fails s⟩

theorem SettledFrom.forM {f : α → EStateM ε σ PUnit} {property : α → Prop} (xs : List α)
    (each : ∀ x, SettledFrom start expected (f x) (property x)) (keeps : ∀ x, Keeps start (f x)) :
    SettledFrom start expected (xs.forM f) (∀ x ∈ xs, property x) := by
  induction xs with
  | nil => exact (settled_pure _).fromAny.congr (by simp)
  | cons x xs ih => exact ((each x).bind (fun s _ s' => (keeps x).done) fun _ => ih).congr (by simp)

end From

section Executor

/-- A task run for its future. An error that is not an exception ends the process. -/
def inFuture (caught : ε → Bool) (t : EStateM ε σ PUnit) : EStateM ε σ (Option ε) := fun s =>
  match t s with
  | .ok _ s' => .ok none s'
  | .error e s' => if caught e then .ok (some e) s' else .error e s'

/-- Tasks in the order in which they run, with what their futures hold. -/
def runTasks (caught : ε → Bool) (task : α → EStateM ε σ PUnit) : List α → EStateM ε σ (List (Option ε))
  | [] => pure []
  | a :: rest => do
    let future ← inFuture caught (task a)
    let futures ← runTasks caught task rest
    return future :: futures

variable {caught : ε → Bool} {task : α → EStateM ε σ PUnit}

theorem inFuture_ok {t : EStateM ε σ PUnit} (done : t s = .ok .unit s') : inFuture caught t s = .ok none s' := by
  rw [inFuture,done]

theorem inFuture_ends {t : EStateM ε σ PUnit} (ends : caught e = false) (thrown : t s = .error e s') :
    inFuture caught t s = .error e s' := by
  rw [inFuture,thrown]
  exact if_neg (by simp [ends])

theorem inFuture_thrown {t : EStateM ε σ PUnit} (ended : inFuture caught t s = .error e s') : t s = .error e s' := by
  unfold inFuture at ended
  split at ended
  · contradiction
  · next ran =>
    split at ended
    · contradiction
    · obtain ⟨rfl,rfl⟩ := EStateM.Result.error.inj ended
      exact ran

theorem inFuture_done {t : EStateM ε σ PUnit} (ran : inFuture caught t s = .ok future s') :
    (future = none ∧ t s = .ok .unit s') ∨ ∃ e, future = some e ∧ caught e = true ∧ t s = .error e s' := by
  unfold inFuture at ran
  split at ran
  · next done =>
    cases ran
    exact .inl ⟨rfl,done⟩
  · next e _ thrown =>
    split at ran
    · next held =>
      cases ran
      exact .inr ⟨e,rfl,held,thrown⟩
    · contradiction

theorem runTasks_done {order : List α} (ran : runTasks caught task (a :: order) s = .ok futures s') :
    ∃ future middle rest, inFuture caught (task a) s = .ok future middle ∧
      runTasks caught task order middle = .ok rest s' ∧ futures = future :: rest := by
  rw [runTasks] at ran
  obtain ⟨future,middle,first,ran⟩ := bind_done ran
  obtain ⟨rest,_,second,last⟩ := bind_done ran
  cases last
  exact ⟨future,middle,rest,first,second,rfl⟩

/-- A run in which no task throws. -/
inductive Clean (task : α → EStateM ε σ PUnit) : List α → σ → σ → Prop
  | nil : Clean task [] s s
  | cons : task a s = .ok .unit middle → Clean task rest middle s' → Clean task (a :: rest) s s'

theorem runTasks_clean (order : List α) (s s' : σ) (futures : List (Option ε))
    (ran : runTasks caught task order s = .ok futures s') (clean : ∀ f ∈ futures, f = none) :
    Clean task order s s' := by
  induction order generalizing s futures with
  | nil =>
    cases ran
    exact .nil
  | cons a order ih =>
    obtain ⟨future,middle,rest,first,second,rfl⟩ := runTasks_done ran
    rcases inFuture_done first with ⟨-,done⟩ | ⟨e,held,-,-⟩
    · exact .cons done (ih middle rest second fun f member => clean f (List.mem_cons_of_mem _ member))
    · have none := clean future List.mem_cons_self
      rw [held] at none
      contradiction

theorem Clean.split {before after : List α} (h : Clean task (before ++ after) s s') :
    ∃ middle, Clean task before s middle ∧ Clean task after middle s' := by
  induction before generalizing s with
  | nil => exact ⟨s,.nil,h⟩
  | cons a before ih =>
    cases h with
    | cons done rest =>
      obtain ⟨middle,first,second⟩ := ih rest
      exact ⟨middle,.cons done first,second⟩

/-- What every task of a run keeps, the run keeps. -/
theorem Clean.invariant (property : σ → Prop)
    (step : ∀ a ∈ order, ∀ s s', task a s = .ok .unit s' → property s → property s')
    (h : Clean task order s s') (start : property s) : property s' := by
  induction h with
  | nil => exact start
  | cons done _ ih =>
    apply ih fun a member => step a (List.mem_cons_of_mem _ member)
    exact step _ List.mem_cons_self _ _ done start

theorem inFuture_left {t : EStateM ε σ PUnit} (ran : inFuture caught t s = .ok future s') : s' = left (t s) := by
  rcases inFuture_done ran with ⟨-,done⟩ | ⟨e,-,-,thrown⟩
  · rw [done]
    rfl
  · rw [thrown]
    rfl

theorem runTasks_keeps (property : σ → Prop) (order : List α) (each : ∀ a ∈ order, Keeps property (task a))
    (ran : runTasks caught task order s = .ok futures s') (start : property s) : property s' := by
  induction order generalizing s futures with
  | nil =>
    cases ran
    exact start
  | cons a order ih =>
    obtain ⟨future,middle,rest,first,second,rfl⟩ := runTasks_done ran
    apply ih (fun b member => each b (List.mem_cons_of_mem _ member)) second
    rw [inFuture_left first]
    exact each a List.mem_cons_self s start

/-- Tasks each of which fails either always by an exception or never. If none ends the
process, the futures tell whether one of them threw. -/
theorem runTasks_spec {property held : α → Prop} (order : List α)
    (each : ∀ a ∈ order, Settled (fun e => caught e = true ↔ held a) (task a) (property a)) (s : σ) :
    ((∀ a ∈ order, property a ∨ held a) → ∃ futures s', runTasks caught task order s = .ok futures s' ∧
      ((∀ f ∈ futures, f = none) ↔ ∀ a ∈ order, property a)) ∧
    ((¬∀ a ∈ order, property a ∨ held a) → ∃ e s', runTasks caught task order s = .error e s') := by
  induction order generalizing s with
  | nil => exact ⟨fun _ => ⟨[],s,rfl,by simp⟩,fun fails => absurd (by simp) fails⟩
  | cons a order ih =>
    have later := ih fun b member => each b (List.mem_cons_of_mem _ member)
    have here := each a List.mem_cons_self
    -- the first task leaves a future and a state from which the others run, or ends it all
    have first : (property a ∨ held a) → ∃ future middle, inFuture caught (task a) s = .ok future middle ∧
        (future = none ↔ property a) := by
      intro goesOn
      by_cases holds : property a
      · obtain ⟨u,middle,done⟩ := here.succeeds holds s
        exact ⟨none,middle,by rw [inFuture,done],by simp [holds]⟩
      · obtain ⟨e,middle,thrown,kind⟩ := here.fails holds s
        refine ⟨some e,middle,?_,by simp [holds]⟩
        rw [inFuture,thrown]
        exact if_pos (kind.mpr (goesOn.resolve_left holds))
    constructor
    · intro all
      obtain ⟨future,middle,begun,clean⟩ := first (all a List.mem_cons_self)
      obtain ⟨futures,s',ran,rest⟩ := (later middle).1 fun b member => all b (List.mem_cons_of_mem _ member)
      refine ⟨future :: futures,s',?_,by simp [clean,rest]⟩
      rw [runTasks,bind_of_ok begun,bind_of_ok ran]
      rfl
    · intro fails
      by_cases goesOn : property a ∨ held a
      · obtain ⟨future,middle,begun,-⟩ := first goesOn
        obtain ⟨e,s',ran⟩ := (later middle).2 fun all => fails (List.forall_mem_cons.mpr ⟨goesOn,all⟩)
        rw [runTasks,bind_of_ok begun]
        exact ⟨e,s',bind_of_error ran⟩
      · obtain ⟨e,middle,thrown,kind⟩ := here.fails (fun holds => goesOn (.inl holds)) s
        have ended : inFuture caught (task a) s = .error e middle := by
          rw [inFuture,thrown]
          exact if_neg fun held => goesOn (.inr (kind.mp held))
        exact ⟨e,middle,by rw [runTasks,bind_of_error ended]⟩

end Executor

section Workers

/-- What other workers still do while the process ends. It is the worst error that counts. -/
def outlive (worse : ε → Bool) (task : α → EStateM ε σ PUnit) (e : ε) : List α → EStateM ε σ β
  | [] => throw e
  | a :: rest => fun s =>
    match task a s with
    | .ok _ s' => outlive worse task e rest s'
    | .error e' s' => outlive worse task (if worse e' then e' else e) rest s'

/-- Tasks run by several workers: after one that ends the process as many more run as are late
to notice it. -/
def runWorkers (caught worse : ε → Bool) (late : Nat) (task : α → EStateM ε σ PUnit) :
    List α → EStateM ε σ (List (Option ε))
  | [] => pure []
  | a :: rest => fun s =>
    match inFuture caught (task a) s with
    | .ok future s' => (do
        let futures ← runWorkers caught worse late task rest
        return future :: futures) s'
    | .error e s' => outlive worse task e (rest.take late) s'

variable {caught worse : ε → Bool} {late : Nat} {task : α → EStateM ε σ PUnit}

theorem runWorkers_begun {a : α} {rest : List α} (begun : inFuture caught (task a) s = .ok future middle) :
    runWorkers caught worse late task (a :: rest) s = (do
      let futures ← runWorkers caught worse late task rest
      return future :: futures) middle := by
  simp only [runWorkers,begun]

theorem runWorkers_ended {a : α} {rest : List α} (ended : inFuture caught (task a) s = .error e middle) :
    runWorkers caught worse late task (a :: rest) s = outlive worse task e (rest.take late) middle := by
  simp only [runWorkers,ended]

theorem outlive_fails (order : List α) (e : ε) (s : σ) :
    ∃ e' s', (outlive worse task e order s : EStateM.Result ε σ β) = .error e' s' ∧ (worse e = true → worse e' = true) := by
  induction order generalizing e s with
  | nil => exact ⟨e,s,rfl,id⟩
  | cons a order ih =>
    simp only [outlive]
    split
    · exact ih e _
    · next e' middle _ =>
      obtain ⟨last,s',ended,worst⟩ := ih (if worse e' then e' else e) middle
      refine ⟨last,s',ended,fun bad => worst ?_⟩
      split
      · assumption
      · exact bad

/-- A task that fails in the worst way decides what is left of the run. -/
theorem runWorkers_worst {a : α} {rest : List α} (worst : ∀ e', worse e' = true ↔ e' = e) (ends : caught e = false)
    (thrown : task a s = .error e middle) : ∃ s', runWorkers caught worse late task (a :: rest) s = .error e s' := by
  obtain ⟨e',s',last,bad⟩ := outlive_fails (rest.take late) e middle
  obtain rfl := (worst e').mp (bad ((worst e).mpr rfl))
  exact ⟨s',(runWorkers_ended (inFuture_ends ends thrown)).trans last⟩

theorem runWorkers_ok (order : List α) (s s' : σ) (futures : List (Option ε))
    (ran : runTasks caught task order s = .ok futures s') :
    runWorkers caught worse late task order s = .ok futures s' := by
  induction order generalizing s futures with
  | nil => exact ran
  | cons a order ih =>
    obtain ⟨future,middle,rest,first,second,rfl⟩ := runTasks_done ran
    rw [runWorkers_begun first,bind_of_ok (ih middle rest second)]
    rfl

theorem runWorkers_fails (order : List α) (s : σ) (ended : runTasks caught task order s = .error e s') :
    ∃ e' s', runWorkers caught worse late task order s = .error e' s' := by
  induction order generalizing s s' e with
  | nil => contradiction
  | cons a order ih =>
    cases first : inFuture caught (task a) s with
    | error e' middle =>
      obtain ⟨last,s',ended,-⟩ := outlive_fails (order.take late) e' middle
      exact ⟨last,s',(runWorkers_ended first).trans ended⟩
    | ok future middle =>
      rw [runTasks,bind_of_ok first] at ended
      cases later : runTasks caught task order middle with
      | ok futures s' =>
        rw [bind_of_ok later] at ended
        contradiction
      | error e' s' =>
        obtain ⟨e'',s'',ended⟩ := ih middle later
        exact ⟨e'',s'',by rw [runWorkers_begun first,bind_of_error ended]⟩

theorem outlive_kind {holds : List α → σ → Prop} {kind : ε → Prop}
    (step : ∀ a rest s, holds (a :: rest) s → holds rest (left (task a s)) ∧ ∀ e s', task a s = .error e s' → kind e)
    (order : List α) (s : σ) (start : holds order s) (good : kind e)
    (ended : (outlive worse task e order s : EStateM.Result ε σ β) = .error e' s') : kind e' := by
  induction order generalizing s e with
  | nil =>
    cases ended
    exact good
  | cons a order ih =>
    obtain ⟨next,only⟩ := step a order s start
    simp only [outlive] at ended
    split at ended
    · next middle ran =>
      rw [ran] at next
      exact ih middle next good ended
    · next e'' middle ran =>
      rw [ran] at next
      refine ih middle next ?_ ended
      split
      · exact only e'' middle ran
      · exact good

/-- What holds of the tasks that are left, and makes the next one fail in some way only, decides
how a run can end. -/
theorem runWorkers_error (holds : List α → σ → Prop) (kind : ε → Prop)
    (fewer : ∀ rest count s, holds rest s → holds (rest.take count) s)
    (step : ∀ a rest s, holds (a :: rest) s → holds rest (left (task a s)) ∧ ∀ e s', task a s = .error e s' → kind e)
    (order : List α) (s : σ) (start : holds order s)
    (ended : runWorkers caught worse late task order s = .error e s') : kind e := by
  induction order generalizing s with
  | nil => contradiction
  | cons a order ih =>
    obtain ⟨next,only⟩ := step a order s start
    cases first : inFuture caught (task a) s with
    | ok future middle =>
      rw [runWorkers_begun first] at ended
      rw [← inFuture_left first] at next
      cases later : runWorkers caught worse late task order middle with
      | ok futures s'' =>
        rw [bind_of_ok later] at ended
        contradiction
      | error e' s'' =>
        rw [bind_of_error later] at ended
        obtain ⟨rfl,rfl⟩ := EStateM.Result.error.inj ended
        exact ih middle next later
    | error e' middle =>
      rw [runWorkers_ended first] at ended
      have thrown := inFuture_thrown first
      rw [thrown] at next
      exact outlive_kind step _ middle (fewer order late middle next) (only e' middle thrown) ended

theorem runWorkers_spec {property held : α → Prop} (order : List α)
    (each : ∀ a ∈ order, Settled (fun e => caught e = true ↔ held a) (task a) (property a)) (s : σ) :
    ((∀ a ∈ order, property a ∨ held a) → ∃ futures s', runWorkers caught worse late task order s = .ok futures s' ∧
      ((∀ f ∈ futures, f = none) ↔ ∀ a ∈ order, property a)) ∧
    ((¬∀ a ∈ order, property a ∨ held a) → ∃ e s', runWorkers caught worse late task order s = .error e s') := by
  obtain ⟨succeeds,fails⟩ := runTasks_spec order each s
  constructor
  · intro all
    obtain ⟨futures,s',ran,clean⟩ := succeeds all
    exact ⟨futures,s',runWorkers_ok order s s' futures ran,clean⟩
  · intro ends
    obtain ⟨e,s',ended⟩ := fails ends
    exact runWorkers_fails order s ended

end Workers

section Places

variable {caught : ε → Bool} {task : α → EStateM ε (α → β) PUnit}

/-- Tasks that write only their own place of a store: each finds its place untouched, and
what it leaves there stays. -/
theorem runTasks_places (property : α → β → Prop) {start : β} (order : List α) (once : order.Nodup)
    (other : ∀ a b, b ≠ a → ∀ v, Keeps (fun s => s b = v) (task a))
    (own : ∀ a s, s a = start → property a (left (task a s) a)) (s : α → β) (fresh : ∀ a ∈ order, s a = start)
    (ran : runTasks caught task order s = .ok futures s') : ∀ a ∈ order, property a (s' a) := by
  induction order generalizing s futures with
  | nil => exact fun a absent => absurd absent List.not_mem_nil
  | cons a order ih =>
    obtain ⟨future,middle,rest,first,second,rfl⟩ := runTasks_done ran
    obtain ⟨apart,once⟩ := List.nodup_cons.mp once
    have written := inFuture_left first
    have untouched : ∀ b, b ≠ a → middle b = s b := by
      intro b differs
      rw [written]
      exact other a b differs (s b) s rfl
    intro b member
    cases member with
    | head =>
      have stays : s' a = middle a := by
        apply runTasks_keeps (fun s => s a = middle a) order _ second rfl
        exact fun c member => other c a (fun same => apart (same ▸ member)) _
      rw [stays,written]
      exact own a s (fresh a List.mem_cons_self)
    | tail _ member =>
      apply ih once middle _ second b member
      intro c member
      rw [untouched c fun same => apart (same ▸ member)]
      exact fresh c (List.mem_cons_of_mem _ member)

end Places

end JkBuild.Tasks
