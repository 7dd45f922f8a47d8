import JkBuild.BuildRuleBase
import JkBuild.FileWriter
import Mathlib.Algebra.BigOperators.Fin
import Mathlib.Algebra.Order.BigOperators.Group.Finset

/-! Writers that are destroyed on different threads. A step is one call of the file system, or
one more character that gets to a file, which opening has emptied. The threads take their
steps in any order, and folders may be made by several of them. An exception leaves a
destructor and ends the process. -/
namespace JkBuild.ParallelWriters

open FolderTree AssumeFolder FileWriter

/-- Where a call of `AssumeFolder` stands. -/
inductive Position where
  | exists (p : FilePath)
  | isDirectory (p : FilePath)
  | returned
  deriving DecidableEq, Repr

/-- The innermost call, and the folders that the calls around it have yet to make. -/
structure Call where
  position : Position
  pending : List FilePath
  deriving DecidableEq, Repr

inductive Stage where
  | assuming (call : Call)
  | reading
  | opening
  | writing (count : Nat)
  | finished
  deriving DecidableEq, Repr

structure Job where
  destination : Destination
  content : List Char

abbrev Job.path (j : Job) : FilePath := j.destination.path

abbrev Job.folder (j : Job) : FilePath := j.destination.folder

def stepCall (t : Disk) : Call → Except Fault (Disk × Stage)
  | ⟨.exists [],pending⟩ => .ok (t,.assuming ⟨.returned,pending⟩)
  | ⟨.exists (name :: parent),pending⟩ =>
    if t.entry (name :: parent) = none then .ok (t,.assuming ⟨.exists parent,(name :: parent) :: pending⟩)
    else .ok (t,.assuming ⟨.isDirectory (name :: parent),pending⟩)
  | ⟨.isDirectory p,pending⟩ =>
    if t.entry p = some .directory then .ok (t,.assuming ⟨.returned,pending⟩) else .error (notDirectory p)
  | ⟨.returned,p :: pending⟩ =>
    match t.createDirectory p with
    | some t' => .ok (t',.assuming ⟨.returned,pending⟩)
    | none => .error (.filesystemError p)
  | ⟨.returned,[]⟩ => .ok (t,.reading)

/-- One step of a writer, if it has one to take. -/
def step (t : Disk) (j : Job) : Stage → Option (Except Fault (Disk × Stage))
  | .assuming call => some (stepCall t call)
  | .reading =>
    match t.readFile j.path with
    | some old => some (.ok (t,if Unchanged old j.content then .finished else .opening))
    | none => some (.ok (t,.opening))
  | .opening => some (.ok (t.writeFile j.destination.name j.folder [],.writing 0))
  | .writing count =>
    if count < j.content.length then
      some (.ok (t.writeFile j.destination.name j.folder (j.content.take (count + 1)),.writing (count + 1)))
    else some (.ok (t,.finished))
  | .finished => none

structure State (n : Nat) where
  disk : Disk
  stage : Fin n → Stage
  terminated : Option Fault

variable {n : Nat}

def start (t : Disk) (jobs : Fin n → Job) : State n :=
  ⟨t,fun i => .assuming ⟨.exists (jobs i).folder,[]⟩,none⟩

def advance (jobs : Fin n → Job) (s : State n) (i : Fin n) : Option (State n) :=
  if s.terminated = none then
    match step s.disk (jobs i) (s.stage i) with
    | some (.ok (disk,stage)) => some { s with disk := disk, stage := Function.update s.stage i stage }
    | some (.error fault) => some { s with terminated := some fault }
    | none => none
  else none

def execute (jobs : Fin n → Job) : List (Fin n) → State n → Option (State n)
  | [], s => some s
  | i :: schedule, s => (advance jobs s i).bind (execute jobs schedule)

def Done (jobs : Fin n → Job) (s : State n) : Prop := ∀ i, advance jobs s i = none

def flushAll (jobs : Fin n → Job) (order : List (Fin n)) (t : Disk) : Except Fault Disk :=
  order.foldlM (fun t i => flush t (jobs i).destination (jobs i).content) t

/-- Files of their own, none of them on the way to another. -/
structure Apart (jobs : Fin n → Job) : Prop where
  paths : ∀ i j, (jobs i).path = (jobs j).path → i = j
  folders : ∀ i j, ¬(jobs i).path <:+ (jobs j).folder

/-- Nothing stands in the way of a writer. -/
def Clear (t : Disk) (j : Job) : Prop := ∀ q, ¬t.Blocks q j.folder

section Measure

/-- How many steps a writer of so many characters may still take. -/
def Stage.left (length : Nat) : Stage → Nat
  | assuming ⟨.exists p,pending⟩ => 2 * p.length + pending.length + 6 + length
  | assuming ⟨.isDirectory _,pending⟩ => pending.length + 5 + length
  | assuming ⟨.returned,pending⟩ => pending.length + 4 + length
  | reading => 3 + length
  | opening => 2 + length
  | writing count => 1 + (length - count)
  | finished => 0

theorem stepCall_left {t t' : Disk} {call : Call} {stage : Stage} (length : Nat)
    (moved : stepCall t call = .ok (t',stage)) : stage.left length < (Stage.assuming call).left length := by
  obtain ⟨position,pending⟩ := call
  cases position with
  | «exists» p =>
    cases p with
    | nil =>
      obtain ⟨-,rfl⟩ := Prod.mk.inj (Except.ok.inj moved)
      simp [Stage.left]
    | cons name parent =>
      simp only [stepCall] at moved
      split at moved
      all_goals
        obtain ⟨-,rfl⟩ := Prod.mk.inj (Except.ok.inj moved)
        simp only [Stage.left,List.length_cons]
        omega
  | isDirectory p =>
    simp only [stepCall] at moved
    split at moved
    · obtain ⟨-,rfl⟩ := Prod.mk.inj (Except.ok.inj moved)
      simp [Stage.left]
    · contradiction
  | returned =>
    cases pending with
    | nil =>
      obtain ⟨-,rfl⟩ := Prod.mk.inj (Except.ok.inj moved)
      simp [Stage.left]
    | cons p pending =>
      simp only [stepCall] at moved
      split at moved
      · obtain ⟨-,rfl⟩ := Prod.mk.inj (Except.ok.inj moved)
        simp [Stage.left]
      · contradiction

theorem step_left {t t' : Disk} {j : Job} {stage stage' : Stage} (moved : step t j stage = some (.ok (t',stage'))) :
    stage'.left j.content.length < stage.left j.content.length := by
  cases stage with
  | assuming call => exact stepCall_left _ (Option.some.inj moved)
  | reading =>
    simp only [step] at moved
    split at moved
    · obtain ⟨-,rfl⟩ := Prod.mk.inj (Except.ok.inj (Option.some.inj moved))
      split <;> simp only [Stage.left] <;> omega
    · obtain ⟨-,rfl⟩ := Prod.mk.inj (Except.ok.inj (Option.some.inj moved))
      simp [Stage.left]
  | opening =>
    obtain ⟨-,rfl⟩ := Prod.mk.inj (Except.ok.inj (Option.some.inj moved))
    simp only [Stage.left]
    omega
  | writing count =>
    simp only [step] at moved
    split at moved
    · obtain ⟨-,rfl⟩ := Prod.mk.inj (Except.ok.inj (Option.some.inj moved))
      simp only [Stage.left]
      omega
    · obtain ⟨-,rfl⟩ := Prod.mk.inj (Except.ok.inj (Option.some.inj moved))
      simp only [Stage.left]
      omega
  | finished => contradiction

/-- The steps left to all of them, with the one that may end the process. -/
def State.left (jobs : Fin n → Job) (s : State n) : Nat :=
  ∑ i, (s.stage i).left (jobs i).content.length + if s.terminated = none then 1 else 0

theorem advance_cases {jobs : Fin n → Job} {s s' : State n} {i : Fin n} (moved : advance jobs s i = some s') :
    s.terminated = none ∧
    ((∃ disk stage, step s.disk (jobs i) (s.stage i) = some (.ok (disk,stage)) ∧
        s' = ⟨disk,Function.update s.stage i stage,none⟩) ∨
      ∃ fault, step s.disk (jobs i) (s.stage i) = some (.error fault) ∧ s' = ⟨s.disk,s.stage,some fault⟩) := by
  unfold advance at moved
  split at moved
  · next running =>
    refine ⟨running,?_⟩
    split at moved
    · next disk stage taken =>
      exact .inl ⟨disk,stage,taken,by rw [← Option.some.inj moved,running]⟩
    · next fault taken => exact .inr ⟨fault,taken,(Option.some.inj moved).symm⟩
    · contradiction
  · contradiction

theorem advance_left {jobs : Fin n → Job} {s s' : State n} {i : Fin n} (moved : advance jobs s i = some s') :
    s'.left jobs < s.left jobs := by
  obtain ⟨running,⟨disk,stage,taken,rfl⟩ | ⟨fault,-,rfl⟩⟩ := advance_cases moved
  · have less := step_left taken
    have sum : ∑ k, (Function.update s.stage i stage k).left (jobs k).content.length <
        ∑ k, (s.stage k).left (jobs k).content.length := by
      refine Finset.sum_lt_sum (fun k _ => ?_) ⟨i,Finset.mem_univ i,by simpa using less⟩
      by_cases same : k = i
      · subst same
        simpa using less.le
      · simp [same]
    simpa [State.left,running] using sum
  · simp [State.left,running]

theorem execute_left {jobs : Fin n → Job} (schedule : List (Fin n)) {s s' : State n}
    (run : execute jobs schedule s = some s') : schedule.length + s'.left jobs ≤ s.left jobs := by
  induction schedule generalizing s with
  | nil =>
    obtain rfl := Option.some.inj run
    simp
  | cons i schedule ih =>
    obtain ⟨middle,moved,rest⟩ := Option.bind_eq_some_iff.mp run
    have := ih rest
    have := advance_left moved
    simp only [List.length_cons]
    omega

end Measure

section Invariants

/-- The calls of a nest: each pending folder lies directly below the one before it, from `q`
down to `p`. -/
def Nested : FilePath → List FilePath → FilePath → Prop
  | q, [], p => q = p
  | q, r :: pending, p => (∃ name, r = name :: q) ∧ Nested r pending p

theorem Nested.suffix {q p : FilePath} {pending : List FilePath} (nested : Nested q pending p) : q <:+ p := by
  induction pending generalizing q with
  | nil => exact nested ▸ List.suffix_rfl
  | cons r pending ih =>
    obtain ⟨⟨name,rfl⟩,rest⟩ := nested
    exact (List.suffix_cons name q).trans (ih rest)

variable (t : Disk) (jobs : Fin n → Job)

/-- What is true of a writer on its own. A file in its way is still ahead of it while it looks
for folders; from then on there is none. -/
def Sound (disk : Disk) (j : Job) : Stage → Prop
  | .assuming ⟨.exists q,pending⟩ => Nested q pending j.folder ∧ ∀ q', t.Blocks q' j.folder → q' <:+ q
  | .assuming ⟨.isDirectory q,pending⟩ =>
    Nested q pending j.folder ∧ disk.entry q ≠ none ∧ ∀ q', t.Blocks q' j.folder → q' <:+ q
  | .assuming ⟨.returned,pending⟩ =>
    Clear t j ∧ ∃ q, Nested q pending j.folder ∧ disk.entry q = some .directory
  | .reading => Clear t j ∧ disk.entry j.folder = some .directory
  | .opening => Clear t j ∧ disk.entry j.folder = some .directory ∧
      ∀ old, t.readFile j.path = some old → ¬Unchanged old j.content
  | .writing count => Clear t j ∧ disk.entry j.folder = some .directory ∧
      (∀ old, t.readFile j.path = some old → ¬Unchanged old j.content) ∧ count ≤ j.content.length
  | .finished => Clear t j

/-- What is at a destination when part of the text is there. A folder cannot be opened. -/
def begun (old : Option (Entry (List Char))) (written : List Char) : Entry (List Char) :=
  match old with
  | some .directory => .directory
  | _ => .file written

/-- What is at the destination of a writer. -/
def Stage.holds (stage : Stage) (old : Option (Entry (List Char))) (content : List Char) : Option (Entry (List Char)) :=
  match stage with
  | writing count => some (begun old (content.take count))
  | finished => some (settled old content)
  | _ => old

structure Invariant (s : State n) : Prop where
  own : ∀ i, s.disk.entry (jobs i).path = (s.stage i).holds (t.entry (jobs i).path) (jobs i).content
  others : ∀ p, (∀ i, p ≠ (jobs i).path) → s.disk.entry p = t.entry p ∨
    t.entry p = none ∧ s.disk.entry p = some .directory ∧ ∃ i, Clear t (jobs i) ∧ p <:+ (jobs i).folder
  sound : ∀ i, Sound t s.disk (jobs i) (s.stage i)
  fault : ∀ fault, s.terminated = some fault → ∃ i q, t.Blocks q (jobs i).folder ∧ fault = notDirectory q

/-- What is there stays, folders as folders. -/
structure Grows (disk disk' : Disk) : Prop where
  present : ∀ q, disk.entry q ≠ none → disk'.entry q ≠ none
  directory : ∀ q, disk.entry q = some .directory → disk'.entry q = some .directory

variable {t : Disk} {jobs : Fin n → Job}

theorem createDirectory_grows {disk disk' : Disk} {p : FilePath} (created : disk.createDirectory p = some disk') :
    Grows disk disk' := by
  constructor <;> intro q there <;> rw [Tree.createDirectory_entry created]
  · split
    · simp
    · exact there
  · split
    · rfl
    · exact there

theorem writeFile_grows (disk : Disk) (d : Destination) (content : List Char) :
    Grows disk (disk.writeFile d.name d.folder content) := by
  constructor <;> intro q there <;> rw [Tree.writeFile_entry]
  · split
    · simp
    · exact there
  · split
    · next here => exact absurd (here.1 ▸ there) here.2.2
    · exact there

theorem Sound.grows {disk disk' : Disk} {j : Job} {stage : Stage} (sound : Sound t disk j stage)
    (grows : Grows disk disk') : Sound t disk' j stage := by
  cases stage with
  | assuming call =>
    obtain ⟨position,pending⟩ := call
    cases position with
    | «exists» q => exact sound
    | isDirectory q => exact ⟨sound.1,grows.present q sound.2.1,sound.2.2⟩
    | returned =>
      obtain ⟨clear,q,nested,folder⟩ := sound
      exact ⟨clear,q,nested,grows.directory q folder⟩
  | reading => exact ⟨sound.1,grows.directory _ sound.2⟩
  | opening => exact ⟨sound.1,grows.directory _ sound.2.1,sound.2.2⟩
  | writing count => exact ⟨sound.1,grows.directory _ sound.2.1,sound.2.2⟩
  | finished => exact sound

theorem start_invariant : Invariant t jobs (start t jobs) where
  own _ := rfl
  others _ _ := .inl rfl
  sound _ := ⟨rfl,fun _ blocks => blocks.1⟩
  fault _ ended := by contradiction

/-- Folders on the way to a file are no destinations, so a file there has been there before. -/
theorem Invariant.folder_entry {s : State n} (valid : Invariant t jobs s) (apart : Apart jobs) {i : Fin n}
    {q : FilePath} (above : q <:+ (jobs i).folder) : s.disk.entry q = t.entry q ∨
      t.entry q = none ∧ s.disk.entry q = some .directory ∧ ∃ i, Clear t (jobs i) ∧ q <:+ (jobs i).folder :=
  valid.others q fun k same => apart.folders k i (same ▸ above)

theorem Invariant.file_iff {s : State n} (valid : Invariant t jobs s) (apart : Apart jobs) {i : Fin n}
    {q : FilePath} (above : q <:+ (jobs i).folder) (content : List Char) :
    s.disk.entry q = some (.file content) ↔ t.entry q = some (.file content) := by
  rcases valid.folder_entry apart above with same | ⟨none,directory,-⟩
  · rw [same]
  · rw [none,directory]
    simp

theorem Invariant.blocks_iff {s : State n} (valid : Invariant t jobs s) (apart : Apart jobs) (i : Fin n) (q : FilePath) :
    s.disk.Blocks q (jobs i).folder ↔ t.Blocks q (jobs i).folder :=
  and_congr_right fun above => exists_congr fun content => valid.file_iff apart above content

theorem Invariant.create {s : State n} (valid : Invariant t jobs s) (apart : Apart jobs) {i : Fin n}
    (clear : Clear t (jobs i)) {p : FilePath} (above : p <:+ (jobs i).folder) {disk : Disk}
    (created : s.disk.createDirectory p = some disk) {stage : Stage} (sound : Sound t disk (jobs i) stage)
    (working : (s.stage i).holds = stage.holds) :
    Invariant t jobs ⟨disk,Function.update s.stage i stage,none⟩ where
  own k := by
    have elsewhere : (jobs k).path ≠ p := fun same => apart.folders k i (same ▸ above)
    rw [Tree.createDirectory_entry created,if_neg elsewhere,valid.own k]
    by_cases same : k = i
    · subst same
      simp [working]
    · simp [same]
  others q foreign := by
    rw [Tree.createDirectory_entry created]
    split
    · next here =>
      subst here
      cases before : t.entry q with
      | none => exact .inr ⟨rfl,rfl,i,clear,above⟩
      | some e =>
        cases e with
        | directory => exact .inl rfl
        | file content => exact absurd ⟨above,content,before⟩ (clear q)
    · exact valid.others q foreign
  sound k := by
    by_cases same : k = i
    · subst same
      simpa using sound
    · simpa [same] using (valid.sound k).grows (createDirectory_grows created)
  fault _ ended := by contradiction

theorem Invariant.look {s : State n} (valid : Invariant t jobs s) {i : Fin n} {stage : Stage}
    (sound : Sound t s.disk (jobs i) stage)
    (same : s.disk.entry (jobs i).path = stage.holds (t.entry (jobs i).path) (jobs i).content) :
    Invariant t jobs ⟨s.disk,Function.update s.stage i stage,none⟩ where
  own k := by
    by_cases here : k = i
    · subst here
      simpa using same
    · simpa [here] using valid.own k
  others := valid.others
  sound k := by
    by_cases here : k = i
    · subst here
      simpa using sound
    · simpa [here] using valid.sound k
  fault _ ended := by contradiction

theorem Invariant.unclear {s : State n} (valid : Invariant t jobs s) (apart : Apart jobs) {i : Fin n} {q : FilePath}
    (ahead : ∀ q', t.Blocks q' (jobs i).folder → q' <:+ q)
    (directory : s.disk.entry q = some .directory) : Clear t (jobs i) := by
  intro q' blocks
  have here := (valid.blocks_iff apart i q').mpr blocks
  have onWay : s.disk.Blocks q' q := ⟨ahead q' blocks,here.2⟩
  by_cases same : q' = q
  · obtain ⟨-,content,file⟩ := here
    rw [same,directory] at file
    cases file
  · have := onWay.absent same
    simp [directory] at this

/-- One case for each line of `stepCall`. -/
theorem stepCall_invariant {s : State n} (valid : Invariant t jobs s) (apart : Apart jobs) {i : Fin n} {call : Call}
    (here : s.stage i = .assuming call) : match stepCall s.disk call with
      | .ok (disk,stage) => Invariant t jobs ⟨disk,Function.update s.stage i stage,none⟩
      | .error fault => ∃ q, t.Blocks q (jobs i).folder ∧ fault = notDirectory q := by
  have sound := valid.sound i
  have old := valid.own i
  rw [here] at sound old
  obtain ⟨position,pending⟩ := call
  cases position with
  | «exists» p =>
    obtain ⟨nested,ahead⟩ := sound
    cases p with
    | nil =>
      exact valid.look ⟨valid.unclear apart ahead s.disk.root,[],nested,s.disk.root⟩ old
    | cons name parent =>
      by_cases absent : s.disk.entry (name :: parent) = none
      · simp only [stepCall,absent,if_true]
        refine valid.look ⟨⟨⟨name,rfl⟩,nested⟩,fun q' blocks => ?_⟩ old
        refine (List.suffix_cons_iff.mp (ahead q' blocks)).resolve_left fun same => ?_
        obtain ⟨-,content,file⟩ := (valid.blocks_iff apart i q').mpr blocks
        rw [same,absent] at file
        cases file
      · simp only [stepCall,absent,if_false]
        exact valid.look ⟨nested,absent,ahead⟩ old
  | isDirectory p =>
    obtain ⟨nested,there,ahead⟩ := sound
    by_cases directory : s.disk.entry p = some .directory
    · simp only [stepCall,directory,if_true]
      exact valid.look ⟨valid.unclear apart ahead directory,p,nested,directory⟩ old
    · simp only [stepCall,directory,if_false]
      obtain ⟨e,entry⟩ := Option.ne_none_iff_exists'.mp there
      cases e with
      | directory => exact absurd entry directory
      | file content => exact ⟨p,⟨nested.suffix,content,(valid.file_iff apart nested.suffix content).mp entry⟩,rfl⟩
  | returned =>
    obtain ⟨clear,q,nested,folder⟩ := sound
    cases pending with
    | nil =>
      obtain rfl : q = (jobs i).folder := nested
      exact valid.look ⟨clear,folder⟩ old
    | cons p pending =>
      obtain ⟨⟨name,rfl⟩,rest⟩ := nested
      have free : ∀ content, s.disk.entry (name :: q) ≠ some (.file content) := fun content file =>
        clear _ ⟨rest.suffix,content,(valid.file_iff apart rest.suffix content).mp file⟩
      obtain ⟨disk,created⟩ := Tree.createDirectory_succeeds folder free
      simp only [stepCall,created]
      refine valid.create apart clear rest.suffix created ⟨clear,_,rest,?_⟩ (by rw [here]; rfl)
      rw [Tree.createDirectory_entry created,if_pos rfl]

theorem readFile_entry {disk : Disk} {p : FilePath} {content : List Char} :
    disk.readFile p = some content ↔ disk.entry p = some (.file content) := by
  unfold Tree.readFile
  split
  · next here => simp [here]
  · next other =>
    simp only [reduceCtorEq,false_iff]
    exact other content

theorem begun_directory (old : Option (Entry (List Char))) (written : List Char) :
    begun old written = .directory ↔ old = some .directory := by
  unfold begun
  split
  · simp
  · next other => simpa using fun same => other same

theorem begun_settled {old : Option (Entry (List Char))} {content : List Char}
    (differs : ∀ text, old = some (.file text) → ¬Unchanged text content) : begun old content = settled old content := by
  match old with
  | none => rfl
  | some .directory => rfl
  | some (.file text) =>
    have other := differs text rfl
    rw [unchanged_iff] at other
    simp [begun,settled,other]

theorem Invariant.write {s : State n} (valid : Invariant t jobs s) (apart : Apart jobs) {i : Fin n} {count : Nat}
    (folder : s.disk.entry (jobs i).folder = some .directory)
    (kind : s.disk.entry (jobs i).path = some .directory ↔ t.entry (jobs i).path = some .directory)
    (sound : ∀ disk, disk.entry (jobs i).folder = some .directory → Sound t disk (jobs i) (.writing count)) :
    Invariant t jobs ⟨s.disk.writeFile (jobs i).destination.name (jobs i).folder ((jobs i).content.take count),
      Function.update s.stage i (.writing count),none⟩ := by
  have entries : ∀ q, (s.disk.writeFile (jobs i).destination.name (jobs i).folder ((jobs i).content.take count)).entry q =
      if q = (jobs i).path then some (begun (t.entry (jobs i).path) ((jobs i).content.take count)) else s.disk.entry q := by
    intro q
    have ready : s.disk.Writable (jobs i).destination.name (jobs i).folder ↔ t.entry (jobs i).path ≠ some .directory :=
      (and_iff_right folder).trans (not_congr kind)
    simp only [Tree.writeFile_entry,ready]
    by_cases own : q = (jobs i).path
    · subst own
      by_cases directory : t.entry (jobs i).path = some .directory
      · simp [directory,kind.mpr directory,begun]
      · have file : begun (t.entry (jobs i).path) ((jobs i).content.take count) = .file ((jobs i).content.take count) := by
          unfold begun
          split
          · contradiction
          · rfl
        exact (if_pos ⟨rfl,directory⟩).trans (by rw [if_pos rfl,file])
    · rw [if_neg own,if_neg fun both => own both.1]
  have grown := writeFile_grows s.disk (jobs i).destination ((jobs i).content.take count)
  refine ⟨fun k => ?_,fun q foreign => ?_,fun k => ?_,fun _ ended => by contradiction⟩
  · rw [entries]
    by_cases own : k = i
    · subst own
      simp [Stage.holds]
    · rw [if_neg fun path => own (apart.paths k i path),valid.own k]
      simp [own]
  · rw [entries,if_neg (foreign i)]
    exact valid.others q foreign
  · by_cases own : k = i
    · subst own
      simpa using sound _ (grown.directory _ folder)
    · simpa [own] using (valid.sound k).grows grown

theorem Invariant.opened {s : State n} (valid : Invariant t jobs s) (apart : Apart jobs) {i : Fin n}
    (here : s.stage i = .opening) : Invariant t jobs
      ⟨s.disk.writeFile (jobs i).destination.name (jobs i).folder [],Function.update s.stage i (.writing 0),none⟩ := by
  have sound := valid.sound i
  have before := valid.own i
  rw [here] at sound before
  obtain ⟨clear,folder,differs⟩ := sound
  exact valid.write apart folder (by rw [before]; rfl) fun _ there => ⟨clear,there,differs,Nat.zero_le _⟩

theorem Invariant.wrote {s : State n} (valid : Invariant t jobs s) (apart : Apart jobs) {i : Fin n}
    (here : s.stage i = .writing count) (more : count < (jobs i).content.length) : Invariant t jobs
      ⟨s.disk.writeFile (jobs i).destination.name (jobs i).folder ((jobs i).content.take (count + 1)),
        Function.update s.stage i (.writing (count + 1)),none⟩ := by
  have sound := valid.sound i
  have before := valid.own i
  rw [here] at sound before
  obtain ⟨clear,folder,differs,-⟩ := sound
  refine valid.write apart folder ?_ fun _ there => ⟨clear,there,differs,more⟩
  rw [before,Stage.holds,Option.some.injEq,begun_directory]

theorem Invariant.closed {s : State n} (valid : Invariant t jobs s) {i : Fin n}
    (here : s.stage i = .writing count) (all : ¬count < (jobs i).content.length) :
    Invariant t jobs ⟨s.disk,Function.update s.stage i .finished,none⟩ := by
  have sound := valid.sound i
  have before := valid.own i
  rw [here] at sound before
  obtain ⟨clear,-,differs,-⟩ := sound
  refine valid.look clear (before.trans ?_)
  have whole : (jobs i).content.take count = (jobs i).content := List.take_of_length_le (Nat.not_lt.mp all)
  rw [Stage.holds,Stage.holds,whole,begun_settled fun text file => differs text (readFile_entry.mpr file)]

theorem Invariant.read {s : State n} (valid : Invariant t jobs s) {i : Fin n} (here : s.stage i = .reading) :
    ∃ stage, step s.disk (jobs i) (s.stage i) = some (.ok (s.disk,stage)) ∧
      Invariant t jobs ⟨s.disk,Function.update s.stage i stage,none⟩ := by
  have sound := valid.sound i
  have before := valid.own i
  rw [here] at sound before ⊢
  obtain ⟨clear,folder⟩ := sound
  have same : s.disk.entry (jobs i).path = t.entry (jobs i).path := before
  have files : ∀ old, t.readFile (jobs i).path = some old ↔ s.disk.readFile (jobs i).path = some old := fun old => by
    rw [readFile_entry,readFile_entry,same]
  cases read : s.disk.readFile (jobs i).path with
  | none =>
    refine ⟨.opening,by simp [step,read],valid.look ⟨clear,folder,fun old found => ?_⟩ before⟩
    rw [files,read] at found
    contradiction
  | some old =>
    by_cases unchanged : Unchanged old (jobs i).content
    · refine ⟨.finished,by simp [step,read,unchanged],valid.look clear ?_⟩
      have file := readFile_entry.mp read
      simp [Stage.holds,settled,← same,file,(unchanged_iff _ _).mp unchanged]
    · refine ⟨.opening,by simp [step,read,unchanged],valid.look ⟨clear,folder,fun other found => ?_⟩ before⟩
      rwa [← Option.some.inj (read.symm.trans ((files other).mp found))]

theorem advance_invariant {s s' : State n} {i : Fin n} (valid : Invariant t jobs s) (apart : Apart jobs)
    (moved : advance jobs s i = some s') : Invariant t jobs s' := by
  obtain ⟨running,possible⟩ := advance_cases moved
  cases here : s.stage i with
  | assuming call =>
    have kept := stepCall_invariant valid apart here
    rw [here] at possible
    rcases possible with ⟨disk,stage,taken,rfl⟩ | ⟨fault,taken,rfl⟩
    · rw [Option.some.inj taken] at kept
      exact kept
    · rw [Option.some.inj taken] at kept
      refine ⟨valid.own,valid.others,valid.sound,fun other ended => ?_⟩
      obtain rfl := Option.some.inj ended
      exact ⟨i,kept⟩
  | reading =>
    obtain ⟨stage,only,kept⟩ := valid.read here
    rcases possible with ⟨disk,stage',taken,rfl⟩ | ⟨fault,taken,-⟩
    · obtain ⟨rfl,rfl⟩ := Prod.mk.inj (Except.ok.inj (Option.some.inj (only.symm.trans taken)))
      exact kept
    · cases only.symm.trans taken
  | opening =>
    rw [here] at possible
    rcases possible with ⟨disk,stage,taken,rfl⟩ | ⟨fault,taken,-⟩
    · obtain ⟨rfl,rfl⟩ := Prod.mk.inj (Except.ok.inj (Option.some.inj taken))
      exact valid.opened apart here
    · cases taken
  | writing count =>
    rw [here] at possible
    simp only [step] at possible
    split at possible
    · next more =>
      rcases possible with ⟨disk,stage,taken,rfl⟩ | ⟨fault,taken,-⟩
      · obtain ⟨rfl,rfl⟩ := Prod.mk.inj (Except.ok.inj (Option.some.inj taken))
        exact valid.wrote apart here more
      · cases taken
    · next all =>
      rcases possible with ⟨disk,stage,taken,rfl⟩ | ⟨fault,taken,-⟩
      · obtain ⟨rfl,rfl⟩ := Prod.mk.inj (Except.ok.inj (Option.some.inj taken))
        exact valid.closed here all
      · cases taken
  | finished =>
    rw [here] at possible
    rcases possible with ⟨disk,stage,taken,-⟩ | ⟨fault,taken,-⟩ <;> cases taken

theorem execute_invariant (apart : Apart jobs) (schedule : List (Fin n)) {s s' : State n} (valid : Invariant t jobs s)
    (run : execute jobs schedule s = some s') : Invariant t jobs s' := by
  induction schedule generalizing s with
  | nil => exact Option.some.inj run ▸ valid
  | cons i schedule ih =>
    obtain ⟨middle,moved,rest⟩ := Option.bind_eq_some_iff.mp run
    exact ih (advance_invariant valid apart moved) rest

end Invariants

section Outcome

variable (t : Disk) (jobs : Fin n → Job)

/-- The disk when the writers of a list are done. -/
structure Written (done : List (Fin n)) (disk : Disk) : Prop where
  files : ∀ i ∈ done, disk.entry (jobs i).path = some (settled (t.entry (jobs i).path) (jobs i).content)
  folders : ∀ i ∈ done, ∀ p, p <:+ (jobs i).folder → disk.entry p = some .directory
  rest : ∀ p, (∀ i ∈ done, p ≠ (jobs i).path ∧ ¬p <:+ (jobs i).folder) → disk.entry p = t.entry p

variable {t : Disk} {jobs : Fin n → Job}

theorem Written.unique {done done' : List (Fin n)} {disk disk' : Disk} (first : Written t jobs done disk)
    (second : Written t jobs done' disk') (same : ∀ i, i ∈ done ↔ i ∈ done') : disk = disk' := by
  apply Tree.ext
  funext p
  by_cases file : ∃ i ∈ done, p = (jobs i).path
  · obtain ⟨i,member,rfl⟩ := file
    rw [first.files i member,second.files i ((same i).mp member)]
  · by_cases folder : ∃ i ∈ done, p <:+ (jobs i).folder
    · obtain ⟨i,member,above⟩ := folder
      rw [first.folders i member p above,second.folders i ((same i).mp member) p above]
    · have foreign : ∀ i ∈ done, p ≠ (jobs i).path ∧ ¬p <:+ (jobs i).folder := fun i member =>
        ⟨fun here => file ⟨i,member,here⟩,fun here => folder ⟨i,member,here⟩⟩
      rw [first.rest p foreign,second.rest p fun i member => foreign i ((same i).mpr member)]

theorem Written.flush {done : List (Fin n)} {disk : Disk} (written : Written t jobs done disk) (apart : Apart jobs)
    {i : Fin n} (fresh : i ∉ done) (clear : Clear t (jobs i)) :
    ∃ disk', flush disk (jobs i).destination (jobs i).content = .ok disk' ∧ Written t jobs (i :: done) disk' := by
  have other : ∀ k ∈ done, (jobs i).path ≠ (jobs k).path := fun k member same => fresh (apart.paths i k same ▸ member)
  have untouched : disk.entry (jobs i).path = t.entry (jobs i).path :=
    written.rest _ fun k member => ⟨other k member,apart.folders i k⟩
  have free : ∀ q, ¬disk.Blocks q (jobs i).folder := by
    rintro q ⟨above,content,file⟩
    by_cases made : ∃ k ∈ done, q <:+ (jobs k).folder
    · obtain ⟨k,member,shared⟩ := made
      rw [written.folders k member q shared] at file
      cases file
    · rw [written.rest q fun k member => ⟨fun same => apart.folders k i (same ▸ above),
        fun shared => made ⟨k,member,shared⟩⟩] at file
      exact clear q ⟨above,content,file⟩
  obtain ⟨disk',flushed,entries⟩ := (flush_spec disk (jobs i).destination (jobs i).content).2 free
  refine ⟨disk',flushed,fun k member => ?_,fun k member p above => ?_,fun p foreign => ?_⟩
  · rw [entries]
    rcases List.mem_cons.mp member with rfl | member
    · rw [if_pos rfl,untouched]
    · rw [if_neg (other k member).symm,if_neg (apart.folders k i)]
      exact written.files k member
  · have proper : p ≠ (jobs i).path := by
      rintro rfl
      exact apart.folders i k above
    rw [entries,if_neg proper]
    rcases List.mem_cons.mp member with rfl | member
    · rw [if_pos above]
    · split
      · rfl
      · exact written.folders k member p above
  · have own := foreign i List.mem_cons_self
    rw [entries,if_neg own.1,if_neg own.2]
    exact written.rest p fun k member => foreign k (List.mem_cons_of_mem _ member)

/-- One after the other, in any order. -/
theorem flushAll_written (apart : Apart jobs) (clear : ∀ i, Clear t (jobs i)) (order : List (Fin n))
    {done : List (Fin n)} {disk : Disk} (written : Written t jobs done disk) (once : (done ++ order).Nodup) :
    ∃ disk', flushAll jobs order disk = .ok disk' ∧ ∃ all, Written t jobs all disk' ∧ ∀ i, i ∈ all ↔ i ∈ done ++ order := by
  induction order generalizing done disk with
  | nil => exact ⟨disk,rfl,done,written,by simp⟩
  | cons i order ih =>
    have fresh : i ∉ done := fun member => (List.nodup_append.mp once).2.2 i member i List.mem_cons_self rfl
    obtain ⟨middle,flushed,more⟩ := written.flush apart fresh (clear i)
    have shuffled : (i :: done ++ order).Nodup := List.perm_middle.nodup_iff.mp once
    obtain ⟨disk',rest,all,covers,members⟩ := ih more shuffled
    refine ⟨disk',?_,all,covers,fun k => ?_⟩
    · rw [flushAll,List.foldlM_cons,flushed]
      exact rest
    · rw [members,List.perm_middle.mem_iff]
      rfl

/-- A destination is as it was or settled, or a file with the beginning of its text. -/
def Midway (old entry : Option (Entry (List Char))) (content : List Char) : Prop :=
  entry = old ∨ entry = some (settled old content) ∨ ∃ written, written <+: content ∧ entry = some (.file written)

theorem Invariant.midway {s : State n} (valid : Invariant t jobs s) (i : Fin n) :
    Midway (t.entry (jobs i).path) (s.disk.entry (jobs i).path) (jobs i).content := by
  rw [valid.own i]
  cases s.stage i with
  | writing count =>
    rw [Stage.holds]
    generalize t.entry (jobs i).path = old
    unfold begun
    split
    · exact .inl rfl
    · exact .inr (.inr ⟨_,List.take_prefix _ _,rfl⟩)
  | finished => exact .inr (.inl rfl)
  | _ => exact .inl rfl

theorem Invariant.finished {s : State n} (valid : Invariant t jobs s) (done : Done jobs s)
    (running : s.terminated = none) (i : Fin n) : s.stage i = .finished := by
  have stuck := done i
  rw [advance,if_pos running] at stuck
  cases here : s.stage i with
  | finished => rfl
  | assuming call =>
    rw [here,step] at stuck
    cases taken : stepCall s.disk call <;> simp [taken] at stuck
  | reading =>
    obtain ⟨stage,taken,-⟩ := valid.read here
    rw [taken] at stuck
    contradiction
  | opening =>
    rw [here] at stuck
    contradiction
  | writing count =>
    rw [here,step] at stuck
    by_cases more : count < (jobs i).content.length <;> simp [more] at stuck

/-- Where all are finished, the folder of each is there: its file would have no place else. -/
theorem Invariant.written {s : State n} (valid : Invariant t jobs s) (apart : Apart jobs)
    (finished : ∀ i, s.stage i = .finished) : Written t jobs (List.finRange n) s.disk where
  files i _ := by rw [valid.own i,finished i]; rfl
  folders i _ p above := by
    have here : s.disk.entry (jobs i).path ≠ none := by
      rw [valid.own i,finished i]
      simp [Stage.holds]
    have proper : p ≠ (jobs i).path := by
      rintro rfl
      exact apart.folders i i above
    exact s.disk.above_directory here (above.trans (List.suffix_cons _ _)) proper
  rest p foreign := by
    rcases valid.others p fun i => (foreign i (List.mem_finRange i)).1 with same | ⟨-,-,i,-,above⟩
    · exact same
    · exact absurd above (foreign i (List.mem_finRange i)).2

theorem Written.readFile {done : List (Fin n)} {disk : Disk} (written : Written t jobs done disk)
    (clear : ∀ i, Clear t (jobs i)) {q : FilePath} (other : ∀ i ∈ done, q ≠ (jobs i).path) : disk.readFile q = t.readFile q := by
  by_cases made : ∃ i ∈ done, q <:+ (jobs i).folder
  · obtain ⟨i,member,above⟩ := made
    rw [readFile_above above (clear i),Tree.readFile,written.folders i member q above]
  · have same := written.rest q fun i member => ⟨other i member,fun above => made ⟨i,member,above⟩⟩
    rw [Tree.readFile,Tree.readFile,same]

/-- Whatever the order of the steps: a run is finite, a file is as it was, is being written or
is as it is to be, and nothing that nobody asked for is touched. Where a file stands in the way of a writer the
process ends and names such a file, else the disk is as if the writers had come one after the
other, in whatever order. -/
theorem writers_any_order (t : Disk) (jobs : Fin n → Job) (apart : Apart jobs) (schedule : List (Fin n)) (s : State n)
    (run : execute jobs schedule (start t jobs) = some s) :
    schedule.length ≤ ∑ i, (2 * (jobs i).folder.length + 6 + (jobs i).content.length) + 1 ∧
    (∀ i, Midway (t.entry (jobs i).path) (s.disk.entry (jobs i).path) (jobs i).content) ∧
    (∀ p, (∀ i, p ≠ (jobs i).path ∧ ¬p <:+ (jobs i).folder) → s.disk.entry p = t.entry p) ∧
    (∀ fault, s.terminated = some fault → ∃ i q, t.Blocks q (jobs i).folder ∧ fault = notDirectory q) ∧
    (Done jobs s → (s.terminated = none ↔ ∀ i, Clear t (jobs i)) ∧
      (s.terminated = none → ∀ order : List (Fin n), order.Perm (List.finRange n) →
        flushAll jobs order t = .ok s.disk)) := by
  have valid := execute_invariant apart schedule start_invariant run
  refine ⟨?_,valid.midway,fun p foreign => ?_,valid.fault,fun done => ?_⟩
  · have bound := execute_left schedule run
    have first : (start t jobs).left jobs = ∑ i, (2 * (jobs i).folder.length + 6 + (jobs i).content.length) + 1 := by
      simp [State.left,start,Stage.left]
    omega
  · rcases valid.others p fun i => (foreign i).1 with same | ⟨-,-,i,-,above⟩
    · exact same
    · exact absurd above (foreign i).2
  · have cleared (running : s.terminated = none) (i : Fin n) : Clear t (jobs i) := by
      have sound := valid.sound i
      rwa [valid.finished done running i] at sound
    refine ⟨⟨cleared,fun clear => ?_⟩,fun running order all => ?_⟩
    · cases ended : s.terminated with
      | none => rfl
      | some fault =>
        obtain ⟨i,q,blocks,-⟩ := valid.fault fault ended
        exact absurd blocks (clear i q)
    · have nothing : Written t jobs [] t := ⟨by simp,by simp,fun _ _ => rfl⟩
      have once : (([] : List (Fin n)) ++ order).Nodup := all.nodup_iff.mpr (List.nodup_finRange n)
      obtain ⟨disk,flushed,reached,written,members⟩ := flushAll_written apart (cleared running) order nothing once
      have same : disk = s.disk := by
        refine written.unique (valid.written apart (valid.finished done running)) fun i => ?_
        rw [members i,List.nil_append,all.mem_iff]
      rw [flushed,same]

end Outcome

section Generation

structure Output where
  base : BuildRuleBase
  cls : RuleClass
  text : String → List Char

def makefiles : RuleClass → List String
  | .shellScript => ["build.make"]
  | _ => ["flags.make","toolchain.make","build.make"]

/-- Each makefile has a writer of its own, opened below the folder of the rule. -/
def Output.jobs (buildRoot : FilePath) (r : Output) : List Job :=
  (makefiles r.cls).map fun name => ⟨⟨name,r.base.fullQuotedQualifiedName :: buildRoot⟩,r.text name⟩

def generated (buildRoot : FilePath) (rules : List Output) : List Job := rules.flatMap (·.jobs buildRoot)

theorem makefiles_nodup (cls : RuleClass) : (makefiles cls).Nodup := by cases cls <;> decide

theorem generated_folder {buildRoot : FilePath} {rules : List Output} {j : Job} (member : j ∈ generated buildRoot rules) :
    j.folder.length = buildRoot.length + 1 := by
  obtain ⟨r,-,inRule⟩ := List.mem_flatMap.mp member
  obtain ⟨name,-,rfl⟩ := List.mem_map.mp inRule
  rfl

theorem generated_paths (buildRoot : FilePath) {rules : List Output}
    (distinct : (rules.map (·.base.fullQuotedQualifiedName)).Nodup) :
    ((generated buildRoot rules).map (·.path)).Nodup := by
  have paths : (generated buildRoot rules).map (·.path) =
      rules.flatMap fun r => (makefiles r.cls).map fun name => name :: r.base.fullQuotedQualifiedName :: buildRoot := by
    simp only [generated,Output.jobs,List.map_flatMap,List.map_map]
    rfl
  rw [paths]
  refine List.nodup_flatMap.mpr ⟨fun r _ => ?_,?_⟩
  · exact (makefiles_nodup r.cls).map fun name name' same => (List.cons.inj same).1
  · refine (List.pairwise_map.mp distinct).imp fun {r r'} apart => ?_
    rw [Function.onFun,List.disjoint_left]
    intro path here there
    obtain ⟨name,-,rfl⟩ := List.mem_map.mp here
    obtain ⟨name',-,same⟩ := List.mem_map.mp there
    exact apart (List.cons.inj (List.cons.inj same).2).1.symm

theorem generated_apart (buildRoot : FilePath) {rules : List Output}
    (distinct : (rules.map (·.base.fullQuotedQualifiedName)).Nodup) : Apart (generated buildRoot rules).get where
  paths i j same := by
    have once := generated_paths buildRoot distinct
    have inj := List.nodup_iff_injective_get.mp once
    have at_i : ((generated buildRoot rules).map (·.path)).get ⟨i,by simp⟩ = ((generated buildRoot rules).get i).path := by simp
    have at_j : ((generated buildRoot rules).map (·.path)).get ⟨j,by simp⟩ = ((generated buildRoot rules).get j).path := by simp
    have index := inj (at_i.trans (same.trans at_j.symm))
    exact Fin.ext (Fin.mk.inj index)
  folders i j above := by
    have lengths := above.length_le
    have first := generated_folder (List.get_mem _ i)
    have second := generated_folder (List.get_mem _ j)
    simp only [Job.path,Job.folder,Destination.path,List.length_cons] at lengths first second
    omega

/-- Rules with different quoted names can be compiled on any number of threads. -/
theorem generation_any_order (t : Disk) (buildRoot : FilePath) (rules : List Output)
    (distinct : (rules.map (·.base.fullQuotedQualifiedName)).Nodup) (schedule : List (Fin (generated buildRoot rules).length))
    (s : State (generated buildRoot rules).length)
    (run : execute (generated buildRoot rules).get schedule (start t (generated buildRoot rules).get) = some s) :
    schedule.length ≤ ((generated buildRoot rules).map fun j => 2 * buildRoot.length + 8 + j.content.length).sum + 1 ∧
    (∀ j ∈ generated buildRoot rules, Midway (t.entry j.path) (s.disk.entry j.path) j.content) ∧
    (∀ p, (∀ j ∈ generated buildRoot rules, p ≠ j.path ∧ ¬p <:+ j.folder) → s.disk.entry p = t.entry p) ∧
    (∀ fault, s.terminated = some fault →
      ∃ j ∈ generated buildRoot rules, ∃ q, t.Blocks q j.folder ∧ fault = notDirectory q) ∧
    (Done (generated buildRoot rules).get s →
      (s.terminated = none ↔ ∀ j ∈ generated buildRoot rules, Clear t j) ∧
      (s.terminated = none → ∀ order : List (Fin (generated buildRoot rules).length), order.Perm (List.finRange _) →
        flushAll (generated buildRoot rules).get order t = .ok s.disk)) := by
  have spec := writers_any_order t _ (generated_apart buildRoot distinct) schedule s run
  obtain ⟨bound,whole,frame,fault,ends⟩ := spec
  refine ⟨?_,fun j member => ?_,fun p foreign => ?_,fun f ended => ?_,fun done => ⟨?_,(ends done).2⟩⟩
  · have each : ∀ i : Fin (generated buildRoot rules).length,
        2 * ((generated buildRoot rules).get i).folder.length + 6 + ((generated buildRoot rules).get i).content.length =
          2 * buildRoot.length + 8 + ((generated buildRoot rules).get i).content.length := fun i => by
      rw [generated_folder (List.get_mem _ i)]
      omega
    simp only [each] at bound
    rwa [← List.sum_ofFn,← Function.comp_def (fun j : Job => 2 * buildRoot.length + 8 + j.content.length),
      ← List.map_ofFn,List.ofFn_get] at bound
  · obtain ⟨i,rfl⟩ := List.mem_iff_get.mp member
    exact whole i
  · exact frame p fun i => foreign _ (List.get_mem _ i)
  · obtain ⟨i,q,blocks,same⟩ := fault f ended
    exact ⟨_,List.get_mem _ i,q,blocks,same⟩
  · rw [(ends done).1,List.forall_mem_iff_get]

def namedBase (name : String) : BuildRuleBase where
  objectId := 0
  typeName := "shell_script"
  type := RuleClass.shellScript.type
  name := name
  packageName := "tools"
  version := "DEFAULT"
  dependencies := []
  fullQualifiedName := "tools/" ++ name ++ "@DEFAULT"
  fullQualifiedNameWithoutVersion := "tools/" ++ name
  stringifyValue := ""
  fullQuotedQualifiedName := "tools_" ++ name ++ "@DEFAULT"
  fullQuotedQualifiedNameWithoutVersion := "tools_" ++ name
  kwargs := []

/-- Two scripts of a project whose build folder is not there yet. -/
def twoOutputs : List Output :=
  [⟨namedBase "a",.shellScript,fun _ => "A=1".toList⟩,⟨namedBase "b",.shellScript,fun _ => "B=".toList⟩]

theorem generation_interleaved : ∃ schedule s,
    execute (generated ["build"] twoOutputs).get schedule (start .empty (generated ["build"] twoOutputs).get) = some s ∧
    s.terminated = none ∧ flushAll (generated ["build"] twoOutputs).get [⟨1,by decide⟩,⟨0,by decide⟩] .empty = .ok s.disk := by
  let schedule : List (Fin 2) := [0,1,1,0,0,1,1,0,0,1,0,1,1,0,0,1,1,0,0,1,1,0,0]
  have finishes : (execute (generated ["build"] twoOutputs).get schedule (start .empty (generated ["build"] twoOutputs).get)).any (fun s =>
      s.terminated.isNone && (List.finRange 2).all fun i =>
        (advance (generated ["build"] twoOutputs).get s i).isNone) = true := by decide
  obtain ⟨s,run,ends⟩ := (Option.any_eq_true ..).mp finishes
  simp only [Bool.and_eq_true,Option.isNone_iff_eq_none,List.all_eq_true] at ends
  have spec := generation_any_order .empty ["build"] twoOutputs (by decide) schedule s run
  have done : Done (generated ["build"] twoOutputs).get s := fun i => ends.2 i (List.mem_finRange i)
  exact ⟨schedule,s,run,ends.1,(spec.2.2.2.2 done).2 ends.1 _ (by decide)⟩

end Generation

end JkBuild.ParallelWriters
