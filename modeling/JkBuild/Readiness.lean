import JkBuild.FlagPropagation

/-! When the task of a rule throws: by its arguments, by the patterns of its package and the
paths of the files they match, and by the arguments of the scripts it reaches, whatever has
run before. -/
namespace JkBuild.Preparation

open Tasks Reachability Tarjan

/-- The pattern expands: it may match nothing. -/
def Expands (session : Session) (root pattern : String) : Prop :=
  (session.glob (sub root pattern)).1 = 0 ∨ (session.glob (sub root pattern)).1 = globNoMatch

def globbed (session : Session) (root pattern : String) : List String := (session.glob (sub root pattern)).2

def packageRoot (session : Session) (base : BuildRuleBase) : String := sub session.projectRoot base.packageName

def nolintPatterns (session : Session) (root : String) : List String :=
  ((session.lines (sub root "nolint.txt")).toOption.join.getD []).map stripAsciiWhitespace

/-- A file that a pattern matches and no exclude does has a path from the package. -/
def Placed (session : Session) (root : String) (excludes : List String) (pattern : String) : Prop :=
  ∀ f ∈ globbed session root pattern, f ∉ excludes.flatMap (globbed session root) →
    ∃ path, session.relative f root = .ok path

/-- The patterns of a cc rule expand, and what its lists keep has a path. -/
structure FilesExpand (session : Session) (root : String) (excludes headers sources alwaysCompile : List String) : Prop where
  listed : ∃ lines, session.lines (sub root "nolint.txt") = .ok lines
  expands : ∀ pattern ∈ nolintPatterns session root ++ excludes ++ headers ++ sources ++ alwaysCompile,
    Expands session root pattern
  placed : ∀ pattern ∈ headers ++ sources, Placed session root excludes pattern

/-- The task of a rule succeeds. -/
structure Ready (project : Project n) (r : Fin n) : Prop where
  typed : Fields.WellTyped (project.rules r).cls (kwargs project r)
  files : isCC project r → FilesExpand project.session (packageRoot project.session (project.rules r).base)
    ((kwargs project r).declared "excludes") (Fields.headersOf (kwargs project r)) ((kwargs project r).declared "srcs")
    ((kwargs project r).declared "always_compile")
  reached : isCC project r → ∀ q, Reaches project.graph r q → ¬isCC project q →
    (kwargs project q).ListField "includes" ∧ (kwargs project q).ListField "defines"

section Settling

variable {session : Session} {root : String} {excluded : Finset String}

theorem filesystem_ok {x : Except String α} : filesystem x = .ok a ↔ x = .ok a := by
  cases x <;> simp [filesystem,Except.mapError]

theorem filesystem_settled (x : Except String α) :
    Settled (·.isException = true) (attempt (filesystem x) : EStateM Failure σ α) (∃ a, x = .ok a) := by
  refine (settled_attempt ?_).congr (exists_congr fun a => filesystem_ok)
  intro e failed
  cases x with
  | ok a => contradiction
  | error what =>
    rw [← Except.error.inj failed]
    rfl

theorem expand_ok (session : Session) (root pattern : String) (expanded : List String) :
    expand session pattern root = .ok expanded ↔ Expands session root pattern ∧ expanded = globbed session root pattern := by
  simp only [expand,Expands,globbed]
  split
  · next bad =>
    simp only [reduceCtorEq,false_iff,not_and]
    intro fine
    tauto
  · next fine =>
    simp only [Except.ok.injEq,eq_comm (a := expanded)]
    tauto

theorem expand_settled (session : Session) (root pattern : String) :
    Settled (·.isException = true) (attempt (expand session pattern root) : EStateM Failure Files (List String))
      (Expands session root pattern) := by
  refine (settled_attempt ?_).congr (by simp [expand_ok])
  intro e failed
  simp only [expand] at failed
  split at failed
  · rw [← Except.error.inj failed]
    rfl
  · contradiction

theorem expandAll_settled (session : Session) (root : String) (patterns : List String)
    (add : List String → Files → Files) :
    Settled (·.isException = true) (expandAll session root patterns fun expanded => modify (add expanded))
      (∀ pattern ∈ patterns, Expands session root pattern) := by
  have each := fun pattern => (expand_settled session root pattern).bind fun expanded => settled_modify (add expanded)
  apply (settled_forM patterns each).congr
  simp

theorem expandAll_fold (patterns : List String) (add : List String → Files → Files)
    (expands : ∀ pattern ∈ patterns, Expands session root pattern) (s : Files) :
    expandAll session root patterns (fun expanded => modify (add expanded)) s =
      .ok () (patterns.foldl (fun s pattern => add (globbed session root pattern) s) s) := by
  refine forM_fold patterns (fun pattern member s => ?_) s
  exact bind_of_ok (attempt_ok ((expand_ok ..).mpr ⟨expands pattern member,rfl⟩) s)

theorem prepareNolintFiles_settled (session : Session) (root : String) :
    Settled (·.isException = true) (prepareNolintFiles session root)
      ((∃ lines, session.lines (sub root "nolint.txt") = .ok lines) ∧
        ∀ pattern ∈ nolintPatterns session root, Expands session root pattern) := by
  have begun : Settled (·.isException = true)
      (attempt (filesystem (session.lines (sub root "nolint.txt"))) : EStateM Failure Files _) _ :=
    filesystem_settled (session.lines (sub root "nolint.txt"))
  unfold prepareNolintFiles nolintPatterns
  cases read : session.lines (sub root "nolint.txt") with
  | error what =>
    rw [read] at begun
    refine ⟨fun holds => by simp at holds,fun fails s => ?_⟩
    exact ⟨.filesystemError what,s,rfl,rfl⟩
  | ok lines =>
    cases lines with
    | none => exact ⟨fun _ s => ⟨(),s,rfl⟩,fun fails => by simp [Except.toOption] at fails⟩
    | some lines =>
      have cleared : Settled (fun e : Failure => e.isException = true) (modify fun s : Files => _) True :=
        settled_modify fun s => { s with nolintFiles := ∅ }
      have rest := cleared.bind fun _ =>
          expandAll_settled session root (lines.map stripAsciiWhitespace) fun expanded s =>
            { s with nolintFiles := s.nolintFiles ∪ expanded.toFinset }
      exact (show Settled _ _ _ from rest).congr (by simp [Except.toOption])

theorem prepareExcludes_done {fields : Fields} {s s' : Files} (done : prepareExcludes session root fields s = .ok u s') :
    s'.excludes = (fields.excludes.flatMap (globbed session root)).toFinset := by
  have settled := expandAll_settled session root fields.excludes fun expanded s =>
    { s with excludes := s.excludes ∪ expanded.toFinset }
  have union : ∀ (patterns : List String) (s : Files), (patterns.foldl (fun s pattern =>
      { s with excludes := s.excludes ∪ (globbed session root pattern).toFinset }) s).excludes =
        s.excludes ∪ (patterns.flatMap (globbed session root)).toFinset := by
    intro patterns
    induction patterns with
    | nil => simp
    | cons pattern patterns ih => simp [ih,Finset.union_assoc]
  obtain ⟨_,middle,cleared,looped⟩ := bind_done done
  obtain rfl := modify_done cleared
  by_cases expands : ∀ pattern ∈ fields.excludes, Expands session root pattern
  · rw [expandAll_fold fields.excludes _ expands] at looped
    cases looped
    rw [union,Finset.empty_union]
  · obtain ⟨e,s',thrown,-⟩ := settled.fails expands { s with excludes := ∅ }
    rw [thrown] at looped
    contradiction

section Keeping

variable (push : String → Files → Files) (frame : ∀ path s, (push path s).excludes = s.excludes)

theorem keepFile_settled (f : String) :
    SettledFrom (fun s : Files => s.excludes = excluded) (·.isException = true) (keepFile session root push f)
      (f ∉ excluded → ∃ path, session.relative f root = .ok path) := by
  refine settledFrom_get fun s start => ?_
  by_cases out : f ∈ excluded
  · rw [if_pos (start ▸ out)]
    exact (settled_pure _).congr (by simp [out])
  · rw [if_neg (start ▸ out)]
    exact ((filesystem_settled _).bind fun path => settled_modify (push path)).congr (by simp [out])

include frame

theorem keepFile_keeps (f : String) : Keeps (fun s : Files => s.excludes = excluded) (keepFile session root push f) := by
  refine keeps_get fun s => ?_
  split
  · exact keeps_pure _
  · exact (keeps_attempt _).bind fun path => keeps_modify fun s same => (frame path s).trans same

theorem addKept_settled (expanded : List String) :
    SettledFrom (fun s : Files => s.excludes = excluded) (·.isException = true) (addKept session root push expanded)
      (∀ f ∈ expanded, f ∉ excluded → ∃ path, session.relative f root = .ok path) :=
  .forM expanded (fun f => keepFile_settled push f) fun f => keepFile_keeps push frame f

theorem addAll_settled (excludes patterns : List String) :
    SettledFrom (fun s : Files => s.excludes = (excludes.flatMap (globbed session root)).toFinset) (·.isException = true)
      (expandAll session root patterns (addKept session root push))
      ((∀ pattern ∈ patterns, Expands session root pattern) ∧ ∀ pattern ∈ patterns, Placed session root excludes pattern) := by
  let excluded := (excludes.flatMap (globbed session root)).toFinset
  have each (pattern : String) : SettledFrom (fun s : Files => s.excludes = excluded) (·.isException = true)
      (do
        let expanded ← attempt (expand session pattern root)
        addKept session root push expanded)
      (Expands session root pattern ∧ Placed session root excludes pattern) := by
    refine (expand_settled session root pattern).fromAny.bind
      (fun s expanded s' start done => (⟨?_,?_⟩ : expanded = globbed session root pattern ∧ s'.excludes = excluded))
      fun expanded => ?_
    · exact ((expand_ok ..).mp (attempt_done done).1).2
    · rw [(attempt_done done).2,start]
    · refine .given fun same => (addKept_settled push frame expanded).congr ?_
      simp [Placed,same,excluded]
  refine (SettledFrom.forM patterns each fun pattern => ?_).congr (by simp only [forall_and])
  exact (keeps_attempt _).bind fun _ => keeps_forM _ fun f => keepFile_keeps push frame f

theorem addAll_keeps (patterns : List String) :
    Keeps (fun s : Files => s.excludes = excluded) (expandAll session root patterns (addKept session root push)) :=
  keeps_forM _ fun _ => (keeps_attempt _).bind fun _ => keeps_forM _ fun f => keepFile_keeps push frame f

variable {clear sort : Files → Files} (cleared : ∀ s, (clear s).excludes = s.excludes)

include cleared

theorem keptFiles_settled (excludes patterns : List String) :
    SettledFrom (fun s : Files => s.excludes = (excludes.flatMap (globbed session root)).toFinset) (·.isException = true)
      (do
        modify clear
        expandAll session root patterns (addKept session root push)
        modify sort)
      ((∀ pattern ∈ patterns, Expands session root pattern) ∧ ∀ pattern ∈ patterns, Placed session root excludes pattern) := by
  have first : Keeps (fun s : Files => s.excludes = (excludes.flatMap (globbed session root)).toFinset)
      (modify clear : EStateM Failure Files PUnit) := keeps_modify fun s same => (cleared s).trans same
  refine ((settled_modify clear).fromAny.bind (fun s _ s' => first.done) fun _ =>
    (addAll_settled push frame excludes patterns).bind (fun s _ s' => (addAll_keeps push frame patterns).done) fun _ =>
      (settled_modify sort).fromAny).congr ?_
  simp

theorem keptFiles_keeps (sorted : ∀ s, (sort s).excludes = s.excludes) (patterns : List String) :
    Keeps (fun s : Files => s.excludes = excluded) (do
      modify clear
      expandAll session root patterns (addKept session root push)
      modify sort) :=
  (keeps_modify fun s same => (cleared s).trans same).bind fun _ => (addAll_keeps push frame patterns).bind fun _ =>
    keeps_modify fun s same => (sorted s).trans same

end Keeping

theorem prepareExcludes_settled (session : Session) (root : String) (fields : Fields) :
    Settled (·.isException = true) (prepareExcludes session root fields)
      (∀ pattern ∈ fields.excludes, Expands session root pattern) :=
  ((settled_modify _).bind fun _ => expandAll_settled session root fields.excludes _).congr (by simp)

theorem prepareAlwaysCompileFiles_settled (session : Session) (root : String) (fields : Fields) :
    Settled (·.isException = true) (prepareAlwaysCompileFiles session root fields)
      (∀ pattern ∈ fields.alwaysCompile, Expands session root pattern) :=
  ((settled_modify _).bind fun _ => expandAll_settled session root fields.alwaysCompile _).congr (by simp)

/-- A list of kept files, for headers and for sources. -/
def KeepsFiles (session : Session) (root : String) (excludes patterns : List String) (step : EStateM Failure Files Unit) : Prop :=
  let start (s : Files) : Prop := s.excludes = (excludes.flatMap (globbed session root)).toFinset
  Keeps start step ∧ SettledFrom start (·.isException = true) step
    ((∀ pattern ∈ patterns, Expands session root pattern) ∧ ∀ pattern ∈ patterns, Placed session root excludes pattern)

theorem prepareHeaderFiles_kept (session : Session) (root : String) (fields : Fields) :
    KeepsFiles session root fields.excludes fields.headers (prepareHeaderFiles session root fields) := by
  unfold prepareHeaderFiles
  constructor
  · apply keptFiles_keeps <;> intros <;> rfl
  · apply keptFiles_settled <;> intros <;> rfl

theorem prepareSourceFiles_kept (session : Session) (root : String) (fields : Fields) :
    KeepsFiles session root fields.excludes fields.sources (prepareSourceFiles session root fields) := by
  unfold prepareSourceFiles
  constructor
  · apply keptFiles_keeps <;> intros <;> rfl
  · apply keptFiles_settled <;> intros <;> rfl

/-- The steps of a cc rule before the flags. What is excluded is known from the third step on. -/
theorem ccLibrary_settled (session : Session) (base : BuildRuleBase) (fields : Fields) :
    Settled (·.isException = true) (ccLibrary session base fields)
      (FilesExpand session (packageRoot session base) fields.excludes fields.headers fields.sources fields.alwaysCompile) := by
  let root := packageRoot session base
  obtain ⟨frame,headers⟩ := prepareHeaderFiles_kept session root fields
  obtain ⟨-,sources⟩ := prepareSourceFiles_kept session root fields
  have after {t : EStateM Failure Files Unit} : ∀ s u s', s.excludes = (fields.excludes.flatMap (globbed session root)).toFinset →
      t s = .ok u s' → True := fun _ _ _ _ _ => trivial
  refine Settled.congr ((settled_modify _).bind fun _ => (prepareNolintFiles_settled session root).bind fun _ =>
    SettledFrom.settled ((prepareExcludes_settled session root fields).fromAny.bind
      (fun s _ s' _ done => prepareExcludes_done done) fun _ => headers.bind (fun s _ s' => frame.done) fun _ =>
        sources.bind after fun _ =>
          ((prepareAlwaysCompileFiles_settled session root fields).bind fun _ => settled_modify _).fromAny)) ?_
  constructor
  · rintro ⟨-,⟨listed,nolint⟩,excludes,⟨headers,placed⟩,⟨sources,placed'⟩,always,-⟩
    refine ⟨listed,?_,?_⟩
    · simp only [List.mem_append]
      rintro pattern ((((member | member) | member) | member) | member)
      · exact nolint pattern member
      · exact excludes pattern member
      · exact headers pattern member
      · exact sources pattern member
      · exact always pattern member
    · exact fun pattern member => (List.mem_append.mp member).elim (placed pattern) (placed' pattern)
  · rintro ⟨listed,expands,placed⟩
    simp only [List.mem_append,or_imp,forall_and] at expands placed
    obtain ⟨⟨⟨⟨nolint,excludes⟩,headers⟩,sources⟩,always⟩ := expands
    exact ⟨trivial,⟨listed,nolint⟩,excludes,⟨headers,placed.1⟩,⟨sources,placed.2⟩,always,trivial⟩

end Settling

section Rules

variable {project : Project n}

theorem fromArguments_typed (kwargs : Kwargs) (key mark : String) :
    (∃ xs, fromArguments kwargs key mark = .ok xs) ↔ kwargs.ListField key := by
  rw [← Kwargs.listOptional_ok_iff,fromArguments]
  cases kwargs.listOptional key (some []) <;> simp

theorem fromArguments_exception {kwargs : Kwargs} {key mark : String}
    (failed : fromArguments kwargs key mark = .error e) : e.isException = true := by
  unfold fromArguments at failed
  cases listed : kwargs.listOptional key (some []) with
  | ok strings =>
    rw [listed] at failed
    contradiction
  | error e' =>
    rw [listed] at failed
    obtain rfl := Except.error.inj failed
    exact Kwargs.listOptional_exception listed

theorem includeFlags_exception {session : Session} {rule : BuildRule} {fields : Fields}
    (failed : includeFlags session rule fields = .error e) : e.isException = true := by
  unfold includeFlags at failed
  split at failed
  · contradiction
  · exact fromArguments_exception failed

theorem defineFlags_exception {rule : BuildRule} {fields : Fields}
    (failed : defineFlags rule fields = .error e) : e.isException = true := by
  unfold defineFlags at failed
  split at failed
  · contradiction
  · exact fromArguments_exception failed

theorem includeFlags_typed (project : Project n) (q : Fin n) (fields : Fields) :
    (∃ xs, includeFlags project.session (project.rules q) fields = .ok xs) ↔
      (¬isCC project q → (kwargs project q).ListField "includes") := by
  unfold includeFlags isCC
  split
  · next cc => simp [cc]
  · next script => simp [script,fromArguments_typed,kwargs]

theorem defineFlags_typed (project : Project n) (q : Fin n) (fields : Fields) :
    (∃ xs, defineFlags (project.rules q) fields = .ok xs) ↔
      (¬isCC project q → (kwargs project q).ListField "defines") := by
  unfold defineFlags isCC
  split
  · next cc => simp [cc]
  · next script => simp [script,fromArguments_typed,kwargs]

theorem prepareIncludeFlags_settled (project : Project n) (r : Fin n) :
    Settled (·.isException = true) (prepareIncludeFlags project r)
      (∀ q, Reaches project.graph r q → ¬isCC project q → (kwargs project q).ListField "includes") := by
  have search : ∀ store : Store n, Settled (·.isException = true)
      (own r (onIncludes (collect project.graph r fun q =>
        includeFlags project.session (project.rules q) (store q).fields)))
      (∀ q, Reaches project.graph r q → ¬isCC project q → (kwargs project q).ListField "includes") := by
    intro store
    refine Settled.congr (((collect_settled r fun q e failed => includeFlags_exception failed).zoom _ _).zoom _ _) ?_
    simp only [includeFlags_typed]
  have marked : Settled (·.isException = true) (own r (onIncludes (modify (insert "-I.")))) True :=
    ((settled_modify _).zoom _ _).zoom _ _
  apply (marked.bind fun _ => settled_get search).congr
  simp

theorem prepareDefineFlags_settled (project : Project n) (r : Fin n) :
    Settled (·.isException = true) (prepareDefineFlags project r)
      (∀ q, Reaches project.graph r q → ¬isCC project q → (kwargs project q).ListField "defines") := by
  apply settled_get
  intro store
  refine Settled.congr (((collect_settled r fun q e failed => defineFlags_exception failed).zoom _ _).zoom _ _) ?_
  simp only [defineFlags_typed]

theorem prepareInherentFlags_settled (project : Project n) (r : Fin n) :
    Settled (·.isException = true) (prepareInherentFlags project r) True := by
  apply settled_get
  intro store
  refine Settled.congr (((collect_settled r fun q e failed => ?_).zoom _ _).zoom _ _) ?_
  · contradiction
  · simp

theorem doPrepare_settled (project : Project n) (r : Fin n) (store : Store n) {property : Prop}
    (decided : property ↔ (isCC project r →
      FilesExpand project.session (packageRoot project.session (project.rules r).base) (store r).fields.excludes
        (store r).fields.headers (store r).fields.sources (store r).fields.alwaysCompile ∧
      (∀ q, Reaches project.graph r q → ¬isCC project q → (kwargs project q).ListField "includes") ∧
      ∀ q, Reaches project.graph r q → ¬isCC project q → (kwargs project q).ListField "defines")) :
    (property → ∃ u s', doPrepare project r store = .ok u s') ∧
      (¬property → ∃ e s', doPrepare project r store = .error e s' ∧ e.isException = true) := by
  by_cases cc : isCC project r
  · have files : Settled (·.isException = true)
        (own r (onFiles (ccLibrary project.session (project.rules r).base (store r).fields)))
        _ := ((ccLibrary_settled project.session (project.rules r).base (store r).fields).zoom _ _).zoom _ _
    have steps := files.bind fun _ => (prepareIncludeFlags_settled project r).bind fun _ =>
      (prepareDefineFlags_settled project r).bind fun _ => prepareInherentFlags_settled project r
    have same : doPrepare project r store = (do
        own r (onFiles (ccLibrary project.session (project.rules r).base (store r).fields))
        prepareIncludeFlags project r
        prepareDefineFlags project r
        prepareInherentFlags project r) store := congrFun (if_pos cc) store
    simp only [cc,forall_const] at decided
    rw [same]
    constructor
    · intro holds
      obtain ⟨expands,includes,defines⟩ := decided.mp holds
      exact steps.succeeds ⟨expands,includes,defines,trivial⟩ store
    · intro fails
      exact steps.fails (fun ⟨expands,includes,defines,_⟩ => fails (decided.mpr ⟨expands,includes,defines⟩)) store
  · have same : doPrepare project r store =
        own r (onFiles (shellScript project.session (project.rules r).base (store r).fields)) store :=
      congrFun (if_neg cc) store
    rw [same]
    refine ⟨fun _ => ⟨_,_,rfl⟩,fun fails => ?_⟩
    exact absurd (decided.mpr fun isCC => absurd isCC cc) fails

/-- A rule is prepared without an exception exactly when it is ready, whatever other tasks
have run before. -/
theorem prepare_settled (project : Project n) (r : Fin n) :
    Settled (·.isException = true) (prepare project r) (Ready project r) := by
  have extraction : Settled (·.isException = true)
      (own r (onFields (Fields.extract (project.rules r).cls (project.rules r).base.kwargs))) _ :=
    ((Fields.extract_settled (project.rules r).cls (project.rules r).base.kwargs).zoom _ _).zoom _ _
  -- once the fields are extracted, what is left of readiness decides
  have rest : Fields.WellTyped (project.rules r).cls (kwargs project r) → ∀ s u s₁,
      own r (onFields (Fields.extract (project.rules r).cls (project.rules r).base.kwargs)) s = .ok u s₁ →
      (Ready project r → ∃ u s', doPrepare project r s₁ = .ok u s') ∧
        (¬Ready project r → ∃ e s', doPrepare project r s₁ = .error e s' ∧ e.isException = true) := by
    intro typed s u s₁ extracted
    apply doPrepare_settled
    constructor
    · intro ready cc
      obtain ⟨-,-,filled⟩ := extracted_done extracted
      obtain ⟨-,-,-,-,-,excludes,sources,headers,alwaysCompile⟩ := Fields.extract_done cc filled
      rw [excludes,sources,headers,alwaysCompile]
      exact ⟨ready.files cc,fun q path script => (ready.reached cc q path script).1,
        fun q path script => (ready.reached cc q path script).2⟩
    · intro decided
      refine ⟨typed,fun cc => ?_,fun cc q path script => ⟨(decided cc).2.1 q path script,(decided cc).2.2 q path script⟩⟩
      obtain ⟨-,-,filled⟩ := extracted_done extracted
      obtain ⟨-,-,-,-,-,excludes,sources,headers,alwaysCompile⟩ := Fields.extract_done cc filled
      have expands := (decided cc).1
      rw [excludes,sources,headers,alwaysCompile] at expands
      exact expands
  constructor
  · intro ready s
    obtain ⟨u,s₁,extracted⟩ := extraction.succeeds ready.typed s
    obtain ⟨u',s₂,prepared⟩ := (rest ready.typed s u s₁ extracted).1 ready
    refine ⟨(),Function.update s₂ r { s₂ r with prepared := true },?_⟩
    rw [prepare,bind_of_ok extracted,bind_of_ok prepared]
    rfl
  · intro fails s
    by_cases typed : Fields.WellTyped (project.rules r).cls (kwargs project r)
    · obtain ⟨u,s₁,extracted⟩ := extraction.succeeds typed s
      obtain ⟨e,s₂,thrown,kind⟩ := (rest typed s u s₁ extracted).2 fails
      refine ⟨e,s₂,?_,kind⟩
      rw [prepare,bind_of_ok extracted,bind_of_error thrown]
    · obtain ⟨e,s₁,thrown,kind⟩ := extraction.fails typed s
      refine ⟨e,s₁,?_,kind⟩
      rw [prepare,bind_of_error thrown]

theorem doPrepare_keeps (project : Project n) (r : Fin n) {property : Store n → Prop}
    (step : ∀ t : EStateM Failure RuleState Unit, Keeps (·.prepared = false) t → Keeps property (own r t)) :
    Keeps property (doPrepare project r) := by
  have part : ∀ {τ : Type} {read : RuleState → τ} {write : τ → RuleState → RuleState}
      {t : EStateM Failure τ Unit},
      (∀ part s, (write part s).prepared = s.prepared) → Keeps property (own r (zoom read write t)) :=
    fun same => step _ (keeps_zoom fun part s unmarked => (same part s).trans unmarked)
  have files : ∀ t, Keeps property (own r (onFiles t)) := fun t => part fun _ _ => rfl
  have includes : ∀ t, Keeps property (own r (onIncludes t)) := fun t => part fun _ _ => rfl
  have defines : ∀ t, Keeps property (own r (onDefines t)) := fun t => part fun _ _ => rfl
  have inherent : ∀ t, Keeps property (own r (onInherentFlags t)) := fun t => part fun _ _ => rfl
  apply keeps_get
  intro store
  split
  · exact (files _).bind fun _ => ((includes _).bind fun _ => keeps_get fun _ => includes _).bind fun _ =>
      (keeps_get fun _ => defines _).bind fun _ => keeps_get fun _ => inherent _
  · exact files _

theorem prepare_keeps (project : Project n) (r q : Fin n) (apart : q ≠ r) (state : RuleState) :
    Keeps (fun store => store q = state) (prepare project r) := by
  have step : ∀ t : EStateM Failure RuleState Unit, Keeps (fun store : Store n => store q = state) (own r t) := by
    intro t
    apply keeps_zoom
    intro part store same
    rw [Function.update_of_ne apart]
    exact same
  exact (step _).bind fun _ => (doPrepare_keeps project r fun t _ => step t).bind fun _ => step _

theorem prepare_thrown (project : Project n) (r : Fin n) {s s' : Store n} (unmarked : (s r).prepared = false)
    (thrown : prepare project r s = .error e s') : (s' r).prepared = false := by
  have step : ∀ t : EStateM Failure RuleState Unit, Keeps (·.prepared = false) t →
      Keeps (fun store : Store n => (store r).prepared = false) (own r t) := by
    intro t keeps store unmarked
    have left := keeps (store r) unmarked
    unfold own zoom
    cases ran : t (store r) with
    | ok u state =>
      rw [ran] at left
      simpa [Tasks.left] using left
    | error e state =>
      rw [ran] at left
      simpa [Tasks.left] using left
  have first := step (onFields (Fields.extract (project.rules r).cls (project.rules r).base.kwargs))
    (keeps_zoom fun _ _ unmarked => unmarked) s unmarked
  cases extracted : own r (onFields (Fields.extract (project.rules r).cls (project.rules r).base.kwargs)) s with
  | error e₁ s₁ =>
    rw [prepare,bind_of_error extracted] at thrown
    cases thrown
    rw [extracted] at first
    exact first
  | ok u s₁ =>
    rw [extracted] at first
    have second := doPrepare_keeps project r step s₁ first
    cases prepared : doPrepare project r s₁ with
    | error e₂ s₂ =>
      rw [prepare,bind_of_ok extracted,bind_of_error prepared] at thrown
      cases thrown
      rw [prepared] at second
      exact second
    | ok u s₂ =>
      rw [prepare,bind_of_ok extracted,bind_of_ok prepared] at thrown
      contradiction

/-- After all tasks exactly the rules that are ready are marked as prepared. -/
theorem prepared_iff_ready (project : Project n) (order : List (Fin n)) (all : order.Perm (List.finRange n))
    (store : Store n) (futures : List (Option Failure))
    (ran : runTasks Failure.isException (prepare project) order initial = .ok futures store) (r : Fin n) :
    (store r).prepared = true ↔ Ready project r := by
  have once : order.Nodup := all.nodup_iff.mpr (List.nodup_finRange n)
  have own : ∀ r s, s r = ({} : RuleState) → ((left (prepare project r s) r).prepared = true ↔ Ready project r) := by
    intro r s fresh
    by_cases ready : Ready project r
    · obtain ⟨u,s',done⟩ := (prepare_settled project r).succeeds ready s
      rw [done]
      exact iff_of_true (prepare_done done).prepared ready
    · obtain ⟨e,s',thrown,-⟩ := (prepare_settled project r).fails ready s
      rw [thrown]
      have unmarked := prepare_thrown project r (by rw [fresh]) thrown
      exact iff_of_false (by simp [left,unmarked]) ready
  exact runTasks_places (fun r state => state.prepared = true ↔ Ready project r) order once
    (fun r q apart state => prepare_keeps project r q apart state) own initial
    (fun _ _ => rfl) ran r (all.mem_iff.mpr (List.mem_finRange r))

end Rules

end JkBuild.Preparation
