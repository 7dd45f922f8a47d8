import JkBuild.Preparation

/-! The lists of source and header files of a library: what its patterns match, less what is
excluded, sorted. A file that is matched twice is listed twice. -/
namespace JkBuild.SourceExpansion

open Preparation Tasks

def expandFiles (session : Session) (root : String) (fields : Fields) : EStateM Failure Files Unit := do
  prepareExcludes session root fields
  prepareHeaderFiles session root fields
  prepareSourceFiles session root fields

/-- The files of the patterns, in the order of the patterns, without the excluded ones. -/
def matching (files : String → List String) (patterns excludes : List String) : List String :=
  (patterns.flatMap files).filter (· ∉ excludes.flatMap files)

/-- A file some pattern matches and no exclude does. -/
def Matched (files : String → List String) (patterns excludes : List String) (f : String) : Prop :=
  (∃ pattern ∈ patterns, f ∈ files pattern) ∧ ∀ exclude ∈ excludes, f ∉ files exclude

/-- A sorted list of files is the set of the paths of what is matched. -/
structure ExactSet (relative : String → String) (matched : String → Prop) (listed : List String) : Prop where
  increasing : listed.Pairwise (· < ·)
  exactly : ∀ path, path ∈ listed ↔ ∃ f, matched f ∧ relative f = path

/-- No file that is kept is matched twice, by two patterns or by one. -/
def MatchedOnce (files : String → List String) (patterns excludes : List String) : Prop :=
  (matching files patterns excludes).Nodup

instance (files : String → List String) (patterns excludes : List String) :
    Decidable (MatchedOnce files patterns excludes) := inferInstanceAs (Decidable (List.Nodup _))

section Lists

theorem mem_matching {files : String → List String} {patterns excludes : List String} {f : String} :
    f ∈ matching files patterns excludes ↔ Matched files patterns excludes f := by
  simp [matching,Matched]

theorem sorted_increasing (files : List String) : (sorted files).Pairwise (· < ·) ↔ files.Nodup := by
  have perm : (sorted files).Perm files := List.mergeSort_perm files _
  constructor
  · intro increasing
    refine perm.nodup_iff.mp (increasing.imp ?_)
    rintro a _ less rfl
    exact String.lt_irrefl a less
  · intro nodup
    have ordered : (sorted files).Pairwise fun a b => decide (a ≤ b) = true := by
      apply List.pairwise_mergeSort
      · intro a b c first second
        exact decide_eq_true (String.le_trans (of_decide_eq_true first) (of_decide_eq_true second))
      · intro a b
        simpa using String.le_total a b
    refine (List.pairwise_and_iff.mpr ⟨ordered,perm.nodup_iff.mpr nodup⟩).imp ?_
    rintro a b ⟨le,ne⟩
    by_contra notLess
    exact ne (String.le_antisymm (of_decide_eq_true le) (String.not_lt.mp notLess))

/-- A sorted list of paths is the set of them exactly when no file came in twice. -/
theorem exactSet_sorted (relative : String → String) (found : List String)
    (apart : ∀ f ∈ found, ∀ g ∈ found, relative f = relative g → f = g) :
    ExactSet relative (· ∈ found) (sorted (found.map relative)) ↔ found.Nodup := by
  have members : ∀ path, path ∈ sorted (found.map relative) ↔ ∃ f, f ∈ found ∧ relative f = path := by
    intro path
    rw [sorted,(List.mergeSort_perm _ _).mem_iff,List.mem_map]
  constructor
  · intro exact
    exact ((sorted_increasing _).mp exact.increasing).of_map _
  · intro nodup
    exact ⟨(sorted_increasing _).mpr (nodup.map_on fun f inFound g inFound' => apart f inFound g inFound'),members⟩

end Lists

section Steps

variable {session : Session} {root : String} {files : String → List String} {relative : String → String}

theorem expandAll_answers (expander : ∀ pattern, expand session pattern root = .ok (files pattern))
    (patterns : List String) {add : List String → EStateM Failure Files Unit} (step : List String → Files → Files)
    (each : ∀ pattern s, add (files pattern) s = .ok () (step (files pattern) s)) (s : Files) :
    expandAll session root patterns add s = .ok () (patterns.foldl (fun s pattern => step (files pattern) s) s) := by
  refine forM_fold patterns (fun pattern _ s => ?_) s
  rw [bind_of_ok (attempt_ok (expander pattern) s)]
  exact each pattern s

theorem excludes_fold (patterns : List String) (s : Files) :
    patterns.foldl (fun s pattern => { s with excludes := s.excludes ∪ (files pattern).toFinset }) s =
      { s with excludes := s.excludes ∪ (patterns.flatMap files).toFinset } := by
  induction patterns generalizing s with
  | nil => simp
  | cons pattern patterns ih =>
    rw [List.foldl_cons,ih,List.flatMap_cons,List.toFinset_append,Finset.union_assoc]

/-- What a file of a pattern does to a list. -/
def keepStep (relative : String → String) (push : String → Files → Files) (s : Files) (f : String) : Files :=
  if f ∈ s.excludes then s else push (relative f) s

theorem addKept_fold (push : String → Files → Files) (found : List String)
    (paths : ∀ f ∈ found, session.relative f root = .ok (relative f)) (s : Files) :
    addKept session root push found s = .ok () (found.foldl (keepStep relative push) s) := by
  refine forM_fold found (fun f member s => ?_) s
  show (if f ∈ s.excludes then _ else _ : EStateM Failure Files Unit) s = _
  unfold keepStep
  split
  · rfl
  · have path : filesystem (session.relative f root) = .ok (relative f) := by
      rw [paths f member]
      rfl
    rw [bind_of_ok (attempt_ok path s)]
    rfl

theorem kept_fold (add : List String → Files → Files) (none : ∀ s, add [] s = s)
    (more : ∀ found found' s, add found' (add found s) = add (found ++ found') s)
    (excludes : ∀ found s, (add found s).excludes = s.excludes) (found : List String) (s : Files) :
    found.foldl (keepStep relative fun path => add [path]) s =
      add ((found.filter (· ∉ s.excludes)).map relative) s := by
  induction found generalizing s with
  | nil => exact (none s).symm
  | cons f found ih =>
    rw [List.foldl_cons,ih,keepStep]
    by_cases out : f ∈ s.excludes
    · rw [if_pos out,List.filter_cons_of_neg (by simpa using out)]
    · rw [if_neg out,List.filter_cons_of_pos (by simpa using out),excludes,more]
      rfl

theorem patterns_fold (expander : ∀ pattern, expand session pattern root = .ok (files pattern))
    (paths : ∀ p, ∀ f ∈ files p, session.relative f root = .ok (relative f))
    (add : List String → Files → Files) (none : ∀ s, add [] s = s)
    (more : ∀ found found' s, add found' (add found s) = add (found ++ found') s)
    (excludes : ∀ found s, (add found s).excludes = s.excludes) (patterns : List String) (s : Files) :
    expandAll session root patterns (addKept session root fun path => add [path]) s =
      .ok () (add (((patterns.flatMap files).filter (· ∉ s.excludes)).map relative) s) := by
  rw [expandAll_answers expander patterns (fun found s => found.foldl (keepStep relative fun path => add [path]) s)
    (fun pattern s => addKept_fold _ (files pattern) (paths pattern) s),← List.foldl_flatMap,kept_fold add none more excludes]

/-- What the three steps leave: both lists are what is matched, relative to the root. -/
theorem expandFiles_done (expander : ∀ pattern, expand session pattern root = .ok (files pattern))
    (paths : ∀ p, ∀ f ∈ files p, session.relative f root = .ok (relative f))
    (fields : Fields) (s : Files) : ∃ s', expandFiles session root fields s = .ok () s' ∧
      s'.expandedSourceFiles = sorted ((matching files fields.sources fields.excludes).map relative) ∧
      s'.expandedHeaderFiles = sorted ((matching files fields.headers fields.excludes).map relative) := by
  have excludes : ∀ s, prepareExcludes session root fields s =
      .ok () { s with excludes := (fields.excludes.flatMap files).toFinset } := by
    intro s
    show expandAll session root fields.excludes _ { s with excludes := ∅ } = _
    rw [expandAll_answers expander fields.excludes (fun found s => { s with excludes := s.excludes ∪ found.toFinset })
      (fun _ _ => rfl),excludes_fold,Finset.empty_union]
  have headers : ∀ s, prepareHeaderFiles session root fields s = .ok () { s with
      expandedHeaderFiles := sorted (((fields.headers.flatMap files).filter (· ∉ s.excludes)).map relative) } := by
    intro s
    have folded := patterns_fold expander paths
      (fun found s => { s with expandedHeaderFiles := s.expandedHeaderFiles ++ found }) (by simp) (by simp) (by simp)
      fields.headers { s with expandedHeaderFiles := [] }
    show (expandAll session root fields.headers _ >>= fun _ => modify _) { s with expandedHeaderFiles := [] } = _
    rw [bind_of_ok folded]
    rfl
  have sources : ∀ s, prepareSourceFiles session root fields s = .ok () { s with
      expandedSourceFiles := sorted (((fields.sources.flatMap files).filter (· ∉ s.excludes)).map relative) } := by
    intro s
    have folded := patterns_fold expander paths
      (fun found s => { s with expandedSourceFiles := s.expandedSourceFiles ++ found }) (by simp) (by simp) (by simp)
      fields.sources { s with expandedSourceFiles := [] }
    show (expandAll session root fields.sources _ >>= fun _ => modify _) { s with expandedSourceFiles := [] } = _
    rw [bind_of_ok folded]
    rfl
  refine ⟨_,(bind_of_ok (excludes s)).trans ((bind_of_ok (headers _)).trans (sources _)),?_,?_⟩
  · simp [matching]
  · simp [matching]

end Steps

/-- Both lists are exact sets exactly when no file that is kept is matched twice. -/
theorem expandFiles_exact_iff (session : Session) (root : String) (fields : Fields) (files : String → List String)
    (relative : String → String) (expander : ∀ pattern, expand session pattern root = .ok (files pattern))
    (paths : ∀ p, ∀ f ∈ files p, session.relative f root = .ok (relative f))
    (apart : ∀ p q, ∀ f ∈ files p, ∀ g ∈ files q, relative f = relative g → f = g) (s : Files) :
    (∃ s', expandFiles session root fields s = .ok () s' ∧
      ExactSet relative (Matched files fields.sources fields.excludes) s'.expandedSourceFiles ∧
      ExactSet relative (Matched files fields.headers fields.excludes) s'.expandedHeaderFiles) ↔
      MatchedOnce files fields.sources fields.excludes ∧ MatchedOnce files fields.headers fields.excludes := by
  obtain ⟨s',done,sources,headers⟩ := expandFiles_done expander paths fields s
  have exact_iff : ∀ patterns, ExactSet relative (Matched files patterns fields.excludes)
      (sorted ((matching files patterns fields.excludes).map relative)) ↔ MatchedOnce files patterns fields.excludes := by
    intro patterns
    have same : Matched files patterns fields.excludes = (· ∈ matching files patterns fields.excludes) :=
      funext fun f => propext mem_matching.symm
    rw [same,MatchedOnce]
    apply exactSet_sorted relative
    intro f inFound g inFound'
    obtain ⟨⟨p,-,member⟩,-⟩ := mem_matching.mp inFound
    obtain ⟨⟨q,-,member'⟩,-⟩ := mem_matching.mp inFound'
    exact apart p q f member g member'
  rw [← exact_iff,← exact_iff,← sources,← headers]
  constructor
  · rintro ⟨other,done',both⟩
    rw [done] at done'
    cases done'
    exact both
  · exact fun both => ⟨s',done,both⟩

section Example

/-- A package with two files, one of them excluded by the name it has. -/
def twoFiles (fullPattern : String) : List String :=
  if fullPattern = "/p/a/*.cc" then ["/p/a/x.cc","/p/a/y.cc"]
  else if fullPattern = "/p/a/x.cc" then ["/p/a/x.cc"]
  else []

def twoFilesSession : Session where
  projectRoot := "/p"
  buildRoot := "/p/.build"
  platform := .k64
  buildTypes := []
  glob := fun fullPattern => (if twoFiles fullPattern = [] then globNoMatch else 0,twoFiles fullPattern)
  lines := fun _ => .ok none
  relative := fun f base => .ok (String.ofList (f.toList.drop (base.length + 1)))

def fromPackage (f : String) : String := String.ofList (f.toList.drop ("/p/a".length + 1))

theorem twoFiles_expander (pattern : String) :
    expand twoFilesSession pattern "/p/a" = .ok (twoFiles (sub "/p/a" pattern)) := by
  unfold expand twoFilesSession
  by_cases none : twoFiles (sub "/p/a" pattern) = [] <;> simp [none]

theorem twoFiles_apart (p q : String) : ∀ f ∈ twoFiles (sub "/p/a" p), ∀ g ∈ twoFiles (sub "/p/a" q),
    fromPackage f = fromPackage g → f = g := by
  have only : ∀ fullPattern, ∀ f ∈ twoFiles fullPattern, f ∈ ["/p/a/x.cc","/p/a/y.cc"] := by
    intro fullPattern f member
    unfold twoFiles at member
    split at member
    · exact member
    · split at member
      · exact List.mem_cons.mpr (.inl (List.mem_singleton.mp member))
      · contradiction
  have finite : ∀ f ∈ ["/p/a/x.cc","/p/a/y.cc"], ∀ g ∈ ["/p/a/x.cc","/p/a/y.cc"],
      fromPackage f = fromPackage g → f = g := by decide
  exact fun f member g member' => finite f (only _ f member) g (only _ g member')

theorem excluded_file_exact : ∃ s', expandFiles twoFilesSession "/p/a" { sources := ["*.cc"], excludes := ["x.cc"] } {} =
    .ok () s' ∧ ExactSet fromPackage
      (Matched (fun pattern => twoFiles (sub "/p/a" pattern)) ["*.cc"] ["x.cc"]) s'.expandedSourceFiles ∧
    ExactSet fromPackage
      (Matched (fun pattern => twoFiles (sub "/p/a" pattern)) [] ["x.cc"]) s'.expandedHeaderFiles :=
  (expandFiles_exact_iff twoFilesSession "/p/a" { sources := ["*.cc"], excludes := ["x.cc"] } _ fromPackage twoFiles_expander
    (fun _ _ _ => rfl) twoFiles_apart {}).mpr ⟨by decide,by decide⟩

/-- The patterns `*.cc` and `x.cc` overlap, and `x.cc` is listed twice. -/
theorem overlapping_patterns_repeat : ∃ s', expandFiles twoFilesSession "/p/a" { sources := ["*.cc","x.cc"] } {} =
    .ok () s' ∧ s'.expandedSourceFiles.count "x.cc" = 2 ∧
    ¬ExactSet fromPackage
      (Matched (fun pattern => twoFiles (sub "/p/a" pattern)) ["*.cc","x.cc"] []) s'.expandedSourceFiles := by
  obtain ⟨s',done,sources,-⟩ := expandFiles_done twoFiles_expander (fun _ _ _ => rfl) { sources := ["*.cc","x.cc"] } {}
  have twice : s'.expandedSourceFiles.count "x.cc" = 2 := by
    rw [sources,sorted,(List.mergeSort_perm _ _).count_eq]
    decide
  refine ⟨s',done,twice,fun exact => ?_⟩
  have once : s'.expandedSourceFiles.Nodup := by
    refine exact.increasing.imp ?_
    rintro a _ less rfl
    exact String.lt_irrefl a less
  have few := List.nodup_iff_count_le_one.mp once "x.cc"
  omega

end Example

end JkBuild.SourceExpansion
