import JkBuild.FolderTree

/-! `AssumeFolder` of `common/path.cc`: the missing folders of a path are made from the top
down. Names of a path are plain: no `.` and no `..` among them. -/
namespace JkBuild.AssumeFolder

open FolderTree

abbrev FilePath := Path String

/-- `string` of an absolute path. -/
def text (p : FilePath) : String := if p = [] then "/" else String.join (p.reverse.map fun name => "/" ++ name)

/-- What is thrown here, by the code or by the file system. -/
inductive Fault where
  | jkBuildError (message : String)
  | filesystemError (path : FilePath)
  deriving DecidableEq, Repr

def notDirectory (p : FilePath) : Fault := .jkBuildError (text p ++ " is exist, but not a directory")

variable {β : Type} [DecidableEq β]

def assumeFolder (t : Tree String β) : FilePath → Except Fault (Tree String β)
  | [] => .ok t
  | name :: parent =>
    match t.entry (name :: parent) with
    | some .directory => .ok t
    | some (.file _) => .error (notDirectory (name :: parent))
    | none =>
      match assumeFolder t parent with
      | .error fault => .error fault
      | .ok t' =>
        match t'.createDirectory (name :: parent) with
        | some t'' => .ok t''
        | none => .error (.filesystemError (name :: parent))

/-- A file that stands in the way is named and nothing is made. -/
theorem assumeFolder_blocked {t : Tree String β} {p q : FilePath} (blocks : t.Blocks q p) :
    assumeFolder t p = .error (notDirectory q) := by
  induction p with
  | nil =>
    obtain ⟨above,content,file⟩ := blocks
    rw [List.suffix_nil.mp above,t.root] at file
    cases file
  | cons name parent ih =>
    unfold assumeFolder
    by_cases same : q = name :: parent
    · obtain ⟨-,content,file⟩ := blocks
      subst same
      simp [file]
    · simp [blocks.absent same,ih (blocks.parent same)]

theorem assumeFolder_clear {t : Tree String β} {p : FilePath} (clear : ∀ q, ¬t.Blocks q p) :
    ∃ t', assumeFolder t p = .ok t' ∧ ∀ q, t'.entry q = if q <:+ p then some .directory else t.entry q := by
  induction p with
  | nil =>
    refine ⟨t,rfl,fun q => ?_⟩
    split
    · next above => rw [List.suffix_nil.mp above,t.root]
    · rfl
  | cons name parent ih =>
    have clearAbove : ∀ q, ¬t.Blocks q parent := fun q blocks =>
      clear q ⟨blocks.1.trans (List.suffix_cons name parent),blocks.2⟩
    unfold assumeFolder
    cases here : t.entry (name :: parent) with
    | some e =>
      cases e with
      | file content => exact absurd ⟨List.suffix_rfl,content,here⟩ (clear (name :: parent))
      | directory =>
        refine ⟨t,rfl,fun q => ?_⟩
        split
        · next above =>
          by_cases same : q = name :: parent
          · exact same ▸ here
          · exact t.above_directory (by simp [here]) above same
        · rfl
    | none =>
      obtain ⟨t',made,entries⟩ := ih clearAbove
      have folder : t'.entry parent = some .directory := by simp [entries]
      have free : ∀ content, t'.entry (name :: parent) ≠ some (.file content) := by
        intro content file
        rw [entries,here] at file
        split at file <;> cases file
      obtain ⟨t'',created⟩ := Tree.createDirectory_succeeds folder free
      refine ⟨t'',by simp [made,created],fun q => ?_⟩
      rw [Tree.createDirectory_entry created,entries]
      by_cases same : q = name :: parent
      · simp [same]
      · simp [same,List.suffix_cons_iff]

end JkBuild.AssumeFolder
