import Mathlib.Data.List.Infix
import Mathlib.Logic.Function.Basic

/-! Folders and files as a tree: what exists lies in a folder. The operations are those of a
file system on one path, each a single step. -/
namespace JkBuild.FolderTree

variable {α β : Type}

inductive Entry (β : Type) where
  | directory
  | file (content : β)
  deriving DecidableEq, Repr

/-- The names down to an entry, its own name first. The root has none. -/
abbrev Path (α : Type) := List α

@[ext] structure Tree (α β : Type) where
  entry : Path α → Option (Entry β)
  root : entry [] = some .directory
  enclosed : ∀ name parent, entry (name :: parent) ≠ none → entry parent = some .directory

namespace Tree

def empty : Tree α β where
  entry
    | [] => some .directory
    | _ :: _ => none
  root := rfl
  enclosed := by simp

/-- The files on the way to a path, itself included. -/
def Blocks (t : Tree α β) (q p : Path α) : Prop := q <:+ p ∧ ∃ content, t.entry q = some (.file content)

variable {t t' : Tree α β}

theorem above_directory (t : Tree α β) {p q : Path α} (there : t.entry p ≠ none) (above : q <:+ p) (apart : q ≠ p) :
    t.entry q = some .directory := by
  induction p with
  | nil => exact absurd (List.suffix_nil.mp above) apart
  | cons name parent ih =>
    have folder := t.enclosed name parent there
    rcases List.suffix_cons_iff.mp above with same | above
    · exact absurd same apart
    · by_cases same : q = parent
      · exact same ▸ folder
      · exact ih (by simp [folder]) above same

theorem Blocks.absent {p q : Path α} (blocks : t.Blocks q p) (apart : q ≠ p) : t.entry p = none := by
  obtain ⟨above,content,file⟩ := blocks
  by_contra there
  have folder := t.above_directory there above apart
  simp [file] at folder

theorem Blocks.parent {name : α} {p q : Path α} (blocks : t.Blocks q (name :: p)) (apart : q ≠ name :: p) : t.Blocks q p :=
  ⟨(List.suffix_cons_iff.mp blocks.1).resolve_left apart,blocks.2⟩

section Operations

variable [DecidableEq α]

/-- An entry below a folder, in place of a file or of nothing. -/
def put (t : Tree α β) (name : α) (parent : Path α) (e : Entry β) (folder : t.entry parent = some .directory)
    (vacant : t.entry (name :: parent) ≠ some .directory) : Tree α β where
  entry := Function.update t.entry (name :: parent) (some e)
  root := by simp [t.root]
  enclosed := by
    intro name' parent' there
    have apart : parent' ≠ name :: parent := by
      rintro rfl
      rw [Function.update_of_ne (by simp)] at there
      exact vacant (t.enclosed name' _ there)
    rw [Function.update_of_ne apart]
    by_cases same : name' :: parent' = name :: parent
    · obtain ⟨-,rfl⟩ := List.cons.inj same
      exact folder
    · rw [Function.update_of_ne same] at there
      exact t.enclosed name' parent' there

variable [DecidableEq β]

/-- A folder that is there already is no failure; anything else in its place is, and so is a
missing parent. -/
def createDirectory (t : Tree α β) : Path α → Option (Tree α β)
  | [] => some t
  | name :: parent =>
    if t.entry (name :: parent) = some .directory then some t
    else if ready : t.entry parent = some .directory ∧ t.entry (name :: parent) = none then
      some (t.put name parent .directory ready.1 (by simp [ready.2]))
    else none

def readFile (t : Tree α β) (p : Path α) : Option β :=
  match t.entry p with
  | some (.file content) => some content
  | _ => none

def Writable (t : Tree α β) (name : α) (parent : Path α) : Prop :=
  t.entry parent = some .directory ∧ t.entry (name :: parent) ≠ some .directory

instance (t : Tree α β) (name : α) (parent : Path α) : Decidable (t.Writable name parent) :=
  inferInstanceAs (Decidable (_ ∧ _))

/-- A file that cannot be opened is not written, and nobody is told. -/
def writeFile (t : Tree α β) (name : α) (parent : Path α) (content : β) : Tree α β :=
  if ready : t.Writable name parent then t.put name parent (.file content) ready.1 ready.2 else t

theorem createDirectory_entry {p : Path α} (done : t.createDirectory p = some t') (q : Path α) :
    t'.entry q = if q = p then some .directory else t.entry q := by
  cases p with
  | nil =>
    obtain rfl := Option.some.inj done
    split
    · next same => rw [same,t.root]
    · rfl
  | cons name parent =>
    simp only [createDirectory] at done
    split at done
    · next there =>
      obtain rfl := Option.some.inj done
      split
      · next same => rw [same,there]
      · rfl
    · split at done
      · obtain rfl := Option.some.inj done
        simp [put,Function.update_apply]
      · contradiction

theorem createDirectory_succeeds {name : α} {parent : Path α} (folder : t.entry parent = some .directory)
    (free : ∀ content, t.entry (name :: parent) ≠ some (.file content)) :
    ∃ t', t.createDirectory (name :: parent) = some t' := by
  simp only [createDirectory]
  split
  · exact ⟨t,rfl⟩
  · next other =>
    have none : t.entry (name :: parent) = none := by
      cases here : t.entry (name :: parent) with
      | none => rfl
      | some e =>
        cases e with
        | directory => exact absurd here other
        | file content => exact absurd here (free content)
    rw [dif_pos ⟨folder,none⟩]
    exact ⟨_,rfl⟩

theorem writeFile_entry (t : Tree α β) (name : α) (parent : Path α) (content : β) (q : Path α) :
    (t.writeFile name parent content).entry q =
      if q = name :: parent ∧ t.Writable name parent then some (.file content) else t.entry q := by
  unfold writeFile
  split
  · next ready => simp [put,ready,Function.update_apply]
  · next blocked => simp [blocked]

end Operations

end Tree

end JkBuild.FolderTree
