import JkBuild.AssumeFolder
import JkBuild.TextLines

/-! `writers/file_writer.cc`: text is collected, and the destructor brings it to disk unless
what is there differs by nothing but white space at the ends. -/
namespace JkBuild.FileWriter

open FolderTree AssumeFolder TextLines

abbrev Disk := Tree String (List Char)

/-- A path with a last component, as a writer is opened with. -/
structure Destination where
  name : String
  folder : FilePath
  deriving DecidableEq, Repr

def Destination.path (d : Destination) : FilePath := d.name :: d.folder

/-- Before `open` there is no destination. -/
structure Writer where
  destination : Option Destination
  oss : List Char
  deriving DecidableEq, Repr

namespace Writer

def new : Writer := ⟨none,[]⟩

def openAt (d : Destination) (w : Writer) : Writer := { w with destination := some d }

def write (s : List Char) (w : Writer) : Writer := { w with oss := w.oss ++ s }

def writeLine (s : List Char) (w : Writer) : Writer := { w with oss := w.oss ++ s ++ ['\n'] }

def endLine (w : Writer) : Writer := { w with oss := w.oss ++ ['\n'] }

end Writer

def oldContent (content : List Char) : List Char := unlines (lines content)

def trimCopy (text : List Char) : List Char := trim text

def Unchanged (old content : List Char) : Prop := trimCopy (oldContent old) = trimCopy content

instance (old content : List Char) : Decidable (Unchanged old content) := inferInstanceAs (Decidable (_ = _))

def flush (t : Disk) (d : Destination) (content : List Char) : Except Fault Disk :=
  match assumeFolder t d.folder with
  | .error fault => .error fault
  | .ok t' =>
    match t'.readFile d.path with
    | some old => if Unchanged old content then .ok t' else .ok (t'.writeFile d.name d.folder content)
    | none => .ok (t'.writeFile d.name d.folder content)

/-- The destructor. -/
def Writer.close (w : Writer) (t : Disk) : Except Fault Disk :=
  match w.destination with
  | none => .ok t
  | some d => flush t d w.oss

/-- Reading by lines only mends a missing end of line, which is trimmed. -/
theorem unchanged_iff (old content : List Char) : Unchanged old content ↔ trimCopy old = trimCopy content := by
  obtain ⟨last,kind,same⟩ := unlines_lines old
  have trimmed : trimCopy (oldContent old) = trimCopy old := by
    unfold oldContent
    rw [same]
    rcases kind with rfl | rfl
    · rw [List.append_nil]
    · rw [trimCopy,trim,trimEnd_space old (by decide)]
      rfl
  rw [Unchanged,trimmed]

/-- What is at a destination after a flush that got to its end. -/
def settled (old : Option (Entry (List Char))) (content : List Char) : Entry (List Char) :=
  match old with
  | some .directory => .directory
  | some (.file old) => if trimCopy old = trimCopy content then .file old else .file content
  | none => .file content

theorem path_not_suffix (d : Destination) : ¬d.path <:+ d.folder := fun above => by
  exact Nat.not_succ_le_self d.folder.length above.length_le

theorem readFile_above {t : Disk} {p q : FilePath} (above : q <:+ p) (clear : ∀ q, ¬t.Blocks q p) : t.readFile q = none := by
  unfold Tree.readFile
  split
  · next content file => exact absurd ⟨above,content,file⟩ (clear q)
  · rfl

section Flush

variable {t : Disk} {d : Destination} {content : List Char}

theorem writeFile_settled {t' : Disk} (folder : t'.entry d.folder = some .directory)
    (differs : ∀ old, t'.readFile d.path = some old → ¬Unchanged old content) (q : FilePath) :
    (t'.writeFile d.name d.folder content).entry q =
      if q = d.path then some (settled (t'.entry d.path) content) else t'.entry q := by
  have ready : t'.Writable d.name d.folder ↔ t'.entry d.path ≠ some .directory := by
    simp [Tree.Writable,folder,Destination.path]
  simp only [Tree.writeFile_entry,ready]
  by_cases same : q = d.path
  · rw [if_pos same,same]
    cases here : t'.entry d.path with
    | none => simp [Destination.path,settled]
    | some e =>
      cases e with
      | directory => simp [settled]
      | file old =>
        have other := differs old (by simp [Tree.readFile,here])
        rw [unchanged_iff] at other
        simp [Destination.path,settled,other]
  · rw [if_neg same,if_neg fun both => same both.1]

/-- A flush fails exactly where a file stands on the way to the folder; else the folder is
there, the destination is settled, and nothing else has changed. -/
theorem flush_spec (t : Disk) (d : Destination) (content : List Char) :
    (∀ q, t.Blocks q d.folder → flush t d content = .error (notDirectory q)) ∧
    ((∀ q, ¬t.Blocks q d.folder) → ∃ t', flush t d content = .ok t' ∧ ∀ q, t'.entry q =
      if q = d.path then some (settled (t.entry d.path) content)
      else if q <:+ d.folder then some .directory else t.entry q) := by
  refine ⟨fun q blocks => by simp [flush,assumeFolder_blocked blocks],fun clear => ?_⟩
  obtain ⟨t',made,entries⟩ := assumeFolder_clear clear
  have folder : t'.entry d.folder = some .directory := by simp [entries]
  have kept : t'.entry d.path = t.entry d.path := by rw [entries,if_neg (path_not_suffix d)]
  have done (unchanged : ∀ old, t'.readFile d.path = some old → ¬Unchanged old content) :
      ∀ q, (t'.writeFile d.name d.folder content).entry q =
        if q = d.path then some (settled (t.entry d.path) content)
        else if q <:+ d.folder then some .directory else t.entry q := by
    intro q
    rw [writeFile_settled folder unchanged,kept,entries]
  simp only [flush,made]
  cases read : t'.readFile d.path with
  | none => exact ⟨_,rfl,done (by simp [read])⟩
  | some old =>
    by_cases same : Unchanged old content
    · refine ⟨t',by simp [same],fun q => ?_⟩
      by_cases here : q = d.path
      · subst here
        have file : t.entry d.path = some (.file old) := by
          rw [← kept]
          unfold Tree.readFile at read
          split at read
          · next content there => rw [there,Option.some.inj read]
          · cases read
        simp [kept,file,settled,(unchanged_iff old content).mp same]
      · rw [entries,if_neg here]
    · exact ⟨_,by simp [same],done fun other found => by rwa [← Option.some.inj (read.symm.trans found)]⟩

end Flush

end JkBuild.FileWriter
