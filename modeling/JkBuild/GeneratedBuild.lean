import JkBuild.WrittenBuild

/-! From the rules to a build: the makefiles of the rules are written on many threads and the root
makefile after them, and make builds the project from what it reads on the disk. -/
namespace JkBuild.GeneratedBuild

open Reachability NestedMakes RuleMakefiles MakefileCalls MakefileText FileWriter AssumeFolder FolderTree
open ParallelWriters WrittenBuild
open ParallelBuild hiding generated
open MakeSyntax (read words)

section Generation

variable (p : Project n) (setting : Setting) (base : Fin n → BuildRuleBase) (s : Tarjan.State n) (emitted : List (Fin n))

def outputs : List Output :=
  emitted.map fun r => ⟨base r,(p.rules r).cls,fun name => text (calls setting (p.rules r) (p.link s r) name)⟩

/-- What the threads that compile them write. -/
def jobs : List Job := generated (locate p.session.buildRoot) (outputs p setting base s emitted)

def rootDestination : Destination := ⟨"Makefile",locate p.session.projectRoot⟩

def files (t : Disk) : Set String := { d | ∃ content, t.readFile (locate d) = some content }

/-- Each rule has a folder of its own in the build root, which lies in the project. -/
structure Placed : Prop where
  folders : ∀ r ∈ emitted, (p.rules r).workingFolder = (base r).workingFolder p.session.buildRoot
  quoted : ∀ r ∈ emitted, '/' ∉ (base r).fullQuotedQualifiedName.toList ∧ (base r).fullQuotedQualifiedName ≠ ""
  distinct : (emitted.map fun r => (base r).fullQuotedQualifiedName).Nodup
  inside : locate p.session.projectRoot <:+ locate p.session.buildRoot
  root : ∀ r ∈ emitted, ¬(rootDestination p).path <:+ locate (p.rules r).workingFolder

variable {p setting base s emitted} {ts : List RootMakefile.Target} {t t' : Disk}

theorem Placed.folder (placed : Placed p base emitted) (own : r ∈ emitted) :
    locate (p.rules r).workingFolder = (base r).fullQuotedQualifiedName :: locate p.session.buildRoot := by
  rw [placed.folders r own,BuildRuleBase.workingFolder]
  exact locate_sub _ (placed.quoted r own).1 (placed.quoted r own).2

end Generation

section Build

variable {s : Tarjan.State n} {emitted : List (Fin n)} {sources : List String} {ts : List RootMakefile.Target}
  {buildType : String}

def parts : Project 3 := { tool with requested := (List.finRange 3).drop 1 }

end Build

end JkBuild.GeneratedBuild
