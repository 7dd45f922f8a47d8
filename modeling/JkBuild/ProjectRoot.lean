import JkBuild.Preparation

/-! How a project is found from a working directory. An absolute path is the list of its
elements, the deepest first; the last character of a path may be a separator, and then its
deepest element is empty. -/
namespace JkBuild.ProjectRoot

open Preparation (TargetPlatform)

section Code

abbrev Path := List String

/-- The parent of the filesystem root is the root itself. -/
def parentPath : Path → Path
  | [] => []
  | _ :: parents => parents

/-- `operator/` with one name. -/
def below : Path → String → Path
  | "" :: parents,name => name :: parents
  | path,name => name :: path

inductive FileType where
  | regular
  | directory
  | other
  deriving DecidableEq, Repr

abbrev Files := Path → Option FileType

def rootMarker : String := "JK_ROOT"
def oldStyleRootMarker : String := "BLADE_ROOT"

def hasRootMarker (files : Files) (root : Path) (markerFile : String) : Bool :=
  (files (below root markerFile)).isSome && files (below root markerFile) = some .regular

def toPathSpec : TargetPlatform → String
  | .k32 => "i386"
  | .k64 => "x86_64"

def toExternalPathSpec : TargetPlatform → String
  | .k32 => "m32"
  | .k64 => "m64"

structure JKProject where
  projectRoot : Path
  buildRoot : Path
  platform : TargetPlatform
  externalInstalledPrefix : Path
  oldStyle : Bool
  deriving DecidableEq, Repr

def JKProject.make (projectRoot : Path) (platform : TargetPlatform) (buildRoot : Option Path) : JKProject :=
  ⟨projectRoot,buildRoot.getD (below (below projectRoot ".build") (toPathSpec platform)),platform,
    below (below (below projectRoot ".build") ".lib") (toExternalPathSpec platform),false⟩

def notInProject : Failure := .jkBuildError "You are not in a JK project. No JK_ROOT file found."

theorem parentPath_shorter {current : Path} (moves : parentPath current ≠ current) :
    (parentPath current).length < current.length := by
  cases current with
  | nil => exact absurd rfl moves
  | cons name parents => exact Nat.lt_succ_self _

def resolveFrom (files : Files) (current : Path) : Except Failure JKProject :=
  if _h : parentPath current ≠ current then
    if hasRootMarker files current rootMarker then .ok (.make current .k64 none)
    else if hasRootMarker files current oldStyleRootMarker then
      .ok { JKProject.make current .k64 none with oldStyle := true }
    else resolveFrom files (parentPath current)
  else .error notInProject
termination_by current.length
decreasing_by exact parentPath_shorter _h

end Code

section Purpose

def marked (files : Files) (dir : Path) : Bool :=
  hasRootMarker files dir rootMarker || hasRootMarker files dir oldStyleRootMarker

/-- The directory and all its ancestors, the deepest first and the filesystem root last. -/
def ancestors (dir : Path) : List Path := dir.tails

def projectAt (files : Files) (dir : Path) : JKProject :=
  { JKProject.make dir .k64 none with
    oldStyle := hasRootMarker files dir oldStyleRootMarker && !hasRootMarker files dir rootMarker }

/-- What is asked for: the project of the nearest marked directory, or the error. -/
def nearest (files : Files) (cwd : Path) : Except Failure JKProject :=
  match (ancestors cwd).find? (marked files) with
  | some dir => .ok (projectAt files dir)
  | none => .error notInProject

end Purpose

theorem resolveFrom_root (files : Files) : resolveFrom files [] = .error notInProject := by
  rw [resolveFrom]
  rfl

/-- One round of the loop, which is at a directory below the root. -/
theorem resolveFrom_below (files : Files) (name : String) (parents : Path) :
    resolveFrom files (name :: parents) =
      if marked files (name :: parents) then .ok (projectAt files (name :: parents))
      else resolveFrom files parents := by
  have differs : parentPath (name :: parents) ≠ name :: parents := fun same => by
    have size := congrArg List.length same
    exact absurd size (Nat.ne_of_lt (Nat.lt_succ_self _))
  rw [resolveFrom,dif_pos differs,marked,projectAt]
  cases hasRootMarker files (name :: parents) rootMarker <;>
    cases hasRootMarker files (name :: parents) oldStyleRootMarker <;> rfl

theorem nearest_below (files : Files) (name : String) (parents : Path) :
    nearest files (name :: parents) =
      if marked files (name :: parents) then .ok (projectAt files (name :: parents))
      else nearest files parents := by
  rw [nearest,ancestors,List.tails_cons,List.find?_cons]
  cases marked files (name :: parents) <;> rfl

/-- The root itself is not looked at, which matters when no other directory is marked. -/
theorem resolveFrom_nearest_iff (files : Files) (cwd : Path) :
    resolveFrom files cwd = nearest files cwd ↔
      marked files [] = false ∨ ∃ dir ∈ ancestors cwd, dir ≠ [] ∧ marked files dir = true := by
  induction cwd with
  | nil =>
    rw [resolveFrom_root]
    cases root : marked files [] with
    | false => simp [nearest,ancestors,root]
    | true => simp [nearest,ancestors,root]
  | cons name parents ih =>
    rw [resolveFrom_below,nearest_below]
    cases here : marked files (name :: parents) with
    | true => exact ⟨fun _ => .inr ⟨_,by simp [ancestors],List.cons_ne_nil _ _,here⟩,fun _ => rfl⟩
    | false =>
      have others : (∃ dir ∈ ancestors (name :: parents), dir ≠ [] ∧ marked files dir = true) ↔
          ∃ dir ∈ ancestors parents, dir ≠ [] ∧ marked files dir = true := by
        simp [ancestors,here]
      rw [others]
      exact ih

def markedRoot : Files := fun path => if path = ["JK_ROOT"] then some .regular else none

theorem marked_root_missed : ¬∀ files cwd, resolveFrom files cwd = nearest files cwd := by
  intro all
  have same := all markedRoot ["a"]
  rw [resolveFrom_below,if_neg (by decide),resolveFrom_root] at same
  revert same
  decide

end JkBuild.ProjectRoot
