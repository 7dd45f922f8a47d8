import JkBuild.CompilationDatabase
import Mathlib.Data.List.TakeWhile

/-! `models/cc/source_file.cc`: the files a build keeps for a source, each named after it with
a suffix. -/
namespace JkBuild

/-- The last component of a path, `filename` of `std::filesystem::path`. -/
def filenameChars (path : List Char) : List Char := (path.reverse.takeWhile (· ≠ '/')).reverse

def filename (path : String) : String := String.ofList (filenameChars path.toList)

/-- What comes before the last component, with the separators between them. -/
def folderChars (path : List Char) : List Char := (path.reverse.dropWhile (· ≠ '/')).reverse

/-- The folder without these separators. A path right below the root keeps the root. -/
def parentPath (path : String) : String :=
  let folder := folderChars path.toList
  let stripped := (folder.reverse.dropWhile (· = '/')).reverse
  String.ofList (if stripped = [] then folder.take 1 else stripped)

/-- `p.parent_path() / (p.filename().string() + suffix)`. -/
def withSuffix (path suffix : String) : String := sub (parentPath path) (filename path ++ suffix)

namespace SourceFile

open Preparation CompilationDatabase

def headerExtensions : List String := [".h",".hh",".hxx",".hpp"]

def isHeaderFile (path : String) : Bool := headerExtensions.contains (RootMakefile.asciiStrToLower (extension path))

def isSourceFile (path : String) : Bool := isCSourceFile path || isCppSourceFile path

variable (i : Input)

/-- `Project->Resolve(source_file.FullQualifiedPath)`, the same as the source of a command. -/
def resolved (filename : String) : String := sourceFilename i filename

def objectPath (buildType filename : String) : String :=
  sub (sub i.files.workingFolder buildType) (withSuffix (fullQualifiedPath i filename) ".o")

def dotDPath (filename : String) : String :=
  sub i.files.workingFolder (withSuffix (fullQualifiedPath i filename) ".d")

def lintPath (filename : String) : String :=
  sub i.files.workingFolder (withSuffix (fullQualifiedPath i filename) ".lint")

end SourceFile

section Paths

theorem sub_toList (base part : String) : ∃ front, (sub base part).toList = front ++ part.toList ∧
    (front = [] ∨ front.getLast? = some '/') := by
  unfold sub
  split
  · exact ⟨[],rfl,.inl rfl⟩
  · split
    · next ends =>
      refine ⟨base.toList,by simp,ends.symm.imp_left ?_⟩
      rintro rfl
      rfl
    · exact ⟨base.toList ++ ['/'],by simp,.inr (by simp)⟩

theorem takeWhile_append_stop {p : α → Bool} {xs ys : List α} (all : ∀ x ∈ xs, p x = true)
    (stop : ys = [] ∨ ∃ y, ys.head? = some y ∧ p y = false) : (xs ++ ys).takeWhile p = xs := by
  rw [List.takeWhile_append_of_pos all]
  rcases stop with rfl | ⟨y,first,fails⟩
  · simp
  · obtain ⟨rest,rfl⟩ := List.head?_eq_some_iff.mp first
    simp [fails]

theorem filename_sub (base : String) {part : String} (plain : '/' ∉ part.toList) :
    filename (sub base part) = part := by
  obtain ⟨front,same,ends⟩ := sub_toList base part
  have whole : (part.toList.reverse ++ front.reverse).takeWhile (· ≠ '/') = part.toList.reverse := by
    apply takeWhile_append_stop
    · intro ch member
      rw [decide_eq_true_eq]
      rintro rfl
      exact plain (List.mem_reverse.mp member)
    · rcases ends with rfl | slash
      · exact .inl rfl
      · exact .inr ⟨'/',by rw [List.head?_reverse,slash],by simp⟩
  simp only [filename,filenameChars,same,List.reverse_append,whole,List.reverse_reverse,String.ofList_toList]

theorem extension_of_filename {path path' : String} (same : filename path = filename path') :
    CompilationDatabase.extension path = CompilationDatabase.extension path' := by
  have chars : filenameChars path.toList = filenameChars path'.toList := by
    simpa [filename] using congrArg String.toList same
  unfold CompilationDatabase.extension
  rw [filenameChars,filenameChars] at chars
  rw [chars]

theorem filename_plain (path : String) : '/' ∉ (filename path).toList := by
  intro member
  simp only [filename,filenameChars,String.toList_ofList,List.mem_reverse] at member
  have passes := List.mem_takeWhile_imp member
  simp at passes

theorem folder_filename (path : List Char) : folderChars path ++ filenameChars path = path := by
  rw [folderChars,filenameChars,← List.reverse_append,List.takeWhile_append_dropWhile,List.reverse_reverse]

theorem folder_ends (path : List Char) : folderChars path = [] ∨ ∃ front, folderChars path = front ++ ['/'] := by
  unfold folderChars
  cases rest : path.reverse.dropWhile fun ch : Char => decide (ch ≠ '/') with
  | nil => exact .inl rfl
  | cons ch left =>
    have head := List.head?_dropWhile_not (fun ch : Char => decide (ch ≠ '/')) path.reverse
    rw [rest] at head
    obtain rfl : ch = '/' := by simpa using head
    exact .inr ⟨left.reverse,by simp⟩

theorem filename_below (base path : String) : filename (sub base path) = filename path := by
  obtain ⟨front,same,ends⟩ := sub_toList base path
  have split := folder_filename path.toList
  have stop : front ++ folderChars path.toList = [] ∨ ∃ left, front ++ folderChars path.toList = left ++ ['/'] := by
    rcases folder_ends path.toList with none | ⟨left,found⟩
    · rw [none,List.append_nil]
      exact ends.imp_right fun slash => List.getLast?_eq_some_iff.mp slash
    · exact .inr ⟨front ++ left,by rw [found,List.append_assoc]⟩
  have plain : ∀ ch ∈ (filenameChars path.toList).reverse, decide (ch ≠ '/') = true := by
    intro ch member
    rw [decide_eq_true_eq]
    rintro rfl
    exact filename_plain path (by simpa [filename] using member)
  have whole : (front ++ path.toList).reverse.takeWhile (· ≠ '/') = (filenameChars path.toList).reverse := by
    rw [← split,← List.append_assoc,List.reverse_append,split]
    apply takeWhile_append_stop plain
    rcases stop with none | ⟨left,found⟩
    · exact .inl (by rw [none]; rfl)
    · exact .inr ⟨'/',by rw [found]; simp,by simp⟩
  simp only [filename,filenameChars,same,whole,List.reverse_reverse]

theorem filename_withSuffix (path : String) {suffix : String} (plain : '/' ∉ suffix.toList) :
    filename (withSuffix path suffix) = filename path ++ suffix := by
  apply filename_sub
  simpa using ⟨filename_plain path,plain⟩

/-- Where no separator is doubled, the suffix is just written behind the path. -/
theorem withSuffix_normal {path suffix : String} (plain : '/' ∉ suffix.toList)
    (single : ∀ front back, path.toList ≠ front ++ '/' :: '/' :: back) : withSuffix path suffix = path ++ suffix := by
  have split := folder_filename path.toList
  have relative : (filename path ++ suffix).toList.head? ≠ some '/' := by
    intro first
    have member := List.mem_of_head? first
    simp only [String.toList_append,List.mem_append] at member
    exact member.elim (filename_plain path) plain
  have joined : ∀ front, folderChars path.toList = front →
      path ++ suffix = String.ofList front ++ (filename path ++ suffix) := by
    rintro front rfl
    apply String.toList_inj.mp
    simp only [String.toList_append,String.toList_ofList,filename,← List.append_assoc,split]
  rcases folder_ends path.toList with none | ⟨front,found⟩
  · have parent : parentPath path = "" := by simp [parentPath,none]
    rw [joined [] none,withSuffix,parent,sub,if_neg relative]
    rfl
  · rw [joined _ found]
    rcases front.eq_nil_or_concat with rfl | ⟨first,ch,rfl⟩
    · have parent : parentPath path = "/" := by simp [parentPath,found]
      rw [withSuffix,parent,sub,if_neg relative]
      rfl
    · rw [List.concat_eq_append] at found
      have other : ch ≠ '/' := by
        rintro rfl
        exact single first (filenameChars path.toList) (split.symm.trans (by rw [found]; simp))
      have parent : parentPath path = String.ofList (first ++ [ch]) := by simp [parentPath,found,other]
      have inner : ¬((String.ofList (first ++ [ch])).toList.getLast? = some '/' ∨
          String.ofList (first ++ [ch]) = "") := by
        simp [other]
      rw [withSuffix,parent,sub,if_neg relative,if_neg inner]
      apply String.toList_inj.mp
      simp

/-- There the object a command of the database names is the one the makefile builds. -/
theorem SourceFile.objectPath_normal (i : CompilationDatabase.Input) (buildType filename : String)
    (single : ∀ front back, (CompilationDatabase.fullQualifiedPath i filename).toList ≠ front ++ '/' :: '/' :: back) :
    SourceFile.objectPath i buildType filename = CompilationDatabase.objectPath i buildType filename := by
  rw [SourceFile.objectPath,withSuffix_normal (by decide) single,CompilationDatabase.objectPath]

end Paths

end JkBuild
