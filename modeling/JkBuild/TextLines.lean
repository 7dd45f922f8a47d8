import Mathlib.Data.List.DropRight

/-! Texts as lines: taking a text apart, putting it together, and white space at its ends. -/
namespace JkBuild.TextLines

/-- The lines of a text, with what has been read of the first. A last line need not be ended. -/
def linesFrom (line : List Char) : List Char → List (List Char)
  | [] => if line = [] then [] else [line]
  | ch :: rest => if ch = '\n' then line :: linesFrom [] rest else linesFrom (line ++ [ch]) rest

def lines (text : List Char) : List (List Char) := linesFrom [] text

def unlines (ls : List (List Char)) : List Char := ls.flatMap (· ++ ['\n'])

def isSpace (ch : Char) : Bool := ch ∈ [' ','\t','\n','\x0b','\x0c','\r']

def trimEnd (text : List Char) : List Char := text.rdropWhile isSpace

def trim (text : List Char) : List Char := (trimEnd text).dropWhile isSpace

@[simp] theorem unlines_append (first second : List (List Char)) : unlines (first ++ second) = unlines first ++ unlines second := by
  simp [unlines]

theorem unlines_linesFrom (text line : List Char) : ∃ last, (last = [] ∨ last = ['\n']) ∧
    unlines (linesFrom line text) = line ++ text ++ last := by
  induction text generalizing line with
  | nil =>
    unfold linesFrom
    split
    · next none => exact ⟨[],.inl rfl,by simp [unlines,none]⟩
    · exact ⟨['\n'],.inr rfl,by simp [unlines]⟩
  | cons ch rest ih =>
    unfold linesFrom
    split
    · next ends =>
      obtain ⟨last,kind,same⟩ := ih []
      refine ⟨last,kind,?_⟩
      rw [unlines] at same ⊢
      simp [same,ends]
    · obtain ⟨last,kind,same⟩ := ih (line ++ [ch])
      exact ⟨last,kind,by simp [same]⟩

theorem unlines_lines (text : List Char) : ∃ last, (last = [] ∨ last = ['\n']) ∧ unlines (lines text) = text ++ last := by
  obtain ⟨last,kind,same⟩ := unlines_linesFrom text []
  exact ⟨last,kind,by simpa [lines] using same⟩

theorem linesFrom_line {line : List Char} (plain : '\n' ∉ line) (before rest : List Char) :
    linesFrom before (line ++ '\n' :: rest) = (before ++ line) :: lines rest := by
  induction line generalizing before with
  | nil => simp [linesFrom,lines]
  | cons ch line ih =>
    have other : ch ≠ '\n' := fun same => plain (same ▸ List.mem_cons_self)
    have later := ih (fun member => plain (List.mem_cons_of_mem _ member)) (before ++ [ch])
    simpa [linesFrom,other] using later

theorem lines_single {line : List Char} (plain : '\n' ∉ line) (nonempty : line ≠ []) : lines line = [line] := by
  have single : ∀ before, linesFrom before line = if before ++ line = [] then [] else [before ++ line] := by
    clear nonempty
    induction line with
    | nil => simp [linesFrom]
    | cons ch line ih =>
      intro before
      have other : ch ≠ '\n' := fun same => plain (same ▸ List.mem_cons_self)
      simp [linesFrom,other,ih (fun member => plain (List.mem_cons_of_mem _ member))]
  simpa [nonempty,lines] using single []

theorem lines_unlines_append {ls : List (List Char)} (plain : ∀ l ∈ ls, '\n' ∉ l) (rest : List Char) :
    lines (unlines ls ++ rest) = ls ++ lines rest := by
  induction ls with
  | nil => simp [unlines]
  | cons l ls ih =>
    have first := linesFrom_line (plain l List.mem_cons_self) [] (unlines ls ++ rest)
    rw [List.nil_append,ih fun l' member => plain l' (List.mem_cons_of_mem _ member)] at first
    simpa [unlines,lines] using first

theorem lines_unlines {ls : List (List Char)} (plain : ∀ l ∈ ls, '\n' ∉ l) : lines (unlines ls) = ls := by
  simpa [lines,linesFrom] using lines_unlines_append plain []

section Trim

theorem trimEnd_space (text : List Char) {ch : Char} (space : isSpace ch = true) : trimEnd (text ++ [ch]) = trimEnd text :=
  List.rdropWhile_concat_pos (p := isSpace) text ch space

theorem trimEnd_spaces (text : List Char) {spaces : List Char} (all : ∀ ch ∈ spaces, isSpace ch = true) :
    trimEnd (text ++ spaces) = trimEnd text := by
  induction spaces using List.reverseRecOn with
  | nil => simp
  | append_singleton spaces ch ih =>
    rw [← List.append_assoc,trimEnd_space _ (all ch (by simp)),ih fun ch member => all ch (by simp [member])]

theorem trimEnd_append (text : List Char) {line : List Char} (some : trimEnd line ≠ []) :
    trimEnd (text ++ line) = text ++ trimEnd line := by
  induction line using List.reverseRecOn with
  | nil => exact absurd rfl some
  | append_singleton line ch ih =>
    by_cases space : isSpace ch = true
    · rw [trimEnd_space _ space] at some ⊢
      rw [← List.append_assoc,trimEnd_space _ space,ih some]
    · have kept (text : List Char) : trimEnd (text ++ [ch]) = text ++ [ch] :=
        List.rdropWhile_concat_neg (p := isSpace) text ch space
      rw [← List.append_assoc,kept,kept,List.append_assoc]

theorem trimEnd_eq_nil {text : List Char} : trimEnd text = [] ↔ ∀ ch ∈ text, isSpace ch = true := by
  rw [trimEnd,List.rdropWhile_eq_nil_iff]

/-- The end of a text is the end of its last line that is not blank. -/
theorem trimEnd_unlines (ls : List (List Char)) : (trimEnd (unlines ls) = [] ∧ ∀ l ∈ ls, trimEnd l = []) ∨
    ∃ before l after, ls = before ++ l :: after ∧ (∀ l' ∈ after, trimEnd l' = []) ∧ trimEnd l ≠ [] ∧
      trimEnd (unlines ls) = unlines before ++ trimEnd l := by
  induction ls using List.reverseRecOn with
  | nil => exact .inl ⟨rfl,by simp⟩
  | append_singleton ls l ih =>
    have last : trimEnd (unlines (ls ++ [l])) = trimEnd (unlines ls ++ l) := by
      rw [unlines_append]
      simp only [unlines,List.flatMap_cons,List.flatMap_nil,List.append_nil]
      rw [← List.append_assoc,trimEnd_space _ (by decide)]
    by_cases blank : trimEnd l = []
    · rw [last,trimEnd_spaces _ (trimEnd_eq_nil.mp blank)]
      rcases ih with ⟨nothing,all⟩ | ⟨before,l',after,rfl,blankAfter,some,same⟩
      · refine .inl ⟨nothing,fun l' member => ?_⟩
        rcases List.mem_append.mp member with member | member
        · exact all l' member
        · exact List.mem_singleton.mp member ▸ blank
      · refine .inr ⟨before,l',after ++ [l],by simp,fun l'' member => ?_,some,same⟩
        rcases List.mem_append.mp member with member | member
        · exact blankAfter l'' member
        · exact List.mem_singleton.mp member ▸ blank
    · exact .inr ⟨ls,l,[],rfl,by simp,blank,by rw [last,trimEnd_append _ blank]⟩

end Trim

end JkBuild.TextLines
