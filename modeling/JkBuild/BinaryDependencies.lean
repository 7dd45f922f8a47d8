import JkBuild.Conversion
import JkBuild.Pipeline

/-! The dependencies that `add_deps` gives to the binary of a `cc_binary`: from the
dictionary of the BUILD file to what is there once rules are prepared. -/
namespace JkBuild.BinaryDependencies

open Dependent Tasks Conversion Resolution Pipeline

/-- What a key of the dictionary is bound to. -/
inductive Values where
  | one (dep : String)
  | many (deps : List String)

def Values.strings : Values → List String
  | one dep => [dep]
  | many deps => deps

def Values.object : Values → PyObject
  | one dep => .str (points dep)
  | many deps => .list (deps.map fun dep => .str (points dep))

abbrev Table := List (String × Values)

def Table.object (table : Table) : PyObject := .dict (table.map fun entry => (.str (points entry.1),entry.2.object))

/-- A `cc_binary` of a run whose call gives `add_deps`, a dictionary of declared rules. -/
structure BinaryRule (cast : Cast) (input : Input V n) where
  rule : Fin n
  given : List (List CodePoint × PyObject)
  table : Table
  -- Only this type of rule has the field.
  binary : (input.rules rule).base.typeName = "cc_binary"
  -- The rule was made by this call.
  converted : convertKwargs cast given = .ok (input.rules rule).base.kwargs
  addDeps : given.lookup (points "add_deps") = some table.object
  keys : (table.map Prod.fst).Nodup
  -- No entry could be missing because its rules are.
  named : ∀ entry ∈ table, ∀ depStr ∈ entry.1 :: entry.2.strings,
    ∃ q, Denotes input.semver input.loaded (input.rules rule).base.packageName depStr q

/-- One entry for each key, in any order: its rule is denoted by the key, and its
dependencies by the strings of the key, in their order. -/
def Entered {cast : Cast} {input : Input V n} (b : BinaryRule cast input) (entries : List (BuildRule × List BuildRule)) : Prop :=
  ∃ expected, entries.Perm expected ∧ List.Forall₂ (fun given entry =>
    Denotes input.semver input.loaded (input.rules b.rule).base.packageName given.1 entry.1 ∧
    List.Forall₂ (Denotes input.semver input.loaded (input.rules b.rule).base.packageName) given.2.strings entry.2)
    b.table expected

/-- The first two stages of `generate_all` after the packages are loaded. -/
def prepareAll (input : Input V n) (orders : Orders n) : EStateM Failure (Report n) Unit := do
  prepareDependencies input orders
  prepareRules input orders

/-- The table of a binary is read before it is extracted, so nothing is ever entered. -/
theorem prepareAll_inBinary (input : Input V n) (orders : Orders n)
    (done : prepareAll input orders input.start = .ok () s) (r : Fin n) : (s.linked r).inBinary = [] := by
  by_cases answers : Answers input
  · obtain ⟨middle,resolving,linked,fresh,-,-⟩ := prepareDependencies_answered input orders answers
    obtain ⟨s',preparing,kept,-⟩ := prepareRules_spec input orders middle linked fresh
    have run : prepareAll input orders input.start = .ok () s' := by rw [prepareAll,bind_of_ok resolving,preparing]
    obtain ⟨-,rfl⟩ := EStateM.Result.ok.inj (done.symm.trans run)
    rw [kept,linked]
    rfl
  · obtain ⟨e,middle,ended,-⟩ := prepareDependencies_unanswered input orders answers
    have run : prepareAll input orders input.start = .error e middle := by rw [prepareAll,bind_of_error ended]
    rw [run] at done
    contradiction

/-- Additional dependencies reach the binary only where there are none. -/
theorem binary_entries_iff {cast : Cast} {input : Input V n} (orders : Orders n) (b : BinaryRule cast input)
    (done : prepareAll input orders input.start = .ok () s) : Entered b (s.linked b.rule).inBinary ↔ b.table = [] := by
  rw [prepareAll_inBinary input orders done]
  constructor
  · rintro ⟨expected,same,entries⟩
    obtain rfl := List.nil_perm.mp same
    exact List.forall₂_nil_right_iff.mp entries
  · intro empty
    exact ⟨[],.refl _,by rw [empty]; exact .nil⟩

def binaryArguments : List (List CodePoint × PyObject) :=
  [(points "name",.str (points "b")),
    (points "add_deps",.dict [(.str (points ":lib"),.list [.str (points ":lib")])])]

def withBinary : Input (Fin 10 × Fin 10 × Fin 10) 2 where
  assertions := true
  semver := digitVersions
  session := Preparation.emptySession
  rules := fun r =>
    if r.val = 0 then (Packages.create 0 "a" (Packages.library "lib" [])).toOption.get rfl
    else (Packages.create 1 "a" ⟨"cc_binary",(convertKwargs castUtf8 binaryArguments).toOption.get rfl⟩).toOption.get rfl
  packages := ["a"]
  requested := [("a","b")]
  generators := ["makefile"]
  finds := fun _ _ => false
  compile := fun _ _ => none
  markWritable := true
  releaseFolder := .ok ()
  ids := by decide +kernel
  parsed := by decide +kernel

def binaryRule : BinaryRule castUtf8 withBinary where
  rule := Fin.last 1
  given := binaryArguments
  table := [(":lib",.many [":lib"])]
  binary := rfl
  converted := rfl
  addDeps := rfl
  keys := by decide
  named := by
    have denoted : ∃ q, Denotes withBinary.semver withBinary.loaded (withBinary.rules 1).base.packageName ":lib" q :=
      ⟨withBinary.rules 0,_,rfl,_,rfl,List.mem_cons_self,rfl,by simp⟩
    simpa [Values.strings] using denoted

theorem withBinary_completes : ∃ s, prepareAll withBinary inOrder withBinary.start = .ok () s := by
  have answers : Answers withBinary := by
    intro r dep member
    have empty : ∀ r, (withBinary.rules r).base.dependencies = [] := by decide +kernel
    simp [empty] at member
  obtain ⟨middle,resolving,linked,fresh,-,-⟩ := prepareDependencies_answered withBinary inOrder answers
  obtain ⟨s,preparing,-⟩ := prepareRules_spec withBinary inOrder middle linked fresh
  exact ⟨s,by rw [prepareAll,bind_of_ok resolving,preparing]⟩

theorem withBinary_entries : ∃ s, prepareAll withBinary inOrder withBinary.start = .ok () s ∧
    ¬Entered binaryRule (s.linked binaryRule.rule).inBinary := by
  obtain ⟨s,done⟩ := withBinary_completes
  refine ⟨s,done,fun entered => ?_⟩
  have empty := (binary_entries_iff inOrder binaryRule done).mp entered
  simp [binaryRule] at empty

/-- The run completes and the binary has no entry for its key. -/
theorem withBinary_loses : ∃ s, prepareAll withBinary inOrder withBinary.start = .ok () s ∧
    binaryRule.table.map Prod.fst = [":lib"] ∧ (s.linked binaryRule.rule).inBinary = [] ∧
    ¬Entered binaryRule (s.linked binaryRule.rule).inBinary := by
  obtain ⟨s,done⟩ := withBinary_completes
  have empty := prepareAll_inBinary withBinary inOrder done binaryRule.rule
  refine ⟨s,done,rfl,empty,?_⟩
  rintro ⟨expected,same,entries⟩
  rw [empty] at same
  obtain rfl := List.nil_perm.mp same
  cases entries

end JkBuild.BinaryDependencies
