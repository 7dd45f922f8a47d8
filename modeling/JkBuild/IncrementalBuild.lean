import JkBuild.ParallelBuild
import JkBuild.TimedMakes

/-! `make` again, when some files of a project have been edited since it was built. The makefiles
include dependency files that nothing writes, so what counts are the rules they state. -/
namespace JkBuild.IncrementalBuild

open Reachability MakeRuns NestedMakes TimedMakes RuleMakefiles Tarjan ParallelBuild
open RootMakefile (Target targetName readMakefile)

section Rules

variable {p : Project n} {s : Tarjan.State n} {emitted : List (Fin n)} {sources : List String}
  {ts : List Target} {buildType : String} {files : Set String}

theorem works_iff (gen : Generated p s emitted sources ts) (inTypes : buildType ∈ p.session.buildTypes) :
    Works (p.plan s emitted ts) buildType r u ↔
      r ∈ emitted ∧ Wanted ((p.plan s emitted ts).inner r) ((p.rules r).goal buildType) u := by
  constructor
  · rintro ⟨t,g,called,wanted⟩
    obtain ⟨own,-,rfl⟩ := gen.called_cases inTypes called
    exact ⟨own,wanted⟩
  · rintro ⟨own,wanted⟩
    exact ⟨_,_,gen.called_rule inTypes own,wanted⟩

theorem solid (gen : Generated p s emitted sources ts) (inTypes : buildType ∈ p.session.buildTypes) (own : r ∈ emitted) :
    Solid ((p.plan s emitted ts).inner r) ((p.rules r).goal buildType) ((p.plan s emitted ts).phony r)
      ((p.plan s emitted ts).writes r) (Anew (p.rules r) (p.link s r)) :=
  rule_solid (p.rules r) (p.link s r) (gen.laid.separate r own) (gen.laid.types r own ▸ inTypes)

theorem firm (gen : Generated p s emitted sources ts) (inTypes : buildType ∈ p.session.buildTypes) :
    Firm (p.plan s emitted ts) buildType := by
  refine ⟨fun r u d works written => ?_,fun r u works written => ?_,fun r u e works written edge ruled => ?_⟩
  · obtain ⟨own,wanted⟩ := (works_iff gen inTypes).mp works
    exact (solid gen inTypes own).own u wanted d written
  · obtain ⟨own,wanted⟩ := (works_iff gen inTypes).mp works
    exact (solid gen inTypes own).meant u wanted written
  · obtain ⟨own,wanted⟩ := (works_iff gen inTypes).mp works
    exact ((solid gen inTypes own).below u wanted written e edge ruled).symm.imp_left And.left

end Rules

/-- The files of a project that may be edited between two builds. -/
def inputs (p : Project n) (emitted : List (Fin n)) (buildType : String) : Set String :=
  { d | ∃ r ∈ emitted, d ∈ p.ownInputs r buildType }

end JkBuild.IncrementalBuild
