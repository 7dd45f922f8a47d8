import JkBuild.Results
import Mathlib.Algebra.Group.Nat.Defs
import Mathlib.Data.List.Basic
import Mathlib.Data.List.Nodup
import Mathlib.Logic.Function.Basic

/-! `common/counter.hh`: one counter for all rules and, in every rule, the numbers it has
given to names. The counter has 32 bits. -/
namespace JkBuild.CountableSteps

variable {ρ : Type} [DecidableEq ρ]

def wordSize : Nat := 2 ^ 32

/-- The global `Counter` and the map `values_` of every rule. -/
structure State (ρ : Type) where
  count : Nat
  values : ρ → List (String × Nat)

def initial : State ρ := ⟨0,fun _ => []⟩

/-- `CountableSteps::Step` of one rule, with the number it returns. -/
def step (s : State ρ) (call : ρ × String) : Nat × State ρ :=
  match (s.values call.1).lookup call.2 with
  | some value => (value,s)
  | none => (s.count,⟨(s.count + 1) % wordSize,
      Function.update s.values call.1 (s.values call.1 ++ [(call.2,s.count)])⟩)

def run : List (ρ × String) → State ρ → List Nat × State ρ
  | [], s => ([],s)
  | call :: calls, s => ((step s call).1 :: (run calls (step s call).2).1,(run calls (step s call).2).2)

/-- The numbers handed out: equal for equal pairs only, and all those below the counter. -/
structure Exact (calls : List (ρ × String)) (numbers : List Nat) (now : Nat) : Prop where
  each : numbers.length = calls.length
  distinct : ∀ (i j : Nat) c d v w, calls[i]? = some c → numbers[i]? = some v → calls[j]? = some d →
    numbers[j]? = some w → (v = w ↔ c = d)
  counted : ∀ v, v ∈ numbers ↔ v < now

def stepped (seen : List (ρ × String)) (calls : List (ρ × String)) : List (ρ × String) :=
  calls.foldl (fun seen call => if call ∈ seen then seen else seen ++ [call]) seen

theorem stepped_prefix (seen calls : List (ρ × String)) : seen <+: stepped seen calls := by
  induction calls generalizing seen with
  | nil => exact List.prefix_rfl
  | cons call calls ih =>
    rw [stepped,List.foldl_cons]
    split
    · exact ih seen
    · exact (List.prefix_append _ _).trans (ih _)

theorem mem_stepped (seen calls : List (ρ × String)) : c ∈ stepped seen calls ↔ c ∈ seen ∨ c ∈ calls := by
  induction calls generalizing seen with
  | nil => simp [stepped]
  | cons call calls ih =>
    rw [stepped,List.foldl_cons,← stepped,ih]
    split
    · next old =>
      constructor
      · exact Or.imp_right (List.mem_cons_of_mem _)
      · rintro (member | member)
        · exact .inl member
        · cases member with
          | head => exact .inl old
          | tail _ member => exact .inr member
    · simp [or_assoc]

/-- Pair number `i` has the number `i`, as far as a machine word counts. -/
structure Holds (seen : List (ρ × String)) (s : State ρ) : Prop where
  nodup : seen.Nodup
  count : s.count = seen.length % wordSize
  values : ∀ rule name, (s.values rule).lookup name =
    if (rule,name) ∈ seen then some (seen.idxOf (rule,name) % wordSize) else none

theorem initial_holds : Holds [] (initial : State ρ) := by
  constructor <;> simp [initial]

theorem step_known {s : State ρ} (h : Holds seen s) (old : call ∈ seen) :
    step s call = (seen.idxOf call % wordSize,s) := by
  rw [step,h.values call.1 call.2,if_pos old]

theorem step_fresh {s : State ρ} (h : Holds seen s) (fresh : call ∉ seen) :
    (step s call).1 = seen.length % wordSize ∧ Holds (seen ++ [call]) (step s call).2 := by
  have absent : (s.values call.1).lookup call.2 = none := by
    rw [h.values call.1 call.2,if_neg fresh]
  have next : step s call = (s.count,⟨(s.count + 1) % wordSize,
      Function.update s.values call.1 (s.values call.1 ++ [(call.2,s.count)])⟩) := by
    rw [step,absent]
  rw [next]
  refine ⟨h.count,by simpa using h.nodup.concat fresh,?_,?_⟩
  · rw [List.length_append,List.length_singleton,h.count,Nat.mod_add_mod]
  · intro rule name
    by_cases same : (rule,name) = call
    · subst same
      simp only [Function.update_self,List.lookup_append,absent,Option.none_or]
      simp [List.idxOf_append,fresh,h.count]
    · have old := h.values rule name
      have kept : ((Function.update s.values call.1 (s.values call.1 ++ [(call.2,s.count)])) rule).lookup name =
          (s.values rule).lookup name := by
        by_cases here : rule = call.1
        · have other : name ≠ call.2 := fun named => same (Prod.ext here named)
          have differ : (name == call.2) = false := by simpa using other
          rw [here,Function.update_self,List.lookup_append,List.lookup_cons,differ]
          simp
        · rw [Function.update_of_ne here]
      rw [kept,old]
      by_cases member : (rule,name) ∈ seen
      · simp [member,List.idxOf_append]
      · simp [member,same]

/-- What a run hands out: to every call the place of its pair among all pairs. -/
theorem run_numbers (calls : List (ρ × String)) {seen : List (ρ × String)} {s : State ρ} (h : Holds seen s) :
    (run calls s).1 = calls.map (fun c => (stepped seen calls).idxOf c % wordSize) ∧
      Holds (stepped seen calls) (run calls s).2 := by
  induction calls generalizing seen s with
  | nil => exact ⟨rfl,h⟩
  | cons call calls ih =>
    have stays : ∀ now, call ∈ now → (stepped now calls).idxOf call = now.idxOf call := by
      intro now member
      obtain ⟨later,split⟩ := stepped_prefix now calls
      rw [← split,List.idxOf_append,if_pos member]
    by_cases old : call ∈ seen
    · have same : stepped seen (call :: calls) = stepped seen calls := by
        rw [stepped,List.foldl_cons,if_pos old,stepped]
      obtain ⟨numbers,kept⟩ := ih h
      rw [run,step_known h old,same,List.map_cons,stays seen old]
      exact ⟨congrArg _ numbers,kept⟩
    · have same : stepped seen (call :: calls) = stepped (seen ++ [call]) calls := by
        rw [stepped,List.foldl_cons,if_neg old,stepped]
      obtain ⟨first,next⟩ := step_fresh h old
      obtain ⟨numbers,kept⟩ := ih next
      rw [run,same,List.map_cons,stays _ (by simp),first,numbers]
      refine ⟨?_,kept⟩
      simp [List.idxOf_append,old]

theorem run_spec (calls : List (ρ × String)) :
    (run calls initial).1 = calls.map (fun c => (stepped [] calls).idxOf c % wordSize) ∧
      (run calls initial).2.count = (stepped [] calls).length % wordSize ∧ (stepped [] calls).Nodup := by
  obtain ⟨numbers,kept⟩ := run_numbers calls initial_holds
  exact ⟨numbers,kept.count,kept.nodup⟩

theorem run_exact (calls : List (ρ × String)) (few : (stepped [] calls).length < wordSize) :
    Exact calls (run calls initial).1 (run calls initial).2.count := by
  obtain ⟨numbers,count,nodup⟩ := run_spec calls
  have known : ∀ c, c ∈ stepped [] calls ↔ c ∈ calls := fun c => by simp [mem_stepped]
  have place : ∀ c ∈ calls, (stepped [] calls).idxOf c % wordSize = (stepped [] calls).idxOf c := by
    intro c member
    have := List.idxOf_lt_length_of_mem ((known c).mpr member)
    exact Nat.mod_eq_of_lt (by omega)
  rw [numbers,count,Nat.mod_eq_of_lt few]
  refine ⟨by simp,?_,?_⟩
  · intro i j c d v w atI numbered atJ numbered'
    rw [List.getElem?_map,atI,Option.map_some,Option.some.injEq,place c (List.mem_of_getElem? atI)] at numbered
    rw [List.getElem?_map,atJ,Option.map_some,Option.some.injEq,place d (List.mem_of_getElem? atJ)] at numbered'
    rw [← numbered,← numbered']
    exact List.idxOf_inj ((known c).mpr (List.mem_of_getElem? atI))
  · intro v
    constructor
    · intro member
      obtain ⟨c,inCalls,rfl⟩ := List.mem_map.mp member
      rw [place c inCalls]
      exact List.idxOf_lt_length_of_mem ((known c).mpr inCalls)
    · intro bound
      have member := (known _).mp (List.getElem_mem bound)
      refine List.mem_map.mpr ⟨(stepped [] calls)[v],member,?_⟩
      rw [place _ member,nodup.idxOf_getElem]

theorem run_wraps (calls : List (ρ × String)) (all : (stepped [] calls).length = wordSize) :
    (run calls initial).2.count = 0 ∧ ¬Exact calls (run calls initial).1 (run calls initial).2.count := by
  obtain ⟨numbers,count,-⟩ := run_spec calls
  have zero : (run calls initial).2.count = 0 := by rw [count,all,Nat.mod_self]
  refine ⟨zero,fun exact => ?_⟩
  have nonempty : stepped [] calls ≠ [] := by
    intro empty
    rw [empty] at all
    contradiction
  obtain ⟨c,member⟩ := List.exists_mem_of_ne_nil _ nonempty
  have called : c ∈ calls := by simpa [mem_stepped] using member
  have handed : (stepped [] calls).idxOf c % wordSize ∈ (run calls initial).1 := by
    rw [numbers]
    exact List.mem_map.mpr ⟨c,called,rfl⟩
  have := (exact.counted _).mp handed
  omega

end JkBuild.CountableSteps
