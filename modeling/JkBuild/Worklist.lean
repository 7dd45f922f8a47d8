import JkBuild.Reachability
import Mathlib.Algebra.BigOperators.Group.Finset.Basic

/-! A queue of elements to be done: an element that is done already is dropped, any other
one is done and its successors are queued. What holds at every round, and a measure that
every round lowers. -/
namespace JkBuild.Worklist

open Reachability

universe u

variable {α : Type u} {next : α → List α} {roots finished queue : List α}

structure Invariant (next : α → List α) (roots finished queue : List α) : Prop where
  nodup : finished.Nodup
  origin : ∀ a, a ∈ finished ∨ a ∈ queue → ∃ root ∈ roots, Reaches next root a
  roots : ∀ a ∈ roots, a ∈ finished ∨ a ∈ queue
  closed : ∀ a ∈ finished, ∀ b ∈ next a, b ∈ finished ∨ b ∈ queue

theorem start_invariant (next : α → List α) (roots : List α) : Invariant next roots [] roots where
  nodup := List.nodup_nil
  origin := by
    intro a member
    cases member with
    | inl absent => contradiction
    | inr member => exact ⟨a,member,.refl next a⟩
  roots := fun _ member => .inr member
  closed := fun _ absent => by contradiction

theorem Invariant.skip (h : Invariant next roots finished (a :: queue)) (old : a ∈ finished) :
    Invariant next roots finished queue := by
  have keep : ∀ b, b ∈ finished ∨ b ∈ a :: queue → b ∈ finished ∨ b ∈ queue := by
    intro b member
    cases member with
    | inl member => exact .inl member
    | inr member =>
      cases member with
      | head => exact .inl old
      | tail _ member => exact .inr member
  exact ⟨h.nodup,fun b member => h.origin b (member.imp_right (List.mem_cons_of_mem _)),
    fun b member => keep b (h.roots b member),fun b member c edge => keep c (h.closed b member c edge)⟩

theorem Invariant.finish {queued : List α} (h : Invariant next roots finished (a :: queue)) (fresh : a ∉ finished)
    (sub : ∀ b ∈ queued, b ∈ next a ∨ b = a) (all : ∀ b ∈ next a, b ∈ queued) :
    Invariant next roots (finished ++ [a]) (queue ++ queued) := by
  have keep : ∀ b, b ∈ finished ∨ b ∈ a :: queue → b ∈ finished ++ [a] ∨ b ∈ queue ++ queued := by
    intro b member
    cases member with
    | inl member => exact .inl (List.mem_append_left _ member)
    | inr member =>
      cases member with
      | head => exact .inl (by simp)
      | tail _ member => exact .inr (List.mem_append_left _ member)
  have origin := h.origin a (.inr (by simp))
  refine ⟨?_,?_,fun b member => keep b (h.roots b member),?_⟩
  · simpa using h.nodup.concat fresh
  · intro b member
    simp only [List.mem_append,List.mem_singleton] at member
    rcases member with (member | rfl) | (member | member)
    · exact h.origin b (.inl member)
    · exact origin
    · exact h.origin b (.inr (List.mem_cons_of_mem _ member))
    · cases sub b member with
      | inl edge =>
        obtain ⟨root,inRoots,path⟩ := origin
        exact ⟨root,inRoots,path.tail edge⟩
      | inr same => exact same ▸ origin
  · intro b member c edge
    cases List.mem_append.mp member with
    | inl member => exact keep c (h.closed b member c edge)
    | inr single =>
      rw [List.mem_singleton.mp single] at edge
      exact .inr (List.mem_append_right _ (all c edge))

/-- With the queue empty exactly the reachable elements are done, each once. -/
theorem Invariant.complete (h : Invariant next roots finished []) :
    finished.Nodup ∧ ∀ a, a ∈ finished ↔ ∃ root ∈ roots, Reaches next root a := by
  have inside : ∀ b, b ∈ finished ∨ b ∈ [] → b ∈ finished := fun b member => member.resolve_right (by simp)
  refine ⟨h.nodup,fun a => ⟨fun member => h.origin a (.inl member),?_⟩⟩
  rintro ⟨root,member,path⟩
  exact path.closed (· ∈ finished) (fun x inX y edge => inside y (h.closed x inX y edge))
    (inside root (h.roots root member))

section Termination

variable [DecidableEq α]

/-- What elements of a finite support that are not done can still queue. -/
def pending (weight : α → Nat) (support : Finset α) (finished : List α) : Nat :=
  ∑ a ∈ support.filter (· ∉ finished), weight a

theorem pending_finish (weight : α → Nat) {support : Finset α} (finite : ∀ a, a ∉ support → weight a = 0)
    (fresh : a ∉ finished) :
    pending weight support finished = weight a + pending weight support (finished ++ [a]) := by
  by_cases inside : a ∈ support
  · have split : support.filter (· ∉ finished) = insert a (support.filter (· ∉ finished ++ [a])) := by
      ext b
      by_cases same : b = a
      · simp [same,inside,fresh]
      · simp [same]
    rw [pending,split,Finset.sum_insert (by simp),pending]
  · have same : support.filter (· ∉ finished) = support.filter (· ∉ finished ++ [a]) := by
      ext b
      by_cases same : b = a
      · simp [same,inside]
      · simp [same]
    rw [pending,same,pending,finite a inside]
    simp

end Termination

end JkBuild.Worklist
