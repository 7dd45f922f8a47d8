import JkBuild.Results
import Mathlib.Data.Fintype.Card
import Mathlib.Logic.Relation

/-! Reachability along successor lists, and the depth-first walk with a visited
set. The walk carries a payload which an action updates once per visited element;
the action may raise. Fuel bounds the nesting and is shown to be sufficient. -/
namespace JkBuild

namespace Reachability

universe u

variable {α σ ε : Type u}

def Edge (next : α → List α) (a b : α) : Prop := b ∈ next a

def Reaches (next : α → List α) : α → α → Prop := Relation.ReflTransGen (Edge next)

/-- Strong connection: each element reaches the other. -/
def Mutual (next : α → List α) (a b : α) : Prop := Reaches next a b ∧ Reaches next b a

theorem Reaches.refl (next : α → List α) (a : α) : Reaches next a a := Relation.ReflTransGen.refl

theorem Reaches.trans {next : α → List α} (first : Reaches next a b) (second : Reaches next b c) :
    Reaches next a c := Relation.ReflTransGen.trans first second

theorem Reaches.head {next : α → List α} (edge : b ∈ next a) (rest : Reaches next b c) :
    Reaches next a c := Relation.ReflTransGen.head edge rest

theorem Reaches.tail {next : α → List α} (rest : Reaches next a b) (edge : c ∈ next b) :
    Reaches next a c := Relation.ReflTransGen.tail rest edge

theorem Reaches.single {next : α → List α} (edge : b ∈ next a) : Reaches next a b :=
  Relation.ReflTransGen.single edge

theorem Reaches.closed {next : α → List α} (property : α → Prop)
    (step : ∀ x, property x → ∀ y ∈ next x, property y)
    (path : Reaches next a b) (start : property a) : property b := by
  induction path with
  | refl => exact start
  | tail _ edge ih => exact step _ ih _ edge

theorem Reaches.congr {next next' : α → List α} (same : ∀ a b, b ∈ next a ↔ b ∈ next' a) (path : Reaches next a b) :
    Reaches next' a b := by
  induction path with
  | refl => exact .refl next' a
  | tail _ edge ih => exact ih.tail ((same _ _).mp edge)

/-- On a directed cycle: some successor leads back. -/
def OnCycle (next : α → List α) (a : α) : Prop := ∃ b ∈ next a, Reaches next b a

/-- In a finite graph, what an element inherits from all its predecessors holds wherever no
cycle leads. By induction on the number of ancestors: outside cycles each has more of them
than its predecessors. -/
theorem acyclic_induction {next : α → List α} (nodes : Finset α) (property : α → Prop)
    (step : ∀ a ∈ nodes, (∀ p ∈ nodes, a ∈ next p → property p) → property a) (a : α) (member : a ∈ nodes)
    (clear : ∀ c ∈ nodes, OnCycle next c → ¬Reaches next c a) : property a := by
  classical
  let ancestors (a : α) := nodes.filter (Reaches next · a)
  induction count : (ancestors a).card using Nat.strong_induction_on generalizing a with
  | _ k ih =>
    refine step a member fun p inNodes edge => ?_
    have fewer : ancestors p ⊂ ancestors a := by
      refine Finset.ssubset_iff_of_subset (fun c inAncestors => ?_) |>.mpr ⟨a,?_,fun back => ?_⟩
      · obtain ⟨inNodes,path⟩ := Finset.mem_filter.mp inAncestors
        exact Finset.mem_filter.mpr ⟨inNodes,path.tail edge⟩
      · exact Finset.mem_filter.mpr ⟨member,.refl next a⟩
      · exact clear p inNodes ⟨a,edge,(Finset.mem_filter.mp back).2⟩ (.single edge)
    have less : (ancestors p).card < k := by
      rw [← count]
      exact Finset.card_lt_card fewer
    exact ih _ less p inNodes (fun c inNodes cycle path => clear c inNodes cycle (path.tail edge)) rfl

/-- Why a walk stops early: the fuel ran out, or the action raised. -/
inductive Stop (ε : Type u) where
  | exhausted
  | raised (error : ε)

/-- What a finished walk from `roots` did to the visited list and the payload. -/
structure Walked (next : α → List α) (act : α → σ → Except ε σ) (roots : List α)
    (before after : List α × σ) (new : List α) : Prop where
  seen : after.1 = before.1 ++ new
  covered : ∀ a ∈ roots, a ∈ after.1
  nodup : new.Nodup
  fresh : ∀ a ∈ new, a ∉ before.1
  origin : ∀ a ∈ new, ∃ root ∈ roots, Reaches next root a
  closed : ∀ a ∈ new, ∀ b ∈ next a, b ∈ after.1
  payload : new.foldlM (fun s a => act a s) before.2 = .ok after.2

theorem Walked.nil (next : α → List α) (act : α → σ → Except ε σ) (st : List α × σ) :
    Walked next act [] st st [] := by
  constructor <;> simp [pure,Except.pure]

theorem Walked.append {next : α → List α} {act : α → σ → Except ε σ} {st₁ st₂ st₃ : List α × σ}
    (first : Walked next act xs st₁ st₂ new₁) (second : Walked next act ys st₂ st₃ new₂) :
    Walked next act (xs ++ ys) st₁ st₃ (new₁ ++ new₂) where
  seen := by rw [second.seen,first.seen,List.append_assoc]
  covered := by
    intro a member
    rcases List.mem_append.mp member with member | member
    · rw [second.seen]
      exact List.mem_append_left _ (first.covered a member)
    · exact second.covered a member
  nodup := by
    refine List.nodup_append.mpr ⟨first.nodup,second.nodup,?_⟩
    rintro a inFirst b inSecond rfl
    exact second.fresh a inSecond (by rw [first.seen]; exact List.mem_append_right _ inFirst)
  fresh := by
    intro a member
    rcases List.mem_append.mp member with member | member
    · exact first.fresh a member
    · intro old
      exact second.fresh a member (by rw [first.seen]; exact List.mem_append_left _ old)
  origin := by
    intro a member
    rcases List.mem_append.mp member with member | member
    · obtain ⟨root,inXs,path⟩ := first.origin a member
      exact ⟨root,List.mem_append_left _ inXs,path⟩
    · obtain ⟨root,inYs,path⟩ := second.origin a member
      exact ⟨root,List.mem_append_right _ inYs,path⟩
  closed := by
    intro a member b edge
    rcases List.mem_append.mp member with member | member
    · rw [second.seen]
      exact List.mem_append_left _ (first.closed a member b edge)
    · exact second.closed a member b edge
  payload := by
    rw [List.foldlM_append,first.payload]
    exact second.payload

/-- Recording `a` and then walking its successors is a walk from `a`. -/
theorem Walked.enter {next : α → List α} {act : α → σ → Except ε σ} {seen : List α} {s s' : σ}
    {after : List α × σ} (unseen : a ∉ seen) (acted : act a s = .ok s')
    (rest : Walked next act (next a) (seen ++ [a],s') after new) :
    Walked next act [a] (seen,s) after (a :: new) where
  seen := by rw [rest.seen]; simp
  covered := by
    intro b member
    rw [List.mem_singleton.mp member,rest.seen]
    simp
  nodup := by
    refine List.nodup_cons.mpr ⟨fun member => ?_,rest.nodup⟩
    exact rest.fresh a member (by simp)
  fresh := by
    intro b member
    rcases List.mem_cons.mp member with rfl | member
    · exact unseen
    · exact fun old => rest.fresh b member (List.mem_append_left _ old)
  origin := by
    intro b member
    refine ⟨a,by simp,?_⟩
    rcases List.mem_cons.mp member with rfl | member
    · exact .refl next b
    · obtain ⟨root,edge,path⟩ := rest.origin b member
      exact .head edge path
  closed := by
    intro b member c edge
    rcases List.mem_cons.mp member with rfl | member
    · exact rest.covered c edge
    · exact rest.closed b member c edge
  payload := by
    rw [List.foldlM_cons,acted]
    exact rest.payload

variable [DecidableEq α]

/-- The recursion of a visited-set search: skip what is seen, otherwise record it,
act on it, and walk its successors in order. -/
def visit (next : α → List α) (act : α → σ → Except ε σ) :
    Nat → α → List α × σ → Except (Stop ε) (List α × σ)
  | 0, _, _ => .error .exhausted
  | fuel + 1, a, (seen,s) =>
    if a ∈ seen then .ok (seen,s) else
      match act a s with
      | .error e => .error (.raised e)
      | .ok s => (next a).foldlM (fun st b => visit next act fuel b st) (seen ++ [a],s)

def visitAll (next : α → List α) (act : α → σ → Except ε σ) (fuel : Nat) (roots : List α)
    (st : List α × σ) : Except (Stop ε) (List α × σ) :=
  roots.foldlM (fun st a => visit next act fuel a st) st

theorem visitAll_walked_of (next : α → List α) (act : α → σ → Except ε σ) (fuel : Nat)
    (one : ∀ a st st', visit next act fuel a st = .ok st' → ∃ new, Walked next act [a] st st' new)
    (roots : List α) (st st' : List α × σ) (done : visitAll next act fuel roots st = .ok st') :
    ∃ new, Walked next act roots st st' new := by
  induction roots generalizing st with
  | nil =>
    cases done
    exact ⟨[],.nil ..⟩
  | cons a roots ih =>
    simp only [visitAll,List.foldlM_cons] at done
    cases first : visit next act fuel a st with
    | error e => rw [first] at done; contradiction
    | ok middle =>
      rw [first] at done
      obtain ⟨new₁,walked₁⟩ := one a st middle first
      obtain ⟨new₂,walked₂⟩ := ih middle done
      exact ⟨new₁ ++ new₂,walked₁.append walked₂⟩

theorem visit_walked (next : α → List α) (act : α → σ → Except ε σ) (fuel : Nat) (a : α)
    (st st' : List α × σ) (done : visit next act fuel a st = .ok st') :
    ∃ new, Walked next act [a] st st' new := by
  induction fuel generalizing a st st' with
  | zero => simp [visit] at done
  | succ fuel ih =>
    obtain ⟨seen,s⟩ := st
    simp only [visit] at done
    split at done
    · next member =>
      cases done
      refine ⟨[],⟨by simp,by simpa using member,by simp,by simp,by simp,by simp,?_⟩⟩
      simp [pure,Except.pure]
    · next unseen =>
      cases acted : act a s with
      | error e => rw [acted] at done; contradiction
      | ok s' =>
        rw [acted] at done
        obtain ⟨new,rest⟩ := visitAll_walked_of next act fuel ih (next a) _ st' done
        exact ⟨a :: new,rest.enter unseen acted⟩

theorem visitAll_walked (next : α → List α) (act : α → σ → Except ε σ) (fuel : Nat)
    (roots : List α) (st st' : List α × σ) (done : visitAll next act fuel roots st = .ok st') :
    ∃ new, Walked next act roots st st' new :=
  visitAll_walked_of next act fuel (visit_walked next act fuel) roots st st' done

/-- From an empty visited list a finished walk has seen exactly what is reachable,
each element once, and has acted on the elements in the order they were seen. -/
theorem visitAll_complete {next : α → List α} {act : α → σ → Except ε σ} {fuel : Nat}
    {roots seen : List α} {s s' : σ} (done : visitAll next act fuel roots ([],s) = .ok (seen,s')) :
    seen.Nodup ∧ (∀ a, a ∈ seen ↔ ∃ root ∈ roots, Reaches next root a) ∧
      seen.foldlM (fun s a => act a s) s = .ok s' := by
  obtain ⟨new,walked⟩ := visitAll_walked next act fuel roots _ _ done
  have all : seen = new := by simpa using walked.seen
  subst all
  refine ⟨walked.nodup,fun a => ⟨walked.origin a,?_⟩,walked.payload⟩
  rintro ⟨root,member,path⟩
  exact path.closed (· ∈ seen) (fun x seenX y edge => walked.closed x seenX y edge)
    (walked.covered root member)

section Fuel

variable [Fintype α]

def unseen (seen : List α) : Nat := (Finset.univ.filter (· ∉ seen)).card

theorem unseen_append_le (seen new : List α) : unseen (seen ++ new) ≤ unseen seen := by
  refine Finset.card_le_card fun a member => ?_
  simp only [List.mem_append,not_or,Finset.mem_filter,Finset.mem_univ,true_and] at member ⊢
  exact member.1

theorem unseen_snoc_lt (seen : List α) (fresh : a ∉ seen) : unseen (seen ++ [a]) < unseen seen := by
  refine Finset.card_lt_card (Finset.ssubset_iff_of_subset ?_ |>.mpr ⟨a,by simpa using fresh,by simp⟩)
  intro b member
  simp only [List.mem_append,not_or,Finset.mem_filter,Finset.mem_univ,true_and] at member ⊢
  exact member.1

theorem unseen_le_card (seen : List α) : unseen seen ≤ Fintype.card α := by
  simpa [unseen] using Finset.card_filter_le (Finset.univ : Finset α) (· ∉ seen)

/-- How a walk with enough fuel ends: it finishes, or the action raised on an
element reachable from the roots. -/
def Ends (next : α → List α) (act : α → σ → Except ε σ) (roots : List α)
    (result : Except (Stop ε) (List α × σ)) : Prop :=
  (∃ st, result = .ok st) ∨ ∃ e a s, result = .error (.raised e) ∧
    (∃ root ∈ roots, Reaches next root a) ∧ act a s = .error e

theorem visitAll_ends_of (next : α → List α) (act : α → σ → Except ε σ) (fuel : Nat)
    (one : ∀ a st, unseen st.1 < fuel → Ends next act [a] (visit next act fuel a st))
    (roots : List α) (st : List α × σ) (enough : unseen st.1 < fuel) :
    Ends next act roots (visitAll next act fuel roots st) := by
  induction roots generalizing st with
  | nil => exact .inl ⟨st,rfl⟩
  | cons a roots ih =>
    simp only [visitAll,List.foldlM_cons]
    rcases one a st enough with ⟨middle,ok⟩ | ⟨e,b,s,raised,⟨root,member,path⟩,acted⟩
    · rw [ok]
      obtain ⟨new,walked⟩ := visit_walked next act fuel a st middle ok
      have bound : unseen middle.1 < fuel := by
        rw [walked.seen]
        exact Nat.lt_of_le_of_lt (unseen_append_le _ _) enough
      rcases ih middle bound with finished | ⟨e,b,s,raised,⟨root,member,path⟩,acted⟩
      · exact .inl finished
      · exact .inr ⟨e,b,s,raised,⟨root,List.mem_cons_of_mem _ member,path⟩,acted⟩
    · rw [raised]
      rw [List.mem_singleton.mp member] at path
      exact .inr ⟨e,b,s,rfl,⟨a,by simp,path⟩,acted⟩

theorem visit_ends (next : α → List α) (act : α → σ → Except ε σ) (fuel : Nat) (a : α)
    (st : List α × σ) (enough : unseen st.1 < fuel) :
    Ends next act [a] (visit next act fuel a st) := by
  induction fuel generalizing a st with
  | zero => omega
  | succ fuel ih =>
    obtain ⟨seen,s⟩ := st
    simp only [visit]
    split
    · exact .inl ⟨_,rfl⟩
    · next fresh =>
      cases acted : act a s with
      | error e => exact .inr ⟨e,a,s,rfl,⟨a,by simp,.refl next a⟩,acted⟩
      | ok s' =>
        have smaller := unseen_snoc_lt seen fresh
        rcases visitAll_ends_of next act fuel ih (next a) (seen ++ [a],s') (by simp at enough ⊢; omega) with
          finished | ⟨e,b,s,raised,⟨root,edge,path⟩,acted⟩
        · exact .inl finished
        · exact .inr ⟨e,b,s,raised,⟨a,by simp,.head edge path⟩,acted⟩

theorem visitAll_ends (next : α → List α) (act : α → σ → Except ε σ) (roots : List α)
    (st : List α × σ) :
    Ends next act roots (visitAll next act (Fintype.card α + 1) roots st) :=
  visitAll_ends_of next act _ (visit_ends next act _) roots st
    (Nat.lt_succ_of_le (unseen_le_card _))

theorem visitAll_total (next : α → List α) (act : α → σ → Except ε σ) (roots : List α)
    (st : List α × σ) (total : ∀ root ∈ roots, ∀ a, Reaches next root a → ∀ s, ∃ s', act a s = .ok s') :
    ∃ st', visitAll next act (Fintype.card α + 1) roots st = .ok st' := by
  rcases visitAll_ends next act roots st with finished | ⟨e,a,s,-,⟨root,member,path⟩,acted⟩
  · exact finished
  · obtain ⟨s',ok⟩ := total root member a path s
    rw [ok] at acted
    contradiction

end Fuel

end Reachability

end JkBuild
