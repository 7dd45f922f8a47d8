import JkBuild.Reachability

/-! Components numbered in the order they are emitted, together with the owner last
recorded for each element. A sound emission keeps every successor of a member inside
the component or in one emitted before; a fresh emission moreover emits a strongly
connected set of elements that nobody owned. -/
namespace JkBuild.ComponentLog

open Reachability

universe u

variable {α : Type u}

structure Component (α : Type u) where
  members : List α
  deps : List Nat

structure Log (α : Type u) where
  comps : List (Component α)
  owner : α → Option Nat

def Log.empty : Log α := ⟨[],fun _ => none⟩

def Log.comp (log : Log α) (i : Nat) : Option (Component α) := log.comps[i]?

/-- Direct dependencies of a component index; an index out of range has none. -/
def Log.deps (log : Log α) (i : Nat) : List Nat :=
  match log.comp i with
  | some c => c.deps
  | none => []

theorem Log.comp_lt {log : Log α} (at_i : log.comp i = some c) : i < log.comps.length :=
  (List.getElem?_eq_some_iff.mp at_i).1

theorem Log.deps_of {log : Log α} (at_i : log.comp i = some c) : log.deps i = c.deps := by
  simp [Log.deps,at_i]

def Log.emit [DecidableEq α] (log : Log α) (members : List α) (deps : List Nat) : Log α :=
  ⟨log.comps ++ [⟨members,deps⟩],
    fun a => if a ∈ members then some log.comps.length else log.owner a⟩

/-- The admissible emissions. Dependencies are read after the members were given
their new owner, so they are the owners of the successors outside. -/
structure Emits (next : α → List α) (log : Log α) (members : List α) (deps : List Nat) : Prop where
  covered : ∀ a ∈ members, ∀ b ∈ next a, b ∈ members ∨ ∃ i, log.owner b = some i
  deps_iff : ∀ i, i ∈ deps ↔ ∃ a ∈ members, ∃ b ∈ next a, b ∉ members ∧ log.owner b = some i
  deps_nodup : deps.Nodup

structure FreshEmits (next : α → List α) (log : Log α) (members : List α) (deps : List Nat) : Prop
    extends Emits next log members deps where
  nodup : members.Nodup
  unowned : ∀ a ∈ members, log.owner a = none
  connected : ∀ a ∈ members, ∀ b ∈ members, Mutual next a b

structure Sound (next : α → List α) (log : Log α) : Prop where
  owned : ∀ a i, log.owner a = some i → ∃ c, log.comp i = some c ∧ a ∈ c.members
  known : ∀ i c a, log.comp i = some c → a ∈ c.members → ∃ j, log.owner a = some j
  backward : ∀ i c, log.comp i = some c → ∀ j ∈ c.deps, j < i
  covered : ∀ i c, log.comp i = some c → ∀ a ∈ c.members, ∀ b ∈ next a,
    b ∈ c.members ∨ ∃ j ∈ c.deps, ∃ c', log.comp j = some c' ∧ b ∈ c'.members

/-- What holds when every emission was fresh. -/
structure Exact (next : α → List α) (log : Log α) : Prop extends Sound next log where
  owner_iff : ∀ i c, log.comp i = some c → ∀ a, a ∈ c.members ↔ log.owner a = some i
  nodup : ∀ i c, log.comp i = some c → c.members.Nodup ∧ c.deps.Nodup
  connected : ∀ i c, log.comp i = some c → ∀ a ∈ c.members, ∀ b, b ∈ c.members ↔ Mutual next a b
  deps_iff : ∀ i c, log.comp i = some c → ∀ j, j ∈ c.deps ↔ j ≠ i ∧
    ∃ a ∈ c.members, ∃ b ∈ next a, ∃ c', log.comp j = some c' ∧ b ∈ c'.members

theorem empty_exact (next : α → List α) : Exact next Log.empty := by
  constructor <;> first | (constructor <;> simp [Log.comp,Log.empty]) | simp [Log.comp,Log.empty]

theorem Sound.owner_lt {next : α → List α} {log : Log α} (sound : Sound next log)
    (own : log.owner a = some i) : i < log.comps.length := by
  obtain ⟨c,at_i,-⟩ := sound.owned a i own
  exact Log.comp_lt at_i

theorem Sound.owned_next {next : α → List α} {log : Log α} (sound : Sound next log)
    (own : log.owner a = some i) (edge : b ∈ next a) : ∃ j, log.owner b = some j := by
  obtain ⟨c,at_i,member⟩ := sound.owned a i own
  rcases sound.covered i c at_i a member b edge with inside | ⟨j,-,c',at_j,outside⟩
  · exact sound.known i c b at_i inside
  · exact sound.known j c' b at_j outside

theorem Sound.owned_reaches {next : α → List α} {log : Log α} (sound : Sound next log)
    (own : ∃ i, log.owner a = some i) (path : Reaches next a b) : ∃ j, log.owner b = some j :=
  path.closed (fun x => ∃ i, log.owner x = some i) (fun _ ⟨_,h⟩ _ edge => sound.owned_next h edge) own

/-- Reachability between elements is matched by reachability between components. -/
theorem Sound.reaches {next : α → List α} {log : Log α} (sound : Sound next log)
    (at_i : log.comp i = some c) (member : a ∈ c.members) (path : Reaches next a b) :
    ∃ j c', Reaches log.deps i j ∧ log.comp j = some c' ∧ b ∈ c'.members := by
  induction path with
  | refl => exact ⟨i,c,.refl _ _,at_i,member⟩
  | tail _ edge ih =>
    obtain ⟨j,c',walk,at_j,inside⟩ := ih
    rcases sound.covered j c' at_j _ inside _ edge with same | ⟨k,dep,c'',at_k,outside⟩
    · exact ⟨j,c',walk,at_j,same⟩
    · exact ⟨k,c'',walk.tail (by rw [Log.deps_of at_j]; exact dep),at_k,outside⟩

theorem Sound.deps_lt {next : α → List α} {log : Log α} (sound : Sound next log)
    (dep : j ∈ log.deps i) : j < i := by
  unfold Log.deps at dep
  split at dep
  · next c at_i => exact sound.backward i c at_i j dep
  · simp at dep

theorem Sound.deps_reaches_le {next : α → List α} {log : Log α} (sound : Sound next log)
    (path : Reaches log.deps i j) : j ≤ i := by
  induction path with
  | refl => exact Nat.le_refl i
  | tail _ edge ih => exact Nat.le_trans (Nat.le_of_lt (sound.deps_lt edge)) ih

theorem FreshEmits.disjoint {next : α → List α} {log : Log α} (distinct : Exact next log)
    (fresh : FreshEmits next log members deps)
    (at_i : log.comp i = some c) (inside : a ∈ c.members) : a ∉ members := by
  intro member
  have own := (distinct.owner_iff i c at_i a).mp inside
  rw [fresh.unowned a member] at own
  contradiction

/-- Nothing outside a fresh emission is strongly connected to a member of it: a path
out of the members only meets owned elements, and these never lead back. -/
theorem FreshEmits.maximal {next : α → List α} {log : Log α} (distinct : Exact next log)
    (fresh : FreshEmits next log members deps)
    (member : a ∈ members) (both : Mutual next a b) : b ∈ members := by
  have stay : b ∈ members ∨ ∃ i, log.owner b = some i := by
    refine both.1.closed (fun x => x ∈ members ∨ ∃ i, log.owner x = some i) ?_ (.inl member)
    rintro x (inside | ⟨i,own⟩) y edge
    · exact fresh.covered x inside y edge
    · exact .inr (distinct.owned_next own edge)
  refine stay.resolve_right fun own => ?_
  obtain ⟨i,back⟩ := distinct.owned_reaches own both.2
  rw [fresh.unowned a member] at back
  contradiction

section Emission

variable [DecidableEq α] {next : α → List α} {log : Log α} {members : List α} {deps : List Nat}

theorem emit_old (at_i : log.comp i = some c) : (log.emit members deps).comp i = some c := by
  simpa [Log.comp,Log.emit,List.getElem?_append_left (Log.comp_lt at_i)] using at_i

theorem emit_last : (log.emit members deps).comp log.comps.length = some ⟨members,deps⟩ := by
  simp [Log.comp,Log.emit]

theorem emit_cases (at_i : (log.emit members deps).comp i = some c) :
    log.comp i = some c ∨ (i = log.comps.length ∧ c = ⟨members,deps⟩) := by
  rcases Nat.lt_trichotomy i log.comps.length with low | rfl | high
  · left
    simpa [Log.comp,Log.emit,List.getElem?_append_left low] using at_i
  · right
    rw [emit_last] at at_i
    exact ⟨rfl,(Option.some.inj at_i).symm⟩
  · have bound := Log.comp_lt at_i
    simp only [Log.emit,List.length_append,List.length_singleton] at bound
    omega

theorem emit_owner_member (member : a ∈ members) :
    (log.emit members deps).owner a = some log.comps.length := by
  simp [Log.emit,member]

theorem emit_owner_other (other : a ∉ members) :
    (log.emit members deps).owner a = log.owner a := by
  simp [Log.emit,other]

theorem emit_known (own : ∃ i, log.owner a = some i) :
    ∃ i, (log.emit members deps).owner a = some i := by
  by_cases member : a ∈ members
  · exact ⟨_,emit_owner_member member⟩
  · rw [emit_owner_other member]
    exact own

/-- A sound emission keeps the log sound, whether or not its members were owned. -/
theorem emit_sound (sound : Sound next log) (emits : Emits next log members deps) :
    Sound next (log.emit members deps) where
  owned := by
    intro a i own
    by_cases member : a ∈ members
    · rw [emit_owner_member member] at own
      obtain rfl := Option.some.inj own
      exact ⟨_,emit_last,member⟩
    · rw [emit_owner_other member] at own
      obtain ⟨c,at_i,inside⟩ := sound.owned a i own
      exact ⟨c,emit_old at_i,inside⟩
  known := by
    intro i c a at_i member
    rcases emit_cases at_i with old | ⟨rfl,rfl⟩
    · exact emit_known (sound.known i c a old member)
    · exact ⟨_,emit_owner_member member⟩
  backward := by
    intro i c at_i j dep
    rcases emit_cases at_i with old | ⟨rfl,rfl⟩
    · exact sound.backward i c old j dep
    · obtain ⟨_,_,_,_,_,own⟩ := (emits.deps_iff j).mp dep
      exact sound.owner_lt own
  covered := by
    intro i c at_i a member b edge
    rcases emit_cases at_i with old | ⟨rfl,rfl⟩
    · rcases sound.covered i c old a member b edge with same | ⟨j,dep,c',at_j,inside⟩
      · exact .inl same
      · exact .inr ⟨j,dep,c',emit_old at_j,inside⟩
    · by_cases same : b ∈ members
      · exact .inl same
      · obtain ⟨j,own⟩ := (emits.covered a member b edge).resolve_left same
        obtain ⟨c',at_j,inside⟩ := sound.owned b j own
        exact .inr ⟨j,(emits.deps_iff j).mpr ⟨a,member,b,edge,same,own⟩,c',emit_old at_j,inside⟩

theorem emit_exact (distinct : Exact next log) (fresh : FreshEmits next log members deps) :
    Exact next (log.emit members deps) where
  toSound := emit_sound distinct.toSound fresh.toEmits
  owner_iff := by
    intro i c at_i a
    rcases emit_cases at_i with old | ⟨rfl,rfl⟩
    · by_cases member : a ∈ members
      · have outside : a ∉ c.members := fun inside => fresh.disjoint distinct old inside member
        have bound := Log.comp_lt old
        simp only [outside,false_iff,emit_owner_member member,Option.some.injEq]
        omega
      · rw [emit_owner_other member]
        exact distinct.owner_iff i c old a
    · constructor
      · exact emit_owner_member
      · intro own
        by_contra outside
        rw [emit_owner_other outside] at own
        exact Nat.lt_irrefl _ (distinct.owner_lt own)
  nodup := by
    intro i c at_i
    rcases emit_cases at_i with old | ⟨rfl,rfl⟩
    · exact distinct.nodup i c old
    · exact ⟨fresh.nodup,fresh.deps_nodup⟩
  connected := by
    intro i c at_i a member b
    rcases emit_cases at_i with old | ⟨rfl,rfl⟩
    · exact distinct.connected i c old a member b
    · exact ⟨fresh.connected a member b,fresh.maximal distinct member⟩
  deps_iff := by
    intro i c at_i j
    rcases emit_cases at_i with old | ⟨rfl,rfl⟩
    · rw [distinct.deps_iff i c old j]
      constructor
      · rintro ⟨ne,a,member,b,edge,c',at_j,inside⟩
        exact ⟨ne,a,member,b,edge,c',emit_old at_j,inside⟩
      · rintro ⟨ne,a,member,b,edge,c',at_j,inside⟩
        refine ⟨ne,a,member,b,edge,c',?_,inside⟩
        -- `b` follows an owned element, so its component cannot be the new one.
        rcases emit_cases at_j with before | ⟨rfl,rfl⟩
        · exact before
        · obtain ⟨k,own⟩ := distinct.owned_next ((distinct.owner_iff i c old a).mp member) edge
          rw [fresh.unowned b inside] at own
          contradiction
    · rw [fresh.deps_iff j]
      constructor
      · rintro ⟨a,member,b,edge,-,own⟩
        obtain ⟨c',at_j,inside⟩ := distinct.owned b j own
        exact ⟨Nat.ne_of_lt (distinct.owner_lt own),a,member,b,edge,c',emit_old at_j,inside⟩
      · rintro ⟨ne,a,member,b,edge,c',at_j,inside⟩
        rcases emit_cases at_j with before | ⟨rfl,-⟩
        · exact ⟨a,member,b,edge,fresh.disjoint distinct before inside,
            (distinct.owner_iff j c' before b).mp inside⟩
        · exact absurd rfl ne

end Emission

end JkBuild.ComponentLog
