import Mathlib.Data.List.Basic

/-! What a linker takes out of archives: members that define what is undefined so far, from one
group of archives after the other. -/
namespace JkBuild.StaticLinking

universe u

variable {σ : Type u}

structure Object (σ : Type u) where
  defines : List σ
  needs : List σ
  deriving DecidableEq, Repr

/-- A symbol that is needed and not defined by what is loaded. -/
def Undefined (loaded : List (Object σ)) (symbol : σ) : Prop :=
  (∃ o ∈ loaded, symbol ∈ o.needs) ∧ ∀ o ∈ loaded, symbol ∉ o.defines

/-- Members of a group are loaded until none defines an undefined symbol. Which one comes next
is left open. -/
inductive Scan (members : List (Object σ)) : List (Object σ) → List (Object σ) → Prop
  | stop (useless : ∀ o ∈ members, ∀ symbol ∈ o.defines, ¬Undefined loaded symbol) : Scan members loaded loaded
  | load (member : o ∈ members) (defines : symbol ∈ o.defines) (undefined : Undefined loaded symbol)
      (rest : Scan members (o :: loaded) loaded') : Scan members loaded loaded'

/-- One group after the other: what an earlier group could define is not looked for again. -/
inductive Pass : List (List (Object σ)) → List (Object σ) → List (Object σ) → Prop
  | nil : Pass [] loaded loaded
  | cons (first : Scan members loaded middle) (rest : Pass groups middle loaded') :
      Pass (members :: groups) loaded loaded'

def Provided (groups : List (List (Object σ))) (symbol : σ) : Prop :=
  ∃ members ∈ groups, ∃ o ∈ members, symbol ∈ o.defines

/-- What a group needs is given, or defined in it or behind it. -/
def Forward (given : σ → Prop) (groups : List (List (Object σ))) : Prop :=
  ∀ before members after, groups = before ++ members :: after →
    ∀ o ∈ members, ∀ symbol ∈ o.needs, given symbol ∨ Provided (members :: after) symbol

theorem Forward.tail {given : σ → Prop} (forward : Forward given (members :: groups)) : Forward given groups :=
  fun before own after split => forward (members :: before) own after (by rw [split,List.cons_append])

section Scan

variable {members loaded loaded' : List (Object σ)}

theorem Scan.subset (scan : Scan members loaded loaded') : loaded ⊆ loaded' := by
  induction scan with
  | stop => exact List.Subset.refl _
  | load _ _ _ _ ih => exact List.Subset.trans (List.subset_cons_self _ _) ih

theorem Scan.useless (scan : Scan members loaded loaded') :
    ∀ o ∈ members, ∀ symbol ∈ o.defines, ¬Undefined loaded' symbol := by
  induction scan with
  | stop useless => exact useless
  | load _ _ _ _ ih => exact ih

theorem Scan.undefined (scan : Scan members loaded loaded') (undefined : Undefined loaded' symbol) :
    Undefined loaded symbol ∨ ∃ o ∈ members, symbol ∈ o.needs := by
  induction scan with
  | stop => exact .inl undefined
  | load member _ _ _ ih =>
    rcases ih undefined with ⟨⟨o,inside,needs⟩,missing⟩ | inMembers
    · have before := (List.forall_mem_cons.mp missing).2
      rcases List.mem_cons.mp inside with rfl | old
      · exact .inr ⟨o,member,needs⟩
      · exact .inl ⟨⟨o,old,needs⟩,before⟩
    · exact .inr inMembers

/-- Each load leaves fewer members to be loaded. -/
theorem scan_exists (members loaded : List (Object σ)) : ∃ loaded', Scan members loaded loaded' := by
  classical
  induction left : (members.filter (· ∉ loaded)).length using Nat.strongRecOn generalizing loaded with
  | _ k ih =>
    by_cases useful : ∃ o ∈ members, ∃ symbol ∈ o.defines, Undefined loaded symbol
    · obtain ⟨o,member,symbol,defines,undefined⟩ := useful
      have fresh : o ∉ loaded := fun old => undefined.2 o old defines
      have split : members.filter (· ∉ o :: loaded) = (members.filter (· ∉ loaded)).filter (· ≠ o) := by
        rw [List.filter_filter]
        refine List.filter_congr fun o' _ => ?_
        simp
      have fewer : (members.filter (· ∉ o :: loaded)).length < k := by
        rw [split,← left]
        exact List.length_filter_lt_length_iff_exists.mpr ⟨o,List.mem_filter.mpr ⟨member,by simpa using fresh⟩,by simp⟩
      obtain ⟨loaded',scan⟩ := ih _ fewer (o :: loaded) rfl
      exact ⟨loaded',.load member defines undefined scan⟩
    · refine ⟨loaded,.stop fun o member symbol defines undefined => useful ⟨o,member,symbol,defines,undefined⟩⟩

end Scan

section Pass

variable {groups : List (List (Object σ))} {loaded loaded' : List (Object σ)} {given : σ → Prop}

theorem Pass.subset (pass : Pass groups loaded loaded') : loaded ⊆ loaded' := by
  induction pass with
  | nil => exact List.Subset.refl _
  | cons first _ ih => exact List.Subset.trans first.subset ih

theorem pass_exists (groups : List (List (Object σ))) (loaded : List (Object σ)) : ∃ loaded', Pass groups loaded loaded' := by
  induction groups generalizing loaded with
  | nil => exact ⟨loaded,.nil⟩
  | cons members groups ih =>
    obtain ⟨middle,first⟩ := scan_exists members loaded
    obtain ⟨loaded',rest⟩ := ih middle
    exact ⟨loaded',.cons first rest⟩

/-- Behind each group, what is undefined is given or still to come. -/
theorem Pass.resolves (pass : Pass groups loaded loaded') (forward : Forward given groups)
    (start : ∀ symbol, Undefined loaded symbol → given symbol ∨ Provided groups symbol) :
    ∀ symbol, Undefined loaded' symbol → given symbol := by
  induction pass with
  | nil =>
    intro symbol undefined
    exact (start symbol undefined).resolve_right fun ⟨_,inside,_⟩ => absurd inside List.not_mem_nil
  | cons first _ ih =>
    refine ih forward.tail fun symbol undefined => ?_
    have source := (first.undefined undefined).elim (start symbol) fun ⟨o,member,needs⟩ =>
      forward [] _ _ rfl o member symbol needs
    rcases source with outside | ⟨members,inside,o,member,defines⟩
    · exact .inl outside
    · rcases List.mem_cons.mp inside with rfl | later
      · exact absurd undefined (first.useless o member symbol defines)
      · exact .inr ⟨members,later,o,member,defines⟩

end Pass

end JkBuild.StaticLinking
