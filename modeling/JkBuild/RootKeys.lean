import JkBuild.BuildKeys
import JkBuild.RootMakefile

/-! What make reads in the root makefile when it is asked for a build type: the targets of the
rules, what all of them wait for, and the mark behind that. -/
namespace JkBuild.RootMakefile

open Reachability MakeRuns Tarjan

/-- A target as make reads it. -/
def Target.read (t : Target) : BuildMakefile.Target := ⟨t.name,t.deps.map .file,t.cmds,t.phony⟩

/-- What the names of the makefile are for. The first kind is never asked for by a build type. -/
inductive Kind where
  | other
  | mark
  | pre
  | buildType
  | rule
  deriving DecidableEq, Repr

namespace Kind

def all : List Kind := [other,mark,pre,buildType,rule]

def names (session : Session) (rules : Fin n → Rule) (emitted : List (Fin n)) : Kind → List String
  | other => [defaultTarget,"all","jk_force","external","clean","test"] ++ session.buildTypes.map asciiStrToLower ++
      emitted.dedup.flatMap fun r => ["clean","test"].map (sub (rules r).workingFolder)
  | mark => [regenTarget session]
  | pre => ["pre"]
  | buildType => session.buildTypes
  | rule => emitted.dedup.flatMap fun r => ownTargets session (rules r)

end Kind

/-- The names of the targets, each once: a rule that is emitted twice has the same targets twice. -/
def names (session : Session) (rules : Fin n → Rule) (emitted : List (Fin n)) : List String :=
  Kind.all.flatMap (Kind.names session rules emitted)

/-- The target other rules name. -/
def ruleTarget (session : Session) (rules : Fin n → Rule) (g : Graph n) (r : Fin n) (numbers : List Nat)
    (buildType : String) : Target :=
  if (rules r).type.isCC then ccTarget session rules g r numbers buildType
  else simpleTarget session (rules r) numbers ((g r).map fun d => (rules d).fullQualifiedName ++ "/build")

/-- What its recipe asks the makefile of the rule for. -/
def goal (rule : Rule) (buildType : String) : String := if rule.type.isCC then buildType else "build"

section Targets

variable {session : Session} {rules : Fin n → Rule} {g : Graph n} {emitted : List (Fin n)}

theorem kind_unique (distinct : (names session rules emitted).Nodup) (own : name ∈ Kind.names session rules emitted k)
    (other : name ∈ Kind.names session rules emitted k') : k = k' := by
  have listed (k : Kind) : k ∈ Kind.all := by cases k <;> simp [Kind.all]
  by_contra apart
  have symmetric : Std.Symm (Function.onFun List.Disjoint (Kind.names session rules emitted)) :=
    ⟨fun _ _ disjoint => disjoint.symm⟩
  exact (List.nodup_flatMap.mp distinct).2.forall (listed k) (listed k') apart own other

theorem ruleTarget_name (session : Session) (rules : Fin n → Rule) (g : Graph n) (r : Fin n) (numbers : List Nat)
    (buildType : String) : (ruleTarget session rules g r numbers buildType).name = targetName (rules r) buildType := by
  unfold ruleTarget targetName
  cases cc : (rules r).type.isCC <;> simp [ccTarget,simpleTarget,targetName,cc]

theorem ruleTarget_deps (kinds : WellKinded rules g) (r : Fin n) (numbers : List Nat) (buildType : String) :
    (ruleTarget session rules g r numbers buildType).deps = (g r).map (fun d => targetName (rules d) buildType) ++ ["pre"] := by
  unfold ruleTarget
  cases cc : (rules r).type.isCC with
  | true => simp [ccTarget]
  | false =>
    have external : (rules r).type.isExternal = true := by simpa [cc] using kinds.kind r
    have below : ∀ d ∈ g r, (rules d).fullQualifiedName ++ "/build" = targetName (rules d) buildType := by
      intro d edge
      have notCC : (rules d).type.isCC = false := by simp [kinds.kind d,kinds.external r external d edge]
      simp [targetName,notCC]
    simpa [simpleTarget] using below

theorem ruleTarget_cmds (session : Session) (rules : Fin n → Rule) (g : Graph n) (r : Fin n) (numbers : List Nat)
    (buildType : String) : ∃ printed, (ruleTarget session rules g r numbers buildType).cmds =
      [makeCommand (rules r) (goal (rules r) buildType),printed] := by
  unfold ruleTarget goal
  cases (rules r).type.isCC with
  | true => exact ⟨_,by simp only [ccTarget,if_true]; rfl⟩
  | false => exact ⟨_,by simp only [simpleTarget,Bool.false_eq_true,if_false]; rfl⟩

theorem generateTargets_targets (session : Session) (kinds : WellKinded rules g) (r : Fin n) :
    ∃ part, generateTargets session rules g r = .ok part ∧ ∃ numbers,
      (∀ buildType ∈ session.buildTypes, ruleTarget session rules g r numbers buildType ∈ part.targets) ∧
      ∀ t ∈ part.targets, t.name ∈ "external" :: ["clean","test"].map (sub (rules r).workingFolder) ∨
        ∃ buildType, ((rules r).type.isCC = true → buildType ∈ session.buildTypes) ∧
          t = ruleTarget session rules g r numbers buildType := by
  obtain ⟨numbers,merged⟩ := mergeNumbers_total rules g r
  have forwarded (condition : Bool) (target : String) (t : Target)
      (member : t ∈ if condition then [forwardTarget (rules r) target] else []) :
      t.name = sub (rules r).workingFolder target := by
    split at member
    · rw [List.mem_singleton.mp member,forwardTarget]
    · exact absurd member List.not_mem_nil
  cases cc : (rules r).type.isCC with
  | true =>
    refine ⟨_,by simp only [generateTargets,merged,cc,if_true]; rfl,numbers,?_,?_⟩
    · intro buildType inTypes
      simp only [ruleTarget,cc,if_true]
      exact List.mem_append_right _ (List.mem_map_of_mem inTypes)
    · intro t member
      simp only [List.append_assoc,List.mem_append] at member
      rcases member with clean | test | own
      · exact .inl (by simp [forwarded _ _ t clean])
      · exact .inl (by simp [forwarded _ _ t test])
      · obtain ⟨buildType,inTypes,rfl⟩ := List.mem_map.mp own
        exact .inr ⟨buildType,fun _ => inTypes,by simp only [ruleTarget,cc,if_true]⟩
  | false =>
    have external : (rules r).type.isExternal = true := by simpa [cc] using kinds.kind r
    have deps := simpleDeps_external rules (g r) (kinds.external r external)
    refine ⟨_,by simp only [generateTargets,merged,deps,cc,Bool.false_eq_true,if_false]; rfl,numbers,?_,?_⟩
    · intro buildType inTypes
      simp [ruleTarget,cc]
    · intro t member
      simp only [List.append_assoc,List.mem_append,List.mem_cons,List.not_mem_nil,or_false] at member
      rcases member with clean | test | rfl | rfl
      · exact .inl (by simp [forwarded _ _ t clean])
      · exact .inl (by simp [forwarded _ _ t test])
      · exact .inr ⟨"",by simp,by simp [ruleTarget,cc]⟩
      · exact .inl (by simp)

/-- Where a target of the makefile comes from. -/
structure Origin (session : Session) (rules : Fin n → Rule) (g : Graph n) (emitted : List (Fin n)) (t : Target)
    (k : Kind) : Prop where
  named : t.name ∈ Kind.names session rules emitted k
  mark : k = .mark → t = regen session rules emitted
  pre : k = .pre → t = preTarget session
  buildType : k = .buildType → ∃ r ∈ emitted, ∃ buildType ∈ session.buildTypes,
    t = ⟨buildType,[targetName (rules r) buildType,"pre"],[],"",true⟩
  rule : k = .rule → ∃ r ∈ emitted, ∃ numbers buildType,
    ((rules r).type.isCC = true → buildType ∈ session.buildTypes) ∧ t = ruleTarget session rules g r numbers buildType

theorem other_origin (named : t.name ∈ Kind.names session rules emitted .other) :
    ∃ k, Origin session rules g emitted t k :=
  ⟨.other,named,by simp,by simp,by simp,by simp⟩

theorem leading_origin (member : t ∈ leadingTargets session) : ∃ k, Origin session rules g emitted t k := by
  simp only [leadingTargets,commonTargets,List.cons_append,List.nil_append,List.mem_cons,List.not_mem_nil,or_false] at member
  rcases member with rfl | rfl | rfl | rfl | rfl | rfl | rfl | rfl
  case inr.inr.inr.inr.inr.inr.inl => exact ⟨.pre,by simp [Kind.names,preTarget],by simp,fun _ => rfl,by simp,by simp⟩
  all_goals exact other_origin (by simp [Kind.names])

theorem closing_origin {all : Emitted} (member : t ∈ closingTargets session all) :
    ∃ k, Origin session rules g emitted t k := by
  rcases List.mem_append.mp member with simple | last
  · obtain ⟨buildType,inTypes,rfl⟩ := List.mem_map.mp simple
    exact other_origin (by simpa [Kind.names] using .inr (.inr (.inr (.inr (.inr (.inr (.inl ⟨buildType,inTypes,rfl⟩)))))))
  · simp only [List.mem_cons,List.not_mem_nil,or_false] at last
    rcases last with rfl | rfl <;> exact other_origin (by simp [Kind.names])

theorem buildType_origin (member : t ∈ buildTypeTargets session rules emitted) :
    ∃ k, Origin session rules g emitted t k := by
  obtain ⟨r,inEmitted,own⟩ := List.mem_flatMap.mp member
  obtain ⟨buildType,inTypes,rfl⟩ := List.mem_map.mp own
  exact ⟨.buildType,inTypes,by simp,by simp,fun _ => ⟨r,inEmitted,buildType,inTypes,rfl⟩,by simp⟩

theorem targetName_served (session : Session) (rule : Rule) (served : rule.type.isCC = true → buildType ∈ session.buildTypes) :
    targetName rule buildType ∈ ownTargets session rule := by
  cases cc : rule.type.isCC with
  | true => exact targetName_own session rule (served cc)
  | false => simp [ownTargets,targetName,cc]

theorem rule_origin (inEmitted : r ∈ emitted) (numbers : List Nat)
    (served : (rules r).type.isCC = true → buildType ∈ session.buildTypes) :
    Origin session rules g emitted (ruleTarget session rules g r numbers buildType) .rule where
  named := by
    refine List.mem_flatMap.mpr ⟨r,List.mem_dedup.mpr inEmitted,?_⟩
    rw [ruleTarget_name]
    exact targetName_served session (rules r) served
  mark := by simp
  pre := by simp
  buildType := by simp
  rule _ := ⟨r,inEmitted,numbers,buildType,served,rfl⟩

theorem forall₂_members {R : α → β → Prop} (each : List.Forall₂ R xs ys) :
    (∀ x ∈ xs, ∃ y ∈ ys, R x y) ∧ ∀ y ∈ ys, ∃ x ∈ xs, R x y := by
  induction each with
  | nil => exact ⟨fun _ member => absurd member List.not_mem_nil,fun _ member => absurd member List.not_mem_nil⟩
  | cons first _ ih =>
    refine ⟨List.forall_mem_cons.mpr ⟨⟨_,List.mem_cons_self,first⟩,fun x member => ?_⟩,
      List.forall_mem_cons.mpr ⟨⟨_,List.mem_cons_self,first⟩,fun y member => ?_⟩⟩
    · obtain ⟨y,inYs,related⟩ := ih.1 x member
      exact ⟨y,List.mem_cons_of_mem _ inYs,related⟩
    · obtain ⟨x,inXs,related⟩ := ih.2 y member
      exact ⟨x,List.mem_cons_of_mem _ inXs,related⟩

/-- The targets of the root makefile for the rules it is written for. -/
structure Written (session : Session) (rules : Fin n → Rule) (g : Graph n) (emitted : List (Fin n)) (ts : List Target) :
    Prop where
  origin : ∀ t ∈ ts, ∃ k, Origin session rules g emitted t k
  mark : regen session rules emitted ∈ ts
  pre : preTarget session ∈ ts
  buildTypes : buildTypeTargets session rules emitted ⊆ ts
  rules : ∀ r ∈ emitted, ∃ numbers, ∀ buildType ∈ session.buildTypes, ruleTarget session rules g r numbers buildType ∈ ts

theorem compile_written (session : Session) (kinds : WellKinded rules g) (all : allRules sccs sccId requested = some emitted) :
    ∃ ts, compile session rules g sccs sccId requested = .ok ts ∧ Written session rules g emitted ts := by
  obtain ⟨parts,mapped,each⟩ := mapM_total emitted fun r _ => generateTargets_targets session kinds r
  refine ⟨_,by simp only [compile,all,mapped]; rfl,?_⟩
  obtain ⟨own,sources⟩ := forall₂_members each
  refine ⟨fun t member => ?_,by simp,by simp [leadingTargets],fun t member => by simp [member],fun r member => ?_⟩
  · simp only [List.mem_append,List.mem_singleton,foldl_append_targets,List.nil_append] at member
    rcases member with (((leading | rfl) | inParts) | types) | closing
    · exact leading_origin leading
    · exact ⟨.mark,by simp [Kind.names,regen],fun _ => rfl,by simp,by simp,by simp⟩
    · obtain ⟨part,inParts,inPart⟩ := List.mem_flatMap.mp inParts
      obtain ⟨r,inEmitted,-,numbers,-,cases⟩ := sources part inParts
      rcases cases t inPart with other | ⟨buildType,served,rfl⟩
      · refine other_origin ?_
        rcases List.mem_cons.mp other with external | forwarded
        · simp [Kind.names,external]
        · exact List.mem_append_right _ (List.mem_flatMap.mpr ⟨r,List.mem_dedup.mpr inEmitted,forwarded⟩)
      · exact ⟨.rule,rule_origin inEmitted numbers served⟩
    · exact buildType_origin types
    · exact closing_origin closing
  · obtain ⟨part,inParts,-,numbers,present,-⟩ := own r member
    refine ⟨numbers,fun buildType inTypes => ?_⟩
    have folded : ruleTarget session rules g r numbers buildType ∈ parts.flatMap (·.targets) :=
      List.mem_flatMap.mpr ⟨part,inParts,present buildType inTypes⟩
    simp [foldl_append_targets,folded]

end Targets

section Asked

/-- What a build type asks for. -/
inductive RootKey (n : Nat) where
  | mark
  | pre
  | rule (r : Fin n)
  | all

def RootKey.name (session : Session) (rules : Fin n → Rule) (buildType : String) : RootKey n → String
  | mark => regenTarget session
  | pre => "pre"
  | rule r => targetName (rules r) buildType
  | all => buildType

def RootKey.kind : RootKey n → Kind
  | mark => .mark
  | pre => .pre
  | rule _ => .rule
  | all => .buildType

def RootKey.inside (emitted : List (Fin n)) : RootKey n → Prop
  | rule r => r ∈ emitted
  | _ => True

/-- How many rules a rule needs, itself included. -/
noncomputable def height (g : Graph n) (r : Fin n) : Nat :=
  open Classical in (Finset.univ.filter fun v => Reaches g r v).card

noncomputable def RootKey.rank (g : Graph n) : RootKey n → Nat
  | mark => 0
  | pre => 1
  | rule r => 2 + height g r
  | all => 3 + n

theorem height_lt {g : Graph n} (edge : d ∈ g r) (clear : ¬OnCycle g r) : height g d < height g r := by
  classical
  refine Finset.card_lt_card (Finset.ssubset_iff_of_subset (fun v member => ?_) |>.mpr ⟨r,?_,fun back => ?_⟩)
  · have path : Reaches g d v := by simpa using member
    simpa using Reaches.head edge path
  · simpa using Reaches.refl g r
  · exact clear ⟨d,edge,by simpa using back⟩

theorem height_le (g : Graph n) (r : Fin n) : height g r ≤ n := by
  classical
  simpa [height] using Finset.card_filter_le (Finset.univ : Finset (Fin n)) (fun v => Reaches g r v)

/-- Rules that can be built one after the other: what they need is among them, and none
needs itself. -/
structure Buildable (rules : Fin n → Rule) (g : Graph n) (emitted : List (Fin n)) : Prop where
  kinds : WellKinded rules g
  next : ∀ r ∈ emitted, ∀ d ∈ g r, d ∈ emitted
  clear : ∀ r ∈ emitted, ¬OnCycle g r

variable {session : Session} {rules : Fin n → Rule} {g : Graph n} {emitted : List (Fin n)} {ts : List Target}

def readMakefile (ts : List Target) : Makefile String := BuildMakefile.makefile (ts.map Target.read)

theorem mem_readNames : name ∈ (readMakefile ts).names ↔ ∃ t ∈ ts, t.name = name := by
  simp [readMakefile,BuildMakefile.makefile,Target.read]

theorem mem_readPrerequisites : d ∈ (readMakefile ts).prerequisites name ↔ ∃ t ∈ ts, t.name = name ∧ d ∈ t.deps := by
  simp [readMakefile,BuildMakefile.mem_prerequisites,Target.read]

theorem key_named (rules : Fin n → Rule) (inTypes : buildType ∈ session.buildTypes) (k : RootKey n) (inside : k.inside emitted) :
    k.name session rules buildType ∈ Kind.names session rules emitted k.kind := by
  cases k with
  | mark => simp [RootKey.name,RootKey.kind,Kind.names]
  | pre => simp [RootKey.name,RootKey.kind,Kind.names]
  | rule r => exact List.mem_flatMap.mpr ⟨r,List.mem_dedup.mpr inside,targetName_own session (rules r) inTypes⟩
  | all => simpa [RootKey.name,RootKey.kind,Kind.names]

theorem rule_unique (distinct : (names session rules emitted).Nodup) (own : r ∈ emitted) (own' : r' ∈ emitted)
    (listed : name ∈ ownTargets session (rules r)) (listed' : name ∈ ownTargets session (rules r')) : r = r' := by
  have symmetric : Std.Symm (Function.onFun List.Disjoint fun r => ownTargets session (rules r)) :=
    ⟨fun _ _ disjoint => disjoint.symm⟩
  have apart := (List.nodup_flatMap.mp ((List.nodup_flatMap.mp distinct).1 .rule (by simp [Kind.all]))).2
  by_contra other
  exact apart.forall (List.mem_dedup.mpr own) (List.mem_dedup.mpr own') other listed listed'

theorem Written.rule_target (written : Written session rules g emitted ts) (distinct : (names session rules emitted).Nodup)
    (inTypes : buildType ∈ session.buildTypes) (own : r ∈ emitted) (member : t ∈ ts)
    (named : t.name = targetName (rules r) buildType) : ∃ numbers, t = ruleTarget session rules g r numbers buildType := by
  have listed := targetName_own session (rules r) inTypes
  obtain ⟨k,origin⟩ := written.origin t member
  have inKind : t.name ∈ Kind.names session rules emitted .rule :=
    List.mem_flatMap.mpr ⟨r,List.mem_dedup.mpr own,named ▸ listed⟩
  obtain ⟨r',own',numbers,buildType',served,rfl⟩ := origin.rule (kind_unique distinct origin.named inKind)
  rw [ruleTarget_name] at named
  have listed' := targetName_served session (rules r') served
  obtain rfl := rule_unique distinct own own' listed (named ▸ listed')
  refine ⟨numbers,?_⟩
  cases cc : (rules r).type.isCC with
  | true =>
    have single := (List.nodup_flatMap.mp ((List.nodup_flatMap.mp distinct).1 .rule (by simp [Kind.all]))).1 r
      (List.mem_dedup.mpr own)
    simp only [ownTargets,cc,if_true] at single
    rw [List.inj_on_of_nodup_map single (served cc) inTypes named]
  | false => simp only [ruleTarget,cc,Bool.false_eq_true,if_false]

theorem Written.mark_target (written : Written session rules g emitted ts) (distinct : (names session rules emitted).Nodup)
    (member : t ∈ ts) (named : t.name = regenTarget session) : t = regen session rules emitted := by
  obtain ⟨k,origin⟩ := written.origin t member
  have listed : t.name ∈ Kind.names session rules emitted .mark := by simp [Kind.names,named]
  exact origin.mark (kind_unique distinct origin.named listed)

theorem Written.pre_target (written : Written session rules g emitted ts) (distinct : (names session rules emitted).Nodup)
    (member : t ∈ ts) (named : t.name = "pre") : t = preTarget session := by
  obtain ⟨k,origin⟩ := written.origin t member
  have listed : t.name ∈ Kind.names session rules emitted .pre := by simp [Kind.names,named]
  exact origin.pre (kind_unique distinct origin.named listed)

theorem Written.buildType_target (written : Written session rules g emitted ts)
    (distinct : (names session rules emitted).Nodup) (inTypes : buildType ∈ session.buildTypes) (member : t ∈ ts)
    (named : t.name = buildType) : ∃ r ∈ emitted, t = ⟨buildType,[targetName (rules r) buildType,"pre"],[],"",true⟩ := by
  obtain ⟨k,origin⟩ := written.origin t member
  have listed : t.name ∈ Kind.names session rules emitted .buildType := by simpa [Kind.names,named]
  obtain ⟨r,own,buildType',-,rfl⟩ := origin.buildType (kind_unique distinct origin.named listed)
  obtain rfl : buildType' = buildType := named
  exact ⟨r,own,rfl⟩

/-- A build type waits for every rule, a rule for those it depends on, all for the mark, and
the mark for the files that the makefiles are made from. -/
theorem Written.keyed (written : Written session rules g emitted ts) (buildable : Buildable rules g emitted)
    (distinct : (names session rules emitted).Nodup) (inTypes : buildType ∈ session.buildTypes) (some : emitted ≠ [])
    (fresh : ∀ d ∈ (regen session rules emitted).deps, d ∉ names session rules emitted) :
    Keyed (readMakefile ts) (RootKey.name session rules buildType) (RootKey.inside emitted) (RootKey.rank g)
      (· ∈ (regen session rules emitted).deps) where
  names k inside := by
    cases k with
    | mark => exact mem_readNames.mpr ⟨_,written.mark,by simp only [regen,RootKey.name]⟩
    | pre => exact mem_readNames.mpr ⟨_,written.pre,by simp only [preTarget,RootKey.name]⟩
    | rule r =>
      obtain ⟨numbers,present⟩ := written.rules r inside
      exact mem_readNames.mpr ⟨_,present buildType inTypes,ruleTarget_name ..⟩
    | all =>
      obtain ⟨r,own⟩ := List.exists_mem_of_ne_nil emitted some
      exact mem_readNames.mpr ⟨_,written.buildTypes (List.mem_flatMap.mpr ⟨r,own,List.mem_map_of_mem inTypes⟩),rfl⟩
  injective k k' inside inside' same := by
    have kinds := kind_unique distinct (key_named rules inTypes k inside)
      (same ▸ key_named rules inTypes k' inside')
    cases k <;> cases k' <;> simp only [RootKey.kind,reduceCtorEq] at kinds
    case rule.rule r r' =>
      simp only [RootKey.name] at same
      have listed := targetName_own session (rules r) inTypes
      rw [rule_unique distinct inside inside' listed (same ▸ targetName_own session (rules r') inTypes)]
    all_goals rfl
  waits k inside d required := by
    obtain ⟨t,member,named,inDeps⟩ := mem_readPrerequisites.mp required
    cases k with
    | mark =>
      rw [written.mark_target distinct member named] at inDeps
      refine .inr ⟨fun ruled => ?_,inDeps⟩
      obtain ⟨t',member',rfl⟩ := mem_readNames.mp ruled
      obtain ⟨kind,origin⟩ := written.origin t' member'
      exact fresh _ inDeps (List.mem_flatMap.mpr ⟨kind,by cases kind <;> simp [Kind.all],origin.named⟩)
    | pre =>
      rw [written.pre_target distinct member named] at inDeps
      rw [List.mem_singleton.mp inDeps]
      exact .inl ⟨.mark,trivial,by rw [RootKey.name],Nat.one_pos⟩
    | rule r =>
      obtain ⟨numbers,rfl⟩ := written.rule_target distinct inTypes inside member named
      rw [ruleTarget_deps buildable.kinds] at inDeps
      rcases List.mem_append.mp inDeps with below | last
      · obtain ⟨e,edge,rfl⟩ := List.mem_map.mp below
        exact .inl ⟨.rule e,buildable.next r inside e edge,by rw [RootKey.name],
          Nat.add_lt_add_left (height_lt edge (buildable.clear r inside)) 2⟩
      · rw [List.mem_singleton.mp last]
        exact .inl ⟨.pre,trivial,by rw [RootKey.name],by simp only [RootKey.rank]; omega⟩
    | all =>
      obtain ⟨r,own,rfl⟩ := written.buildType_target distinct inTypes member named
      simp only [List.mem_cons,List.not_mem_nil,or_false] at inDeps
      rcases inDeps with rfl | rfl
      · have := height_le g r
        exact .inl ⟨.rule r,own,by rw [RootKey.name],by simp only [RootKey.rank]; omega⟩
      · exact .inl ⟨.pre,trivial,by rw [RootKey.name],by simp only [RootKey.rank]; omega⟩

end Asked

end JkBuild.RootMakefile
