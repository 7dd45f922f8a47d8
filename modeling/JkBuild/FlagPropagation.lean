import JkBuild.Preparation
import Mathlib.Data.Fin.VecNotation

/-! Includes and defines of rules after all tasks of `PrepareRules`, in any order. A rule
whose task has not run yet has no fields, so that a user prepared before it misses what it
declares. -/
namespace JkBuild.Preparation

open Tasks Reachability Tarjan

section Collection

variable {g : Graph n} {flags : Fin n → Except Failure (List String)}

theorem collect_fold (seen : List (Fin n)) (start found : Finset String)
    (done : seen.foldlM (fun found q => addFlags flags q found) start = .ok found) :
    (∀ q ∈ seen, ∃ xs, flags q = .ok xs) ∧
      ∀ x, x ∈ found ↔ x ∈ start ∨ ∃ q ∈ seen, ∃ xs, flags q = .ok xs ∧ x ∈ xs := by
  induction seen generalizing start with
  | nil =>
    obtain rfl := Except.ok.inj done
    simp
  | cons q seen ih =>
    rw [List.foldlM_cons,addFlags] at done
    cases added : flags q with
    | error e =>
      rw [added] at done
      contradiction
    | ok new =>
      rw [added] at done
      obtain ⟨each,members⟩ := ih (start ∪ new.toFinset) done
      refine ⟨by simpa [added] using each,fun x => ?_⟩
      rw [members]
      simp [added,or_assoc]

/-- The search has added what every reachable rule has to add. -/
theorem collect_done {rule : Fin n} (done : collect g rule flags start = .ok u found) :
    (∀ q, Reaches g rule q → ∃ xs, flags q = .ok xs) ∧
      ∀ x, x ∈ found ↔ x ∈ start ∨ ∃ q, Reaches g rule q ∧ ∃ xs, flags q = .ok xs ∧ x ∈ xs := by
  unfold collect at done
  split at done
  · next seen last visited =>
    cases done
    obtain ⟨-,members,payload⟩ := visitAll_complete visited
    simp only [List.mem_singleton,exists_eq_left] at members
    obtain ⟨each,found⟩ := collect_fold seen start found payload
    simp only [members] at each found
    exact ⟨each,found⟩
  · contradiction
  · contradiction

theorem collect_settled (rule : Fin n) (exceptions : ∀ q e, flags q = .error e → e.isException = true) :
    Settled (·.isException = true) (collect g rule flags) (∀ q, Reaches g rule q → ∃ xs, flags q = .ok xs) := by
  have ends := fun start : Finset String => visitAll_ends g (addFlags flags) [rule] ([],start)
  refine ⟨fun holds start => ?_,fun fails start => ?_⟩
  · rcases ends start with ⟨⟨seen,found⟩,finished⟩ | ⟨e,q,s,raised,⟨root,member,path⟩,acted⟩
    · exact ⟨(),found,by simp only [collect,finished]⟩
    · rw [List.mem_singleton.mp member] at path
      obtain ⟨xs,ok⟩ := holds q path
      rw [addFlags,ok] at acted
      contradiction
  · rcases ends start with ⟨⟨seen,found⟩,finished⟩ | ⟨⟨e,found⟩,q,s,raised,-,acted⟩
    · have done : collect g rule flags start = .ok .unit found := by simp only [collect,finished]
      exact absurd (collect_done done).1 fails
    · refine ⟨e,found,by simp only [collect,raised],?_⟩
      cases added : flags q with
      | ok new =>
        rw [addFlags,added] at acted
        contradiction
      | error e' =>
        rw [addFlags,added] at acted
        obtain ⟨rfl,-⟩ := Prod.mk.inj (Except.error.inj acted)
        exact exceptions q e' added

end Collection

variable {project : Project n}

/-- The folder of a rule, which its users are given when it is a proto rule. -/
def ProtoFolder (project : Project n) (q : Fin n) (x : String) : Prop :=
  (project.rules q).base.type.isProto = true ∧ x = "-I" ++ (project.rules q).base.workingFolder project.session.buildRoot

/-- An include flag that the arguments of a rule ask for. -/
def DeclaresInclude (project : Project n) (q : Fin n) (x : String) : Prop :=
  (∃ i ∈ (kwargs project q).declared "includes", x = "-I" ++ i) ∨
    isCC project q ∧ (ProtoFolder project q x ∨ startsWith x "-I" = true ∧
      ∃ key ∈ ["cppflags","cflags","cxxflags"], x ∈ (kwargs project q).declared key)

def DeclaresDefine (project : Project n) (q : Fin n) (x : String) : Prop :=
  ∃ d ∈ (kwargs project q).declared "defines", x = "-D" ++ d

/-- Every cc rule has the flags of all that it reaches, and no others. -/
def FlagsResolved (project : Project n) (store : Store n) : Prop :=
  ∀ r, isCC project r →
    (∀ x, x ∈ (store r).flags.resolvedIncludes ↔
      x = "-I." ∨ ∃ q, Reaches project.graph r q ∧ DeclaresInclude project q x) ∧
    ∀ x, x ∈ (store r).flags.resolvedDefines ↔ ∃ q, Reaches project.graph r q ∧ DeclaresDefine project q x

/-- What a rule shows of its includes before the rules `late` are prepared. -/
def ShowsInclude (project : Project n) (late : List (Fin n)) (q : Fin n) (x : String) : Prop :=
  (q ∈ late ∧ isCC project q ∧ ProtoFolder project q x) ∨
    ¬(q ∈ late ∧ isCC project q) ∧ DeclaresInclude project q x

def ShowsDefine (project : Project n) (late : List (Fin n)) (q : Fin n) (x : String) : Prop :=
  ¬(q ∈ late ∧ isCC project q) ∧ DeclaresDefine project q x

section Contributions

variable {q : Fin n} {fields : Fields}

theorem mem_marked (mark x : String) (xs : List String) : x ∈ xs.map (mark ++ ·) ↔ ∃ i ∈ xs, x = mark ++ i := by
  rw [List.mem_map]
  exact exists_congr fun i => and_congr_right fun _ => eq_comm

theorem fromArguments_declared (kwargs : Kwargs) (key mark x : String) :
    (∃ xs, fromArguments kwargs key mark = .ok xs ∧ x ∈ xs) ↔ ∃ i ∈ kwargs.declared key, x = mark ++ i := by
  unfold fromArguments Kwargs.declared
  cases kwargs.listOptional key (some []) with
  | error e => simp [Except.toOption]
  | ok strings => simp [Except.toOption,mem_marked]

theorem includeFlags_declared (declares : isCC project q → Fields.Declares (kwargs project q) fields) (x : String) :
    (∃ xs, includeFlags project.session (project.rules q) fields = .ok xs ∧ x ∈ xs) ↔
      DeclaresInclude project q x := by
  unfold includeFlags DeclaresInclude
  by_cases cc : (project.rules q).cls.isCCLibrary = true
  · obtain ⟨cFlags,cppFlags,cxxFlags,includes,-,-,-,-,-⟩ := declares cc
    simp only [cc,if_true,Except.ok.injEq,exists_eq_left',cFlags,cppFlags,cxxFlags,includes,isCC,true_and,ProtoFolder]
    simp only [List.mem_append,List.mem_filter,mem_marked,List.mem_ite_nil_right,List.mem_cons,List.not_mem_nil,or_false]
    constructor
    · rintro ((⟨member,starts⟩ | declared) | proto)
      · refine .inr (.inr ⟨starts,?_⟩)
        rcases member with (member | member) | member
        · exact ⟨_,.inl rfl,member⟩
        · exact ⟨_,.inr (.inl rfl),member⟩
        · exact ⟨_,.inr (.inr rfl),member⟩
      · exact .inl declared
      · exact .inr (.inl proto)
    · rintro (declared | proto | ⟨starts,key,rfl | rfl | rfl,member⟩)
      · exact .inl (.inr declared)
      · exact .inr proto
      · exact .inl (.inl ⟨.inl (.inl member),starts⟩)
      · exact .inl (.inl ⟨.inl (.inr member),starts⟩)
      · exact .inl (.inl ⟨.inr member,starts⟩)
  · simp only [cc,isCC,Bool.false_eq_true,if_false,false_and,or_false,fromArguments_declared,kwargs]

theorem defineFlags_declared (declares : isCC project q → Fields.Declares (kwargs project q) fields) (x : String) :
    (∃ xs, defineFlags (project.rules q) fields = .ok xs ∧ x ∈ xs) ↔ DeclaresDefine project q x := by
  unfold defineFlags DeclaresDefine
  by_cases cc : (project.rules q).cls.isCCLibrary = true
  · simp [cc,(declares cc).defines,mem_marked]
  · simp only [cc,Bool.false_eq_true,if_false,fromArguments_declared,kwargs]

theorem includeFlags_empty (cc : isCC project q) (x : String) :
    (∃ xs, includeFlags project.session (project.rules q) {} = .ok xs ∧ x ∈ xs) ↔ ProtoFolder project q x := by
  rw [isCC] at cc
  simp [includeFlags,cc,ProtoFolder]

theorem defineFlags_empty (cc : isCC project q) (x : String) :
    ¬∃ xs, defineFlags (project.rules q) {} = .ok xs ∧ x ∈ xs := by
  rw [isCC] at cc
  simp [defineFlags,cc]

end Contributions

section Steps

variable {r : Fin n} {store store' : Store n}

theorem own_done {t : EStateM Failure RuleState Unit} (done : own r t store = .ok u store') :
    ∃ state, t (store r) = .ok u state ∧ store' = Function.update store r state := zoom_done done

/-- What the task of a rule does when it throws nothing. -/
structure Done (project : Project n) (r : Fin n) (store store' : Store n) : Prop where
  other : ∀ q, q ≠ r → store' q = store q
  declares : isCC project r → Fields.Declares (kwargs project r) (store' r).fields
  includes : isCC project r → ∀ x, x ∈ (store' r).flags.resolvedIncludes ↔
    x ∈ (store r).flags.resolvedIncludes ∨ x = "-I." ∨ ∃ q, Reaches project.graph r q ∧
      ∃ xs, includeFlags project.session (project.rules q) (store' q).fields = .ok xs ∧ x ∈ xs
  defines : isCC project r → ∀ x, x ∈ (store' r).flags.resolvedDefines ↔
    x ∈ (store r).flags.resolvedDefines ∨ ∃ q, Reaches project.graph r q ∧
      ∃ xs, defineFlags (project.rules q) (store' q).fields = .ok xs ∧ x ∈ xs
  prepared : (store' r).prepared = true

/-- The flag steps write flags of their own rule only. -/
structure Collected (r : Fin n) (store store' : Store n) : Prop where
  other : ∀ q, q ≠ r → store' q = store q
  fields : (store' r).fields = (store r).fields

theorem Collected.all_fields (h : Collected r store store') (q : Fin n) : (store' q).fields = (store q).fields := by
  by_cases same : q = r
  · rw [same,h.fields]
  · rw [h.other q same]

theorem Collected.trans (first : Collected r store middle) (second : Collected r middle store') :
    Collected r store store' where
  other := fun q apart => (second.other q apart).trans (first.other q apart)
  fields := second.fields.trans first.fields

theorem own_part_done {τ : Type} {read : RuleState → τ} {write : τ → RuleState → RuleState}
    {t : EStateM Failure τ Unit} (done : own r (zoom read write t) store = .ok u store')
    (keeps : ∀ part state, (write part state).fields = state.fields) :
    Collected r store store' ∧ ∃ part, t (read (store r)) = .ok u part ∧ store' r = write part (store r) := by
  obtain ⟨state,ran,rfl⟩ := own_done done
  obtain ⟨part,stepped,rfl⟩ := zoom_done ran
  refine ⟨⟨fun q apart => Function.update_of_ne apart _ _,?_⟩,part,stepped,Function.update_self ..⟩
  rw [Function.update_self]
  exact keeps part (store r)

theorem prepareIncludeFlags_done (done : prepareIncludeFlags project r store = .ok u store') :
    Collected r store store' ∧ (store' r).flags.resolvedDefines = (store r).flags.resolvedDefines ∧
      ∀ x, x ∈ (store' r).flags.resolvedIncludes ↔ x ∈ (store r).flags.resolvedIncludes ∨ x = "-I." ∨
        ∃ q, Reaches project.graph r q ∧
          ∃ xs, includeFlags project.session (project.rules q) (store q).fields = .ok xs ∧ x ∈ xs := by
  obtain ⟨_,first,inserted,rest⟩ := bind_done done
  obtain ⟨_,_,got,searched⟩ := bind_done rest
  cases got
  obtain ⟨keeps,start,entered,same⟩ := own_part_done inserted fun _ _ => rfl
  obtain ⟨keeps',found,collected,same'⟩ := own_part_done searched fun _ _ => rfl
  refine ⟨keeps.trans keeps',by rw [same',same],fun x => ?_⟩
  rw [same',(collect_done collected).2,same,modify_done entered]
  simp only [keeps.all_fields,Finset.mem_insert]
  tauto

theorem prepareDefineFlags_done (done : prepareDefineFlags project r store = .ok u store') :
    Collected r store store' ∧ (store' r).flags.resolvedIncludes = (store r).flags.resolvedIncludes ∧
      ∀ x, x ∈ (store' r).flags.resolvedDefines ↔ x ∈ (store r).flags.resolvedDefines ∨
        ∃ q, Reaches project.graph r q ∧
          ∃ xs, defineFlags (project.rules q) (store q).fields = .ok xs ∧ x ∈ xs := by
  obtain ⟨_,_,got,searched⟩ := bind_done done
  cases got
  obtain ⟨keeps,found,collected,same⟩ := own_part_done searched fun _ _ => rfl
  refine ⟨keeps,by rw [same],fun x => ?_⟩
  rw [same]
  exact (collect_done collected).2 x

theorem doPrepare_done (done : doPrepare project r store = .ok u store') : Collected r store store' ∧ (isCC project r →
    (∀ x, x ∈ (store' r).flags.resolvedIncludes ↔ x ∈ (store r).flags.resolvedIncludes ∨ x = "-I." ∨
      ∃ q, Reaches project.graph r q ∧
        ∃ xs, includeFlags project.session (project.rules q) (store q).fields = .ok xs ∧ x ∈ xs) ∧
    ∀ x, x ∈ (store' r).flags.resolvedDefines ↔ x ∈ (store r).flags.resolvedDefines ∨
      ∃ q, Reaches project.graph r q ∧ ∃ xs, defineFlags (project.rules q) (store q).fields = .ok xs ∧ x ∈ xs) := by
  obtain ⟨_,_,got,branch⟩ := bind_done done
  cases got
  split at branch
  · obtain ⟨_,first,expanded,rest⟩ := bind_done branch
    obtain ⟨_,second,included,rest'⟩ := bind_done rest
    obtain ⟨_,third,defined,inherent⟩ := bind_done rest'
    obtain ⟨keeps₁,files,-,same₁⟩ := own_part_done expanded fun _ _ => rfl
    obtain ⟨keeps₂,defines₂,includes⟩ := prepareIncludeFlags_done included
    obtain ⟨keeps₃,includes₃,defines⟩ := prepareDefineFlags_done defined
    obtain ⟨_,_,got,searched⟩ := bind_done inherent
    cases got
    obtain ⟨keeps₄,found,-,same₄⟩ := own_part_done searched fun _ _ => rfl
    refine ⟨keeps₁.trans (keeps₂.trans (keeps₃.trans keeps₄)),fun _ => ⟨fun x => ?_,fun x => ?_⟩⟩
    · rw [same₄,includes₃,includes,same₁]
      simp only [keeps₁.all_fields]
    · rw [same₄,defines,defines₂,same₁]
      simp only [keeps₂.all_fields,keeps₁.all_fields]
  · next script =>
    obtain ⟨keeps,-⟩ := own_part_done branch fun _ _ => rfl
    exact ⟨keeps,fun cc => absurd cc script⟩

theorem marked_done (done : own r (modify fun s => { s with prepared := true }) store = .ok u store') :
    Collected r store store' ∧ (store' r).flags = (store r).flags ∧ (store' r).prepared = true := by
  obtain ⟨state,marked,rfl⟩ := own_done done
  obtain rfl := modify_done marked
  refine ⟨⟨fun q apart => Function.update_of_ne apart _ _,?_⟩,?_,?_⟩
  all_goals rw [Function.update_self]

theorem extracted_done {t : EStateM Failure Fields Unit} (done : own r (onFields t) store = .ok u store') :
    (∀ q, q ≠ r → store' q = store q) ∧ (store' r).flags = (store r).flags ∧
      t (store r).fields = .ok u (store' r).fields := by
  obtain ⟨state,ran,rfl⟩ := own_done done
  obtain ⟨fields,filled,rfl⟩ := zoom_done ran
  refine ⟨fun q apart => Function.update_of_ne apart _ _,?_,?_⟩
  · rw [Function.update_self]
  · rw [Function.update_self]
    exact filled

theorem prepare_done (done : prepare project r store = .ok u store') : Done project r store store' := by
  obtain ⟨_,extracted,extract,rest⟩ := bind_done done
  obtain ⟨_,flagged,body,finish⟩ := bind_done rest
  obtain ⟨other,flags,filled⟩ := extracted_done extract
  obtain ⟨keeps,collected⟩ := doPrepare_done body
  obtain ⟨keeps',flags',prepared⟩ := marked_done finish
  have kept := keeps.trans keeps'
  refine ⟨fun q apart => (kept.other q apart).trans (other q apart),?_,?_,?_,prepared⟩
  · intro cc
    rw [kept.fields]
    exact Fields.extract_done cc filled
  · intro cc x
    rw [flags',(collected cc).1 x,flags]
    simp only [kept.all_fields]
  · intro cc x
    rw [flags',(collected cc).2 x,flags]
    simp only [kept.all_fields]

end Steps

section Runs

variable {order before after : List (Fin n)} {store : Store n}

theorem clean_frame {store' : Store n} (ran : Clean (prepare project) order store store') {q : Fin n} (apart : q ∉ order) :
    store' q = store q := by
  apply ran.invariant (fun s => s q = store q) _ rfl
  intro r member s s' done same
  rw [(prepare_done done).other q (fun here => apart (here ▸ member)),same]

theorem clean_at {store' : Store n} (ran : Clean (prepare project) (before ++ r :: after) store store')
    (apart : r ∉ after) : ∃ middle middle', Clean (prepare project) before store middle ∧
      Done project r middle middle' ∧ Clean (prepare project) after middle' store' ∧ store' r = middle' r := by
  obtain ⟨middle,first,rest⟩ := ran.split
  cases rest with
  | cons done rest => exact ⟨middle,_,first,prepare_done done,rest,clean_frame rest apart⟩

theorem clean_declares {store' : Store n} (ran : Clean (prepare project) order store store') (once : order.Nodup)
    (member : q ∈ order) (cc : isCC project q) : Fields.Declares (kwargs project q) (store' q).fields := by
  obtain ⟨before,after,rfl⟩ := List.append_of_mem member
  have apart : q ∉ after := (List.nodup_cons.mp (List.nodup_append.mp once).2.1).1
  obtain ⟨middle,middle',-,done,-,same⟩ := clean_at ran apart
  rw [same]
  exact done.declares cc

/-- The fields a task sees: what is declared by rules that were prepared before it and by
its own, none of a cc rule that is prepared later. -/
theorem seen_fields {middle middle' : Store n} (first : Clean (prepare project) before initial middle)
    (done : Done project r middle middle') (all : ∀ q, q ∈ before ++ r :: after) (once : (before ++ r :: after).Nodup)
    (q : Fin n) (cc : isCC project q) : if q ∈ after then (middle' q).fields = {} else
      Fields.Declares (kwargs project q) (middle' q).fields := by
  obtain ⟨onceBefore,onceAfter,disjoint⟩ := List.nodup_append.mp once
  have apart := (List.nodup_cons.mp onceAfter).1
  split
  · next late =>
    have other : q ≠ r := fun same => apart (same ▸ late)
    have fresh : q ∉ before := fun early => disjoint q early q (List.mem_cons_of_mem _ late) rfl
    rw [done.other q other,clean_frame first fresh]
    rfl
  · next early =>
    by_cases here : q = r
    · subst here
      exact done.declares cc
    · have inBefore : q ∈ before := by
        have member := all q
        simp only [List.mem_append,List.mem_cons,here,early,or_false] at member
        exact member
      rw [done.other q here]
      exact clean_declares first onceBefore inBefore cc

theorem seen_includes {middle middle' : Store n} (first : Clean (prepare project) before initial middle)
    (done : Done project r middle middle') (all : ∀ q, q ∈ before ++ r :: after) (once : (before ++ r :: after).Nodup)
    (q : Fin n) (x : String) :
    (∃ xs, includeFlags project.session (project.rules q) (middle' q).fields = .ok xs ∧ x ∈ xs) ↔
      ShowsInclude project after q x := by
  have fields := seen_fields first done all once q
  unfold ShowsInclude
  by_cases late : q ∈ after ∧ isCC project q
  · have empty := fields late.2
    rw [if_pos late.1] at empty
    rw [empty]
    simpa [late] using includeFlags_empty late.2 x
  · simp only [late,← and_assoc,false_and,false_or,not_false_eq_true,true_and]
    apply includeFlags_declared
    intro cc
    have declares := fields cc
    rw [if_neg fun member => late ⟨member,cc⟩] at declares
    exact declares

theorem seen_defines {middle middle' : Store n} (first : Clean (prepare project) before initial middle)
    (done : Done project r middle middle') (all : ∀ q, q ∈ before ++ r :: after) (once : (before ++ r :: after).Nodup)
    (q : Fin n) (x : String) : (∃ xs, defineFlags (project.rules q) (middle' q).fields = .ok xs ∧ x ∈ xs) ↔
      ShowsDefine project after q x := by
  have fields := seen_fields first done all once q
  unfold ShowsDefine
  by_cases late : q ∈ after ∧ isCC project q
  · have empty := fields late.2
    rw [if_pos late.1] at empty
    rw [empty]
    simpa [late] using defineFlags_empty late.2 x
  · simp only [late,not_false_eq_true,true_and]
    apply defineFlags_declared
    intro cc
    have declares := fields cc
    rw [if_neg fun member => late ⟨member,cc⟩] at declares
    exact declares

end Runs

/-- What a rule that runs later declares is shown to its user by something else: the
user itself, a rule prepared before it, a rule that is no cc rule, or the folder of a
proto rule. -/
def Covered (project : Project n) (order : List (Fin n)) : Prop :=
  ∀ before r after, order = before ++ r :: after → isCC project r →
    ∀ q ∈ after, isCC project q → Reaches project.graph r q →
      (∀ x, DeclaresInclude project q x → x = "-I." ∨
        ∃ p, Reaches project.graph r p ∧ ShowsInclude project after p x) ∧
      ∀ x, DeclaresDefine project q x → ∃ p, Reaches project.graph r p ∧ ShowsDefine project after p x

section Showing

variable {after : List (Fin n)} {q : Fin n} {x : String}

theorem shows_declared (shown : ShowsInclude project after q x) : DeclaresInclude project q x := by
  rcases shown with ⟨-,cc,folder⟩ | ⟨-,declared⟩
  · exact .inr ⟨cc,.inl folder⟩
  · exact declared

theorem shows_early (early : ¬(q ∈ after ∧ isCC project q)) (declared : DeclaresInclude project q x) :
    ShowsInclude project after q x := .inr ⟨early,declared⟩

end Showing

/-- What one rule ends up with, by its place in the order. -/
theorem flags_at (order : List (Fin n)) (all : order.Perm (List.finRange n)) (store : Store n)
    (ran : Clean (prepare project) order initial store) (before after : List (Fin n)) (r : Fin n)
    (place : order = before ++ r :: after) (cc : isCC project r) :
    (∀ x, x ∈ (store r).flags.resolvedIncludes ↔
      x = "-I." ∨ ∃ q, Reaches project.graph r q ∧ ShowsInclude project after q x) ∧
    ∀ x, x ∈ (store r).flags.resolvedDefines ↔ ∃ q, Reaches project.graph r q ∧ ShowsDefine project after q x := by
  have once : (before ++ r :: after).Nodup := place ▸ all.nodup_iff.mpr (List.nodup_finRange n)
  have every : ∀ q, q ∈ before ++ r :: after := fun q => place ▸ all.mem_iff.mpr (List.mem_finRange q)
  have apart := (List.nodup_cons.mp (List.nodup_append.mp once).2.1).1
  rw [place] at ran
  obtain ⟨middle,middle',first,done,-,same⟩ := clean_at ran apart
  have fresh : middle r = initial r := by
    apply clean_frame first
    exact fun early => (List.nodup_append.mp once).2.2 r early r List.mem_cons_self rfl
  refine ⟨fun x => ?_,fun x => ?_⟩
  · rw [same,done.includes cc,fresh]
    simp [seen_includes first done every once,initial]
  · rw [same,done.defines cc,fresh]
    simp [seen_defines first done every once,initial]

/-- After all tasks have run without an error, in any order, includes and defines are
those of everything reachable exactly when later tasks had nothing of their own to add. -/
theorem flags_resolved_iff (project : Project n) (order : List (Fin n)) (all : order.Perm (List.finRange n))
    (store : Store n) (futures : List (Option Failure))
    (ran : runTasks Failure.isException (prepare project) order initial = .ok futures store)
    (clean : ∀ f ∈ futures, f = none) : FlagsResolved project store ↔ Covered project order := by
  have steps := runTasks_clean order initial store futures ran clean
  constructor
  · intro resolved before r after place cc q late ccLate path
    obtain ⟨includes,defines⟩ := flags_at order all store steps before after r place cc
    obtain ⟨includes',defines'⟩ := resolved r cc
    refine ⟨fun x declared => ?_,fun x declared => ?_⟩
    · exact (includes x).mp ((includes' x).mpr (.inr ⟨q,path,declared⟩))
    · exact (defines x).mp ((defines' x).mpr ⟨q,path,declared⟩)
  · intro covered r cc
    obtain ⟨before,after,place⟩ := List.append_of_mem (all.mem_iff.mpr (List.mem_finRange r))
    obtain ⟨includes,defines⟩ := flags_at order all store steps before after r place cc
    refine ⟨fun x => ?_,fun x => ?_⟩
    · rw [includes]
      constructor
      · exact Or.imp_right fun ⟨q,path,shown⟩ => ⟨q,path,shows_declared shown⟩
      · rintro (dot | ⟨q,path,declared⟩)
        · exact .inl dot
        · by_cases late : q ∈ after ∧ isCC project q
          · exact (covered before r after place cc q late.1 late.2 path).1 x declared
          · exact .inr ⟨q,path,shows_early late declared⟩
    · rw [defines]
      constructor
      · exact fun ⟨q,path,shown⟩ => ⟨q,path,shown.2⟩
      · rintro ⟨q,path,declared⟩
        by_cases late : q ∈ after ∧ isCC project q
        · exact (covered before r after place cc q late.1 late.2 path).2 x declared
        · exact ⟨q,path,late,declared⟩

def emptySession : Session :=
  ⟨"/p","/p/.build/x86_64",.k64,["DEBUG"],fun _ => (globNoMatch,[]),fun _ => .ok none,fun f _ => .ok f⟩

def withIncludes (name : String) (includes : List String) : EvalResult :=
  ⟨"cc_library",[("name",.string name),("includes",.list (includes.map .string))]⟩

def twoLibraries : Project 2 where
  session := emptySession
  rules := ![(Packages.create 0 "a" (withIncludes "r" ["y"])).toOption.get rfl,
    (Packages.create 1 "a" (withIncludes "q" ["x"])).toOption.get rfl]
  graph := ![[1],[]]

/-- A look at what a run without errors leaves. -/
def ranClean (project : Project n) (order : List (Fin n)) (look : Store n → Bool) : Bool :=
  match runTasks Failure.isException (prepare project) order initial with
  | .ok futures store => futures.all Option.isNone && look store
  | .error _ _ => false

theorem ranClean_run {order : List (Fin n)} {look : Store n → Bool} (ran : ranClean project order look = true) :
    ∃ store futures, runTasks Failure.isException (prepare project) order initial = .ok futures store ∧
      (∀ f ∈ futures, f = none) ∧ look store = true := by
  unfold ranClean at ran
  split at ran
  · next futures store same =>
    obtain ⟨clean,seen⟩ := Bool.and_eq_true_iff.mp ran
    exact ⟨store,futures,same,fun f member => Option.isNone_iff_eq_none.mp (List.all_eq_true.mp clean f member),seen⟩
  · contradiction

theorem twoLibraries_covered : Covered twoLibraries [1,0] := by
  intro before r after place cc q late ccLate path
  have leaf : twoLibraries.graph 1 = [] := rfl
  have alone : ∀ b, Reaches twoLibraries.graph 1 b → b = 1 := by
    intro b path
    apply path.closed (· = 1) _ rfl
    rintro x rfl y edge
    rw [leaf] at edge
    exact absurd edge List.not_mem_nil
  cases before with
  | nil =>
    obtain ⟨rfl,rfl⟩ := List.cons.inj place
    rw [List.mem_singleton.mp late] at path
    exact absurd (alone 0 path) (by decide)
  | cons first before =>
    have rest := (List.cons.inj place).2
    cases before with
    | nil =>
      rw [← (List.cons.inj rest).2] at late
      exact absurd late List.not_mem_nil
    | cons second before =>
      have lengths := congrArg List.length rest
      simp at lengths

/-- With the dependency prepared first its user has all flags. -/
theorem flags_resolved_in_order : ∃ store futures,
    runTasks Failure.isException (prepare twoLibraries) [1,0] initial = .ok futures store ∧
      FlagsResolved twoLibraries store := by
  have fine : ranClean twoLibraries [1,0] (fun _ => true) = true := by decide +kernel
  obtain ⟨store,futures,ran,clean,-⟩ := ranClean_run fine
  exact ⟨store,futures,ran,(flags_resolved_iff twoLibraries [1,0] (by decide) store futures ran clean).mpr
    twoLibraries_covered⟩

/-- With the user prepared first it misses the include of its dependency. -/
theorem flags_missed : ∃ store futures,
    runTasks Failure.isException (prepare twoLibraries) [0,1] initial = .ok futures store ∧
      (∀ f ∈ futures, f = none) ∧ ¬FlagsResolved twoLibraries store := by
  have missed : ranClean twoLibraries [0,1] (fun store => "-Ix" ∉ (store 0).flags.resolvedIncludes) = true := by
    decide +kernel
  obtain ⟨store,futures,ran,clean,missing⟩ := ranClean_run missed
  refine ⟨store,futures,ran,clean,fun resolved => ?_⟩
  have path : Reaches twoLibraries.graph 0 1 := .single (by decide)
  have asked : DeclaresInclude twoLibraries 1 "-Ix" := .inl ⟨"x",List.mem_cons_self,rfl⟩
  have member := ((resolved 0 rfl).1 "-Ix").mpr (.inr ⟨1,path,asked⟩)
  exact absurd member (by simpa using missing)

end JkBuild.Preparation
