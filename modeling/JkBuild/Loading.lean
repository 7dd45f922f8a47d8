import JkBuild.Packages
import JkBuild.Worklist

/-! What `LoadBuildFiles` loads. The loader follows absolute dependencies only: for a
relative one it queues the package it is in, while the resolver looks the written package
up from the root. -/
namespace JkBuild.Packages

open Dependent Reachability

/-- A dependency with a package, of the given position. -/
def Asks (semver : Semver V) (position : RuleRelativePosition) (dep package : String) : Prop :=
  ∃ id, parseIdString semver dep = .ok id ∧ id.position = position ∧ id.packageName = some package

/-- A dependency the parser accepts in one of the three project forms. -/
def Accepted (semver : Semver V) (dep : String) : Prop :=
  ∃ id, parseIdString semver dep = .ok id ∧ id.position ≠ .builtin

/-- An absolute dependency without a package, which the parser lets through. -/
def Rootless (semver : Semver V) (dep : String) : Prop :=
  ∃ id, parseIdString semver dep = .ok id ∧ id.position = .absolute ∧ id.packageName = none

/-- Every call of the tree creates a rule, and its dependencies are accepted. -/
def WellFormed (semver : Semver V) (tree : Tree) : Prop :=
  ∀ name, ∀ call ∈ evalFile tree name, Creates call ∧ ∀ dep ∈ callDeps call, Accepted semver dep

/-- The closure the packages of a run are meant to be. -/
inductive Needed (semver : Semver V) (tree : Tree) (files : List String) : String → Prop
  | initial : name ∈ files → Needed semver tree files name
  | absolute : Needed semver tree files name → call ∈ evalFile tree name → dep ∈ callDeps call →
      Asks semver .absolute dep package → Needed semver tree files package
  | relative : Needed semver tree files name → call ∈ evalFile tree name → dep ∈ callDeps call →
      Asks semver .relative dep package → Needed semver tree files (name ++ "/" ++ package)

/-- The packages absolute dependencies of kept rules name. -/
def absoluteFiles (semver : Semver V) (tree : Tree) (name : String) : List String :=
  (keptDeps tree name).filterMap fun dep =>
    match parseIdString semver dep with
    | .ok id => if id.position = .absolute then id.packageName else none
    | .error _ => none

/-- No kept rule of the package has a dependency without its package. -/
def Rooted (semver : Semver V) (tree : Tree) (name : String) : Prop :=
  ∀ dep ∈ keptDeps tree name, ¬Rootless semver dep

/-- Packages reached from the initial ones by absolute dependencies of kept rules. -/
def Followed (semver : Semver V) (tree : Tree) (files : List String) (name : String) : Prop :=
  ∃ root ∈ files, Reaches (absoluteFiles semver tree) root name

/-- The package under which the resolver looks a dependency up. -/
def lookedUp (id : BuildRuleId V) : Option String :=
  if id.position = .this then none else id.packageName

/-- The loaded packages are the needed ones, each evaluated once. -/
structure LoadsClosure (semver : Semver V) (tree : Tree) (files : List String) (s : Loader) : Prop where
  exactly : ∀ name, name ∈ s.packages.map Prod.fst ↔ Needed semver tree files name
  once : s.evaluated.Nodup ∧ ∀ name, name ∈ s.evaluated ↔ name ∈ s.packages.map Prod.fst
  found : ∀ name rules, (name,rules) ∈ s.packages → ∀ rule ∈ rules, ∀ dep ∈ rule.base.dependencies,
    ∀ id, parseIdString semver dep = .ok id → ∀ package, lookedUp id = some package →
      package ∈ s.packages.map Prod.fst

section Steps

variable {semver : Semver V} {tree : Tree} {files : List String}

theorem mem_absoluteFiles {name package : String} : package ∈ absoluteFiles semver tree name ↔
    ∃ dep ∈ keptDeps tree name, Asks semver .absolute dep package := by
  simp only [absoluteFiles,List.mem_filterMap,Asks]
  constructor
  · rintro ⟨dep,member,asked⟩
    split at asked
    · next id parsed =>
      split at asked
      · next position => exact ⟨dep,member,id,parsed,position,asked⟩
      · contradiction
    · contradiction
  · rintro ⟨dep,member,id,parsed,position,asked⟩
    exact ⟨dep,member,by simp [parsed,position,asked]⟩

theorem Asks.position {id : BuildRuleId V} {position : RuleRelativePosition} {package : String}
    (asked : Asks semver position dep package)
    (parsed : parseIdString semver dep = .ok id) : id.position = position ∧ id.packageName = some package := by
  obtain ⟨id',parsed',asked⟩ := asked
  obtain rfl := Except.ok.inj (parsed.symm.trans parsed')
  exact asked

/-- The packages one dependency queues: the one an absolute dependency names, and for a
relative one the package at hand. -/
structure Queues (semver : Semver V) (name dep : String) (files : List String) : Prop where
  few : files.length ≤ 1
  sub : ∀ b ∈ files, Asks semver .absolute dep b ∨ b = name
  all : ∀ b, Asks semver .absolute dep b → b ∈ files

theorem nextFile_queues (name : String) (accepted : Accepted semver dep) (rooted : ¬Rootless semver dep) :
    ∃ files, nextFile semver name dep = .ok files ∧ Queues semver name dep files := by
  obtain ⟨id,parsed,notBuiltin⟩ := accepted
  cases position : id.position with
  | absolute =>
    cases named : id.packageName with
    | none => exact absurd ⟨id,parsed,position,named⟩ rooted
    | some package =>
      refine ⟨[package],by simp [nextFile,parsed,position,named],by simp,?_,?_⟩
      · intro b member
        rw [List.mem_singleton.mp member]
        exact .inl ⟨id,parsed,position,named⟩
      · intro b asked
        have same := (asked.position parsed).2
        simpa using Option.some.inj (same.symm.trans named)
  | builtin => contradiction
  | relative =>
    refine ⟨[name],by simp [nextFile,parsed,position],by simp,fun b member => .inr (List.mem_singleton.mp member),?_⟩
    intro b asked
    rw [(asked.position parsed).1] at position
    contradiction
  | this =>
    refine ⟨[],by simp [nextFile,parsed,position],by simp,by simp,?_⟩
    intro b asked
    rw [(asked.position parsed).1] at position
    contradiction

theorem nextFile_rootless (name : String) (rootless : Rootless semver dep) :
    nextFile semver name dep = .error .undefined := by
  obtain ⟨id,parsed,position,named⟩ := rootless
  simp [nextFile,parsed,position,named]

theorem queues_flatten {name : String} {results : List (List String)}
    (h : List.Forall₂ (Queues semver name) deps results) : results.flatten.length ≤ deps.length ∧
      (∀ b ∈ results.flatten, (∃ dep ∈ deps, Asks semver .absolute dep b) ∨ b = name) ∧
      ∀ dep ∈ deps, ∀ b, Asks semver .absolute dep b → b ∈ results.flatten := by
  induction h with
  | nil => simp
  | @cons dep files deps results queues _ ih =>
    obtain ⟨few,sub,all⟩ := ih
    simp only [List.flatten_cons,List.length_append,List.length_cons,List.mem_append]
    refine ⟨?_,?_,?_⟩
    · have one := queues.few
      omega
    · rintro b (member | member)
      · exact (queues.sub b member).imp_left fun asked => ⟨dep,by simp,asked⟩
      · exact (sub b member).imp_left fun ⟨d,inDeps,asked⟩ => ⟨d,List.mem_cons_of_mem _ inDeps,asked⟩
    · intro d member b asked
      cases member with
      | head => exact .inl (queues.all b asked)
      | tail _ member => exact .inr (all d member b asked)

theorem keptDeps_accepted (formed : WellFormed semver tree) {name : String} (member : dep ∈ keptDeps tree name) :
    Accepted semver dep := by
  obtain ⟨call,kept,inCall⟩ := List.mem_flatMap.mp member
  exact (formed name call (mem_of_kept _ kept)).2 dep inCall

/-- The packages that are queued, whatever the order of the rules, or an error. -/
theorem nextFiles_spec (formed : WellFormed semver tree) (name : String)
    (perm : (rules.flatMap (·.base.dependencies)).Perm (keptDeps tree name)) :
    (∃ queued, nextFiles semver name rules = .ok queued ∧ Rooted semver tree name ∧
      queued.length ≤ (keptDeps tree name).length ∧
      (∀ b ∈ queued, b ∈ absoluteFiles semver tree name ∨ b = name) ∧
      ∀ b ∈ absoluteFiles semver tree name, b ∈ queued) ∨
    (∃ e, nextFiles semver name rules = .error e) ∧ ¬Rooted semver tree name := by
  by_cases rooted : Rooted semver tree name
  · left
    obtain ⟨results,done,each⟩ := mapM_total (rules.flatMap (·.base.dependencies)) fun dep member =>
      nextFile_queues name (keptDeps_accepted formed (perm.mem_iff.mp member)) (rooted dep (perm.mem_iff.mp member))
    obtain ⟨few,sub,all⟩ := queues_flatten (each.imp fun _ _ queues => queues.2)
    refine ⟨results.flatten,by rw [nextFiles,done]; rfl,rooted,perm.length_eq ▸ few,?_,?_⟩
    · intro b member
      refine (sub b member).imp_left ?_
      rintro ⟨dep,inDeps,asked⟩
      exact mem_absoluteFiles.mpr ⟨dep,perm.mem_iff.mp inDeps,asked⟩
    · intro b member
      obtain ⟨dep,inDeps,asked⟩ := mem_absoluteFiles.mp member
      exact all dep (perm.mem_iff.mpr inDeps) b asked
  · right
    refine ⟨?_,rooted⟩
    simp only [Rooted,not_forall,not_not] at rooted
    obtain ⟨dep,member,rootless⟩ := rooted
    cases done : (rules.flatMap (·.base.dependencies)).mapM (nextFile semver name) with
    | error e => exact ⟨e,by rw [nextFiles,done]; rfl⟩
    | ok results =>
      obtain ⟨files,ok⟩ := mapM_each done (perm.mem_iff.mpr member)
      rw [nextFile_rootless name rootless] at ok
      contradiction

/-- The state of the loop: the packages are what is finished of a worklist. -/
structure LoadInvariant (semver : Semver V) (tree : Tree) (files : List String) (s : Loader) (queue : List String) :
    Prop where
  work : Worklist.Invariant (absoluteFiles semver tree) files (s.packages.map Prod.fst) queue
  evaluated : s.evaluated = s.packages.map Prod.fst
  stored : ∀ name rules, (name,rules) ∈ s.packages → List.Forall₂ (Stored name) rules (keptCalls (evalFile tree name))
  rooted : ∀ name ∈ s.packages.map Prod.fst, Rooted semver tree name

theorem start_load (semver : Semver V) (tree : Tree) (files : List String) :
    LoadInvariant semver tree files ⟨[],0,[]⟩ files where
  work := Worklist.start_invariant (absoluteFiles semver tree) files
  evaluated := rfl
  stored := by simp
  rooted := by simp

/-- What packages that are not loaded can still queue. -/
def remaining (tree : Tree) (s : Loader) : Nat :=
  Worklist.pending (fun name => (keptDeps tree name).length) (tree.map Prod.fst).toFinset (s.packages.map Prod.fst)

theorem keptDeps_outside {name : String} (outside : name ∉ (tree.map Prod.fst).toFinset) :
    (keptDeps tree name).length = 0 := by
  have missing : tree.lookup name = none := by
    apply List.lookup_eq_none_iff.mpr
    intro entry member
    simp only [List.mem_toFinset,List.mem_map,not_exists,not_and] at outside
    simpa using fun same => outside entry member same.symm
  simp [keptDeps,evalFile,missing,keptCalls]

theorem lookup_packages (packages : List (String × List BuildRule)) (name : String) :
    (packages.lookup name).isSome = true ↔ name ∈ packages.map Prod.fst := by
  rw [List.lookup_isSome_iff,List.mem_map]
  constructor
  · rintro ⟨entry,member,same⟩
    exact ⟨entry,member,(beq_iff_eq.mp same).symm⟩
  · rintro ⟨entry,member,same⟩
    exact ⟨entry,member,beq_iff_eq.mpr same.symm⟩

/-- One round of the loop: it keeps the invariant and takes from what remains, or it fails
at a dependency without its package. -/
theorem load_step (formed : WellFormed semver tree) (order : IterRules) {name : String}
    (h : LoadInvariant semver tree files s (name :: queue)) :
    (∃ s' queued, loadBuildFile semver order tree name s = .ok (s',queued) ∧
      LoadInvariant semver tree files s' (queue ++ queued) ∧ queued.length + remaining tree s' ≤ remaining tree s) ∨
    (∃ e, loadBuildFile semver order tree name s = .error e) ∧ ¬Rooted semver tree name := by
  by_cases old : name ∈ s.packages.map Prod.fst
  · refine .inl ⟨s,[],?_,?_,by simp⟩
    · simp [loadBuildFile,(lookup_packages s.packages name).mpr old]
    · rw [List.append_nil]
      exact ⟨h.work.skip old,h.evaluated,h.stored,h.rooted⟩
  · have missing : ¬(s.packages.lookup name).isSome = true := mt (lookup_packages s.packages name).mp old
    obtain ⟨rules,nextId,constructed,stored⟩ := constructRules_stored name (evalFile tree name)
      (fun call member => (formed name call member).1) s.nextId
    have perm : ((order.iter name rules).flatMap (·.base.dependencies)).Perm (keptDeps tree name) := by
      rw [keptDeps,← stored_deps stored]
      exact (order.perm name rules).flatMap_right _
    rcases nextFiles_spec formed name perm with ⟨queued,done,rooted,few,sub,all⟩ | ⟨⟨e,failed⟩,unrooted⟩
    · refine .inl ⟨⟨s.packages ++ [(name,rules)],nextId,s.evaluated ++ [name]⟩,queued,?_,?_,?_⟩
      · rw [loadBuildFile,if_neg missing,constructed,ok_bind]
        simp only [done,ok_bind,ok_pure]
      · refine ⟨?_,?_,?_,?_⟩
        · rw [List.map_append]
          exact h.work.finish old sub all
        · rw [h.evaluated,List.map_append]
          rfl
        · intro package kept member
          cases List.mem_append.mp member with
          | inl member => exact h.stored package kept member
          | inr single =>
            obtain ⟨rfl,rfl⟩ := Prod.mk.inj (List.mem_singleton.mp single)
            exact stored
        · rw [List.map_append]
          exact List.forall_mem_append.mpr ⟨h.rooted,List.forall_mem_singleton.mpr rooted⟩
      · have taken := Worklist.pending_finish (fun name => (keptDeps tree name).length)
          (fun a outside => keptDeps_outside outside) old
        simp only [remaining,List.map_append,List.map_cons,List.map_nil,taken]
        omega
    · refine .inr ⟨⟨e,?_⟩,unrooted⟩
      rw [loadBuildFile,if_neg missing,constructed,ok_bind]
      simp only [failed,error_bind]

theorem load_run (formed : WellFormed semver tree) (order : IterRules) (fuel : Nat) (queue : List String) (s : Loader)
    (h : LoadInvariant semver tree files s queue) (enough : queue.length + remaining tree s ≤ fuel) :
    (∃ s', loadLoop semver order tree fuel s queue = .ok s' ∧ LoadInvariant semver tree files s' []) ∨
    (∃ e, loadLoop semver order tree fuel s queue = .error e) ∧
      ∃ name, Followed semver tree files name ∧ ¬Rooted semver tree name := by
  induction fuel generalizing queue s with
  | zero =>
    cases queue with
    | nil => exact .inl ⟨s,rfl,h⟩
    | cons name queue => simp at enough
  | succ fuel ih =>
    cases queue with
    | nil => exact .inl ⟨s,rfl,h⟩
    | cons name queue =>
      rw [loadLoop]
      rcases load_step formed order h with ⟨s',queued,done,kept,taken⟩ | ⟨⟨e,failed⟩,unrooted⟩
      · rw [done,ok_bind]
        apply ih (queue ++ queued) s' kept
        simp only [List.length_append,List.length_cons] at enough ⊢
        omega
      · refine .inr ⟨⟨e,by rw [failed]; rfl⟩,name,?_,unrooted⟩
        exact h.work.origin name (.inr (by simp))

theorem loadBuildFiles_spec (formed : WellFormed semver tree) (order : IterRules) (files : List String) :
    (∃ s, loadBuildFiles semver order tree files = .ok s ∧ LoadInvariant semver tree files s []) ∨
    (∃ e, loadBuildFiles semver order tree files = .error e) ∧
      ∃ name, Followed semver tree files name ∧ ¬Rooted semver tree name := by
  apply load_run formed order _ files _ (start_load semver tree files)
  simp [remaining,Worklist.pending,rounds]

/-- When the packages that are followed make up the closure. Dropped rules are not looked
at, and relative dependencies have to be followed for another reason, both below the
package they are in and from the root. -/
structure Covered (semver : Semver V) (tree : Tree) (files : List String) : Prop where
  rooted : ∀ name, Followed semver tree files name → Rooted semver tree name
  dropped : ∀ name, Followed semver tree files name → ∀ call ∈ evalFile tree name, ∀ dep ∈ callDeps call,
    ∀ package, Asks semver .absolute dep package → Followed semver tree files package
  nested : ∀ name, Followed semver tree files name → ∀ call ∈ evalFile tree name, ∀ dep ∈ callDeps call,
    ∀ package, Asks semver .relative dep package → Followed semver tree files (name ++ "/" ++ package)
  written : ∀ name, Followed semver tree files name → ∀ dep ∈ keptDeps tree name,
    ∀ package, Asks semver .relative dep package → Followed semver tree files package

theorem followed_needed (followed : Followed semver tree files name) : Needed semver tree files name := by
  obtain ⟨root,initial,path⟩ := followed
  apply path.closed (Needed semver tree files) _ (.initial initial)
  intro a needed b edge
  obtain ⟨dep,member,asked⟩ := mem_absoluteFiles.mp edge
  obtain ⟨call,kept,inCall⟩ := List.mem_flatMap.mp member
  exact .absolute needed (mem_of_kept _ kept) inCall asked

theorem Covered.followed (h : Covered semver tree files) (needed : Needed semver tree files name) :
    Followed semver tree files name := by
  induction needed with
  | initial member => exact ⟨_,member,.refl _ _⟩
  | absolute _ member inCall asked ih => exact h.dropped _ ih _ member _ inCall _ asked
  | relative _ member inCall asked ih => exact h.nested _ ih _ member _ inCall _ asked

theorem LoadInvariant.loaded (h : LoadInvariant semver tree files s []) (name : String) :
    name ∈ s.packages.map Prod.fst ↔ Followed semver tree files name := h.work.complete.2 name

theorem LoadInvariant.closure (h : LoadInvariant semver tree files s []) (formed : WellFormed semver tree)
    (covered : Covered semver tree files) : LoadsClosure semver tree files s where
  exactly := fun name => (h.loaded name).trans ⟨followed_needed,covered.followed⟩
  once := ⟨h.evaluated ▸ h.work.nodup,fun name => by rw [h.evaluated]⟩
  found := by
    intro name rules member rule inRules dep inDeps id parsed package asked
    have followed := (h.loaded name).mp (List.mem_map_of_mem member)
    have kept : dep ∈ keptDeps tree name := by
      rw [keptDeps,← stored_deps (h.stored name rules member)]
      exact List.mem_flatMap.mpr ⟨rule,inRules,inDeps⟩
    obtain ⟨call,inCalls,inCall⟩ := List.mem_flatMap.mp kept
    unfold lookedUp at asked
    split at asked
    · contradiction
    · apply (h.loaded package).mpr
      cases position : id.position with
      | absolute =>
        exact covered.dropped name followed call (mem_of_kept _ inCalls) dep inCall package ⟨id,parsed,position,asked⟩
      | relative => exact covered.written name followed dep kept package ⟨id,parsed,position,asked⟩
      | this => contradiction
      | builtin =>
        obtain ⟨id',parsed',other⟩ := keptDeps_accepted formed kept
        obtain rfl := Except.ok.inj (parsed.symm.trans parsed')
        contradiction

theorem LoadsClosure.covered (closure : LoadsClosure semver tree files s) (h : LoadInvariant semver tree files s []) :
    Covered semver tree files := by
  have followed : ∀ name, Needed semver tree files name → Followed semver tree files name :=
    fun name needed => (h.loaded name).mp ((closure.exactly name).mpr needed)
  refine ⟨fun name reached => h.rooted name ((h.loaded name).mpr reached),?_,?_,?_⟩
  · intro name reached call member dep inCall package asked
    exact followed package (.absolute (followed_needed reached) member inCall asked)
  · intro name reached call member dep inCall package asked
    exact followed _ (.relative (followed_needed reached) member inCall asked)
  · intro name reached dep kept package ⟨id,parsed,position,named⟩
    obtain ⟨⟨name,rules⟩,member,rfl⟩ := List.mem_map.mp ((h.loaded name).mpr reached)
    rw [keptDeps,← stored_deps (h.stored name rules member)] at kept
    obtain ⟨rule,inRules,inDeps⟩ := List.mem_flatMap.mp kept
    apply (h.loaded package).mp
    exact closure.found name rules member rule inRules dep inDeps id parsed package (by simp [lookedUp,position,named])

end Steps

/-- Loading computes the closure, each BUILD file evaluated once and every package that is
looked up later present, exactly when relative dependencies and dropped rules add nothing
to what is followed. -/
theorem load_closure_iff (semver : Semver V) (order : IterRules) (tree : Tree) (files : List String)
    (formed : WellFormed semver tree) :
    (∃ s, loadBuildFiles semver order tree files = .ok s ∧ LoadsClosure semver tree files s) ↔
      Covered semver tree files := by
  rcases loadBuildFiles_spec formed order files with ⟨s,loaded,h⟩ | ⟨⟨e,failed⟩,name,followed,unrooted⟩
  · constructor
    · rintro ⟨s',loaded',closure⟩
      obtain rfl := Except.ok.inj (loaded.symm.trans loaded')
      exact closure.covered h
    · exact fun covered => ⟨s,loaded,h.closure formed covered⟩
  · constructor
    · rintro ⟨s,loaded,-⟩
      rw [failed] at loaded
      contradiction
    · exact fun covered => absurd (covered.rooted name followed) unrooted

section Libraries

def library (name : String) (deps : List String) : EvalResult :=
  ⟨"cc_library",[("name",.string name),("deps",.list (deps.map .string))]⟩

def libraryTree (packages : List (String × List (String × List String))) : Tree :=
  packages.map fun (name,rules) => (name,rules.map fun (name,deps) => library name deps)

def fixedOrder : IterRules := ⟨fun _ rules => rules,fun _ _ => .refl _⟩

theorem library_creates (name : String) (deps : List String) :
    Creates (library name deps) ∧ callDeps (library name deps) = deps := by
  have listed : (library name deps).args.listOptional "deps" (some []) = .ok deps :=
    (Kwargs.getStrings_ok _ deps).mpr rfl
  have made : ∃ base,
      BuildRuleBase.make 0 "cc_library" RuleClass.ccLibrary.type "" (library name deps).args = .ok base := by
    simp only [BuildRuleBase.make,listed]
    exact ⟨_,rfl⟩
  have cls : RuleClass.ofName (library name deps).funcName = some .ccLibrary := by rfl
  obtain ⟨base,made⟩ := made
  refine ⟨⟨⟨.ccLibrary,base⟩,?_⟩,by simp [callDeps,listed,Except.toOption]⟩
  simp only [create,cls,RuleClass.typeName,made,ok_bind,ok_pure]

theorem evalFile_member {tree : Tree} {name : String} (member : call ∈ evalFile tree name) :
    ∃ entry ∈ tree, call ∈ entry.2 := by
  unfold evalFile at member
  cases found : tree.lookup name with
  | none => simp [found] at member
  | some calls =>
    rw [found] at member
    obtain ⟨before,after,rfl,-⟩ := List.lookup_eq_some_iff.mp found
    exact ⟨(name,calls),by simp,member⟩

variable {semver : Semver V} {tree : Tree} {files : List String}

instance (dep : String) : Decidable (Accepted semver dep) :=
  inferInstanceAs (Decidable (∃ id, parseIdString semver dep = .ok id ∧ id.position ≠ .builtin))

theorem libraryTree_formed {packages : List (String × List (String × List String))}
    (accepted : ∀ package ∈ packages, ∀ rule ∈ package.2, ∀ dep ∈ rule.2, Accepted semver dep) :
    WellFormed semver (libraryTree packages) := by
  intro name call member
  obtain ⟨entry,inTree,member⟩ := evalFile_member member
  obtain ⟨package,inPackages,rfl⟩ := List.mem_map.mp inTree
  obtain ⟨rule,inRules,rfl⟩ := List.mem_map.mp member
  rw [(library_creates rule.1 rule.2).2]
  exact ⟨(library_creates rule.1 rule.2).1,accepted package inPackages rule inRules⟩

def Inside (names : List String) (name : String) (id : BuildRuleId V) : Prop :=
  (id.position = .absolute → ∃ package ∈ names, id.packageName = some package) ∧
    (id.position = .relative → ∃ package ∈ names, id.packageName = some package ∧ name ++ "/" ++ package ∈ names)

instance (names : List String) (name : String) (id : BuildRuleId V) : Decidable (Inside names name id) :=
  inferInstanceAs (Decidable (_ ∧ _))

theorem covered_of {names : List String} (initial : ∀ name ∈ files, name ∈ names)
    (reached : ∀ name ∈ names, Followed semver tree files name)
    (inside : ∀ name ∈ names, ∀ call ∈ evalFile tree name, ∀ dep ∈ callDeps call,
      ∃ id, parseIdString semver dep = .ok id ∧ Inside names name id) : Covered semver tree files := by
  have absolute : ∀ name ∈ names, ∀ call ∈ evalFile tree name, ∀ dep ∈ callDeps call, ∀ package,
      Asks semver .absolute dep package → package ∈ names := by
    intro name inNames call member dep inCall package asked
    obtain ⟨id,parsed,within,-⟩ := inside name inNames call member dep inCall
    obtain ⟨position,named⟩ := asked.position parsed
    obtain ⟨package',inNames',named'⟩ := within position
    obtain rfl := Option.some.inj (named.symm.trans named')
    exact inNames'
  have only : ∀ name, Followed semver tree files name → name ∈ names := by
    rintro name ⟨root,member,path⟩
    apply path.closed (· ∈ names) _ (initial root member)
    intro a inNames b edge
    obtain ⟨dep,kept,asked⟩ := mem_absoluteFiles.mp edge
    obtain ⟨call,member,inCall⟩ := List.mem_flatMap.mp kept
    exact absolute a inNames call (mem_of_kept _ member) dep inCall b asked
  have relative : ∀ name ∈ names, ∀ call ∈ evalFile tree name, ∀ dep ∈ callDeps call, ∀ package,
      Asks semver .relative dep package → package ∈ names ∧ name ++ "/" ++ package ∈ names := by
    intro name inNames call member dep inCall package asked
    obtain ⟨id,parsed,-,within⟩ := inside name inNames call member dep inCall
    obtain ⟨position,named⟩ := asked.position parsed
    obtain ⟨package',inNames',named',below⟩ := within position
    obtain rfl := Option.some.inj (named.symm.trans named')
    exact ⟨inNames',below⟩
  refine ⟨?_,?_,?_,?_⟩
  · rintro name followed dep kept ⟨id,parsed,position,named⟩
    obtain ⟨call,member,inCall⟩ := List.mem_flatMap.mp kept
    obtain ⟨id',parsed',within,-⟩ := inside name (only name followed) call (mem_of_kept _ member) dep inCall
    obtain rfl := Except.ok.inj (parsed.symm.trans parsed')
    obtain ⟨package,-,named'⟩ := within position
    rw [named] at named'
    contradiction
  · intro name followed call member dep inCall package asked
    exact reached package (absolute name (only name followed) call member dep inCall package asked)
  · intro name followed call member dep inCall package asked
    exact reached _ (relative name (only name followed) call member dep inCall package asked).2
  · intro name followed dep kept package asked
    obtain ⟨call,member,inCall⟩ := List.mem_flatMap.mp kept
    exact reached package (relative name (only name followed) call (mem_of_kept _ member) dep inCall package asked).1

end Libraries

/-- The package `a/b` is asked for in both ways, and the resolver finds `b` as well. -/
def coveredTree : Tree :=
  libraryTree [("a",[("r",["b:x","//a/b:x","//b:x"])]),("a/b",[("x",[])]),("b",[("x",[":y"]),("y",[])])]

theorem load_covered : ∃ s, loadBuildFiles digitVersions fixedOrder coveredTree ["a"] = .ok s ∧
    LoadsClosure digitVersions coveredTree ["a"] s := by
  apply (load_closure_iff digitVersions fixedOrder coveredTree ["a"] (libraryTree_formed (by decide))).mpr
  have edges : ∀ name ∈ ["a/b","b"], name ∈ absoluteFiles digitVersions coveredTree "a" := by decide
  have inside : ∀ name ∈ ["a","a/b","b"], ∀ call ∈ evalFile coveredTree name, ∀ dep ∈ callDeps call,
      ∃ id, parseIdString digitVersions dep = .ok id ∧ Inside ["a","a/b","b"] name id := by decide
  apply covered_of (by simp) _ inside
  intro name member
  refine ⟨"a",by simp,?_⟩
  cases member with
  | head => exact .refl _ _
  | tail _ member => exact .single (edges name member)

/-- The package `a/b` is asked for by a relative dependency alone. -/
def relativeTree : Tree := libraryTree [("a",[("r",["b:x"])]),("a/b",[("x",[])])]

theorem load_relative_missed : WellFormed digitVersions relativeTree ∧
    ¬∃ s, loadBuildFiles digitVersions fixedOrder relativeTree ["a"] = .ok s ∧
      LoadsClosure digitVersions relativeTree ["a"] s := by
  refine ⟨libraryTree_formed (by decide),?_⟩
  rintro ⟨s,loaded,closure⟩
  have only : s.packages.map Prod.fst = ["a"] := by
    obtain rfl := Except.ok.inj loaded
    rfl
  have start : Needed digitVersions relativeTree ["a"] "a" := .initial (by simp)
  have asked : Asks digitVersions .relative "b:x" "b" := ⟨_,rfl,rfl,rfl⟩
  have member : library "r" ["b:x"] ∈ evalFile relativeTree "a" := List.mem_cons_self
  have needed : Needed digitVersions relativeTree ["a"] ("a" ++ "/" ++ "b") :=
    .relative start member List.mem_cons_self asked
  have loaded := (closure.exactly _).mpr needed
  rw [only] at loaded
  exact absurd loaded (by decide)

end JkBuild.Packages
