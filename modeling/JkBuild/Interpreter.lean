import JkBuild.Packages
import JkBuild.Preparation

/-! `core/executor/script.cc`: BUILD files run one after the other in one interpreter, which
keeps the dictionary of their variables. What Python does is an arbitrary function. -/
namespace JkBuild.Interpreter

open Preparation

variable {ω : Type}

inductive Local (ω : Type) where
  | function (name : String)
  | int (value : Int)
  | str (value : String)
  | object (value : ω)
  deriving DecidableEq

abbrev Locals (ω : Type) := List (String × Local ω)

def setLocal (name : String) (value : Local ω) (locals : Locals ω) : Locals ω :=
  locals.filter (·.1 ≠ name) ++ [(name,value)]

/-- What a session tells the scripts. -/
structure Variables where
  platform : TargetPlatform
  projectRoot : String
  buildRoot : String
  externalInstalledPrefix : String
  cxxStandard : String

def platformNumber : TargetPlatform → Int
  | .k32 => 32
  | .k64 => 64

/-- The constructor: a function for every registered name, then the variables of the session. -/
def freshLocals (funcNames : List String) (session : Option Variables) : Locals ω :=
  let functions := funcNames.foldl (fun locals func => setLocal func (.function func) locals) []
  match session with
  | none => functions
  | some session =>
    [("platform",.int (platformNumber session.platform)),("PLATFORM",.int (platformNumber session.platform)),
      ("JK_SOURCE_DIR",.str session.projectRoot),("JK_BINARY_DIR",.str session.buildRoot),
      ("JK_BUNDLE_LIBRARY_PREFIX",.str session.externalInstalledPrefix),
      ("JK_CXX_STANDARD",.str session.cxxStandard)].foldl
      (fun locals entry => setLocal entry.1 entry.2 locals) functions

structure State (ω : Type) where
  results : List EvalResult
  locals : Locals ω

def fresh (funcNames : List String) (session : Option Variables) : State ω := ⟨[],freshLocals funcNames session⟩

/-- `exec` of Python: the dictionary afterwards and the calls made, or what was raised. -/
abbrev Exec (ω : Type) := String → Locals ω → Except String (Locals ω × List EvalResult)

/-- `ScriptInterpreter::Eval`, which ends the process when the script raises. -/
def eval (exec : Exec ω) (script : String) (s : State ω) : Except Failure (List EvalResult × State ω) :=
  let s := { s with results := [] }
  match exec script s.locals with
  | .error what => .error (.terminate what)
  | .ok (locals,calls) =>
    let s := { s with locals, results := s.results ++ calls }
    .ok (s.results,s)

def evalAll (exec : Exec ω) : List String → State ω → Except Failure (List (List EvalResult) × State ω)
  | [], s => .ok ([],s)
  | script :: scripts, s => do
    let (calls,s) ← eval exec script s
    let (later,s) ← evalAll exec scripts s
    return (calls :: later,s)

def Alone (exec : Exec ω) (funcNames : List String) (session : Option Variables) (script : String)
    (calls : List EvalResult) : Prop :=
  ∃ s, eval exec script (fresh funcNames session) = .ok (calls,s)

/-- A script that leaves the dictionary as it found it. -/
def KeepsLocals (exec : Exec ω) (locals : Locals ω) (script : String) : Prop :=
  ∀ locals' calls, exec script locals = .ok (locals',calls) → locals' = locals

/-- What one evaluation returns: the calls of this script, made in the dictionary it finds. -/
theorem eval_ok {exec : Exec ω} {script : String} {s s' : State ω} {calls : List EvalResult} :
    eval exec script s = .ok (calls,s') ↔
      ∃ locals, exec script s.locals = .ok (locals,calls) ∧ s' = ⟨calls,locals⟩ := by
  unfold eval
  cases ran : exec script s.locals with
  | error what => simp [ran]
  | ok result =>
    obtain ⟨locals,made⟩ := result
    simp only [ran,List.nil_append,Except.ok.injEq,Prod.mk.injEq]
    constructor
    · rintro ⟨rfl,rfl⟩
      exact ⟨locals,⟨rfl,rfl⟩,rfl⟩
    · rintro ⟨locals',⟨rfl,rfl⟩,rfl⟩
      exact ⟨rfl,rfl⟩

theorem alone_of_locals {exec : Exec ω} {script : String} {s s' : State ω} {funcNames : List String}
    {session : Option Variables} (same : s.locals = freshLocals funcNames session)
    (ran : eval exec script s = .ok (calls,s')) : Alone exec funcNames session script calls := by
  obtain ⟨locals,ran,-⟩ := eval_ok.mp ran
  rw [same] at ran
  exact ⟨_,eval_ok.mpr ⟨locals,ran,rfl⟩⟩

theorem evalAll_alone {exec : Exec ω} {funcNames : List String} {session : Option Variables} (scripts : List String)
    {s s' : State ω} (same : s.locals = freshLocals funcNames session)
    (keeps : ∀ script ∈ scripts.dropLast, KeepsLocals exec (freshLocals funcNames session) script)
    (ran : evalAll exec scripts s = .ok (results,s')) :
    List.Forall₂ (Alone exec funcNames session) scripts results := by
  induction scripts generalizing s s' results with
  | nil =>
    obtain ⟨rfl,-⟩ := Prod.mk.inj (Except.ok.inj ran)
    exact .nil
  | cons script scripts ih =>
    obtain ⟨⟨calls,middle⟩,first,ran⟩ := bind_ok ran
    obtain ⟨⟨later,final⟩,rest,ran⟩ := bind_ok ran
    obtain ⟨rfl,-⟩ := Prod.mk.inj (Except.ok.inj ran)
    refine .cons (alone_of_locals same first) ?_
    cases scripts with
    | nil =>
      obtain ⟨rfl,-⟩ := Prod.mk.inj (Except.ok.inj rest)
      exact .nil
    | cons next scripts =>
      obtain ⟨locals,executed,rfl⟩ := eval_ok.mp first
      have kept : locals = freshLocals funcNames session := by
        rw [same] at executed
        exact keeps script (by simp) locals calls executed
      exact ih kept (fun script member => keeps script (by simp [member])) rest

/-- On one interpreter every script has the calls it has alone, as long as the scripts
before it have left the dictionary of variables as a fresh interpreter has it. -/
theorem evalAll_isolated (exec : Exec ω) (funcNames : List String) (session : Option Variables)
    (scripts : List String) (results : List (List EvalResult)) (s : State ω)
    (keeps : ∀ script ∈ scripts.dropLast, KeepsLocals exec (freshLocals funcNames session) script)
    (ran : evalAll exec scripts (fresh funcNames session) = .ok (results,s)) :
    List.Forall₂ (Alone exec funcNames session) scripts results :=
  evalAll_alone scripts rfl keeps ran

/-- Two scripts as Python runs them: one assigns a variable, the other one reads it. -/
def assignScript : String := "PLATFORM = 32"

def readScript : String := "cc_library(name=\"p\" + str(PLATFORM))"

def pythonExec : Exec Unit := fun script locals =>
  if script = assignScript then .ok (setLocal "PLATFORM" (.int 32) locals,[])
  else if script = readScript then
    match locals.lookup "PLATFORM" with
    | some (.int value) => .ok (locals,[⟨"cc_library",[("name",.string ("p" ++ toString value))]⟩])
    | _ => .error "PLATFORM is no number"
  else .ok (locals,[])

def sampleVariables : Variables := ⟨.k64,"/p","/p/.build/m64","/p/.build/.lib/m64","11"⟩

/-- A script that only reads goes first, and the other one is evaluated as if alone. -/
theorem readScript_first : ∃ results s,
    evalAll pythonExec [readScript,assignScript] (fresh ["cc_library"] (some sampleVariables)) = .ok (results,s) ∧
      List.Forall₂ (Alone pythonExec ["cc_library"] (some sampleVariables)) [readScript,assignScript] results := by
  refine ⟨_,_,rfl,evalAll_isolated pythonExec ["cc_library"] (some sampleVariables) _ _ _ ?_ rfl⟩
  intro script member locals calls ran
  obtain rfl := List.mem_singleton.mp member
  exact (Prod.mk.inj (Except.ok.inj ran)).1.symm

/-- After the assignment the other script calls for another rule than it does alone. -/
theorem assignScript_leaks : ∃ results s,
    evalAll pythonExec [assignScript,readScript] (fresh ["cc_library"] (some sampleVariables)) = .ok (results,s) ∧
      results.map (·.map Packages.callName) = [[],["p32"]] ∧
      (∀ calls, Alone pythonExec ["cc_library"] (some sampleVariables) readScript calls →
        calls.map Packages.callName = ["p64"]) ∧
      ¬List.Forall₂ (Alone pythonExec ["cc_library"] (some sampleVariables)) [assignScript,readScript] results := by
  have alone : ∀ calls, Alone pythonExec ["cc_library"] (some sampleVariables) readScript calls →
      calls.map Packages.callName = ["p64"] := by
    rintro calls ⟨s,ran⟩
    rw [← (Prod.mk.inj (Except.ok.inj ran)).1]
    rfl
  refine ⟨_,_,rfl,rfl,alone,?_⟩
  rintro (_ | ⟨-,_ | ⟨second,-⟩⟩)
  exact absurd (alone _ second) (by decide +kernel)

end JkBuild.Interpreter
