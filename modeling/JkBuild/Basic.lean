/-! Paths, the ways a step of the program can fail, and the bit set of rule types. -/
namespace JkBuild

/-- The first four are exceptions. A failed `expect` terminates the process, and an
iterator dereferenced at the end of its container is undefined behaviour. -/
inductive Failure where
  | jkBuildError (message : String)
  | badVariantAccess
  | outOfRange
  | filesystemError (what : String)
  | terminate (message : String)
  | undefined
  | diverges
  deriving DecidableEq, Repr

/-- What the future of a task can hold. -/
def Failure.isException : Failure → Bool
  | jkBuildError _ | badVariantAccess | outOfRange | filesystemError _ => true
  | terminate _ | undefined | diverges => false

/-- `operator/` of `std::filesystem::path`. -/
def sub (base part : String) : String :=
  if part.toList.head? = some '/' then part
  else if base.toList.getLast? = some '/' ∨ base = "" then base ++ part
  else base ++ "/" ++ part

theorem sub_injective {base part part' : String} (relative : part.toList.head? ≠ some '/')
    (relative' : part'.toList.head? ≠ some '/') (same : sub base part = sub base part') : part = part' := by
  simp only [sub,relative,relative',if_false] at same
  split at same
  · exact String.toList_inj.mp (by simpa using congrArg String.toList same)
  · exact String.toList_inj.mp (by simpa using congrArg String.toList same)

inductive RuleTypeEnum where
  | library
  | binary
  | test
  | external
  | cc
  | proto
  deriving DecidableEq, Repr

def RuleTypeEnum.value : RuleTypeEnum → BitVec 8
  | library => 1#8 <<< 0
  | binary => 1#8 <<< 1
  | test => 1#8 <<< 2
  | external => 1#8 <<< 3
  | cc => 1#8 <<< 4
  | proto => 1#8 <<< 5

structure RuleType where
  value : BitVec 8
  deriving DecidableEq, Repr

def RuleType.hasType (type : RuleType) (tp : RuleTypeEnum) : Bool := type.value &&& tp.value != 0

def RuleType.setType (type : RuleType) (tp : RuleTypeEnum) : RuleType := ⟨type.value ||| tp.value⟩

def RuleType.ofList (types : List RuleTypeEnum) : RuleType := types.foldl RuleType.setType ⟨0⟩

def RuleType.isTest (type : RuleType) : Bool := type.hasType .test

def RuleType.isExternal (type : RuleType) : Bool := type.hasType .external

def RuleType.isCC (type : RuleType) : Bool := type.hasType .cc

def RuleType.isProto (type : RuleType) : Bool := type.hasType .proto

/-- The rule functions of a BUILD file, each with a class of its own. -/
inductive RuleClass where
  | ccLibrary
  | ccBinary
  | ccTest
  | protoLibrary
  | shellScript
  deriving DecidableEq, Repr

def RuleClass.typeName : RuleClass → String
  | ccLibrary => "cc_library"
  | ccBinary => "cc_binary"
  | ccTest => "cc_test"
  | protoLibrary => "proto_library"
  | shellScript => "shell_script"

def RuleClass.type : RuleClass → RuleType
  | ccLibrary => .ofList [.library,.cc]
  | ccBinary => .ofList [.binary,.cc]
  | ccTest => .ofList [.binary,.cc,.test]
  | protoLibrary => .ofList [.library,.cc,.proto]
  | shellScript => .ofList [.external]

def RuleClass.all : List RuleClass := [ccLibrary,ccBinary,ccTest,protoLibrary,shellScript]

def RuleClass.ofName (name : String) : Option RuleClass := all.find? (·.typeName = name)

/-- Whether an object of the class is a `CCLibrary`: all but the scripts derive from it. -/
def RuleClass.isCCLibrary : RuleClass → Bool
  | shellScript => false
  | _ => true

/-- A rule is a cc rule or an external one, never both, and the cast agrees. -/
theorem RuleClass.kind (cls : RuleClass) :
    cls.type.isCC = !cls.type.isExternal ∧ cls.isCCLibrary = cls.type.isCC := by
  cases cls <;> decide

end JkBuild
