import JkBuild.Kwargs

/-! The arguments of a rule call as Python has them, and `KwargsValue(object)`. Which objects
keep their shape: the variant has a boolean that no branch makes, and a map that is made anew
for every entry. The cast to a string is the binding's. -/
namespace JkBuild

abbrev CodePoint := Fin 0x110000

/-- A `str` is made of code points, of which some stand for no character. All that no
`isinstance` of the conversion tells apart is `other`. -/
inductive PyObject where
  | str (value : List CodePoint)
  | bytes (value : List UInt8)
  | list (values : List PyObject)
  | dict (entries : List (PyObject × PyObject))
  | bool (value : Bool)
  | other

/-- Induction over an object and what it holds. -/
theorem PyObject.members {motive : PyObject → Prop} (str : ∀ s, motive (.str s)) (bytes : ∀ b, motive (.bytes b))
    (list : ∀ values, (∀ object ∈ values, motive object) → motive (.list values))
    (dict : ∀ entries, (∀ entry ∈ entries, motive entry.2) → motive (.dict entries))
    (bool : ∀ b, motive (.bool b)) (other : motive .other) (object : PyObject) : motive object := by
  match object with
  | .str s => exact str s
  | .bytes b => exact bytes b
  | .bool b => exact bool b
  | .other => exact other
  | .list values => exact list values fun object member => members str bytes list dict bool other object
  | .dict entries => exact dict entries fun entry member => members str bytes list dict bool other entry.2
termination_by sizeOf object
decreasing_by
  · have less := List.sizeOf_lt_of_mem member
    simp only [PyObject.list.sizeOf_spec]
    omega
  · have less := List.sizeOf_lt_of_mem member
    obtain ⟨key,value⟩ := entry
    simp only [PyObject.dict.sizeOf_spec,Prod.mk.sizeOf_spec] at less ⊢
    omega

namespace Conversion

/-- The error of the program, and that of a cast of the Python binding. -/
inductive Thrown where
  | jkBuildError (message : String)
  | castError
  deriving DecidableEq, Repr

/-- `cast<std::string>()` of the binding; `none` where it throws. -/
abbrev Cast := PyObject → Option String

def castString (cast : Cast) (object : PyObject) : Except Thrown String :=
  match cast object with
  | some text => .ok text
  | none => .error .castError

mutual

def convert (cast : Cast) : PyObject → Except Thrown KwargsValue
  | .list values => do return .list (← convertList cast values)
  | .str value => do return .string (← castString cast (.str value))
  | .bytes value => do return .string (← castString cast (.bytes value))
  | .dict entries => convertDict cast entries (.string "")
  | .bool _ | .other => .error (.jkBuildError "unknown type")

def convertList (cast : Cast) : List PyObject → Except Thrown (List KwargsValue)
  | [] => .ok []
  | object :: objects => do
    let value ← convert cast object
    let values ← convertList cast objects
    return value :: values

/-- The loop over a dictionary, beginning with the variant as it is: each round makes a map
of its own and overwrites what the rounds before it had left. -/
def convertDict (cast : Cast) : List (PyObject × PyObject) → KwargsValue → Except Thrown KwargsValue
  | [], value => .ok value
  | (key,object) :: entries, _ => do
    let key ← castString cast key
    let value ← convert cast object
    convertDict cast entries (.map [(key,value)])

end

def convertKwargs (cast : Cast) (args : List (List CodePoint × PyObject)) : Except Thrown Kwargs :=
  args.mapM fun arg => do
    let key ← castString cast (.str arg.1)
    return (key,← convert cast arg.2)

section Binding

/-- A surrogate has no encoding. -/
def encodable (points : List CodePoint) : Bool := points.all fun point => point.val < 0xD800 || 0xDFFF < point.val

def IsText : PyObject → Prop
  | .str _ | .bytes _ => True
  | _ => False

/-- What the binding documents: a `str` is cast to its encoding if it has one, `bytes` are
cast as they are, and of what can be a key or has a branch of its own nothing else is. -/
structure Documented (cast : Cast) : Prop where
  str : ∀ points, (∃ text, cast (.str points) = some text) ↔ encodable points
  bytes : ∀ chars, ∃ text, cast (.bytes chars) = some text
  others : ∀ object, ¬IsText object → cast object = none

def ofBytes (chars : List UInt8) : String := String.ofList (chars.map fun char => Char.ofNat char.toNat)

/-- The binding on CPython, which encodes as UTF-8; a character stands for each `char`. -/
def castUtf8 : Cast
  | .str points =>
    if encodable points then some (ofBytes (points.flatMap fun point => String.utf8EncodeChar (Char.ofNat point.val)))
    else none
  | .bytes chars => some (ofBytes chars)
  | _ => none

theorem castUtf8_documented : Documented castUtf8 where
  str points := by by_cases whole : encodable points <;> simp [castUtf8,whole]
  bytes chars := ⟨_,rfl⟩
  others object other := by
    cases object with
    | str | bytes => exact absurd trivial other
    | list | dict | bool | other => rfl

def points (text : String) : List CodePoint := text.toList.map fun ch => Fin.ofNat _ ch.toNat

end Binding

section Shape

mutual

/-- Built from texts, bytes, booleans, lists and dictionaries with string keys. -/
def Plain : PyObject → Prop
  | .str _ | .bytes _ | .bool _ => True
  | .list values => PlainList values
  | .dict entries => PlainDict entries
  | .other => False

def PlainList : List PyObject → Prop
  | [] => True
  | object :: objects => Plain object ∧ PlainList objects

def PlainDict : List (PyObject × PyObject) → Prop
  | [] => True
  | (key,object) :: entries => (∃ k, key = .str k) ∧ Plain object ∧ PlainDict entries

end

mutual

/-- The value has the shape of the object. A map has no order. -/
inductive Same (cast : Cast) : PyObject → KwargsValue → Prop
  | str : cast (.str s) = some text → Same cast (.str s) (.string text)
  | bytes : cast (.bytes b) = some text → Same cast (.bytes b) (.string text)
  | bool : Same cast (.bool b) (.boolean b)
  | list : SameList cast objects values → Same cast (.list objects) (.list values)
  | dict : SameDict cast entries converted → converted.Perm values → Same cast (.dict entries) (.map values)

inductive SameList (cast : Cast) : List PyObject → List KwargsValue → Prop
  | nil : SameList cast [] []
  | cons : Same cast object value → SameList cast objects values →
      SameList cast (object :: objects) (value :: values)

inductive SameDict (cast : Cast) : List (PyObject × PyObject) → List (String × KwargsValue) → Prop
  | nil : SameDict cast [] []
  | cons : cast (.str k) = some key → Same cast object value → SameDict cast entries values →
      SameDict cast ((.str k,object) :: entries) ((key,value) :: values)

end

/-- A plain object is converted to a value of its shape, any other one is refused with an
error of the program. -/
structure Faithful (cast : Cast) (object : PyObject) : Prop where
  converts : Plain object → ∃ value, convert cast object = .ok value ∧ Same cast object value
  refuses : ¬Plain object → ∃ message, convert cast object = .error (.jkBuildError message)

/-- What a conversion stops at: a text or key the binding does not cast, or a value it has no
branch for. -/
inductive Obstacle where
  | cast
  | value
  deriving DecidableEq, Repr

def Obstacle.thrown : Obstacle → Thrown
  | cast => .castError
  | value => .jkBuildError "unknown type"

def castObstacles : PyObject → List Obstacle
  | .str points => if encodable points then [] else [.cast]
  | .bytes _ => []
  | _ => [.cast]

mutual

/-- The obstacles in an object, in the order in which it is read. -/
def obstacles : PyObject → List Obstacle
  | .str points => castObstacles (.str points)
  | .bytes _ => []
  | .list values => obstaclesList values
  | .dict entries => obstaclesDict entries
  | .bool _ | .other => [.value]

def obstaclesList : List PyObject → List Obstacle
  | [] => []
  | object :: objects => obstacles object ++ obstaclesList objects

def obstaclesDict : List (PyObject × PyObject) → List Obstacle
  | [] => []
  | (key,object) :: entries => castObstacles key ++ (obstacles object ++ obstaclesDict entries)

end

mutual

/-- Every dictionary in the object has one entry. -/
def SingleEntries : PyObject → Prop
  | .list values => SingleEntriesList values
  | .dict [(_,object)] => SingleEntries object
  | .dict _ => False
  | _ => True

def SingleEntriesList : List PyObject → Prop
  | [] => True
  | object :: objects => SingleEntries object ∧ SingleEntriesList objects

end

end Shape

/-- A result that is a value where nothing is in the way, or else what the first obstacle
throws. -/
def Follows (found : List Obstacle) (result : Except Thrown α) : Prop :=
  (found = [] → ∃ a, result = .ok a) ∧ ∀ o rest, found = o :: rest → result = .error o.thrown

theorem follows_ok (a : α) : Follows [] (Except.ok a : Except Thrown α) :=
  ⟨fun _ => ⟨a,rfl⟩,by simp⟩

theorem follows_error (o : Obstacle) : Follows [o] (Except.error o.thrown : Except Thrown α) := by
  refine ⟨by simp,fun o' rest same => ?_⟩
  rw [(List.cons.inj same).1]

theorem Follows.bind {x : Except Thrown α} {f : α → Except Thrown β} (first : Follows found x)
    (next : ∀ a, x = .ok a → Follows later (f a)) : Follows (found ++ later) (x >>= f) := by
  cases found with
  | nil =>
    obtain ⟨a,rfl⟩ := first.1 rfl
    exact next a rfl
  | cons o rest =>
    rw [first.2 o rest rfl]
    refine ⟨by simp,fun o' rest' same => ?_⟩
    rw [(List.cons.inj same).1]
    rfl

theorem convertList_follows {cast : Cast} (objects : List PyObject)
    (each : ∀ object ∈ objects, Follows (obstacles object) (convert cast object)) :
    Follows (obstaclesList objects) (convertList cast objects) := by
  induction objects with
  | nil => exact follows_ok []
  | cons object objects ih =>
    have converted := (each object List.mem_cons_self).bind fun value _ =>
      (ih fun object member => each object (List.mem_cons_of_mem _ member)).bind fun values _ => follows_ok (value :: values)
    simpa [obstaclesList,convertList] using converted

section Order

variable {cast : Cast} (documented : Documented cast)
include documented

theorem castString_follows (object : PyObject) : Follows (castObstacles object) (castString cast object) := by
  have thrown (none : cast object = none) : Follows [Obstacle.cast] (castString cast object) := by
    rw [castString,none]
    exact follows_error .cast
  cases object with
  | str points =>
    by_cases whole : encodable points
    · obtain ⟨text,eq⟩ := (documented.str points).mpr whole
      simpa only [castObstacles,if_pos whole,castString,eq] using follows_ok text
    · rw [castObstacles,if_neg whole]
      refine thrown (Option.eq_none_iff_forall_ne_some.mpr fun text eq => ?_)
      exact whole ((documented.str points).mp ⟨text,eq⟩)
  | bytes chars =>
    obtain ⟨text,eq⟩ := documented.bytes chars
    simpa only [castObstacles,castString,eq] using follows_ok text
  | list | dict | bool | other => exact thrown (documented.others _ id)

theorem convertDict_follows (entries : List (PyObject × PyObject)) (start : KwargsValue)
    (each : ∀ entry ∈ entries, Follows (obstacles entry.2) (convert cast entry.2)) :
    Follows (obstaclesDict entries) (convertDict cast entries start) := by
  induction entries generalizing start with
  | nil => exact follows_ok start
  | cons entry entries ih =>
    exact (castString_follows documented entry.1).bind fun k _ => (each entry List.mem_cons_self).bind fun value _ =>
      ih _ fun entry member => each entry (List.mem_cons_of_mem _ member)

/-- A conversion gives a value, or throws what its first obstacle throws. -/
theorem convert_follows (object : PyObject) : Follows (obstacles object) (convert cast object) := by
  induction object using PyObject.members with
  | str points =>
    have converted := (castString_follows documented (.str points)).bind fun text _ => follows_ok (KwargsValue.string text)
    simpa [obstacles,convert] using converted
  | bytes chars =>
    have converted := (castString_follows documented (.bytes chars)).bind fun text _ => follows_ok (KwargsValue.string text)
    simpa [obstacles,convert,castObstacles] using converted
  | bool | other => exact follows_error .value
  | list values each =>
    have converted := (convertList_follows values each).bind fun values _ => follows_ok (KwargsValue.list values)
    simpa [obstacles,convert] using converted
  | dict entries each => exact convertDict_follows documented entries _ each

end Order

section Entries

variable {cast : Cast}

theorem castString_ok : castString cast object = .ok text ↔ cast object = some text := by
  unfold castString
  cases cast object <;> simp

theorem convertDict_one {entries : List (PyObject × PyObject)}
    (done : convertDict cast entries (.string "") = .ok value) (same : Same cast (.dict entries) value) :
    ∃ k object v, entries = [(.str k,object)] ∧ convert cast object = .ok v ∧ Same cast object v := by
  have left : ∀ (entries : List (PyObject × PyObject)) start value, convertDict cast entries start = .ok value →
      value = start ∨ ∃ entry, value = .map [entry] := by
    intro entries
    induction entries with
    | nil => exact fun start value done => .inl (Except.ok.inj done).symm
    | cons entry entries ih =>
      intro start value done
      obtain ⟨k,-,done⟩ := bind_ok done
      obtain ⟨v,-,done⟩ := bind_ok done
      rcases ih _ _ done with rfl | one
      · exact .inr ⟨_,rfl⟩
      · exact .inr one
  cases same with
  | @dict entries converted values each perm =>
    rcases left _ _ _ done with none | ⟨entry,one⟩
    · contradiction
    · obtain rfl := KwargsValue.map.inj one
      obtain rfl := List.perm_singleton.mp perm
      cases each with
      | @cons k key object v entries values encoded same more =>
        cases more
        obtain ⟨text,cast,done⟩ := bind_ok done
        obtain ⟨v',converted,done⟩ := bind_ok done
        obtain rfl := (Prod.mk.inj (List.cons.inj (KwargsValue.map.inj (Except.ok.inj done))).1).2
        exact ⟨k,object,v',rfl,converted,same⟩

theorem convertList_same (objects : List PyObject) (single : SingleEntriesList objects)
    (each : ∀ object ∈ objects, ∀ value, SingleEntries object → convert cast object = .ok value → Plain object →
      Same cast object value) (plain : PlainList objects) (done : convertList cast objects = .ok values) :
    SameList cast objects values := by
  induction objects generalizing values with
  | nil =>
    obtain rfl := Except.ok.inj done
    exact .nil
  | cons object objects ih =>
    obtain ⟨value,first,done⟩ := bind_ok done
    obtain ⟨values,rest,done⟩ := bind_ok done
    obtain rfl := Except.ok.inj done
    exact .cons (each object List.mem_cons_self value single.1 first plain.1)
      (ih single.2 (fun object member => each object (List.mem_cons_of_mem _ member)) plain.2 rest)

/-- What is converted keeps its shape if all its dictionaries have one entry. -/
theorem convert_same (object : PyObject) (value : KwargsValue) (single : SingleEntries object)
    (done : convert cast object = .ok value) (plain : Plain object) : Same cast object value := by
  induction object using PyObject.members generalizing value with
  | str s =>
    obtain ⟨text,encoded,done⟩ := bind_ok done
    obtain rfl := Except.ok.inj done
    exact .str (castString_ok.mp encoded)
  | bytes b =>
    obtain ⟨text,taken,done⟩ := bind_ok done
    obtain rfl := Except.ok.inj done
    exact .bytes (castString_ok.mp taken)
  | bool | other => contradiction
  | list values each =>
    obtain ⟨converted,all,done⟩ := bind_ok done
    obtain rfl := Except.ok.inj done
    exact .list (convertList_same values single each plain all)
  | dict entries each =>
    match entries with
    | [] | _ :: _ :: _ => contradiction
    | [(key,object)] =>
      obtain ⟨⟨k,rfl⟩,inner,-⟩ := plain
      obtain ⟨text,encoded,done⟩ := bind_ok done
      obtain ⟨v,converted,done⟩ := bind_ok done
      obtain rfl := Except.ok.inj done
      have kept := each _ List.mem_cons_self v single converted inner
      exact .dict (.cons (castString_ok.mp encoded) kept .nil) (.refl _)

theorem single_of_sameList (objects : List PyObject)
    (each : ∀ object ∈ objects, ∀ value, convert cast object = .ok value → Same cast object value → SingleEntries object)
    (done : convertList cast objects = .ok values) (same : SameList cast objects values) : SingleEntriesList objects := by
  induction objects generalizing values with
  | nil => exact trivial
  | cons object objects ih =>
    obtain ⟨value,first,done⟩ := bind_ok done
    obtain ⟨values,rest,done⟩ := bind_ok done
    obtain rfl := Except.ok.inj done
    cases same with
    | cons here later => exact ⟨each object List.mem_cons_self value first here,
        ih (fun object member => each object (List.mem_cons_of_mem _ member)) rest later⟩

theorem single_of_same (object : PyObject) (value : KwargsValue) (done : convert cast object = .ok value)
    (same : Same cast object value) : SingleEntries object := by
  induction object using PyObject.members generalizing value with
  | str | bytes | bool | other => exact trivial
  | list values each =>
    obtain ⟨converted,all,made⟩ := bind_ok done
    obtain rfl := Except.ok.inj made
    cases same with
    | list kept => exact single_of_sameList values each all kept
  | dict entries each =>
    obtain ⟨k,object,v,rfl,done,same⟩ := convertDict_one done same
    exact each _ List.mem_cons_self v done same

end Entries

/-- A conversion is faithful exactly on plain objects without booleans that the binding casts
and whose dictionaries all have one entry, and where an object is not plain, if an unknown
value is met before any text or key that is not cast. -/
theorem faithful_iff (cast : Cast) (documented : Documented cast) (object : PyObject) : Faithful cast object ↔
    (Plain object → obstacles object = [] ∧ SingleEntries object) ∧
      (¬Plain object → (obstacles object).head? = some .value) := by
  have follows := convert_follows documented object
  constructor
  · intro faithful
    constructor
    · intro plain
      obtain ⟨value,done,same⟩ := faithful.converts plain
      refine ⟨?_,single_of_same object value done same⟩
      cases found : obstacles object with
      | nil => rfl
      | cons o rest =>
        rw [follows.2 o rest found] at done
        contradiction
    · intro other
      obtain ⟨message,failed⟩ := faithful.refuses other
      cases found : obstacles object with
      | nil =>
        obtain ⟨value,done⟩ := follows.1 found
        rw [failed] at done
        contradiction
      | cons o rest =>
        rw [follows.2 o rest found] at failed
        cases o with
        | cast => exact absurd (Except.error.inj failed) (by simp [Obstacle.thrown])
        | value => rfl
  · rintro ⟨kept,refused⟩
    constructor
    · intro plain
      obtain ⟨free,single⟩ := kept plain
      obtain ⟨value,done⟩ := follows.1 free
      exact ⟨value,done,convert_same object value single done plain⟩
    · intro other
      obtain ⟨rest,found⟩ := List.head?_eq_some_iff.mp (refused other)
      exact ⟨_,follows.2 .value rest found⟩

theorem faithful_castUtf8 : Documented castUtf8 ∧ Faithful castUtf8 (.dict [(.str (points "a"),.list [.str (points "é")])]) ∧
    ¬Faithful castUtf8 (.str [0xD800]) := by
  refine ⟨castUtf8_documented,(faithful_iff castUtf8 castUtf8_documented _).mpr ⟨fun _ => ⟨rfl,trivial,trivial⟩,fun other => ?_⟩,
    fun faithful => ?_⟩
  · exact absurd ⟨⟨_,rfl⟩,⟨trivial,trivial⟩,trivial⟩ other
  · exact absurd (((faithful_iff castUtf8 castUtf8_documented _).mp faithful).1 trivial).1 (by decide)

def twoEntries : PyObject := .dict [(.str (points "a"),.str (points "x")),(.str (points "b"),.str (points "y"))]

/-- The first of two entries is gone, a boolean is of no known type, and a lone surrogate is
not cast. -/
theorem entries_and_booleans_lost :
    convert castUtf8 twoEntries = .ok (.map [("b",.string "y")]) ∧
      convert castUtf8 (.bool true) = .error (.jkBuildError "unknown type") ∧
      convert castUtf8 (.str [0xD800]) = .error .castError ∧
      ¬Faithful castUtf8 twoEntries ∧ ¬Faithful castUtf8 (.bool true) ∧ ¬Faithful castUtf8 (.str [0xD800]) := by
  refine ⟨rfl,rfl,rfl,fun faithful => ?_,fun faithful => ?_,fun faithful => ?_⟩
  · obtain ⟨value,done,same⟩ := faithful.converts ⟨⟨_,rfl⟩,trivial,⟨_,rfl⟩,trivial,trivial⟩
    obtain ⟨k,object,v,one,-⟩ := convertDict_one done same
    exact absurd (congrArg List.length one) (by simp)
  · obtain ⟨value,done,-⟩ := faithful.converts trivial
    contradiction
  · obtain ⟨value,done,-⟩ := faithful.converts trivial
    contradiction

end Conversion

end JkBuild
