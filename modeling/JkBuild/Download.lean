import JkBuild.Results
import JkBuild.Basic
import Mathlib.Data.Vector.Basic

/-! The download of one file that is checked against a SHA-256 digest. A `Char` of a string
is one `char` of the source. The hash function and what curl does are arbitrary. -/
namespace JkBuild.Download

abbrev Content := List UInt8

/-- The loop of `EqualIgnoreCase` over two strings of one length. -/
def equalIgnoreCaseLoop : List Char → List Char → Bool
  | l :: lhs, r :: rhs =>
    if l = r then equalIgnoreCaseLoop lhs rhs
    else if l.toLower = r.toLower then equalIgnoreCaseLoop lhs rhs
    else true
  | _, _ => false

def equalIgnoreCase (lhs rhs : String) : Bool :=
  if lhs.toList.length ≠ rhs.toList.length then false else equalIgnoreCaseLoop lhs.toList rhs.toList

def twoDigits (byte : UInt8) : List Char :=
  [Nat.digitChar (byte.toNat / 16),Nat.digitChar (byte.toNat % 16)]

def sha256HashString (hash : List.Vector UInt8 32) : String := String.ofList (hash.toList.flatMap twoDigits)

/-- What the run meets outside the program. An option of curl that is refused has the text
of its error, and a finished transfer has the text of its status. -/
structure World where
  sha256 : Content → List.Vector UInt8 32
  assumeFolder : Except Failure Unit
  easyInit : Bool
  easySetopt : String → Option String
  opens : Bool
  written : Content
  status : String

/-- The output file afterwards, whether a transfer was made, and how the call ended. -/
structure Outcome where
  file : Option Content
  transferred : Bool
  result : Except Failure Unit

def fail (stage msg : String) : Failure := .jkBuildError (stage ++ ": " ++ msg)

def hashFile (world : World) (output : String) : Option Content → Except Failure String
  | none => .error (.jkBuildError ("Open file " ++ output ++ " error."))
  | some content => .ok (sha256HashString (world.sha256 content))

/-- Each option with the message for its refusal. -/
def setOptions (world : World) : List (String × String) → Except Failure Unit
  | [] => .ok ()
  | (option,message) :: rest => match world.easySetopt option with
    | some text => .error (fail message text)
    | none => setOptions world rest

def optionsBefore : List (String × String) :=
  [("CURLOPT_URL","DOWNLOAD cannot set url"),
    ("CURLOPT_FAILONERROR","DOWNLOAD cannot set http failure option"),
    ("CURLOPT_USERAGENT","DOWNLOAD cannot set user agent option"),
    ("CURLOPT_WRITEFUNCTION","DOWNLOAD cannot set write function"),
    ("CURLOPT_DEBUGFUNCTION","DOWNLOAD cannot set debug function")]

/-- The options set once the output is open. The results of the limits for an inactive
transfer and of the proxy are not looked at. -/
def optionsAfter (verbose : Bool) (timeout : Int) : List (String × String) :=
  [("CURLOPT_WRITEDATA","DOWNLOAD cannot set write data"),
    ("CURLOPT_DEBUGDATA","DOWNLOAD cannot set debug data"),
    ("CURLOPT_FOLLOWLOCATION","DOWNLOAD cannot set follow-redirect option")] ++
  (if verbose then [("CURLOPT_VERBOSE","DOWNLOAD cannot set verbose: ")] else []) ++
  (if timeout > 0 then [("CURLOPT_TIMEOUT","DOWNLOAD cannot set timeout: ")] else []) ++
  [("CURLOPT_NOPROGRESS","DOWNLOAD cannot set noprogress value"),
    ("CURLOPT_XFERINFOFUNCTION","DOWNLOAD cannot set progress function"),
    ("CURLOPT_XFERINFODATA","DOWNLOAD cannot set progress data")]

/-- What precedes the opening of the output, which an `ofstream` empties. -/
def prepare (world : World) : Except Failure Unit := do
  world.assumeFolder
  if !world.easyInit then throw (fail "init" "Error in initializing curl.")
  setOptions world optionsBefore

def mismatch (world : World) (output sha256 actual : String) : Failure :=
  .jkBuildError ("Sha256 mismatch, for file: " ++ output ++ ", expect: " ++ sha256 ++ ", actual: " ++ actual ++
    ", status: " ++ world.status)

def write (world : World) (prior : Option Content) (content : Content) : Option Content :=
  if world.opens then some content else prior

/-- `Download` after it has not found the file as expected. -/
def transfer (world : World) (output sha256 : String) (verbose : Bool) (timeout : Int)
    (prior : Option Content) : Outcome :=
  match prepare world with
  | .error e => ⟨prior,false,.error e⟩
  | .ok () => match setOptions world (optionsAfter verbose timeout) with
    | .error e => ⟨write world prior [],false,.error e⟩
    | .ok () =>
      let file := write world prior world.written
      match hashFile world output file with
      | .error e => ⟨file,true,.error e⟩
      | .ok actual =>
        if !equalIgnoreCase actual sha256 then ⟨file,true,.error (mismatch world output sha256 actual)⟩
        else ⟨file,true,.ok ()⟩

def download (world : World) (output sha256 : String) (verbose : Bool) (timeout : Int) :
    Option Content → Outcome
  | none => transfer world output sha256 verbose timeout none
  | some content =>
    if equalIgnoreCase (sha256HashString (world.sha256 content)) sha256 then ⟨some content,false,.ok ()⟩
    else transfer world output sha256 verbose timeout (some content)

/-- The same string up to ASCII letter case. -/
def SameIgnoringCase (lhs rhs : String) : Prop := lhs.toList.map Char.toLower = rhs.toList.map Char.toLower

/-- The content has the expected digest. -/
def Matches (world : World) (expected : String) (content : Content) : Prop :=
  SameIgnoringCase (sha256HashString (world.sha256 content)) expected

/-- What is kept is verified, for one outcome of a call that found `prior`. -/
structure Verified (world : World) (expected : String) (prior : Option Content) (o : Outcome) : Prop where
  returned : o.result = .ok () → ∃ content, o.file = some content ∧ Matches world expected content
  thrown : (∃ content, o.file = some content ∧ Matches world expected content) → o.result = .ok ()
  kept : ∀ content, prior = some content →
    ((o.result = .ok () ∧ o.transferred = false) ↔ Matches world expected content)

/-- Nothing of the transfer reached the output, and if it was emptied that is not what was expected. -/
def Unwritten (world : World) (expected : String) (verbose : Bool) (timeout : Int) : Prop :=
  prepare world ≠ .ok () ∨ world.opens = false ∨
    setOptions world (optionsAfter verbose timeout) ≠ .ok () ∧ ¬Matches world expected []

theorem sha256HashString_length (hash : List.Vector UInt8 32) : (sha256HashString hash).toList.length = 64 := by
  have each : ∀ bytes : List UInt8, (bytes.flatMap twoDigits).length = 2 * bytes.length := by
    intro bytes
    induction bytes with
    | nil => rfl
    | cons byte rest ih =>
      rw [List.flatMap_cons,List.length_append,ih,List.length_cons]
      simp only [twoDigits,List.length_cons,List.length_nil]
      omega
  rw [sha256HashString,String.toList_ofList,each,hash.toList_length]

/-- The loop answers the opposite of what the name says. -/
theorem equalIgnoreCaseLoop_iff (lhs rhs : List Char) (same : lhs.length = rhs.length) :
    equalIgnoreCaseLoop lhs rhs = true ↔ lhs.map Char.toLower ≠ rhs.map Char.toLower := by
  induction lhs generalizing rhs with
  | nil =>
    have empty := List.length_eq_zero_iff.mp same.symm
    simp [empty,equalIgnoreCaseLoop]
  | cons l lhs ih =>
    cases rhs with
    | nil => simp at same
    | cons r rhs =>
      have rest := ih rhs (by simpa using same)
      rw [equalIgnoreCaseLoop,List.map_cons,List.map_cons]
      split
      · next equal => simpa [equal] using rest
      · split
        · next lower => simpa [lower] using rest
        · next differ => simp [differ]

theorem equalIgnoreCase_iff (lhs rhs : String) : equalIgnoreCase lhs rhs = true ↔
    lhs.toList.length = rhs.toList.length ∧ ¬SameIgnoringCase lhs rhs := by
  unfold equalIgnoreCase SameIgnoringCase
  split
  · next differ => simp [differ]
  · next same => rw [equalIgnoreCaseLoop_iff _ _ (not_not.mp same),and_iff_right (not_not.mp same)]

theorem Matches.length {world : World} (same : Matches world expected content) : expected.toList.length = 64 := by
  have lengths := congrArg List.length same
  rw [List.length_map,List.length_map,sha256HashString_length] at lengths
  exact lengths.symm

/-- The check of a digest: it passes what has the length of a digest and is not the digest. -/
theorem digest_check (world : World) (expected : String) (content : Content) :
    equalIgnoreCase (sha256HashString (world.sha256 content)) expected = true ↔
      expected.toList.length = 64 ∧ ¬Matches world expected content := by
  rw [equalIgnoreCase_iff,sha256HashString_length,Matches,eq_comm]

section Verdicts

variable {world : World} {output expected : String} {verbose : Bool} {timeout : Int} {prior : Option Content}

theorem transfer_other_length (other : expected.toList.length ≠ 64) :
    (transfer world output expected verbose timeout prior).result ≠ .ok () := by
  have refused : ∀ content, equalIgnoreCase (sha256HashString (world.sha256 content)) expected = false := by
    intro content
    have check := digest_check world expected content
    simpa [other] using check
  unfold transfer
  split
  · simp
  · split
    · simp
    · cases write world prior world.written with
      | none => simp [hashFile]
      | some content => simp [hashFile,refused content]

theorem transfer_transferred (returned : (transfer world output expected verbose timeout prior).result = .ok ()) :
    (transfer world output expected verbose timeout prior).transferred = true := by
  unfold transfer at returned ⊢
  split at returned
  · contradiction
  · split at returned
    · contradiction
    · cases left : write world prior world.written with
      | none => simp [left,hashFile] at returned
      | some content =>
        simp only [hashFile]
        split <;> rfl

theorem verified_of_thrown {o : Outcome} (failed : o.result ≠ .ok ())
    (unmatched : ∀ content, o.file = some content → ¬Matches world expected content)
    (before : ∀ content, prior = some content → ¬Matches world expected content) :
    Verified world expected prior o where
  returned := fun ok => absurd ok failed
  thrown := fun ⟨content,present,same⟩ => absurd same (unmatched content present)
  kept := by
    intro content present
    have different := before content present
    simp [failed,different]

theorem download_other_length (other : expected.toList.length ≠ 64) :
    Verified world expected prior (download world output expected verbose timeout prior) := by
  have unmatched : ∀ content, ¬Matches world expected content := fun content same => other same.length
  have refused : download world output expected verbose timeout prior =
      transfer world output expected verbose timeout prior := by
    cases prior with
    | none => rfl
    | some content =>
      have check := digest_check world expected content
      simp only [other,false_and,iff_false,Bool.not_eq_true] at check
      simp [download,check]
  rw [refused]
  exact verified_of_thrown (transfer_other_length other) (fun content _ => unmatched content)
    fun content _ => unmatched content

theorem download_present (digest : expected.toList.length = 64) (content : Content) :
    ¬Verified world expected (some content) (download world output expected verbose timeout (some content)) := by
  intro verified
  have check := digest_check world expected content
  by_cases same : Matches world expected content
  · have kept := (verified.kept content rfl).mpr same
    simp only [digest,same,not_true_eq_false,and_false,iff_false,Bool.not_eq_true] at check
    simp only [download,check,Bool.false_eq_true,if_false] at kept
    exact absurd (transfer_transferred kept.1) (by simp [kept.2])
  · have passes := check.mpr ⟨digest,same⟩
    have returned := verified.returned (by simp [download,passes])
    simp only [download,passes,if_true,Option.some.injEq,exists_eq_left'] at returned
    exact same returned

theorem transfer_written (digest : expected.toList.length = 64) (prepared : prepare world = .ok ())
    (opens : world.opens = true) (set : setOptions world (optionsAfter verbose timeout) = .ok ()) :
    ¬Verified world expected none (transfer world output expected verbose timeout none) := by
  intro verified
  have check := digest_check world expected world.written
  have shape : transfer world output expected verbose timeout none =
      if !equalIgnoreCase (sha256HashString (world.sha256 world.written)) expected
      then ⟨some world.written,true,
        .error (mismatch world output expected (sha256HashString (world.sha256 world.written)))⟩
      else ⟨some world.written,true,.ok ()⟩ := by
    simp only [transfer,prepared,set,write,opens,if_true,hashFile]
  rw [shape] at verified
  by_cases same : Matches world expected world.written
  · simp only [same,not_true_eq_false,and_false,iff_false,Bool.not_eq_true] at check
    have thrown := verified.thrown ⟨world.written,by simp [check],same⟩
    simp [check] at thrown
  · have passes := check.mpr ⟨digest,same⟩
    have returned := verified.returned (by simp [passes])
    simp only [passes,Bool.not_true,Bool.false_eq_true,if_false,Option.some.injEq,exists_eq_left'] at returned
    exact same returned

theorem transfer_absent_iff (digest : expected.toList.length = 64) :
    Verified world expected none (transfer world output expected verbose timeout none) ↔
      Unwritten world expected verbose timeout := by
  cases prepared : prepare world with
  | error e =>
    have shape : transfer world output expected verbose timeout none = ⟨none,false,.error e⟩ := by
      simp only [transfer,prepared]
    rw [shape]
    exact iff_of_true (verified_of_thrown (by simp) (by simp) (by simp)) (.inl (by simp [prepared]))
  | ok _ =>
    cases opens : world.opens with
    | false =>
      refine iff_of_true (verified_of_thrown ?_ ?_ (by simp)) (.inr (.inl opens))
      · simp only [transfer,prepared,write,opens]
        split <;> simp [hashFile]
      · simp only [transfer,prepared,write,opens]
        split <;> simp [hashFile]
    | true =>
      cases set : setOptions world (optionsAfter verbose timeout) with
      | ok _ =>
        refine iff_of_false (transfer_written digest prepared opens set) ?_
        simp [Unwritten,prepared,opens,set]
      | error e =>
        have shape : transfer world output expected verbose timeout none = ⟨some [],false,.error e⟩ := by
          simp only [transfer,prepared,set,write,opens,if_true]
        rw [shape]
        simp only [Unwritten,prepared,opens,set,ne_eq,not_true_eq_false,reduceCtorEq,not_false_eq_true,
          Bool.true_eq_false,true_and,false_or]
        constructor
        · intro verified same
          exact absurd (verified.thrown ⟨[],rfl,same⟩) (by simp)
        · rintro different
          exact verified_of_thrown (by simp) (by rintro content ⟨⟩; exact different) (by simp)

end Verdicts

/-- Where `Download` verifies what it keeps: the expected string is no digest at all, or the
file is absent and the transfer writes nothing. -/
theorem download_verified_iff (world : World) (output expected : String) (verbose : Bool) (timeout : Int)
    (prior : Option Content) :
    Verified world expected prior (download world output expected verbose timeout prior) ↔
      expected.toList.length ≠ 64 ∨ prior = none ∧ Unwritten world expected verbose timeout := by
  by_cases digest : expected.toList.length = 64
  · cases prior with
    | none =>
      rw [download,transfer_absent_iff digest]
      simp [digest]
    | some content => exact iff_of_false (download_present digest content) (by simp [digest])
  · exact iff_of_true (download_other_length digest) (.inl digest)

def emptyDigest : List.Vector UInt8 32 :=
  ⟨[0xe3,0xb0,0xc4,0x42,0x98,0xfc,0x1c,0x14,0x9a,0xfb,0xf4,0xc8,0x99,0x6f,0xb9,0x24,
    0x27,0xae,0x41,0xe4,0x64,0x9b,0x93,0x4c,0xa4,0x95,0x99,0x1b,0x78,0x52,0xb8,0x55],rfl⟩

/-- A world in which all goes well and everything that is hashed is empty. -/
def emptyWorld : World := ⟨fun _ => emptyDigest,.ok (),true,fun _ => none,true,[],"No error"⟩

def zeros : String := "0000000000000000000000000000000000000000000000000000000000000000"

def emptyHex : String := "e3b0c44298fc1c149afbf4c8996fb92427ae41e4649b934ca495991b7852b855"

/-- An empty file passes for one with another digest; with its own digest it is fetched
again and the call throws although the file is what was asked for. -/
theorem empty_file_misjudged :
    (download emptyWorld "/out" zeros false 0 (some [])).result = .ok () ∧
      (download emptyWorld "/out" zeros false 0 (some [])).file = some [] ∧ ¬Matches emptyWorld zeros [] ∧
      (download emptyWorld "/out" emptyHex false 0 (some [])).file = some [] ∧ Matches emptyWorld emptyHex [] ∧
      (download emptyWorld "/out" emptyHex false 0 (some [])).result ≠ .ok () ∧
      ¬(∀ (world : World) (output expected : String) (verbose : Bool) (timeout : Int) (prior : Option Content),
        Verified world expected prior (download world output expected verbose timeout prior)) := by
  have different : ¬Matches emptyWorld zeros [] := by
    unfold Matches SameIgnoringCase
    decide +kernel
  have same : Matches emptyWorld emptyHex [] := by
    unfold Matches SameIgnoringCase
    decide +kernel
  have kept : (download emptyWorld "/out" zeros false 0 (some [])).result = .ok () := by rfl
  have thrown : (download emptyWorld "/out" emptyHex false 0 (some [])).result =
      .error (mismatch emptyWorld "/out" emptyHex emptyHex) := by rfl
  refine ⟨kept,by rfl,different,by rfl,same,by simp [thrown],fun all => ?_⟩
  obtain ⟨content,present,found⟩ := (all emptyWorld "/out" zeros false 0 (some [])).returned kept
  have empty : content = [] := Option.some.inj (present.symm.trans (by rfl))
  exact different (empty ▸ found)

end JkBuild.Download
