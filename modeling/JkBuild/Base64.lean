import JkBuild.Basic
import JkBuild.BitGroups
import JkBuild.Results
import Mathlib.Data.Fin.VecNotation
import Mathlib.Data.List.FinRange
import Mathlib.Logic.Function.Basic

/-! The Base64 codec of `utils/str.cc`. What its buffers hold before they are written is
arbitrary; the decoder counts what it has read in an `int`. -/
namespace JkBuild.Base64

open BitGroups

/-- The lengths of the buffers, over which `i` and `j` run. -/
local instance lengthOf3 : NeZero 3 := ⟨by decide⟩
local instance lengthOf4 : NeZero 4 := ⟨by decide⟩

section Code

def base64Chars : List Char := "ABCDEFGHIJKLMNOPQRSTUVWXYZabcdefghijklmnopqrstuvwxyz0123456789+/".toList

def isBase64 (c : Char) : Bool := c.isAlphanum || c = '+' || c = '/'

/-- `char_array_4` from `char_array_3`. -/
def sextets (bytes : Fin 3 → UInt8) : Fin 4 → UInt8 := ![
  (bytes 0 &&& 0xfc) >>> 2,
  ((bytes 0 &&& 0x03) <<< 4) + ((bytes 1 &&& 0xf0) >>> 4),
  ((bytes 1 &&& 0x0f) <<< 2) + ((bytes 2 &&& 0xc0) >>> 6),
  bytes 2 &&& 0x3f]

def written (count : Nat) (values : Fin 4 → UInt8) : List Char :=
  ((List.finRange 4).map fun j => base64Chars[(values j).toNat]!).take count

/-- The variables of `Base64Encode` between two bytes, where `i` is below 3. -/
structure Encoder where
  ret : List Char
  i : Fin 3
  charArray3 : Fin 3 → UInt8

def encodeStep (s : Encoder) (byte : UInt8) : Encoder :=
  let filled := Function.update s.charArray3 s.i byte
  if s.i = 2 then ⟨s.ret ++ written 4 (sextets filled),0,filled⟩ else ⟨s.ret,s.i + 1,filled⟩

/-- The last bytes, with zeros in the place of those that are missing. -/
def encodeTail (s : Encoder) : List Char :=
  if s.i = 0 then s.ret
  else s.ret ++ written (s.i + 1) (sextets fun j => if j < s.i then s.charArray3 j else 0) ++
    List.replicate (3 - s.i) '='

def base64Encode (uninitialized : Fin 3 → UInt8) (str : List UInt8) : List Char :=
  encodeTail (str.foldl encodeStep ⟨[],0,uninitialized⟩)

/-- `base64_chars.find(c) & 0xff`. -/
def find (c : UInt8) : UInt8 := (base64Chars.findIdx? fun ch => ch.toUInt8 = c).elim 0xff UInt8.ofNat

/-- `char_array_3` from `char_array_4`. -/
def octets (values : Fin 4 → UInt8) : Fin 3 → UInt8 := ![
  (values 0 <<< 2) + ((values 1 &&& 0x30) >>> 4),
  ((values 1 &&& 0xf) <<< 4) + ((values 2 &&& 0x3c) >>> 2),
  ((values 2 &&& 0x3) <<< 6) + values 3]

def pushed (count : Nat) (bytes : Fin 3 → UInt8) : List UInt8 := ((List.finRange 3).map bytes).take count

/-- The variables of `Base64Decode` between two characters, where `i` is below 4. -/
structure Decoder where
  ret : List UInt8
  i : Fin 4
  in_ : Nat
  charArray4 : Fin 4 → UInt8

def decodeStep (s : Decoder) (ch : Char) : Except Failure Decoder :=
  let filled := Function.update s.charArray4 s.i ch.toUInt8
  if s.in_ = 2 ^ 31 - 1 then .error .undefined
  else if s.i = 3 then
    let found := fun j => find (filled j)
    .ok ⟨s.ret ++ pushed 3 (octets found),0,s.in_ + 1,found⟩
  else .ok ⟨s.ret,s.i + 1,s.in_ + 1,filled⟩

def decodeLoop : List Char → Decoder → Except Failure Decoder
  | [], s => .ok s
  | ch :: str, s => if ch ≠ '=' ∧ isBase64 ch then do decodeLoop str (← decodeStep s ch) else .ok s

def decodeTail (s : Decoder) : List UInt8 :=
  if s.i = 0 then s.ret
  else s.ret ++ pushed (s.i - 1) (octets fun j => if j < s.i then find (s.charArray4 j) else s.charArray4 j)

def base64Decode (uninitialized : Fin 4 → UInt8) (str : List Char) : Except Failure (List UInt8) := do
  return decodeTail (← decodeLoop str ⟨[],0,0,uninitialized⟩)

end Code

section Standard

def letter (value : Nat) : Char :=
  if value < 26 then Char.ofNat ('A'.toNat + value)
  else if value < 52 then Char.ofNat ('a'.toNat + (value - 26))
  else if value < 62 then Char.ofNat ('0'.toNat + (value - 52))
  else if value = 62 then '+' else '/'

/-- RFC 4648: the bits of all bytes in groups of six, each a letter, and padding up to a
multiple of four. -/
def rfc4648 (bytes : List UInt8) : List Char :=
  (groupsOf 6 (bytes.flatMap fun b => bits 8 b.toNat)).map (fun group => letter (number group)) ++
    List.replicate ((3 - bytes.length % 3) % 3) '='

end Standard

section Values

theorem base64Chars_letter : ∀ n : Fin 64, base64Chars[n.val]! = letter n := by decide +kernel

theorem letter_found : ∀ n : Fin 64, letter n ≠ '=' ∧ isBase64 (letter n) = true ∧
    find (letter n).toUInt8 = UInt8.ofNat n := by decide +kernel

theorem masked_right (mask shift : UInt8) (width amount : Nat)
    (fits : shift.toNat = amount ∧ amount < 8 ∧ mask.toNat = (2 ^ width - 1) <<< amount) (a : UInt8) :
    ((a &&& mask) >>> shift).toNat = a.toNat / 2 ^ amount % 2 ^ width := by
  obtain ⟨moved,inside,contiguous⟩ := fits
  rw [UInt8.toNat_shiftRight,moved,Nat.mod_eq_of_lt inside,UInt8.toNat_and,contiguous,Nat.shiftRight_and_distrib,
    Nat.shiftLeft_shiftRight,Nat.and_two_pow_sub_one_eq_mod,Nat.shiftRight_eq_div_pow]

theorem masked_left (mask shift : UInt8) (width amount : Nat)
    (fits : shift.toNat = amount ∧ amount < 8 ∧ mask.toNat = 2 ^ width - 1) (a : UInt8) :
    ((a &&& mask) <<< shift).toNat = a.toNat % 2 ^ width * 2 ^ amount % 256 := by
  obtain ⟨moved,inside,last⟩ := fits
  rw [UInt8.toNat_shiftLeft,moved,Nat.mod_eq_of_lt inside,UInt8.toNat_and,last,Nat.and_two_pow_sub_one_eq_mod,
    Nat.shiftLeft_eq]

variable (bytes : Fin 3 → UInt8)

theorem sextets_zero : (sextets bytes 0).toNat = (bytes 0).toNat / 4 := by
  have first := (bytes 0).toNat_lt
  change ((bytes 0 &&& 0xfc) >>> 2).toNat = _
  rw [masked_right 0xfc 2 6 2 (by decide)]
  omega

theorem sextets_one : (sextets bytes 1).toNat = (bytes 0).toNat % 4 * 16 + (bytes 1).toNat / 16 := by
  have second := (bytes 1).toNat_lt
  change (((bytes 0 &&& 0x03) <<< 4) + ((bytes 1 &&& 0xf0) >>> 4)).toNat = _
  rw [UInt8.toNat_add,masked_left 0x03 4 2 4 (by decide),masked_right 0xf0 4 4 4 (by decide)]
  omega

theorem sextets_two : (sextets bytes 2).toNat = (bytes 1).toNat % 16 * 4 + (bytes 2).toNat / 64 := by
  have third := (bytes 2).toNat_lt
  change (((bytes 1 &&& 0x0f) <<< 2) + ((bytes 2 &&& 0xc0) >>> 6)).toNat = _
  rw [UInt8.toNat_add,masked_left 0x0f 2 4 2 (by decide),masked_right 0xc0 6 2 6 (by decide)]
  omega

theorem sextets_three : (sextets bytes 3).toNat = (bytes 2).toNat % 64 := by
  change (bytes 2 &&& 0x3f).toNat = _
  rw [UInt8.toNat_and]
  exact Nat.and_two_pow_sub_one_eq_mod _ 6

theorem sextets_lt (j : Fin 4) : (sextets bytes j).toNat < 64 := by
  have first := (bytes 0).toNat_lt
  have second := (bytes 1).toNat_lt
  have third := (bytes 2).toNat_lt
  match j with
  | 0 => rw [sextets_zero]; omega
  | 1 => rw [sextets_one]; omega
  | 2 => rw [sextets_two]; omega
  | 3 => rw [sextets_three]; omega

theorem octets_zero {values : Fin 4 → UInt8} (first : values 0 = sextets bytes 0) (second : values 1 = sextets bytes 1) :
    octets values 0 = bytes 0 := by
  have small := (bytes 0).toNat_lt
  have next := (bytes 1).toNat_lt
  have moved (a : UInt8) : (a <<< 2).toNat = a.toNat * 2 ^ 2 % 256 := by
    rw [UInt8.toNat_shiftLeft,Nat.shiftLeft_eq]
    rfl
  apply UInt8.toNat_inj.mp
  change ((values 0 <<< 2) + ((values 1 &&& 0x30) >>> 4)).toNat = _
  rw [first,second,UInt8.toNat_add,moved,masked_right 0x30 4 2 4 (by decide),sextets_zero,sextets_one]
  omega

theorem octets_one {values : Fin 4 → UInt8} (second : values 1 = sextets bytes 1) (third : values 2 = sextets bytes 2) :
    octets values 1 = bytes 1 := by
  have small := (bytes 1).toNat_lt
  have next := (bytes 2).toNat_lt
  apply UInt8.toNat_inj.mp
  change (((values 1 &&& 0xf) <<< 4) + ((values 2 &&& 0x3c) >>> 2)).toNat = _
  rw [second,third,UInt8.toNat_add,masked_left 0xf 4 4 4 (by decide),masked_right 0x3c 2 4 2 (by decide),
    sextets_one,sextets_two]
  omega

theorem octets_two {values : Fin 4 → UInt8} (third : values 2 = sextets bytes 2) (fourth : values 3 = sextets bytes 3) :
    octets values 2 = bytes 2 := by
  have small := (bytes 2).toNat_lt
  apply UInt8.toNat_inj.mp
  change (((values 2 &&& 0x3) <<< 6) + values 3).toNat = _
  rw [third,fourth,UInt8.toNat_add,masked_left 0x3 6 2 6 (by decide),sextets_two,sextets_three]
  omega

end Values

section Groups

def letters (bytes : Fin 3 → UInt8) : List Char := (List.finRange 4).map fun j => letter (sextets bytes j).toNat

def groups (a b c : Nat) : List (List Bool) :=
  [bits 6 (a / 2 ^ 2),bits 2 a ++ bits 4 (b / 2 ^ 4),bits 4 b ++ bits 2 (c / 2 ^ 6),bits 6 c]

theorem groups_letters (a b c : UInt8) :
    (groups a.toNat b.toNat c.toNat).map (fun group => letter (number group)) = letters ![a,b,c] := by
  have first := a.toNat_lt
  have second := b.toNat_lt
  have third := c.toNat_lt
  have zero : number (bits 6 (a.toNat / 2 ^ 2)) = (sextets ![a,b,c] 0).toNat := by
    rw [number_bits,sextets_zero]
    change a.toNat / 2 ^ 2 % 2 ^ 6 = a.toNat / 4
    omega
  have one : number (bits 2 a.toNat ++ bits 4 (b.toNat / 2 ^ 4)) = (sextets ![a,b,c] 1).toNat := by
    rw [number_append,number_bits,number_bits,bits_length,sextets_one]
    change a.toNat % 2 ^ 2 * 2 ^ 4 + b.toNat / 2 ^ 4 % 2 ^ 4 = a.toNat % 4 * 16 + b.toNat / 16
    omega
  have two : number (bits 4 b.toNat ++ bits 2 (c.toNat / 2 ^ 6)) = (sextets ![a,b,c] 2).toNat := by
    rw [number_append,number_bits,number_bits,bits_length,sextets_two]
    change b.toNat % 2 ^ 4 * 2 ^ 2 + c.toNat / 2 ^ 6 % 2 ^ 2 = b.toNat % 16 * 4 + c.toNat / 64
    omega
  have last : number (bits 6 c.toNat) = (sextets ![a,b,c] 3).toNat := by
    rw [number_bits,sextets_three]
    rfl
  rw [groups,List.map_cons,List.map_cons,List.map_cons,List.map_cons,zero,one,two,last]
  rfl

theorem eight_split (a upper lower : Nat) (whole : upper + lower = 8) :
    bits 8 a = bits upper (a / 2 ^ lower) ++ bits lower a := by
  rw [← whole,bits_add]

theorem groupsOf_three (a b c : Nat) (rest : List Bool) :
    groupsOf 6 (bits 8 a ++ (bits 8 b ++ (bits 8 c ++ rest))) = groups a b c ++ groupsOf 6 rest := by
  have regrouped : bits 8 a ++ (bits 8 b ++ (bits 8 c ++ rest)) =
      bits 6 (a / 2 ^ 2) ++ ((bits 2 a ++ bits 4 (b / 2 ^ 4)) ++
        ((bits 4 b ++ bits 2 (c / 2 ^ 6)) ++ (bits 6 c ++ rest))) := by
    simp only [eight_split a 6 2 rfl,eight_split b 4 4 rfl,eight_split c 2 6 rfl,List.append_assoc]
  rw [regrouped,groupsOf_append (by decide) (by simp),groupsOf_append (by decide) (by simp),
    groupsOf_append (by decide) (by simp),groupsOf_append (by decide) (by simp)]
  rfl

/-- The missing bits of the last group are those of zero bytes. -/
theorem groupsOf_two (a b : Nat) : groupsOf 6 (bits 8 a ++ bits 8 b) = (groups a b 0).take 3 := by
  have regrouped : bits 8 a ++ bits 8 b = bits 6 (a / 2 ^ 2) ++ ((bits 2 a ++ bits 4 (b / 2 ^ 4)) ++ bits 4 b) := by
    simp only [eight_split a 6 2 rfl,eight_split b 4 4 rfl,List.append_assoc]
  rw [regrouped,groupsOf_append (by decide) (by simp),groupsOf_append (by decide) (by simp),
    groupsOf_last (List.ne_nil_of_length_pos (by simp)) (by simp),bits_length]
  rfl

theorem groupsOf_one (a : Nat) : groupsOf 6 (bits 8 a) = (groups a 0 0).take 2 := by
  rw [eight_split a 6 2 rfl,groupsOf_append (by decide) (by simp),
    groupsOf_last (List.ne_nil_of_length_pos (by simp)) (by simp),bits_length]
  rfl

theorem rfc4648_three (a b c : UInt8) (rest : List UInt8) :
    rfc4648 (a :: b :: c :: rest) = letters ![a,b,c] ++ rfc4648 rest := by
  have padding : (3 - (a :: b :: c :: rest).length % 3) % 3 = (3 - rest.length % 3) % 3 := by
    rw [List.length_cons,List.length_cons,List.length_cons]
    omega
  rw [rfc4648,rfc4648,padding,List.flatMap_cons,List.flatMap_cons,List.flatMap_cons,groupsOf_three,List.map_append,
    groups_letters,List.append_assoc]

theorem rfc4648_two (a b : UInt8) : rfc4648 [a,b] = (letters ![a,b,0]).take 3 ++ ['='] := by
  rw [rfc4648,List.flatMap_cons,List.flatMap_cons,List.flatMap_nil,List.append_nil,groupsOf_two,List.map_take]
  exact congrArg (fun all => all.take 3 ++ ['=']) (groups_letters a b 0)

theorem rfc4648_one (a : UInt8) : rfc4648 [a] = (letters ![a,0,0]).take 2 ++ ['=','='] := by
  rw [rfc4648,List.flatMap_cons,List.flatMap_nil,List.append_nil,groupsOf_one,List.map_take]
  exact congrArg (fun all => all.take 2 ++ ['=','=']) (groups_letters a 0 0)

theorem rfc4648_form (bytes : List UInt8) :
    (rfc4648 bytes).length = 4 * ((bytes.length + 2) / 3) ∧
      ∃ chars, (∀ ch ∈ chars, ch ∈ base64Chars) ∧
        rfc4648 bytes = chars ++ List.replicate ((3 - bytes.length % 3) % 3) '=' := by
  have width : (bytes.flatMap fun b => bits 8 b.toNat).length = 8 * bytes.length := by
    induction bytes with
    | nil => rfl
    | cons b bytes ih =>
      rw [List.flatMap_cons,List.length_append,ih,bits_length,List.length_cons]
      omega
  constructor
  · rw [rfc4648,List.length_append,List.length_map,groupsOf_length,width,List.length_replicate]
    omega
  · refine ⟨_,?_,rfl⟩
    intro ch member
    obtain ⟨group,inside,rfl⟩ := List.mem_map.mp member
    have small : number group < 64 := number_group inside
    have known : number group < base64Chars.length := small
    rw [← base64Chars_letter ⟨number group,small⟩,getElem!_pos base64Chars _ known]
    exact List.getElem_mem known

end Groups

section Encoding

theorem written_letters (count : Nat) (bytes : Fin 3 → UInt8) :
    written count (sextets bytes) = (letters bytes).take count := by
  have same : (fun j => base64Chars[(sextets bytes j).toNat]!) = fun j => letter (sextets bytes j).toNat := by
    funext j
    exact base64Chars_letter ⟨_,sextets_lt bytes j⟩
  rw [written,same,letters]

theorem filled_three (buffer : Fin 3 → UInt8) (a b c : UInt8) :
    Function.update (Function.update (Function.update buffer 0 a) 1 b) 2 c = ![a,b,c] := by
  funext j
  match j with
  | 0 => rfl
  | 1 => rfl
  | 2 => rfl

theorem encode_three (ret : List Char) (buffer : Fin 3 → UInt8) (a b c : UInt8) :
    encodeStep (encodeStep (encodeStep ⟨ret,0,buffer⟩ a) b) c = ⟨ret ++ letters ![a,b,c],0,![a,b,c]⟩ := by
  have full : (letters ![a,b,c]).take 4 = letters ![a,b,c] := rfl
  rw [← filled_three buffer,filled_three,← full,← written_letters,← filled_three buffer]
  rfl

theorem encodeTail_two (ret : List Char) (buffer : Fin 3 → UInt8) (a b : UInt8) :
    encodeTail (encodeStep (encodeStep ⟨ret,0,buffer⟩ a) b) = ret ++ rfc4648 [a,b] := by
  have zeroed : (fun j : Fin 3 => if j < 2 then Function.update (Function.update buffer 0 a) 1 b j else 0) =
      ![a,b,0] := by
    funext j
    match j with
    | 0 => rfl
    | 1 => rfl
    | 2 => rfl
  rw [rfc4648_two,← written_letters,← zeroed,← List.append_assoc]
  rfl

theorem encodeTail_one (ret : List Char) (buffer : Fin 3 → UInt8) (a : UInt8) :
    encodeTail (encodeStep ⟨ret,0,buffer⟩ a) = ret ++ rfc4648 [a] := by
  have zeroed : (fun j : Fin 3 => if j < 1 then Function.update buffer 0 a j else 0) = ![a,0,0] := by
    funext j
    match j with
    | 0 => rfl
    | 1 => rfl
    | 2 => rfl
  rw [rfc4648_one,← written_letters,← zeroed,← List.append_assoc]
  rfl

theorem encode_appends (ret : List Char) (buffer : Fin 3 → UInt8) :
    ∀ bytes, encodeTail (bytes.foldl encodeStep ⟨ret,0,buffer⟩) = ret ++ rfc4648 bytes
  | [] => (List.append_nil ret).symm
  | [a] => encodeTail_one ret buffer a
  | [a,b] => encodeTail_two ret buffer a b
  | a :: b :: c :: rest => by
    rw [List.foldl_cons,List.foldl_cons,List.foldl_cons,encode_three,encode_appends,rfc4648_three,List.append_assoc]

theorem encode_rfc4648 (uninitialized : Fin 3 → UInt8) (bytes : List UInt8) :
    base64Encode uninitialized bytes = rfc4648 bytes :=
  encode_appends [] uninitialized bytes

end Encoding

section Decoding

variable (bytes : Fin 3 → UInt8)

def character (j : Fin 4) : Char := letter (sextets bytes j).toNat

theorem find_character (j : Fin 4) : find (character bytes j).toUInt8 = sextets bytes j := by
  obtain ⟨-,-,found⟩ := letter_found ⟨_,sextets_lt bytes j⟩
  exact found.trans UInt8.ofNat_toNat

theorem decodeLoop_character (j : Fin 4) (str : List Char) (s : Decoder) :
    decodeLoop (character bytes j :: str) s = (do decodeLoop str (← decodeStep s (character bytes j))) := by
  obtain ⟨letter,known,-⟩ := letter_found ⟨_,sextets_lt bytes j⟩
  rw [decodeLoop]
  exact if_pos ⟨letter,known⟩

def partly (i : Fin 4) (buffer : Fin 4 → UInt8) : Fin 4 → UInt8 := fun j =>
  if j < i then (character bytes j).toUInt8 else buffer j

theorem partly_next (i j : Fin 4) (buffer : Fin 4 → UInt8) (next : j.val = i.val + 1) :
    Function.update (partly bytes i buffer) i (character bytes i).toUInt8 = partly bytes j buffer := by
  funext k
  by_cases here : k = i
  · have inside : i < j := by omega
    rw [here,Function.update_self,partly,if_pos inside]
  · have same : k < j ↔ k < i := by omega
    rw [Function.update_of_ne here,partly,partly,if_congr same rfl rfl]

theorem decode_some (ret : List UInt8) (n : Nat) (buffer : Fin 4 → UInt8) (count : Nat) (few : count < 4)
    (room : n + count < 2 ^ 31) (str : List Char) :
    decodeLoop ((letters bytes).take count ++ str) ⟨ret,0,n,buffer⟩ =
      decodeLoop str ⟨ret,⟨count,few⟩,n + count,partly bytes ⟨count,few⟩ buffer⟩ := by
  induction count generalizing str with
  | zero =>
    have untouched : partly bytes 0 buffer = buffer := by
      funext j
      exact if_neg (Nat.not_lt_zero _)
    exact congrArg (fun charArray4 => decodeLoop str ⟨ret,0,n,charArray4⟩) untouched.symm
  | succ count ih =>
    have before : count < 4 := by omega
    have one : (letters bytes).take (count + 1) = (letters bytes).take count ++
        [character bytes ⟨count,before⟩] := by
      rw [List.take_add_one]
      simp [letters,character,before]
    have notLast : (⟨count,before⟩ : Fin 4) ≠ 3 := fun last => by
      have value := congrArg Fin.val last
      simp at value
      omega
    have next : (⟨count,before⟩ : Fin 4) + 1 = ⟨count + 1,few⟩ := Fin.ext (by simp [Fin.val_add]; omega)
    rw [one,List.append_assoc,ih before (by omega),List.singleton_append,decodeLoop_character,decodeStep,
      if_neg (by simp; omega),if_neg notLast,ok_bind]
    simp only [next]
    rw [partly_next bytes ⟨count,before⟩ ⟨count + 1,few⟩ buffer rfl,Nat.add_assoc]

/-- Four letters give back the three bytes. -/
theorem decode_four (ret : List UInt8) (n : Nat) (buffer : Fin 4 → UInt8) (room : n + 4 < 2 ^ 31) (str : List Char) :
    ∃ buffer', decodeLoop (letters bytes ++ str) ⟨ret,0,n,buffer⟩ =
      decodeLoop str ⟨ret ++ pushed 3 bytes,0,n + 4,buffer'⟩ := by
  have same : octets (sextets bytes) = bytes := by
    funext j
    match j with
    | 0 => exact octets_zero bytes rfl rfl
    | 1 => exact octets_one bytes rfl rfl
    | 2 => exact octets_two bytes rfl rfl
  have found : (fun j => find (Function.update (partly bytes 3 buffer) 3 (character bytes 3).toUInt8 j)) =
      sextets bytes := by
    funext j
    match j with
    | 0 => exact find_character bytes 0
    | 1 => exact find_character bytes 1
    | 2 => exact find_character bytes 2
    | 3 => exact find_character bytes 3
  have listed : letters bytes ++ str = (letters bytes).take 3 ++ character bytes 3 :: str := rfl
  have step : decodeStep ⟨ret,3,n + 3,partly bytes 3 buffer⟩ (character bytes 3) =
      .ok ⟨ret ++ pushed 3 bytes,0,n + 4,sextets bytes⟩ := by
    rw [decodeStep,if_neg (by simp; omega),if_pos rfl]
    simp only [found,same]
  refine ⟨sextets bytes,?_⟩
  rw [listed,decode_some bytes ret n buffer 3 (by decide) (by omega),decodeLoop_character]
  exact (congrArg (· >>= decodeLoop str) step).trans (ok_bind _ _)

/-- What the end of the function makes of a buffer that is partly filled. -/
theorem decodeTail_two (ret : List UInt8) (n : Nat) (buffer : Fin 4 → UInt8) :
    decodeTail ⟨ret,2,n,partly bytes 2 buffer⟩ = ret ++ [bytes 0] := by
  have zero : octets (fun j => if j < 2 then find (partly bytes 2 buffer j) else partly bytes 2 buffer j) 0 = bytes 0 :=
    octets_zero bytes (find_character bytes 0) (find_character bytes 1)
  rw [← zero]
  rfl

theorem decodeTail_three (ret : List UInt8) (n : Nat) (buffer : Fin 4 → UInt8) :
    decodeTail ⟨ret,3,n,partly bytes 3 buffer⟩ = ret ++ [bytes 0,bytes 1] := by
  have zero : octets (fun j => if j < 3 then find (partly bytes 3 buffer j) else partly bytes 3 buffer j) 0 = bytes 0 :=
    octets_zero bytes (find_character bytes 0) (find_character bytes 1)
  have one : octets (fun j => if j < 3 then find (partly bytes 3 buffer j) else partly bytes 3 buffer j) 1 = bytes 1 :=
    octets_one bytes (find_character bytes 1) (find_character bytes 2)
  rw [← zero,← one]
  rfl

theorem decode_appends : ∀ (str ret : List UInt8) (n : Nat) (buffer : Fin 4 → UInt8),
    n + (rfc4648 str).length < 2 ^ 31 →
    ∃ s, decodeLoop (rfc4648 str) ⟨ret,0,n,buffer⟩ = .ok s ∧ decodeTail s = ret ++ str
  | [],ret,n,buffer,_ => ⟨⟨ret,0,n,buffer⟩,rfl,(List.append_nil ret).symm⟩
  | [a],ret,n,buffer,room => by
    refine ⟨_,?_,decodeTail_two ![a,0,0] ret (n + 2) buffer⟩
    have size : (rfc4648 [a]).length = 4 := by
      rw [rfc4648_one]
      rfl
    rw [rfc4648_one]
    exact decode_some ![a,0,0] ret n buffer 2 (by decide) (by omega) _
  | [a,b],ret,n,buffer,room => by
    refine ⟨_,?_,decodeTail_three ![a,b,0] ret (n + 3) buffer⟩
    have size : (rfc4648 [a,b]).length = 4 := by
      rw [rfc4648_two]
      rfl
    rw [rfc4648_two]
    exact decode_some ![a,b,0] ret n buffer 3 (by decide) (by omega) _
  | a :: b :: c :: rest,ret,n,buffer,room => by
    have four : (letters ![a,b,c]).length = 4 := rfl
    rw [rfc4648_three,List.length_append,four] at room
    obtain ⟨buffer',middle⟩ := decode_four ![a,b,c] ret n buffer (by omega) (rfc4648 rest)
    obtain ⟨s,done,tail⟩ := decode_appends rest (ret ++ [a,b,c]) (n + 4) buffer' (by omega)
    refine ⟨s,?_,?_⟩
    · rw [rfc4648_three,middle]
      exact done
    · rw [tail,List.append_assoc]
      rfl

theorem decode_rfc4648 (uninitialized : Fin 4 → UInt8) (str : List UInt8) (short : (rfc4648 str).length < 2 ^ 31) :
    base64Decode uninitialized (rfc4648 str) = .ok str := by
  obtain ⟨s,done,tail⟩ := decode_appends str [] 0 uninitialized (by omega)
  rw [base64Decode,done,ok_bind,tail]
  rfl

end Decoding

/-- The encoder gives the RFC encoding, which the decoder takes back to its bytes. -/
theorem codec_laws (junk3 : Fin 3 → UInt8) (junk4 : Fin 4 → UInt8) (b : List UInt8)
    (short : (rfc4648 b).length < 2 ^ 31) :
    base64Encode junk3 b = rfc4648 b ∧ (rfc4648 b).length = 4 * ((b.length + 2) / 3) ∧
      (∃ chars, (∀ ch ∈ chars, ch ∈ base64Chars) ∧ rfc4648 b = chars ++ List.replicate ((3 - b.length % 3) % 3) '=') ∧
      base64Decode junk4 (base64Encode junk3 b) = .ok b ∧
      (do return base64Encode junk3 (← base64Decode junk4 (rfc4648 b)) : Except Failure (List Char)) = .ok (rfc4648 b) := by
  have encoded := encode_rfc4648 junk3 b
  have decoded := decode_rfc4648 junk4 b short
  obtain ⟨size,form⟩ := rfc4648_form b
  refine ⟨encoded,size,form,?_,?_⟩
  · rw [encoded,decoded]
  · rw [decoded,ok_bind,encoded]
    rfl

/-- The bytes of the comment in the encoder, and two more. -/
theorem comment_bytes_coded : base64Encode (fun _ => 7) [0x4d,0x61,0x6e,0,0xff] = "TWFuAP8=".toList ∧
    base64Decode (fun _ => 9) (base64Encode (fun _ => 7) [0x4d,0x61,0x6e,0,0xff]) = .ok [0x4d,0x61,0x6e,0,0xff] :=
  ⟨by decide +kernel,(codec_laws (fun _ => 7) (fun _ => 9) [0x4d,0x61,0x6e,0,0xff] (by decide +kernel)).2.2.2.1⟩

end JkBuild.Base64
