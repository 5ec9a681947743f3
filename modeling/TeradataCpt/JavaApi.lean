import TeradataCpt.Library.Base64
import TeradataCpt.Library.Substrings
import TeradataCpt.Library.Utf16
import TeradataCpt.Library.Utf8
import TeradataCpt.CptJni

namespace TeradataCpt.JavaApi
open CSemantics Cpt CptJni

abbrev JavaString := List UInt16

-- getBytes(UTF_8) and getBytes(ISO_8859_1); both put '?' for what has no encoding,
-- and a surrogate pair is one such thing.
def getBytesUtf8 (s : JavaString) : List UInt8 := Utf8.encode (Utf16.scalars '?' s)

def latin1Byte (u : UInt16) : UInt8 := if u ≤ 0xFF then UInt8.ofNat u.toNat else 0x3F

def getBytesLatin1 : JavaString → List UInt8
  | [] => []
  | [u] => [latin1Byte u]
  | u :: v :: rest =>
    if Utf16.isHigh u && Utf16.isLow v then 0x3F :: getBytesLatin1 rest
    else latin1Byte u :: getBytesLatin1 (v :: rest)

def newStringLatin1 (bytes : List UInt8) : JavaString := bytes.map fun b => UInt16.ofNat b.toNat

-- new String(bytes, UTF_8). What it makes of malformed bytes is left open.
structure Utf8Decoder where
  newString : List UInt8 → JavaString
  encoded : ∀ cs, newString (Utf8.encode cs) = Utf16.encode cs

def wholeTextDecoder : Utf8Decoder where
  newString bytes := match bytes.toByteArray.utf8Decode? with
    | some cs => Utf16.encode cs.toList
    | none => [0xFFFD]
  encoded cs := by
    have decoded : (Utf8.encode cs).toByteArray.utf8Decode? = some cs.toArray := List.utf8Decode?_utf8Encode
    rw [decoded]

-- getBytes(UTF_16): a byte-order mark before the first unit, and U+FFFD for an unpaired
-- surrogate.
def getBytesUtf16 (s : JavaString) : List UInt8 :=
  if s = [] then [] else 0xFE :: 0xFF :: Utf16.bytes (Utf16.repair 0xFFFD s)

-- new String(bytes, UTF_16). What it makes of U+FFFE, whose bytes are the mark the other
-- way round, and of malformed bytes is left open.
structure Utf16Decoder where
  newString : List UInt8 → JavaString
  empty : newString [] = []
  marked : ∀ s, Utf16.WellFormed s → 0xFFFE ∉ s → newString (0xFE :: 0xFF :: Utf16.bytes s) = s

def bigEndianDecoder : Utf16Decoder where
  newString bytes := Utf16.ofBytes (bytes.drop 2)
  empty := rfl
  marked s _ _ := Utf16.ofBytes_bytes s

structure Jvm where
  machine : Machine
  host : Host
  utf8 : Utf8Decoder

def requireNonNull (value : Option α) (name : String) : Except Failure α :=
  match value with
  | some value => .ok value
  | none => .error (illegalArgument (name ++ " must not be null"))

def SubPolicy.blank : SubPolicy := ⟨0,0⟩

def SubPolicy.of (position length : Int32) : Except Failure SubPolicy :=
  if position < 0 then .error (illegalArgument "position must not be negative")
  else if length < 0 then .error (illegalArgument "length must not be negative")
  else .ok ⟨position,length⟩

def Policy.blank : Policy := ⟨0,some []⟩

def Policy.of (subPolicies : Option (List (Option SubPolicy))) : Except Failure Policy :=
  match subPolicies with
  | none => .error (illegalArgument "subPolicies must not be null")
  | some subPolicies =>
    if subPolicies.length > maxSubPolicies then
      .error (illegalArgument ("at most " ++ toString maxSubPolicies ++ " sub policies are supported"))
    else if none ∈ subPolicies then .error (illegalArgument "sub policy must not be null")
    else .ok ⟨.ofNat subPolicies.length,some subPolicies⟩

def nullPointerException : Failure := .thrown "java/lang/NullPointerException" ""

def validateEach (inputLength : Int32) : List (Option SubPolicy) → Except Failure Unit
  | [] => .ok ()
  | none :: _ => .error nullPointerException
  | some sub :: rest =>
    if sub.position > inputLength ∨ sub.length > inputLength - sub.position then
      .error (illegalArgument ("sub policy exceeds input byte length: position=" ++ toString sub.position.toInt ++
        ", length=" ++ toString sub.length.toInt ++ ", inputLength=" ++ toString inputLength.toInt))
    else validateEach inputLength rest

def Policy.validateForLength (policy : Policy) (inputLength : Int32) : Except Failure Unit :=
  match policy.subPolicy with
  | none => .error nullPointerException
  | some subPolicies => validateEach inputLength subPolicies

-- String.indexOf with a start, on an index that no String exceeds.
def indexOf (source pattern : JavaString) (fromIndex : Nat) : Int :=
  match Substrings.first pattern (source.drop fromIndex) with
  | some place => fromIndex + place
  | none => -1

def shown (s : JavaString) : String := String.ofList (Utf16.scalars '?' s)

def utf8ByteRange (source prefixText suffix : Option JavaString) : Except Failure (Int32 × Int32) := do
  let source ← requireNonNull source "source"
  let prefixText ← requireNonNull prefixText "prefix"
  let suffix ← requireNonNull suffix "suffix"
  let prefixEnd := indexOf source prefixText 0
  if prefixEnd < 0 then .error (illegalArgument ("prefix not found: " ++ shown prefixText))
  else
    let secretStart := prefixEnd.toNat + prefixText.length
    let suffixStart := indexOf source suffix secretStart
    if suffixStart < 0 then .error (illegalArgument ("suffix not found after prefix: " ++ shown suffix))
    else
      let secretByteStart := Int32.ofNat (getBytesUtf8 (source.take secretStart)).length
      let suffixByteStart := Int32.ofNat (getBytesUtf8 (source.take suffixStart.toNat)).length
      return (secretByteStart,suffixByteStart - secretByteStart)

-- CptJni.java: the work buffer of getUTF8BytesFromGBKString and the next index in it.
structure Utf8Work where
  utfBytes : List UInt8
  k : Nat

def putByte (work : Utf8Work) (value : Nat) : Except Failure Utf8Work :=
  if work.k < work.utfBytes.length then .ok ⟨work.utfBytes.set work.k (UInt8.ofNat value),work.k+1⟩
  else .error (.thrown "java/lang/ArrayIndexOutOfBoundsException" "")

def putChar (gbkStr : JavaString) (i : Nat) (work : Utf8Work) : Except Failure Utf8Work :=
  match gbkStr[i]? with
  | none => .error (.thrown "java/lang/StringIndexOutOfBoundsException" "")
  | some char => do
    let m := char.toNat
    if m < 128 ∧ m ≥ 0 then putByte work m
    else
      let work ← putByte work (0xe0 ||| (m >>> 12))
      let work ← putByte work (0x80 ||| ((m >>> 6) &&& 0x3f))
      putByte work (0x80 ||| (m &&& 0x3f))

def getUTF8BytesFromGBKString (gbkStr : Option JavaString) : Except Failure (List UInt8) :=
  match gbkStr with
  | none => .error nullPointerException
  | some gbkStr => do
    let size := (3 * Int32.ofNat gbkStr.length).toInt
    if size < 0 then .error (.thrown "java/lang/NegativeArraySizeException" (toString size))
    else
      let work ← forUp gbkStr.length (putChar gbkStr) ⟨List.replicate size.toNat 0,0⟩
      if work.k < work.utfBytes.length then return work.utfBytes.take work.k
      else return work.utfBytes

def ahead (i offset : Nat) : Int := (Int32.ofNat (i + offset)).toInt

def byteAt (bytes : List UInt8) (index : Int) : Except Failure UInt8 :=
  if 0 ≤ index then
    match bytes[index.toNat]? with
    | some byte => .ok byte
    | none => .error (.thrown "java/lang/ArrayIndexOutOfBoundsException" "")
  else .error (.thrown "java/lang/ArrayIndexOutOfBoundsException" "")

-- Whether the bytes at i+1, ..., i+count are all continuation bytes; the tests stop
-- at the first that is not.
def continuesTo (bytes : List UInt8) (i : Nat) : Nat → Except Failure Bool
  | 0 => .ok true
  | count+1 => do
    if ← continuesTo bytes i count then return (← byteAt bytes (ahead i (count+1))) &&& 0xC0 == 0x80
    else return false

-- One branch of the loop: the next index, or none where it returns false.
def sequenceAt (bytes : List UInt8) (i count : Nat) : Except Failure (Option Nat) := do
  if ahead i count ≥ bytes.length then return none
  else if ← continuesTo bytes i count then return some (i + count + 1)
  else return none

def utf8At (bytes : List UInt8) (i : Nat) : Except Failure (Option Nat) := do
  let b ← byteAt bytes i
  if b < 0x80 then return some (i+1)
  else if b &&& 0xE0 = 0xC0 then sequenceAt bytes i 1
  else if b &&& 0xF0 = 0xE0 then sequenceAt bytes i 2
  else if b &&& 0xF8 = 0xF0 then sequenceAt bytes i 3
  else return none

-- Every round moves the index on, so the loop has at most one round for each byte.
def utf8Loop (bytes : List UInt8) : Nat → Nat → Except Failure Bool
  | 0,_ => .ok true
  | rounds+1,i => do
    if i < bytes.length then
      match ← utf8At bytes i with
      | some next => utf8Loop bytes rounds next
      | none => return false
    else return true

def isValidUtf8 (bytes : Option (List UInt8)) : Except Failure Bool := do
  let bytes ← requireNonNull bytes "bytes"
  utf8Loop bytes bytes.length 0

section Methods
variable (jvm : Jvm)

def cryptBytes (input : Option (List UInt8)) (key : Int64) (mode : Option CptMode) (encrypting : Bool) :
    Except Failure (List UInt8) := do
  let input ← requireNonNull input "input"
  let mode ← requireNonNull mode "mode"
  transform jvm.machine jvm.host (some input) key (modeValue mode) encrypting

def encrypt (input : Option (List UInt8)) (key : Int64) (mode : Option CptMode) := cryptBytes jvm input key mode true
def decrypt (input : Option (List UInt8)) (key : Int64) (mode : Option CptMode) := cryptBytes jvm input key mode false

def requireStringAndMode (s : Option JavaString) (mode : Option CptMode) : Except Failure (JavaString × CptMode) := do
  let s ← requireNonNull s "input string"
  let mode ← requireNonNull mode "mode"
  return (s,mode)

def encryptUtf8 (s : Option JavaString) (key : Int64) (mode : Option CptMode) : Except Failure JavaString := do
  let (s,mode) ← requireStringAndMode s mode
  let out ← encrypt jvm (some (getBytesUtf8 s)) key (some mode)
  return newStringLatin1 out

def decryptUtf8 (s : Option JavaString) (key : Int64) (mode : Option CptMode) : Except Failure JavaString := do
  let (s,mode) ← requireStringAndMode s mode
  let out ← decrypt jvm (some (getBytesLatin1 s)) key (some mode)
  return jvm.utf8.newString out

def encryptAsUtf8Bytes (s : Option JavaString) (key : Int64) (mode : Option CptMode) :
    Except Failure (List UInt8) := do
  let (s,mode) ← requireStringAndMode s mode
  encrypt jvm (some (getBytesUtf8 s)) key (some mode)

def decryptToUtf8Bytes (s : Option JavaString) (key : Int64) (mode : Option CptMode) :
    Except Failure (List UInt8) := do
  let (s,mode) ← requireStringAndMode s mode
  decrypt jvm (some (getBytesLatin1 s)) key (some mode)

def validatePolicyInput (input : Option (List UInt8)) (policy : Option Policy) (mode : Option CptMode) :
    Except Failure (List UInt8 × Policy × CptMode) := do
  let input ← requireNonNull input "input"
  let mode ← requireNonNull mode "mode"
  let policy ← requireNonNull policy "policy"
  Policy.validateForLength policy (.ofNat input.length)
  return (input,policy,mode)

def multiSubPolicyCrypt (input : Option (List UInt8)) (policy : Option Policy) (key : Int64) (mode : Option CptMode)
    (encrypting : Bool) : Except Failure (List UInt8) := do
  let (input,policy,mode) ← validatePolicyInput input policy mode
  transformPolicy jvm.machine jvm.host (some input) (some policy) key (modeValue mode) encrypting

def multiSubPolicyEncrypt (input : Option (List UInt8)) (policy : Option Policy) (key : Int64)
    (mode : Option CptMode) := multiSubPolicyCrypt jvm input policy key mode true
def multiSubPolicyDecrypt (input : Option (List UInt8)) (policy : Option Policy) (key : Int64)
    (mode : Option CptMode) := multiSubPolicyCrypt jvm input policy key mode false

def encryptAsBytes (input : Option (List UInt8)) (key : Int64) (mode : Option CptMode) :
    Except Failure (List UInt8) := do
  let input ← requireNonNull input "input"
  let mode ← requireNonNull mode "mode"
  encrypt jvm (some input) key (some mode)

def decryptAsBytes (input : Option (List UInt8)) (key : Int64) (mode : Option CptMode) :
    Except Failure (List UInt8) := do
  let input ← requireNonNull input "input"
  let mode ← requireNonNull mode "mode"
  decrypt jvm (some input) key (some mode)

-- The overloads of these two that take a policy.
def encryptRangesAsBytes (input : Option (List UInt8)) (policy : Option Policy) (key : Int64)
    (mode : Option CptMode) : Except Failure (List UInt8) := do
  let input ← requireNonNull input "input"
  let policy ← requireNonNull policy "policy"
  let mode ← requireNonNull mode "mode"
  multiSubPolicyEncrypt jvm (some input) (some policy) key (some mode)

def decryptRangesAsBytes (input : Option (List UInt8)) (policy : Option Policy) (key : Int64)
    (mode : Option CptMode) : Except Failure (List UInt8) := do
  let input ← requireNonNull input "input"
  let policy ← requireNonNull policy "policy"
  let mode ← requireNonNull mode "mode"
  multiSubPolicyDecrypt jvm (some input) (some policy) key (some mode)

def encryptUtf8Field := encryptAsBytes jvm
def decryptUtf8Field := decryptAsBytes jvm

def encryptAsBase64 (utf8Text : Option JavaString) (key : Int64) (mode : Option CptMode) :
    Except Failure JavaString := do
  let utf8Text ← requireNonNull utf8Text "utf8Text"
  let out ← encryptAsBytes jvm (some (getBytesUtf8 utf8Text)) key mode
  return Base64.encode out

-- The message of the JDK's own exception is not modelled.
def decryptFromBase64 (base64Cipher : Option JavaString) (key : Int64) (mode : Option CptMode) :
    Except Failure JavaString := do
  let base64Cipher ← requireNonNull base64Cipher "base64Cipher"
  let input ← match Base64.decode base64Cipher with
    | some input => .ok input
    | none => .error (illegalArgument "base64")
  let out ← decryptAsBytes jvm (some input) key mode
  return jvm.utf8.newString out

-- CptJni.java: the deprecated methods on a String, whose mode is a byte. They check
-- nothing themselves.
def legacyBytes (s : JavaString) (containCn : Bool) : List UInt8 :=
  if containCn then getBytesUtf16 s else getBytesLatin1 s

def legacyText (utf16 : Utf16Decoder) (bytes : List UInt8) (containCn : Bool) : JavaString :=
  if containCn then utf16.newString bytes else newStringLatin1 bytes

def encryptString (s : Option JavaString) (key : Int64) (mod : Int8) (containCn : Bool) : Except Failure JavaString :=
  match s with
  | none => .error nullPointerException
  | some s => do
    let out ← transform jvm.machine jvm.host (some (legacyBytes s containCn)) key mod true
    return newStringLatin1 out

def decryptString (utf16 : Utf16Decoder) (s : Option JavaString) (key : Int64) (mod : Int8) (containCn : Bool) :
    Except Failure JavaString :=
  match s with
  | none => .error nullPointerException
  | some s => do
    let out ← transform jvm.machine jvm.host (some (getBytesLatin1 s)) key mod false
    return legacyText utf16 out containCn

def multiSubPolicyEncryptString (s : Option JavaString) (policy : Option Policy) (key : Int64) (mod : Int8)
    (containCn : Bool) : Except Failure JavaString :=
  match s with
  | none => .error nullPointerException
  | some s => do
    let out ← transformPolicy jvm.machine jvm.host (some (legacyBytes s containCn)) policy key mod true
    return newStringLatin1 out

def multiSubPolicyDecryptString (utf16 : Utf16Decoder) (s : Option JavaString) (policy : Option Policy) (key : Int64)
    (mod : Int8) (containCn : Bool) : Except Failure JavaString :=
  match s with
  | none => .error nullPointerException
  | some s => do
    let out ← transformPolicy jvm.machine jvm.host (some (getBytesLatin1 s)) policy key mod false
    return legacyText utf16 out containCn

end Methods

end TeradataCpt.JavaApi
