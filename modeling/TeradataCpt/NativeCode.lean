import TeradataCpt.Library.Interaction
import TeradataCpt.CptJni

namespace TeradataCpt.NativeCode
open CSemantics Interaction Cpt CptJni

-- What a reference leads to. Native code only hands references on, it never looks
-- at this.
inductive Obj where
  | clazz (name : String)
  | bytes (length : Nat)
  | policy (value : Policy)
  | subPolicies (items : List (Option SubPolicy))
  | subPolicy (value : SubPolicy)
  deriving DecidableEq, Repr

structure Ref where
  id : Nat
  obj : Obj
  deriving DecidableEq, Repr

-- jobject and its subtypes, and jfieldID or jmethodID; `none` is NULL.
abbrev JObject := Option Ref

structure Member where
  className : String
  name : String
  signature : String
  deriving DecidableEq, Repr

abbrev MemberId := Option Member

-- cpt.h: the static blocks, zero when the library is loaded.
structure SubPolicyBlock where
  clazz : JObject
  position : MemberId
  length : MemberId
  constructor : MemberId

structure PolicyBlock where
  clazz : JObject
  subPolicyNum : MemberId
  subPolicy : MemberId
  constructor : MemberId

structure Blocks where
  jniPolicy : PolicyBlock
  jniSubPolicy : SubPolicyBlock

def Blocks.zero : Blocks := ⟨⟨none,none,none,none⟩,⟨none,none,none,none⟩⟩

-- The JNI functions the library calls, its accesses to the static blocks, and a fault
-- of the C code.
inductive JniOp where
  | getEnv
  | findClass (name : String)
  | newGlobalRef (object : JObject)
  | deleteLocalRef (object : JObject)
  | getMethodID (clazz : JObject) (name signature : String)
  | getFieldID (clazz : JObject) (name signature : String)
  | throwNew (clazz : JObject) (message : String)
  | exceptionCheck
  | getArrayLength (array : JObject)
  | getObjectField (object : JObject) (field : MemberId)
  | getIntField (object : JObject) (field : MemberId)
  | getObjectArrayElement (array : JObject) (index : Nat)
  | getByteArrayRegion (array : JObject) (start length : Nat)
  | newByteArray (length : Nat)
  | setByteArrayRegion (array : JObject) (start : Nat) (bytes : List UInt8)
  | readBlocks
  | writeBlocks (blocks : Blocks)
  | crash (fault : Fault)

@[reducible] def Answer : JniOp → Type
  | .getEnv | .exceptionCheck => Bool
  | .findClass _ | .newGlobalRef _ | .getObjectField _ _ | .getObjectArrayElement _ _ | .newByteArray _ => JObject
  | .getMethodID _ _ _ | .getFieldID _ _ _ => MemberId
  | .throwNew _ _ => Int
  | .getArrayLength _ => Nat
  | .getIntField _ _ => Int32
  | .getByteArrayRegion _ _ _ => List UInt8
  | .deleteLocalRef _ | .setByteArrayRegion _ _ _ | .writeBlocks _ => Unit
  | .readBlocks => Blocks
  | .crash _ => Empty

abbrev Native := Prog JniOp Answer

def jni (op : JniOp) : Native (Answer op) := ask op

def compute (result : Except Fault α) : Native α :=
  match result with
  | .ok value => .done value
  | .error fault => .call (.crash fault) nofun

def assign (update : Blocks → Blocks) : Native Unit := do
  let blocks ← jni .readBlocks
  jni (.writeBlocks (update blocks))

-- register.cpp; the last argument is the variable behind the out pointer.
def findClass (name : String) (clazzOut : JObject → Blocks → Blocks) : Native Int := do
  let localClass ← jni (.findClass name)
  match localClass with
  | none => return -1
  | some _ =>
    let clazz ← jni (.newGlobalRef localClass)
    assign (clazzOut clazz)
    jni (.deleteLocalRef localClass)
    return if clazz = none then -1 else 0

def getField (clazz : JObject) (name signature : String) (fieldOut : MemberId → Blocks → Blocks) : Native Int := do
  let field ← jni (.getFieldID clazz name signature)
  assign (fieldOut field)
  return if field = none then -1 else 0

def registerClass (name : String) (clazzOut : JObject → Blocks → Blocks) (clazzOf : Blocks → JObject)
    (constructorOut : MemberId → Blocks → Blocks) (first second : String × String × (MemberId → Blocks → Blocks)) :
    Native Int := do
  if (← findClass name clazzOut) ≠ 0 then return -1
  else
    let clazz := clazzOf (← jni .readBlocks)
    let constructor ← jni (.getMethodID clazz "<init>" "()V")
    assign (constructorOut constructor)
    if constructor = none then return -1
    else if (← getField clazz first.1 first.2.1 first.2.2) ≠ 0 then return -1
    else if (← getField clazz second.1 second.2.1 second.2.2) ≠ 0 then return -1
    else return 0

def registerSubPolicyClass : Native Int :=
  registerClass "com/teradata/jni/SubPolicy"
    (fun clazz blocks => {blocks with jniSubPolicy := {blocks.jniSubPolicy with clazz := clazz}})
    (fun blocks => blocks.jniSubPolicy.clazz)
    (fun constructor blocks => {blocks with jniSubPolicy := {blocks.jniSubPolicy with constructor := constructor}})
    ("position","I",fun field blocks => {blocks with jniSubPolicy := {blocks.jniSubPolicy with position := field}})
    ("length","I",fun field blocks => {blocks with jniSubPolicy := {blocks.jniSubPolicy with length := field}})

def registerPolicyClass : Native Int :=
  registerClass "com/teradata/jni/Policy"
    (fun clazz blocks => {blocks with jniPolicy := {blocks.jniPolicy with clazz := clazz}})
    (fun blocks => blocks.jniPolicy.clazz)
    (fun constructor blocks => {blocks with jniPolicy := {blocks.jniPolicy with constructor := constructor}})
    ("sub_policy_num","I",fun field blocks => {blocks with jniPolicy := {blocks.jniPolicy with subPolicyNum := field}})
    ("sub_policy","[Lcom/teradata/jni/SubPolicy;",
      fun field blocks => {blocks with jniPolicy := {blocks.jniPolicy with subPolicy := field}})

def registerClasses : Native Int := do
  if (← registerSubPolicyClass) ≠ 0 then return -1
  else if (← registerPolicyClass) ≠ 0 then return -1
  else return 0

def jniErr : Int := -1
def jniVersion : Int := 0x00010006

def jniOnLoad : Native Int := do
  if ← jni .getEnv then
    if (← registerClasses) = 0 then return jniVersion
    else return jniErr
  else return jniErr

-- convert.cpp
def convertAt (subPolicyArray : JObject) (i : Nat) (policyOut : JniPolicy) :
    Native (Outcome (Int × JniPolicy) JniPolicy) := do
  let subPolicy ← jni (.getObjectArrayElement subPolicyArray i)
  match subPolicy with
  | none =>
    jni (.deleteLocalRef subPolicyArray)
    return .returned (-1,policyOut)
  | some _ =>
    if ← jni .exceptionCheck then
      jni (.deleteLocalRef subPolicy)
      jni (.deleteLocalRef subPolicyArray)
      return .returned (-1,policyOut)
    else
      let position ← jni (.getIntField subPolicy (← jni .readBlocks).jniSubPolicy.position)
      let length ← jni (.getIntField subPolicy (← jni .readBlocks).jniSubPolicy.length)
      let policyOut ← compute (setSubPolicy policyOut i ⟨position,length⟩)
      jni (.deleteLocalRef subPolicy)
      if ← jni .exceptionCheck then
        jni (.deleteLocalRef subPolicyArray)
        return .returned (-1,policyOut)
      else return .next policyOut

def policyJavaToC (policyIn : JObject) (policyOut : JniPolicy) : Native (Int × JniPolicy) := do
  match policyIn with
  | none => return (-1,policyOut)
  | some _ =>
    let subPolicyArray ← jni (.getObjectField policyIn (← jni .readBlocks).jniPolicy.subPolicy)
    match subPolicyArray with
    | none => return (-1,policyOut)
    | some _ =>
      if ← jni .exceptionCheck then return (-1,policyOut)
      else
        let length ← jni (.getArrayLength subPolicyArray)
        let declaredLength ← jni (.getIntField policyIn (← jni .readBlocks).jniPolicy.subPolicyNum)
        if length > maxSubPolicies ∨ declaredLength.toInt ≠ length then
          jni (.deleteLocalRef subPolicyArray)
          return (-1,policyOut)
        else
          match ← scan length (convertAt subPolicyArray) {policyOut with subPolicyNum := .ofNat length} with
          | .returned result => return result
          | .next policyOut =>
            jni (.deleteLocalRef subPolicyArray)
            return (0,policyOut)

-- cptjni.cpp
def throwException (className message : String) : Native Unit := do
  let exceptionClass ← jni (.findClass className)
  match exceptionClass with
  | none => return ()
  | some _ =>
    let _ ← jni (.throwNew exceptionClass message)
    jni (.deleteLocalRef exceptionClass)

def throwIllegalArgument (message : String) : Native JObject := do
  throwException "java/lang/IllegalArgumentException" message
  return none

-- The copy of the input; NULL from here on means that an exception is pending.
def inputBytes (input : JObject) (length : Nat) : Native (Option (List UInt8)) := do
  if length > 0 then
    let data ← jni (.getByteArrayRegion input 0 length)
    if ← jni .exceptionCheck then return none
    else return some data
  else return some []

def newResult (out : List UInt8) (length : Nat) : Native JObject := do
  let result ← jni (.newByteArray length)
  match result with
  | none => return none
  | some _ =>
    if length > 0 then
      jni (.setByteArrayRegion result 0 out)
      return result
    else return result

section Methods
variable (machine : Machine) (host : Host)

def transform (input : JObject) (key : Int64) (mode : Int8) (encrypting : Bool) : Native JObject := do
  match input with
  | none => throwIllegalArgument "input must not be null"
  | some _ =>
    if validMode mode then
      let length ← jni (.getArrayLength input)
      match ← inputBytes input length with
      | none => return none
      | some data =>
        let out ← compute (transformBytes machine (unsignedLong host key) (.ofInt mode.toInt) encrypting data)
        newResult out length
    else throwIllegalArgument "mode must be 0, 1, or 2"

def transformPolicy (input policyObject : JObject) (key : Int64) (mode : Int8) (encrypting : Bool) :
    Native JObject := do
  match input,policyObject with
  | some _,some _ =>
    if validMode mode then
      let (converted,policy) ← policyJavaToC policyObject emptyPolicy
      let failed : Bool ← if converted ≠ 0 then pure true else jni .exceptionCheck
      if failed then
        if ← jni .exceptionCheck then return none
        else throwIllegalArgument "invalid policy"
      else
        let length ← jni (.getArrayLength input)
        match ← inputBytes input length with
        | none => return none
        | some data =>
          let bytes ← compute
            (transformPolicyBytes machine host policy (unsignedLong host key) (.ofInt mode.toInt) encrypting data)
          match bytes with
          | none => throwIllegalArgument "policy exceeds input byte length or native allocation failed"
          | some out => newResult out length
    else throwIllegalArgument "mode must be 0, 1, or 2"
  | _,_ => throwIllegalArgument "input and policy must not be null"

end Methods

inductive Call where
  | encrypt (input : JObject) (key : Int64) (mode : Int8)
  | decrypt (input : JObject) (key : Int64) (mode : Int8)
  | multiSubPolicyEncrypt (input policy : JObject) (key : Int64) (mode : Int8)
  | multiSubPolicyDecrypt (input policy : JObject) (key : Int64) (mode : Int8)

def Call.body (machine : Machine) (host : Host) : Call → Native JObject
  | .encrypt input key mode => transform machine host input key mode true
  | .decrypt input key mode => transform machine host input key mode false
  | .multiSubPolicyEncrypt input policy key mode => transformPolicy machine host input policy key mode true
  | .multiSubPolicyDecrypt input policy key mode => transformPolicy machine host input policy key mode false

end TeradataCpt.NativeCode
