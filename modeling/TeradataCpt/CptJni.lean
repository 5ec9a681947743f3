import TeradataCpt.Cpt

namespace TeradataCpt.CptJni
open CSemantics Cpt

-- What differs between the builds: the width of unsigned long, and whether data()
-- of an empty vector is NULL.
structure Host where
  ulongBits : Nat
  emptyNull : Bool

def Host.lp64 : Host := ⟨64,true⟩
def Host.llp64 : Host := ⟨32,true⟩

inductive Failure where
  | fault (fault : Fault)
  | thrown (className message : String)
  deriving DecidableEq, Repr

def illegalArgument (message : String) : Failure := .thrown "java/lang/IllegalArgumentException" message

-- Java objects as the native side reads them, whoever filled their fields.
structure SubPolicy where
  position : Int32
  length : Int32
  deriving DecidableEq, Repr

structure Policy where
  subPolicyNum : Int32
  subPolicy : Option (List (Option SubPolicy))
  deriving DecidableEq, Repr

-- convert.cpp
def setSubPolicy (policy : JniPolicy) (i : Nat) (sub : JniSubPolicy) : Except Fault JniPolicy :=
  if bound : i < maxSubPolicies then .ok {policy with subPolicy := policy.subPolicy.set i sub bound}
  else .error .outOfBounds

def convertAt (array : List (Option SubPolicy)) (i : Nat) (policyOut : JniPolicy) :
    Except Fault (Outcome (Int × JniPolicy) JniPolicy) :=
  match array[i]? with
  | some (some sub) => do return .next (← setSubPolicy policyOut i ⟨sub.position,sub.length⟩)
  | _ => .ok (.returned (-1,policyOut))

def policyJavaToC (policyIn : Option Policy) (policyOut : JniPolicy) : Except Fault (Int × JniPolicy) :=
  match policyIn with
  | none => .ok (-1,policyOut)
  | some policyIn =>
    match policyIn.subPolicy with
    | none => .ok (-1,policyOut)
    | some array => do
      if array.length > maxSubPolicies ∨ policyIn.subPolicyNum.toInt ≠ array.length then return (-1,policyOut)
      else match ← scan array.length (convertAt array) {policyOut with subPolicyNum := .ofNat array.length} with
        | .returned result => return result
        | .next policyOut => return (0,policyOut)

-- cptjni.cpp
def validMode (mode : Int8) : Bool := mode.toInt = 0 || mode.toInt = 1 || mode.toInt = 2

-- CptMode.java: CHAR, DIGIT and VISIBLE_ASCII.
def modeValue : CptMode → Int8
  | .cptChar => 0
  | .cptInt => 1
  | .cptAsc => 2

def unsignedLong (host : Host) (key : Int64) : Nat := (key.toInt % 2^host.ulongBits).toNat

def keyModeOf (encrypting : Bool) : KeyMode := if encrypting then .encryptKey else .decryptKey

def zeros (length : Nat) : Cells UInt8 := List.replicate length (some 0)

def emptyPolicy : JniPolicy := ⟨0,Vector.replicate maxSubPolicies ⟨0,0⟩⟩

-- The C part of transform: ckey is an uninitialised array, `out` a zeroed vector. The
-- two mallocs of init_ckey come before those of the function behind it.
def transformBytes (machine : Machine) (key : Nat) (mode : CptMode) (encrypting : Bool) (input : List UInt8) :
    Except Fault (List UInt8) := do
  let length : Int := input.length
  let ckey ← initCkey machine key mode (keyModeOf encrypting) (List.replicate clen none)
  let out := zeros (input.length+1)
  let out ← if encrypting then ctEncrypt (machine.after 2) (input.map some) length ckey mode out
    else ctDecrypt (machine.after 2) (input.map some) length ckey mode out
  loadAll out input.length

def callMemory (input : List UInt8) (ckey out : Cells UInt8) : Memory
  | 0 => input.map some
  | 1 => ckey
  | 2 => out
  | _ => []

def policyStatus (machine : Machine) (data : Pointer) (policy : JniPolicy) (key : Nat) (mode : CptMode)
    (encrypting : Bool) (input : List UInt8) : Except Fault (Int × Memory) := do
  let length : Int := input.length
  let ckey ← initCkey machine key mode (keyModeOf encrypting) (List.replicate clen none)
  let memory := callMemory input ckey (zeros (input.length+1))
  if encrypting then multiSubPolicyCtEncrypt (machine.after 2) memory data length (some policy) (some 1) mode (some 2)
  else multiSubPolicyCtDecrypt (machine.after 2) memory data length (some policy) (some 1) mode (some 2)

def transformPolicyBytes (machine : Machine) (host : Host) (policy : JniPolicy) (key : Nat) (mode : CptMode)
    (encrypting : Bool) (input : List UInt8) : Except Fault (Option (List UInt8)) := do
  let data : Pointer := if input = [] ∧ host.emptyNull then none else some 0
  let (status,memory) ← policyStatus machine data policy key mode encrypting input
  if status ≠ 0 then return none
  else return some (← loadAll (memory 2) input.length)

def transform (machine : Machine) (host : Host) (input : Option (List UInt8)) (key : Int64) (mode : Int8)
    (encrypting : Bool) : Except Failure (List UInt8) :=
  match input with
  | none => .error (illegalArgument "input must not be null")
  | some input =>
    if validMode mode then
      (transformBytes machine (unsignedLong host key) (.ofInt mode.toInt) encrypting input).mapError .fault
    else .error (illegalArgument "mode must be 0, 1, or 2")

def transformPolicy (machine : Machine) (host : Host) (input : Option (List UInt8)) (policyObject : Option Policy)
    (key : Int64) (mode : Int8) (encrypting : Bool) : Except Failure (List UInt8) :=
  match input,policyObject with
  | some input,some policyObject =>
    if validMode mode then do
      let (converted,policy) ← (policyJavaToC (some policyObject) emptyPolicy).mapError .fault
      if converted ≠ 0 then .error (illegalArgument "invalid policy")
      else
        let bytes := transformPolicyBytes machine host policy (unsignedLong host key) (.ofInt mode.toInt) encrypting input
        match ← bytes.mapError .fault with
        | some result => return result
        | none => .error (illegalArgument "policy exceeds input byte length or native allocation failed")
    else .error (illegalArgument "mode must be 0, 1, or 2")
  | _,_ => .error (illegalArgument "input and policy must not be null")

end TeradataCpt.CptJni
