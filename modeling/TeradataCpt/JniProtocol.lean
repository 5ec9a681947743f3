import Mathlib.Logic.Function.Basic
import TeradataCpt.NativeCode
import TeradataCpt.Safety

namespace TeradataCpt.JniProtocol
open CSemantics Interaction Cpt CptJni NativeCode

-- A thread of the JVM and what the library keeps: the live references, the pending
-- exception, the static blocks, the contents of byte arrays, and whether the JVM has
-- refused something on its own account.
structure Env where
  locals : List Ref
  globals : List Ref
  pending : Option (String × String)
  blocks : Blocks
  arrays : Nat → List UInt8
  refused : Bool

def Live (s : Env) (ref : Ref) : Prop := ref ∈ s.locals ∨ ref ∈ s.globals

def Refers (s : Env) (object : JObject) (obj : Obj) : Prop := ∃ ref, object = some ref ∧ Live s ref ∧ ref.obj = obj

def Fresh (s : Env) (ref : Ref) : Prop := ∀ other, Live s other → other.id ≠ ref.id

def Raised (s s' : Env) : Prop := ∃ thrown, s' = {s with pending := some thrown, refused := true}

def Made (s : Env) (ref : Ref) (s' : Env) : Prop := Fresh s ref ∧ s' = {s with locals := ref :: s.locals}

def policyClass : String := "com/teradata/jni/Policy"
def subPolicyClass : String := "com/teradata/jni/SubPolicy"

def classOf : Obj → Option String
  | .policy _ => some policyClass
  | .subPolicy _ => some subPolicyClass
  | _ => none

def intField : Obj → String → Option Int32
  | .policy value,"sub_policy_num" => some value.subPolicyNum
  | .subPolicy value,"position" => some value.position
  | .subPolicy value,"length" => some value.length
  | _,_ => none

-- What the JNI specification asks of the caller, with `room` local references at
-- most. Only ExceptionCheck and DeleteLocalRef may be called while an exception is
-- pending.
def Owes (room : Nat) (mayCrash : Fault → Prop) : JniOp → Env → Prop
  | .getEnv,_ | .exceptionCheck,_ | .readBlocks,_ | .writeBlocks _,_ => True
  | .crash fault,_ => mayCrash fault
  | .deleteLocalRef object,s => ∃ ref ∈ s.locals, object = some ref
  | .findClass _,s | .newByteArray _,s => s.pending = none ∧ s.locals.length < room
  | .newGlobalRef clazz,s | .getMethodID clazz _ _,s | .getFieldID clazz _ _,s | .throwNew clazz _,s =>
    s.pending = none ∧ ∃ name, Refers s clazz (.clazz name)
  | .getArrayLength array,s =>
    s.pending = none ∧ ((∃ n, Refers s array (.bytes n)) ∨ ∃ items, Refers s array (.subPolicies items))
  | .getObjectField object field,s => s.pending = none ∧ s.locals.length < room ∧
    ∃ value, Refers s object (.policy value) ∧ field = some ⟨policyClass,"sub_policy","[Lcom/teradata/jni/SubPolicy;"⟩
  | .getIntField object field,s => s.pending = none ∧
    ∃ obj name, Refers s object obj ∧ (intField obj name).isSome ∧ ∃ className, classOf obj = some className ∧
      field = some ⟨className,name,"I"⟩
  | .getObjectArrayElement array index,s => s.pending = none ∧ s.locals.length < room ∧
    ∃ items, Refers s array (.subPolicies items) ∧ index < items.length
  | .getByteArrayRegion array start length,s => s.pending = none ∧ ∃ n, Refers s array (.bytes n) ∧ start + length ≤ n
  | .setByteArrayRegion array start bytes,s =>
    s.pending = none ∧ ∃ n, Refers s array (.bytes n) ∧ start + bytes.length ≤ n

-- What it promises. In a steady JVM no other thread changes the objects in the
-- meantime; otherwise only types and array lengths stay what they are.
def Promises (steady : Prop) : (op : JniOp) → Env → Answer op → Env → Prop
  | .getEnv,s,answer,s' => (answer = true ∧ s' = s) ∨ answer = false ∧ s' = {s with refused := true}
  | .exceptionCheck,s,answer,s' => answer = s.pending.isSome ∧ s' = s
  | .readBlocks,s,answer,s' => answer = s.blocks ∧ s' = s
  | .writeBlocks blocks,s,_,s' => s' = {s with blocks := blocks}
  | .deleteLocalRef object,s,_,s' => ∃ ref, object = some ref ∧ s' = {s with locals := s.locals.erase ref}
  | .findClass name,s,answer,s' =>
    (answer = none ∧ Raised s s') ∨ ∃ ref, answer = some ref ∧ ref.obj = .clazz name ∧ Made s ref s'
  | .newGlobalRef object,s,answer,s' =>
    (answer = none ∧ (s' = {s with refused := true} ∨ Raised s s')) ∨
      ∃ ref origin, answer = some ref ∧ object = some origin ∧ ref.obj = origin.obj ∧ Fresh s ref ∧
        s' = {s with globals := ref :: s.globals}
  | .getMethodID clazz name signature,s,answer,s' | .getFieldID clazz name signature,s,answer,s' =>
    (answer = none ∧ Raised s s') ∨
      ∃ ref className, clazz = some ref ∧ ref.obj = .clazz className ∧ answer = some ⟨className,name,signature⟩ ∧ s' = s
  | .throwNew clazz message,s,answer,s' =>
    (answer ≠ 0 ∧ Raised s s') ∨
      (answer = 0 ∧ ∃ ref className, clazz = some ref ∧ ref.obj = .clazz className ∧
        s' = {s with pending := some (className,message)})
  | .getArrayLength array,s,answer,s' => s' = s ∧
    ∃ ref, array = some ref ∧ (ref.obj = .bytes answer ∨ ∃ items, ref.obj = .subPolicies items ∧ answer = items.length)
  | .getObjectField object _,s,answer,s' => ∃ ref value, object = some ref ∧ ref.obj = .policy value ∧
    ((answer = none ∧ (steady → value.subPolicy = none) ∧ s' = s) ∨
      ∃ array items, answer = some array ∧ array.obj = .subPolicies items ∧ (steady → value.subPolicy = some items) ∧
        Made s array s')
  | .getIntField object field,s,answer,s' => s' = s ∧
    (steady → ∃ ref member, object = some ref ∧ field = some member ∧ intField ref.obj member.name = some answer)
  | .getObjectArrayElement array index,s,answer,s' => ∃ ref items, array = some ref ∧ ref.obj = .subPolicies items ∧
    ∃ middle, (s' = middle ∨ Raised middle s') ∧
      ((answer = none ∧ (steady → items[index]? = some none) ∧ middle = s) ∨
        ∃ element value, answer = some element ∧ element.obj = .subPolicy value ∧
          (steady → items[index]? = some (some value)) ∧ Made s element middle)
  | .getByteArrayRegion array start length,s,answer,s' => answer.length = length ∧
    (steady → ∃ ref, array = some ref ∧ answer = ((s.arrays ref.id).drop start).take length) ∧ (s' = s ∨ Raised s s')
  | .newByteArray length,s,answer,s' =>
    (answer = none ∧ Raised s s') ∨
      ∃ ref, answer = some ref ∧ ref.obj = .bytes length ∧ Fresh s ref ∧
        s' = {s with locals := ref :: s.locals, arrays := Function.update s.arrays ref.id (List.replicate length 0)}
  | .setByteArrayRegion array start bytes,s,_,s' => ∃ ref, array = some ref ∧
    s' = {s with arrays := Function.update s.arrays ref.id ((s.arrays ref.id).take start ++ bytes ++
      (s.arrays ref.id).drop (start + bytes.length))}
  | .crash _,_,_,_ => False

def jniContract (steady : Prop) (room : Nat) (mayCrash : Fault → Prop) : Contract JniOp Answer Env :=
  ⟨Owes room mayCrash,Promises steady⟩

end TeradataCpt.JniProtocol
