import TeradataCpt.JniRuns

namespace TeradataCpt.JniSessions
open CSemantics Interaction Cpt CptJni NativeCode JniProtocol ObligingJvm JniCalls JniRuns

-- A call as Java code makes it, and the answer expected.
structure Request where
  input : Option (List UInt8)
  policy : Option (Option Policy)
  key : Int64
  mode : Int8
  encrypting : Bool

-- `policy` is there for the methods that have such a parameter.
def Request.call (request : Request) (input policy : JObject) : Call :=
  match request.policy,request.encrypting with
  | none,true => .encrypt input request.key request.mode
  | none,false => .decrypt input request.key request.mode
  | some _,true => .multiSubPolicyEncrypt input policy request.key request.mode
  | some _,false => .multiSubPolicyDecrypt input policy request.key request.mode

def Request.answer (machine : Machine) (host : Host) (request : Request) : Except Failure (List UInt8) :=
  match request.policy with
  | none => CptJni.transform machine host request.input request.key request.mode request.encrypting
  | some policy => CptJni.transformPolicy machine host request.input policy request.key request.mode request.encrypting

def enterInput (input : Option (List UInt8)) (s : Env) : JObject × Env :=
  match input with
  | none => (none,s)
  | some bytes =>
    let ref : Ref := ⟨freshId s,.bytes bytes.length⟩
    (some ref,{s with locals := ref :: s.locals, arrays := Function.update s.arrays ref.id bytes})

def enterPolicy (policy : Option (Option Policy)) (s : Env) : JObject × Env :=
  match policy with
  | some (some value) => newLocal (.policy value) s
  | _ => (none,s)

def enter (request : Request) (s : Env) : Call × Env :=
  let input := enterInput request.input s
  let policy := enterPolicy request.policy input.2
  (request.call input.1 policy.1,policy.2)

def leave (s : Env) : Env := {s with locals := [], pending := none}

def session (machine : Machine) (host : Host) : List Request → Env → Option (List (Except Failure (List UInt8)))
  | [],_ => some []
  | request :: rest,s => do
    let entered := enter request s
    let (answer,s') ← follow obliging (entered.1.body machine host) entered.2
    let outcomes ← session machine host rest (leave s')
    return outcome answer s' :: outcomes

def library (machine : Machine) (host : Host) (requests : List Request) : Option (List (Except Failure (List UInt8))) := do
  let (version,s) ← follow obliging jniOnLoad unused
  if version = jniVersion then session machine host requests s else none

section Entering
variable {s : Env} (sized : Sized s)
include sized

theorem enter_input (bytes : Option (List UInt8)) (short : ∀ x, bytes = some x → x.length < 2^31) :
    Sized (enterInput bytes s).2 ∧ (∀ ref, (enterInput bytes s).1 = some ref → Input (enterInput bytes s).2 ref) ∧
      ((enterInput bytes s).1.map fun ref => (enterInput bytes s).2.arrays ref.id) = bytes ∧
      (enterInput bytes s).2.pending = s.pending ∧ (enterInput bytes s).2.globals = s.globals ∧
      (enterInput bytes s).2.blocks = s.blocks := by
  cases bytes with
  | none => exact ⟨sized,fun _ none => (nomatch none),rfl,rfl,rfl,rfl⟩
  | some x =>
    have fresh := fresh_id s (.bytes x.length)
    have held : Sized (enterInput (some x) s).2 := by
      refine ⟨fun ref live n kind => ?_,sized.calm⟩
      have known : ref = ⟨freshId s,.bytes x.length⟩ ∨ Live s ref := by
        rcases live with here | globally
        · exact (List.mem_cons.mp here).imp id .inl
        · exact .inr (.inr globally)
      rcases known with rfl | old
      · cases kind
        simp [enterInput]
      · have apart : ref.id ≠ freshId s := fresh ref old
        simpa [enterInput,apart] using sized.sized ref old n kind
    refine ⟨held,?_,by simp [enterInput],rfl,rfl,rfl⟩
    rintro ref same
    cases same
    refine ⟨.inl List.mem_cons_self,?_,?_⟩
    · simp [enterInput]
    · simpa [enterInput] using short x rfl

theorem enter_policy (policy : Option (Option Policy)) :
    Sized (enterPolicy policy s).2 ∧
      (∀ ref, (enterPolicy policy s).1 = some ref → Live (enterPolicy policy s).2 ref ∧ ∃ value, ref.obj = .policy value) ∧
      ((enterPolicy policy s).1.bind fun ref => policyValue ref.obj) = policy.join ∧
      (∀ ref, Live s ref → Live (enterPolicy policy s).2 ref) ∧
      (enterPolicy policy s).2.arrays = s.arrays ∧ (enterPolicy policy s).2.pending = s.pending ∧
      (enterPolicy policy s).2.globals = s.globals ∧ (enterPolicy policy s).2.blocks = s.blocks := by
  rcases policy with _ | _ | value
  · exact ⟨sized,fun _ none => (nomatch none),rfl,fun _ live => live,rfl,rfl,rfl,rfl⟩
  · exact ⟨sized,fun _ none => (nomatch none),rfl,fun _ live => live,rfl,rfl,rfl,rfl⟩
  · refine ⟨sized.made fun n same => (nomatch same),?_,rfl,?_,rfl,rfl,rfl,rfl⟩
    · rintro ref same
      cases same
      exact ⟨.inl List.mem_cons_self,value,rfl⟩
    · exact fun ref live => live.imp (List.mem_cons_of_mem _) id

end Entering

theorem call_arguments (request : Request) (object policy : JObject) (noPolicy : request.policy = none → policy = none) :
    input (request.call object policy) = object ∧ policyObject (request.call object policy) = policy := by
  obtain ⟨bytes,given,key,mode,encrypting⟩ := request
  cases given with
  | none =>
    obtain rfl := noPolicy rfl
    cases encrypting <;> exact ⟨rfl,rfl⟩
  | some given => cases encrypting <;> exact ⟨rfl,rfl⟩

theorem plain_answer (machine : Machine) (host : Host) (request : Request) (object policy : JObject) :
    plain machine host request.input request.policy.join (request.call object policy) = request.answer machine host := by
  obtain ⟨bytes,given,key,mode,encrypting⟩ := request
  cases given with
  | none => cases encrypting <;> rfl
  | some given => cases encrypting <;> rfl

theorem enter_enters {s : Env} (ready : Ready s) (sized : Sized s) (request : Request)
    (short : ∀ x, request.input = some x → x.length < 2^31) :
    Enters s (enter request s).1 (enter request s).2 ∧ Sized (enter request s).2 ∧
      ∀ machine host outcome, Plain machine host True (enter request s).2 (enter request s).1 outcome →
        outcome = request.answer machine host := by
  obtain ⟨inputSized,inputs,bytes,pending,globals,blocks⟩ := enter_input sized request.input short
  obtain ⟨held,policies,value,live,arrays,pending',globals',blocks'⟩ := enter_policy inputSized request.policy
  have none_ : request.policy = none → (enterPolicy request.policy (enterInput request.input s).2).1 = none := by
    intro none
    rw [none]
    rfl
  obtain ⟨inputIs,policyIs⟩ := call_arguments request (enterInput request.input s).1 _ none_
  refine ⟨⟨?_,held.calm,globals'.trans globals,blocks'.trans blocks,?_,?_⟩,held,?_⟩
  · exact (pending'.trans pending).trans ready.clear
  · intro ref same
    have argument := inputs ref (inputIs.symm.trans same)
    refine ⟨live ref argument.live,?_,?_⟩
    · simpa only [enter,arrays] using argument.kind
    · simpa only [enter,arrays] using argument.short
  · intro ref same
    exact policies ref (policyIs.symm.trans same)
  · rintro machine host outcome ⟨seen,policy,sees,rfl⟩
    rw [sees.sameBytes trivial,sees.samePolicy trivial]
    simp only [enter,inputIs,policyIs,arrays,bytes,value]
    exact plain_answer machine host request _ _

section Sessions
variable {machine : Machine} (available : ∀ call, machine.mallocOk call = true) (host : Host)
include available

theorem session_step {s : Env} (ready : Ready s) (sized : Sized s) (request : Request)
    (short : ∀ x, request.input = some x → x.length < 2^31) :
    ∃ answer s', follow obliging ((enter request s).1.body machine host) (enter request s).2 = some (answer,s') ∧
      outcome answer s' = request.answer machine host ∧ Ready (leave s') ∧ Sized (leave s') := by
  obtain ⟨enters,held,meaning⟩ := enter_enters ready sized request short
  have secured : Secures (jniContract True ((enter request s).2.locals.length + 2) fun _ => False)
      ((enter request s).1.body machine host) _ (enter request s).2 :=
    call_settles ready.registered enters (Nat.le_refl _) (plain_served available enters)
  obtain ⟨answer,s',followed,_,settles,sized'⟩ := secures_follow Sized (fun op _ => obliging_answers op)
    secured held
  have ready' : Ready (leave s') := ready.left enters (settles_balanced enters settles)
  refine ⟨answer,s',followed,meaning machine host _ (settles_outcome settles sized'.calm),ready',?_⟩
  refine sized'.kept rfl rfl fun ref live n kind => ?_
  rcases live with here | globally
  · cases here
  · exact .inr globally

theorem session_run {s : Env} (ready : Ready s) (sized : Sized s) (requests : List Request)
    (short : ∀ request ∈ requests, ∀ x, request.input = some x → x.length < 2^31) :
    session machine host requests s = some (requests.map (Request.answer machine host)) := by
  induction requests generalizing s with
  | nil => rfl
  | cons request rest ih =>
    obtain ⟨answer,s',followed,expected,ready',sized'⟩ :=
      session_step available host ready sized request (short request List.mem_cons_self)
    have others := ih ready' sized' fun other later => short other (List.mem_cons_of_mem request later)
    simp only [session,followed,Option.bind_eq_bind,Option.bind_some,others,expected]
    rfl

-- The library loads, and then any calls in any order give the answers of the functions
-- on values.
theorem library_answers (requests : List Request)
    (short : ∀ request ∈ requests, ∀ x, request.input = some x → x.length < 2^31) :
    library machine host requests = some (requests.map (Request.answer machine host)) := by
  have secured : Secures (jniContract True 1 fun _ => False) jniOnLoad _ unused :=
    jni_on_load rfl Nat.zero_lt_one
  obtain ⟨version,s,followed,_,loaded,sized⟩ := secures_follow Sized
    (fun op _ => obliging_answers op) secured unused_sized
  rcases loaded with ⟨rfl,loaded⟩ | ⟨_,_,refused⟩
  · have ready : Ready s := loaded.ready rfl rfl
    simp only [library,followed,Option.bind_eq_bind,Option.bind_some,if_true]
    exact session_run available host ready sized requests short
  · rw [sized.calm] at refused
    cases refused

end Sessions

theorem library_answers_digit :
    library .reliable .lp64 [⟨some [0x31],none,0,1,true⟩,⟨some [0x31],some (some ⟨1,some [some ⟨0,2⟩]⟩),0,1,true⟩] =
      some [Request.answer .reliable .lp64 ⟨some [0x31],none,0,1,true⟩,
        Request.answer .reliable .lp64 ⟨some [0x31],some (some ⟨1,some [some ⟨0,2⟩]⟩),0,1,true⟩] := by
  refine library_answers reliable_serves .lp64 _ ?_
  intro request member x here
  obtain rfl : x = [0x31] := by
    rcases List.mem_cons.mp member with rfl | later
    · exact (Option.some.inj here).symm
    · obtain rfl := List.mem_singleton.mp later
      exact (Option.some.inj here).symm
  decide

end TeradataCpt.JniSessions
