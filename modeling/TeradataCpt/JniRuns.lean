import TeradataCpt.JniCalls
import TeradataCpt.ObligingJvm

namespace TeradataCpt.JniRuns
open CSemantics Interaction Cpt CptJni NativeCode JniProtocol ObligingJvm JniCalls

section Loading
variable {steady : Prop} {room : Nat} {mayCrash : Fault → Prop} {s : Env}

theorem assigns {update : Blocks → Blocks} {rest : Unit → Native α} {post : α → Env → Prop}
    (next : Secures (jniContract steady room mayCrash) (rest ()) post {s with blocks := update s.blocks}) :
    Secures (jniContract steady room mayCrash) (assign update >>= rest) post s := by
  rw [secures_bind]
  refine reads_blocks ?_
  refine ⟨trivial,?_⟩
  rintro _ s' rfl
  exact next

def Registers (s : Env) (done : Env → Prop) (status : Int) (s' : Env) : Prop :=
  (status = -1 ∧ s'.locals = s.locals ∧ s'.refused = true) ∨ status = 0 ∧ done s'

def Keeps (s : Env) (name : String) (update : JObject → Blocks → Blocks) (s' : Env) : Prop :=
  ∃ ref, ref.obj = .clazz name ∧ s' = {s with globals := ref :: s.globals, blocks := update (some ref) s.blocks}

theorem find_class (clear : s.pending = none) (space : s.locals.length < room) (name : String)
    (clazzOut : JObject → Blocks → Blocks) :
    Secures (jniContract steady room mayCrash) (findClass name clazzOut) (Registers s (Keeps s name clazzOut)) s := by
  refine asks ⟨clear,space⟩ ?_
  rintro localClass s1 (⟨rfl,thrown,rfl⟩ | ⟨ref,rfl,kind,_,rfl⟩)
  · exact .inl ⟨rfl,rfl,rfl⟩
  · refine asks ⟨clear,name,ref,rfl,.inl List.mem_cons_self,kind⟩ ?_
    rintro clazz s2 (⟨rfl,refused⟩ | ⟨kept,origin,rfl,same,keptKind,_,rfl⟩)
    · rcases refused with rfl | ⟨thrown,rfl⟩
      · exact assigns (deletes rfl (.inl ⟨rfl,rfl,rfl⟩))
      · exact assigns (deletes rfl (.inl ⟨rfl,rfl,rfl⟩))
    · cases same
      exact assigns (deletes rfl (.inr ⟨rfl,kept,keptKind.trans kind,rfl⟩))

theorem get_field (clear : s.pending = none) {clazz : Ref} {className : String} (live : Live s clazz)
    (kind : clazz.obj = .clazz className) (name signature : String) (fieldOut : MemberId → Blocks → Blocks) :
    Secures (jniContract steady room mayCrash) (getField (some clazz) name signature fieldOut)
      (Registers s fun s' => s' = {s with blocks := fieldOut (some ⟨className,name,signature⟩) s.blocks}) s := by
  refine asks ⟨clear,className,clazz,rfl,live,kind⟩ ?_
  rintro field s1 (⟨rfl,thrown,rfl⟩ | ⟨ref,other,same,named,rfl,rfl⟩)
  · exact assigns (.inl ⟨rfl,rfl,rfl⟩)
  · cases same
    rw [kind] at named
    cases named
    exact assigns (.inr ⟨rfl,rfl⟩)

def registered (name : String) (clazzOut : JObject → Blocks → Blocks) (constructorOut : MemberId → Blocks → Blocks)
    (first second : String × String × (MemberId → Blocks → Blocks)) (clazz : JObject) (blocks : Blocks) : Blocks :=
  second.2.2 (some ⟨name,second.1,second.2.1⟩) (first.2.2 (some ⟨name,first.1,first.2.1⟩)
    (constructorOut (some ⟨name,"<init>","()V"⟩) (clazzOut clazz blocks)))

theorem register_class (clear : s.pending = none) (space : s.locals.length < room) (name : String)
    {clazzOut : JObject → Blocks → Blocks} {clazzOf : Blocks → JObject}
    (stored : ∀ clazz blocks, clazzOf (clazzOut clazz blocks) = clazz) (constructorOut : MemberId → Blocks → Blocks)
    (first second : String × String × (MemberId → Blocks → Blocks)) :
    Secures (jniContract steady room mayCrash) (registerClass name clazzOut clazzOf constructorOut first second)
      (Registers s (Keeps s name (registered name clazzOut constructorOut first second))) s := by
  rw [registerClass,secures_bind]
  refine (find_class clear space name clazzOut).mono ?_
  rintro status s1 (⟨rfl,same,refused⟩ | ⟨rfl,clazz,kind,rfl⟩)
  · exact .inl ⟨rfl,same,refused⟩
  · simp only [ne_eq,not_true_eq_false,if_false]
    refine reads_blocks ?_
    rw [stored]
    refine asks ⟨clear,name,clazz,rfl,.inr List.mem_cons_self,kind⟩ ?_
    rintro constructor s2 (⟨rfl,thrown,rfl⟩ | ⟨ref,className,same,named,rfl,rfl⟩)
    · exact assigns (.inl ⟨rfl,rfl,rfl⟩)
    · cases same
      rw [kind] at named
      cases named
      refine assigns ?_
      simp only [reduceCtorEq,if_false]
      rw [secures_bind]
      refine Secures.mono (get_field ?_ (.inr ?_) kind _ _ _) ?_
      · exact clear
      · exact List.mem_cons_self
      rintro status s3 (⟨rfl,same,refused⟩ | ⟨rfl,rfl⟩)
      · exact .inl ⟨rfl,same,refused⟩
      · simp only [not_true_eq_false,if_false]
        rw [secures_bind]
        refine Secures.mono (get_field ?_ (.inr ?_) kind _ _ _) ?_
        · exact clear
        · exact List.mem_cons_self
        rintro status s4 (⟨rfl,same,refused⟩ | ⟨rfl,rfl⟩)
        · exact .inl ⟨rfl,same,refused⟩
        · exact .inr ⟨rfl,clazz,kind,rfl⟩

-- What JNI_OnLoad leaves behind when it succeeds: the handles, and two global
-- references that keep the classes from being unloaded.
structure Loaded (start s : Env) : Prop where
  registered : Registered s.blocks
  policyClass : ∃ ref ∈ s.globals, s.blocks.jniPolicy.clazz = some ref ∧ ref.obj = .clazz policyClass
  subPolicyClass : ∃ ref ∈ s.globals, s.blocks.jniSubPolicy.clazz = some ref ∧ ref.obj = .clazz subPolicyClass
  kept : ∃ refs, refs.length = 2 ∧ s.globals = refs ++ start.globals
  locals : s.locals = start.locals
  clear : s.pending = none

theorem jni_on_load (clear : s.pending = none) (space : s.locals.length < room) :
    Secures (jniContract steady room mayCrash) jniOnLoad
      (fun version s' => (version = jniVersion ∧ Loaded s s') ∨
        version = jniErr ∧ s'.locals = s.locals ∧ s'.refused = true) s := by
  refine asks trivial ?_
  rintro env s1 (⟨rfl,rfl⟩ | ⟨rfl,rfl⟩)
  · simp only [if_true]
    rw [secures_bind,registerClasses,secures_bind]
    refine Secures.mono (register_class clear space _ ?_ _ _ _) ?_
    · exact fun _ _ => rfl
    rintro status s2 (⟨rfl,same,refused⟩ | ⟨rfl,subPolicyRef,subPolicyKind,rfl⟩)
    · exact .inr ⟨rfl,same,refused⟩
    · simp only [ne_eq,not_true_eq_false,if_false]
      rw [secures_bind]
      refine Secures.mono (register_class ?_ ?_ _ ?_ _ _ _) ?_
      · exact clear
      · exact space
      · exact fun _ _ => rfl
      rintro status s3 (⟨rfl,same,refused⟩ | ⟨rfl,policyRef,policyKind,rfl⟩)
      · exact .inr ⟨rfl,same,refused⟩
      · refine .inl ⟨rfl,⟨rfl,rfl,rfl,rfl⟩,⟨policyRef,List.mem_cons_self,rfl,policyKind⟩,?_,?_,rfl,clear⟩
        · exact ⟨subPolicyRef,List.mem_cons_of_mem _ List.mem_cons_self,rfl,subPolicyKind⟩
        · exact ⟨[policyRef,subPolicyRef],rfl,rfl⟩
  · exact .inr ⟨rfl,rfl,rfl⟩

end Loading

def input : Call → JObject
  | .encrypt input _ _ | .decrypt input _ _ => input
  | .multiSubPolicyEncrypt input _ _ _ | .multiSubPolicyDecrypt input _ _ _ => input

def policyObject : Call → JObject
  | .encrypt _ _ _ | .decrypt _ _ _ => none
  | .multiSubPolicyEncrypt _ policy _ _ | .multiSubPolicyDecrypt _ policy _ _ => policy

def plain (machine : Machine) (host : Host) (bytes : Option (List UInt8)) (policy : Option Policy) :
    Call → Except Failure (List UInt8)
  | .encrypt _ key mode => CptJni.transform machine host bytes key mode true
  | .decrypt _ key mode => CptJni.transform machine host bytes key mode false
  | .multiSubPolicyEncrypt _ _ key mode => CptJni.transformPolicy machine host bytes policy key mode true
  | .multiSubPolicyDecrypt _ _ key mode => CptJni.transformPolicy machine host bytes policy key mode false

def policyValue : Obj → Option Policy
  | .policy value => some value
  | _ => none

-- What a call can see of its arguments while other threads change them: their kinds
-- and the array's length are fixed, and in a steady JVM everything is.
structure Sees (steady : Prop) (s : Env) (call : Call) (bytes : Option (List UInt8)) (policy : Option Policy) : Prop where
  size : bytes.map List.length = (input call).map fun ref => (s.arrays ref.id).length
  present : policy.isSome = (policyObject call).isSome
  sameBytes : steady → bytes = (input call).map fun ref => s.arrays ref.id
  samePolicy : steady → policy = (policyObject call).bind fun ref => policyValue ref.obj

def Plain (machine : Machine) (host : Host) (steady : Prop) (s : Env) (call : Call)
    (outcome : Except Failure (List UInt8)) : Prop :=
  ∃ bytes policy, Sees steady s call bytes policy ∧ plain machine host bytes policy call = outcome

-- A call from Java code that has caught its exceptions; the arguments are what their
-- types say.
structure Enters (s : Env) (call : Call) (entry : Env) : Prop where
  clear : entry.pending = none
  calm : entry.refused = false
  globals : entry.globals = s.globals
  blocks : entry.blocks = s.blocks
  input : ∀ ref, input call = some ref → Input entry ref
  policy : ∀ ref, policyObject call = some ref → Live entry ref ∧ ∃ value, ref.obj = .policy value

section Calls
variable {machine : Machine} {host : Host} {steady : Prop} {room : Nat} {mayCrash : Fault → Prop} {s entry : Env}

theorem sees_bytes {call : Call} {ref : Ref} {seen : List UInt8} (given : input call = some ref)
    (sight : SeenBytes steady s ref seen) (noPolicy : policyObject call = none) : Sees steady s call (some seen) none := by
  refine ⟨?_,?_,fun steadily => ?_,fun _ => ?_⟩
  · rw [given,Option.map_some,Option.map_some,sight.1]
  · rw [noPolicy]
    rfl
  · rw [given,Option.map_some,sight.2 steadily]
  · rw [noPolicy]
    rfl

theorem sees_policy {call : Call} {ref object : Ref} {value : Policy} {seen : List UInt8} {seenPolicy : Policy}
    (given : input call = some ref) (givenPolicy : policyObject call = some object) (kind : object.obj = .policy value)
    (sight : SeenBytes steady s ref seen) (policySight : steady → seenPolicy = value) :
    Sees steady s call (some seen) (some seenPolicy) := by
  refine ⟨?_,?_,fun steadily => ?_,fun steadily => ?_⟩
  · rw [given,Option.map_some,Option.map_some,sight.1]
  · rw [givenPolicy]
    rfl
  · rw [given,Option.map_some,sight.2 steadily]
  · rw [givenPolicy,policySight steadily,Option.bind_some,kind]
    rfl

theorem sees_arguments (steady : Prop) {call : Call} (enters : Enters s call entry) : Sees steady entry call
    ((input call).map fun ref => entry.arrays ref.id) ((policyObject call).bind fun ref => policyValue ref.obj) := by
  refine ⟨Option.map_map _ _ _,?_,fun _ => rfl,fun _ => rfl⟩
  cases object : policyObject call with
  | none => rfl
  | some ref =>
    obtain ⟨_,value,kind⟩ := enters.policy ref object
    rw [Option.bind_some,kind]
    rfl

theorem null_argument (bytes : Option (List UInt8)) (policy : Option Policy) (key : Int64) (mode : Int8) (encrypting : Bool)
    (absent : bytes = none ∨ policy = none) : CptJni.transformPolicy machine host bytes policy key mode encrypting =
      .error (illegalArgument "input and policy must not be null") := by
  cases bytes with
  | none => rfl
  | some bytes =>
    cases policy with
    | none => rfl
    | some policy => rcases absent with none | none <;> cases none

theorem call_settles {call : Call} (registered : Registered s.blocks) (enters : Enters s call entry)
    (space : entry.locals.length + 2 ≤ room)
    (faults : ∀ fault, Plain machine host steady entry call (.error (.fault fault)) → mayCrash fault) :
    Secures (jniContract steady room mayCrash) (call.body machine host)
      (Settles (Plain machine host steady entry call) entry) entry := by
  have handles : Registered entry.blocks := by rwa [enters.blocks]
  have actual := sees_arguments steady enters
  cases call with
  | encrypt input key mode | decrypt input key mode =>
    refine transform_settles enters.clear space faults enters.input (fun absent => ⟨_,_,actual,?_⟩) ?_
    · subst absent
      rfl
    · intro ref seen given sight
      exact ⟨some seen,none,sees_bytes given sight rfl,rfl⟩
  | multiSubPolicyEncrypt input policy key mode | multiSubPolicyDecrypt input policy key mode =>
    refine transform_policy_settles enters.clear space faults handles enters.input enters.policy
      (fun absent => ⟨_,_,actual,null_argument _ _ key mode _ ?_⟩) ?_
    · rcases absent with rfl | rfl
      · exact .inl rfl
      · exact .inr rfl
    · intro ref object value seen seenPolicy given givenPolicy kind sight policySight
      exact ⟨some seen,some seenPolicy,sees_policy given givenPolicy kind sight policySight,rfl⟩

theorem plain_transform_length {bytes : Option (List UInt8)} {key : Int64} {mode : Int8} {encrypting : Bool}
    {out : List UInt8} (ran : CptJni.transform machine host bytes key mode encrypting = .ok out) :
    ∃ x, bytes = some x ∧ out.length = x.length := by
  cases bytes with
  | none => cases ran
  | some x =>
    refine ⟨x,rfl,?_⟩
    simp only [CptJni.transform] at ran
    by_cases valid : validMode mode = true
    · rw [if_pos valid] at ran
      exact transform_length (ok_of_mapError ran)
    · rw [if_neg valid] at ran
      cases ran

theorem plain_policy_length {bytes : Option (List UInt8)} {policy : Option Policy} {key : Int64} {mode : Int8}
    {encrypting : Bool} {out : List UInt8}
    (ran : CptJni.transformPolicy machine host bytes policy key mode encrypting = .ok out) :
    ∃ x, bytes = some x ∧ out.length = x.length := by
  cases bytes with
  | none => cases ran
  | some x =>
    refine ⟨x,rfl,?_⟩
    cases policy with
    | none => cases ran
    | some policy =>
      simp only [CptJni.transformPolicy] at ran
      by_cases valid : validMode mode = true
      · rw [if_pos valid] at ran
        obtain ⟨⟨converted,policy⟩,_,rest⟩ := ok_of_bind ran
        by_cases refused : converted ≠ 0
        · simp only [if_pos refused] at rest
          cases rest
        · simp only [if_neg refused] at rest
          obtain ⟨result,done,last⟩ := ok_of_bind rest
          cases result with
          | none => cases last
          | some result =>
            cases last
            exact transform_policy_length (ok_of_mapError done)
      · rw [if_neg valid] at ran
        cases ran

theorem plain_length {bytes : Option (List UInt8)} {policy : Option Policy} {call : Call} {out : List UInt8}
    (ran : plain machine host bytes policy call = .ok out) : ∃ x, bytes = some x ∧ out.length = x.length := by
  cases call with
  | encrypt input key mode | decrypt input key mode => exact plain_transform_length ran
  | multiSubPolicyEncrypt input object key mode | multiSubPolicyDecrypt input object key mode =>
    exact plain_policy_length ran

end Calls

section Runs
variable (machine : Machine) (host : Host)

-- The states the library can be in between two calls of a thread: JNI_OnLoad has
-- succeeded, then native methods were called in any order, whichever mallocs failed
-- and with exceptions of the JVM and changes by other threads anywhere. Java code
-- caught what was thrown.
inductive Reached : Env → Prop where
  | loaded : start.blocks = .zero → start.locals = [] → start.globals = [] → start.pending = none →
      Ends (jniContract False 1 fun _ => False) jniOnLoad start jniVersion s → Reached s
  | returned (machine : Machine) : Reached s → Enters s call entry →
      Ends (jniContract False (entry.locals.length + 2) fun _ => False) (call.body machine host) entry answer s' →
      Reached {s' with locals := [], pending := none}

structure Ready (s : Env) : Prop where
  registered : Registered s.blocks
  policyClass : ∃ ref ∈ s.globals, s.blocks.jniPolicy.clazz = some ref ∧ ref.obj = .clazz policyClass
  subPolicyClass : ∃ ref ∈ s.globals, s.blocks.jniSubPolicy.clazz = some ref ∧ ref.obj = .clazz subPolicyClass
  globals : s.globals.length = 2
  locals : s.locals = []
  clear : s.pending = none

-- How a native method leaves the thread: either NULL and a pending exception, or a new
-- array of the input's length and no exception. No other reference is made or lost,
-- and no other array is written.
structure Balanced (call : Call) (entry : Env) (answer : JObject) (s' : Env) : Prop where
  globals : s'.globals = entry.globals
  blocks : s'.blocks = entry.blocks
  outcome : (answer = none ∧ s'.pending.isSome ∧ s'.locals = entry.locals ∧ s'.arrays = entry.arrays) ∨
    ∃ ref given, answer = some ref ∧ input call = some given ∧ s'.pending = none ∧ Fresh entry ref ∧
      s'.locals = ref :: entry.locals ∧ (s'.arrays ref.id).length = (entry.arrays given.id).length ∧
      ∀ id ≠ ref.id, s'.arrays id = entry.arrays id

variable {machine host} {s entry : Env} {call : Call}

theorem plain_served {steady : Prop} (available : ∀ call, machine.mallocOk call = true) (enters : Enters s call entry)
    (fault : Fault) : ¬ Plain machine host steady entry call (.error (.fault fault)) := by
  rintro ⟨bytes,policy,sees,outcome⟩
  have short : ∀ x, bytes = some x → x.length < 2^31 := by
    intro x here
    have size := sees.size
    cases given : input call with
    | none =>
      rw [here,given] at size
      cases size
    | some ref =>
      rw [here,given] at size
      rw [Option.some.inj size]
      exact (enters.input ref given).short
  cases call with
  | encrypt input key mode | decrypt input key mode =>
    exact Safety.transform_unharmed available host bytes key mode _ fault outcome
  | multiSubPolicyEncrypt input object key mode | multiSubPolicyDecrypt input object key mode =>
    exact Safety.transform_policy_unharmed available host bytes policy key mode _ short fault outcome

theorem settles_balanced {steady : Prop} (enters : Enters s call entry) {answer : JObject} {s' : Env}
    (settles : Settles (Plain machine host steady entry call) entry answer s') : Balanced call entry answer s' := by
  rcases settles with ⟨rfl,thrown,refused,rfl,_⟩ | ⟨ref,bytes,rfl,fresh,_,rfl,seen,policy,sees,outcome⟩
  · exact ⟨rfl,rfl,.inl ⟨rfl,rfl,rfl,rfl⟩⟩
  · obtain ⟨x,rfl,length⟩ := plain_length outcome
    have size := sees.size
    cases given : input call with
    | none =>
      rw [given] at size
      cases size
    | some origin =>
      rw [given] at size
      refine ⟨rfl,rfl,.inr ⟨ref,origin,rfl,given,enters.clear,fresh,rfl,?_,fun id other => ?_⟩⟩
      · simpa only [Function.update_self,length] using Option.some.inj size
      · exact Function.update_of_ne other _ _

theorem Loaded.ready {start : Env} (loaded : Loaded start s) (locals : start.locals = []) (globals : start.globals = []) :
    Ready s := by
  obtain ⟨refs,two,kept⟩ := loaded.kept
  refine ⟨loaded.registered,loaded.policyClass,loaded.subPolicyClass,?_,loaded.locals.trans locals,loaded.clear⟩
  rw [kept,globals,List.append_nil,two]

theorem Ready.left (ready : Ready s) (enters : Enters s call entry) {answer : JObject} {s' : Env}
    (balanced : Balanced call entry answer s') : Ready {s' with locals := [], pending := none} := by
  have blocks : s'.blocks = s.blocks := balanced.blocks.trans enters.blocks
  have globals : s'.globals = s.globals := balanced.globals.trans enters.globals
  refine ⟨?_,?_,?_,?_,rfl,rfl⟩
  · simpa only [blocks] using ready.registered
  · simpa only [blocks,globals] using ready.policyClass
  · simpa only [blocks,globals] using ready.subPolicyClass
  · simpa only [globals] using ready.globals

theorem reached_ready (reached : Reached host s) : Ready s := by
  induction reached with
  | @loaded start s zero locals globals clear ended =>
    have space : start.locals.length < 1 := by rw [locals]; decide
    have secured : Secures (jniContract False 1 fun _ => False) jniOnLoad _ start := jni_on_load clear space
    rcases ((secures_iff _ _ _).mp secured).2 _ _ ended with ⟨_,done⟩ | ⟨failed,_⟩
    · exact done.ready locals globals
    · exact absurd failed (by decide)
  | @returned s call entry answer s' machine _ enters ended ready =>
    have secured : Secures (jniContract False (entry.locals.length + 2) fun _ => True) (call.body machine host) _ entry :=
      call_settles ready.registered enters (Nat.le_refl _) fun _ _ => trivial
    exact ready.left enters (settles_balanced enters (((secures_iff _ _ _).mp secured).2 _ _ (ends_change ended rfl)))

-- Whatever the JVM answers, whatever it throws and whatever other threads do to the
-- arguments: JNI_OnLoad and every later call keep to the JNI specification with two
-- local references of their own at most, no access of the C code fails, and each call
-- leaves the thread balanced, so the library stays ready.
theorem protocol_kept (available : ∀ call, machine.mallocOk call = true) :
    (∀ start, start.pending = none →
      ¬ Breaks (jniContract False (start.locals.length + 1) fun _ => False) jniOnLoad start) ∧
    ∀ s, Reached host s → Ready s ∧ ∀ call entry, Enters s call entry →
      ¬ Breaks (jniContract False (entry.locals.length + 2) fun _ => False) (call.body machine host) entry ∧
      ∀ answer s', Ends (jniContract False (entry.locals.length + 2) fun _ => False) (call.body machine host) entry
          answer s' → Balanced call entry answer s' := by
  refine ⟨fun start clear => ?_,fun s reached => ?_⟩
  · exact ((secures_iff _ _ _).mp (jni_on_load clear (Nat.lt_succ_self _))).1
  · have ready := reached_ready reached
    refine ⟨ready,fun call entry enters => ?_⟩
    have secured : Secures (jniContract False (entry.locals.length + 2) fun _ => False) (call.body machine host) _ entry :=
      call_settles ready.registered enters (Nat.le_refl _) (plain_served available enters)
    have runs := (secures_iff _ _ _).mp secured
    exact ⟨runs.1,fun answer s' ended => settles_balanced enters (runs.2 answer s' ended)⟩

theorem protocol_kept_reliable :
    (∀ start, start.pending = none →
      ¬ Breaks (jniContract False (start.locals.length + 1) fun _ => False) jniOnLoad start) ∧
    ∀ s, Reached .lp64 s → Ready s ∧ ∀ call entry, Enters s call entry →
      ¬ Breaks (jniContract False (entry.locals.length + 2) fun _ => False) (call.body .reliable .lp64) entry ∧
      ∀ answer s', Ends (jniContract False (entry.locals.length + 2) fun _ => False) (call.body .reliable .lp64) entry
          answer s' → Balanced call entry answer s' := protocol_kept reliable_serves

def outcome (answer : JObject) (s' : Env) : Except Failure (List UInt8) :=
  match answer,s'.pending with
  | some ref,_ => .ok (s'.arrays ref.id)
  | none,some (className,message) => .error (.thrown className message)
  | none,none => .ok []

theorem settles_outcome {allowed : Except Failure (List UInt8) → Prop} {answer : JObject} {s' : Env}
    (settles : Settles allowed entry answer s') (calm : s'.refused = false) : allowed (outcome answer s') := by
  rcases settles with ⟨rfl,thrown,refused,rfl,quiet⟩ | ⟨ref,bytes,rfl,_,_,rfl,meant⟩
  · exact (quiet calm).2
  · simpa only [outcome,Function.update_self] using meant

-- On any machine and under any interference, a call that the JVM refused nothing ends as
-- the function on values does for something the arguments can have held; and the C
-- code faults only where that function does.
theorem calls_refine (reached : Reached host s) (enters : Enters s call entry) (steady : Prop) :
    ¬ Breaks (jniContract steady (entry.locals.length + 2) fun fault =>
      Plain machine host steady entry call (.error (.fault fault))) (call.body machine host) entry ∧
    ∀ answer s', Ends (jniContract steady (entry.locals.length + 2) fun fault =>
        Plain machine host steady entry call (.error (.fault fault))) (call.body machine host) entry answer s' →
      s'.refused = false → Plain machine host steady entry call (outcome answer s') := by
  have secured : Secures (jniContract steady (entry.locals.length + 2) fun fault =>
      Plain machine host steady entry call (.error (.fault fault))) (call.body machine host) _ entry :=
    call_settles (reached_ready reached).registered enters (Nat.le_refl _) fun _ faulty => faulty
  have runs := (secures_iff _ _ _).mp secured
  exact ⟨runs.1,fun answer s' ended calm => settles_outcome (runs.2 answer s' ended) calm⟩

end Runs

def unused : Env := ⟨[],[],none,.zero,fun _ => [],false⟩

theorem unused_sized : Sized unused := by
  refine ⟨fun ref live => ?_,rfl⟩
  rcases live with here | here
  · cases here
  · cases here

def loadedState : Env :=
  let policy : Ref := ⟨4,.clazz policyClass⟩
  let subPolicy : Ref := ⟨2,.clazz subPolicyClass⟩
  {unused with
    globals := [policy,subPolicy]
    blocks := ⟨⟨some policy,some ⟨policyClass,"sub_policy_num","I"⟩,
        some ⟨policyClass,"sub_policy","[Lcom/teradata/jni/SubPolicy;"⟩,some ⟨policyClass,"<init>","()V"⟩⟩,
      ⟨some subPolicy,some ⟨subPolicyClass,"position","I"⟩,some ⟨subPolicyClass,"length","I"⟩,
        some ⟨subPolicyClass,"<init>","()V"⟩⟩⟩}

theorem calls_refine_digit : ∃ s entry, Reached .lp64 s ∧
    Enters s (.encrypt (some ⟨3,.bytes 1⟩) 0 1) entry ∧ entry.arrays 3 = [0x31] ∧
    (¬ Breaks (jniContract True (entry.locals.length + 2) fun fault =>
        Plain .reliable .lp64 True entry (.encrypt (some ⟨3,.bytes 1⟩) 0 1) (.error (.fault fault)))
      (Call.body .reliable .lp64 (.encrypt (some ⟨3,.bytes 1⟩) 0 1)) entry ∧
    ∀ answer s', Ends (jniContract True (entry.locals.length + 2) fun fault =>
          Plain .reliable .lp64 True entry (.encrypt (some ⟨3,.bytes 1⟩) 0 1) (.error (.fault fault)))
        (Call.body .reliable .lp64 (.encrypt (some ⟨3,.bytes 1⟩) 0 1)) entry answer s' → s'.refused = false →
      Plain .reliable .lp64 True entry (.encrypt (some ⟨3,.bytes 1⟩) 0 1) (outcome answer s')) := by
  have secured : Secures (jniContract False 1 fun _ => False) jniOnLoad _ unused := jni_on_load rfl Nat.zero_lt_one
  obtain ⟨version,s,followed,ended,_,_⟩ := secures_follow Sized (fun op _ => obliging_answers op)
    secured unused_sized
  have loads : follow obliging jniOnLoad unused = some (jniVersion,loadedState) := rfl
  rw [loads] at followed
  cases followed
  have reached : Reached .lp64 loadedState := .loaded rfl rfl rfl rfl ended
  have enters : Enters loadedState (.encrypt (some ⟨3,.bytes 1⟩) 0 1)
      {loadedState with locals := [⟨3,.bytes 1⟩], arrays := fun _ => [0x31]} := by
    refine ⟨rfl,rfl,rfl,rfl,?_,?_⟩
    · rintro ref ⟨⟩
      exact ⟨.inl List.mem_cons_self,rfl,by decide⟩
    · rintro ref ⟨⟩
  exact ⟨_,_,reached,enters,rfl,calls_refine reached enters True⟩

end TeradataCpt.JniRuns
