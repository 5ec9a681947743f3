import TeradataCpt.JniProtocol

namespace TeradataCpt.JniCalls
open CSemantics Interaction Cpt CptJni NativeCode JniProtocol

section Steps
variable {steady : Prop} {room : Nat} {mayCrash : Fault → Prop} {post : α → Env → Prop} {s : Env}

theorem asks {op : JniOp} {rest : Answer op → Native α} (owed : Owes room mayCrash op s)
    (next : ∀ answer s', Promises steady op s answer s' → Secures (jniContract steady room mayCrash) (rest answer) post s') :
    Secures (jniContract steady room mayCrash) (jni op >>= rest) post s := ⟨owed,next⟩

theorem computes {result : Except Fault β} {rest : β → Native α} (crashes : ∀ fault, result = .error fault → mayCrash fault)
    (next : ∀ value, result = .ok value → Secures (jniContract steady room mayCrash) (rest value) post s) :
    Secures (jniContract steady room mayCrash) (compute result >>= rest) post s := by
  cases result with
  | ok value => exact next value rfl
  | error fault => exact ⟨crashes fault rfl,fun answer => nomatch answer⟩

theorem checks {rest : Bool → Native α}
    (next : Secures (jniContract steady room mayCrash) (rest s.pending.isSome) post s) :
    Secures (jniContract steady room mayCrash) (jni .exceptionCheck >>= rest) post s := by
  refine asks trivial ?_
  rintro answer s' ⟨rfl,rfl⟩
  exact next

theorem checks_clear {rest : Bool → Native α} (clear : s.pending = none)
    (next : Secures (jniContract steady room mayCrash) (rest false) post s) :
    Secures (jniContract steady room mayCrash) (jni .exceptionCheck >>= rest) post s := by
  refine checks ?_
  rw [clear]
  exact next

theorem reads_blocks {rest : Blocks → Native α} (next : Secures (jniContract steady room mayCrash) (rest s.blocks) post s) :
    Secures (jniContract steady room mayCrash) (jni .readBlocks >>= rest) post s := by
  refine asks trivial ?_
  rintro answer s' ⟨rfl,rfl⟩
  exact next

theorem deletes {ref : Ref} {others : List Ref} {rest : Unit → Native α} (last : s.locals = ref :: others)
    (next : Secures (jniContract steady room mayCrash) (rest ()) post {s with locals := others}) :
    Secures (jniContract steady room mayCrash) (jni (.deleteLocalRef (some ref)) >>= rest) post s := by
  refine asks ⟨ref,by simp [last],rfl⟩ ?_
  rintro _ s' ⟨other,same,rfl⟩
  cases same
  rw [last,List.erase_cons_head]
  exact next

end Steps

-- An exception of this class with this text, or one of the JVM's own instead.
def Throws (className message : String) (s s' : Env) : Prop :=
  ∃ thrown refused, s' = {s with pending := some thrown, refused := refused} ∧
    (refused = false → s.refused = false ∧ thrown = (className,message))

section Methods
variable {steady : Prop} {room : Nat} {mayCrash : Fault → Prop} {s : Env}

theorem throw_exception (clear : s.pending = none) (space : s.locals.length < room) (className message : String) :
    Secures (jniContract steady room mayCrash) (throwException className message)
      (fun _ => Throws className message s) s := by
  refine asks ⟨clear,space⟩ ?_
  rintro exceptionClass s1 (⟨rfl,thrown,rfl⟩ | ⟨ref,rfl,kind,_,rfl⟩)
  · exact ⟨thrown,true,rfl,fun refused => nomatch refused⟩
  · refine asks ⟨clear,className,ref,rfl,.inl List.mem_cons_self,kind⟩ ?_
    rintro status s2 (⟨_,thrown,rfl⟩ | ⟨_,other,name,same,named,rfl⟩)
    · exact deletes rfl ⟨thrown,true,rfl,fun refused => nomatch refused⟩
    · cases same
      rw [kind] at named
      cases named
      exact deletes rfl ⟨(className,message),s.refused,rfl,fun refused => ⟨refused,rfl⟩⟩

structure Registered (blocks : Blocks) : Prop where
  subPolicyNum : blocks.jniPolicy.subPolicyNum = some ⟨policyClass,"sub_policy_num","I"⟩
  subPolicy : blocks.jniPolicy.subPolicy = some ⟨policyClass,"sub_policy","[Lcom/teradata/jni/SubPolicy;"⟩
  position : blocks.jniSubPolicy.position = some ⟨subPolicyClass,"position","I"⟩
  length : blocks.jniSubPolicy.length = some ⟨subPolicyClass,"length","I"⟩

theorem reads_int {object : Ref} {obj : Obj} {className name : String} {value : Int32} {rest : Int32 → Native α}
    {post : α → Env → Prop} (clear : s.pending = none) (live : Live s object) (kind : object.obj = obj)
    (named : classOf obj = some className) (holds : intField obj name = some value)
    (next : ∀ answer, (steady → answer = value) → Secures (jniContract steady room mayCrash) (rest answer) post s) :
    Secures (jniContract steady room mayCrash)
      (jni (.getIntField (some object) (some ⟨className,name,"I"⟩)) >>= rest) post s := by
  have isInt : (intField obj name).isSome := by rw [holds]; rfl
  refine asks ⟨clear,obj,name,⟨object,rfl,live,kind⟩,isInt,className,named,rfl⟩ ?_
  rintro answer s' ⟨rfl,exact_⟩
  refine next answer fun steadily => ?_
  obtain ⟨ref,member,same,field,found⟩ := exact_ steadily
  cases same
  cases field
  rw [kind,holds] at found
  exact (Option.some.inj found).symm

-- Left with every new reference gone again: after an exception of the JVM, or else as
-- it was and regularly.
def Exits (s : Env) (regular : Prop) (s' : Env) : Prop := Raised s s' ∨ s' = s ∧ regular

theorem Exits.mono {regular weaker : Prop} {s' : Env} (exits : Exits s regular s') (implies : regular → weaker) :
    Exits s weaker s' := exits.imp_right fun ⟨same,holds⟩ => ⟨same,implies holds⟩

section Convert
variable {array : Ref} {items : List (Option SubPolicy)} (kind : array.obj = .subPolicies items)
  (few : items.length ≤ maxSubPolicies) (registered : Registered s.blocks) (clear : s.pending = none)
  (space : s.locals.length + 2 ≤ room)
include kind few registered clear space

-- One round does what the plain conversion does on every array that has the element
-- just read at this place.
theorem convert_at {i : Nat} (bound : i < items.length) (policyOut : JniPolicy) :
    Secures (jniContract steady room mayCrash) (convertAt (some array) i policyOut)
      (Flows
        (fun result => Exits s (result.1 = -1 ∧ ∃ element, (steady → items[i]? = some element) ∧
          ∀ seen, seen[i]? = some element → CptJni.convertAt seen i policyOut = .ok (.returned result)))
        (fun next s' => s' = {s with locals := array :: s.locals} ∧ ∃ element, (steady → items[i]? = some element) ∧
          ∀ seen, seen[i]? = some element → CptJni.convertAt seen i policyOut = .ok (.next next)))
      {s with locals := array :: s.locals} := by
  refine asks ⟨clear,by simp; omega,items,⟨array,rfl,.inl List.mem_cons_self,kind⟩,bound⟩ ?_
  rintro subPolicy s1 ⟨ref,items',same,kind',middle,raised,found⟩
  cases same
  rw [kind] at kind'
  cases kind'
  rcases found with ⟨rfl,absent,rfl⟩ | ⟨element,value,rfl,elementKind,present,_,rfl⟩
  · rcases raised with rfl | ⟨thrown,rfl⟩
    · refine deletes rfl (Or.inr ⟨rfl,rfl,none,absent,fun seen here => ?_⟩)
      simp only [CptJni.convertAt,here]
    · exact deletes rfl (Or.inl ⟨thrown,rfl⟩)
  · rcases raised with rfl | ⟨thrown,rfl⟩
    · refine checks_clear clear ?_
      simp only [Bool.false_eq_true,if_false]
      refine reads_blocks ?_
      rw [registered.position]
      refine reads_int clear (.inl List.mem_cons_self) elementKind rfl rfl fun position placed => ?_
      refine reads_blocks ?_
      rw [registered.length]
      refine reads_int clear (.inl List.mem_cons_self) elementKind rfl rfl fun length sized => ?_
      have inside : i < maxSubPolicies := Nat.lt_of_lt_of_le bound few
      refine computes (fun fault failed => ?_) fun next stored => ?_
      · rw [setSubPolicy,dif_pos inside] at failed
        cases failed
      · refine deletes rfl (checks_clear clear ?_)
        simp only [Bool.false_eq_true,if_false]
        refine ⟨rfl,some ⟨position,length⟩,fun steadily => ?_,fun seen here => ?_⟩
        · rw [placed steadily,sized steadily]
          exact present steadily
        · simp only [CptJni.convertAt,here,stored]
          rfl
    · refine checks ?_
      exact deletes rfl (deletes rfl (Or.inl ⟨thrown,rfl⟩))

-- The loop: the elements read so far, completed in any way.
theorem convert_all (start : JniPolicy) :
    Secures (jniContract steady room mayCrash) (scan items.length (convertAt (some array)) start)
      (Flows
        (fun result => Exits s (result.1 = -1 ∧ ∃ seen, seen.length = items.length ∧ (steady → seen = items) ∧
          CSemantics.scan items.length (CptJni.convertAt seen) start = .ok (.returned result)))
        (fun out s' => s' = {s with locals := array :: s.locals} ∧ ∃ seen, seen.length = items.length ∧
          (steady → seen = items) ∧ CSemantics.scan items.length (CptJni.convertAt seen) start = .ok (.next out)))
      {s with locals := array :: s.locals} := by
  refine (secures_scan
    (fun result => Exits s (result.1 = -1 ∧ ∃ seen, seen.length = items.length ∧ (steady → seen = items) ∧
      CSemantics.scan items.length (CptJni.convertAt seen) start = .ok (.returned result)))
    (fun i out s' => s' = {s with locals := array :: s.locals} ∧ ∃ read, read.length = i ∧ (steady → read = items.take i) ∧
      ∀ rest, CSemantics.scan i (CptJni.convertAt (read ++ rest)) start = .ok (.next out))
    ⟨rfl,[],rfl,fun _ => rfl,fun _ => rfl⟩ ?_).mono ?_
  · rintro i bound out s1 ⟨rfl,read,rfl,exact_,soFar⟩
    refine (convert_at kind few registered clear space bound out).mono ?_
    rintro (result | next) s2 round
    · refine Exits.mono round ?_
      rintro ⟨status,element,present,one⟩
      refine ⟨status,read ++ element :: items.drop (read.length+1),?_,fun steadily => ?_,?_⟩
      · simp
        omega
      · have here := (List.getElem?_eq_some_iff.mp (present steadily)).2
        have parts := List.take_append_drop read.length items
        rw [← exact_ steadily,List.drop_eq_getElem_cons bound,here] at parts
        exact parts
      · refine scan_left (Nat.succ_le_of_lt bound) ?_
        simp only [CSemantics.scan,soFar,ok_bind]
        exact one _ (by simp)
    · obtain ⟨rfl,element,present,one⟩ := round
      refine ⟨rfl,read ++ [element],by simp,fun steadily => ?_,fun rest => ?_⟩
      · rw [List.take_add_one,present steadily,← exact_ steadily]
        rfl
      · simp only [List.append_assoc,List.singleton_append,CSemantics.scan,soFar,ok_bind]
        exact one _ (by simp)
  · rintro (result | out) s1 flow
    · exact flow
    · obtain ⟨rfl,read,size,exact_,ran⟩ := flow
      refine ⟨rfl,read,size,fun steadily => ?_,?_⟩
      · rw [exact_ steadily,List.take_length]
      · simpa using ran []

end Convert

theorem policy_java_to_c {object : Ref} {value : Policy} (registered : Registered s.blocks) (clear : s.pending = none)
    (space : s.locals.length + 2 ≤ room) (live : Live s object) (policyKind : object.obj = .policy value)
    (policyOut : JniPolicy) :
    Secures (jniContract steady room mayCrash) (policyJavaToC (some object) policyOut)
      (fun result => Exits s ((result.1 = 0 ∨ result.1 = -1) ∧ ∃ seen, (steady → seen = value) ∧
        CptJni.policyJavaToC (some seen) policyOut = .ok result)) s := by
  refine reads_blocks ?_
  rw [registered.subPolicy]
  refine asks ⟨clear,by omega,value,⟨object,rfl,live,policyKind⟩,rfl⟩ ?_
  rintro subPolicyArray s2 ⟨ref,value',same,kind',found⟩
  cases same
  rw [policyKind] at kind'
  cases kind'
  rcases found with ⟨rfl,absent,rfl⟩ | ⟨array,items,rfl,kind,present,_,rfl⟩
  · refine Or.inr ⟨rfl,.inr rfl,⟨value.subPolicyNum,none⟩,fun steadily => ?_,rfl⟩
    rw [← absent steadily]
  · refine checks_clear clear ?_
    simp only [Bool.false_eq_true,if_false]
    refine asks ⟨clear,.inr ⟨items,array,rfl,.inl List.mem_cons_self,kind⟩⟩ ?_
    rintro length s3 ⟨rfl,ref,same,counted⟩
    cases same
    obtain rfl : length = items.length := by
      rcases counted with bytes | ⟨others,list,counted⟩
      · rw [kind] at bytes
        cases bytes
      · rw [kind] at list
        cases list
        exact counted
    refine reads_blocks ?_
    rw [registered.subPolicyNum]
    refine reads_int clear (live.imp (List.mem_cons_of_mem array) id) policyKind rfl rfl fun declared exact_ => ?_
    by_cases refused : items.length > maxSubPolicies ∨ declared.toInt ≠ items.length
    · rw [if_pos refused]
      refine deletes rfl (Or.inr ⟨rfl,.inr rfl,⟨declared,some items⟩,fun steadily => ?_,?_⟩)
      · rw [exact_ steadily,← present steadily]
      · simp only [CptJni.policyJavaToC,if_pos refused,pure_ok]
    · rw [if_neg refused,secures_bind]
      have few : items.length ≤ maxSubPolicies := by omega
      refine (convert_all kind few registered clear space _).mono ?_
      rintro (result | out) s4 flow
      · refine Exits.mono flow ?_
        rintro ⟨status,seen,size,same,ran⟩
        refine ⟨.inr status,⟨declared,some seen⟩,fun steadily => ?_,?_⟩
        · rw [exact_ steadily,same steadily,← present steadily]
        · simp only [CptJni.policyJavaToC,size,if_neg refused,ran,ok_bind,pure_ok]
      · obtain ⟨rfl,seen,size,same,ran⟩ := flow
        refine deletes rfl (Or.inr ⟨rfl,.inl rfl,⟨declared,some seen⟩,fun steadily => ?_,?_⟩)
        · rw [exact_ steadily,same steadily,← present steadily]
        · simp only [CptJni.policyJavaToC,size,if_neg refused,ran,ok_bind,pure_ok]

structure Input (s : Env) (ref : Ref) : Prop where
  live : Live s ref
  kind : ref.obj = .bytes (s.arrays ref.id).length
  short : (s.arrays ref.id).length < 2^31

theorem Input.counts {ref : Ref} {length : Nat} (input : Input s ref)
    (counted : ref.obj = .bytes length ∨ ∃ items, ref.obj = .subPolicies items ∧ length = items.length) :
    length = (s.arrays ref.id).length := by
  rcases counted with bytes | ⟨items,list,_⟩
  · rw [input.kind] at bytes
    cases bytes
    rfl
  · rw [input.kind] at list
    cases list

-- What a method can have seen of its arguments: in a steady JVM the arguments, and
-- otherwise something of the same length.
def SeenBytes (steady : Prop) (s : Env) (ref : Ref) (seen : List UInt8) : Prop :=
  seen.length = (s.arrays ref.id).length ∧ (steady → seen = s.arrays ref.id)

theorem input_bytes {ref : Ref} (input : Input s ref) (clear : s.pending = none) :
    Secures (jniContract steady room mayCrash) (inputBytes (some ref) (s.arrays ref.id).length)
      (fun data s' => (data = none ∧ Raised s s') ∨ ∃ seen, data = some seen ∧ s' = s ∧ SeenBytes steady s ref seen) s := by
  unfold inputBytes
  split
  · refine asks ⟨clear,_,⟨ref,rfl,input.live,input.kind⟩,by omega⟩ ?_
    rintro data s' ⟨size,exact_,rfl | ⟨thrown,rfl⟩⟩
    · refine checks_clear clear ?_
      refine .inr ⟨data,rfl,rfl,size,fun steadily => ?_⟩
      obtain ⟨other,same,content⟩ := exact_ steadily
      cases same
      rw [content,List.drop_zero,List.take_length]
    · exact checks (.inl ⟨rfl,thrown,rfl⟩)
  · rename_i empty
    have nothing : s.arrays ref.id = [] := List.eq_nil_of_length_eq_zero (by omega)
    exact .inr ⟨[],rfl,rfl,by rw [nothing],fun _ => nothing.symm⟩

theorem new_result (clear : s.pending = none) (space : s.locals.length < room) (out : List UInt8) :
    Secures (jniContract steady room mayCrash) (newResult out out.length)
      (fun answer s' => (answer = none ∧ Raised s s') ∨ ∃ ref, answer = some ref ∧ Fresh s ref ∧
        ref.obj = .bytes out.length ∧
        s' = {s with locals := ref :: s.locals, arrays := Function.update s.arrays ref.id out}) s := by
  refine asks ⟨clear,space⟩ ?_
  rintro result s1 (⟨rfl,raised⟩ | ⟨ref,rfl,kind,fresh,rfl⟩)
  · exact .inl ⟨rfl,raised⟩
  · by_cases filled : out.length > 0
    · simp only [if_pos filled]
      refine asks ⟨clear,_,⟨ref,rfl,.inl List.mem_cons_self,kind⟩,by omega⟩ ?_
      rintro _ s2 ⟨other,same,rfl⟩
      cases same
      refine .inr ⟨ref,rfl,fresh,kind,?_⟩
      simp
    · simp only [if_neg filled]
      have empty : out = [] := List.eq_nil_of_length_eq_zero (by omega)
      refine .inr ⟨ref,rfl,fresh,kind,?_⟩
      rw [empty]
      rfl

-- How a native method ends, with `plain` what its result may be where the JVM refuses
-- nothing: NULL and an exception, or one new reference to the result.
def Settles (plain : Except Failure (List UInt8) → Prop) (s : Env) (answer : JObject) (s' : Env) : Prop :=
  (answer = none ∧ ∃ thrown refused, s' = {s with pending := some thrown, refused := refused} ∧
    (refused = false → s.refused = false ∧ plain (.error (.thrown thrown.1 thrown.2)))) ∨
  ∃ ref bytes, answer = some ref ∧ Fresh s ref ∧ ref.obj = .bytes bytes.length ∧
    s' = {s with locals := ref :: s.locals, arrays := Function.update s.arrays ref.id bytes} ∧ plain (.ok bytes)

section Settling
variable {plain : Except Failure (List UInt8) → Prop}

theorem raised_settles {s' : Env} (raised : Raised s s') : Settles plain s none s' := by
  obtain ⟨thrown,rfl⟩ := raised
  exact .inl ⟨rfl,thrown,true,rfl,fun calm => nomatch calm⟩

theorem throw_illegal_argument (clear : s.pending = none) (space : s.locals.length < room) {message : String}
    (meant : plain (.error (illegalArgument message))) :
    Secures (jniContract steady room mayCrash) (throwIllegalArgument message) (Settles plain s) s := by
  rw [throwIllegalArgument,secures_bind]
  refine (throw_exception clear space _ _).mono ?_
  rintro _ s' ⟨thrown,refused,rfl,calm⟩
  refine .inl ⟨rfl,thrown,refused,rfl,fun quiet => ⟨(calm quiet).1,?_⟩⟩
  rw [(calm quiet).2]
  exact meant

theorem new_result_settles (clear : s.pending = none) (space : s.locals.length < room) {out : List UInt8} {length : Nat}
    (size : out.length = length) (meant : plain (.ok out)) :
    Secures (jniContract steady room mayCrash) (newResult out length) (Settles plain s) s := by
  subst size
  refine (new_result clear space out).mono ?_
  rintro answer s' (⟨rfl,raised⟩ | ⟨ref,rfl,fresh,kind,rfl⟩)
  · exact raised_settles raised
  · exact .inr ⟨ref,out,rfl,fresh,kind,rfl,meant⟩

end Settling

theorem transform_length {machine : Machine} {key : Nat} {mode : CptMode} {encrypting : Bool} {x out : List UInt8}
    (ran : transformBytes machine key mode encrypting x = .ok out) : out.length = x.length := by
  obtain ⟨ckey,_,rest⟩ := ok_of_bind ran
  cases encrypting with
  | true =>
    obtain ⟨cells,_,loaded⟩ := ok_of_bind rest
    exact loadAll_length loaded
  | false =>
    obtain ⟨cells,_,loaded⟩ := ok_of_bind rest
    exact loadAll_length loaded

theorem transform_policy_length {machine : Machine} {host : Host} {policy : JniPolicy} {key : Nat} {mode : CptMode}
    {encrypting : Bool} {x out : List UInt8}
    (ran : transformPolicyBytes machine host policy key mode encrypting x = .ok (some out)) : out.length = x.length := by
  obtain ⟨⟨status,memory⟩,_,rest⟩ := ok_of_bind ran
  by_cases failed : status ≠ 0
  · simp only [if_pos failed] at rest
    cases rest
  · simp only [if_neg failed] at rest
    obtain ⟨bytes,loaded,done⟩ := ok_of_bind rest
    cases done
    exact loadAll_length loaded

section Transform
variable {machine : Machine} {host : Host} {key : Int64} {mode : Int8} {encrypting : Bool}
  {plain : Except Failure (List UInt8) → Prop} (clear : s.pending = none) (space : s.locals.length + 2 ≤ room)
  (faults : ∀ fault, plain (.error (.fault fault)) → mayCrash fault)
include clear space faults

theorem transform_settles {input : JObject} (inputs : ∀ ref, input = some ref → Input s ref)
    (absent : input = none → plain (.error (illegalArgument "input must not be null")))
    (meant : ∀ ref seen, input = some ref → SeenBytes steady s ref seen →
      plain (CptJni.transform machine host (some seen) key mode encrypting)) :
    Secures (jniContract steady room mayCrash) (NativeCode.transform machine host input key mode encrypting)
      (Settles plain s) s := by
  cases input with
  | none => exact throw_illegal_argument clear (by omega) (absent rfl)
  | some ref =>
    have argument := inputs ref rfl
    simp only [NativeCode.transform]
    by_cases valid : validMode mode = true
    · rw [if_pos valid]
      refine asks ⟨clear,.inl ⟨_,ref,rfl,argument.live,argument.kind⟩⟩ ?_
      rintro length s' ⟨same,other,equal,counted⟩
      cases equal
      subst s'
      obtain rfl : length = (s.arrays ref.id).length := argument.counts counted
      rw [secures_bind]
      refine (input_bytes argument clear).mono ?_
      rintro data s1 (⟨rfl,raised⟩ | ⟨seen,rfl,same,sight⟩)
      · exact raised_settles raised
      · subst s1
        have outcome := meant ref seen rfl sight
        simp only [CptJni.transform,if_pos valid] at outcome
        refine computes (fun fault failed => faults fault ?_) fun out ran => ?_
        · rw [failed] at outcome
          exact outcome
        · rw [ran] at outcome
          exact new_result_settles clear (by omega) ((transform_length ran).trans sight.1) outcome
    · have outcome := meant ref (s.arrays ref.id) rfl ⟨rfl,fun _ => rfl⟩
      simp only [CptJni.transform,if_neg valid] at outcome
      rw [if_neg valid]
      exact throw_illegal_argument clear (by omega) outcome

theorem transform_policy_settles {input policyObject : JObject} (registered : Registered s.blocks)
    (inputs : ∀ ref, input = some ref → Input s ref)
    (policies : ∀ ref, policyObject = some ref → Live s ref ∧ ∃ value, ref.obj = .policy value)
    (absent : input = none ∨ policyObject = none → plain (.error (illegalArgument "input and policy must not be null")))
    (meant : ∀ ref object value seen seenPolicy, input = some ref → policyObject = some object → object.obj = .policy value →
      SeenBytes steady s ref seen → (steady → seenPolicy = value) →
      plain (CptJni.transformPolicy machine host (some seen) (some seenPolicy) key mode encrypting)) :
    Secures (jniContract steady room mayCrash)
      (NativeCode.transformPolicy machine host input policyObject key mode encrypting) (Settles plain s) s := by
  cases input with
  | none => exact throw_illegal_argument clear (by omega) (absent (.inl rfl))
  | some ref =>
    cases policyObject with
    | none => exact throw_illegal_argument clear (by omega) (absent (.inr rfl))
    | some object =>
      have argument := inputs ref rfl
      obtain ⟨live,value,kind⟩ := policies object rfl
      simp only [NativeCode.transformPolicy]
      by_cases valid : validMode mode = true
      · rw [if_pos valid,secures_bind]
        refine (policy_java_to_c registered clear space live kind emptyPolicy).mono ?_
        rintro ⟨converted,policy⟩ s1 (⟨thrown,rfl⟩ | ⟨rfl,code,seenPolicy,policySight,conversion⟩)
        · by_cases refused : converted ≠ 0
          · simp only [if_pos refused]
            exact checks (raised_settles ⟨thrown,rfl⟩)
          · simp only [if_neg refused]
            exact checks (checks (raised_settles ⟨thrown,rfl⟩))
        · have outcomes (seen : List UInt8) (sight : SeenBytes steady s1 ref seen) :=
            meant ref object value seen seenPolicy rfl rfl kind sight policySight
          simp only [CptJni.transformPolicy,if_pos valid,conversion,Except.mapError,ok_bind] at outcomes
          by_cases refused : converted ≠ 0
          · have outcome := outcomes (s1.arrays ref.id) ⟨rfl,fun _ => rfl⟩
            rw [if_pos refused] at outcome
            simp only [if_pos refused]
            exact checks_clear clear (throw_illegal_argument clear (by omega) outcome)
          · simp only [if_neg refused] at outcomes ⊢
            refine checks_clear clear ?_
            refine asks ⟨clear,.inl ⟨_,ref,rfl,argument.live,argument.kind⟩⟩ ?_
            rintro length s' ⟨same,other,equal,counted⟩
            cases equal
            subst s'
            obtain rfl : length = (s1.arrays ref.id).length := argument.counts counted
            rw [secures_bind]
            refine (input_bytes argument clear).mono ?_
            rintro data s2 (⟨rfl,raised⟩ | ⟨seen,rfl,same,sight⟩)
            · exact raised_settles raised
            · subst s2
              have outcome := outcomes seen sight
              refine computes (fun fault failed => faults fault ?_) fun bytes ran => ?_
              · rw [failed] at outcome
                exact outcome
              · rw [ran] at outcome
                cases bytes with
                | none => exact throw_illegal_argument clear (by omega) outcome
                | some out =>
                  exact new_result_settles clear (by omega) ((transform_policy_length ran).trans sight.1) outcome
      · have outcome := meant ref object value (s.arrays ref.id) value rfl rfl kind ⟨rfl,fun _ => rfl⟩ fun _ => rfl
        simp only [CptJni.transformPolicy,if_neg valid] at outcome
        rw [if_neg valid]
        exact throw_illegal_argument clear (by omega) outcome

end Transform

end Methods
end TeradataCpt.JniCalls
