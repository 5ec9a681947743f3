import TeradataCpt.PolicyChecks

namespace TeradataCpt.PolicyObjects
open CSemantics Cpt CptJni JavaApi PolicyChecks

-- Who has a reference to an array: code outside the package, one running call of the
-- package, or a Policy.
inductive Holder where
  | clients
  | call (thread : Nat)
  | policy
  deriving DecidableEq, Repr

structure PolicyObject where
  subPolicyNum : Int32
  subPolicy : Nat
  deriving DecidableEq, Repr

-- The objects of a run. A SubPolicy cannot change once it is built, so an array holds
-- the values themselves.
structure Heap where
  arrays : Nat → List (Option SubPolicy)
  holder : Nat → Option Holder
  policies : Nat → Option PolicyObject

def Heap.put (heap : Heap) (array : Nat) (items : List (Option SubPolicy)) : Heap :=
  {heap with arrays := Function.update heap.arrays array items}

def Heap.give (heap : Heap) (array : Nat) (holder : Holder) : Heap :=
  {heap with holder := Function.update heap.holder array (some holder)}

def Heap.add (heap : Heap) (policy : Nat) (object : PolicyObject) : Heap :=
  {heap with policies := Function.update heap.policies policy (some object)}

section Updates
variable (heap : Heap) (array policy : Nat) (items : List (Option SubPolicy)) (holder : Holder) (object : PolicyObject)

@[simp] theorem put_holder : (heap.put array items).holder = heap.holder := rfl
@[simp] theorem put_policies : (heap.put array items).policies = heap.policies := rfl
@[simp] theorem put_self : (heap.put array items).arrays array = items := by simp [Heap.put]
@[simp] theorem give_arrays : (heap.give array holder).arrays = heap.arrays := rfl
@[simp] theorem give_policies : (heap.give array holder).policies = heap.policies := rfl
@[simp] theorem give_self : (heap.give array holder).holder array = some holder := by simp [Heap.give]
@[simp] theorem add_arrays : (heap.add policy object).arrays = heap.arrays := rfl
@[simp] theorem add_holder : (heap.add policy object).holder = heap.holder := rfl
@[simp] theorem add_self : (heap.add policy object).policies policy = some object := by simp [Heap.add]

theorem put_other {r : Nat} (other : r ≠ array) : (heap.put array items).arrays r = heap.arrays r := by
  simp [Heap.put,other]

theorem give_other {r : Nat} (other : r ≠ array) : (heap.give array holder).holder r = heap.holder r := by
  simp [Heap.give,other]

theorem add_other {p : Nat} (other : p ≠ policy) : (heap.add policy object).policies p = heap.policies p := by
  simp [Heap.add,other]

end Updates

def valueOf (heap : Heap) (object : PolicyObject) : Policy := ⟨object.subPolicyNum,some (heap.arrays object.subPolicy)⟩

-- A call of multiSubPolicyEncrypt or multiSubPolicyDecrypt; `input` is what
-- GetByteArrayRegion will read, whose length is that of the array all along.
structure CryptCall where
  input : List UInt8
  policy : Nat
  key : Int64
  mode : CptMode
  encrypting : Bool

inductive Purpose where
  | policyOf
  | getSubPolicies (policy : Nat)

inductive Phase where
  | validating (next : Nat)
  | converting (next : Nat) (policyOut : JniPolicy)

inductive Frame where
  | outside
  | copying (purpose : Purpose) (source copy next : Nat)
  | checking (copy next : Nat)
  | crypting (call : CryptCall) (phase : Phase)

inductive Return where
  | policy (policy : Nat)
  | subPolicies (policy : Nat) (items : List (Option SubPolicy))
  | bytes (call : CryptCall) (result : Except Failure (List UInt8))

def nativeResult (jvm : Jvm) (call : CryptCall) (policyOut : JniPolicy) : Except Failure (List UInt8) := do
  let bytes := transformPolicyBytes jvm.machine jvm.host policyOut (unsignedLong jvm.host call.key) call.mode
    call.encrypting call.input
  match ← bytes.mapError .fault with
  | some result => return result
  | none => .error (illegalArgument "policy exceeds input byte length or native allocation failed")

def cryptNext (jvm : Jvm) (call : CryptCall) (declared : Int32) (array : List (Option SubPolicy)) :
    Phase → Phase ⊕ Except Failure (List UInt8)
  | .validating next => match array[next]? with
    | some element => match validateEach (.ofNat call.input.length) [element] with
      | .ok () => .inl (.validating (next+1))
      | .error failure => .inr (.error failure)
    | none =>
      if array.length > maxSubPolicies ∨ declared.toInt ≠ array.length then .inr (.error (illegalArgument "invalid policy"))
      else .inl (.converting 0 {emptyPolicy with subPolicyNum := .ofNat array.length})
  | .converting next policyOut =>
    if next < array.length then
      match convertAt array next policyOut with
      | .ok (.next policyOut) => .inl (.converting (next+1) policyOut)
      | .ok (.returned _) => .inr (.error (illegalArgument "invalid policy"))
      | .error fault => .inr (.error (.fault fault))
    else .inr (nativeResult jvm call policyOut)

inductive ClientMove (heap : Heap) : Heap → Prop where
  | newArray {array : Nat} (length : Nat) : heap.holder array = none →
      ClientMove heap ((heap.put array (List.replicate length none)).give array .clients)
  | store {array : Nat} (i : Nat) (item : Option SubPolicy) : heap.holder array = some .clients →
      (∀ sub, item = some sub → Constructed sub) →
      ClientMove heap (heap.put array ((heap.arrays array).set i item))
  | newPolicy {array policy : Nat} : heap.holder array = none → heap.policies policy = none →
      ClientMove heap (((heap.put array []).give array .policy).add policy ⟨0,array⟩)

-- One access of a call to shared objects. A call that throws leaves nothing behind, so
-- Policy.of begins past its first two tests.
inductive Move (jvm : Jvm) (thread : Nat) (heap : Heap) : Frame → Heap → Frame → List Return → Prop where
  | policyOf {source copy : Nat} : heap.holder source = some .clients → heap.holder copy = none →
      ¬ (heap.arrays source).length > maxSubPolicies →
      Move jvm thread heap .outside
        ((heap.put copy (List.replicate (heap.arrays source).length none)).give copy (.call thread))
        (.copying .policyOf source copy 0) []
  | getSubPolicies {policy copy : Nat} {object : PolicyObject} : heap.policies policy = some object →
      heap.holder copy = none →
      Move jvm thread heap .outside
        ((heap.put copy (List.replicate (heap.arrays object.subPolicy).length none)).give copy (.call thread))
        (.copying (.getSubPolicies policy) object.subPolicy copy 0) []
  | copyItem {purpose : Purpose} {source copy next : Nat} {item : Option SubPolicy} :
      next < (heap.arrays copy).length → (heap.arrays source)[next]? = some item →
      Move jvm thread heap (.copying purpose source copy next) (heap.put copy ((heap.arrays copy).set next item))
        (.copying purpose source copy (next+1)) []
  | copied {source copy next : Nat} : next = (heap.arrays copy).length →
      Move jvm thread heap (.copying .policyOf source copy next) heap (.checking copy 0) []
  | given {policy source copy next : Nat} : next = (heap.arrays copy).length →
      Move jvm thread heap (.copying (.getSubPolicies policy) source copy next) (heap.give copy .clients) .outside
        [.subPolicies policy (heap.arrays copy)]
  | checkItem {copy next : Nat} {sub : SubPolicy} : (heap.arrays copy)[next]? = some (some sub) →
      Move jvm thread heap (.checking copy next) heap (.checking copy (next+1)) []
  | checkFailed {copy next : Nat} : (heap.arrays copy)[next]? = some none →
      Move jvm thread heap (.checking copy next) heap .outside []
  | made {copy next policy : Nat} : (heap.arrays copy)[next]? = none → heap.policies policy = none →
      Move jvm thread heap (.checking copy next)
        ((heap.give copy .policy).add policy ⟨.ofNat (heap.arrays copy).length,copy⟩) .outside [.policy policy]
  | crypt (call : CryptCall) {object : PolicyObject} : heap.policies call.policy = some object →
      Move jvm thread heap .outside heap (.crypting call (.validating 0)) []
  | cryptGoesOn {call : CryptCall} {object : PolicyObject} {phase next : Phase} :
      heap.policies call.policy = some object →
      cryptNext jvm call object.subPolicyNum (heap.arrays object.subPolicy) phase = .inl next →
      Move jvm thread heap (.crypting call phase) heap (.crypting call next) []
  | cryptReturns {call : CryptCall} {object : PolicyObject} {phase : Phase} {result : Except Failure (List UInt8)} :
      heap.policies call.policy = some object →
      cryptNext jvm call object.subPolicyNum (heap.arrays object.subPolicy) phase = .inr result →
      Move jvm thread heap (.crypting call phase) heap .outside [.bytes call result]

structure State where
  heap : Heap
  threads : Nat → Frame
  returns : List Return

-- Any interleaving of any number of threads.
inductive Step (jvm : Jvm) (s : State) : State → Prop where
  | client {heap : Heap} : ClientMove s.heap heap → Step jvm s {s with heap := heap}
  | thread {thread : Nat} {heap : Heap} {frame : Frame} {returns : List Return} :
      Move jvm thread s.heap (s.threads thread) heap frame returns →
      Step jvm s ⟨heap,Function.update s.threads thread frame,s.returns ++ returns⟩

def initial : State := ⟨⟨fun _ => [],fun _ => none,fun _ => none⟩,fun _ => .outside,[]⟩

inductive Steps (jvm : Jvm) (s : State) : State → Prop where
  | refl : Steps jvm s s
  | step {middle last : State} : Steps jvm s middle → Step jvm middle last → Steps jvm s last

-- What a step leaves as it was for those whose references are `mine`.
structure Undisturbed (mine : Holder → Prop) (before after : Heap) : Prop where
  own : ∀ array holder, before.holder array = some holder → mine holder →
    after.holder array = some holder ∧ after.arrays array = before.arrays array
  sizes : ∀ array, before.holder array ≠ none →
    after.holder array ≠ none ∧ (after.arrays array).length = (before.arrays array).length
  policies : ∀ policy object, before.policies policy = some object → after.policies policy = some object

section Undisturbed
variable {mine : Holder → Prop} {heap : Heap}

theorem Undisturbed.refl (mine : Holder → Prop) (heap : Heap) : Undisturbed mine heap heap :=
  ⟨fun _ _ held _ => ⟨held,rfl⟩,fun _ held => ⟨held,rfl⟩,fun _ _ present => present⟩

theorem Undisturbed.trans {middle after : Heap} (first : Undisturbed mine heap middle)
    (second : Undisturbed mine middle after) : Undisturbed mine heap after := by
  refine ⟨fun array holder held own => ?_,fun array held => ?_,fun policy object present => ?_⟩
  · obtain ⟨stays,same⟩ := first.own array holder held own
    obtain ⟨remains,equal⟩ := second.own array holder stays own
    exact ⟨remains,equal.trans same⟩
  · obtain ⟨stays,same⟩ := first.sizes array held
    obtain ⟨remains,equal⟩ := second.sizes array stays
    exact ⟨remains,equal.trans same⟩
  · exact second.policies policy object (first.policies policy object present)

theorem Undisturbed.mono {fewer : Holder → Prop} {after : Heap} (kept : Undisturbed mine heap after)
    (less : ∀ holder, fewer holder → mine holder) : Undisturbed fewer heap after :=
  ⟨fun array holder held own => kept.own array holder held (less holder own),kept.sizes,kept.policies⟩

theorem undisturbed_fresh (mine : Holder → Prop) {array : Nat} (free : heap.holder array = none)
    (items : List (Option SubPolicy)) (holder : Holder) :
    Undisturbed mine heap ((heap.put array items).give array holder) := by
  have other : ∀ r, heap.holder r ≠ none → r ≠ array := fun r held same => held (by rw [same,free])
  refine ⟨fun r h held _ => ?_,fun r held => ?_,fun _ _ present => present⟩
  · have away := other r (by rw [held]; exact Option.some_ne_none h)
    exact ⟨(give_other _ _ _ away).trans held,put_other _ _ _ away⟩
  · refine ⟨by rwa [give_other _ _ _ (other r held)],?_⟩
    rw [give_arrays,put_other _ _ _ (other r held)]

theorem undisturbed_put {array : Nat} {holder : Holder} (held : heap.holder array = some holder)
    (foreign : ¬ mine holder) {items : List (Option SubPolicy)} (same : items.length = (heap.arrays array).length) :
    Undisturbed mine heap (heap.put array items) := by
  refine ⟨fun r h holds own => ⟨holds,put_other _ _ _ ?_⟩,fun r holds => ⟨holds,?_⟩,fun _ _ present => present⟩
  · rintro rfl
    rw [held] at holds
    cases holds
    exact foreign own
  · by_cases here : r = array
    · rw [here,put_self,same]
    · rw [put_other _ _ _ here]

theorem undisturbed_give {array : Nat} {holder : Holder} (held : heap.holder array = some holder)
    (foreign : ¬ mine holder) (next : Holder) : Undisturbed mine heap (heap.give array next) := by
  refine ⟨fun r h holds own => ⟨?_,rfl⟩,fun r holds => ⟨?_,rfl⟩,fun _ _ present => present⟩
  · have away : r ≠ array := by
      rintro rfl
      rw [held] at holds
      cases holds
      exact foreign own
    rwa [give_other _ _ _ away]
  · by_cases here : r = array
    · rw [here,give_self]
      exact Option.some_ne_none next
    · rwa [give_other _ _ _ here]

theorem undisturbed_add (mine : Holder → Prop) {policy : Nat} (free : heap.policies policy = none)
    (object : PolicyObject) : Undisturbed mine heap (heap.add policy object) := by
  refine ⟨fun _ _ held _ => ⟨held,rfl⟩,fun _ held => ⟨held,rfl⟩,fun p o present => ?_⟩
  have away : p ≠ policy := by
    rintro rfl
    rw [free] at present
    cases present
  rwa [add_other _ _ _ away]

end Undisturbed

-- What a move may touch: arrays of clients, and those of its own thread.
def others (thread : Nat) (holder : Holder) : Prop := holder ≠ .clients ∧ holder ≠ .call thread

def notClients (holder : Holder) : Prop := holder ≠ .clients

theorem client_undisturbed {heap next : Heap} (move : ClientMove heap next) : Undisturbed notClients heap next := by
  cases move with
  | newArray length free => exact undisturbed_fresh notClients free _ _
  | store i item held _ => exact undisturbed_put held (fun own => own rfl) (by simp)
  | @newPolicy array policy free absent =>
    have still : ((heap.put array []).give array .policy).policies policy = none := absent
    exact (undisturbed_fresh notClients free [] .policy).trans (undisturbed_add notClients still _)

structure Whole (object : PolicyObject) (items : List (Option SubPolicy)) : Prop where
  declared : object.subPolicyNum = .ofNat items.length
  few : items.length ≤ maxSubPolicies
  present : none ∉ items

structure HeapValid (heap : Heap) : Prop where
  built : ∀ array sub, some sub ∈ heap.arrays array → Constructed sub
  policies : ∀ policy object, heap.policies policy = some object →
    heap.holder object.subPolicy = some .policy ∧ Whole object (heap.arrays object.subPolicy)

def PurposeValid (heap : Heap) (source copy next : Nat) : Purpose → Prop
  | .policyOf => (heap.arrays copy).length ≤ maxSubPolicies
  | .getSubPolicies policy => ∃ object, heap.policies policy = some object ∧ object.subPolicy = source ∧
    (heap.arrays copy).take next = (heap.arrays source).take next

def PhaseValid (call : CryptCall) (items : List (Option SubPolicy)) : Phase → Prop
  | .validating next => validateEach (.ofNat call.input.length) (items.take next) = .ok ()
  | .converting next policyOut => validateEach (.ofNat call.input.length) items = .ok () ∧ next ≤ items.length ∧
    scan next (convertAt items) {emptyPolicy with subPolicyNum := .ofNat items.length} = .ok (.next policyOut)

def FrameValid (thread : Nat) (heap : Heap) : Frame → Prop
  | .outside => True
  | .copying purpose source copy next => heap.holder copy = some (.call thread) ∧ heap.holder source ≠ none ∧
    (heap.arrays copy).length = (heap.arrays source).length ∧ next ≤ (heap.arrays copy).length ∧
    PurposeValid heap source copy next purpose
  | .checking copy next => heap.holder copy = some (.call thread) ∧ (heap.arrays copy).length ≤ maxSubPolicies ∧
    none ∉ (heap.arrays copy).take next
  | .crypting call phase => ∃ object, heap.policies call.policy = some object ∧
    PhaseValid call (heap.arrays object.subPolicy) phase

-- What a call gave back, said about its policy as it is now.
def Meets (jvm : Jvm) (heap : Heap) : Return → Prop
  | .policy policy => ∃ object, heap.policies policy = some object
  | .subPolicies policy items => ∃ object, heap.policies policy = some object ∧ items = heap.arrays object.subPolicy
  | .bytes call result => ∃ object, heap.policies call.policy = some object ∧
    result = multiSubPolicyCrypt jvm (some call.input) (some (valueOf heap object)) call.key (some call.mode) call.encrypting

theorem validate_append (inputLength : Int32) (front rest : List (Option SubPolicy)) :
    validateEach inputLength (front ++ rest) =
      (validateEach inputLength front >>= fun _ => validateEach inputLength rest) := by
  induction front with
  | nil => rfl
  | cons element front ih =>
    cases element with
    | none => rfl
    | some sub =>
      rw [List.cons_append,validateEach,validateEach,ih]
      split
      · rfl
      · rfl

theorem validate_cons (inputLength : Int32) (element : Option SubPolicy) (rest : List (Option SubPolicy)) :
    validateEach inputLength (element :: rest) =
      (validateEach inputLength [element] >>= fun _ => validateEach inputLength rest) :=
  validate_append inputLength [element] rest

theorem convert_present {items : List (Option SubPolicy)} (few : items.length ≤ maxSubPolicies)
    (present : none ∉ items) {next : Nat} (bound : next < items.length) (policyOut : JniPolicy) :
    ∃ after, convertAt items next policyOut = .ok (.next after) := by
  have item : items[next]? = some items[next] := List.getElem?_eq_getElem bound
  cases entry : items[next] with
  | none => exact absurd (entry ▸ List.getElem_mem bound) present
  | some sub =>
    rw [entry] at item
    have room : next < maxSubPolicies := Nat.lt_of_lt_of_le bound few
    refine ⟨{policyOut with subPolicy := policyOut.subPolicy.set next ⟨sub.position,sub.length⟩ room},?_⟩
    simp only [convertAt,item,setSubPolicy,dif_pos room,ok_bind,pure_ok]

-- Step by step a call does what it would do at once.
section Crypting
variable {jvm : Jvm} {call : CryptCall} {object : PolicyObject} {heap : Heap}
  (whole : Whole object (heap.arrays object.subPolicy))

theorem refused_result {failure : Failure}
    (refused : validateEach (.ofNat call.input.length) (heap.arrays object.subPolicy) = .error failure) :
    multiSubPolicyCrypt jvm (some call.input) (some (valueOf heap object)) call.key (some call.mode) call.encrypting =
      .error failure := by
  simp only [multiSubPolicyCrypt,validatePolicyInput,requireNonNull,ok_bind,Policy.validateForLength,valueOf,refused]
  rfl

include whole

theorem declared_length : ¬ ((heap.arrays object.subPolicy).length > maxSubPolicies ∨
    object.subPolicyNum.toInt ≠ (heap.arrays object.subPolicy).length) := by
  have few := whole.few
  have number : object.subPolicyNum.toInt = (heap.arrays object.subPolicy).length := by
    rw [whole.declared]
    exact Policies.int_ofNat (by unfold maxSubPolicies at few; omega)
  omega

theorem accepted_result {policyOut : JniPolicy}
    (accepted : validateEach (.ofNat call.input.length) (heap.arrays object.subPolicy) = .ok ())
    (ran : scan (heap.arrays object.subPolicy).length (convertAt (heap.arrays object.subPolicy))
      {emptyPolicy with subPolicyNum := .ofNat (heap.arrays object.subPolicy).length} = .ok (.next policyOut)) :
    multiSubPolicyCrypt jvm (some call.input) (some (valueOf heap object)) call.key (some call.mode) call.encrypting =
      nativeResult jvm call policyOut := by
  obtain ⟨valid,mode⟩ := Fields.mode_accepted call.mode
  have converted : policyJavaToC (some (valueOf heap object)) emptyPolicy = .ok (0,policyOut) := by
    simp only [policyJavaToC,valueOf,if_neg (declared_length whole),ran,ok_bind,pure_ok]
  simp only [multiSubPolicyCrypt,validatePolicyInput,requireNonNull,ok_bind,Policy.validateForLength,valueOf,accepted,
    pure_ok]
  rw [valueOf] at converted
  simp only [transformPolicy,valid,mode,if_true,converted,Except.mapError,ok_bind,ne_eq,not_true_eq_false,if_false]
  rfl

theorem crypt_goes_on {phase next : Phase} (valid : PhaseValid call (heap.arrays object.subPolicy) phase)
    (goes : cryptNext jvm call object.subPolicyNum (heap.arrays object.subPolicy) phase = .inl next) :
    PhaseValid call (heap.arrays object.subPolicy) next := by
  cases phase with
  | validating i =>
    cases item : (heap.arrays object.subPolicy)[i]? with
    | none =>
      simp only [cryptNext,item,if_neg (declared_length whole)] at goes
      cases goes
      refine ⟨?_,Nat.zero_le _,rfl⟩
      rwa [PhaseValid,List.take_of_length_le (List.getElem?_eq_none_iff.mp item)] at valid
    | some element =>
      simp only [cryptNext,item] at goes
      split at goes
      · rename_i fine
        cases goes
        rw [PhaseValid] at valid ⊢
        rw [List.take_add_one,item,validate_append,valid]
        exact fine
      · cases goes
  | converting i policyOut =>
    obtain ⟨accepted,bound,ran⟩ := valid
    simp only [cryptNext] at goes
    split at goes
    · rename_i inside
      obtain ⟨after,stepped⟩ := convert_present whole.few whole.present inside policyOut
      simp only [stepped] at goes
      cases goes
      exact ⟨accepted,inside,by simp only [scan,ran,ok_bind,stepped]⟩
    · cases goes

theorem crypt_returns {phase : Phase} {result : Except Failure (List UInt8)}
    (valid : PhaseValid call (heap.arrays object.subPolicy) phase)
    (ends : cryptNext jvm call object.subPolicyNum (heap.arrays object.subPolicy) phase = .inr result) :
    result = multiSubPolicyCrypt jvm (some call.input) (some (valueOf heap object)) call.key (some call.mode)
      call.encrypting := by
  cases phase with
  | validating i =>
    cases item : (heap.arrays object.subPolicy)[i]? with
    | none =>
      simp only [cryptNext,item,if_neg (declared_length whole)] at ends
      cases ends
    | some element =>
      simp only [cryptNext,item] at ends
      split at ends
      · cases ends
      · rename_i failure bad
        cases ends
        obtain ⟨bound,rfl⟩ := List.getElem?_eq_some_iff.mp item
        refine (refused_result ?_).symm
        rw [PhaseValid] at valid
        rw [← List.take_append_drop i (heap.arrays object.subPolicy),validate_append,valid,ok_bind,
          List.drop_eq_getElem_cons bound,validate_cons,bad]
        rfl
  | converting i policyOut =>
    obtain ⟨accepted,bound,ran⟩ := valid
    simp only [cryptNext] at ends
    split at ends
    · rename_i inside
      obtain ⟨after,stepped⟩ := convert_present whole.few whole.present inside policyOut
      simp only [stepped] at ends
      cases ends
    · rename_i outside
      cases ends
      rw [Nat.le_antisymm bound (Nat.not_lt.mp outside)] at ran
      exact (accepted_result whole accepted ran).symm

end Crypting

-- What the others do changes nothing that a call or a result relies on.
section Stable
variable {mine : Holder → Prop} {before after : Heap} (kept : Undisturbed mine before after) (policies : mine .policy)
  (valid : HeapValid before)
include kept policies valid

theorem contents_kept {policy : Nat} {object : PolicyObject} (present : before.policies policy = some object) :
    after.policies policy = some object ∧ after.arrays object.subPolicy = before.arrays object.subPolicy :=
  ⟨kept.policies policy object present,(kept.own _ _ (valid.policies policy object present).1 policies).2⟩

theorem meets_kept {jvm : Jvm} {result : Return} (meets : Meets jvm before result) : Meets jvm after result := by
  cases result with
  | policy policy =>
    obtain ⟨object,present⟩ := meets
    exact ⟨object,kept.policies policy object present⟩
  | subPolicies policy items =>
    obtain ⟨object,present,same⟩ := meets
    obtain ⟨still,contents⟩ := contents_kept kept policies valid present
    exact ⟨object,still,by rw [contents,same]⟩
  | bytes call result =>
    obtain ⟨object,present,same⟩ := meets
    obtain ⟨still,contents⟩ := contents_kept kept policies valid present
    exact ⟨object,still,by rw [valueOf,contents]; exact same⟩

theorem frame_kept {thread : Nat} (own : mine (.call thread)) {frame : Frame} (frameValid : FrameValid thread before frame) :
    FrameValid thread after frame := by
  cases frame with
  | outside => trivial
  | copying purpose source copy next =>
    obtain ⟨held,alive,same,bound,purposeValid⟩ := frameValid
    obtain ⟨holds,items⟩ := kept.own copy _ held own
    obtain ⟨lives,size⟩ := kept.sizes source alive
    refine ⟨holds,lives,by rw [items,size,same],by rwa [items],?_⟩
    cases purpose with
    | policyOf => rwa [PurposeValid,items]
    | getSubPolicies policy =>
      obtain ⟨object,present,rfl,copied⟩ := purposeValid
      obtain ⟨still,contents⟩ := contents_kept kept policies valid present
      exact ⟨object,still,rfl,by rw [items,contents,copied]⟩
  | checking copy next =>
    obtain ⟨held,few,fine⟩ := frameValid
    obtain ⟨holds,items⟩ := kept.own copy _ held own
    exact ⟨holds,by rwa [items],by rwa [items]⟩
  | crypting call phase =>
    obtain ⟨object,present,phaseValid⟩ := frameValid
    obtain ⟨still,contents⟩ := contents_kept kept policies valid present
    exact ⟨object,still,by rwa [contents]⟩

theorem heap_kept (built : ∀ array sub, some sub ∈ after.arrays array → Constructed sub)
    (same : after.policies = before.policies) : HeapValid after := by
  refine ⟨built,fun policy object present => ?_⟩
  rw [same] at present
  obtain ⟨held,whole⟩ := valid.policies policy object present
  obtain ⟨holds,contents⟩ := kept.own _ _ held policies
  exact ⟨holds,by rwa [contents]⟩

end Stable

section Changes
variable {heap : Heap} (valid : HeapValid heap)
include valid

theorem built_put (array : Nat) {items : List (Option SubPolicy)} (built : ∀ sub, some sub ∈ items → Constructed sub)
    (r : Nat) (sub : SubPolicy) (member : some sub ∈ (heap.put array items).arrays r) : Constructed sub := by
  by_cases here : r = array
  · rw [here,put_self] at member
    exact built sub member
  · rw [put_other _ _ _ here] at member
    exact valid.built r sub member

theorem built_set {array : Nat} {i : Nat} {item : Option SubPolicy}
    (built : ∀ sub, item = some sub → Constructed sub) (sub : SubPolicy)
    (member : some sub ∈ (heap.arrays array).set i item) : Constructed sub := by
  rcases List.mem_or_eq_of_mem_set member with old | same
  · exact valid.built array sub old
  · exact built sub same.symm

theorem heap_add {policy : Nat} {object : PolicyObject} (held : heap.holder object.subPolicy = some .policy)
    (whole : Whole object (heap.arrays object.subPolicy)) : HeapValid (heap.add policy object) := by
  refine ⟨valid.built,fun p o present => ?_⟩
  by_cases here : p = policy
  · rw [here,add_self] at present
    cases present
    exact ⟨held,whole⟩
  · rw [add_other _ _ _ here] at present
    exact valid.policies p o present

theorem fresh_valid {array : Nat} (free : heap.holder array = none) (holder : Holder) (length : Nat) :
    HeapValid ((heap.put array (List.replicate length none)).give array holder) := by
  refine heap_kept (undisturbed_fresh notClients free _ holder) (by simp [notClients]) valid ?_ rfl
  exact built_put valid array fun sub member => by simp at member

theorem client_valid {next : Heap} (move : ClientMove heap next) : HeapValid next := by
  have kept := client_undisturbed move
  cases move with
  | newArray length free => exact fresh_valid valid free .clients length
  | store i item held built =>
    exact heap_kept kept (by simp [notClients]) valid (built_put valid _ (built_set valid built)) rfl
  | newPolicy free absent =>
    refine heap_add (fresh_valid valid free .policy 0) (give_self _ _ _) ?_
    rw [give_arrays,put_self]
    exact ⟨rfl,Nat.zero_le _,List.not_mem_nil⟩

end Changes

-- One move of a call: what it leaves to the others, and what it knows itself.
theorem move_undisturbed {jvm : Jvm} {thread : Nat} {heap next : Heap} {frame following : Frame} {returns : List Return}
    (move : Move jvm thread heap frame next following returns) (frameValid : FrameValid thread heap frame) :
    Undisturbed (others thread) heap next := by
  have foreign : ¬ others thread (.call thread) := fun own => own.2 rfl
  cases move with
  | policyOf held free few => exact undisturbed_fresh _ free _ _
  | getSubPolicies present free => exact undisturbed_fresh _ free _ _
  | copyItem bound item => exact undisturbed_put frameValid.1 foreign (by simp)
  | given done => exact undisturbed_give frameValid.1 foreign .clients
  | @made copy i policy done free =>
    have still : (heap.give copy .policy).policies policy = none := free
    exact (undisturbed_give frameValid.1 foreign .policy).trans (undisturbed_add _ still _)
  | copied | checkItem | checkFailed | crypt | cryptGoesOn | cryptReturns => exact .refl _ heap

theorem move_valid {jvm : Jvm} {thread : Nat} {heap next : Heap} {frame following : Frame} {returns : List Return}
    (move : Move jvm thread heap frame next following returns) (valid : HeapValid heap)
    (frameValid : FrameValid thread heap frame) :
    HeapValid next ∧ FrameValid thread next following ∧ ∀ result ∈ returns, Meets jvm next result := by
  have kept := move_undisturbed move frameValid
  have policies : others thread .policy := ⟨by simp,by simp⟩
  cases move with
  | @policyOf source copy held free few =>
    obtain ⟨alive,size⟩ := kept.sizes source (by rw [held]; simp)
    refine ⟨fresh_valid valid free _ _,⟨give_self _ _ _,alive,?_,Nat.zero_le _,?_⟩,by simp⟩
    · rw [size,give_arrays,put_self,List.length_replicate]
    · rw [PurposeValid,give_arrays,put_self,List.length_replicate]
      exact Nat.not_lt.mp few
  | @getSubPolicies policy copy object present free =>
    have held := (valid.policies policy object present).1
    obtain ⟨alive,size⟩ := kept.sizes object.subPolicy (by rw [held]; simp)
    refine ⟨fresh_valid valid free _ _,⟨give_self _ _ _,alive,?_,Nat.zero_le _,?_⟩,by simp⟩
    · rw [size,give_arrays,put_self,List.length_replicate]
    · exact ⟨object,present,rfl,by simp⟩
  | @copyItem purpose source copy i item bound read =>
    obtain ⟨held,alive,same,_,purposeValid⟩ := frameValid
    have built : ∀ sub, item = some sub → Constructed sub := by
      rintro sub rfl
      exact valid.built source sub (List.mem_of_getElem? read)
    refine ⟨heap_kept kept policies valid (built_put valid copy (built_set valid built)) rfl,⟨held,alive,?_,?_,?_⟩,by simp⟩
    · rw [put_self,List.length_set,(kept.sizes source alive).2,same]
    · rw [put_self,List.length_set]
      exact bound
    · cases purpose with
      | policyOf => rwa [PurposeValid,put_self,List.length_set]
      | getSubPolicies policy =>
        obtain ⟨object,present,rfl,copied⟩ := purposeValid
        refine ⟨object,present,rfl,?_⟩
        rw [put_self,(contents_kept kept policies valid present).2,List.take_add_one,List.take_add_one,
          List.take_set_of_le (Nat.le_refl _),copied,List.getElem?_set_self bound,read]
  | copied done =>
    obtain ⟨held,_,_,_,few⟩ := frameValid
    exact ⟨valid,⟨held,few,by simp⟩,by simp⟩
  | @given policy source copy i done =>
    obtain ⟨_,_,same,_,object,present,rfl,copied⟩ := frameValid
    refine ⟨heap_kept kept policies valid valid.built rfl,trivial,List.forall_mem_singleton.mpr ⟨object,present,?_⟩⟩
    rwa [done,List.take_length,same,List.take_length] at copied
  | @checkItem copy i sub item =>
    obtain ⟨held,few,fine⟩ := frameValid
    refine ⟨valid,⟨held,few,?_⟩,by simp⟩
    rw [List.take_add_one,item]
    simpa using fine
  | checkFailed item => exact ⟨valid,trivial,by simp⟩
  | @made copy i policy done free =>
    obtain ⟨held,few,fine⟩ := frameValid
    rw [List.take_of_length_le (List.getElem?_eq_none_iff.mp done)] at fine
    have given : HeapValid (heap.give copy .policy) := by
      refine heap_kept (undisturbed_give held (fun own => own.2 rfl : ¬ others thread (.call thread)) .policy) policies
        valid valid.built rfl
    refine ⟨heap_add given (give_self _ _ _) ⟨rfl,few,fine⟩,trivial,List.forall_mem_singleton.mpr ⟨_,add_self _ _ _⟩⟩
  | crypt call present => exact ⟨valid,⟨_,present,rfl⟩,by simp⟩
  | cryptGoesOn present goes =>
    obtain ⟨object,same,phaseValid⟩ := frameValid
    rw [present] at same
    cases same
    exact ⟨valid,⟨_,present,crypt_goes_on (valid.policies _ _ present).2 phaseValid goes⟩,by simp⟩
  | cryptReturns present ends =>
    obtain ⟨object,same,phaseValid⟩ := frameValid
    rw [present] at same
    cases same
    exact ⟨valid,trivial,List.forall_mem_singleton.mpr
      ⟨_,present,crypt_returns (valid.policies _ _ present).2 phaseValid ends⟩⟩

structure Valid (jvm : Jvm) (s : State) : Prop where
  heap : HeapValid s.heap
  frames : ∀ thread, FrameValid thread s.heap (s.threads thread)
  returns : ∀ result ∈ s.returns, Meets jvm s.heap result

theorem initial_valid (jvm : Jvm) : Valid jvm initial :=
  ⟨⟨fun _ _ member => (nomatch member),fun _ _ present => (nomatch present)⟩,fun _ => trivial,
    fun _ member => (nomatch member)⟩

theorem step_valid {jvm : Jvm} {s next : State} (valid : Valid jvm s) (step : Step jvm s next) :
    Valid jvm next ∧ Undisturbed (· = .policy) s.heap next.heap := by
  cases step with
  | client move =>
    have kept := client_undisturbed move
    have policies : notClients .policy := by simp [notClients]
    refine ⟨⟨client_valid valid.heap move,fun thread => ?_,fun result member => ?_⟩,?_⟩
    · exact frame_kept kept policies valid.heap (by simp [notClients]) (valid.frames thread)
    · exact meets_kept kept policies valid.heap (valid.returns result member)
    · exact kept.mono fun holder own => by rw [own]; exact policies
  | @thread thread heap frame returns move =>
    have kept := move_undisturbed move (valid.frames thread)
    have policies : others thread .policy := ⟨by simp,by simp⟩
    obtain ⟨heapValid,frameValid,meets⟩ := move_valid move valid.heap (valid.frames thread)
    refine ⟨⟨heapValid,fun other => ?_,fun result member => ?_⟩,?_⟩
    · by_cases here : other = thread
      · subst here
        simpa using frameValid
      · have own : others thread (.call other) := ⟨by simp,by simpa using here⟩
        simpa [Function.update_of_ne here] using frame_kept kept policies valid.heap own (valid.frames other)
    · rcases List.mem_append.mp member with old | new
      · exact meets_kept kept policies valid.heap (valid.returns result old)
      · exact meets result new
    · exact kept.mono fun holder own => by rw [own]; exact policies

theorem steps_valid {jvm : Jvm} {s last : State} (valid : Valid jvm s) (steps : Steps jvm s last) :
    Valid jvm last ∧ Undisturbed (· = .policy) s.heap last.heap := by
  induction steps with
  | refl => exact ⟨valid,.refl _ s.heap⟩
  | step _ step ih =>
    obtain ⟨middleValid,first⟩ := ih
    obtain ⟨lastValid,second⟩ := step_valid middleValid step
    exact ⟨lastValid,first.trans second⟩

theorem whole_obtainable {heap : Heap} (valid : HeapValid heap) {policy : Nat} {object : PolicyObject}
    (present : heap.policies policy = some object) : Obtainable (valueOf heap object) := by
  obtain ⟨_,declared,few,fine⟩ := valid.policies policy object present
  refine .of (heap.arrays object.subPolicy) (fun sub member => valid.built _ sub member) ?_
  simp only [Policy.of,if_neg (Nat.not_lt.mpr few),if_neg fine,valueOf,declared]

def withPolicy : State := {initial with heap := ((initial.heap.put 0 []).give 0 .policy).add 0 ⟨0,0⟩}

end TeradataCpt.PolicyObjects
