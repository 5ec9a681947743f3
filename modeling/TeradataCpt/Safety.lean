import TeradataCpt.Policies

namespace TeradataCpt.Safety
open CSemantics RangePatches Cpt CptJni Fields Policies

theorem convert_total {array : List (Option SubPolicy)} (few : array.length ≤ maxSubPolicies) (i : Nat)
    (bound : i < array.length) (policyOut : JniPolicy) : ∃ flow, convertAt array i policyOut = .ok flow := by
  unfold convertAt
  split
  · have room : i < maxSubPolicies := Nat.lt_of_lt_of_le bound few
    simp [setSubPolicy,room]
  · exact ⟨_,rfl⟩

theorem policy_java_to_c_total (policyIn : Option Policy) (policyOut : JniPolicy) :
    ∃ result, policyJavaToC policyIn policyOut = .ok result := by
  unfold policyJavaToC
  cases policyIn with
  | none => exact ⟨_,rfl⟩
  | some policyIn =>
    obtain ⟨number,subPolicy⟩ := policyIn
    cases subPolicy with
    | none => exact ⟨_,rfl⟩
    | some array =>
      dsimp only
      by_cases refused : array.length > maxSubPolicies ∨ number.toInt ≠ array.length
      · exact ⟨_,if_pos refused⟩
      · have few : array.length ≤ maxSubPolicies := by omega
        obtain ⟨flow,ran⟩ := scan_total (convert_total few) {policyOut with subPolicyNum := .ofNat array.length}
        rw [if_neg refused,ran]
        cases flow <;> exact ⟨_,rfl⟩

theorem transform_policy_bytes {machine : Machine} (available : ∀ call, machine.mallocOk call = true) (host : Host)
    (policy : JniPolicy) (key : Nat) (m : CptMode) (encrypting : Bool) {x : List UInt8} (short : x.length < 2^31) :
    transformPolicyBytes machine host policy key m encrypting x =
      .ok (if (x = [] ∧ host.emptyNull) ∨ ¬ Accepts policy x.length then none
        else some (patchAll (image key m encrypting) x (ranges policy))) := by
  unfold transformPolicyBytes
  by_cases null : x = [] ∧ host.emptyNull
  · have ran := policy_null machine available policy key m encrypting (x := x)
    simp only [if_pos null,ran,ok_bind,if_pos (Or.inl null)]
    rfl
  · have ran := policy_status machine available policy key m encrypting short
    simp only [if_neg null,ran,ok_bind]
    by_cases accepted : Accepts policy x.length
    · have length := patchAll_length (image_length key m encrypting) (ranges_fit accepted)
      have bytes := (written_holds (zeros (x.length+1)) (patchAll (image key m encrypting) x (ranges policy))).loadAll
      rw [length] at bytes
      simp [accepted,null,callMemory,bytes]
    · simp [accepted]

def Unharmed (result : Except Failure α) : Prop := ∀ fault, result ≠ .error (.fault fault)

theorem unharmed_ok (value : α) : Unharmed (.ok value : Except Failure α) := by
  intro fault same
  cases same

theorem unharmed_thrown (message : String) : Unharmed (.error (illegalArgument message) : Except Failure α) := by
  intro fault same
  cases same

section Methods
variable {machine : Machine} (available : ∀ call, machine.mallocOk call = true) (host : Host)
  (input : Option (List UInt8)) (policyObject : Option Policy) (key : Int64) (mode : Int8) (encrypting : Bool)
include available

theorem transform_unharmed : Unharmed (transform machine host input key mode encrypting) := by
  cases input with
  | none => exact unharmed_thrown _
  | some x =>
    simp only [transform,transform_run machine _ _ available encrypting x]
    cases validMode mode with
    | true => exact unharmed_ok _
    | false => exact unharmed_thrown _

theorem transform_policy_unharmed (short : ∀ x, input = some x → x.length < 2^31) :
    Unharmed (transformPolicy machine host input policyObject key mode encrypting) := by
  cases input with
  | none => exact unharmed_thrown _
  | some x =>
    cases policyObject with
    | none => exact unharmed_thrown _
    | some policyObject =>
      obtain ⟨⟨converted,policy⟩,conversion⟩ := policy_java_to_c_total (some policyObject) emptyPolicy
      have ran := transform_policy_bytes available host policy (unsignedLong host key) (.ofInt mode.toInt) encrypting
        (short x rfl)
      simp only [transformPolicy,conversion,Except.mapError,ok_bind]
      cases validMode mode with
      | false => exact unharmed_thrown _
      | true =>
        by_cases refused : converted ≠ 0
        · simp only [if_true,if_pos refused]
          exact unharmed_thrown _
        · simp only [if_true,if_neg refused,ran,ok_bind]
          split
          · exact unharmed_ok _
          · exact unharmed_thrown _

end Methods

-- On the audited machine every access, count, read and conversion is checked, and
-- whatever the arguments are no check fails; so the checks change no result.
theorem jni_path_safe (host : Host) (input : Option (List UInt8)) (short : ∀ x, input = some x → x.length < 2^31)
    (policyObject : Option Policy) (key : Int64) (mode : Int8) (encrypting : Bool) :
    Unharmed (transform .audited host input key mode encrypting) ∧
    Unharmed (transformPolicy .audited host input policyObject key mode encrypting) ∧
    transform .audited host input key mode encrypting = transform .reliable host input key mode encrypting ∧
    transformPolicy .audited host input policyObject key mode encrypting =
      transformPolicy .reliable host input policyObject key mode encrypting := by
  have audited : ∀ call, Machine.audited.mallocOk call = true := fun _ => rfl
  refine ⟨transform_unharmed audited host input key mode encrypting,
    transform_policy_unharmed audited host input policyObject key mode encrypting short,?_,?_⟩
  · cases input with
    | none => rfl
    | some x => simp only [transform,transform_run .audited _ _ audited,transform_run .reliable _ _ reliable_serves]
  · cases input with
    | none => rfl
    | some x =>
      cases policyObject with
      | none => rfl
      | some policyObject =>
        simp only [transformPolicy,transform_policy_bytes audited host _ _ _ encrypting (short x rfl),
          transform_policy_bytes reliable_serves host _ _ _ encrypting (short x rfl)]

-- Four digits, all of them and the last three, both ways.
theorem jni_path_safe_digits :
    (Unharmed (transform .audited .lp64 (some [0x33,0x31,0x34,0x31]) 123 (modeValue .cptInt) true) ∧
      Unharmed (transformPolicy .audited .lp64 (some [0x33,0x31,0x34,0x31]) (some ⟨1,some [some ⟨1,3⟩]⟩) 123
        (modeValue .cptInt) true) ∧
      transform .audited .lp64 (some [0x33,0x31,0x34,0x31]) 123 (modeValue .cptInt) true =
        transform .reliable .lp64 (some [0x33,0x31,0x34,0x31]) 123 (modeValue .cptInt) true ∧
      transformPolicy .audited .lp64 (some [0x33,0x31,0x34,0x31]) (some ⟨1,some [some ⟨1,3⟩]⟩) 123
          (modeValue .cptInt) true =
        transformPolicy .reliable .lp64 (some [0x33,0x31,0x34,0x31]) (some ⟨1,some [some ⟨1,3⟩]⟩) 123
          (modeValue .cptInt) true) ∧
    Unharmed (transform .audited .lp64 (some [0x33,0x31,0x34,0x31]) 123 (modeValue .cptInt) false) ∧
      Unharmed (transformPolicy .audited .lp64 (some [0x33,0x31,0x34,0x31]) (some ⟨1,some [some ⟨1,3⟩]⟩) 123
        (modeValue .cptInt) false) ∧
      transform .audited .lp64 (some [0x33,0x31,0x34,0x31]) 123 (modeValue .cptInt) false =
        transform .reliable .lp64 (some [0x33,0x31,0x34,0x31]) 123 (modeValue .cptInt) false ∧
      transformPolicy .audited .lp64 (some [0x33,0x31,0x34,0x31]) (some ⟨1,some [some ⟨1,3⟩]⟩) 123
          (modeValue .cptInt) false =
        transformPolicy .reliable .lp64 (some [0x33,0x31,0x34,0x31]) (some ⟨1,some [some ⟨1,3⟩]⟩) 123
          (modeValue .cptInt) false := by
  have short : ∀ x : List UInt8, some [0x33,0x31,0x34,0x31] = some x → x.length < 2^31 := by
    rintro x ⟨⟩
    decide
  have both := jni_path_safe .lp64 (some [0x33,0x31,0x34,0x31]) short (some ⟨1,some [some ⟨1,3⟩]⟩) 123
    (modeValue .cptInt)
  exact ⟨both true,both false⟩

end TeradataCpt.Safety
