import TeradataCpt.Overlaps
import TeradataCpt.PolicyChecks
import TeradataCpt.Safety

namespace TeradataCpt.PolicyApi
open CSemantics RangePatches RangeOverlaps Cpt CptJni JavaApi Fields Policies PolicyChecks Overlaps Safety

def subRange (sub : SubPolicy) : Range := ⟨sub.position.toInt.toNat,sub.length.toInt.toNat⟩

-- An entry that reaches past n bytes, and what validateForLength throws about it.
def past (n : Nat) (sub : SubPolicy) : Bool := decide ((n : Int) < sub.position.toInt + sub.length.toInt)

def exceeds (n : Nat) (sub : SubPolicy) : Failure :=
  illegalArgument ("sub policy exceeds input byte length: position=" ++ toString sub.position.toInt ++
    ", length=" ++ toString sub.length.toInt ++ ", inputLength=" ++ toString (n : Int))

-- What the methods are for: `f` over every range. The first entry that does not fit is
-- named; native code behind a NULL data() takes no input at all, not even an empty one.
def answer (emptyNull : Bool) (f : List UInt8 → List UInt8) (subs : List SubPolicy) (input : List UInt8) :
    Except Failure (List UInt8) :=
  match subs.find? (past input.length) with
  | some sub => .error (exceeds input.length sub)
  | none =>
    if input = [] ∧ emptyNull then
      .error (illegalArgument "policy exceeds input byte length or native allocation failed")
    else .ok (patchAll f input (subs.map subRange))

theorem validate_outcome {n : Nat} (short : n < 2^31) {subs : List SubPolicy}
    (signs : ∀ sub ∈ subs, 0 ≤ sub.position.toInt ∧ 0 ≤ sub.length.toInt) :
    validateEach (.ofNat n) (subs.map some) =
      match subs.find? (past n) with
      | some sub => .error (exceeds n sub)
      | none => .ok () := by
  have size := int_ofNat short
  induction subs with
  | nil => rfl
  | cons sub rest ih =>
    obtain ⟨position,length⟩ := signs sub List.mem_cons_self
    have others := ih fun other member => signs other (List.mem_cons_of_mem sub member)
    have test : (sub.position > .ofNat n ∨ sub.length > .ofNat n - sub.position) ↔ past n sub = true := by
      simp only [past,decide_eq_true_eq,gt_iff_lt,Int32.lt_iff_toInt_lt,size]
      by_cases beyond : (n : Int) < sub.position.toInt
      · omega
      · rw [difference_exact position (by omega),size]
        omega
    rw [List.map_cons,validateEach,List.find?_cons]
    cases reaches : past n sub with
    | true =>
      rw [if_pos (test.mpr reaches),size]
      rfl
    | false => rw [if_neg (by rw [test,reaches]; exact Bool.false_ne_true),others]

theorem fitting {n : Nat} {subs : List SubPolicy} (none : subs.find? (past n) = none) :
    ∀ sub ∈ subs, sub.position.toInt + sub.length.toInt ≤ n := by
  intro sub member
  have away := List.find?_eq_none.mp none sub member
  rw [past,decide_eq_true_eq] at away
  omega

section Methods
variable {jvm : Jvm} (available : ∀ call, jvm.machine.mallocOk call = true) {policy : Policy} {subs : List SubPolicy}
  (sound : Sound policy subs)
include available sound

theorem native_answer {input : List UInt8} (short : input.length < 2^31) (key : Int64) (mod : Int8) (encrypting : Bool) :
    transformPolicy jvm.machine jvm.host (some input) (some policy) key mod encrypting =
      if validMode mod then
        if (input = [] ∧ jvm.host.emptyNull) ∨ subs.find? (past input.length) ≠ none then
          .error (illegalArgument "policy exceeds input byte length or native allocation failed")
        else .ok (patchAll (image (unsignedLong jvm.host key) (.ofInt mod.toInt) encrypting) input (subs.map subRange))
      else .error (illegalArgument "mode must be 0, 1, or 2") := by
  obtain ⟨native,ran,number,entries⟩ := converted sound emptyPolicy
  have accepted : Accepts native input.length ↔ subs.find? (past input.length) = none := by
    have few := sound.few
    constructor
    · intro accepts
      refine List.find?_eq_none.mpr fun sub member => ?_
      have within := accepts.2.2 (nativeSub sub) (by rw [entries]; exact List.mem_map_of_mem member)
      rw [past,decide_eq_true_eq]
      exact Int.not_lt.mpr within.2.2
    · intro fits
      refine ⟨by omega,by omega,fun sub member => ?_⟩
      rw [entries] at member
      obtain ⟨origin,present,rfl⟩ := List.mem_map.mp member
      exact ⟨(sound.signs origin present).1,(sound.signs origin present).2,fitting fits origin present⟩
  have same : ranges native = subs.map subRange := by
    rw [ranges,entries,List.map_map]
    rfl
  have bytes := transform_policy_bytes available jvm.host native (unsignedLong jvm.host key) (.ofInt mod.toInt)
    encrypting short
  simp only [accepted,same] at bytes
  simp only [transformPolicy,ran,Except.mapError,ok_bind,ne_eq,not_true_eq_false,if_false,bytes]
  by_cases refused : (input = [] ∧ jvm.host.emptyNull) ∨ ¬ subs.find? (past input.length) = none
  · rw [if_pos refused,if_pos refused]
  · rw [if_neg refused,if_neg refused]
    rfl

-- Past validateForLength nothing but the empty text is refused.
theorem method_answer {input : List UInt8} (short : input.length < 2^31) (key : Int64) (m : CptMode)
    (encrypting : Bool) :
    multiSubPolicyCrypt jvm (some input) (some policy) key (some m) encrypting =
      answer jvm.host.emptyNull (image (unsignedLong jvm.host key) m encrypting) subs input := by
  obtain ⟨valid,mode⟩ := mode_accepted m
  have checked : Policy.validateForLength policy (.ofNat input.length) =
      validateEach (.ofNat input.length) (subs.map some) := by
    rw [sound.object]
    rfl
  simp only [multiSubPolicyCrypt,validatePolicyInput,requireNonNull,ok_bind,checked,validate_outcome short sound.signs,
    answer]
  cases found : subs.find? (past input.length) with
  | some sub => rfl
  | none =>
    simp only [ok_bind,pure_ok]
    rw [native_answer available sound short key (modeValue m) encrypting,valid,mode,found]
    simp

end Methods

def rangesAsBytes (jvm : Jvm) (input : Option (List UInt8)) (policy : Option Policy) (key : Int64)
    (mode : Option CptMode) : Bool → Except Failure (List UInt8)
  | true => encryptRangesAsBytes jvm input policy key mode
  | false => decryptRangesAsBytes jvm input policy key mode

def refusal (name : String) : Except Failure (List UInt8) := .error (illegalArgument (name ++ " must not be null"))

-- The methods ask for their arguments in two orders.
theorem crypt_nulls (jvm : Jvm) (input : Option (List UInt8)) (policy : Option Policy) (key : Int64)
    (mode : Option CptMode) (encrypting : Bool) (missing : input = none ∨ policy = none ∨ mode = none) :
    multiSubPolicyCrypt jvm input policy key mode encrypting =
      refusal (if input = none then "input" else if mode = none then "mode" else "policy") := by
  cases input with
  | none => rfl
  | some input => cases mode with
    | none => rfl
    | some mode => cases policy with
      | none => rfl
      | some policy => simp at missing

theorem ranges_nulls (jvm : Jvm) (input : Option (List UInt8)) (policy : Option Policy) (key : Int64)
    (mode : Option CptMode) (encrypting : Bool) (missing : input = none ∨ policy = none ∨ mode = none) :
    rangesAsBytes jvm input policy key mode encrypting =
      refusal (if input = none then "input" else if policy = none then "policy" else "mode") := by
  cases encrypting <;> cases input with
  | none => rfl
  | some input => cases policy with
    | none => rfl
    | some policy => cases mode with
      | none => rfl
      | some mode => simp at missing

theorem ranges_present (jvm : Jvm) (input : List UInt8) (policy : Policy) (key : Int64) (m : CptMode)
    (encrypting : Bool) : rangesAsBytes jvm (some input) (some policy) key (some m) encrypting =
      multiSubPolicyCrypt jvm (some input) (some policy) key (some m) encrypting := by
  cases encrypting <;> rfl

theorem subs_fit {n : Nat} {subs : List SubPolicy} (signs : ∀ sub ∈ subs, 0 ≤ sub.position.toInt ∧ 0 ≤ sub.length.toInt)
    (fits : subs.find? (past n) = none) : ∀ r ∈ subs.map subRange, r.Fits n := by
  intro r member
  obtain ⟨sub,entry,rfl⟩ := List.mem_map.mp member
  have inside := fitting fits sub entry
  have sign := signs sub entry
  simp only [Range.Fits,subRange]
  omega

theorem answer_fits {f : List UInt8 → List UInt8} {emptyNull : Bool} {subs : List SubPolicy} {input : List UInt8}
    (fits : subs.find? (past input.length) = none) (taken : ¬ (input.length = 0 ∧ emptyNull)) :
    answer emptyNull f subs input = .ok (patchAll f input (subs.map subRange)) := by
  rw [List.length_eq_zero_iff] at taken
  rw [answer,fits]
  exact if_neg taken

theorem answer_round_trip (inkey : Nat) (m : CptMode) {subs : List SubPolicy} {emptyNull : Bool} {input : List UInt8}
    (signs : ∀ sub ∈ subs, 0 ≤ sub.position.toInt ∧ 0 ≤ sub.length.toInt)
    (fits : subs.find? (past input.length) = none) (taken : ¬ (input.length = 0 ∧ emptyNull)) :
    (answer emptyNull (image inkey m true) subs input >>= answer emptyNull (image inkey m false) subs) =
      .ok (patchAll (cipher inkey m).symm (patchAll (cipher inkey m) input (subs.map subRange)) (subs.map subRange)) := by
  have length := patchAll_length (image_length inkey m true) (subs_fit signs fits)
  rw [answer_fits fits taken,ok_bind,answer_fits (by rwa [length]) (by rwa [length])]
  rfl

theorem round_trip_settled (inkey : Nat) (m : CptMode) {subs : List SubPolicy} {emptyNull : Bool} {n : Nat}
    (signs : ∀ sub ∈ subs, 0 ≤ sub.position.toInt ∧ 0 ≤ sub.length.toInt)
    (fits : subs.find? (past n) = none) (taken : ¬ (n = 0 ∧ emptyNull)) :
    (∀ input, input.length = n → (answer emptyNull (image inkey m true) subs input >>=
      answer emptyNull (image inkey m false) subs) = .ok input) ↔ Settled (subs.map subRange) := by
  constructor
  · intro restores
    by_contra unsettled
    obtain ⟨input,rfl,lost⟩ := unsettled_loses (image_isolates inkey m true) (image_isolates inkey m false)
      (left_loses inkey m) (right_loses inkey m) (subs_fit signs fits) unsettled
    have ran := restores input rfl
    rw [answer_round_trip inkey m signs fits taken] at ran
    exact lost (Except.ok.inj ran)
  · rintro settled input rfl
    rw [answer_round_trip inkey m signs fits taken]
    exact congrArg Except.ok (patchAll_inverse (image_length inkey m true) (image_length inkey m false)
      (cipher inkey m).symm_apply_apply (subs_fit signs fits) settled)

-- For every policy that the constructors give: the bytes or the exception of each call,
-- and which of those policies give every input of a length back.
theorem policy_methods_answer (jvm : Jvm) (available : ∀ call, jvm.machine.mallocOk call = true) {policy : Policy}
    (obtained : Obtainable policy) : ∃ subs : List SubPolicy, policy.subPolicy = some (subs.map some) ∧
      ∀ n < 2^31, ∀ (key : Int64) (m : CptMode),
        (∀ (input : List UInt8) (encrypting : Bool), input.length = n →
          multiSubPolicyCrypt jvm (some input) (some policy) key (some m) encrypting =
            answer jvm.host.emptyNull (image (unsignedLong jvm.host key) m encrypting) subs input ∧
          rangesAsBytes jvm (some input) (some policy) key (some m) encrypting =
            answer jvm.host.emptyNull (image (unsignedLong jvm.host key) m encrypting) subs input) ∧
        (subs.find? (past n) = none → ¬ (n = 0 ∧ jvm.host.emptyNull) →
          ((∀ input, input.length = n → (encryptRangesAsBytes jvm (some input) (some policy) key (some m) >>= fun output =>
            decryptRangesAsBytes jvm (some output) (some policy) key (some m)) = .ok input) ↔
              Settled (subs.map subRange))) := by
  obtain ⟨subs,sound⟩ := obtained.sound
  refine ⟨subs,by rw [sound.object],fun n short key m => ⟨?_,fun fits taken => ?_⟩⟩
  · rintro input encrypting rfl
    have first := method_answer available sound short key m encrypting
    exact ⟨first,by rw [ranges_present,first]⟩
  · rw [← round_trip_settled (unsignedLong jvm.host key) m sound.signs fits taken]
    refine forall_congr' fun input => imp_congr_right fun length => ?_
    subst length
    have there : encryptRangesAsBytes jvm (some input) (some policy) key (some m) =
        answer jvm.host.emptyNull (image (unsignedLong jvm.host key) m true) subs input :=
      method_answer available sound short key m true
    rw [there,answer_fits fits taken]
    have same := patchAll_length (image_length (unsignedLong jvm.host key) m true) (subs_fit sound.signs fits)
    have back : decryptRangesAsBytes jvm (some (patchAll (image (unsignedLong jvm.host key) m true) input
        (subs.map subRange))) (some policy) key (some m) = _ := method_answer available sound (by omega) key m false
    rw [ok_bind,ok_bind,back]

-- The middle of five digits, on the build with a 64-bit unsigned long.
theorem policy_methods_middle : ∃ policy, Policy.of (some [some ⟨1,3⟩]) = .ok policy ∧
    ((∀ input, input.length = 5 → (encryptRangesAsBytes ⟨.reliable,.lp64,wholeTextDecoder⟩ (some input) (some policy) 7
      (some .cptInt) >>= fun output => decryptRangesAsBytes ⟨.reliable,.lp64,wholeTextDecoder⟩ (some output)
        (some policy) 7 (some .cptInt)) = .ok input) ↔ Settled [⟨1,3⟩]) := by
  have built : ∀ sub, some sub ∈ [some (⟨1,3⟩ : SubPolicy)] → Constructed sub := by
    intro sub member
    obtain rfl : sub = ⟨1,3⟩ := by simpa using member
    exact .of 1 3 (by decide)
  have made : Policy.of (some [some ⟨1,3⟩]) = .ok ⟨1,some [some ⟨1,3⟩]⟩ := policy_of_one _
  obtain ⟨subs,object,answers⟩ := policy_methods_answer ⟨.reliable,.lp64,wholeTextDecoder⟩ (fun _ => rfl)
    (.of _ built made)
  obtain rfl : subs = [⟨1,3⟩] := List.map_injective_iff.mpr (Option.some_injective _) (Option.some.inj object).symm
  exact ⟨_,made,(answers 5 (by decide) 7 .cptInt).2 (by decide) (by decide)⟩

end TeradataCpt.PolicyApi
