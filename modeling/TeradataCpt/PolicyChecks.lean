import TeradataCpt.JavaApi
import TeradataCpt.Policies

namespace TeradataCpt.PolicyChecks
open CSemantics RangePatches Cpt CptJni JavaApi Policies

inductive Constructed : SubPolicy → Prop where
  | blank : Constructed SubPolicy.blank
  | of (position length : Int32) {sub : SubPolicy} : SubPolicy.of position length = .ok sub → Constructed sub

inductive Obtainable : Policy → Prop where
  | blank : Obtainable Policy.blank
  | of (subs : List (Option SubPolicy)) {policy : Policy} : (∀ sub, some sub ∈ subs → Constructed sub) →
      Policy.of (some subs) = .ok policy → Obtainable policy

structure Sound (policy : Policy) (subs : List SubPolicy) : Prop where
  object : policy = ⟨.ofNat subs.length,some (subs.map some)⟩
  few : subs.length ≤ maxSubPolicies
  signs : ∀ sub ∈ subs, 0 ≤ sub.position.toInt ∧ 0 ≤ sub.length.toInt

theorem Constructed.signs {sub : SubPolicy} (built : Constructed sub) : 0 ≤ sub.position.toInt ∧ 0 ≤ sub.length.toInt := by
  cases built with
  | blank => decide
  | of position length made =>
    unfold SubPolicy.of at made
    split at made
    · cases made
    · rename_i placed
      split at made
      · cases made
      · rename_i sized
        cases made
        rw [Int32.not_lt,Int32.le_iff_toInt_le] at placed sized
        exact ⟨placed,sized⟩

theorem constructor_accepts {position length : Int32} (placed : 0 ≤ position.toInt) (sized : 0 ≤ length.toInt) :
    SubPolicy.of position length = .ok ⟨position,length⟩ := by
  have one : ¬ position < 0 := by rwa [Int32.not_lt,Int32.le_iff_toInt_le]
  have two : ¬ length < 0 := by rwa [Int32.not_lt,Int32.le_iff_toInt_le]
  rw [SubPolicy.of,if_neg one,if_neg two]

theorem policy_of_one (sub : SubPolicy) : Policy.of (some [some sub]) = .ok ⟨1,some [some sub]⟩ := by
  have few : ¬ [some sub].length > maxSubPolicies := show ¬ 1 > maxSubPolicies by decide
  have present : none ∉ [some sub] := by simp
  simp only [Policy.of,if_neg few,if_neg present]
  rfl

theorem all_present {objects : List (Option α)} (present : none ∉ objects) :
    ∃ values : List α, objects = values.map some := by
  induction objects with
  | nil => exact ⟨[],rfl⟩
  | cons object rest ih =>
    obtain ⟨values,rfl⟩ := ih fun member => present (List.mem_cons_of_mem object member)
    cases object with
    | none => exact absurd List.mem_cons_self present
    | some value => exact ⟨value :: values,rfl⟩

theorem Obtainable.sound {policy : Policy} (obtained : Obtainable policy) : ∃ subs, Sound policy subs := by
  cases obtained with
  | blank => exact ⟨[],rfl,Nat.zero_le _,by simp⟩
  | of subs built made =>
    unfold Policy.of at made
    simp only at made
    split at made
    · cases made
    · rename_i few
      split at made
      · cases made
      · rename_i present
        cases made
        obtain ⟨values,rfl⟩ := all_present present
        rw [List.length_map] at few ⊢
        exact ⟨values,rfl,Nat.not_lt.mp few,fun sub member => (built sub (List.mem_map_of_mem member)).signs⟩

-- Past the first test the subtraction cannot wrap.
theorem difference_exact {position inputLength : Int32} (low : 0 ≤ position.toInt)
    (order : position.toInt ≤ inputLength.toInt) :
    (inputLength - position).toInt = inputLength.toInt - position.toInt := by
  have top := inputLength.toInt_lt
  rw [Int32.toInt_sub]
  exact Int.bmod_eq_of_le (by simp; omega) (by simp; omega)

def nativeSub (sub : SubPolicy) : JniSubPolicy := ⟨sub.position,sub.length⟩

theorem validate_each (inputLength : Int32) {subs : List SubPolicy}
    (signs : ∀ sub ∈ subs, 0 ≤ sub.position.toInt ∧ 0 ≤ sub.length.toInt) :
    validateEach inputLength (subs.map some) = .ok () ↔
      ∀ sub ∈ subs, sub.position.toInt + sub.length.toInt ≤ inputLength.toInt := by
  induction subs with
  | nil => simp [validateEach]
  | cons sub rest ih =>
    obtain ⟨position,length⟩ := signs sub List.mem_cons_self
    have others := ih fun other member => signs other (List.mem_cons_of_mem sub member)
    have test : (sub.position > inputLength ∨ sub.length > inputLength - sub.position) ↔
        ¬ sub.position.toInt + sub.length.toInt ≤ inputLength.toInt := by
      simp only [gt_iff_lt,Int32.lt_iff_toInt_lt]
      by_cases past : inputLength.toInt < sub.position.toInt
      · omega
      · rw [difference_exact position (by omega)]
        omega
    rw [List.forall_mem_cons,List.map_cons,validateEach]
    by_cases fits : sub.position.toInt + sub.length.toInt ≤ inputLength.toInt
    · rw [if_neg fun bad => test.mp bad fits,others]
      simp [fits]
    · rw [if_pos (test.mpr fits)]
      simp [fits]

theorem validate_one {position length inputLength : Int32} (placed : 0 ≤ position.toInt) (sized : 0 ≤ length.toInt) :
    Policy.validateForLength ⟨1,some [some ⟨position,length⟩]⟩ inputLength = .ok () ↔
      position.toInt + length.toInt ≤ inputLength.toInt := by
  have signs : ∀ sub ∈ [(⟨position,length⟩ : SubPolicy)], 0 ≤ sub.position.toInt ∧ 0 ≤ sub.length.toInt :=
    List.forall_mem_singleton.mpr ⟨placed,sized⟩
  exact (validate_each inputLength signs).trans List.forall_mem_singleton

-- The invariant of the conversion loop.
structure Filled (subs : List SubPolicy) (i : Nat) (policy : JniPolicy) : Prop where
  declared : policy.subPolicyNum = .ofNat subs.length
  entries : policy.subPolicy.toList.take i = (subs.take i).map nativeSub

theorem convert_step {subs : List SubPolicy} {i : Nat} {before : JniPolicy} (filled : Filled subs i before)
    (bound : i < subs.length) (room : i < maxSubPolicies) :
    ∃ after, convertAt (subs.map some) i before = .ok (.next after) ∧ Filled subs (i+1) after := by
  have item : (subs.map some)[i]? = some (some subs[i]) := by
    rw [List.getElem?_map,List.getElem?_eq_getElem bound]
    rfl
  refine ⟨{before with subPolicy := before.subPolicy.set i (nativeSub subs[i]) room},?_,filled.declared,?_⟩
  · simp only [convertAt,item,setSubPolicy,dif_pos room,ok_bind,pure_ok]
    rfl
  · simp only [Vector.toList_set,List.take_add_one,List.take_set_of_le (Nat.le_refl _),filled.entries]
    rw [List.getElem?_set_self (by rw [Vector.length_toList]; exact room),List.getElem?_eq_getElem bound,List.map_append]
    rfl

theorem converted {policy : Policy} {subs : List SubPolicy} (sound : Sound policy subs) (out : JniPolicy) :
    ∃ native, policyJavaToC (some policy) out = .ok (0,native) ∧ native.subPolicyNum.toInt = subs.length ∧
      active native = subs.map nativeSub := by
  obtain ⟨rfl,few,_⟩ := sound
  have number : (Int32.ofNat subs.length).toInt = subs.length := by
    unfold maxSubPolicies at few
    exact int_ofNat (by omega)
  have start : Filled subs 0 {out with subPolicyNum := .ofNat subs.length} := ⟨rfl,rfl⟩
  obtain ⟨native,ran,filled⟩ := scan_inv (Filled subs) start
    fun i bound before filled => convert_step filled bound (Nat.lt_of_lt_of_le bound few)
  refine ⟨native,?_,by rw [filled.declared,number],?_⟩
  · have known : ¬ (subs.length > maxSubPolicies ∨ (Int32.ofNat subs.length).toInt ≠ (subs.length : Int)) := by
      rw [number]
      omega
    simp only [policyJavaToC,List.length_map,if_neg known,ran,ok_bind,pure_ok]
  · rw [active,filled.declared,number,Int.toNat_natCast,filled.entries,List.take_length]

-- And the native check accepts it by the same inequality; the signs are known.
theorem native_accepts {policy : Policy} {subs : List SubPolicy} (sound : Sound policy subs) (out : JniPolicy) {n : Nat}
    (short : n < 2^31) :
    (∃ native, policyJavaToC (some policy) out = .ok (0,native) ∧ validatePolicy (some native) n = .ok 0) ↔
      ∀ sub ∈ subs, sub.position.toInt + sub.length.toInt ≤ n := by
  obtain ⟨native,ran,number,entries⟩ := converted sound out
  have few := sound.few
  constructor
  · rintro ⟨other,again,valid⟩ sub member
    rw [ran] at again
    cases again
    have accepted := (accepted_iff short).mp valid
    exact (accepted.2.2 (nativeSub sub) (by rw [entries]; exact List.mem_map_of_mem member)).2.2
  · intro inside
    refine ⟨native,ran,(accepted_iff short).mpr ⟨by omega,by omega,fun sub member => ?_⟩⟩
    rw [entries] at member
    obtain ⟨origin,present,rfl⟩ := List.mem_map.mp member
    exact ⟨(sound.signs origin present).1,(sound.signs origin present).2,inside origin present⟩

theorem validate_total (native : JniPolicy) (inlen : Int32) :
    ∃ status, validatePolicy (some native) inlen.toInt = .ok status ∧ (status = 0 ∨ status = -1) := by
  by_cases negative : inlen.toInt < 0
  · exact ⟨-1,by simp only [validatePolicy,negative,true_or,if_true,pure_ok],.inr rfl⟩
  · have top := inlen.toInt_lt
    have size : inlen.toInt = (inlen.toInt.toNat : Int) := (Int.toNat_of_nonneg (Int.not_lt.mp negative)).symm
    rw [size,validate_policy native (by omega)]
    split
    · exact ⟨0,rfl,.inl rfl⟩
    · exact ⟨-1,rfl,.inr rfl⟩

-- The Java check, the native check behind the conversion, and the inequality over
-- the integers are one condition.
theorem checks_agree :
    (∀ policy, Obtainable policy → ∃ subs : List SubPolicy, policy.subPolicy = some (subs.map some) ∧
      ∀ n < 2^31, ∀ out,
        (Policy.validateForLength policy (.ofNat n) = .ok () ↔
          ∃ native, policyJavaToC (some policy) out = .ok (0,native) ∧ validatePolicy (some native) n = .ok 0) ∧
        (Policy.validateForLength policy (.ofNat n) = .ok () ↔
          ∀ sub ∈ subs, sub.position.toInt + sub.length.toInt ≤ n) ∧
        ∀ sub ∈ subs, ¬ sub.position > .ofNat n →
          (Int32.ofNat n - sub.position).toInt = n - sub.position.toInt) ∧
    ∀ (native : JniPolicy) (inlen : Int32),
      ∃ status, validatePolicy (some native) inlen.toInt = .ok status ∧ (status = 0 ∨ status = -1) := by
  refine ⟨fun policy obtained => ?_,validate_total⟩
  obtain ⟨subs,sound⟩ := obtained.sound
  refine ⟨subs,by rw [sound.object],fun n short out => ?_⟩
  have size := int_ofNat short
  have java : Policy.validateForLength policy (.ofNat n) = .ok () ↔
      ∀ sub ∈ subs, sub.position.toInt + sub.length.toInt ≤ n := by
    rw [sound.object,← size]
    exact validate_each _ sound.signs
  refine ⟨java.trans (native_accepts sound out short).symm,java,fun sub member order => ?_⟩
  rw [gt_iff_lt,Int32.lt_iff_toInt_lt,size] at order
  rw [difference_exact (sound.signs sub member).1 (by omega),size]

-- The greatest position and length, where their sum would wrap.
theorem checks_agree_greatest : ∃ policy, Policy.of (some [some ⟨2147483647,2147483647⟩]) = .ok policy ∧
    (Policy.validateForLength policy (.ofNat 5) = .ok () ↔
      ∃ native, policyJavaToC (some policy) emptyPolicy = .ok (0,native) ∧ validatePolicy (some native) 5 = .ok 0) := by
  have built : ∀ sub, some sub ∈ [some (⟨2147483647,2147483647⟩ : SubPolicy)] → Constructed sub := by
    intro sub member
    obtain rfl : sub = ⟨2147483647,2147483647⟩ := by simpa using member
    exact .of 2147483647 2147483647 (by decide)
  obtain ⟨subs,_,agree⟩ := checks_agree.1 _ (.of _ built rfl)
  exact ⟨_,rfl,(agree 5 (by decide) emptyPolicy).1⟩

end TeradataCpt.PolicyChecks
