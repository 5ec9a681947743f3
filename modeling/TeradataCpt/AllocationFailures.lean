import TeradataCpt.Policies

namespace TeradataCpt.AllocationFailures
open CSemantics RangePatches Cpt CptJni Passes Policies

def failing (pattern : Nat → Bool) : Machine := ⟨pattern,0,false⟩

def Rejected (instr ckey outstr : Pointer) (policy : Option JniPolicy) (inlen : Nat) : Prop :=
  instr = none ∨ ckey = none ∨ outstr = none ∨ validatePolicy policy inlen = .ok (-1)

structure FailsFirst (pattern : Nat → Bool) (policy : JniPolicy) (i : Nat) : Prop where
  within : i < policy.subPolicyNum.toInt.toNat
  refused : ¬ Served (failing pattern) i
  served : ∀ j < i, Served (failing pattern) j

def shortened (policy : JniPolicy) (i : Nat) : JniPolicy := {policy with subPolicyNum := Int32.ofNat i}

theorem exists_failsFirst {pattern : Nat → Bool} {policy : JniPolicy}
    (fails : ∃ i < policy.subPolicyNum.toInt.toNat, ¬ Served (failing pattern) i) : ∃ i, FailsFirst pattern policy i := by
  obtain ⟨i,within,refused⟩ := fails
  induction i using Nat.strong_induction_on with
  | _ i ih =>
    by_cases earlier : ∃ j < i, ¬ Served (failing pattern) j
    · obtain ⟨j,before,first⟩ := earlier
      exact ih j before (by omega) first
    · exact ⟨i,within,refused,fun j before => Classical.not_not.mp fun first => earlier ⟨j,before,first⟩⟩

theorem FailsFirst.unique {pattern : Nat → Bool} {policy : JniPolicy} {i j : Nat} (one : FailsFirst pattern policy i)
    (two : FailsFirst pattern policy j) : i = j := by
  rcases Nat.lt_trichotomy i j with before | same | after
  · exact absurd (two.served i before) one.refused
  · exact same
  · exact absurd (one.served j after) two.refused

section Shortened
variable {policy : JniPolicy} {n i : Nat} (accepted : Accepts policy n) (within : i ≤ (active policy).length)
include accepted within

theorem active_shortened : active (shortened policy i) = (active policy).take i := by
  have length := active_length accepted.2.1
  have few := accepted.2.1
  unfold maxSubPolicies at few
  have number : (shortened policy i).subPolicyNum.toInt.toNat = i := by
    rw [shortened,int_ofNat (by omega),Int.toNat_natCast]
  rw [active,active,number,List.take_take,Nat.min_eq_left (by omega)]
  rfl

theorem ranges_shortened : ranges (shortened policy i) = (ranges policy).take i := by
  rw [ranges,active_shortened accepted within,ranges,List.map_take]

theorem accepts_shortened : Accepts (shortened policy i) n := by
  have length := active_length accepted.2.1
  have few := accepted.2.1
  unfold maxSubPolicies at few
  have number : (shortened policy i).subPolicyNum.toInt = i := int_ofNat (by omega)
  refine ⟨by omega,by rw [number]; unfold maxSubPolicies; omega,fun sub member => ?_⟩
  rw [active_shortened accepted within] at member
  exact accepted.2.2 sub (List.mem_of_mem_take member)

end Shortened

theorem rejected_run {machine : Machine} {encrypting : Bool} {memory : Memory} {instr ckey outstr : Pointer}
    {policy : Option JniPolicy} {n : Nat} {m : CptMode} (rejected : Rejected instr ckey outstr policy n) :
    multiOf machine encrypting memory instr n policy ckey m outstr = .ok (-1,memory) := by
  obtain ⟨first,second,loops⟩ : ∃ first second, multiOf machine encrypting = multiSubPolicy machine first second := by
    cases encrypting <;> exact ⟨_,_,rfl⟩
  rw [loops]
  rcases rejected with rfl | rfl | rfl | invalid
  · rfl
  · cases instr <;> rfl
  · cases instr <;> cases ckey <;> rfl
  · cases instr with
    | none => rfl
    | some instr =>
      cases ckey with
      | none => rfl
      | some ckey =>
        cases outstr with
        | none => rfl
        | some outstr =>
          simp only [multiSubPolicy,invalid,ok_bind]
          rfl

theorem not_rejected {instr ckey outstr : Pointer} {policy : Option JniPolicy} {n : Nat} (short : n < 2^31)
    (fine : ¬ Rejected instr ckey outstr policy n) :
    (∃ object, instr = some object) ∧ (∃ object, ckey = some object) ∧ (∃ object, outstr = some object) ∧
      ∃ p, policy = some p ∧ Accepts p n := by
  simp only [Rejected,not_or] at fine
  obtain ⟨one,two,three,valid⟩ := fine
  refine ⟨Option.ne_none_iff_exists'.mp one,Option.ne_none_iff_exists'.mp two,Option.ne_none_iff_exists'.mp three,?_⟩
  cases policy with
  | none => exact absurd rfl valid
  | some p =>
    refine ⟨p,rfl,?_⟩
    by_contra refused
    exact valid (by rw [validate_policy p short,if_neg refused])

section Calls
variable {m : CptMode} {table : List UInt8} (full : table.length = m.len) (pattern : Nat → Bool) (encrypting : Bool)
  {memory : Memory} {instr ckey outstr : Nat} {x : List UInt8} (key : Holds (memory ckey) table) (apart : ckey ≠ outstr)
  (input : Holds (memory instr) x) (room : x.length ≤ (memory outstr).length) (short : x.length < 2^31)
  {policy : JniPolicy} (accepted : Accepts policy x.length)
include full key apart input room short accepted

-- The call stops before the first round without memory, where the shortened policy ends.
theorem out_of_memory {i : Nat} (first : FailsFirst pattern policy i) : ∃ after,
    multiOf (failing pattern) encrypting memory (some instr) x.length (some policy) (some ckey) m (some outstr) =
      .ok (-1,after) ∧
    multiOf .reliable encrypting memory (some instr) x.length (some (shortened policy i)) (some ckey) m (some outstr) =
      .ok (0,after) ∧
    ∀ object, object ≠ outstr → after object = memory object := by
  have fits : Fits (failing pattern) m table := reliable_fits m table
  have bound : i < (active policy).length := by
    rw [active_length accepted.2.1]
    exact first.within
  have ran := multi_of_outcome full fits encrypting key apart input room short policy accepted i (Nat.le_of_lt bound)
    first.served fun _ => first.refused
  have whole := multi_of_whole full (reliable_fits m table) encrypting key apart input room short (shortened policy i)
    reliable_serves
  rw [if_pos bound] at ran
  rw [if_pos (accepts_shortened accepted (Nat.le_of_lt bound)),ranges_shortened accepted (Nat.le_of_lt bound)] at whole
  exact ⟨_,ran,whole,fun object other => holding_else memory other _⟩

theorem enough_memory (served : ∀ i < policy.subPolicyNum.toInt.toNat, Served (failing pattern) i) : ∃ after,
    multiOf (failing pattern) encrypting memory (some instr) x.length (some policy) (some ckey) m (some outstr) =
      .ok (0,after) ∧
    ∀ object, object ≠ outstr → after object = memory object := by
  have fits : Fits (failing pattern) m table := reliable_fits m table
  have ran := multi_of_outcome full fits encrypting key apart input room short policy accepted _ (Nat.le_refl _)
    (by rwa [active_length accepted.2.1]) fun past => absurd past (Nat.lt_irrefl _)
  rw [if_neg (Nat.lt_irrefl _)] at ran
  exact ⟨_,ran,fun object other => holding_else memory other _⟩

end Calls

-- A call that runs out of memory leaves what a call with the ranges before would
-- leave; any other -1 leaves everything as it was.
theorem failure_keeps_finished_ranges (encrypting : Bool) {m : CptMode} {table : List UInt8} (full : table.length = m.len)
    (pattern : Nat → Bool) {memory : Memory} {instr ckey outstr : Pointer} {x : List UInt8}
    (key : ∀ object, ckey = some object → Holds (memory object) table)
    (input : ∀ object, instr = some object → Holds (memory object) x)
    (room : ∀ object, outstr = some object → x.length ≤ (memory object).length)
    (fresh : ∀ object, ckey = some object → outstr ≠ some object) (short : x.length < 2^31)
    (policy : Option JniPolicy) :
    ∃ status after, multiOf (failing pattern) encrypting memory instr x.length policy ckey m outstr = .ok (status,after) ∧
      (status = 0 ∨ status = -1) ∧
      (status = -1 ↔ Rejected instr ckey outstr policy x.length ∨
        ∃ p ∈ policy, ∃ i < p.subPolicyNum.toInt.toNat, ¬ Served (failing pattern) i) ∧
      (∀ object, outstr ≠ some object → after object = memory object) ∧
      (Rejected instr ckey outstr policy x.length → after = memory) ∧
      (¬ Rejected instr ckey outstr policy x.length → ∀ p ∈ policy, ∀ i, FailsFirst pattern p i →
        multiOf .reliable encrypting memory instr x.length (some (shortened p i)) ckey m outstr = .ok (0,after)) := by
  by_cases rejected : Rejected instr ckey outstr policy x.length
  · exact ⟨-1,memory,rejected_run rejected,.inr rfl,⟨fun _ => .inl rejected,fun _ => rfl⟩,fun _ _ => rfl,fun _ => rfl,
      fun fine => absurd rejected fine⟩
  · obtain ⟨⟨instr,rfl⟩,⟨ckey,rfl⟩,⟨outstr,rfl⟩,p,rfl,accepted⟩ := not_rejected short rejected
    have apart : ckey ≠ outstr := fun same => fresh ckey rfl (congrArg some same.symm)
    have target : ∀ object, some outstr ≠ some object → object ≠ outstr :=
      fun object other same => other (congrArg some same.symm)
    by_cases fails : ∃ i < p.subPolicyNum.toInt.toNat, ¬ Served (failing pattern) i
    · obtain ⟨i,first⟩ := exists_failsFirst fails
      obtain ⟨after,ran,kept,elsewhere⟩ := out_of_memory full pattern encrypting (key ckey rfl) apart (input instr rfl)
        (room outstr rfl) short accepted first
      refine ⟨-1,after,ran,.inr rfl,⟨fun _ => .inr ⟨p,rfl,fails⟩,fun _ => rfl⟩,
        fun object other => elsewhere object (target object other),fun refuses => absurd refuses rejected,?_⟩
      intro _ q same j other
      cases same
      obtain rfl := first.unique other
      exact kept
    · have served : ∀ i < p.subPolicyNum.toInt.toNat, Served (failing pattern) i := by
        intro i bound
        by_contra refused
        exact fails ⟨i,bound,refused⟩
      obtain ⟨after,ran,elsewhere⟩ := enough_memory full pattern encrypting (key ckey rfl) apart (input instr rfl)
        (room outstr rfl) short accepted served
      refine ⟨0,after,ran,.inl rfl,⟨fun zero => absurd zero (by decide),?_⟩,
        fun object other => elsewhere object (target object other),fun refuses => absurd refuses rejected,?_⟩
      · rintro (refuses | ⟨q,same,failed⟩)
        · exact absurd refuses rejected
        · cases same
          exact absurd failed fails
      · intro _ q same j other
        cases same
        exact absurd ⟨j,other.within,other.refused⟩ fails

theorem failure_keeps_first_range :
    ∃ status after, multiOf (failing fun call => call < 3) true (callMemory [0x31,0x32] (tableIT.map some) (zeros 3))
        (some 0) 2 (some ⟨2,#v[⟨0,1⟩,⟨1,1⟩,⟨0,0⟩,⟨0,0⟩,⟨0,0⟩]⟩) (some 1) .cptInt (some 2) = .ok (status,after) ∧
      status = -1 ∧
      multiOf .reliable true (callMemory [0x31,0x32] (tableIT.map some) (zeros 3)) (some 0) 2
        (some (shortened ⟨2,#v[⟨0,1⟩,⟨1,1⟩,⟨0,0⟩,⟨0,0⟩,⟨0,0⟩]⟩ 1)) (some 1) .cptInt (some 2) = .ok (0,after) := by
  have key : ∀ object, some 1 = some object →
      Holds (callMemory [0x31,0x32] (tableIT.map some) (zeros 3) object) tableIT := by
    rintro object ⟨⟩
    exact map_some_holds tableIT
  have input : ∀ object, some 0 = some object →
      Holds (callMemory [0x31,0x32] (tableIT.map some) (zeros 3) object) [0x31,0x32] := by
    rintro object ⟨⟩
    exact map_some_holds [0x31,0x32]
  have room : ∀ object, some 2 = some object →
      2 ≤ (callMemory [0x31,0x32] (tableIT.map some) (zeros 3) object).length := by
    rintro object ⟨⟩
    decide
  have fails : FailsFirst (fun call => call < 3) ⟨2,#v[⟨0,1⟩,⟨1,1⟩,⟨0,0⟩,⟨0,0⟩,⟨0,0⟩]⟩ 1 :=
    ⟨by decide,by decide,by decide⟩
  have fine : ¬ Rejected (some 0) (some 1) (some 2) (some ⟨2,#v[⟨0,1⟩,⟨1,1⟩,⟨0,0⟩,⟨0,0⟩,⟨0,0⟩]⟩) 2 := by
    rintro (none | none | none | invalid)
    · cases none
    · cases none
    · cases none
    · exact absurd invalid (by decide +kernel)
  obtain ⟨status,after,ran,_,failed,_,_,kept⟩ := failure_keeps_finished_ranges true (m := .cptInt) (by decide)
    (fun call => call < 3) key input room (by rintro object ⟨⟩; decide) (by decide)
    (some ⟨2,#v[⟨0,1⟩,⟨1,1⟩,⟨0,0⟩,⟨0,0⟩,⟨0,0⟩]⟩)
  exact ⟨status,after,ran,failed.mpr (.inr ⟨_,rfl,1,fails.within,fails.refused⟩),kept fine _ rfl 1 fails⟩

-- With no memory at all a zeroed output ends up with the digit it was to hide.
theorem plaintext_left_behind :
    ∃ after, multiOf (failing fun _ => false) true (callMemory [0x31] (tableIT.map some) (zeros 2)) (some 0) 1
        (some ⟨1,#v[⟨0,1⟩,⟨0,0⟩,⟨0,0⟩,⟨0,0⟩,⟨0,0⟩]⟩) (some 1) .cptInt (some 2) = .ok (-1,after) ∧
      after 2 = [some 0x31,some 0] ∧ after 2 ≠ callMemory [0x31] (tableIT.map some) (zeros 2) 2 := by
  have ran : (multiOf (failing fun _ => false) true (callMemory [0x31] (tableIT.map some) (zeros 2)) (some 0) 1
      (some ⟨1,#v[⟨0,1⟩,⟨0,0⟩,⟨0,0⟩,⟨0,0⟩,⟨0,0⟩]⟩) (some 1) .cptInt (some 2)).map (fun result => (result.1,result.2 2)) =
      .ok (-1,[some 0x31,some 0]) := by decide +kernel
  cases result : multiOf (failing fun _ => false) true (callMemory [0x31] (tableIT.map some) (zeros 2)) (some 0) 1
      (some ⟨1,#v[⟨0,1⟩,⟨0,0⟩,⟨0,0⟩,⟨0,0⟩,⟨0,0⟩]⟩) (some 1) .cptInt (some 2) with
  | error fault => rw [result] at ran; cases ran
  | ok pair =>
    obtain ⟨status,after⟩ := pair
    rw [result] at ran
    simp only [Except.map,Except.ok.injEq,Prod.mk.injEq] at ran
    obtain ⟨rfl,left⟩ := ran
    exact ⟨after,rfl,left,by rw [left]; decide⟩

end TeradataCpt.AllocationFailures
