import TeradataCpt.Propagation

namespace TeradataCpt.Barriers
open CSemantics RangePatches Runs Cpt CptJni Fields Policies Formats Propagation

-- An entry whose two ints are these numbers, and a policy with one such entry for
-- each range; what stands behind the declared entries is open.
def Names (sub : JniSubPolicy) (r : Range) : Prop := sub.position.toInt = r.start ∧ sub.length.toInt = r.length

def entryOf (r : Range) : JniSubPolicy := ⟨Int32.ofNat r.start,Int32.ofNat r.length⟩

structure OnePerRange (policy : JniPolicy) (rs : List Range) : Prop where
  number : policy.subPolicyNum.toInt = rs.length
  entries : List.Forall₂ Names (active policy) rs

theorem Names.range {sub : JniSubPolicy} {r : Range} (names : Names sub r) : rangeOf sub = r := by
  simp [rangeOf,names.1,names.2]

theorem OnePerRange.ranges {policy : JniPolicy} {rs : List Range} (each : OnePerRange policy rs) : ranges policy = rs := by
  have equal : List.Forall₂ (fun r s => r = s) ((active policy).map rangeOf) rs := by
    rw [List.forall₂_map_left_iff]
    exact each.entries.imp fun _ _ => Names.range
  rwa [List.forall₂_eq_eq_eq] at equal

theorem OnePerRange.accepts {policy : JniPolicy} {rs : List Range} {n : Nat} (each : OnePerRange policy rs)
    (few : rs.length ≤ maxSubPolicies) (fits : ∀ r ∈ rs, r.Fits n) : Accepts policy n := by
  have number := each.number
  refine ⟨by omega,by omega,fun sub member => ?_⟩
  obtain ⟨i,bound,rfl⟩ := List.mem_iff_getElem.mp member
  have length := each.entries.length_eq
  have names : Names (active policy)[i] rs[i] := each.entries.get bound (by omega)
  have inside := fits rs[i] (List.getElem_mem _)
  obtain ⟨position,size⟩ := names
  unfold Range.Fits at inside
  unfold Within
  omega

theorem one_per_range {rs : List Range} {n : Nat} (short : n < 2^31) (few : rs.length ≤ maxSubPolicies)
    (fits : ∀ r ∈ rs, r.Fits n) : ∃ policy, OnePerRange policy rs := by
  have subs : (rs.map entryOf).length = rs.length := List.length_map _
  refine ⟨policyOf (rs.map entryOf),?_,?_⟩
  · rw [policyOf,subs,int_ofNat (by unfold maxSubPolicies at few; omega)]
  · rw [active_policyOf (by omega),List.forall₂_map_left_iff,List.forall₂_same]
    intro r member
    have inside := fits r member
    unfold Range.Fits at inside
    exact ⟨int_ofNat (by omega),int_ofNat (by omega)⟩

-- Every byte outside the alphabet cuts a field in two, so the ranges between such
-- bytes, in whatever order, are all there is to transform.
theorem barriers_split_fields (k : UInt64) (m : CptMode) (encrypting : Bool) :
    (∀ x y b, ¬ InAlphabet m b → ∃ u v, transformBytes .reliable k.toNat m encrypting x = .ok u ∧
      transformBytes .reliable k.toNat m encrypting y = .ok v ∧
      transformBytes .reliable k.toNat m encrypting (x ++ [b] ++ y) = .ok (u ++ [b] ++ v)) ∧
    ∀ x rs, x.length < 2^31 → rs.length ≤ maxSubPolicies → (∀ r, r ∈ rs ↔ IsRun (outside m) x r) →
      (∃ policy, OnePerRange policy rs) ∧ ∀ policy, OnePerRange policy rs →
        ∃ y, transformBytes .reliable k.toNat m encrypting x = .ok y ∧
          policyRun .reliable policy k.toNat m encrypting x = .ok (0,y) := by
  refine ⟨fun x y b away => ?_,fun x rs short few runs => ?_⟩
  · rw [inAlphabet_iff,Bool.not_eq_false] at away
    refine ⟨_,_,transform_run .reliable k.toNat m reliable_serves encrypting x,
      transform_run .reliable k.toNat m reliable_serves encrypting y,?_⟩
    rw [transform_run .reliable k.toNat m reliable_serves,List.append_assoc,List.singleton_append,
      image_barrier k.toNat encrypting away,List.append_assoc,List.singleton_append]
  · have fits : ∀ r ∈ rs, r.Fits x.length := fun r member => ((runs r).mp member).fits
    refine ⟨one_per_range short few fits,fun policy each =>
      ⟨_,transform_run .reliable k.toNat m reliable_serves encrypting x,?_⟩⟩
    have patched := patched_runs (image_splits k.toNat m encrypting) (fun r member => (runs r).mp member)
      fun r run => (runs r).mpr run
    rw [policy_reliable short (each.accepts few fits),each.ranges,patched]

theorem barriers_split_letters :
    (∃ u v, transformBytes .reliable (123 : UInt64).toNat .cptInt true [0x31,0x32] = .ok u ∧
      transformBytes .reliable (123 : UInt64).toNat .cptInt true [0x33] = .ok v ∧
      transformBytes .reliable (123 : UInt64).toNat .cptInt true [0x31,0x32,0x61,0x33] = .ok (u ++ [0x61] ++ v)) ∧
    ∃ y, transformBytes .reliable (123 : UInt64).toNat .cptInt true [0x31,0x32,0x61,0x33] = .ok y ∧
      policyRun .reliable ⟨2,#v[⟨3,1⟩,⟨0,2⟩,⟨0,0⟩,⟨0,0⟩,⟨0,0⟩]⟩ (123 : UInt64).toNat .cptInt true
        [0x31,0x32,0x61,0x33] = .ok (0,y) := by
  obtain ⟨split,each⟩ := barriers_split_fields 123 .cptInt true
  have inside : ∀ start < 5, ∀ length < 5, IsRun (outside .cptInt) [0x31,0x32,0x61,0x33] ⟨start,length⟩ →
      (⟨start,length⟩ : Range) ∈ [⟨3,1⟩,⟨0,2⟩] := by decide +kernel
  have runs : ∀ r : Range, r ∈ [⟨3,1⟩,⟨0,2⟩] ↔ IsRun (outside .cptInt) [0x31,0x32,0x61,0x33] r := by
    intro r
    constructor
    · intro member
      simp only [List.mem_cons,List.not_mem_nil,or_false] at member
      rcases member with rfl | rfl <;> decide
    · intro run
      have bound : r.start + r.length ≤ 4 := run.fits
      exact inside r.start (by omega) r.length (by omega) run
  refine ⟨split [0x31,0x32] [0x33] 0x61 fun member => absurd member.2 (by decide),?_⟩
  exact (each _ _ (by decide) (by decide) runs).2 _
    ⟨by decide,.cons ⟨by decide,by decide⟩ (.cons ⟨by decide,by decide⟩ .nil)⟩

end TeradataCpt.Barriers
