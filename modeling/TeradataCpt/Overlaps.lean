import TeradataCpt.Library.RangeOverlaps
import TeradataCpt.Policies

namespace TeradataCpt.Overlaps
open CSemantics ChainedPasses BarrierCipher RangePatches RangeOverlaps Cpt CptJni Passes KeyTables FieldCipher Fields
open Policies

theorem nul_outside (m : CptMode) : outside m 0 = true := by cases m <;> decide

theorem image_isolates (inkey : Nat) (m : CptMode) (encrypting : Bool) :
    Isolates (image inkey m encrypting) 0 :=
  ⟨image_length inkey m encrypting,image_barrier inkey encrypting (nul_outside m)⟩

instance (m : CptMode) : Nontrivial (Fin m.len) := Fin.nontrivial_iff_two_le.mpr (by cases m <;> decide)

theorem cipher_word (inkey : Nat) (m : CptMode) (word out : List (Fin m.len))
    (coded : encipher (lock (B := UInt8) (keyPerm inkey m)) (word.map .inl) = out.map .inl) :
    cipher inkey m (word.map (byteOf m)) = out.map (byteOf m) := by
  apply (code_injective m).list_map
  rw [cipher_code,coded_word,coded_word,coded]

theorem recovered_word (inkey : Nat) (m : CptMode) (word : List (Fin m.len)) (i : Nat) (g : Fin m.len)
    (recovered : ((cipher inkey m).symm (word.map (byteOf m)))[i]? = some (byteOf m g)) :
    (decipher (unlock (B := UInt8) (keyPerm inkey m)) (word.map .inl))[i]? = some (.inl g) := by
  rw [← coded_word,← cipher_symm_code,List.getElem?_map,recovered]
  simp

theorem left_loses (inkey : Nat) (m : CptMode) : ∃ a b alone left right : UInt8,
    cipher inkey m [a] = [alone] ∧ cipher inkey m [a,b] = [left,right] ∧
      ((cipher inkey m).symm [alone,right])[1]? ≠ some b := by
  obtain ⟨a,b,alone,left,right,single,pair,lost⟩ := left_overwritten (B := UInt8) (keyPerm inkey m)
  exact ⟨byteOf m a,byteOf m b,byteOf m alone,byteOf m left,byteOf m right,cipher_word inkey m [a] [alone] single,
    cipher_word inkey m [a,b] [left,right] pair,fun recovered => lost (recovered_word inkey m [alone,right] 1 b recovered)⟩

theorem right_loses (inkey : Nat) (m : CptMode) : ∃ a b alone left right : UInt8,
    cipher inkey m [b] = [alone] ∧ cipher inkey m [a,b] = [left,right] ∧
      ((cipher inkey m).symm [left,alone])[0]? ≠ some a := by
  obtain ⟨a,b,alone,left,right,single,pair,lost⟩ := right_overwritten (B := UInt8) (keyPerm inkey m)
  exact ⟨byteOf m a,byteOf m b,byteOf m alone,byteOf m left,byteOf m right,cipher_word inkey m [b] [alone] single,
    cipher_word inkey m [a,b] [left,right] pair,fun recovered => lost (recovered_word inkey m [left,alone] 0 a recovered)⟩

def policyRoundTrip (policy : JniPolicy) (k : UInt64) (m : CptMode) (x : List UInt8) :
    Except Fault (Int × List UInt8) := do
  let (status,y) ← policyRun .reliable policy k.toNat m true x
  if status ≠ 0 then return (status,y)
  else policyRun .reliable policy k.toNat m false y

theorem round_trip_run {policy : JniPolicy} {x : List UInt8} (short : x.length < 2^31)
    (accepted : Accepts policy x.length) (k : UInt64) (m : CptMode) :
    policyRoundTrip policy k m x = .ok (0,patchAll (cipher k.toNat m).symm
      (patchAll (cipher k.toNat m) x (ranges policy)) (ranges policy)) := by
  have length := patchAll_length (image_length k.toNat m true) (ranges_fit accepted)
  simp only [policyRoundTrip,policy_reliable short accepted,ok_bind,ne_eq,not_true,if_false]
  exact policy_reliable (by omega) (by rwa [length]) k.toNat m false

-- No policy is refused for its overlaps. What an accepted one loses depends on
-- nothing but its ranges: each has to be overwritten wholly by later ones or not at all.
theorem round_trip_iff_settled (k : UInt64) (m : CptMode) {policy : JniPolicy} {n : Nat} (short : n < 2^31)
    (valid : validatePolicy (some policy) n = .ok 0) :
    (∀ x, x.length = n → ∃ z, policyRoundTrip policy k m x = .ok (0,z)) ∧
      ((∀ x, x.length = n → policyRoundTrip policy k m x = .ok (0,x)) ↔ Settled (ranges policy)) := by
  have accepted := (accepted_iff short).mp valid
  have fits := ranges_fit accepted
  refine ⟨?_,?_,?_⟩
  · rintro x rfl
    exact ⟨_,round_trip_run short accepted k m⟩
  · intro restores
    by_contra unsettled
    obtain ⟨x,rfl,lost⟩ := unsettled_loses (image_isolates k.toNat m true) (image_isolates k.toNat m false)
      (left_loses k.toNat m) (right_loses k.toNat m) fits unsettled
    have ran := round_trip_run short accepted k m
    rw [restores x rfl] at ran
    exact lost (Prod.mk.inj (Except.ok.inj ran)).2.symm
  · rintro settled x rfl
    rw [round_trip_run short accepted k m]
    have restored := patchAll_inverse (image_length k.toNat m true) (image_length k.toNat m false)
      (cipher k.toNat m).symm_apply_apply fits settled
    exact congrArg (fun z => Except.ok (0,z)) restored

theorem adjacent_round_trip :
    (∀ x : List UInt8, x.length = 3 → ∃ z,
      policyRoundTrip ⟨2,#v[⟨0,2⟩,⟨2,1⟩,⟨0,0⟩,⟨0,0⟩,⟨0,0⟩]⟩ 0 .cptInt x = .ok (0,z)) ∧
    ((∀ x : List UInt8, x.length = 3 →
      policyRoundTrip ⟨2,#v[⟨0,2⟩,⟨2,1⟩,⟨0,0⟩,⟨0,0⟩,⟨0,0⟩]⟩ 0 .cptInt x = .ok (0,x)) ↔
        Settled (ranges ⟨2,#v[⟨0,2⟩,⟨2,1⟩,⟨0,0⟩,⟨0,0⟩,⟨0,0⟩]⟩)) :=
  round_trip_iff_settled 0 .cptInt (by decide) (by decide +kernel)

-- [0,2) and [1,3) with key 0: the digits 123 come back as 723.
theorem overlap_loses_digit : ¬ ∀ (k : UInt64) (m : CptMode) (policy : JniPolicy) (x : List UInt8),
    x.length < 2^31 → validatePolicy (some policy) x.length = .ok 0 → policyRoundTrip policy k m x = .ok (0,x) := by
  intro restores
  have digits := restores 0 .cptInt ⟨2,#v[⟨0,2⟩,⟨1,2⟩,⟨0,0⟩,⟨0,0⟩,⟨0,0⟩]⟩ [0x31,0x32,0x33] (by decide) (by decide +kernel)
  have lost : policyRoundTrip ⟨2,#v[⟨0,2⟩,⟨1,2⟩,⟨0,0⟩,⟨0,0⟩,⟨0,0⟩]⟩ 0 .cptInt [0x31,0x32,0x33] =
      .ok (0,[0x37,0x32,0x33]) := by decide +kernel
  rw [lost] at digits
  exact absurd (Except.ok.inj digits) (by decide)

end TeradataCpt.Overlaps
