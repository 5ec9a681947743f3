import TeradataCpt.Formats
import TeradataCpt.JavaApi

namespace TeradataCpt.Utf8Safety
open CSemantics RangePatches Cpt CptJni JavaApi Fields Policies Formats

theorem keeps_twin {m : CptMode} (text : m ≠ .cptChar) {a b : UInt8} (keeps : Keeps m a b) : Utf8.Twin a b := by
  by_cases inside : InAlphabet m a
  · have image := keeps.inside inside
    refine .inl ?_
    cases m with
    | cptChar => exact absurd rfl text
    | cptInt => exact ⟨UInt8.lt_of_le_of_lt inside.2 (by decide),UInt8.lt_of_le_of_lt image.2 (by decide)⟩
    | cptAsc => exact ⟨UInt8.lt_of_le_of_lt inside.2 (by decide),UInt8.lt_of_le_of_lt image.2 (by decide)⟩
  · exact .inr (keeps.outside inside).symm

theorem preserves_twins {m : CptMode} (text : m ≠ .cptChar) {x y : List UInt8} (preserves : Preserves m x y) :
    List.Forall₂ Utf8.Twin y x := by
  refine List.forall₂_iff_get.mpr ⟨preserves.length,fun i inY inX => ?_⟩
  obtain ⟨b,value,keeps⟩ := preserves.bytes i x[i] (List.getElem?_eq_getElem inX)
  obtain rfl : y[i] = b := Option.some.inj ((List.getElem?_eq_getElem inY).symm.trans value)
  exact (keeps_twin text keeps).symm

structure SameText (x y : List UInt8) : Prop where
  wellFormed : Utf8.WellFormed y ↔ Utf8.WellFormed x
  boundaries : ∀ cs, Utf8.encode cs = x → ∃ ds, Utf8.encode ds = y ∧ ds.map Char.utf8Size = cs.map Char.utf8Size

theorem same_text {m : CptMode} (text : m ≠ .cptChar) {x y : List UInt8} (preserves : Preserves m x y) :
    SameText x y := by
  have twins := preserves_twins text preserves
  refine ⟨Utf8.twins_wellFormed twins,?_⟩
  rintro cs rfl
  exact Utf8.twins_encode twins

theorem stored_iff (utf8 : Utf8Decoder) (bytes : List UInt8) :
    getBytesUtf8 (utf8.newString bytes) = bytes ↔ Utf8.WellFormed bytes := by
  constructor
  · intro same
    exact ⟨_,same⟩
  · rintro ⟨cs,rfl⟩
    rw [getBytesUtf8,utf8.encoded,Utf16.scalars_encode]

theorem image_inverse (inkey : Nat) (m : CptMode) (encrypting : Bool) (x : List UInt8) :
    image inkey m (!encrypting) (image inkey m encrypting x) = x := by
  cases encrypting with
  | true => exact (cipher inkey m).symm_apply_apply x
  | false => exact (cipher inkey m).apply_symm_apply x

-- Either operation over a whole field, or over the ranges of a policy that may cut
-- through characters, and the other one after the text went through a String.
theorem text_column_safe (utf8 : Utf8Decoder) (k : UInt64) {m : CptMode} (text : m ≠ .cptChar) (encrypting : Bool)
    (x : List UInt8) :
    (∃ y, transformBytes .reliable k.toNat m encrypting x = .ok y ∧ SameText x y ∧
      (Utf8.WellFormed x → getBytesUtf8 (utf8.newString y) = y ∧
        transformBytes .reliable k.toNat m (!encrypting) (getBytesUtf8 (utf8.newString y)) = .ok x)) ∧
    ∀ policy, x.length < 2^31 → validatePolicy (some policy) x.length = .ok 0 →
      ∃ y, policyRun .reliable policy k.toNat m encrypting x = .ok (0,y) ∧ SameText x y ∧
        (Utf8.WellFormed x → getBytesUtf8 (utf8.newString y) = y ∧
          ((ranges policy).Pairwise Range.Disjoint →
            policyRun .reliable policy k.toNat m (!encrypting) (getBytesUtf8 (utf8.newString y)) = .ok (0,x))) := by
  refine ⟨?_,fun policy short valid => ?_⟩
  · have same := same_text text (image_preserves k.toNat m encrypting x)
    refine ⟨_,transform_run .reliable k.toNat m reliable_serves encrypting x,same,fun formed => ?_⟩
    have stored := (stored_iff utf8 _).mpr (same.wellFormed.mpr formed)
    refine ⟨stored,?_⟩
    rw [stored,transform_run .reliable k.toNat m reliable_serves,image_inverse]
  · have accepted := (accepted_iff short).mp valid
    have same := same_text text (patched_preserves k.toNat m encrypting accepted)
    refine ⟨_,policy_reliable short accepted k.toNat m encrypting,same,fun formed => ?_⟩
    have stored := (stored_iff utf8 _).mpr (same.wellFormed.mpr formed)
    refine ⟨stored,fun apart => ?_⟩
    have keeps := image_length k.toNat m encrypting
    have length := patchAll_length keeps (ranges_fit accepted)
    have restored := patchAll_inverse keeps (image_length k.toNat m (!encrypting)) (image_inverse k.toNat m encrypting)
      (ranges_fit accepted) (settled_of_disjoint apart)
    rw [stored,policy_reliable (by omega) (by rwa [length]),restored]

-- The range [2,4) begins inside the first character.
theorem cut_column_safe : ∃ y,
    policyRun .reliable ⟨1,#v[⟨2,2⟩,⟨0,0⟩,⟨0,0⟩,⟨0,0⟩,⟨0,0⟩]⟩ (0 : UInt64).toNat .cptInt true [0xE4,0xB8,0xAD,0x31] =
      .ok (0,y) ∧ SameText [0xE4,0xB8,0xAD,0x31] y ∧ getBytesUtf8 (wholeTextDecoder.newString y) = y ∧
    policyRun .reliable ⟨1,#v[⟨2,2⟩,⟨0,0⟩,⟨0,0⟩,⟨0,0⟩,⟨0,0⟩]⟩ (0 : UInt64).toNat .cptInt false
      (getBytesUtf8 (wholeTextDecoder.newString y)) = .ok (0,[0xE4,0xB8,0xAD,0x31]) := by
  have formed : Utf8.WellFormed [0xE4,0xB8,0xAD,0x31] := ⟨['中','1'],by decide⟩
  have safe := (text_column_safe wholeTextDecoder 0 (m := .cptInt) (by decide) true [0xE4,0xB8,0xAD,0x31]).2
  obtain ⟨y,ran,same,stored⟩ := safe ⟨1,#v[⟨2,2⟩,⟨0,0⟩,⟨0,0⟩,⟨0,0⟩,⟨0,0⟩]⟩ (by decide) (by decide +kernel)
  exact ⟨y,ran,same,(stored formed).1,(stored formed).2 (by decide +kernel)⟩

end TeradataCpt.Utf8Safety
