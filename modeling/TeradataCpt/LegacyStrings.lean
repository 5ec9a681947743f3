import TeradataCpt.PolicyApi
import TeradataCpt.StringApis

namespace TeradataCpt.LegacyStrings
open CSemantics RangePatches Cpt CptJni JavaApi Fields Policies PolicyChecks Safety PolicyApi StringApis

-- What is left of a String on its way to bytes and back: without containCn only
-- ISO-8859-1, with it all but unpaired surrogates.
def carried (s : JavaString) (containCn : Bool) : JavaString :=
  if containCn then Utf16.repair 0xFFFD s else newStringLatin1 (getBytesLatin1 s)

theorem replacement_mark : Utf16.encodeChar (Char.ofNat 0xFFFD) = [0xFFFD] := by decide

theorem repaired_formed (s : JavaString) : Utf16.WellFormed (Utf16.repair 0xFFFD s) :=
  ⟨Utf16.scalars (Char.ofNat 0xFFFD) s,Utf16.encode_scalars replacement_mark s⟩

theorem legacy_text (utf16 : Utf16Decoder) {s : JavaString} {containCn : Bool}
    (plain : containCn = true → 0xFFFE ∉ Utf16.repair 0xFFFD s) :
    legacyText utf16 (legacyBytes s containCn) containCn = carried s containCn := by
  cases containCn with
  | false => rfl
  | true =>
    cases s with
    | nil => exact utf16.empty
    | cons u s =>
      have bytes : legacyBytes (u :: s) true = 0xFE :: 0xFF :: Utf16.bytes (Utf16.repair 0xFFFD (u :: s)) := by
        simp [legacyBytes,getBytesUtf16]
      rw [bytes]
      exact utf16.marked _ (repaired_formed _) (plain rfl)

theorem latin1_iff (s : JavaString) : newStringLatin1 (getBytesLatin1 s) = s ↔ ∀ u ∈ s, u ≤ 0xFF := by
  constructor
  · intro same u member
    rw [← same] at member
    exact latin1_small _ u member
  · intro small
    induction s with
    | nil => rfl
    | cons u rest ih =>
      have low := small u List.mem_cons_self
      have single : Utf16.isHigh u = false := by
        rw [UInt16.le_iff_toNat_le] at low
        simp only [UInt16.reduceToNat] at low
        simp only [Utf16.isHigh,Bool.and_eq_false_iff,decide_eq_false_iff_not]
        omega
      have top := u.toNat_lt
      have byte : UInt16.ofNat (latin1Byte u).toNat = u := by
        have bound := UInt16.le_iff_toNat_le.mp low
        simp only [UInt16.reduceToNat] at bound
        rw [latin1Byte,if_pos low,UInt8.toNat_ofNat',Nat.mod_eq_of_lt (by omega),UInt16.ofNat_toNat]
      rw [getBytesLatin1_cons single,newStringLatin1,List.map_cons,byte]
      exact congrArg _ (ih fun v inside => small v (List.mem_cons_of_mem u inside))

section Methods
variable {jvm : Jvm} (available : ∀ call, jvm.machine.mallocOk call = true) (utf16 : Utf16Decoder) (key : Int64)
include available

theorem native_field (mod : Int8) (encrypting : Bool) (x : List UInt8) :
    transform jvm.machine jvm.host (some x) key mod encrypting =
      if validMode mod then .ok (image (unsignedLong jvm.host key) (.ofInt mod.toInt) encrypting x)
      else .error (illegalArgument "mode must be 0, 1, or 2") := by
  simp only [transform,transform_run jvm.machine _ _ available encrypting x]
  split
  · rfl
  · rfl

theorem string_there {mod : Int8} (valid : validMode mod = true) (s : JavaString) (containCn : Bool) :
    encryptString jvm (some s) key mod containCn =
      .ok (newStringLatin1 (cipher (unsignedLong jvm.host key) (.ofInt mod.toInt) (legacyBytes s containCn))) := by
  simp only [encryptString,native_field available,if_pos valid,ok_bind,pure_ok,image]

theorem string_back {mod : Int8} (valid : validMode mod = true) (bytes : List UInt8) (containCn : Bool) :
    decryptString jvm utf16 (some (newStringLatin1 bytes)) key mod containCn =
      .ok (legacyText utf16 ((cipher (unsignedLong jvm.host key) (.ofInt mod.toInt)).symm bytes) containCn) := by
  simp only [decryptString,native_field available,if_pos valid,ok_bind,pure_ok,image,latin1_round_trip]

end Methods

-- A policy on the legacy methods: no check of the lengths in Java, so that a range past
-- the bytes is refused by the native one, for both directions.
section Ranges
variable {jvm : Jvm} (available : ∀ call, jvm.machine.mallocOk call = true) (utf16 : Utf16Decoder) {policy : Policy}
  {subs : List SubPolicy} (sound : Sound policy subs) (key : Int64) {mod : Int8} (valid : validMode mod = true)
include available sound valid

theorem ranges_there {s : JavaString} {containCn : Bool} (short : (legacyBytes s containCn).length < 2^31)
    (fits : subs.find? (past (legacyBytes s containCn).length) = none)
    (taken : ¬ (legacyBytes s containCn = [] ∧ jvm.host.emptyNull)) :
    multiSubPolicyEncryptString jvm (some s) (some policy) key mod containCn =
      .ok (newStringLatin1 (patchAll (cipher (unsignedLong jvm.host key) (.ofInt mod.toInt)) (legacyBytes s containCn)
        (subs.map subRange))) := by
  have native := native_answer available sound short key mod true
  simp only [valid,fits,taken,if_true,ne_eq,not_true_eq_false,or_self,if_false] at native
  simp only [multiSubPolicyEncryptString,native,ok_bind,pure_ok,image]

theorem ranges_back {bytes : List UInt8} (containCn : Bool) (short : bytes.length < 2^31)
    (fits : subs.find? (past bytes.length) = none) (taken : ¬ (bytes = [] ∧ jvm.host.emptyNull)) :
    multiSubPolicyDecryptString jvm utf16 (some (newStringLatin1 bytes)) (some policy) key mod containCn =
      .ok (legacyText utf16 (patchAll (cipher (unsignedLong jvm.host key) (.ofInt mod.toInt)).symm bytes
        (subs.map subRange)) containCn) := by
  have native := native_answer available sound short key mod false
  simp only [valid,fits,taken,if_true,ne_eq,not_true_eq_false,or_self,if_false] at native
  simp only [multiSubPolicyDecryptString,latin1_round_trip,native,ok_bind,pure_ok,image]

end Ranges

theorem alone {f : List UInt8 → List UInt8} (keeps : ∀ x, (f x).length = x.length) (b : UInt8) :
    f [b] = [(f [b]).headD 0] := by
  obtain ⟨c,single⟩ := List.length_eq_one_iff.mp (keeps [b])
  rw [single]
  rfl

noncomputable def letter (inkey : Nat) (m : CptMode) : Equiv.Perm UInt8 where
  toFun b := (cipher inkey m [b]).headD 0
  invFun b := ((cipher inkey m).symm [b]).headD 0
  left_inv := by
    intro b
    have forth : cipher inkey m [b] = [(cipher inkey m [b]).headD 0] := alone (image_length inkey m true) b
    dsimp only
    rw [← forth,Equiv.symm_apply_apply]
    rfl
  right_inv := by
    intro b
    have back : (cipher inkey m).symm [b] = [((cipher inkey m).symm [b]).headD 0] := alone (image_length inkey m false) b
    dsimp only
    rw [← back,Equiv.apply_symm_apply]
    rfl

theorem letter_alone (inkey : Nat) (m : CptMode) (b : UInt8) : cipher inkey m [b] = [letter inkey m b] :=
  alone (image_length inkey m true) b

-- A zero byte cuts the field before each letter of ISO-8859-1.
theorem letters_apart (inkey : Nat) (m : CptMode) (front : List UInt8) {s : JavaString} (small : ∀ u ∈ s, u ≤ 0xFF) :
    cipher inkey m (front ++ Utf16.bytes s) =
      cipher inkey m front ++ s.flatMap fun u => [0,letter inkey m (UInt8.ofNat u.toNat)] := by
  induction s generalizing front with
  | nil => simp [Utf16.bytes]
  | cons u s ih =>
    have low := UInt16.le_iff_toNat_le.mp (small u List.mem_cons_self)
    simp only [UInt16.reduceToNat] at low
    have high : UInt8.ofNat (u.toNat / 256) = 0 := by
      rw [show u.toNat / 256 = 0 by omega]
      rfl
    have value : u.toNat % 256 = u.toNat := by omega
    have cut := image_barrier inkey true (Overlaps.nul_outside m) front (UInt8.ofNat u.toNat :: Utf16.bytes s)
    have rest := ih [UInt8.ofNat u.toNat] fun v member => small v (List.mem_cons_of_mem u member)
    rw [letter_alone] at rest
    rw [Utf16.bytes_cons,high,value,List.flatMap_cons]
    exact cut.trans (congrArg (cipher inkey m front ++ 0 :: ·) rest)

-- With containCn such a text is no longer chained, in any mode: after the two bytes of
-- the mark each letter is replaced by itself, by one permutation for the whole column.
theorem legacy_codebook (jvm : Jvm) (available : ∀ call, jvm.machine.mallocOk call = true) (key : Int64) (m : CptMode) :
    ∃ (mark : List UInt8) (substitute : Equiv.Perm UInt8), mark.length = 2 ∧
      ∀ s : JavaString, s ≠ [] → (∀ u ∈ s, u ≤ 0xFF) →
        encryptString jvm (some s) key (modeValue m) true =
          .ok (newStringLatin1 (mark ++ s.flatMap fun u => [0,substitute (UInt8.ofNat u.toNat)])) := by
  refine ⟨cipher (unsignedLong jvm.host key) m [0xFE,0xFF],letter (unsignedLong jvm.host key) m,
    image_length _ m true [0xFE,0xFF],fun s some small => ?_⟩
  obtain ⟨valid,mode⟩ := mode_accepted m
  have formed : Utf16.repair 0xFFFD s = s := by
    refine (Utf16.repair_iff replacement_mark s).mpr ?_
    rw [← (latin1_iff s).mpr small]
    exact latin1_wellFormed _
  have bytes : legacyBytes s true = [0xFE,0xFF] ++ Utf16.bytes s := by
    simp [legacyBytes,getBytesUtf16,some,formed]
  rw [string_there available key valid,bytes,mode,letters_apart _ _ _ small]

theorem legacy_codebook_ones : ∃ (mark : List UInt8) (one : UInt8), mark.length = 2 ∧
    encryptString ⟨.reliable,.lp64,wholeTextDecoder⟩ (some [0x31,0x31]) 7 (modeValue .cptInt) true =
      .ok (newStringLatin1 (mark ++ [0,one,0,one])) := by
  obtain ⟨mark,substitute,length,coded⟩ := legacy_codebook ⟨.reliable,.lp64,wholeTextDecoder⟩ (fun _ => rfl) 7 .cptInt
  refine ⟨mark,_,length,coded [0x31,0x31] (by simp) fun u member => ?_⟩
  obtain rfl : u = 0x31 := by simpa using member
  decide

end TeradataCpt.LegacyStrings
