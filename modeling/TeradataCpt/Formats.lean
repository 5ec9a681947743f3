import TeradataCpt.Policies

namespace TeradataCpt.Formats
open CSemantics ChainedPasses RangePatches Cpt CptJni Passes KeyTables FieldCipher Fields Policies

-- The alphabets as the documentation lists them.
def InAlphabet : CptMode → UInt8 → Prop
  | .cptChar,byte => 0x21 ≤ byte ∧ byte ≤ 0xff
  | .cptInt,byte => 0x30 ≤ byte ∧ byte ≤ 0x39
  | .cptAsc,byte => 0x21 ≤ byte ∧ byte ≤ 0x7e

theorem inAlphabet_iff {m : CptMode} {byte : UInt8} : InAlphabet m byte ↔ outside m byte = false := by
  have top := byte.toNat_lt
  rw [outside_false]
  cases m <;> simp only [InAlphabet,CptMode.offset,CptMode.len,cOffset,iOffset,aOffset,clen,ilen,alen,
    UInt8.le_iff_toNat_le] <;> simp <;> omega

-- What a byte may become: outside the alphabet itself, inside it another of it.
structure Keeps (m : CptMode) (a b : UInt8) : Prop where
  outside : ¬ InAlphabet m a → b = a
  inside : InAlphabet m a → InAlphabet m b

theorem keeps_iff {m : CptMode} {a b : UInt8} :
    Keeps m a b ↔ (outside m a = true → b = a) ∧ (outside m a = false → outside m b = false) := by
  constructor
  · rintro ⟨away,stays⟩
    simp only [inAlphabet_iff,Bool.not_eq_false] at away stays
    exact ⟨away,stays⟩
  · rintro ⟨away,stays⟩
    refine ⟨?_,?_⟩ <;> simp only [inAlphabet_iff,Bool.not_eq_false]
    · exact away
    · exact stays

theorem Keeps.refl (m : CptMode) (a : UInt8) : Keeps m a a := ⟨fun _ => rfl,id⟩

theorem Keeps.trans {m : CptMode} {a b c : UInt8} (first : Keeps m a b) (second : Keeps m b c) : Keeps m a c := by
  refine ⟨fun away => ?_,fun inside => second.inside (first.inside inside)⟩
  have same := first.outside away
  rw [same] at second
  exact second.outside away

theorem Keeps.zero {m : CptMode} {a b : UInt8} (keeps : Keeps m a b) : a = 0 ↔ b = 0 := by
  have nul : ¬ InAlphabet m 0 := by
    rw [inAlphabet_iff]
    cases m <;> decide
  constructor
  · rintro rfl
    exact keeps.outside nul
  · rintro rfl
    by_cases inside : InAlphabet m a
    · exact absurd (keeps.inside inside) nul
    · exact (keeps.outside inside).symm

theorem code_inside {m : CptMode} {byte : UInt8} {i : Fin m.len} (coded : code m byte = .inl i) :
    outside m byte = false := by
  cases away : outside m byte with
  | false => rfl
  | true =>
    rw [code_outside away] at coded
    cases coded

theorem encryptStep_keeps (m : CptMode) (perm : Equiv.Perm (Fin m.len)) (prev : Option UInt8) (byte : UInt8) :
    Keeps m byte (encryptStep m (tableOf m perm) prev byte) := by
  simp only [keeps_iff]
  cases away : outside m byte with
  | true => simp [encryptStep,away]
  | false =>
    obtain ⟨i,rfl⟩ := inside_byteOf away
    have coded := encrypt_code m perm prev (byteOf m i)
    rw [code_byteOf] at coded
    exact ⟨Bool.noConfusion,fun _ => code_inside coded⟩

theorem decryptStep_keeps (m : CptMode) (perm : Equiv.Perm (Fin m.len)) (prev : Option UInt8) (byte : UInt8) :
    Keeps m byte (decryptStep m (tableOf m perm.symm) prev byte) := by
  simp only [keeps_iff]
  cases away : outside m byte with
  | true => simp [decryptStep,away]
  | false =>
    obtain ⟨i,rfl⟩ := inside_byteOf away
    have coded := decrypt_code m perm prev (byteOf m i)
    rw [code_byteOf] at coded
    exact ⟨Bool.noConfusion,fun _ => code_inside coded⟩

theorem image_keeps (inkey : Nat) (m : CptMode) (encrypting : Bool) (x : List UInt8) (i : Nat) (a : UInt8)
    (item : x[i]? = some a) : ∃ b, (image inkey m encrypting x)[i]? = some b ∧ Keeps m a b := by
  cases encrypting with
  | true =>
    obtain ⟨p,q,value⟩ := encipher_at (encryptStep m (tableOf m (keyPerm inkey m))) item
    exact ⟨_,value,(encryptStep_keeps m _ p a).trans (encryptStep_keeps m _ q _)⟩
  | false =>
    obtain ⟨p,q,value⟩ := decipher_at (decryptStep m (tableOf m (keyPerm inkey m).symm)) item
    exact ⟨_,value,(decryptStep_keeps m _ p a).trans (decryptStep_keeps m _ q _)⟩

-- As many bytes, each kept in its class, and zero exactly where it was zero.
structure Preserves (m : CptMode) (x y : List UInt8) : Prop where
  length : y.length = x.length
  bytes : ∀ (i : Nat) (a : UInt8), x[i]? = some a → ∃ b, y[i]? = some b ∧ Keeps m a b
  nul : ∀ i : Nat, x[i]? = some 0 ↔ y[i]? = some 0

theorem preserves_of_keeps {m : CptMode} {x y : List UInt8} (length : y.length = x.length)
    (bytes : ∀ (i : Nat) (a : UInt8), x[i]? = some a → ∃ b, y[i]? = some b ∧ Keeps m a b) : Preserves m x y := by
  refine ⟨length,bytes,fun i => ?_⟩
  cases item : x[i]? with
  | none =>
    have past := List.getElem?_eq_none_iff.mp item
    rw [List.getElem?_eq_none (by omega)]
  | some a =>
    obtain ⟨b,value,keeps⟩ := bytes i a item
    rw [value,Option.some.injEq,Option.some.injEq]
    exact keeps.zero

theorem Keeps.wider {m m' : CptMode} (wider : ∀ b, InAlphabet m b → InAlphabet m' b) {a b : UInt8}
    (keeps : Keeps m a b) : Keeps m' a b := by
  refine ⟨fun away => keeps.outside fun inside => away (wider a inside),fun inside => ?_⟩
  by_cases within : InAlphabet m a
  · exact wider b (keeps.inside within)
  · rwa [keeps.outside within]

theorem Preserves.wider {m m' : CptMode} (wider : ∀ b, InAlphabet m b → InAlphabet m' b) {x y : List UInt8}
    (preserves : Preserves m x y) : Preserves m' x y := by
  refine preserves_of_keeps preserves.length fun i a item => ?_
  obtain ⟨b,value,keeps⟩ := preserves.bytes i a item
  exact ⟨b,value,keeps.wider wider⟩

theorem Preserves.refl (m : CptMode) (x : List UInt8) : Preserves m x x :=
  preserves_of_keeps rfl fun _ a item => ⟨a,item,Keeps.refl m a⟩

theorem Preserves.trans {m : CptMode} {x y z : List UInt8} (first : Preserves m x y) (second : Preserves m y z) :
    Preserves m x z := by
  refine preserves_of_keeps (second.length.trans first.length) fun i a item => ?_
  obtain ⟨b,middle,keeps⟩ := first.bytes i a item
  obtain ⟨c,value,keeps'⟩ := second.bytes i b middle
  exact ⟨c,value,keeps.trans keeps'⟩

theorem image_preserves (inkey : Nat) (m : CptMode) (encrypting : Bool) (x : List UInt8) :
    Preserves m x (image inkey m encrypting x) :=
  preserves_of_keeps (image_length inkey m encrypting x) (image_keeps inkey m encrypting x)

theorem patched_preserves (inkey : Nat) (m : CptMode) (encrypting : Bool) {x : List UInt8} {policy : JniPolicy}
    (accepted : Accepts policy x.length) :
    Preserves m x (patchAll (image inkey m encrypting) x (ranges policy)) := by
  have keeps := image_length inkey m encrypting
  have fits := ranges_fit accepted
  refine preserves_of_keeps (patchAll_length keeps fits) fun i a item => ?_
  exact patchAll_related keeps (Keeps.refl m) (image_keeps inkey m encrypting) fits item

-- With a table of init_ckey each of the four operations writes the bytes of such a
-- result, and but for the terminator of the first two nothing else.
theorem format_preserved (k : UInt64) (m : CptMode) (encrypting : Bool) :
    ∃ table, initCkey .reliable k.toNat m (keyModeOf encrypting) (List.replicate clen none) = .ok table ∧
      (∀ (x : List UInt8) (outstr : Cells UInt8), x.length < outstr.length →
        ∃ y, passOf .reliable encrypting (x.map some) x.length table m outstr = .ok (written outstr (y ++ [0])) ∧
          Preserves m x y) ∧
      ∀ (policy : JniPolicy) (x : List UInt8) (outstr : Cells UInt8), x.length < 2^31 →
        validatePolicy (some policy) x.length = .ok 0 → x.length ≤ outstr.length →
        ∃ y, multiOf .reliable encrypting (callMemory x table outstr) (some 0) x.length (some policy) (some 1) m
            (some 2) = .ok (0,callMemory x table (written outstr y)) ∧ Preserves m x y := by
  have key := written_holds (List.replicate clen none) (keyTable k.toNat m encrypting)
  refine ⟨_,key_table_run .reliable k.toNat m reliable_serves encrypting,?_,?_⟩
  · intro x outstr room
    have computes := image_computes .reliable k.toNat m reliable_serves encrypting key
    exact ⟨_,computes.run outstr (map_some_holds x) room,image_preserves k.toNat m encrypting x⟩
  · intro policy x outstr short valid room
    have accepted := (accepted_iff short).mp valid
    have ran := call_run .reliable reliable_serves policy k.toNat m encrypting short key room
    rw [if_pos accepted] at ran
    exact ⟨_,ran,patched_preserves k.toNat m encrypting accepted⟩

end TeradataCpt.Formats
