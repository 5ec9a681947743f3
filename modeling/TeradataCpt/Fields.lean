import Mathlib.Data.Set.Card
import TeradataCpt.CptJni
import TeradataCpt.FieldCipher

namespace TeradataCpt.Fields
open CSemantics ChainedPasses BarrierCipher Cpt CptJni Passes KeyTables FieldCipher

-- What ct_encrypt computes under a key; its inverse is what ct_decrypt computes.
noncomputable def cipher (inkey : Nat) (m : CptMode) : List UInt8 ≃ List UInt8 where
  toFun := encipher (encryptStep m (tableOf m (keyPerm inkey m)))
  invFun := decipher (decryptStep m (tableOf m (keyPerm inkey m).symm))
  left_inv := by
    intro x
    apply (code_injective m).list_map
    rw [decipher_code (decrypt_code m _),encipher_code (encrypt_code m _),decipher_encipher (unlock_lock _)]
  right_inv := by
    intro x
    apply (code_injective m).list_map
    rw [encipher_code (encrypt_code m _),decipher_code (decrypt_code m _),encipher_decipher (lock_unlock _)]

theorem cipher_code (inkey : Nat) (m : CptMode) (x : List UInt8) :
    (cipher inkey m x).map (code m) = encipher (lock (keyPerm inkey m)) (x.map (code m)) :=
  encipher_code (encrypt_code m _) x

theorem cipher_symm_code (inkey : Nat) (m : CptMode) (x : List UInt8) :
    ((cipher inkey m).symm x).map (code m) = decipher (unlock (keyPerm inkey m)) (x.map (code m)) :=
  decipher_code (decrypt_code m _) x

theorem ckey_room (m : CptMode) : m.len ≤ (List.replicate clen (none : Option UInt8)).length := by
  rw [List.length_replicate]
  cases m <;> decide

noncomputable def image (inkey : Nat) (m : CptMode) : Bool → List UInt8 ≃ List UInt8
  | true => cipher inkey m
  | false => (cipher inkey m).symm

noncomputable def keyTable (inkey : Nat) (m : CptMode) : Bool → List UInt8
  | true => tableOf m (keyPerm inkey m)
  | false => tableOf m (keyPerm inkey m).symm

theorem image_eq (inkey : Nat) (m : CptMode) (encrypting : Bool) :
    ⇑(image inkey m encrypting) = fieldMap m (keyTable inkey m encrypting) encrypting := by
  cases encrypting <;> rfl

theorem image_length (inkey : Nat) (m : CptMode) (encrypting : Bool) (x : List UInt8) :
    (image inkey m encrypting x).length = x.length := by
  cases encrypting with
  | true => exact encipher_length _ x
  | false => exact decipher_length _ x

theorem keyTable_length (inkey : Nat) (m : CptMode) (encrypting : Bool) :
    (keyTable inkey m encrypting).length = m.len := by
  cases encrypting <;> exact tableOf_length m _

theorem keyTable_fits (machine : Machine) (inkey : Nat) (m : CptMode) (encrypting : Bool) :
    Fits machine m (keyTable inkey m encrypting) := by
  cases encrypting <;> exact table_fits machine m _

section Runs
variable (machine : Machine) (inkey : Nat) (m : CptMode) (available : ∀ call, machine.mallocOk call = true)
include available

theorem key_table_run (encrypting : Bool) :
    initCkey machine inkey m (keyModeOf encrypting) (List.replicate clen none) =
      .ok (written (List.replicate clen none) (keyTable inkey m encrypting)) := by
  cases encrypting with
  | true => exact init_encrypt machine inkey available (ckey_room m)
  | false => exact init_decrypt machine inkey available (ckey_room m)

theorem image_computes {ckey : Cells UInt8} (encrypting : Bool) (key : Holds ckey (keyTable inkey m encrypting)) :
    Computes (passOf machine encrypting) ckey m (image inkey m encrypting) := by
  rw [image_eq]
  exact pass_computes available key (keyTable_length inkey m _) (keyTable_fits machine inkey m _) encrypting

theorem transform_run (encrypting : Bool) (x : List UInt8) :
    transformBytes machine inkey m encrypting x = .ok (image inkey m encrypting x) := by
  have later : ∀ call, (machine.after 2).mallocOk call = true := fun call => available (2 + call)
  have computes := image_computes (machine.after 2) inkey m later encrypting (written_holds (List.replicate clen none) _)
  have loaded := computes.loaded (zeros (x.length+1)) (map_some_holds x) (by simp [zeros])
  simp only [transformBytes,key_table_run machine inkey m available,ok_bind]
  cases encrypting <;> exact loaded

end Runs

theorem encrypt_reliable (inkey : Nat) (m : CptMode) (x : List UInt8) :
    transformBytes .reliable inkey m true x = .ok (cipher inkey m x) :=
  transform_run .reliable inkey m (fun _ => rfl) true x

theorem decrypt_reliable (inkey : Nat) (m : CptMode) (x : List UInt8) :
    transformBytes .reliable inkey m false x = .ok ((cipher inkey m).symm x) :=
  transform_run .reliable inkey m (fun _ => rfl) false x

theorem mode_accepted (m : CptMode) : validMode (modeValue m) = true ∧ CptMode.ofInt (modeValue m).toInt = m := by
  cases m <;> decide

theorem transform_accepted (host : Host) (x : List UInt8) (key : Int64) (m : CptMode) (encrypting : Bool) :
    transform .reliable host (some x) key (modeValue m) encrypting =
      .ok (image (unsignedLong host key) m encrypting x) := by
  obtain ⟨valid,mode⟩ := mode_accepted m
  simp only [transform,valid,mode,if_true,transform_run .reliable _ m (fun _ => rfl) encrypting x]
  rfl

-- Encryption and decryption undo each other, so they are two inverse permutations
-- of the byte strings of each length.
theorem full_field_round_trip (k : UInt64) (m : CptMode) :
    (∀ x, (transformBytes .reliable k.toNat m true x >>= transformBytes .reliable k.toNat m false) = .ok x) ∧
    (∀ y, (transformBytes .reliable k.toNat m false y >>= transformBytes .reliable k.toNat m true) = .ok y) ∧
    ∃ permutation : List UInt8 ≃ List UInt8, ∀ x, (permutation x).length = x.length ∧
      transformBytes .reliable k.toNat m true x = .ok (permutation x) ∧
      transformBytes .reliable k.toNat m false x = .ok (permutation.symm x) := by
  refine ⟨?_,?_,cipher k.toNat m,?_⟩
  · intro x
    simp only [encrypt_reliable,decrypt_reliable,ok_bind,Equiv.symm_apply_apply]
  · intro y
    simp only [encrypt_reliable,decrypt_reliable,ok_bind,Equiv.apply_symm_apply]
  · intro x
    exact ⟨image_length k.toNat m true x,encrypt_reliable k.toNat m x,decrypt_reliable k.toNat m x⟩

-- Strings inside the alphabet already tell two keys apart.
theorem cross_decrypts_iff (one two : Nat) (m : CptMode) :
    (∀ x, (cipher two m).symm (cipher one m x) = x) ↔ one ≡ two [MOD (Finset.Icc 1 m.len).lcm id] := by
  rw [← keyPerm_eq_iff,← unlocks_iff (B := UInt8)]
  constructor
  · intro opens xs
    have opened := congrArg (List.map (code m)) (opens (xs.map (byteOf m)))
    rwa [cipher_symm_code,cipher_code,coded_word] at opened
  · intro opens x
    have same := (unlocks_iff (B := UInt8) _ _).mp opens
    have equal : cipher one m = cipher two m := by unfold cipher; simp only [same]
    rw [equal,Equiv.symm_apply_apply]

theorem cipher_eq_iff (one two : Nat) (m : CptMode) :
    cipher one m = cipher two m ↔ one ≡ two [MOD (Finset.Icc 1 m.len).lcm id] := by
  rw [← cross_decrypts_iff]
  constructor
  · intro equal x
    rw [equal,Equiv.symm_apply_apply]
  · intro opens
    ext1 x
    rw [← opens x,Equiv.apply_symm_apply,opens x]

theorem encryptStep_barrier {m : CptMode} (table : List UInt8) {byte : UInt8} (away : outside m byte = true) :
    Barrier (encryptStep m table) byte :=
  ⟨fun p => by simp [encryptStep,away],fun a => by simp [encryptStep,away]⟩

theorem decryptStep_barrier {m : CptMode} (table : List UInt8) {byte : UInt8} (away : outside m byte = true) :
    Barrier (decryptStep m table) byte :=
  ⟨fun p => by simp [decryptStep,away],fun a => by simp [decryptStep,away]⟩

theorem image_barrier (inkey : Nat) {m : CptMode} (encrypting : Bool) {byte : UInt8} (away : outside m byte = true)
    (x y : List UInt8) : image inkey m encrypting (x ++ byte :: y) =
      image inkey m encrypting x ++ byte :: image inkey m encrypting y := by
  cases encrypting with
  | true => exact encipher_barrier (encryptStep_barrier _ away) x y
  | false => exact decipher_barrier (decryptStep_barrier _ away) x y

-- Which keys the alphabet sizes can tell apart at all.
theorem digits_period : (Finset.Icc 1 CptMode.cptInt.len).lcm id = 2520 := by decide +kernel
theorem text_period (m : CptMode) (text : m ≠ .cptInt) : 2^64 < (Finset.Icc 1 m.len).lcm id := by
  cases m with
  | cptInt => exact absurd rfl text
  | cptChar => decide +kernel
  | cptAsc => decide +kernel

theorem text_modEq {m : CptMode} (text : m ≠ .cptInt) {one two : Nat} (oneBound : one < 2^64) (twoBound : two < 2^64) :
    one ≡ two [MOD (Finset.Icc 1 m.len).lcm id] ↔ one = two := by
  have period := text_period m text
  constructor
  · intro congruent
    exact Nat.ModEq.eq_of_lt_of_lt congruent (Nat.lt_trans oneBound period) (Nat.lt_trans twoBound period)
  · rintro rfl
    rfl

theorem digits_ciphers : Set.ncard (Set.range fun k : UInt64 => cipher k.toNat .cptInt) = 2520 := by
  have residues : (Set.range fun k : UInt64 => cipher k.toNat .cptInt) =
      (cipher · .cptInt) '' (Finset.range 2520 : Set Nat) := by
    ext f
    constructor
    · rintro ⟨k,rfl⟩
      refine ⟨k.toNat % 2520,by simpa using Nat.mod_lt _ (by decide),?_⟩
      rw [cipher_eq_iff,digits_period]
      exact Nat.mod_modEq _ _
    · rintro ⟨n,member,rfl⟩
      have bound : n < 2520 := by simpa using member
      refine ⟨UInt64.ofNat n,?_⟩
      simp only [UInt64.toNat_ofNat']
      rw [Nat.mod_eq_of_lt (by omega)]
  have injective : Set.InjOn (cipher · .cptInt) (Finset.range 2520 : Set Nat) := by
    intro one first two second equal
    simp only [cipher_eq_iff,digits_period] at equal
    exact Nat.ModEq.eq_of_lt_of_lt equal (by simpa using first) (by simpa using second)
  rw [residues,injective.ncard_image,Set.ncard_coe_finset,Finset.card_range]

theorem opens_iff (m : CptMode) (k1 k2 : UInt64) :
    (∀ x, (transformBytes .reliable k1.toNat m true x >>= transformBytes .reliable k2.toNat m false) = .ok x) ↔
      k1.toNat ≡ k2.toNat [MOD (Finset.Icc 1 m.len).lcm id] := by
  simp only [← cross_decrypts_iff,encrypt_reliable,decrypt_reliable,ok_bind,Except.ok.injEq]

theorem text_keys {m : CptMode} (text : m ≠ .cptInt) (k1 k2 : UInt64) :
    k1.toNat ≡ k2.toNat [MOD (Finset.Icc 1 m.len).lcm id] ↔ k2 = k1 := by
  rw [text_modEq text k1.toNat_lt k2.toNat_lt,UInt64.toNat_inj,eq_comm]

theorem encryptions_ncard (m : CptMode) :
    Set.ncard (Set.range fun k : UInt64 => transformBytes .reliable k.toNat m true) =
      Set.ncard (Set.range fun k : UInt64 => cipher k.toNat m) := by
  have ran : (fun k : UInt64 => transformBytes .reliable k.toNat m true) =
      (fun f : List UInt8 ≃ List UInt8 => fun x => (.ok (f x) : Except Fault (List UInt8))) ∘
        fun k : UInt64 => cipher k.toNat m := by
    funext k x
    exact encrypt_reliable k.toNat m x
  have injective : Function.Injective
      fun f : List UInt8 ≃ List UInt8 => fun x => (.ok (f x) : Except Fault (List UInt8)) := by
    intro f g same
    ext1 x
    exact Except.ok.inj (congrFun same x)
  rw [ran,Set.range_comp,Set.ncard_image_of_injective _ injective]

theorem interchangeable_keys :
    (∀ (m : CptMode) (k1 k2 : UInt64),
      ((∀ x, (transformBytes .reliable k1.toNat m true x >>= transformBytes .reliable k2.toNat m false) = .ok x) ↔
        k1.toNat ≡ k2.toNat [MOD (Finset.Icc 1 m.len).lcm id]) ∧
      (m ≠ .cptInt →
        ((∀ x, (transformBytes .reliable k1.toNat m true x >>= transformBytes .reliable k2.toNat m false) = .ok x) ↔
          k2 = k1))) ∧
    Set.ncard (Set.range fun k : UInt64 => transformBytes .reliable k.toNat .cptInt true) = 2520 := by
  refine ⟨fun m k1 k2 => ⟨opens_iff m k1 k2,fun text => ?_⟩,?_⟩
  · rw [opens_iff,text_keys text]
  · rw [encryptions_ncard,digits_ciphers]

end TeradataCpt.Fields
