import TeradataCpt.Policies

namespace TeradataCpt.Platforms
open CSemantics Cpt CptJni KeyTables FieldCipher Fields

theorem unsigned_bound (key : Int64) : unsignedLong .lp64 key < 2^64 ∧ unsignedLong .llp64 key < 2^64 := by
  simp only [unsignedLong,Host.lp64,Host.llp64]
  omega

def HighHalfFree : CptMode → Int64 → Prop
  | .cptInt,key => 315 ∣ key.toInt % 2^64 / 2^32
  | .cptChar,key => 0 ≤ key.toInt ∧ key.toInt < 2^32
  | .cptAsc,key => 0 ≤ key.toInt ∧ key.toInt < 2^32

theorem unsigned_split (key : Int64) :
    (unsignedLong .lp64 key : Int) = 2^32 * (key.toInt % 2^64 / 2^32) + unsignedLong .llp64 key := by
  simp only [unsignedLong,Host.lp64,Host.llp64]
  omega

theorem text_free (key : Int64) {m : CptMode} (text : m ≠ .cptInt) :
    unsignedLong .lp64 key ≡ unsignedLong .llp64 key [MOD (Finset.Icc 1 m.len).lcm id] ↔
      0 ≤ key.toInt ∧ key.toInt < 2^32 := by
  obtain ⟨wide,narrow⟩ := unsigned_bound key
  have low := key.le_toInt
  have high := key.toInt_lt
  rw [text_modEq text wide narrow]
  simp only [unsignedLong,Host.lp64,Host.llp64]
  omega

theorem digits_free (key : Int64) :
    unsignedLong .lp64 key ≡ unsignedLong .llp64 key [MOD (Finset.Icc 1 CptMode.cptInt.len).lcm id] ↔
      315 ∣ key.toInt % 2^64 / 2^32 := by
  have apart : (unsignedLong .llp64 key : Int) - unsignedLong .lp64 key = -(2^32 * (key.toInt % 2^64 / 2^32)) := by
    rw [unsigned_split]
    omega
  rw [digits_period,Nat.modEq_iff_dvd,apart]
  generalize key.toInt % 2^64 / 2^32 = half
  omega

theorem highHalfFree_iff (key : Int64) (m : CptMode) : HighHalfFree m key ↔
    unsignedLong .lp64 key ≡ unsignedLong .llp64 key [MOD (Finset.Icc 1 m.len).lcm id] := by
  cases m with
  | cptInt => exact (digits_free key).symm
  | cptChar => exact (text_free key (by decide)).symm
  | cptAsc => exact (text_free key (by decide)).symm

-- What one JAR for all platforms promises of a key and a mode.
structure Independent (key : Int64) (m : CptMode) : Prop where
  tables : ∀ encrypting, initCkey .reliable (unsignedLong .lp64 key) m (keyModeOf encrypting) (List.replicate clen none) =
    initCkey .reliable (unsignedLong .llp64 key) m (keyModeOf encrypting) (List.replicate clen none)
  fields : ∀ input encrypting, transform .reliable .lp64 input key (modeValue m) encrypting =
    transform .reliable .llp64 input key (modeValue m) encrypting
  policies : ∀ input policy encrypting, transformPolicy .reliable .lp64 input policy key (modeValue m) encrypting =
    transformPolicy .reliable .llp64 input policy key (modeValue m) encrypting
  crosses : ∀ x,
    (transform .reliable .lp64 (some x) key (modeValue m) true >>= fun y =>
      transform .reliable .llp64 (some y) key (modeValue m) false) = .ok x ∧
    (transform .reliable .llp64 (some x) key (modeValue m) true >>= fun y =>
      transform .reliable .lp64 (some y) key (modeValue m) false) = .ok x

theorem same_tables {one two : Nat} {m : CptMode} (congruent : one ≡ two [MOD (Finset.Icc 1 m.len).lcm id])
    (encrypting : Bool) : initCkey .reliable one m (keyModeOf encrypting) (List.replicate clen none) =
      initCkey .reliable two m (keyModeOf encrypting) (List.replicate clen none) := by
  have perm := (keyPerm_eq_iff one two m).mpr congruent
  have table : keyTable one m encrypting = keyTable two m encrypting := by
    cases encrypting <;> simp only [keyTable,perm]
  rw [key_table_run .reliable one m (fun _ => rfl),key_table_run .reliable two m (fun _ => rfl),table]

theorem independent_of_congruent {key : Int64} {m : CptMode} (congruent :
    unsignedLong .lp64 key ≡ unsignedLong .llp64 key [MOD (Finset.Icc 1 m.len).lcm id]) : Independent key m := by
  have tables := same_tables congruent
  have cipher_same : cipher (unsignedLong .lp64 key) m = cipher (unsignedLong .llp64 key) m :=
    (cipher_eq_iff _ _ m).mpr congruent
  have fields : ∀ input encrypting, transform .reliable .lp64 input key (modeValue m) encrypting =
      transform .reliable .llp64 input key (modeValue m) encrypting := by
    intro input encrypting
    cases input with
    | none => rfl
    | some x =>
      rw [transform_accepted,transform_accepted]
      cases encrypting <;> simp only [image,cipher_same]
  refine ⟨tables,fields,?_,?_⟩
  · intro input policy encrypting
    have mode := (mode_accepted m).2
    simp only [transformPolicy,transformPolicyBytes,policyStatus,mode,tables]
    rfl
  · intro x
    simp only [transform_accepted,ok_bind,image,cipher_same,Equiv.symm_apply_apply,and_self]

theorem ciphertexts_iff (key : Int64) (m : CptMode) :
    (∀ x, transform .reliable .lp64 (some x) key (modeValue m) true =
      transform .reliable .llp64 (some x) key (modeValue m) true) ↔
    unsignedLong .lp64 key ≡ unsignedLong .llp64 key [MOD (Finset.Icc 1 m.len).lcm id] := by
  simp only [transform_accepted,Except.ok.injEq,← cipher_eq_iff]
  exact ⟨fun same => Equiv.ext same,fun same x => congrArg (· x) same⟩

theorem platforms_agree_iff (key : Int64) (m : CptMode) :
    (Independent key m ↔ HighHalfFree m key) ∧
      ((∀ x, transform .reliable .lp64 (some x) key (modeValue m) true =
        transform .reliable .llp64 (some x) key (modeValue m) true) ↔ HighHalfFree m key) := by
  rw [ciphertexts_iff,highHalfFree_iff]
  refine ⟨⟨fun independent => ?_,independent_of_congruent⟩,Iff.rfl⟩
  exact (ciphertexts_iff key m).mp fun x => independent.fields (some x) true

-- Under the key 2^32 the digit 0 becomes 1 on one platform and 0 on the other.
theorem high_half_lost : ¬ ∀ (key : Int64) (m : CptMode), Independent key m := by
  intro independent
  have same := (independent 4294967296 .cptInt).fields (some [0x30]) true
  have wide : transform .reliable .lp64 (some [0x30]) 4294967296 (modeValue .cptInt) true = .ok [0x31] := by
    decide +kernel
  have narrow : transform .reliable .llp64 (some [0x30]) 4294967296 (modeValue .cptInt) true = .ok [0x30] := by
    decide +kernel
  rw [wide,narrow] at same
  exact absurd (Except.ok.inj same) (by decide)

end TeradataCpt.Platforms
