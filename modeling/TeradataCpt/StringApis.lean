import TeradataCpt.JavaApi
import TeradataCpt.Fields

namespace TeradataCpt.StringApis
open CSemantics Cpt CptJni JavaApi Fields

theorem latin1_unit (b : UInt8) : Utf16.isHigh (UInt16.ofNat b.toNat) = false ∧ UInt16.ofNat b.toNat ≤ 0xFF ∧
    latin1Byte (UInt16.ofNat b.toNat) = b := by
  have top := b.toNat_lt
  have value : (UInt16.ofNat b.toNat).toNat = b.toNat := by rw [UInt16.toNat_ofNat']; omega
  have small : UInt16.ofNat b.toNat ≤ 0xFF := by
    rw [UInt16.le_iff_toNat_le,value]
    exact Nat.le_of_lt_succ top
  refine ⟨?_,small,?_⟩
  · simp only [Utf16.isHigh,value,Bool.and_eq_false_iff,decide_eq_false_iff_not]
    omega
  · rw [latin1Byte,if_pos small,value,UInt8.ofNat_toNat]

theorem getBytesLatin1_cons {u : UInt16} (single : Utf16.isHigh u = false) (rest : JavaString) :
    getBytesLatin1 (u :: rest) = latin1Byte u :: getBytesLatin1 rest := by
  cases rest with
  | nil => rfl
  | cons v rest => simp [getBytesLatin1,single]

-- ISO_8859_1 loses nothing of a string that came from bytes.
theorem latin1_round_trip (bytes : List UInt8) : getBytesLatin1 (newStringLatin1 bytes) = bytes := by
  induction bytes with
  | nil => rfl
  | cons b rest ih =>
    obtain ⟨single,_,back⟩ := latin1_unit b
    rw [newStringLatin1,List.map_cons,getBytesLatin1_cons single,back]
    exact congrArg _ ih

theorem latin1_small (bytes : List UInt8) : ∀ u ∈ newStringLatin1 bytes, u ≤ 0xFF := by
  intro u member
  obtain ⟨b,_,rfl⟩ := List.mem_map.mp member
  exact (latin1_unit b).2.1

theorem latin1_wellFormed (bytes : List UInt8) : Utf16.WellFormed (newStringLatin1 bytes) := by
  refine ⟨bytes.map fun b => Char.ofNat b.toNat,?_⟩
  induction bytes with
  | nil => rfl
  | cons b rest ih =>
    have top := b.toNat_lt
    have value : (Char.ofNat b.toNat).toNat = b.toNat := Utf16.ofNat_value (.inl (by omega))
    rw [List.map_cons,Utf16.encode_cons,ih,Utf16.encodeChar,value,if_pos (by omega)]
    rfl

theorem question_mark : Utf16.encodeChar '?' = [0x3F] := by decide

theorem decoded_bytes (utf8 : Utf8Decoder) (s : JavaString) : utf8.newString (getBytesUtf8 s) = Utf16.repair 0x3F s := by
  rw [getBytesUtf8,utf8.encoded,Utf16.encode_scalars question_mark]

section Methods
variable (host : Host) (utf8 : Utf8Decoder) (key : Int64) (m : CptMode)

theorem crypt_run (input : List UInt8) (encrypting : Bool) :
    cryptBytes ⟨.reliable,host,utf8⟩ (some input) key (some m) encrypting =
      .ok (image (unsignedLong host key) m encrypting input) := transform_accepted host input key m encrypting

theorem encryptUtf8_run (s : JavaString) : encryptUtf8 ⟨.reliable,host,utf8⟩ (some s) key (some m) =
    .ok (newStringLatin1 (cipher (unsignedLong host key) m (getBytesUtf8 s))) := by
  simp only [encryptUtf8,requireStringAndMode,requireNonNull,encrypt,crypt_run,image,ok_bind,pure_ok]

theorem decryptUtf8_run (text : JavaString) : decryptUtf8 ⟨.reliable,host,utf8⟩ (some text) key (some m) =
    .ok (utf8.newString ((cipher (unsignedLong host key) m).symm (getBytesLatin1 text))) := by
  simp only [decryptUtf8,requireStringAndMode,requireNonNull,decrypt,crypt_run,image,ok_bind,pure_ok]

theorem encryptAsUtf8Bytes_run (s : JavaString) : encryptAsUtf8Bytes ⟨.reliable,host,utf8⟩ (some s) key (some m) =
    .ok (cipher (unsignedLong host key) m (getBytesUtf8 s)) := by
  simp only [encryptAsUtf8Bytes,requireStringAndMode,requireNonNull,encrypt,crypt_run,image,ok_bind,pure_ok]

theorem decryptToUtf8Bytes_run (text : JavaString) :
    decryptToUtf8Bytes ⟨.reliable,host,utf8⟩ (some text) key (some m) =
      .ok ((cipher (unsignedLong host key) m).symm (getBytesLatin1 text)) := by
  simp only [decryptToUtf8Bytes,requireStringAndMode,requireNonNull,decrypt,crypt_run,image,ok_bind,pure_ok]

theorem encryptAsBase64_run (s : JavaString) : encryptAsBase64 ⟨.reliable,host,utf8⟩ (some s) key (some m) =
    .ok (Base64.encode (cipher (unsignedLong host key) m (getBytesUtf8 s))) := by
  simp only [encryptAsBase64,encryptAsBytes,requireNonNull,encrypt,crypt_run,image,ok_bind,pure_ok]

theorem decryptFromBase64_run (input : List UInt8) :
    decryptFromBase64 ⟨.reliable,host,utf8⟩ (some (Base64.encode input)) key (some m) =
      .ok (utf8.newString ((cipher (unsignedLong host key) m).symm input)) := by
  simp only [decryptFromBase64,decryptAsBytes,requireNonNull,Base64.decode_encode,decrypt,crypt_run,image,ok_bind,
    pure_ok]

-- Whatever the string, only its unpaired surrogates are lost, and the three ways to
-- carry the ciphertext carry the same bytes.
theorem string_apis_agree (s : JavaString) :
    ∃ text base64 bytes,
      encryptUtf8 ⟨.reliable,host,utf8⟩ (some s) key (some m) = .ok text ∧
      encryptAsBase64 ⟨.reliable,host,utf8⟩ (some s) key (some m) = .ok base64 ∧
      encryptAsUtf8Bytes ⟨.reliable,host,utf8⟩ (some s) key (some m) = .ok bytes ∧
      decryptUtf8 ⟨.reliable,host,utf8⟩ (some text) key (some m) = .ok (Utf16.repair 0x3F s) ∧
      decryptFromBase64 ⟨.reliable,host,utf8⟩ (some base64) key (some m) = .ok (Utf16.repair 0x3F s) ∧
      (Utf16.repair 0x3F s = s ↔ Utf16.WellFormed s) ∧
      (∀ u ∈ text, u ≤ 0xFF) ∧ utf8.newString (getBytesUtf8 text) = text ∧
      decryptToUtf8Bytes ⟨.reliable,host,utf8⟩ (some text) key (some m) = .ok (getBytesUtf8 s) ∧
      Base64.decode base64 = some bytes := by
  refine ⟨_,_,_,encryptUtf8_run host utf8 key m s,encryptAsBase64_run host utf8 key m s,
    encryptAsUtf8Bytes_run host utf8 key m s,?_,?_,Utf16.repair_iff question_mark s,latin1_small _,?_,?_,
    Base64.decode_encode _⟩
  · rw [decryptUtf8_run,latin1_round_trip,Equiv.symm_apply_apply,decoded_bytes]
  · rw [decryptFromBase64_run,Equiv.symm_apply_apply,decoded_bytes]
  · rw [decoded_bytes]
    exact (Utf16.repair_iff question_mark _).mpr (latin1_wellFormed _)
  · rw [decryptToUtf8Bytes_run,latin1_round_trip,Equiv.symm_apply_apply]

end Methods

end TeradataCpt.StringApis
