import Mathlib.Algebra.Group.Fin.Basic
import TeradataCpt.Library.BarrierCipher
import TeradataCpt.KeyTables

namespace TeradataCpt.FieldCipher
open CSemantics ChainedPasses BarrierCipher Cpt Passes KeyTables

instance (m : CptMode) : NeZero m.len := ⟨Nat.ne_of_gt (len_pos m)⟩

-- A byte as a symbol of the abstract cipher: its place in the alphabet, or itself.
def code (m : CptMode) (byte : UInt8) : Fin m.len ⊕ UInt8 :=
  if inside : outside m byte = false then
    .inl ⟨byte.toNat - m.offset,by have := outside_false.mp inside; omega⟩
  else .inr byte

@[simp] theorem code_byteOf (m : CptMode) (i : Fin m.len) : code m (byteOf m i) = .inl i := by
  simp [code,byteOf_inside]

theorem coded_word (m : CptMode) (word : List (Fin m.len)) :
    (word.map (byteOf m)).map (code m) = word.map .inl := by
  rw [List.map_map]
  exact List.map_congr_left fun i _ => code_byteOf m i

theorem code_outside {m : CptMode} {byte : UInt8} (away : outside m byte = true) : code m byte = .inr byte := by
  simp [code,away]

theorem code_injective (m : CptMode) : Function.Injective (code m) := by
  intro one two same
  cases first : outside m one with
  | true =>
    cases second : outside m two with
    | true => simpa [code_outside,first,second] using same
    | false => simp [code,first,second] at same
  | false =>
    cases second : outside m two with
    | true => simp [code,first,second] at same
    | false =>
      obtain ⟨i,rfl⟩ := inside_byteOf first
      obtain ⟨j,rfl⟩ := inside_byteOf second
      rw [code_byteOf,code_byteOf] at same
      rw [Sum.inl.inj same]

-- The subtraction that compares and adds len is subtraction in the alphabet.
theorem difference_byteOf (m : CptMode) (i j : Fin m.len) :
    difference m (byteOf m i) (byteOf m j) = ((byteOf m (i - j)).toNat : Int) := by
  have first := i.isLt
  have second := j.isLt
  simp only [difference,byteOf_toNat,Fin.val_sub]
  split
  · have wraps : (m.len - j.val + i.val) % m.len = i.val - j.val := by
      rw [show m.len - j.val + i.val = (i.val - j.val) + m.len by omega,Nat.add_mod_right]
      exact Nat.mod_eq_of_lt (by omega)
    omega
  · have stays : (m.len - j.val + i.val) % m.len = m.len - j.val + i.val := Nat.mod_eq_of_lt (by omega)
    omega

theorem table_fits (machine : Machine) (m : CptMode) (perm : Equiv.Perm (Fin m.len)) :
    Fits machine m (tableOf m perm) := by
  intro _ i bound near inside
  obtain ⟨j,rfl⟩ := inside_byteOf inside
  have value := difference_byteOf m (perm ⟨i,bound⟩) j
  rw [← tableOf_entry] at value
  have top := (byteOf m (perm ⟨i,bound⟩ - j)).toNat_lt
  simp only at value
  omega

theorem encrypt_code (m : CptMode) (perm : Equiv.Perm (Fin m.len)) (prev : Option UInt8) (byte : UInt8) :
    code m (encryptStep m (tableOf m perm) prev byte) = lock perm (prev.map (code m)) (code m byte) := by
  cases away : outside m byte with
  | true => simp [encryptStep,away,code_outside,lock]
  | false =>
    obtain ⟨i,rfl⟩ := inside_byteOf away
    cases prev with
    | none => simp [encryptStep,away,lock,carry]
    | some near =>
      cases far : outside m near with
      | true => simp [encryptStep,away,far,lock,carry,code_outside]
      | false =>
        obtain ⟨j,rfl⟩ := inside_byteOf far
        simp [encryptStep,away,far,lock,carry,← Fin.val_add]

theorem decrypt_code (m : CptMode) (perm : Equiv.Perm (Fin m.len)) (prev : Option UInt8) (byte : UInt8) :
    code m (decryptStep m (tableOf m perm.symm) prev byte) = unlock perm (prev.map (code m)) (code m byte) := by
  cases away : outside m byte with
  | true => simp [decryptStep,away,code_outside,unlock]
  | false =>
    obtain ⟨i,rfl⟩ := inside_byteOf away
    cases prev with
    | none => simp [decryptStep,away,unlock,carry]
    | some near =>
      cases far : outside m near with
      | true => simp [decryptStep,away,far,unlock,carry,code_outside]
      | false =>
        obtain ⟨j,rfl⟩ := inside_byteOf far
        have value := difference_byteOf m (perm.symm i) j
        simp only [decryptStep,away,far,byteOf_toNat,Nat.add_sub_cancel_left,tableOf_entry]
        simp only [value,ofInt_byte]
        simp [unlock,carry]

end TeradataCpt.FieldCipher
