import TeradataCpt.Formats

namespace TeradataCpt.InverseTables
open CSemantics DrawOrder Cpt KeyTables Formats

-- Two lists of the alphabet, each of which says where the other has a byte.
structure Inverse (m : CptMode) (E D : List UInt8) : Prop where
  sizes : E.length = m.len ∧ D.length = m.len
  distinct : E.Nodup
  whole : ∀ byte, byte ∈ E ↔ InAlphabet m byte
  bytes : ∀ byte ∈ D, InAlphabet m byte
  forth : ∀ i < m.len, ∃ e, E[i]? = some e ∧ D[e.toNat - m.offset]? = some (UInt8.ofNat (i + m.offset))
  back : ∀ i < m.len, ∃ d, D[i]? = some d ∧ E[d.toNat - m.offset]? = some (UInt8.ofNat (i + m.offset))

-- The loop invariant: the first cells of T hold what was not chosen.
def LeavesRest (m : CptMode) (chosen : List UInt8) (T : Cells UInt8) : Prop :=
  ∃ left, Holds T left ∧ left.length = m.len - chosen.length ∧ left.Nodup ∧
    ∀ byte, byte ∈ left ↔ InAlphabet m byte ∧ byte ∉ chosen

section Tables
variable (m : CptMode) (perm : Equiv.Perm (Fin m.len))

theorem mem_tableOf (byte : UInt8) : byte ∈ tableOf m perm ↔ InAlphabet m byte := by
  rw [inAlphabet_iff,tableOf,List.mem_ofFn]
  constructor
  · rintro ⟨i,rfl⟩
    exact byteOf_inside m _
  · intro inside
    obtain ⟨i,rfl⟩ := inside_byteOf inside
    exact ⟨perm.symm i,by rw [Equiv.apply_symm_apply]⟩

theorem tableOf_nodup : (tableOf m perm).Nodup :=
  List.nodup_ofFn.mpr fun _ _ same => perm.injective (byteOf_injective m same)

theorem tableOf_round_trip {i : Nat} (within : i < m.len) : ∃ e, (tableOf m perm)[i]? = some e ∧
    (tableOf m perm.symm)[e.toNat - m.offset]? = some (UInt8.ofNat (i + m.offset)) := by
  refine ⟨_,tableOf_at m perm ⟨i,within⟩,?_⟩
  rw [byteOf_toNat,Nat.add_sub_cancel_left,tableOf_at,Equiv.symm_apply_apply,byteOf,Nat.add_comm]

theorem tableOf_inverse : Inverse m (tableOf m perm) (tableOf m perm.symm) where
  sizes := ⟨tableOf_length m perm,tableOf_length m perm.symm⟩
  distinct := tableOf_nodup m perm
  whole := mem_tableOf m perm
  bytes byte member := (mem_tableOf m perm.symm byte).mp member
  forth _ within := tableOf_round_trip m perm within
  back _ within := tableOf_round_trip m perm.symm within

end Tables

theorem base_alphabet (m : CptMode) (byte : UInt8) : byte ∈ m.table ↔ InAlphabet m byte := by
  obtain ⟨perm,spelled⟩ := exists_table (List.Perm.refl m.table)
  rw [← spelled]
  exact mem_tableOf m perm byte

theorem remaining_leaves (inkey : Nat) (m : CptMode) {i : Nat} (within : i ≤ m.len) {T : Cells UInt8}
    (left : Holds T (remaining inkey m.table i)) :
    LeavesRest m ((tableOf m (keyPerm inkey m)).take i) T := by
  have size := base_length m
  have inTable : i ≤ m.table.length := by omega
  rw [tableOf_keyPerm,drawn_take inkey m.table inTable (Nat.le_refl _)]
  refine ⟨_,left,?_,remaining_nodup inkey (base_nodup m) i,fun byte => ?_⟩
  · rw [remaining_length inkey m.table inTable,drawn_length inkey m.table inTable,size]
  · rw [mem_remaining inkey (base_nodup m) inTable,base_alphabet]

theorem place_once (m : CptMode) (perm : Equiv.Perm (Fin m.len)) {place : Nat} (within : place < m.len) :
    ∃! i, i < m.len ∧ ∃ e, (tableOf m perm)[i]? = some e ∧ e.toNat - m.offset = place := by
  refine ⟨perm.symm ⟨place,within⟩,⟨Fin.isLt _,_,tableOf_at m perm _,?_⟩,?_⟩
  · rw [Equiv.apply_symm_apply,byteOf_toNat,Nat.add_sub_cancel_left]
  · rintro i ⟨bound,e,item,same⟩
    rw [tableOf_at m perm ⟨i,bound⟩] at item
    cases item
    rw [byteOf_toNat,Nat.add_sub_cancel_left] at same
    have image : perm ⟨i,bound⟩ = ⟨place,within⟩ := Fin.ext same
    rw [← image,Equiv.symm_apply_apply]

section Machines
variable {machine : Machine} (available : ∀ call, machine.mallocOk call = true)
include available

theorem round_places (inkey : Nat) (m : CptMode) {ckey : Cells UInt8} (fits : m.len ≤ ckey.length) {i : Nat}
    (within : i < m.len) : ∃ before after e, afterRounds machine inkey m .decryptKey ckey i = .ok before ∧
      afterRounds machine inkey m .decryptKey ckey (i+1) = .ok after ∧ (tableOf m (keyPerm inkey m))[i]? = some e ∧
      after.ckey = before.ckey.set (e.toNat - m.offset) (some (UInt8.ofNat (i + m.offset))) := by
  obtain ⟨before,ran,valid⟩ := decrypt_after machine inkey available fits (Nat.le_of_lt within)
  obtain ⟨after,stepped,placed,_⟩ := decrypt_round machine inkey fits within valid
  refine ⟨before,after,_,ran,?_,tableOf_at m _ ⟨i,within⟩,?_⟩
  · rw [after_next,ran,ok_bind]
    exact stepped
  · rw [placed,byteOf_toNat,Nat.add_sub_cancel_left,byteOf,Nat.add_comm i]

theorem rounds_leave (inkey : Nat) (m : CptMode) {ckey : Cells UInt8} (room : m.len ≤ ckey.length) (keymod : KeyMode)
    {i : Nat} (within : i ≤ m.len) : ∃ cells, afterRounds machine inkey m keymod ckey i = .ok cells ∧
      LeavesRest m ((tableOf m (keyPerm inkey m)).take i) cells.T := by
  cases keymod with
  | encryptKey =>
    obtain ⟨cells,ran,valid⟩ := encrypt_after machine inkey available room within
    exact ⟨cells,ran,remaining_leaves inkey m within valid.left⟩
  | decryptKey =>
    obtain ⟨cells,ran,valid⟩ := decrypt_after machine inkey available room within
    exact ⟨cells,ran,remaining_leaves inkey m within valid.left⟩

end Machines

-- init_ckey builds inverse permutations of the alphabet for every key, and after
-- each round of either branch T holds what is left of the alphabet.
theorem tables_inverse {machine : Machine} (available : ∀ call, machine.mallocOk call = true) (inkey : Nat)
    (m : CptMode) (ckey : Cells UInt8) (room : m.len ≤ ckey.length) :
    ∃ E D, initCkey machine inkey m .encryptKey ckey = .ok (written ckey E) ∧
      initCkey machine inkey m .decryptKey ckey = .ok (written ckey D) ∧ Inverse m E D ∧
      (∀ keymod, initCkey machine inkey m keymod ckey =
        (do let cells ← afterRounds machine inkey m keymod ckey m.len; return cells.ckey)) ∧
      (∀ keymod, ∀ i ≤ m.len, ∃ cells, afterRounds machine inkey m keymod ckey i = .ok cells ∧
        LeavesRest m (E.take i) cells.T) ∧
      (∀ i < m.len, ∃ before after e, afterRounds machine inkey m .decryptKey ckey i = .ok before ∧
        afterRounds machine inkey m .decryptKey ckey (i+1) = .ok after ∧ E[i]? = some e ∧
        after.ckey = before.ckey.set (e.toNat - m.offset) (some (UInt8.ofNat (i + m.offset)))) ∧
      ∀ place < m.len, ∃! i, i < m.len ∧ ∃ e, E[i]? = some e ∧ e.toNat - m.offset = place := by
  refine ⟨tableOf m (keyPerm inkey m),tableOf m (keyPerm inkey m).symm,init_encrypt machine inkey available room,
    init_decrypt machine inkey available room,tableOf_inverse m _,?_,?_,?_,?_⟩
  · intro keymod
    exact init_after machine inkey keymod ckey
  · intro keymod i within
    exact rounds_leave available inkey m room keymod within
  · intro i within
    exact round_places available inkey m room within
  · intro place within
    exact place_once m _ within

theorem tables_inverse_digits : ∃ E D,
    initCkey .reliable 123 .cptInt .encryptKey (List.replicate clen none) = .ok (written (List.replicate clen none) E) ∧
    initCkey .reliable 123 .cptInt .decryptKey (List.replicate clen none) = .ok (written (List.replicate clen none) D) ∧
    Inverse .cptInt E D := by
  obtain ⟨E,D,encrypt,decrypt,inverse,_⟩ := tables_inverse reliable_serves 123 .cptInt _ (Fields.ckey_room .cptInt)
  exact ⟨E,D,encrypt,decrypt,inverse⟩

end TeradataCpt.InverseTables
