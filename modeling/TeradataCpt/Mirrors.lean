import TeradataCpt.FieldCipher
import TeradataCpt.Policies

namespace TeradataCpt.Mirrors
open CSemantics ChainedPasses BarrierCipher Cpt Passes KeyTables FieldCipher Policies

theorem decrypt_encrypt_step (m : CptMode) (perm : Equiv.Perm (Fin m.len)) (prev : Option UInt8) (byte : UInt8) :
    decryptStep m (tableOf m perm.symm) prev (encryptStep m (tableOf m perm) prev byte) = byte := by
  apply code_injective m
  rw [decrypt_code,encrypt_code]
  exact unlock_lock perm _ _

theorem encrypt_decrypt_step (m : CptMode) (perm : Equiv.Perm (Fin m.len)) (prev : Option UInt8) (byte : UInt8) :
    encryptStep m (tableOf m perm) prev (decryptStep m (tableOf m perm.symm) prev byte) = byte := by
  apply code_injective m
  rw [encrypt_code,decrypt_code]
  exact lock_unlock perm _ _

-- The passes from the right end are those from the left end in the mirror, and all
-- four are one rule and its inverse.
theorem passes_mirror {m : CptMode} {ckey : Cells UInt8} {table : List UInt8} (key : Holds ckey table)
    (full : table.length = m.len) (x : List UInt8) :
    (∃ y, runPass ctlEncrypt ckey m x.reverse = .ok y ∧ runPass ctrEncrypt ckey m x = .ok y.reverse ∧
      ∀ i, y[i]? = x.reverse[i]?.map (encryptStep m table (if i = 0 then none else y[i-1]?))) ∧
    (∃ y, runPass (ctlDecrypt .reliable) ckey m x.reverse = .ok y ∧
      runPass (ctrDecrypt .reliable) ckey m x = .ok y.reverse ∧
      ∀ i, y[i]? = x.reverse[i]?.map (decryptStep m table (if i = 0 then none else x.reverse[i-1]?))) ∧
    ∀ perm, tableOf m perm = table → ∀ prev byte,
      decryptStep m (tableOf m perm.symm) prev (encryptStep m table prev byte) = byte ∧
      encryptStep m table prev (decryptStep m (tableOf m perm.symm) prev byte) = byte := by
  have fits := reliable_fits m table
  refine ⟨⟨_,run_computed (ctl_encrypt_computes key full) _,?_,feedback_at _ none _⟩,
    ⟨_,run_computed (ctl_decrypt_computes key full fits) _,?_,feedforward_at _ none _⟩,?_⟩
  · rw [run_computed (ctr_encrypt_computes key full),feedback_mirror,List.reverse_reverse]
  · rw [run_computed (ctr_decrypt_computes key full fits),feedforward_mirror,List.reverse_reverse]
  · rintro perm rfl prev byte
    exact ⟨decrypt_encrypt_step m perm prev byte,encrypt_decrypt_step m perm prev byte⟩

theorem passes_mirror_digits :
    (∃ y, runPass ctlEncrypt (tableIT.map some) .cptInt [0x32,0x61,0x31] = .ok y ∧
      runPass ctrEncrypt (tableIT.map some) .cptInt [0x31,0x61,0x32] = .ok y.reverse) ∧
    ∃ y, runPass (ctlDecrypt .reliable) (tableIT.map some) .cptInt [0x32,0x61,0x31] = .ok y ∧
      runPass (ctrDecrypt .reliable) (tableIT.map some) .cptInt [0x31,0x61,0x32] = .ok y.reverse := by
  obtain ⟨⟨y,left,right,_⟩,⟨z,left',right',_⟩,_⟩ := passes_mirror (m := .cptInt) (map_some_holds tableIT) (by decide)
    [0x31,0x61,0x32]
  exact ⟨⟨y,left,right⟩,z,left',right'⟩

end TeradataCpt.Mirrors
