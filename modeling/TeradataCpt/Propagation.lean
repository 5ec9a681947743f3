import TeradataCpt.Library.Runs
import TeradataCpt.Formats

namespace TeradataCpt.Propagation
open CSemantics ChainedPasses BarrierCipher RangePatches Runs Cpt CptJni Passes KeyTables FieldCipher Fields Policies
open Formats

-- What ct_decrypt puts at i it computes from the bytes at i-1, i and i+1.
theorem decryption_local {m : CptMode} {ckey : Cells UInt8} {table : List UInt8} (key : Holds ckey table)
    (full : table.length = m.len) (x x' : List UInt8) (same : x'.length = x.length) :
    ∃ d d', runPass (ctDecrypt .reliable) ckey m x = .ok d ∧ runPass (ctDecrypt .reliable) ckey m x' = .ok d' ∧
      d.length = x.length ∧ d'.length = x.length ∧
      (∀ i < x.length, (∀ j < x.length, j + 1 = i ∨ j = i ∨ j = i + 1 → x'[j]? = x[j]?) → d'[i]? = d[i]?) ∧
      ∀ j, (∀ i, i ≠ j → x'[i]? = x[i]?) → ∀ i, d'[i]? ≠ d[i]? → i + 1 = j ∨ i = j ∨ i = j + 1 := by
  have computes := ct_decrypt_computes reliable_serves key full (reliable_fits m table)
  refine ⟨_,_,run_computed computes x,run_computed computes x',computes.length x,(computes.length x').trans same,?_,?_⟩
  · intro i bound agree
    apply decipher_local
    intro j low high
    by_cases inside : j < x.length
    · exact agree j inside (by omega)
    · rw [List.getElem?_eq_none (by omega),List.getElem?_eq_none (by omega)]
  · intro j elsewhere i differ
    by_contra far
    refine differ (decipher_local fun k low high => elsewhere k ?_)
    omega

theorem decryption_local_digits :
    ∃ d d', runPass (ctDecrypt .reliable) (tableIT.map some) .cptInt [0x31,0x32,0x33] = .ok d ∧
      runPass (ctDecrypt .reliable) (tableIT.map some) .cptInt [0x31,0xFF,0x33] = .ok d' ∧
      ∀ i, d'[i]? ≠ d[i]? → i + 1 = 1 ∨ i = 1 ∨ i = 1 + 1 := by
  obtain ⟨d,d',first,second,_,_,_,spread⟩ := decryption_local (m := .cptInt) (map_some_holds tableIT) rfl
    [0x31,0x32,0x33] [0x31,0xFF,0x33] rfl
  refine ⟨d,d',first,second,spread 1 fun i away => ?_⟩
  match i with
  | 0 => rfl
  | 1 => exact absurd rfl away
  | _+2 => rfl

theorem image_splits (inkey : Nat) (m : CptMode) (encrypting : Bool) :
    Splits (image inkey m encrypting) (outside m) :=
  ⟨image_length inkey m encrypting,fun x _ y away => image_barrier inkey encrypting away x y⟩

theorem encryptStep_chaining (m : CptMode) (perm : Equiv.Perm (Fin m.len)) :
    Chaining (encryptStep m (tableOf m perm)) fun byte => outside m byte = false := by
  have inside : ∀ byte, (code m byte).isLeft = true ↔ outside m byte = false := by
    intro byte
    cases away : outside m byte with
    | true => simp [code_outside,away]
    | false => simp [code,away]
  have coded := (lock_chaining (B := UInt8) perm).coded (code_injective m) (encrypt_code m perm)
  simpa only [inside] using coded

-- A changed byte changes the end of its run and nothing outside the run.
theorem encryption_diffuses (k : UInt64) (m : CptMode) (x x' : List UInt8) {j : Nat} {a b : UInt8}
    (length : x'.length = x.length) (first : x[j]? = some a) (second : x'[j]? = some b) (differ : a ≠ b)
    (elsewhere : ∀ i, i ≠ j → x'[i]? = x[i]?) (insideA : InAlphabet m a) (insideB : InAlphabet m b) :
    ∃ y y', transformBytes .reliable k.toNat m true x = .ok y ∧ transformBytes .reliable k.toNat m true x' = .ok y' ∧
      (∃ r, IsRun (outside m) x r ∧ r.Covers j) ∧
      ∀ r, IsRun (outside m) x r → r.Covers j →
        y'[r.start + r.length - 1]? ≠ y[r.start + r.length - 1]? ∧ ∀ i, ¬ r.Covers i → y'[i]? = y[i]? := by
  rw [inAlphabet_iff] at insideA insideB
  have changed : x' = x.set j b := by
    apply List.ext_getElem?
    intro i
    rw [List.getElem?_set]
    by_cases here : i = j
    · subst i
      have bound : j < x.length := (List.getElem?_eq_some_iff.mp first).1
      simp [second,bound]
    · simp [elsewhere i here,Ne.symm here]
  subst changed
  have splits := image_splits k.toNat m true
  refine ⟨_,_,transform_run .reliable k.toNat m reliable_serves true x,
    transform_run .reliable k.toNat m reliable_serves true _,exists_run first insideA,
    fun r run covers => ⟨?_,fun i away => change_in_run splits run covers insideB away⟩⟩
  obtain ⟨before,after,old,new⟩ := slice_change covers first
  have good : ∀ c ∈ after, outside m c = false := by
    intro c member
    apply run.inside
    rw [old]
    exact List.mem_append_right before (List.mem_cons_of_mem a member)
  rw [run_last splits (run.set covers insideB),run_last splits run,old,new]
  exact encipher_diverges (encryptStep_chaining m (keyPerm k.toNat m)) before insideB insideA differ.symm good

-- The first of two runs changes, from its first digit on.
theorem digits_diffuse :
    ∃ y y', transformBytes .reliable (123 : UInt64).toNat .cptInt true [0x31,0x32,0x61,0x33] = .ok y ∧
      transformBytes .reliable (123 : UInt64).toNat .cptInt true [0x39,0x32,0x61,0x33] = .ok y' ∧
      y'[0 + 2 - 1]? ≠ y[0 + 2 - 1]? ∧ ∀ i, ¬ (⟨0,2⟩ : Range).Covers i → y'[i]? = y[i]? := by
  have elsewhere : ∀ i : Nat, i ≠ 0 → ([0x39,0x32,0x61,0x33] : List UInt8)[i]? = [0x31,0x32,0x61,0x33][i]? := by
    intro i away
    cases i with
    | zero => exact absurd rfl away
    | succ i => rfl
  obtain ⟨y,y',first,second,_,spread⟩ := encryption_diffuses 123 .cptInt [0x31,0x32,0x61,0x33] [0x39,0x32,0x61,0x33]
    rfl rfl rfl (by decide) elsewhere ⟨by decide,by decide⟩ ⟨by decide,by decide⟩
  exact ⟨y,y',first,second,spread ⟨0,2⟩ (by decide) (by decide)⟩

end TeradataCpt.Propagation
