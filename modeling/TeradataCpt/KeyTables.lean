import Mathlib.Data.Fintype.EquivFin
import Mathlib.Data.List.OfFn
import TeradataCpt.Library.DrawOrder
import TeradataCpt.Passes

namespace TeradataCpt.KeyTables
open CSemantics DrawOrder Cpt Passes

def byteOf (m : CptMode) (i : Fin m.len) : UInt8 := UInt8.ofNat (m.offset + i)

@[simp] theorem byteOf_toNat (m : CptMode) (i : Fin m.len) : (byteOf m i).toNat = m.offset + i := by
  have bound := i.isLt
  have top := alphabet_byte m
  simp only [byteOf,UInt8.toNat_ofNat']
  omega

theorem byteOf_inside (m : CptMode) (i : Fin m.len) : outside m (byteOf m i) = false :=
  outside_false.mpr (by have := i.isLt; rw [byteOf_toNat]; omega)

theorem byteOf_injective (m : CptMode) : Function.Injective (byteOf m) := by
  intro i j same
  have values := congrArg UInt8.toNat same
  rw [byteOf_toNat,byteOf_toNat] at values
  exact Fin.ext (by omega)

theorem inside_byteOf {m : CptMode} {byte : UInt8} (inside : outside m byte = false) :
    ∃ i, byteOf m i = byte := by
  obtain ⟨low,high⟩ := outside_false.mp inside
  refine ⟨⟨byte.toNat - m.offset,by omega⟩,?_⟩
  rw [← UInt8.toNat_inj,byteOf_toNat]
  exact Nat.add_sub_cancel' low

-- A key is a permutation of the alphabet, and this is how ckey spells it.
def tableOf (m : CptMode) (perm : Equiv.Perm (Fin m.len)) : List UInt8 := List.ofFn fun i => byteOf m (perm i)

@[simp] theorem tableOf_length (m : CptMode) (perm : Equiv.Perm (Fin m.len)) :
    (tableOf m perm).length = m.len := by simp [tableOf]

theorem tableOf_at (m : CptMode) (perm : Equiv.Perm (Fin m.len)) (i : Fin m.len) :
    (tableOf m perm)[i.val]? = some (byteOf m (perm i)) := by simp [tableOf]

@[simp] theorem tableOf_entry (m : CptMode) (perm : Equiv.Perm (Fin m.len)) (i : Fin m.len) :
    entry (tableOf m perm) i = byteOf m (perm i) := by
  rw [entry,List.getD_eq_getElem?_getD,tableOf_at]
  rfl

theorem tableOf_injective (m : CptMode) : Function.Injective (tableOf m) := by
  intro one two same
  ext1 i
  have entries := congrArg (entry · i.val) same
  simp only [tableOf_entry] at entries
  exact byteOf_injective m entries

-- Distinctness in one sweep, with the bytes seen so far as the bits of a number.
def distinctBytes : Nat → List UInt8 → Bool
  | _,[] => true
  | seen,byte :: rest => !seen.testBit byte.toNat && distinctBytes (seen ||| 1 <<< byte.toNat) rest

theorem distinctBytes_sound {seen : Nat} {bytes : List UInt8} (checked : distinctBytes seen bytes = true) :
    bytes.Nodup ∧ ∀ byte ∈ bytes, seen.testBit byte.toNat = false := by
  induction bytes generalizing seen with
  | nil => simp
  | cons byte rest ih =>
    simp only [distinctBytes,Bool.and_eq_true,Bool.not_eq_true'] at checked
    obtain ⟨distinct,later⟩ := ih checked.2
    have apart : ∀ other ∈ rest, other ≠ byte ∧ seen.testBit other.toNat = false := by
      intro other member
      have unseen := later other member
      rw [Nat.testBit_or,Bool.or_eq_false_iff] at unseen
      refine ⟨?_,unseen.1⟩
      rintro rfl
      have self : (1 <<< other.toNat).testBit other.toNat = true := by simp [Nat.testBit_shiftLeft]
      rw [self] at unseen
      cases unseen.2
    refine ⟨List.nodup_cons.mpr ⟨fun member => (apart byte member).1 rfl,distinct⟩,?_⟩
    intro other member
    rcases List.mem_cons.mp member with rfl | tail
    · exact checked.1
    · exact (apart other tail).2

-- CT, IT and AT list their alphabets, each byte once.
theorem base_length (m : CptMode) : m.table.length = m.len := by cases m <;> decide +kernel
theorem base_nodup (m : CptMode) : m.table.Nodup := by
  have checked : distinctBytes 0 m.table = true := by cases m <;> decide +kernel
  exact (distinctBytes_sound checked).1
theorem base_inside (m : CptMode) : ∀ byte ∈ m.table, outside m byte = false := by cases m <;> decide +kernel

theorem exists_table {m : CptMode} {bytes : List UInt8} (reordered : bytes.Perm m.table) :
    ∃ perm, tableOf m perm = bytes := by
  have length : bytes.length = m.len := reordered.length_eq.trans (base_length m)
  have distinct : bytes.Nodup := reordered.nodup_iff.mpr (base_nodup m)
  have coded : ∀ i : Fin m.len, ∃ j, byteOf m j = bytes.get (i.cast length.symm) := fun i =>
    inside_byteOf (base_inside m _ (reordered.mem_iff.mp (List.get_mem _ _)))
  choose index same using coded
  have injective : Function.Injective index := by
    intro i j equal
    have bytesEqual : bytes.get (i.cast length.symm) = bytes.get (j.cast length.symm) := by
      rw [← same i,← same j,equal]
    exact Fin.cast_injective _ (distinct.get_inj_iff.mp bytesEqual)
  refine ⟨Equiv.ofBijective index (Finite.injective_iff_bijective.mp injective),?_⟩
  apply List.ext_getElem (by simp [length])
  intro i inTable inBytes
  simpa [tableOf] using same ⟨i,by simpa using inTable⟩

noncomputable def keyPerm (inkey : Nat) (m : CptMode) : Equiv.Perm (Fin m.len) :=
  (exists_table (drawn_all_perm inkey m.table)).choose

theorem tableOf_keyPerm (inkey : Nat) (m : CptMode) :
    tableOf m (keyPerm inkey m) = drawn inkey m.table m.table.length :=
  (exists_table (drawn_all_perm inkey m.table)).choose_spec

theorem keyPerm_eq_iff (one two : Nat) (m : CptMode) :
    keyPerm one m = keyPerm two m ↔ one ≡ two [MOD (Finset.Icc 1 m.len).lcm id] := by
  rw [← (tableOf_injective m).eq_iff,tableOf_keyPerm,tableOf_keyPerm,drawn_eq_iff (base_nodup m),base_length]

theorem drawn_keyPerm (inkey : Nat) (m : CptMode) (i : Fin m.len) :
    (remaining inkey m.table i)[inkey % (m.len - i)]? = some (byteOf m (keyPerm inkey m i)) ∧
      drawn inkey m.table (i+1) = drawn inkey m.table i ++ [byteOf m (keyPerm inkey m i)] := by
  have within : i.val < m.table.length := by rw [base_length]; exact i.isLt
  have final : drawn inkey m.table (i+1) <+: tableOf m (keyPerm inkey m) := by
    rw [tableOf_keyPerm]
    exact drawn_initial inkey m.table within
  have grown := drawn_succ inkey m.table within
  have position := position_lt inkey m.table within
  have length := drawn_length inkey m.table (Nat.le_of_lt within)
  have last := List.getElem?_eq_some_iff.mp (tableOf_at m (keyPerm inkey m) i)
  obtain ⟨bound,value⟩ := last
  have same := final.getElem (i := i) (by rw [grown]; simp [length])
  rw [value] at same
  simp only [grown] at same
  rw [List.getElem_append_right (by omega)] at same
  simp only [length,Nat.sub_self,List.getElem_cons_zero,List.get_eq_getElem,base_length] at same
  refine ⟨?_,?_⟩
  · rw [List.getElem?_eq_some_iff]
    exact ⟨by simpa [base_length] using position,same⟩
  · rw [grown,← same]
    simp [base_length]

theorem load_stored {object after : Cells α} {i : Nat} {value : α} (stored : store object i value = .ok after) :
    load after i = .ok value ∧ after.length = object.length := by
  unfold store at stored
  split at stored
  · rename_i bound
    cases stored
    refine ⟨load_at _ ?_,by simp⟩
    simp only [Int.toNat_natCast] at bound ⊢
    exact List.getElem?_set_self bound.2
  · cases stored

section Rounds
variable (machine : Machine) (inkey : Nat) {m : CptMode}

-- What a round does to `mod` and T, whichever table it fills.
theorem draw_step {cells : KeyCells} {i : Nat} (within : i < m.len)
    (left : Holds cells.T (remaining inkey m.table i)) (room : m.len ≤ cells.mod.length) :
    ∃ mod T, store cells.mod i (inkey % (m.len - i) : Nat) = .ok mod ∧
      load mod i = .ok ((inkey % (m.len - i) : Nat) : Int) ∧
      load cells.T (inkey % (m.len - i) : Nat) = .ok (byteOf m (keyPerm inkey m ⟨i,within⟩)) ∧
      copy cells.T (inkey % (m.len - i) : Nat) cells.T ((inkey % (m.len - i) : Nat) + 1)
        ((m.len : Int) - 1 - i - (inkey % (m.len - i) : Nat)) = .ok T ∧
      Holds T (remaining inkey m.table (i+1)) ∧ m.len ≤ mod.length := by
  have stored := store_at cells.mod ((inkey % (m.len - i) : Nat) : Int) (Nat.lt_of_lt_of_le within room)
  obtain ⟨loaded,length⟩ := load_stored stored
  have item := (drawn_keyPerm inkey m ⟨i,within⟩).1
  obtain ⟨bound,value⟩ := List.getElem?_eq_some_iff.mp item
  obtain ⟨T,moved,erased,_⟩ := copy_erase left bound
  have inTable : i ≤ m.table.length := by rw [base_length]; omega
  have items := remaining_length inkey m.table inTable
  rw [items,base_length] at moved
  have count : ((m.len - i : Nat) : Int) - 1 - (inkey % (m.len - i) : Nat) =
      (m.len : Int) - 1 - i - (inkey % (m.len - i) : Nat) := by omega
  refine ⟨_,T,stored,loaded,?_,count ▸ moved,?_,by omega⟩
  · rw [left.load bound,value]
  · simpa only [remaining,base_length] using erased

-- After i rounds of either branch the first cells of T hold what was not drawn.
structure EncryptInv (inkey : Nat) (m : CptMode) (ckey : Cells UInt8) (i : Nat) (cells : KeyCells) : Prop where
  left : Holds cells.T (remaining inkey m.table i)
  room : m.len ≤ cells.mod.length
  filled : cells.ckey = written ckey (drawn inkey m.table i)

theorem encrypt_round {ckey : Cells UInt8} (fits : m.len ≤ ckey.length) {i : Nat} (within : i < m.len)
    {before : KeyCells} (valid : EncryptInv inkey m ckey i before) :
    ∃ after, encryptRound inkey m.len i before = .ok after ∧ EncryptInv inkey m ckey (i+1) after := by
  obtain ⟨mod,T,stored,loaded,chosen,moved,erased,room⟩ := draw_step inkey within valid.left valid.room
  have grown := (drawn_keyPerm inkey m ⟨i,within⟩).2
  have inTable : i ≤ m.table.length := by rw [base_length]; omega
  have length := drawn_length inkey m.table inTable
  have put := written_store ckey (drawn inkey m.table i) (byteOf m (keyPerm inkey m ⟨i,within⟩)) (by omega)
  rw [length,← grown,← valid.filled] at put
  refine ⟨⟨T,mod,written ckey (drawn inkey m.table (i+1))⟩,?_,erased,room,rfl⟩
  simp only [encryptRound,stored,loaded,chosen,put,moved,ok_bind,pure_ok]

structure DecryptInv (inkey : Nat) (m : CptMode) (ckey : Cells UInt8) (i : Nat) (cells : KeyCells) : Prop where
  left : Holds cells.T (remaining inkey m.table i)
  room : m.len ≤ cells.mod.length
  length : cells.ckey.length = ckey.length
  placed : ∀ j : Fin m.len, j.val < i → cells.ckey[(keyPerm inkey m j).val]? = some (some (byteOf m j))
  beyond : ∀ place, m.len ≤ place → cells.ckey[place]? = ckey[place]?

theorem decrypt_round {ckey : Cells UInt8} (fits : m.len ≤ ckey.length) {i : Nat} (within : i < m.len)
    {before : KeyCells} (valid : DecryptInv inkey m ckey i before) :
    ∃ after, decryptRound machine inkey m.len m.offset i before = .ok after ∧
      after.ckey = before.ckey.set (keyPerm inkey m ⟨i,within⟩) (some (byteOf m ⟨i,within⟩)) ∧
      DecryptInv inkey m ckey (i+1) after := by
  obtain ⟨mod,T,stored,loaded,chosen,moved,erased,room⟩ := draw_step inkey within valid.left valid.room
  have top := alphabet_byte m
  have place := (keyPerm inkey m ⟨i,within⟩).isLt
  have index : ((byteOf m (keyPerm inkey m ⟨i,within⟩)).toNat : Int) - m.offset =
      (keyPerm inkey m ⟨i,within⟩).val := by rw [byteOf_toNat]; omega
  have value : narrow machine (i + m.offset : Nat) = .ok (byteOf m ⟨i,within⟩) := by
    rw [narrow_nat machine (by omega),byteOf,Nat.add_comm]
  have bound : (keyPerm inkey m ⟨i,within⟩).val < before.ckey.length := by rw [valid.length]; omega
  have put := store_at before.ckey (byteOf m ⟨i,within⟩) bound
  refine ⟨⟨T,mod,before.ckey.set (keyPerm inkey m ⟨i,within⟩) (some (byteOf m ⟨i,within⟩))⟩,
    ?_,rfl,erased,room,?_,?_,?_⟩
  · simp only [decryptRound,stored,loaded,chosen,index,value,put,moved,ok_bind,pure_ok]
  · simp [valid.length]
  · intro j earlier
    rcases Nat.lt_succ_iff_lt_or_eq.mp earlier with old | now
    · have apart : (keyPerm inkey m ⟨i,within⟩).val ≠ (keyPerm inkey m j).val := by
        intro same
        have equal := (keyPerm inkey m).injective (Fin.ext same)
        rw [← equal] at old
        exact Nat.lt_irrefl _ old
      rw [List.getElem?_set_ne apart]
      exact valid.placed j old
    · have equal : j = ⟨i,within⟩ := Fin.ext now
      rw [equal,List.getElem?_set_self bound]
  · intro other above
    rw [List.getElem?_set_ne (by omega)]
    exact valid.beyond other above

theorem decrypt_filled {ckey : Cells UInt8} {cells : KeyCells}
    (valid : DecryptInv inkey m ckey m.len cells) :
    cells.ckey = written ckey (tableOf m (keyPerm inkey m).symm) := by
  apply List.ext_getElem?
  intro place
  rw [written,List.getElem?_append,List.length_map,tableOf_length]
  by_cases inside : place < m.len
  · have found := valid.placed ((keyPerm inkey m).symm ⟨place,inside⟩) (Fin.isLt _)
    rw [Equiv.apply_symm_apply] at found
    rw [if_pos inside,found,List.getElem?_map,tableOf_at m _ ⟨place,inside⟩]
    rfl
  · have shift : m.len + (place - m.len) = place := by omega
    rw [if_neg inside,List.getElem?_drop,shift]
    exact valid.beyond place (by omega)

theorem base_copied (slack : Nat) :
    ∃ T, copy (List.replicate (m.len + slack) (none : Option UInt8)) 0 (m.table.map some) 0 m.len = .ok T ∧
      Holds T m.table := by
  have length := base_length m
  refine ⟨written (List.replicate (m.len + slack) none) m.table,?_,written_holds _ _⟩
  unfold copy
  rw [if_pos (by simp [length])]
  simp [written,← length]

def afterRounds (machine : Machine) (inkey : Nat) (m : CptMode) (keymod : KeyMode) (ckey : Cells UInt8) (i : Nat) :
    Except Fault KeyCells := do
  let T ← nonNull (malloc machine 0 m.len)
  let T ← copy T 0 (m.table.map some) 0 m.len
  let mod ← nonNull (malloc machine 1 m.len)
  match keymod with
  | .encryptKey => forUp i (encryptRound inkey m.len) ⟨T,mod,ckey⟩
  | .decryptKey => forUp i (decryptRound machine inkey m.len m.offset) ⟨T,mod,ckey⟩

theorem init_after (keymod : KeyMode) (ckey : Cells UInt8) : initCkey machine inkey m keymod ckey =
    (do let cells ← afterRounds machine inkey m keymod ckey m.len; return cells.ckey) := by
  simp only [initCkey,afterRounds,bind_assoc]
  cases keymod <;> rfl

theorem after_next (keymod : KeyMode) (ckey : Cells UInt8) (i : Nat) : afterRounds machine inkey m keymod ckey (i+1) =
    (do let cells ← afterRounds machine inkey m keymod ckey i
        match keymod with
        | .encryptKey => encryptRound inkey m.len i cells
        | .decryptKey => decryptRound machine inkey m.len m.offset i cells) := by
  simp only [afterRounds,bind_assoc]
  cases keymod <;> rfl

section Branches
variable {ckey : Cells UInt8} (available : ∀ call, machine.mallocOk call = true)
include available

theorem rounds_start (keymod : KeyMode) : ∃ T mod, Holds T m.table ∧ m.len ≤ mod.length ∧
    ∀ i, afterRounds machine inkey m keymod ckey i =
      match keymod with
      | .encryptKey => forUp i (encryptRound inkey m.len) ⟨T,mod,ckey⟩
      | .decryptKey => forUp i (decryptRound machine inkey m.len m.offset) ⟨T,mod,ckey⟩ := by
  obtain ⟨T,copied,base⟩ := base_copied (m := m) machine.slack
  refine ⟨T,List.replicate (m.len + machine.slack) none,base,by simp,fun i => ?_⟩
  simp only [afterRounds,malloc_cells machine available,nonNull,ok_bind,copied]
  cases keymod <;> rfl

variable (fits : m.len ≤ ckey.length)
include fits

theorem encrypt_after {i : Nat} (within : i ≤ m.len) :
    ∃ cells, afterRounds machine inkey m .encryptKey ckey i = .ok cells ∧ EncryptInv inkey m ckey i cells := by
  obtain ⟨T,mod,base,room,rounds⟩ := rounds_start (m := m) machine inkey available .encryptKey
  have start : EncryptInv inkey m ckey 0 ⟨T,mod,ckey⟩ := ⟨base,room,by simp [drawn,written]⟩
  obtain ⟨cells,ran,valid⟩ := forUp_inv _ start fun j bound before valid =>
    encrypt_round inkey fits (Nat.lt_of_lt_of_le bound within) valid
  exact ⟨cells,(rounds i).trans ran,valid⟩

theorem decrypt_after {i : Nat} (within : i ≤ m.len) :
    ∃ cells, afterRounds machine inkey m .decryptKey ckey i = .ok cells ∧ DecryptInv inkey m ckey i cells := by
  obtain ⟨T,mod,base,room,rounds⟩ := rounds_start (m := m) machine inkey available .decryptKey
  have start : DecryptInv inkey m ckey 0 ⟨T,mod,ckey⟩ :=
    ⟨base,room,rfl,fun j bound => absurd bound (Nat.not_lt_zero _),fun _ _ => rfl⟩
  obtain ⟨cells,ran,valid⟩ := forUp_inv _ start fun j bound before valid => by
    obtain ⟨after,stepped,_,next⟩ := decrypt_round machine inkey fits (Nat.lt_of_lt_of_le bound within) valid
    exact ⟨after,stepped,next⟩
  exact ⟨cells,(rounds i).trans ran,valid⟩

-- init_ckey writes the key's permutation or its inverse, and nothing behind it.
theorem init_encrypt : initCkey machine inkey m .encryptKey ckey = .ok (written ckey (tableOf m (keyPerm inkey m))) := by
  obtain ⟨cells,ran,valid⟩ := encrypt_after machine inkey available fits (Nat.le_refl _)
  rw [init_after,ran,ok_bind,pure_ok,valid.filled,tableOf_keyPerm,base_length]

theorem init_decrypt :
    initCkey machine inkey m .decryptKey ckey = .ok (written ckey (tableOf m (keyPerm inkey m).symm)) := by
  obtain ⟨cells,ran,valid⟩ := decrypt_after machine inkey available fits (Nat.le_refl _)
  rw [init_after,ran,ok_bind,pure_ok,decrypt_filled inkey valid]

end Branches

end Rounds

end TeradataCpt.KeyTables
