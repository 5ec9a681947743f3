import TeradataCpt.Barriers
import TeradataCpt.ScratchBuffers

namespace TeradataCpt.CStrings
open CSemantics RangePatches Cpt CptJni Fields Policies Formats Barriers ScratchBuffers

-- NUL is outside every alphabet, so a string without one is encrypted to another.
theorem image_plain (inkey : Nat) (m : CptMode) (encrypting : Bool) {s : List UInt8} (plain : 0 ∉ s) :
    0 ∉ image inkey m encrypting s := by
  intro member
  obtain ⟨i,item⟩ := List.mem_iff_getElem?.mp member
  exact plain (List.mem_of_getElem? (((image_preserves inkey m encrypting s).nul i).mpr item))

theorem strlen_written {object : Cells UInt8} {s : List UInt8} (plain : 0 ∉ s) :
    strlen (written object (s ++ [0])) = .ok s.length := strlen_holds (written_holds object (s ++ [0])) plain

theorem one_few (r : Range) : [r].length ≤ maxSubPolicies := show 1 ≤ 5 by decide

theorem one_range_run {machine : Machine} (available : ∀ call, machine.mallocOk call = true) {inkey : Nat}
    {m : CptMode} {s : List UInt8} (short : s.length < 2^31) {r : Range} (fits : r.Fits s.length)
    {policy : JniPolicy} (single : OnePerRange policy [r]) {memory : Memory} {instr ckey outstr : Nat}
    (apart : instr ≠ outstr) (fresh : ckey ≠ outstr) (input : Holds (memory instr) s)
    (key : Holds (memory ckey) (keyTable inkey m true)) (room : s.length ≤ (memory outstr).length) :
    multiSubPolicyCtEncrypt machine memory (some instr) s.length (some policy) (some ckey) m (some outstr) =
      .ok (0,holding memory outstr (patch (image inkey m true) s s r)) := by
  have accepted := single.accepts (one_few r) (List.forall_mem_singleton.mpr fits)
  have ran := multi_of_run available (keyTable_length inkey m true) (keyTable_fits machine inkey m true) true key apart
    fresh input room short policy
  rw [if_pos accepted,single.ranges,← image_eq] at ran
  exact ran

-- The functions that take a C string do what those that take a length do, and the
-- length is still there in what they write.
theorem entry_points_agree {machine : Machine} (available : ∀ call, machine.mallocOk call = true)
    (roomy : 0 < machine.slack) (k : UInt64) (m : CptMode) {s : List UInt8} (plain : 0 ∉ s) (short : s.length < 2^31) :
    ∃ E D y, initCkey machine k.toNat m .encryptKey (List.replicate clen none) = .ok E ∧
      initCkey machine k.toNat m .decryptKey (List.replicate clen none) = .ok D ∧ y.length = s.length ∧ 0 ∉ y ∧
      (∀ instr outstr, Holds instr (s ++ [0]) → s.length < outstr.length →
        autoCtEncrypt machine instr E m outstr = .ok (written outstr (y ++ [0])) ∧
        ctEncrypt machine instr s.length E m outstr = .ok (written outstr (y ++ [0])) ∧
        strlen (written outstr (y ++ [0])) = .ok s.length ∧
        ∀ restored, s.length < restored.length →
          autoCtDecrypt machine (written outstr (y ++ [0])) D m restored = .ok (written restored (s ++ [0]))) ∧
      ∀ startpos inlen : Nat, startpos + inlen ≤ s.length → (∃ policy, OnePerRange policy [⟨startpos,inlen⟩]) ∧
        ∀ policy, OnePerRange policy [⟨startpos,inlen⟩] → ∀ (memory : Memory) (instr ckey outstr : Nat),
          instr ≠ outstr → ckey ≠ outstr → Holds (memory instr) (s ++ [0]) → memory ckey = E →
          s.length ≤ (memory outstr).length → ∃ z after, z.length = s.length ∧
            substrCtEncrypt machine (memory instr) startpos inlen E m (memory outstr) = .ok (written (memory outstr) z) ∧
            multiSubPolicyCtEncrypt machine memory (some instr) s.length (some policy) (some ckey) m (some outstr) =
              .ok (0,after) ∧
            after outstr = written (memory outstr) z := by
  obtain ⟨extra,slack⟩ := Nat.exists_eq_succ_of_ne_zero (Nat.ne_of_gt roomy)
  have key := fun encrypting => written_holds (List.replicate clen none) (keyTable k.toNat m encrypting)
  have full := keyTable_length k.toNat m
  have fits := keyTable_fits machine k.toNat m
  have length := image_length k.toNat m true s
  have without := image_plain k.toNat m true plain
  refine ⟨_,_,image k.toNat m true s,key_table_run machine k.toNat m available true,
    key_table_run machine k.toNat m available false,length,without,?_,?_⟩
  · intro instr outstr text room
    have input := text.mono (List.prefix_append s [0])
    have encrypted := auto_run available slack (full true) (fits true) (key true) plain short text room true
    rw [← image_eq] at encrypted
    refine ⟨encrypted,(image_computes machine k.toNat m available true (key true)).run outstr input room,?_,?_⟩
    · rw [strlen_written without,length]
    · intro restored space
      have between := written_holds outstr (image k.toNat m true s ++ [0])
      have decrypted := auto_run available slack (full false) (fits false) (key false) without (by rwa [length]) between
        (by rwa [length]) false
      rw [← image_eq] at decrypted
      have opened : image k.toNat m false (image k.toNat m true s) = s := (cipher k.toNat m).symm_apply_apply s
      rw [opened] at decrypted
      exact decrypted
  · intro startpos inlen within
    have inside : (⟨startpos,inlen⟩ : Range).Fits s.length := within
    refine ⟨one_per_range short (one_few _) (List.forall_mem_singleton.mpr inside),?_⟩
    intro policy single memory instr ckey outstr apart fresh text table room
    have input := text.mono (List.prefix_append s [0])
    have ran := one_range_run available short inside single apart fresh input (by rw [table]; exact key true) room
    have substr := substr_roomy (key true) (full true) text plain within room available slack
    refine ⟨_,_,?_,substr,ran,?_⟩
    · exact patch_length (image_length k.toNat m true) within rfl
    · exact holding_target memory outstr _

theorem entry_points_agree_digit : ∃ E D y,
    autoCtEncrypt spare [some 0x31,some 0x61,some 0] E .cptInt (zeros 3) = .ok (written (zeros 3) (y ++ [0])) ∧
    ctEncrypt spare [some 0x31,some 0x61,some 0] 2 E .cptInt (zeros 3) = .ok (written (zeros 3) (y ++ [0])) ∧
    strlen (written (zeros 3) (y ++ [0])) = .ok 2 ∧
    autoCtDecrypt spare (written (zeros 3) (y ++ [0])) D .cptInt (zeros 3) =
      .ok (written (zeros 3) ([0x31,0x61] ++ [0])) := by
  obtain ⟨E,D,y,_,_,_,_,calls,_⟩ := entry_points_agree spare_serves (by decide) 123 .cptInt (s := [0x31,0x61]) (by decide)
    (by decide)
  have room : 2 < (zeros 3).length := by decide
  obtain ⟨auto,fixed,size,restored⟩ := calls [some 0x31,some 0x61,some 0] (zeros 3) (map_some_holds [0x31,0x61,0]) room
  exact ⟨E,D,y,auto,fixed,size,restored (zeros 3) room⟩

end TeradataCpt.CStrings
