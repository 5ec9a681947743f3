import TeradataCpt.Policies

namespace TeradataCpt.InPlace
open CSemantics RangePatches Cpt CptJni Passes Policies

-- One call for each sub-policy, into the buffer named beside it; a call reads what
-- the one before it wrote. The result names the buffer that was written last.
def callEach (machine : Machine) (encrypting : Bool) (inlen : Int) (ckey : Nat) (cptmode : CptMode) :
    List (JniSubPolicy × Nat) → Nat → Memory → Except Fault (Int × Nat × Memory)
  | [],buffer,memory => .ok (0,buffer,memory)
  | (sub,target) :: rest,buffer,memory => do
    let (status,memory) ← multiOf machine encrypting memory (some buffer) inlen (some (policyOf [sub])) (some ckey)
      cptmode (some target)
    if status ≠ 0 then return (status,buffer,memory)
    else callEach machine encrypting inlen ckey cptmode rest target memory

theorem active_one (sub : JniSubPolicy) : active (policyOf [sub]) = [sub] :=
  active_policyOf (show 1 ≤ maxSubPolicies by decide)

theorem ranges_one (sub : JniSubPolicy) : ranges (policyOf [sub]) = [rangeOf sub] := by rw [ranges,active_one]; rfl

theorem accepts_one {sub : JniSubPolicy} {n : Nat} (within : Within n sub) : Accepts (policyOf [sub]) n := by
  have number : (policyOf [sub]).subPolicyNum.toInt = 1 := show (Int32.ofNat 1).toInt = 1 by decide
  refine ⟨by omega,by rw [number]; decide,fun other member => ?_⟩
  rw [active_one,List.mem_singleton] at member
  rwa [member]

section Calls
variable {m : CptMode} {table : List UInt8} (full : table.length = m.len) (encrypting : Bool) {ckey : Nat}
include full

-- The invariant: the buffer holds the ranges so far, and no buffer has changed its size.
theorem call_each_run (calls : List (JniSubPolicy × Nat)) {memory : Memory} {buffer : Nat} {z : List UInt8}
    (key : Holds (memory ckey) table) (input : Holds (memory buffer) z) (short : z.length < 2^31)
    (within : ∀ call ∈ calls, Within z.length call.1)
    (targets : ∀ call ∈ calls, call.2 ≠ ckey ∧ z.length ≤ (memory call.2).length) :
    ∃ last after, callEach .reliable encrypting z.length ckey m calls buffer memory = .ok (0,last,after) ∧
      Holds (after last) (patches id (fieldMap m table encrypting) z (calls.map fun call => rangeOf call.1)) := by
  induction calls generalizing memory buffer z with
  | nil => exact ⟨buffer,memory,rfl,input⟩
  | cons call rest ih =>
    obtain ⟨sub,target⟩ := call
    obtain ⟨fresh,room⟩ : target ≠ ckey ∧ z.length ≤ (memory target).length := targets _ List.mem_cons_self
    have inside : Within z.length sub := within _ List.mem_cons_self
    have fitting := reliable_fits m table
    have computes := pass_computes reliable_serves key full fitting encrypting
    have ran := multi_of_whole full fitting encrypting key (Ne.symm fresh) input room short (policyOf [sub]) reliable_serves
    have own : reads buffer target z z = z := by
      unfold reads
      split <;> rfl
    have once : patches (reads buffer target z) (fieldMap m table encrypting) z [rangeOf sub] =
        patch (fieldMap m table encrypting) z z (rangeOf sub) := by rw [patches,List.foldl_cons,own]; rfl
    rw [if_pos (accepts_one inside),ranges_one,once] at ran
    have length := patch_length computes.length (range_fits inside) rfl
    have next := holding_holds memory target (patch (fieldMap m table encrypting) z z (rangeOf sub))
    have table_stays :
        Holds (holding memory target (patch (fieldMap m table encrypting) z z (rangeOf sub)) ckey) table := by
      rwa [holding_else memory (Ne.symm fresh)]
    have later := ih table_stays next (by omega)
      (fun other member => by rw [length]; exact within other (List.mem_cons_of_mem _ member))
      fun other member => by
        rw [length,holding_length memory (by omega)]
        exact targets other (List.mem_cons_of_mem _ member)
    rw [length] at later
    simp only [callEach,ran,ok_bind]
    exact later

end Calls

-- Disjoint ranges come out the same in a buffer of their own, over the input, and
-- one after the other in any order and through any buffers.
theorem forms_agree {m : CptMode} {table : List UInt8} (full : table.length = m.len) (encrypting : Bool) {memory : Memory}
    {instr ckey : Nat} (key : Holds (memory ckey) table) {x : List UInt8} (input : Holds (memory instr) x)
    (fresh : instr ≠ ckey) (short : x.length < 2^31) (policy : JniPolicy)
    (valid : validatePolicy (some policy) x.length = .ok 0) (apart : (ranges policy).Pairwise Range.Disjoint) :
    ∃ y, y.length = x.length ∧
      (∀ outstr, outstr ≠ instr → outstr ≠ ckey → x.length ≤ (memory outstr).length →
        ∃ after, multiOf .reliable encrypting memory (some instr) x.length (some policy) (some ckey) m (some outstr) =
          .ok (0,after) ∧ Holds (after outstr) y) ∧
      (∃ after, multiOf .reliable encrypting memory (some instr) x.length (some policy) (some ckey) m (some instr) =
        .ok (0,after) ∧ Holds (after instr) y) ∧
      ∀ calls : List (JniSubPolicy × Nat), (calls.map Prod.fst).Perm (active policy) →
        (∀ call ∈ calls, call.2 ≠ ckey ∧ x.length ≤ (memory call.2).length) →
        ∃ last after, callEach .reliable encrypting x.length ckey m calls instr memory = .ok (0,last,after) ∧
          Holds (after last) y := by
  have fitting := reliable_fits m table
  have keeps := (pass_computes reliable_serves key full fitting encrypting).length
  have accepted := (accepted_iff short).mp valid
  have fits := ranges_fit accepted
  have held := fun outstr => holding_holds memory outstr (patchAll (fieldMap m table encrypting) x (ranges policy))
  refine ⟨_,patchAll_length keeps fits,?_,?_,?_⟩
  · intro outstr separate table_apart room
    have ran := multi_of_run reliable_serves full fitting encrypting key separate.symm table_apart.symm input room short
      policy
    rw [if_pos accepted] at ran
    exact ⟨_,ran,held outstr⟩
  · have ran := multi_of_whole full fitting encrypting key fresh.symm input input.length_le short policy reliable_serves
    rw [if_pos accepted,reads_in_place,patches_disjoint keeps fits apart] at ran
    exact ⟨_,ran,held instr⟩
  · intro calls order targets
    have reordered : (calls.map fun call => rangeOf call.1).Perm (ranges policy) := by
      have mapped := order.map rangeOf
      rwa [List.map_map] at mapped
    have within : ∀ call ∈ calls, Within x.length call.1 := fun call member =>
      accepted.2.2 _ (order.mem_iff.mp (List.mem_map_of_mem member))
    obtain ⟨last,after,ran,result⟩ := call_each_run full encrypting calls key input short within targets
    have fits' : ∀ r ∈ calls.map fun call => rangeOf call.1, r.Fits x.length :=
      fun r member => fits r (reordered.mem_iff.mp member)
    have apart' := reordered.symm.pairwise apart fun {_ _} => Range.Disjoint.symm
    rw [patches_disjoint keeps fits' apart',patchAll_congr keeps fits' fits (lastCovering_perm reordered apart')] at result
    exact ⟨last,after,ran,result⟩

theorem forms_agree_digits : ∃ y : List UInt8,
    (∃ after, multiOf .reliable false (callMemory [0x31,0x32,0x33] (tableIT.map some) (zeros 4)) (some 0) 3
        (some ⟨2,#v[⟨1,2⟩,⟨0,1⟩,⟨0,0⟩,⟨0,0⟩,⟨0,0⟩]⟩) (some 1) .cptInt (some 2) = .ok (0,after) ∧ Holds (after 2) y) ∧
    (∃ after, multiOf .reliable false (callMemory [0x31,0x32,0x33] (tableIT.map some) (zeros 4)) (some 0) 3
        (some ⟨2,#v[⟨1,2⟩,⟨0,1⟩,⟨0,0⟩,⟨0,0⟩,⟨0,0⟩]⟩) (some 1) .cptInt (some 0) = .ok (0,after) ∧ Holds (after 0) y) ∧
    ∃ last after, callEach .reliable false 3 1 .cptInt [(⟨0,1⟩,2),(⟨1,2⟩,0)] 0
        (callMemory [0x31,0x32,0x33] (tableIT.map some) (zeros 4)) = .ok (0,last,after) ∧ Holds (after last) y := by
  have key : Holds (callMemory [0x31,0x32,0x33] (tableIT.map some) (zeros 4) 1) tableIT := map_some_holds tableIT
  have input : Holds (callMemory [0x31,0x32,0x33] (tableIT.map some) (zeros 4) 0) [0x31,0x32,0x33] := map_some_holds _
  obtain ⟨y,_,batch,inside,each⟩ := forms_agree (m := .cptInt) (by decide) false key input (by decide) (by decide)
    ⟨2,#v[⟨1,2⟩,⟨0,1⟩,⟨0,0⟩,⟨0,0⟩,⟨0,0⟩]⟩ (by decide +kernel) (by decide +kernel)
  refine ⟨y,batch 2 (by decide) (by decide) (by decide),inside,each _ (by decide +kernel) fun call member => ?_⟩
  simp only [List.mem_cons,List.not_mem_nil,or_false] at member
  rcases member with rfl | rfl <;> decide

end TeradataCpt.InPlace
