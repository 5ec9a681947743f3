import TeradataCpt.HeapDiscipline
import TeradataCpt.AllocationFailures
import TeradataCpt.ScratchBuffers

namespace TeradataCpt.HeapRuns
open CSemantics Interaction CHeap Cpt Passes KeyTables Policies AllocationFailures ScratchBuffers HeapDiscipline CptJni

inductive CCall where
  | initCkey (inkey : Nat) (cptmode : CptMode) (keymod : KeyMode) (ckey : Cells UInt8)
  | ctEncrypt (instr : Cells UInt8) (inlen : Int) (ckey : Cells UInt8) (cptmode : CptMode) (outstr : Cells UInt8)
  | ctDecrypt (instr : Cells UInt8) (inlen : Int) (ckey : Cells UInt8) (cptmode : CptMode) (outstr : Cells UInt8)
  | autoCtEncrypt (instr ckey : Cells UInt8) (cptmode : CptMode) (outstr : Cells UInt8)
  | autoCtDecrypt (instr ckey : Cells UInt8) (cptmode : CptMode) (outstr : Cells UInt8)
  | substrCtEncrypt (instr : Cells UInt8) (startpos inlen : Int) (ckey : Cells UInt8) (cptmode : CptMode)
      (outstr : Cells UInt8)
  | multiSubPolicyCtEncrypt (memory : Memory) (instr : Pointer) (inlen : Int) (policy : Option JniPolicy)
      (ckey : Pointer) (cptmode : CptMode) (outstr : Pointer)
  | multiSubPolicyCtDecrypt (memory : Memory) (instr : Pointer) (inlen : Int) (policy : Option JniPolicy)
      (ckey : Pointer) (cptmode : CptMode) (outstr : Pointer)

@[reducible] def CCall.Result : CCall → Type
  | .multiSubPolicyCtEncrypt _ _ _ _ _ _ _ | .multiSubPolicyCtDecrypt _ _ _ _ _ _ _ => Int × Memory
  | _ => Cells UInt8

def CCall.plain (machine : Machine) : (call : CCall) → Except Fault call.Result
  | .initCkey inkey cptmode keymod ckey => Cpt.initCkey machine inkey cptmode keymod ckey
  | .ctEncrypt instr inlen ckey cptmode outstr => Cpt.ctEncrypt machine instr inlen ckey cptmode outstr
  | .ctDecrypt instr inlen ckey cptmode outstr => Cpt.ctDecrypt machine instr inlen ckey cptmode outstr
  | .autoCtEncrypt instr ckey cptmode outstr => Cpt.autoCtEncrypt machine instr ckey cptmode outstr
  | .autoCtDecrypt instr ckey cptmode outstr => Cpt.autoCtDecrypt machine instr ckey cptmode outstr
  | .substrCtEncrypt instr startpos inlen ckey cptmode outstr =>
    Cpt.substrCtEncrypt machine instr startpos inlen ckey cptmode outstr
  | .multiSubPolicyCtEncrypt memory instr inlen policy ckey cptmode outstr =>
    Cpt.multiSubPolicyCtEncrypt machine memory instr inlen policy ckey cptmode outstr
  | .multiSubPolicyCtDecrypt memory instr inlen policy ckey cptmode outstr =>
    Cpt.multiSubPolicyCtDecrypt machine memory instr inlen policy ckey cptmode outstr

def CCall.run (machine : Machine) : (call : CCall) → HeapProg call.Result
  | .initCkey inkey cptmode keymod ckey => HeapCode.initCkey inkey cptmode keymod ckey machine
  | .ctEncrypt instr inlen ckey cptmode outstr => HeapCode.ctEncrypt instr inlen ckey cptmode outstr
  | .ctDecrypt instr inlen ckey cptmode outstr => HeapCode.ctDecrypt machine instr inlen ckey cptmode outstr
  | .autoCtEncrypt instr ckey cptmode outstr => HeapCode.autoCtEncrypt instr ckey cptmode outstr
  | .autoCtDecrypt instr ckey cptmode outstr => HeapCode.autoCtDecrypt machine instr ckey cptmode outstr
  | .substrCtEncrypt instr startpos inlen ckey cptmode outstr =>
    HeapCode.substrCtEncrypt instr startpos inlen ckey cptmode outstr
  | .multiSubPolicyCtEncrypt memory instr inlen policy ckey cptmode outstr =>
    HeapCode.multiSubPolicyCtEncrypt memory instr inlen policy ckey cptmode outstr
  | .multiSubPolicyCtDecrypt memory instr inlen policy ckey cptmode outstr =>
    HeapCode.multiSubPolicyCtDecrypt machine memory instr inlen policy ckey cptmode outstr

theorem call_tidy (call : CCall) : Tidy 3 (fun machine => call.plain machine) (fun machine => call.run machine) := by
  have steady (pass : Pass) : Steady fun _ => pass := fun _ _ => rfl
  have right : Steady ctrDecrypt := fun _ _ => rfl
  have left : Steady ctlDecrypt := fun _ _ => rfl
  have sizedCtl (machine : Machine) : Sized ctlEncrypt := (passes_sized machine).1
  have sizedCtr (machine : Machine) : Sized ctrEncrypt := (passes_sized machine).2.1
  have sizedLeft (machine : Machine) : Sized (ctlDecrypt machine) := (passes_sized machine).2.2.1
  have sizedRight (machine : Machine) : Sized (ctrDecrypt machine) := (passes_sized machine).2.2.2
  cases call with
  | initCkey inkey cptmode keymod ckey => exact Tidy.mono (by decide : 2 ≤ 3) (init_ckey_tidy inkey cptmode keymod ckey)
  | ctEncrypt instr inlen ckey cptmode outstr =>
    exact Tidy.mono (by decide : 1 ≤ 3) (scratch_tidy 1 (steady _) (steady _) sizedCtl instr inlen ckey cptmode outstr)
  | ctDecrypt instr inlen ckey cptmode outstr =>
    exact Tidy.mono (by decide : 1 ≤ 3) (scratch_tidy 1 right left sizedRight instr inlen ckey cptmode outstr)
  | autoCtEncrypt instr ckey cptmode outstr =>
    exact Tidy.mono (by decide : 1 ≤ 3) (auto_tidy (steady _) (steady _) sizedCtl instr ckey cptmode outstr)
  | autoCtDecrypt instr ckey cptmode outstr =>
    exact Tidy.mono (by decide : 1 ≤ 3) (auto_tidy right left sizedRight instr ckey cptmode outstr)
  | substrCtEncrypt instr startpos inlen ckey cptmode outstr => exact substr_tidy instr startpos inlen ckey cptmode outstr
  | multiSubPolicyCtEncrypt memory instr inlen policy ckey cptmode outstr =>
    exact Tidy.mono (by decide : 2 ≤ 3)
      (multi_tidy (steady _) (steady _) sizedCtl sizedCtr memory instr inlen policy ckey cptmode outstr)
  | multiSubPolicyCtDecrypt memory instr inlen policy ckey cptmode outstr =>
    exact Tidy.mono (by decide : 2 ≤ 3)
      (multi_tidy right left sizedRight sizedLeft memory instr inlen policy ckey cptmode outstr)

-- The heaps that calls leave behind: any functions with any arguments, in any order, on
-- a machine whose mallocs fail as they like.
inductive Reached (machine : Machine) (start : Heap) : Heap → Prop where
  | start : Reached machine start start
  | returned {s s' : Heap} {call : CCall} {result : call.Result} : Reached machine start s →
      Ends (heapContract machine (s.live + 3) fun _ => False) (call.run machine) s result s' → Reached machine start s'

theorem reached_restored {machine : Machine} {start s : Heap} (reached : Reached machine start s) :
    s.blocks = start.blocks ∧ s.live = start.live := by
  induction reached with
  | start => exact ⟨rfl,rfl⟩
  | @returned s s' call result _ ended same =>
    obtain ⟨_,blocks,live⟩ := ((secures_iff _ _ _).mp (call_tidy call machine s)).2 _ _ (ends_change ended rfl)
    exact ⟨blocks.trans same.1,live.trans same.2⟩

structure Table (machine : Machine) (cptmode : CptMode) (ckey : Cells UInt8) (table : List UInt8) : Prop where
  key : Holds ckey table
  full : table.length = cptmode.len
  fits : Fits machine cptmode table

-- Arguments that the functions take without a fault. The auto functions and
-- substr_ct_encrypt need a malloc that hands out a cell too many, and only the policy
-- functions look at what malloc returned.
def CCall.Proper (machine : Machine) : CCall → Prop
  | .initCkey _ cptmode _ ckey => (∀ call, machine.mallocOk call = true) ∧ cptmode.len ≤ ckey.length
  | .ctEncrypt instr inlen ckey cptmode outstr | .ctDecrypt instr inlen ckey cptmode outstr =>
    (∀ call, machine.mallocOk call = true) ∧ ∃ x table, Holds instr x ∧ inlen = x.length ∧
      Table machine cptmode ckey table ∧ x.length < outstr.length
  | .autoCtEncrypt instr ckey cptmode outstr | .autoCtDecrypt instr ckey cptmode outstr =>
    (∀ call, machine.mallocOk call = true) ∧ 0 < machine.slack ∧ ∃ s table, Holds instr (s ++ [0]) ∧ 0 ∉ s ∧
      s.length < 2^31 ∧ Table machine cptmode ckey table ∧ s.length < outstr.length
  | .substrCtEncrypt instr startpos inlen ckey cptmode outstr =>
    (∀ call, machine.mallocOk call = true) ∧ 0 < machine.slack ∧ ∃ (s table : List UInt8) (first count : Nat),
      Holds instr (s ++ [0]) ∧ 0 ∉ s ∧ startpos = first ∧ inlen = count ∧ first + count ≤ s.length ∧
        Table machine cptmode ckey table ∧ s.length ≤ outstr.length
  | .multiSubPolicyCtEncrypt memory instr inlen _ ckey cptmode outstr
  | .multiSubPolicyCtDecrypt memory instr inlen _ ckey cptmode outstr =>
    ∀ input key output, instr = some input → ckey = some key → outstr = some output → ∃ x table,
      Holds (memory input) x ∧ inlen = x.length ∧ x.length < 2^31 ∧ Table machine cptmode (memory key) table ∧
        key ≠ output ∧ x.length ≤ (memory output).length

section Proper
variable {machine : Machine}

theorem multi_ends (encrypting : Bool) {memory : Memory} {instr ckey outstr : Pointer} {inlen : Int}
    {policy : Option JniPolicy} {m : CptMode}
    (proper : ∀ input key output, instr = some input → ckey = some key → outstr = some output → ∃ x table,
      Holds (memory input) x ∧ inlen = x.length ∧ x.length < 2^31 ∧ Table machine m (memory key) table ∧
        key ≠ output ∧ x.length ≤ (memory output).length) :
    ∃ result, multiOf machine encrypting memory instr inlen policy ckey m outstr = .ok result := by
  obtain ⟨first,second,loops⟩ : ∃ first second, multiOf machine encrypting = multiSubPolicy machine first second := by
    cases encrypting <;> exact ⟨_,_,rfl⟩
  cases instr with
  | none => exact ⟨_,by rw [loops]; rfl⟩
  | some input =>
    cases ckey with
    | none => exact ⟨_,by rw [loops]; rfl⟩
    | some key =>
      cases outstr with
      | none => exact ⟨_,by rw [loops]; rfl⟩
      | some output =>
        obtain ⟨x,table,known,rfl,short,fine,apart,room⟩ := proper input key output rfl rfl rfl
        by_cases rejected : Rejected (some input) (some key) (some output) policy x.length
        · exact ⟨_,rejected_run rejected⟩
        · obtain ⟨_,_,_,policy,rfl,accepted⟩ := not_rejected short rejected
          have outcome := multi_of_outcome fine.full fine.fits encrypting fine.key apart known room short policy accepted
          by_cases fails : ∃ i, i < (active policy).length ∧ ¬ Served machine i
          · obtain ⟨within,refused⟩ := Nat.find_spec fails
            refine ⟨_,outcome (Nat.find fails) (Nat.le_of_lt within) (fun i before => ?_) fun _ => refused⟩
            by_contra unserved
            exact Nat.find_min fails before ⟨Nat.lt_trans before within,unserved⟩
          · refine ⟨_,outcome (active policy).length (Nat.le_refl _) (fun i before => ?_) fun past =>
              absurd past (Nat.lt_irrefl _)⟩
            by_contra unserved
            exact fails ⟨i,before,unserved⟩

theorem proper_ends {call : CCall} (proper : call.Proper machine) : ∃ result, call.plain machine = .ok result := by
  cases call with
  | initCkey inkey cptmode keymod ckey =>
    obtain ⟨available,room⟩ := proper
    cases keymod with
    | encryptKey => exact ⟨_,init_encrypt machine inkey available room⟩
    | decryptKey => exact ⟨_,init_decrypt machine inkey available room⟩
  | ctEncrypt instr inlen ckey cptmode outstr =>
    obtain ⟨available,x,table,input,rfl,fine,room⟩ := proper
    exact ⟨_,(ct_encrypt_computes available fine.key fine.full).run outstr input room⟩
  | ctDecrypt instr inlen ckey cptmode outstr =>
    obtain ⟨available,x,table,input,rfl,fine,room⟩ := proper
    exact ⟨_,(ct_decrypt_computes available fine.key fine.full fine.fits).run outstr input room⟩
  | autoCtEncrypt instr ckey cptmode outstr =>
    obtain ⟨available,roomy,s,table,text,plain,short,fine,room⟩ := proper
    obtain ⟨extra,slack⟩ := Nat.exists_eq_succ_of_ne_zero (Nat.ne_of_gt roomy)
    exact ⟨_,auto_run available slack fine.full fine.fits fine.key plain short text room true⟩
  | autoCtDecrypt instr ckey cptmode outstr =>
    obtain ⟨available,roomy,s,table,text,plain,short,fine,room⟩ := proper
    obtain ⟨extra,slack⟩ := Nat.exists_eq_succ_of_ne_zero (Nat.ne_of_gt roomy)
    exact ⟨_,auto_run available slack fine.full fine.fits fine.key plain short text room false⟩
  | substrCtEncrypt instr startpos inlen ckey cptmode outstr =>
    obtain ⟨available,roomy,s,table,first,count,text,plain,rfl,rfl,within,fine,room⟩ := proper
    obtain ⟨extra,slack⟩ := Nat.exists_eq_succ_of_ne_zero (Nat.ne_of_gt roomy)
    exact ⟨_,substr_roomy fine.key fine.full text plain within room available slack⟩
  | multiSubPolicyCtEncrypt memory instr inlen policy ckey cptmode outstr => exact multi_ends true proper
  | multiSubPolicyCtDecrypt memory instr inlen policy ckey cptmode outstr => exact multi_ends false proper

end Proper

-- After any run the heap is as it was before it. A call keeps to allocated blocks and
-- their sizes, holds three at most, and can fault only as its function does on the
-- mallocs it gets at that point, so with proper arguments not at all; when it returns
-- it has given back every block and its result is its function's on these mallocs.
theorem calls_give_back (machine : Machine) {start s : Heap} (reached : Reached machine start s) :
    s.blocks = start.blocks ∧ s.live = start.live ∧ ∀ call : CCall,
      ¬ Breaks (heapContract machine (start.live + 3) fun fault => call.plain (machine.after s.calls) = .error fault)
        (call.run machine) s ∧
      (call.Proper (machine.after s.calls) →
        ¬ Breaks (heapContract machine (start.live + 3) fun _ => False) (call.run machine) s) ∧
      ∀ result s', Ends (heapContract machine (start.live + 3) fun fault =>
          call.plain (machine.after s.calls) = .error fault) (call.run machine) s result s' →
        call.plain (machine.after s.calls) = .ok result ∧ s'.blocks = s.blocks ∧ s'.live = s.live := by
  obtain ⟨blocks,live⟩ := reached_restored reached
  refine ⟨blocks,live,fun call => ?_⟩
  have tidy := call_tidy call machine s
  rw [live] at tidy
  obtain ⟨kept,ends⟩ := (secures_iff _ _ _).mp tidy
  refine ⟨kept,fun proper => ?_,?_⟩
  · obtain ⟨result,ran⟩ := proper_ends proper
    have faultless (fault : Fault) (failed : call.plain (machine.after s.calls) = .error fault) : False := by
      rw [ran] at failed
      cases failed
    exact ((secures_iff _ _ _).mp (looser (Nat.le_refl _) faultless tidy)).1
  · intro result s' ended
    obtain ⟨ran,same,held⟩ := ends result s' ended
    exact ⟨ran,same,held.trans live.symm⟩

-- A policy call whose first malloc fails, and init_ckey on the mallocs after it.
theorem calls_give_back_refused :
    ∃ s, Reached (failing fun call => 0 < call) ⟨fun _ => none,0,0⟩ s ∧ s.calls = 2 ∧
      ¬ Breaks (heapContract (failing fun call => 0 < call) 3 fun _ => False)
        ((CCall.initCkey 7 .cptInt .encryptKey (List.replicate 10 none)).run (failing fun call => 0 < call)) s := by
  let start : Heap := ⟨fun _ => none,0,0⟩
  let scratch : Heap := {start with calls := 1}
  let tempout : Heap := {scratch.put .char 0 [none,none] with live := 1, calls := 2}
  have refused : Promises (failing fun call => 0 < call) (.malloc .char 2) start none scratch := .inl ⟨rfl,rfl,rfl⟩
  have served : Promises (failing fun call => 0 < call) (.malloc .char 2) scratch (some 0) tempout :=
    .inr ⟨0,_,rfl,rfl,rfl,rfl⟩
  have unheld : Promises (failing fun call => 0 < call) (.free none) tempout () tempout := rfl
  have freed : Promises (failing fun call => 0 < call) (.free (some 0)) tempout () (tempout.drop 0) := rfl
  have ended : ∃ result, Ends (heapContract (failing fun call => 0 < call) 3 fun _ => False)
      ((CCall.multiSubPolicyCtEncrypt (callMemory [0x31] (tableIT.map some) (zeros 2)) (some 0) 1
        (some ⟨1,#v[⟨0,1⟩,⟨0,0⟩,⟨0,0⟩,⟨0,0⟩,⟨0,0⟩]⟩) (some 1) .cptInt (some 2)).run (failing fun call => 0 < call))
      start result (tempout.drop 0) :=
    ⟨_,.call refused (.call served
      (@Ends.call _ _ _ _ _ _ () _ _ _ _ _ unheld (@Ends.call _ _ _ _ _ _ () _ _ _ _ _ freed .done)))⟩
  obtain ⟨result,ended⟩ := ended
  have reached : Reached (failing fun call => 0 < call) start (tempout.drop 0) := .returned .start ended
  refine ⟨_,reached,rfl,((calls_give_back _ reached).2.2 _).2.1 ?_⟩
  exact ⟨fun call => by simp [failing,Machine.after,tempout],by decide⟩

end TeradataCpt.HeapRuns
