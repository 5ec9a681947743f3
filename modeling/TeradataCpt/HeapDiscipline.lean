import TeradataCpt.HeapCode

namespace TeradataCpt.HeapDiscipline
open CSemantics Interaction CHeap Cpt HeapCode

-- A pass leaves its output as long as it is.
def Sized (pass : Pass) : Prop :=
  ∀ instr inlen ckey cptmode outstr out, pass instr inlen ckey cptmode outstr = .ok out → out.length = outstr.length

section Sizes
variable {instr ckey outstr out : Cells UInt8} {cptmode : CptMode} {edge side index : Int} {i count : Nat}
  {body : Nat → Cells UInt8 → Except Fault (Cells UInt8)}

theorem computed_store {first : Except Fault β} {value : β → UInt8}
    (ran : (first >>= fun found => store outstr index (value found)) = .ok out) : out.length = outstr.length := by
  obtain ⟨found,_,stored⟩ := ok_of_bind ran
  exact store_length stored

theorem encrypt_at_length (ran : encryptAt instr ckey cptmode edge side i outstr = .ok out) :
    out.length = outstr.length := by
  obtain ⟨byte,_,ran⟩ := ok_of_bind ran
  split at ran
  · exact store_length ran
  · split at ran
    · exact computed_store ran
    · obtain ⟨near,_,ran⟩ := ok_of_bind ran
      split at ran
      · exact computed_store ran
      · exact computed_store ran

theorem decrypt_at_length {machine : Machine} (ran : decryptAt machine instr ckey cptmode edge side i outstr = .ok out) :
    out.length = outstr.length := by
  obtain ⟨byte,_,ran⟩ := ok_of_bind ran
  split at ran
  · exact store_length ran
  · split at ran
    · exact computed_store ran
    · obtain ⟨near,_,ran⟩ := ok_of_bind ran
      split at ran
      · exact computed_store ran
      · obtain ⟨entry,_,ran⟩ := ok_of_bind ran
        split at ran
        · exact computed_store ran
        · exact computed_store ran

-- A loop and the terminator stored behind it.
theorem up_length (round : ∀ i before after, body i before = .ok after → after.length = before.length)
    (ran : (forUp count body outstr >>= fun filled => store filled index 0) = .ok out) : out.length = outstr.length := by
  obtain ⟨filled,looped,ended⟩ := ok_of_bind ran
  exact (store_length ended).trans (forUp_keeps (fun cells => cells.length = outstr.length)
    (fun i before after one same => (round i before after one).trans same) rfl looped)

theorem down_length (round : ∀ i before after, body i before = .ok after → after.length = before.length)
    (ran : (forDown count body outstr >>= fun filled => store filled index 0) = .ok out) : out.length = outstr.length := by
  obtain ⟨filled,looped,ended⟩ := ok_of_bind ran
  exact (store_length ended).trans (forDown_keeps (fun cells => cells.length = outstr.length)
    (fun i before after one same => (round i before after one).trans same) rfl looped)

end Sizes

theorem passes_sized (machine : Machine) :
    Sized ctlEncrypt ∧ Sized ctrEncrypt ∧ Sized (ctlDecrypt machine) ∧ Sized (ctrDecrypt machine) := by
  refine ⟨?_,?_,?_,?_⟩ <;> intro instr inlen ckey cptmode outstr out ran
  · exact up_length (fun _ _ _ => encrypt_at_length) ran
  · exact down_length (fun _ _ _ => encrypt_at_length) ran
  · exact up_length (fun _ _ _ => decrypt_at_length) ran
  · exact down_length (fun _ _ _ => decrypt_at_length) ran

structure SameSize (before after : KeyCells) : Prop where
  T : after.T.length = before.T.length
  mod : after.mod.length = before.mod.length

theorem encrypt_round_sized {inkey tlen i : Nat} {before after : KeyCells}
    (ran : encryptRound inkey tlen i before = .ok after) : SameSize before after := by
  obtain ⟨mod,stored,ran⟩ := ok_of_bind ran
  obtain ⟨position,_,ran⟩ := ok_of_bind ran
  obtain ⟨chosen,_,ran⟩ := ok_of_bind ran
  obtain ⟨ckey,_,ran⟩ := ok_of_bind ran
  obtain ⟨T,copied,ran⟩ := ok_of_bind ran
  cases ran
  exact ⟨copy_length copied,store_length stored⟩

theorem decrypt_round_sized {machine : Machine} {inkey tlen offset i : Nat} {before after : KeyCells}
    (ran : decryptRound machine inkey tlen offset i before = .ok after) : SameSize before after := by
  obtain ⟨mod,stored,ran⟩ := ok_of_bind ran
  obtain ⟨position,_,ran⟩ := ok_of_bind ran
  obtain ⟨chosen,_,ran⟩ := ok_of_bind ran
  obtain ⟨byte,_,ran⟩ := ok_of_bind ran
  obtain ⟨ckey,_,ran⟩ := ok_of_bind ran
  obtain ⟨T,copied,ran⟩ := ok_of_bind ran
  cases ran
  exact ⟨copy_length copied,store_length stored⟩

theorem rounds_sized {count : Nat} {round : Nat → KeyCells → Except Fault KeyCells}
    (each : ∀ i before after, round i before = .ok after → SameSize before after) {start final : KeyCells}
    (ran : forUp count round start = .ok final) : SameSize start final :=
  forUp_keeps (SameSize start) (fun i before after one same =>
    ⟨(each i before after one).T.trans same.T,(each i before after one).mod.trans same.mod⟩) ⟨rfl,rfl⟩ ran

section Rules
variable {machine : Machine} {limit : Nat} {mayCrash : Fault → Prop} {post : α → Heap → Prop} {s : Heap}

theorem passes_into {pass : Pass} (sized : Sized pass) {instr ckey old : Cells UInt8} {inlen : Int} {cptmode : CptMode}
    {block : Nat} {rest : Unit → HeapProg α} (here : s.blocks block = some ⟨.char,old⟩)
    (crashes : ∀ fault, pass instr inlen ckey cptmode old = .error fault → mayCrash fault)
    (next : ∀ cells, pass instr inlen ckey cptmode old = .ok cells →
      Secures (heapContract machine limit mayCrash) (rest ()) post (s.put .char block cells)) :
    Secures (heapContract machine limit mayCrash) (passInto pass instr inlen ckey cptmode block >>= rest) post s := by
  rw [secures_bind]
  refine reads .char old here (computes crashes fun cells ran => ⟨⟨old,here,sized _ _ _ _ _ _ ran⟩,?_⟩)
  rintro _ s' rfl
  exact next cells ran

theorem passes_from {pass : Pass} {ckey outstr cells : Cells UInt8} {inlen : Int} {cptmode : CptMode} {block : Nat}
    {rest : Cells UInt8 → HeapProg α} (here : s.blocks block = some ⟨.char,cells⟩)
    (crashes : ∀ fault, pass cells inlen ckey cptmode outstr = .error fault → mayCrash fault)
    (next : ∀ out, pass cells inlen ckey cptmode outstr = .ok out →
      Secures (heapContract machine limit mayCrash) (rest out) post s) :
    Secures (heapContract machine limit mayCrash) (passFrom pass block inlen ckey cptmode outstr >>= rest) post s := by
  rw [secures_bind]
  refine reads .char cells here ?_
  rw [← secures_bind]
  exact computes crashes next

end Rules

-- Tables and passes do not depend on which mallocs succeed.
def Steady (pass : Machine → Pass) : Prop := ∀ machine calls, pass (machine.after calls) = pass machine

theorem scratch_tidy (spare : Int) {first second : Machine → Pass} (steadyFirst : Steady first)
    (steadySecond : Steady second) (sized : ∀ machine, Sized (first machine)) (instr : Cells UInt8) (inlen : Int)
    (ckey : Cells UInt8) (cptmode : CptMode) (outstr : Cells UInt8) :
    Tidy 1 (fun machine => do
        let scratch ← nonNull (malloc machine 0 (inlen + spare))
        let scratch ← first machine instr inlen ckey cptmode scratch
        second machine scratch inlen ckey cptmode outstr)
      (fun machine => scratchPasses spare (first machine) (second machine) instr inlen ckey cptmode outstr) := by
  intro machine s
  simp only [steadyFirst machine,steadySecond machine,malloc_after,Nat.add_zero]
  refine allocates (Nat.lt_succ_self _) (fun refused => derefs_null ?_) fun block cells s1 grown => ?_
  · simp only [refused]
    rfl
  · simp only [grown.served,nonNull,ok_bind]
    refine passes_into (sized machine) grown.here (fun _ => error_of_first) fun filled ran => ?_
    simp only [ran,ok_bind]
    refine passes_from (put_here _ _ _) (fun fault failed => failed) fun out done => ?_
    refine frees (by simp) ⟨done,?_,by simp [grown.live]⟩
    refine restored [block] ?_ ?_ ?_
    · simpa using grown.fresh
    · simp
    · intro other apart
      have different : other ≠ block := by simpa using apart
      simp [different,grown.others other different]

theorem init_ckey_tidy (inkey : Nat) (cptmode : CptMode) (keymod : KeyMode) (ckey : Cells UInt8) :
    Tidy 2 (fun machine => Cpt.initCkey machine inkey cptmode keymod ckey) (initCkey inkey cptmode keymod ckey) := by
  intro machine s
  simp only [Cpt.initCkey,malloc_after,Nat.add_zero]
  refine allocates (by omega) (fun refused => derefs_null ?_) fun tBlock T s1 tGrown => ?_
  · simp only [refused]
    rfl
  · simp only [tGrown.served,nonNull,ok_bind]
    refine reads .char T tGrown.here (computes (fun _ => error_of_first) fun table copied => ?_)
    simp only [copied,ok_bind]
    refine writes .char T tGrown.here (copy_length copied) ?_
    refine allocates (by simp [tGrown.live]) (fun refused => derefs_null ?_) fun modBlock mod s2 modGrown => ?_
    · rw [put_calls,tGrown.calls] at refused
      simp only [refused]
      rfl
    · have served := modGrown.served
      rw [put_calls,tGrown.calls] at served
      simp only [served,ok_bind]
      have apart : tBlock ≠ modBlock := modGrown.apart (put_here s1 .char table)
      have held : s2.blocks tBlock = some ⟨.char,table⟩ := by rw [modGrown.others tBlock apart,put_here]
      refine reads .char table held (reads .int mod modGrown.here ?_)
      cases keymod with
      | encryptKey | decryptKey =>
        refine computes (fun fault failed => ?_) fun cells rounds => ?_
        · refine Eq.trans (congrArg (· >>= _) failed) ?_
          rfl
        · have same : SameSize ⟨table,mod,ckey⟩ cells := by
            first
            | exact rounds_sized (fun _ _ _ => encrypt_round_sized) rounds
            | exact rounds_sized (fun _ _ _ => decrypt_round_sized) rounds
          refine writes .int mod modGrown.here same.mod (writes .char table (by simp [apart,held]) same.T ?_)
          refine frees (by simp [apart.symm]) (frees (by simp [apart]) ⟨?_,?_,?_⟩)
          · exact congrArg (· >>= _) rounds
          · have fresh : s.blocks modBlock = none := by
              simpa [apart.symm,tGrown.others modBlock apart.symm] using modGrown.fresh
            refine restored [tBlock,modBlock] ?_ ?_ fun block own => ?_
            · simp [tGrown.fresh,fresh]
            · simp [apart.symm]
            · simp only [List.mem_cons,List.not_mem_nil,or_false,not_or] at own
              simp [own,modGrown.others,tGrown.others]
          · simp [modGrown.live,tGrown.live]

theorem sub_policy_tidy {first second : Pass} (sizedFirst : Sized first) (sizedSecond : Sized second) (instr : Nat)
    (policy : JniPolicy) (ckey : Nat) (cptmode : CptMode) (outstr i : Nat) (memory : Memory) {machine : Machine}
    {calls limit : Nat} {s : Heap} (index : s.calls = calls + 2*i) (space : s.live + 2 ≤ limit) {mayCrash : Fault → Prop}
    (crashes : ∀ fault, Cpt.subPolicyAt (machine.after calls) first second instr policy ckey cptmode outstr i memory =
      .error fault → mayCrash fault) :
    Secures (heapContract machine limit mayCrash)
      (subPolicyAt first second instr policy ckey cptmode outstr i memory)
      (fun flow s' => Cpt.subPolicyAt (machine.after calls) first second instr policy ckey cptmode
        outstr i memory = .ok flow ∧ s'.blocks = s.blocks ∧ s'.live = s.live ∧ s'.calls = s.calls + 2) s := by
  simp only [Cpt.subPolicyAt] at crashes ⊢
  refine computes (fun fault failed => crashes fault (error_of_first failed)) fun sub loaded => ?_
  simp only [loaded,ok_bind,malloc_after,← Nat.add_assoc,← index] at crashes ⊢
  refine allocates (by omega) (fun refused => ?_) fun scratch cells s1 grown => ?_
  · simp only [refused] at crashes ⊢
    refine allocates (by simp; omega) (fun _ => frees_null (frees_null ⟨rfl,rfl,rfl,rfl⟩))
      fun tempout cells' s2 grown' => ?_
    refine frees_null (frees (by simp [grown'.here]) ⟨rfl,?_,by simp [grown'.live],by simp [grown'.calls]⟩)
    refine restored [tempout] ?_ ?_ fun block own => ?_
    · simpa using grown'.fresh
    · simp
    · have apart : block ≠ tempout := by simpa using own
      simp [apart,grown'.others]
  · refine allocates (by rw [grown.live]; omega) (fun refused => ?_) fun tempout cells' s2 grown' => ?_
    · rw [grown.calls] at refused
      refine frees (by simp [grown.here]) (frees_null ⟨?_,?_,by simp [grown.live],by simp [grown.calls]⟩)
      · simp only [grown.served,refused]
        rfl
      · refine restored [scratch] ?_ ?_ fun block own => ?_
        · simpa using grown.fresh
        · simp
        · have apart : block ≠ scratch := by simpa using own
          simp [apart,grown.others]
    · have served := grown'.served
      rw [grown.calls] at served
      simp only [grown.served,served] at crashes ⊢
      have apart : scratch ≠ tempout := grown'.apart grown.here
      have held : s2.blocks scratch = some ⟨.char,cells⟩ := by rw [grown'.others scratch apart,grown.here]
      refine computes (fun fault failed => crashes fault (error_of_first failed)) fun source placed => ?_
      simp only [placed,ok_bind] at crashes ⊢
      refine passes_into sizedFirst held (fun fault failed => crashes fault (error_of_first failed)) fun filled ran => ?_
      simp only [ran,ok_bind] at crashes ⊢
      refine reads .char cells' (by simp [apart.symm,grown'.here]) ?_
      refine passes_from (put_here _ _ _) (fun fault failed => crashes fault (error_of_first failed)) fun out ran' => ?_
      simp only [ran',ok_bind] at crashes ⊢
      refine writes .char cells' (by simp [apart.symm,grown'.here]) (sizedSecond _ _ _ _ _ _ ran') ?_
      refine reads .char out (put_here _ _ _) ?_
      refine computes (fun fault failed => crashes fault (error_of_first failed)) fun target copied => ?_
      simp only [copied,ok_bind]
      refine frees (by simp [apart]) (frees (by simp [apart.symm]) ⟨rfl,?_,?_,?_⟩)
      · have fresh : s.blocks tempout = none := by rw [← grown.others tempout apart.symm,grown'.fresh]
        refine restored [scratch,tempout] ?_ ?_ fun block own => ?_
        · simp [grown.fresh,fresh]
        · simp [apart]
        · simp only [List.mem_cons,List.not_mem_nil,or_false,not_or] at own
          simp [own,grown.others,grown'.others]
      · simp [grown.live,grown'.live]
      · simp [grown.calls,grown'.calls]

theorem multi_tidy {first second : Machine → Pass} (steadyFirst : Steady first) (steadySecond : Steady second)
    (sizedFirst : ∀ machine, Sized (first machine)) (sizedSecond : ∀ machine, Sized (second machine)) (memory : Memory)
    (instr : Pointer) (inlen : Int) (policy : Option JniPolicy) (ckey : Pointer) (cptmode : CptMode) (outstr : Pointer) :
    Tidy 2 (fun machine => Cpt.multiSubPolicy machine (first machine) (second machine) memory instr inlen policy ckey
        cptmode outstr)
      (fun machine => multiSubPolicy (first machine) (second machine) memory instr inlen policy ckey cptmode outstr) := by
  intro machine s
  simp only [steadyFirst machine,steadySecond machine]
  cases instr with
  | none => exact ⟨rfl,rfl,rfl⟩
  | some instr =>
    cases ckey with
    | none => exact ⟨rfl,rfl,rfl⟩
    | some ckey =>
      cases outstr with
      | none => exact ⟨rfl,rfl,rfl⟩
      | some outstr =>
        simp only [Cpt.multiSubPolicy]
        refine computes (fun _ => error_of_first) fun status valid => ?_
        simp only [valid,ok_bind]
        by_cases refused : status ≠ 0
        · simp only [if_pos refused]
          exact ⟨rfl,rfl,rfl⟩
        · simp only [if_neg refused]
          refine computes (fun _ => error_of_first) fun policy here => ?_
          simp only [here]
          refine computes (fun fault failed => ?_) fun copied ran => ?_
          · simp only [ok_bind,failed]
            rfl
          · simp only [ok_bind,ran]
            rw [secures_bind]
            refine (loops
              (Cpt.subPolicyAt (machine.after s.calls) (first machine) (second machine) instr policy ckey cptmode outstr)
              (fun i s' => s'.blocks = s.blocks ∧ s'.live = s.live ∧ s'.calls = s.calls + 2*i)
              ⟨rfl,rfl,rfl⟩ (fun fault failed => ?_) ?_).mono ?_
            · rw [failed]
              rfl
            · rintro i _ value s1 ⟨blocks,live,calls⟩ crashes
              refine (sub_policy_tidy (sizedFirst machine) (sizedSecond machine) instr policy ckey cptmode outstr i
                value calls (by omega) crashes).mono ?_
              rintro flow s2 ⟨one,blocks',live',calls'⟩
              exact ⟨one,blocks'.trans blocks,live'.trans live,by omega⟩
            · rintro flow s1 ⟨looped,i,blocks,live,_⟩
              simp only [looped,ok_bind]
              cases flow with
              | returned result => exact ⟨rfl,blocks,live⟩
              | next memory' => exact ⟨rfl,blocks,live⟩

theorem auto_tidy {first second : Machine → Pass} (steadyFirst : Steady first) (steadySecond : Steady second)
    (sized : ∀ machine, Sized (first machine)) (instr ckey : Cells UInt8) (cptmode : CptMode) (outstr : Cells UInt8) :
    Tidy 1 (fun machine => Cpt.autoPasses machine (first machine) (second machine) instr ckey cptmode outstr)
      (fun machine => autoPasses (first machine) (second machine) instr ckey cptmode outstr) := by
  intro machine s
  simp only [Cpt.autoPasses]
  refine computes (fun _ => error_of_first) fun length counted => ?_
  have tidy := scratch_tidy 0 steadyFirst steadySecond sized instr (Int32.ofNat length).toInt ckey cptmode outstr
    machine s
  simp only [Int.add_zero] at tidy
  simp only [counted,ok_bind]
  exact tidy

theorem substr_tidy (instr : Cells UInt8) (startpos inlen : Int) (ckey : Cells UInt8) (cptmode : CptMode)
    (outstr : Cells UInt8) :
    Tidy 3 (fun machine => Cpt.substrCtEncrypt machine instr startpos inlen ckey cptmode outstr)
      (fun _ => substrCtEncrypt instr startpos inlen ckey cptmode outstr) := by
  intro machine s
  simp only [Cpt.substrCtEncrypt,malloc_after,Nat.add_zero]
  obtain ⟨sizedLeft,sizedRight,_⟩ := passes_sized machine
  refine mallocs (by omega) fun ctl s1 ctlGiven => ?_
  obtain ⟨live1,calls1,_⟩ := grows ctlGiven
  refine mallocs (by omega) fun tempout s2 tempoutGiven => ?_
  obtain ⟨live2,calls2,keeps2⟩ := grows tempoutGiven
  refine mallocs (by omega) fun substr s3 substrGiven => ?_
  obtain ⟨_,_,keeps3⟩ := grows substrGiven
  have second : s2.calls = s.calls + 2 := by omega
  refine computes (fun _ => error_of_first) fun length counted => ?_
  simp only [counted,ok_bind]
  refine computes (fun _ => error_of_first) fun copied ran => ?_
  simp only [ran,ok_bind]
  rcases grown_or_refused substrGiven with ⟨refused,rfl,rfl⟩ | ⟨substrBlock,substrCells,rfl,substrGrown⟩
  · refine derefs_null ?_
    rw [second] at refused
    simp only [refused]
    rfl
  · have served := substrGrown.served
    rw [second] at served
    simp only [served,nonNull,ok_bind]
    refine reads .char substrCells substrGrown.here (computes (fun _ => error_of_first) fun piece copied' => ?_)
    simp only [copied',ok_bind]
    refine writes .char substrCells substrGrown.here (copy_length copied') ?_
    rcases grown_or_refused ctlGiven with ⟨refused,rfl,rfl⟩ | ⟨ctlBlock,ctlCells,rfl,ctlGrown⟩
    · refine derefs_null ?_
      simp only [refused]
      rfl
    · simp only [ctlGrown.served,ok_bind]
      have ctlAtTwo := keeps2 _ _ ctlGrown.here
      have ctlHeld := keeps3 _ _ ctlAtTwo
      have ctlApart : ctlBlock ≠ substrBlock := substrGrown.apart ctlAtTwo
      refine reads .char ctlCells (by simp [ctlApart,ctlHeld]) ?_
      refine passes_from (put_here _ _ _) (fun _ => error_of_first) fun left ran' => ?_
      simp only [ran',ok_bind]
      refine writes .char ctlCells (by simp [ctlApart,ctlHeld]) (sizedLeft _ _ _ _ _ _ ran') ?_
      rcases grown_or_refused tempoutGiven with ⟨refused,rfl,rfl⟩ | ⟨tempoutBlock,tempoutCells,rfl,tempoutGrown⟩
      · refine derefs_null ?_
        rw [calls1] at refused
        simp only [refused]
        rfl
      · have served' := tempoutGrown.served
        rw [calls1] at served'
        simp only [served',ok_bind]
        have tempoutHeld := keeps3 _ _ tempoutGrown.here
        have tempoutApart : tempoutBlock ≠ substrBlock := substrGrown.apart tempoutGrown.here
        have between : ctlBlock ≠ tempoutBlock := tempoutGrown.apart ctlGrown.here
        refine reads .char tempoutCells (by simp [between.symm,tempoutApart,tempoutHeld]) ?_
        refine passes_from (put_here _ _ _) (fun _ => error_of_first) fun out ran'' => ?_
        simp only [ran'',ok_bind]
        refine writes .char tempoutCells (by simp [between.symm,tempoutApart,tempoutHeld])
          (sizedRight _ _ _ _ _ _ ran'') ?_
        refine reads .char out (put_here _ _ _) (computes (fun fault failed => failed) fun result done => ?_)
        refine frees (by simp [between]) (frees (by simp [between.symm]) (frees ?_ ⟨done,?_,?_⟩))
        · simp [ctlApart.symm,tempoutApart.symm]
        · have tempoutFresh : s.blocks tempoutBlock = none := by
            rw [← ctlGrown.others tempoutBlock between.symm,tempoutGrown.fresh]
          have substrFresh : s.blocks substrBlock = none := by
            rw [← ctlGrown.others substrBlock ctlApart.symm,← tempoutGrown.others substrBlock tempoutApart.symm,
              substrGrown.fresh]
          refine restored [ctlBlock,tempoutBlock,substrBlock] ?_ ?_ fun block own => ?_
          · simp [ctlGrown.fresh,tempoutFresh,substrFresh]
          · simp [ctlApart,tempoutApart,between]
          · simp only [List.mem_cons,List.not_mem_nil,or_false,not_or] at own
            simp [own,ctlGrown.others,tempoutGrown.others,substrGrown.others]
        · simp [substrGrown.live,tempoutGrown.live,ctlGrown.live]

end TeradataCpt.HeapDiscipline
