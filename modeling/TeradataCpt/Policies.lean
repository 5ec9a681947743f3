import TeradataCpt.Library.RangePatches
import TeradataCpt.Fields

namespace TeradataCpt.Policies
open CSemantics RangePatches Cpt CptJni Passes Fields

def active (policy : JniPolicy) : List JniSubPolicy :=
  policy.subPolicy.toList.take policy.subPolicyNum.toInt.toNat

def rangeOf (sub : JniSubPolicy) : Range := ⟨sub.position.toInt.toNat,sub.length.toInt.toNat⟩

def ranges (policy : JniPolicy) : List Range := (active policy).map rangeOf

def Within (n : Nat) (sub : JniSubPolicy) : Prop :=
  0 ≤ sub.position.toInt ∧ 0 ≤ sub.length.toInt ∧ sub.position.toInt + sub.length.toInt ≤ n

instance (n : Nat) (sub : JniSubPolicy) : Decidable (Within n sub) :=
  inferInstanceAs (Decidable (_ ∧ _ ∧ _))

def Accepts (policy : JniPolicy) (n : Nat) : Prop :=
  0 ≤ policy.subPolicyNum.toInt ∧ policy.subPolicyNum.toInt ≤ maxSubPolicies ∧ ∀ sub ∈ active policy, Within n sub

instance (policy : JniPolicy) (n : Nat) : Decidable (Accepts policy n) :=
  inferInstanceAs (Decidable (_ ∧ _ ∧ _))

theorem active_length {policy : JniPolicy} (few : policy.subPolicyNum.toInt ≤ maxSubPolicies) :
    (active policy).length = policy.subPolicyNum.toInt.toNat := by
  simp only [active,List.length_take,Vector.length_toList]
  omega

def policyOf (subs : List JniSubPolicy) : JniPolicy :=
  ⟨Int32.ofNat subs.length,Vector.ofFn fun i : Fin maxSubPolicies => subs[i.val]?.getD ⟨0,0⟩⟩

theorem int_ofNat {n : Nat} (short : n < 2^31) : (Int32.ofNat n).toInt = n := Int32.toInt_ofNat_of_lt short

theorem active_policyOf {subs : List JniSubPolicy} (few : subs.length ≤ maxSubPolicies) :
    active (policyOf subs) = subs := by
  have number : (policyOf subs).subPolicyNum.toInt.toNat = subs.length := by
    rw [policyOf,int_ofNat (by unfold maxSubPolicies at few; omega),Int.toNat_natCast]
  apply List.ext_getElem?
  intro i
  rw [active,number,List.getElem?_take]
  split
  · rename_i bound
    rw [policyOf,List.getElem?_eq_getElem bound]
    simp [Nat.lt_of_lt_of_le bound few,bound]
  · rename_i past
    rw [List.getElem?_eq_none (by omega)]

theorem load_active {policy : JniPolicy} {i : Nat} (bound : i < (active policy).length) :
    load policy.entries i = .ok (active policy)[i] := by
  have entries : Holds policy.entries policy.subPolicy.toList := map_some_holds _
  have short : i < policy.subPolicy.toList.length := by
    simp only [active,List.length_take] at bound
    omega
  rw [entries.load short]
  simp [active]

theorem range_fits {n : Nat} {sub : JniSubPolicy} (within : Within n sub) : (rangeOf sub).Fits n := by
  obtain ⟨position,length,last⟩ := within
  simp only [Range.Fits,rangeOf]
  omega

theorem ranges_fit {policy : JniPolicy} {n : Nat} (accepted : Accepts policy n) : ∀ r ∈ ranges policy, r.Fits n := by
  intro r member
  obtain ⟨sub,inside,rfl⟩ := List.mem_map.mp member
  exact range_fits (accepted.2.2 sub inside)

-- The tests in their order, with the subtraction only where it cannot overflow.
theorem validate_at {policy : JniPolicy} {n : Nat} (short : n < 2^31) {i : Nat} (bound : i < (active policy).length) :
    validateAt policy n i () = .ok (if Within n (active policy)[i] then .next () else .returned (-1)) := by
  simp only [validateAt,load_active bound,ok_bind]
  generalize (active policy)[i] = sub
  by_cases early : sub.position.toInt < 0 ∨ sub.length.toInt < 0 ∨ sub.position.toInt > n
  · have refused : ¬ Within n sub := by unfold Within; omega
    simp only [early,refused,if_true,if_false,pure_ok]
  · have difference : subInt n sub.position.toInt = .ok (n - sub.position.toInt) := by
      unfold subInt
      rw [if_pos (by omega)]
    simp only [early,difference,ok_bind,if_false,pure_ok]
    by_cases last : sub.length.toInt > n - sub.position.toInt
    · have refused : ¬ Within n sub := by unfold Within; omega
      simp only [last,refused,if_true,if_false]
    · have allowed : Within n sub := by unfold Within; omega
      simp only [last,allowed,if_true,if_false]

theorem validate_policy (policy : JniPolicy) {n : Nat} (short : n < 2^31) :
    validatePolicy (some policy) n = .ok (if Accepts policy n then 0 else -1) := by
  unfold validatePolicy
  by_cases counted : (n : Int) < 0 ∨ policy.subPolicyNum.toInt < 0 ∨ policy.subPolicyNum.toInt > maxSubPolicies
  · have refused : ¬ Accepts policy n := by unfold Accepts; omega
    simp only [counted,refused,if_true,if_false,pure_ok]
  · have length : (active policy).length = policy.subPolicyNum.toInt.toNat := active_length (by omega)
    have scanned := scan_list (Within n) (-1) (active policy) fun i bound => validate_at short bound
    rw [length] at scanned
    simp only [counted,scanned,if_false,ok_bind]
    by_cases all : ∀ sub ∈ active policy, Within n sub
    · have allowed : Accepts policy n := ⟨by omega,by omega,all⟩
      simp only [if_pos all,if_pos allowed,pure_ok]
    · have refused : ¬ Accepts policy n := fun accepted => all accepted.2.2
      simp only [if_neg all,if_neg refused,pure_ok]

theorem accepted_iff {policy : JniPolicy} {n : Nat} (short : n < 2^31) :
    validatePolicy (some policy) n = .ok 0 ↔ Accepts policy n := by
  rw [validate_policy policy short]
  by_cases accepts : Accepts policy n <;> simp [accepts]

def holding (memory : Memory) (outstr : Nat) (values : List UInt8) : Memory :=
  Function.update memory outstr (written (memory outstr) values)

theorem holding_target (memory : Memory) (outstr : Nat) (values : List UInt8) :
    holding memory outstr values outstr = written (memory outstr) values := Function.update_self _ _ _

theorem holding_else (memory : Memory) {outstr object : Nat} (other : object ≠ outstr) (values : List UInt8) :
    holding memory outstr values object = memory object := Function.update_of_ne other _ _

theorem holding_holds (memory : Memory) (outstr : Nat) (values : List UInt8) :
    Holds (holding memory outstr values outstr) values := by
  rw [holding_target]
  exact written_holds _ _

def Served (machine : Machine) (i : Nat) : Prop :=
  machine.mallocOk (2*i) = true ∧ machine.mallocOk (2*i+1) = true

instance (machine : Machine) (i : Nat) : Decidable (Served machine i) := inferInstanceAs (Decidable (_ ∧ _))

-- What a round reads its range from: its input object, which may be the output too.
def reads (instr outstr : Nat) (x : List UInt8) (out : List UInt8) : List UInt8 := if instr = outstr then out else x

theorem reads_length (instr outstr : Nat) {x out : List UInt8} (same : out.length = x.length) :
    (reads instr outstr x out).length = x.length := by
  unfold reads
  split
  · exact same
  · rfl

theorem reads_apart {instr outstr : Nat} (apart : instr ≠ outstr) (x : List UInt8) :
    reads instr outstr x = fun _ => x := by
  funext out
  exact if_neg apart

theorem reads_in_place (object : Nat) (x : List UInt8) : reads object object x = id := by
  funext out
  exact if_pos rfl

theorem holding_length (memory : Memory) {outstr : Nat} {values : List UInt8}
    (room : values.length ≤ (memory outstr).length) (object : Nat) :
    (holding memory outstr values object).length = (memory object).length := by
  by_cases same : object = outstr
  · rw [same,holding_target,written_length _ _ room]
  · rw [holding_else memory same]

section Loop
variable {machine : Machine} {first second : Pass} {m : CptMode} {f g : List UInt8 → List UInt8} {policy : JniPolicy}
  {instr ckey outstr : Nat}

-- One range: its source bytes are transformed and put over what the buffer holds.
theorem sub_policy_step {memory : Memory} {x out : List UInt8} {object : Cells UInt8} {i : Nat}
    (served : Served machine i) (one : Computes first (memory ckey) m f) (two : Computes second (memory ckey) m g)
    (input : Holds (memory instr) x) (target : memory outstr = written object out) (same : out.length = x.length)
    (room : out.length ≤ object.length) (bound : i < (active policy).length)
    (within : Within x.length (active policy)[i]) :
    subPolicyAt machine first second instr policy ckey m outstr i memory = .ok (.next (Function.update memory outstr
      (written object (patch (fun piece => g (f piece)) x out (rangeOf (active policy)[i]))))) := by
  simp only [subPolicyAt,load_active bound,ok_bind]
  generalize (active policy)[i] = sub at within
  obtain ⟨position,length,last⟩ := within
  have fits : (rangeOf sub).Fits x.length := range_fits ⟨position,length,last⟩
  have piece := slice_length fits
  have start : sub.position.toInt = ((rangeOf sub).start : Int) := (Int.toNat_of_nonneg position).symm
  have count : sub.length.toInt = ((slice x (rangeOf sub)).length : Int) := by
    rw [piece]
    exact (Int.toNat_of_nonneg length).symm
  have size : ((slice x (rangeOf sub)).length : Int) + 1 = ((slice x (rangeOf sub)).length + 1 : Nat) := rfl
  unfold Range.Fits at fits
  have source : address (memory instr) ((rangeOf sub).start : Int) = .ok ((memory instr).drop (rangeOf sub).start) := by
    have long := input.length_le
    unfold address
    rw [if_pos (by omega)]
    rfl
  have begins : Holds ((memory instr).drop (rangeOf sub).start) (slice x (rangeOf sub)) := input.drop _ _
  obtain ⟨scratch,scratched,between⟩ := one.scratched machine.slack begins
  obtain ⟨tempout,finished,result⟩ := two.scratched machine.slack between
  rw [one.length] at finished
  have image : (g (f (slice x (rangeOf sub)))).length = (slice x (rangeOf sub)).length := by
    rw [two.length,one.length]
  have placed := copy_written object out result (rangeOf sub).start (by omega) room
  rw [image] at placed
  simp only [start,count,size,malloc_served machine served.1,malloc_served machine served.2,source,scratched,finished,
    target,placed,ok_bind,pure_ok]
  rw [piece]
  rfl

theorem sub_policy_refused {i : Nat} (refused : ¬ Served machine i) (bound : i < (active policy).length) (memory : Memory) :
    subPolicyAt machine first second instr policy ckey m outstr i memory = .ok (.returned (-1,memory)) := by
  simp only [subPolicyAt,load_active bound,ok_bind]
  cases one : machine.mallocOk (2*i) with
  | false => simp only [malloc_refused machine one,pure_ok]
  | true =>
    have two : machine.mallocOk (2*i+1) = false := by
      cases other : machine.mallocOk (2*i+1) with
      | false => rfl
      | true => exact absurd ⟨one,other⟩ refused
    rw [malloc_refused machine two]
    cases malloc machine (2*i) ((active policy)[i].length.toInt + 1) <;> rfl

section Whole
variable {memory : Memory} {x : List UInt8} (fresh : ckey ≠ outstr)
  (one : Computes first (memory ckey) m f) (two : Computes second (memory ckey) m g)
  (input : Holds (memory instr) x) (room : x.length ≤ (memory outstr).length)
include fresh one two input room

-- The invariant of the loop: the output holds the ranges so far over the input.
theorem loop_step (accepted : Accepts policy x.length) {i : Nat} (served : Served machine i)
    (bound : i < (active policy).length) :
    subPolicyAt machine first second instr policy ckey m outstr i (holding memory outstr
        (patches (reads instr outstr x) (fun piece => g (f piece)) x ((ranges policy).take i))) =
      .ok (.next (holding memory outstr
        (patches (reads instr outstr x) (fun piece => g (f piece)) x ((ranges policy).take (i+1))))) := by
  have keeps : ∀ piece, (g (f piece)).length = piece.length := fun piece => by rw [two.length,one.length]
  have count : (ranges policy).length = (active policy).length := List.length_map _
  have fits : ∀ r ∈ (ranges policy).take i, r.Fits x.length := fun r member =>
    ranges_fit accepted r (List.mem_of_mem_take member)
  have same := patches_length keeps (fun out same => reads_length instr outstr same) fits
  rw [patches_take _ _ _ _ (by omega)]
  generalize patches (reads instr outstr x) (fun piece => g (f piece)) x ((ranges policy).take i) = out at same
  have within := accepted.2.2 _ (List.getElem_mem bound)
  have oneHere : Computes first (holding memory outstr out ckey) m f := by rwa [holding_else memory fresh]
  have twoHere : Computes second (holding memory outstr out ckey) m g := by rwa [holding_else memory fresh]
  have source : Holds (holding memory outstr out instr) (reads instr outstr x out) := by
    by_cases shared : instr = outstr
    · rw [shared,reads_in_place]
      exact holding_holds memory outstr out
    · rwa [reads_apart shared,holding_else memory shared]
  have length := reads_length instr outstr same
  have step := sub_policy_step served oneHere twoHere source (holding_target memory outstr out) (by omega) (by omega)
    bound (by rwa [length])
  rw [step]
  simp [holding,ranges]

-- Either every round is served, or the first one that is not ends the call.
theorem multi_outcome (short : x.length < 2^31) (policy : JniPolicy) (accepted : Accepts policy x.length) (stop : Nat)
    (below : stop ≤ (active policy).length) (served : ∀ i < stop, Served machine i)
    (refused : stop < (active policy).length → ¬ Served machine stop) :
    multiSubPolicy machine first second memory (some instr) x.length (some policy) (some ckey) m (some outstr) =
      .ok (if stop < (active policy).length then -1 else 0,holding memory outstr
        (patches (reads instr outstr x) (fun piece => g (f piece)) x ((ranges policy).take stop))) := by
  have start : holding memory outstr (patches (reads instr outstr x) (fun piece => g (f piece)) x ((ranges policy).take 0)) =
      Function.update memory outstr (written (memory outstr) x) := rfl
  have rounds := fun i (bound : i < stop) =>
    loop_step fresh one two input room accepted (served i bound) (Nat.lt_of_lt_of_le bound below)
  simp only [multiSubPolicy,validate_policy policy short,if_pos accepted,ok_bind,nonNull,copy_values input _ room,
    ne_eq,not_true_eq_false,if_false]
  rw [← start,← active_length accepted.2.1]
  by_cases fails : stop < (active policy).length
  · have loop := scan_returned _ stop fails rounds (sub_policy_refused (refused fails) fails _)
    simp only [loop,if_pos fails,ok_bind,pure_ok]
  · have loop := scan_next _ rounds
    rw [Nat.le_antisymm below (Nat.not_lt.mp fails)] at loop ⊢
    simp only [loop,Nat.lt_irrefl,if_false,ok_bind,pure_ok]

theorem multi_whole (available : ∀ call, machine.mallocOk call = true) (short : x.length < 2^31) (policy : JniPolicy) :
    multiSubPolicy machine first second memory (some instr) x.length (some policy) (some ckey) m (some outstr) =
      .ok (if Accepts policy x.length
        then (0,holding memory outstr (patches (reads instr outstr x) (fun piece => g (f piece)) x (ranges policy)))
        else (-1,memory)) := by
  by_cases accepted : Accepts policy x.length
  · have ran := multi_outcome fresh one two input room short policy accepted (active policy).length (Nat.le_refl _)
      (fun i _ => ⟨available _,available _⟩) fun past => absurd past (Nat.lt_irrefl _)
    have all : (ranges policy).take (active policy).length = ranges policy := List.take_of_length_le (by simp [ranges])
    rw [ran,if_pos accepted,if_neg (Nat.lt_irrefl _),all]
  · simp only [multiSubPolicy,validate_policy policy short,if_neg accepted,ok_bind]
    rfl

end Whole
end Loop

def multiOf (machine : Machine) : Bool → PolicyFunction
  | true => multiSubPolicyCtEncrypt machine
  | false => multiSubPolicyCtDecrypt machine

theorem multi_of_passes {machine : Machine} {m : CptMode} {ckey : Cells UInt8} {table : List UInt8}
    (key : Holds ckey table) (full : table.length = m.len) (fits : Fits machine m table) (encrypting : Bool) :
    ∃ first second f g, multiOf machine encrypting = multiSubPolicy machine first second ∧ Computes first ckey m f ∧
      Computes second ckey m g ∧ (fun piece => g (f piece)) = fieldMap m table encrypting := by
  cases encrypting with
  | true => exact ⟨_,_,_,_,rfl,ctl_encrypt_computes key full,ctr_encrypt_computes key full,rfl⟩
  | false => exact ⟨_,_,_,_,rfl,ctr_decrypt_computes key full fits,ctl_decrypt_computes key full fits,rfl⟩

section Either
variable {machine : Machine} {m : CptMode} {table : List UInt8} (full : table.length = m.len)
  (fits : Fits machine m table) (encrypting : Bool) {memory : Memory} {instr ckey outstr : Nat} {x : List UInt8}
  (key : Holds (memory ckey) table) (fresh : ckey ≠ outstr) (input : Holds (memory instr) x)
  (room : x.length ≤ (memory outstr).length) (short : x.length < 2^31) (policy : JniPolicy)
include full fits key fresh input room short

theorem multi_of_outcome (accepted : Accepts policy x.length) (stop : Nat) (below : stop ≤ (active policy).length)
    (served : ∀ i < stop, Served machine i) (refused : stop < (active policy).length → ¬ Served machine stop) :
    multiOf machine encrypting memory (some instr) x.length (some policy) (some ckey) m (some outstr) =
      .ok (if stop < (active policy).length then -1 else 0,holding memory outstr
        (patches (reads instr outstr x) (fieldMap m table encrypting) x ((ranges policy).take stop))) := by
  obtain ⟨first,second,f,g,loops,one,two,whole⟩ := multi_of_passes key full fits encrypting
  rw [loops,← whole]
  exact multi_outcome fresh one two input room short policy accepted stop below served refused

theorem multi_of_whole (available : ∀ call, machine.mallocOk call = true) :
    multiOf machine encrypting memory (some instr) x.length (some policy) (some ckey) m (some outstr) =
      .ok (if Accepts policy x.length
        then (0,holding memory outstr (patches (reads instr outstr x) (fieldMap m table encrypting) x (ranges policy)))
        else (-1,memory)) := by
  obtain ⟨first,second,f,g,loops,one,two,whole⟩ := multi_of_passes key full fits encrypting
  rw [loops,← whole]
  exact multi_whole fresh one two input room available short policy

end Either

-- With the output in an object of its own the loop reads the original input in every round.
theorem multi_of_run {machine : Machine} (available : ∀ call, machine.mallocOk call = true) {m : CptMode}
    {table : List UInt8} (full : table.length = m.len) (fits : Fits machine m table) (encrypting : Bool)
    {memory : Memory} {instr ckey outstr : Nat} {x : List UInt8} (key : Holds (memory ckey) table)
    (apart : instr ≠ outstr) (fresh : ckey ≠ outstr) (input : Holds (memory instr) x)
    (room : x.length ≤ (memory outstr).length) (short : x.length < 2^31) (policy : JniPolicy) :
    multiOf machine encrypting memory (some instr) x.length (some policy) (some ckey) m (some outstr) =
      .ok (if Accepts policy x.length
        then (0,holding memory outstr (patchAll (fieldMap m table encrypting) x (ranges policy)))
        else (-1,memory)) := by
  rw [multi_of_whole full fits encrypting key fresh input room short policy available,reads_apart apart]
  rfl

-- ct_encrypt or ct_decrypt on these bytes alone, into a buffer with just room for
-- the terminator.
def runPass (pass : Pass) (ckey : Cells UInt8) (m : CptMode) (x : List UInt8) : Except Fault (List UInt8) := do
  let outstr ← pass (x.map some) x.length ckey m (List.replicate (x.length+1) none)
  loadAll outstr x.length

theorem run_computed {pass : Pass} {ckey : Cells UInt8} {m : CptMode} {f : List UInt8 → List UInt8}
    (computes : Computes pass ckey m f) (x : List UInt8) : runPass pass ckey m x = .ok (f x) :=
  computes.loaded _ (map_some_holds x) (by simp)

-- The bytes outside the ranges come out as they went in, and another input that
-- differs from x only there gives the same bytes inside.
theorem policy_meaning (encrypting : Bool) {m : CptMode} {table : List UInt8} (full : table.length = m.len)
    {memory : Memory} {instr ckey outstr : Nat} (key : Holds (memory ckey) table) (apart : instr ≠ outstr)
    (fresh : ckey ≠ outstr) {x : List UInt8} (input : Holds (memory instr) x)
    (room : x.length ≤ (memory outstr).length) (short : x.length < 2^31) (policy : JniPolicy) :
    ∃ status after, multiOf .reliable encrypting memory (some instr) x.length (some policy) (some ckey) m (some outstr) =
        .ok (status,after) ∧
      (status = 0 ∨ status = -1) ∧ (status = 0 ↔ Accepts policy x.length) ∧
      (status = 0 → ∀ j < x.length,
        match lastCovering (ranges policy) j with
        | none => (after outstr)[j]? = some x[j]?
        | some r => ∃ piece, runPass (passOf .reliable encrypting) (memory ckey) m (slice x r) = .ok piece ∧
            (after outstr)[j]? = some piece[j - r.start]?) ∧
      (status = 0 → ∀ (memory' : Memory) (x' : List UInt8), memory' ckey = memory ckey → Holds (memory' instr) x' →
        x'.length = x.length → x.length ≤ (memory' outstr).length →
        (∀ r ∈ ranges policy, ∀ j, r.Covers j → x'[j]? = x[j]?) →
        ∃ after', multiOf .reliable encrypting memory' (some instr) x.length (some policy) (some ckey) m
            (some outstr) = .ok (0,after') ∧
          ∀ r ∈ ranges policy, ∀ j, r.Covers j → (after' outstr)[j]? = (after outstr)[j]?) := by
  have fitting := reliable_fits m table
  have computes := pass_computes reliable_serves key full fitting encrypting
  have ran := multi_of_run reliable_serves full fitting encrypting key apart fresh input room short policy
  by_cases accepted : Accepts policy x.length
  · rw [if_pos accepted] at ran
    have fits := ranges_fit accepted
    have length := patchAll_length computes.length fits
    refine ⟨0,_,ran,.inl rfl,⟨fun _ => accepted,fun _ => rfl⟩,fun _ j bound => ?_,?_⟩
    · rw [holding_holds memory outstr _ j (by omega),patchAll_at computes.length fits]
      cases owner : lastCovering (ranges policy) j with
      | none => rfl
      | some r => exact ⟨_,run_computed computes (slice x r),rfl⟩
    · intro _ memory' x' sameKey input' size room' agree
      have accepted' : Accepts policy x'.length := by rwa [size]
      have ran' := multi_of_run reliable_serves full fitting encrypting (by rwa [sameKey]) apart fresh input' (by omega)
        (by omega) policy
      have length' := patchAll_length computes.length (ranges_fit accepted')
      rw [if_pos accepted',size] at ran'
      refine ⟨_,ran',fun r member j covers => ?_⟩
      have inside : j < x.length := Nat.lt_of_lt_of_le covers.2 (fits r member)
      rw [holding_holds memory' outstr _ j (by omega),holding_holds memory outstr _ j (by omega)]
      exact congrArg some (patchAll_local computes.length fits (ranges_fit accepted') agree member covers)
  · rw [if_neg accepted] at ran
    exact ⟨-1,memory,ran,.inr rfl,⟨fun zero => absurd zero (by decide),fun accepts => absurd accepts accepted⟩,
      fun zero => absurd zero (by decide),fun zero => absurd zero (by decide)⟩

theorem policy_meaning_digits :
    ∃ status after, multiOf .reliable true (callMemory [0x31,0x32,0x33] (tableIT.map some) (zeros 4)) (some 0) 3
        (some ⟨2,#v[⟨0,2⟩,⟨1,2⟩,⟨0,0⟩,⟨0,0⟩,⟨0,0⟩]⟩) (some 1) .cptInt (some 2) = .ok (status,after) ∧
      (status = 0 ∨ status = -1) ∧ (status = 0 ↔ Accepts ⟨2,#v[⟨0,2⟩,⟨1,2⟩,⟨0,0⟩,⟨0,0⟩,⟨0,0⟩]⟩ 3) := by
  have key : Holds (callMemory [0x31,0x32,0x33] (tableIT.map some) (zeros 4) 1) tableIT := map_some_holds tableIT
  have input : Holds (callMemory [0x31,0x32,0x33] (tableIT.map some) (zeros 4) 0) [0x31,0x32,0x33] := map_some_holds _
  have room : 3 ≤ (callMemory [0x31,0x32,0x33] (tableIT.map some) (zeros 4) 2).length := by decide
  obtain ⟨status,after,ran,codes,zero,_⟩ := policy_meaning true (m := .cptInt) (by decide) key (by decide) (by decide)
    input room (by decide) ⟨2,#v[⟨0,2⟩,⟨1,2⟩,⟨0,0⟩,⟨0,0⟩,⟨0,0⟩]⟩
  exact ⟨status,after,ran,codes,zero⟩

-- init_ckey and then the C policy function, on buffers of which none is NULL: the
-- status, and the bytes left in the output.
def policyRun (machine : Machine) (policy : JniPolicy) (key : Nat) (mode : CptMode) (encrypting : Bool)
    (input : List UInt8) : Except Fault (Int × List UInt8) := do
  let (status,memory) ← policyStatus machine (some 0) policy key mode encrypting input
  return (status,← loadAll (memory 2) input.length)

@[simp] theorem holding_call (x : List UInt8) (ckey out : Cells UInt8) (values : List UInt8) :
    holding (callMemory x ckey out) 2 values = callMemory x ckey (written out values) := by
  funext object
  by_cases output : object = 2
  · subst output
    rfl
  · rw [holding_else _ output]
    match object with
    | 0 => rfl
    | 1 => rfl
    | 2 => exact absurd rfl output
    | _+3 => rfl

section Jni
variable (machine : Machine) (available : ∀ call, machine.mallocOk call = true) (policy : JniPolicy) (inkey : Nat)
  (m : CptMode) (encrypting : Bool) {x : List UInt8} (short : x.length < 2^31)
include available short

theorem call_run {ckey out : Cells UInt8} (key : Holds ckey (keyTable inkey m encrypting))
    (room : x.length ≤ out.length) :
    multiOf machine encrypting (callMemory x ckey out) (some 0) x.length (some policy) (some 1) m (some 2) =
      .ok (if Accepts policy x.length
        then (0,callMemory x ckey (written out (patchAll (image inkey m encrypting) x (ranges policy))))
        else (-1,callMemory x ckey out)) := by
  have input : Holds (callMemory x ckey out 0) x := map_some_holds x
  have table : Holds (callMemory x ckey out 1) (keyTable inkey m encrypting) := key
  have space : x.length ≤ (callMemory x ckey out 2).length := room
  rw [multi_of_run available (keyTable_length inkey m encrypting) (keyTable_fits machine inkey m encrypting)
    encrypting table (by decide) (by decide) input space short policy,image_eq,holding_call]

theorem policy_status : policyStatus machine (some 0) policy inkey m encrypting x =
    .ok (let ckey := written (List.replicate clen none) (keyTable inkey m encrypting)
      if Accepts policy x.length
        then (0,callMemory x ckey (written (zeros (x.length+1)) (patchAll (image inkey m encrypting) x (ranges policy))))
        else (-1,callMemory x ckey (zeros (x.length+1)))) := by
  have key := written_holds (List.replicate clen none) (keyTable inkey m encrypting)
  have room : x.length ≤ (zeros (x.length+1)).length := by simp [zeros]
  have later : ∀ call, (machine.after 2).mallocOk call = true := fun call => available (2 + call)
  have ran := call_run (machine.after 2) later policy inkey m encrypting short key room
  simp only [policyStatus,key_table_run machine inkey m available,ok_bind]
  cases encrypting <;> exact ran

omit short in
-- An empty vector whose data() is NULL is refused before the policy is looked at.
theorem policy_null : policyStatus machine none policy inkey m encrypting x =
    .ok (-1,callMemory x (written (List.replicate clen none) (keyTable inkey m encrypting)) (zeros (x.length+1))) := by
  simp only [policyStatus,key_table_run machine inkey m available,ok_bind]
  cases encrypting <;> rfl

theorem policy_run : policyRun machine policy inkey m encrypting x =
    .ok (if Accepts policy x.length then (0,patchAll (image inkey m encrypting) x (ranges policy))
      else (-1,List.replicate x.length 0)) := by
  simp only [policyRun,policy_status machine available policy inkey m encrypting short,ok_bind]
  by_cases accepted : Accepts policy x.length
  · have length := patchAll_length (image_length inkey m encrypting) (ranges_fit accepted)
    have bytes := (written_holds (zeros (x.length+1)) (patchAll (image inkey m encrypting) x (ranges policy))).loadAll
    rw [length] at bytes
    simp only [if_pos accepted,callMemory,bytes,ok_bind,pure_ok]
  · have blank : Holds (zeros (x.length+1)) (List.replicate x.length 0) := by
      intro i bound
      simp only [List.length_replicate] at bound
      simp [zeros,bound,Nat.lt_succ_of_lt bound]
    have bytes := blank.loadAll
    rw [List.length_replicate] at bytes
    simp only [if_neg accepted,callMemory,bytes,ok_bind,pure_ok]

end Jni

theorem policy_reliable {policy : JniPolicy} {x : List UInt8} (short : x.length < 2^31)
    (accepted : Accepts policy x.length) (inkey : Nat) (m : CptMode) (encrypting : Bool) :
    policyRun .reliable policy inkey m encrypting x =
      .ok (0,patchAll (image inkey m encrypting) x (ranges policy)) := by
  rw [policy_run .reliable (fun _ => rfl) policy inkey m encrypting short,if_pos accepted]

-- The reference vector that the C and the Java tests share.
example : policyRun .reliable ⟨2,#v[⟨8,4⟩,⟨18,3⟩,⟨0,0⟩,⟨0,0⟩,⟨0,0⟩]⟩ 123 .cptInt true
    "foxmind_1234_text_139".toUTF8.toList = .ok (0,"foxmind_8847_text_125".toUTF8.toList) := by decide +kernel

structure Reorders (policy policy' : JniPolicy) : Prop where
  number : policy'.subPolicyNum = policy.subPolicyNum
  entries : (active policy').Perm (active policy)

theorem Reorders.accepts {policy policy' : JniPolicy} (reordered : Reorders policy policy') {n : Nat}
    (accepted : Accepts policy n) : Accepts policy' n := by
  obtain ⟨low,high,inside⟩ := accepted
  rw [← reordered.number] at low high
  exact ⟨low,high,fun sub member => inside sub (reordered.entries.mem_iff.mp member)⟩

theorem disjoint_order_independent (k : UInt64) (m : CptMode) {policy policy' : JniPolicy} {x : List UInt8}
    (short : x.length < 2^31) (valid : validatePolicy (some policy) x.length = .ok 0)
    (apart : (ranges policy).Pairwise Range.Disjoint) (reordered : Reorders policy policy') :
    ∃ y, policyRun .reliable policy k.toNat m true x = .ok (0,y) ∧
      policyRun .reliable policy' k.toNat m true x = .ok (0,y) ∧
      policyRun .reliable policy' k.toNat m false y = .ok (0,x) := by
  have accepted := (accepted_iff short).mp valid
  have accepted' := reordered.accepts accepted
  have order : (ranges policy').Perm (ranges policy) := reordered.entries.map rangeOf
  have apart' : (ranges policy').Pairwise Range.Disjoint := order.symm.pairwise apart fun {_ _} => Range.Disjoint.symm
  have keeps := image_length k.toNat m true
  have length := patchAll_length keeps (ranges_fit accepted)
  have same : patchAll (image k.toNat m true) x (ranges policy') = patchAll (image k.toNat m true) x (ranges policy) :=
    patchAll_congr keeps (ranges_fit accepted') (ranges_fit accepted) (lastCovering_perm order apart')
  have restored := patchAll_inverse keeps (image_length k.toNat m false) (cipher k.toNat m).symm_apply_apply
    (ranges_fit accepted') (settled_of_disjoint apart')
  refine ⟨_,policy_reliable short accepted k.toNat m true,?_,?_⟩
  · rw [policy_reliable short accepted',same]
  · rw [policy_reliable (by omega) (by rwa [length]),← same,restored]

theorem adjacent_order : ∃ y,
    policyRun .reliable ⟨2,#v[⟨0,2⟩,⟨2,1⟩,⟨0,0⟩,⟨0,0⟩,⟨0,0⟩]⟩ (0 : UInt64).toNat .cptInt true [0x31,0x32,0x33] = .ok (0,y) ∧
    policyRun .reliable ⟨2,#v[⟨2,1⟩,⟨0,2⟩,⟨0,0⟩,⟨0,0⟩,⟨0,0⟩]⟩ (0 : UInt64).toNat .cptInt true [0x31,0x32,0x33] = .ok (0,y) ∧
    policyRun .reliable ⟨2,#v[⟨2,1⟩,⟨0,2⟩,⟨0,0⟩,⟨0,0⟩,⟨0,0⟩]⟩ (0 : UInt64).toNat .cptInt false y =
      .ok (0,[0x31,0x32,0x33]) :=
  disjoint_order_independent 0 .cptInt (by decide) (by decide +kernel) (by decide +kernel) ⟨rfl,by decide +kernel⟩

end TeradataCpt.Policies
