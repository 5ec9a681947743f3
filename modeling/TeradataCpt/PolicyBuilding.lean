import TeradataCpt.Policies

namespace TeradataCpt.PolicyBuilding
open CSemantics RangePatches Cpt CptJni Policies

-- Calls on one policy; a sub-policy object is named by a number.
inductive Call where
  | newSub (object : Nat) (position length : Int32)
  | addSub (object : Nat)
  deriving DecidableEq

def Call.Adds : Call → Bool
  | .newSub _ _ _ => false
  | .addSub _ => true

abbrev Objects := Nat → Option JniSubPolicy

structure Building where
  objects : Objects
  policy : PolicyCells

def step (state : Building) : Call → Except Fault Building
  | .newSub object position length =>
    .ok {state with objects := Function.update state.objects object (some (newSubPolicy position length))}
  | .addSub object => do
    let policy ← addSubPolicy state.policy (state.objects object)
    return {state with policy := policy}

def run (state : Building) : List Call → Except Fault Building
  | [] => .ok state
  | call :: rest => do run (← step state call) rest

-- What the calls add, in their order, each as it was when it was added.
def added (objects : Objects) : List Call → List (Option JniSubPolicy)
  | [] => []
  | .newSub object position length :: rest =>
    added (Function.update objects object (some (newSubPolicy position length))) rest
  | .addSub object :: rest => objects object :: added objects rest

def start (objects : Objects) (policy : PolicyCells) : Building := ⟨objects,newPolicy policy⟩

structure WellBuilt (entries : List (Option JniSubPolicy)) (policy : PolicyCells) : Prop where
  low : 0 ≤ policy.subPolicyNum.toInt
  high : policy.subPolicyNum.toInt ≤ maxSubPolicies
  entries : policy.subPolicy.toList.take policy.subPolicyNum.toInt.toNat = entries

theorem WellBuilt.number {entries : List (Option JniSubPolicy)} {policy : PolicyCells} (built : WellBuilt entries policy) :
    policy.subPolicyNum.toInt.toNat = entries.length := by
  have high := built.high
  rw [← built.entries,List.length_take,Vector.length_toList]
  omega

theorem start_built (objects : Objects) (policy : PolicyCells) : WellBuilt [] (start objects policy).policy :=
  ⟨show 0 ≤ (0 : Int32).toInt by decide,show (0 : Int32).toInt ≤ 5 by decide,rfl⟩

theorem add_built {entries : List (Option JniSubPolicy)} {policy : PolicyCells} (built : WellBuilt entries policy)
    (room : entries.length < maxSubPolicies) (sub : Option JniSubPolicy) :
    ∃ after, addSubPolicy policy sub = .ok after ∧ WellBuilt (entries ++ [sub]) after := by
  have number := built.number
  have low := built.low
  have small : policy.subPolicyNum.toInt < 5 := by unfold maxSubPolicies at room; omega
  have next : (policy.subPolicyNum + 1).toInt = policy.subPolicyNum.toInt + 1 := by
    rw [Int32.toInt_add]
    exact Int.bmod_eq_of_le (by simp; omega) (by simp; omega)
  refine ⟨_,dif_pos ⟨low,by omega⟩,by simp only [next]; omega,?_,?_⟩
  · simp only [next]
    unfold maxSubPolicies
    omega
  · have index : (policy.subPolicyNum.toInt + 1).toNat = policy.subPolicyNum.toInt.toNat + 1 := by omega
    have old := built.entries
    simp only [next,index,Vector.toList_set,List.take_add_one,List.take_set_of_le (Nat.le_refl _),old]
    rw [List.getElem?_set_self (by rw [Vector.length_toList]; omega)]
    rfl

theorem add_overruns {entries : List (Option JniSubPolicy)} {policy : PolicyCells} (built : WellBuilt entries policy)
    (full : entries.length = maxSubPolicies) (sub : Option JniSubPolicy) :
    addSubPolicy policy sub = .error .outOfBounds := by
  have number := built.number
  exact dif_neg fun bound => by omega

theorem run_built (calls : List Call) {state : Building} {entries : List (Option JniSubPolicy)}
    (built : WellBuilt entries state.policy) :
    if entries.length + calls.countP Call.Adds ≤ maxSubPolicies then
      ∃ after, run state calls = .ok after ∧ WellBuilt (entries ++ added state.objects calls) after.policy
    else run state calls = .error .outOfBounds := by
  induction calls generalizing state entries with
  | nil =>
    have room : entries.length ≤ maxSubPolicies := by
      have number := built.number
      have high := built.high
      omega
    rw [if_pos (by simpa using room)]
    exact ⟨state,rfl,by simpa [added] using built⟩
  | cons call rest ih =>
    cases call with
    | newSub object position length =>
      simp only [run,step,ok_bind,added]
      exact ih built
    | addSub object =>
      have count : (Call.addSub object :: rest).countP Call.Adds = rest.countP Call.Adds + 1 :=
        List.countP_cons_of_pos rfl
      by_cases room : entries.length < maxSubPolicies
      · obtain ⟨policy,stored,longer⟩ := add_built built room (state.objects object)
        have grown : WellBuilt (entries ++ [state.objects object]) {state with policy := policy}.policy := longer
        have later := ih grown
        have shift : (entries ++ [state.objects object]).length + rest.countP Call.Adds =
            entries.length + (rest.countP Call.Adds + 1) := by
          rw [List.length_append,List.length_singleton]
          omega
        rw [shift,← count,List.append_assoc,List.singleton_append] at later
        simpa only [run,step,stored,ok_bind,pure_ok,added] using later
      · have full : entries.length = maxSubPolicies := by
          have number := built.number
          have high := built.high
          omega
        rw [if_neg (by omega)]
        simp only [run,step,add_overruns built full]
        rfl

-- The array is what bounds a policy: as long as at most five sub-policies are added,
-- every point of the run has them in their order, and the next one is stored past
-- the end.
theorem built_iff (objects : Objects) (policy : PolicyCells) (calls : List Call) :
    ((∀ before, before <+: calls → ∃ state, run (start objects policy) before = .ok state ∧
        WellBuilt (added objects before) state.policy) ↔ calls.countP Call.Adds ≤ maxSubPolicies) ∧
    (run (start objects policy) calls = .error .outOfBounds ↔ maxSubPolicies < calls.countP Call.Adds) := by
  have outcome := fun calls => run_built calls (start_built objects policy)
  simp only [List.length_nil,Nat.zero_add,List.nil_append] at outcome
  have whole := outcome calls
  refine ⟨⟨fun good => ?_,fun few before initial => ?_⟩,⟨fun overruns => ?_,fun many => ?_⟩⟩
  · by_contra many
    rw [if_neg many] at whole
    obtain ⟨state,ran,_⟩ := good calls (List.prefix_refl calls)
    rw [whole] at ran
    cases ran
  · have fewer : before.countP Call.Adds ≤ maxSubPolicies := Nat.le_trans initial.sublist.countP_le few
    have here := outcome before
    rwa [if_pos fewer] at here
  · by_contra few
    rw [if_pos (Nat.not_lt.mp few)] at whole
    obtain ⟨state,ran,_⟩ := whole
    rw [ran] at overruns
    cases overruns
  · rwa [if_neg (Nat.not_le.mpr many)] at whole

theorem sixth_overruns :
    run (start (fun _ => some ⟨0,1⟩) ⟨0,Vector.replicate maxSubPolicies none⟩) (List.replicate 6 (.addSub 0)) =
      .error .outOfBounds := rfl

-- The struct as validate_policy reads it, where something was stored.
structure ReadAs (cells : PolicyCells) (policy : JniPolicy) : Prop where
  number : policy.subPolicyNum = cells.subPolicyNum
  entries : ∀ (i : Nat) sub, cells.subPolicy.toList[i]? = some (some sub) → policy.subPolicy.toList[i]? = some sub

theorem built_active {subs : List JniSubPolicy} {cells : PolicyCells} {policy : JniPolicy}
    (built : WellBuilt (subs.map some) cells) (read : ReadAs cells policy) : active policy = subs := by
  have number := built.number
  rw [List.length_map] at number
  apply List.ext_getElem?
  intro i
  rw [active,read.number,number,List.getElem?_take]
  split
  · rename_i bound
    have stored : cells.subPolicy.toList[i]? = some (some subs[i]) := by
      have taken := congrArg (·[i]?) built.entries
      simp only [List.getElem?_take,number,if_pos bound] at taken
      rw [taken,List.getElem?_map,List.getElem?_eq_getElem bound]
      rfl
    rw [read.entries i _ stored,List.getElem?_eq_getElem bound]
  · rename_i past
    rw [List.getElem?_eq_none (by omega)]

theorem built_valid {subs : List JniSubPolicy} {cells : PolicyCells} {policy : JniPolicy} {n : Nat} (short : n < 2^31)
    (built : WellBuilt (subs.map some) cells) (read : ReadAs cells policy) :
    validatePolicy (some policy) n = .ok 0 ↔ ∀ sub ∈ subs, Within n sub := by
  rw [accepted_iff short,← built_active built read]
  constructor
  · intro accepted
    exact accepted.2.2
  · intro inside
    refine ⟨?_,?_,inside⟩
    · rw [read.number]
      exact built.low
    · rw [read.number]
      exact built.high

end TeradataCpt.PolicyBuilding
