import TeradataCpt.Library.CSemantics

namespace Interaction
open CSemantics

-- A program that asks its environment for things and goes on with the answers.
inductive Prog (Op : Type u) (Ans : Op → Type v) (α : Type w) where
  | done (value : α)
  | call (op : Op) (next : Ans op → Prog Op Ans α)

-- What the caller of an operation owes, and what may come back: an answer and the
-- state behind it.
structure Contract (Op : Type u) (Ans : Op → Type v) (σ : Type w) where
  needs : Op → σ → Prop
  gives : (op : Op) → σ → Ans op → σ → Prop

def Prog.bind {Op : Type u} {Ans : Op → Type v} : Prog Op Ans α → (α → Prog Op Ans β) → Prog Op Ans β
  | .done value,rest => rest value
  | .call op next,rest => .call op fun answer => (next answer).bind rest

instance {Op : Type u} {Ans : Op → Type v} : Monad (Prog Op Ans) where
  pure := .done
  bind := .bind

variable {Op : Type u} {Ans : Op → Type v} {σ : Type w}

def ask (op : Op) : Prog Op Ans (Ans op) := .call op .done

def scan : Nat → (Nat → τ → Prog Op Ans (Outcome ρ τ)) → τ → Prog Op Ans (Outcome ρ τ)
  | 0,_,value => .done (.next value)
  | count+1,body,value => do
    match ← scan count body value with
    | .returned result => return .returned result
    | .next value => body count value

-- The runs: one that ends with a value, and one that comes to a call whose caller
-- does not keep the contract.
inductive Ends (contract : Contract Op Ans σ) : Prog Op Ans α → σ → α → σ → Prop where
  | done : Ends contract (.done value) s value s
  | call : contract.gives op s answer s' → Ends contract (next answer) s' value s'' →
      Ends contract (.call op next) s value s''

inductive Breaks (contract : Contract Op Ans σ) : Prog Op Ans α → σ → Prop where
  | now : ¬ contract.needs op s → Breaks contract (.call op next) s
  | later : contract.gives op s answer s' → Breaks contract (next answer) s' → Breaks contract (.call op next) s

theorem ends_change {contract other : Contract Op Ans σ} {program : Prog Op Ans α} {s : σ} {value : α} {s' : σ}
    (ended : Ends contract program s value s') (gives : contract.gives = other.gives) : Ends other program s value s' := by
  induction ended with
  | done => exact .done
  | call given _ ih => exact .call (gives ▸ given) ih

-- Every call keeps the contract, and every end has the property, whatever comes back.
def Secures (contract : Contract Op Ans σ) : Prog Op Ans α → (α → σ → Prop) → σ → Prop
  | .done value,post,s => post value s
  | .call op next,post,s =>
    contract.needs op s ∧ ∀ answer s', contract.gives op s answer s' → Secures contract (next answer) post s'

variable {contract : Contract Op Ans σ}

theorem secures_bind (program : Prog Op Ans α) (rest : α → Prog Op Ans β) (post : β → σ → Prop) (s : σ) :
    Secures contract (program >>= rest) post s ↔
      Secures contract program (fun value => Secures contract (rest value) post) s := by
  induction program generalizing s with
  | done value => exact Iff.rfl
  | call op next ih =>
    constructor
    · rintro ⟨owed,after⟩
      exact ⟨owed,fun answer s' given => (ih answer s').mp (after answer s' given)⟩
    · rintro ⟨owed,after⟩
      exact ⟨owed,fun answer s' given => (ih answer s').mpr (after answer s' given)⟩

theorem Secures.mono {program : Prog Op Ans α} {post weaker : α → σ → Prop} {s : σ}
    (secures : Secures contract program post s) (implies : ∀ value s', post value s' → weaker value s') :
    Secures contract program weaker s := by
  induction program generalizing s with
  | done value => exact implies value s secures
  | call op next ih => exact ⟨secures.1,fun answer s' given => ih answer (secures.2 answer s' given)⟩

theorem Secures.weaken {needs : Op → σ → Prop} {program : Prog Op Ans α} {post : α → σ → Prop} {s : σ}
    (secures : Secures contract program post s) (less : ∀ op s, contract.needs op s → needs op s) :
    Secures ⟨needs,contract.gives⟩ program post s := by
  induction program generalizing s with
  | done value => exact secures
  | call op next ih => exact ⟨less op s secures.1,fun answer s' given => ih answer (secures.2 answer s' given)⟩

-- The two readings agree: what is computed along the program, and what its runs do.
theorem secures_iff (program : Prog Op Ans α) (post : α → σ → Prop) (s : σ) : Secures contract program post s ↔
    ¬ Breaks contract program s ∧ ∀ value s', Ends contract program s value s' → post value s' := by
  induction program generalizing s with
  | done value =>
    constructor
    · intro holds
      refine ⟨?_,?_⟩
      · intro broken
        cases broken
      · intro value s' ended
        cases ended
        exact holds
    · intro runs
      exact runs.2 value s .done
  | call op next ih =>
    constructor
    · rintro ⟨owed,after⟩
      refine ⟨?_,?_⟩
      · intro broken
        cases broken with
        | now missing => exact missing owed
        | later given broken => exact ((ih _ _).mp (after _ _ given)).1 broken
      · intro value s' ended
        cases ended with
        | call given rest => exact ((ih _ _).mp (after _ _ given)).2 value s' rest
    · rintro ⟨kept,ends⟩
      refine ⟨Classical.byContradiction fun missing => kept (.now missing),?_⟩
      intro answer s' given
      exact (ih answer s').mpr
        ⟨fun broken => kept (.later given broken),fun value s'' ended => ends value s'' (.call given ended)⟩

-- An environment that computes its answers; `none` is a call it has no answer for.
def follow (respond : (op : Op) → σ → Option (Ans op × σ)) : Prog Op Ans α → σ → Option (α × σ)
  | .done value,s => some (value,s)
  | .call op next,s =>
    match respond op s with
    | none => none
    | some (answer,s') => follow respond (next answer) s'

-- Where it answers every call that keeps the contract and keeps its own invariant,
-- it leads every program to its end.
theorem secures_follow {respond : (op : Op) → σ → Option (Ans op × σ)} (invariant : σ → Prop)
    (answers : ∀ op s, contract.needs op s → invariant s →
      ∃ answer s', respond op s = some (answer,s') ∧ contract.gives op s answer s' ∧ invariant s')
    {program : Prog Op Ans α} {post : α → σ → Prop} {s : σ} (secures : Secures contract program post s)
    (holds : invariant s) :
    ∃ value s', follow respond program s = some (value,s') ∧ Ends contract program s value s' ∧ post value s' ∧
      invariant s' := by
  induction program generalizing s with
  | done value => exact ⟨value,s,rfl,.done,secures,holds⟩
  | call op next ih =>
    obtain ⟨answer,s',answered,given,kept⟩ := answers op s secures.1 holds
    obtain ⟨value,s'',followed,ended,holds⟩ := ih answer (secures.2 answer s' given) kept
    refine ⟨value,s'',?_,.call given ended,holds⟩
    unfold follow
    rw [answered]
    exact followed

def Flows (leaves : ρ → σ → Prop) (goes : τ → σ → Prop) : Outcome ρ τ → σ → Prop
  | .returned result => leaves result
  | .next value => goes value

theorem secures_scan {body : Nat → τ → Prog Op Ans (Outcome ρ τ)} {count : Nat} (leaves : ρ → σ → Prop)
    (invariant : Nat → τ → σ → Prop) {value : τ} {s : σ} (start : invariant 0 value s)
    (step : ∀ i < count, ∀ value s, invariant i value s →
      Secures contract (body i value) (Flows leaves (invariant (i+1))) s) :
    Secures contract (scan count body value) (Flows leaves (invariant count)) s := by
  induction count with
  | zero => exact start
  | succ count ih =>
    rw [scan,secures_bind]
    refine (ih fun i bound => step i (Nat.lt_succ_of_lt bound)).mono ?_
    intro flow s' holds
    cases flow with
    | returned result => exact holds
    | next value => exact step count (Nat.lt_succ_self count) value s' holds

end Interaction
