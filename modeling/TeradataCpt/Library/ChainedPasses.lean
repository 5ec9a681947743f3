import Mathlib.Algebra.Group.Basic
import Mathlib.Logic.Equiv.Defs
import Mathlib.Data.List.Basic

namespace ChainedPasses
variable {α β : Type _}

-- Left to right; a step sees the previous output.
def feedback (f : Option α → α → α) (prev : Option α) : List α → List α
  | [] => []
  | a :: rest => f prev a :: feedback f (some (f prev a)) rest

-- Left to right; a step sees the previous input.
def feedforward (f : Option α → α → α) (prev : Option α) : List α → List α
  | [] => []
  | a :: rest => f prev a :: feedforward f (some a) rest

def feedbackRight (f : Option α → α → α) : List α → List α
  | [] => []
  | a :: rest => f (feedbackRight f rest).head? a :: feedbackRight f rest

def feedforwardRight (f : Option α → α → α) : List α → List α
  | [] => []
  | a :: rest => f rest.head? a :: feedforwardRight f rest

-- Both directions over each other, so that every output depends on every input.
def encipher (f : Option α → α → α) (xs : List α) : List α := feedbackRight f (feedback f none xs)
def decipher (g : Option α → α → α) (xs : List α) : List α := feedforward g none (feedforwardRight g xs)

section Shape
variable (f : Option α → α → α)

@[simp] theorem feedback_length (prev : Option α) (xs : List α) : (feedback f prev xs).length = xs.length := by
  induction xs generalizing prev with
  | nil => rfl
  | cons a rest ih => simp [feedback,ih]

@[simp] theorem feedforward_length (prev : Option α) (xs : List α) :
    (feedforward f prev xs).length = xs.length := by
  induction xs generalizing prev with
  | nil => rfl
  | cons a rest ih => simp [feedforward,ih]

@[simp] theorem feedbackRight_length (xs : List α) : (feedbackRight f xs).length = xs.length := by
  induction xs with
  | nil => rfl
  | cons a rest ih => simp [feedbackRight,ih]

@[simp] theorem feedforwardRight_length (xs : List α) : (feedforwardRight f xs).length = xs.length := by
  induction xs with
  | nil => rfl
  | cons a rest ih => simp [feedforwardRight,ih]

@[simp] theorem encipher_length (xs : List α) : (encipher f xs).length = xs.length := by simp [encipher]
@[simp] theorem decipher_length (xs : List α) : (decipher f xs).length = xs.length := by simp [decipher]

theorem feedback_at (prev : Option α) (xs : List α) (i : Nat) :
    (feedback f prev xs)[i]? = xs[i]?.map (f (if i = 0 then prev else (feedback f prev xs)[i-1]?)) := by
  induction xs generalizing prev i with
  | nil => simp [feedback]
  | cons a rest ih =>
    cases i with
    | zero => simp [feedback]
    | succ i =>
      simp only [feedback,List.getElem?_cons_succ,ih (some (f prev a)) i]
      cases i <;> simp

theorem feedforward_at (prev : Option α) (xs : List α) (i : Nat) :
    (feedforward f prev xs)[i]? = xs[i]?.map (f (if i = 0 then prev else xs[i-1]?)) := by
  induction xs generalizing prev i with
  | nil => simp [feedforward]
  | cons a rest ih =>
    cases i with
    | zero => simp [feedforward]
    | succ i =>
      simp only [feedforward,List.getElem?_cons_succ,ih (some a) i]
      cases i <;> simp

theorem feedbackRight_at (xs : List α) (i : Nat) :
    (feedbackRight f xs)[i]? = xs[i]?.map (f (feedbackRight f xs)[i+1]?) := by
  induction xs generalizing i with
  | nil => simp [feedbackRight]
  | cons a rest ih =>
    cases i with
    | zero => simp [feedbackRight,List.head?_eq_getElem?]
    | succ i => simpa [feedbackRight] using ih i

theorem feedforwardRight_at (xs : List α) (i : Nat) :
    (feedforwardRight f xs)[i]? = xs[i]?.map (f xs[i+1]?) := by
  induction xs generalizing i with
  | nil => simp [feedforwardRight]
  | cons a rest ih =>
    cases i with
    | zero => simp [feedforwardRight,List.head?_eq_getElem?]
    | succ i => simpa [feedforwardRight] using ih i

theorem encipher_at {xs : List α} {i : Nat} {a : α} (item : xs[i]? = some a) :
    ∃ p q, (encipher f xs)[i]? = some (f q (f p a)) := by
  rw [encipher,feedbackRight_at,feedback_at,item]
  exact ⟨_,_,rfl⟩

theorem decipher_at {xs : List α} {i : Nat} {a : α} (item : xs[i]? = some a) :
    ∃ p q, (decipher f xs)[i]? = some (f q (f p a)) := by
  have inner := feedforwardRight_at f xs i
  rw [item] at inner
  rw [decipher,feedforward_at,inner]
  exact ⟨_,_,rfl⟩

end Shape

-- A symbol that every step leaves alone and that resets the step next to it.
structure Barrier (f : Option α → α → α) (b : α) : Prop where
  stays : ∀ p, f p b = b
  resets : ∀ a, f (some b) a = f none a

section Barriers
variable {f : Option α → α → α} {b : α} (barrier : Barrier f b)
include barrier

theorem feedback_barrier (prev : Option α) (xs ys : List α) :
    feedback f prev (xs ++ b :: ys) = feedback f prev xs ++ b :: feedback f none ys := by
  induction xs generalizing prev with
  | nil => cases ys <;> simp [feedback,barrier.stays,barrier.resets]
  | cons a rest ih => simp [feedback,ih]

theorem feedforward_barrier (prev : Option α) (xs ys : List α) :
    feedforward f prev (xs ++ b :: ys) = feedforward f prev xs ++ b :: feedforward f none ys := by
  induction xs generalizing prev with
  | nil => cases ys <;> simp [feedforward,barrier.stays,barrier.resets]
  | cons a rest ih => simp [feedforward,ih]

theorem head_barrier (a : α) (xs ys : List α) : f (xs ++ b :: ys).head? a = f xs.head? a := by
  cases xs with
  | nil => exact barrier.resets a
  | cons c rest => rfl

theorem feedbackRight_barrier (xs ys : List α) :
    feedbackRight f (xs ++ b :: ys) = feedbackRight f xs ++ b :: feedbackRight f ys := by
  induction xs with
  | nil => simp [feedbackRight,barrier.stays]
  | cons a rest ih => simp only [List.cons_append,feedbackRight,ih,head_barrier barrier]

theorem feedforwardRight_barrier (xs ys : List α) :
    feedforwardRight f (xs ++ b :: ys) = feedforwardRight f xs ++ b :: feedforwardRight f ys := by
  induction xs with
  | nil => simp [feedforwardRight,barrier.stays]
  | cons a rest ih => simp only [List.cons_append,feedforwardRight,ih,head_barrier barrier]

theorem encipher_barrier (xs ys : List α) : encipher f (xs ++ b :: ys) = encipher f xs ++ b :: encipher f ys := by
  rw [encipher,feedback_barrier barrier,feedbackRight_barrier barrier,encipher,encipher]

theorem decipher_barrier (xs ys : List α) : decipher f (xs ++ b :: ys) = decipher f xs ++ b :: decipher f ys := by
  rw [decipher,feedforwardRight_barrier barrier,feedforward_barrier barrier,decipher,decipher]

end Barriers

section Inverse
variable {f g : Option α → α → α}

theorem feedforward_feedback (inverse : ∀ p a, g p (f p a) = a) (prev : Option α) (xs : List α) :
    feedforward g prev (feedback f prev xs) = xs := by
  induction xs generalizing prev with
  | nil => rfl
  | cons a rest ih => simp [feedback,feedforward,inverse,ih]

theorem feedback_feedforward (inverse : ∀ p a, f p (g p a) = a) (prev : Option α) (xs : List α) :
    feedback f prev (feedforward g prev xs) = xs := by
  induction xs generalizing prev with
  | nil => rfl
  | cons a rest ih => simp [feedback,feedforward,inverse,ih]

theorem feedforwardRight_feedbackRight (inverse : ∀ p a, g p (f p a) = a) (xs : List α) :
    feedforwardRight g (feedbackRight f xs) = xs := by
  induction xs with
  | nil => rfl
  | cons a rest ih => simp [feedbackRight,feedforwardRight,inverse,ih]

theorem feedbackRight_feedforwardRight (inverse : ∀ p a, f p (g p a) = a) (xs : List α) :
    feedbackRight f (feedforwardRight g xs) = xs := by
  induction xs with
  | nil => rfl
  | cons a rest ih => simp [feedbackRight,feedforwardRight,inverse,ih]

theorem decipher_encipher (inverse : ∀ p a, g p (f p a) = a) (xs : List α) :
    decipher g (encipher f xs) = xs := by
  rw [decipher,encipher,feedforwardRight_feedbackRight inverse,feedforward_feedback inverse]

theorem encipher_decipher (inverse : ∀ p a, f p (g p a) = a) (xs : List α) :
    encipher f (decipher g xs) = xs := by
  rw [decipher,encipher,feedback_feedforward inverse,feedbackRight_feedforwardRight inverse]

end Inverse

-- A coding of the symbols that commutes with the steps commutes with the passes.
section Coding
variable {f : Option α → α → α} {g : Option β → β → β} {code : α → β}

theorem feedback_code (steps : ∀ p a, code (f p a) = g (p.map code) (code a)) (prev : Option α) (xs : List α) :
    (feedback f prev xs).map code = feedback g (prev.map code) (xs.map code) := by
  induction xs generalizing prev with
  | nil => rfl
  | cons a rest ih => simp [feedback,steps,ih]

theorem feedforward_code (steps : ∀ p a, code (f p a) = g (p.map code) (code a)) (prev : Option α) (xs : List α) :
    (feedforward f prev xs).map code = feedforward g (prev.map code) (xs.map code) := by
  induction xs generalizing prev with
  | nil => rfl
  | cons a rest ih => simp [feedforward,steps,ih]

theorem feedbackRight_code (steps : ∀ p a, code (f p a) = g (p.map code) (code a)) (xs : List α) :
    (feedbackRight f xs).map code = feedbackRight g (xs.map code) := by
  induction xs with
  | nil => rfl
  | cons a rest ih => simp [feedbackRight,steps,← ih]

theorem feedforwardRight_code (steps : ∀ p a, code (f p a) = g (p.map code) (code a)) (xs : List α) :
    (feedforwardRight f xs).map code = feedforwardRight g (xs.map code) := by
  induction xs with
  | nil => rfl
  | cons a rest ih => simp [feedforwardRight,steps,ih]

theorem encipher_code (steps : ∀ p a, code (f p a) = g (p.map code) (code a)) (xs : List α) :
    (encipher f xs).map code = encipher g (xs.map code) := by
  simpa [encipher,feedbackRight_code steps] using congrArg (feedbackRight g) (feedback_code steps none xs)

theorem decipher_code (steps : ∀ p a, code (f p a) = g (p.map code) (code a)) (xs : List α) :
    (decipher f xs).map code = decipher g (xs.map code) := by
  simpa [decipher,feedforwardRight_code steps] using feedforward_code steps none (feedforwardRight f xs)

end Coding

section Mirror
variable (f : Option α → α → α)

theorem feedback_append (prev : Option α) (xs ys : List α) :
    feedback f prev (xs ++ ys) =
      feedback f prev xs ++ feedback f ((feedback f prev xs).getLast?.or prev) ys := by
  induction xs generalizing prev with
  | nil => rfl
  | cons a rest ih =>
    simp only [List.cons_append,feedback,ih,List.getLast?_cons]
    cases (feedback f (some (f prev a)) rest).getLast? <;> rfl

theorem feedforward_append (prev : Option α) (xs ys : List α) :
    feedforward f prev (xs ++ ys) = feedforward f prev xs ++ feedforward f (xs.getLast?.or prev) ys := by
  induction xs generalizing prev with
  | nil => rfl
  | cons a rest ih =>
    simp only [List.cons_append,feedforward,ih,List.getLast?_cons]
    cases rest.getLast? <;> rfl

-- Read in the mirror the passes from the right are those from the left.
theorem feedback_mirror (xs : List α) : feedback f none xs.reverse = (feedbackRight f xs).reverse := by
  induction xs with
  | nil => rfl
  | cons a rest ih =>
    rw [List.reverse_cons,feedback_append,ih,List.getLast?_reverse,Option.or_none]
    simp [feedback,feedbackRight]

theorem feedforward_mirror (xs : List α) : feedforward f none xs.reverse = (feedforwardRight f xs).reverse := by
  induction xs with
  | nil => rfl
  | cons a rest ih =>
    rw [List.reverse_cons,feedforward_append,ih,List.getLast?_reverse,Option.or_none]
    simp [feedforward,feedforwardRight]

end Mirror

section Propagation
variable {f : Option α → α → α}

theorem decipher_local {xs ys : List α} {i : Nat} (near : ∀ j, i ≤ j + 1 → j ≤ i + 1 → xs[j]? = ys[j]?) :
    (decipher f xs)[i]? = (decipher f ys)[i]? := by
  have middle : ∀ j, i ≤ j + 1 → j ≤ i → (feedforwardRight f xs)[j]? = (feedforwardRight f ys)[j]? := by
    intro j low high
    rw [feedforwardRight_at,feedforwardRight_at,near j low (by omega),near (j+1) (by omega) (by omega)]
  rw [decipher,decipher,feedforward_at,feedforward_at,middle i (by omega) (Nat.le_refl i)]
  cases i with
  | zero => rfl
  | succ i => rw [Nat.add_sub_cancel,middle i (Nat.le_refl _) (Nat.le_succ i)]

theorem decipher_value {xs : List α} {i : Nat} {a : α} (item : xs[i]? = some a) :
    (decipher f xs)[i]? = some (f (if i = 0 then none else xs[i-1]?.map (f (some a))) (f xs[i+1]? a)) := by
  have inner := feedforwardRight_at f xs i
  rw [item] at inner
  rw [decipher,feedforward_at,inner]
  cases i with
  | zero => rfl
  | succ i => simp [feedforwardRight_at,item]

theorem Barrier.as_end {b : α} (barrier : Barrier f b) (p : Option α) : f (some (f p b)) = f none := by
  funext a
  rw [barrier.stays,barrier.resets]

-- So a window deciphers as the whole does, but for an end of it that has lost a
-- neighbour which is no barrier.
theorem decipher_window {xs : List α} {start length i : Nat} (inside : i < length) (fits : start + length ≤ xs.length)
    (left : 0 < i ∨ start = 0 ∨ ∃ b, xs[start-1]? = some b ∧ Barrier f b)
    (right : i + 1 < length ∨ start + length = xs.length ∨ ∃ b, xs[start+length]? = some b ∧ Barrier f b) :
    (decipher f ((xs.drop start).take length))[i]? = (decipher f xs)[start+i]? := by
  have place : ∀ j, j < length → ((xs.drop start).take length)[j]? = xs[start+j]? := by
    intro j bound
    rw [List.getElem?_take_of_lt bound,List.getElem?_drop]
  have past : ∀ j, length ≤ j → ((xs.drop start).take length)[j]? = none := fun j beyond =>
    List.getElem?_eq_none (Nat.le_trans (List.length_take_le _ _) beyond)
  obtain ⟨a,item⟩ : ∃ a, xs[start+i]? = some a := ⟨_,List.getElem?_eq_getElem (by omega)⟩
  have here := (place i inside).trans item
  rw [decipher_value here,decipher_value item]
  have after : f ((xs.drop start).take length)[i+1]? a = f xs[start+i+1]? a := by
    by_cases more : i + 1 < length
    · rw [place (i+1) more,Nat.add_assoc]
    · obtain rfl : length = i + 1 := by omega
      rw [past (i+1) (Nat.le_refl _)]
      rcases right with more | last | ⟨b,next,barrier⟩
      · omega
      · rw [List.getElem?_eq_none (by omega)]
      · rw [Nat.add_assoc,next,barrier.resets]
  have before : f (if i = 0 then none else ((xs.drop start).take length)[i-1]?.map (f (some a))) =
      f (if start + i = 0 then none else xs[start+i-1]?.map (f (some a))) := by
    cases i with
    | zero =>
      rcases left with more | rfl | ⟨b,near,barrier⟩
      · omega
      · rfl
      · by_cases first : start = 0
        · rw [first]; rfl
        · rw [if_pos rfl,if_neg (by omega),Nat.add_zero,near,Option.map_some,barrier.as_end]
    | succ i => rw [if_neg (Nat.succ_ne_zero i),if_neg (by omega),Nat.add_sub_cancel,place i (by omega)]; rfl
  rw [before,after]

-- A step that never forgets, as long as it works on good symbols: two different
-- symbols or two different neighbours give different outputs.
structure Chaining (f : Option α → α → α) (good : α → Prop) : Prop where
  stays : ∀ p a, good a → good (f p a)
  own : ∀ p a b, good a → good b → f p a = f p b → a = b
  next : ∀ p q a, good p → good q → good a → f (some p) a = f (some q) a → p = q

theorem Chaining.coded {g : Option β → β → β} {code : α → β} {good : β → Prop} (chaining : Chaining g good)
    (injective : Function.Injective code) (steps : ∀ p a, code (f p a) = g (p.map code) (code a)) :
    Chaining f fun a => good (code a) := by
  refine ⟨fun p a goodA => ?_,fun p a b goodA goodB same => ?_,fun p q a goodP goodQ goodA same => ?_⟩
  · rw [steps]
    exact chaining.stays _ _ goodA
  · have coded := congrArg code same
    rw [steps,steps] at coded
    exact injective (chaining.own _ _ _ goodA goodB coded)
  · have coded := congrArg code same
    rw [steps,steps] at coded
    exact injective (chaining.next _ _ _ goodP goodQ goodA coded)

variable {good : α → Prop} (chaining : Chaining f good)

theorem feedbackRight_last (xs : List α) : (feedbackRight f xs).getLast? = xs.getLast?.map (f none) := by
  have past : (feedbackRight f xs)[xs.length - 1 + 1]? = none := List.getElem?_eq_none (by simp; omega)
  rw [List.getLast?_eq_getElem?,List.getLast?_eq_getElem?,feedbackRight_length,feedbackRight_at,past]

include chaining

theorem feedback_diverges {p q : α} (goodP : good p) (goodQ : good q) (differ : p ≠ q) {xs : List α}
    (goodXs : ∀ a ∈ xs, good a) :
    ∃ u v, good u ∧ good v ∧ u ≠ v ∧ (p :: feedback f (some p) xs).getLast? = some u ∧
      (q :: feedback f (some q) xs).getLast? = some v := by
  induction xs generalizing p q with
  | nil => exact ⟨p,q,goodP,goodQ,differ,rfl,rfl⟩
  | cons a rest ih =>
    have goodA := goodXs a List.mem_cons_self
    simp only [feedback,List.getLast?_cons_cons]
    apply ih (chaining.stays _ a goodA) (chaining.stays _ a goodA)
    · exact fun same => differ (chaining.next p q a goodP goodQ goodA same)
    · exact fun b member => goodXs b (List.mem_cons_of_mem a member)

-- One changed symbol reaches the right end, from where the second pass starts.
theorem encipher_diverges (before : List α) {a b : α} (goodA : good a) (goodB : good b) (differ : a ≠ b)
    {after : List α} (goodAfter : ∀ c ∈ after, good c) :
    (encipher f (before ++ a :: after)).getLast? ≠ (encipher f (before ++ b :: after)).getLast? := by
  intro same
  rw [encipher,encipher,feedbackRight_last,feedbackRight_last,feedback_append,feedback_append] at same
  generalize (feedback f none before).getLast?.or none = prev at same
  have apart : f prev a ≠ f prev b := fun equal => differ (chaining.own prev a b goodA goodB equal)
  obtain ⟨u,v,goodU,goodV,unequal,first,second⟩ :=
    feedback_diverges chaining (chaining.stays prev a goodA) (chaining.stays prev b goodB) apart goodAfter
  simp only [feedback,List.getLast?_append,first,second,Option.some_or,Option.map_some,Option.some.injEq] at same
  exact unequal (chaining.own none u v goodU goodV same)

end Propagation
end ChainedPasses
