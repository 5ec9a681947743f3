import Mathlib.Data.List.Forall2

-- Searching a pattern in a text from the left.
namespace Substrings
variable {α : Type _} [DecidableEq α]

def first (pattern : List α) : List α → Option Nat
  | [] => if pattern = [] then some 0 else none
  | a :: rest => if pattern <+: a :: rest then some 0 else (first pattern rest).map (· + 1)

def Occurs (pattern text : List α) (i : Nat) : Prop := ∃ before after, text = before ++ pattern ++ after ∧ before.length = i

omit [DecidableEq α] in
theorem occurs_zero {pattern text : List α} : Occurs pattern text 0 ↔ pattern <+: text := by
  constructor
  · rintro ⟨before,after,rfl,empty⟩
    rw [List.eq_nil_of_length_eq_zero empty]
    exact List.prefix_append pattern after
  · rintro ⟨after,rfl⟩
    exact ⟨[],after,rfl,rfl⟩

omit [DecidableEq α] in
theorem occurs_succ {pattern rest : List α} {a : α} {i : Nat} :
    Occurs pattern (a :: rest) (i+1) ↔ Occurs pattern rest i := by
  constructor
  · rintro ⟨before,after,split,length⟩
    cases before with
    | nil => cases length
    | cons b before =>
      cases split
      exact ⟨before,after,rfl,Nat.succ.inj length⟩
  · rintro ⟨before,after,rfl,rfl⟩
    exact ⟨a :: before,after,rfl,rfl⟩

omit [DecidableEq α] in
theorem occurs_nil {pattern : List α} {i : Nat} : Occurs pattern [] i ↔ pattern = [] ∧ i = 0 := by
  constructor
  · rintro ⟨before,after,split,rfl⟩
    simp only [List.nil_eq,List.append_eq_nil_iff] at split
    exact ⟨split.1.2,by rw [split.1.1]; rfl⟩
  · rintro ⟨rfl,rfl⟩
    exact ⟨[],[],rfl,rfl⟩

theorem first_some {pattern text : List α} {i : Nat} (found : first pattern text = some i) :
    Occurs pattern text i ∧ ∀ j, Occurs pattern text j → i ≤ j := by
  induction text generalizing i with
  | nil =>
    unfold first at found
    split at found
    · rename_i empty
      cases found
      exact ⟨occurs_nil.mpr ⟨empty,rfl⟩,fun j _ => Nat.zero_le j⟩
    · cases found
  | cons a rest ih =>
    unfold first at found
    split at found
    · rename_i here
      cases found
      exact ⟨occurs_zero.mpr here,fun j _ => Nat.zero_le j⟩
    · rename_i away
      obtain ⟨k,inner,rfl⟩ := Option.map_eq_some_iff.mp found
      obtain ⟨occurs,least⟩ := ih inner
      refine ⟨occurs_succ.mpr occurs,fun j other => ?_⟩
      cases j with
      | zero => exact absurd (occurs_zero.mp other) away
      | succ j => exact Nat.succ_le_succ (least j (occurs_succ.mp other))

theorem first_none {pattern text : List α} : first pattern text = none ↔ ∀ i, ¬ Occurs pattern text i := by
  induction text with
  | nil =>
    unfold first
    split
    · rename_i empty
      refine ⟨fun absent => (by cases absent),fun never => absurd (occurs_nil.mpr ⟨empty,rfl⟩) (never 0)⟩
    · rename_i some
      exact ⟨fun _ i occurs => some (occurs_nil.mp occurs).1,fun _ => rfl⟩
  | cons a rest ih =>
    unfold first
    split
    · rename_i here
      exact ⟨fun absent => (by cases absent),fun never => absurd (occurs_zero.mpr here) (never 0)⟩
    · rename_i away
      rw [Option.map_eq_none_iff,ih]
      constructor
      · intro never i occurs
        cases i with
        | zero => exact away (occurs_zero.mp occurs)
        | succ i => exact never i (occurs_succ.mp occurs)
      · intro never i occurs
        exact never (i+1) (occurs_succ.mpr occurs)

-- Where no item that the relation changes is one of the pattern, changing the text
-- makes no occurrence.
section Related
omit [DecidableEq α]
variable {R : α → α → Prop} {pattern : List α} (back : ∀ a b, b ∈ pattern → R a b → a = b)
include back

theorem related_pattern {xs : List α} (related : List.Forall₂ R xs pattern) : xs = pattern := by
  induction related with
  | nil => rfl
  | @cons a b xs ys first _ ih =>
    have rest := ih fun c d member => back c d (List.mem_cons_of_mem b member)
    rw [back a b List.mem_cons_self first,rest]

theorem occurs_related {xs ys : List α} {i : Nat} (related : List.Forall₂ R xs ys) (occurs : Occurs pattern ys i) :
    Occurs pattern xs i := by
  obtain ⟨before,after,rfl,rfl⟩ := occurs
  rw [List.append_assoc] at related
  have first := List.forall₂_take_append xs _ _ related
  have middle := List.forall₂_take_append _ _ _ (List.forall₂_drop_append xs _ _ related)
  have same := related_pattern back middle
  refine ⟨xs.take before.length,(xs.drop before.length).drop pattern.length,?_,first.length_eq⟩
  calc xs = xs.take before.length ++ xs.drop before.length := (List.take_append_drop _ xs).symm
    _ = xs.take before.length ++ ((xs.drop before.length).take pattern.length ++
          (xs.drop before.length).drop pattern.length) := by rw [List.take_append_drop pattern.length]
    _ = xs.take before.length ++ pattern ++ (xs.drop before.length).drop pattern.length := by
      rw [same,List.append_assoc]

end Related

end Substrings
