import Mathlib.Algebra.Group.Basic
import Mathlib.Logic.Equiv.Defs
import TeradataCpt.Library.ChainedPasses

-- A keyed cipher on symbols that are either group elements, which are added to
-- their neighbour and permuted, or barriers, which stand for themselves.
namespace BarrierCipher
open ChainedPasses
variable {G B : Type _} [AddCommGroup G]

def carry : Option (G ⊕ B) → G
  | some (.inl p) => p
  | _ => 0

def lock (perm : Equiv.Perm G) (prev : Option (G ⊕ B)) : G ⊕ B → G ⊕ B
  | .inl x => .inl (perm (carry prev + x))
  | .inr b => .inr b

def unlock (perm : Equiv.Perm G) (prev : Option (G ⊕ B)) : G ⊕ B → G ⊕ B
  | .inl y => .inl (perm.symm y - carry prev)
  | .inr b => .inr b

theorem unlock_lock (perm : Equiv.Perm G) (prev : Option (G ⊕ B)) (s : G ⊕ B) :
    unlock perm prev (lock perm prev s) = s := by
  cases s with
  | inl x => simp [lock,unlock]
  | inr b => rfl

theorem lock_unlock (perm : Equiv.Perm G) (prev : Option (G ⊕ B)) (s : G ⊕ B) :
    lock perm prev (unlock perm prev s) = s := by
  cases s with
  | inl y => simp [lock,unlock]
  | inr b => rfl

theorem lock_chaining (perm : Equiv.Perm G) : Chaining (lock (B := B) perm) fun s => s.isLeft = true := by
  refine ⟨fun p a goodA => ?_,fun p a b goodA goodB same => ?_,fun p q a goodP goodQ goodA same => ?_⟩
  · obtain ⟨x,rfl⟩ := Sum.isLeft_iff.mp goodA
    rfl
  · obtain ⟨x,rfl⟩ := Sum.isLeft_iff.mp goodA
    obtain ⟨y,rfl⟩ := Sum.isLeft_iff.mp goodB
    rw [add_left_cancel (perm.injective (Sum.inl.inj same))]
  · obtain ⟨u,rfl⟩ := Sum.isLeft_iff.mp goodP
    obtain ⟨v,rfl⟩ := Sum.isLeft_iff.mp goodQ
    obtain ⟨x,rfl⟩ := Sum.isLeft_iff.mp goodA
    exact congrArg Sum.inl (add_right_cancel (perm.injective (Sum.inl.inj same)))

-- Strings of one symbol show the permutation twice applied, and strings of two
-- then show it alone.
theorem lock_injective {one two : Equiv.Perm G}
    (same : ∀ xs : List G, encipher (lock (B := B) one) (xs.map .inl) = encipher (lock two) (xs.map .inl)) :
    one = two := by
  have twice : ∀ x, one (one x) = two (two x) := by
    intro x
    simpa [encipher,feedback,feedbackRight,lock,carry] using same [x]
  ext1 x
  have pair := same [x,0]
  simp only [List.map_cons,List.map_nil,encipher,feedback,feedbackRight,lock,carry,List.head?_cons,List.head?_nil,
    zero_add,add_zero,List.cons.injEq,Sum.inl.injEq,and_true] at pair
  have inner := pair.2.trans (twice (two x)).symm
  exact one.injective (one.injective inner)

theorem pairs_injective {one two : Equiv.Perm G}
    (same : ∀ a b : G, encipher (lock (B := B) one) [.inl a,.inl b] = encipher (lock two) [.inl a,.inl b]) :
    one = two := by
  have coded : ∀ a b, one (one (one (one a + b)) + one a) = two (two (two (two a + b)) + two a) ∧
      one (one (one a + b)) = two (two (two a + b)) := by
    intro a b
    simpa [encipher,feedback,feedbackRight,lock,carry] using same a b
  have fixed : ∀ a, two (two (two a - one a)) = one (one 0) := by
    intro a
    simpa [sub_eq_add_neg] using (coded a (-one a)).2.symm
  obtain ⟨d,shift⟩ : ∃ d, ∀ a, two a = one a + d := by
    refine ⟨two 0 - one 0,fun a => ?_⟩
    rw [← two.injective (two.injective ((fixed a).trans (fixed 0).symm)),add_sub_cancel]
  have moved : ∀ s, two (two (s + d)) = one (one s) := by
    intro s
    have value := (coded 0 (s - one 0)).2
    rw [add_sub_cancel,shift 0,add_right_comm,add_sub_cancel] at value
    exact value.symm
  have left : ∀ t, one (t + d) + d = one t := by
    intro t
    have value := (coded 0 (one.symm (one.symm (t - one 0)) - one 0)).1
    rw [← (coded 0 _).2,shift 0,add_sub_cancel,Equiv.apply_symm_apply,Equiv.apply_symm_apply,sub_add_cancel,
      ← add_assoc,sub_add_cancel,shift] at value
    exact value.symm
  have nothing : d = 0 := by
    have value := moved 0
    rw [shift (0 + d),left,shift] at value
    exact add_eq_left.mp value
  ext1 a
  rw [shift,nothing,add_zero]

theorem unlocks_iff (one two : Equiv.Perm G) :
    (∀ xs : List G, decipher (unlock (B := B) two) (encipher (lock one) (xs.map .inl)) = xs.map .inl) ↔
      one = two := by
  constructor
  · intro opens
    refine lock_injective (B := B) fun xs => ?_
    have again := congrArg (encipher (lock two)) (opens xs)
    rwa [encipher_decipher (lock_unlock two)] at again
  · rintro rfl xs
    exact decipher_encipher (unlock_lock one) _

-- Two symbols are enciphered together and then one is replaced by its image
-- alone: for some symbols the other is not recovered.
section Overwritten
variable [Nontrivial G] (perm : Equiv.Perm G)

theorem left_overwritten : ∃ a b alone left right : G,
    encipher (lock (B := B) perm) [.inl a] = [.inl alone] ∧
    encipher (lock (B := B) perm) [.inl a,.inl b] = [.inl left,.inl right] ∧
    (decipher (unlock (B := B) perm) [.inl alone,.inl right])[1]? ≠ some (.inl b) := by
  obtain ⟨g,nonzero⟩ := exists_ne (0 : G)
  refine ⟨0,perm.symm (perm.symm g) - perm 0,perm (perm 0),perm (g + perm 0),g,?_,?_,?_⟩
  · simp [encipher,feedback,feedbackRight,lock,carry]
  · simp [encipher,feedback,feedbackRight,lock,carry]
  · simpa [decipher,feedforward,feedforwardRight,unlock,carry] using nonzero

theorem right_overwritten : ∃ a b alone left right : G,
    encipher (lock (B := B) perm) [.inl b] = [.inl alone] ∧
    encipher (lock (B := B) perm) [.inl a,.inl b] = [.inl left,.inl right] ∧
    (decipher (unlock (B := B) perm) [.inl left,.inl alone])[0]? ≠ some (.inl a) := by
  obtain ⟨g,nonzero⟩ := exists_ne (0 : G)
  refine ⟨perm.symm g,0,perm (perm 0),perm (perm (perm g) + g),perm (perm g),?_,?_,?_⟩
  · simp [encipher,feedback,feedbackRight,lock,carry]
  · simp [encipher,feedback,feedbackRight,lock,carry]
  · intro recovered
    have same : perm (perm g) + g - perm (perm 0) = g := by
      simpa [decipher,feedforward,feedforwardRight,unlock,carry] using recovered
    rw [sub_eq_iff_eq_add,add_comm g] at same
    exact nonzero (perm.injective (perm.injective (add_right_cancel same)))

end Overwritten

end BarrierCipher
