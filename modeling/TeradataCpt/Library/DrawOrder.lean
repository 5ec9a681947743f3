import Mathlib.Algebra.GCDMonoid.Finset
import Mathlib.Algebra.GCDMonoid.Nat
import Mathlib.Data.Int.ModEq
import Mathlib.Data.List.Nodup
import Mathlib.Order.Interval.Finset.Nat

namespace DrawOrder
variable {α : Type _}

-- Drawing without replacement: draw i takes the item at `key % (length - i)` of
-- what is left.
def remaining (key : Nat) (base : List α) : Nat → List α
  | 0 => base
  | round+1 => (remaining key base round).eraseIdx (key % (base.length - round))

def drawn (key : Nat) (base : List α) : Nat → List α
  | 0 => []
  | round+1 => drawn key base round ++ (remaining key base round)[key % (base.length - round)]?.toList

theorem remaining_length (key : Nat) (base : List α) {round : Nat} (within : round ≤ base.length) :
    (remaining key base round).length = base.length - round := by
  induction round with
  | zero => rfl
  | succ round ih =>
    have before := ih (by omega)
    have position : key % (base.length - round) < base.length - round := Nat.mod_lt _ (by omega)
    rw [remaining,List.length_eraseIdx_of_lt (by omega),before]
    omega

theorem position_lt (key : Nat) (base : List α) {round : Nat} (within : round < base.length) :
    key % (base.length - round) < (remaining key base round).length := by
  rw [remaining_length key base (Nat.le_of_lt within)]
  exact Nat.mod_lt _ (by omega)

theorem drawn_succ (key : Nat) (base : List α) {round : Nat} (within : round < base.length) :
    drawn key base (round+1) = drawn key base round ++
      [(remaining key base round).get ⟨key % (base.length - round),position_lt key base within⟩] := by
  rw [drawn,List.getElem?_eq_getElem (position_lt key base within)]
  rfl

theorem drawn_length (key : Nat) (base : List α) {round : Nat} (within : round ≤ base.length) :
    (drawn key base round).length = round := by
  induction round with
  | zero => rfl
  | succ round ih => simp [drawn_succ key base within,ih (by omega)]

theorem drawn_initial (key : Nat) (base : List α) {early late : Nat} (order : early ≤ late) :
    drawn key base early <+: drawn key base late := by
  induction late with
  | zero => simp_all
  | succ late ih =>
    rcases Nat.le_succ_iff.mp order with before | rfl
    · exact (ih before).trans (List.prefix_append _ _)
    · exact List.prefix_refl _

theorem drawn_perm (key : Nat) (base : List α) {round : Nat} (within : round ≤ base.length) :
    (drawn key base round ++ remaining key base round).Perm base := by
  induction round with
  | zero => exact List.Perm.refl _
  | succ round ih =>
    rw [drawn_succ key base within,remaining,List.append_assoc,List.singleton_append]
    exact ((List.getElem_cons_eraseIdx_perm (position_lt key base within)).append_left _).trans (ih (by omega))

theorem drawn_all_perm (key : Nat) (base : List α) : (drawn key base base.length).Perm base := by
  have whole := drawn_perm key base (Nat.le_refl base.length)
  have empty : remaining key base base.length = [] :=
    List.eq_nil_of_length_eq_zero (by simp [remaining_length])
  simpa [empty] using whole

theorem drawn_take (key : Nat) (base : List α) {early late : Nat} (order : early ≤ late) (within : late ≤ base.length) :
    (drawn key base late).take early = drawn key base early := by
  have front := List.prefix_iff_eq_take.mp (drawn_initial key base order)
  rw [drawn_length key base (Nat.le_trans order within)] at front
  exact front.symm

theorem remaining_nodup (key : Nat) {base : List α} (distinct : base.Nodup) (round : Nat) :
    (remaining key base round).Nodup := by
  induction round with
  | zero => exact distinct
  | succ round ih => exact ih.sublist (List.eraseIdx_sublist _ _)

theorem mem_remaining (key : Nat) {base : List α} (distinct : base.Nodup) {round : Nat} (within : round ≤ base.length)
    {a : α} : a ∈ remaining key base round ↔ a ∈ base ∧ a ∉ drawn key base round := by
  have parts := drawn_perm key base within
  have apart := List.nodup_append'.mp (parts.nodup_iff.mpr distinct)
  rw [← parts.mem_iff,List.mem_append]
  constructor
  · intro left
    exact ⟨.inr left,fun taken => apart.2.2 taken left⟩
  · rintro ⟨taken | left,fresh⟩
    · exact absurd taken fresh
    · exact left

def SameResidues (one two length rounds : Nat) : Prop :=
  ∀ i < rounds, one % (length - i) = two % (length - i)

theorem same_residues_draw {one two : Nat} {base : List α} {rounds : Nat}
    (same : SameResidues one two base.length rounds) :
    drawn one base rounds = drawn two base rounds ∧ remaining one base rounds = remaining two base rounds := by
  induction rounds with
  | zero => exact ⟨rfl,rfl⟩
  | succ rounds ih =>
    obtain ⟨draws,rest⟩ := ih fun i bound => same i (by omega)
    have residue := same rounds (Nat.lt_succ_self _)
    exact ⟨by simp only [drawn,draws,rest,residue],by simp only [remaining,rest,residue]⟩

-- Every draw gives away its position, because nothing occurs twice.
theorem draw_same_residues {one two : Nat} {base : List α} (distinct : base.Nodup) {rounds : Nat}
    (within : rounds ≤ base.length) (same : drawn one base rounds = drawn two base rounds) :
    SameResidues one two base.length rounds := by
  induction rounds with
  | zero => intro i bound; omega
  | succ rounds ih =>
    rw [drawn_succ one base within,drawn_succ two base within] at same
    obtain ⟨earlier,last⟩ := List.append_inj' same rfl
    have before := ih (by omega) earlier
    have left := (same_residues_draw before).2
    have item := List.singleton_inj.mp last
    have position : one % (base.length - rounds) = two % (base.length - rounds) := by
      simp only [left,List.get_eq_getElem] at item
      exact (remaining_nodup two distinct rounds).getElem_inj_iff.mp item
    intro i bound
    rcases Nat.lt_succ_iff_lt_or_eq.mp bound with old | rfl
    · exact before i old
    · exact position

theorem modEq_lcm_iff (one two length : Nat) :
    one ≡ two [MOD (Finset.Icc 1 length).lcm id] ↔ SameResidues one two length length := by
  rw [Nat.modEq_iff_dvd,Int.natCast_dvd,Finset.lcm_dvd_iff]
  constructor
  · intro divides i bound
    have one_residue := divides (length - i) (Finset.mem_Icc.mpr (by omega))
    exact Nat.modEq_iff_dvd.mpr (Int.natCast_dvd.mpr one_residue)
  · intro same m member
    have range := Finset.mem_Icc.mp member
    have residue := same (length - m) (by omega)
    rw [Nat.sub_sub_self range.2] at residue
    exact Int.natCast_dvd.mp (Nat.modEq_iff_dvd.mp residue)

theorem drawn_eq_iff {one two : Nat} {base : List α} (distinct : base.Nodup) :
    drawn one base base.length = drawn two base base.length ↔
      one ≡ two [MOD (Finset.Icc 1 base.length).lcm id] := by
  rw [modEq_lcm_iff]
  exact ⟨draw_same_residues distinct (Nat.le_refl _),fun same => (same_residues_draw same).1⟩

end DrawOrder
