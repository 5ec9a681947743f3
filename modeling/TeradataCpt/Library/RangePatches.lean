import Mathlib.Data.List.Induction

namespace RangePatches
variable {α : Type _}

structure Range where
  start : Nat
  length : Nat
  deriving DecidableEq, Repr

def Range.Covers (r : Range) (j : Nat) : Prop := r.start ≤ j ∧ j < r.start + r.length

instance (r : Range) (j : Nat) : Decidable (r.Covers j) := inferInstanceAs (Decidable (_ ∧ _))

def Range.Fits (r : Range) (n : Nat) : Prop := r.start + r.length ≤ n

def slice (xs : List α) (r : Range) : List α := (xs.drop r.start).take r.length

-- Every range is read from `xs`, and written over what the earlier ones left.
def patch (f : List α → List α) (xs out : List α) (r : Range) : List α :=
  out.take r.start ++ f (slice xs r) ++ out.drop (r.start + r.length)

def patchAll (f : List α → List α) (xs : List α) (rs : List Range) : List α := rs.foldl (patch f xs) xs

-- The same where a range may be read from the text so far.
def patches (read : List α → List α) (f : List α → List α) (xs : List α) (rs : List Range) : List α :=
  rs.foldl (fun out r => patch f (read out) out r) xs

-- The range that an index keeps its value from.
def lastCovering (rs : List Range) (j : Nat) : Option Range := rs.reverse.find? fun r => decide (r.Covers j)

theorem slice_length {xs : List α} {r : Range} (fits : r.Fits xs.length) : (slice xs r).length = r.length := by
  unfold Range.Fits at fits
  simp only [slice,List.length_take,List.length_drop]
  omega

theorem slice_at (xs : List α) {r : Range} {j : Nat} (covers : r.Covers j) :
    (slice xs r)[j - r.start]? = xs[j]? := by
  obtain ⟨low,high⟩ := covers
  rw [slice,List.getElem?_take_of_lt (by omega),List.getElem?_drop]
  congr 1
  omega

theorem slice_congr {xs ys : List α} {r : Range} (same : ∀ j, r.Covers j → xs[j]? = ys[j]?) : slice xs r = slice ys r := by
  apply List.ext_getElem?
  intro i
  rw [slice,slice,List.getElem?_take,List.getElem?_take]
  split
  · rename_i inside
    rw [List.getElem?_drop,List.getElem?_drop]
    exact same _ ⟨by omega,by omega⟩
  · rfl

theorem lastCovering_none {rs : List Range} {j : Nat} :
    lastCovering rs j = none ↔ ∀ r ∈ rs, ¬ r.Covers j := by simp [lastCovering]

theorem lastCovering_some {rs : List Range} {r : Range} {j : Nat} :
    lastCovering rs j = some r ↔
      r.Covers j ∧ ∃ before after, rs = before ++ r :: after ∧ ∀ s ∈ after, ¬ s.Covers j := by
  simp only [lastCovering,List.find?_eq_some_iff_append,decide_eq_true_eq,Bool.not_eq_true',decide_eq_false_iff_not]
  constructor
  · rintro ⟨covers,late,early,split,unseen⟩
    refine ⟨covers,early.reverse,late.reverse,?_,fun s member => unseen s (List.mem_reverse.mp member)⟩
    rw [← List.reverse_reverse rs,split]
    simp
  · rintro ⟨covers,before,after,rfl,unseen⟩
    exact ⟨covers,after.reverse,before.reverse,by simp,fun s member => unseen s (List.mem_reverse.mp member)⟩

theorem lastCovering_mem {rs : List Range} {r : Range} {j : Nat} (found : lastCovering rs j = some r) :
    r ∈ rs ∧ r.Covers j := by
  obtain ⟨covers,before,after,rfl,_⟩ := lastCovering_some.mp found
  exact ⟨by simp,covers⟩

theorem lastCovering_concat (rs : List Range) (r : Range) (j : Nat) :
    lastCovering (rs ++ [r]) j = if r.Covers j then some r else lastCovering rs j := by
  by_cases covers : r.Covers j <;> simp [lastCovering,covers]

theorem patches_take (read f : List α → List α) (xs : List α) (rs : List Range) {i : Nat} (bound : i < rs.length) :
    patches read f xs (rs.take (i+1)) =
      patch f (read (patches read f xs (rs.take i))) (patches read f xs (rs.take i)) rs[i] := by
  rw [patches,← List.take_append_getElem bound,List.foldl_append]
  rfl

theorem patchAll_middle (f : List α → List α) (front middle rest : List α) :
    patchAll f (front ++ middle ++ rest) [⟨front.length,middle.length⟩] = front ++ f middle ++ rest := by
  have inside : slice (front ++ middle ++ rest) ⟨front.length,middle.length⟩ = middle := by
    rw [slice,List.append_assoc,List.drop_left,List.take_left]
  have before : (front ++ middle ++ rest).take front.length = front := by rw [List.append_assoc,List.take_left]
  have after : (front ++ middle ++ rest).drop (front.length + middle.length) = rest := by
    rw [← List.length_append,List.drop_left]
  simp only [patchAll,List.foldl_cons,List.foldl_nil,patch,inside,before,after]

section Patching
variable {f : List α → List α} (keeps : ∀ xs, (f xs).length = xs.length)
include keeps

theorem patch_length {xs out : List α} {r : Range} (fits : r.Fits xs.length) (same : out.length = xs.length) :
    (patch f xs out r).length = xs.length := by
  have middle := slice_length fits
  unfold Range.Fits at fits
  simp only [patch,List.length_append,keeps,middle,List.length_take,List.length_drop]
  omega

theorem patch_at {xs out : List α} {r : Range} (fits : r.Fits xs.length) (same : out.length = xs.length) (j : Nat) :
    (patch f xs out r)[j]? = if r.Covers j then (f (slice xs r))[j - r.start]? else out[j]? := by
  have middle : (f (slice xs r)).length = r.length := by rw [keeps,slice_length fits]
  unfold Range.Fits at fits
  have front : (out.take r.start).length = r.start := by simp; omega
  rw [patch,List.append_assoc,List.getElem?_append,front]
  by_cases before : j < r.start
  · have away : ¬ r.Covers j := fun covers => by have := covers.1; omega
    rw [if_pos before,if_neg away,List.getElem?_take_of_lt before]
  · rw [if_neg before,List.getElem?_append,middle]
    by_cases covers : r.Covers j
    · rw [if_pos (by have := covers.2; omega),if_pos covers]
    · have past : ¬ j - r.start < r.length := fun inside => covers ⟨by omega,by omega⟩
      have shift : r.start + r.length + (j - r.start - r.length) = j := by omega
      rw [if_neg past,if_neg covers,List.getElem?_drop,shift]

theorem patchAll_length {xs : List α} {rs : List Range} (fits : ∀ r ∈ rs, r.Fits xs.length) :
    (patchAll f xs rs).length = xs.length := by
  induction rs using List.reverseRecOn with
  | nil => rfl
  | append_singleton rs r ih =>
    have earlier := ih fun s member => fits s (List.mem_append_left _ member)
    simp only [patchAll,List.foldl_append,List.foldl_cons,List.foldl_nil]
    exact patch_length keeps (fits r (by simp)) earlier

theorem patches_length {read : List α → List α} {xs : List α}
    (reads : ∀ out, out.length = xs.length → (read out).length = xs.length) {rs : List Range}
    (fits : ∀ r ∈ rs, r.Fits xs.length) : (patches read f xs rs).length = xs.length := by
  induction rs using List.reverseRecOn with
  | nil => rfl
  | append_singleton rs r ih =>
    have earlier := ih fun s member => fits s (List.mem_append_left _ member)
    have same := reads _ earlier
    simp only [patches,List.foldl_append,List.foldl_cons,List.foldl_nil] at earlier same ⊢
    have own : r.Fits (read (List.foldl (fun out r => patch f (read out) out r) xs rs)).length := by
      rw [same]
      exact fits r (by simp)
    rw [patch_length keeps own (by rw [same,earlier]),same]

theorem patchAll_at {xs : List α} {rs : List Range} (fits : ∀ r ∈ rs, r.Fits xs.length) (j : Nat) :
    (patchAll f xs rs)[j]? = match lastCovering rs j with
      | some r => (f (slice xs r))[j - r.start]?
      | none => xs[j]? := by
  induction rs using List.reverseRecOn with
  | nil => rfl
  | append_singleton rs r ih =>
    have earlier : ∀ s ∈ rs, s.Fits xs.length := fun s member => fits s (List.mem_append_left _ member)
    have same := patchAll_length keeps earlier
    have step := patch_at keeps (fits r (by simp)) same j
    have folded : patchAll f xs (rs ++ [r]) = patch f xs (patchAll f xs rs) r := by simp [patchAll]
    rw [folded,step,lastCovering_concat]
    by_cases covers : r.Covers j
    · simp [covers]
    · simp only [covers,if_false]
      exact ih earlier

theorem patchAll_congr {xs : List α} {one two : List Range} (fitsOne : ∀ r ∈ one, r.Fits xs.length)
    (fitsTwo : ∀ r ∈ two, r.Fits xs.length) (same : ∀ j, lastCovering one j = lastCovering two j) :
    patchAll f xs one = patchAll f xs two := by
  apply List.ext_getElem?
  intro j
  rw [patchAll_at keeps fitsOne,patchAll_at keeps fitsTwo,same]

theorem patchAll_local {xs ys : List α} {rs : List Range} (fitsX : ∀ r ∈ rs, r.Fits xs.length)
    (fitsY : ∀ r ∈ rs, r.Fits ys.length) (agree : ∀ r ∈ rs, ∀ j, r.Covers j → ys[j]? = xs[j]?) {r : Range}
    (member : r ∈ rs) {j : Nat} (covers : r.Covers j) : (patchAll f ys rs)[j]? = (patchAll f xs rs)[j]? := by
  rw [patchAll_at keeps fitsY,patchAll_at keeps fitsX]
  cases owner : lastCovering rs j with
  | none => exact absurd covers (lastCovering_none.mp owner r member)
  | some s =>
    have same : slice ys s = slice xs s := slice_congr (agree s (lastCovering_mem owner).1)
    simp only [same]

-- A relation that holds between the items before and after `f` holds throughout.
theorem patchAll_related {R : α → α → Prop} (refl : ∀ a, R a a)
    (related : ∀ (ys : List α) (i : Nat) (a : α), ys[i]? = some a → ∃ b, (f ys)[i]? = some b ∧ R a b)
    {xs : List α} {rs : List Range} (fits : ∀ r ∈ rs, r.Fits xs.length) {j : Nat} {a : α} (item : xs[j]? = some a) :
    ∃ b, (patchAll f xs rs)[j]? = some b ∧ R a b := by
  rw [patchAll_at keeps fits]
  cases owner : lastCovering rs j with
  | none => exact ⟨a,item,refl a⟩
  | some r => exact related (slice xs r) _ a ((slice_at xs (lastCovering_mem owner).2).trans item)

-- A range that no later range meets holds the image of its slice.
theorem slice_patchAll {xs : List α} {before after : List Range} {r : Range}
    (fits : ∀ s ∈ before ++ r :: after, s.Fits xs.length)
    (clear : ∀ j, r.Covers j → ∀ s ∈ after, ¬ s.Covers j) :
    slice (patchAll f xs (before ++ r :: after)) r = f (slice xs r) := by
  have own := fits r (by simp)
  have length := patchAll_length keeps fits
  apply List.ext_getElem?
  intro i
  by_cases inside : i < r.length
  · have covers : r.Covers (r.start + i) := ⟨by omega,by omega⟩
    have owner := lastCovering_some.mpr ⟨covers,before,after,rfl,clear _ covers⟩
    have value := patchAll_at keeps fits (r.start + i)
    rw [owner] at value
    have place := slice_at (patchAll f xs (before ++ r :: after)) covers
    rw [Nat.add_sub_cancel_left] at place
    simp only [Nat.add_sub_cancel_left] at value
    rw [place,value]
  · have left : (slice (patchAll f xs (before ++ r :: after)) r).length ≤ i := by
      rw [slice_length (by rw [length]; exact own)]
      omega
    have right : (f (slice xs r)).length ≤ i := by rw [keeps,slice_length own]; omega
    rw [List.getElem?_eq_none left,List.getElem?_eq_none right]

end Patching

def Range.Disjoint (r s : Range) : Prop := ∀ j, ¬ (r.Covers j ∧ s.Covers j)

theorem Range.disjoint_iff {r s : Range} : Range.Disjoint r s ↔
    r.length = 0 ∨ s.length = 0 ∨ r.start + r.length ≤ s.start ∨ s.start + s.length ≤ r.start := by
  unfold Range.Disjoint Range.Covers
  constructor
  · intro apart
    have low := apart r.start
    have high := apart s.start
    omega
  · intro order j both
    omega

instance (r s : Range) : Decidable (Range.Disjoint r s) := decidable_of_iff _ Range.disjoint_iff.symm

theorem lastCovering_disjoint {rs : List Range} (apart : rs.Pairwise Range.Disjoint) {r : Range} {j : Nat}
    (member : r ∈ rs) (covers : r.Covers j) : lastCovering rs j = some r := by
  obtain ⟨before,after,rfl⟩ := List.append_of_mem member
  have later := (List.pairwise_append.mp apart).2.1
  refine lastCovering_some.mpr ⟨covers,before,after,rfl,fun s inAfter covered => ?_⟩
  exact (List.pairwise_cons.mp later).1 s inAfter j ⟨covers,covered⟩

-- A range that no earlier one meets is still as it was, so reading the text so far
-- is reading the original.
theorem patches_disjoint {f : List α → List α} (keeps : ∀ xs, (f xs).length = xs.length) {xs : List α} {rs : List Range}
    (fits : ∀ r ∈ rs, r.Fits xs.length) (apart : rs.Pairwise Range.Disjoint) : patches id f xs rs = patchAll f xs rs := by
  induction rs using List.reverseRecOn with
  | nil => rfl
  | append_singleton rs r ih =>
    obtain ⟨before,_,away⟩ := List.pairwise_append.mp apart
    have earlier := ih (fun s member => fits s (List.mem_append_left _ member)) before
    have untouched : slice (patchAll f xs rs) r = slice xs r := by
      apply slice_congr
      intro j covers
      rw [patchAll_at keeps fun s member => fits s (List.mem_append_left _ member)]
      cases owner : lastCovering rs j with
      | none => rfl
      | some s =>
        obtain ⟨member,covered⟩ := lastCovering_mem owner
        exact absurd ⟨covered,covers⟩ (away s member r (by simp) j)
    have left : patches id f xs (rs ++ [r]) = patch f (patches id f xs rs) (patches id f xs rs) r := by simp [patches]
    have right : patchAll f xs (rs ++ [r]) = patch f xs (patchAll f xs rs) r := by simp [patchAll]
    rw [left,right,earlier,patch,untouched]
    rfl

theorem Range.Disjoint.symm {r s : Range} (apart : Range.Disjoint r s) : Range.Disjoint s r :=
  fun j both => apart j both.symm

theorem lastCovering_perm {one two : List Range} (order : one.Perm two) (apart : one.Pairwise Range.Disjoint) (j : Nat) :
    lastCovering one j = lastCovering two j := by
  have apartTwo : two.Pairwise Range.Disjoint := order.pairwise apart fun {_ _} => Range.Disjoint.symm
  cases found : lastCovering one j with
  | none =>
    rw [eq_comm,lastCovering_none]
    intro r member
    exact lastCovering_none.mp found r (order.mem_iff.mpr member)
  | some r =>
    obtain ⟨member,covers⟩ := lastCovering_mem found
    exact (lastCovering_disjoint apartTwo (order.mem_iff.mp member) covers).symm

-- Each range is overwritten wholly by the later ones, or not at all.
def Settled (rs : List Range) : Prop :=
  ∀ before r after, rs = before ++ r :: after →
    (∀ j, r.Covers j → ∃ s ∈ after, s.Covers j) ∨ ∀ j, r.Covers j → ∀ s ∈ after, ¬ s.Covers j

theorem settled_of_disjoint {rs : List Range} (apart : rs.Pairwise Range.Disjoint) : Settled rs := by
  rintro before r after rfl
  refine .inr fun j covers s member covered => ?_
  exact (List.pairwise_cons.mp (List.pairwise_append.mp apart).2.1).1 s member j ⟨covers,covered⟩

theorem patchAll_inverse {f g : List α → List α} (keepsF : ∀ xs, (f xs).length = xs.length)
    (keepsG : ∀ xs, (g xs).length = xs.length) (inverse : ∀ xs, g (f xs) = xs)
    {xs : List α} {rs : List Range} (fits : ∀ r ∈ rs, r.Fits xs.length) (settled : Settled rs) :
    patchAll g (patchAll f xs rs) rs = xs := by
  have length := patchAll_length keepsF fits
  apply List.ext_getElem?
  intro j
  rw [patchAll_at keepsG (by rw [length]; exact fits)]
  cases found : lastCovering rs j with
  | none =>
    have value := patchAll_at keepsF fits j
    rw [found] at value
    exact value
  | some r =>
    obtain ⟨covers,before,after,rfl,unseen⟩ := lastCovering_some.mp found
    rcases settled before r after rfl with hidden | clear
    · obtain ⟨s,member,covered⟩ := hidden j covers
      exact absurd covered (unseen s member)
    · simp only [slice_patchAll keepsF fits clear,inverse]
      exact slice_at xs covers

end RangePatches
