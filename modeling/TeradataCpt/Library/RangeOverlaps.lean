import Mathlib.Data.Nat.Init
import TeradataCpt.Library.RangePatches

-- Why two maps that undo each other on every slice do not undo each other under
-- ranges that cut into one another.
namespace RangeOverlaps
open RangePatches
variable {α : Type _}

-- A map for which `z` separates what stands on its two sides.
structure Isolates (f : List α → List α) (z : α) : Prop where
  keeps : ∀ xs, (f xs).length = xs.length
  split : ∀ xs ys, f (xs ++ z :: ys) = f xs ++ z :: f ys

def padded (z : α) (p : Nat) (word : List α) (q : Nat) : List α := List.replicate p z ++ word ++ List.replicate q z

theorem padded_length (z : α) (p : Nat) (word : List α) (q : Nat) :
    (padded z p word q).length = p + word.length + q := by simp [padded,Nat.add_assoc]

theorem padded_at (z : α) (p : Nat) (word : List α) (q i : Nat) :
    (padded z p word q)[i]? =
      if i < p then some z else if i < p + word.length then word[i-p]? else if i < p + word.length + q then some z
      else none := by
  rw [padded,List.append_assoc,List.getElem?_append,List.length_replicate]
  by_cases before : i < p
  · simp [before]
  · rw [if_neg before,if_neg before,List.getElem?_append]
    by_cases inside : i < p + word.length
    · rw [if_pos (by omega),if_pos inside]
    · have shift : i - p - word.length < q ↔ i < p + word.length + q := by omega
      rw [if_neg (by omega),if_neg inside,List.getElem?_replicate]
      simp only [shift]

theorem padded_word (z : α) (p : Nat) (word : List α) (q : Nat) {i : Nat} (bound : i < word.length) :
    (padded z p word q)[p+i]? = word[i]? := by
  rw [padded_at,if_neg (by omega),if_pos (by omega),Nat.add_sub_cancel_left]

theorem padded_behind (z : α) {p : Nat} {word : List α} (q : Nat) {i : Nat} (behind : p + word.length ≤ i) :
    (padded z p word q)[i]? = if i < p + word.length + q then some z else none := by
  rw [padded_at,if_neg (by omega),if_neg (by omega)]

theorem padded_ext {z : α} {p q : Nat} {word ys : List α} (length : ys.length = p + word.length + q)
    (inner : ∀ i < word.length, ys[p+i]? = word[i]?)
    (outer : ∀ i < ys.length, i < p ∨ p + word.length ≤ i → ys[i]? = some z) : ys = padded z p word q := by
  apply List.ext_getElem?
  intro i
  rw [padded_at]
  by_cases before : i < p
  · rw [if_pos before,outer i (by omega) (.inl before)]
  · rw [if_neg before]
    by_cases inside : i < p + word.length
    · have place := inner (i-p) (by omega)
      rw [if_pos inside,← place,Nat.add_sub_cancel' (by omega)]
    · rw [if_neg inside]
      split
      · exact outer i (by omega) (.inr (by omega))
      · exact List.getElem?_eq_none (by omega)

theorem slice_padded {z : α} {p q : Nat} {word : List α} {r : Range} (low : r.start ≤ p)
    (high : p + word.length ≤ r.start + r.length) (fits : r.Fits (p + word.length + q)) :
    slice (padded z p word q) r = padded z (p - r.start) word (r.start + r.length - (p + word.length)) := by
  have within : r.Fits (padded z p word q).length := by rwa [padded_length]
  have length := slice_length within
  have place : ∀ i < r.length, (slice (padded z p word q) r)[i]? = (padded z p word q)[r.start+i]? := by
    intro i bound
    have covers : r.Covers (r.start + i) := ⟨by omega,by omega⟩
    have value := slice_at (padded z p word q) covers
    rwa [Nat.add_sub_cancel_left] at value
  refine padded_ext (by omega) (fun i bound => ?_) fun i bound side => ?_
  · rw [place _ (by omega),padded_at,if_neg (by omega),if_pos (by omega)]
    congr 1
    omega
  · unfold Range.Fits at fits
    rw [place i (by omega),padded_at]
    rcases side with before | behind
    · rw [if_pos (by omega)]
    · rw [if_neg (by omega),if_neg (by omega),if_pos (by omega)]

section Isolated
variable {f : List α → List α} {z : α} (isolates : Isolates f z)
include isolates

theorem empty_image : f [] = [] := List.eq_nil_of_length_eq_zero (isolates.keeps [])

theorem separator_stays {xs : List α} {i : Nat} (item : xs[i]? = some z) : (f xs)[i]? = some z := by
  obtain ⟨bound,value⟩ := List.getElem?_eq_some_iff.mp item
  have parts : xs = xs.take i ++ z :: xs.drop (i+1) := by
    rw [← value,List.getElem_cons_drop,List.take_append_drop]
  have front : (f (xs.take i)).length = i := by rw [isolates.keeps,List.length_take]; omega
  rw [parts,isolates.split,List.getElem?_append_right (by omega),front,Nat.sub_self]
  rfl

theorem padded_image (p : Nat) (word : List α) (q : Nat) : f (padded z p word q) = padded z p (f word) q := by
  have behind : ∀ word : List α, f (word ++ List.replicate q z) = f word ++ List.replicate q z := by
    induction q with
    | zero => simp
    | succ q ih =>
      intro word
      have rest := ih []
      rw [List.nil_append,empty_image isolates,List.nil_append] at rest
      rw [List.replicate_succ,isolates.split,rest]
  induction p with
  | zero => simpa [padded] using behind word
  | succ p ih =>
    have first := isolates.split [] (padded z p word q)
    rw [empty_image isolates,ih] at first
    simpa [padded,List.replicate_succ] using first

theorem word_image {p q : Nat} {word : List α} {r : Range} (low : r.start ≤ p)
    (high : p + word.length ≤ r.start + r.length) (fits : r.Fits (p + word.length + q)) {i : Nat}
    (inside : i < word.length) : (f (slice (padded z p word q) r))[p + i - r.start]? = (f word)[i]? := by
  have index : p + i - r.start - (p - r.start) = i := by omega
  rw [slice_padded low high fits,padded_image isolates,padded_at,isolates.keeps,if_neg (by omega),
    if_pos (by omega),index]

-- A range that starts or ends between the two symbols of a word shows one of them alone.
theorem cut_left {p q : Nat} (u v : α) {r : Range} (start : r.start = p + 1) (nonempty : 0 < r.length)
    (fits : r.Fits (p + 2 + q)) :
    (f (slice (padded z p [u,v] q) r))[0]? = (f [v])[0]? ∧ (f (padded z p [u,v] q))[r.start]? = (f [u,v])[1]? := by
  have same : slice (padded z p [u,v] q) r = slice (padded z (p+1) [v] q) r := by
    refine slice_congr fun j covers => ?_
    obtain ⟨low,high⟩ := covers
    by_cases first : j = p + 1
    · rw [first,padded_word z p [u,v] q (i := 1) (by simp)]
      exact (padded_word z (p+1) [v] q (i := 0) (by simp)).symm
    · have pair : p + [u,v].length ≤ j := by rw [List.length_cons,List.length_singleton]; omega
      have single : p + 1 + [v].length ≤ j := by rw [List.length_singleton]; omega
      rw [padded_behind z q pair,padded_behind z q single]
      rfl
  have alone : (f (slice (padded z (p+1) [v] q) r))[p + 1 + 0 - r.start]? = (f [v])[0]? :=
    word_image isolates (by omega) (show p + 1 + 1 ≤ r.start + r.length by omega)
      (show r.Fits (p + 1 + 1 + q) from fits) (Nat.lt_succ_self 0)
  refine ⟨?_,?_⟩
  · rw [same,← alone,start,Nat.add_zero,Nat.sub_self]
  · rw [padded_image isolates,start,padded_word _ _ _ _ (by simp [isolates.keeps])]

theorem cut_right {p q : Nat} (u v : α) {r : Range} (last : r.start + r.length = p + 1) (nonempty : 0 < r.length)
    (fits : r.Fits (p + 2 + q)) :
    (f (slice (padded z p [u,v] q) r))[p - r.start]? = (f [u])[0]? ∧ (f (padded z p [u,v] q))[p]? = (f [u,v])[0]? := by
  have same : slice (padded z p [u,v] q) r = slice (padded z p [u] (q+1)) r := by
    refine slice_congr fun j covers => ?_
    obtain ⟨low,high⟩ := covers
    rw [padded_at,padded_at]
    by_cases before : j < p
    · rw [if_pos before,if_pos before]
    · obtain rfl : j = p := by omega
      simp
  have alone : (f (slice (padded z p [u] (q+1)) r))[p + 0 - r.start]? = (f [u])[0]? :=
    word_image isolates (by omega) (show p + 1 ≤ r.start + r.length by omega)
      (show r.Fits (p + 1 + (q + 1)) by unfold Range.Fits at fits ⊢; omega) (Nat.lt_succ_self 0)
  refine ⟨?_,?_⟩
  · rwa [same]
  · have front := padded_word z p (f [u,v]) q (i := 0) (by simp [isolates.keeps])
    rwa [Nat.add_zero,← padded_image isolates] at front

end Isolated

theorem exists_change {p : Nat → Prop} {u v : Nat} (order : u ≤ v) (differ : ¬ (p u ↔ p v)) :
    ∃ j, u ≤ j ∧ j < v ∧ ¬ (p j ↔ p (j+1)) := by
  induction v, order using Nat.le_induction with
  | base => exact absurd Iff.rfl differ
  | succ v above ih =>
    by_cases same : p u ↔ p v
    · exact ⟨v,above,Nat.lt_succ_self v,fun step => differ (same.trans step)⟩
    · obtain ⟨j,low,high,change⟩ := ih same
      exact ⟨j,low,Nat.lt_succ_of_lt high,change⟩

theorem covers_between {r : Range} {u v j : Nat} (first : r.Covers u) (last : r.Covers v) (low : u ≤ j) (high : j ≤ v) :
    r.Covers j := ⟨Nat.le_trans first.1 low,Nat.lt_of_le_of_lt high last.2⟩

def Covered (rs : List Range) (j : Nat) : Prop := ∃ s ∈ rs, s.Covers j

theorem unsettled_change {rs : List Range} (unsettled : ¬ Settled rs) :
    ∃ before r after j, rs = before ++ r :: after ∧ r.Covers j ∧ r.Covers (j+1) ∧
      ¬ (Covered after j ↔ Covered after (j+1)) := by
  unfold Settled at unsettled
  push Not at unsettled
  obtain ⟨before,r,after,parts,⟨u,inU,bare⟩,⟨v,inV,s,member,covered⟩⟩ := unsettled
  have hidden : Covered after v := ⟨s,member,covered⟩
  have shown : ¬ Covered after u := fun ⟨t,inAfter,covers⟩ => bare t inAfter covers
  rcases Nat.le_total u v with order | order
  · obtain ⟨j,low,high,change⟩ := exists_change order fun same => shown (same.mpr hidden)
    exact ⟨before,r,after,j,parts,covers_between inU inV low (by omega),covers_between inU inV (by omega) high,change⟩
  · obtain ⟨j,low,high,change⟩ := exists_change order fun same => shown (same.mp hidden)
    exact ⟨before,r,after,j,parts,covers_between inV inU low (by omega),covers_between inV inU (by omega) high,change⟩

theorem owner_bare (before : List Range) {after : List Range} {r : Range} {j : Nat} (covers : r.Covers j)
    (bare : ¬ Covered after j) : lastCovering (before ++ r :: after) j = some r :=
  lastCovering_some.mpr ⟨covers,before,after,rfl,fun s member covered => bare ⟨s,member,covered⟩⟩

theorem owner_covered (before : List Range) (r : Range) {after : List Range} {j : Nat} (hidden : Covered after j) :
    ∃ s ∈ after, s.Covers j ∧ lastCovering (before ++ r :: after) j = some s := by
  cases found : lastCovering after j with
  | none =>
    obtain ⟨s,member,covers⟩ := hidden
    exact absurd covers (lastCovering_none.mp found s member)
  | some s =>
    obtain ⟨covers,early,late,rfl,unseen⟩ := lastCovering_some.mp found
    refine ⟨s,by simp,covers,lastCovering_some.mpr ⟨covers,before ++ r :: early,late,by simp,unseen⟩⟩

theorem padded_fits (z a b : α) {rs : List Range} {j q : Nat} (fits : ∀ r ∈ rs, r.Fits (j + 2 + q)) :
    ∀ r ∈ rs, r.Fits (padded z j [a,b] q).length := by
  rw [padded_length]
  exact fits

section Loss
variable {f g : List α → List α} {z : α} (forth : Isolates f z) (back : Isolates g z) {rs : List Range}
  {j q : Nat} {a b : α} (fits : ∀ r ∈ rs, r.Fits (j + 2 + q))
include forth fits

theorem patched_pair {c d : α} (left : (patchAll f (padded z j [a,b] q) rs)[j]? = some c)
    (right : (patchAll f (padded z j [a,b] q) rs)[j+1]? = some d) :
    patchAll f (padded z j [a,b] q) rs = padded z j [c,d] q := by
  have fitting := padded_fits z a b fits
  have length := patchAll_length forth.keeps fitting
  rw [padded_length] at length
  refine padded_ext length (fun i bound => ?_) fun i bound side => ?_
  · rcases Nat.lt_succ_iff_lt_or_eq.mp bound with first | rfl
    · obtain rfl := Nat.lt_one_iff.mp first
      exact left
    · exact right
  · have item : (padded z j [a,b] q)[i]? = some z := by
      rw [padded_at]
      rw [length] at bound
      rcases side with before | behind
      · rw [if_pos before]
      · rw [if_neg (by omega),if_neg (by simp at behind ⊢; omega),if_pos bound]
    rw [patchAll_at forth.keeps fitting]
    cases owner : lastCovering rs i with
    | none => exact item
    | some r => exact separator_stays forth ((slice_at _ (lastCovering_mem owner).2).trans item)

theorem own_value {r : Range} (member : r ∈ rs) (here : r.Covers j) (next : r.Covers (j+1)) {i : Nat} (bound : i < 2)
    (owner : lastCovering rs (j+i) = some r) : (patchAll f (padded z j [a,b] q) rs)[j+i]? = (f [a,b])[i]? := by
  have fitting := padded_fits z a b fits
  have high : j + [a,b].length ≤ r.start + r.length := next.2
  rw [patchAll_at forth.keeps fitting,owner]
  exact word_image forth here.1 high (fits r member) bound

theorem left_value {s : Range} (member : s ∈ rs) (here : s.Covers j) (apart : ¬ s.Covers (j+1))
    (owner : lastCovering rs j = some s) : (patchAll f (padded z j [a,b] q) rs)[j]? = (f [a])[0]? := by
  have fitting := padded_fits z a b fits
  have ends : s.start + s.length = j + 1 := by
    obtain ⟨low,high⟩ := here
    have past : ¬ j + 1 < s.start + s.length := fun inside => apart ⟨by omega,inside⟩
    omega
  have same : slice (padded z j [a,b] q) s = slice (padded z j [a] (q+1)) s := by
    refine slice_congr fun i covers => ?_
    have bound : i ≤ j := by have := covers.2; omega
    rw [padded_at,padded_at]
    split
    · rfl
    · obtain rfl : i = j := by omega
      simp
  have room : s.Fits (j + [a].length + (q+1)) := by
    have := fits s member
    unfold Range.Fits at this ⊢
    simp only [List.length_cons,List.length_nil]
    omega
  rw [patchAll_at forth.keeps fitting,owner]
  simp only [same]
  exact word_image forth (i := 0) here.1 (by simp; omega) room Nat.one_pos

theorem right_value {s : Range} (member : s ∈ rs) (next : s.Covers (j+1)) (apart : ¬ s.Covers j)
    (owner : lastCovering rs (j+1) = some s) : (patchAll f (padded z j [a,b] q) rs)[j+1]? = (f [b])[0]? := by
  have fitting := padded_fits z a b fits
  have starts : s.start = j + 1 := by
    obtain ⟨low,high⟩ := next
    have before : ¬ s.start ≤ j := fun inside => apart ⟨inside,by omega⟩
    omega
  have same : slice (padded z j [a,b] q) s = slice (padded z (j+1) [b] q) s := by
    refine slice_congr fun i covers => ?_
    have low := covers.1
    by_cases first : i = j + 1
    · subst first
      have pair : (padded z j [a,b] q)[j+1]? = some b := padded_word z j [a,b] q Nat.one_lt_two
      have alone : (padded z (j+1) [b] q)[j+1]? = some b := padded_word z (j+1) [b] q (i := 0) Nat.one_pos
      rw [pair,alone]
    · have past : j + 2 ≤ i := by omega
      have pair : (padded z j [a,b] q)[i]? = if i < j + 2 + q then some z else none := padded_behind z q past
      have alone : (padded z (j+1) [b] q)[i]? = if i < j + 2 + q then some z else none := padded_behind z q past
      rw [pair,alone]
  have room : s.Fits (j + 1 + [b].length + q) := fits s member
  rw [patchAll_at forth.keeps fitting,owner]
  simp only [same]
  exact word_image forth (i := 0) (by omega) next.2 room Nat.one_pos

include back

-- Undoing the word with one symbol replaced does not give the other symbol back.
theorem pair_lost {r : Range} (member : r ∈ rs) (here : r.Covers j) (next : r.Covers (j+1)) {c d : α}
    (left : (patchAll f (padded z j [a,b] q) rs)[j]? = some c)
    (right : (patchAll f (padded z j [a,b] q) rs)[j+1]? = some d) {i : Nat} (bound : i < 2)
    (owner : lastCovering rs (j+i) = some r) (lost : (g [c,d])[i]? ≠ [a,b][i]?) :
    patchAll g (patchAll f (padded z j [a,b] q) rs) rs ≠ padded z j [a,b] q := by
  intro restored
  have found := own_value back fits (a := c) (b := d) member here next bound owner
  rw [← patched_pair forth fits left right,restored,padded_at,if_neg (by omega),
    if_pos (by simpa using bound),Nat.add_sub_cancel_left] at found
  exact lost found.symm

end Loss

theorem unsettled_loses {f g : List α → List α} {z : α} (forth : Isolates f z) (back : Isolates g z)
    (leftLoses : ∃ a b alone left right : α, f [a] = [alone] ∧ f [a,b] = [left,right] ∧ (g [alone,right])[1]? ≠ some b)
    (rightLoses : ∃ a b alone left right : α, f [b] = [alone] ∧ f [a,b] = [left,right] ∧ (g [left,alone])[0]? ≠ some a)
    {n : Nat} {rs : List Range} (fits : ∀ r ∈ rs, r.Fits n) (unsettled : ¬ Settled rs) :
    ∃ xs : List α, xs.length = n ∧ patchAll g (patchAll f xs rs) rs ≠ xs := by
  obtain ⟨before,r,after,j,rfl,here,next,change⟩ := unsettled_change unsettled
  have own : r ∈ before ++ r :: after := by simp
  have room : j + 2 ≤ n := by
    have := next.2
    have := fits r own
    unfold Range.Fits at this
    omega
  obtain ⟨q,rfl⟩ := Nat.exists_eq_add_of_le room
  by_cases hidden : Covered after j
  · have bare : ¬ Covered after (j+1) := fun covered => change (iff_of_true hidden covered)
    obtain ⟨a,b,alone,left,right,single,pair,lost⟩ := leftLoses
    obtain ⟨s,member,covers,owner⟩ := owner_covered before r hidden
    have kept := owner_bare before next bare
    have first := left_value forth fits (a := a) (b := b) (by simp [member]) covers (fun both => bare ⟨s,member,both⟩) owner
    have second := own_value forth fits (a := a) (b := b) own here next (i := 1) (by decide) kept
    rw [single] at first
    rw [pair] at second
    exact ⟨padded z j [a,b] q,by simp [padded_length],pair_lost forth back fits own here next first second
      (i := 1) (by decide) kept lost⟩
  · have covered : Covered after (j+1) := by
      by_cases also : Covered after (j+1)
      · exact also
      · exact absurd (iff_of_false hidden also) change
    obtain ⟨a,b,alone,left,right,single,pair,lost⟩ := rightLoses
    obtain ⟨s,member,covers,owner⟩ := owner_covered before r covered
    have kept := owner_bare before here hidden
    have first := own_value forth fits (a := a) (b := b) own here next (i := 0) (by decide) kept
    have second := right_value forth fits (a := a) (b := b) (by simp [member]) covers
      (fun both => hidden ⟨s,member,both⟩) owner
    rw [pair] at first
    rw [single] at second
    exact ⟨padded z j [a,b] q,by simp [padded_length],pair_lost forth back fits own here next first second
      (i := 0) (by decide) kept lost⟩

end RangeOverlaps
