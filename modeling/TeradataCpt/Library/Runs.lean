import TeradataCpt.Library.RangeOverlaps

-- Maps that separators cut apart, and the maximal runs between separators.
namespace Runs
open RangePatches RangeOverlaps
variable {α : Type _}

structure Splits (f : List α → List α) (sep : α → Bool) : Prop where
  keeps : ∀ xs, (f xs).length = xs.length
  split : ∀ xs z ys, sep z = true → f (xs ++ z :: ys) = f xs ++ z :: f ys

structure IsRun (sep : α → Bool) (xs : List α) (r : Range) : Prop where
  nonempty : 0 < r.length
  fits : r.Fits xs.length
  inside : ∀ a ∈ slice xs r, sep a = false
  left : r.start = 0 ∨ xs[r.start-1]?.any sep = true
  right : r.start + r.length = xs.length ∨ xs[r.start + r.length]?.any sep = true

theorem isRun_iff {sep : α → Bool} {xs : List α} {r : Range} : IsRun sep xs r ↔
    0 < r.length ∧ r.start + r.length ≤ xs.length ∧ (∀ a ∈ slice xs r, sep a = false) ∧
      (r.start = 0 ∨ xs[r.start-1]?.any sep = true) ∧
      (r.start + r.length = xs.length ∨ xs[r.start + r.length]?.any sep = true) :=
  ⟨fun run => ⟨run.nonempty,run.fits,run.inside,run.left,run.right⟩,
    fun ⟨nonempty,fits,inside,left,right⟩ => ⟨nonempty,fits,inside,left,right⟩⟩

instance (sep : α → Bool) (xs : List α) (r : Range) : Decidable (IsRun sep xs r) := decidable_of_iff' _ isRun_iff

theorem reach_down {p : Nat → Prop} {j : Nat} (here : p j) :
    ∃ low ≤ j, (∀ i, low ≤ i → i ≤ j → p i) ∧ (low = 0 ∨ ¬ p (low-1)) := by
  induction j with
  | zero => exact ⟨0,Nat.le_refl 0,fun i _ top => by rwa [Nat.le_zero.mp top],.inl rfl⟩
  | succ j ih =>
    by_cases before : p j
    · obtain ⟨low,bound,holds,edge⟩ := ih before
      refine ⟨low,Nat.le_succ_of_le bound,fun i above top => ?_,edge⟩
      rcases Nat.le_succ_iff.mp top with inside | rfl
      · exact holds i above inside
      · exact here
    · refine ⟨j+1,Nat.le_refl _,fun i above top => ?_,.inr before⟩
      rwa [Nat.le_antisymm top above]

theorem reach_up {p : Nat → Prop} {j : Nat} (here : p j) (room : Nat) :
    ∃ high, j < high ∧ high ≤ j + 1 + room ∧ (∀ i, j ≤ i → i < high → p i) ∧ (high = j + 1 + room ∨ ¬ p high) := by
  induction room generalizing j with
  | zero =>
    refine ⟨j+1,Nat.lt_succ_self j,Nat.le_refl _,fun i low top => ?_,.inl rfl⟩
    rwa [Nat.le_antisymm (Nat.le_of_lt_succ top) low]
  | succ room ih =>
    by_cases next : p (j+1)
    · obtain ⟨high,above,bound,holds,edge⟩ := ih next
      refine ⟨high,by omega,by omega,fun i low top => ?_,edge.imp_left (by omega)⟩
      rcases Nat.eq_or_lt_of_le low with rfl | after
      · exact here
      · exact holds i after top
    · refine ⟨j+1,Nat.lt_succ_self j,by omega,fun i low top => ?_,.inr next⟩
      rwa [Nat.le_antisymm (Nat.le_of_lt_succ top) low]

theorem slice_plain {sep : α → Bool} {xs : List α} {r : Range}
    (free : ∀ i, r.Covers i → xs[i]?.any sep ≠ true) : ∀ a ∈ slice xs r, sep a = false := by
  intro a member
  obtain ⟨i,place⟩ := List.mem_iff_getElem?.mp member
  have inside : i < r.length := by
    have bound := (List.getElem?_eq_some_iff.mp place).1
    simp only [slice,List.length_take] at bound
    omega
  rw [slice,List.getElem?_take_of_lt inside,List.getElem?_drop] at place
  simpa [place] using free (r.start + i) ⟨by omega,by omega⟩

theorem exists_run {sep : α → Bool} {xs : List α} {j : Nat} {a : α} (item : xs[j]? = some a) (plain : sep a = false) :
    ∃ r, IsRun sep xs r ∧ r.Covers j := by
  have within : j < xs.length := (List.getElem?_eq_some_iff.mp item).1
  have here : xs[j]?.any sep ≠ true := by simp [item,plain]
  obtain ⟨low,below,left,leftEdge⟩ := reach_down (p := fun i => xs[i]?.any sep ≠ true) here
  obtain ⟨high,above,top,right,rightEdge⟩ := reach_up (p := fun i => xs[i]?.any sep ≠ true) here (xs.length - (j+1))
  have last : low + (high - low) = high := by omega
  refine ⟨⟨low,high-low⟩,⟨by simp only; omega,?_,?_,?_,?_⟩,⟨below,by simp only; omega⟩⟩
  · simp only [Range.Fits]
    omega
  · apply slice_plain
    rintro i ⟨above_low,below_high⟩
    simp only [last] at above_low below_high
    rcases Nat.le_total i j with before | behind
    · exact left i above_low before
    · exact right i behind below_high
  · exact leftEdge.imp_right Classical.not_not.mp
  · simp only [last]
    rcases rightEdge with ends | any
    · exact .inl (by omega)
    · exact .inr (Classical.not_not.mp any)

theorem slice_map (g : α → Bool) (xs : List α) (r : Range) : slice (xs.map g) r = (slice xs r).map g := by
  simp [slice,List.map_take,List.map_drop]

-- Where the runs are depends only on where the separators are.
theorem isRun_pattern {sep : α → Bool} {xs : List α} {r : Range} : IsRun id (xs.map sep) r ↔ IsRun sep xs r := by
  have place : ∀ i : Nat, ((xs.map sep)[i]?).any id = xs[i]?.any sep := by
    intro i
    cases item : xs[i]? <;> simp [item]
  simp only [isRun_iff,slice_map,List.length_map,place,List.forall_mem_map,id_eq]

theorem IsRun.pattern {sep : α → Bool} {xs ys : List α} {r : Range} (run : IsRun sep xs r)
    (same : ys.map sep = xs.map sep) : IsRun sep ys r := by
  rwa [← isRun_pattern,same,isRun_pattern]

theorem IsRun.plain {sep : α → Bool} {xs : List α} {r : Range} (run : IsRun sep xs r) {j : Nat} (covers : r.Covers j) :
    (xs.map sep)[j]? = some false := by
  have within : j < xs.length := Nat.lt_of_lt_of_le covers.2 run.fits
  have place := slice_at xs covers
  rw [List.getElem?_eq_getElem within] at place
  rw [List.getElem?_map,List.getElem?_eq_getElem within,Option.map_some,run.inside _ (List.mem_of_getElem? place)]

theorem set_same {xs : List α} {j : Nat} {a : α} (item : xs[j]? = some a) : xs.set j a = xs := by
  obtain ⟨bound,rfl⟩ := List.getElem?_eq_some_iff.mp item
  exact List.set_getElem_self bound

theorem IsRun.set {sep : α → Bool} {xs : List α} {r : Range} (run : IsRun sep xs r) {j : Nat} (covers : r.Covers j)
    {b : α} (plain : sep b = false) : IsRun sep (xs.set j b) r := by
  apply run.pattern
  rw [List.map_set,plain]
  exact set_same (run.plain covers)

theorem slice_change {xs : List α} {r : Range} {j : Nat} (covers : r.Covers j) {a : α} (item : xs[j]? = some a) :
    ∃ before after, slice xs r = before ++ a :: after ∧ ∀ b, slice (xs.set j b) r = before ++ b :: after := by
  have place := slice_at xs covers
  rw [item] at place
  obtain ⟨within,own⟩ := List.getElem?_eq_some_iff.mp place
  have last : ¬ j < r.start := Nat.not_lt.mpr covers.1
  refine ⟨(slice xs r).take (j - r.start),(slice xs r).drop (j - r.start + 1),?_,fun b => ?_⟩
  · rw [← own,List.getElem_cons_drop,List.take_append_drop]
  · have inner : slice (xs.set j b) r = (slice xs r).set (j - r.start) b := by
      rw [slice,slice,List.drop_set,if_neg last,List.take_set]
    rw [inner,List.set_eq_take_append_cons_drop,if_pos within]

section Images
variable {f : List α → List α} {sep : α → Bool} (splits : Splits f sep)
include splits

theorem Splits.isolates {z : α} (separates : sep z = true) : Isolates f z :=
  ⟨splits.keeps,fun xs ys => splits.split xs z ys separates⟩

theorem separators_stay {xs : List α} {j : Nat} {z : α} (item : xs[j]? = some z) (separates : sep z = true) :
    (f xs)[j]? = some z := separator_stays (splits.isolates separates) item

theorem image_nil : f [] = [] := List.eq_nil_of_length_eq_zero (splits.keeps [])

theorem cut_behind {xs : List α} {k : Nat} (left : k = 0 ∨ xs[k-1]?.any sep = true) :
    f xs = f (xs.take k) ++ f (xs.drop k) := by
  rcases left with rfl | any
  · simp [image_nil splits]
  · cases k with
    | zero => simp [image_nil splits]
    | succ k =>
      cases item : xs[k]? with
      | none => simp [item] at any
      | some z =>
        have separates : sep z = true := by simpa [item] using any
        obtain ⟨bound,value⟩ := List.getElem?_eq_some_iff.mp item
        have front : xs.take (k+1) = xs.take k ++ [z] := by rw [← value,List.take_append_getElem]
        have parts : xs = xs.take k ++ z :: xs.drop (k+1) := by
          rw [← value,List.getElem_cons_drop,List.take_append_drop]
        have alone := splits.split (xs.take k) z [] separates
        rw [image_nil splits] at alone
        rw [front,alone,List.append_assoc,List.singleton_append,← splits.split _ z _ separates,← parts]

theorem cut_before {xs : List α} {k : Nat} (right : k = xs.length ∨ xs[k]?.any sep = true) :
    f xs = f (xs.take k) ++ f (xs.drop k) := by
  rcases right with rfl | any
  · simp [image_nil splits]
  · cases item : xs[k]? with
    | none => simp [item] at any
    | some z =>
      have separates : sep z = true := by simpa [item] using any
      obtain ⟨bound,value⟩ := List.getElem?_eq_some_iff.mp item
      have back : xs.drop k = z :: xs.drop (k+1) := by rw [← value,List.getElem_cons_drop]
      have parts : xs = xs.take k ++ z :: xs.drop (k+1) := by rw [← back,List.take_append_drop]
      have alone := splits.split [] z (xs.drop (k+1)) separates
      rw [image_nil splits,List.nil_append,List.nil_append] at alone
      rw [back,alone,← splits.split _ z _ separates,← parts]

-- What stands before a run, in it and behind it is mapped by itself.
theorem run_image {xs : List α} {r : Range} (run : IsRun sep xs r) :
    f xs = f (xs.take r.start) ++ f (slice xs r) ++ f (xs.drop (r.start + r.length)) := by
  have fits := run.fits
  unfold Range.Fits at fits
  have right : r.length = (xs.drop r.start).length ∨ (xs.drop r.start)[r.length]?.any sep = true := by
    rcases run.right with ends | any
    · exact .inl (by rw [List.length_drop]; omega)
    · exact .inr (by rwa [List.getElem?_drop])
  rw [cut_behind splits run.left,cut_before splits right,List.drop_drop,List.append_assoc]
  rfl

theorem run_at {xs : List α} {r : Range} (run : IsRun sep xs r) {j : Nat} (covers : r.Covers j) :
    (f xs)[j]? = (f (slice xs r))[j - r.start]? := by
  have fits := run.fits
  unfold Range.Fits at fits
  obtain ⟨low,high⟩ := covers
  have front : (f (xs.take r.start)).length = r.start := by rw [splits.keeps,List.length_take]; omega
  have middle : (f (slice xs r)).length = r.length := by rw [splits.keeps,slice_length run.fits]
  rw [run_image splits run,List.getElem?_append_left (by simp; omega),List.getElem?_append_right (by omega),front]

theorem change_in_run {xs : List α} {r : Range} (run : IsRun sep xs r) {j : Nat} (covers : r.Covers j) {b : α}
    (plain : sep b = false) {i : Nat} (away : ¬ r.Covers i) : (f (xs.set j b))[i]? = (f xs)[i]? := by
  have fits := run.fits
  unfold Range.Fits at fits
  have changed := run.set covers plain
  obtain ⟨low,high⟩ := covers
  have front : (xs.set j b).take r.start = xs.take r.start := List.take_set_of_le low
  have back : (xs.set j b).drop (r.start + r.length) = xs.drop (r.start + r.length) := List.drop_set_of_lt high
  have first : (f (xs.take r.start)).length = r.start := by rw [splits.keeps,List.length_take]; omega
  have old : (f (slice xs r)).length = r.length := by rw [splits.keeps,slice_length run.fits]
  have new : (f (slice (xs.set j b) r)).length = r.length := by rw [splits.keeps,slice_length changed.fits]
  rw [run_image splits changed,run_image splits run,front,back]
  rcases Nat.lt_or_ge i r.start with before | after
  · rw [List.append_assoc,List.append_assoc,List.getElem?_append_left (by omega),List.getElem?_append_left (by omega)]
  · have behind : r.start + r.length ≤ i := Nat.not_lt.mp fun inside => away ⟨after,inside⟩
    rw [List.getElem?_append_right (by simp; omega),List.getElem?_append_right (by simp; omega),List.length_append,
      List.length_append,old,new]

theorem run_last {xs : List α} {r : Range} (run : IsRun sep xs r) :
    (f xs)[r.start + r.length - 1]? = (f (slice xs r)).getLast? := by
  have some := run.nonempty
  have covers : r.Covers (r.start + r.length - 1) := ⟨by omega,by omega⟩
  have index : r.start + r.length - 1 - r.start = r.length - 1 := by omega
  rw [run_at splits run covers,List.getLast?_eq_getElem?,splits.keeps,slice_length run.fits,index]

-- Patching the runs is mapping the whole.
theorem patched_runs {xs : List α} {rs : List Range} (runs : ∀ r ∈ rs, IsRun sep xs r)
    (all : ∀ r, IsRun sep xs r → r ∈ rs) :
    patchAll f xs rs = f xs := by
  apply List.ext_getElem?
  intro j
  rw [patchAll_at splits.keeps fun r member => (runs r member).fits]
  cases owner : lastCovering rs j with
  | some r =>
    obtain ⟨member,covers⟩ := lastCovering_mem owner
    exact (run_at splits (runs r member) covers).symm
  | none =>
    cases item : xs[j]? with
    | none => exact (List.getElem?_eq_none (by rw [splits.keeps]; exact List.getElem?_eq_none_iff.mp item)).symm
    | some a =>
      cases class_a : sep a with
      | true => exact (separators_stay splits item class_a).symm
      | false =>
        obtain ⟨r,run,covers⟩ := exists_run item class_a
        exact absurd covers (lastCovering_none.mp owner r (all r run))

end Images

end Runs
