import TeradataCpt.Overlaps
import TeradataCpt.Formats

-- A field that was encrypted as a whole, of which a policy decrypts ranges only.
namespace TeradataCpt.RangeReads
open CSemantics ChainedPasses RangePatches RangeOverlaps Cpt CptJni Passes KeyTables Fields Policies Formats Overlaps

theorem barrier_kept {inkey : Nat} {m : CptMode} {x : List UInt8} {i : Nat} {b : UInt8} (item : x[i]? = some b)
    (away : ¬ InAlphabet m b) :
    (cipher inkey m x)[i]? = some b ∧ Barrier (decryptStep m (tableOf m (keyPerm inkey m).symm)) b := by
  obtain ⟨c,value,keeps⟩ := image_keeps inkey m true x i b item
  rw [keeps.outside away] at value
  rw [inAlphabet_iff,Bool.not_eq_false] at away
  exact ⟨value,decryptStep_barrier _ away⟩

theorem window_read (inkey : Nat) (m : CptMode) {x : List UInt8} {r : Range} {j : Nat} (covers : r.Covers j)
    (fits : r.Fits x.length) (left : r.start < j ∨ j = 0 ∨ ∃ b, x[j-1]? = some b ∧ ¬ InAlphabet m b)
    (right : j + 1 < r.start + r.length ∨ j + 1 = x.length ∨ ∃ b, x[j+1]? = some b ∧ ¬ InAlphabet m b) :
    ((cipher inkey m).symm (slice (cipher inkey m x) r))[j - r.start]? = x[j]? := by
  obtain ⟨low,high⟩ := covers
  unfold Range.Fits at fits
  have length : (cipher inkey m x).length = x.length := image_length inkey m true x
  have window : ((cipher inkey m).symm (slice (cipher inkey m x) r))[j - r.start]? =
      ((cipher inkey m).symm (cipher inkey m x))[r.start + (j - r.start)]? := by
    refine decipher_window (by omega) (by omega) ?_ ?_
    · rcases left with inner | first | ⟨b,near,away⟩
      · exact .inl (by omega)
      · exact .inr (.inl (by omega))
      · by_cases inner : r.start < j
        · exact .inl (by omega)
        · obtain rfl : j = r.start := by omega
          exact .inr (.inr ⟨b,barrier_kept near away⟩)
    · rcases right with inner | last | ⟨b,next,away⟩
      · exact .inl (by omega)
      · exact .inr (.inl (by omega))
      · by_cases inner : j + 1 < r.start + r.length
        · exact .inl (by omega)
        · have ending : r.start + r.length = j + 1 := by omega
          rw [ending]
          exact .inr (.inr ⟨b,barrier_kept next away⟩)
  rw [window,Nat.add_sub_cancel' low,Equiv.symm_apply_apply]

theorem left_seen (inkey : Nat) (m : CptMode) :
    ∃ u v, ((cipher inkey m).symm [u,v])[1]? ≠ ((cipher inkey m).symm [v])[0]? := by
  obtain ⟨a,b,alone,left,right,_,pair,lost⟩ := left_loses inkey m
  by_contra same
  simp only [not_exists,not_not] at same
  refine lost ((same alone right).trans ((same left right).symm.trans ?_))
  rw [← pair,Equiv.symm_apply_apply]
  rfl

theorem right_seen (inkey : Nat) (m : CptMode) :
    ∃ u v, ((cipher inkey m).symm [u,v])[0]? ≠ ((cipher inkey m).symm [u])[0]? := by
  obtain ⟨a,b,alone,left,right,_,pair,lost⟩ := right_loses inkey m
  by_contra same
  simp only [not_exists,not_not] at same
  refine lost ((same left alone).trans ((same left right).symm.trans ?_))
  rw [← pair,Equiv.symm_apply_apply]
  rfl

theorem end_misread (inkey : Nat) (m : CptMode) {r : Range} {n j : Nat} (covers : r.Covers j) (fits : r.Fits n)
    (cut : (j = r.start ∧ j ≠ 0) ∨ (j + 1 = r.start + r.length ∧ j + 1 ≠ n)) :
    ∃ x, x.length = n ∧ ((cipher inkey m).symm (slice (cipher inkey m x) r))[j - r.start]? ≠ x[j]? := by
  obtain ⟨low,high⟩ := covers
  have isolates : Isolates (cipher inkey m).symm 0 := image_isolates inkey m false
  suffices ∃ y : List UInt8, y.length = n ∧
      ((cipher inkey m).symm (slice y r))[j - r.start]? ≠ ((cipher inkey m).symm y)[j]? by
    obtain ⟨y,length,differ⟩ := this
    refine ⟨(cipher inkey m).symm y,(image_length inkey m false y).trans length,?_⟩
    rwa [Equiv.apply_symm_apply]
  rcases cut with ⟨rfl,inside⟩ | ⟨last,inside⟩
  · obtain ⟨u,v,seen⟩ := left_seen inkey m
    have size : n = r.start - 1 + 2 + (n - (r.start + 1)) := by unfold Range.Fits at fits; omega
    rw [size] at fits
    obtain ⟨piece,whole⟩ := cut_left isolates u v (by omega) (by omega) fits
    refine ⟨padded 0 (r.start - 1) [u,v] (n - (r.start + 1)),?_,?_⟩
    · rw [padded_length]
      exact size.symm
    · rw [Nat.sub_self,piece,whole]
      exact seen.symm
  · obtain ⟨u,v,seen⟩ := right_seen inkey m
    have size : n = j + 2 + (n - (j + 2)) := by unfold Range.Fits at fits; omega
    rw [size] at fits
    obtain ⟨piece,whole⟩ := cut_right isolates u v last.symm (by omega) fits
    refine ⟨padded 0 j [u,v] (n - (j + 2)),?_,?_⟩
    · rw [padded_length]
      exact size.symm
    · rw [piece,whole]
      exact seen.symm

-- The byte at j comes out of the last range that covers it. It is the plain byte where
-- the range holds both its neighbours, or the field or a byte outside the alphabet ends
-- there; and it is that for every field only where the range holds them or the field ends.
theorem range_reads (k : UInt64) (m : CptMode) {policy : JniPolicy} {n : Nat} (short : n < 2^31)
    (valid : validatePolicy (some policy) n = .ok 0) {j : Nat} {r : Range}
    (found : lastCovering (ranges policy) j = some r) :
    (∀ x, x.length = n → ∃ y z, transformBytes .reliable k.toNat m true x = .ok y ∧
      policyRun .reliable policy k.toNat m false y = .ok (0,z) ∧
      ((r.start < j ∨ j = 0 ∨ ∃ b, x[j-1]? = some b ∧ ¬ InAlphabet m b) →
        (j + 1 < r.start + r.length ∨ j + 1 = n ∨ ∃ b, x[j+1]? = some b ∧ ¬ InAlphabet m b) → z[j]? = x[j]?)) ∧
    ((∀ x y z, x.length = n → transformBytes .reliable k.toNat m true x = .ok y →
      policyRun .reliable policy k.toNat m false y = .ok (0,z) → z[j]? = x[j]?) ↔
        (r.start < j ∨ j = 0) ∧ (j + 1 < r.start + r.length ∨ j + 1 = n)) := by
  have accepted := (accepted_iff short).mp valid
  obtain ⟨member,covers⟩ := lastCovering_mem found
  have fits := ranges_fit accepted r member
  have length : ∀ x : List UInt8, x.length = n → (cipher k.toNat m x).length = n := fun x same =>
    (image_length k.toNat m true x).trans same
  have decrypted : ∀ x : List UInt8, x.length = n → ∃ z,
      policyRun .reliable policy k.toNat m false (cipher k.toNat m x) = .ok (0,z) ∧
        z[j]? = ((cipher k.toNat m).symm (slice (cipher k.toNat m x) r))[j - r.start]? := by
    intro x same
    have size := length x same
    refine ⟨_,policy_reliable (by rwa [size]) (by rwa [size]) k.toNat m false,?_⟩
    rw [patchAll_at (image_length k.toNat m false) (by rw [size]; exact ranges_fit accepted),found]
    rfl
  refine ⟨?_,?_,?_⟩
  · rintro x rfl
    obtain ⟨z,ran,value⟩ := decrypted x rfl
    refine ⟨_,z,encrypt_reliable k.toNat m x,ran,fun left right => ?_⟩
    rw [value,window_read k.toNat m covers fits left right]
  · intro reads
    by_contra inner
    have ⟨low,high⟩ := covers
    obtain ⟨x,same,misread⟩ := end_misread k.toNat m covers fits (by unfold Range.Fits at fits; omega)
    obtain ⟨z,ran,value⟩ := decrypted x same
    rw [← value] at misread
    exact misread (reads x _ z same (encrypt_reliable k.toNat m x) ran)
  · rintro ⟨left,right⟩ x y z rfl there back
    obtain ⟨z',ran,value⟩ := decrypted x rfl
    obtain rfl := Except.ok.inj ((encrypt_reliable k.toNat m x).symm.trans there)
    obtain rfl := (Prod.mk.inj (Except.ok.inj (ran.symm.trans back))).2
    rw [value]
    exact window_read k.toNat m covers fits (left.imp_right .inl) (right.imp_right .inl)

-- Of five digits the middle three are read, and only the one in the middle is certain.
theorem range_reads_middle :
    (∀ x y z, x.length = 5 → transformBytes .reliable (7 : UInt64).toNat .cptInt true x = .ok y →
      policyRun .reliable ⟨1,#v[⟨1,3⟩,⟨0,0⟩,⟨0,0⟩,⟨0,0⟩,⟨0,0⟩]⟩ (7 : UInt64).toNat .cptInt false y = .ok (0,z) →
        z[2]? = x[2]?) ∧
    ¬ ∀ x y z, x.length = 5 → transformBytes .reliable (7 : UInt64).toNat .cptInt true x = .ok y →
      policyRun .reliable ⟨1,#v[⟨1,3⟩,⟨0,0⟩,⟨0,0⟩,⟨0,0⟩,⟨0,0⟩]⟩ (7 : UInt64).toNat .cptInt false y = .ok (0,z) →
        z[3]? = x[3]? := by
  refine ⟨?_,?_⟩
  · exact (range_reads 7 .cptInt (r := ⟨1,3⟩) (j := 2) (n := 5) (by decide) (by decide +kernel) (by decide +kernel)).2.mpr
      (by decide)
  · rw [(range_reads 7 .cptInt (r := ⟨1,3⟩) (j := 3) (n := 5) (by decide) (by decide +kernel) (by decide +kernel)).2]
    decide

end TeradataCpt.RangeReads
