import TeradataCpt.PolicyChecks

namespace TeradataCpt.ByteRanges
open CSemantics RangePatches Cpt CptJni JavaApi Policies PolicyChecks

-- The secret B behind the leftmost place for A, and with the leftmost end after that.
structure Leftmost (source prefixText suffix A B : JavaString) : Prop where
  split : ∃ C, source = A ++ prefixText ++ B ++ suffix ++ C
  early : ∀ A' B' C', source = A' ++ prefixText ++ B' ++ suffix ++ C' → A.length ≤ A'.length
  short : ∀ B' C', source = A ++ prefixText ++ B' ++ suffix ++ C' → B.length ≤ B'.length

section Search
variable {source prefixText suffix : JavaString}

theorem suffix_occurs {A B C : JavaString} (split : source = A ++ prefixText ++ B ++ suffix ++ C) :
    Substrings.Occurs suffix (source.drop (A.length + prefixText.length)) B.length := by
  refine ⟨B,C,?_,rfl⟩
  rw [split]
  simp only [List.append_assoc]
  rw [← List.append_assoc,← List.length_append,List.drop_left]

theorem prefix_occurs {A B C : JavaString} (split : source = A ++ prefixText ++ B ++ suffix ++ C) :
    Substrings.Occurs prefixText source A.length := ⟨A,B ++ suffix ++ C,by simp [split],rfl⟩

theorem found_split {i j : Nat} (one : Substrings.first prefixText source = some i)
    (two : Substrings.first suffix (source.drop (i + prefixText.length)) = some j) :
    ∃ A B C, source = A ++ prefixText ++ B ++ suffix ++ C ∧ A.length = i ∧ B.length = j := by
  obtain ⟨A,after,split,rfl⟩ := (Substrings.first_some one).1
  obtain ⟨B,C,rest,rfl⟩ := (Substrings.first_some two).1
  have dropped : source.drop (A.length + prefixText.length) = after := by rw [split,← List.length_append,List.drop_left]
  rw [dropped] at rest
  exact ⟨A,B,C,by rw [split,rest]; simp,rfl,rfl⟩

-- Taking the first prefix loses nothing: whatever follows a later one follows it too.
theorem search_iff : (∃ A B C, source = A ++ prefixText ++ B ++ suffix ++ C) ↔
    ∃ i j, Substrings.first prefixText source = some i ∧
      Substrings.first suffix (source.drop (i + prefixText.length)) = some j := by
  constructor
  · rintro ⟨A,B,C,split⟩
    cases found : Substrings.first prefixText source with
    | none => exact absurd (prefix_occurs split) (Substrings.first_none.mp found _)
    | some i =>
      have early := (Substrings.first_some found).2 _ (prefix_occurs split)
      refine ⟨i,?_⟩
      cases later : Substrings.first suffix (source.drop (i + prefixText.length)) with
      | some j => exact ⟨j,rfl,rfl⟩
      | none =>
        have within : i + prefixText.length ≤ (A ++ prefixText ++ B).length := by
          simp only [List.length_append]
          omega
        refine absurd ?_ (Substrings.first_none.mp later ((A ++ prefixText ++ B).drop (i + prefixText.length)).length)
        refine ⟨_,C,?_,rfl⟩
        rw [split,List.append_assoc (A ++ prefixText ++ B),List.drop_append_of_le_length within,← List.append_assoc]
  · rintro ⟨i,j,one,two⟩
    obtain ⟨A,B,C,split,_⟩ := found_split one two
    exact ⟨A,B,C,split⟩

theorem exists_leftmost (splits : ∃ A B C, source = A ++ prefixText ++ B ++ suffix ++ C) :
    ∃ A B, Leftmost source prefixText suffix A B := by
  obtain ⟨i,j,one,two⟩ := search_iff.mp splits
  obtain ⟨A,B,C,split,rfl,rfl⟩ := found_split one two
  refine ⟨A,B,⟨C,split⟩,fun A' B' C' other => ?_,fun B' C' other => ?_⟩
  · exact (Substrings.first_some one).2 _ (prefix_occurs other)
  · exact (Substrings.first_some two).2 _ (suffix_occurs other)

theorem Leftmost.found {A B : JavaString} (leftmost : Leftmost source prefixText suffix A B) :
    Substrings.first prefixText source = some A.length ∧
      Substrings.first suffix (source.drop (A.length + prefixText.length)) = some B.length := by
  obtain ⟨C,split⟩ := leftmost.split
  obtain ⟨i,j,one,two⟩ := search_iff.mp ⟨A,B,C,split⟩
  obtain ⟨A',B',C',whole,rfl,rfl⟩ := found_split one two
  have same : A'.length = A.length :=
    Nat.le_antisymm ((Substrings.first_some one).2 _ (prefix_occurs split)) (leftmost.early A' B' C' whole)
  have sides := whole.symm.trans split
  simp only [List.append_assoc] at sides
  obtain rfl : A' = A := (List.append_inj sides same).1
  rw [Nat.le_antisymm (leftmost.short B' C' whole) ((Substrings.first_some two).2 _ (suffix_occurs split))]
  exact ⟨one,two⟩

theorem range_run : utf8ByteRange (some source) (some prefixText) (some suffix) =
    match Substrings.first prefixText source with
    | none => .error (illegalArgument ("prefix not found: " ++ shown prefixText))
    | some i => match Substrings.first suffix (source.drop (i + prefixText.length)) with
      | none => .error (illegalArgument ("suffix not found after prefix: " ++ shown suffix))
      | some j => .ok (.ofNat (getBytesUtf8 (source.take (i + prefixText.length))).length,
        .ofNat (getBytesUtf8 (source.take (i + prefixText.length + j))).length -
          .ofNat (getBytesUtf8 (source.take (i + prefixText.length))).length) := by
  simp only [utf8ByteRange,requireNonNull,ok_bind,indexOf,List.drop_zero]
  cases Substrings.first prefixText source with
  | none => rfl
  | some i =>
    have start : ¬ ((0 : Nat) : Int) + (i : Int) < 0 := by omega
    have index : (((0 : Nat) : Int) + (i : Int)).toNat = i := by omega
    simp only [if_neg start,index]
    cases Substrings.first suffix (source.drop (i + prefixText.length)) with
    | none => rfl
    | some j =>
      have stop : ¬ ((i + prefixText.length : Nat) : Int) + (j : Int) < 0 := by omega
      have last : (((i + prefixText.length : Nat) : Int) + (j : Int)).toNat = i + prefixText.length + j := by omega
      simp only [if_neg stop,last,pure_ok]

theorem range_thrown : (∃ message, utf8ByteRange (some source) (some prefixText) (some suffix) =
      .error (illegalArgument message)) ↔ ¬ ∃ A B C, source = A ++ prefixText ++ B ++ suffix ++ C := by
  rw [search_iff,range_run]
  cases Substrings.first prefixText source with
  | none => simp
  | some i =>
    cases later : Substrings.first suffix (source.drop (i + prefixText.length)) with
    | none => simp [later]
    | some j => simp [later]

theorem range_found {A B : JavaString} (leftmost : Leftmost source prefixText suffix A B) :
    utf8ByteRange (some source) (some prefixText) (some suffix) =
      .ok (.ofNat (getBytesUtf8 (A ++ prefixText)).length,
        .ofNat (getBytesUtf8 (A ++ prefixText ++ B)).length - .ofNat (getBytesUtf8 (A ++ prefixText)).length) := by
  obtain ⟨one,two⟩ := leftmost.found
  obtain ⟨C,split⟩ := leftmost.split
  have front : source.take (A.length + prefixText.length) = A ++ prefixText := by
    rw [split,← List.length_append,List.append_assoc,List.append_assoc (A ++ prefixText),List.take_left]
  have body : source.take (A.length + prefixText.length + B.length) = A ++ prefixText ++ B := by
    rw [split,← List.length_append,← List.length_append,List.append_assoc (A ++ prefixText ++ B),List.take_left]
  rw [range_run,one]
  simp only [two,front,body]

theorem Leftmost.boundaries {A B : JavaString} (leftmost : Leftmost source prefixText suffix A B)
    (formed : Utf16.WellFormed source) (formedPrefix : Utf16.WellFormed prefixText)
    (formedSuffix : Utf16.WellFormed suffix) :
    Utf16.WellFormed (A ++ prefixText) ∧ Utf16.WellFormed B ∧
      ∃ rest, source = A ++ prefixText ++ B ++ rest ∧ Utf16.WellFormed rest := by
  obtain ⟨C,split⟩ := leftmost.split
  have regrouped : source = (A ++ prefixText) ++ (B ++ (suffix ++ C)) := by simp [split]
  have first : Utf16.WellFormed (A ++ prefixText) ∧ Utf16.WellFormed (B ++ (suffix ++ C)) := by
    refine Utf16.wellFormed_cut (by rwa [← regrouped]) fun u v last _ => .inl ?_
    cases prefixText with
    | nil =>
      have empty : A = [] := List.eq_nil_of_length_eq_zero
        (Nat.le_zero.mp (leftmost.early [] (A ++ B) C (by simpa using split)))
      rw [empty] at last
      cases last
    | cons w more =>
      rw [List.getLast?_append,List.getLast?_cons,Option.some_or,← List.getLast?_cons] at last
      exact Utf16.wellFormed_last formedPrefix last
  have second : Utf16.WellFormed B ∧ Utf16.WellFormed (suffix ++ C) := by
    refine Utf16.wellFormed_cut first.2 fun u v last head => ?_
    cases suffix with
    | nil =>
      have empty : B = [] := List.eq_nil_of_length_eq_zero
        (Nat.le_zero.mp (leftmost.short [] (B ++ C) (by simpa using split)))
      rw [empty] at last
      cases last
    | cons w more => exact .inr (Utf16.wellFormed_head formedSuffix head)
  exact ⟨first.1,second.1,suffix ++ C,by rw [split,List.append_assoc _ suffix],second.2⟩

end Search

-- Text that was cut between characters is encoded piece by piece.
theorem bytes_append {x y : JavaString} (formedX : Utf16.WellFormed x) (formedY : Utf16.WellFormed y) :
    getBytesUtf8 (x ++ y) = getBytesUtf8 x ++ getBytesUtf8 y := by
  obtain ⟨cs,rfl⟩ := formedX
  obtain ⟨ds,rfl⟩ := formedY
  simp only [getBytesUtf8,← Utf16.encode_append,Utf16.scalars_encode]
  exact List.flatMap_append

theorem wellFormed_append {x y : JavaString} (formedX : Utf16.WellFormed x) (formedY : Utf16.WellFormed y) :
    Utf16.WellFormed (x ++ y) := by
  obtain ⟨cs,rfl⟩ := formedX
  obtain ⟨ds,rfl⟩ := formedY
  exact ⟨cs ++ ds,Utf16.encode_append cs ds⟩

-- The bytes of the secret, as a range that Policy and its check take.
theorem byte_range (source prefixText suffix : JavaString) (formed : Utf16.WellFormed source)
    (formedPrefix : Utf16.WellFormed prefixText) (formedSuffix : Utf16.WellFormed suffix) :
    ((∃ message, utf8ByteRange (some source) (some prefixText) (some suffix) = .error (illegalArgument message)) ↔
      ¬ ∃ A B C, source = A ++ prefixText ++ B ++ suffix ++ C) ∧
    ((∃ A B C, source = A ++ prefixText ++ B ++ suffix ++ C) ↔ ∃ A B, Leftmost source prefixText suffix A B) ∧
    ∀ A B, Leftmost source prefixText suffix A B →
      (getBytesUtf8 (A ++ prefixText ++ B)).length ≤ (getBytesUtf8 source).length ∧
      ((getBytesUtf8 (A ++ prefixText ++ B)).length < 2^31 →
        ∃ p l, utf8ByteRange (some source) (some prefixText) (some suffix) = .ok (p,l) ∧
          p.toInt = (getBytesUtf8 (A ++ prefixText)).length ∧ l.toInt = (getBytesUtf8 B).length ∧
          Utf16.WellFormed B ∧ slice (getBytesUtf8 source) ⟨p.toInt.toNat,l.toInt.toNat⟩ = getBytesUtf8 B ∧
          ∃ sub policy, SubPolicy.of p l = .ok sub ∧ Policy.of (some [some sub]) = .ok policy ∧
            ((getBytesUtf8 source).length < 2^31 →
              Policy.validateForLength policy (.ofNat (getBytesUtf8 source).length) = .ok ())) := by
  refine ⟨range_thrown,⟨exists_leftmost,fun ⟨A,B,leftmost⟩ => ⟨A,B,leftmost.split⟩⟩,fun A B leftmost => ?_⟩
  obtain ⟨formedA,formedB,rest,whole,formedRest⟩ := leftmost.boundaries formed formedPrefix formedSuffix
  have front := bytes_append formedA formedB
  have bytes : getBytesUtf8 source = getBytesUtf8 (A ++ prefixText) ++ getBytesUtf8 B ++ getBytesUtf8 rest := by
    rw [whole,bytes_append (wellFormed_append formedA formedB) formedRest,front]
  have total := congrArg List.length bytes
  rw [List.length_append,← front] at total
  refine ⟨by omega,fun short => ?_⟩
  rw [front,List.length_append] at total short
  have place : (Int32.ofNat (getBytesUtf8 (A ++ prefixText)).length).toInt = (getBytesUtf8 (A ++ prefixText)).length :=
    int_ofNat (by omega)
  have stop : (Int32.ofNat (getBytesUtf8 (A ++ prefixText ++ B)).length).toInt =
      (getBytesUtf8 (A ++ prefixText)).length + (getBytesUtf8 B).length := by
    rw [front,List.length_append,int_ofNat (by omega)]
    rfl
  have size : (Int32.ofNat (getBytesUtf8 (A ++ prefixText ++ B)).length -
      Int32.ofNat (getBytesUtf8 (A ++ prefixText)).length).toInt = (getBytesUtf8 B).length := by
    rw [difference_exact (by omega) (by omega),stop,place]
    omega
  refine ⟨_,_,range_found leftmost,place,size,formedB,?_,?_⟩
  · rw [place,size,slice,Int.toNat_natCast,Int.toNat_natCast,bytes,List.append_assoc,List.drop_left,List.take_left]
  · have placed := Int.le_trans (Int.natCast_nonneg _) (Int.le_of_eq place.symm)
    have sized := Int.le_trans (Int.natCast_nonneg _) (Int.le_of_eq size.symm)
    refine ⟨_,_,constructor_accepts placed sized,policy_of_one _,fun array => (validate_one placed sized).mpr ?_⟩
    rw [place,size,int_ofNat array]
    omega

theorem byte_range_letters :
    ∃ p l, utf8ByteRange (some [0x61,0x4E2D,0x63]) (some [0x61]) (some [0x63]) = .ok (p,l) ∧
      p.toInt = (getBytesUtf8 [0x61]).length ∧ l.toInt = (getBytesUtf8 [0x4E2D]).length ∧
      slice (getBytesUtf8 [0x61,0x4E2D,0x63]) ⟨p.toInt.toNat,l.toInt.toNat⟩ = getBytesUtf8 [0x4E2D] := by
  obtain ⟨_,_,found⟩ := byte_range [0x61,0x4E2D,0x63] [0x61] [0x63] ⟨['a','中','c'],by decide⟩ ⟨['a'],by decide⟩
    ⟨['c'],by decide⟩
  have leftmost : Leftmost [0x61,0x4E2D,0x63] [0x61] [0x63] [] [0x4E2D] := by
    refine ⟨⟨[],rfl⟩,fun A' _ _ _ => Nat.zero_le _,fun B' C' split => ?_⟩
    cases B' with
    | nil => simp at split
    | cons u B' => simp
  obtain ⟨p,l,ran,place,size,_,bytes,_⟩ := (found [] [0x4E2D] leftmost).2 (by decide +kernel)
  exact ⟨p,l,ran,place,size,bytes⟩

end TeradataCpt.ByteRanges
