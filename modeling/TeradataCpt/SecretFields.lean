import TeradataCpt.ByteRanges
import TeradataCpt.PolicyApi
import TeradataCpt.StringApis
import TeradataCpt.Utf8Safety

namespace TeradataCpt.SecretFields
open CSemantics RangePatches Cpt CptJni JavaApi Fields Policies PolicyChecks Formats Utf8Safety ByteRanges PolicyApi

-- How utf8ByteRange is meant to be used: the policy of one range, around the secret.
def secretPolicy (source prefixText suffix : Option JavaString) : Except Failure Policy := do
  let (position,length) ← utf8ByteRange source prefixText suffix
  let sub ← SubPolicy.of position length
  Policy.of (some [some sub])

def InText (m : CptMode) (u : UInt16) : Prop := ∃ b, InAlphabet m b ∧ u = UInt16.ofNat b.toNat

def KeptUnit (m : CptMode) (v u : UInt16) : Prop := v = u ∨ InText m v ∧ InText m u

theorem unit_ascii (b : UInt8) (small : b < 0x80) : Utf16.encodeChar (Char.ofNat b.toNat) = [UInt16.ofNat b.toNat] := by
  have top : b.toNat < 0x80 := small
  have value : (Char.ofNat b.toNat).toNat = b.toNat := Utf16.ofNat_value (.inl (by omega))
  rw [Utf16.encodeChar,value,if_pos (by omega)]

section Texts
variable {m : CptMode}

theorem spelled_units {d c : Char} (spells : Utf8.Spells (fun b a => Keeps m a b) d c) :
    List.Forall₂ (KeptUnit m) (Utf16.encodeChar d) (Utf16.encodeChar c) := by
  cases spells with
  | same => exact List.forall₂_same.mpr fun u _ => .inl rfl
  | @ascii b a keeps low small =>
    rw [unit_ascii b low,unit_ascii a small]
    refine .cons ?_ .nil
    by_cases inside : InAlphabet m a
    · exact .inr ⟨⟨b,keeps.inside inside,rfl⟩,⟨a,inside,rfl⟩⟩
    · exact .inl (by rw [keeps.outside inside])

theorem spelled_text {ds cs : List Char} (letters : List.Forall₂ (Utf8.Spells fun b a => Keeps m a b) ds cs) :
    List.Forall₂ (KeptUnit m) (Utf16.encode ds) (Utf16.encode cs) := by
  induction letters with
  | nil => exact .nil
  | cons first _ ih => exact List.rel_append (spelled_units first) ih

theorem kept_text (text : m ≠ .cptChar) {s : JavaString} (formed : Utf16.WellFormed s) {y : List UInt8}
    (preserves : Preserves m (getBytesUtf8 s) y) :
    ∃ t, Utf16.WellFormed t ∧ getBytesUtf8 t = y ∧ List.Forall₂ (KeptUnit m) t s := by
  obtain ⟨cs,rfl⟩ := formed
  have related : List.Forall₂ (fun b a => Keeps m a b) y (Utf8.encode cs) := by
    rw [getBytesUtf8,Utf16.scalars_encode] at preserves
    refine List.forall₂_iff_get.mpr ⟨preserves.length,fun i inY inX => ?_⟩
    obtain ⟨b,value,keeps⟩ := preserves.bytes i _ (List.getElem?_eq_getElem inX)
    obtain rfl := Option.some.inj ((List.getElem?_eq_getElem inY).symm.trans value)
    exact keeps
  obtain ⟨ds,spelled,letters⟩ := Utf8.related_encode (fun b a keeps => (keeps_twin text keeps).symm) related
  exact ⟨Utf16.encode ds,⟨ds,rfl⟩,by rw [getBytesUtf8,Utf16.scalars_encode,spelled],spelled_text letters⟩

-- The search before the secret sees nothing of it, and the search behind it finds
-- nothing new, where no unit of the suffix is a letter of the alphabet.
theorem leftmost_kept {A B B' prefixText suffix C : JavaString}
    (leftmost : Leftmost (A ++ prefixText ++ B ++ suffix ++ C) prefixText suffix A B)
    (kept : List.Forall₂ (KeptUnit m) B' B) (away : ∀ u ∈ suffix, ¬ InText m u) :
    Leftmost (A ++ prefixText ++ B' ++ suffix ++ C) prefixText suffix A B' := by
  refine ⟨⟨C,rfl⟩,fun A' B'' C' split => ?_,fun B'' C' split => ?_⟩
  · by_contra earlier
    have inner : A' ++ prefixText <+: A ++ prefixText ++ B' ++ suffix ++ C := ⟨B'' ++ suffix ++ C',by rw [split]; simp⟩
    have outer : A ++ prefixText <+: A ++ prefixText ++ B' ++ suffix ++ C := ⟨B' ++ suffix ++ C,by simp⟩
    have front : A' ++ prefixText <+: A ++ prefixText :=
      List.prefix_of_prefix_length_le inner outer (by simp only [List.length_append]; omega)
    obtain ⟨between,same⟩ := front
    have early := leftmost.early A' (between ++ B) C (by rw [← same]; simp)
    omega
  · simp only [List.append_assoc,List.append_cancel_left_eq] at split
    have occurs : Substrings.Occurs suffix (B' ++ (suffix ++ C)) B''.length := ⟨B'',C',by rw [split]; simp,rfl⟩
    have back : ∀ u v, v ∈ suffix → KeptUnit m v u → u = v := by
      intro u v member keeps
      rcases keeps with same | both
      · exact same.symm
      · exact absurd both.1 (away v member)
    have related : List.Forall₂ (fun u v => KeptUnit m v u) (B ++ (suffix ++ C)) (B' ++ (suffix ++ C)) :=
      List.rel_append (List.Forall₂.flip kept) (List.forall₂_same.mpr fun u _ => .inl rfl)
    obtain ⟨B0,C0,whole,length⟩ := Substrings.occurs_related back related occurs
    have short := leftmost.short B0 C0 (by simp only [List.append_assoc] at whole ⊢; rw [whole])
    have size := kept.length_eq
    omega

end Texts

def rangePolicy (p l : Nat) : Policy := ⟨1,some [some ⟨.ofNat p,.ofNat l⟩]⟩

theorem range_sound {p l : Nat} (short : p + l < 2^31) :
    Sound (rangePolicy p l) [⟨.ofNat p,.ofNat l⟩] := by
  refine ⟨rfl,show 1 ≤ maxSubPolicies by decide,List.forall_mem_singleton.mpr ⟨?_,?_⟩⟩
  · rw [int_ofNat (by omega)]
    exact Int.natCast_nonneg p
  · rw [int_ofNat (by omega)]
    exact Int.natCast_nonneg l

theorem range_answer {jvm : Jvm} (available : ∀ call, jvm.machine.mallocOk call = true) (front middle rest : List UInt8)
    (short : (front ++ middle ++ rest).length < 2^31)
    (taken : ¬ ((front ++ middle ++ rest).length = 0 ∧ jvm.host.emptyNull)) (key : Int64) (m : CptMode)
    (encrypting : Bool) :
    rangesAsBytes jvm (some (front ++ middle ++ rest)) (some (rangePolicy front.length middle.length)) key (some m)
      encrypting = .ok (front ++ image (unsignedLong jvm.host key) m encrypting middle ++ rest) := by
  have total : (front ++ middle ++ rest).length = front.length + middle.length + rest.length := by
    rw [List.length_append,List.length_append]
  have place : (Int32.ofNat front.length).toInt = front.length := int_ofNat (by omega)
  have size : (Int32.ofNat middle.length).toInt = middle.length := int_ofNat (by omega)
  have fits : [(⟨.ofNat front.length,.ofNat middle.length⟩ : SubPolicy)].find? (past (front ++ middle ++ rest).length) =
      none := by
    rw [List.find?_eq_none,List.forall_mem_singleton,past,decide_eq_true_eq,place,size]
    omega
  have range : subRange ⟨.ofNat front.length,.ofNat middle.length⟩ = ⟨front.length,middle.length⟩ := by
    simp only [subRange,place,size,Int.toNat_natCast]
  rw [ranges_present,method_answer available (range_sound (by omega)) short,answer_fits fits taken,List.map_singleton,
    range,patchAll_middle]

theorem stored_text (utf8 : Utf8Decoder) {s : JavaString} (formed : Utf16.WellFormed s) :
    utf8.newString (getBytesUtf8 s) = s := by
  rw [StringApis.decoded_bytes]
  exact (Utf16.repair_iff StringApis.question_mark s).mpr formed

-- The digit of a1，by its prefix a and its suffix.
theorem digit_leftmost : Leftmost [0x61,0x31,0xFF0C] [0x61] [0xFF0C] [] [0x31] := by
  refine ⟨⟨[],rfl⟩,fun A' _ _ _ => Nat.zero_le _,fun B' C' split => ?_⟩
  cases B' with
  | nil => simp at split
  | cons u B' => simp

theorem digit_formed : Utf16.WellFormed [0x61,0x31,0xFF0C] ∧ Utf16.WellFormed [0x61] ∧ Utf16.WellFormed [0xFF0C] :=
  ⟨⟨['a','1','，'],by decide⟩,⟨['a'],by decide⟩,⟨['，'],by decide⟩⟩

section Secrets
variable {source prefixText suffix A B : JavaString} (formed : Utf16.WellFormed source)
  (formedPrefix : Utf16.WellFormed prefixText) (formedSuffix : Utf16.WellFormed suffix)
include formed formedPrefix formedSuffix

theorem secret_policy (leftmost : Leftmost source prefixText suffix A B)
    (short : (getBytesUtf8 source).length < 2^31) :
    secretPolicy (some source) (some prefixText) (some suffix) =
      .ok (rangePolicy (getBytesUtf8 (A ++ prefixText)).length (getBytesUtf8 B).length) := by
  obtain ⟨formedA,formedB,rest,whole,formedRest⟩ := leftmost.boundaries formed formedPrefix formedSuffix
  rw [whole,bytes_append (wellFormed_append formedA formedB) formedRest,bytes_append formedA formedB,
    List.length_append,List.length_append] at short
  have size : Int32.ofNat (getBytesUtf8 (A ++ prefixText ++ B)).length - .ofNat (getBytesUtf8 (A ++ prefixText)).length =
      .ofNat (getBytesUtf8 B).length := by
    rw [bytes_append formedA formedB,List.length_append,Int32.ofNat_add,Int32.add_comm,Int32.add_sub_cancel]
  have signs := (range_sound (p := (getBytesUtf8 (A ++ prefixText)).length) (l := (getBytesUtf8 B).length)
    (by omega)).signs _ List.mem_cons_self
  simp only [secretPolicy,range_found leftmost,size,ok_bind,constructor_accepts signs.1 signs.2,policy_of_one]
  rfl

theorem secret_bytes {jvm : Jvm} (available : ∀ call, jvm.machine.mallocOk call = true)
    (leftmost : Leftmost source prefixText suffix A B) (short : (getBytesUtf8 source).length < 2^31)
    (taken : ¬ (source = [] ∧ jvm.host.emptyNull)) (key : Int64) (m : CptMode) :
    ∃ policy rest, secretPolicy (some source) (some prefixText) (some suffix) = .ok policy ∧
      policy = rangePolicy (getBytesUtf8 (A ++ prefixText)).length (getBytesUtf8 B).length ∧
      source = A ++ prefixText ++ B ++ rest ∧ Utf16.WellFormed rest ∧
      encryptRangesAsBytes jvm (some (getBytesUtf8 source)) (some policy) key (some m) =
        .ok (getBytesUtf8 (A ++ prefixText) ++ cipher (unsignedLong jvm.host key) m (getBytesUtf8 B) ++
          getBytesUtf8 rest) ∧
      decryptRangesAsBytes jvm (some (getBytesUtf8 (A ++ prefixText) ++
          cipher (unsignedLong jvm.host key) m (getBytesUtf8 B) ++ getBytesUtf8 rest)) (some policy) key (some m) =
        .ok (getBytesUtf8 source) := by
  obtain ⟨formedA,formedB,rest,whole,formedRest⟩ := leftmost.boundaries formed formedPrefix formedSuffix
  have bytes : getBytesUtf8 source = getBytesUtf8 (A ++ prefixText) ++ getBytesUtf8 B ++ getBytesUtf8 rest := by
    rw [whole,bytes_append (wellFormed_append formedA formedB) formedRest,bytes_append formedA formedB]
  have nonempty : ¬ ((getBytesUtf8 source).length = 0 ∧ jvm.host.emptyNull) := by
    rintro ⟨empty,null⟩
    have text := stored_text jvm.utf8 formed
    rw [List.eq_nil_of_length_eq_zero empty] at text
    exact taken ⟨text.symm.trans (jvm.utf8.encoded []),null⟩
  have length : (cipher (unsignedLong jvm.host key) m (getBytesUtf8 B)).length = (getBytesUtf8 B).length :=
    image_length (unsignedLong jvm.host key) m true (getBytesUtf8 B)
  have same : (getBytesUtf8 (A ++ prefixText) ++ cipher (unsignedLong jvm.host key) m (getBytesUtf8 B) ++
      getBytesUtf8 rest).length = (getBytesUtf8 source).length := by
    rw [bytes,List.length_append,List.length_append,List.length_append,List.length_append,length]
  refine ⟨_,rest,secret_policy formed formedPrefix formedSuffix leftmost short,rfl,whole,formedRest,?_,?_⟩
  · rw [bytes] at short nonempty ⊢
    exact range_answer available _ _ _ short nonempty key m true
  · have back := range_answer available (getBytesUtf8 (A ++ prefixText))
      (cipher (unsignedLong jvm.host key) m (getBytesUtf8 B)) (getBytesUtf8 rest)
      (by rwa [same]) (by rwa [same]) key m false
    rw [length,image,Equiv.symm_apply_apply,← bytes] at back
    exact back

-- A source that has a secret: only its bytes change, whatever the mode, and the same
-- policy gives the source back.
theorem secret_sealed (jvm : Jvm) (available : ∀ call, jvm.machine.mallocOk call = true)
    (short : (getBytesUtf8 source).length < 2^31) (taken : ¬ (source = [] ∧ jvm.host.emptyNull)) (key : Int64)
    (m : CptMode) :
    ((∃ message, secretPolicy (some source) (some prefixText) (some suffix) = .error (illegalArgument message)) ↔
      ¬ ∃ A B C, source = A ++ prefixText ++ B ++ suffix ++ C) ∧
    ∀ A B, Leftmost source prefixText suffix A B → ∃ policy rest stored,
      secretPolicy (some source) (some prefixText) (some suffix) = .ok policy ∧
      source = A ++ prefixText ++ B ++ rest ∧
      stored = getBytesUtf8 (A ++ prefixText) ++ cipher (unsignedLong jvm.host key) m (getBytesUtf8 B) ++
        getBytesUtf8 rest ∧
      encryptRangesAsBytes jvm (some (getBytesUtf8 source)) (some policy) key (some m) = .ok stored ∧
      decryptRangesAsBytes jvm (some stored) (some policy) key (some m) = .ok (getBytesUtf8 source) ∧
      jvm.utf8.newString (getBytesUtf8 source) = source := by
  refine ⟨⟨?_,?_⟩,fun A B leftmost => ?_⟩
  · rintro ⟨message,thrown⟩ splits
    obtain ⟨A,B,leftmost⟩ := exists_leftmost splits
    rw [secret_policy formed formedPrefix formedSuffix leftmost short] at thrown
    cases thrown
  · intro missing
    obtain ⟨message,thrown⟩ := range_thrown.mpr missing
    exact ⟨message,by rw [secretPolicy,thrown]; rfl⟩
  · obtain ⟨policy,rest,made,_,whole,_,forth,back⟩ :=
      secret_bytes formed formedPrefix formedSuffix available leftmost short taken key m
    exact ⟨policy,rest,_,made,whole,rfl,forth,back,stored_text jvm.utf8 formed⟩

omit formed formedPrefix formedSuffix in
theorem secret_sealed_digit : ∃ policy rest stored,
    secretPolicy (some [0x61,0x31,0xFF0C]) (some [0x61]) (some [0xFF0C]) = .ok policy ∧
    [0x61,0x31,0xFF0C] = [] ++ [0x61] ++ [0x31] ++ rest ∧
    stored = getBytesUtf8 ([] ++ [0x61]) ++ cipher (unsignedLong .lp64 7) .cptChar (getBytesUtf8 [0x31]) ++
      getBytesUtf8 rest ∧
    encryptRangesAsBytes ⟨.reliable,.lp64,wholeTextDecoder⟩ (some (getBytesUtf8 [0x61,0x31,0xFF0C])) (some policy) 7
      (some .cptChar) = .ok stored ∧
    decryptRangesAsBytes ⟨.reliable,.lp64,wholeTextDecoder⟩ (some stored) (some policy) 7 (some .cptChar) =
      .ok (getBytesUtf8 [0x61,0x31,0xFF0C]) ∧
    wholeTextDecoder.newString (getBytesUtf8 [0x61,0x31,0xFF0C]) = [0x61,0x31,0xFF0C] := by
  obtain ⟨one,two,three⟩ := digit_formed
  exact (secret_sealed one two three ⟨.reliable,.lp64,wholeTextDecoder⟩ (fun _ => rfl) (by decide +kernel) (by simp)
    7 .cptChar).2 [] [0x31] digit_leftmost

-- In the modes that keep a text a text, the place of the secret need not be stored: the
-- same search finds it in the stored text, if the suffix has no letter of the alphabet.
theorem secret_found_again (jvm : Jvm) (available : ∀ call, jvm.machine.mallocOk call = true)
    (short : (getBytesUtf8 source).length < 2^31) (taken : ¬ (source = [] ∧ jvm.host.emptyNull)) (key : Int64)
    {m : CptMode} (text : m ≠ .cptChar) (away : ∀ u ∈ suffix, ¬ InText m u)
    (leftmost : Leftmost source prefixText suffix A B) :
    ∃ policy C B', source = A ++ prefixText ++ B ++ suffix ++ C ∧ B'.length = B.length ∧
      secretPolicy (some source) (some prefixText) (some suffix) = .ok policy ∧
      encryptRangesAsBytes jvm (some (getBytesUtf8 source)) (some policy) key (some m) =
        .ok (getBytesUtf8 (A ++ prefixText ++ B' ++ suffix ++ C)) ∧
      jvm.utf8.newString (getBytesUtf8 (A ++ prefixText ++ B' ++ suffix ++ C)) = A ++ prefixText ++ B' ++ suffix ++ C ∧
      secretPolicy (some (A ++ prefixText ++ B' ++ suffix ++ C)) (some prefixText) (some suffix) = .ok policy ∧
      decryptRangesAsBytes jvm (some (getBytesUtf8 (A ++ prefixText ++ B' ++ suffix ++ C))) (some policy) key (some m) =
        .ok (getBytesUtf8 source) := by
  obtain ⟨formedA,formedB,_⟩ := leftmost.boundaries formed formedPrefix formedSuffix
  obtain ⟨policy,rest,made,object,whole,formedRest,forth,back⟩ :=
    secret_bytes formed formedPrefix formedSuffix available leftmost short taken key m
  obtain ⟨C,split⟩ := leftmost.split
  obtain rfl : rest = suffix ++ C := by
    rw [whole,List.append_assoc _ suffix] at split
    exact List.append_cancel_left split
  obtain ⟨B',formedB',spelled,kept⟩ :=
    kept_text text formedB (image_preserves (unsignedLong jvm.host key) m true (getBytesUtf8 B))
  have formedStored : Utf16.WellFormed (A ++ prefixText ++ B' ++ suffix ++ C) := by
    rw [List.append_assoc _ suffix]
    exact wellFormed_append (wellFormed_append formedA formedB') formedRest
  have stored : getBytesUtf8 (A ++ prefixText ++ B' ++ suffix ++ C) = getBytesUtf8 (A ++ prefixText) ++
      cipher (unsignedLong jvm.host key) m (getBytesUtf8 B) ++ getBytesUtf8 (suffix ++ C) := by
    rw [List.append_assoc _ suffix,bytes_append (wellFormed_append formedA formedB') formedRest,
      bytes_append formedA formedB',spelled]
    rfl
  have size : (getBytesUtf8 B').length = (getBytesUtf8 B).length := by
    rw [spelled,image_length]
  have again : secretPolicy (some (A ++ prefixText ++ B' ++ suffix ++ C)) (some prefixText) (some suffix) =
      .ok policy := by
    have length : (getBytesUtf8 (A ++ prefixText ++ B' ++ suffix ++ C)).length = (getBytesUtf8 source).length := by
      rw [List.append_assoc _ suffix,bytes_append (wellFormed_append formedA formedB') formedRest,
        bytes_append formedA formedB',whole,bytes_append (wellFormed_append formedA formedB) formedRest,
        bytes_append formedA formedB]
      simp only [List.length_append,size]
    rw [split] at leftmost
    rw [secret_policy formedStored formedPrefix formedSuffix (leftmost_kept leftmost kept away) (by rwa [length]),
      object,size]
  rw [← stored] at forth back
  exact ⟨policy,C,B',split,kept.length_eq,made,forth,stored_text jvm.utf8 formedStored,again,back⟩

omit formed formedPrefix formedSuffix in
theorem secret_found_again_digit : ∃ policy C B',
    [0x61,0x31,0xFF0C] = [] ++ [0x61] ++ [0x31] ++ [0xFF0C] ++ C ∧ B'.length = 1 ∧
    secretPolicy (some [0x61,0x31,0xFF0C]) (some [0x61]) (some [0xFF0C]) = .ok policy ∧
    secretPolicy (some ([] ++ [0x61] ++ B' ++ [0xFF0C] ++ C)) (some [0x61]) (some [0xFF0C]) = .ok policy ∧
    decryptRangesAsBytes ⟨.reliable,.lp64,wholeTextDecoder⟩ (some (getBytesUtf8 ([] ++ [0x61] ++ B' ++ [0xFF0C] ++ C)))
      (some policy) 7 (some .cptInt) = .ok (getBytesUtf8 [0x61,0x31,0xFF0C]) := by
  have away : ∀ u ∈ [(0xFF0C : UInt16)], ¬ InText .cptInt u := by
    rintro u member ⟨b,_,same⟩
    have top := b.toNat_lt
    have value := congrArg UInt16.toNat same
    rw [List.mem_singleton.mp member,UInt16.toNat_ofNat'] at value
    simp only [UInt16.reduceToNat] at value
    omega
  obtain ⟨policy,C,B',split,length,made,_,_,again,back⟩ :=
    secret_found_again digit_formed.1 digit_formed.2.1 digit_formed.2.2 ⟨.reliable,.lp64,wholeTextDecoder⟩
      (fun _ => rfl) (by decide +kernel) (by simp) 7 (by decide) away digit_leftmost
  exact ⟨policy,C,B',split,length,made,again,back⟩

end Secrets

end TeradataCpt.SecretFields
