import Mathlib.Data.List.Forall2

namespace Utf8

def encode (cs : List Char) : List UInt8 := cs.flatMap String.utf8EncodeChar

def WellFormed (bytes : List UInt8) : Prop := ∃ cs, encode cs = bytes

theorem encode_cons (c : Char) (cs : List Char) : encode (c :: cs) = String.utf8EncodeChar c ++ encode cs := rfl

theorem char_ascii (b : UInt8) (ascii : b < 0x80) : String.utf8EncodeChar (Char.ofNat b.toNat) = [b] := by
  have small : b.toNat < 0x80 := ascii
  have valid : b.toNat.isValidChar := .inl (by omega)
  have value : (Char.ofNat b.toNat).val.toNat = b.toNat := by
    unfold Char.ofNat
    rw [dif_pos valid]
    rfl
  unfold String.utf8EncodeChar
  simp only [value]
  rw [if_pos (by omega),UInt8.ofNat_toNat]

theorem char_cases (c : Char) : (∃ b, b < 0x80 ∧ String.utf8EncodeChar c = [b]) ∨
    ∀ b ∈ String.utf8EncodeChar c, ¬ b < 0x80 := by
  have high : ∀ n, 0x80 ≤ n → n < 0x100 → ¬ UInt8.ofNat n < 0x80 := by
    intro n low top small
    have value : (UInt8.ofNat n).toNat < 0x80 := small
    rw [UInt8.toNat_ofNat'] at value
    omega
  unfold String.utf8EncodeChar
  simp only
  split
  · refine .inl ⟨_,?_,rfl⟩
    rw [UInt8.lt_iff_toNat_lt,UInt8.toNat_ofNat']
    simp only [UInt8.reduceToNat]
    omega
  · refine .inr ?_
    split
    · simp only [List.mem_cons,List.not_mem_nil,or_false]
      rintro b (rfl | rfl) <;> exact high _ (by omega) (by omega)
    · split
      · simp only [List.mem_cons,List.not_mem_nil,or_false]
        rintro b (rfl | rfl | rfl) <;> exact high _ (by omega) (by omega)
      · simp only [List.mem_cons,List.not_mem_nil,or_false]
        rintro b (rfl | rfl | rfl | rfl) <;> exact high _ (by omega) (by omega)

-- Bytes that may differ only where both are ASCII.
def Twin (a b : UInt8) : Prop := a < 0x80 ∧ b < 0x80 ∨ a = b

theorem Twin.symm {a b : UInt8} (twin : Twin a b) : Twin b a := by
  rcases twin with ascii | rfl
  · exact .inl ascii.symm
  · exact .inr rfl

theorem twins_high {xs ys : List UInt8} (twins : List.Forall₂ Twin xs ys) (high : ∀ b ∈ ys, ¬ b < 0x80) : xs = ys := by
  induction twins with
  | nil => rfl
  | @cons a b xs ys twin _ ih =>
    have rest := ih fun c member => high c (List.mem_cons_of_mem b member)
    rcases twin with ascii | rfl
    · exact absurd ascii.2 (high b List.mem_cons_self)
    · rw [rest]

-- Such bytes spell characters that end at the same places.
theorem twins_encode {ys : List UInt8} {cs : List Char} (twins : List.Forall₂ Twin ys (encode cs)) :
    ∃ ds, encode ds = ys ∧ ds.map Char.utf8Size = cs.map Char.utf8Size := by
  induction cs generalizing ys with
  | nil =>
    cases twins
    exact ⟨[],rfl,rfl⟩
  | cons c cs ih =>
    rw [encode_cons] at twins
    obtain ⟨ds,spelled,sizes⟩ := ih (List.forall₂_drop_append ys _ _ twins)
    have first := List.forall₂_take_append ys _ _ twins
    rcases char_cases c with ⟨b,ascii,single⟩ | high
    · rw [single] at first spelled
      cases taken : ys with
      | nil => rw [taken] at first; cases first
      | cons a rest =>
        rw [taken] at first spelled
        have small : a < 0x80 := by
          cases first with
          | cons twin _ => rcases twin with both | rfl
                           · exact both.1
                           · exact ascii
        have same := char_ascii a small
        refine ⟨Char.ofNat a.toNat :: ds,?_,?_⟩
        · simpa [encode,same] using spelled
        · have one := congrArg List.length same
          have other := congrArg List.length single
          rw [String.length_utf8EncodeChar] at one other
          simp [sizes,one,other]
    · have same := twins_high first high
      refine ⟨c :: ds,?_,by simp [sizes]⟩
      have whole := List.take_append_drop (String.utf8EncodeChar c).length ys
      rw [same,← spelled] at whole
      exact whole

theorem twins_wellFormed {xs ys : List UInt8} (twins : List.Forall₂ Twin xs ys) : WellFormed xs ↔ WellFormed ys := by
  have back : List.Forall₂ Twin ys xs := (List.Forall₂.flip twins).imp fun _ _ => Twin.symm
  constructor
  · rintro ⟨cs,rfl⟩
    obtain ⟨ds,spelled,_⟩ := twins_encode back
    exact ⟨ds,spelled⟩
  · rintro ⟨cs,rfl⟩
    obtain ⟨ds,spelled,_⟩ := twins_encode twins
    exact ⟨ds,spelled⟩

theorem encode_injective : Function.Injective encode := by
  intro cs ds same
  have left : (encode cs).toByteArray.utf8Decode? = some cs.toArray := List.utf8Decode?_utf8Encode
  have right : (encode ds).toByteArray.utf8Decode? = some ds.toArray := List.utf8Decode?_utf8Encode
  rw [same,right] at left
  exact (congrArg Array.toList (Option.some.inj left)).symm

-- The characters themselves: equal, or two of ASCII whose bytes are in the relation.
inductive Spells (R : UInt8 → UInt8 → Prop) : Char → Char → Prop where
  | same (c : Char) : Spells R c c
  | ascii {a b : UInt8} : R a b → a < 0x80 → b < 0x80 → Spells R (Char.ofNat a.toNat) (Char.ofNat b.toNat)

theorem related_encode {R : UInt8 → UInt8 → Prop} (twin : ∀ a b, R a b → Twin a b) {ys : List UInt8} {cs : List Char}
    (related : List.Forall₂ R ys (encode cs)) : ∃ ds, encode ds = ys ∧ List.Forall₂ (Spells R) ds cs := by
  induction cs generalizing ys with
  | nil =>
    cases related
    exact ⟨[],rfl,.nil⟩
  | cons c cs ih =>
    rw [encode_cons] at related
    obtain ⟨ds,spelled,others⟩ := ih (List.forall₂_drop_append ys _ _ related)
    have first := List.forall₂_take_append ys _ _ related
    have whole := List.take_append_drop (String.utf8EncodeChar c).length ys
    rcases char_cases c with ⟨b,small,single⟩ | high
    · have letter : c = Char.ofNat b.toNat := by
        have spelt : encode [c] = encode [Char.ofNat b.toNat] := by simp [encode,single,char_ascii b small]
        exact List.singleton_inj.mp (encode_injective spelt)
      rw [single] at first spelled whole
      obtain ⟨a,alone,head⟩ : ∃ a, ys.take [b].length = [a] ∧ R a b := by
        cases taken : ys.take [b].length with
        | nil => rw [taken] at first; cases first
        | cons a rest =>
          rw [taken] at first
          cases first with
          | cons head tail =>
            cases tail
            exact ⟨a,rfl,head⟩
      have low : a < 0x80 := by
        rcases twin a b head with both | rfl
        · exact both.1
        · exact small
      rw [alone,← spelled] at whole
      refine ⟨Char.ofNat a.toNat :: ds,?_,?_⟩
      · rw [encode_cons,char_ascii a low]
        exact whole
      · rw [letter]
        exact .cons (.ascii head low small) others
    · have same := twins_high (first.imp fun a b => twin a b) high
      rw [same,← spelled] at whole
      exact ⟨c :: ds,whole,.cons (.same c) others⟩

end Utf8
