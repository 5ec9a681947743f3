import Mathlib.Algebra.Group.Nat.Defs
import TeradataCpt.Library.Utf8Groups
import TeradataCpt.JavaApi

namespace TeradataCpt.GbkStrings
open CSemantics JavaApi

def charBytes (char : UInt16) : List UInt8 :=
  if char.toNat < 0x80 then [UInt8.ofNat char.toNat]
  else [UInt8.ofNat (char.toNat / 4096 % 0x10 + 0xE0),UInt8.ofNat (char.toNat / 64 % 0x40 + 0x80),
    UInt8.ofNat (char.toNat % 0x40 + 0x80)]

theorem lead_bits {n : Nat} (small : n < 0x10) : 0xe0 ||| n = n % 0x10 + 0xE0 := by
  have each : ∀ n < 0x10, 0xe0 ||| n = n % 0x10 + 0xE0 := by decide
  exact each n small

theorem tail_bits (n : Nat) : 0x80 ||| (n &&& 0x3f) = n % 0x40 + 0x80 := by
  have each : ∀ n < 0x40, 0x80 ||| n = n + 0x80 := by decide
  rw [show n &&& 0x3f = n % 0x40 from Nat.and_two_pow_sub_one_eq_mod n 6]
  exact each _ (Nat.mod_lt n (by decide))

-- The invariant of the loop: these bytes at the start of a buffer of this size.
structure Begins (bytes : List UInt8) (size : Nat) (work : Utf8Work) : Prop where
  size : work.utfBytes.length = size
  next : work.k = bytes.length
  front : work.utfBytes.take bytes.length = bytes

section Rounds
variable {bytes : List UInt8} {size : Nat} {work : Utf8Work} (begins : Begins bytes size work)
include begins

theorem put_byte (value : Nat) (room : bytes.length < size) :
    ∃ after, putByte work value = .ok after ∧ Begins (bytes ++ [UInt8.ofNat value]) size after := by
  have within : work.k < work.utfBytes.length := by rwa [begins.next,begins.size]
  refine ⟨_,if_pos within,by rw [List.length_set,begins.size],?_,?_⟩
  · rw [begins.next,List.length_append,List.length_singleton]
  · rw [List.length_append,List.length_singleton,List.take_add_one,begins.next,List.take_set_of_le (Nat.le_refl _),
      begins.front,List.getElem?_set_self (by rwa [← begins.next])]
    rfl

theorem put_char {s : JavaString} {i : Nat} {char : UInt16} (item : s[i]? = some char) (room : bytes.length + 3 ≤ size) :
    ∃ after, putChar s i work = .ok after ∧ Begins (bytes ++ charBytes char) size after := by
  have top := char.toNat_lt
  by_cases ascii : char.toNat < 0x80
  · obtain ⟨after,put,grown⟩ := put_byte begins char.toNat (by omega)
    refine ⟨after,?_,by rwa [charBytes,if_pos ascii]⟩
    simp only [putChar,item,if_pos (⟨ascii,Nat.zero_le _⟩ : char.toNat < 128 ∧ char.toNat ≥ 0),put]
  · have wide : ¬ (char.toNat < 128 ∧ char.toNat ≥ 0) := fun small => ascii small.1
    obtain ⟨one,first,grown⟩ := put_byte begins (0xe0 ||| (char.toNat >>> 12)) (by omega)
    obtain ⟨two,second,grown⟩ := put_byte grown (0x80 ||| ((char.toNat >>> 6) &&& 0x3f)) (by simp; omega)
    obtain ⟨three,third,grown⟩ := put_byte grown (0x80 ||| (char.toNat &&& 0x3f)) (by simp; omega)
    refine ⟨three,?_,?_⟩
    · simp only [putChar,item,if_neg wide,first,second,third,ok_bind]
    · rw [tail_bits,tail_bits,Nat.shiftRight_eq_div_pow,Nat.shiftRight_eq_div_pow,lead_bits (by omega)] at grown
      rw [charBytes,if_neg ascii]
      simpa using grown

end Rounds

theorem bytes_bound (s : JavaString) : (s.flatMap charBytes).length ≤ 3 * s.length := by
  induction s with
  | nil => exact Nat.le_refl 0
  | cons char s ih =>
    have few : (charBytes char).length ≤ 3 := by
      unfold charBytes
      split <;> simp
    rw [List.flatMap_cons,List.length_append,List.length_cons]
    omega

theorem work_size {n : Nat} (short : 3 * n < 2^31) : (3 * Int32.ofNat n).toInt = (3 * n : Nat) := by
  have product : 3 * Int32.ofNat n = Int32.ofNat (3 * n) := (Int32.ofNat_mul 3 n).symm
  rw [product,Int32.toInt_ofNat_of_lt short]

theorem gbk_run {s : JavaString} (short : 3 * s.length < 2^31) :
    getUTF8BytesFromGBKString (some s) = .ok (s.flatMap charBytes) := by
  have start : Begins ((s.take 0).flatMap charBytes) (3 * s.length) ⟨List.replicate (3 * s.length) 0,0⟩ :=
    ⟨List.length_replicate,rfl,rfl⟩
  obtain ⟨work,ran,done⟩ := forUp_inv (fun i => Begins ((s.take i).flatMap charBytes) (3 * s.length)) start
    fun i bound before begins => by
      have room := bytes_bound (s.take i)
      rw [List.length_take] at room
      have item : s[i]? = some s[i] := List.getElem?_eq_getElem bound
      obtain ⟨after,put,grown⟩ := put_char begins item (by omega)
      refine ⟨after,put,?_⟩
      rw [List.take_add_one,item,List.flatMap_append]
      simpa using grown
  rw [List.take_length] at done
  have positive : ¬ ((3 * s.length : Nat) : Int) < 0 := by omega
  simp only [getUTF8BytesFromGBKString,work_size short,if_neg positive,Int.toNat_natCast,ran,ok_bind,pure_ok]
  split
  · rw [done.next,done.front]
  · rename_i full
    have whole : work.utfBytes.length ≤ (s.flatMap charBytes).length := by
      rw [← done.next]
      exact Nat.not_lt.mp full
    rw [← List.take_of_length_le whole,done.front]

-- The chars that are a character of one byte or of three.
def Direct (char : UInt16) : Prop :=
  char.toNat < 0x80 ∨ 0x800 ≤ char.toNat ∧ Utf16.isHigh char = false ∧ Utf16.isLow char = false

instance (char : UInt16) : Decidable (Direct char) := inferInstanceAs (Decidable (_ ∨ _))

theorem basic_char {c : Char} (basic : c.toNat < 0x10000) :
    Utf16.encodeChar c = [UInt16.ofNat c.toNat] ∧ (UInt16.ofNat c.toNat).toNat = c.toNat := by
  refine ⟨if_pos basic,?_⟩
  rw [UInt16.toNat_ofNat']
  omega

theorem charBytes_wide {char : UInt16} (wide : 0x80 ≤ char.toNat) : (charBytes char).length = 3 := by
  rw [charBytes,if_neg (Nat.not_lt.mpr wide)]
  rfl

theorem char_classes (c : Char) :
    ((Utf16.encodeChar c).flatMap charBytes = String.utf8EncodeChar c ∧ ∀ u ∈ Utf16.encodeChar c, Direct u) ∨
    ((String.utf8EncodeChar c).length < ((Utf16.encodeChar c).flatMap charBytes).length ∧
      ∃ u ∈ Utf16.encodeChar c, ¬ Direct u) := by
  have scalar : c.toNat.isValidChar := c.valid
  unfold Nat.isValidChar at scalar
  rcases Nat.lt_or_ge c.toNat 0x10000 with basic | beyond
  · obtain ⟨unit,value⟩ := basic_char basic
    rw [unit,List.flatMap_singleton]
    rcases Nat.lt_or_ge c.toNat 0x80 with one | low
    · refine .inl ⟨?_,List.forall_mem_singleton.mpr (.inl (by rwa [value]))⟩
      rw [Utf8.encode_one one,charBytes,value,if_pos one]
      rfl
    · rcases Nat.lt_or_ge c.toNat 0x800 with two | above
      · refine .inr ⟨?_,_,List.mem_singleton_self _,?_⟩
        · rw [Utf8.encode_two low two,charBytes_wide (by rwa [value])]
          exact Nat.lt_succ_self 2
        · rintro (ascii | ⟨three,_⟩)
          · omega
          · omega
      · refine .inl ⟨?_,List.forall_mem_singleton.mpr (.inr ⟨by rwa [value],?_,?_⟩)⟩
        · rw [Utf8.encode_three above basic,charBytes,value,if_neg (Nat.not_lt.mpr low)]
          rfl
        · simp only [Utf16.isHigh,value,Bool.and_eq_false_iff,decide_eq_false_iff_not]
          omega
        · simp only [Utf16.isLow,value,Bool.and_eq_false_iff,decide_eq_false_iff_not]
          omega
  · rcases Utf16.encodeChar_cases c with ⟨u,single,_⟩ | ⟨high,low,pair,first,_,_,second⟩
    · rw [Utf16.encodeChar,if_neg (Nat.not_lt.mpr beyond)] at single
      cases single
    · have upper : 0x80 ≤ high.toNat := by
        simp only [Utf16.isHigh,Bool.and_eq_true,decide_eq_true_eq] at first
        omega
      have lower : 0x80 ≤ low.toNat := by
        simp only [Utf16.isLow,Bool.and_eq_true,decide_eq_true_eq] at second
        omega
      rw [pair]
      refine .inr ⟨?_,high,List.mem_cons_self,?_⟩
      · rw [Utf8.encode_four beyond,List.flatMap_cons,List.flatMap_singleton,List.length_append,charBytes_wide upper,
          charBytes_wide lower]
        exact (by decide : 4 < 6)
      · rintro (ascii | ⟨_,plain,_⟩)
        · omega
        · rw [plain] at first
          cases first

-- Nothing comes out shorter, so one character that comes out longer is seen at the end.
theorem text_length (cs : List Char) : (Utf8.encode cs).length ≤ ((Utf16.encode cs).flatMap charBytes).length := by
  induction cs with
  | nil => exact Nat.le_refl _
  | cons c cs ih =>
    rw [Utf8.encode_cons,Utf16.encode_cons,List.flatMap_append,List.length_append,List.length_append]
    rcases char_classes c with ⟨same,_⟩ | ⟨longer,_⟩
    · rw [same]
      omega
    · omega

theorem text_iff (cs : List Char) :
    (Utf16.encode cs).flatMap charBytes = Utf8.encode cs ↔ ∀ u ∈ Utf16.encode cs, Direct u := by
  induction cs with
  | nil => exact ⟨fun _ u member => absurd member List.not_mem_nil,fun _ => rfl⟩
  | cons c cs ih =>
    rw [Utf8.encode_cons,Utf16.encode_cons,List.flatMap_append,List.forall_mem_append]
    rcases char_classes c with ⟨same,direct⟩ | ⟨longer,u,member,bad⟩
    · rw [same,List.append_cancel_left_eq,ih]
      exact ⟨fun rest => ⟨direct,rest⟩,fun all => all.2⟩
    · constructor
      · intro equal
        have total := congrArg List.length equal
        have rest := text_length cs
        rw [List.length_append,List.length_append] at total
        omega
      · rintro ⟨all,_⟩
        exact absurd (all u member) bad

-- Three bytes for every char from 128 on are right from U+0800 to the surrogates and
-- behind them, and for nothing else; the buffer is large enough for all of it.
theorem gbk_bytes_iff (s : JavaString) (formed : Utf16.WellFormed s) (short : 3 * s.length < 2^31) :
    (∃ bytes, getUTF8BytesFromGBKString (some s) = .ok bytes ∧ bytes.length ≤ 3 * s.length) ∧
    (getUTF8BytesFromGBKString (some s) = .ok (getBytesUtf8 s) ↔ ∀ u ∈ s, Direct u) := by
  refine ⟨⟨_,gbk_run short,bytes_bound s⟩,?_⟩
  obtain ⟨cs,rfl⟩ := formed
  rw [gbk_run short,Except.ok.injEq,getBytesUtf8,Utf16.scalars_encode]
  exact text_iff cs

theorem gbk_bytes_character :
    getUTF8BytesFromGBKString (some [0x61,0x4E2D]) = .ok (getBytesUtf8 [0x61,0x4E2D]) := by
  have direct : ∀ u ∈ ([0x61,0x4E2D] : JavaString), Direct u :=
    List.forall_mem_cons.mpr ⟨by decide,List.forall_mem_singleton.mpr (by decide)⟩
  exact (gbk_bytes_iff [0x61,0x4E2D] ⟨['a','中'],by decide⟩ (by decide)).2.mpr direct

-- The letter é takes two bytes in UTF-8 and comes out as three.
theorem gbk_letter_overlong : Utf16.WellFormed [0xE9] ∧ getBytesUtf8 [0xE9] = [0xC3,0xA9] ∧
    getUTF8BytesFromGBKString (some [0xE9]) = .ok [0xE0,0x83,0xA9] ∧
    getUTF8BytesFromGBKString (some [0xE9]) ≠ .ok (getBytesUtf8 [0xE9]) :=
  ⟨⟨['é'],by decide⟩,by decide,by decide,by decide⟩

end TeradataCpt.GbkStrings
