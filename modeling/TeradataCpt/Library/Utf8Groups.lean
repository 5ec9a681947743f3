import TeradataCpt.Library.Utf8

-- The groups of UTF-8 bytes that a lead byte announces, and which of them encode a
-- character.
namespace Utf8

-- How many continuation bytes follow, by the upper bits of the lead byte.
def need (lead : UInt8) : Option Nat :=
  if lead < 0x80 then some 0
  else if lead &&& 0xE0 = 0xC0 then some 1
  else if lead &&& 0xF0 = 0xE0 then some 2
  else if lead &&& 0xF8 = 0xF0 then some 3
  else none

def Continues (b : UInt8) : Prop := b &&& 0xC0 = 0x80

instance (b : UInt8) : Decidable (Continues b) := inferInstanceAs (Decidable (_ = _))

def Group : List UInt8 → Prop
  | [] => False
  | lead :: rest => need lead = some rest.length ∧ ∀ b ∈ rest, Continues b

-- The bits that a group spells, and the least number that needs so many bytes.
def value : List UInt8 → Nat
  | [a] => a.toNat
  | [a,b] => a.toNat % 0x20 * 0x40 + b.toNat % 0x40
  | [a,b,c] => a.toNat % 0x10 * 0x1000 + b.toNat % 0x40 * 0x40 + c.toNat % 0x40
  | [a,b,c,d] => a.toNat % 0x08 * 0x40000 + b.toNat % 0x40 * 0x1000 + c.toNat % 0x40 * 0x40 + d.toNat % 0x40
  | _ => 0

def least (length : Nat) : Nat :=
  if length = 2 then 0x80 else if length = 3 then 0x800 else if length = 4 then 0x10000 else 0

-- Overlong, or no scalar value: a surrogate or beyond U+10FFFF.
def Forbidden (g : List UInt8) : Prop := value g < least g.length ∨ ¬ (value g).isValidChar

theorem each_byte {p : UInt8 → Prop} (all : ∀ n < 256, p (UInt8.ofNat n)) (b : UInt8) : p b := by
  have here := all b.toNat b.toNat_lt
  rwa [UInt8.ofNat_toNat] at here

theorem continues_iff (b : UInt8) : Continues b ↔ 0x80 ≤ b.toNat ∧ b.toNat < 0xC0 :=
  each_byte (p := fun b => Continues b ↔ 0x80 ≤ b.toNat ∧ b.toNat < 0xC0) (by decide +kernel) b

def Leads (lead : UInt8) (rest : Nat) : Prop :=
  rest = 0 ∧ lead.toNat < 0x80 ∨ rest = 1 ∧ 0xC0 ≤ lead.toNat ∧ lead.toNat < 0xE0 ∨
    rest = 2 ∧ 0xE0 ≤ lead.toNat ∧ lead.toNat < 0xF0 ∨ rest = 3 ∧ 0xF0 ≤ lead.toNat ∧ lead.toNat < 0xF8

instance (lead : UInt8) (rest : Nat) : Decidable (Leads lead rest) := inferInstanceAs (Decidable (_ ∨ _))

theorem need_small (lead : UInt8) : ∀ rest < 4, need lead = some rest ↔ Leads lead rest :=
  each_byte (p := fun lead => ∀ rest < 4, need lead = some rest ↔ Leads lead rest) (by decide +kernel) lead

theorem need_bound (lead : UInt8) : ∀ rest ∈ need lead, rest < 4 :=
  each_byte (p := fun lead => ∀ rest ∈ need lead, rest < 4) (by decide +kernel) lead

theorem need_iff {lead : UInt8} {rest : Nat} : need lead = some rest ↔ Leads lead rest := by
  constructor
  · intro needs
    exact (need_small lead rest (need_bound lead rest needs)).mp needs
  · intro leads
    have small : rest < 4 := by
      unfold Leads at leads
      omega
    exact (need_small lead rest small).mpr leads

-- Two splittings into groups agree from the front, since a lead byte fixes a length.
theorem group_front {g h xs ys : List UInt8} (one : Group g) (two : Group h) (same : g ++ xs = h ++ ys) :
    g = h ∧ xs = ys := by
  cases g with
  | nil => exact absurd one id
  | cons a g =>
    cases h with
    | nil => exact absurd two id
    | cons b h =>
      obtain ⟨rfl,rest⟩ := List.cons.inj same
      have length : g.length = h.length := Option.some.inj (one.1.symm.trans two.1)
      obtain ⟨rfl,rfl⟩ := List.append_inj rest length
      exact ⟨rfl,rfl⟩

theorem group_cases {g : List UInt8} (group : Group g) :
    (∃ a, g = [a] ∧ a.toNat < 0x80) ∨
    (∃ a b, g = [a,b] ∧ (0xC0 ≤ a.toNat ∧ a.toNat < 0xE0) ∧ 0x80 ≤ b.toNat ∧ b.toNat < 0xC0) ∨
    (∃ a b c, g = [a,b,c] ∧ (0xE0 ≤ a.toNat ∧ a.toNat < 0xF0) ∧ (0x80 ≤ b.toNat ∧ b.toNat < 0xC0) ∧
      0x80 ≤ c.toNat ∧ c.toNat < 0xC0) ∨
    ∃ a b c d, g = [a,b,c,d] ∧ (0xF0 ≤ a.toNat ∧ a.toNat < 0xF8) ∧ (0x80 ≤ b.toNat ∧ b.toNat < 0xC0) ∧
      (0x80 ≤ c.toNat ∧ c.toNat < 0xC0) ∧ 0x80 ≤ d.toNat ∧ d.toNat < 0xC0 := by
  cases g with
  | nil => exact absurd group id
  | cons a rest =>
    obtain ⟨needs,tail⟩ := group
    simp only [continues_iff] at tail
    rcases need_iff.mp needs with ⟨length,lead⟩ | ⟨length,lead⟩ | ⟨length,lead⟩ | ⟨length,lead⟩
    · obtain rfl := List.eq_nil_of_length_eq_zero length
      exact .inl ⟨a,rfl,lead⟩
    · obtain ⟨b,rfl⟩ := List.length_eq_one_iff.mp length
      exact .inr (.inl ⟨a,b,rfl,lead,tail b (by simp)⟩)
    · obtain ⟨b,c,rfl⟩ := List.length_eq_two.mp length
      exact .inr (.inr (.inl ⟨a,b,c,rfl,lead,tail b (by simp),tail c (by simp)⟩))
    · obtain ⟨b,c,d,rfl⟩ := List.length_eq_three.mp length
      exact .inr (.inr (.inr ⟨a,b,c,d,rfl,lead,tail b (by simp),tail c (by simp),tail d (by simp)⟩))

-- The bytes of a character by the size of its code point.
section Encoding
variable {c : Char}

theorem encode_one (small : c.val.toNat < 0x80) : String.utf8EncodeChar c = [UInt8.ofNat c.val.toNat] := by
  unfold String.utf8EncodeChar
  exact if_pos (by omega)

theorem encode_two (low : 0x80 ≤ c.val.toNat) (high : c.val.toNat < 0x800) : String.utf8EncodeChar c =
    [UInt8.ofNat (c.val.toNat / 64 % 0x20 + 0xC0),UInt8.ofNat (c.val.toNat % 0x40 + 0x80)] := by
  unfold String.utf8EncodeChar
  exact (if_neg (by omega)).trans (if_pos (by omega))

theorem encode_three (low : 0x800 ≤ c.val.toNat) (high : c.val.toNat < 0x10000) : String.utf8EncodeChar c =
    [UInt8.ofNat (c.val.toNat / 4096 % 0x10 + 0xE0),UInt8.ofNat (c.val.toNat / 64 % 0x40 + 0x80),
      UInt8.ofNat (c.val.toNat % 0x40 + 0x80)] := by
  unfold String.utf8EncodeChar
  exact (if_neg (by omega)).trans ((if_neg (by omega)).trans (if_pos (by omega)))

theorem encode_four (low : 0x10000 ≤ c.val.toNat) : String.utf8EncodeChar c =
    [UInt8.ofNat (c.val.toNat / 262144 % 0x08 + 0xF0),UInt8.ofNat (c.val.toNat / 4096 % 0x40 + 0x80),
      UInt8.ofNat (c.val.toNat / 64 % 0x40 + 0x80),UInt8.ofNat (c.val.toNat % 0x40 + 0x80)] := by
  unfold String.utf8EncodeChar
  exact (if_neg (by omega)).trans ((if_neg (by omega)).trans (if_neg (by omega)))

end Encoding

theorem ofNat_byte {n : Nat} {b : UInt8} (same : n = b.toNat) : UInt8.ofNat n = b := by rw [same,UInt8.ofNat_toNat]

theorem group_encodes {g : List UInt8} (group : Group g) (allowed : ¬ Forbidden g) :
    String.utf8EncodeChar (Char.ofNat (value g)) = g := by
  obtain ⟨long,invalid⟩ := not_or.mp allowed
  have valid := Classical.not_not.mp invalid
  have number : (Char.ofNat (value g)).val.toNat = value g := by
    unfold Char.ofNat
    rw [dif_pos valid]
    rfl
  rcases group_cases group with ⟨a,rfl,lead⟩ | ⟨a,b,rfl,lead,second⟩ | ⟨a,b,c,rfl,lead,second,third⟩ |
    ⟨a,b,c,d,rfl,lead,second,third,fourth⟩
  · have bits : value [a] = a.toNat := rfl
    rw [encode_one (by omega),number,ofNat_byte bits]
  · have bits : value [a,b] = a.toNat % 0x20 * 0x40 + b.toNat % 0x40 := rfl
    have low : ¬ value [a,b] < 0x80 := long
    rw [encode_two (by omega) (by omega),number,ofNat_byte (b := a) (by omega),ofNat_byte (b := b) (by omega)]
  · have bits : value [a,b,c] = a.toNat % 0x10 * 0x1000 + b.toNat % 0x40 * 0x40 + c.toNat % 0x40 := rfl
    have low : ¬ value [a,b,c] < 0x800 := long
    rw [encode_three (by omega) (by omega),number,ofNat_byte (b := a) (by omega),ofNat_byte (b := b) (by omega),
      ofNat_byte (b := c) (by omega)]
  · have bits : value [a,b,c,d] =
        a.toNat % 0x08 * 0x40000 + b.toNat % 0x40 * 0x1000 + c.toNat % 0x40 * 0x40 + d.toNat % 0x40 := rfl
    have low : ¬ value [a,b,c,d] < 0x10000 := long
    rw [encode_four (by omega),number,ofNat_byte (b := a) (by omega),ofNat_byte (b := b) (by omega),
      ofNat_byte (b := c) (by omega),ofNat_byte (b := d) (by omega)]

theorem toNat_byte {n : Nat} (small : n < 0x100) : (UInt8.ofNat n).toNat = n := by
  rw [UInt8.toNat_ofNat']
  omega

theorem tail_byte (n : Nat) : (UInt8.ofNat (n % 0x40 + 0x80)).toNat = n % 0x40 + 0x80 := toNat_byte (by omega)

theorem tails_continue (ns : List Nat) : ∀ b ∈ ns.map fun n => UInt8.ofNat (n % 0x40 + 0x80), Continues b := by
  intro b member
  obtain ⟨n,_,rfl⟩ := List.mem_map.mp member
  rw [continues_iff,tail_byte]
  omega

theorem not_forbidden {c : Char} {g : List UInt8} (spells : value g = c.val.toNat)
    (long : least g.length ≤ c.val.toNat) : ¬ Forbidden g := by
  rintro (short | invalid)
  · omega
  · rw [spells] at invalid
    exact invalid c.valid

theorem char_group (c : Char) : Group (String.utf8EncodeChar c) ∧ ¬ Forbidden (String.utf8EncodeChar c) := by
  have scalar : c.val.toNat.isValidChar := c.valid
  have top : c.val.toNat < 0x110000 := by
    unfold Nat.isValidChar at scalar
    omega
  rcases Nat.lt_or_ge c.val.toNat 0x80 with one | low
  · have lead : (UInt8.ofNat c.val.toNat).toNat = c.val.toNat := toNat_byte (by omega)
    rw [encode_one one]
    refine ⟨⟨need_iff.mpr (.inl ⟨rfl,by omega⟩),by simp⟩,not_forbidden lead (Nat.zero_le _)⟩
  · rcases Nat.lt_or_ge c.val.toNat 0x800 with two | above
    · have lead : (UInt8.ofNat (c.val.toNat / 64 % 0x20 + 0xC0)).toNat = c.val.toNat / 64 % 0x20 + 0xC0 :=
        toNat_byte (by omega)
      rw [encode_two low two]
      refine ⟨⟨need_iff.mpr (.inr (.inl ⟨rfl,by omega⟩)),tails_continue [_]⟩,not_forbidden ?_ low⟩
      simp only [value,lead,tail_byte]
      omega
    · rcases Nat.lt_or_ge c.val.toNat 0x10000 with three | beyond
      · have lead : (UInt8.ofNat (c.val.toNat / 4096 % 0x10 + 0xE0)).toNat = c.val.toNat / 4096 % 0x10 + 0xE0 :=
          toNat_byte (by omega)
        rw [encode_three above three]
        refine ⟨⟨need_iff.mpr (.inr (.inr (.inl ⟨rfl,by omega⟩))),tails_continue [_,_]⟩,not_forbidden ?_ above⟩
        simp only [value,lead,tail_byte]
        omega
      · have lead : (UInt8.ofNat (c.val.toNat / 262144 % 0x08 + 0xF0)).toNat = c.val.toNat / 262144 % 0x08 + 0xF0 :=
          toNat_byte (by omega)
        rw [encode_four beyond]
        refine ⟨⟨need_iff.mpr (.inr (.inr (.inr ⟨rfl,by omega⟩))),tails_continue [_,_,_]⟩,not_forbidden ?_ beyond⟩
        simp only [value,lead,tail_byte]
        omega

-- A text cut into groups, in the only way there is.
structure Grouped (bytes : List UInt8) (groups : List (List UInt8)) : Prop where
  whole : groups.flatten = bytes
  each : ∀ g ∈ groups, Group g

theorem Grouped.unique {bytes : List UInt8} {one two : List (List UInt8)} (first : Grouped bytes one)
    (second : Grouped bytes two) : one = two := by
  induction one generalizing bytes two with
  | nil =>
    cases two with
    | nil => rfl
    | cons h hs =>
      have empty : h ++ hs.flatten = [] := second.whole.trans first.whole.symm
      have group := second.each h List.mem_cons_self
      rw [(List.append_eq_nil_iff.mp empty).1] at group
      exact absurd group id
  | cons g gs ih =>
    cases two with
    | nil =>
      have empty : g ++ gs.flatten = [] := first.whole.trans second.whole.symm
      have group := first.each g List.mem_cons_self
      rw [(List.append_eq_nil_iff.mp empty).1] at group
      exact absurd group id
    | cons h hs =>
      have same : g ++ gs.flatten = h ++ hs.flatten := first.whole.trans second.whole.symm
      obtain ⟨rfl,rest⟩ := group_front (first.each g List.mem_cons_self) (second.each h List.mem_cons_self) same
      have equal := ih ⟨rfl,fun k member => first.each k (List.mem_cons_of_mem g member)⟩
        ⟨rest.symm,fun k member => second.each k (List.mem_cons_of_mem g member)⟩
      rw [equal]

theorem grouped_cons {lead : UInt8} {rest : List UInt8} : (∃ groups, Grouped (lead :: rest) groups) ↔
    ∃ k, need lead = some k ∧ (k ≤ rest.length ∧ ∀ b ∈ rest.take k, Continues b) ∧
      ∃ groups, Grouped (rest.drop k) groups := by
  constructor
  · rintro ⟨groups,whole,each⟩
    cases groups with
    | nil => cases whole
    | cons g gs =>
      have group := each g List.mem_cons_self
      cases g with
      | nil => exact absurd group id
      | cons a g =>
        obtain ⟨rfl,rfl⟩ := List.cons.inj (show a :: (g ++ gs.flatten) = lead :: rest from whole)
        refine ⟨g.length,group.1,⟨by simp,?_⟩,gs,?_,fun h member => each h (List.mem_cons_of_mem _ member)⟩
        · rw [List.take_left]
          exact group.2
        · rw [List.drop_left]
  · rintro ⟨k,needs,⟨room,tail⟩,gs,whole,each⟩
    refine ⟨(lead :: rest.take k) :: gs,?_,?_⟩
    · rw [List.flatten_cons,whole,List.cons_append,List.take_append_drop]
    · intro g member
      rcases List.mem_cons.mp member with rfl | later
      · refine ⟨?_,tail⟩
        rw [needs,List.length_take,Nat.min_eq_left room]
      · exact each g later

theorem wellFormed_iff {bytes : List UInt8} :
    WellFormed bytes ↔ ∃ groups, Grouped bytes groups ∧ ∀ g ∈ groups, ¬ Forbidden g := by
  constructor
  · rintro ⟨cs,rfl⟩
    refine ⟨cs.map String.utf8EncodeChar,⟨rfl,fun g member => ?_⟩,fun g member => ?_⟩
    · obtain ⟨c,_,rfl⟩ := List.mem_map.mp member
      exact (char_group c).1
    · obtain ⟨c,_,rfl⟩ := List.mem_map.mp member
      exact (char_group c).2
  · rintro ⟨groups,⟨rfl,each⟩,allowed⟩
    refine ⟨groups.map fun g => Char.ofNat (value g),?_⟩
    induction groups with
    | nil => rfl
    | cons g gs ih =>
      have rest := ih (fun k member => allowed k (List.mem_cons_of_mem g member))
        fun k member => each k (List.mem_cons_of_mem g member)
      have front := group_encodes (each g List.mem_cons_self) (allowed g List.mem_cons_self)
      rw [List.map_cons,List.flatten_cons,← rest]
      simp only [encode,List.flatMap_cons,front]

end Utf8
