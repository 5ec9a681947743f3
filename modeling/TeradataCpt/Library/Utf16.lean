import Mathlib.Data.List.Induction

namespace Utf16

def isHigh (u : UInt16) : Bool := 0xD800 ≤ u.toNat && u.toNat < 0xDC00
def isLow (u : UInt16) : Bool := 0xDC00 ≤ u.toNat && u.toNat < 0xE000

def encodeChar (c : Char) : List UInt16 :=
  if c.toNat < 0x10000 then [UInt16.ofNat c.toNat]
  else [UInt16.ofNat (0xD800 + (c.toNat - 0x10000) / 0x400),UInt16.ofNat (0xDC00 + (c.toNat - 0x10000) % 0x400)]

def encode (cs : List Char) : List UInt16 := cs.flatMap encodeChar

def WellFormed (units : List UInt16) : Prop := ∃ cs, encode cs = units

def pairChar (high low : UInt16) : Char :=
  Char.ofNat (0x10000 + (high.toNat - 0xD800) * 0x400 + (low.toNat - 0xDC00))

-- A unit that begins no pair; an unpaired surrogate stands for `mark`.
def loneChar (mark : Char) (u : UInt16) : Char := if isHigh u || isLow u then mark else Char.ofNat u.toNat

def scalars (mark : Char) : List UInt16 → List Char
  | [] => []
  | [u] => [loneChar mark u]
  | u :: v :: rest =>
    if isHigh u && isLow v then pairChar u v :: scalars mark rest
    else loneChar mark u :: scalars mark (v :: rest)

def loneUnit (mark : UInt16) (u : UInt16) : UInt16 := if isHigh u || isLow u then mark else u

def repair (mark : UInt16) : List UInt16 → List UInt16
  | [] => []
  | [u] => [loneUnit mark u]
  | u :: v :: rest =>
    if isHigh u && isLow v then u :: v :: repair mark rest
    else loneUnit mark u :: repair mark (v :: rest)

theorem ofNat_value {n : Nat} (valid : n.isValidChar) : (Char.ofNat n).toNat = n := by
  unfold Char.ofNat
  rw [dif_pos valid]
  rfl

theorem pair_encoded {high low : UInt16} (first : isHigh high = true) (second : isLow low = true) :
    encodeChar (pairChar high low) = [high,low] := by
  simp only [isHigh,isLow,Bool.and_eq_true,decide_eq_true_eq] at first second
  have valid : (0x10000 + (high.toNat - 0xD800) * 0x400 + (low.toNat - 0xDC00)).isValidChar := by
    refine .inr ?_
    omega
  have upper : 0xD800 + (0x10000 + (high.toNat - 0xD800) * 0x400 + (low.toNat - 0xDC00) - 0x10000) / 0x400 =
      high.toNat := by omega
  have lower : 0xDC00 + (0x10000 + (high.toNat - 0xD800) * 0x400 + (low.toNat - 0xDC00) - 0x10000) % 0x400 =
      low.toNat := by omega
  unfold encodeChar pairChar
  rw [ofNat_value valid,if_neg (by omega),upper,lower,UInt16.ofNat_toNat,UInt16.ofNat_toNat]

theorem lone_encoded {mark : Char} {unit : UInt16} (marked : encodeChar mark = [unit]) (u : UInt16) :
    encodeChar (loneChar mark u) = [loneUnit unit u] := by
  unfold loneChar loneUnit
  by_cases broken : (isHigh u || isLow u) = true
  · rw [if_pos broken,if_pos broken,marked]
  · have top := u.toNat_lt
    have valid : u.toNat.isValidChar := by
      simp only [isHigh,isLow,Bool.or_eq_true,Bool.and_eq_true,decide_eq_true_eq] at broken
      unfold Nat.isValidChar
      omega
    rw [if_neg broken,if_neg broken]
    unfold encodeChar
    rw [ofNat_value valid,if_pos (by omega),UInt16.ofNat_toNat]

theorem encode_cons (c : Char) (cs : List Char) : encode (c :: cs) = encodeChar c ++ encode cs := rfl

theorem encode_scalars {mark : Char} {unit : UInt16} (marked : encodeChar mark = [unit]) (units : List UInt16) :
    encode (scalars mark units) = repair unit units := by
  induction units using scalars.induct with
  | case1 => rfl
  | case2 u => simp [scalars,repair,encode,lone_encoded marked]
  | case3 u v rest pair ih =>
    obtain ⟨first,second⟩ := Bool.and_eq_true_iff.mp pair
    rw [scalars,repair,if_pos pair,if_pos pair,encode_cons,ih,pair_encoded first second]
    rfl
  | case4 u v rest broken ih =>
    rw [scalars,repair,if_neg broken,if_neg broken,encode_cons,ih,lone_encoded marked]
    rfl

theorem scalars_lone (mark : Char) {u : UInt16} (single : isHigh u = false) (rest : List UInt16) :
    scalars mark (u :: rest) = loneChar mark u :: scalars mark rest := by
  cases rest with
  | nil => rfl
  | cons v rest => simp [scalars,single]

theorem scalars_encode (mark : Char) (cs : List Char) : scalars mark (encode cs) = cs := by
  induction cs with
  | nil => rfl
  | cons c cs ih =>
    rw [encode_cons]
    have scalar : c.toNat.isValidChar := c.valid
    unfold Nat.isValidChar at scalar
    unfold encodeChar
    by_cases basic : c.toNat < 0x10000
    · have value : (UInt16.ofNat c.toNat).toNat = c.toNat := by rw [UInt16.toNat_ofNat']; omega
      have plain : isHigh (UInt16.ofNat c.toNat) = false := by simp [isHigh,value]; omega
      have low : isLow (UInt16.ofNat c.toNat) = false := by simp [isLow,value]; omega
      rw [if_pos basic,List.singleton_append,scalars_lone mark plain,ih]
      simp [loneChar,plain,low,Char.ofNat_toNat,Nat.mod_eq_of_lt basic]
    · have upper : (UInt16.ofNat (0xD800 + (c.toNat - 0x10000) / 0x400)).toNat =
          0xD800 + (c.toNat - 0x10000) / 0x400 := by rw [UInt16.toNat_ofNat']; omega
      have lower : (UInt16.ofNat (0xDC00 + (c.toNat - 0x10000) % 0x400)).toNat =
          0xDC00 + (c.toNat - 0x10000) % 0x400 := by rw [UInt16.toNat_ofNat']; omega
      have first : isHigh (UInt16.ofNat (0xD800 + (c.toNat - 0x10000) / 0x400)) = true := by
        simp only [isHigh,upper,Bool.and_eq_true,decide_eq_true_eq]
        omega
      have second : isLow (UInt16.ofNat (0xDC00 + (c.toNat - 0x10000) % 0x400)) = true := by
        simp only [isLow,lower,Bool.and_eq_true,decide_eq_true_eq]
        omega
      have value : 0x10000 + (0xD800 + (c.toNat - 0x10000) / 0x400 - 0xD800) * 0x400 +
          (0xDC00 + (c.toNat - 0x10000) % 0x400 - 0xDC00) = c.toNat := by omega
      rw [if_neg basic,List.cons_append,List.singleton_append,scalars,if_pos (by rw [first,second]; rfl),ih,pairChar,
        upper,lower,value,Char.ofNat_toNat]

-- Only text without unpaired surrogates is left as it is.
theorem repair_iff {mark : Char} {unit : UInt16} (marked : encodeChar mark = [unit]) (units : List UInt16) :
    repair unit units = units ↔ WellFormed units := by
  constructor
  · intro same
    exact ⟨scalars mark units,(encode_scalars marked units).trans same⟩
  · rintro ⟨cs,rfl⟩
    rw [← encode_scalars marked,scalars_encode]

theorem encode_append (cs ds : List Char) : encode (cs ++ ds) = encode cs ++ encode ds := List.flatMap_append

theorem encodeChar_cases (c : Char) :
    (∃ u, encodeChar c = [u] ∧ isHigh u = false ∧ isLow u = false) ∨
      ∃ high low, encodeChar c = [high,low] ∧ isHigh high = true ∧ isLow high = false ∧ isHigh low = false ∧
        isLow low = true := by
  have scalar : c.toNat.isValidChar := c.valid
  unfold Nat.isValidChar at scalar
  unfold encodeChar
  split
  · rename_i basic
    have value : (UInt16.ofNat c.toNat).toNat = c.toNat := by rw [UInt16.toNat_ofNat']; omega
    refine .inl ⟨_,rfl,?_,?_⟩
    · simp [isHigh,value]
      omega
    · simp [isLow,value]
      omega
  · have upper : (UInt16.ofNat (0xD800 + (c.toNat - 0x10000) / 0x400)).toNat = 0xD800 + (c.toNat - 0x10000) / 0x400 := by
      rw [UInt16.toNat_ofNat']
      omega
    have lower : (UInt16.ofNat (0xDC00 + (c.toNat - 0x10000) % 0x400)).toNat = 0xDC00 + (c.toNat - 0x10000) % 0x400 := by
      rw [UInt16.toNat_ofNat']
      omega
    refine .inr ⟨_,_,rfl,?_,?_,?_,?_⟩
    · simp only [isHigh,upper,Bool.and_eq_true,decide_eq_true_eq]
      omega
    · simp only [isLow,upper,Bool.and_eq_false_iff,decide_eq_false_iff_not]
      omega
    · simp only [isHigh,lower,Bool.and_eq_false_iff,decide_eq_false_iff_not]
      omega
    · simp only [isLow,lower,Bool.and_eq_true,decide_eq_true_eq]
      omega

theorem wellFormed_head {units : List UInt16} (formed : WellFormed units) {u : UInt16} (head : units.head? = some u) :
    isLow u = false := by
  obtain ⟨cs,rfl⟩ := formed
  cases cs with
  | nil => cases head
  | cons c cs =>
    rw [encode_cons] at head
    rcases encodeChar_cases c with ⟨v,single,_,low⟩ | ⟨high,low,pair,_,plain,_⟩
    · rw [single] at head
      cases head
      exact low
    · rw [pair] at head
      cases head
      exact plain

theorem wellFormed_last {units : List UInt16} (formed : WellFormed units) {u : UInt16}
    (last : units.getLast? = some u) : isHigh u = false := by
  obtain ⟨cs,rfl⟩ := formed
  induction cs using List.reverseRecOn with
  | nil => cases last
  | append_singleton cs c =>
    have single : encode [c] = encodeChar c := List.append_nil _
    rw [encode_append,single] at last
    rcases encodeChar_cases c with ⟨v,one,high,_⟩ | ⟨high,low,pair,_,_,plain,_⟩
    · rw [one,List.getLast?_append] at last
      cases last
      exact high
    · rw [pair,List.getLast?_append] at last
      cases last
      exact plain

-- Inside a character there is only the cut between the halves of a pair.
theorem encodeChar_cut {c : Char} {u v : UInt16} {x y : List UInt16} (whole : encodeChar c = u :: x ++ v :: y) :
    x = [] ∧ isHigh u = true ∧ isLow v = true := by
  rcases encodeChar_cases c with ⟨w,single,_⟩ | ⟨high,low,pair,first,_,_,second⟩
  · rw [single] at whole
    cases x <;> cases whole
  · rw [pair] at whole
    cases x with
    | nil =>
      cases whole
      exact ⟨rfl,first,second⟩
    | cons w x => cases x <;> cases whole

-- Between two units that are not the halves of a pair well-formed text may be cut.
theorem wellFormed_cut {x y : List UInt16} (formed : WellFormed (x ++ y))
    (boundary : ∀ u v, x.getLast? = some u → y.head? = some v → isHigh u = false ∨ isLow v = false) :
    WellFormed x ∧ WellFormed y := by
  obtain ⟨cs,spelled⟩ := formed
  induction cs generalizing x with
  | nil =>
    obtain ⟨rfl,rfl⟩ := List.append_eq_nil_iff.mp spelled.symm
    exact ⟨⟨[],rfl⟩,⟨[],rfl⟩⟩
  | cons c cs ih =>
    rw [encode_cons] at spelled
    rcases List.append_eq_append_iff.mp spelled with ⟨more,rfl,rest⟩ | ⟨inside,whole,rfl⟩
    · cases more with
      | nil => exact ⟨⟨[c],rfl⟩,⟨cs,rest⟩⟩
      | cons u more =>
        have last : (encodeChar c ++ u :: more).getLast? = (u :: more).getLast? := by
          rw [List.getLast?_append]
          simp [List.getLast?_cons]
        rw [last] at boundary
        obtain ⟨⟨front,first⟩,back⟩ := ih boundary rest
        exact ⟨⟨c :: front,by rw [encode_cons,first]⟩,back⟩
    · cases x with
      | nil => exact ⟨⟨[],rfl⟩,⟨c :: cs,by rw [encode_cons,whole]; rfl⟩⟩
      | cons u x =>
        cases inside with
        | nil => exact ⟨⟨[c],by rw [← List.append_nil (u :: x),← whole]; exact List.append_nil _⟩,⟨cs,rfl⟩⟩
        | cons v inside =>
          obtain ⟨rfl,first,second⟩ := encodeChar_cut whole
          rcases boundary u v rfl rfl with plain | plain
          · rw [plain] at first
            cases first
          · rw [plain] at second
            cases second

-- Two bytes a unit, the high one first.
def unitBytes (u : UInt16) : List UInt8 := [UInt8.ofNat (u.toNat / 256),UInt8.ofNat (u.toNat % 256)]

def bytes (units : List UInt16) : List UInt8 := units.flatMap unitBytes

def ofBytes : List UInt8 → List UInt16
  | high :: low :: rest => UInt16.ofNat (high.toNat * 256 + low.toNat) :: ofBytes rest
  | _ => []

theorem bytes_cons (u : UInt16) (units : List UInt16) :
    bytes (u :: units) = UInt8.ofNat (u.toNat / 256) :: UInt8.ofNat (u.toNat % 256) :: bytes units := rfl

theorem ofBytes_bytes (units : List UInt16) : ofBytes (bytes units) = units := by
  induction units with
  | nil => rfl
  | cons u units ih =>
    have top := u.toNat_lt
    have high : (UInt8.ofNat (u.toNat / 256)).toNat = u.toNat / 256 := by rw [UInt8.toNat_ofNat']; omega
    have low : (UInt8.ofNat (u.toNat % 256)).toNat = u.toNat % 256 := by rw [UInt8.toNat_ofNat']; omega
    have value : u.toNat / 256 * 256 + u.toNat % 256 = u.toNat := by omega
    rw [bytes_cons,ofBytes,ih,high,low,value,UInt16.ofNat_toNat]

end Utf16
