-- RFC 4648 base64 over UTF-16 units, padded when encoding; a decoder that also takes
-- a last group without its padding.
namespace Base64

def pad : UInt16 := 0x3D

def symbol (i : Nat) : UInt16 :=
  if i < 26 then UInt16.ofNat (0x41 + i)
  else if i < 52 then UInt16.ofNat (0x61 + (i - 26))
  else if i < 62 then UInt16.ofNat (0x30 + (i - 52))
  else if i = 62 then 0x2B
  else 0x2F

def value (unit : UInt16) : Option Nat :=
  let n := unit.toNat
  if 0x41 ≤ n ∧ n ≤ 0x5A then some (n - 0x41)
  else if 0x61 ≤ n ∧ n ≤ 0x7A then some (n - 0x61 + 26)
  else if 0x30 ≤ n ∧ n ≤ 0x39 then some (n - 0x30 + 52)
  else if n = 0x2B then some 62
  else if n = 0x2F then some 63
  else none

def encode : List UInt8 → List UInt16
  | [] => []
  | [a] => [symbol (a.toNat / 4),symbol (a.toNat % 4 * 16),pad,pad]
  | [a,b] => [symbol (a.toNat / 4),symbol (a.toNat % 4 * 16 + b.toNat / 16),symbol (b.toNat % 16 * 4),pad]
  | a :: b :: c :: rest =>
    symbol (a.toNat / 4) :: symbol (a.toNat % 4 * 16 + b.toNat / 16) ::
      symbol (b.toNat % 16 * 4 + c.toNat / 64) :: symbol (c.toNat % 64) :: encode rest

def first (i j : Nat) : UInt8 := UInt8.ofNat (i * 4 + j / 16)
def second (j k : Nat) : UInt8 := UInt8.ofNat (j % 16 * 16 + k / 4)
def third (k l : Nat) : UInt8 := UInt8.ofNat (k % 4 * 64 + l)

def decodeTwo (p q : UInt16) : Option (List UInt8) := do
  let i ← value p
  let j ← value q
  return [first i j]

def decodeThree (p q r : UInt16) : Option (List UInt8) := do
  let i ← value p
  let j ← value q
  let k ← value r
  return [first i j,second j k]

def decode : List UInt16 → Option (List UInt8)
  | [] => some []
  | [_] => none
  | [p,q] => decodeTwo p q
  | [p,q,r] => decodeThree p q r
  | p :: q :: r :: s :: rest =>
    if rest = [] ∧ s = pad then
      if r = pad then decodeTwo p q else decodeThree p q r
    else do
      let i ← value p
      let j ← value q
      let k ← value r
      let l ← value s
      let bytes ← decode rest
      return first i j :: second j k :: third k l :: bytes

theorem value_symbol {i : Nat} (bound : i < 64) : value (symbol i) = some i := by
  have all : ∀ i < 64, value (symbol i) = some i := by decide
  exact all i bound

theorem symbol_not_pad {i : Nat} (bound : i < 64) : symbol i ≠ pad := by
  have all : ∀ i < 64, symbol i ≠ pad := by decide
  exact all i bound

theorem first_joined {a : UInt8} {j : Nat} (low : j / 16 = a.toNat % 4) : first (a.toNat / 4) j = a := by
  rw [first,low,Nat.div_add_mod',UInt8.ofNat_toNat]

theorem second_joined {b : UInt8} {j k : Nat} (high : j % 16 = b.toNat / 16) (low : k / 4 = b.toNat % 16) :
    second j k = b := by
  rw [second,high,low,Nat.div_add_mod',UInt8.ofNat_toNat]

theorem third_joined {c : UInt8} {k : Nat} (high : k % 4 = c.toNat / 64) : third k (c.toNat % 64) = c := by
  rw [third,high,Nat.div_add_mod',UInt8.ofNat_toNat]

theorem decode_encode (bytes : List UInt8) : decode (encode bytes) = some bytes := by
  induction bytes using encode.induct with
  | case1 => rfl
  | case2 a =>
    have top := a.toNat_lt
    have one := value_symbol (i := a.toNat / 4) (by omega)
    have two := value_symbol (i := a.toNat % 4 * 16) (by omega)
    have joined : first (a.toNat / 4) (a.toNat % 4 * 16) = a := first_joined (by omega)
    simp [encode,decode,decodeTwo,one,two,joined]
  | case3 a b =>
    have topA := a.toNat_lt
    have topB := b.toNat_lt
    have one := value_symbol (i := a.toNat / 4) (by omega)
    have two := value_symbol (i := a.toNat % 4 * 16 + b.toNat / 16) (by omega)
    have three := value_symbol (i := b.toNat % 16 * 4) (by omega)
    have more := symbol_not_pad (i := b.toNat % 16 * 4) (by omega)
    have joinedA : first (a.toNat / 4) (a.toNat % 4 * 16 + b.toNat / 16) = a := first_joined (by omega)
    have joinedB : second (a.toNat % 4 * 16 + b.toNat / 16) (b.toNat % 16 * 4) = b :=
      second_joined (by omega) (by omega)
    simp [encode,decode,decodeThree,one,two,three,more,joinedA,joinedB]
  | case4 a b c rest ih =>
    have topA := a.toNat_lt
    have topB := b.toNat_lt
    have topC := c.toNat_lt
    have one := value_symbol (i := a.toNat / 4) (by omega)
    have two := value_symbol (i := a.toNat % 4 * 16 + b.toNat / 16) (by omega)
    have three := value_symbol (i := b.toNat % 16 * 4 + c.toNat / 64) (by omega)
    have four := value_symbol (i := c.toNat % 64) (by omega)
    have more := symbol_not_pad (i := c.toNat % 64) (by omega)
    have joinedA : first (a.toNat / 4) (a.toNat % 4 * 16 + b.toNat / 16) = a := first_joined (by omega)
    have joinedB : second (a.toNat % 4 * 16 + b.toNat / 16) (b.toNat % 16 * 4 + c.toNat / 64) = b :=
      second_joined (by omega) (by omega)
    have joinedC : third (b.toNat % 16 * 4 + c.toNat / 64) (c.toNat % 64) = c := third_joined (by omega)
    simp [encode,decode,one,two,three,four,more,joinedA,joinedB,joinedC,ih]

end Base64
