import Mathlib.Logic.Function.Basic
import TeradataCpt.Library.CSemantics

namespace TeradataCpt.Cpt
open CSemantics

-- cpt.h
def clen : Nat := 223
def ilen : Nat := 10
def alen : Nat := 94
def maxSubPolicies : Nat := 5

inductive CptMode where
  | cptChar
  | cptInt
  | cptAsc
  deriving DecidableEq, Repr

inductive KeyMode where
  | encryptKey
  | decryptKey
  deriving DecidableEq, Repr

structure JniSubPolicy where
  position : Int32
  length : Int32
  deriving DecidableEq, Repr

structure JniPolicy where
  subPolicyNum : Int32
  subPolicy : Vector JniSubPolicy maxSubPolicies

-- cpt.c
def iOffset : Nat := 0x30
def cOffset : Nat := 0x21
def aOffset : Nat := 0x21

def tableCT : List UInt8 :=
  [0x21,0x22,0x23,0x24,0x25,0x26,0x27,0x28,0x29,0x2a,0x2b,0x2c,0x2d,0x2e,0x2f,0x30,
   0x41,0x42,0x43,0x44,0x45,0x46,0x47,0x48,0x49,0x4a,0x4b,0x4c,0x4d,0x4e,0x4f,0x50,
   0x31,0x32,0x33,0x34,0x35,0x36,0x37,0x38,0x39,0x3a,0x3b,0x3c,0x3d,0x3e,0x3f,0x40,
   0x61,0x62,0x63,0x64,0x65,0x66,0x67,0x68,0x69,0x6a,0x6b,0x6c,0x6d,0x6e,0x6f,0x70,
   0x51,0x52,0x53,0x54,0x55,0x56,0x57,0x58,0x59,0x5a,0x5b,0x5c,0x5d,0x5e,0x5f,0x60,
   0x71,0x72,0x73,0x74,0x75,0x76,0x77,0x79,0x78,0x7a,0x7b,0x7c,0x7d,0x7e,0x7f,0x80,
   0x91,0x92,0x93,0x94,0x95,0x96,0x97,0x98,0x99,0x9a,0x9b,0x9c,0x9d,0x9e,0x9f,0xa0,
   0x81,0x82,0x83,0x84,0x85,0x86,0x87,0x88,0x89,0x8e,0x8b,0x8c,0x8d,0x8a,0x8f,0x90,
   0xa1,0xa2,0xa3,0xa4,0xa5,0xa6,0xa7,0xa8,0xa9,0xaa,0xab,0xac,0xad,0xae,0xaf,0xb0,
   0xc1,0xc2,0xc3,0xc4,0xc5,0xc6,0xc7,0xc8,0xc9,0xca,0xcb,0xcc,0xcd,0xce,0xcf,0xd0,
   0xb1,0xb2,0xb3,0xb4,0xb5,0xb6,0xb7,0xb8,0xb9,0xba,0xbc,0xbb,0xbe,0xbd,0xbf,0xc0,
   0xe1,0xe2,0xe3,0xe4,0xe5,0xe6,0xe7,0xe8,0xe9,0xea,0xeb,0xec,0xed,0xee,0xef,0xf0,
   0xd1,0xd2,0xd3,0xd4,0xd5,0xd6,0xd7,0xd8,0xd9,0xda,0xdb,0xdc,0xdd,0xde,0xdf,0xe0,
   0xf1,0xf2,0xf3,0xf4,0xf5,0xf6,0xf7,0xf8,0xf9,0xfa,0xfb,0xfc,0xfd,0xfe,0xff]

def tableIT : List UInt8 :=
  [0x30,0x31,0x32,0x33,0x34,0x35,0x36,0x37,0x38,0x39]

def tableAT : List UInt8 :=
  [0x3a,0x32,0x39,0x34,0x35,0x3f,0x37,0x38,0x33,0x31,0x3b,0x3c,0x3d,0x3e,0x36,0x40,
   0x21,0x22,0x23,0x24,0x25,0x26,0x27,0x28,0x29,0x2a,0x2b,0x2c,0x2d,0x2e,0x2f,0x30,
   0x51,0x52,0x53,0x5f,0x55,0x56,0x59,0x58,0x57,0x5c,0x5b,0x5a,0x5d,0x5e,0x54,0x60,
   0x41,0x42,0x43,0x44,0x45,0x46,0x47,0x48,0x49,0x4a,0x4b,0x4c,0x4d,0x4e,0x4f,0x50,
   0x71,0x72,0x73,0x74,0x75,0x76,0x77,0x78,0x79,0x7a,0x7b,0x7c,0x7d,0x7e,0x68,0x62,
   0x63,0x64,0x65,0x66,0x67,0x61,0x69,0x6a,0x6b,0x6c,0x6d,0x6e,0x6f,0x70]

-- The selection at the head of every function that takes a mode: an int that is
-- neither CPT_INT nor CPT_CHAR falls through to the ASCII values.
def CptMode.ofInt (mode : Int) : CptMode :=
  if mode = 1 then .cptInt else if mode = 0 then .cptChar else .cptAsc

def CptMode.offset : CptMode → Nat
  | .cptInt => iOffset
  | .cptChar => cOffset
  | .cptAsc => aOffset

def CptMode.len : CptMode → Nat
  | .cptInt => ilen
  | .cptChar => clen
  | .cptAsc => alen

def CptMode.table : CptMode → List UInt8
  | .cptInt => tableIT
  | .cptChar => tableCT
  | .cptAsc => tableAT

structure KeyCells where
  T : Cells UInt8
  mod : Cells Int
  ckey : Cells UInt8

def encryptRound (inkey tlen : Nat) (i : Nat) (cells : KeyCells) : Except Fault KeyCells := do
  let mod ← store cells.mod i (inkey % (tlen - i) : Nat)
  let position ← load mod i
  let chosen ← load cells.T position
  let ckey ← store cells.ckey i chosen
  let T ← copy cells.T position cells.T (position+1) ((tlen : Int) - 1 - i - position)
  return ⟨T,mod,ckey⟩

def decryptRound (machine : Machine) (inkey tlen offset : Nat) (i : Nat) (cells : KeyCells) :
    Except Fault KeyCells := do
  let mod ← store cells.mod i (inkey % (tlen - i) : Nat)
  let position ← load mod i
  let chosen ← load cells.T position
  let ckey ← store cells.ckey (chosen.toNat - offset : Int) (← narrow machine (i + offset : Nat))
  let T ← copy cells.T position cells.T (position+1) ((tlen : Int) - 1 - i - position)
  return ⟨T,mod,ckey⟩

-- `inkey` is the value of an unsigned long of whatever width the platform has.
def initCkey (machine : Machine) (inkey : Nat) (cptmode : CptMode) (keymod : KeyMode)
    (ckey : Cells UInt8) : Except Fault (Cells UInt8) := do
  let tlen := cptmode.len
  let T ← nonNull (malloc machine 0 tlen)
  let T ← copy T 0 (cptmode.table.map some) 0 tlen
  let mod ← nonNull (malloc machine 1 tlen)
  let cells ← match keymod with
    | .encryptKey => forUp tlen (encryptRound inkey tlen) ⟨T,mod,ckey⟩
    | .decryptKey => forUp tlen (decryptRound machine inkey tlen cptmode.offset) ⟨T,mod,ckey⟩
  return cells.ckey

def outside (cptmode : CptMode) (byte : UInt8) : Bool :=
  byte.toNat < cptmode.offset || byte.toNat > cptmode.offset + cptmode.len - 1

-- One iteration of ctl_encrypt and ctr_encrypt. They differ in the index without
-- a neighbour (`edge`) and in the side the neighbouring output is on.
def encryptAt (instr ckey : Cells UInt8) (cptmode : CptMode) (edge side : Int) (i : Nat)
    (outstr : Cells UInt8) : Except Fault (Cells UInt8) := do
  let offset : Int := cptmode.offset
  let byte ← load instr i
  if outside cptmode byte then store outstr i byte
  else if (i : Int) = edge then store outstr i (← load ckey (byte.toNat - offset))
  else
    let near ← load outstr (i + side)
    if outside cptmode near then store outstr i (← load ckey (byte.toNat - offset))
    else store outstr i (← load ckey (Int.tmod (near.toNat + byte.toNat - offset*2) cptmode.len))

-- The same of ctl_decrypt and ctr_decrypt, whose neighbour is an input byte.
def decryptAt (machine : Machine) (instr ckey : Cells UInt8) (cptmode : CptMode) (edge side : Int) (i : Nat)
    (outstr : Cells UInt8) : Except Fault (Cells UInt8) := do
  let offset : Int := cptmode.offset
  let byte ← load instr i
  if outside cptmode byte then store outstr i byte
  else if (i : Int) = edge then store outstr i (← load ckey (byte.toNat - offset))
  else
    let near ← load instr (i + side)
    if outside cptmode near then store outstr i (← load ckey (byte.toNat - offset))
    else
      let entry ← load ckey (byte.toNat - offset)
      if entry.toNat ≥ near.toNat then
        store outstr i (← narrow machine (entry.toNat - near.toNat + offset))
      else
        store outstr i (← narrow machine (entry.toNat - near.toNat + offset + cptmode.len))

-- (instr, inlen, ckey, cptmode, outstr); the result is the new outstr.
abbrev Pass := Cells UInt8 → Int → Cells UInt8 → CptMode → Cells UInt8 → Except Fault (Cells UInt8)

def ctlEncrypt : Pass := fun instr inlen ckey cptmode outstr => do
  let outstr ← forUp inlen.toNat (encryptAt instr ckey cptmode 0 (-1)) outstr
  store outstr inlen 0

def ctrEncrypt : Pass := fun instr inlen ckey cptmode outstr => do
  let outstr ← forDown inlen.toNat (encryptAt instr ckey cptmode (inlen-1) 1) outstr
  store outstr inlen 0

def ctlDecrypt (machine : Machine) : Pass := fun instr inlen ckey cptmode outstr => do
  let outstr ← forUp inlen.toNat (decryptAt machine instr ckey cptmode 0 (-1)) outstr
  store outstr inlen 0

def ctrDecrypt (machine : Machine) : Pass := fun instr inlen ckey cptmode outstr => do
  let outstr ← forDown inlen.toNat (decryptAt machine instr ckey cptmode (inlen-1) 1) outstr
  store outstr inlen 0

def twoPasses (machine : Machine) (first second : Pass) : Pass := fun instr inlen ckey cptmode outstr => do
  let scratch ← nonNull (malloc machine 0 (inlen+1))
  let scratch ← first instr inlen ckey cptmode scratch
  second scratch inlen ckey cptmode outstr

def ctEncrypt (machine : Machine) : Pass := twoPasses machine ctlEncrypt ctrEncrypt
def ctDecrypt (machine : Machine) : Pass := twoPasses machine (ctrDecrypt machine) (ctlDecrypt machine)

def strlen : Cells UInt8 → Except Fault Nat
  | [] => .error .outOfBounds
  | none :: _ => .error .uninitialised
  | some byte :: rest => do
    if byte = 0 then return 0
    else return (← strlen rest) + 1

-- auto_ct_encrypt and auto_ct_decrypt; the scratch buffer has no cell for a terminator.
def autoPasses (machine : Machine) (first second : Pass) (instr ckey : Cells UInt8) (cptmode : CptMode)
    (outstr : Cells UInt8) : Except Fault (Cells UInt8) := do
  let inlen := (Int32.ofNat (← strlen instr)).toInt
  let scratch ← nonNull (malloc machine 0 inlen)
  let scratch ← first instr inlen ckey cptmode scratch
  second scratch inlen ckey cptmode outstr

def autoCtEncrypt (machine : Machine) := autoPasses machine ctlEncrypt ctrEncrypt
def autoCtDecrypt (machine : Machine) := autoPasses machine (ctrDecrypt machine) (ctlDecrypt machine)

def substrCtEncrypt (machine : Machine) (instr : Cells UInt8) (startpos inlen : Int) (ckey : Cells UInt8)
    (cptmode : CptMode) (outstr : Cells UInt8) : Except Fault (Cells UInt8) := do
  let ctl := malloc machine 0 inlen
  let tempout := malloc machine 1 inlen
  let substr := malloc machine 2 inlen
  let outstr ← copy outstr 0 instr 0 (← strlen instr)
  let substr ← copy (← nonNull substr) 0 instr startpos inlen
  let ctl ← ctlEncrypt substr inlen ckey cptmode (← nonNull ctl)
  let tempout ← ctrEncrypt ctl inlen ckey cptmode (← nonNull tempout)
  copy outstr startpos tempout 0 inlen

def JniPolicy.entries (policy : JniPolicy) : Cells JniSubPolicy := policy.subPolicy.toList.map some

-- The subtraction is reached only past the tests in front of it.
def validateAt (policy : JniPolicy) (inlen : Int) (i : Nat) (_ : Unit) : Except Fault (Outcome Int Unit) := do
  let sub ← load policy.entries i
  let position := sub.position.toInt
  let length := sub.length.toInt
  if position < 0 ∨ length < 0 ∨ position > inlen then return .returned (-1)
  else if length > (← subInt inlen position) then return .returned (-1)
  else return .next ()

def validatePolicy (policy : Option JniPolicy) (inlen : Int) : Except Fault Int :=
  match policy with
  | none => .ok (-1)
  | some policy => do
    let num := policy.subPolicyNum.toInt
    if inlen < 0 ∨ num < 0 ∨ num > maxSubPolicies then return -1
    else match ← scan num.toNat (validateAt policy inlen) () with
      | .returned result => return result
      | .next _ => return 0

-- One range: two mallocs, two passes, and the copy into place. Both mallocs are
-- made before either result is looked at.
def subPolicyAt (machine : Machine) (first second : Pass) (instr : Nat) (policy : JniPolicy) (ckey : Nat)
    (cptmode : CptMode) (outstr : Nat) (i : Nat) (memory : Memory) :
    Except Fault (Outcome (Int × Memory) Memory) := do
  let sub ← load policy.entries i
  let cPos := sub.position.toInt
  let cLen := sub.length.toInt
  match malloc machine (2*i) (cLen+1), malloc machine (2*i+1) (cLen+1) with
  | some scratch,some tempout =>
    let source ← address (memory instr) cPos
    let scratch ← first source cLen (memory ckey) cptmode scratch
    let tempout ← second scratch cLen (memory ckey) cptmode tempout
    let target ← copy (memory outstr) cPos tempout 0 cLen
    return .next (Function.update memory outstr target)
  | _,_ => return .returned (-1,memory)

def multiSubPolicy (machine : Machine) (first second : Pass) (memory : Memory) (instr : Pointer) (inlen : Int)
    (policy : Option JniPolicy) (ckey : Pointer) (cptmode : CptMode) (outstr : Pointer) :
    Except Fault (Int × Memory) :=
  match instr,ckey,outstr with
  | some instr,some ckey,some outstr => do
    if (← validatePolicy policy inlen) ≠ 0 then return (-1,memory)
    let policy ← nonNull policy
    let copied ← copy (memory outstr) 0 (memory instr) 0 inlen
    let body := subPolicyAt machine first second instr policy ckey cptmode outstr
    match ← scan policy.subPolicyNum.toInt.toNat body (Function.update memory outstr copied) with
    | .returned result => return result
    | .next memory => return (0,memory)
  | _,_,_ => return (-1,memory)

abbrev PolicyFunction := Memory → Pointer → Int → Option JniPolicy → Pointer → CptMode → Pointer →
  Except Fault (Int × Memory)

def multiSubPolicyCtEncrypt (machine : Machine) : PolicyFunction := multiSubPolicy machine ctlEncrypt ctrEncrypt
def multiSubPolicyCtDecrypt (machine : Machine) : PolicyFunction :=
  multiSubPolicy machine (ctrDecrypt machine) (ctlDecrypt machine)

-- A jni_policy object while it is built: entries nothing was stored in are open.
structure PolicyCells where
  subPolicyNum : Int32
  subPolicy : Vector (Option JniSubPolicy) maxSubPolicies

def newSubPolicy (position length : Int32) : JniSubPolicy := ⟨position,length⟩

def newPolicy (policy : PolicyCells) : PolicyCells := {policy with subPolicyNum := 0}

-- The struct assignment copies the object behind the pointer, whatever it holds.
def addSubPolicy (policy : PolicyCells) (subPolicy : Option JniSubPolicy) : Except Fault PolicyCells :=
  let num := policy.subPolicyNum.toInt
  if bound : 0 ≤ num ∧ num.toNat < maxSubPolicies then
    .ok ⟨policy.subPolicyNum + 1,policy.subPolicy.set num.toNat subPolicy bound.2⟩
  else .error .outOfBounds

end TeradataCpt.Cpt
