import TeradataCpt.Library.CHeap
import TeradataCpt.Cpt

namespace TeradataCpt.HeapCode
open CSemantics Interaction CHeap Cpt

-- The functions of cpt.c that allocate, with their mallocs and frees; what goes on
-- between these is what Cpt says, on the contents of the blocks.
def initCkey (inkey : Nat) (cptmode : CptMode) (keymod : KeyMode) (ckey : Cells UInt8) (machine : Machine) :
    HeapProg (Cells UInt8) := do
  let tlen := cptmode.len
  let T ← heap (.malloc .char tlen)
  let tBlock ← deref T
  let table ← compute (copy (← heap (.read .char tBlock)) 0 (cptmode.table.map some) 0 tlen)
  heap (.write .char tBlock table)
  let mod ← heap (.malloc .int tlen)
  let modBlock ← deref mod
  let start : KeyCells := ⟨← heap (.read .char tBlock),← heap (.read .int modBlock),ckey⟩
  let cells ← compute (match keymod with
    | .encryptKey => forUp tlen (encryptRound inkey tlen) start
    | .decryptKey => forUp tlen (decryptRound machine inkey tlen cptmode.offset) start)
  heap (.write .int modBlock cells.mod)
  heap (.write .char tBlock cells.T)
  heap (.free mod)
  heap (.free T)
  return cells.ckey

def passInto (pass : Pass) (instr : Cells UInt8) (inlen : Int) (ckey : Cells UInt8) (cptmode : CptMode) (block : Nat) :
    HeapProg Unit := do
  let cells ← compute (pass instr inlen ckey cptmode (← heap (.read .char block)))
  heap (.write .char block cells)

def passFrom (pass : Pass) (block : Nat) (inlen : Int) (ckey : Cells UInt8) (cptmode : CptMode) (outstr : Cells UInt8) :
    HeapProg (Cells UInt8) := do
  compute (pass (← heap (.read .char block)) inlen ckey cptmode outstr)

-- ct_encrypt and ct_decrypt with `spare` 1; with 0 the body of auto_ct_encrypt and
-- auto_ct_decrypt behind strlen.
def scratchPasses (spare : Int) (first second : Pass) (instr : Cells UInt8) (inlen : Int) (ckey : Cells UInt8)
    (cptmode : CptMode) (outstr : Cells UInt8) : HeapProg (Cells UInt8) := do
  let scratch ← heap (.malloc .char (inlen + spare))
  let scratchBlock ← deref scratch
  passInto first instr inlen ckey cptmode scratchBlock
  let outstr ← passFrom second scratchBlock inlen ckey cptmode outstr
  heap (.free scratch)
  return outstr

def ctEncrypt := scratchPasses 1 ctlEncrypt ctrEncrypt
def ctDecrypt (machine : Machine) := scratchPasses 1 (ctrDecrypt machine) (ctlDecrypt machine)

def autoPasses (first second : Pass) (instr ckey : Cells UInt8) (cptmode : CptMode) (outstr : Cells UInt8) :
    HeapProg (Cells UInt8) := do
  let inlen := (Int32.ofNat (← compute (strlen instr))).toInt
  scratchPasses 0 first second instr inlen ckey cptmode outstr

def autoCtEncrypt := autoPasses ctlEncrypt ctrEncrypt
def autoCtDecrypt (machine : Machine) := autoPasses (ctrDecrypt machine) (ctlDecrypt machine)

def substrCtEncrypt (instr : Cells UInt8) (startpos inlen : Int) (ckey : Cells UInt8) (cptmode : CptMode)
    (outstr : Cells UInt8) : HeapProg (Cells UInt8) := do
  let ctl ← heap (.malloc .char inlen)
  let tempout ← heap (.malloc .char inlen)
  let substr ← heap (.malloc .char inlen)
  let outstr ← compute (copy outstr 0 instr 0 (← compute (strlen instr)))
  let substrBlock ← deref substr
  let cells ← compute (copy (← heap (.read .char substrBlock)) 0 instr startpos inlen)
  heap (.write .char substrBlock cells)
  let ctlBlock ← deref ctl
  let cells ← passFrom ctlEncrypt substrBlock inlen ckey cptmode (← heap (.read .char ctlBlock))
  heap (.write .char ctlBlock cells)
  let tempoutBlock ← deref tempout
  let cells ← passFrom ctrEncrypt ctlBlock inlen ckey cptmode (← heap (.read .char tempoutBlock))
  heap (.write .char tempoutBlock cells)
  let outstr ← compute (copy outstr startpos (← heap (.read .char tempoutBlock)) 0 inlen)
  heap (.free ctl)
  heap (.free tempout)
  heap (.free substr)
  return outstr

def subPolicyAt (first second : Pass) (instr : Nat) (policy : JniPolicy) (ckey : Nat) (cptmode : CptMode) (outstr : Nat)
    (i : Nat) (memory : Memory) : HeapProg (Outcome (Int × Memory) Memory) := do
  let sub ← compute (load policy.entries i)
  let cPos := sub.position.toInt
  let cLen := sub.length.toInt
  let scratch ← heap (.malloc .char (cLen + 1))
  let tempout ← heap (.malloc .char (cLen + 1))
  match scratch,tempout with
  | some scratchBlock,some tempoutBlock =>
    let source ← compute (address (memory instr) cPos)
    passInto first source cLen (memory ckey) cptmode scratchBlock
    let cells ← passFrom second scratchBlock cLen (memory ckey) cptmode (← heap (.read .char tempoutBlock))
    heap (.write .char tempoutBlock cells)
    let target ← compute (copy (memory outstr) cPos (← heap (.read .char tempoutBlock)) 0 cLen)
    heap (.free scratch)
    heap (.free tempout)
    return .next (Function.update memory outstr target)
  | _,_ =>
    heap (.free scratch)
    heap (.free tempout)
    return .returned (-1,memory)

def multiSubPolicy (first second : Pass) (memory : Memory) (instr : Pointer) (inlen : Int) (policy : Option JniPolicy)
    (ckey : Pointer) (cptmode : CptMode) (outstr : Pointer) : HeapProg (Int × Memory) := do
  match instr,ckey,outstr with
  | some instr,some ckey,some outstr =>
    if (← compute (validatePolicy policy inlen)) ≠ 0 then return (-1,memory)
    let policy ← compute (nonNull policy)
    let copied ← compute (copy (memory outstr) 0 (memory instr) 0 inlen)
    let body := subPolicyAt first second instr policy ckey cptmode outstr
    match ← Interaction.scan policy.subPolicyNum.toInt.toNat body (Function.update memory outstr copied) with
    | .returned result => return result
    | .next memory => return (0,memory)
  | _,_,_ => return (-1,memory)

def multiSubPolicyCtEncrypt := multiSubPolicy ctlEncrypt ctrEncrypt
def multiSubPolicyCtDecrypt (machine : Machine) := multiSubPolicy (ctrDecrypt machine) (ctlDecrypt machine)

end TeradataCpt.HeapCode
