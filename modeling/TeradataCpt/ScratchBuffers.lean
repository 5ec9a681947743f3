import TeradataCpt.Policies

namespace TeradataCpt.ScratchBuffers
open CSemantics ChainedPasses RangePatches Cpt CptJni Passes Policies

def spare : Machine := ⟨fun _ => true,1,false⟩

def autoOf (machine : Machine) : Bool → Cells UInt8 → Cells UInt8 → CptMode → Cells UInt8 → Except Fault (Cells UInt8)
  | true => autoCtEncrypt machine
  | false => autoCtDecrypt machine

theorem strlen_holds {object : Cells UInt8} {s : List UInt8} (text : Holds object (s ++ [0])) (plain : 0 ∉ s) :
    strlen object = .ok s.length := by
  induction s generalizing object with
  | nil =>
    have first := text 0 (by simp)
    cases object with
    | nil => cases first
    | cons cell rest =>
      cases first
      rfl
  | cons byte s ih =>
    have first := text 0 (by simp)
    cases object with
    | nil => cases first
    | cons cell rest =>
      obtain rfl : cell = some byte := Option.some.inj first
      have tail : Holds rest (s ++ [0]) := fun i bound => text (i+1) (Nat.succ_lt_succ bound)
      have away : byte ≠ 0 := fun zero => plain (by simp [zero])
      have counted := ih tail fun member => plain (List.mem_cons_of_mem byte member)
      simp only [strlen,if_neg away,counted,ok_bind,pure_ok,List.length_cons]

theorem exact_cells (call size : Nat) :
    malloc .reliable call (size : Int) = some (List.replicate size (none : Option UInt8)) :=
  malloc_served .reliable rfl size

theorem roomy_cells {machine : Machine} (available : ∀ call, machine.mallocOk call = true) {extra : Nat}
    (roomy : machine.slack = extra + 1) (call size : Nat) :
    malloc machine call (size : Int) = some (List.replicate (size + 1 + extra) (none : Option UInt8)) := by
  rw [malloc_cells machine available,roomy,Nat.add_comm extra,Nat.add_assoc]

section Auto
variable {m : CptMode} {ckey : Cells UInt8} {first second : Pass} {f g : List UInt8 → List UInt8}
  {instr : Cells UInt8} {s : List UInt8} (one : Fills first ckey m f) (two : Fills second ckey m g)
  (text : Holds instr (s ++ [0])) (plain : 0 ∉ s) (short : s.length < 2^31)
include one text plain short

-- The first pass already stores its terminator behind a buffer of exactly this size.
theorem auto_overruns (outstr : Cells UInt8) :
    autoPasses .reliable first second instr ckey m outstr = .error .outOfBounds := by
  have input := text.mono (List.prefix_append s [0])
  have overrun := one.overruns input (List.length_replicate (a := (none : Option UInt8)))
  simp only [autoPasses,strlen_holds text plain,ok_bind,int_ofNat short,exact_cells,nonNull,overrun]
  rfl

include two
theorem auto_roomy {machine : Machine} (available : ∀ call, machine.mallocOk call = true) {extra : Nat}
    (roomy : machine.slack = extra + 1) {outstr : Cells UInt8} (room : s.length < outstr.length) :
    autoPasses machine first second instr ckey m outstr = .ok (written outstr (g (f s) ++ [0])) := by
  have input := text.mono (List.prefix_append s [0])
  obtain ⟨scratch,scratched,between⟩ := one.computes.scratched extra input
  have ran := two.computes.run outstr between (by rwa [one.length])
  rw [one.length] at ran
  simp only [autoPasses,strlen_holds text plain,ok_bind,int_ofNat short,roomy_cells available roomy,nonNull,scratched,ran]

end Auto

section Substr
variable {m : CptMode} {ckey : Cells UInt8} {table : List UInt8} (key : Holds ckey table) (full : table.length = m.len)
  {instr outstr : Cells UInt8} {s : List UInt8} (text : Holds instr (s ++ [0])) (plain : 0 ∉ s)
  {startpos inlen : Nat} (within : startpos + inlen ≤ s.length) (room : s.length ≤ outstr.length)
include key full text plain within room

theorem substr_overruns : substrCtEncrypt .reliable instr startpos inlen ckey m outstr = .error .outOfBounds := by
  have input := text.mono (List.prefix_append s [0])
  have piece : (slice s ⟨startpos,inlen⟩).length = inlen := slice_length within
  have taken := copy_piece input (List.replicate inlen none) within (by simp)
  have bytes := written_holds (List.replicate inlen none) (slice s ⟨startpos,inlen⟩)
  have overrun := (ctl_encrypt_fills key full).overruns bytes (List.length_replicate (a := (none : Option UInt8)))
  rw [piece] at overrun
  simp only [substrCtEncrypt,strlen_holds text plain,ok_bind,exact_cells,nonNull,copy_values input outstr room,taken]
  exact congrArg (· >>= _) overrun

theorem substr_roomy {machine : Machine} (available : ∀ call, machine.mallocOk call = true) {extra : Nat}
    (roomy : machine.slack = extra + 1) : substrCtEncrypt machine instr startpos inlen ckey m outstr =
      .ok (written outstr (patch (encipher (encryptStep m table)) s s ⟨startpos,inlen⟩)) := by
  have input := text.mono (List.prefix_append s [0])
  have piece : (slice s ⟨startpos,inlen⟩).length = inlen := slice_length within
  have taken := copy_piece input (List.replicate (inlen + 1 + extra) none) within (by simp; omega)
  have bytes := written_holds (List.replicate (inlen + 1 + extra) none) (slice s ⟨startpos,inlen⟩)
  obtain ⟨ctl,left,between⟩ := (ctl_encrypt_computes key full).scratched extra bytes
  obtain ⟨tempout,right,result⟩ := (ctr_encrypt_computes key full).scratched extra between
  rw [feedback_length,piece] at right
  rw [piece] at left
  have placed := copy_written outstr s result startpos (by simpa [piece] using within) room
  simp only [feedbackRight_length,feedback_length,piece] at placed
  simp only [substrCtEncrypt,strlen_holds text plain,ok_bind,roomy_cells available roomy,nonNull,
    copy_values input outstr room,taken]
  refine (congrArg (· >>= _) left).trans ?_
  rw [ok_bind,right,ok_bind,placed]
  rfl

end Substr

theorem auto_run {machine : Machine} (available : ∀ call, machine.mallocOk call = true) {extra : Nat}
    (roomy : machine.slack = extra + 1) {m : CptMode} {table : List UInt8} (full : table.length = m.len)
    (fits : Fits machine m table) {ckey : Cells UInt8} (key : Holds ckey table) {s : List UInt8} (plain : 0 ∉ s)
    (short : s.length < 2^31) {instr : Cells UInt8} (text : Holds instr (s ++ [0])) {outstr : Cells UInt8}
    (room : s.length < outstr.length) (encrypting : Bool) :
    autoOf machine encrypting instr ckey m outstr = .ok (written outstr (fieldMap m table encrypting s ++ [0])) := by
  cases encrypting with
  | true =>
    exact auto_roomy (ctl_encrypt_fills key full) (ctr_encrypt_fills key full) text plain short available roomy room
  | false =>
    exact auto_roomy (ctr_decrypt_fills key full fits) (ctl_decrypt_fills key full fits) text plain short available roomy
      room

theorem spare_serves (call : Nat) : spare.mallocOk call = true := rfl

-- Not one of the three has room for the terminator that the passes store, on any
-- input; with one cell more all three are right.
theorem terminator_overruns {m : CptMode} {table : List UInt8} (full : table.length = m.len) {ckey : Cells UInt8}
    (key : Holds ckey table) {s : List UInt8} (plain : 0 ∉ s) (short : s.length < 2^31) {instr : Cells UInt8}
    (text : Holds instr (s ++ [0])) (outstr : Cells UInt8) :
    (∀ encrypting, autoOf .reliable encrypting instr ckey m outstr = .error .outOfBounds ∧
      (s.length < outstr.length →
        autoOf spare encrypting instr ckey m outstr = .ok (written outstr (fieldMap m table encrypting s ++ [0])))) ∧
    ∀ startpos inlen : Nat, startpos + inlen ≤ s.length → s.length ≤ outstr.length →
      substrCtEncrypt .reliable instr startpos inlen ckey m outstr = .error .outOfBounds ∧
      substrCtEncrypt spare instr startpos inlen ckey m outstr =
        .ok (written outstr (patch (fieldMap m table true) s s ⟨startpos,inlen⟩)) := by
  have roomy : spare.slack = 0 + 1 := rfl
  have fits : Fits spare m table := reliable_fits m table
  refine ⟨fun encrypting => ⟨?_,fun room => auto_run spare_serves roomy full fits key plain short text room encrypting⟩,
    fun startpos inlen within room => ⟨substr_overruns key full text plain within room,
      substr_roomy key full text plain within room spare_serves roomy⟩⟩
  cases encrypting with
  | true => exact auto_overruns (ctl_encrypt_fills key full) text plain short outstr
  | false => exact auto_overruns (ctr_decrypt_fills key full (reliable_fits m table)) text plain short outstr

theorem terminator_overruns_digit :
    autoOf .reliable true [some 0x31,some 0] (tableIT.map some) .cptInt (zeros 2) = .error .outOfBounds ∧
    autoOf spare true [some 0x31,some 0] (tableIT.map some) .cptInt (zeros 2) =
      .ok (written (zeros 2) (fieldMap .cptInt tableIT true [0x31] ++ [0])) := by
  have digit := (terminator_overruns (m := .cptInt) rfl (map_some_holds tableIT) (s := [0x31]) (by decide) (by decide)
    (map_some_holds [0x31,0]) (zeros 2)).1 true
  exact ⟨digit.1,digit.2 (show 1 < (zeros 2).length by decide)⟩

-- The string "1", as text and as a part of itself.
theorem digit_overruns :
    autoCtEncrypt .reliable [some 0x31,some 0] (tableIT.map some) .cptInt (zeros 2) = .error .outOfBounds ∧
    autoCtDecrypt .reliable [some 0x31,some 0] (tableIT.map some) .cptInt (zeros 2) = .error .outOfBounds ∧
    substrCtEncrypt .reliable [some 0x31,some 0] 0 1 (tableIT.map some) .cptInt (zeros 2) = .error .outOfBounds := by
  decide +kernel

end TeradataCpt.ScratchBuffers
