import TeradataCpt.Library.ChainedPasses
import TeradataCpt.Cpt

namespace TeradataCpt.Passes
open CSemantics ChainedPasses Cpt

theorem len_pos (m : CptMode) : 0 < m.len := by cases m <;> decide

theorem alphabet_byte (m : CptMode) : m.offset + m.len ≤ 256 := by cases m <;> decide

theorem outside_false {m : CptMode} {byte : UInt8} :
    outside m byte = false ↔ m.offset ≤ byte.toNat ∧ byte.toNat < m.offset + m.len := by
  have := len_pos m
  simp only [outside,Bool.or_eq_false_iff,decide_eq_false_iff_not]
  omega

def entry (table : List UInt8) (i : Nat) : UInt8 := table.getD i 0

def encryptStep (m : CptMode) (table : List UInt8) (prev : Option UInt8) (byte : UInt8) : UInt8 :=
  if outside m byte then byte
  else match prev with
    | none => entry table (byte.toNat - m.offset)
    | some near =>
      if outside m near then entry table (byte.toNat - m.offset)
      else entry table (((near.toNat - m.offset) + (byte.toNat - m.offset)) % m.len)

-- The int assigned to outstr[i] where the neighbour is in the alphabet.
def difference (m : CptMode) (value near : UInt8) : Int :=
  if value.toNat ≥ near.toNat then value.toNat - near.toNat + m.offset
  else value.toNat - near.toNat + m.offset + m.len

def decryptStep (m : CptMode) (table : List UInt8) (prev : Option UInt8) (byte : UInt8) : UInt8 :=
  if outside m byte then byte
  else match prev with
    | none => entry table (byte.toNat - m.offset)
    | some near =>
      if outside m near then entry table (byte.toNat - m.offset)
      else UInt8.ofInt (difference m (entry table (byte.toNat - m.offset)) near)

-- An audited machine runs the decryption passes only on tables whose differences
-- are bytes.
def Fits (machine : Machine) (m : CptMode) (table : List UInt8) : Prop :=
  machine.exact = true → ∀ i < m.len, ∀ near, outside m near = false →
    0 ≤ difference m (entry table i) near ∧ difference m (entry table i) near ≤ 255

theorem load_entry {ckey : Cells UInt8} {table : List UInt8} (key : Holds ckey table) {i : Nat}
    (bound : i < table.length) : load ckey i = .ok (entry table i) := by
  rw [key.load bound]
  simp [entry,bound]

theorem load_inside {ckey : Cells UInt8} {table : List UInt8} {m : CptMode} (key : Holds ckey table)
    (full : table.length = m.len) {byte : UInt8} (inside : outside m byte = false) :
    load ckey (byte.toNat - m.offset) = .ok (entry table (byte.toNat - m.offset)) := by
  obtain ⟨low,high⟩ := outside_false.mp inside
  rw [← Int.ofNat_sub low]
  exact load_entry key (by omega)

-- The neighbour a loop finds: none at its edge, otherwise the byte that it loads.
structure Sees (object : Cells UInt8) (edge side : Int) (i : Nat) (prev : Option UInt8) : Prop where
  edge : (i : Int) = edge ↔ prev = none
  near : ∀ byte, prev = some byte → load object (i + side) = .ok byte

section Steps
variable {m : CptMode} {machine : Machine} {instr ckey outstr : Cells UInt8} {x table : List UInt8}
  {edge side : Int} {i : Nat} {prev : Option UInt8}

theorem encryptAt_store (input : Holds instr x) (key : Holds ckey table) (full : table.length = m.len)
    (bound : i < x.length) (sees : Sees outstr edge side i prev) :
    encryptAt instr ckey m edge side i outstr = store outstr i (encryptStep m table prev x[i]) := by
  simp only [encryptAt,input.load bound,ok_bind,encryptStep]
  cases out : outside m x[i] with
  | true => simp
  | false =>
    obtain ⟨low,high⟩ := outside_false.mp out
    have alone := load_inside key full out
    cases prev with
    | none => simp [sees.edge.mpr rfl,alone]
    | some near =>
      have inner : ¬ (i : Int) = edge := by simp [sees.edge]
      simp only [inner,sees.near near rfl,ok_bind,Bool.false_eq_true,if_false]
      cases away : outside m near with
      | true => simp [alone]
      | false =>
        obtain ⟨lowNear,highNear⟩ := outside_false.mp away
        have sum : (near.toNat : Int) + x[i].toNat - m.offset*2 =
            ((near.toNat - m.offset) + (x[i].toNat - m.offset) : Nat) := by omega
        have wrapped := Nat.mod_lt ((near.toNat - m.offset) + (x[i].toNat - m.offset)) (len_pos m)
        rw [sum,← Int.ofNat_tmod,load_entry key (by omega)]
        simp

theorem decryptAt_store (input : Holds instr x) (key : Holds ckey table) (full : table.length = m.len)
    (fits : Fits machine m table) (bound : i < x.length) (sees : Sees instr edge side i prev) :
    decryptAt machine instr ckey m edge side i outstr = store outstr i (decryptStep m table prev x[i]) := by
  simp only [decryptAt,input.load bound,ok_bind,decryptStep]
  cases out : outside m x[i] with
  | true => simp
  | false =>
    obtain ⟨low,high⟩ := outside_false.mp out
    have alone := load_inside key full out
    cases prev with
    | none => simp [sees.edge.mpr rfl,alone]
    | some near =>
      have inner : ¬ (i : Int) = edge := by simp [sees.edge]
      simp only [inner,sees.near near rfl,ok_bind,Bool.false_eq_true,if_false]
      cases away : outside m near with
      | true => simp [alone]
      | false =>
        have exactly := narrow_ok machine (difference m (entry table (x[i].toNat - m.offset)) near)
          fun audited => fits audited _ (by omega) near away
        simp only [alone,ok_bind,Bool.false_eq_true,if_false]
        by_cases order : (entry table (x[i].toNat - m.offset)).toNat ≥ near.toNat
        · simp only [difference,if_pos order] at exactly ⊢
          simp [exactly]
        · simp only [difference,if_neg order] at exactly ⊢
          simp [exactly]

end Steps

theorem sees_left {object : Cells UInt8} {values : List UInt8} {i : Nat} (bound : i ≤ values.length)
    (loads : ∀ j (before : j < i), load object j = .ok values[j]) :
    Sees object 0 (-1) i (if i = 0 then none else values[i-1]?) := by
  cases i with
  | zero => exact ⟨by simp,by simp⟩
  | succ i =>
    rw [if_neg (Nat.succ_ne_zero i),Nat.add_sub_cancel,List.getElem?_eq_getElem (by omega)]
    refine ⟨by simp; omega,?_⟩
    intro byte found
    cases found
    have index : ((i+1 : Nat) : Int) + -1 = i := by omega
    rw [index]
    exact loads i (Nat.lt_succ_self _)

theorem sees_right {object : Cells UInt8} {values : List UInt8} {i : Nat} (bound : i < values.length)
    (loads : ∀ j (within : j < values.length), i < j → load object j = .ok values[j]) :
    Sees object (values.length - 1) 1 i values[i+1]? := by
  refine ⟨?_,?_⟩
  · rw [List.getElem?_eq_none_iff]
    omega
  · intro byte found
    obtain ⟨within,rfl⟩ := List.getElem?_eq_some_iff.mp found
    exact loads (i+1) within (Nat.lt_succ_self _)

theorem at_index {values x : List UInt8} {step : UInt8 → UInt8} {i : Nat}
    (value : values[i]? = x[i]?.map step) (bound : i < values.length) (inside : i < x.length) :
    step x[i] = values[i] := by
  rw [List.getElem?_eq_getElem bound,List.getElem?_eq_getElem inside] at value
  exact (Option.some.inj value).symm

-- A pass that computes `f` on whatever bytes its input object begins with, and
-- behind the result stores the terminator.
structure Computes (pass : Pass) (ckey : Cells UInt8) (m : CptMode) (f : List UInt8 → List UInt8) : Prop where
  length : ∀ x, (f x).length = x.length
  run : ∀ {instr : Cells UInt8} {x : List UInt8} (outstr : Cells UInt8), Holds instr x →
    x.length < outstr.length → pass instr x.length ckey m outstr = .ok (written outstr (f x ++ [0]))

theorem Computes.loaded {pass : Pass} {ckey : Cells UInt8} {m : CptMode} {f : List UInt8 → List UInt8}
    (computes : Computes pass ckey m f) {instr : Cells UInt8} {x : List UInt8} (outstr : Cells UInt8)
    (input : Holds instr x) (room : x.length < outstr.length) :
    (pass instr x.length ckey m outstr >>= fun outstr => loadAll outstr x.length) = .ok (f x) := by
  have bytes : Holds (written outstr (f x ++ [0])) (f x) := (written_holds _ _).mono (List.prefix_append _ _)
  have values := bytes.loadAll
  rw [computes.length] at values
  rw [computes.run outstr input room,ok_bind,values]

-- The loop of such a pass needs room for the result only; the terminator behind it
-- is one store more.
structure Fills (pass : Pass) (ckey : Cells UInt8) (m : CptMode) (f : List UInt8 → List UInt8) : Prop where
  length : ∀ x, (f x).length = x.length
  run : ∀ {instr : Cells UInt8} {x : List UInt8} (outstr : Cells UInt8), Holds instr x →
    x.length ≤ outstr.length → pass instr x.length ckey m outstr = store (written outstr (f x)) x.length 0

section Terminator
variable {pass : Pass} {ckey : Cells UInt8} {m : CptMode} {f : List UInt8 → List UInt8} (fills : Fills pass ckey m f)
include fills

theorem Fills.computes : Computes pass ckey m f := by
  refine ⟨fills.length,fun {instr x} outstr input room => ?_⟩
  have last := written_store outstr (f x) 0 (by rwa [fills.length])
  rw [fills.length] at last
  rw [fills.run outstr input (Nat.le_of_lt room),last]

theorem Fills.overruns {instr outstr : Cells UInt8} {x : List UInt8} (input : Holds instr x)
    (tight : outstr.length = x.length) : pass instr x.length ckey m outstr = .error .outOfBounds := by
  have size := written_length outstr (f x) (by rw [fills.length]; omega)
  rw [fills.run outstr input (Nat.le_of_eq tight.symm),store,if_neg (by omega)]

end Terminator

section Filled
variable {outstr : Cells UInt8} {values x : List UInt8} {body : Nat → Cells UInt8 → Except Fault (Cells UInt8)}
  (length : values.length = x.length) (room : x.length ≤ outstr.length)
include length room

theorem up_filled (stores : ∀ (i : Nat) (bound : i < values.length),
      body i (overlay outstr values 0 i) = store (overlay outstr values 0 i) i values[i]) :
    (do let outstr ← forUp x.length body outstr; store outstr x.length 0) = store (written outstr values) x.length 0 := by
  have loop := forUp_fill values body (by omega) stores
  rw [length] at loop
  rw [loop,ok_bind]

theorem down_filled (stores : ∀ (i : Nat) (bound : i < values.length),
      body i (overlay outstr values (i+1) values.length) =
        store (overlay outstr values (i+1) values.length) i values[i]) :
    (do let outstr ← forDown x.length body outstr; store outstr x.length 0) = store (written outstr values) x.length 0 := by
  have loop := forDown_fill values body (by omega) stores
  rw [length] at loop
  rw [loop,ok_bind]

end Filled

section Passes
variable {m : CptMode} {machine : Machine} {ckey : Cells UInt8} {table : List UInt8}

theorem ctl_encrypt_fills (key : Holds ckey table) (full : table.length = m.len) :
    Fills ctlEncrypt ckey m (feedback (encryptStep m table) none) := by
  refine ⟨feedback_length _ _,?_⟩
  intro instr x outstr input room
  have length := feedback_length (encryptStep m table) none x
  have value := feedback_at (encryptStep m table) none x
  generalize feedback (encryptStep m table) none x = values at length value
  apply up_filled length room
  intro i bound
  have sees := sees_left (Nat.le_of_lt bound) fun j before =>
    overlay_load outstr values (by omega) (by omega) ⟨Nat.zero_le j,before⟩
  rw [encryptAt_store input key full (by omega) sees,at_index (value i) bound]

theorem ctr_encrypt_fills (key : Holds ckey table) (full : table.length = m.len) :
    Fills ctrEncrypt ckey m (feedbackRight (encryptStep m table)) := by
  refine ⟨feedbackRight_length _,?_⟩
  intro instr x outstr input room
  have length := feedbackRight_length (encryptStep m table) x
  have value := feedbackRight_at (encryptStep m table) x
  generalize feedbackRight (encryptStep m table) x = values at length value
  apply down_filled length room
  intro i bound
  have sees : Sees (overlay outstr values (i+1) values.length) (x.length - 1) 1 i values[i+1]? := by
    rw [← length]
    exact sees_right bound fun j within after => overlay_load outstr values within (by omega) ⟨after,within⟩
  rw [encryptAt_store input key full (by omega) sees,at_index (value i) bound]

theorem ctl_decrypt_fills (key : Holds ckey table) (full : table.length = m.len)
    (fits : Fits machine m table) :
    Fills (ctlDecrypt machine) ckey m (feedforward (decryptStep m table) none) := by
  refine ⟨feedforward_length _ _,?_⟩
  intro instr x outstr input room
  have length := feedforward_length (decryptStep m table) none x
  have value := feedforward_at (decryptStep m table) none x
  generalize feedforward (decryptStep m table) none x = values at length value
  apply up_filled length room
  intro i bound
  have sees := sees_left (i := i) (by omega) fun j _ => input.load (by omega)
  rw [decryptAt_store input key full fits (by omega) sees,at_index (value i) bound]

theorem ctr_decrypt_fills (key : Holds ckey table) (full : table.length = m.len)
    (fits : Fits machine m table) :
    Fills (ctrDecrypt machine) ckey m (feedforwardRight (decryptStep m table)) := by
  refine ⟨feedforwardRight_length _,?_⟩
  intro instr x outstr input room
  have length := feedforwardRight_length (decryptStep m table) x
  have value := feedforwardRight_at (decryptStep m table) x
  generalize feedforwardRight (decryptStep m table) x = values at length value
  apply down_filled length room
  intro i bound
  have sees := sees_right (i := i) (by omega) fun j within _ => input.load within
  rw [decryptAt_store input key full fits (by omega) sees,at_index (value i) bound]

theorem ctl_encrypt_computes (key : Holds ckey table) (full : table.length = m.len) :
    Computes ctlEncrypt ckey m (feedback (encryptStep m table) none) := (ctl_encrypt_fills key full).computes

theorem ctr_encrypt_computes (key : Holds ckey table) (full : table.length = m.len) :
    Computes ctrEncrypt ckey m (feedbackRight (encryptStep m table)) := (ctr_encrypt_fills key full).computes

theorem ctl_decrypt_computes (key : Holds ckey table) (full : table.length = m.len) (fits : Fits machine m table) :
    Computes (ctlDecrypt machine) ckey m (feedforward (decryptStep m table) none) :=
  (ctl_decrypt_fills key full fits).computes

theorem ctr_decrypt_computes (key : Holds ckey table) (full : table.length = m.len) (fits : Fits machine m table) :
    Computes (ctrDecrypt machine) ckey m (feedforwardRight (decryptStep m table)) :=
  (ctr_decrypt_fills key full fits).computes

-- What such a pass leaves in a buffer that malloc handed out for it.
theorem Computes.scratched {pass : Pass} {f : List UInt8 → List UInt8} (computes : Computes pass ckey m f)
    (slack : Nat) {instr : Cells UInt8} {x : List UInt8} (input : Holds instr x) :
    ∃ scratch, pass instr x.length ckey m (List.replicate (x.length + 1 + slack) none) = .ok scratch ∧
      Holds scratch (f x) := by
  refine ⟨_,computes.run _ input (by simp; omega),?_⟩
  exact (written_holds _ _).mono (List.prefix_append _ _)

theorem two_passes_computes {first second : Pass} {f g : List UInt8 → List UInt8}
    (available : ∀ call, machine.mallocOk call = true)
    (one : Computes first ckey m f) (two : Computes second ckey m g) :
    Computes (twoPasses machine first second) ckey m fun x => g (f x) := by
  refine ⟨fun x => by rw [two.length,one.length],?_⟩
  intro instr x outstr input room
  have allocated := malloc_cells machine available 0 (x.length + 1) (α := UInt8)
  obtain ⟨scratch,filled,middle⟩ := one.scratched machine.slack input
  have ran := two.run outstr middle (by rw [one.length]; exact room)
  rw [one.length] at ran
  simp only [twoPasses,← Int.natCast_succ,allocated,nonNull,ok_bind,filled,ran]

theorem ct_encrypt_computes (available : ∀ call, machine.mallocOk call = true)
    (key : Holds ckey table) (full : table.length = m.len) :
    Computes (ctEncrypt machine) ckey m (encipher (encryptStep m table)) := by
  apply two_passes_computes (f := feedback (encryptStep m table) none) (g := feedbackRight (encryptStep m table))
  · exact available
  · exact ctl_encrypt_computes key full
  · exact ctr_encrypt_computes key full

theorem ct_decrypt_computes (available : ∀ call, machine.mallocOk call = true)
    (key : Holds ckey table) (full : table.length = m.len) (fits : Fits machine m table) :
    Computes (ctDecrypt machine) ckey m (decipher (decryptStep m table)) := by
  apply two_passes_computes (f := feedforwardRight (decryptStep m table)) (g := feedforward (decryptStep m table) none)
  · exact available
  · exact ctr_decrypt_computes key full fits
  · exact ctl_decrypt_computes key full fits

end Passes

def passOf (machine : Machine) : Bool → Pass
  | true => ctEncrypt machine
  | false => ctDecrypt machine

def fieldMap (m : CptMode) (table : List UInt8) : Bool → List UInt8 → List UInt8
  | true => encipher (encryptStep m table)
  | false => decipher (decryptStep m table)

theorem pass_computes {machine : Machine} {m : CptMode} {ckey : Cells UInt8} {table : List UInt8}
    (available : ∀ call, machine.mallocOk call = true) (key : Holds ckey table) (full : table.length = m.len)
    (fits : Fits machine m table) (encrypting : Bool) :
    Computes (passOf machine encrypting) ckey m (fieldMap m table encrypting) := by
  cases encrypting with
  | true => exact ct_encrypt_computes available key full
  | false => exact ct_decrypt_computes available key full fits

theorem reliable_fits (m : CptMode) (table : List UInt8) : Fits .reliable m table :=
  fun audited => absurd audited Bool.false_ne_true

end TeradataCpt.Passes
