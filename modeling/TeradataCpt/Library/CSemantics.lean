import Mathlib.Algebra.Group.Int.Defs

namespace CSemantics

-- Everything a C program can do wrong with an object that is visible here.
-- `narrowing` is raised only by a machine that audits its conversions.
inductive Fault where
  | outOfBounds
  | uninitialised
  | nullPointer
  | signedOverflow
  | narrowing
  deriving DecidableEq, Repr

-- One allocated array, cell by cell; `none` is a cell nothing was stored in.
abbrev Cells (α : Type u) := List (Option α)

@[simp] theorem ok_bind (value : α) (next : α → Except ε β) :
    (Except.ok value >>= next) = next value := rfl
@[simp] theorem pure_ok (value : α) : (pure value : Except ε α) = .ok value := rfl

theorem ok_of_bind {first : Except ε α} {next : α → Except ε β} {value : β} (ran : (first >>= next) = .ok value) :
    ∃ middle, first = .ok middle ∧ next middle = .ok value := by
  cases first with
  | error failure => cases ran
  | ok middle => exact ⟨middle,rfl,ran⟩

theorem error_of_first {first : Except ε α} {next : α → Except ε β} {failure : ε} (failed : first = .error failure) :
    (first >>= next) = .error failure := by
  rw [failed]
  rfl

theorem ok_of_mapError {result : Except ε α} {change : ε → δ} {value : α} (ran : result.mapError change = .ok value) :
    result = .ok value := by
  cases result with
  | error failure => cases ran
  | ok value' =>
    cases ran
    rfl

def load (object : Cells α) (index : Int) : Except Fault α :=
  if 0 ≤ index then
    match object[index.toNat]? with
    | some (some value) => .ok value
    | some none => .error .uninitialised
    | none => .error .outOfBounds
  else .error .outOfBounds

def store (object : Cells α) (index : Int) (value : α) : Except Fault (Cells α) :=
  if 0 ≤ index ∧ index.toNat < object.length then .ok (object.set index.toNat (some value))
  else .error .outOfBounds

-- memcpy and memmove: `count` cells of `source` from `start` to `target` from
-- `place`. A negative count is a huge size_t, so it leaves every array.
def copy (target : Cells α) (place : Int) (source : Cells α) (start count : Int) :
    Except Fault (Cells α) :=
  if 0 ≤ count ∧ 0 ≤ start ∧ start + count ≤ source.length ∧
      0 ≤ place ∧ place + count ≤ target.length then
    .ok (target.take place.toNat ++ (source.drop start.toNat).take count.toNat ++
      target.drop (place.toNat + count.toNat))
  else .error .outOfBounds

-- `&object[index]`; one past the end is still an address.
def address (object : Cells α) (index : Int) : Except Fault (Cells α) :=
  if 0 ≤ index ∧ index.toNat ≤ object.length then .ok (object.drop index.toNat)
  else .error .outOfBounds

def loadAll (object : Cells α) : Nat → Except Fault (List α)
  | 0 => .ok []
  | count+1 => do
    let values ← loadAll object count
    let value ← load object count
    return values ++ [value]

theorem loadAll_length {object : Cells α} {count : Nat} {values : List α} (loaded : loadAll object count = .ok values) :
    values.length = count := by
  induction count generalizing values with
  | zero =>
    cases loaded
    rfl
  | succ count ih =>
    obtain ⟨before,first,rest⟩ := ok_of_bind loaded
    obtain ⟨value,_,done⟩ := ok_of_bind rest
    cases done
    rw [List.length_append,ih first,List.length_singleton]

-- What the C standard leaves to the machine. `mallocOk n` answers the n-th malloc
-- from here on, `slack` is what malloc hands out beyond the request, and `exact`
-- turns an assignment to `unsigned char` that loses high bits into a fault.
structure Machine where
  mallocOk : Nat → Bool
  slack : Nat
  exact : Bool

def Machine.reliable : Machine := ⟨fun _ => true,0,false⟩

theorem reliable_serves (call : Nat) : Machine.reliable.mallocOk call = true := rfl
def Machine.audited : Machine := ⟨fun _ => true,0,true⟩

-- The machine as a function finds it that is entered after `calls` mallocs of others.
def Machine.after (machine : Machine) (calls : Nat) : Machine :=
  {machine with mallocOk := fun call => machine.mallocOk (calls + call)}

-- A negative size converts to a size_t that no machine can serve.
def malloc (machine : Machine) (call : Nat) (size : Int) : Option (Cells α) :=
  if machine.mallocOk call ∧ 0 ≤ size then
    some (List.replicate (size.toNat + machine.slack) none)
  else none

@[simp] theorem malloc_after (machine : Machine) (calls call : Nat) (size : Int) :
    (malloc (machine.after calls) call size : Option (Cells α)) = malloc machine (calls + call) size := rfl

def nonNull : Option α → Except Fault α
  | some object => .ok object
  | none => .error .nullPointer

def narrow (machine : Machine) (value : Int) : Except Fault UInt8 :=
  if machine.exact ∧ ¬ (0 ≤ value ∧ value ≤ 255) then .error .narrowing
  else .ok (UInt8.ofInt value)

def subInt (left right : Int) : Except Fault Int :=
  if -2^31 ≤ left - right ∧ left - right < 2^31 then .ok (left - right)
  else .error .signedOverflow

-- The objects a caller passes by address, and the addresses (`none` is NULL).
abbrev Memory := Nat → Cells UInt8
abbrev Pointer := Option Nat

def Holds (object : Cells α) (values : List α) : Prop :=
  ∀ i, i < values.length → object[i]? = some values[i]?

def written (object : Cells α) (values : List α) : Cells α :=
  values.map some ++ object.drop values.length

def overlay (object : Cells α) (values : List α) (low high : Nat) : Cells α :=
  object.mapIdx fun i cell => if low ≤ i ∧ i < high then values[i]? else cell

theorem load_at (object : Cells α) {i : Nat} {value : α} (cell : object[i]? = some (some value)) :
    load object i = .ok value := by simp [load,cell]

theorem store_at (object : Cells α) {i : Nat} (value : α) (bound : i < object.length) :
    store object i value = .ok (object.set i (some value)) := by simp [store,bound]

theorem store_length {object after : Cells α} {index : Int} {value : α} (stored : store object index value = .ok after) :
    after.length = object.length := by
  unfold store at stored
  split at stored
  · cases stored
    exact List.length_set
  · cases stored

theorem copy_length {target source after : Cells α} {place start count : Int}
    (copied : copy target place source start count = .ok after) : after.length = target.length := by
  unfold copy at copied
  split at copied
  · cases copied
    simp only [List.length_append,List.length_take,List.length_drop]
    omega
  · cases copied

theorem Holds.load {object : Cells α} {values : List α} (holds : Holds object values)
    {i : Nat} (bound : i < values.length) : load object i = .ok values[i] :=
  load_at object (by rw [holds i bound,List.getElem?_eq_getElem bound])

theorem Holds.length_le {object : Cells α} {values : List α} (holds : Holds object values) :
    values.length ≤ object.length := by
  rcases Nat.eq_zero_or_pos values.length with empty | some
  · omega
  · have last := holds (values.length-1) (by omega)
    have := (List.getElem?_eq_some_iff.mp last).1
    omega

theorem Holds.drop {object : Cells α} {values : List α} (holds : Holds object values) (skip count : Nat) :
    Holds (object.drop skip) ((values.drop skip).take count) := by
  intro i bound
  simp only [List.length_take,List.length_drop] at bound
  rw [List.getElem?_drop,holds (skip+i) (by omega),List.getElem?_take_of_lt (by omega),List.getElem?_drop]

theorem Holds.mono {object : Cells α} {values fewer : List α} (holds : Holds object values)
    (initial : fewer <+: values) : Holds object fewer := by
  intro i bound
  obtain ⟨rest,rfl⟩ := initial
  rw [holds i (by simp; omega),List.getElem?_append_left bound]

theorem Holds.loadAll {object : Cells α} {values : List α} (holds : Holds object values) :
    loadAll object values.length = .ok values := by
  have upTo : ∀ n ≤ values.length, CSemantics.loadAll object n = .ok (values.take n) := by
    intro n
    induction n with
    | zero => intro; rfl
    | succ n ih =>
      intro bound
      simp only [CSemantics.loadAll,ih (by omega),ok_bind,holds.load (i := n) (by omega)]
      exact congrArg Except.ok (List.take_append_getElem (by omega))
  simpa using upTo values.length (Nat.le_refl _)

theorem written_holds (object : Cells α) (values : List α) : Holds (written object values) values := by
  intro i bound
  rw [written,List.getElem?_append_left (by simpa using bound),List.getElem?_map,
    List.getElem?_eq_getElem bound]
  rfl

@[simp] theorem map_some_holds (values : List α) : Holds (values.map some) values := by
  intro i bound
  rw [List.getElem?_map,List.getElem?_eq_getElem bound]
  rfl

theorem written_length (object : Cells α) (values : List α) (fits : values.length ≤ object.length) :
    (written object values).length = object.length := by
  simp only [written,List.length_append,List.length_map,List.length_drop]
  omega

theorem overlay_none (object : Cells α) (values : List α) (i : Nat) : overlay object values i i = object := by
  apply List.ext_getElem?
  intro j
  have empty : ¬ (i ≤ j ∧ j < i) := by omega
  simp [overlay,empty]

theorem overlay_all (object : Cells α) (values : List α) (fits : values.length ≤ object.length) :
    overlay object values 0 values.length = written object values := by
  apply List.ext_getElem?
  intro j
  rw [overlay,List.getElem?_mapIdx,written,List.getElem?_append]
  by_cases inside : j < values.length
  · rw [List.getElem?_eq_getElem (Nat.lt_of_lt_of_le inside fits)]
    simp [inside]
  · have shift : values.length + (j - values.length) = j := by omega
    simp [inside,shift]

@[simp] theorem overlay_length (object : Cells α) (values : List α) (low high : Nat) :
    (overlay object values low high).length = object.length := by simp [overlay]

theorem overlay_grow (object : Cells α) (values : List α) {low high low' high' i : Nat}
    (bound : i < values.length) (fits : values.length ≤ object.length)
    (range : ∀ j, (low' ≤ j ∧ j < high') ↔ (low ≤ j ∧ j < high) ∨ j = i) :
    store (overlay object values low high) i values[i] = .ok (overlay object values low' high') := by
  rw [store_at _ _ (by simp; omega)]
  congr 1
  apply List.ext_getElem?
  intro j
  rw [List.getElem?_set]
  by_cases here : i = j
  · subst j
    have inside : low' ≤ i ∧ i < high' := (range i).mpr (.inr rfl)
    simp [overlay,inside,List.getElem?_eq_getElem bound,Nat.lt_of_lt_of_le bound fits]
  · have same : (low' ≤ j ∧ j < high') ↔ (low ≤ j ∧ j < high) := by
      rw [range j]; constructor
      · rintro (inside | equal)
        · exact inside
        · exact absurd equal.symm here
      · exact .inl
    simp [overlay,here,same]

theorem overlay_load (object : Cells α) (values : List α) {low high i : Nat}
    (bound : i < values.length) (fits : values.length ≤ object.length) (inside : low ≤ i ∧ i < high) :
    load (overlay object values low high) i = .ok values[i] := by
  apply load_at
  rw [overlay,List.getElem?_mapIdx,List.getElem?_eq_getElem (Nat.lt_of_lt_of_le bound fits)]
  simp [inside,List.getElem?_eq_getElem bound]

theorem Holds.take {object : Cells α} {values : List α} (holds : Holds object values) :
    object.take values.length = values.map some := by
  apply List.ext_getElem?
  intro i
  rw [List.getElem?_take,List.getElem?_map]
  split
  · rename_i bound
    rw [holds i bound,List.getElem?_eq_getElem bound]
    rfl
  · rename_i past
    rw [List.getElem?_eq_none (by omega)]
    rfl

theorem copy_piece {source : Cells α} {values : List α} (holds : Holds source values) (target : Cells α)
    {start count : Nat} (within : start + count ≤ values.length) (room : count ≤ target.length) :
    copy target 0 source start count = .ok (written target ((values.drop start).take count)) := by
  have long := holds.length_le
  have piece := (holds.drop start count).take
  have length : ((values.drop start).take count).length = count := by simp; omega
  rw [length] at piece
  unfold copy
  rw [if_pos (by omega),Int.toNat_natCast,Int.toNat_natCast,piece,written,length]
  simp

theorem copy_values {source : Cells α} {values : List α} (holds : Holds source values) (target : Cells α)
    (room : values.length ≤ target.length) : copy target 0 source 0 values.length = .ok (written target values) := by
  have copied := copy_piece holds target (Nat.le_of_eq (Nat.zero_add _)) room
  rwa [List.drop_zero,List.take_length] at copied

theorem copy_written (object : Cells α) (values : List α) {source : Cells α} {piece : List α}
    (holds : Holds source piece) (start : Nat)
    (within : start + piece.length ≤ values.length) (fits : values.length ≤ object.length) :
    copy (written object values) start source 0 piece.length =
      .ok (written object (values.take start ++ piece ++ values.drop (start + piece.length))) := by
  have room := holds.length_le
  have size := written_length object values fits
  unfold copy
  rw [if_pos (by omega)]
  have first := holds.take
  have total : (values.take start ++ piece ++ values.drop (start + piece.length)).length = values.length := by
    simp
    omega
  simp only [Int.toNat_natCast,Int.toNat_zero,List.drop_zero,first]
  rw [written,written,total,List.take_append_of_le_length (by simp; omega),
    List.drop_append_of_le_length (by simp; omega)]
  simp

theorem malloc_served (machine : Machine) {call : Nat} (served : machine.mallocOk call = true) (size : Nat) :
    malloc machine call (size : Int) = some (List.replicate (size + machine.slack) (none : Option α)) := by
  simp [malloc,served]

theorem malloc_refused (machine : Machine) {call : Nat} (refused : machine.mallocOk call = false) (size : Int) :
    (malloc machine call size : Option (Cells α)) = none := by simp [malloc,refused]

theorem malloc_cells (machine : Machine) (available : ∀ call, machine.mallocOk call = true)
    (call : Nat) (size : Nat) :
    malloc machine call (size : Int) = some (List.replicate (size + machine.slack) (none : Option α)) :=
  malloc_served machine (available call) size

theorem narrow_ok (machine : Machine) (value : Int)
    (fits : machine.exact = true → 0 ≤ value ∧ value ≤ 255) :
    narrow machine value = .ok (UInt8.ofInt value) := by
  unfold narrow
  split
  · rename_i bad
    exact absurd (fits bad.1) bad.2
  · rfl

theorem narrow_nat (machine : Machine) {value : Nat} (fits : value ≤ 255) :
    narrow machine value = .ok (UInt8.ofNat value) := by
  rw [narrow_ok machine _ fun _ => by omega]
  congr 1
  simp only [UInt8.ofInt,← UInt8.toNat_inj,UInt8.toNat_ofNat']
  omega

theorem ofInt_byte (byte : UInt8) : UInt8.ofInt byte.toNat = byte := by
  have bound := byte.toNat_lt
  simp only [UInt8.ofInt,← UInt8.toNat_inj,UInt8.toNat_ofNat']
  omega

theorem written_store (object : Cells α) (values : List α) (value : α)
    (room : values.length < object.length) :
    store (written object values) values.length value = .ok (written object (values ++ [value])) := by
  rw [store_at _ _ (by rw [written_length _ _ (Nat.le_of_lt room)]; exact room)]
  congr 1
  simp only [written,List.map_append,List.length_append,List.map_cons,List.map_nil,List.length_cons,
    List.length_nil,List.append_assoc,Nat.zero_add]
  rw [List.set_append_right _ _ (by simp),List.length_map,Nat.sub_self,List.drop_eq_getElem_cons room]
  rfl

theorem copy_erase {object : Cells α} {values : List α} (holds : Holds object values)
    {i : Nat} (bound : i < values.length) :
    ∃ shifted, copy object i object (i+1) ((values.length : Int) - 1 - i) = .ok shifted ∧
      Holds shifted (values.eraseIdx i) ∧ shifted.length = object.length := by
  have fits := holds.length_le
  have count : ((values.length : Int) - 1 - i).toNat = values.length - 1 - i := by omega
  have start : ((i : Int) + 1).toNat = i + 1 := by omega
  unfold copy
  rw [if_pos (by omega),count,start,Int.toNat_natCast]
  refine ⟨_,rfl,?_,by simp; omega⟩
  intro j inside
  rw [List.length_eraseIdx_of_lt bound] at inside
  rw [List.getElem?_eraseIdx,List.append_assoc,List.getElem?_append]
  by_cases before : j < i
  · rw [if_pos (by simp; omega),if_pos before,List.getElem?_take_of_lt before,holds j (by omega)]
  · have length : (object.take i).length = i := by simp; omega
    have position : i + 1 + (j - i) = j + 1 := by omega
    rw [if_neg (by omega),if_neg before,length,List.getElem?_append_left (by simp; omega),
      List.getElem?_take_of_lt (by omega),List.getElem?_drop,position,holds (j+1) (by omega)]

-- `for (i = 0; i < count; i++)` and `for (i = count - 1; i >= 0; i--)`.
def forUp : Nat → (Nat → σ → Except ε σ) → σ → Except ε σ
  | 0,_,state => .ok state
  | count+1,body,state => do body count (← forUp count body state)

def forDown : Nat → (Nat → σ → Except ε σ) → σ → Except ε σ
  | 0,_,state => .ok state
  | count+1,body,state => do forDown count body (← body count state)

theorem forUp_inv {body : Nat → σ → Except ε σ} {count : Nat} (invariant : Nat → σ → Prop) {state : σ}
    (start : invariant 0 state)
    (step : ∀ i < count, ∀ before, invariant i before → ∃ after, body i before = .ok after ∧ invariant (i+1) after) :
    ∃ final, forUp count body state = .ok final ∧ invariant count final := by
  induction count with
  | zero => exact ⟨state,rfl,start⟩
  | succ count ih =>
    obtain ⟨middle,ran,valid⟩ := ih fun i bound => step i (by omega)
    obtain ⟨final,last,done⟩ := step count (Nat.lt_succ_self _) middle valid
    exact ⟨final,by simp [forUp,ran,last],done⟩

theorem forUp_keeps {body : Nat → σ → Except ε σ} {count : Nat} (kept : σ → Prop)
    (round : ∀ i before after, body i before = .ok after → kept before → kept after) {state final : σ}
    (start : kept state) (ran : forUp count body state = .ok final) : kept final := by
  induction count generalizing final with
  | zero =>
    cases ran
    exact start
  | succ count ih =>
    obtain ⟨middle,before,last⟩ := ok_of_bind ran
    exact round count middle final last (ih before)

theorem forDown_keeps {body : Nat → σ → Except ε σ} {count : Nat} (kept : σ → Prop)
    (round : ∀ i before after, body i before = .ok after → kept before → kept after) {state final : σ}
    (start : kept state) (ran : forDown count body state = .ok final) : kept final := by
  induction count generalizing state with
  | zero =>
    cases ran
    exact start
  | succ count ih =>
    obtain ⟨middle,first,rest⟩ := ok_of_bind ran
    exact ih (round count state middle first start) rest

theorem forUp_eq (body : Nat → σ → Except ε σ) {count : Nat} (state : Nat → σ)
    (step : ∀ i < count, body i (state i) = .ok (state (i+1))) :
    forUp count body (state 0) = .ok (state count) := by
  obtain ⟨final,ran,rfl⟩ : ∃ final, forUp count body (state 0) = .ok final ∧ final = state count :=
    forUp_inv (fun i s => s = state i) rfl
      fun i bound before equal => ⟨state (i+1),by rw [equal,step i bound],rfl⟩
  exact ran

theorem forDown_eq (body : Nat → σ → Except ε σ) {count : Nat} (state : Nat → σ)
    (step : ∀ i < count, body i (state (i+1)) = .ok (state i)) :
    forDown count body (state count) = .ok (state 0) := by
  induction count with
  | zero => rfl
  | succ count ih =>
    simp only [forDown,step count (Nat.lt_succ_self _),ok_bind]
    exact ih fun i bound => step i (by omega)

-- Loops that store one value a round fill the object from the left or the right.
theorem forUp_fill {object : Cells α} (values : List α) (body : Nat → Cells α → Except Fault (Cells α))
    (fits : values.length ≤ object.length)
    (stores : ∀ (i : Nat) (bound : i < values.length),
      body i (overlay object values 0 i) = store (overlay object values 0 i) i values[i]) :
    forUp values.length body object = .ok (written object values) := by
  have filled := forUp_eq body (overlay object values 0) fun i bound => by
    rw [stores i bound]
    exact overlay_grow object values bound fits (by omega)
  rwa [overlay_none,overlay_all object values fits] at filled

theorem forDown_fill {object : Cells α} (values : List α) (body : Nat → Cells α → Except Fault (Cells α))
    (fits : values.length ≤ object.length)
    (stores : ∀ (i : Nat) (bound : i < values.length),
      body i (overlay object values (i+1) values.length) =
        store (overlay object values (i+1) values.length) i values[i]) :
    forDown values.length body object = .ok (written object values) := by
  have filled := forDown_eq body (overlay object values · values.length) fun i bound => by
    rw [stores i bound]
    exact overlay_grow object values bound fits (by omega)
  rwa [overlay_none,overlay_all object values fits] at filled

-- A loop body that may also return from the function it stands in.
inductive Outcome (ρ σ : Type _) where
  | returned (result : ρ)
  | next (state : σ)

def scan : Nat → (Nat → σ → Except ε (Outcome ρ σ)) → σ → Except ε (Outcome ρ σ)
  | 0,_,state => .ok (.next state)
  | count+1,body,state => do
    match ← scan count body state with
    | .returned result => return .returned result
    | .next state => body count state

theorem scan_next {body : Nat → σ → Except ε (Outcome ρ σ)} {count : Nat} (state : Nat → σ)
    (step : ∀ i < count, body i (state i) = .ok (.next (state (i+1)))) :
    scan count body (state 0) = .ok (.next (state count)) := by
  induction count with
  | zero => rfl
  | succ count ih =>
    simp only [scan,ih fun i bound => step i (by omega),ok_bind,step count (Nat.lt_succ_self _)]

theorem scan_returned {body : Nat → σ → Except ε (Outcome ρ σ)} {count : Nat} (state : Nat → σ) (stop : Nat)
    (within : stop < count) (step : ∀ i < stop, body i (state i) = .ok (.next (state (i+1))))
    {result : ρ} (leaves : body stop (state stop) = .ok (.returned result)) :
    scan count body (state 0) = .ok (.returned result) := by
  induction count with
  | zero => omega
  | succ count ih =>
    rcases Nat.lt_succ_iff_lt_or_eq.mp within with earlier | equal
    · simp only [scan,ih earlier,ok_bind,pure_ok]
    · subst equal
      simp only [scan,scan_next state step,ok_bind,leaves]

theorem scan_left {body : Nat → σ → Except ε (Outcome ρ σ)} {early count : Nat} (order : early ≤ count) {state : σ}
    {result : ρ} (left : scan early body state = .ok (.returned result)) :
    scan count body state = .ok (.returned result) := by
  induction order with
  | refl => exact left
  | step order ih => simp only [scan,ih,ok_bind,pure_ok]

theorem scan_failed {body : Nat → σ → Except ε (Outcome ρ σ)} {early count : Nat} (order : early ≤ count) {state : σ}
    {failure : ε} (failed : scan early body state = .error failure) : scan count body state = .error failure := by
  induction order with
  | refl => exact failed
  | step _ ih =>
    rw [scan,ih]
    rfl

theorem scan_inv {body : Nat → σ → Except ε (Outcome ρ σ)} {count : Nat} (invariant : Nat → σ → Prop) {state : σ}
    (start : invariant 0 state) (step : ∀ i < count, ∀ before, invariant i before →
      ∃ after, body i before = .ok (.next after) ∧ invariant (i+1) after) :
    ∃ final, scan count body state = .ok (.next final) ∧ invariant count final := by
  induction count with
  | zero => exact ⟨state,rfl,start⟩
  | succ count ih =>
    obtain ⟨middle,ran,valid⟩ := ih fun i bound => step i (by omega)
    obtain ⟨final,last,done⟩ := step count (Nat.lt_succ_self _) middle valid
    exact ⟨final,by simp [scan,ran,last],done⟩

theorem scan_total {body : Nat → σ → Except ε (Outcome ρ σ)} {count : Nat}
    (total : ∀ i < count, ∀ state, ∃ flow, body i state = .ok flow) (state : σ) :
    ∃ flow, scan count body state = .ok flow := by
  induction count with
  | zero => exact ⟨_,rfl⟩
  | succ count ih =>
    obtain ⟨flow,ran⟩ := ih fun i bound => total i (by omega)
    cases flow with
    | returned result => exact ⟨.returned result,by simp [scan,ran]⟩
    | next middle =>
      obtain ⟨last,stepped⟩ := total count (Nat.lt_succ_self _) middle
      exact ⟨last,by simp [scan,ran,stepped]⟩

theorem scan_list {body : Nat → Unit → Except ε (Outcome ρ Unit)} (good : α → Prop) [DecidablePred good] (result : ρ)
    (xs : List α) (checks : ∀ (i : Nat) (bound : i < xs.length),
      body i () = .ok (if good xs[i] then .next () else .returned result)) :
    scan xs.length body () = .ok (if ∀ a ∈ xs, good a then .next () else .returned result) := by
  cases found : xs.find? fun a => !decide (good a) with
  | none =>
    have all : ∀ a ∈ xs, good a := by simpa using found
    rw [if_pos all]
    refine scan_next (fun _ => ()) fun i bound => ?_
    rw [checks i bound,if_pos (all _ (List.getElem_mem bound))]
  | some bad =>
    obtain ⟨fails,fine,rest,rfl,before⟩ := List.find?_eq_some_iff_append.mp found
    simp only [Bool.not_eq_true',decide_eq_false_iff_not,Bool.not_not,decide_eq_true_eq] at fails before
    rw [if_neg fun all => fails (all bad (by simp))]
    refine scan_returned (fun _ => ()) fine.length (by simp) (fun i early => ?_) ?_
    · rw [checks i (by simp; omega),List.getElem_append_left early,if_pos (before _ (List.getElem_mem early))]
    · rw [checks fine.length (by simp),List.getElem_append_right (Nat.le_refl _)]
      simp [fails]

end CSemantics
