import Mathlib.Logic.Function.Basic
import TeradataCpt.Library.Interaction

namespace CHeap
open CSemantics Interaction

inductive Kind where
  | char
  | int
  deriving DecidableEq, Repr

@[reducible] def Kind.Cell : Kind → Type
  | .char => UInt8
  | .int => Int

inductive HeapOp where
  | malloc (kind : Kind) (count : Int)
  | free (block : Option Nat)
  | read (kind : Kind) (block : Nat)
  | write (kind : Kind) (block : Nat) (cells : Cells kind.Cell)
  | crash (fault : Fault)

@[reducible] def Answer : HeapOp → Type
  | .malloc _ _ => Option Nat
  | .free _ | .write _ _ _ => Unit
  | .read kind _ => Cells kind.Cell
  | .crash _ => Empty

abbrev HeapProg := Prog HeapOp Answer

def heap (op : HeapOp) : HeapProg (Answer op) := ask op

def compute (result : Except Fault α) : HeapProg α :=
  match result with
  | .ok value => .done value
  | .error fault => .call (.crash fault) nofun

def deref (block : Option Nat) : HeapProg Nat := compute (nonNull block)

structure Heap where
  blocks : Nat → Option ((kind : Kind) × Cells kind.Cell)
  live : Nat
  calls : Nat

def Heap.put (s : Heap) (kind : Kind) (block : Nat) (cells : Cells kind.Cell) : Heap :=
  {s with blocks := Function.update s.blocks block (some ⟨kind,cells⟩)}

def Heap.drop (s : Heap) (block : Nat) : Heap :=
  {s with blocks := Function.update s.blocks block none, live := s.live - 1}

section Blocks
variable (s : Heap) (kind : Kind) {block other : Nat} (cells : Cells kind.Cell)

@[simp] theorem put_live : (s.put kind block cells).live = s.live := rfl
@[simp] theorem put_calls : (s.put kind block cells).calls = s.calls := rfl
@[simp] theorem put_here : (s.put kind block cells).blocks block = some ⟨kind,cells⟩ := Function.update_self _ _ _
@[simp] theorem put_other (apart : other ≠ block) : (s.put kind block cells).blocks other = s.blocks other :=
  Function.update_of_ne apart _ _
@[simp] theorem drop_live : (s.drop block).live = s.live - 1 := rfl
@[simp] theorem drop_calls : (s.drop block).calls = s.calls := rfl
@[simp] theorem drop_here : (s.drop block).blocks block = none := Function.update_self _ _ _
@[simp] theorem drop_other (apart : other ≠ block) : (s.drop block).blocks other = s.blocks other :=
  Function.update_of_ne apart _ _

end Blocks

-- Only what is allocated may be used or freed, a block keeps its size, and there is room
-- for `limit` blocks.
def Owes (limit : Nat) (mayCrash : Fault → Prop) : HeapOp → Heap → Prop
  | .malloc _ _,s => s.live < limit
  | .free none,_ => True
  | .free (some block),s => (s.blocks block).isSome
  | .read kind block,s => ∃ cells, s.blocks block = some ⟨kind,cells⟩
  | .write kind block cells,s => ∃ old : Cells kind.Cell, s.blocks block = some ⟨kind,old⟩ ∧ cells.length = old.length
  | .crash fault,_ => mayCrash fault

def Promises (machine : Machine) : (op : HeapOp) → Heap → Answer op → Heap → Prop
  | .malloc kind count,s,answer,s' =>
    (malloc machine s.calls count = (none : Option (Cells kind.Cell)) ∧ answer = none ∧ s' = {s with calls := s.calls + 1}) ∨
      ∃ block cells, malloc machine s.calls count = some cells ∧ answer = some block ∧ s.blocks block = none ∧
        s' = {s.put kind block cells with live := s.live + 1, calls := s.calls + 1}
  | .free none,s,_,s' => s' = s
  | .free (some block),s,_,s' => s' = s.drop block
  | .read kind block,s,answer,s' => s.blocks block = some ⟨kind,answer⟩ ∧ s' = s
  | .write kind block cells,s,_,s' => s' = s.put kind block cells
  | .crash _,_,_,_ => False

def heapContract (machine : Machine) (limit : Nat) (mayCrash : Fault → Prop) : Contract HeapOp Answer Heap :=
  ⟨Owes limit mayCrash,Promises machine⟩

section Rules
variable {machine : Machine} {limit : Nat} {mayCrash : Fault → Prop} {post : α → Heap → Prop} {s : Heap}

structure Grown (machine : Machine) (kind : Kind) (count : Int) (s : Heap) (block : Nat) (cells : Cells kind.Cell)
    (s' : Heap) : Prop where
  served : malloc machine s.calls count = some cells
  fresh : s.blocks block = none
  here : s'.blocks block = some ⟨kind,cells⟩
  others : ∀ other ≠ block, s'.blocks other = s.blocks other
  live : s'.live = s.live + 1
  calls : s'.calls = s.calls + 1

theorem looser {program : HeapProg α} {many : Nat} {more : Fault → Prop} (order : limit ≤ many)
    (implies : ∀ fault, mayCrash fault → more fault)
    (secures : Secures (heapContract machine limit mayCrash) program post s) :
    Secures (heapContract machine many more) program post s := by
  refine secures.weaken fun op s' owed => ?_
  cases op with
  | malloc kind count => exact Nat.lt_of_lt_of_le owed order
  | free block => cases block <;> exact owed
  | read kind block | write kind block cells => exact owed
  | crash fault => exact implies fault owed

theorem grown_or_refused {kind : Kind} {count : Int} {answer : Option Nat} {s' : Heap}
    (given : Promises machine (.malloc kind count) s answer s') :
    (malloc machine s.calls count = (none : Option (Cells kind.Cell)) ∧ answer = none ∧ s' = {s with calls := s.calls + 1}) ∨
      ∃ block cells, answer = some block ∧ Grown machine kind count s block cells s' := by
  rcases given with refused | ⟨block,cells,served,rfl,fresh,rfl⟩
  · exact .inl refused
  · exact .inr ⟨block,cells,rfl,served,fresh,put_here s kind cells,fun _ apart => put_other s kind cells apart,rfl,rfl⟩

theorem grows {kind : Kind} {count : Int} {answer : Option Nat} {s' : Heap}
    (given : Promises machine (.malloc kind count) s answer s') :
    s'.live ≤ s.live + 1 ∧ s'.calls = s.calls + 1 ∧
      ∀ block value, s.blocks block = some value → s'.blocks block = some value := by
  rcases grown_or_refused given with ⟨_,_,rfl⟩ | ⟨block,cells,_,grown⟩
  · exact ⟨Nat.le_succ _,rfl,fun _ _ here => here⟩
  · refine ⟨Nat.le_of_eq grown.live,grown.calls,fun other value here => ?_⟩
    rw [grown.others other fun same => ?_,here]
    rw [same,grown.fresh] at here
    cases here

theorem mallocs {kind : Kind} {count : Int} {rest : Option Nat → HeapProg α} (space : s.live < limit)
    (next : ∀ answer s', Promises machine (.malloc kind count) s answer s' →
      Secures (heapContract machine limit mayCrash) (rest answer) post s') :
    Secures (heapContract machine limit mayCrash) (heap (.malloc kind count) >>= rest) post s := ⟨space,next⟩

theorem allocates {kind : Kind} {count : Int} {rest : Option Nat → HeapProg α} (space : s.live < limit)
    (refused : malloc machine s.calls count = (none : Option (Cells kind.Cell)) →
      Secures (heapContract machine limit mayCrash) (rest none) post {s with calls := s.calls + 1})
    (served : ∀ block cells s', Grown machine kind count s block cells s' →
      Secures (heapContract machine limit mayCrash) (rest (some block)) post s') :
    Secures (heapContract machine limit mayCrash) (heap (.malloc kind count) >>= rest) post s := by
  refine mallocs space fun answer s' given => ?_
  rcases grown_or_refused given with ⟨none,rfl,rfl⟩ | ⟨block,cells,rfl,grown⟩
  · exact refused none
  · exact served block cells s' grown

theorem frees {block : Nat} {rest : Unit → HeapProg α} (here : (s.blocks block).isSome)
    (next : Secures (heapContract machine limit mayCrash) (rest ()) post (s.drop block)) :
    Secures (heapContract machine limit mayCrash) (heap (.free (some block)) >>= rest) post s := by
  refine ⟨here,?_⟩
  rintro _ s' rfl
  exact next

theorem frees_null {rest : Unit → HeapProg α} (next : Secures (heapContract machine limit mayCrash) (rest ()) post s) :
    Secures (heapContract machine limit mayCrash) (heap (.free none) >>= rest) post s := by
  refine ⟨trivial,?_⟩
  rintro _ s' rfl
  exact next

theorem reads (kind : Kind) {block : Nat} (cells : Cells kind.Cell) {rest : Cells kind.Cell → HeapProg α}
    (here : s.blocks block = some ⟨kind,cells⟩)
    (next : Secures (heapContract machine limit mayCrash) (rest cells) post s) :
    Secures (heapContract machine limit mayCrash) (heap (.read kind block) >>= rest) post s := by
  refine ⟨⟨cells,here⟩,?_⟩
  rintro answer s' ⟨found,rfl⟩
  rw [here] at found
  cases found
  exact next

theorem writes (kind : Kind) {block : Nat} (old : Cells kind.Cell) {cells : Cells kind.Cell} {rest : Unit → HeapProg α}
    (here : s.blocks block = some ⟨kind,old⟩) (size : cells.length = old.length)
    (next : Secures (heapContract machine limit mayCrash) (rest ()) post (s.put kind block cells)) :
    Secures (heapContract machine limit mayCrash) (heap (.write kind block cells) >>= rest) post s := by
  refine ⟨⟨old,here,size⟩,?_⟩
  rintro _ s' rfl
  exact next

theorem computes {result : Except Fault β} {rest : β → HeapProg α}
    (crashes : ∀ fault, result = .error fault → mayCrash fault)
    (next : ∀ value, result = .ok value → Secures (heapContract machine limit mayCrash) (rest value) post s) :
    Secures (heapContract machine limit mayCrash) (compute result >>= rest) post s := by
  cases result with
  | ok value => exact next value rfl
  | error fault => exact ⟨crashes fault rfl,fun answer => nomatch answer⟩

-- A loop that does, round by round, what a loop without a heap does.
theorem loops {body : Nat → τ → HeapProg (Outcome ρ τ)} (plain : Nat → τ → Except Fault (Outcome ρ τ)) {count : Nat}
    (kept : Nat → Heap → Prop) {value : τ} (start : kept 0 s)
    (crashes : ∀ fault, CSemantics.scan count plain value = .error fault → mayCrash fault)
    (round : ∀ i < count, ∀ value s, kept i s → (∀ fault, plain i value = .error fault → mayCrash fault) →
      Secures (heapContract machine limit mayCrash) (body i value)
        (fun flow s' => plain i value = .ok flow ∧ kept (i+1) s') s) :
    Secures (heapContract machine limit mayCrash) (Interaction.scan count body value)
      (fun flow s' => CSemantics.scan count plain value = .ok flow ∧ ∃ i, kept i s') s := by
  refine (secures_scan
    (fun result s' => CSemantics.scan count plain value = .ok (.returned result) ∧ ∃ i, kept i s')
    (fun i next s' => CSemantics.scan i plain value = .ok (.next next) ∧ kept i s') ⟨rfl,start⟩ ?_).mono ?_
  · rintro i bound next s1 ⟨soFar,held⟩
    have reaches (flow : Except Fault (Outcome ρ τ)) (one : plain i next = flow) :
        CSemantics.scan (i+1) plain value = flow := by
      simp only [CSemantics.scan,soFar,ok_bind,one]
    refine (round i bound next s1 held fun fault failed => ?_).mono ?_
    · exact crashes fault (scan_failed (Nat.succ_le_of_lt bound) (reaches _ failed))
    · rintro (result | next') s2 ⟨one,held'⟩
      · exact ⟨scan_left (Nat.succ_le_of_lt bound) (reaches _ one),i+1,held'⟩
      · exact ⟨reaches _ one,held'⟩
  · rintro (result | next) s1 held
    · exact held
    · exact ⟨held.1,count,held.2⟩

theorem derefs_null {rest : Nat → HeapProg α} (faulty : mayCrash .nullPointer) :
    Secures (heapContract machine limit mayCrash) (deref none >>= rest) post s := ⟨faulty,fun answer => nomatch answer⟩

theorem Grown.apart {kind other : Kind} {count : Int} {block older : Nat} {cells : Cells kind.Cell} {s' : Heap}
    {value : Cells other.Cell} (grown : Grown machine kind count s block cells s')
    (known : s.blocks older = some ⟨other,value⟩) : older ≠ block := by
  rintro rfl
  rw [grown.fresh] at known
  cases known

-- The heap is as it was where the blocks of one's own are gone and no other was touched.
theorem restored {blocks now : Nat → Option ((kind : Kind) × Cells kind.Cell)} (mine : List Nat)
    (fresh : ∀ block ∈ mine, blocks block = none) (freed : ∀ block ∈ mine, now block = none)
    (kept : ∀ block, block ∉ mine → now block = blocks block) : now = blocks := by
  funext block
  by_cases own : block ∈ mine
  · rw [freed block own,fresh block own]
  · exact kept block own

end Rules

-- A function that computes what `plain` computes on the mallocs it gets, holds `blocks`
-- blocks of its own at most, and gives every one of them back.
def Tidy (blocks : Nat) (plain : Machine → Except Fault α) (program : Machine → HeapProg α) : Prop :=
  ∀ machine s, Secures (heapContract machine (s.live + blocks) fun fault => plain (machine.after s.calls) = .error fault)
    (program machine) (fun value s' => plain (machine.after s.calls) = .ok value ∧ s'.blocks = s.blocks ∧ s'.live = s.live) s

theorem Tidy.mono {few many : Nat} {plain : Machine → Except Fault α} {program : Machine → HeapProg α} (order : few ≤ many)
    (tidy : Tidy few plain program) : Tidy many plain program :=
  fun machine s => looser (Nat.add_le_add_left order s.live) (fun _ failed => failed) (tidy machine s)

end CHeap
