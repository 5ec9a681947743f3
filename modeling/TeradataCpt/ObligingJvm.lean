import TeradataCpt.JniProtocol

namespace TeradataCpt.ObligingJvm
open CSemantics Interaction Cpt CptJni NativeCode JniProtocol

def freshId (s : Env) : Nat := (s.locals ++ s.globals).foldr (fun ref most => max ref.id most) 0 + 1

def newLocal (obj : Obj) (s : Env) : JObject × Env :=
  let ref : Ref := ⟨freshId s,obj⟩
  (some ref,{s with locals := ref :: s.locals})

-- A JVM that refuses nothing and in which nothing else goes on. It has no answer for a
-- caller that breaks the contract.
def obliging : (op : JniOp) → Env → Option (Answer op × Env)
  | .getEnv,s => some (true,s)
  | .exceptionCheck,s => some (s.pending.isSome,s)
  | .readBlocks,s => some (s.blocks,s)
  | .writeBlocks blocks,s => some ((),{s with blocks := blocks})
  | .deleteLocalRef (some ref),s => some ((),{s with locals := s.locals.erase ref})
  | .findClass name,s => some (newLocal (.clazz name) s)
  | .newGlobalRef (some origin),s =>
    let ref : Ref := ⟨freshId s,origin.obj⟩
    some (some ref,{s with globals := ref :: s.globals})
  | .getMethodID (some ⟨_,.clazz className⟩) name signature,s
  | .getFieldID (some ⟨_,.clazz className⟩) name signature,s => some (some ⟨className,name,signature⟩,s)
  | .throwNew (some ⟨_,.clazz className⟩) message,s => some ((0 : Int),{s with pending := some (className,message)})
  | .getArrayLength (some ⟨_,.bytes n⟩),s => some (n,s)
  | .getArrayLength (some ⟨_,.subPolicies items⟩),s => some (items.length,s)
  | .getObjectField (some ⟨_,.policy ⟨_,none⟩⟩) _,s => some (none,s)
  | .getObjectField (some ⟨_,.policy ⟨_,some items⟩⟩) _,s => some (newLocal (.subPolicies items) s)
  | .getIntField (some ref) (some member),s => (intField ref.obj member.name).map fun value => (value,s)
  | .getObjectArrayElement (some ⟨_,.subPolicies items⟩) i,s =>
    match items[i]? with
    | some (some value) => some (newLocal (.subPolicy value) s)
    | some none => some (none,s)
    | none => none
  | .getByteArrayRegion (some ref) start length,s => some (((s.arrays ref.id).drop start).take length,s)
  | .newByteArray length,s =>
    let ref : Ref := ⟨freshId s,.bytes length⟩
    some (some ref,
      {s with locals := ref :: s.locals, arrays := Function.update s.arrays ref.id (List.replicate length 0)})
  | .setByteArrayRegion (some ref) start bytes,s =>
    some ((),{s with arrays := Function.update s.arrays ref.id ((s.arrays ref.id).take start ++ bytes ++
      (s.arrays ref.id).drop (start + bytes.length))})
  | _,_ => none

theorem fresh_id (s : Env) (obj : Obj) : Fresh s ⟨freshId s,obj⟩ := by
  intro other live
  have member : other ∈ s.locals ++ s.globals := List.mem_append.mpr live
  have below : ∀ refs : List Ref, other ∈ refs → other.id ≤ refs.foldr (fun ref most => max ref.id most) 0 := by
    intro refs
    induction refs with
    | nil => exact fun here => absurd here List.not_mem_nil
    | cons ref refs ih =>
      intro here
      rw [List.foldr_cons]
      rcases List.mem_cons.mp here with rfl | later
      · exact Nat.le_max_left _ _
      · exact Nat.le_trans (ih later) (Nat.le_max_right _ _)
  exact Nat.ne_of_lt (Nat.lt_succ_of_le (below _ member))

-- Every byte array has the length that belongs to it, and nothing was refused.
structure Sized (s : Env) : Prop where
  sized : ∀ ref, Live s ref → ∀ n, ref.obj = .bytes n → (s.arrays ref.id).length = n
  calm : s.refused = false

-- It stays so where no array is written, and every byte array was there before.
theorem Sized.kept {s s' : Env} (sized : Sized s) (arrays : s'.arrays = s.arrays) (calm : s'.refused = s.refused)
    (old : ∀ ref, Live s' ref → ∀ n, ref.obj = .bytes n → Live s ref) : Sized s' := by
  refine ⟨fun ref live n kind => ?_,calm.trans sized.calm⟩
  rw [arrays]
  exact sized.sized ref (old ref live n kind) n kind

theorem Sized.made {s : Env} (sized : Sized s) {ref : Ref} (other : ∀ n, ref.obj ≠ .bytes n) :
    Sized {s with locals := ref :: s.locals} := by
  refine sized.kept rfl rfl fun old live n kind => ?_
  rcases live with here | globally
  · rcases List.mem_cons.mp here with rfl | later
    · exact absurd kind (other n)
    · exact .inl later
  · exact .inr globally

section Obliging
variable {steady : Prop} {room : Nat} {s : Env}

theorem obliging_answers (op : JniOp) (owed : Owes room (fun _ => False) op s) (sized : Sized s) :
    ∃ answer s', obliging op s = some (answer,s') ∧ Promises steady op s answer s' ∧ Sized s' := by
  cases op with
  | getEnv => exact ⟨true,s,rfl,.inl ⟨rfl,rfl⟩,sized⟩
  | findClass name =>
    exact ⟨_,_,rfl,.inr ⟨_,rfl,rfl,fresh_id s _,rfl⟩,sized.made fun n same => nomatch same⟩
  | newGlobalRef object =>
    obtain ⟨_,name,origin,rfl,_,kind⟩ := owed
    refine ⟨_,_,rfl,.inr ⟨_,origin,rfl,rfl,rfl,fresh_id s _,rfl⟩,sized.kept rfl rfl fun old here n bytes => ?_⟩
    rcases here with locally_ | globally
    · exact .inl locally_
    · rcases List.mem_cons.mp globally with rfl | later
      · rw [kind] at bytes
        cases bytes
      · exact .inr later
  | deleteLocalRef object =>
    obtain ⟨ref,_,rfl⟩ := owed
    refine ⟨_,_,rfl,⟨ref,rfl,rfl⟩,sized.kept rfl rfl fun old live n kind => ?_⟩
    exact live.imp List.mem_of_mem_erase id
  | getMethodID clazz name signature | getFieldID clazz name signature =>
    obtain ⟨_,className,⟨i,obj⟩,rfl,_,kind⟩ := owed
    dsimp only at kind
    subst kind
    exact ⟨_,s,rfl,.inr ⟨_,className,rfl,rfl,rfl,rfl⟩,sized⟩
  | throwNew clazz message =>
    obtain ⟨_,className,⟨i,obj⟩,rfl,_,kind⟩ := owed
    dsimp only at kind
    subst kind
    exact ⟨_,_,rfl,.inr ⟨rfl,_,className,rfl,rfl,rfl⟩,sized.kept rfl rfl fun _ live _ _ => live⟩
  | exceptionCheck => exact ⟨_,s,rfl,⟨rfl,rfl⟩,sized⟩
  | getArrayLength array =>
    rcases owed.2 with ⟨n,⟨i,obj⟩,rfl,_,kind⟩ | ⟨items,⟨i,obj⟩,rfl,_,kind⟩
    · dsimp only at kind
      subst kind
      exact ⟨n,s,rfl,⟨rfl,_,rfl,.inl rfl⟩,sized⟩
    · dsimp only at kind
      subst kind
      exact ⟨items.length,s,rfl,⟨rfl,_,rfl,.inr ⟨items,rfl,rfl⟩⟩,sized⟩
  | getObjectField object field =>
    obtain ⟨_,_,value,⟨⟨i,obj⟩,rfl,_,kind⟩,_⟩ := owed
    dsimp only at kind
    subst kind
    obtain ⟨number,subPolicy⟩ := value
    cases subPolicy with
    | none => exact ⟨none,s,rfl,⟨_,_,rfl,rfl,.inl ⟨rfl,fun _ => rfl,rfl⟩⟩,sized⟩
    | some items =>
      exact ⟨_,_,rfl,⟨_,_,rfl,rfl,.inr ⟨_,items,rfl,rfl,fun _ => rfl,fresh_id s _,rfl⟩⟩,
        sized.made fun n same => nomatch same⟩
  | getIntField object field =>
    obtain ⟨_,obj,name,⟨ref,rfl,_,kind⟩,isInt,className,_,rfl⟩ := owed
    obtain ⟨value,holds⟩ := Option.isSome_iff_exists.mp isInt
    subst kind
    refine ⟨value,s,?_,⟨rfl,fun _ => ⟨ref,_,rfl,rfl,holds⟩⟩,sized⟩
    simp only [obliging,holds]
    rfl
  | getObjectArrayElement array index =>
    obtain ⟨_,_,items,⟨⟨i,obj⟩,rfl,_,kind⟩,bound⟩ := owed
    dsimp only at kind
    subst kind
    cases element : items[index] with
    | none =>
      have here : items[index]? = some none := by rw [List.getElem?_eq_getElem bound,element]
      refine ⟨none,s,?_,⟨_,items,rfl,rfl,s,.inl rfl,.inl ⟨rfl,fun _ => here,rfl⟩⟩,sized⟩
      simp only [obliging,here]
    | some value =>
      have here : items[index]? = some (some value) := by rw [List.getElem?_eq_getElem bound,element]
      refine ⟨_,_,?_,⟨_,items,rfl,rfl,_,.inl rfl,.inr ⟨_,value,rfl,rfl,fun _ => here,fresh_id s _,rfl⟩⟩,
        sized.made fun n same => nomatch same⟩
      simp only [obliging,here]
      rfl
  | getByteArrayRegion array start length =>
    obtain ⟨_,n,⟨ref,rfl,live,kind⟩,inside⟩ := owed
    refine ⟨_,s,rfl,⟨?_,fun _ => ⟨ref,rfl,rfl⟩,.inl rfl⟩,sized⟩
    rw [List.length_take,List.length_drop,sized.sized ref live n kind]
    omega
  | newByteArray length =>
    have fresh := fresh_id s (.bytes length)
    refine ⟨_,_,rfl,.inr ⟨_,rfl,rfl,fresh,rfl⟩,fun ref live n kind => ?_,sized.calm⟩
    have cases_ : ref = ⟨freshId s,.bytes length⟩ ∨ Live s ref := by
      rcases live with here | globally
      · exact (List.mem_cons.mp here).imp id .inl
      · exact .inr (.inr globally)
    rcases cases_ with rfl | old
    · cases kind
      simp
    · have apart : ref.id ≠ freshId s := fresh ref old
      simpa [apart] using sized.sized ref old n kind
  | setByteArrayRegion array start bytes =>
    obtain ⟨_,n,⟨ref,rfl,live,kind⟩,inside⟩ := owed
    refine ⟨_,_,rfl,⟨ref,rfl,rfl⟩,fun other here m known => ?_,sized.calm⟩
    have before := sized.sized other here m known
    by_cases same : other.id = ref.id
    · have length := sized.sized ref live n kind
      rw [same] at before
      simp only [same,Function.update_self,List.length_append,List.length_take,List.length_drop]
      omega
    · simpa [same] using before
  | readBlocks => exact ⟨_,s,rfl,⟨rfl,rfl⟩,sized⟩
  | writeBlocks blocks => exact ⟨_,_,rfl,rfl,sized.kept rfl rfl fun _ live _ _ => live⟩
  | crash fault => exact owed.elim

end Obliging

end TeradataCpt.ObligingJvm
