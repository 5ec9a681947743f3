import TeradataCpt.Overlaps
import TeradataCpt.Utf8Safety

-- What the fields of one width show of a key, and what any series of calls does to the
-- fields of one format.
namespace TeradataCpt.FieldClasses
open CSemantics ChainedPasses BarrierCipher RangePatches RangeOverlaps Cpt CptJni Passes KeyTables FieldCipher Fields
open Policies Formats Overlaps Utf8Safety

-- Two bytes of the alphabet already tell two keys apart, wherever they stand.
theorem pairs_tell {one two : Nat} {m : CptMode} (same : ∀ a b, cipher one m [a,b] = cipher two m [a,b]) :
    one ≡ two [MOD (Finset.Icc 1 m.len).lcm id] := by
  rw [← keyPerm_eq_iff]
  refine pairs_injective (B := UInt8) fun i j => ?_
  have pair := congrArg (List.map (code m)) (same (byteOf m i) (byteOf m j))
  rwa [cipher_code,cipher_code,List.map_cons,List.map_cons,List.map_nil,code_byteOf,code_byteOf] at pair

theorem fields_tell {one two : Nat} {m : CptMode} {n : Nat} (wide : 2 ≤ n)
    (same : ∀ x, x.length = n → cipher one m x = cipher two m x) : one ≡ two [MOD (Finset.Icc 1 m.len).lcm id] := by
  refine pairs_tell fun a b => ?_
  have length : (padded 0 0 [a,b] (n - 2)).length = n := by
    rw [padded_length]
    simp only [List.length_cons,List.length_nil]
    omega
  have fields := same _ length
  have first := padded_image (image_isolates one m true) 0 [a,b] (n - 2)
  have second := padded_image (image_isolates two m true) 0 [a,b] (n - 2)
  have words := first.symm.trans (fields.trans second)
  exact List.append_cancel_right words

theorem width_tells (k1 k2 : UInt64) (m : CptMode) {n : Nat} (wide : 2 ≤ n) :
    (∀ x, x.length = n → transformBytes .reliable k1.toNat m true x = transformBytes .reliable k2.toNat m true x) ↔
      k1.toNat ≡ k2.toNat [MOD (Finset.Icc 1 m.len).lcm id] := by
  simp only [encrypt_reliable,Except.ok.injEq]
  constructor
  · exact fields_tell wide
  · intro congruent x _
    rw [(cipher_eq_iff _ _ m).mpr congruent]

def onWidth (n : Nat) (f : List UInt8 → Except Fault (List UInt8)) (x : {x : List UInt8 // x.length = n}) :
    Except Fault (List UInt8) := f x

theorem width_ncard (m : CptMode) {n : Nat} (wide : 2 ≤ n) :
    Set.ncard (Set.range fun k : UInt64 => onWidth n (transformBytes .reliable k.toNat m true)) =
      Set.ncard (Set.range fun k : UInt64 => transformBytes .reliable k.toNat m true) := by
  have restricted : (Set.range fun k : UInt64 => onWidth n (transformBytes .reliable k.toNat m true)) =
      onWidth n '' Set.range fun k : UInt64 => transformBytes .reliable k.toNat m true := by
    rw [← Set.range_comp]
    rfl
  rw [restricted]
  refine Set.InjOn.ncard_image ?_
  rintro _ ⟨k1,rfl⟩ _ ⟨k2,rfl⟩ same
  have congruent := (width_tells k1 k2 m wide).mp fun x length => congrFun same ⟨x,length⟩
  funext x
  dsimp only
  rw [encrypt_reliable,encrypt_reliable,(cipher_eq_iff _ _ m).mpr congruent]

-- So a column of two bytes hides no more of the key, and no less, than a wide one.
theorem two_bytes_suffice {n : Nat} (wide : 2 ≤ n) :
    (∀ (m : CptMode) (k1 k2 : UInt64),
      ((∀ x, x.length = n →
        transformBytes .reliable k1.toNat m true x = transformBytes .reliable k2.toNat m true x) ↔
          k1.toNat ≡ k2.toNat [MOD (Finset.Icc 1 m.len).lcm id]) ∧
      (m ≠ .cptInt → (∀ x, x.length = n →
        transformBytes .reliable k1.toNat m true x = transformBytes .reliable k2.toNat m true x) → k1 = k2)) ∧
    Set.ncard (Set.range fun k : UInt64 => onWidth n (transformBytes .reliable k.toNat .cptInt true)) = 2520 := by
  refine ⟨fun m k1 k2 => ⟨width_tells k1 k2 m wide,fun text same => ?_⟩,?_⟩
  · exact ((text_keys text k1 k2).mp ((width_tells k1 k2 m wide).mp same)).symm
  · rw [width_ncard .cptInt wide,encryptions_ncard,digits_ciphers]

-- Of fields of one byte the two passes show no more than the table twice applied.
theorem single_digits : ∀ i : Fin CptMode.cptInt.len,
    transformBytes .reliable (417 : UInt64).toNat .cptInt true [byteOf .cptInt i] =
      transformBytes .reliable (29 : UInt64).toNat .cptInt true [byteOf .cptInt i] := by decide +kernel

theorem two_bytes_suffice_digits :
    (¬ ∀ x, x.length = 2 → transformBytes .reliable (417 : UInt64).toNat .cptInt true x =
      transformBytes .reliable (29 : UInt64).toNat .cptInt true x) ∧
    ∀ x, x.length = 1 → transformBytes .reliable (417 : UInt64).toNat .cptInt true x =
      transformBytes .reliable (29 : UInt64).toNat .cptInt true x := by
  refine ⟨?_,fun x length => ?_⟩
  · rw [((two_bytes_suffice (Nat.le_refl 2)).1 .cptInt 417 29).1,digits_period]
    decide
  · obtain ⟨b,rfl⟩ := List.length_eq_one_iff.mp length
    cases away : outside .cptInt b with
    | true =>
      have alone : ∀ k, cipher k .cptInt [b] = [b] := fun k => by
        have cut := image_barrier k true away [] []
        rwa [List.nil_append,List.eq_nil_of_length_eq_zero (image_length k .cptInt true [])] at cut
      rw [encrypt_reliable,encrypt_reliable,alone,alone]
    | false =>
      obtain ⟨i,rfl⟩ := inside_byteOf away
      exact single_digits i

structure Call where
  key : UInt64
  mode : CptMode
  encrypting : Bool
  policy : Option JniPolicy

def Call.run (call : Call) (input : List UInt8) : Except Fault (Int × List UInt8) :=
  match call.policy with
  | none => do return (0,← transformBytes .reliable call.key.toNat call.mode call.encrypting input)
  | some policy => policyRun .reliable policy call.key.toNat call.mode call.encrypting input

def Call.undo (call : Call) : Call := {call with encrypting := !call.encrypting}

-- Each call takes what the one before it gave, and the first that is refused is the last.
def series : List Call → List UInt8 → Except Fault (Int × List UInt8)
  | [],input => return (0,input)
  | call :: rest,input => do
    let (status,output) ← call.run input
    if status ≠ 0 then return (status,output)
    else series rest output

def undoing (calls : List Call) : List Call := (calls.map Call.undo).reverse

def Call.Sound (call : Call) (n : Nat) : Prop :=
  match call.policy with
  | none => True
  | some policy => validatePolicy (some policy) n = .ok 0 ∧ Settled (ranges policy)

noncomputable def Call.map (call : Call) (input : List UInt8) : List UInt8 :=
  match call.policy with
  | none => image call.key.toNat call.mode call.encrypting input
  | some policy => patchAll (image call.key.toNat call.mode call.encrypting) input (ranges policy)

section Step
variable {call : Call} {x : List UInt8} (short : x.length < 2^31) (sound : call.Sound x.length)
include short sound

theorem call_run : call.run x = .ok (0,call.map x) := by
  obtain ⟨key,mode,encrypting,policy⟩ := call
  cases policy with
  | none =>
    simp only [Call.run,Call.map,transform_run .reliable key.toNat mode reliable_serves,ok_bind,pure_ok]
  | some policy =>
    exact policy_reliable short ((accepted_iff short).mp sound.1) key.toNat mode encrypting

theorem call_preserves : Preserves call.mode x (call.map x) := by
  obtain ⟨key,mode,encrypting,policy⟩ := call
  cases policy with
  | none => exact image_preserves key.toNat mode encrypting x
  | some policy => exact patched_preserves key.toNat mode encrypting ((accepted_iff short).mp sound.1)

theorem call_undone : call.undo.map (call.map x) = x := by
  obtain ⟨key,mode,encrypting,policy⟩ := call
  cases policy with
  | none => exact image_inverse key.toNat mode encrypting x
  | some policy =>
    exact patchAll_inverse (image_length key.toNat mode encrypting) (image_length key.toNat mode (!encrypting))
      (image_inverse key.toNat mode encrypting) (ranges_fit ((accepted_iff short).mp sound.1)) sound.2

end Step

@[simp] theorem undo_undo (call : Call) : call.undo.undo = call := by simp [Call.undo]

theorem undo_sound {call : Call} {n : Nat} : call.undo.Sound n ↔ call.Sound n := Iff.rfl

theorem undoing_undoing (calls : List Call) : undoing (undoing calls) = calls := by
  simp [undoing,Function.comp_def]

theorem undoing_sound {calls : List Call} {n : Nat} (sound : ∀ call ∈ calls, call.Sound n) :
    ∀ call ∈ undoing calls, call.Sound n := by
  intro call member
  obtain ⟨origin,present,rfl⟩ := List.mem_map.mp (List.mem_reverse.mp member)
  exact undo_sound.mpr (sound origin present)

noncomputable def seriesMap (calls : List Call) (x : List UInt8) : List UInt8 :=
  calls.foldl (fun bytes call => call.map bytes) x

section Runs
variable {n : Nat} (short : n < 2^31)
include short

theorem series_length {calls : List Call} (sound : ∀ call ∈ calls, call.Sound n) {x : List UInt8}
    (length : x.length = n) : (seriesMap calls x).length = n := by
  induction calls generalizing x with
  | nil => exact length
  | cons call rest ih =>
    subst length
    have kept := call_preserves short (sound call List.mem_cons_self)
    exact ih (fun other member => sound other (List.mem_cons_of_mem call member)) kept.length

theorem series_run {calls : List Call} (sound : ∀ call ∈ calls, call.Sound n) {x : List UInt8}
    (length : x.length = n) : series calls x = .ok (0,seriesMap calls x) := by
  induction calls generalizing x with
  | nil => rfl
  | cons call rest ih =>
    subst length
    have first := sound call List.mem_cons_self
    have kept := call_preserves short first
    simp only [series,call_run short first,ok_bind,ne_eq,not_true_eq_false,if_false]
    exact ih (fun other member => sound other (List.mem_cons_of_mem call member)) kept.length

theorem series_undone {calls : List Call} (sound : ∀ call ∈ calls, call.Sound n) {x : List UInt8}
    (length : x.length = n) : seriesMap (undoing calls) (seriesMap calls x) = x := by
  induction calls generalizing x with
  | nil => rfl
  | cons call rest ih =>
    subst length
    have first := sound call List.mem_cons_self
    have kept := call_preserves short first
    have inner := ih (fun other member => sound other (List.mem_cons_of_mem call member)) kept.length
    simp only [undoing,seriesMap,List.map_cons,List.reverse_cons,List.foldl_append,List.foldl_cons,List.foldl_nil] at inner ⊢
    rw [inner,call_undone short first]

theorem series_preserves {calls : List Call} (sound : ∀ call ∈ calls, call.Sound n) {m : CptMode}
    (within : ∀ call ∈ calls, ∀ b, InAlphabet call.mode b → InAlphabet m b) {x : List UInt8} (length : x.length = n) :
    Preserves m x (seriesMap calls x) := by
  induction calls generalizing x with
  | nil => exact Preserves.refl m x
  | cons call rest ih =>
    subst length
    have kept := call_preserves short (sound call List.mem_cons_self)
    have others := ih (fun other member => sound other (List.mem_cons_of_mem call member))
      (fun other member => within other (List.mem_cons_of_mem call member)) kept.length
    exact (kept.wider (within call List.mem_cons_self)).trans others

theorem series_untouched {calls : List Call} (sound : ∀ call ∈ calls, call.Sound n) {x : List UInt8}
    (length : x.length = n) {i : Nat} {a : UInt8} (item : x[i]? = some a)
    (away : ∀ call ∈ calls, ¬ InAlphabet call.mode a) : (seriesMap calls x)[i]? = some a := by
  induction calls generalizing x with
  | nil => exact item
  | cons call rest ih =>
    subst length
    have kept := call_preserves short (sound call List.mem_cons_self)
    obtain ⟨b,value,keeps⟩ := kept.bytes i a item
    rw [keeps.outside (away call List.mem_cons_self)] at value
    exact ih (fun other member => sound other (List.mem_cons_of_mem call member)) kept.length value
      fun other member => away other (List.mem_cons_of_mem call member)

end Runs

-- Any series of calls, under any keys, modes and policies that lose nothing by
-- themselves: the opposite calls in the opposite order undo it, no byte outside all the
-- alphabets is touched, and the fields of one format are permuted among themselves.
theorem series_permutes {n : Nat} (short : n < 2^31) {calls : List Call} (sound : ∀ call ∈ calls, call.Sound n) :
    ∃ f : List UInt8 → List UInt8,
      (∀ x, x.length = n → series calls x = .ok (0,f x) ∧ series (undoing calls) (f x) = .ok (0,x)) ∧
      (∀ (x : List UInt8) (i : Nat) (a : UInt8), x.length = n → x[i]? = some a →
        (∀ call ∈ calls, ¬ InAlphabet call.mode a) → (f x)[i]? = some a) ∧
      ∀ m, (∀ call ∈ calls, ∀ b, InAlphabet call.mode b → InAlphabet m b) → ∀ x, x.length = n →
        Set.BijOn f {y | Preserves m x y} {y | Preserves m x y} := by
  have opposite := undoing_sound sound
  refine ⟨seriesMap calls,fun x length => ⟨series_run short sound length,?_⟩,?_,?_⟩
  · rw [series_run short opposite (series_length short sound length),series_undone short sound length]
  · intro x i a length item away
    exact series_untouched short sound length item away
  · rintro m within x rfl
    have stays : ∀ {calls : List Call}, (∀ call ∈ calls, call.Sound x.length) →
        (∀ call ∈ calls, ∀ b, InAlphabet call.mode b → InAlphabet m b) →
        ∀ y ∈ {y | Preserves m x y}, seriesMap calls y ∈ {y | Preserves m x y} := fun sound within y preserved =>
      preserved.trans (series_preserves short sound within preserved.length)
    have modes : ∀ call ∈ undoing calls, ∀ b, InAlphabet call.mode b → InAlphabet m b := by
      intro call member
      obtain ⟨origin,present,rfl⟩ := List.mem_map.mp (List.mem_reverse.mp member)
      exact within origin present
    refine ⟨stays sound within,?_,?_⟩
    · intro y preserved y' preserved' same
      rw [← series_undone short sound preserved.length,same,series_undone short sound preserved'.length]
    · intro y preserved
      refine ⟨seriesMap (undoing calls) y,stays opposite modes y preserved,?_⟩
      have back := series_undone short opposite preserved.length
      rwa [undoing_undoing] at back

theorem series_permutes_rotation :
    ∃ f : List UInt8 → List UInt8, ∀ x, x.length = 3 →
      series [⟨7,.cptInt,true,none⟩,⟨7,.cptInt,false,none⟩,⟨9,.cptInt,true,none⟩] x = .ok (0,f x) ∧
      series (undoing [⟨7,.cptInt,true,none⟩,⟨7,.cptInt,false,none⟩,⟨9,.cptInt,true,none⟩]) (f x) = .ok (0,x) := by
  have sound : ∀ call ∈ ([⟨7,.cptInt,true,none⟩,⟨7,.cptInt,false,none⟩,⟨9,.cptInt,true,none⟩] : List Call),
      call.Sound 3 := by simp [Call.Sound]
  obtain ⟨f,ran,_⟩ := series_permutes (by decide) sound
  exact ⟨f,ran⟩

end TeradataCpt.FieldClasses
