import TeradataCpt.Library.Utf8Groups
import TeradataCpt.Utf8Safety

namespace TeradataCpt.Utf8Validation
open CSemantics CptJni JavaApi Utf8Safety

section Scan
variable {bytes : List UInt8}

theorem continuesTo_succ {i count : Nat} : continuesTo bytes i (count+1) = .ok true ↔
    continuesTo bytes i count = .ok true ∧
      ∃ byte, byteAt bytes (ahead i (count+1)) = .ok byte ∧ Utf8.Continues byte := by
  rw [continuesTo]
  cases continuesTo bytes i count with
  | error failure => simp [bind,Except.bind]
  | ok flag =>
    cases flag with
    | false => simp [bind,Except.bind,pure,Except.pure]
    | true =>
      cases byteAt bytes (ahead i (count+1)) with
      | error failure => simp [bind,Except.bind]
      | ok byte => simp [bind,Except.bind,pure,Except.pure,Utf8.Continues]

theorem loop_round {rounds i : Nat} (within : i < bytes.length) : utf8Loop bytes (rounds+1) i = .ok true ↔
    ∃ next, utf8At bytes i = .ok (some next) ∧ utf8Loop bytes rounds next = .ok true := by
  rw [utf8Loop,if_pos within]
  cases utf8At bytes i with
  | error failure => simp [bind,Except.bind]
  | ok place => cases place <;> simp [bind,Except.bind,pure,Except.pure]

theorem loop_done {rounds i : Nat} (done : ¬ i < bytes.length) : utf8Loop bytes rounds i = .ok true := by
  cases rounds with
  | zero => rfl
  | succ rounds => exact if_neg done

variable (short : bytes.length < 2^31)
include short

-- An index that an int cannot hold names no element either.
theorem byte_ahead {i offset : Nat} (near : i + offset < 2^32) {byte : UInt8} :
    byteAt bytes (ahead i offset) = .ok byte ↔ bytes[i + offset]? = some byte := by
  unfold ahead
  rcases Nat.lt_or_ge (i + offset) (2^31) with within | past
  · rw [Int32.toInt_ofNat_of_lt within,byteAt,if_pos (Int.natCast_nonneg _),Int.toNat_natCast]
    cases bytes[i + offset]? <;> simp
  · have wrapped : (Int32.ofNat (i + offset)).toInt < 0 := by
      rw [Int32.toInt_ofNat',Int.bmod_eq_emod]
      simp only [Int32.size]
      split <;> omega
    rw [byteAt,if_neg (by omega),List.getElem?_eq_none (by omega)]
    simp

theorem continues_to {i count : Nat} (near : i + count < 2^32) : continuesTo bytes i count = .ok true ↔
    count ≤ (bytes.drop (i+1)).length ∧ ∀ b ∈ (bytes.drop (i+1)).take count, Utf8.Continues b := by
  induction count with
  | zero => simp [continuesTo]
  | succ count ih =>
    have place : i + 1 + count = i + (count + 1) := by omega
    have item : (bytes.drop (i+1))[count]? = bytes[i + (count+1)]? := by rw [List.getElem?_drop,place]
    rw [continuesTo_succ,ih (by omega),List.take_add_one,item]
    simp only [byte_ahead short near]
    cases found : bytes[i + (count+1)]? with
    | none =>
      have past : (bytes.drop (i+1)).length ≤ count := by rwa [← item,List.getElem?_eq_none_iff] at found
      simp only [reduceCtorEq,false_and,exists_false,and_false,false_iff]
      omega
    | some byte =>
      have room : count < (bytes.drop (i+1)).length := by
        rw [← item] at found
        exact (List.getElem?_eq_some_iff.mp found).1
      simp only [Option.some.injEq,exists_eq_left',Option.toList_some,List.mem_append,List.mem_singleton]
      constructor
      · rintro ⟨⟨_,tail⟩,last⟩
        refine ⟨room,fun b member => ?_⟩
        rcases member with earlier | rfl
        · exact tail b earlier
        · exact last
      · rintro ⟨_,tail⟩
        exact ⟨⟨Nat.le_of_lt room,fun b member => tail b (.inl member)⟩,tail byte (.inr rfl)⟩

theorem sequence_at {i count next : Nat} (within : i < bytes.length) (few : count < 4) :
    sequenceAt bytes i count = .ok (some next) ↔
      (count ≤ (bytes.drop (i+1)).length ∧ ∀ b ∈ (bytes.drop (i+1)).take count, Utf8.Continues b) ∧
        next = i + count + 1 := by
  rw [← continues_to short (by omega)]
  rw [sequenceAt]
  by_cases past : ahead i count ≥ bytes.length
  · have beyond : ¬ continuesTo bytes i count = .ok true := by
      rw [continues_to short (by omega),List.length_drop]
      rintro ⟨room,_⟩
      unfold ahead at past
      rw [Int32.toInt_ofNat_of_lt (by omega)] at past
      omega
    simp [past,beyond,pure,Except.pure]
  · cases continuesTo bytes i count with
    | error failure => simp [past,bind,Except.bind]
    | ok flag => cases flag <;> simp [past,bind,Except.bind,pure,Except.pure,eq_comm]

theorem utf8_at {i next : Nat} {lead : UInt8} (here : bytes[i]? = some lead) :
    utf8At bytes i = .ok (some next) ↔ ∃ count, Utf8.need lead = some count ∧
      (count ≤ (bytes.drop (i+1)).length ∧ ∀ b ∈ (bytes.drop (i+1)).take count, Utf8.Continues b) ∧
        next = i + count + 1 := by
  have within : i < bytes.length := (List.getElem?_eq_some_iff.mp here).1
  have read : byteAt bytes i = .ok lead := by
    rw [byteAt,if_pos (Int.natCast_nonneg i),Int.toNat_natCast,here]
  have branches : utf8At bytes i = match Utf8.need lead with
      | some 0 => .ok (some (i+1))
      | some count => sequenceAt bytes i count
      | none => .ok none := by
    unfold utf8At Utf8.need
    rw [read]
    simp only [bind,Except.bind,pure,Except.pure]
    split_ifs <;> rfl
  rw [branches]
  cases needs : Utf8.need lead with
  | none => simp
  | some count =>
    have few : count < 4 := Utf8.need_bound lead count needs
    cases count with
    | zero => simp [eq_comm]
    | succ count => simpa using sequence_at short within few

-- Each accepted branch is one group, and the loop goes on behind it.
theorem loop_iff {rounds : Nat} {rest : List UInt8} (enough : rest.length ≤ rounds) {i : Nat}
    (at_rest : bytes.drop i = rest) : utf8Loop bytes rounds i = .ok true ↔ ∃ groups, Utf8.Grouped rest groups := by
  induction rounds generalizing rest i with
  | zero =>
    obtain rfl := List.eq_nil_of_length_eq_zero (Nat.le_zero.mp enough)
    exact ⟨fun _ => ⟨[],rfl,by simp⟩,fun _ => rfl⟩
  | succ rounds ih =>
    cases rest with
    | nil =>
      have done : ¬ i < bytes.length := by rwa [List.drop_eq_nil_iff,← Nat.not_lt] at at_rest
      exact ⟨fun _ => ⟨[],rfl,by simp⟩,fun _ => loop_done done⟩
    | cons lead rest =>
      have here : bytes[i]? = some lead := by rw [← List.head?_drop,at_rest,List.head?_cons]
      have within : i < bytes.length := (List.getElem?_eq_some_iff.mp here).1
      have behind : bytes.drop (i+1) = rest := by rw [← List.tail_drop,at_rest,List.tail_cons]
      have branch : ∀ next, utf8At bytes i = .ok (some next) ↔ _ := fun next => utf8_at short here
      have further : ∀ count,
          utf8Loop bytes rounds (i + count + 1) = .ok true ↔ ∃ groups, Utf8.Grouped (rest.drop count) groups := by
        intro count
        refine ih ?_ ?_
        · rw [List.length_drop]
          rw [List.length_cons] at enough
          omega
        · rw [← behind,List.drop_drop]
          congr 1
          omega
      rw [behind] at branch
      rw [loop_round within,Utf8.grouped_cons]
      constructor
      · rintro ⟨next,accepted,later⟩
        obtain ⟨count,needs,tail,rfl⟩ := (branch next).mp accepted
        exact ⟨count,needs,tail,(further count).mp later⟩
      · rintro ⟨count,needs,tail,grouped⟩
        exact ⟨_,(branch _).mpr ⟨count,needs,tail,rfl⟩,(further count).mpr grouped⟩

-- Acceptance asks for a splitting into groups and looks at nothing else.
theorem valid_iff : isValidUtf8 (some bytes) = .ok true ↔ ∃ groups, Utf8.Grouped bytes groups :=
  loop_iff short (Nat.le_refl _) List.drop_zero

-- Where i+3 is an int no test reads past the array, so the method answers.
theorem continues_total {i count : Nat} (within : i + count < bytes.length) :
    ∃ flag, continuesTo bytes i count = .ok flag := by
  induction count with
  | zero => exact ⟨true,rfl⟩
  | succ count ih =>
    obtain ⟨flag,earlier⟩ := ih (by omega)
    have read := (byte_ahead short (i := i) (by omega)).mpr (List.getElem?_eq_getElem within)
    rw [continuesTo,earlier]
    cases flag with
    | false => exact ⟨false,rfl⟩
    | true =>
      simp only [ok_bind,read]
      exact ⟨_,rfl⟩

theorem sequence_total {i count : Nat} (near : i + count < 2^31) : ∃ place, sequenceAt bytes i count = .ok place := by
  have index : ahead i count = (i + count : Nat) := Int32.toInt_ofNat_of_lt near
  rw [sequenceAt,index]
  by_cases past : ((i + count : Nat) : Int) ≥ bytes.length
  · exact ⟨none,if_pos past⟩
  · obtain ⟨flag,tested⟩ := continues_total short (show i + count < bytes.length by omega)
    rw [if_neg past,tested]
    cases flag <;> exact ⟨_,rfl⟩

theorem utf8_total (far : bytes.length + 2 < 2^31) {i : Nat} (within : i < bytes.length) :
    ∃ place, utf8At bytes i = .ok place := by
  have read : byteAt bytes i = .ok bytes[i] := by
    rw [byteAt,if_pos (Int.natCast_nonneg i),Int.toNat_natCast,List.getElem?_eq_getElem within]
  have branch {count : Nat} (few : count < 4) : ∃ place, sequenceAt bytes i count = .ok place :=
    sequence_total short (by omega)
  rw [utf8At,read,ok_bind]
  split_ifs
  · exact ⟨_,rfl⟩
  · exact branch (by decide)
  · exact branch (by decide)
  · exact branch (by decide)
  · exact ⟨_,rfl⟩

theorem loop_total (far : bytes.length + 2 < 2^31) (rounds i : Nat) : ∃ answer, utf8Loop bytes rounds i = .ok answer := by
  induction rounds generalizing i with
  | zero => exact ⟨true,rfl⟩
  | succ rounds ih =>
    by_cases within : i < bytes.length
    · obtain ⟨place,tested⟩ := utf8_total short far within
      rw [utf8Loop,if_pos within,tested]
      cases place with
      | some next => exact ih next
      | none => exact ⟨false,rfl⟩
    · exact ⟨true,loop_done within⟩

end Scan

-- The answer and the text agree unless a group is overlong, a surrogate or too large.
theorem decides_unless_forbidden (utf8 : Utf8Decoder) {bytes : List UInt8} (short : bytes.length < 2^31) :
    (getBytesUtf8 (utf8.newString bytes) = bytes ↔ Utf8.WellFormed bytes) ∧
    ((isValidUtf8 (some bytes) = .ok true ↔ Utf8.WellFormed bytes) ↔
      ¬ ∃ groups, Utf8.Grouped bytes groups ∧ ∃ g ∈ groups, Utf8.Forbidden g) ∧
    (bytes.length + 2 < 2^31 → (¬ ∃ groups, Utf8.Grouped bytes groups) → isValidUtf8 (some bytes) = .ok false) := by
  refine ⟨stored_iff utf8 bytes,?_,?_⟩
  · rw [valid_iff short,Utf8.wellFormed_iff]
    constructor
    · rintro decides ⟨groups,grouped,g,member,forbidden⟩
      obtain ⟨others,same,allowed⟩ := decides.mp ⟨groups,grouped⟩
      obtain rfl := grouped.unique same
      exact allowed g member forbidden
    · intro clean
      constructor
      · rintro ⟨groups,grouped⟩
        exact ⟨groups,grouped,fun g member forbidden => clean ⟨groups,grouped,g,member,forbidden⟩⟩
      · rintro ⟨groups,grouped,_⟩
        exact ⟨groups,grouped⟩
  · intro far ungrouped
    obtain ⟨answer,ran⟩ := loop_total short far bytes.length 0
    cases answer with
    | false => exact ran
    | true => exact absurd ((valid_iff short).mp ran) ungrouped

theorem decides_character : isValidUtf8 (some [0xE4,0xB8,0xAD]) = .ok true ↔ Utf8.WellFormed [0xE4,0xB8,0xAD] := by
  refine (decides_unless_forbidden wholeTextDecoder (by decide)).2.1.mpr ?_
  rintro ⟨groups,grouped,g,member,forbidden⟩
  have whole : Utf8.Grouped [0xE4,0xB8,0xAD] [[0xE4,0xB8,0xAD]] := ⟨rfl,by simp [Utf8.Group]; decide⟩
  obtain rfl := grouped.unique whole
  obtain rfl := List.mem_singleton.mp member
  rcases forbidden with short | invalid
  · exact absurd short (by decide)
  · refine invalid ?_
    unfold Nat.isValidChar
    decide

theorem overlong_accepted : isValidUtf8 (some [0xC0,0x80]) = .ok true ∧ ¬ Utf8.WellFormed [0xC0,0x80] := by
  have whole : Utf8.Grouped [0xC0,0x80] [[0xC0,0x80]] := ⟨rfl,by simp [Utf8.Group]; decide⟩
  refine ⟨by decide +kernel,fun formed => ?_⟩
  obtain ⟨groups,grouped,allowed⟩ := Utf8.wellFormed_iff.mp formed
  obtain rfl := grouped.unique whole
  exact allowed _ List.mem_cons_self (.inl (by decide))

end TeradataCpt.Utf8Validation
