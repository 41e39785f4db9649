import Mathlib
import MaximalMunch.ByteSet

/-! Membership in byte sets: each operation on the words is the operation on sets, and so is every
program of operations. -/

namespace MaximalMunch

theorem Byte.mem_all (b : UInt8) : b ∈ Byte.all :=
  List.mem_map.2 ⟨b.toNat, List.mem_range.2 b.toNat_lt, UInt8.ofNat_toNat⟩

theorem Byte.all_ascending : Byte.all.Pairwise (· < ·) := by
  rw [Byte.all, List.pairwise_map]
  refine List.pairwise_lt_range.imp_of_mem fun {m n} hm hn hmn => ?_
  rw [UInt8.lt_iff_toNat_lt]
  show (UInt8.ofNat m).toNat < (UInt8.ofNat n).toNat
  have hm' : (UInt8.ofNat m).toNat = m := UInt8.toNat_ofNat_of_lt (List.mem_range.1 hm)
  have hn' : (UInt8.ofNat n).toNat = n := UInt8.toNat_ofNat_of_lt (List.mem_range.1 hn)
  rw [hm', hn']
  exact hmn

namespace ByteSet

variable {s t : ByteSet} {b c lo hi : UInt8}

/-! ## Bits and words -/

/-- The bits of one of the four words. -/
def word (s : ByteSet) (i : Fin 4) : BitVec 64 := (s.words.get i).toBitVec

theorem ext_word (h : ∀ i, s.word i = t.word i) : s = t :=
  ByteSet.ext (Vector.ext fun i hi => UInt64.toBitVec_inj.1 (h ⟨i, hi⟩))

@[simp]
theorem wordIndex_val : (wordIndex b).val = b.toNat / 64 := by
  show (b >>> 6).toNat = b.toNat / 64
  rw [UInt8.toNat_shiftRight, Nat.shiftRight_eq_div_pow]
  rfl

theorem place_lt (b : UInt8) : b.toNat % 64 < 64 := Nat.mod_lt _ (by decide)

/-- A byte is its word and its place in it. -/
theorem eq_iff_place : b = c ↔ wordIndex b = wordIndex c ∧ b.toNat % 64 = c.toNat % 64 := by
  rw [← UInt8.toNat_inj, Fin.ext_iff, wordIndex_val, wordIndex_val]
  omega

/-- Any place in any word is that of a byte. -/
theorem place_ofNat (i : Fin 4) {j : Nat} (hj : j < 64) :
    wordIndex (UInt8.ofNat (64 * i.val + j)) = i ∧
      (UInt8.ofNat (64 * i.val + j)).toNat % 64 = j := by
  have hb : (UInt8.ofNat (64 * i.val + j)).toNat = 64 * i.val + j :=
    UInt8.toNat_ofNat_of_lt (show 64 * i.val + j < 256 by omega)
  rw [Fin.ext_iff, wordIndex_val, hb]
  omega

theorem getLsbD_bit {i : Nat} (hi : i < 64) :
    (bit b).toBitVec.getLsbD i = decide (i = b.toNat % 64) := by
  have hplace : ((b &&& 63).toUInt64.toBitVec % 64).toNat = b.toNat % 64 := by
    show (b.toNat &&& 63) % 64 = b.toNat % 64
    rw [Nat.and_two_pow_sub_one_eq_mod b.toNat 6]
    exact Nat.mod_mod _ _
  show ((1 : UInt64).toBitVec <<< ((b &&& 63).toUInt64.toBitVec % 64)).getLsbD i = _
  rw [BitVec.shiftLeft_eq', hplace]
  show (1#64 <<< (b.toNat % 64)).getLsbD i = _
  rw [BitVec.getLsbD_shiftLeft, BitVec.getLsbD_one, Bool.eq_iff_iff]
  simp only [hi, decide_true, Bool.true_and, Bool.and_eq_true, Bool.not_eq_true',
    decide_eq_false_iff_not, decide_eq_true_eq]
  omega

/-- A byte is a member if its bit is set in its word. -/
theorem mem_iff : b ∈ s ↔ (s.word (wordIndex b)).getLsbD (b.toNat % 64) = true := by
  have hand : ∀ i, (hi : i < 64) → ((s.words[wordIndex b] &&& bit b).toBitVec).getLsbD i =
      ((s.word (wordIndex b)).getLsbD i && decide (i = b.toNat % 64)) := by
    intro i hi
    rw [UInt64.toBitVec_and, BitVec.getLsbD_and, getLsbD_bit hi]
    rfl
  show (s.words[wordIndex b] &&& bit b != 0) = true ↔ _
  rw [bne_iff_ne, Ne, ← UInt64.toBitVec_inj]
  constructor
  · intro hne
    by_contra hbit
    refine hne (BitVec.eq_of_getLsbD_eq fun i hi => ?_)
    rw [hand i hi]
    by_cases hplace : i = b.toNat % 64
    · rw [hplace, Bool.eq_false_iff.2 hbit]
      simp
    · simp [hplace]
  · intro hbit hzero
    have hset := hand _ (place_lt b)
    rw [hzero, hbit] at hset
    simp at hset

@[simp]
theorem contains_iff : s.contains b = true ↔ b ∈ s := Iff.rfl

/-- Sets with the same members are the same words. -/
theorem ext_mem (h : ∀ b, b ∈ s ↔ b ∈ t) : s = t := by
  refine ext_word fun i => BitVec.eq_of_getLsbD_eq fun j hj => ?_
  obtain ⟨hword, hplace⟩ := place_ofNat i hj
  have hb := mem_iff.symm.trans ((h (UInt8.ofNat (64 * i.val + j))).trans mem_iff)
  rw [hword, hplace] at hb
  exact Bool.eq_iff_iff.2 hb

/-! ## Operations -/

section Words

variable {i : Fin 4}

theorem word_empty : (∅ : ByteSet).word i = 0#64 := by
  show ((Vector.replicate 4 (0 : UInt64))[i.val]).toBitVec = 0#64
  rw [Vector.getElem_replicate]
  rfl

theorem word_full : full.word i = BitVec.allOnes 64 := by
  show ((Vector.replicate 4 (0xffffffffffffffff : UInt64))[i.val]).toBitVec = _
  rw [Vector.getElem_replicate]
  rfl

theorem word_insert : (s.insert c).word i =
    if wordIndex c = i then s.word i ||| (bit c).toBitVec else s.word i := by
  show ((s.words.set (wordIndex c).val (s.words[wordIndex c] ||| bit c))[i.val]).toBitVec = _
  rw [Vector.getElem_set]
  by_cases h : wordIndex c = i
  · subst h
    rw [if_pos rfl, if_pos rfl]
    rfl
  · rw [if_neg fun hval => h (Fin.ext hval), if_neg h]
    rfl

theorem word_union : (s ∪ t).word i = s.word i ||| t.word i := by
  show ((Vector.ofFn fun i => s.words[i] ||| t.words[i])[i.val]).toBitVec = _
  rw [Vector.getElem_ofFn]
  rfl

theorem word_complement : s.complement.word i = ~~~s.word i := by
  show ((Vector.ofFn fun i => ~~~s.words[i])[i.val]).toBitVec = _
  rw [Vector.getElem_ofFn]
  rfl

end Words

@[simp]
theorem not_mem_empty : ¬ b ∈ (∅ : ByteSet) := by
  rw [mem_iff, word_empty, BitVec.getLsbD_zero]
  exact Bool.false_ne_true

@[simp]
theorem mem_full : b ∈ full := by
  rw [mem_iff, word_full, BitVec.getLsbD_allOnes]
  exact decide_eq_true (place_lt b)

@[simp]
theorem mem_insert : b ∈ s.insert c ↔ b ∈ s ∨ b = c := by
  rw [mem_iff, mem_iff, word_insert, eq_iff_place]
  by_cases h : wordIndex c = wordIndex b
  · rw [if_pos h, BitVec.getLsbD_or, getLsbD_bit (place_lt b), Bool.or_eq_true, decide_eq_true_eq]
    exact or_congr_right (iff_and_self.2 fun _ => h.symm)
  · rw [if_neg h]
    exact (or_iff_left fun hplace => h hplace.1.symm).symm

@[simp]
theorem mem_singleton : b ∈ singleton c ↔ b = c :=
  mem_insert.trans (or_iff_right not_mem_empty)

@[simp]
theorem mem_union : b ∈ s ∪ t ↔ b ∈ s ∨ b ∈ t := by
  rw [mem_iff, mem_iff, mem_iff, word_union, BitVec.getLsbD_or, Bool.or_eq_true]

/-- A set that adds nothing to another is part of it. -/
theorem mem_of_union_eq (h : s ∪ t = t) (hb : b ∈ s) : b ∈ t := h ▸ mem_union.2 (Or.inl hb)

@[simp]
theorem mem_complement : b ∈ s.complement ↔ ¬ b ∈ s := by
  rw [mem_iff, mem_iff, word_complement, BitVec.getLsbD_not, decide_eq_true (place_lt b),
    Bool.true_and, Bool.not_eq_true', Bool.not_eq_true]

theorem mem_foldl_insert {bytes : Bytes} :
    b ∈ bytes.foldl (fun s b => s.insert b) s ↔ b ∈ s ∨ b ∈ bytes := by
  induction bytes generalizing s with
  | nil => simp
  | cons c bytes ih =>
    rw [List.foldl_cons, ih, mem_insert, List.mem_cons, or_assoc]

@[simp]
theorem mem_ofList {bytes : Bytes} : b ∈ ofList bytes ↔ b ∈ bytes := by
  rw [ofList, mem_foldl_insert]
  exact or_iff_right not_mem_empty

theorem mem_byteRange : b ∈ Byte.range lo hi ↔ lo ≤ b ∧ b ≤ hi := by
  rw [Byte.range, List.mem_map, UInt8.le_iff_toNat_le, UInt8.le_iff_toNat_le]
  constructor
  · rintro ⟨n, hn, rfl⟩
    rw [List.mem_range'_1] at hn
    have hhi := hi.toNat_lt
    have hb : (UInt8.ofNat n).toNat = n := UInt8.toNat_ofNat_of_lt (show n < 256 by omega)
    rw [hb]
    omega
  · rintro ⟨hlo, hhi⟩
    exact ⟨b.toNat, List.mem_range'_1.2 (by omega), UInt8.ofNat_toNat⟩

@[simp]
theorem mem_insertRange : b ∈ s.insertRange lo hi ↔ b ∈ s ∨ (lo ≤ b ∧ b ≤ hi) := by
  unfold insertRange
  split
  · rename_i h
    rw [or_iff_left]
    rintro ⟨hlo, hhi⟩
    exact UInt8.not_lt.2 (UInt8.le_trans hlo hhi) h
  · rw [mem_foldl_insert, mem_byteRange]

@[simp]
theorem mem_range : b ∈ range lo hi ↔ lo ≤ b ∧ b ≤ hi :=
  mem_insertRange.trans (or_iff_right not_mem_empty)

theorem mem_range_self : b ∈ range c c ↔ b = c := by
  rw [mem_range]
  exact ⟨fun h => UInt8.le_antisymm h.2 h.1, fun h => h ▸ ⟨UInt8.le_refl b, UInt8.le_refl b⟩⟩

/-! ## Members -/

/-- The members of a byte set. -/
def members (s : ByteSet) : Set UInt8 := {b | b ∈ s}

theorem members_injective (h : s.members = t.members) : s = t :=
  ext_mem fun b => Set.ext_iff.1 h b

/-- Any set of bytes is that of the members of a byte set. -/
theorem members_surjective : Function.Surjective members := by
  intro r
  refine ⟨ofList (Set.toFinite r).toFinset.toList, Set.ext fun b => ?_⟩
  show b ∈ ofList _ ↔ b ∈ r
  rw [mem_ofList, Finset.mem_toList, Set.Finite.mem_toFinset]

@[simp]
theorem members_empty : (∅ : ByteSet).members = ∅ :=
  Set.eq_empty_iff_forall_notMem.2 fun _ => not_mem_empty

@[simp]
theorem members_full : full.members = Set.univ := Set.eq_univ_of_forall fun _ => mem_full

@[simp]
theorem members_singleton : (singleton b).members = {b} := Set.ext fun _ => mem_singleton

@[simp]
theorem members_union : (s ∪ t).members = s.members ∪ t.members := Set.ext fun _ => mem_union

@[simp]
theorem members_complement : s.complement.members = s.membersᶜ := Set.ext fun _ => mem_complement

theorem isEmpty_iff : s.isEmpty = true ↔ s = ∅ := by
  rw [isEmpty, List.all_eq_true]
  constructor
  · intro h
    refine ext_word fun i => ?_
    have hzero : s.words[i.val] = 0 := beq_iff_eq.1 (h _ (by simp))
    rw [word_empty]
    exact congrArg UInt64.toBitVec hzero
  · rintro rfl
    show ∀ w ∈ List.replicate 4 (0 : UInt64), (w == 0) = true
    intro w hw
    rw [List.eq_of_mem_replicate hw]
    rfl

theorem exists_mem_of_isEmpty_eq_false (h : s.isEmpty = false) : ∃ b, b ∈ s := by
  by_contra hs
  have hs : s = ∅ := ext_mem fun b => iff_of_false (fun hb => hs ⟨b, hb⟩) not_mem_empty
  rw [isEmpty_iff.2 hs] at h
  cases h

/-! ## Listing and counting -/

theorem mem_toList : b ∈ s.toList ↔ b ∈ s := by
  rw [toList, List.mem_filter, contains_iff]
  exact and_iff_right (Byte.mem_all b)

theorem toList_ascending (s : ByteSet) : s.toList.Pairwise (· < ·) := Byte.all_ascending.filter _

theorem cpopNatRec_eq_countP {n : Nat} (w : BitVec n) (k : Nat) :
    w.cpopNatRec k 0 = (List.range k).countP w.getLsbD := by
  induction k with
  | zero => rfl
  | succ k ih =>
    rw [BitVec.cpopNatRec_succ, BitVec.cpopNatRec_add, ih, List.range_succ, List.countP_append,
      List.countP_singleton]
    cases w.getLsbD k <;> rfl

/-- Counting up to a multiple of 64 is counting in pieces of 64. -/
theorem countP_range_mul (p : Nat → Bool) (n : Nat) : (List.range (64 * n)).countP p =
    ∑ i ∈ Finset.range n, (List.range 64).countP fun j => p (64 * i + j) := by
  induction n with
  | zero => rfl
  | succ n ih =>
    rw [Nat.mul_succ, List.range_add, List.countP_append, ih, List.countP_map,
      Finset.sum_range_succ]
    rfl

theorem cpop_word (i : Fin 4) : (s.word i).cpop.toNat =
    (List.range 64).countP fun j => s.contains (UInt8.ofNat (64 * i.val + j)) := by
  rw [BitVec.toNat_cpop, cpopNatRec_eq_countP]
  refine List.countP_congr fun j hj => ?_
  obtain ⟨hword, hplace⟩ := place_ofNat i (List.mem_range.1 hj)
  rw [contains_iff, mem_iff, hword, hplace]

/-- As many bits are set as there are members. -/
theorem size_eq_length (s : ByteSet) : s.size = s.toList.length := by
  have hwords : s.words.toList = List.ofFn fun i : Fin 4 => s.words[i] := by
    rw [← Vector.toList_ofFn]
    refine congrArg Vector.toList (Vector.ext fun i hi => ?_)
    rw [Vector.getElem_ofFn, Fin.getElem_fin]
  calc s.size
      = ∑ i : Fin 4, (s.word i).cpop.toNat := by
        rw [size, hwords, ← List.sum_ofFn, ← List.foldr_map, ← List.sum_eq_foldr, List.map_ofFn]
        rfl
    _ = (List.range (64 * 4)).countP fun n => s.contains (UInt8.ofNat n) := by
        rw [countP_range_mul, Finset.sum_range]
        exact Finset.sum_congr rfl fun i _ => cpop_word i
    _ = s.toList.length := by
        rw [toList, ← List.countP_eq_length_filter, Byte.all, List.countP_map]
        rfl

/-- The size is the number of members. -/
theorem size_eq_ncard (s : ByteSet) : s.size = s.members.ncard := by
  have hnodup : s.toList.Nodup := (s.toList_ascending).imp fun h => UInt8.ne_of_lt h
  have hmembers : s.members = ↑s.toList.toFinset := by
    ext b
    rw [Finset.mem_coe, List.mem_toFinset, mem_toList]
    rfl
  rw [hmembers, Set.ncard_coe_finset, List.toFinset_card_of_nodup hnodup, size_eq_length]

end ByteSet

/-! ## Programs

The words that a program computes stand for what the same operations make of plain sets. -/

/-- A byte set is made anew, or from others that have been made. -/
inductive SetProgram
  | empty
  | full
  | singleton (b : UInt8)
  | range (lo hi : UInt8)
  | ofList (bytes : Bytes)
  | insert (p : SetProgram) (b : UInt8)
  | insertRange (p : SetProgram) (lo hi : UInt8)
  | union (p q : SetProgram)
  | complement (p : SetProgram)

namespace SetProgram

/-- The byte set a program makes. -/
def run : SetProgram → ByteSet
  | empty => .empty
  | full => .full
  | singleton b => .singleton b
  | range lo hi => .range lo hi
  | ofList bytes => .ofList bytes
  | insert p b => p.run.insert b
  | insertRange p lo hi => p.run.insertRange lo hi
  | union p q => p.run ∪ q.run
  | complement p => p.run.complement

/-- The set a program stands for, by the same operations on plain sets. -/
def denote : SetProgram → Set UInt8
  | empty => ∅
  | full => Set.univ
  | singleton b => {b}
  | range lo hi => {c | lo ≤ c ∧ c ≤ hi}
  | ofList bytes => {c | c ∈ bytes}
  | insert p b => Insert.insert b p.denote
  | insertRange p lo hi => p.denote ∪ {c | lo ≤ c ∧ c ≤ hi}
  | union p q => p.denote ∪ q.denote
  | complement p => p.denoteᶜ

variable {p q : SetProgram} {b : UInt8}

theorem mem_run (p : SetProgram) : b ∈ p.run ↔ b ∈ p.denote := by
  induction p with
  | empty => exact iff_of_false ByteSet.not_mem_empty (Set.notMem_empty b)
  | full => exact iff_of_true ByteSet.mem_full (Set.mem_univ b)
  | singleton c => exact ByteSet.mem_singleton
  | range lo hi => exact ByteSet.mem_range
  | ofList bytes => exact ByteSet.mem_ofList
  | insert p c ih => exact ByteSet.mem_insert.trans (or_comm.trans (or_congr_right ih))
  | insertRange p lo hi ih => exact ByteSet.mem_insertRange.trans (or_congr_left ih)
  | union p q ihp ihq => exact ByteSet.mem_union.trans (or_congr ihp ihq)
  | complement p ih => exact ByteSet.mem_complement.trans (not_congr ih)

theorem members_run (p : SetProgram) : p.run.members = p.denote := Set.ext fun _ => p.mem_run

theorem run_eq_iff : p.run = q.run ↔ p.denote = q.denote := by
  rw [← members_run, ← members_run]
  exact ⟨congrArg ByteSet.members, ByteSet.members_injective⟩

theorem isEmpty_run_iff : p.run.isEmpty = true ↔ p.denote = ∅ := by
  rw [ByteSet.isEmpty_iff, ← members_run, ← ByteSet.members_empty]
  exact ⟨congrArg ByteSet.members, ByteSet.members_injective⟩

/-- The byte set a program makes answers all questions as the set it stands for does: for a byte,
for the list of the members and their number, whether there are any, and whether another one is
equal. -/
theorem run_represents (p : SetProgram) :
    (∀ b, p.run.contains b = true ↔ b ∈ p.denote) ∧
      (p.run.toList.Pairwise (· < ·) ∧ ∀ b, b ∈ p.run.toList ↔ b ∈ p.denote) ∧
      p.run.size = p.denote.ncard ∧
      (p.run.isEmpty = true ↔ p.denote = ∅) ∧
      ∀ q : SetProgram, p.run = q.run ↔ p.denote = q.denote := by
  refine ⟨fun b => p.mem_run, ⟨p.run.toList_ascending, fun b => ?_⟩, ?_, isEmpty_run_iff,
    fun q => run_eq_iff⟩
  · exact ByteSet.mem_toList.trans p.mem_run
  · rw [ByteSet.size_eq_ncard, members_run]

/-- The bytes next to where one word ends and the next begins. -/
example : (SetProgram.range 63 64).complement.run.words.toList =
    [0x7fffffffffffffff, 0xfffffffffffffffe, 0xffffffffffffffff, 0xffffffffffffffff] := by decide

end SetProgram

end MaximalMunch
