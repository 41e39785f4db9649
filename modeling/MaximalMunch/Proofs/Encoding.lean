import Mathlib
import MaximalMunch.Byte
import MaximalMunch.Text.Utf8

/-! Texts as bytes. The bytes of a text are those of its characters, one character after the other;
ASCII characters are single bytes, and all bytes of other characters are above them. Reading the
bytes of a text gives the text. -/

namespace MaximalMunch

variable {c : Char} {b : UInt8}

private theorem toList_loop_eq (a : ByteArray) (i : Nat) (read : List UInt8) :
    ByteArray.toList.loop a i read = read.reverse ++ a.data.toList.drop i := by
  induction i, read using ByteArray.toList.loop.induct a with
  | case1 i read hi ih =>
    have hlt : i < a.data.toList.length := hi
    have hget : a.get! i = a.data.toList[i] := by
      rw [Array.getElem_toList]
      exact getElem!_pos a.data i hlt
    rw [ByteArray.toList.loop, if_pos hi, ih, hget, List.drop_eq_getElem_cons hlt,
      List.reverse_cons, List.append_assoc, List.singleton_append]
  | case2 i read hi =>
    have hle : a.data.toList.length ≤ i := Nat.le_of_not_lt hi
    rw [ByteArray.toList.loop, if_neg hi, List.drop_eq_nil_of_le hle, List.append_nil]

theorem bytesOf_eq (text : String) : bytesOf text = text.toByteArray.data.toList := by
  rw [bytesOf, String.toUTF8_eq_toByteArray, ByteArray.toList, toList_loop_eq]
  rfl

theorem bytesOf_append (text more : String) :
    bytesOf (text ++ more) = bytesOf text ++ bytesOf more := by
  rw [bytesOf_eq, bytesOf_eq, bytesOf_eq, String.toByteArray_append, ByteArray.data_append,
    Array.toList_append]

theorem bytesOf_eq_nil_iff {text : String} : bytesOf text = [] ↔ text = "" := by
  rw [bytesOf_eq, ← String.toByteArray_eq_empty_iff, ← ByteArray.size_eq_zero_iff,
    Array.toList_eq_nil_iff, ← Array.size_eq_zero_iff]
  rfl

/-- The bytes of a text are those of its characters. -/
theorem bytesOf_ofList (chars : List Char) :
    bytesOf (String.ofList chars) = chars.flatMap String.utf8EncodeChar := by
  rw [bytesOf_eq, String.toByteArray_ofList, List.utf8Encode, List.data_toByteArray]

theorem bytesOf_eq_flatMap (text : String) :
    bytesOf text = text.toList.flatMap String.utf8EncodeChar := by
  rw [← bytesOf_ofList, String.ofList_toList]

/-! ## Characters -/

/-- An ASCII character is one byte, its own code. -/
theorem utf8EncodeChar_of_lt (h : c.toNat < 128) : String.utf8EncodeChar c = [c.toUInt8] := by
  have hsize : c.utf8Size = 1 := Char.utf8Size_eq_one_iff.2 (Nat.le_of_lt_succ h)
  exact String.utf8EncodeChar_eq_singleton hsize

/-- The bytes of other characters are no ASCII characters. -/
theorem le_of_mem_utf8EncodeChar (h : 128 ≤ c.toNat) (hb : b ∈ String.utf8EncodeChar c) :
    128 ≤ b := by
  have hcode : ¬ c.val.toNat ≤ 127 := Nat.not_le_of_lt h
  rw [String.utf8EncodeChar, if_neg hcode] at hb
  rw [UInt8.le_iff_toNat_le]
  split_ifs at hb
  all_goals
    simp only [List.mem_cons, List.not_mem_nil, or_false] at hb
    rcases hb with rfl | rfl | rfl | rfl <;> simp <;> omega

/-- The first byte of a character is none of those that continue one. -/
theorem head_utf8EncodeChar (h : (String.utf8EncodeChar c).head? = some b) :
    b < 128 ∨ 192 ≤ b := by
  rw [String.utf8EncodeChar] at h
  generalize c.val.toNat = v at h
  rw [UInt8.lt_iff_toNat_lt, UInt8.le_iff_toNat_le]
  split_ifs at h
  all_goals
    rw [List.head?_cons, Option.some.injEq] at h
    subst h
    simp
    omega

/-! ## Reading the bytes of a text

A character is read byte by byte: the first byte says how many follow, and each of those brings six
bits. -/

namespace Utf8

variable {rest : Bytes} {bits due n v : Nat} {lo hi : UInt8}

/-! ### First bytes -/

theorem begin_one : ∀ n < 128, begin (UInt8.ofNat n) = ([Char.ofNat n], none) := by decide

theorem begin_two : ∀ n < 32, 2 ≤ n →
    begin (UInt8.ofNat (n + 192)) = ([], some ⟨n, 1, 0x80, 0xbf⟩) := by decide

theorem begin_three : ∀ n < 16, begin (UInt8.ofNat (n + 224)) =
    ([], some ⟨n, 2, if n = 0 then 0xa0 else 0x80, if n = 13 then 0x9f else 0xbf⟩) := by decide

theorem begin_four : ∀ n < 5, begin (UInt8.ofNat (n + 240)) =
    ([], some ⟨n, 3, if n = 0 then 0x90 else 0x80, if n = 4 then 0x8f else 0xbf⟩) := by decide

theorem decodeFrom_begin {b : UInt8} {chars : List Char} {next : Option Unfinished}
    (h : begin b = (chars, next)) :
    decodeFrom none (b :: rest) = chars ++ decodeFrom next rest := by
  rw [decodeFrom]
  simp only [h]

/-! ### Bytes that follow -/

theorem continue?_of_mem {u : Unfinished} (hn : n < 64) (hlo : u.lo.toNat ≤ n + 128)
    (hhi : n + 128 ≤ u.hi.toNat) : continue? u (UInt8.ofNat (n + 128)) =
      if u.due ≤ 1 then ([Char.ofNat (u.bits * 64 + n)], none)
      else ([], some ⟨u.bits * 64 + n, u.due - 1, 0x80, 0xbf⟩) := by
  have hsize : UInt8.size = 256 := rfl
  have hb : (UInt8.ofNat (n + 128)).toNat = n + 128 := UInt8.toNat_ofNat_of_lt (by omega)
  have hin : u.lo ≤ UInt8.ofNat (n + 128) ∧ UInt8.ofNat (n + 128) ≤ u.hi := by
    rw [UInt8.le_iff_toNat_le, UInt8.le_iff_toNat_le, hb]
    exact ⟨hlo, hhi⟩
  rw [continue?, if_pos hin, hb, Nat.add_sub_cancel]

/-- A byte that more follow brings six bits. -/
theorem decodeFrom_more (hn : n < 64) (hlo : lo.toNat ≤ n + 128) (hhi : n + 128 ≤ hi.toNat) :
    decodeFrom (some ⟨bits, due + 2, lo, hi⟩) (UInt8.ofNat (n + 128) :: rest) =
      decodeFrom (some ⟨bits * 64 + n, due + 1, 0x80, 0xbf⟩) rest := by
  have hcontinue := continue?_of_mem (u := ⟨bits, due + 2, lo, hi⟩) hn hlo hhi
  rw [if_neg (by simp)] at hcontinue
  rw [decodeFrom]
  simp only [hcontinue]
  rfl

/-- The last byte ends the character. -/
theorem decodeFrom_last (hn : n < 64) (hv : bits * 64 + n = v) :
    decodeFrom (some ⟨bits, 1, 0x80, 0xbf⟩) (UInt8.ofNat (n + 128) :: rest) =
      Char.ofNat v :: decodeFrom none rest := by
  have hlo : (0x80 : UInt8).toNat ≤ n + 128 := Nat.le_add_left 128 n
  have hhi : n + 128 ≤ (0xbf : UInt8).toNat := Nat.add_le_add_right (Nat.le_of_lt_succ hn) 128
  have hcontinue := continue?_of_mem (u := ⟨bits, 1, 0x80, 0xbf⟩) hn hlo hhi
  rw [if_pos (Nat.le_refl 1), hv] at hcontinue
  rw [decodeFrom]
  simp only [hcontinue]
  rfl

/-! ### Texts -/

/-- The bytes of a character are read as the character. The bounds of the second byte are met, since
a character is not a surrogate and is not written longer than need be. -/
theorem decodeFrom_utf8EncodeChar (c : Char) (rest : Bytes) :
    decodeFrom none (String.utf8EncodeChar c ++ rest) = c :: decodeFrom none rest := by
  have hvalid : c.val.toNat < 55296 ∨ 57343 < c.val.toNat ∧ c.val.toNat < 1114112 := c.valid
  have hchar : Char.ofNat c.val.toNat = c := Char.ofNat_toNat c
  have h80 : (0x80 : UInt8).toNat = 128 := rfl
  have h8f : (0x8f : UInt8).toNat = 143 := rfl
  have h90 : (0x90 : UInt8).toNat = 144 := rfl
  have h9f : (0x9f : UInt8).toNat = 159 := rfl
  have ha0 : (0xa0 : UInt8).toNat = 160 := rfl
  have hbf : (0xbf : UInt8).toNat = 191 := rfl
  rw [String.utf8EncodeChar]
  generalize c.val.toNat = v at hvalid hchar
  split_ifs with h1 h2 h3
  · rw [List.singleton_append, decodeFrom_begin (begin_one v (by omega)), hchar]
    rfl
  · simp only [List.cons_append, List.nil_append]
    rw [decodeFrom_begin (begin_two _ (by omega) (by omega)), List.nil_append,
      decodeFrom_last (v := v) (by omega) (by omega), hchar]
  · simp only [List.cons_append, List.nil_append]
    rw [decodeFrom_begin (begin_three _ (by omega)), List.nil_append,
      decodeFrom_more (by omega) (by split_ifs <;> omega) (by split_ifs <;> omega),
      decodeFrom_last (v := v) (by omega) (by omega), hchar]
  · simp only [List.cons_append, List.nil_append]
    rw [decodeFrom_begin (begin_four _ (by omega)), List.nil_append,
      decodeFrom_more (by omega) (by split_ifs <;> omega) (by split_ifs <;> omega),
      decodeFrom_more (by omega) (by omega) (by omega),
      decodeFrom_last (v := v) (by omega) (by omega), hchar]

theorem decode_bytesOf (text : String) : decode (bytesOf text) = text := by
  have hchars : ∀ chars : List Char,
      decodeFrom none (chars.flatMap String.utf8EncodeChar) = chars := by
    intro chars
    induction chars with
    | nil => rfl
    | cons c chars ih => rw [List.flatMap_cons, decodeFrom_utf8EncodeChar, ih]
  rw [decode, bytesOf_eq_flatMap, hchars, String.ofList_toList]

end Utf8

end MaximalMunch
