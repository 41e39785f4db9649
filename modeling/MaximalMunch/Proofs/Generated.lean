import MaximalMunch.Proofs.Choices
import MaximalMunch.Proofs.Escaping
import MaximalMunch.Proofs.Recognition
import MaximalMunch.Random

/-! Random patterns are well formed. They are put together from characters but read byte by byte, so
that a literal may be two atoms, of which a quantifier takes the last, and a range goes from the
last byte of one character to the first byte of another. -/

namespace MaximalMunch

open Grammar

/-! ## Characters -/

/-- The bytes of some characters. -/
def encoded (chars : List Char) : Bytes := chars.flatMap String.utf8EncodeChar

theorem encoded_append (chars others : List Char) :
    encoded (chars ++ others) = encoded chars ++ encoded others := List.flatMap_append

theorem encoded_flatten (parts : List (List Char)) :
    encoded parts.flatten = (parts.map encoded).flatten := by
  induction parts with
  | nil => rfl
  | cons chars parts ih =>
    rw [List.flatten_cons, encoded_append, ih, List.map_cons, List.flatten_cons]

theorem encoded_intercalate (sep : List Char) (parts : List (List Char)) :
    encoded (sep.intercalate parts) = (encoded sep).intercalate (parts.map encoded) := by
  induction parts with
  | nil => rfl
  | cons chars parts ih =>
    cases parts with
    | nil => rw [List.intercalate_singleton, List.map_singleton, List.intercalate_singleton]
    | cons others parts =>
      rw [List.intercalate_cons_cons, encoded_append, encoded_append, ih, List.map_cons,
        List.map_cons, List.map_cons, List.intercalate_cons_cons]

theorem encoded_ofUInt8_of_lt {b : UInt8} (h : b < 128) : encoded [Char.ofUInt8 b] = [b] := by
  have hcode : (Char.ofUInt8 b).toNat < 128 := h
  have hbyte : (Char.ofUInt8 b).toUInt8 = b := UInt8.toUInt8_toUInt32 b
  rw [encoded, List.flatMap_singleton, utf8EncodeChar_of_lt hcode, hbyte]

/-- The character of a byte that is not ASCII is written with two bytes, of which the first is
higher than the last can be. -/
theorem encoded_ofUInt8_of_le {b : UInt8} (h : 128 ≤ b) : ∃ lead last,
    encoded [Char.ofUInt8 b] = [lead, last] ∧ 194 ≤ lead ∧ last < 194 := by
  have hcode : (Char.ofUInt8 b).val.toNat = b.toNat := rfl
  have hlow : 128 ≤ b.toNat := h
  have hhigh : b.toNat < 256 := b.toNat_lt
  refine ⟨UInt8.ofNat (b.toNat / 64 % 32 + 192), UInt8.ofNat (b.toNat % 64 + 128), ?_, ?_⟩
  · rw [encoded, List.flatMap_singleton, String.utf8EncodeChar, hcode, if_neg (by omega),
      if_pos (by omega)]
  · have h194 : UInt8.toNat 194 = 194 := rfl
    simp only [UInt8.le_iff_toNat_le, UInt8.lt_iff_toNat_lt, UInt8.toNat_ofNat', h194]
    omega

/-! ## Parts of the grammar -/

namespace Grammar

variable {t u : Bytes} {b lo hi : UInt8} {parts : List Bytes}

/-- Bytes without a meaning of their own. -/
def Plain (t : Bytes) : Prop := ∀ b ∈ t, b ∉ Glyph.special

theorem plain_of_le (h : 128 ≤ b) : b ∉ Glyph.special :=
  fun hb => UInt8.not_le.2 (lt_of_special b hb) h

theorem setByte_plain (h : b ∉ Glyph.special) : SetByte [b] b :=
  .plain b fun heq => h (heq ▸ by decide)

theorem ne_of_plain {c : UInt8} (h : b ∉ Glyph.special) (hc : c ∈ Glyph.special) : [b] ≠ [c] :=
  fun heq => h ((List.singleton_inj.1 heq) ▸ hc)

/-- Plain bytes are elements of a set. -/
theorem Plain.elements (h : Plain t) : ∃ s, Elements t s := by
  induction t with
  | nil => exact ⟨_, .nil⟩
  | cons b t ih =>
    obtain ⟨hb, ht⟩ := List.forall_mem_cons.1 h
    obtain ⟨s, hs⟩ := ih ht
    have hbyte : Element [b] {b} :=
      .byte (setByte_plain hb) (ne_of_plain hb (by decide)) (ne_of_plain hb (by decide))
    exact ⟨_, .cons hbyte hs⟩

theorem Elements.append {s r : Set UInt8} (h : Elements t s) (h' : Elements u r) :
    Elements (t ++ u) (s ∪ r) := by
  induction h with
  | nil => rwa [List.nil_append, Set.empty_union]
  | cons ht _ ih =>
    rw [List.append_assoc, Set.union_assoc]
    exact .cons ht ih

/-- Plain bytes with a range between two of them are elements of a set. -/
theorem Plain.elements_range (ht : Plain (t ++ [lo])) (hu : Plain (hi :: u)) (hlt : lo < hi) :
    ∃ s, Elements (t ++ [lo] ++ 45 :: hi :: u) s := by
  obtain ⟨htail, hlast⟩ := List.forall_mem_append.1 ht
  obtain ⟨hhi, hu⟩ := List.forall_mem_cons.1 hu
  have hlo := hlast lo (List.mem_singleton.2 rfl)
  obtain ⟨s, hs⟩ := Plain.elements htail
  obtain ⟨r, hr⟩ := Plain.elements hu
  have hrange : Element ([lo] ++ 45 :: [hi]) (between lo hi) :=
    .range (setByte_plain hlo) (ne_of_plain hlo (by decide)) (ne_of_plain hlo (by decide))
      (setByte_plain hhi) (ne_of_plain hhi (by decide)) hlt
  have hrest : Elements ([lo] ++ 45 :: [hi] ++ u) (between lo hi ∪ r) := .cons hrange hr
  rw [List.append_assoc]
  exact ⟨_, hs.append hrest⟩

/-- Elements in brackets, with or without a caret in front, are a primitive. -/
theorem text_bracketed {s : Set UInt8} (h : Elements t s) (hne : t ≠ [])
    (hcaret : t.head? ≠ some 94) (negated : Bool) :
    Text .primitive (91 :: (if negated then [94] else []) ++ t ++ [93]) := by
  cases negated with
  | false => exact .atom (.bracketed (.plain (.plain h hne) hcaret))
  | true => exact .atom (.bracketed (.negated (.plain h hne)))

theorem text_literal (h : b ∉ Glyph.special) : Text .primitive [b] := by
  have hsub : [40, 41, 91, 46, 92, 42, 43, 63, 124] ⊆ Glyph.special := by decide
  exact .atom (.literal b fun hb => h (hsub hb))

namespace Text

theorem append (h : Text .concatenation t) (h' : Text .concatenation u) :
    Text .concatenation (t ++ u) := by
  cases h with
  | concatenation hne hall =>
    cases h' with
    | concatenation _ hall' =>
      rw [← List.flatten_append]
      exact .concatenation (List.append_ne_nil_of_left_ne_nil hne _)
        (List.forall_mem_append.2 ⟨hall, hall'⟩)

/-- Concatenations one after the other are a concatenation. -/
theorem flatten (hne : parts ≠ []) (h : ∀ t ∈ parts, Text .concatenation t) :
    Text .concatenation parts.flatten := by
  induction parts with
  | nil => exact absurd rfl hne
  | cons t parts ih =>
    obtain ⟨ht, hall⟩ := List.forall_mem_cons.1 h
    cases parts with
    | nil => rwa [List.flatten_singleton]
    | cons u parts => exact ht.append (ih (List.cons_ne_nil u parts) hall)

end Text

/-- A primitive, perhaps with a concatenation in front, so that a quantifier may follow. -/
inductive Open : Bytes → Prop
  | alone {t : Bytes} (h : Text .primitive t) : Open t
  | behind {t u : Bytes} (h : Text .concatenation t) (h' : Text .primitive u) : Open (t ++ u)

theorem Open.concatenation (h : Open t) : Text .concatenation t := by
  cases h with
  | alone h => exact (Text.bare h).single
  | behind h h' => exact h.seq (.bare h')

theorem Open.quantified (h : Open t) (q : Quantifier) : Text .concatenation (t ++ [mark q]) := by
  cases h with
  | alone h => exact (h.quantified q).single
  | behind h h' =>
    rw [List.append_assoc]
    exact h.seq (h'.quantified q)

/-- Plain bytes stand for themselves, one after the other. -/
theorem Plain.concatenation (hne : t ≠ []) (h : Plain t) : Text .concatenation t := by
  induction t with
  | nil => exact absurd rfl hne
  | cons b t ih =>
    obtain ⟨hb, ht⟩ := List.forall_mem_cons.1 h
    have hfirst := (Text.bare (text_literal hb)).single
    cases t with
    | nil => exact hfirst
    | cons c t => exact hfirst.append (ih (List.cons_ne_nil c t) ht)

/-- A quantifier may follow plain bytes, of which it takes the last. -/
theorem Plain.open (hne : t ≠ []) (h : Plain t) : Open t := by
  obtain rfl | ⟨front, b, rfl⟩ := List.eq_nil_or_concat' t
  · exact absurd rfl hne
  · obtain ⟨hfront, hb⟩ := List.forall_mem_append.1 h
    have hlast := text_literal (hb b (List.mem_singleton.2 rfl))
    cases front with
    | nil => exact .alone hlast
    | cons c front => exact .behind (Plain.concatenation (List.cons_ne_nil c front) hfront) hlast

/-! ## Characters of plain bytes -/

theorem plain_encoded (h : b ∉ Glyph.special) : Plain (encoded [Char.ofUInt8 b]) := by
  by_cases hlt : b < 128
  · rw [encoded_ofUInt8_of_lt hlt]
    exact List.forall_mem_singleton.2 h
  · intro c hc
    rw [encoded, List.flatMap_singleton] at hc
    have hcode : 128 ≤ (Char.ofUInt8 b).toNat := UInt8.not_lt.1 hlt
    exact plain_of_le (le_of_mem_utf8EncodeChar hcode hc)

theorem encoded_ne_nil (c : Char) (chars : List Char) : encoded (c :: chars) ≠ [] := by
  have hlength := String.length_utf8EncodeChar c
  have hpos := c.utf8Size_pos
  rw [encoded, List.flatMap_cons]
  exact List.append_ne_nil_of_left_ne_nil (List.ne_nil_of_length_pos (hlength ▸ hpos)) _

/-- The last byte of a character is below the first byte of one with a higher code. -/
theorem last_lt_first {a : UInt8} (h : a < b) : ∃ t lo hi u,
    encoded [Char.ofUInt8 a] = t ++ [lo] ∧ encoded [Char.ofUInt8 b] = hi :: u ∧ lo < hi := by
  by_cases hb : b < 128
  · have ha : a < 128 := UInt8.lt_trans h hb
    exact ⟨[], a, b, [], encoded_ofUInt8_of_lt ha, encoded_ofUInt8_of_lt hb, h⟩
  · obtain ⟨hi, last, hencoded, hlead, _⟩ := encoded_ofUInt8_of_le (UInt8.not_lt.1 hb)
    by_cases ha : a < 128
    · have hlt : a < hi := UInt8.lt_of_lt_of_le ha (UInt8.le_trans (by decide) hlead)
      exact ⟨[], a, hi, [last], encoded_ofUInt8_of_lt ha, hencoded, hlt⟩
    · obtain ⟨lead, lo, hencoded', _, hlo⟩ := encoded_ofUInt8_of_le (UInt8.not_lt.1 ha)
      exact ⟨[lead], lo, hi, [last], hencoded', hencoded, UInt8.lt_of_lt_of_le hlo hlead⟩

end Grammar

/-! ## What is generated -/

namespace Random

open Choice

variable {σ : Type} (source : Source σ) {charset : Bytes} {operand : Choice σ (List Char)}
  {a b : UInt8}

/-- What may stand in brackets, also right behind the opening one. -/
structure InBrackets (t : Bytes) : Prop where
  elements : ∃ s, Elements t s
  nonempty : t ≠ []
  head_ne : t.head? ≠ some 94

theorem inBrackets_of_plain {t : Bytes} (hne : t ≠ []) (h : Plain t) : InBrackets t := by
  refine ⟨h.elements, hne, fun hhead => ?_⟩
  exact h 94 (List.mem_of_head? hhead) (by decide)

/-- The two characters of a range, which is not empty as it goes upwards. -/
theorem inBrackets_range (ha : a ∉ Glyph.special) (hb : b ∉ Glyph.special) (hlt : a < b) :
    InBrackets (encoded [Char.ofUInt8 a, '-', Char.ofUInt8 b]) := by
  have hparts : encoded [Char.ofUInt8 a, '-', Char.ofUInt8 b] =
      encoded [Char.ofUInt8 a] ++ 45 :: encoded [Char.ofUInt8 b] := encoded_append [_] [_, _]
  have hfirst := inBrackets_of_plain (encoded_ne_nil _ []) (plain_encoded ha)
  obtain ⟨t, lo, hi, u, hta, htb, hlohi⟩ := last_lt_first hlt
  refine ⟨?_, encoded_ne_nil _ _, ?_⟩
  · rw [hparts, hta, htb]
    exact Plain.elements_range (hta ▸ plain_encoded ha) (htb ▸ plain_encoded hb) hlohi
  · rw [hparts, List.head?_append_of_ne_nil _ hfirst.nonempty]
    exact hfirst.head_ne

theorem always_elements (ha : a ∉ Glyph.special) (hb : b ∉ Glyph.special) :
    Always (elements source a b) fun chars => InBrackets (encoded chars) := by
  have hone := inBrackets_of_plain (encoded_ne_nil _ []) (plain_encoded ha)
  have htwo : InBrackets (encoded [Char.ofUInt8 a, Char.ofUInt8 b]) := by
    refine inBrackets_of_plain (encoded_ne_nil _ _) ?_
    have hparts : encoded [Char.ofUInt8 a, Char.ofUInt8 b] =
        encoded [Char.ofUInt8 a] ++ encoded [Char.ofUInt8 b] := encoded_append [_] [_]
    rw [hparts]
    exact List.forall_mem_append.2 ⟨plain_encoded ha, plain_encoded hb⟩
  have hchars : ∀ ranged : Bool, (ranged = true → a < b) →
      Always (if ranged then pure [Char.ofUInt8 a, '-', Char.ofUInt8 b]
        else if a = b then pure [Char.ofUInt8 a] else pure [Char.ofUInt8 a, Char.ofUInt8 b] :
        Choice σ (List Char)) fun chars => InBrackets (encoded chars) := fun ranged hranged =>
    always_ite (fun h => always_pure (inBrackets_range ha hb (hranged h))) fun _ =>
      always_ite (fun _ => always_pure hone) fun _ => always_pure htwo
  unfold elements
  refine always_ite (fun hlt => always_bind (always_toss source fun ranged => ?_)) fun _ => ?_
  · exact hchars ranged fun _ => hlt
  · exact always_bind (always_pure (hchars false nofun))

section Parts

variable (hne : charset ≠ []) (hplain : ∀ b ∈ charset, b ∉ Glyph.special)
include hne hplain

theorem always_literal : Always (literal source charset) fun chars => Open (encoded chars) :=
  always_bind (always_pick source hne fun b hb =>
    always_pure (Plain.open (encoded_ne_nil _ []) (plain_encoded (hplain b hb))))

theorem always_bracketed : Always (bracketed source charset) fun chars => Open (encoded chars) := by
  refine always_bind (always_toss source fun negated => ?_)
  refine always_bind (always_pick source hne fun a ha => ?_)
  refine always_bind (always_pick source hne fun b hb => ?_)
  -- Both characters are any of the set: they are in order, out of order or the same.
  refine always_bind ((always_elements source (hplain a ha) (hplain b hb)).mono fun inner h => ?_)
  refine always_pure (.alone ?_)
  obtain ⟨s, hs⟩ := h.elements
  have hparts : encoded ('[' :: (if negated then ['^'] else []) ++ inner ++ [']']) =
      91 :: (if negated then [94] else []) ++ encoded inner ++ [93] := by
    rw [encoded_append, encoded_append]
    cases negated <;> rfl
  rw [hparts]
  exact text_bracketed hs h.nonempty h.head_ne negated

end Parts

theorem encoded_mark : ∀ c ∈ ['*', '+', '?'], ∃ q, encoded [c] = [mark q] := by
  simp only [List.forall_mem_cons]
  exact ⟨⟨.star, rfl⟩, ⟨.plus, rfl⟩, ⟨.optional, rfl⟩, List.forall_mem_nil _⟩

/-- What a quantifier may follow, with one or without, is a concatenation. -/
theorem always_quantified (h : Always operand fun chars => Open (encoded chars)) :
    Always (quantified source operand) fun chars => Text .concatenation (encoded chars) := by
  unfold quantified
  refine always_bind (h.mono fun chars hchars => ?_)
  refine always_bind (always_toss source fun marked => always_ite (fun _ => ?_) fun _ => ?_)
  · refine always_bind (always_pick source (List.cons_ne_nil _ _) fun c hc => always_pure ?_)
    obtain ⟨q, hq⟩ := encoded_mark c hc
    rw [encoded_append, hq]
    exact hchars.quantified q
  · exact always_pure hchars.concatenation

theorem always_sequence (h : Always operand fun chars => Open (encoded chars)) :
    Always (sequence source operand) fun chars => Text .concatenation (encoded chars) := by
  have hparts := always_quantified source h
  refine always_range_times source (by decide) hparts fun parts hne hall => always_pure ?_
  rw [encoded_flatten]
  exact Text.flatten (mt List.map_eq_nil_iff.1 hne) (List.forall_mem_map.2 hall)

theorem always_union (h : Always operand fun chars => Open (encoded chars)) :
    Always (union source operand) fun chars => Text .union (encoded chars) := by
  have hparts := always_sequence source h
  refine always_range_times source (by decide) hparts fun parts hne hall => always_pure ?_
  rw [encoded_intercalate]
  exact Text.union (mt List.map_eq_nil_iff.1 hne) (List.forall_mem_map.2 hall)

/-- The induction is on how deep groups may be: what is in a group is nested less deeply. -/
theorem always_operand (hne : charset ≠ []) (hplain : ∀ b ∈ charset, b ∉ Glyph.special)
    (depth : Nat) :
    Always (Random.operand source charset depth) fun chars => Open (encoded chars) := by
  have hliteral := always_literal source hne hplain
  have hset := always_bracketed source hne hplain
  induction depth with
  | zero =>
    refine always_bind (always_range source (by decide) fun choice _ _ => ?_)
    exact always_ite (fun _ => hliteral) fun _ => hset
  | succ depth ih =>
    refine always_bind (always_range source (by decide) fun choice _ _ => ?_)
    refine always_ite (fun _ => hliteral) fun _ => always_ite (fun _ => hset) fun _ => ?_
    refine always_bind ((always_union source ih).mono fun inner hinner => always_pure ?_)
    have hparts : encoded ('(' :: inner ++ [')']) = 40 :: encoded inner ++ [41] := by
      rw [encoded_append]
      rfl
    rw [hparts]
    exact .alone (.group hinner)

/-- Whatever the source gives, a pattern is generated and every graph takes it, if the characters
are any at all and have no meaning of their own. -/
theorem pattern_accepted (depth : Nat) (hne : charset ≠ [])
    (hplain : ∀ b ∈ charset, b ∉ Glyph.special) (s : σ) :
    ∃ text s', pattern source depth charset s = some (text, s') ∧
      ∀ g : Graph, ∃ h c, g.addWritten text = (h, .ok c) := by
  have hunion := always_union source (always_operand source hne hplain depth)
  have hpattern : Always (pattern source depth charset) fun text => Text .union (bytesOf text) := by
    refine always_bind (hunion.mono fun chars hchars => always_pure ?_)
    rwa [bytesOf_ofList]
  obtain ⟨text, s', htext, hwritten⟩ := hpattern s
  obtain ⟨p, hp⟩ := hwritten.derives
  refine ⟨text, s', htext, fun g => ?_⟩
  rw [Graph.addWritten, Pattern.read_iff_derives.2 hp]
  exact ⟨_, _, rfl⟩

/-- The range is read as one from `a` to the first of the two bytes of `é`, and the second. -/
theorem pattern_accepted_latin : ([97, 233] : Bytes) ≠ [] ∧
    (∀ b ∈ ([97, 233] : Bytes), b ∉ Glyph.special) ∧
    (pattern Congruential.source 1 [97, 233] (.ofSeed 29)).map Prod.fst = some "éé[a-é]" ∧
    ∃ h c, Graph.empty.addWritten "éé[a-é]" = (h, .ok c) := by
  have hne : ([97, 233] : Bytes) ≠ [] := List.cons_ne_nil _ _
  have hplain : ∀ b ∈ ([97, 233] : Bytes), b ∉ Glyph.special := by decide +kernel
  have hchosen : (pattern Congruential.source 1 [97, 233] (.ofSeed 29)).map Prod.fst =
      some "éé[a-é]" := by decide +kernel
  obtain ⟨text, s', htext, haccepted⟩ :=
    pattern_accepted Congruential.source 1 hne hplain (.ofSeed 29)
  have hsame : text = "éé[a-é]" := by
    rw [htext] at hchosen
    exact Option.some.inj hchosen
  exact ⟨hne, hplain, hchosen, hsame ▸ haccepted Graph.empty⟩

end Random

end MaximalMunch
