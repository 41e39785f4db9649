import MaximalMunch.CLike
import MaximalMunch.Proofs.Encoding
import MaximalMunch.Proofs.Escaping
import MaximalMunch.Proofs.Faults
import MaximalMunch.Proofs.Margins
import MaximalMunch.Proofs.Verdict

/-! Words of the small language. A word is matched as far as it goes, and as a whole it is a keyword
or else an identifier: no other pattern begins with a letter or an underscore, and the keywords come
first. -/

namespace MaximalMunch

open Computability

/-! ## Matches by symbol -/

namespace Tokenizer

variable {t : Tokenizer} {patterns more : List (String × Symbol)} {w : Bytes}

/-- The symbol of the first pattern that matches a text. -/
def firstSymbol (patterns : List (String × Symbol)) (w : Bytes) : Option Symbol :=
  (patterns.find? fun p => Pattern.textMatches p.1 w).map (·.2)

theorem firstSymbol_eq (patterns : List (String × Symbol)) (w : Bytes) :
    firstSymbol patterns w = (CompiledPatterns.leastMatch (patterns.map (·.1)) w).map
      fun i => (patterns.map (·.2)).getD i .error := by
  unfold firstSymbol CompiledPatterns.leastMatch
  induction patterns with
  | nil => rfl
  | cons p patterns ih =>
    rw [List.map_cons, List.map_cons, List.find?_cons, List.findIdx?_cons]
    cases Pattern.textMatches p.1 w with
    | true => rfl
    | false =>
      simp only [ih, Option.map_map, Bool.false_eq_true, if_false]
      rfl

theorem firstSymbol_append : firstSymbol (patterns ++ more) w =
    (firstSymbol patterns w).or (firstSymbol more w) := by
  unfold firstSymbol
  rw [List.find?_append]
  cases patterns.find? (fun p => Pattern.textMatches p.1 w) <;> rfl

theorem firstSymbol_eq_none_iff : firstSymbol patterns w = none ↔
    ∀ p ∈ patterns, Pattern.textMatches p.1 w = false := by
  simp [firstSymbol]

theorem exists_of_firstSymbol {symbol : Symbol} (h : firstSymbol patterns w = some symbol) :
    ∃ p ∈ patterns, Pattern.textMatches p.1 w = true ∧ p.2 = symbol := by
  obtain ⟨p, hp, rfl⟩ := Option.map_eq_some_iff.1 h
  exact ⟨p, List.mem_of_find?_eq_some hp, by simpa using List.find?_some hp, rfl⟩

/-- The match at the front is the longest beginning that a pattern matches, with the symbol of the
first such pattern. -/
theorem Recognizes.isLongest (r : t.Recognizes patterns) (rest : Bytes) :
    IsLongest 1 (firstSymbol patterns) rest (t.matchAt rest) := by
  rw [r.matchAt, funext (firstSymbol_eq patterns)]
  exact (r.longest rest).map _

end Tokenizer

/-- A text without special bytes matches itself only. -/
theorem Pattern.textMatches_plain {text : String} (hne : bytesOf text ≠ [])
    (hplain : escapedBytes (bytesOf text) = bytesOf text) (w : Bytes) :
    textMatches text w = decide (w = bytesOf text) := by
  obtain ⟨p, hp⟩ := exists_spells hne
  rw [hplain] at hp
  rw [textMatches_of_read (read_iff_derives.2 (.choice hp.derives)), Bool.eq_iff_iff,
    nfa_isMatch_iff, reading_eq_language p hp.nonempty, hp.words, decide_eq_true_eq]

theorem Cursor.advance_of_not_mem {bytes : Bytes} (h : 10 ∉ bytes) (c : Cursor) :
    c.advance bytes = { c with pos := c.pos + bytes.length } := by
  induction bytes generalizing c with
  | nil => rfl
  | cons b bytes ih =>
    rw [List.mem_cons, not_or] at h
    have hstep : c.step b = { c with pos := c.pos + 1 } := if_neg (Ne.symm h.1)
    show (c.step b).advance bytes = _
    rw [ih h.2, hstep, List.length_cons, Nat.add_right_comm, Nat.add_assoc]

namespace CLike

variable {b : UInt8} {w : Bytes} {t : Tokenizer}

/-! ## Words -/

/-- A letter or an underscore. -/
def IsLetter (b : UInt8) : Prop := 97 ≤ b ∧ b ≤ 122 ∨ 65 ≤ b ∧ b ≤ 90 ∨ b = 95

/-- A letter, an underscore or a digit. -/
def IsWordByte (b : UInt8) : Prop := IsLetter b ∨ 48 ≤ b ∧ b ≤ 57

/-- A letter or an underscore with any letters, digits and underscores behind it. -/
def IsWord : Bytes → Prop
  | [] => False
  | b :: rest => IsLetter b ∧ ∀ c ∈ rest, IsWordByte c

instance : DecidablePred IsLetter := fun _ => inferInstanceAs (Decidable (_ ∨ _))

instance : DecidablePred IsWordByte := fun _ => inferInstanceAs (Decidable (_ ∨ _))

instance : DecidablePred IsWord
  | [] => inferInstanceAs (Decidable False)
  | _ :: _ => inferInstanceAs (Decidable (_ ∧ _))

/-- The symbol of a word: each keyword has its own, and all others are identifiers. -/
def wordSymbol : String → Symbol
  | "if" => ifKeyword
  | "else" => elseKeyword
  | "for" => forKeyword
  | "break" => breakKeyword
  | "while" => whileKeyword
  | "do" => doKeyword
  | "int" => intKeyword
  | "printf" => printfKeyword
  | _ => identifier

/-- The letters and the underscore. -/
def letters : ByteSet := .range 97 122 ∪ .range 65 90 ∪ .singleton 95

theorem mem_letters : b ∈ letters ↔ IsLetter b := by
  simp [letters, IsLetter, or_assoc]

theorem mem_wordBytes : b ∈ Glyph.wordBytes ↔ IsWordByte b := by
  simp only [Glyph.wordBytes, Glyph.digits, ByteSet.mem_union, ByteSet.mem_range,
    ByteSet.mem_singleton, IsWordByte, IsLetter]
  tauto

/-- Any bytes of a set, one after the other. -/
theorem mem_kstar_bytes {s : ByteSet} :
    w ∈ (Pattern.atom s).language∗ ↔ ∀ b ∈ w, b ∈ s := by
  rw [Language.mem_kstar]
  constructor
  · rintro ⟨parts, rfl, hparts⟩ b hb
    obtain ⟨part, hpart, hmem⟩ := List.mem_flatten.1 hb
    obtain ⟨c, hc, rfl⟩ := hparts part hpart
    exact List.mem_singleton.1 hmem ▸ hc
  · intro h
    refine ⟨w.map ([·]), by rw [← List.flatMap_def, List.flatMap_singleton'], fun part hpart => ?_⟩
    obtain ⟨b, hb, rfl⟩ := List.mem_map.1 hpart
    exact ⟨b, h b hb, rfl⟩

/-- Identifiers are just the words. -/
theorem textMatches_identifier : Pattern.textMatches "[a-zA-Z_]\\w*" w = true ↔ IsWord w := by
  have hread : Pattern.read (bytesOf "[a-zA-Z_]\\w*") =
      .ok (.seq (.atom letters) (.quantified .star (.atom Glyph.wordBytes))) := by
    decide +kernel
  rw [Pattern.textMatches_of_read hread, Pattern.nfa_isMatch_iff,
    Pattern.reading_eq_language _ (by decide +kernel)]
  show w ∈ (Pattern.atom letters).language * (Pattern.atom Glyph.wordBytes).language∗ ↔ IsWord w
  rw [Language.mem_mul]
  constructor
  · rintro ⟨_, ⟨b, hb, rfl⟩, rest, hrest, rfl⟩
    exact ⟨mem_letters.1 hb, fun c hc => mem_wordBytes.1 (mem_kstar_bytes.1 hrest c hc)⟩
  · intro h
    cases w with
    | nil => cases h
    | cons b rest =>
      refine ⟨[b], ⟨b, mem_letters.2 h.1, rfl⟩, rest, ?_, rfl⟩
      exact mem_kstar_bytes.2 fun c hc => mem_wordBytes.2 (h.2 c hc)

/-- Keywords have no special bytes, and they are words. -/
theorem keywords_plain : ∀ p ∈ keywords, escapedBytes (bytesOf p.1) = bytesOf p.1 ∧
    IsWord (bytesOf p.1) := by
  decide +kernel

theorem textMatches_keyword {p : String × Symbol} (hp : p ∈ keywords) :
    Pattern.textMatches p.1 w = decide (w = bytesOf p.1) := by
  obtain ⟨hplain, hword⟩ := keywords_plain p hp
  refine Pattern.textMatches_plain (fun hnil => ?_) hplain w
  rw [hnil] at hword
  exact hword

/-- The patterns around the keywords, save that of identifiers, do not begin with letters. -/
theorem textFirst_of_not_word :
    ∀ p ∈ patterns.take 2 ++ (patterns.drop (2 + keywords.length)).dropLast,
      Pattern.textFirst p.1 ∪ letters.complement = letters.complement := by
  decide +kernel

/-- What begins with a letter is matched by keywords and identifiers only. -/
theorem firstSymbol_of_letter (hb : IsLetter b) : Tokenizer.firstSymbol patterns (b :: w) =
    (Tokenizer.firstSymbol keywords (b :: w)).or
      (if IsWord (b :: w) then some identifier else none) := by
  have hsplit : patterns = patterns.take 2 ++ keywords ++
      (patterns.drop (2 + keywords.length)).dropLast ++ [("[a-zA-Z_]\\w*", identifier)] := rfl
  have hnone : ∀ p ∈ patterns.take 2 ++ (patterns.drop (2 + keywords.length)).dropLast,
      Pattern.textMatches p.1 (b :: w) = false := by
    intro p hp
    by_contra hmatch
    rw [Bool.not_eq_false] at hmatch
    have hfirst := ByteSet.mem_of_union_eq (textFirst_of_not_word p hp)
      (Pattern.mem_textFirst hmatch)
    exact ByteSet.mem_complement.1 hfirst (mem_letters.2 hb)
  have hfront : Tokenizer.firstSymbol (patterns.take 2) (b :: w) = none :=
    Tokenizer.firstSymbol_eq_none_iff.2 fun p hp => hnone p (List.mem_append_left _ hp)
  have hbehind : Tokenizer.firstSymbol (patterns.drop (2 + keywords.length)).dropLast (b :: w) =
      none :=
    Tokenizer.firstSymbol_eq_none_iff.2 fun p hp => hnone p (List.mem_append_right _ hp)
  have hidentifier : Tokenizer.firstSymbol [("[a-zA-Z_]\\w*", identifier)] (b :: w) =
      if IsWord (b :: w) then some identifier else none := by
    by_cases hw : IsWord (b :: w)
    · simp [Tokenizer.firstSymbol, textMatches_identifier.2 hw, hw]
    · simp [Tokenizer.firstSymbol, mt textMatches_identifier.1 hw, hw]
  rw [hsplit, Tokenizer.firstSymbol_append, Tokenizer.firstSymbol_append,
    Tokenizer.firstSymbol_append, hfront, hbehind, hidentifier, Option.none_or, Option.or_none]

/-- What begins with a letter and is no word is not matched. -/
theorem firstSymbol_of_not_word (hb : IsLetter b) (hw : ¬ IsWord (b :: w)) :
    Tokenizer.firstSymbol patterns (b :: w) = none := by
  have hkeywords : Tokenizer.firstSymbol keywords (b :: w) = none := by
    refine Tokenizer.firstSymbol_eq_none_iff.2 fun p hp => ?_
    rw [textMatches_keyword hp, decide_eq_false_iff_not]
    exact fun heq => hw (heq ▸ (keywords_plain p hp).2)
  rw [firstSymbol_of_letter hb, hkeywords, if_neg hw, Option.or_none]

theorem bytesOf_inj {text text' : String} : bytesOf text = bytesOf text' ↔ text = text' := by
  refine ⟨fun h => ?_, congrArg bytesOf⟩
  rw [← Utf8.decode_bytesOf text, h, Utf8.decode_bytesOf]

/-- A keyword is looked up by its text. -/
theorem firstSymbol_keywords (word : String) : Tokenizer.firstSymbol keywords (bytesOf word) =
    (keywords.find? fun p => word = p.1).map (·.2) := by
  unfold Tokenizer.firstSymbol
  congr 1
  refine List.find?_congr fun p hp => ?_
  rw [textMatches_keyword hp]
  exact decide_eq_decide.2 bytesOf_inj

theorem wordSymbol_eq (word : String) : wordSymbol word =
    ((keywords.find? fun p => word = p.1).map (·.2)).getD identifier := by
  unfold wordSymbol
  split <;> simp_all [keywords]

theorem firstSymbol_of_word {word : String} (h : IsWord (bytesOf word)) :
    Tokenizer.firstSymbol patterns (bytesOf word) = some (wordSymbol word) := by
  rw [wordSymbol_eq]
  have hlookup := firstSymbol_keywords word
  generalize bytesOf word = w at h hlookup
  cases w with
  | nil => cases h
  | cons b rest =>
    rw [firstSymbol_of_letter h.1, hlookup, if_pos h]
    cases (keywords.find? fun p => word = p.1).map (·.2) <;> rfl

/-! ## Tokens of words -/

theorem exists_tokenizer : ∃ t, tokenizer = .ok t := by
  have hparse : ∀ p ∈ patterns, (Pattern.parse p.1).toOption.isSome = true := by decide +kernel
  refine TokenizerBuilder.exists_build_ok (List.cons_ne_nil _ _) fun p hp => ?_
  obtain ⟨_, hp⟩ := exists_eq_ok (hparse p hp)
  exact accepted_of_parse hp

theorem recognizes (h : tokenizer = .ok t) : t.Recognizes patterns :=
  TokenizerBuilder.build_recognizes h

/-- A word is matched as far as it goes. -/
theorem matchAt_word (h : tokenizer = .ok t) {word : String} (hword : IsWord (bytesOf word))
    {rest : Bytes} (hrest : ∀ b ∈ rest.head?, ¬ IsWordByte b) :
    t.matchAt (bytesOf word ++ rest) = some ((bytesOf word).length, wordSymbol word) := by
  have hsymbol := firstSymbol_of_word hword
  have hspec := (recognizes h).isLongest (bytesOf word ++ rest)
  generalize bytesOf word = w at hword hsymbol hspec
  cases w with
  | nil => cases hword
  | cons b w =>
    refine hspec.unique ⟨Nat.le_add_left 1 w.length, by simp, ?_, fun m hm hle => ?_⟩
    · rw [List.take_left, hsymbol]
    · -- What is longer goes on with a byte that ends the word.
      obtain ⟨k, rfl⟩ := Nat.exists_eq_add_of_lt hm
      rw [List.length_append] at hle
      cases rest with
      | nil =>
        rw [List.length_nil] at hle
        omega
      | cons c rest =>
        rw [Nat.add_assoc, List.take_length_add_append, List.take_succ_cons, List.cons_append]
        refine firstSymbol_of_not_word hword.1 fun hlong => ?_
        exact hrest c rfl (hlong.2 c (by simp))

/-- No word holds a line feed. -/
theorem not_mem_of_isWord (h : IsWord w) : 10 ∉ w := by
  cases w with
  | nil => cases h
  | cons b rest =>
    rintro hmem
    rcases List.mem_cons.1 hmem with rfl | hmem
    · exact absurd h.1 (by decide)
    · exact absurd (h.2 10 hmem) (by decide)

/-- There is a tokenizer, and wherever a word begins at a cursor and no further letter, digit or
underscore follows it, the token there is the word with the symbol of its keyword, or else of
identifiers, and the cursor moves behind it. -/
theorem nextToken_word : ∃ t, tokenizer = .ok t ∧
    ∀ (word : String) (front rest : Bytes) (c : Cursor), IsWord (bytesOf word) →
      (∀ b ∈ rest.head?, ¬ IsWordByte b) → c.pos = front.length →
      t.nextToken (front ++ bytesOf word ++ rest) c =
        (⟨word, wordSymbol word, c.row, c.column⟩,
          { c with pos := c.pos + (bytesOf word).length }) := by
  obtain ⟨t, h⟩ := exists_tokenizer
  refine ⟨t, h, fun word front rest c hword hrest hc => ?_⟩
  have hnewline : t.newline = .lineFeed := (TokenizerBuilder.build_ok h).1
  have hsymbol : (wordSymbol word == Symbol.lineFeed) = false := by
    unfold wordSymbol
    split <;> decide
  have hdrop : (front ++ bytesOf word ++ rest).drop c.pos = bytesOf word ++ rest := by
    rw [hc, List.append_assoc, List.drop_left]
  have hmatch := matchAt_word h hword hrest
  rw [← hdrop] at hmatch
  rw [Tokenizer.nextToken_of_match hmatch, hdrop, List.take_left, Tokenizer.tokenText, hnewline,
    hsymbol, Utf8.decode_bytesOf, Cursor.advance_of_not_mem (not_mem_of_isWord hword)]
  rfl

theorem nextToken_word_beyond_keyword : ∃ t, tokenizer = .ok t ∧ IsWord (bytesOf "iff") ∧
    (∀ b ∈ ([40] : Bytes).head?, ¬ IsWordByte b) ∧
    t.nextToken [105, 102, 102, 40] (.atStart 1) = (⟨"iff", identifier, 1, 0⟩, ⟨3, 1, 0⟩) := by
  obtain ⟨t, h, htoken⟩ := nextToken_word
  have hword : IsWord (bytesOf "iff") := by decide +kernel
  have hrest : ∀ b ∈ ([40] : Bytes).head?, ¬ IsWordByte b := by decide +kernel
  have hbytes : bytesOf "iff" = [105, 102, 102] := by decide +kernel
  have hnext := htoken "iff" [] [40] (.atStart 1) hword hrest rfl
  rw [hbytes] at hnext
  exact ⟨t, h, hword, hrest, hnext⟩

end CLike

end MaximalMunch
