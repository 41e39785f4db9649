import MaximalMunch.Proofs.Choices
import MaximalMunch.Proofs.Encoding
import MaximalMunch.Proofs.Verdict

/-! What the check of a tokenizer says. The tokenizer of accepted patterns always splits an input as
their separate automata do. But it is the lengths of the texts of the pieces that are compared, and
where characters have been cut these need not be the lengths of the pieces. -/

namespace MaximalMunch

/-! ## Splitting -/

/-- An input is split into pieces, one behind the other, up to where there is no next one. A piece
comes with what was said of it. -/
inductive Splits {α : Type} (next : Bytes → Option (Nat × α)) : Bytes → List (Bytes × α) → Prop
  | stop {rest : Bytes} : next rest = none → Splits next rest []
  | piece {rest : Bytes} {length : Nat} {a : α} {pieces : List (Bytes × α)} :
      next rest = some (length, a) → Splits next (rest.drop length) pieces →
      Splits next rest ((rest.take length, a) :: pieces)

namespace Splits

variable {α β : Type} {next : Bytes → Option (Nat × α)} {next' : Bytes → Option (Nat × β)}
  {rest : Bytes} {pieces : List (Bytes × α)} {length : Nat} {a : α}

theorem eq_cons (h : Splits next rest pieces) (hsome : next rest = some (length, a)) :
    ∃ others, pieces = (rest.take length, a) :: others ∧ Splits next (rest.drop length) others := by
  cases h with
  | stop hnone =>
    rw [hnone] at hsome
    cases hsome
  | piece hsome' hothers =>
    rw [hsome] at hsome'
    cases hsome'
    exact ⟨_, rfl, hothers⟩

/-- If every next piece is not empty, an input can be split. -/
theorem exists_of_pos (hpos : ∀ rest length a, next rest = some (length, a) →
    0 < length ∧ length ≤ rest.length) (rest : Bytes) : ∃ pieces, Splits next rest pieces := by
  induction hn : rest.length using Nat.strongRecOn generalizing rest with
  | ind n ih =>
    cases hnext : next rest with
    | none => exact ⟨[], stop hnext⟩
    | some found =>
      obtain ⟨length, a⟩ := found
      obtain ⟨hlength, hle⟩ := hpos rest length a hnext
      obtain ⟨pieces, hpieces⟩ :=
        ih (rest.drop length).length (by rw [List.length_drop]; omega) (rest.drop length) rfl
      exact ⟨_, piece hnext hpieces⟩

/-- Saying something else of each piece does not change how an input is split. -/
theorem map {f : α → β} (h : Splits next rest pieces)
    (hnext : ∀ rest, next' rest = (next rest).map fun x => (x.1, f x.2)) :
    Splits next' rest (pieces.map fun x => (x.1, f x.2)) := by
  induction h with
  | stop hnone => exact stop (by rw [hnext, hnone, Option.map_none])
  | piece hsome _ ih => exact piece (by rw [hnext, hsome, Option.map_some]) ih

end Splits

namespace Check

variable {t : Tokenizer} {dfas : List Dfa} {texts : List String} {rest : Bytes}
  {i length count : Nat} {pieces : List (Bytes × Nat)}

theorem oracle_pos (h : oracle dfas rest = some (length, i)) :
    0 < length ∧ length ≤ rest.length := by
  have hspec := oracle_spec dfas rest
  rw [h] at hspec
  exact ⟨hspec.1, hspec.2.1⟩

/-! ## Symbols by number -/

/-- The symbol that the pattern at an index gets. -/
def numberedSymbol (i : Nat) : Symbol := .own (UInt32.ofNat i + 1) "Fuzz"

theorem toNat_id_numberedSymbol (hi : i + 10001 < UInt32.size) :
    (numberedSymbol i).id.toNat = i + 10001 := by
  have hsize : UInt32.size = 4294967296 := rfl
  have hfirst : (10000 : UInt32).toNat = 10000 := rfl
  have hone : (1 : UInt32).toNat = 1 := rfl
  rw [numberedSymbol, Symbol.own, Symbol.firstId, UInt32.toNat_add, UInt32.toNat_add,
    UInt32.toNat_ofNat', hfirst, hone]
  omega

theorem numberedSymbols_getElem? (hi : i < count) :
    (numberedSymbols count)[i]? = some (numberedSymbol i) := by
  rw [numberedSymbols, List.getElem?_map, List.getElem?_range hi]
  rfl

/-- The symbols of few enough patterns are different, and the number can be told from each. -/
theorem idxOf?_numberedSymbols (hcount : count + 10000 < UInt32.size) (hi : i < count) :
    (numberedSymbols count).idxOf? (numberedSymbol i) = some i := by
  have hlength : (numberedSymbols count).length = count := by
    rw [numberedSymbols, List.length_map, List.length_range]
  have hget : ∀ j, (hj : j < (numberedSymbols count).length) →
      (numberedSymbols count)[j] = numberedSymbol j := by
    intro j hj
    have hsome := numberedSymbols_getElem? (hlength ▸ hj)
    rwa [List.getElem?_eq_getElem hj, Option.some.injEq] at hsome
  rw [List.idxOf?, List.findIdx?_eq_some_iff_getElem]
  refine ⟨by rwa [hlength], by rw [hget, Symbol.beq_iff], fun j hj => ?_⟩
  rw [hget, Symbol.beq_iff]
  intro hid
  have hnumber := congrArg UInt32.toNat hid
  rw [toNat_id_numberedSymbol (by omega), toNat_id_numberedSymbol (by omega)] at hnumber
  omega

/-- Symbols with small ids are not numbered. -/
theorem numberedSymbol_beq {symbol : Symbol} (hi : i + 10001 < UInt32.size)
    (hsymbol : symbol.id.toNat ≤ 10000) : (numberedSymbol i == symbol) = false := by
  rw [Symbol.beq_eq_false_iff]
  intro hid
  have hnumber := congrArg UInt32.toNat hid
  rw [toNat_id_numberedSymbol hi] at hnumber
  omega

/-! ## Comparing -/

/-- A piece is answered by the length of its text. -/
theorem tokenAnswer_eq (hnewline : t.newline = .lineFeed) (hcount : count + 10000 < UInt32.size)
    (hi : i < count) :
    tokenAnswer t (numberedSymbols count) rest (some (length, numberedSymbol i)) =
      some ((Utf8.decode (rest.take length)).utf8ByteSize, i) := by
  have herror : (numberedSymbol i == Symbol.error) = false :=
    numberedSymbol_beq (by omega) (by decide)
  have htext : (numberedSymbol i == Symbol.lineFeed) = false :=
    numberedSymbol_beq (by omega) (by decide)
  simp only [tokenAnswer, herror, Tokenizer.tokenText, hnewline, htext,
    idxOf?_numberedSymbols hcount hi, Option.map_some, Bool.false_eq_true, if_false]

/-- The texts of pieces are as long as the pieces. -/
def Sized (pieces : List (Bytes × Nat)) : Prop :=
  ∀ piece ∈ pieces, (Utf8.decode piece.1).utf8ByteSize = piece.1.length

/-- No character is cut. -/
def Whole (pieces : List (Bytes × Nat)) : Prop := ∀ piece ∈ pieces, ∃ text, piece.1 = bytesOf text

theorem Whole.sized (h : Whole pieces) : Sized pieces := by
  intro piece hpiece
  obtain ⟨text, htext⟩ := h piece hpiece
  rw [htext, Utf8.decode_bytesOf, bytesOf_eq]
  rfl

section Agreeing

variable (hnewline : t.newline = .lineFeed) (hcount : dfas.length + 10000 < UInt32.size)
  (hmatch : ∀ rest, t.matchAt rest = (oracle dfas rest).map fun x => (x.1, numberedSymbol x.2))

include hnewline hcount hmatch

/-- No difference is found just if the pieces of the oracle have texts of their lengths. The
induction is on the pieces, each of which the tokenizer matches as well. -/
theorem difference?_eq_none_iff (h : Splits (oracle dfas) rest pieces) (offset : Nat) :
    difference? t (numberedSymbols dfas.length) dfas offset rest = none ↔ Sized pieces := by
  induction h generalizing offset with
  | @stop rest hnone =>
    have hstuck : t.matchAt rest = none := by rw [hmatch, hnone, Option.map_none]
    refine iff_of_true ?_ (List.forall_mem_nil _)
    rw [difference?]
    split
    · rfl
    · split
      · rw [if_pos hnone]
      · rename_i hfound
        rw [hstuck] at hfound
        cases hfound
  | @piece rest length i pieces hsome _ ih =>
    obtain ⟨hpos, hle⟩ := oracle_pos hsome
    have hi : i < dfas.length := (oracle_bounds hsome).2
    have hfound : t.matchAt rest = some (length, numberedSymbol i) := by
      rw [hmatch, hsome, Option.map_some]
    have hne : rest ≠ [] := List.length_pos_iff.1 (Nat.lt_of_lt_of_le hpos hle)
    have hlength : (rest.take length).length = length := by
      rw [List.length_take, Nat.min_eq_left hle]
    rw [difference?, dif_neg hne]
    split
    · rename_i hstuck
      rw [hfound] at hstuck
      cases hstuck
    · rename_i hfound'
      rw [hfound] at hfound'
      cases hfound'
      rw [tokenAnswer_eq hnewline hcount hi, hsome, Sized, List.forall_mem_cons, hlength]
      by_cases hsize : (Utf8.decode (rest.take length)).utf8ByteSize = length
      · rw [hsize, if_neg (by simp), if_neg (by simp), ih]
        exact (and_iff_right rfl).symm
      · rw [if_pos (by simpa using hsize)]
        exact iff_of_false (by simp) fun hall => hsize hall.1

/-- An input passes just if the pieces of the oracle have texts of their lengths. -/
theorem splitting_ok_iff (hlength : texts.length = dfas.length) (source : String) :
    splitting texts t dfas source = .ok () ↔
      ∃ pieces, Splits (oracle dfas) (bytesOf source) pieces ∧ Sized pieces := by
  have hsized : ∀ pieces, Splits (oracle dfas) (bytesOf source) pieces →
      (difference? t (numberedSymbols dfas.length) dfas 0 (bytesOf source) = none ↔ Sized pieces) :=
    fun _ hpieces => difference?_eq_none_iff hnewline hcount hmatch hpieces 0
  rw [splitting, hlength]
  constructor
  · intro hok
    obtain ⟨pieces, hpieces⟩ :=
      Splits.exists_of_pos (fun _ _ _ hsome => oracle_pos hsome) (bytesOf source)
    refine ⟨pieces, hpieces, (hsized pieces hpieces).1 ?_⟩
    split at hok
    · assumption
    · cases hok
  · rintro ⟨pieces, hpieces, hall⟩
    rw [(hsized pieces hpieces).2 hall]

end Agreeing

end Check

/-! ## Verdicts -/

/-- If so many inputs can be made, they all are tested up to the first that fails. -/
theorem Verdict.ofSamples_eq {σ : Type} {input : Choice σ String} (test : String → Verdict)
    {samples : Nat} {s s' : σ} {inputs : List String}
    (h : Choice.times samples input s = some (inputs, s')) :
    ∃ verdict after, ofSamples input test samples s = some (verdict, after) ∧
      (verdict = .ok () ↔ ∀ source ∈ inputs, test source = .ok ()) := by
  induction samples generalizing s inputs with
  | zero =>
    cases h
    exact ⟨_, _, rfl, iff_of_true rfl (List.forall_mem_nil _)⟩
  | succ samples ih =>
    rw [Choice.times, Choice.bind_eq_some_iff] at h
    obtain ⟨source, after, hsource, h⟩ := h
    rw [Choice.bind_eq_some_iff] at h
    obtain ⟨sources, _, hsources, h⟩ := h
    cases h
    rw [ofSamples, Choice.bind_eq hsource]
    cases htest : test source with
    | error failure =>
      refine ⟨_, after, rfl, iff_of_false nofun fun hall => ?_⟩
      rw [hall source (List.mem_cons_self ..)] at htest
      cases htest
    | ok _ =>
      obtain ⟨verdict, last, hrest, hiff⟩ := ih hsources
      refine ⟨verdict, last, hrest, ?_⟩
      rw [hiff, List.forall_mem_cons, htest]
      exact (and_iff_right rfl).symm

namespace Check

variable {t : Tokenizer} {dfas : List Dfa} {texts : List String}

/-- Accepted patterns make a tokenizer, which finds what their automata find on their own. -/
theorem exists_build (hne : texts ≠ []) (haccepted : ∀ text ∈ texts, Accepted text) :
    ∃ t dfas, (({} : TokenizerBuilder).withPatterns
        (texts.zip (numberedSymbols texts.length))).build = .ok t ∧
      compileAll texts = .ok dfas ∧ t.newline = .lineFeed ∧
      ∀ rest, t.matchAt rest = (oracle dfas rest).map fun x => (x.1, numberedSymbol x.2) := by
  have hlength : (numberedSymbols texts.length).length = texts.length := by
    rw [numberedSymbols, List.length_map, List.length_range]
  have htexts : (texts.zip (numberedSymbols texts.length)).map (·.1) = texts :=
    List.map_fst_zip hlength.ge
  have hsymbols : (texts.zip (numberedSymbols texts.length)).map (·.2) =
      numberedSymbols texts.length := List.map_snd_zip hlength.le
  obtain ⟨t, hbuild⟩ : ∃ t, (({} : TokenizerBuilder).withPatterns
      (texts.zip (numberedSymbols texts.length))).build = .ok t := by
    refine TokenizerBuilder.exists_build_ok (fun hnil => hne ?_) fun p hp => ?_
    · rw [← htexts, hnil, List.map_nil]
    · exact haccepted p.1 (htexts ▸ List.mem_map_of_mem hp)
  obtain ⟨dfas, hdfas, hequal⟩ := TokenizerBuilder.numberAt_eq_oracle hbuild
  obtain ⟨hnewline, hall, _⟩ := TokenizerBuilder.build_ok hbuild
  rw [htexts] at hdfas
  rw [hsymbols] at hall
  refine ⟨t, dfas, hbuild, hdfas, hnewline, fun rest => ?_⟩
  rw [(hequal rest).2]
  cases hfound : oracle dfas rest with
  | none => rfl
  | some found =>
    have hi : found.2 < texts.length := length_compileAll hdfas ▸ (oracle_bounds hfound).2
    rw [Option.map_some, Option.map_some, Tokenizer.symbolFor?, hall, List.getElem?_toArray,
      numberedSymbols_getElem? hi, Option.getD_some]

/-- When everything has been built, the inputs are tested. -/
theorem tokenizer_eq {σ : Type} {input : Choice σ String} {samples : Nat}
    (hbuild : (({} : TokenizerBuilder).withPatterns
      (texts.zip (numberedSymbols texts.length))).build = .ok t)
    (hdfas : compileAll texts = .ok dfas) :
    tokenizer texts input samples = Verdict.ofSamples input (splitting texts t dfas) samples := by
  simp only [tokenizer, hbuild, hdfas]

/-- The check of accepted patterns, few enough to number them, on any inputs. The tokenizer splits
every input as the separate automata do, and yet the check fails unless the text of every piece is
as long as the piece. It is if no character is cut. -/
theorem tokenizer_ok_iff {σ : Type} (texts : List String) (input : Choice σ String) (samples : Nat)
    (s s' : σ) (inputs : List String) (hne : texts ≠ [])
    (haccepted : ∀ text ∈ texts, Accepted text) (hcount : texts.length + 10000 < UInt32.size)
    (hinputs : Choice.times samples input s = some (inputs, s')) :
    ∃ t dfas, (({} : TokenizerBuilder).withPatterns
        (texts.zip (numberedSymbols texts.length))).build = .ok t ∧
      compileAll texts = .ok dfas ∧
      (∀ source, ∃ pieces, Splits (oracle dfas) source pieces ∧
        Splits t.matchAt source (pieces.map fun x => (x.1, numberedSymbol x.2))) ∧
      ∃ verdict after, tokenizer texts input samples s = some (verdict, after) ∧
        (verdict = .ok () ↔ ∀ source ∈ inputs, ∃ pieces,
          Splits (oracle dfas) (bytesOf source) pieces ∧ Sized pieces) ∧
        ((∀ source ∈ inputs, ∃ pieces,
          Splits (oracle dfas) (bytesOf source) pieces ∧ Whole pieces) → verdict = .ok ()) := by
  obtain ⟨t, dfas, hbuild, hdfas, hnewline, hmatch⟩ := exists_build hne haccepted
  have hlength := (length_compileAll hdfas).symm
  rw [hlength] at hcount
  obtain ⟨verdict, after, hverdict, hiff⟩ :=
    Verdict.ofSamples_eq (splitting texts t dfas) hinputs
  have hok : verdict = .ok () ↔ ∀ source ∈ inputs, ∃ pieces,
      Splits (oracle dfas) (bytesOf source) pieces ∧ Sized pieces :=
    hiff.trans (forall₂_congr fun source _ =>
      splitting_ok_iff hnewline hcount hmatch hlength source)
  refine ⟨t, dfas, hbuild, hdfas, fun source => ?_, verdict, after, ?_, hok, fun hwhole => ?_⟩
  · obtain ⟨pieces, hpieces⟩ := Splits.exists_of_pos (fun _ _ _ hsome => oracle_pos hsome) source
    exact ⟨pieces, hpieces, hpieces.map hmatch⟩
  · rw [tokenizer_eq hbuild hdfas, hverdict]
  · rw [hok]
    intro source hsource
    obtain ⟨pieces, hpieces, hall⟩ := hwhole source hsource
    exact ⟨pieces, hpieces, hall.sized⟩

/-! ## A pattern for any byte -/

/-- Hands out texts, each once. -/
def handOut : Choice (List String) String
  | [] => none
  | text :: rest => some (text, rest)

theorem accepted_dot : Accepted "." := exists_eq_ok (by decide +kernel)

/-- The pattern matches one byte, whatever follows. -/
theorem oracle_dot (hdfas : compileAll ["."] = .ok dfas) (b : UInt8) (rest : Bytes) :
    oracle dfas (b :: rest) = some (1, 0) := by
  have hread : Pattern.read (bytesOf ".") = .ok (.atom .full) := by decide +kernel
  have hcompiled := compileAll_ok (.cons hread .nil)
  rw [hdfas, Except.ok.injEq] at hcompiled
  have hmatch : ∀ w, (Pattern.atom .full).nfa.isMatch w = decide (w.length = 1) := by
    intro w
    rw [Bool.eq_iff_iff, Pattern.nfa_isMatch_iff, decide_eq_true_iff, List.length_eq_one_iff,
      Pattern.reading_eq_language _ (by decide)]
    exact exists_congr fun b => and_iff_right ByteSet.mem_full
  have hfirst : ∀ w, firstMatch dfas w = if w.length = 1 then some 0 else none := by
    intro w
    rw [hcompiled, firstMatch_dfa, List.findIdx?_singleton, hmatch]
    simp
  refine (oracle_spec dfas (b :: rest)).unique ⟨Nat.le_refl 1, by simp, by simp [hfirst], ?_⟩
  intro m hm hle
  rw [hfirst, List.length_take, if_neg (by omega)]

theorem tokenizer_ok_iff_dot :
    ∃ after, tokenizer ["."] handOut 1 ["a"] = some (.ok (), after) := by
  obtain ⟨t, dfas, -, hdfas, -, verdict, after, hverdict, -, hwhole⟩ :=
    tokenizer_ok_iff ["."] handOut 1 ["a"] [] ["a"] (by simp)
      (by simpa using accepted_dot) (by decide) rfl
  have hnil : oracle dfas [] = none := by
    cases hfound : oracle dfas [] with
    | none => rfl
    | some found => exact absurd (oracle_pos hfound) (by simp; omega)
  have hbytes : bytesOf "a" = [97] := by decide +kernel
  have hpieces : Splits (oracle dfas) (bytesOf "a") [(bytesOf "a", 0)] := by
    rw [hbytes]
    exact .piece (oracle_dot hdfas 97 []) (.stop hnil)
  have hpassed : Whole [(bytesOf "a", 0)] := by
    intro piece hpiece
    rw [List.mem_singleton.1 hpiece]
    exact ⟨"a", rfl⟩
  refine ⟨after, ?_⟩
  rw [hverdict, hwhole]
  intro source hsource
  rw [List.mem_singleton.1 hsource]
  exact ⟨_, hpieces, hpassed⟩

/-- The two bytes of a character are two pieces, and the text of the first has three bytes. -/
theorem tokenizer_alarm_dot : Accepted "." ∧ ∃ failure after,
    tokenizer ["."] handOut 1 ["é"] = some (.error failure, after) := by
  refine ⟨accepted_dot, ?_⟩
  have haccepted : ∀ text ∈ ["."], Accepted text := List.forall_mem_singleton.2 accepted_dot
  obtain ⟨t, dfas, hbuild, hdfas, hnewline, hmatch⟩ := exists_build (by simp) haccepted
  have hlength := length_compileAll hdfas
  have hinputs : Choice.times 1 handOut ["é"] = some (["é"], []) := rfl
  obtain ⟨verdict, after, hverdict, hiff⟩ :=
    Verdict.ofSamples_eq (splitting ["."] t dfas) hinputs
  have hbytes : bytesOf "é" = [195, 169] := by decide +kernel
  have hfailed : splitting ["."] t dfas "é" ≠ .ok () := by
    rw [Ne, splitting_ok_iff hnewline (by rw [hlength]; decide) hmatch hlength.symm, hbytes]
    rintro ⟨pieces, hpieces, hsized⟩
    obtain ⟨others, rfl, -⟩ := hpieces.eq_cons (oracle_dot hdfas 195 [169])
    exact absurd (hsized _ (List.mem_cons_self ..)) (by decide)
  cases verdict with
  | ok _ => exact absurd (hiff.1 rfl "é" (List.mem_singleton.2 rfl)) hfailed
  | error failure =>
    refine ⟨failure, after, ?_⟩
    rw [tokenizer_eq hbuild hdfas, hverdict]

end Check

end MaximalMunch
