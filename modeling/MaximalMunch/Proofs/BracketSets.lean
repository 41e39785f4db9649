import MaximalMunch.Pattern.Lexeme
import MaximalMunch.Proofs.Spelling

/-! Bracketed sets. What is read between brackets are the elements of the grammar, and the bytes
that are found are theirs. -/

namespace MaximalMunch.Grammar

variable {g k : Glyph} {gs hs : List Glyph} {t u : Bytes} {s : Set UInt8} {lo hi : UInt8}
  {signs rest : List Sign} {close : Sign} {members members' : ByteSet} {any any' : Bool}
  {unclosed : SyntaxError}

/-- Elements of a set as glyphs: one that is no dash or closing bracket, or a range. -/
inductive GlyphElement : List Glyph → Set UInt8 → Prop
  | one {g : Glyph} (hdash : g ≠ .raw 45) (hclose : g ≠ .raw 93) :
    GlyphElement [g] g.bytes.members
  | range {g k : Glyph} {lo hi : UInt8} (hdash : g ≠ .raw 45) (hclose : g ≠ .raw 93)
    (hlo : g.byte? = some lo) (hhi : k.byte? = some hi) (hstop : k ≠ .raw 93) (hlt : lo < hi) :
    GlyphElement [g, .raw 45, k] (between lo hi)

/-- Elements as glyphs, one after the other. -/
inductive GlyphElements : List Glyph → Set UInt8 → Prop
  | nil : GlyphElements [] ∅
  | cons {gs hs : List Glyph} {s r : Set UInt8} (h : GlyphElement gs s)
    (h' : GlyphElements hs r) : GlyphElements (gs ++ hs) (s ∪ r)

theorem ne_raw_of_spelled {b : UInt8} (h : Spelled [g] t) (hb : b ≠ 92) :
    g ≠ .raw b ↔ t ≠ [b] :=
  not_congr ⟨fun hg => h.singleton_iff.2 ⟨hb, hg⟩, fun ht => (h.singleton_iff.1 ht).2⟩

theorem element_of_spelled (h : GlyphElement gs s) (ht : Spelled gs t) : Element t s := by
  cases h with
  | @one g hdash hclose =>
    rw [ne_raw_of_spelled ht (by decide)] at hdash hclose
    cases hb : g.byte? with
    | some b =>
      have hbytes : g.bytes.members = {b} := by
        cases g <;> cases hb <;> exact ByteSet.members_singleton
      rw [hbytes]
      exact .byte (setByte_of_spelled ht hb) hdash hclose
    | none =>
      cases ht with
      | raw _ _ => cases hb
      | escape hg ht =>
        cases ht
        cases ofEscape_sound hg with
        | named hc hs => exact .named (hs ▸ hc)
        | quoted _ => cases hb
  | @range g k lo hi hdash hclose hlo hhi hstop hlt =>
    obtain ⟨u, v, rfl, hu, hv⟩ := ht.split_cons
    obtain ⟨v, w, rfl, hv, hw⟩ := hv.split_cons
    obtain rfl : v = [45] := hv.singleton_iff.2 ⟨by decide, rfl⟩
    rw [ne_raw_of_spelled hu (by decide)] at hdash hclose
    rw [ne_raw_of_spelled hw (by decide)] at hstop
    exact .range (setByte_of_spelled hu hlo) hdash hclose (setByte_of_spelled hw hhi) hstop hlt

theorem Element.spelled (h : Element t s) : ∃ gs, Spelled gs t ∧ GlyphElement gs s := by
  cases h with
  | byte ht hdash hclose =>
    obtain ⟨g, hg, _, hbytes⟩ := ht.spelled
    rw [← ne_raw_of_spelled hg (by decide)] at hdash hclose
    rw [← ByteSet.members_singleton, ← hbytes]
    exact ⟨[g], hg, .one hdash hclose⟩
  | named hc =>
    obtain ⟨bytes, hescape, rfl⟩ := ofEscape_named hc
    exact ⟨[.named bytes], .escape hescape .nil, .one (by simp) (by simp)⟩
  | range ht hdash hclose hu hstop hlt =>
    obtain ⟨g, hg, hlo, _⟩ := ht.spelled
    obtain ⟨k, hk, hhi, _⟩ := hu.spelled
    rw [← ne_raw_of_spelled hg (by decide)] at hdash hclose
    rw [← ne_raw_of_spelled hk (by decide)] at hstop
    have hrange := hg.append (.raw (b := 45) (by decide) hk)
    exact ⟨_, hrange, .range hdash hclose hlo hhi hstop hlt⟩

theorem elements_of_spelled (h : GlyphElements gs s) (ht : Spelled gs t) : Elements t s := by
  induction h generalizing t with
  | nil =>
    cases ht
    exact .nil
  | cons h _ ih =>
    obtain ⟨u, v, rfl, hu, hv⟩ := ht.split
    exact .cons (element_of_spelled h hu) (ih hv)

theorem Elements.spelled (h : Elements t s) : ∃ gs, Spelled gs t ∧ GlyphElements gs s := by
  induction h with
  | nil => exact ⟨[], .nil, .nil⟩
  | cons h _ ih =>
    obtain ⟨gs, hgs, hs⟩ := h.spelled
    obtain ⟨gs', hgs', hr⟩ := ih
    exact ⟨gs ++ gs', hgs.append hgs', .cons hs hr⟩

theorem isRaw_iff {x : Sign} {b : UInt8} : x.isRaw b = true ↔ x.glyph = .raw b := decide_eq_true_iff

theorem members_range : (ByteSet.range lo hi).members = between lo hi :=
  Set.ext fun _ => ByteSet.mem_range

/-- What is read up to the closing bracket are elements, and their bytes have been added. -/
theorem readElements_sound
    (h : Lexeme.readElements unclosed members any signs = .ok (members', any', rest)) :
    ∃ gs s, signs.map (·.glyph) = gs ++ .raw 93 :: rest.map (·.glyph) ∧ GlyphElements gs s ∧
      members'.members = members.members ∪ s ∧ any' = (any || !gs.isEmpty) := by
  fun_induction Lexeme.readElements unclosed members any signs with
  | case2 members any x rest hclose =>
    cases h
    refine ⟨[], ∅, ?_, .nil, (Set.union_empty _).symm, by simp⟩
    rw [List.map_cons, isRaw_iff.1 hclose, List.nil_append]
  | case9 members any x hclose hdash y hrange l z beyond hl hstop k hk hlt ih =>
    obtain ⟨gs, s, hgs, hs, hmembers, rfl⟩ := ih h
    rw [isRaw_iff] at hclose hdash hrange hstop
    refine ⟨_, _, ?_, .cons (.range hdash hclose hl hk hstop hlt) hs, ?_, by simp⟩
    · simp only [List.map_cons, hrange, hgs, List.cons_append, List.nil_append]
    · rw [hmembers, ByteSet.members_union, members_range, Set.union_assoc]
  | case11 members any x hclose hdash y beyond hrange ih =>
    obtain ⟨gs, s, hgs, hs, hmembers, rfl⟩ := ih h
    rw [isRaw_iff] at hclose hdash
    refine ⟨_, _, ?_, .cons (.one hdash hclose) hs, ?_, by simp⟩
    · rw [List.map_cons, hgs, List.singleton_append, List.cons_append]
    · rw [hmembers, ByteSet.members_union, Set.union_assoc]
  | _ => cases h

/-- Elements are never begun by a dash. -/
theorem GlyphElements.head_ne (h : GlyphElements gs s) : gs.head? ≠ some (.raw 45) := by
  cases h with
  | nil => simp
  | cons h _ =>
    cases h with
    | one hdash _ => simpa using hdash
    | range hdash _ _ _ _ _ => simpa using hdash

theorem readElements_close (hclose : close.glyph = .raw 93) :
    Lexeme.readElements unclosed members any (close :: rest) = .ok (members, any, rest) := by
  unfold Lexeme.readElements
  rw [if_pos (isRaw_iff.2 hclose)]

theorem readElements_one {x y : Sign} (hdash : x.glyph ≠ .raw 45) (hclose : x.glyph ≠ .raw 93)
    (hnext : signs.head? = some y) (hy : y.glyph ≠ .raw 45) :
    Lexeme.readElements unclosed members any (x :: signs) =
      Lexeme.readElements unclosed (members ∪ x.glyph.bytes) true signs := by
  obtain ⟨_, rfl⟩ := List.head?_eq_some_iff.1 hnext
  rw [Lexeme.readElements.eq_def]
  dsimp only
  rw [if_neg (mt isRaw_iff.1 hclose), if_neg (mt isRaw_iff.1 hdash), if_neg (mt isRaw_iff.1 hy)]

/-- An element with a dash behind it is the lower bound of a range, or nothing. -/
theorem readElements_dash {x y : Sign} (hdash : x.glyph ≠ .raw 45) (hclose : x.glyph ≠ .raw 93)
    (hy : y.glyph = .raw 45) : Lexeme.readElements unclosed members any (x :: y :: signs) =
      match x.glyph.byte?, signs with
      | none, _ => .error (.danglingRange y.offset)
      | some _, [] => .error unclosed
      | some lo, z :: rest =>
        if z.isRaw 93 then .error (.danglingRange y.offset)
        else
          match z.glyph.byte? with
          | none => .error (.danglingRange y.offset)
          | some hi =>
            if lo < hi then Lexeme.readElements unclosed (members ∪ .range lo hi) true rest
            else .error (.invalidRange x.offset lo hi) := by
  rw [Lexeme.readElements.eq_def]
  dsimp only
  rw [if_neg (mt isRaw_iff.1 hclose), if_neg (mt isRaw_iff.1 hdash)]
  exact if_pos (isRaw_iff.2 hy)

theorem readElements_range {x y z : Sign} (hdash : x.glyph ≠ .raw 45)
    (hclose : x.glyph ≠ .raw 93) (hlo : x.glyph.byte? = some lo) (hy : y.glyph = .raw 45)
    (hhi : z.glyph.byte? = some hi) (hstop : z.glyph ≠ .raw 93) (hlt : lo < hi) :
    Lexeme.readElements unclosed members any (x :: y :: z :: rest) =
      Lexeme.readElements unclosed (members ∪ .range lo hi) true rest := by
  rw [readElements_dash hdash hclose hy, hlo]
  dsimp only
  rw [if_neg (mt isRaw_iff.1 hstop), hhi]
  exact if_pos hlt

/-- Elements are read up to the closing bracket. -/
theorem readElements_complete (members : ByteSet) (any : Bool) (h : GlyphElements gs s)
    (hsigns : signs.map (·.glyph) = gs) (hclose : close.glyph = .raw 93) : ∃ members',
      Lexeme.readElements unclosed members any (signs ++ close :: rest) =
        .ok (members', any || !gs.isEmpty, rest) ∧ members'.members = members.members ∪ s := by
  induction h generalizing signs members any with
  | nil =>
    obtain rfl := List.map_eq_nil_iff.1 hsigns
    refine ⟨members, ?_, (Set.union_empty _).symm⟩
    rw [List.nil_append, readElements_close hclose]
    simp
  | cons h h' ih =>
    obtain ⟨front, back, rfl, hfront, hback⟩ := List.map_eq_append_iff.1 hsigns
    cases h with
    | one hdash hstop =>
      obtain ⟨x, rfl, rfl⟩ := List.map_eq_singleton_iff.1 hfront
      -- The sign behind the element is that of another one or the closing bracket.
      obtain ⟨y, hnext, hy⟩ : ∃ y, (back ++ close :: rest).head? = some y ∧ y.glyph ≠ .raw 45 := by
        have hhead := h'.head_ne
        cases back with
        | nil => exact ⟨close, rfl, by simp [hclose]⟩
        | cons y back => exact ⟨y, rfl, fun hy => hhead (by rw [← hback, ← hy]; rfl)⟩
      obtain ⟨members', hread, hmembers⟩ := ih (members ∪ x.glyph.bytes) true hback
      refine ⟨members', ?_, ?_⟩
      · rw [List.append_assoc, List.singleton_append, readElements_one hdash hstop hnext hy, hread]
        simp
      · rw [hmembers, ByteSet.members_union, Set.union_assoc]
    | @range _ _ lo hi hdash hstop hlo hhi hend hlt =>
      obtain ⟨x, ys, rfl, rfl, hys⟩ := List.map_eq_cons_iff.1 hfront
      obtain ⟨y, zs, rfl, hy, hzs⟩ := List.map_eq_cons_iff.1 hys
      obtain ⟨z, rfl, rfl⟩ := List.map_eq_singleton_iff.1 hzs
      obtain ⟨members', hread, hmembers⟩ := ih (members ∪ .range lo hi) true hback
      refine ⟨members', ?_, ?_⟩
      · rw [List.append_assoc]
        simp only [List.cons_append, List.nil_append]
        rw [readElements_range hdash hstop hlo hy hhi hend hlt, hread]
        simp
      · rw [hmembers, ByteSet.members_union, members_range, Set.union_assoc]

theorem after?_eq_some {b : UInt8} {x : Sign} (hx : x.glyph = .raw b) :
    Lexeme.after? b (x :: signs) = some signs := if_pos (isRaw_iff.2 hx)

theorem after?_eq_none {b : UInt8} (h : (signs.map (·.glyph)).head? ≠ some (.raw b)) :
    Lexeme.after? b signs = none := by
  cases signs with
  | nil => rfl
  | cons x signs => exact if_neg fun hx => h (congrArg some (isRaw_iff.1 hx))

theorem after?_cases (b : UInt8) (signs : List Sign) :
    (∃ x tail, signs = x :: tail ∧ x.glyph = .raw b) ∨
      (signs.map (·.glyph)).head? ≠ some (.raw b) := by
  cases signs with
  | nil => exact Or.inr (by simp)
  | cons x tail =>
    by_cases hx : x.glyph = .raw b
    · exact Or.inl ⟨x, tail, rfl, hx⟩
    · exact Or.inr (by simpa using hx)

/-- Reads what stands in brackets, behind the caret. -/
def readBody (unclosed : SyntaxError) (signs : List Sign) :
    Except SyntaxError (ByteSet × Bool × List Sign) :=
  Lexeme.readElements unclosed (if (Lexeme.after? 45 signs).isSome then .singleton 45 else ∅)
    (Lexeme.after? 45 signs).isSome ((Lexeme.after? 45 signs).getD signs)

theorem readBody_dash {x : Sign} (hx : x.glyph = .raw 45) : readBody unclosed (x :: signs) =
    Lexeme.readElements unclosed (.singleton 45) true signs := by
  rw [readBody, after?_eq_some hx]
  rfl

theorem readBody_plain (h : (signs.map (·.glyph)).head? ≠ some (.raw 45)) :
    readBody unclosed signs = Lexeme.readElements unclosed ∅ false signs := by
  rw [readBody, after?_eq_none h]
  rfl

theorem readBody_sound (h : readBody unclosed signs = .ok (members, true, rest)) :
    ∃ gs, signs.map (·.glyph) = gs ++ .raw 93 :: rest.map (·.glyph) ∧
      ∀ t, Spelled gs t → SetBody t members.members := by
  rcases after?_cases 45 signs with ⟨x, tail, rfl, hx⟩ | hfirst
  · rw [readBody_dash hx] at h
    obtain ⟨gs, s, hgs, hs, hmembers, _⟩ := readElements_sound h
    refine ⟨.raw 45 :: gs, by rw [List.map_cons, hx, hgs, List.cons_append], fun t ht => ?_⟩
    rw [hmembers, ByteSet.members_singleton]
    cases ht with
    | raw _ ht => exact .dash (elements_of_spelled hs ht)
    | escape hg _ => exact absurd hg ofEscape_ne_raw
  · rw [readBody_plain hfirst] at h
    obtain ⟨gs, s, hgs, hs, hmembers, hany⟩ := readElements_sound h
    refine ⟨gs, hgs, fun t ht => ?_⟩
    rw [hmembers, ByteSet.members_empty, Set.empty_union]
    refine .plain (elements_of_spelled hs ht) ?_
    cases gs with
    | nil => cases hany
    | cons g gs => exact ht.ne_nil

theorem SetBody.spelled (h : SetBody t s) : ∃ gs, Spelled gs t ∧
    ∀ (unclosed : SyntaxError) (signs rest : List Sign) (close : Sign),
      signs.map (·.glyph) = gs → close.glyph = .raw 93 → ∃ members,
        readBody unclosed (signs ++ close :: rest) = .ok (members, true, rest) ∧
          members.members = s := by
  cases h with
  | dash h =>
    obtain ⟨gs, hgs, hs⟩ := h.spelled
    refine ⟨.raw 45 :: gs, .raw (by decide) hgs, ?_⟩
    intro unclosed signs rest close hsigns hclose
    obtain ⟨x, signs, rfl, hx, hsigns⟩ := List.map_eq_cons_iff.1 hsigns
    rw [List.cons_append, readBody_dash hx]
    obtain ⟨members, hread, hmembers⟩ := readElements_complete (.singleton 45) true hs hsigns hclose
    refine ⟨members, hread, ?_⟩
    rw [hmembers, ByteSet.members_singleton]
  | plain h hne =>
    obtain ⟨gs, hgs, hs⟩ := h.spelled
    refine ⟨gs, hgs, ?_⟩
    intro unclosed signs rest close hsigns hclose
    have hsome : gs.isEmpty = false := by
      cases hgs with
      | nil => exact absurd rfl hne
      | raw _ _ => rfl
      | escape _ _ => rfl
    have hfirst : ((signs ++ close :: rest).map (·.glyph)).head? ≠ some (.raw 45) := by
      have hhead := hs.head_ne
      rw [List.map_append, hsigns]
      cases gs with
      | nil => cases hsome
      | cons g gs => exact hhead
    rw [readBody_plain hfirst]
    obtain ⟨members, hread, hmembers⟩ := readElements_complete ∅ false hs hsigns hclose
    refine ⟨members, ?_, ?_⟩
    · rw [hread, hsome]
      rfl
    · rw [hmembers, ByteSet.members_empty, Set.empty_union]

theorem readSet_eq (ending : Ending) (openAt : Nat) (signs : List Sign) :
    Lexeme.readSet ending openAt signs =
      match readBody (ending.inSet openAt) ((Lexeme.after? 94 signs).getD signs) with
      | .error e => .error e
      | .ok (_, false, _) => .error (.emptySet openAt)
      | .ok (members, true, rest) =>
        .ok (if (Lexeme.after? 94 signs).isSome then members.complement else members, rest) := rfl

/-- A set that is read is a bracketed one. -/
theorem readSet_sound {ending : Ending} {openAt : Nat}
    (h : Lexeme.readSet ending openAt signs = .ok (members, rest)) :
    ∃ gs, signs.map (·.glyph) = gs ++ .raw 93 :: rest.map (·.glyph) ∧
      ∀ t, Spelled gs t → Bracketed (91 :: t ++ [93]) members.members := by
  rw [readSet_eq] at h
  rcases after?_cases 94 signs with ⟨x, tail, rfl, hx⟩ | hfirst
  · rw [after?_eq_some hx, Option.getD_some] at h
    split at h
    · cases h
    · cases h
    · rename_i members' rest' hread
      cases h
      obtain ⟨gs, hgs, hbody⟩ := readBody_sound hread
      refine ⟨.raw 94 :: gs, by rw [List.map_cons, hx, hgs, List.cons_append], fun t ht => ?_⟩
      rw [if_pos Option.isSome_some, ByteSet.members_complement]
      cases ht with
      | raw _ ht => exact .negated (hbody _ ht)
      | escape hg _ => exact absurd hg ofEscape_ne_raw
  · rw [after?_eq_none hfirst, Option.getD_none] at h
    split at h
    · cases h
    · cases h
    · rename_i members' rest' hread
      cases h
      obtain ⟨gs, hgs, hbody⟩ := readBody_sound hread
      refine ⟨gs, hgs, fun t ht => .plain (hbody t ht) ?_⟩
      rw [Ne, ht.head?_eq_iff (by decide)]
      rw [hgs] at hfirst
      cases gs with
      | nil => simp
      | cons g gs => exact hfirst

theorem readElements_suffix
    (h : Lexeme.readElements unclosed members any signs = .ok (members', any', rest)) :
    rest <:+ signs := by
  fun_induction Lexeme.readElements unclosed members any signs with
  | case2 members any x rest hclose =>
    cases h
    exact List.suffix_cons x rest
  | case9 members any x hclose hdash y hrange l z beyond hl hstop k hk hlt ih =>
    exact (ih h).trans (List.suffix_append [x, y, z] beyond)
  | case11 members any x hclose hdash y beyond hrange ih =>
    exact (ih h).trans (List.suffix_cons x (y :: beyond))
  | _ => cases h

theorem after?_suffix (b : UInt8) (signs : List Sign) :
    (Lexeme.after? b signs).getD signs <:+ signs := by
  rcases after?_cases b signs with ⟨x, tail, rfl, hx⟩ | hfirst
  · rw [after?_eq_some hx]
    exact List.suffix_cons x tail
  · rw [after?_eq_none hfirst]
    exact List.suffix_refl signs

theorem readSet_suffix {ending : Ending} {openAt : Nat}
    (h : Lexeme.readSet ending openAt signs = .ok (members, rest)) : rest <:+ signs := by
  rw [readSet_eq] at h
  split at h
  · cases h
  · cases h
  · rename_i hread
    cases h
    have hbody := (readElements_suffix hread).trans (after?_suffix 45 _)
    exact hbody.trans (after?_suffix 94 signs)

theorem Bracketed.spelled (h : Bracketed u s) : ∃ gs t, u = 91 :: t ++ [93] ∧ Spelled gs t ∧
    ∀ (ending : Ending) (openAt : Nat) (signs rest : List Sign) (close : Sign),
      signs.map (·.glyph) = gs → close.glyph = .raw 93 → ∃ members,
        Lexeme.readSet ending openAt (signs ++ close :: rest) = .ok (members, rest) ∧
          members.members = s := by
  cases h with
  | negated h =>
    obtain ⟨gs, hgs, hbody⟩ := h.spelled
    refine ⟨.raw 94 :: gs, _, rfl, .raw (by decide) hgs, ?_⟩
    intro ending openAt signs rest close hsigns hclose
    obtain ⟨x, signs, rfl, hx, hsigns⟩ := List.map_eq_cons_iff.1 hsigns
    obtain ⟨members, hread, rfl⟩ := hbody (ending.inSet openAt) _ rest close hsigns hclose
    refine ⟨members.complement, ?_, ByteSet.members_complement⟩
    rw [readSet_eq, List.cons_append, after?_eq_some hx, Option.getD_some, hread]
    rfl
  | @plain t s h hcaret =>
    obtain ⟨gs, hgs, hbody⟩ := h.spelled
    refine ⟨gs, _, rfl, hgs, ?_⟩
    intro ending openAt signs rest close hsigns hclose
    obtain ⟨members, hread, rfl⟩ := hbody (ending.inSet openAt) _ rest close hsigns hclose
    have hfirst : ((signs ++ close :: rest).map (·.glyph)).head? ≠ some (.raw 94) := by
      rw [Ne, hgs.head?_eq_iff (by decide)] at hcaret
      rw [List.map_append, hsigns]
      cases gs with
      | nil => simp [hclose]
      | cons g gs => exact hcaret
    refine ⟨members, ?_, rfl⟩
    rw [readSet_eq, after?_eq_none hfirst, Option.getD_none, hread]
    rfl

end MaximalMunch.Grammar
