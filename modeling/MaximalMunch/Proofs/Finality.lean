import MaximalMunch.Proofs.Encoding
import MaximalMunch.Proofs.SyntaxFaults

/-! Faults that are final. Reading stops at the first fault; if it was not the end of the text that
was at fault, whatever follows is never looked at. -/

namespace MaximalMunch

open Grammar

/-- Whether the fault stays when the text goes on. The other faults are those of a text that ends
too early. -/
def SyntaxError.IsFinal : SyntaxError → Prop
  | unmatchedCloseParen _ | emptySet _ | invalidRange _ _ _ | danglingRange _ | unknownEscape _ _
  | nothingToRepeat _ => True
  | emptyPattern | unexpectedEnd _ | unmatchedOpenParen _ | unterminatedSet _ => False

/-- Whether the ending stays when the text goes on. -/
def Ending.IsFinal : Ending → Prop
  | unknownEscape _ _ => True
  | complete _ | loneBackslash _ => False

/-- The fault of a text that is not empty has an offset within the text. -/
theorem SyntaxError.PointsAt.offset_le {text : Bytes} {e : SyntaxError} (h : e.PointsAt text)
    (hne : text ≠ []) : ∃ o ≤ text.length, e.offset? = some o := by
  have hbyte : ∀ {o : Nat} {b : UInt8}, text[o]? = some b → o ≤ text.length := fun hb =>
    Nat.le_of_lt (List.getElem?_eq_some_iff.1 hb).1
  have hbegins : ∀ {o : Nat} {b : UInt8} {t : Bytes}, b :: t <+: text.drop o → o ≤ text.length :=
    fun hb => hbyte (getElem?_of_begins hb)
  cases e with
  | emptyPattern => exact absurd h hne
  | unexpectedEnd o => exact ⟨o, Nat.le_of_eq h, rfl⟩
  | invalidRange o lo hi =>
    obtain ⟨-, t, u, ht, -, hrange⟩ := h
    cases ht with
    | plain _ _ => exact ⟨o, hbegins hrange, rfl⟩
    | escaped _ => exact ⟨o, hbegins hrange, rfl⟩
  | unknownEscape o b => exact ⟨o, hbegins h.1, rfl⟩
  | nothingToRepeat o =>
    obtain ⟨b, -, hb⟩ := h
    exact ⟨o, hbyte hb, rfl⟩
  | _ o => exact ⟨o, hbyte h, rfl⟩

namespace Grammar

variable {t : Bytes} {signs : List Sign} {ending : Ending} {e unclosed : SyntaxError}
  {lexemes : List Lexeme} {verdict : Except SyntaxError Nat} {members : ByteSet} {any : Bool}
  {o : Nat}

/-! ## Signs -/

/-- More text has the same signs in front, and an ending that is final stays. -/
theorem readSigns_append {offset : Nat} (h : Sign.readAll offset t = (signs, ending))
    (more : Bytes) : ∃ behind ending',
      Sign.readAll offset (t ++ more) = (signs ++ behind, ending') ∧
      (ending.IsFinal → behind = [] ∧ ending' = ending) := by
  fun_induction Sign.readAll offset t generalizing signs with
  | case1 offset =>
    cases h
    exact ⟨_, _, rfl, False.elim⟩
  | case2 offset =>
    cases h
    exact ⟨_, _, rfl, False.elim⟩
  | case3 offset c rest hc =>
    cases h
    exact ⟨[], .unknownEscape offset c, readSigns_unknown hc, fun _ => ⟨rfl, rfl⟩⟩
  | case4 offset c rest g hg tail ending' hread ih =>
    cases h
    obtain ⟨behind, ending', hmore, hfinal⟩ := ih hread
    exact ⟨behind, ending', readSigns_escape hg hmore, hfinal⟩
  | case5 offset b rest hb tail ending' hread ih =>
    cases h
    obtain ⟨behind, ending', hmore, hfinal⟩ := ih hread
    exact ⟨behind, ending', readSigns_raw hb hmore, hfinal⟩

/-! ## Sets -/

/-- Elements are read in the same way when more signs follow, unless the signs ended too early. -/
theorem readElements_append
    (h : Lexeme.readElements unclosed members any signs ≠ .error unclosed)
    (unclosed' : SyntaxError) (behind : List Sign) :
    Lexeme.readElements unclosed' members any (signs ++ behind) =
      (Lexeme.readElements unclosed members any signs).map
        fun r => (r.1, r.2.1, r.2.2 ++ behind) := by
  fun_induction Lexeme.readElements unclosed members any signs with
  | case1 | case4 | case6 => exact absurd rfl h
  | case2 members any x rest hclose => exact readElements_close (isRaw_iff.1 hclose)
  | case3 members any x rest hclose hdash =>
    rw [List.cons_append, Lexeme.readElements.eq_def]
    dsimp only
    rw [if_neg hclose, if_pos hdash]
    rfl
  | case5 members any x hclose hdash y beyond hrange hl =>
    rw [isRaw_iff] at hclose hdash hrange
    simp only [List.cons_append]
    rw [readElements_dash hdash hclose hrange, hl]
    rfl
  | case7 members any x hclose hdash y hrange l z beyond hl hstop =>
    rw [isRaw_iff] at hclose hdash hrange
    simp only [List.cons_append]
    rw [readElements_dash hdash hclose hrange, hl]
    exact if_pos hstop
  | case8 members any x hclose hdash y hrange l z beyond hl hstop hk =>
    rw [isRaw_iff] at hclose hdash hrange
    simp only [List.cons_append]
    rw [readElements_dash hdash hclose hrange, hl]
    dsimp only
    rw [if_neg hstop, hk]
    rfl
  | case9 members any x hclose hdash y hrange l z beyond hl hstop k hk hlt ih =>
    rw [isRaw_iff] at hclose hdash hrange hstop
    simp only [List.cons_append]
    rw [readElements_range hdash hclose hl hrange hk hstop hlt]
    exact ih h
  | case10 members any x hclose hdash y hrange l z beyond hl hstop k hk hlt =>
    rw [isRaw_iff] at hclose hdash hrange
    simp only [List.cons_append]
    rw [readElements_dash hdash hclose hrange, hl]
    dsimp only
    rw [if_neg hstop, hk]
    exact if_neg hlt
  | case11 members any x hclose hdash y beyond hrange ih =>
    rw [isRaw_iff] at hclose hdash hrange
    rw [List.cons_append, readElements_one hdash hclose rfl hrange]
    exact ih h

theorem after?_append (b : UInt8) (hne : signs ≠ []) (behind : List Sign) :
    Lexeme.after? b (signs ++ behind) = (Lexeme.after? b signs).map (· ++ behind) := by
  cases signs with
  | nil => exact absurd rfl hne
  | cons x rest =>
    rw [List.cons_append, Lexeme.after?, Lexeme.after?]
    split <;> rfl

theorem readBody_append (h : readBody unclosed signs ≠ .error unclosed) (unclosed' : SyntaxError)
    (behind : List Sign) : readBody unclosed' (signs ++ behind) =
      (readBody unclosed signs).map fun r => (r.1, r.2.1, r.2.2 ++ behind) := by
  have hne : signs ≠ [] := by
    rintro rfl
    exact h rfl
  rw [readBody, after?_append 45 hne, Option.isSome_map, Option.getD_map (· ++ behind)]
  exact readElements_append h unclosed' behind

/-- A set is read in the same way when more signs follow, unless the signs ended too early. -/
theorem readSet_append (h : Lexeme.readSet ending o signs ≠ .error (ending.inSet o))
    (ending' : Ending) (behind : List Sign) : Lexeme.readSet ending' o (signs ++ behind) =
      (Lexeme.readSet ending o signs).map fun r => (r.1, r.2 ++ behind) := by
  have hne : signs ≠ [] := by
    rintro rfl
    exact h rfl
  rw [readSet_eq] at h ⊢
  rw [readSet_eq, after?_append 94 hne, Option.isSome_map, Option.getD_map (· ++ behind)]
  generalize hbody : (Lexeme.after? 94 signs).getD signs = body at h ⊢
  have hread : readBody (ending.inSet o) body ≠ .error (ending.inSet o) := by
    intro heq
    rw [heq] at h
    exact h rfl
  rw [readBody_append hread]
  rcases readBody (ending.inSet o) body with e | ⟨members, any, rest⟩
  · rfl
  · cases any <;> rfl

/-! ## Lexemes -/

theorem inSet_not_final (h : ¬ ending.IsFinal) (o : Nat) : ¬ (ending.inSet o).IsFinal := by
  cases ending with
  | complete n => exact id
  | loneBackslash n => exact id
  | unknownEscape offset byte => exact absurd trivial h

theorem outside_not_final (h : ¬ ending.IsFinal) (he : ending.outside = .error e) :
    ¬ e.IsFinal := by
  cases ending with
  | complete n => cases he
  | loneBackslash n =>
    cases he
    exact id
  | unknownEscape offset byte => exact absurd trivial h

/-- More signs have the same lexemes in front, and a final fault stays. -/
theorem readLexemes_append (h : Lexeme.readAll ending signs = (lexemes, verdict))
    (hending : ¬ ending.IsFinal) (ending' : Ending) (behind : List Sign) : ∃ lexemes' verdict',
      Lexeme.readAll ending' (signs ++ behind) = (lexemes ++ lexemes', verdict') ∧
        ∀ e, verdict = .error e → e.IsFinal → lexemes' = [] ∧ verdict' = .error e := by
  fun_induction Lexeme.readAll ending signs generalizing lexemes with
  | case1 =>
    cases h
    exact ⟨_, _, rfl, fun e he hfinal => absurd hfinal (outside_not_final hending he)⟩
  | case2 x rest hopen e he =>
    cases h
    by_cases hunclosed : e = ending.inSet x.offset
    · -- The signs end within the set, so that its fault is not final.
      refine ⟨_, _, rfl, fun e' he' hfinal => absurd hfinal ?_⟩
      cases he'
      exact hunclosed ▸ inSet_not_final hending x.offset
    · have hclosed : Lexeme.readSet ending x.offset rest ≠ .error (ending.inSet x.offset) :=
        fun heq => hunclosed (Except.error.inj (he.symm.trans heq))
      have hset := readSet_append hclosed ending' behind
      rw [he] at hset
      exact ⟨[], _, readAll_fault (isRaw_iff.1 hopen) hset, fun e' he' _ => ⟨rfl, he'⟩⟩
  | case3 x rest hopen bytes rest' hset lexemes' verdict' hread ih =>
    cases h
    have hclosed : Lexeme.readSet ending x.offset rest ≠ .error (ending.inSet x.offset) := by
      rw [hset]
      intro heq
      cases heq
    have hset' := readSet_append hclosed ending' behind
    rw [hset] at hset'
    obtain ⟨more, verdict, hmore, hfinal⟩ := ih hread
    refine ⟨more, verdict, ?_, hfinal⟩
    rw [List.cons_append, readAll_set (isRaw_iff.1 hopen) hset', hmore, List.cons_append]
  | case4 x rest hopen lexemes' verdict' hread ih =>
    cases h
    obtain ⟨more, verdict, hmore, hfinal⟩ := ih hread
    refine ⟨more, verdict, ?_, hfinal⟩
    rw [List.cons_append, readAll_glyph (mt isRaw_iff.2 hopen), hmore, List.cons_append]

end Grammar

/-! ## Patterns -/

namespace Pattern

variable {t : Bytes} {s : Stack} {xs ys : List Lexeme} {f : Failure}
  {verdict verdict' : Except SyntaxError Nat} {length : Nat}

theorem Stack.finish_not_final (h : s.finish length = .error f) : ¬ f.error.IsFinal := by
  simp only [finish] at h
  split at h
  · cases h
    exact id
  · cases h
  · cases h
    exact id

/-- A run with a final fault has the same fault when more lexemes follow, since it either stopped
before them or there are none. -/
theorem Stack.run_append (h : s.run verdict xs = .error f) (hf : f.error.IsFinal)
    (hverdict : ∀ e, verdict = .error e → e.IsFinal → ys = [] ∧ verdict' = .error e) :
    s.run verdict' (xs ++ ys) = .error f := by
  induction xs generalizing s with
  | nil =>
    cases hends : verdict with
    | ok length =>
      -- What is wrong at the end of a text is never final.
      rw [hends] at h
      exact absurd hf (finish_not_final h)
    | error e =>
      rw [hends] at h
      have hfault : f = ⟨e, s.parts⟩ := (Except.error.inj h).symm
      rw [hfault] at hf
      obtain ⟨rfl, rfl⟩ := hverdict e hends hf
      exact h
  | cons x xs ih =>
    rw [List.cons_append, run]
    rw [run] at h
    cases hshift : s.shift x with
    | error f' =>
      rw [hshift] at h
      exact h
    | ok s' =>
      rw [hshift] at h
      exact ih h

/-- A final fault is reported whatever is put behind the text. -/
theorem read_append (h : read t = .error f) (hf : f.error.IsFinal) (more : Bytes) :
    read (t ++ more) = .error f := by
  cases t with
  | nil =>
    cases h
    exact absurd hf id
  | cons b t =>
    unfold read at h
    cases hsigns : Sign.readAll 0 (b :: t) with
    | mk signs ending =>
      cases hlexemes : Lexeme.readAll ending signs with
      | mk lexemes verdict =>
        simp only [hsigns, hlexemes] at h
        obtain ⟨behind, ending', hmore, hsame⟩ := readSigns_append hsigns more
        rw [List.cons_append] at hmore ⊢
        unfold read
        by_cases hending : ending.IsFinal
        · -- Behind a bad escape there are no more signs, so that both texts have the same ones.
          obtain ⟨rfl, rfl⟩ := hsame hending
          simpa only [hmore, List.append_nil, hlexemes] using h
        · obtain ⟨lexemes', verdict', hmore', hverdict⟩ :=
            readLexemes_append hlexemes hending ending' behind
          simp only [hmore, hmore']
          exact Stack.run_append h hf hverdict

end Pattern

/-- The fault of a pattern that is refused is found where it points, and within the pattern unless
there is none. If it is final, it is reported again whatever is put behind the pattern, and the
graph gets the same parts. -/
theorem Graph.addWritten_fault (g h : Graph) (text : String) (e : SyntaxError)
    (hadd : g.addWritten text = (h, .error e)) :
    e.PointsAt (bytesOf text) ∧
      (text ≠ "" → ∃ o ≤ (bytesOf text).length, e.offset? = some o) ∧
      (e.IsFinal → ∀ more : String, g.addWritten (text ++ more) = (h, .error e)) := by
  unfold addWritten at hadd
  split at hadd
  · rename_i f hread
    cases hadd
    have hpoints := Pattern.pointsAt_of_read hread
    refine ⟨hpoints, fun hne => hpoints.offset_le (mt bytesOf_eq_nil_iff.1 hne), ?_⟩
    intro hfinal more
    unfold addWritten
    rw [bytesOf_append, Pattern.read_append hread hfinal]
  · cases hadd

/-- The range `z-a` goes down, so that closing its set does not help. -/
theorem Graph.addWritten_fault_range :
    let h := (Graph.empty.addWritten "b[z-a").1
    let e : SyntaxError := .invalidRange 2 122 97
    Graph.empty.addWritten "b[z-a" = (h, .error e) ∧ e.PointsAt (bytesOf "b[z-a") ∧ e.IsFinal ∧
      Graph.empty.addWritten "b[z-a]" = (h, .error e) := by
  intro h e
  have hadd : Graph.empty.addWritten "b[z-a" = (h, .error e) :=
    Prod.ext rfl (by decide +kernel)
  obtain ⟨hpoints, -, hfinal⟩ := addWritten_fault _ h _ e hadd
  exact ⟨hadd, hpoints, trivial, hfinal trivial "]"⟩

end MaximalMunch
