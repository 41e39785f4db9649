import MaximalMunch.Proofs.Lists
import MaximalMunch.Proofs.Truncation

/-! Progress. Neither a comment nor a token is empty, and both end within the source. So the loops
of lexing end after at most as many rounds as bytes are left, and a scan reports at most that many
tokens before it ends or fails. -/

namespace MaximalMunch

namespace Tokenizer

variable {t : Tokenizer} {source : Bytes} {c behind : Cursor}

/-! ## Calls -/

/-- A cursor that steps over some bytes of what is left moves forward within the source. -/
theorem pos_advance_take {length : Nat} (hpos : 0 < length)
    (hle : length ≤ (source.drop c.pos).length) :
    let behind := c.advance ((source.drop c.pos).take length)
    c.pos < behind.pos ∧ behind.pos ≤ source.length := by
  intro behind
  have hbehind : behind.pos = c.pos + length := by
    rw [Cursor.pos_advance, List.length_take, Nat.min_eq_left hle]
  rw [List.length_drop] at hle
  omega

theorem skipComment?_advances (h : t.skipComment? source c = some behind) :
    c.pos < behind.pos ∧ behind.pos ≤ source.length := by
  obtain ⟨length, hlength, rfl⟩ := Option.map_eq_some_iff.1 h
  obtain ⟨hpos, hle⟩ := commentLength_bounds hlength
  exact pos_advance_take hpos hle

theorem nextToken_advances (h : (t.nextToken source c).1.isError = false) :
    c.pos < (t.nextToken source c).2.pos ∧ (t.nextToken source c).2.pos ≤ source.length := by
  cases hmatch : t.matchAt (source.drop c.pos) with
  | none =>
    rw [nextToken_of_stuck hmatch] at h
    cases h
  | some found =>
    rw [nextToken_of_match hmatch]
    exact pos_advance_take (matchAt_pos hmatch) (matchAt_le hmatch)

/-- One comment after the other, until there is none at the cursor. -/
theorem exists_skipping (t : Tokenizer) (hc : c.pos ≤ source.length) :
    ∃ n last, RunsOut (t.skipComment? source) n c last ∧ c.pos + n ≤ last.pos ∧
      last.pos ≤ source.length := by
  have hshrinks : ∀ c behind, c.pos ≤ source.length → t.skipComment? source c = some behind →
      behind.pos ≤ source.length ∧ source.length - behind.pos < source.length - c.pos := by
    intro c behind _ h
    have := skipComment?_advances h
    omega
  obtain ⟨n, last, hrun, hlast, hle⟩ :=
    RunsOut.exists_of_shrinks (fun c : Cursor => source.length - c.pos) hshrinks hc
  exact ⟨n, last, hrun, by omega, hlast⟩

end Tokenizer

namespace Scan

open Tokenizer

variable {t : Tokenizer} {s next last : Scan} {token : Token} {n : Nat}

/-! ## The loop of `next` -/

/-- The scan behind a comment or a token that is left out. -/
def passOver? (t : Tokenizer) (s : Scan) : Option Scan :=
  match step t s with
  | .pass next => some next
  | _ => none

theorem passOver?_eq_some : s.passOver? t = some next ↔ step t s = .pass next := by
  unfold passOver?
  cases step t s <;> simp

/-- Only the end and a fault finish a scan. -/
theorem finished_of_pass (h : step t s = .pass next) : next.finished = s.finished := by
  obtain ⟨_, rfl, -⟩ := step_eq_pass h
  rfl

theorem finished_of_emit (h : step t s = .emit token next) : next.finished = s.finished := by
  obtain ⟨-, _, -, -, rfl⟩ := step_eq_emit h
  rfl

theorem exists_passing (t : Tokenizer) (s : Scan) :
    ∃ n last, RunsOut (passOver? t) n s last ∧ n + last.rest.length ≤ s.rest.length := by
  have hshrinks : ∀ s next, True → passOver? t s = some next →
      True ∧ next.rest.length < s.rest.length := fun _ _ _ h =>
    ⟨trivial, step_pass_shorter (passOver?_eq_some.1 h)⟩
  obtain ⟨n, last, hrun, -, hle⟩ :=
    RunsOut.exists_of_shrinks (fun s : Scan => s.rest.length) hshrinks trivial
  exact ⟨n, last, hrun, hle⟩

/-- What is passed over does not matter to what is reported. -/
theorem next_of_runsOut (h : RunsOut (passOver? t) n s last) (hrunning : s.finished = false) :
    s.next t = last.next t := by
  induction h with
  | stop => rfl
  | step hstep _ ih =>
    have hpass := passOver?_eq_some.1 hstep
    rw [next_pass hrunning hpass]
    exact ih ((finished_of_pass hpass).trans hrunning)

/-! ## All reports -/

theorem next_finish (hrunning : s.finished = false) (h : step t s = .finish) :
    s.next t = (none, { s with finished := true }) := by
  rw [Scan.next, if_neg (Bool.eq_false_iff.1 hrunning)]
  split <;> simp_all

theorem item_pass (hrunning : s.finished = false) (h : step t s = .pass next) (n : Nat) :
    s.item t n = next.item t n := by
  cases n <;> rw [item, item, next_pass hrunning h]

/-- A scan reports some tokens, no more than bytes are left, and then either a fault or the end;
behind these it reports nothing. Lexing what is left gives the same. -/
theorem exists_reports (hrunning : s.finished = false) :
    ∃ (tokens : List Token) (fault? : Option Fault),
      tokens.length ≤ s.rest.length ∧ s.collect t = fault?.elim (.ok tokens) .error ∧
      ∀ n, s.item t n = (tokens.map .ok ++ (fault?.map .error).toList)[n]? := by
  fun_induction collect t s with
  | case1 s hstep =>
    refine ⟨[], none, Nat.zero_le _, rfl, fun n => ?_⟩
    have hnext := next_finish hrunning hstep
    cases n with
    | zero => rw [item, hnext]; rfl
    | succ n => rw [item, hnext, item_finished rfl]; rfl
  | case2 s fault position hstep =>
    refine ⟨[], some fault, Nat.zero_le _, rfl, fun n => ?_⟩
    have hnext := next_fail hrunning hstep
    cases n with
    | zero => rw [item, hnext]; rfl
    | succ n => rw [item, hnext, item_finished rfl]; rfl
  | case3 s next hstep ih =>
    have hnext := (finished_of_pass hstep).trans hrunning
    obtain ⟨tokens, fault?, hlength, hcollect, hitem⟩ := ih hnext
    have hshorter := step_pass_shorter hstep
    refine ⟨tokens, fault?, by omega, hcollect, fun n => ?_⟩
    rw [item_pass hrunning hstep, hitem]
  | case4 s token next hstep ih =>
    have hnext := (finished_of_emit hstep).trans hrunning
    obtain ⟨tokens, fault?, hlength, hcollect, hitem⟩ := ih hnext
    have hshorter := step_emit_shorter hstep
    refine ⟨token :: tokens, fault?, by rw [List.length_cons]; omega, ?_, fun n => ?_⟩
    · rw [hcollect]
      cases fault? <;> rfl
    · have hnext := next_emit hrunning hstep
      cases n with
      | zero => rw [item, hnext]; rfl
      | succ n => rw [item, hnext, hitem]; rfl

end Scan

namespace Tokenizer

/-- A comment that is stepped over and a token that is no error token move the cursor forward within
the source; where there is no comment, the cursor stays. So one comment after the other can be
stepped over only so often as there are bytes, a call of `next` passes over at most as many comments
and left-out tokens as bytes are left, and lexing gives at most one token for each byte, behind
which there is at most one fault. -/
theorem lexing_ends (t : Tokenizer) (source : Bytes) :
    (∀ c : Cursor, c.pos ≤ source.length →
      (∀ behind, t.skipComment? source c = some behind →
        c.pos < behind.pos ∧ behind.pos ≤ source.length) ∧
      (t.skipComment? source c = none → t.call source c .comment = c) ∧
      ((t.nextToken source c).1.isError = false →
        c.pos < (t.nextToken source c).2.pos ∧ (t.nextToken source c).2.pos ≤ source.length) ∧
      ∃ n last, RunsOut (t.skipComment? source) n c last ∧ c.pos + n ≤ last.pos ∧
        last.pos ≤ source.length) ∧
    (∀ s : Scan, s.finished = false → ∃ n last, RunsOut (Scan.passOver? t) n s last ∧
      n + last.rest.length ≤ s.rest.length ∧ s.next t = last.next t) ∧
    ∃ (tokens : List Token) (fault? : Option Scan.Fault), tokens.length ≤ source.length ∧
      t.analyze source = fault?.elim (.ok tokens) .error ∧
      ∀ n, (t.scan source).item t n = (tokens.map .ok ++ (fault?.map .error).toList)[n]? := by
  refine ⟨fun c hc => ⟨fun _ => skipComment?_advances, fun hnone => ?_, nextToken_advances,
    exists_skipping t hc⟩, fun s hrunning => ?_, ?_⟩
  · rw [call, hnone, Option.getD_none]
  · obtain ⟨n, last, hrun, hle⟩ := Scan.exists_passing t s
    exact ⟨n, last, hrun, hle, Scan.next_of_runsOut hrun hrunning⟩
  · exact Scan.exists_reports (s := t.scan source) rfl

end Tokenizer

end MaximalMunch
