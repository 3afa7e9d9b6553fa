import Dbml.Proofs.Text.Place
import Dbml.Proofs.Token.Reading
import Mathlib.Control.Monad.Basic

/-!
# Reading one item at a time

A reading in progress gives tokens, then one last item, then nothing for ever. All of this follows
from what a single call can do (`Stream.nextAt_cases`): it gives a token and leaves less of the
text, or it gives the last item and ends the reading. What is left is a rest of the text at every
point of the reading (`Stream.Within`), so places along the way are places of the text.
-/

namespace Dbml

open Front

namespace Stream

/-! ## One call -/

/-- A call that gives the token `t` where `s`, which begins at `p`, is left: `rest` is left after
it, and begins at `q`. -/
structure Advances (p : Place) (s : List Char) (t : Token) (q : Place) (rest : List Char) :
    Prop where
  kind : t.kind ≠ .eof
  ahead : p.offset ≤ t.span.start
  nonempty : t.span.start < t.span.stop
  stop : t.span.stop = q.offset
  taken : ∃ front, s = front ++ rest ∧ q = p.after front
  tokens : tokenizeAt p s = (tokenizeAt q rest).map (t :: ·)

/-- Every token takes something from the text. -/
theorem Advances.less {p q : Place} {s rest : List Char} {t : Token} (h : Advances p s t q rest) :
    byteLength rest < byteLength s := by
  obtain ⟨front, rfl, rfl⟩ := h.taken
  have hforward : p.offset < p.offset + byteLength front :=
    calc p.offset ≤ t.span.start := h.ahead
      _ < t.span.stop := h.nonempty
      _ = p.offset + byteLength front := h.stop
  rw [byteLength_append]
  omega

/-- An item after which there is nothing more: the end of the input, or a problem. -/
def IsLast (item : Except Problem Token) : Prop := ∀ t, item = .ok t → t.kind = .eof

theorem advances_of_lexeme {c : Char} {cs rest : List Char} {kind : Kind} {value : List Char}
    (h : read c cs = (lexeme kind value, rest)) (p : Place) :
    Advances p (c :: cs) (Token.read p kind value) (p.after (lexeme kind value).text) rest := by
  obtain ⟨hvalid, -, htext⟩ := (read_eq_iff rfl).1 h
  have hpos : 0 < byteLength (lexeme kind value).text := byteLength_pos hvalid.text_ne_nil
  refine ⟨kind_ne_eof hvalid, Nat.le_refl _, ?_, rfl, ⟨_, htext.symm, rfl⟩, ?_⟩
  · exact Nat.lt_add_of_pos_right hpos
  · exact tokenizeAt_of_lexeme h p

/-- Passing over text in front changes neither the token nor what is left after it. -/
theorem Advances.of_trivia {c : Char} {cs mid text rest : List Char}
    (h : read c cs = (trivia text, mid)) {p q : Place} {t : Token}
    (hadv : Advances (p.after text) mid t q rest) : Advances p (c :: cs) t q rest := by
  obtain ⟨-, -, htext⟩ := (read_eq_iff rfl).1 h
  obtain ⟨front, rfl, rfl⟩ := hadv.taken
  refine ⟨hadv.kind, ?_, hadv.nonempty, hadv.stop, ⟨text ++ front, ?_, by simp⟩, ?_⟩
  · exact Nat.le_trans (Nat.le_add_right _ _) hadv.ahead
  · rw [← htext, List.append_assoc]
    rfl
  · rw [tokenizeAt_of_trivia h]
    exact hadv.tokens

/-- What a call can do: give a token and go forward, or give the last item and end. -/
theorem nextAt_cases (p : Place) (s : List Char) :
    (∃ t q rest, nextAt p s = (.ok t, ⟨some (q, rest)⟩) ∧ Advances p s t q rest) ∨
      ∃ last, nextAt p s = (last, done) ∧ IsLast last ∧ tokenizeAt p s = last.map ([·]) := by
  fun_induction nextAt p s with
  | case1 p =>
    refine .inr ⟨_, rfl, ?_, tokenizeAt_nil p⟩
    rintro t ⟨⟩
    rfl
  | case2 p c cs kind value rest hread => exact .inl ⟨_, _, _, rfl, advances_of_lexeme hread p⟩
  | case3 p c cs text rest hread ih =>
    rcases ih with ⟨t, q, rest', hnext, hadv⟩ | ⟨last, hnext, hlast, htokens⟩
    · exact .inl ⟨t, q, rest', hnext, hadv.of_trivia hread⟩
    · exact .inr ⟨last, hnext, hlast, by rw [tokenizeAt_of_trivia hread, htokens]⟩
  | case4 p c cs literal rest hread =>
    refine .inr ⟨_, rfl, by rintro t ⟨⟩, ?_⟩
    rw [tokenizeAt]
    split <;> simp_all [Except.map]
  | case5 p c cs rest hread =>
    refine .inr ⟨_, rfl, by rintro t ⟨⟩, ?_⟩
    rw [tokenizeAt]
    split <;> simp_all [Except.map]

/-! ## A whole run -/

/-- The items of a run: tokens, the last item, and nothing for ever. There are no more tokens than
bytes, since each of them takes at least one. -/
theorem exists_items (p : Place) (s : List Char) :
    ∃ ts last, (∀ t ∈ ts, t.kind ≠ .eof) ∧ IsLast last ∧ ts.length ≤ byteLength s ∧
      (∀ n, (⟨some (p, s)⟩ : Stream).steps n =
        (List.range n).map fun i => (ts.map .ok ++ [last])[i]?) ∧
      tokenizeAt p s = last.map (fun t => ts ++ [t]) := by
  induction hn : byteLength s using Nat.strongRecOn generalizing p s with
  | _ n ih =>
    subst hn
    rcases nextAt_cases p s with ⟨t, q, rest, hnext, hadv⟩ | ⟨last, hnext, hlast, htokens⟩
    · obtain ⟨ts, last, hts, hlast, hlength, hsteps, htokens⟩ := ih _ hadv.less q rest rfl
      refine ⟨t :: ts, last, ?_, hlast, ?_, ?_, ?_⟩
      · exact List.forall_mem_cons.2 ⟨hadv.kind, hts⟩
      · exact Nat.lt_of_le_of_lt hlength hadv.less
      · intro n
        cases n with
        | zero => rfl
        | succ n =>
          rw [steps_succ, hnext, hsteps, List.range_succ_eq_map, List.map_cons, List.map_map]
          rfl
      · rw [hadv.tokens, htokens]
        cases last <;> rfl
    · refine ⟨[], last, by simp, hlast, Nat.zero_le _, ?_, ?_⟩
      · intro n
        cases n with
        | zero => rfl
        | succ n =>
          rw [steps_succ, hnext, steps_done, List.range_succ_eq_map, List.map_cons, List.map_map]
          simp [Function.comp_def, List.map_const']
      · rw [htokens]
        cases last <;> rfl

/-- The reading after `n` calls of `next`. -/
def afterCalls (r : Stream) : Nat → Stream
  | 0 => r
  | n + 1 => r.next.2.afterCalls n

theorem afterCalls_succ (r : Stream) (n : Nat) :
    r.afterCalls (n + 1) = (r.afterCalls n).next.2 := by
  induction n generalizing r with
  | zero => rfl
  | succ n ih => exact ih r.next.2

/-- The answer to a call depends on the reading after the calls before it. -/
theorem getElem?_steps (r : Stream) (n : Nat) :
    (r.steps (n + 1))[n]? = some (r.afterCalls n).next.1 := by
  induction n generalizing r with
  | zero => rfl
  | succ n ih => exact ih r.next.2

/-- Where the reading is, unless it has come to its end. -/
def place? (r : Stream) : Option Place := r.left.map (·.1)

/-- The reading is somewhere within the text: what is left is a rest of the text and begins where
the part before it ends. -/
def Within (s : List Char) (r : Stream) : Prop :=
  ∀ p rest, r.left = some (p, rest) → ∃ before, s = before ++ rest ∧ p = Place.start.after before

/-- A call leaves a stream within the text it reads. -/
theorem Within.next {s : List Char} {r : Stream} (h : r.Within s) : r.next.2.Within s := by
  intro q rest hleft
  rcases r with ⟨_ | ⟨p, left⟩⟩
  · cases hleft
  · obtain ⟨before, rfl, rfl⟩ := h p left rfl
    replace hleft : (nextAt (Place.start.after before) left).2.left = some (q, rest) := hleft
    rcases nextAt_cases (Place.start.after before) left with ⟨t, q', rest', hnext, hadv⟩ |
      ⟨last, hnext, -, -⟩
    · rw [hnext] at hleft
      cases hleft
      obtain ⟨front, rfl, rfl⟩ := hadv.taken
      exact ⟨before ++ front, by simp, by simp⟩
    · rw [hnext] at hleft
      cases hleft

theorem Within.afterCalls {s : List Char} {r : Stream} (h : r.Within s) (n : Nat) :
    (r.afterCalls n).Within s := by
  induction n generalizing r with
  | zero => exact h
  | succ n ih => exact ih h.next

theorem within_ofText (source : String) : (ofText source).Within source.toList := by
  rintro p rest ⟨⟩
  exact ⟨[], rfl, rfl⟩

/-- A call that gives a token goes forward: the token stands ahead of where the reading was, and the
reading goes on where the token ends. -/
theorem next_forward {source : String} {r : Stream} (h : r.Within source.toList) {t : Token}
    (ht : r.next.1 = some (.ok t)) (heof : t.kind ≠ .eof) :
    ∃ p q, r.place? = some p ∧ r.next.2.place? = some q ∧ p.offset ≤ t.span.start ∧
      t.span.start < t.span.stop ∧ t.span.stop = q.offset ∧ q.offset ≤ source.utf8ByteSize := by
  have hwithin := h.next
  rcases r with ⟨_ | ⟨p, left⟩⟩
  · cases ht
  replace ht : some (nextAt p left).1 = some (.ok t) := ht
  have hafter : (⟨some (p, left)⟩ : Stream).next.2 = (nextAt p left).2 := rfl
  rcases nextAt_cases p left with ⟨t', q, rest, hnext, hadv⟩ | ⟨last, hnext, hlast, -⟩
  · rw [hnext] at ht hafter
    cases ht
    rw [hafter] at hwithin ⊢
    obtain ⟨before, htext, rfl⟩ := hwithin q rest rfl
    refine ⟨p, _, rfl, rfl, hadv.ahead, hadv.nonempty, hadv.stop, ?_⟩
    rw [← String.ofList_toList (s := source), utf8ByteSize_ofList, htext, byteLength_append,
      Place.after, Place.start]
    simp only
    omega
  · rw [hnext] at ht
    cases ht
    exact absurd (hlast t rfl) heof

/-- **A reading gives tokens, one last item, and nothing for ever.** The last item is the end of the
input, and then the items are the tokens of the whole text; or it is a problem, and the whole text
has the same. Every call that gives a token goes forward, so there are no more tokens than bytes. -/
theorem steps_protocol (source : String) :
    (∃ ts last, (∀ t ∈ ts, t.kind ≠ .eof) ∧ IsLast last ∧ ts.length + 1 ≤ source.utf8ByteSize + 1 ∧
      (∀ n, (ofText source).steps n = (List.range n).map fun i => (ts.map .ok ++ [last])[i]?) ∧
      tokenize source = last.map (fun t => ts ++ [t])) ∧
    ∀ n t, ((ofText source).steps (n + 1))[n]? = some (some (.ok t)) → t.kind ≠ .eof →
      ∃ p q, ((ofText source).afterCalls n).place? = some p ∧
        ((ofText source).afterCalls (n + 1)).place? = some q ∧ p.offset ≤ t.span.start ∧
        t.span.start < t.span.stop ∧ t.span.stop = q.offset ∧ q.offset ≤ source.utf8ByteSize := by
  constructor
  · obtain ⟨ts, last, hts, hlast, hlength, hsteps, htokens⟩ := exists_items .start source.toList
    rw [← utf8ByteSize_ofList, String.ofList_toList] at hlength
    exact ⟨ts, last, hts, hlast, Nat.succ_le_succ hlength, hsteps, htokens⟩
  · intro n t ht heof
    rw [getElem?_steps] at ht
    rw [afterCalls_succ]
    exact next_forward ((within_ofText source).afterCalls n) (Option.some.inj ht) heof

/-- A lone slash and a stray character are passed over, and a string that is never closed ends the
reading: two tokens, the problem, and nothing. -/
theorem steps_protocol_open :
    (ofText "a/é1 'b").steps 5 =
        [some (.ok ⟨.literal .ident, "a", ⟨1, 1⟩, ⟨0, 1⟩⟩),
          some (.ok ⟨.literal .int, "1", ⟨1, 4⟩, ⟨4, 5⟩⟩),
          some (.error (.unterminatedLiteral (.literal .singleQuoted) ⟨1, 6⟩ ⟨6, 8⟩)), none, none] ∧
      ∃ p q, ((ofText "a/é1 'b").afterCalls 1).place? = some p ∧
        ((ofText "a/é1 'b").afterCalls 2).place? = some q ∧ p.offset ≤ 4 ∧ q.offset = 5 := by
  have hsteps : (ofText "a/é1 'b").steps 5 =
      [some (.ok ⟨.literal .ident, "a", ⟨1, 1⟩, ⟨0, 1⟩⟩),
        some (.ok ⟨.literal .int, "1", ⟨1, 4⟩, ⟨4, 5⟩⟩),
        some (.error (.unterminatedLiteral (.literal .singleQuoted) ⟨1, 6⟩ ⟨6, 8⟩)),
        none, none] := by
    decide +kernel
  have htwo : ((ofText "a/é1 'b").steps 2)[1]? =
      some (some (.ok ⟨.literal .int, "1", ⟨1, 4⟩, ⟨4, 5⟩⟩)) := by
    decide +kernel
  obtain ⟨p, q, hp, hq, hstart, -, hstop, -⟩ :=
    (steps_protocol "a/é1 'b").2 1 _ htwo (by decide)
  exact ⟨hsteps, p, q, hp, hq, hstart, hstop.symm⟩

end Stream

end Dbml
