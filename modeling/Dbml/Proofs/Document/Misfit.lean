import Dbml.Proofs.Document.Stage
import Dbml.Proofs.Document.TokenList

/-!
# Where a document fails

A list of tokens that is no document is reported at one of its tokens, or at its end (`FailsAt`). It
is the first token that no document could have there (`FirstMisfit`): the tokens before it lead to
some stage, from which there is a way back, and the token itself leads nowhere.
-/

namespace Dbml

/-- The problem is about the front of what is left of the tokens at some place. -/
def FailsAt (stop : Token) (ts : List Token) (e : Problem) : Prop :=
  ∃ expected left, left <:+ ts ∧ e = .atToken expected (left.head?.getD stop)

/-- What a problem is about is one of the tokens, or their end. -/
theorem FailsAt.exists_token {stop : Token} {ts : List Token} {e : Problem}
    (h : FailsAt stop ts e) : ∃ expected t, (t ∈ ts ∨ t = stop) ∧ e = .atToken expected t := by
  obtain ⟨expected, left, hleft, rfl⟩ := h
  refine ⟨expected, _, ?_, rfl⟩
  cases left with
  | nil => exact .inr rfl
  | cons t left => exact .inl (hleft.subset List.mem_cons_self)

theorem Document.failsAt_of_ofTokens {ts : List Token} {e : Problem}
    (h : Document.ofTokens ts = .error e) :
    FailsAt (TokenList.ofTokens ts).stop (TokenList.ofTokens ts).body e := by
  obtain ⟨before, left, q, hbody, -, -, he⟩ := stuck_of_ofTokens h
  exact ⟨q.expected, left, ⟨before, hbody.symm⟩, he⟩

/-! ## The first token that does not fit -/

/-- The token `t`, the `i`-th of all, is what is wrong with `ts`, and the first that is. -/
structure FirstMisfit (ts : List Token) (e : Problem) (i : Nat) (t : Token) : Prop where
  token : (withEnd ts)[i]? = some t
  problem : ∃ expected, e = .unexpected expected t.describe t.position t.span
  before : ∀ u ∈ (withEnd ts).take i, u.kind ≠ .eof
  /-- What stands before the token can still become a document. -/
  viable : ∃ us d, Document.ofTokens ((withEnd ts).take i ++ us) = .ok d
  /-- With the token it cannot, whatever comes after it. -/
  impossible : ∀ us d, Document.ofTokens ((withEnd ts).take i ++ t :: us) ≠ .ok d
  /-- Where the input ends, the document is not over. -/
  unfinished : t.kind = .eof → ∀ d, Document.ofTokens ((withEnd ts).take i) ≠ .ok d

theorem Document.ofTokens_ne_ok {before ts : List Token} {q : Stage}
    (hbefore : Stage.document.after before = some q) (heof : ∀ t ∈ before, t.isEof = false)
    (h : q.Refuses (ts.takeWhile (!·.isEof))) (d : Document) :
    Document.ofTokens (before ++ ts) ≠ .ok d := by
  intro hok
  have hafter := accepts_iff_after.1 ⟨d, hok⟩
  rw [List.takeWhile_append_of_pos (by simpa using heof), Stage.after_append hbefore] at hafter
  exact Stage.not_after_of_refuses h hafter

/-- The parser stops at the first token that no document has there. -/
theorem Document.firstMisfit_of_ofTokens {ts : List Token} {e : Problem}
    (h : Document.ofTokens ts = .error e) : ∃ i t, FirstMisfit ts e i t := by
  obtain ⟨before, left, q, hbody, hbefore, hleft, he⟩ := stuck_of_ofTokens h
  obtain ⟨rest, hend⟩ := exists_withEnd ts
  rw [hbody] at hend
  have htake : (withEnd ts).take before.length = before := by
    rw [hend, List.append_assoc, List.take_left]
  have hall : ∀ t ∈ before ++ left, t.isEof = false := by
    intro t ht
    rw [← hbody] at ht
    exact TokenList.not_isEof_of_mem_body ht
  obtain ⟨heof, hleftEof⟩ := List.forall_mem_append.1 hall
  refine ⟨before.length, left.head?.getD (TokenList.ofTokens ts).stop, ?_, ⟨_, he⟩, ?_, ?_, ?_, ?_⟩
  · rw [hend]
    cases left <;> simp
  · rw [htake]
    intro u hu
    simpa [Token.isEof] using heof u hu
  · obtain ⟨us, hus, hback⟩ := q.exists_way_back
    have hnone : ∀ u ∈ before ++ us, u.isEof = false := by
      intro u hu
      rcases List.mem_append.1 hu with hu | hu
      · exact heof u hu
      · simpa [Token.isEof] using hus u hu
    have hafter : Stage.document.after (before ++ us) = some .document := by
      rw [Stage.after_append hbefore, hback]
    rw [← TokenList.takeWhile_of_not_isEof hnone] at hafter
    obtain ⟨d, hd⟩ := accepts_iff_after.2 hafter
    exact ⟨us, d, by rw [htake, hd]⟩
  · intro us d
    rw [htake]
    refine ofTokens_ne_ok hbefore heof ?_ d
    cases left with
    | nil =>
      rw [List.takeWhile_cons_of_neg (by simp [TokenList.isEof_stop])]
      exact hleft
    | cons t left =>
      rw [List.takeWhile_cons_of_pos (by simpa using hleftEof t List.mem_cons_self)]
      exact hleft
  · intro hk d
    rw [htake, ← List.append_nil before]
    refine ofTokens_ne_ok hbefore heof ?_ d
    cases left with
    | nil => exact hleft
    | cons t left =>
      -- a token of the document itself is no end of the input
      have ht := hleftEof t List.mem_cons_self
      rw [Token.isEof, show t.kind = .eof from hk] at ht
      cases ht

/-- A column has no type where an end of the input stands in the middle of the list. -/
theorem Document.firstMisfit_of_ofTokens_inner_end :
    ∃ i t, FirstMisfit
      [⟨.keyword .table, "Table", ⟨1, 1⟩, ⟨0, 5⟩⟩, ⟨.literal .ident, "t", ⟨1, 7⟩, ⟨6, 7⟩⟩,
        ⟨.delimiter .lBrace, "\x7b", ⟨1, 9⟩, ⟨8, 9⟩⟩, ⟨.literal .ident, "id", ⟨1, 11⟩, ⟨10, 12⟩⟩,
        ⟨.eof, "", ⟨1, 13⟩, ⟨12, 12⟩⟩, ⟨.literal .ident, "int", ⟨1, 14⟩, ⟨13, 16⟩⟩]
      (.unexpected "column type" "end of input" ⟨1, 13⟩ ⟨12, 12⟩) i t :=
  Document.firstMisfit_of_ofTokens (by decide +kernel)

end Dbml
