import Dbml.Document.Parser
import Mathlib.Data.List.TakeWhile

/-!
# The end of a list of tokens

A document goes up to the first token that stands for the end of the input. A list may hold such a
token anywhere or not at all, and then one is supplied (`withEnd`); the two lemmas on
`TokenList.ofTokens` say what the document is in either case, and `exists_withEnd` that it makes no
difference where the end came from.
-/

namespace Dbml

/-- The tokens with an end of the input after the last, unless that is one. -/
def withEnd (ts : List Token) : List Token :=
  if ts.getLast?.any Token.isEof then ts else ts ++ [Token.eof (endOfTokens ts)]

namespace TokenList

theorem isEof_stop (ts : List Token) : (ofTokens ts).stop.isEof = true := by
  unfold ofTokens
  cases h : ts.find? (·.isEof) with
  | none => rfl
  | some t => exact List.find?_some h

theorem not_isEof_of_mem_body {ts : List Token} {t : Token} (h : t ∈ (ofTokens ts).body) :
    t.isEof = false := by
  simpa using List.all_eq_true.1 List.all_takeWhile t h

theorem takeWhile_of_not_isEof {ts : List Token} (h : ∀ t ∈ ts, t.isEof = false) :
    ts.takeWhile (!·.isEof) = ts := by
  apply List.takeWhile_eq_self_iff.2
  intro t ht
  rw [h t ht]
  rfl

/-- Where there is no end, one is supplied behind the last token. -/
theorem ofTokens_of_not_isEof {ts : List Token} (h : ∀ t ∈ ts, t.isEof = false) :
    ofTokens ts = ⟨ts, Token.eof (endOfTokens ts)⟩ := by
  have hnone : ts.find? (·.isEof) = none := by
    simpa using h
  rw [ofTokens, takeWhile_of_not_isEof h, hnone, Option.getD_none]

/-- A list that has an end of the input is cut by the first one. -/
theorem exists_append {ts : List Token} (h : ∃ t ∈ ts, t.isEof = true) :
    ∃ us e vs, ts = us ++ e :: vs ∧ (∀ t ∈ us, t.isEof = false) ∧ e.isEof = true := by
  obtain ⟨e, hfind⟩ := Option.isSome_iff_exists.1 (List.find?_isSome.2 h)
  obtain ⟨he, us, vs, rfl, hus⟩ := List.find?_eq_some_iff_append.1 hfind
  exact ⟨us, e, vs, rfl, by simpa using hus, he⟩

theorem ofTokens_append {ts us : List Token} {e : Token} (h : ∀ t ∈ ts, t.isEof = false)
    (he : e.isEof = true) : ofTokens (ts ++ e :: us) = ⟨ts, e⟩ := by
  have hbody : (ts ++ e :: us).takeWhile (!·.isEof) = ts := by
    rw [List.takeWhile_append_of_pos (by simpa using h), List.takeWhile_cons_of_neg (by simp [he]),
      List.append_nil]
  have hfind : (ts ++ e :: us).find? (·.isEof) = some e := by
    have hnone : ts.find? (·.isEof) = none := by
      simpa using h
    rw [List.find?_append, hnone, Option.none_or, List.find?_cons_of_pos he]
  rw [ofTokens, hbody, hfind, Option.getD_some]

end TokenList

/-- Whether an end was there or was supplied, the first one ends the document. -/
theorem exists_withEnd (ts : List Token) :
    ∃ rest, withEnd ts =
      (TokenList.ofTokens ts).body ++ (TokenList.ofTokens ts).stop :: rest := by
  by_cases h : ∃ t ∈ ts, t.isEof = true
  · obtain ⟨us, e, vs, rfl, hus, he⟩ := TokenList.exists_append h
    rw [TokenList.ofTokens_append hus he, withEnd]
    split
    · exact ⟨vs, rfl⟩
    · exact ⟨vs ++ [Token.eof (endOfTokens (us ++ e :: vs))], by simp⟩
  · have hnone : ∀ t ∈ ts, t.isEof = false := by
      intro t ht
      exact Bool.eq_false_iff.2 fun heof => h ⟨t, ht, heof⟩
    have hlast : ts.getLast?.any Token.isEof = false := by
      cases hl : ts.getLast? with
      | none => rfl
      | some t => exact hnone t (List.mem_of_getLast? hl)
    refine ⟨[], ?_⟩
    rw [TokenList.ofTokens_of_not_isEof hnone, withEnd, hlast]
    rfl

end Dbml
