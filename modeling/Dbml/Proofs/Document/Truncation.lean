import Dbml.Proofs.Document.TokenList
import Dbml.Proofs.Document.WellFormed
import Dbml.Proofs.Text.Place
import Dbml.Proofs.Token.Splice

/-!
# Cutting the tokens is cutting the text

A list of tokens without an end ends after its last token. Where that is, is reckoned from the token
alone: its marks take what its span has more than its value. `Token.endPlace_read` says that this is
the place to which the reading of the token's text leads, so the first tokens of a text are all the
tokens of the text up to the last of them (`Document.ofTokens_take`).
-/

namespace Dbml

open Front

/-! ## Where a token ends -/

theorem length_fence (kind : Kind) : byteLength kind.fence = kind.fence.length := by
  cases kind with
  | literal l => cases l <;> rfl
  | _ => rfl

theorem newline_not_mem_fence (kind : Kind) : '\n' ∉ kind.fence := by
  cases kind with
  | literal l => cases l <;> decide
  | _ => exact List.not_mem_nil

theorem Token.endPosition_read (p : Place) (kind : Kind) (value : List Char) :
    (Token.read p kind value).endPosition =
      p.position.after (kind.fence ++ value ++ kind.fence) := by
  have hmarks : (Token.read p kind value).span.length - (String.ofList value).utf8ByteSize =
      2 * kind.fence.length := by
    simp only [Token.read, Span.length, Place.span, Place.after, byteLength_append,
      utf8ByteSize_ofList, length_fence]
    omega
  -- the marks hold no line end, so the line and the column turn on the value alone
  have hfence := newline_not_mem_fence kind
  rw [Position.after_append, Position.after_append, Position.after_of_not_mem _ hfence,
    Position.after_of_not_mem _ hfence, Position.after_eq]
  unfold Token.endPosition
  simp only [show (Token.read p kind value).value = String.ofList value from rfl, hmarks,
    String.toList_ofList]
  by_cases hn : '\n' ∈ value
  · rw [if_pos hn, if_pos hn]
    simp only [Token.read, sinceNewline, Position.mk.injEq, true_and]
    omega
  · rw [if_neg hn, if_neg hn]
    simp only [Token.read, Position.mk.injEq, true_and]
    omega

/-- The place behind a token, as it is computed from the token alone, is the one behind its text. -/
theorem Token.endPlace_read (p : Place) (kind : Kind) (value : List Char) :
    (Token.read p kind value).endPlace = p.after (lexeme kind value).text := by
  rw [Token.endPlace, Token.endPosition_read]
  rfl

/-- So where the text ends with a token, the end of its tokens is the end of the text. -/
theorem endOfTokens_tokens {fs : List Front} (h : UpToToken fs) :
    endOfTokens (tokens .start fs) = Place.start.after (texts fs) := by
  cases hlast : fs.getLast? with
  | none =>
    rw [List.getLast?_eq_none_iff.1 hlast]
    rfl
  | some f =>
    obtain ⟨kind, value, rfl⟩ := h f hlast
    obtain ⟨gs, rfl⟩ := List.getLast?_eq_some_iff.1 hlast
    have hend := Token.endPlace_read (Place.start.after (texts gs)) kind value
    simpa [tokens_append, tokens, endOfTokens] using hend

/-! ## The first tokens of a text -/

/-- The byte offset at which the last token ends, or that of the beginning if there is none. -/
def lastStop (ts : List Token) : Nat := ts.getLast?.elim 0 (·.span.stop)

theorem lastStop_eq (ts : List Token) : lastStop ts = (endOfTokens ts).offset := by
  unfold lastStop endOfTokens
  cases ts.getLast? <;> rfl

/-- The first tokens of a text and the end supplied to them are the tokens of a first part of it. -/
theorem tokenize_cut {fs gs : List Front} (h : Readable (fs ++ gs) []) (hlast : UpToToken fs) :
    tokenize (String.ofList (texts fs)) =
      .ok (tokens .start fs ++ [Token.eof (endOfTokens (tokens .start fs))]) := by
  rw [endOfTokens_tokens hlast]
  exact tokenize_texts (readable_append.1 h).1.nil_right

/-- To supply the end that would be supplied anyway makes no difference. -/
theorem Document.ofTokens_append_eof {ts : List Token} (h : ∀ t ∈ ts, t.isEof = false) :
    Document.ofTokens (ts ++ [Token.eof (endOfTokens ts)]) = Document.ofTokens ts := by
  unfold Document.ofTokens
  rw [TokenList.ofTokens_append h rfl, TokenList.ofTokens_of_not_isEof h]

/-- The first `k` tokens of a text parse as the text up to the end of the `k`-th does, with the same
document or the same problem; the end supplied to them is the end of that text. -/
theorem Document.ofTokens_take {source : String} {ts : List Token} (h : tokenize source = .ok ts)
    {k : Nat} (hk : k ≤ ts.countP fun t => t.kind ≠ .eof) :
    ∃ cut rest, splitBytes (lastStop (ts.take k)) source.toList = some (cut, rest) ∧
      tokenize (String.ofList cut) = .ok (ts.take k ++ [Token.eof (endOfTokens (ts.take k))]) ∧
      Document.ofTokens (ts.take k) = Document.parse (String.ofList cut) := by
  obtain ⟨fs, htext, hfs, rfl⟩ := tokenizeAt_eq_ok_iff.1 h
  have hlen : k ≤ (tokens .start fs).length := by
    rw [List.countP_append, List.countP_singleton] at hk
    exact hk.trans List.countP_le_length
  rw [List.take_append_of_le_length hlen]
  have hsplit := (List.take_append_drop k (tokens .start fs)).symm
  obtain ⟨before, after, rfl, hlast, hbefore, -⟩ := exists_cut hsplit
  rw [← hbefore]
  have htok := tokenize_cut hfs hlast
  refine ⟨texts before, texts after, ?_, htok, ?_⟩
  · rw [lastStop_eq, endOfTokens_tokens hlast, htext, texts_append]
    exact splitBytes_eq_some_iff.2 ⟨rfl, (Nat.zero_add _).symm⟩
  · have heof : ∀ t ∈ tokens .start before, t.isEof = false := by
      intro t ht
      exact not_isEof_of_mem_tokens (readable_append.1 hfs).1 ht
    rw [parse_of_tokenize htok]
    exact (ofTokens_append_eof heof).symm

/-- The last token kept is over two lines and has characters of two bytes. -/
theorem Document.ofTokens_take_two_lines :
    ∃ ts, tokenize "Enum e\x7b\"é\nü\" f\x7d" = .ok ts ∧
      Document.ofTokens (ts.take 4) =
        .error (.unexpected Expected.enumValue.text "end of input" ⟨2, 3⟩ ⟨14, 14⟩) ∧
      ∃ cut rest, splitBytes (lastStop (ts.take 4)) "Enum e\x7b\"é\nü\" f\x7d".toList =
          some (cut, rest) ∧
        tokenize (String.ofList cut) = .ok (ts.take 4 ++ [Token.eof (endOfTokens (ts.take 4))]) ∧
        Document.ofTokens (ts.take 4) = Document.parse (String.ofList cut) := by
  have h : tokenize "Enum e\x7b\"é\nü\" f\x7d" = .ok
      [⟨.keyword .enum, "Enum", ⟨1, 1⟩, ⟨0, 4⟩⟩, ⟨.literal .ident, "e", ⟨1, 6⟩, ⟨5, 6⟩⟩,
        ⟨.delimiter .lBrace, "\x7b", ⟨1, 7⟩, ⟨6, 7⟩⟩,
        ⟨.literal .doubleQuoted, "é\nü", ⟨1, 8⟩, ⟨7, 14⟩⟩,
        ⟨.literal .ident, "f", ⟨2, 4⟩, ⟨15, 16⟩⟩, ⟨.delimiter .rBrace, "\x7d", ⟨2, 5⟩, ⟨16, 17⟩⟩,
        ⟨.eof, "", ⟨2, 6⟩, ⟨17, 17⟩⟩] := by
    decide +kernel
  exact ⟨_, h, by decide +kernel, Document.ofTokens_take h (by decide)⟩

end Dbml
