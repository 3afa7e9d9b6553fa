import Dbml.Proofs.Document.Misfit
import Dbml.Proofs.Text.Place
import Dbml.Proofs.Token.Reading

/-!
# Positions are exact

A position and an offset are carried along together while a text is read, and never counted anew.
They agree with the text all the same (`Located`): every token, the end of the input included, and
every problem stands where the text before its span ends. A text is read front by front, so the
place before each front is the place after the texts of those before it; a syntax problem stands at
a token.
-/

namespace Dbml

open Front

/-- The offset falls between two characters of the text; the position is counted from the text
before it, and walking to that position leads back to the offset. -/
def Located (s : List Char) (position : Position) (offset : Nat) : Prop :=
  ∃ before rest, splitBytes offset s = some (before, rest) ∧
    position = ⟨1 + before.count '\n', 1 + sinceNewline before⟩ ∧
    position.offsetIn s = some offset

theorem located_after (before rest : List Char) :
    Located (before ++ rest) (Place.start.after before).position
      (Place.start.after before).offset := by
  have hoffset : (Place.start.after before).offset = byteLength before := Nat.zero_add _
  rw [hoffset]
  refine ⟨before, rest, splitBytes_eq_some_iff.2 ⟨rfl, rfl⟩, ?_, ?_⟩
  · exact Position.after_start before
  · exact Position.offsetIn_after before rest

/-! ## Tokens and problems of the reading -/

/-- An item stands at the place it was read from. -/
def StandsAt (p : Place) : Except Problem Token → Prop
  | .ok t => t.position = p.position ∧ t.span.start = p.offset
  | .error e => e.position = p.position ∧ e.span.start = p.offset

/-- What a call answers at the end, or where something is left open, stands at the place of the
call. -/
theorem standsAt_nextAt {r : List Char} (hr : r = [] ∨ OpenEnded r) (p : Place) :
    StandsAt p (Stream.nextAt p r).1 := by
  rcases hr with rfl | hr
  · rw [Stream.nextAt]
    exact ⟨rfl, rfl⟩
  · rcases hr.exists_problem with ⟨literal, hp⟩ | hp
    · rw [(hp p).2]
      exact ⟨rfl, rfl⟩
    · rw [(hp p).2]
      exact ⟨rfl, rfl⟩

/-- Where an item of a text is said to stand, according to what it is. -/
def LocatedItem (s : List Char) : Except Problem Token → Prop
  | .ok t => Located s t.position t.span.start
  | .error e => Located s e.position e.span.start

theorem StandsAt.located {before rest : List Char} {item : Except Problem Token}
    (h : StandsAt (Place.start.after before) item) : LocatedItem (before ++ rest) item := by
  have hl := located_after before rest
  cases item with
  | ok t =>
    obtain ⟨hpos, hspan⟩ := h
    rw [← hpos, ← hspan] at hl
    exact hl
  | error e =>
    obtain ⟨hpos, hspan⟩ := h
    rw [← hpos, ← hspan] at hl
    exact hl

theorem located_of_mem_tokens {fs : List Front} {r : List Char} (h : Readable fs r) {t : Token}
    (ht : t ∈ tokens .start fs) : Located (texts fs ++ r) t.position t.span.start := by
  obtain ⟨before, value, after, htext, heq, -⟩ := h.exists_lexeme ht
  have hl := located_after before ((lexeme t.kind value).text ++ after)
  rw [htext, heq, List.append_assoc]
  exact hl

/-- Every item of a reading stands where it is said to stand, however far the reading goes. -/
theorem located_of_mem_steps {source : String} {n : Nat} {item : Except Problem Token}
    (h : some item ∈ (Stream.ofText source).steps n) : LocatedItem source.toList item := by
  obtain ⟨fs, r, htext, hfs, hr⟩ := exists_readable source.toList
  obtain ⟨i, hi⟩ := List.getElem?_of_mem h
  have hlt : i < n := by
    rw [← Stream.length_steps (Stream.ofText source) n]
    exact (List.getElem?_eq_some_iff.1 hi).1
  have hitem := Stream.getElem?_steps_texts hfs hr .start hlt
  rw [← htext] at hitem
  rw [show (⟨some (.start, source.toList)⟩ : Stream) = Stream.ofText source from rfl, hi] at hitem
  have hmem := List.mem_of_getElem? (Option.some.inj hitem).symm
  rw [htext]
  rcases List.mem_append.1 hmem with hmem | hmem
  · obtain ⟨t, ht, rfl⟩ := List.mem_map.1 hmem
    exact located_of_mem_tokens hfs ht
  · rw [List.mem_singleton.1 hmem]
    exact (standsAt_nextAt hr _).located

theorem located_of_mem_tokenize {source : String} {ts : List Token} (h : tokenize source = .ok ts)
    {t : Token} (ht : t ∈ ts) : Located source.toList t.position t.span.start := by
  obtain ⟨fs, htext, hfs, rfl⟩ := tokenizeAt_eq_ok_iff.1 h
  rcases List.mem_append.1 ht with ht | ht
  · rw [htext]
    simpa using located_of_mem_tokens hfs ht
  · rw [List.mem_singleton.1 ht]
    have hend := located_after source.toList []
    rw [List.append_nil] at hend
    exact hend

/-- The problem of a text that cannot be read is located where it starts. -/
theorem located_of_tokenize_error {source : String} {e : Problem} (h : tokenize source = .error e) :
    Located source.toList e.position e.span.start := by
  obtain ⟨fs, r, htext, hfs, hr⟩ := exists_readable source.toList
  rw [tokenize, htext, tokenizeAt_texts hfs] at h
  replace h := Phrase.error_of_map h
  rw [htext]
  have hstands : StandsAt (Place.start.after (texts fs)) (.error e) := by
    rcases hr with rfl | hr
    · rw [tokenizeAt_nil] at h
      cases h
    · rcases hr.exists_problem with ⟨literal, hp⟩ | hp
      · rw [(hp _).1] at h
        cases h
        exact ⟨rfl, rfl⟩
      · rw [(hp _).1] at h
        cases h
        exact ⟨rfl, rfl⟩
  exact hstands.located

/-! ## Problems of the parser -/

/-- A list that has an end of the input ends with one of its own tokens. -/
theorem stop_mem {ts : List Token} (h : ∃ t ∈ ts, t.isEof = true) :
    (TokenList.ofTokens ts).stop ∈ ts := by
  obtain ⟨u, hu⟩ : ∃ u, ts.find? (·.isEof) = some u :=
    Option.isSome_iff_exists.1 (List.find?_isSome.2 h)
  have hstop : (TokenList.ofTokens ts).stop = u := by
    simp [TokenList.ofTokens, hu]
  rw [hstop]
  exact List.mem_of_find?_eq_some hu

theorem body_subset (ts : List Token) : (TokenList.ofTokens ts).body ⊆ ts :=
  (List.takeWhile_prefix _).subset

/-- A problem that the parser finds with the tokens of a text is about one of them. -/
theorem exists_token_of_ofTokens {source : String} {ts : List Token} {e : Problem}
    (hts : tokenize source = .ok ts) (h : Document.ofTokens ts = .error e) :
    ∃ expected, ∃ t ∈ ts, e = .atToken expected t := by
  obtain ⟨expected, t, ht, rfl⟩ := (Document.failsAt_of_ofTokens h).exists_token
  refine ⟨expected, t, ?_, rfl⟩
  rcases ht with ht | rfl
  · exact body_subset ts ht
  · apply stop_mem
    obtain ⟨fs, -, -, rfl⟩ := tokenizeAt_eq_ok_iff.1 hts
    exact ⟨_, List.mem_append_right _ List.mem_cons_self, rfl⟩

theorem located_of_parse_error {source : String} {e : Problem}
    (h : Document.parse source = .error e) : Located source.toList e.position e.span.start := by
  rcases Phrase.error_of_bind h with h | ⟨ts, hts, h⟩
  · exact located_of_tokenize_error h
  · obtain ⟨expected, t, ht, rfl⟩ := exists_token_of_ofTokens hts h
    exact located_of_mem_tokenize hts ht

/-- **Positions are exact**: whatever is read of a text, one item at a time or as a whole, and
whatever problem stops the reading or the parsing, is reported where it stands. -/
theorem reported_positions_located (source : String) :
    (∀ n item, some item ∈ (Stream.ofText source).steps n → LocatedItem source.toList item) ∧
    (∀ ts, tokenize source = .ok ts → ∀ t ∈ ts, Located source.toList t.position t.span.start) ∧
    (∀ e, tokenize source = .error e → Located source.toList e.position e.span.start) ∧
    (∀ e, Document.parse source = .error e → Located source.toList e.position e.span.start) :=
  ⟨fun _ _ h => located_of_mem_steps h, fun _ h _ ht => located_of_mem_tokenize h ht,
    fun _ h => located_of_tokenize_error h, fun _ h => located_of_parse_error h⟩

/-- A syntax problem behind a comment over two lines and a literal with a character of two bytes. -/
theorem reported_positions_located_past_comment :
    ∃ e, Document.parse "/*\n*/Enum e \x7b \"é\" 7" = .error e ∧ e.position = ⟨2, 16⟩ ∧
      e.span = ⟨19, 20⟩ ∧ Located "/*\n*/Enum e \x7b \"é\" 7".toList ⟨2, 16⟩ 19 := by
  have h : Document.parse "/*\n*/Enum e \x7b \"é\" 7" =
      .error (.unexpected Expected.enumValue.text "integer literal ('7')" ⟨2, 16⟩ ⟨19, 20⟩) := by
    decide +kernel
  exact ⟨_, h, rfl, rfl, (reported_positions_located _).2.2.2 _ h⟩

end Dbml
