import Dbml.Proofs.Text.Place
import Dbml.Proofs.Token.Reading
import Mathlib.Control.Monad.Basic

/-!
# Tokens make up the text

The tokens of a text cover it in order, and between them lies nothing but trivia. `Partition` says
what that means for a list of tokens and the text alone: spans, values and gaps are cut out of the
text by byte offsets, and a lexeme or a gap is judged by reading it on its own. `tokenize_partition`
is the one result; it comes from the sequence of fronts behind the tokens, one front at a time.
-/

namespace Dbml

open Front

/-- The width of the mark on each side of a value, in bytes. -/
def Kind.markWidth : Kind → Nat
  | literal .doubleQuoted => 1
  | literal .singleQuoted => 1
  | literal .funcExpr => 1
  | literal .multiline => 3
  | _ => 0

/-- Whether a token of this kind could not have taken more when `rest` follows it. -/
def Kind.Maximal : Kind → List Char → Prop
  | literal .ident, rest => Clear isWordChar rest
  | keyword _, rest => Clear isWordChar rest
  | literal .int, rest =>
    Clear Char.isDigit rest ∧ ∀ d ds, rest = '.' :: d :: ds → d.isDigit = false
  | literal .float, rest => Clear Char.isDigit rest
  | _, _ => True

/-- The spans between tokens, from `start` to the first and from the last to `stop` included. -/
def gaps (start stop : Nat) : List Token → List Span
  | [] => [⟨start, stop⟩]
  | t :: ts => ⟨start, t.span.start⟩ :: gaps t.span.stop stop ts

/-- The tokens `ts` of the text `s`, without the end of the input, leave nothing of it out. -/
structure Partition (s : List Char) (ts : List Token) : Prop where
  kind_ne_eof : ∀ t ∈ ts, t.kind ≠ .eof
  start_lt_stop : ∀ t ∈ ts, t.span.start < t.span.stop
  stop_le : ∀ t ∈ ts, t.span.stop ≤ byteLength s
  ordered : ts.Pairwise fun t u => t.span.stop ≤ u.span.start
  /-- The value is what the span covers less the marks at its ends. -/
  value : ∀ t ∈ ts,
    (⟨t.span.start + t.kind.markWidth, t.span.stop - t.kind.markWidth⟩ : Span).cut s =
      some t.value.toList
  /-- What the span covers is this one token when it is read alone. -/
  lexeme : ∀ t ∈ ts, ∃ text, t.span.cut s = some text ∧
    tokenize (String.ofList text) =
      .ok [⟨t.kind, t.value, .start, ⟨0, byteLength text⟩⟩, Token.eof (Place.start.after text)]
  /-- What lies between tokens is nothing when it is read alone. -/
  gap : ∀ g ∈ gaps 0 (byteLength s) ts, ∃ text, g.cut s = some text ∧
    tokenize (String.ofList text) = .ok [Token.eof (Place.start.after text)]
  maximal : ∀ t ∈ ts, ∃ before rest, splitBytes t.span.stop s = some (before, rest) ∧
    t.kind.Maximal rest

theorem byteLength_fence (kind : Kind) : byteLength kind.fence = kind.markWidth := by
  cases kind with
  | literal l => cases l <;> rfl
  | _ => rfl

/-- Where a front stops, its kind could not have gone on. -/
theorem Kind.maximal_of_stops {kind : Kind} {value rest : List Char}
    (h : (Front.lexeme kind value).Stops rest) : kind.Maximal rest := by
  unfold Kind.Maximal
  split <;> first | exact h | trivial

/-! ## Lexemes and gaps on their own -/

theorem tokenizeAt_text {kind : Kind} {value : List Char} (hv : (Front.lexeme kind value).Valid)
    (p : Place) :
    tokenizeAt p (Front.lexeme kind value).text =
      .ok [Token.read p kind value, Token.eof (p.after (Front.lexeme kind value).text)] := by
  refine tokenizeAt_eq_ok_iff.2 ⟨[.lexeme kind value], by simp, ?_, rfl⟩
  exact readable_singleton.2 ⟨hv, stops_nil _⟩

/-- The fronts that are no tokens. -/
def IsTrivia (f : Front) : Prop := ∃ text, f = .trivia text

theorem tokens_of_trivia {fs : List Front} (h : ∀ f ∈ fs, IsTrivia f) (p : Place) :
    tokens p fs = [] := by
  induction fs generalizing p with
  | nil => rfl
  | cons f fs ih =>
    obtain ⟨text, rfl⟩ := h f List.mem_cons_self
    exact ih (fun g hg => h g (List.mem_cons_of_mem _ hg)) _

/-- A text of which everything is passed over has no tokens but the end. -/
theorem tokenizeAt_of_isTrivia {fs : List Front} (h : ∀ f ∈ fs, IsTrivia f) (hfs : Readable fs [])
    (p : Place) : tokenizeAt p (texts fs) = .ok [Token.eof (p.after (texts fs))] := by
  refine tokenizeAt_eq_ok_iff.2 ⟨fs, rfl, hfs, ?_⟩
  rw [tokens_of_trivia h]
  rfl

/-! ## The order of tokens -/

theorem offset_le_of_mem_tokens {fs : List Front} {p : Place} {t : Token} (h : t ∈ tokens p fs) :
    p.offset ≤ t.span.start := by
  obtain ⟨gs, kind, value, hs, -, rfl⟩ := mem_tokens h
  exact Nat.le_add_right _ _

/-- Tokens do not overlap, and they come in the order of the text. -/
theorem pairwise_tokens (p : Place) (fs : List Front) :
    (tokens p fs).Pairwise fun t u => t.span.stop ≤ u.span.start := by
  induction fs generalizing p with
  | nil => exact List.Pairwise.nil
  | cons f fs ih =>
    cases f with
    | lexeme kind value =>
      refine List.Pairwise.cons ?_ (ih _)
      intro u hu
      exact offset_le_of_mem_tokens hu
    | _ => exact ih _

/-! ## The gaps between tokens -/

/-- Trivia are gathered in `gs` until a token ends the gap. -/
theorem tokenize_gap (before : List Char) (gs fs : List Front) (hgs : ∀ g ∈ gs, IsTrivia g)
    (h : Readable (gs ++ fs) []) :
    ∀ g ∈ gaps (byteLength before) (byteLength (before ++ texts gs ++ texts fs))
        (tokens (Place.start.after (before ++ texts gs)) fs),
      ∃ text, g.cut (before ++ texts gs ++ texts fs) = some text ∧
        tokenizeAt .start text = .ok [Token.eof (Place.start.after text)] := by
  have hgap : tokenizeAt .start (texts gs) = .ok [Token.eof (Place.start.after (texts gs))] :=
    tokenizeAt_of_isTrivia hgs (readable_append.1 h).1.nil_right .start
  induction fs generalizing before gs with
  | nil =>
    intro g hg
    rw [List.mem_singleton.1 hg]
    refine ⟨texts gs, ?_, hgap⟩
    simpa using Span.cut_append before (texts gs) []
  | cons f fs ih =>
    have hvalid : f.Valid := h.valid f (by simp)
    cases f with
    | lexeme kind value =>
      intro g hg
      rcases List.mem_cons.1 hg with rfl | hg
      · refine ⟨texts gs, ?_, hgap⟩
        have hcut := Span.cut_append before (texts gs) (texts (.lexeme kind value :: fs))
        simpa [Place.after, Place.start, Token.read, Place.span] using hcut
      · -- the next gap begins after the lexeme, with nothing gathered yet
        have hrest := (readable_append.1 h).2
        have := ih (before ++ texts gs ++ (Front.lexeme kind value).text) [] (by simp) hrest.2.2
          (by simpa using tokenizeAt_nil .start) g
        simp only [texts_nil, List.append_nil, texts_cons, ← List.append_assoc] at this hg ⊢
        refine this ?_
        simpa [Place.after, Place.start, Token.read, Place.span, Front.text, Nat.add_assoc] using hg
    | trivia text =>
      have hgs' : ∀ g ∈ gs ++ [Front.trivia text], IsTrivia g := by
        intro g hg
        rcases List.mem_append.1 hg with hg | hg
        · exact hgs g hg
        · exact ⟨text, List.mem_singleton.1 hg⟩
      have hread : Readable (gs ++ [Front.trivia text] ++ fs) [] := by simpa using h
      have hgap' := tokenizeAt_of_isTrivia hgs' (readable_append.1 hread).1.nil_right .start
      have := ih before _ hgs' hread hgap'
      simpa [tokens, Front.text] using this
    | openLiteral l => cases hvalid
    | openComment => cases hvalid

/-! ## The whole text -/

/-- The tokens of a readable text and the gaps between them make it up. -/
theorem partition_tokens {fs : List Front} (h : Readable fs []) :
    Partition (texts fs) (tokens .start fs) := by
  have hmem : ∀ t ∈ tokens .start fs, ∃ before value after,
      texts fs = before ++ (Front.lexeme t.kind value).text ++ after ∧
        t = Token.read (Place.start.after before) t.kind value ∧
        (Front.lexeme t.kind value).Valid ∧ (Front.lexeme t.kind value).Stops after := by
    intro t ht
    simpa using h.exists_lexeme ht
  have hspan : ∀ {t : Token} {before value : List Char},
      t = Token.read (Place.start.after before) t.kind value →
      t.span = ⟨byteLength before, byteLength before + byteLength (Front.lexeme t.kind value).text⟩ := by
    intro t before value ht
    rw [ht]
    simp [Token.read, Place.span, Place.after, Place.start, Front.text]
  refine ⟨?_, ?_, ?_, pairwise_tokens _ _, ?_, ?_, ?_, ?_⟩
  · intro t ht
    obtain ⟨before, value, after, -, -, hv, -⟩ := hmem t ht
    exact kind_ne_eof hv
  · intro t ht
    obtain ⟨before, value, after, -, heq, hv, -⟩ := hmem t ht
    have hpos := byteLength_pos hv.text_ne_nil
    rw [hspan heq]
    simp only
    omega
  · intro t ht
    obtain ⟨before, value, after, htext, heq, -, -⟩ := hmem t ht
    rw [hspan heq, htext]
    simp
  · intro t ht
    obtain ⟨before, value, after, htext, heq, -, -⟩ := hmem t ht
    have hvalue : t.value.toList = value := by rw [heq]; simp [Token.read]
    have hcut := Span.cut_append (before ++ t.kind.fence) value (t.kind.fence ++ after)
    rw [htext, hspan heq, hvalue, ← hcut, ← byteLength_fence]
    simp only [Front.text, byteLength_append, List.append_assoc]
    congr 2
    omega
  · intro t ht
    obtain ⟨before, value, after, htext, heq, hv, -⟩ := hmem t ht
    refine ⟨(Front.lexeme t.kind value).text, ?_, ?_⟩
    · rw [hspan heq, htext]
      exact Span.cut_append _ _ _
    · rw [tokenize, String.toList_ofList, tokenizeAt_text hv, heq]
      simp [Token.read, Place.span, Place.after, Place.start, Front.text]
  · intro g hg
    have := tokenize_gap [] [] fs (by simp) h g
    obtain ⟨text, hcut, htok⟩ := this (by simpa using hg)
    refine ⟨text, by simpa using hcut, ?_⟩
    rw [tokenize, String.toList_ofList]
    exact htok
  · intro t ht
    obtain ⟨before, value, after, htext, heq, -, hs⟩ := hmem t ht
    refine ⟨before ++ (Front.lexeme t.kind value).text, after, ?_, Kind.maximal_of_stops hs⟩
    rw [hspan heq, htext]
    exact splitBytes_eq_some_iff.2 ⟨rfl, byteLength_append _ _⟩

/-- Tokens partition the text: nothing is lost, overlapped or cut short. -/
theorem tokenize_partition {source : String} {ts : List Token} (h : tokenize source = .ok ts) :
    ∃ body stop, ts = body ++ [stop] ∧ stop.kind = .eof ∧ stop.value = "" ∧
      stop.span = ⟨byteLength source.toList, byteLength source.toList⟩ ∧
      Partition source.toList body := by
  obtain ⟨fs, htext, hfs, rfl⟩ := tokenizeAt_eq_ok_iff.1 h
  refine ⟨tokens .start fs, _, rfl, rfl, rfl, ?_, ?_⟩
  · simp [Token.eof, Place.after, Place.start]
  · rw [htext]
    exact partition_tokens hfs

/-- A slash that begins nothing stands right before a literal with a character of two bytes, and two
apostrophes stand inside a multiline literal. -/
theorem tokenize_partition_literals :
    tokenize "a/\"é\" 1.5'''x''y'''" = .ok
        [⟨.literal .ident, "a", ⟨1, 1⟩, ⟨0, 1⟩⟩, ⟨.literal .doubleQuoted, "é", ⟨1, 3⟩, ⟨2, 6⟩⟩,
          ⟨.literal .float, "1.5", ⟨1, 7⟩, ⟨7, 10⟩⟩,
          ⟨.literal .multiline, "x''y", ⟨1, 10⟩, ⟨10, 20⟩⟩, ⟨.eof, "", ⟨1, 20⟩, ⟨20, 20⟩⟩] ∧
      Partition "a/\"é\" 1.5'''x''y'''".toList
        [⟨.literal .ident, "a", ⟨1, 1⟩, ⟨0, 1⟩⟩, ⟨.literal .doubleQuoted, "é", ⟨1, 3⟩, ⟨2, 6⟩⟩,
          ⟨.literal .float, "1.5", ⟨1, 7⟩, ⟨7, 10⟩⟩,
          ⟨.literal .multiline, "x''y", ⟨1, 10⟩, ⟨10, 20⟩⟩] := by
  have h : tokenize "a/\"é\" 1.5'''x''y'''" = .ok
      [⟨.literal .ident, "a", ⟨1, 1⟩, ⟨0, 1⟩⟩, ⟨.literal .doubleQuoted, "é", ⟨1, 3⟩, ⟨2, 6⟩⟩,
        ⟨.literal .float, "1.5", ⟨1, 7⟩, ⟨7, 10⟩⟩,
        ⟨.literal .multiline, "x''y", ⟨1, 10⟩, ⟨10, 20⟩⟩, ⟨.eof, "", ⟨1, 20⟩, ⟨20, 20⟩⟩] := by
    decide +kernel
  refine ⟨h, ?_⟩
  obtain ⟨body, stop, hts, -, -, -, hpart⟩ := tokenize_partition h
  have hbody := congrArg List.dropLast hts
  rw [List.dropLast_concat] at hbody
  rw [← hbody] at hpart
  exact hpart

end Dbml
