import Dbml.Proofs.Document.Misfit
import Dbml.Proofs.Document.Relocation
import Dbml.Proofs.Document.RoundTrip
import Dbml.Proofs.Token.Partition
import Dbml.Proofs.Token.Splice
import Mathlib.Data.List.Forall2

/-!
# Filling in between tokens

Blanks, comments and characters that begin nothing may be put in at the beginning of a text and
after any of its tokens. Such a filler begins with a character over which no lexeme goes on, and it
is read back whatever follows it, so on neither side does it meet a token: the tokens before it stay
as they are, those after it are moved on (`Token.KeptOrShifted`). The parser does not look at
places, so its answer differs in places only: `Document.parse_insertAt`.
-/

namespace Dbml

open Front

/-! ## Fillers -/

/-- The texts of blanks, whole comments and characters that begin nothing. A line comment is whole
with the end of its line. -/
inductive Filler : List Char → Prop
  | nil : Filler []
  | blank {c : Char} {w : List Char} (hc : c ∈ [' ', '\t', '\r', '\n', '\x0c']) (hw : Filler w) :
    Filler (c :: w)
  | lineComment {line w : List Char} (hl : '\n' ∉ line) (hw : Filler w) :
    Filler ('/' :: '/' :: line ++ '\n' :: w)
  | blockComment {inner w : List Char} (hi : FirstAt ['*', '/'] inner) (hw : Filler w) :
    Filler ('/' :: '*' :: inner ++ ['*', '/'] ++ w)
  | stray {c : Char} {w : List Char} (hc : isStray c = true) (hw : Filler w) : Filler (c :: w)

/-- The text is made of fronts that are no tokens, and they are read back whatever follows them. -/
def IsSkipped (w : List Char) : Prop :=
  ∃ ws, texts ws = w ∧ (∀ f ∈ ws, IsTrivia f) ∧ Standing ws

namespace IsSkipped

theorem nil : IsSkipped [] := ⟨[], rfl, nofun, fun _ => trivial⟩

/-- Two texts that are passed over are passed over one after the other. -/
theorem append {v w : List Char} (hv : IsSkipped v) (hw : IsSkipped w) : IsSkipped (v ++ w) := by
  obtain ⟨vs, rfl, hvs, hv⟩ := hv
  obtain ⟨ws, rfl, hws, hw⟩ := hw
  exact ⟨vs ++ ws, texts_append vs ws, List.forall_mem_append.2 ⟨hvs, hws⟩, hv.append hw⟩

theorem of_trivia {text : List Char} (hv : (trivia text).Valid)
    (hs : ∀ r, (trivia text).Stops r) : IsSkipped text := by
  refine ⟨[trivia text], by simp [Front.text], ?_, fun r => readable_singleton.2 ⟨hv, hs r⟩⟩
  intro f hf
  exact ⟨text, List.mem_singleton.1 hf⟩

theorem of_isStray {c : Char} (hc : isStray c = true) : IsSkipped [c] := by
  refine of_trivia (.stray hc) fun r => ?_
  have hslash : c ≠ '/' := by
    rintro rfl
    exact absurd hc (by decide)
  simp [Stops, hslash]

theorem of_blockComment {inner : List Char} (hi : FirstAt ['*', '/'] inner) :
    IsSkipped ('/' :: '*' :: inner ++ ['*', '/']) :=
  of_trivia (.blockComment hi) fun _ => trivial

/-- A line comment goes on over anything but the end of its line. -/
theorem of_lineComment {line : List Char} (hl : '\n' ∉ line) :
    IsSkipped ('/' :: '/' :: line ++ ['\n']) := by
  refine ⟨[trivia ('/' :: '/' :: line), newline], by simp [Front.text, newline], ?_, fun r => ?_⟩
  · intro f hf
    rcases List.mem_pair.1 hf with rfl | rfl
    · exact ⟨_, rfl⟩
    · exact ⟨_, rfl⟩
  · exact ⟨.lineComment hl, by simp [Stops, newline, Front.text], readable_newline.2 trivial⟩

end IsSkipped

namespace Filler

theorem isStray_of_blank {c : Char} (hc : c ∈ [' ', '\t', '\r', '\n', '\x0c']) :
    isStray c = true := by
  have hall : [' ', '\t', '\r', '\n', '\x0c'].all isStray = true := by decide
  exact List.all_eq_true.1 hall c hc

theorem isSkipped {w : List Char} (h : Filler w) : IsSkipped w := by
  induction h with
  | nil => exact .nil
  | blank hc _ ih => exact (IsSkipped.of_isStray (isStray_of_blank hc)).append ih
  | lineComment hl _ ih => simpa using (IsSkipped.of_lineComment hl).append ih
  | blockComment hi _ ih => exact (IsSkipped.of_blockComment hi).append ih
  | stray hc _ ih => exact (IsSkipped.of_isStray hc).append ih

/-- A filler begins with a character that means nothing or with the slash of a comment, so it ends
the token before it. -/
theorem isStray_or_slash {c : Char} {w : List Char} (h : Filler (c :: w)) :
    isStray c = true ∨ c = '/' := by
  generalize hcw : c :: w = v at h
  cases h with
  | nil => cases hcw
  | blank hc _ =>
    cases hcw
    exact .inl (isStray_of_blank hc)
  | lineComment _ _ => exact .inr (List.cons.inj hcw).1
  | blockComment _ _ => exact .inr (List.cons.inj hcw).1
  | stray hc _ =>
    cases hcw
    exact .inl hc

/-- No lexeme goes on over the beginning of a filler. -/
theorem begins_nothing {c : Char} {w : List Char} (h : Filler (c :: w)) :
    isWordChar c = false ∧ c.isDigit = false ∧ c ≠ '.' ∧ c ≠ '\'' := by
  rcases h.isStray_or_slash with hc | rfl
  · have hpoint : c ≠ '.' := by
      rintro rfl
      exact absurd hc (by decide)
    simp only [isStray, Bool.and_eq_true, Bool.not_eq_true', bne_iff_ne] at hc
    obtain ⟨⟨⟨⟨⟨⟨hword, hdigit⟩, -⟩, hquote⟩, -⟩, -⟩, -⟩ := hc
    exact ⟨hword, hdigit, hpoint, hquote⟩
  · decide

end Filler

/-! ## The text with a filler in it -/

/-- The text with `w` put in at the byte offset `e`, if a character begins there or the text ends. -/
def insertAt (e : Nat) (w : List Char) (source : String) : Option String :=
  (splitBytes e source.toList).map fun (left, right) => String.ofList (left ++ w ++ right)

/-- The beginning of a text and the end of a token are between fronts. -/
theorem exists_cut_at {fs : List Front} {e : Nat}
    (he : e = 0 ∨ ∃ t ∈ tokens .start fs, e = t.span.stop) :
    ∃ before after, fs = before ++ after ∧ UpToToken before ∧ byteLength (texts before) = e := by
  rcases he with rfl | ⟨t, ht, rfl⟩
  · exact ⟨[], fs, rfl, upToToken_nil, rfl⟩
  · obtain ⟨gs, kind, value, hs, rfl, rfl⟩ := mem_tokens ht
    refine ⟨gs ++ [lexeme kind value], hs, by simp, ?_, ?_⟩
    · intro f hf
      rw [List.getLast?_concat, Option.mem_some] at hf
      exact ⟨kind, value, hf.symm⟩
    · simp [Token.read, Place.span, Place.after, Place.start, Front.text]

/-- A filler can be put in behind a token. -/
theorem Readable.insert {before ws after : List Front} (h : Readable (before ++ after) [])
    (hlast : UpToToken before) (hw : Filler (texts ws)) (hws : Standing ws) :
    Readable (before ++ (ws ++ after)) [] := by
  obtain ⟨hbefore, hafter⟩ := readable_append.1 h
  refine readable_append.2 ⟨?_, readable_append.2 ⟨hws _, hafter⟩⟩
  rw [texts_append, List.append_nil]
  rw [List.append_nil] at hbefore
  cases htext : texts ws with
  | nil => exact hbefore
  | cons c w =>
    rw [htext] at hw
    -- only the last front could meet the filler, and it is a lexeme
    obtain ⟨hword, hdigit, hpoint, hquote⟩ := hw.begins_nothing
    refine hbefore.nil_right.before_cons hdigit hpoint fun f hf => ?_
    obtain ⟨kind, value, rfl⟩ := hlast f hf
    exact stops_lexeme hword hdigit hpoint hquote

/-! ## What becomes of the tokens -/

/-- What becomes of a token when `n` bytes are put in at `e`: before that it is kept, after it the
kind and the value are kept and the span is moved on. -/
def Token.KeptOrShifted (e n : Nat) (t t' : Token) : Prop :=
  if t.span.start < e then t' = t
  else t'.kind = t.kind ∧ t'.value = t.value ∧ t'.span = ⟨t.span.start + n, t.span.stop + n⟩

namespace Token.KeptOrShifted

variable {e n : Nat} {t t' : Token}

theorem of_lt (h : t.span.start < e) : t.KeptOrShifted e n t := by
  rw [KeptOrShifted, if_pos h]

theorem of_le (h : e ≤ t.span.start) (hkind : t'.kind = t.kind) (hvalue : t'.value = t.value)
    (hspan : t'.span = ⟨t.span.start + n, t.span.stop + n⟩) : t.KeptOrShifted e n t' := by
  rw [KeptOrShifted, if_neg (Nat.not_lt.2 h)]
  exact ⟨hkind, hvalue, hspan⟩

/-- A token that is kept or shifted is the same but for its place. -/
theorem unplaced_eq (h : t.KeptOrShifted e n t') : t'.unplaced = t.unplaced := by
  unfold KeptOrShifted at h
  split at h
  · rw [h]
  · rw [unplaced, unplaced, h.1, h.2.1]

end Token.KeptOrShifted

theorem keptOrShifted_before {fs : List Front} (h : Readable fs []) (n : Nat) :
    List.Forall₂ (Token.KeptOrShifted (byteLength (texts fs)) n) (tokens .start fs)
      (tokens .start fs) := by
  have hpart := partition_tokens h
  refine List.forall₂_same.2 fun t ht => ?_
  exact .of_lt ((hpart.start_lt_stop t ht).trans_le (hpart.stop_le t ht))

/-- The same fronts read from a place that is `n` bytes further. -/
theorem keptOrShifted_after {e n : Nat} {p q : Place} (hp : e ≤ p.offset)
    (hq : q.offset = p.offset + n) (fs : List Front) :
    List.Forall₂ (Token.KeptOrShifted e n) (tokens p fs ++ [Token.eof (p.after (texts fs))])
      (tokens q fs ++ [Token.eof (q.after (texts fs))]) := by
  induction fs generalizing p q with
  | nil =>
    refine .cons (.of_le hp rfl rfl ?_) .nil
    simp [Token.eof, hq]
  | cons f fs ih =>
    have hp' : e ≤ (p.after f.text).offset := hp.trans (Nat.le_add_right _ _)
    have hq' : (q.after f.text).offset = (p.after f.text).offset + n := by
      simp only [Place.after, hq]
      omega
    rw [texts_cons, Place.after_append, Place.after_append, tokens_cons, tokens_cons,
      List.append_assoc, List.append_assoc]
    cases f with
    | lexeme kind value =>
      refine .cons (.of_le hp rfl rfl ?_) (ih hp' hq')
      exact congrArg₂ Span.mk hq hq'
    | _ => exact ih hp' hq'

/-- Trivia between fronts add no token. -/
theorem forall₂_insert {before ws : List Front} (h : Readable before [])
    (hws : ∀ f ∈ ws, IsTrivia f) (after : List Front) :
    List.Forall₂ (Token.KeptOrShifted (byteLength (texts before)) (byteLength (texts ws)))
      (tokens .start (before ++ after) ++ [Token.eof (Place.start.after (texts (before ++ after)))])
      (tokens .start (before ++ (ws ++ after)) ++
        [Token.eof (Place.start.after (texts (before ++ (ws ++ after))))]) := by
  let p := Place.start.after (texts before)
  have hp : byteLength (texts before) ≤ p.offset := Nat.le_add_left _ _
  have hafter := keptOrShifted_after hp (q := p.after (texts ws)) rfl after
  have hall := List.rel_append (keptOrShifted_before h (byteLength (texts ws))) hafter
  simpa [tokens_append, tokens_of_trivia hws, Place.after_append] using hall

/-! ## What becomes of the document -/

/-- Nothing is left of the places. -/
def Relocation.forget : Relocation := ⟨fun _ => .start, fun _ => ⟨0, 0⟩⟩

theorem Relocation.token_forget : forget.token = Token.unplaced := rfl

theorem Relocation.document_forget : forget.document = Document.unplaced := by
  funext d
  refine congrArg Document.mk (List.map_congr_left fun decl _ => ?_)
  cases decl <;> rfl

/-- Two documents that differ in positions only, or one and the same syntax error at two places. -/
def Document.Agree : Except Problem Document → Except Problem Document → Prop
  | .ok d, .ok d' => d'.unplaced = d.unplaced
  | .error (.unexpected expected found _ _), .error (.unexpected expected' found' _ _) =>
    expected' = expected ∧ found' = found
  | _, _ => False

/-- Two lists of tokens that are the same but for places are parsed to the same but for places. -/
theorem Document.agree_ofTokens {ts ts' : List Token}
    (h : ts'.map Token.unplaced = ts.map Token.unplaced) (hts : ∃ t ∈ ts, t.isEof = true)
    (hts' : ∃ t ∈ ts', t.isEof = true) :
    Agree (Document.ofTokens ts) (Document.ofTokens ts') := by
  have heq : Relocation.forget.answer Document.unplaced (Document.ofTokens ts') =
      Relocation.forget.answer Document.unplaced (Document.ofTokens ts) := by
    rw [← Relocation.document_forget, ← Document.ofTokens_relocate _ hts,
      ← Document.ofTokens_relocate _ hts', Relocation.token_forget, h]
  cases hd : Document.ofTokens ts with
  | ok d =>
    cases hd' : Document.ofTokens ts' with
    | ok d' =>
      rw [hd, hd'] at heq
      exact Except.ok.inj heq
    | error e' =>
      rw [hd, hd'] at heq
      cases heq
  | error e =>
    cases hd' : Document.ofTokens ts' with
    | ok d' =>
      rw [hd, hd'] at heq
      cases heq
    | error e' =>
      rw [hd, hd'] at heq
      -- both problems are about a token, so only their texts are left to compare
      obtain ⟨expected, t, -, rfl⟩ := (failsAt_of_ofTokens hd).exists_token
      obtain ⟨expected', t', -, rfl⟩ := (failsAt_of_ofTokens hd').exists_token
      injection heq with heq
      injection heq with hexpected hfound
      exact ⟨hexpected, hfound⟩

/-- If every token is kept or shifted, all are the same but for their places. -/
theorem map_unplaced_of_forall₂ {e n : Nat} {ts ts' : List Token}
    (h : List.Forall₂ (Token.KeptOrShifted e n) ts ts') :
    ts'.map Token.unplaced = ts.map Token.unplaced := by
  induction h with
  | nil => rfl
  | cons ht _ ih => rw [List.map_cons, List.map_cons, ht.unplaced_eq, ih]

/-- A filler put in at the beginning or after a token leaves every token what it is, moves those
that come after it by its bytes, and changes the parser's answer in places only. -/
theorem Document.parse_insertAt {source : String} {ts : List Token} (h : tokenize source = .ok ts)
    {e : Nat} (he : e = 0 ∨ ∃ t ∈ ts, t.kind ≠ .eof ∧ e = t.span.stop) {w : List Char}
    (hw : Filler w) :
    ∃ source', insertAt e w source = some source' ∧
      (∃ ts', tokenize source' = .ok ts' ∧
        List.Forall₂ (Token.KeptOrShifted e (byteLength w)) ts ts') ∧
      Agree (Document.parse source) (Document.parse source') := by
  obtain ⟨fs, htext, hfs, rfl⟩ := tokenizeAt_eq_ok_iff.1 h
  have hcut : e = 0 ∨ ∃ t ∈ tokens .start fs, e = t.span.stop := by
    rcases he with he | ⟨t, ht, hk, he⟩
    · exact .inl he
    · rcases List.mem_append.1 ht with ht | ht
      · exact .inr ⟨t, ht, he⟩
      · exact absurd (by rw [List.mem_singleton.1 ht]; rfl) hk
  obtain ⟨before, after, rfl, hlast, rfl⟩ := exists_cut_at hcut
  obtain ⟨ws, rfl, htrivia, hws⟩ := hw.isSkipped
  have hsource : insertAt (byteLength (texts before)) (texts ws) source =
      some (String.ofList (texts (before ++ (ws ++ after)))) := by
    rw [insertAt, htext, texts_append, splitBytes_append]
    simp
  have hmoved := forall₂_insert (readable_append.1 hfs).1.nil_right htrivia after
  rw [← htext] at hmoved
  have htok := tokenize_texts (hfs.insert hlast hw hws)
  refine ⟨_, hsource, ⟨_, htok, hmoved⟩, ?_⟩
  rw [parse_of_tokenize h, parse_of_tokenize htok]
  exact agree_ofTokens (map_unplaced_of_forall₂ hmoved) (isEof_of_tokenize h)
    (isEof_of_tokenize htok)

/-- The filler stands between a word and a slash that begins nothing. -/
theorem Document.parse_insertAt_before_slash :
    Filler "//é\n/***/§".toList ∧
      insertAt 9 "//é\n/***/§".toList "Table t\x7ba/b\x7d" =
        some "Table t\x7ba//é\n/***/§/b\x7d" ∧
      (∃ ts ts', tokenize "Table t\x7ba/b\x7d" = .ok ts ∧
        tokenize "Table t\x7ba//é\n/***/§/b\x7d" = .ok ts' ∧
        List.Forall₂ (Token.KeptOrShifted 9 12) ts ts') ∧
      Agree (Document.parse "Table t\x7ba/b\x7d")
        (Document.parse "Table t\x7ba//é\n/***/§/b\x7d") := by
  have h : tokenize "Table t\x7ba/b\x7d" = .ok
      [⟨.keyword .table, "Table", ⟨1, 1⟩, ⟨0, 5⟩⟩, ⟨.literal .ident, "t", ⟨1, 7⟩, ⟨6, 7⟩⟩,
        ⟨.delimiter .lBrace, "\x7b", ⟨1, 8⟩, ⟨7, 8⟩⟩, ⟨.literal .ident, "a", ⟨1, 9⟩, ⟨8, 9⟩⟩,
        ⟨.literal .ident, "b", ⟨1, 11⟩, ⟨10, 11⟩⟩, ⟨.delimiter .rBrace, "\x7d", ⟨1, 12⟩, ⟨11, 12⟩⟩,
        ⟨.eof, "", ⟨1, 13⟩, ⟨12, 12⟩⟩] := by
    decide +kernel
  have hw : Filler ('/' :: '/' :: ['é'] ++ '\n' :: ('/' :: '*' :: ['*'] ++ ['*', '/'] ++ ['§'])) :=
    .lineComment (by decide) (.blockComment (by decide) (.stray (by decide) .nil))
  obtain ⟨source', hsource, ⟨ts', hts', hmoved⟩, hagree⟩ :=
    Document.parse_insertAt h (e := 9) (.inr (by decide)) hw
  have hinsert : insertAt 9 "//é\n/***/§".toList "Table t\x7ba/b\x7d" =
      some "Table t\x7ba//é\n/***/§/b\x7d" := by
    decide +kernel
  cases hsource.symm.trans hinsert
  exact ⟨hw, hinsert, ⟨_, ts', h, hts', hmoved⟩, hagree⟩

end Dbml
