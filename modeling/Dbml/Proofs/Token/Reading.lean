import Dbml.Proofs.Token.Front
import Dbml.Token.Stream

/-!
# A text as a sequence of fronts

Every text is a sequence of fronts, each stopped by what follows it, and after them either nothing
or an opening mark that is never closed (`exists_readable`). The sequence is all that the reading
depends on: `tokenizeAt_texts` and `Stream.steps_texts` carry the place over it, so what is shown of
`Front.tokens` by induction on the sequence holds of `tokenize` and of `Stream` alike.
-/

namespace Dbml

namespace Front

/-- The texts of the fronts one after another. -/
def texts (fs : List Front) : List Char := fs.flatMap text

@[simp] theorem texts_nil : texts [] = [] := rfl

@[simp] theorem texts_cons (f : Front) (fs : List Front) : texts (f :: fs) = f.text ++ texts fs := rfl

@[simp] theorem texts_append (fs gs : List Front) : texts (fs ++ gs) = texts fs ++ texts gs :=
  List.flatMap_append

/-- The tokens among the fronts of a text that begins at `p`. -/
def tokens (p : Place) : List Front → List Token
  | [] => []
  | lexeme kind value :: fs =>
    Token.read p kind value :: tokens (p.after (lexeme kind value).text) fs
  | f :: fs => tokens (p.after f.text) fs

/-- The token that a front is, if it is one. -/
def token? (p : Place) : Front → Option Token
  | lexeme kind value => some (Token.read p kind value)
  | _ => none

/-- The tokens of one more front: its own, if it has one, and the rest from behind it. -/
theorem tokens_cons (p : Place) (f : Front) (fs : List Front) :
    tokens p (f :: fs) = (f.token? p).toList ++ tokens (p.after f.text) fs := by
  cases f <;> rfl

/-- A token among the fronts is one of them, read where the fronts before it end. -/
theorem mem_tokens {p : Place} {fs : List Front} {t : Token} (h : t ∈ tokens p fs) :
    ∃ before kind value after, fs = before ++ lexeme kind value :: after ∧
      t = Token.read (p.after (texts before)) kind value := by
  induction fs generalizing p with
  | nil => cases h
  | cons f fs ih =>
    rw [tokens_cons, List.mem_append] at h
    rcases h with h | h
    · cases f with
      | lexeme kind value =>
        simp only [token?, Option.toList_some, List.mem_singleton] at h
        exact ⟨[], kind, value, fs, rfl, h⟩
      | _ => cases h
    · obtain ⟨before, kind, value, after, rfl, ht⟩ := ih h
      exact ⟨f :: before, kind, value, after, rfl, by simpa using ht⟩

end Front

open Front

/-! ## Sequences that are read back -/

/-- The fronts `fs`, written one after another before `r`, are read off one by one. -/
def Readable : List Front → List Char → Prop
  | [], _ => True
  | f :: fs, r => f.Valid ∧ f.Stops (texts fs ++ r) ∧ Readable fs r

/-- Two lists of fronts are readable one after the other if each is before what follows it. -/
theorem readable_append {fs gs : List Front} {r : List Char} :
    Readable (fs ++ gs) r ↔ Readable fs (texts gs ++ r) ∧ Readable gs r := by
  induction fs with
  | nil => simp [Readable]
  | cons f fs ih => simp [Readable, ih, and_assoc]

theorem readable_singleton {f : Front} {r : List Char} :
    Readable [f] r ↔ f.Valid ∧ f.Stops r := by
  simp [Readable]

/-- What follows a readable sequence may be cut anywhere. -/
theorem Readable.of_append {fs : List Front} {r t : List Char} (h : Readable fs (r ++ t)) :
    Readable fs r := by
  induction fs with
  | nil => trivial
  | cons f fs ih =>
    obtain ⟨hv, hs, hfs⟩ := h
    refine ⟨hv, ?_, ih hfs⟩
    rw [← List.append_assoc] at hs
    exact hs.of_append

theorem Readable.nil_right {fs : List Front} {r : List Char} (h : Readable fs r) : Readable fs [] :=
  Readable.of_append (t := r) h

theorem Readable.valid {fs : List Front} {r : List Char} (h : Readable fs r) :
    ∀ f ∈ fs, f.Valid := by
  induction fs with
  | nil => intro f hf; cases hf
  | cons g fs ih =>
    intro f hf
    rcases List.mem_cons.1 hf with rfl | hf
    · exact h.1
    · exact ih h.2.2 f hf

/-- A token among the fronts: the text before it, its own and the text after it make up the text, it
is well formed, and what follows stops it. -/
theorem Readable.exists_lexeme {fs : List Front} {r : List Char} (h : Readable fs r) {p : Place}
    {t : Token} (ht : t ∈ tokens p fs) :
    ∃ before value after, texts fs ++ r = before ++ (lexeme t.kind value).text ++ after ∧
      t = Token.read (p.after before) t.kind value ∧
      (lexeme t.kind value).Valid ∧ (lexeme t.kind value).Stops after := by
  obtain ⟨gs, kind, value, hs, rfl, rfl⟩ := mem_tokens ht
  obtain ⟨hv, hstop, -⟩ := (readable_append.1 h).2
  exact ⟨texts gs, value, texts hs ++ r, by simp [Token.read], rfl, hv, hstop⟩

/-- An opening mark that is never closed. -/
def OpenEnded (r : List Char) : Prop := ∃ c cs, r = c :: cs ∧ (read c cs).1.isClosed = false

/-- Every text is a readable sequence, up to its end or to an opening mark that is never closed. -/
theorem exists_readable (s : List Char) :
    ∃ fs r, s = texts fs ++ r ∧ Readable fs r ∧ (r = [] ∨ OpenEnded r) := by
  induction hn : s.length using Nat.strongRecOn generalizing s with
  | _ n ih =>
    subst hn
    cases s with
    | nil => exact ⟨[], [], rfl, trivial, .inl rfl⟩
    | cons c cs =>
      rcases hread : read c cs with ⟨f, rest⟩
      cases hf : f.isClosed with
      | false => exact ⟨[], c :: cs, rfl, trivial, .inr ⟨c, cs, rfl, by rw [hread]; exact hf⟩⟩
      | true =>
        obtain ⟨hv, hs, htext⟩ := (read_eq_iff hf).1 hread
        obtain ⟨fs, r, rfl, hfs, hr⟩ := ih _ (length_read hread hf) rest rfl
        refine ⟨f :: fs, r, ?_, ⟨hv, hs, hfs⟩, hr⟩
        rw [← htext, texts_cons, List.append_assoc]

/-! ## The whole text -/

theorem tokenizeAt_nil (p : Place) : tokenizeAt p [] = .ok [Token.eof p] := by
  rw [tokenizeAt]

/-- One step of the reading: a lexeme is kept, with the place where it stands. -/
theorem tokenizeAt_of_lexeme {c : Char} {cs rest : List Char} {kind : Kind} {value : List Char}
    (h : read c cs = (lexeme kind value, rest)) (p : Place) :
    tokenizeAt p (c :: cs) =
      (tokenizeAt (p.after (lexeme kind value).text) rest).map (Token.read p kind value :: ·) := by
  rw [tokenizeAt]
  split <;> simp_all

/-- One step of the reading: what means nothing moves the place and is not kept. -/
theorem tokenizeAt_of_trivia {c : Char} {cs rest text : List Char}
    (h : read c cs = (trivia text, rest)) (p : Place) :
    tokenizeAt p (c :: cs) = tokenizeAt (p.after text) rest := by
  rw [tokenizeAt]
  split <;> simp_all

theorem map_append_map {x : Except Problem (List Token)} (ts us : List Token) :
    (x.map (us ++ ·)).map (ts ++ ·) = x.map (ts ++ us ++ ·) := by
  cases x with
  | error e => rfl
  | ok l => simp [Except.map]

/-- The reading of a text goes front by front, and the place goes with it. -/
theorem tokenizeAt_texts {fs : List Front} {r : List Char} (h : Readable fs r) (p : Place) :
    tokenizeAt p (texts fs ++ r) =
      (tokenizeAt (p.after (texts fs)) r).map (tokens p fs ++ ·) := by
  induction fs generalizing p with
  | nil =>
    cases hr : tokenizeAt p r <;> simp [hr, tokens, Except.map]
  | cons f fs ih =>
    obtain ⟨hv, hs, hfs⟩ := h
    obtain ⟨c, cs, heq, hread⟩ := read_text hv hs
    rw [texts_cons, List.append_assoc, heq, tokens_cons, Place.after_append]
    cases f with
    | lexeme kind value =>
      rw [tokenizeAt_of_lexeme hread, ih hfs]
      exact map_append_map [_] _
    | trivia text =>
      rw [tokenizeAt_of_trivia hread, ih hfs]
      rfl
    | openLiteral l => cases hv
    | openComment => cases hv

/-- What stands at an opening mark that is never closed: the problem at its place. -/
theorem OpenEnded.exists_problem {r : List Char} (h : OpenEnded r) :
    (∃ literal, ∀ p, tokenizeAt p r = .error (.openLiteral literal p r) ∧
      Stream.nextAt p r = (.error (.openLiteral literal p r), .done)) ∨
    ∀ p, tokenizeAt p r = .error (.openComment p r) ∧
      Stream.nextAt p r = (.error (.openComment p r), .done) := by
  obtain ⟨c, cs, rfl, hclosed⟩ := h
  have htext := text_read c cs
  rcases hread : read c cs with ⟨f, rest⟩
  rw [hread] at hclosed htext
  cases f with
  | lexeme kind value => simp [isClosed] at hclosed
  | trivia text => simp [isClosed] at hclosed
  | openLiteral literal =>
    -- nothing was taken, so what is left is the whole text
    replace htext : rest = c :: cs := htext
    subst htext
    refine .inl ⟨literal, fun p => ⟨?_, ?_⟩⟩
    · rw [tokenizeAt]
      split <;> simp_all
    · rw [Stream.nextAt]
      split <;> simp_all
  | openComment =>
    replace htext : rest = c :: cs := htext
    subst htext
    refine .inr fun p => ⟨?_, ?_⟩
    · rw [tokenizeAt]
      split <;> simp_all
    · rw [Stream.nextAt]
      split <;> simp_all

/-- A text that is read to its end is a readable sequence of fronts, and its tokens are those of the
sequence with the end of the input after them. -/
theorem tokenizeAt_eq_ok_iff {p : Place} {s : List Char} {ts : List Token} :
    tokenizeAt p s = .ok ts ↔
      ∃ fs, s = texts fs ∧ Readable fs [] ∧ ts = tokens p fs ++ [Token.eof (p.after s)] := by
  constructor
  · intro h
    obtain ⟨fs, r, rfl, hfs, hr⟩ := exists_readable s
    rw [tokenizeAt_texts hfs] at h
    rcases hr with rfl | hr
    · rw [tokenizeAt_nil] at h
      refine ⟨fs, by simp, hfs, ?_⟩
      simpa [Except.map] using h.symm
    · rcases hr.exists_problem with ⟨literal, hp⟩ | hp
      · rw [(hp _).1] at h
        cases h
      · rw [(hp _).1] at h
        cases h
  · rintro ⟨fs, rfl, hfs, rfl⟩
    have h := tokenizeAt_texts hfs p
    rw [List.append_nil, tokenizeAt_nil] at h
    exact h

/-- A readable list of fronts is read back from its text. -/
theorem tokenize_texts {fs : List Front} (h : Readable fs []) :
    tokenize (String.ofList (texts fs)) =
      .ok (tokens .start fs ++ [Token.eof (Place.start.after (texts fs))]) := by
  rw [tokenize, String.toList_ofList]
  exact tokenizeAt_eq_ok_iff.2 ⟨fs, rfl, h, rfl⟩

/-! ## One item at a time -/

namespace Stream

/-- A call that meets a lexeme answers with it and stands behind it. -/
theorem nextAt_of_lexeme {c : Char} {cs rest : List Char} {kind : Kind} {value : List Char}
    (h : read c cs = (lexeme kind value, rest)) (p : Place) :
    nextAt p (c :: cs) =
      (.ok (Token.read p kind value), ⟨some (p.after (lexeme kind value).text, rest)⟩) := by
  rw [nextAt]
  split <;> simp_all

theorem nextAt_of_trivia {c : Char} {cs rest text : List Char}
    (h : read c cs = (trivia text, rest)) (p : Place) :
    nextAt p (c :: cs) = nextAt (p.after text) rest := by
  rw [nextAt]
  split <;> simp_all

/-- A stream that is done answers nothing any more. -/
theorem steps_done (n : Nat) : done.steps n = List.replicate n none := by
  induction n with
  | zero => rfl
  | succ n ih => exact congrArg (none :: ·) ih

theorem steps_succ (p : Place) (s : List Char) (n : Nat) :
    (⟨some (p, s)⟩ : Stream).steps (n + 1) = some (nextAt p s).1 :: (nextAt p s).2.steps n := rfl

/-- Where the text ends, or a mark is never closed, one item is left and nothing after it. -/
theorem nextAt_snd {r : List Char} (hr : r = [] ∨ OpenEnded r) (p : Place) :
    (nextAt p r).2 = done := by
  rcases hr with rfl | hr
  · rw [nextAt]
  · rcases hr.exists_problem with ⟨literal, hp⟩ | hp
    · rw [(hp p).2]
    · rw [(hp p).2]

/-- The items of a text: the tokens among its fronts, the last item, and nothing for ever. -/
theorem getElem?_steps_texts {fs : List Front} {r : List Char} (h : Readable fs r)
    (hr : r = [] ∨ OpenEnded r) (p : Place) {n i : Nat} (hi : i < n) :
    ((⟨some (p, texts fs ++ r)⟩ : Stream).steps n)[i]? =
      some ((tokens p fs).map .ok ++ [(nextAt (p.after (texts fs)) r).1])[i]? := by
  obtain ⟨n, rfl⟩ : ∃ m, n = m + 1 := ⟨n - 1, by omega⟩
  induction fs generalizing p n i with
  | nil =>
    rw [steps_succ]
    cases i with
    | zero => rfl
    | succ i =>
      simp only [texts_nil, List.nil_append, nextAt_snd hr, steps_done, List.getElem?_cons_succ]
      rw [List.getElem?_replicate_of_lt (by omega)]
      rfl
  | cons f fs ih =>
    obtain ⟨hv, hs, hfs⟩ := h
    obtain ⟨c, cs, heq, hread⟩ := read_text hv hs
    rw [texts_cons, List.append_assoc, heq, tokens_cons, Place.after_append]
    cases f with
    | lexeme kind value =>
      rw [steps_succ, nextAt_of_lexeme hread]
      cases i with
      | zero => rfl
      | succ i =>
        obtain ⟨n, rfl⟩ : ∃ m, n = m + 1 := ⟨n - 1, by omega⟩
        exact ih hfs (p.after (lexeme kind value).text) n (by omega)
    | trivia text =>
      have hskip := ih hfs (p.after text) n hi
      rw [steps_succ] at hskip ⊢
      rw [nextAt_of_trivia hread]
      exact hskip
    | openLiteral l => cases hv
    | openComment => cases hv

/-- As many calls as there are tokens, one for the last item, and `n` further ones. -/
theorem steps_texts {fs : List Front} {r : List Char} (h : Readable fs r)
    (hr : r = [] ∨ OpenEnded r) (p : Place) (n : Nat) :
    (⟨some (p, texts fs ++ r)⟩ : Stream).steps (n + (tokens p fs).length + 1) =
      (tokens p fs).map (fun t => some (.ok t)) ++
        some (nextAt (p.after (texts fs)) r).1 :: List.replicate n none := by
  induction fs generalizing p with
  | nil =>
    rw [steps_succ]
    simp only [texts_nil, List.nil_append, nextAt_snd hr, steps_done]
    rfl
  | cons f fs ih =>
    obtain ⟨hv, hs, hfs⟩ := h
    obtain ⟨c, cs, heq, hread⟩ := read_text hv hs
    rw [texts_cons, List.append_assoc, heq, Place.after_append, steps_succ]
    cases f with
    | lexeme kind value =>
      rw [nextAt_of_lexeme hread]
      exact congrArg (some (.ok (Token.read p kind value)) :: ·) (ih hfs _)
    | trivia text =>
      rw [nextAt_of_trivia hread, ← steps_succ]
      exact ih hfs (p.after text)
    | openLiteral l => cases hv
    | openComment => cases hv

theorem length_steps (r : Stream) (n : Nat) : (r.steps n).length = n := by
  induction n generalizing r with
  | zero => rfl
  | succ n ih => simp [steps, ih]

end Stream

end Dbml
