import Dbml.Proofs.Token.Reading

/-!
# Cutting and joining texts

A text may be cut after any of its tokens: the fronts up to that token make up the one part, the
fronts after it the other (`exists_cut`). Joining needs care, since a front that was stopped by the
end of a text need not be stopped by what is put there. It is enough that the last front is: the
fronts before the last one see at most one character past it, and only after a point
(`Readable.before_cons`).
-/

namespace Dbml

open Front

namespace Front

/-- The tokens of two parts are those of the first, and those of the second from behind the first. -/
theorem tokens_append (p : Place) (fs gs : List Front) :
    tokens p (fs ++ gs) = tokens p fs ++ tokens (p.after (texts fs)) gs := by
  induction fs generalizing p with
  | nil => rfl
  | cons f fs ih =>
    rw [List.cons_append, tokens_cons, tokens_cons, ih, texts_cons, Place.after_append,
      List.append_assoc]

/-! ## Cutting after a token -/

/-- The fronts end with a token, if there are any. -/
def UpToToken (fs : List Front) : Prop := ∀ f ∈ fs.getLast?, ∃ kind value, f = lexeme kind value

theorem upToToken_nil : UpToToken [] := nofun

/-- A list that ends with a token still does with one more front before it. -/
theorem UpToToken.cons {f : Front} {fs : List Front} (h : UpToToken fs)
    (hf : fs = [] → ∃ kind value, f = lexeme kind value) : UpToToken (f :: fs) := by
  cases fs with
  | nil =>
    intro g hg
    cases hg
    exact hf rfl
  | cons g gs =>
    intro g' hg'
    rw [List.getLast?_cons_cons] at hg'
    exact h g' hg'

/-- Tokens that are split in two are read off two parts of the text, the first of which ends where
its last token does. -/
theorem exists_cut {p : Place} {fs : List Front} {us vs : List Token}
    (h : tokens p fs = us ++ vs) :
    ∃ before after, fs = before ++ after ∧ UpToToken before ∧ tokens p before = us ∧
      tokens (p.after (texts before)) after = vs := by
  induction fs generalizing p us with
  | nil =>
    obtain ⟨rfl, rfl⟩ := List.append_eq_nil_iff.1 h.symm
    exact ⟨[], [], rfl, upToToken_nil, rfl, rfl⟩
  | cons f fs ih =>
    cases us with
    | nil => exact ⟨[], f :: fs, rfl, upToToken_nil, rfl, h⟩
    | cons u us =>
      cases f with
      | lexeme kind value =>
        obtain ⟨rfl, hrest⟩ := List.cons.inj h
        obtain ⟨before, after, rfl, hlast, rfl, hafter⟩ := ih hrest
        refine ⟨lexeme kind value :: before, after, rfl, ?_, rfl, ?_⟩
        · exact hlast.cons fun _ => ⟨kind, value, rfl⟩
        · simpa using hafter
      | _ =>
        obtain ⟨before, after, rfl, hlast, hbefore, hafter⟩ := ih h
        -- trivia before a token of the first part belong to that part
        refine ⟨_ :: before, after, rfl, ?_, hbefore, ?_⟩
        · refine hlast.cons fun hnil => ?_
          rw [hnil] at hbefore
          cases hbefore
        · simpa using hafter

end Front

/-! ## Joining -/

/-- Whether a class of characters goes on depends on the first character only. -/
theorem Clear.append_cons {p : Char → Bool} {s t : List Char} {c : Char} (h : Clear p s)
    (hs : s = [] → p c = false) : Clear p (s ++ c :: t) := by
  cases s with
  | nil => exact hs rfl
  | cons d ds => exact h

/-- What stops a front goes on to do so with more behind it, if that neither makes up a number nor
is met by the front itself. -/
theorem Front.Stops.append_cons {f : Front} {s t : List Char} {c : Char} (h : f.Stops s)
    (hdigit : c.isDigit = false) (hpoint : c ≠ '.') (hs : s = [] → f.Stops [c]) :
    f.Stops (s ++ c :: t) := by
  unfold Stops at h hs ⊢
  split
  · exact Clear.append_cons h hs
  · exact Clear.append_cons h hs
  · refine ⟨Clear.append_cons h.1 fun _ => hdigit, ?_⟩
    intro d ds heq
    rcases s with _ | ⟨a, _ | ⟨b, s⟩⟩
    · exact absurd (List.cons.inj heq).1 hpoint
    · -- a point ends the text, and what is put after it is no digit
      cases heq
      exact hdigit
    · cases heq
      exact h.2 d s rfl
  · exact Clear.append_cons h hs
  · exact Clear.append_cons h hs
  · exact ⟨Clear.append_cons h.1 fun hnil => (hs hnil).1,
      Clear.append_cons h.2 fun hnil => (hs hnil).2⟩
  · exact Clear.append_cons h hs
  · trivial

theorem Readable.eq_nil {fs : List Front} {r : List Char} (h : Readable fs r) (hnil : texts fs = []) :
    fs = [] := by
  cases fs with
  | nil => rfl
  | cons f fs =>
    rw [texts_cons, List.append_eq_nil_iff] at hnil
    exact absurd hnil.1 h.1.text_ne_nil

/-- A text is read as before when something is put behind it that stops its last front. -/
theorem Readable.before_cons {fs : List Front} {c : Char} {t : List Char} (h : Readable fs [])
    (hdigit : c.isDigit = false) (hpoint : c ≠ '.') (hlast : ∀ f ∈ fs.getLast?, f.Stops [c]) :
    Readable fs (c :: t) := by
  induction fs with
  | nil => trivial
  | cons f fs ih =>
    obtain ⟨hv, hs, hfs⟩ := h
    rw [List.append_nil] at hs
    refine ⟨hv, ?_, ih hfs ?_⟩
    · apply hs.append_cons hdigit hpoint
      intro hnil
      rw [hfs.eq_nil hnil] at hlast
      exact hlast f rfl
    · intro g hg
      cases fs with
      | nil => cases hg
      | cons f' fs =>
        apply hlast
        rw [List.getLast?_cons_cons]
        exact hg

end Dbml
