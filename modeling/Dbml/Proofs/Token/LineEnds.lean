import Dbml.Proofs.Text.Place
import Dbml.Proofs.Token.Reading
import Mathlib.Data.List.Forall2

/-!
# Line ends of two characters

A text may end its lines with a carriage return and a line feed instead of a line feed alone
(`crlf`). The carriage return is a character like any other to the reading: it begins nothing, it
closes nothing, and the line feed after it sets the column back. So every reader commutes with
`crlf` (`Front.read_crlf`), except that a line comment takes the carriage return before its line
feed with it; and the two texts are read alike (`readAlike_crlf`).
-/

namespace Dbml

/-! ## Texts -/

/-- The text with a carriage return before every line feed. -/
def crlf (s : List Char) : List Char :=
  s.flatMap fun c => if c = '\n' then ['\r', '\n'] else [c]

@[simp] theorem crlf_nil : crlf [] = [] := rfl

@[simp] theorem crlf_newline (s : List Char) : crlf ('\n' :: s) = '\r' :: '\n' :: crlf s := rfl

theorem crlf_cons {c : Char} (hc : c ≠ '\n') (s : List Char) : crlf (c :: s) = c :: crlf s := by
  simp [crlf, hc]

@[simp] theorem crlf_append (s t : List Char) : crlf (s ++ t) = crlf s ++ crlf t :=
  List.flatMap_append

theorem crlf_of_not_mem {s : List Char} (h : '\n' ∉ s) : crlf s = s := by
  induction s with
  | nil => rfl
  | cons c s ih =>
    obtain ⟨hc, hs⟩ := not_or.1 (mt List.mem_cons.2 h)
    rw [crlf_cons (Ne.symm hc), ih hs]

/-- Only a carriage return can stand at the front without having stood there before. -/
theorem cons_of_crlf {c : Char} (hc : c ≠ '\r') {s t : List Char} (h : crlf s = c :: t) :
    ∃ s', s = c :: s' ∧ crlf s' = t := by
  cases s with
  | nil => cases h
  | cons d s =>
    by_cases hd : d = '\n'
    · subst hd
      rw [crlf_newline] at h
      exact absurd (List.cons.inj h).1.symm hc
    · rw [crlf_cons hd] at h
      obtain ⟨rfl, rfl⟩ := List.cons.inj h
      exact ⟨s, rfl, rfl⟩

/-- The line feed sets the column back, whatever the carriage return added to it. -/
theorem Position.after_crlf (p : Position) (s : List Char) : p.after (crlf s) = p.after s := by
  induction s generalizing p with
  | nil => rfl
  | cons c s ih =>
    by_cases hc : c = '\n'
    · subst hc
      rw [crlf_newline, after_cons, after_cons, after_cons, ih]
      rfl
    · rw [crlf_cons hc, after_cons, after_cons, ih]

/-- The string with a carriage return before every line feed. -/
def withCrlf (s : String) : String := String.ofList (crlf s.toList)

/-- Line ends are rewritten one by one, so two parts can be rewritten apart. -/
theorem withCrlf_append (s t : String) : withCrlf (s ++ t) = withCrlf s ++ withCrlf t := by
  simp [withCrlf]

theorem withCrlf_of_not_mem {s : String} (h : '\n' ∉ s.toList) : withCrlf s = s := by
  rw [withCrlf, crlf_of_not_mem h, String.ofList_toList]

/-! ## Runs and cuts -/

section Runs

variable {p : Char → Bool} (hn : p '\n' = false) (hr : p '\r' = false)
include hn

theorem newline_not_mem_takeWhile (s : List Char) : '\n' ∉ s.takeWhile p := by
  intro h
  have hp := mem_takeWhile _ h
  rw [hn] at hp
  cases hp

include hr

/-- A run of characters that excludes both characters of a line end is the same in both texts. -/
theorem takeWhile_crlf (s : List Char) : (crlf s).takeWhile p = s.takeWhile p := by
  induction s with
  | nil => rfl
  | cons c s ih =>
    by_cases hc : c = '\n'
    · subst hc
      simp [hn, hr]
    · rw [crlf_cons hc, List.takeWhile_cons, List.takeWhile_cons, ih]

/-- What is left after such a run is the same but for its line ends. -/
theorem dropWhile_crlf (s : List Char) : (crlf s).dropWhile p = crlf (s.dropWhile p) := by
  induction s with
  | nil => rfl
  | cons c s ih =>
    by_cases hc : c = '\n'
    · subst hc
      simp [hn, hr]
    · rw [crlf_cons hc, List.dropWhile_cons, List.dropWhile_cons, ih]
      split
      · rfl
      · rw [crlf_cons hc]

end Runs

/-- A mark without line ends stands in front of both texts or of neither. -/
theorem isPrefixOf_crlf {mark : List Char} (hn : '\n' ∉ mark) (hr : '\r' ∉ mark) (s : List Char) :
    mark.isPrefixOf (crlf s) = mark.isPrefixOf s := by
  induction mark generalizing s with
  | nil => rfl
  | cons m mark ih =>
    obtain ⟨hnm, hn⟩ := not_or.1 (mt List.mem_cons.2 hn)
    obtain ⟨hrm, hr⟩ := not_or.1 (mt List.mem_cons.2 hr)
    cases s with
    | nil => rfl
    | cons c s =>
      by_cases hc : c = '\n'
      · subst hc
        rw [crlf_newline, List.isPrefixOf_cons_cons, List.isPrefixOf_cons_cons,
          beq_false_of_ne (Ne.symm hnm), beq_false_of_ne (Ne.symm hrm)]
        rfl
      · rw [crlf_cons hc, List.isPrefixOf_cons_cons, List.isPrefixOf_cons_cons, ih hn hr]

/-- A mark without either character is found at the same place. -/
theorem cutAt_crlf {mark : List Char} (hmark : mark ≠ []) (hn : '\n' ∉ mark) (hr : '\r' ∉ mark)
    (s : List Char) : cutAt mark (crlf s) = (cutAt mark s).map (Prod.map crlf crlf) := by
  have hfail {c : Char} (hc : c ∉ mark) (t : List Char) :
      cutAt mark (c :: t) = (cutAt mark t).map fun parts => (c :: parts.1, parts.2) := by
    obtain ⟨m, ms, rfl⟩ := List.exists_cons_of_ne_nil hmark
    have hne : m ≠ c := by
      rintro rfl
      exact hc List.mem_cons_self
    rw [cutAt, if_neg (by simp [hne])]
  induction s with
  | nil => rfl
  | cons c s ih =>
    by_cases hc : c = '\n'
    · subst hc
      rw [crlf_newline, hfail hr, hfail hn, hfail hn, ih]
      cases cutAt mark s <;> rfl
    · have hprefix := isPrefixOf_crlf hn hr (c :: s)
      rw [crlf_cons hc] at hprefix ⊢
      rw [cutAt, cutAt, hprefix, ih]
      split
      · rename_i hp
        obtain ⟨t, ht⟩ := List.isPrefixOf_iff_prefix.1 hp
        rw [← crlf_cons hc, ← ht, crlf_append, crlf_of_not_mem hn, List.drop_left, Option.map_some,
          List.drop_left]
        rfl
      · cases cutAt mark s with
        | none => rfl
        | some parts => simp [crlf_cons hc]

/-- A backslash before a line feed escapes the carriage return in its place; either way the line
feed closes nothing. -/
theorem cutQuoted_crlf {quote : Char} (hn : quote ≠ '\n') (hr : quote ≠ '\r') (s : List Char) :
    cutQuoted quote (crlf s) = (cutQuoted quote s).map (Prod.map crlf crlf) := by
  have hnewline (t : List Char) : cutQuoted quote ('\n' :: t) =
      (cutQuoted quote t).map fun parts => ('\n' :: parts.1, parts.2) := by
    rw [cutQuoted_cons (by decide), if_neg (Ne.symm hn)]
  fun_induction cutQuoted quote s with
  | case1 => rfl
  | case2 => rfl
  | case3 c cs ih =>
    rw [crlf_cons (by decide)]
    by_cases hc : c = '\n'
    · subst hc
      rw [crlf_newline, cutQuoted, hnewline, ih]
      cases cutQuoted quote cs <;> rfl
    · rw [crlf_cons hc, cutQuoted, ih]
      cases cutQuoted quote cs with
      | none => rfl
      | some parts => simp [crlf_cons hc, crlf_cons (show '\\' ≠ '\n' by decide)]
  | case4 cs hend hesc =>
    rw [crlf_cons hn, cutQuoted_cons (ne_backslash hend hesc), if_pos rfl]
    rfl
  | case5 c cs hend hesc hq ih =>
    by_cases hc : c = '\n'
    · subst hc
      rw [crlf_newline, cutQuoted_cons (by decide), if_neg (Ne.symm hr), hnewline, ih]
      cases cutQuoted quote cs <;> rfl
    · rw [crlf_cons hc, cutQuoted_cons (ne_backslash hend hesc), if_neg hq, ih]
      cases cutQuoted quote cs with
      | none => rfl
      | some parts => simp [crlf_cons hc]

/-! ## Readers -/

namespace Front

/-- The front with a carriage return before every line feed in it. -/
protected def crlf : Front → Front
  | lexeme kind value => lexeme kind (Dbml.crlf value)
  | trivia text => trivia (Dbml.crlf text)
  | openLiteral literal => openLiteral literal
  | openComment => openComment

theorem text_crlf (f : Front) : f.crlf.text = Dbml.crlf f.text := by
  cases f with
  | lexeme kind value =>
    have hfence : '\n' ∉ kind.fence := by
      unfold Kind.fence
      split <;> decide
    simp [Front.crlf, text, crlf_of_not_mem hfence]
  | _ => rfl

/-- A reader's answer, with a carriage return before every line feed in it. -/
abbrev crlfBoth : Front × List Char → Front × List Char := Prod.map Front.crlf Dbml.crlf

/-- A cut that is made in the same place gives the same front, rewritten. -/
theorem ofCut_crlf (literal : Literal) (all : List Char) (cut : Option (List Char × List Char)) :
    ofCut literal (Dbml.crlf all) (cut.map (Prod.map Dbml.crlf Dbml.crlf)) =
      crlfBoth (ofCut literal all cut) := by
  cases cut <;> rfl

/-- A number with a fraction, by the digits on both sides of the point. -/
theorem number_of_fraction {c d : Char} {cs ds : List Char} (hd : d.isDigit = true)
    (hrest : cs.dropWhile Char.isDigit = '.' :: d :: ds) :
    number c cs = (lexeme (.literal .float) (c :: cs.takeWhile Char.isDigit ++ '.' :: d ::
      ds.takeWhile Char.isDigit), ds.dropWhile Char.isDigit) := by
  unfold number
  rw [hrest]
  simp only [hd, if_true]

/-- A number without one: no digit comes after the point, if there is a point. -/
theorem number_of_whole {c : Char} {cs : List Char}
    (hrest : ∀ d ds, cs.dropWhile Char.isDigit = '.' :: d :: ds → d.isDigit = false) :
    number c cs =
      (lexeme (.literal .int) (c :: cs.takeWhile Char.isDigit), cs.dropWhile Char.isDigit) := by
  unfold number
  split
  case h_1 d ds h =>
    rw [h, if_neg (by rw [hrest d ds h]; simp)]
  case h_2 => rfl

/-- Numbers are read alike, as they have no line ends. -/
theorem number_crlf {c : Char} (hc : c ≠ '\n') (cs : List Char) :
    number c (Dbml.crlf cs) = crlfBoth (number c cs) := by
  have hdigits (t : List Char) : Dbml.crlf (t.takeWhile Char.isDigit) = t.takeWhile Char.isDigit :=
    crlf_of_not_mem (newline_not_mem_takeWhile (by decide) t)
  have htake (t : List Char) : (Dbml.crlf t).takeWhile Char.isDigit = t.takeWhile Char.isDigit :=
    takeWhile_crlf (by decide) (by decide) t
  have hdrop (t : List Char) :
      (Dbml.crlf t).dropWhile Char.isDigit = Dbml.crlf (t.dropWhile Char.isDigit) :=
    dropWhile_crlf (by decide) (by decide) t
  by_cases h : ∃ d ds, d.isDigit = true ∧ cs.dropWhile Char.isDigit = '.' :: d :: ds
  · obtain ⟨d, ds, hd, hrest⟩ := h
    have hne : d ≠ '\n' := by
      rintro rfl
      exact absurd hd (by decide)
    have hrest' : (Dbml.crlf cs).dropWhile Char.isDigit = '.' :: d :: Dbml.crlf ds := by
      rw [hdrop, hrest, crlf_cons (by decide), crlf_cons hne]
    rw [number_of_fraction hd hrest, number_of_fraction hd hrest', htake, htake, hdrop]
    simp [Front.crlf, crlf_cons hc, crlf_cons hne, crlf_cons (show '.' ≠ '\n' by decide), hdigits]
  · have hrest : ∀ d ds, cs.dropWhile Char.isDigit = '.' :: d :: ds → d.isDigit = false := by
      intro d ds hds
      exact Bool.eq_false_iff.2 fun hd => h ⟨d, ds, hd, hds⟩
    have hrest' : ∀ d ds, (Dbml.crlf cs).dropWhile Char.isDigit = '.' :: d :: ds →
        d.isDigit = false := by
      intro d ds hds
      rw [hdrop] at hds
      obtain ⟨s, hs, hds⟩ := cons_of_crlf (by decide) hds
      by_cases hd : d = '\r'
      · subst hd
        rfl
      · obtain ⟨t, rfl, -⟩ := cons_of_crlf hd hds
        exact hrest d t hs
    rw [number_of_whole hrest, number_of_whole hrest', htake, hdrop]
    simp [Front.crlf, crlf_cons hc, hdigits]

/-- What an apostrophe opens is read alike, with the line ends inside rewritten. -/
theorem apostrophe_crlf (cs : List Char) : apostrophe (Dbml.crlf cs) = crlfBoth (apostrophe cs) := by
  have hall : '\'' :: Dbml.crlf cs = Dbml.crlf ('\'' :: cs) := (crlf_cons (by decide) cs).symm
  by_cases h : ∃ body, cs = '\'' :: '\'' :: body
  · obtain ⟨body, rfl⟩ := h
    have hbody : Dbml.crlf ('\'' :: '\'' :: body) = '\'' :: '\'' :: Dbml.crlf body := by
      rw [crlf_cons (by decide), crlf_cons (by decide)]
    rw [hbody] at hall
    rw [hbody, apostrophe, apostrophe, hall, cutAt_crlf (by decide) (by decide) (by decide),
      ofCut_crlf]
  · have hone {t : List Char} (ht : ¬ ∃ body, t = '\'' :: '\'' :: body) :
        apostrophe t = ofCut .singleQuoted ('\'' :: t) (cutQuoted '\'' t) := by
      unfold apostrophe
      split
      · exact absurd ⟨_, rfl⟩ ht
      · rfl
    have h' : ¬ ∃ body, Dbml.crlf cs = '\'' :: '\'' :: body := by
      rintro ⟨body, hbody⟩
      obtain ⟨s, rfl, hs⟩ := cons_of_crlf (by decide) hbody
      obtain ⟨t, rfl, -⟩ := cons_of_crlf (by decide) hs
      exact h ⟨t, rfl⟩
    rw [hone h, hone h', hall, cutQuoted_crlf (by decide) (by decide), ofCut_crlf]

/-- What a slash opens is read alike, but for a comment up to the end of its line: there the
carriage return joins the comment. -/
theorem slash_crlf {cs : List Char} (hline : ¬ ∃ line, cs = '/' :: line) :
    slash (Dbml.crlf cs) = crlfBoth (slash cs) := by
  by_cases h : ∃ body, cs = '*' :: body
  · obtain ⟨body, rfl⟩ := h
    have hopen (t : List Char) : Dbml.crlf ('/' :: '*' :: t) = '/' :: '*' :: Dbml.crlf t := by
      rw [crlf_cons (by decide), crlf_cons (by decide)]
    have hclose : Dbml.crlf ['*', '/'] = ['*', '/'] := crlf_of_not_mem (by decide)
    rw [crlf_cons (by decide), slash, slash, cutAt_crlf (by decide) (by decide) (by decide)]
    cases hcut : cutAt ['*', '/'] body with
    | none => simp [Front.crlf, hopen]
    | some parts => simp [Front.crlf, hopen, hclose]
  · have hlone {t : List Char} (hline : ¬ ∃ line, t = '/' :: line)
        (hblock : ¬ ∃ body, t = '*' :: body) : slash t = (trivia ['/'], t) := by
      unfold slash
      split
      · exact absurd ⟨_, rfl⟩ hline
      · exact absurd ⟨_, rfl⟩ hblock
      · rfl
    have hkept {c : Char} (hc : c ≠ '\r') (ht : ¬ ∃ t, cs = c :: t) :
        ¬ ∃ t, Dbml.crlf cs = c :: t := by
      rintro ⟨t, ht'⟩
      obtain ⟨s, rfl, -⟩ := cons_of_crlf hc ht'
      exact ht ⟨s, rfl⟩
    rw [hlone hline h, hlone (hkept (by decide) hline) (hkept (by decide) h)]
    rfl

/-- Every front but a line feed and a line comment is read as before. -/
theorem read_crlf {c : Char} {cs : List Char} (hc : c ≠ '\n')
    (hline : ¬ ∃ line, c :: cs = '/' :: '/' :: line) :
    read c (Dbml.crlf cs) = crlfBoth (read c cs) := by
  have hcons (t : List Char) : c :: Dbml.crlf t = Dbml.crlf (c :: t) := (crlf_cons hc t).symm
  unfold read
  split
  · have hword : Dbml.crlf (cs.takeWhile isWordChar) = cs.takeWhile isWordChar :=
      crlf_of_not_mem (newline_not_mem_takeWhile (by decide) cs)
    rw [takeWhile_crlf (by decide) (by decide), dropWhile_crlf (by decide) (by decide)]
    simp [Front.crlf, ← hcons, hword]
  split
  · exact number_crlf hc cs
  split
  · rw [hcons, cutQuoted_crlf (by decide) (by decide), ofCut_crlf]
  split
  · exact apostrophe_crlf cs
  split
  · rw [hcons, cutAt_crlf (by decide) (by decide) (by decide), ofCut_crlf]
  split
  · rename_i hslash
    apply slash_crlf
    rintro ⟨line, rfl⟩
    exact hline ⟨line, by rw [hslash]⟩
  split
  · simp [Front.crlf, ← hcons]
  · simp [Front.crlf, ← hcons]

end Front

open Front

/-! ## Two texts read alike -/

/-- The tokens of the two texts differ in their line ends only. -/
structure Token.Alike (t t' : Token) : Prop where
  kind : t'.kind = t.kind
  position : t'.position = t.position
  value : t'.value = withCrlf t.value

/-- The same is never closed in the two texts, and it is opened at the same position. -/
def Problem.Alike : Problem → Problem → Prop
  | unterminatedLiteral kind p _, unterminatedLiteral kind' p' _ => kind' = kind ∧ p' = p
  | unterminatedComment p _, unterminatedComment p' _ => p' = p
  | _, _ => False

/-- Two readings with tokens that are alike one by one, or with problems that are. -/
def ReadAlike : Except Problem (List Token) → Except Problem (List Token) → Prop
  | .ok ts, .ok ts' => List.Forall₂ Token.Alike ts ts'
  | .error e, .error e' => e.Alike e'
  | _, _ => False

/-- One more pair of tokens that are alike keeps two readings alike. -/
theorem ReadAlike.cons {x x' : Except Problem (List Token)} {t t' : Token} (ht : t.Alike t')
    (h : ReadAlike x x') : ReadAlike (x.map (t :: ·)) (x'.map (t' :: ·)) := by
  cases x with
  | error e =>
    cases x' with
    | error e' => exact h
    | ok ts' => cases h
  | ok ts =>
    cases x' with
    | error e' => cases h
    | ok ts' => exact List.Forall₂.cons ht h

/-- A literal that is not closed ends the reading with a problem at its place. -/
theorem tokenizeAt_of_openLiteral {c : Char} {cs rest : List Char} {literal : Literal}
    (h : read c cs = (openLiteral literal, rest)) (p : Place) :
    tokenizeAt p (c :: cs) = .error (.openLiteral literal p rest) := by
  rw [tokenizeAt]
  split <;> simp_all

theorem tokenizeAt_of_openComment {c : Char} {cs rest : List Char}
    (h : read c cs = (openComment, rest)) (p : Place) :
    tokenizeAt p (c :: cs) = .error (.openComment p rest) := by
  rw [tokenizeAt]
  split <;> simp_all

/-- The text `s` and its other form are read alike from any two places with one position. -/
def AlikeFrom (s : List Char) : Prop :=
  ∀ p q : Place, q.position = p.position → ReadAlike (tokenizeAt p s) (tokenizeAt q (crlf s))

/-- At a line feed the column no longer counts. -/
theorem AlikeFrom.newline {s : List Char} (h : AlikeFrom s) {p q : Place}
    (hline : q.position.line = p.position.line) :
    ReadAlike (tokenizeAt p ('\n' :: s)) (tokenizeAt q ('\n' :: crlf s)) := by
  rw [tokenizeAt_of_trivia (read_stray (by decide) s),
    tokenizeAt_of_trivia (read_stray (by decide) (crlf s))]
  apply h
  show Position.mk (q.position.line + 1) 1 = Position.mk (p.position.line + 1) 1
  rw [hline]

/-- A line comment takes the carriage return at its end with it. -/
theorem AlikeFrom.lineComment {line s : List Char} (hline : '\n' ∉ line) (h : AlikeFrom s) :
    AlikeFrom ('/' :: ('/' :: line ++ '\n' :: s)) := by
  intro p q hpq
  have hcomment : '\n' ∉ '/' :: '/' :: line := by
    simpa using hline
  have hcomment' : '\n' ∉ '/' :: '/' :: (line ++ ['\r']) := by
    simpa using hline
  have htext : crlf ('/' :: ('/' :: line ++ '\n' :: s)) =
      '/' :: ('/' :: (line ++ ['\r']) ++ '\n' :: crlf s) := by
    rw [← List.cons_append, crlf_append, ← List.cons_append, crlf_of_not_mem hcomment]
    simp
  have hline' : '\n' ∉ line ++ ['\r'] := by
    simpa using hline
  have hstop (s : List Char) : Clear (· ≠ '\n') ('\n' :: s) := rfl
  have hread := read_lineComment hline (hstop s)
  have hread' := read_lineComment hline' (hstop (crlf s))
  rw [tokenizeAt_of_trivia hread, htext, tokenizeAt_of_trivia hread']
  apply h.newline
  simp only [Place.after, Position.after_of_not_mem _ hcomment, Position.after_of_not_mem _ hcomment',
    hpq]

/-- A comment up to the end of the text is the same in both. -/
theorem AlikeFrom.lastComment {line : List Char} (hline : '\n' ∉ line) :
    AlikeFrom ('/' :: '/' :: line) := by
  intro p q hpq
  have hread := read_lineComment hline (clear_nil _)
  rw [List.append_nil] at hread
  rw [crlf_of_not_mem (by simpa using hline), tokenizeAt_of_trivia hread, tokenizeAt_of_trivia hread,
    tokenizeAt_nil, tokenizeAt_nil]
  refine List.Forall₂.cons ⟨rfl, ?_, rfl⟩ .nil
  show q.position.after _ = p.position.after _
  rw [hpq]

/-- What is read off the front in both texts, and what then follows in them. -/
theorem AlikeFrom.of_read {c : Char} {cs rest : List Char} {f : Front} (hc : c ≠ '\n')
    (hline : ¬ ∃ line, c :: cs = '/' :: '/' :: line) (hread : read c cs = (f, rest))
    (h : f.isClosed = true → AlikeFrom rest) : AlikeFrom (c :: cs) := by
  intro p q hpq
  have hread' := read_crlf hc hline
  rw [hread] at hread'
  have hafter : (q.after f.crlf.text).position = (p.after f.text).position := by
    simp only [Place.after, text_crlf, Position.after_crlf, hpq]
  rw [crlf_cons hc]
  cases f with
  | lexeme kind value =>
    rw [tokenizeAt_of_lexeme hread, tokenizeAt_of_lexeme hread']
    exact .cons ⟨rfl, hpq, by simp [Token.read, withCrlf]⟩ (h rfl _ _ hafter)
  | trivia text =>
    rw [tokenizeAt_of_trivia hread, tokenizeAt_of_trivia hread']
    exact h rfl _ _ hafter
  | openLiteral literal =>
    rw [tokenizeAt_of_openLiteral hread, tokenizeAt_of_openLiteral hread']
    exact ⟨rfl, hpq⟩
  | openComment =>
    rw [tokenizeAt_of_openComment hread, tokenizeAt_of_openComment hread']
    exact hpq

/-- Every text is read alike with its line ends rewritten, from any two places. -/
theorem alikeFrom (s : List Char) : AlikeFrom s := by
  induction hn : s.length using Nat.strongRecOn generalizing s with
  | _ n ih =>
    subst hn
    cases s with
    | nil =>
      intro p q hpq
      rw [crlf_nil, tokenizeAt_nil, tokenizeAt_nil]
      exact List.Forall₂.cons ⟨rfl, hpq, rfl⟩ .nil
    | cons c cs =>
      by_cases hc : c = '\n'
      · subst hc
        intro p q hpq
        rw [crlf_newline, tokenizeAt_of_trivia (read_stray (c := '\r') (by decide) ('\n' :: crlf cs))]
        apply (ih _ (Nat.lt_succ_self _) cs rfl).newline
        show q.position.line = p.position.line
        rw [hpq]
      by_cases hline : ∃ line, c :: cs = '/' :: '/' :: line
      · obtain ⟨line, heq⟩ := hline
        have hsplit := List.takeWhile_append_dropWhile (p := (· ≠ '\n')) (l := line)
        have htake := newline_not_mem_takeWhile (p := (· ≠ '\n')) (by decide) line
        cases hdrop : line.dropWhile (· ≠ '\n') with
        | nil =>
          rw [hdrop, List.append_nil] at hsplit
          rw [heq, ← hsplit]
          exact .lastComment htake
        | cons d rest =>
          have hd : d = '\n' := by
            have hclear := clear_dropWhile (· ≠ '\n') line
            rw [hdrop] at hclear
            simpa using hclear
          subst hd
          rw [hdrop] at hsplit
          have hlen : rest.length < (c :: cs).length := by
            rw [heq, ← hsplit]
            simp
            omega
          rw [heq, ← hsplit]
          exact .lineComment htake (ih _ hlen rest rfl)
      · rcases hread : read c cs with ⟨f, rest⟩
        exact .of_read hc hline hread fun hf => ih _ (length_read hread hf) rest rfl

/-- A text is read the same way whichever line ends it has. -/
theorem readAlike_crlf (source : String) :
    ReadAlike (tokenize source) (tokenize (withCrlf source)) := by
  rw [tokenize, tokenize, withCrlf, String.toList_ofList]
  exact alikeFrom source.toList .start .start rfl

end Dbml
