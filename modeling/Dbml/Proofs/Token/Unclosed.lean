import Dbml.Proofs.Text.Place
import Dbml.Proofs.Token.Reading
import Mathlib.Control.Monad.Basic

/-!
# What is opened and never closed

The reading of a text stops before its end for one reason only: an opening mark with no closing mark
after it. `Front.Opens` says, sort by sort, what such a text looks like, without any scanning, and
`Front.opens_read` that nothing else stops the reading. The text before the mark is read to its end,
and the text from the mark on stops the reading by itself at once, so the problem that is reported
is a fact about the last part alone (`tokenize_error_opens`).
-/

namespace Dbml

open Front

/-! ## Opening marks -/

namespace Front

/-- The text begins with the opening mark and holds no closing mark after it. -/
inductive Opens : Front → List Char → Prop
  | doubleQuoted {body : List Char} (hclose : '"' ∉ unescaped body) :
    Opens (openLiteral .doubleQuoted) ('"' :: body)
  -- two more marks would open a multiline string
  | singleQuoted {body : List Char} (hone : ¬ ['\'', '\''] <+: body)
    (hclose : '\'' ∉ unescaped body) : Opens (openLiteral .singleQuoted) ('\'' :: body)
  | funcExpr {body : List Char} (hclose : '\x60' ∉ body) :
    Opens (openLiteral .funcExpr) ('\x60' :: body)
  | multiline {body : List Char} (hclose : ¬ ['\'', '\'', '\''] <:+: body) :
    Opens (openLiteral .multiline) ('\'' :: '\'' :: '\'' :: body)
  | comment {body : List Char} (hclose : ¬ ['*', '/'] <:+: body) :
    Opens openComment ('/' :: '*' :: body)

theorem isClosed_number (c : Char) (cs : List Char) : (number c cs).1.isClosed = true := by
  unfold number
  split
  · split <;> rfl
  · rfl

/-- A literal is left open if there is no mark to cut at. -/
theorem isClosed_ofCut {literal : Literal} {all : List Char}
    {cut : Option (List Char × List Char)} (h : (ofCut literal all cut).1.isClosed = false) :
    cut = none ∧ (ofCut literal all cut).1 = openLiteral literal := by
  cases cut with
  | none => exact ⟨rfl, rfl⟩
  | some parts => cases h

/-- What an apostrophe leaves open opens a literal that nothing closes. -/
theorem opens_apostrophe {cs : List Char} (h : (apostrophe cs).1.isClosed = false) :
    (apostrophe cs).1.Opens ('\'' :: cs) := by
  unfold apostrophe at h ⊢
  split
  case h_1 body =>
    obtain ⟨hcut, hfront⟩ := isClosed_ofCut h
    rw [hfront]
    exact .multiline ((cutAt_eq_none_iff (by simp)).1 hcut)
  case h_2 hcs =>
    have hone : ¬ ['\'', '\''] <+: cs := by
      rintro ⟨body, rfl⟩
      exact hcs body rfl
    split at h
    · exact absurd rfl (hcs _)
    · obtain ⟨hcut, hfront⟩ := isClosed_ofCut h
      rw [hfront]
      exact .singleQuoted hone (cutQuoted_eq_none_iff.1 hcut)

/-- What a slash leaves open opens a comment that nothing closes. -/
theorem opens_slash {cs : List Char} (h : (slash cs).1.isClosed = false) :
    (slash cs).1.Opens ('/' :: cs) := by
  unfold slash at h ⊢
  split
  case h_1 => cases h
  case h_2 body =>
    simp only at h
    split
    case h_1 hcut =>
      rw [hcut] at h
      cases h
    case h_2 hcut => exact .comment ((cutAt_eq_none_iff (by simp)).1 hcut)
  case h_3 hline hblock =>
    split at h
    · exact absurd rfl (hline _)
    · exact absurd rfl (hblock _)
    · cases h

/-- Where nothing is taken, something is opened and never closed. -/
theorem opens_read {c : Char} {cs : List Char} (h : (read c cs).1.isClosed = false) :
    (read c cs).1.Opens (c :: cs) := by
  unfold read at h ⊢
  split
  · rename_i hc
    rw [if_pos hc] at h
    cases h
  rename_i hword
  rw [if_neg hword] at h
  split
  · rename_i hc
    rw [if_pos hc, isClosed_number] at h
    cases h
  rename_i hdigit
  rw [if_neg hdigit] at h
  split
  · rename_i hc
    rw [if_pos hc] at h
    obtain ⟨hcut, hfront⟩ := isClosed_ofCut h
    rw [hfront, hc]
    exact .doubleQuoted (cutQuoted_eq_none_iff.1 hcut)
  rename_i hdouble
  rw [if_neg hdouble] at h
  split
  · rename_i hc
    rw [if_pos hc] at h
    rw [hc]
    exact opens_apostrophe h
  rename_i hsingle
  rw [if_neg hsingle] at h
  split
  · rename_i hc
    rw [if_pos hc] at h
    obtain ⟨hcut, hfront⟩ := isClosed_ofCut h
    rw [hfront, hc]
    refine .funcExpr fun hmem => (cutAt_eq_none_iff (by simp)).1 hcut ?_
    obtain ⟨before, after, rfl⟩ := List.append_of_mem hmem
    exact ⟨before, after, by simp⟩
  rename_i hfunc
  rw [if_neg hfunc] at h
  split
  · rename_i hc
    rw [if_pos hc] at h
    rw [hc]
    exact opens_slash h
  rename_i hslash
  rw [if_neg hslash] at h
  split at h <;> cases h

end Front

/-! ## Problems -/

/-- The text opens what the problem is about, and never closes it. -/
def Problem.Opens : Problem → List Char → Prop
  | unterminatedLiteral (.literal literal) _ _, s => (Front.openLiteral literal).Opens s
  | unterminatedComment _ _, s => Front.openComment.Opens s
  | _, _ => False

/-- The same problem at another place. -/
def Problem.moved (position : Position) (span : Span) : Problem → Problem
  | unterminatedLiteral kind _ _ => unterminatedLiteral kind position span
  | unterminatedComment _ _ => unterminatedComment position span
  | unexpected expected found _ _ => unexpected expected found position span

/-- The problem of an open end says what was opened, and where. -/
theorem opens_of_tokenizeAt {r : List Char} (h : OpenEnded r) {p : Place} {e : Problem}
    (he : tokenizeAt p r = .error e) : e.Opens r := by
  obtain ⟨c, cs, rfl, hclosed⟩ := h
  have hopens := opens_read hclosed
  rw [tokenizeAt] at he
  split at he
  case h_1 hread =>
    rw [hread] at hclosed
    cases hclosed
  case h_2 hread =>
    rw [hread] at hclosed
    cases hclosed
  case h_3 hread =>
    rw [hread] at hopens
    cases he
    exact hopens
  case h_4 hread =>
    rw [hread] at hopens
    cases he
    exact hopens

/-- The problem at an opening mark reaches to the end of the text; elsewhere it is the same problem,
and one item at a time it is the next item. -/
theorem OpenEnded.problem_moved {r : List Char} (h : OpenEnded r) {p : Place} {e : Problem}
    (he : tokenizeAt p r = .error e) :
    e.span = p.span r ∧ (Stream.nextAt p r).1 = .error e ∧
      ∀ q, tokenizeAt q r = .error (e.moved q.position (q.span r)) := by
  rcases h.exists_problem with ⟨literal, hp⟩ | hp
  · rw [(hp p).1] at he
    cases he
    exact ⟨rfl, by rw [(hp p).2], fun q => (hp q).1⟩
  · rw [(hp p).1] at he
    cases he
    exact ⟨rfl, by rw [(hp p).2], fun q => (hp q).1⟩

/-- A problem of the reading is justified by the text from its place on, which opens something and
never closes it. What stands before that is read to its end, into the tokens that come one by one
before the problem; what follows has the problem by itself. -/
theorem tokenize_error_opens {source : String} {e : Problem} (h : tokenize source = .error e) :
    e.span.stop = byteLength source.toList ∧
    ∃ before rest, splitBytes e.span.start source.toList = some (before, rest) ∧
      e.Opens rest ∧
      (∃ ts, tokenize (String.ofList before) = .ok (ts ++ [Token.eof (Place.start.after before)]) ∧
        (Stream.ofText source).steps (ts.length + 1) =
          ts.map (fun t => some (.ok t)) ++ [some (.error e)]) ∧
      tokenize (String.ofList rest) = .error (e.moved .start ⟨0, byteLength rest⟩) := by
  obtain ⟨fs, r, htext, hfs, hr⟩ := exists_readable source.toList
  have hlast : tokenizeAt (Place.start.after (texts fs)) r = .error e := by
    rw [tokenize, htext, tokenizeAt_texts hfs] at h
    cases hrest : tokenizeAt (Place.start.after (texts fs)) r with
    | error e' =>
      rw [hrest] at h
      cases h
      rfl
    | ok ts =>
      rw [hrest] at h
      cases h
  have hopen : OpenEnded r := by
    rcases hr with rfl | hr
    · rw [tokenizeAt_nil] at hlast
      cases hlast
    · exact hr
  obtain ⟨hspan, hitem, hmoved⟩ := hopen.problem_moved hlast
  have hoffset : (Place.start.after (texts fs)).offset = byteLength (texts fs) := Nat.zero_add _
  refine ⟨?_, texts fs, r, ?_, opens_of_tokenizeAt hopen hlast, ⟨tokens .start fs, ?_, ?_⟩, ?_⟩
  · rw [hspan, htext, byteLength_append, ← hoffset]
    rfl
  · rw [hspan, htext]
    exact splitBytes_eq_some_iff.2 ⟨rfl, hoffset.symm⟩
  · exact tokenize_texts hfs.nil_right
  · have hsteps := Stream.steps_texts hfs hr .start 0
    rw [hitem, ← htext, Nat.zero_add] at hsteps
    exact hsteps
  · rw [tokenize, String.toList_ofList, hmoved .start, Place.span, Place.after, Place.start]
    simp only [Nat.zero_add]

/-- An apostrophe that a backslash escapes closes nothing; before it stand an empty literal and a
comment with a quotation mark in it. -/
theorem tokenize_error_opens_escaped :
    tokenize "a''/*\"*/'b\\'" =
        .error (.unterminatedLiteral (.literal .singleQuoted) ⟨1, 9⟩ ⟨8, 12⟩) ∧
      (openLiteral .singleQuoted).Opens "'b\\'".toList ∧
      (∃ ts, tokenize "a''/*\"*/" = .ok (ts ++ [⟨.eof, "", ⟨1, 9⟩, ⟨8, 8⟩⟩]) ∧
        (Stream.ofText "a''/*\"*/'b\\'").steps (ts.length + 1) =
          ts.map (fun t => some (.ok t)) ++
            [some (.error (.unterminatedLiteral (.literal .singleQuoted) ⟨1, 9⟩ ⟨8, 12⟩))]) ∧
      tokenize "'b\\'" = .error (.unterminatedLiteral (.literal .singleQuoted) ⟨1, 1⟩ ⟨0, 4⟩) := by
  have h : tokenize "a''/*\"*/'b\\'" =
      .error (.unterminatedLiteral (.literal .singleQuoted) ⟨1, 9⟩ ⟨8, 12⟩) := by
    decide +kernel
  obtain ⟨-, before, rest, hcut, hopens, hbefore, hrest⟩ := tokenize_error_opens h
  have hparts : splitBytes 8 "a''/*\"*/'b\\'".toList =
      some ("a''/*\"*/".toList, "'b\\'".toList) := by
    decide +kernel
  cases hcut.symm.trans hparts
  exact ⟨h, hopens, hbefore, hrest⟩

end Dbml
