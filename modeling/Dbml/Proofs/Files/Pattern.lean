import Dbml.Files.Pattern
import Dbml.Proofs.Files.Path

/-!
# Texts as patterns

An escaped text is read as one sign for each of its characters, which stands for that character
alone (`Glyph.readAll_escape`); so a component that is read from it stands for one name
(`PatternSegment.accepts_ofName`), and after a star it stands for the names that end in it
(`PatternSegment.accepts_ofEnd`). No component spells a name with a slash
(`Pattern.not_mem_of_parse`).
-/

namespace Dbml

/-! ## One result after another -/

/-- What comes of two steps one after the other comes of the second, from something that the first
has given. -/
theorem exists_of_bind_ok {α β ε : Type} {x : Except ε α} {f : α → Except ε β} {b : β}
    (h : x >>= f = .ok b) : ∃ a, x = .ok a ∧ f a = .ok b := by
  cases x with
  | error e => cases h
  | ok a => exact ⟨a, rfl, h⟩

/-- Every result of a list of steps is the result of one of them. -/
theorem exists_of_mapM_ok {α β ε : Type} {f : α → Except ε β} {as : List α} {bs : List β}
    (h : as.mapM f = .ok bs) {b : β} (hb : b ∈ bs) : ∃ a ∈ as, f a = .ok b := by
  induction as generalizing bs with
  | nil =>
    cases h
    cases hb
  | cons a as ih =>
    rw [List.mapM_cons] at h
    obtain ⟨x, hx, h⟩ := exists_of_bind_ok h
    obtain ⟨xs, hxs, h⟩ := exists_of_bind_ok h
    cases h
    rcases List.mem_cons.1 hb with rfl | hb
    · exact ⟨a, List.mem_cons_self, hx⟩
    · obtain ⟨a', ha', hfa'⟩ := ih hxs hb
      exact ⟨a', List.mem_cons_of_mem a ha', hfa'⟩

/-- If all steps succeed, the result of each is among the results. -/
theorem mem_of_mapM_ok {α β ε : Type} {f : α → Except ε β} {as : List α} {bs : List β}
    (h : as.mapM f = .ok bs) {a : α} (ha : a ∈ as) {b : β} (hb : f a = .ok b) : b ∈ bs := by
  induction as generalizing bs with
  | nil => cases ha
  | cons a' as ih =>
    rw [List.mapM_cons] at h
    obtain ⟨x, hx, h⟩ := exists_of_bind_ok h
    obtain ⟨xs, hxs, h⟩ := exists_of_bind_ok h
    cases h
    rcases List.mem_cons.1 ha with rfl | ha
    · cases hx.symm.trans hb
      exact List.mem_cons_self
    · exact List.mem_cons_of_mem x (ih hxs ha)

theorem mapM_of_ok {α β ε : Type} {f : α → Except ε β} {g : α → β} {as : List α}
    (h : ∀ a ∈ as, f a = .ok (g a)) : as.mapM f = .ok (as.map g) := by
  induction as with
  | nil => rfl
  | cons a as ih =>
    obtain ⟨ha, has⟩ := List.forall_mem_cons.1 h
    rw [List.mapM_cons, ha, ih has]
    rfl

/-! ## Reading -/

namespace Glyph

/-- Whether a character is escaped. -/
def IsSpecial (c : Char) : Prop := c = '?' ∨ c = '*' ∨ c = '[' ∨ c = ']'

instance (c : Char) : Decidable (IsSpecial c) := inferInstanceAs (Decidable (_ ∨ _))

/-- A character as it is escaped. -/
def escapeChar (c : Char) : List Char := if IsSpecial c then ['[', c, ']'] else [c]

/-- The sign that an escaped character is read as. -/
def escaped (c : Char) : Glyph := if IsSpecial c then .oneOf [⟨c, c⟩] else .char c

theorem escaped_of_not {c : Char} (h : ¬ IsSpecial c) : escaped c = .char c := if_neg h

theorem escaped_ne_anyChars (c : Char) : escaped c ≠ .anyChars := by
  unfold escaped
  split <;> simp

theorem escaped_ne_recursive (c : Char) : escaped c ≠ .recursive := by
  unfold escaped
  split <;> simp

/-- A character without a meaning of its own is read as itself, wherever it stands. -/
theorem readAll_char {c : Char} (h : ¬ IsSpecial c) (before : Option Char) (place : Nat)
    (cs : List Char) : readAll before place (c :: cs) =
      (readAll (some c) (place + 1) cs).map (.char c :: ·) := by
  simp only [IsSpecial, not_or] at h
  obtain ⟨h1, h2, h3, -⟩ := h
  rw [readAll]
  all_goals simp_all

/-- A special character in brackets is read as a set that holds this character alone. -/
theorem readAll_bracket {c : Char} (h : IsSpecial c) (before : Option Char) (place : Nat)
    (cs : List Char) : readAll before place ('[' :: c :: ']' :: cs) =
      (readAll (some ']') (place + 3) cs).map (.oneOf [⟨c, c⟩] :: ·) := by
  have hset : readSet (c :: ']' :: cs) = some (.oneOf [⟨c, c⟩], 3, cs) := by
    rcases h with rfl | rfl | rfl | rfl <;> simp [readSet, closeSet, CharRange.ofChars]
  rw [readAll]
  split <;> simp_all

/-- What is escaped is read back before any rest. Which character stands before the rest, and at
which place, depends on what was escaped. -/
theorem readAll_escape_append (cs rest : List Char) (before : Option Char) (place : Nat) :
    ∃ before' place', readAll before place (cs.flatMap escapeChar ++ rest) =
      (readAll before' place' rest).map (cs.map escaped ++ ·) := by
  induction cs generalizing before place with
  | nil =>
    refine ⟨before, place, ?_⟩
    simp only [List.flatMap_nil, List.map_nil, List.nil_append]
    cases readAll before place rest <;> rfl
  | cons c cs ih =>
    by_cases hc : IsSpecial c
    · obtain ⟨before', place', h⟩ := ih (some ']') (place + 3)
      refine ⟨before', place', ?_⟩
      simp only [List.flatMap_cons, escapeChar, if_pos hc, List.cons_append, List.nil_append,
        List.map_cons, escaped]
      rw [readAll_bracket hc, h]
      cases readAll before' place' rest <;> rfl
    · obtain ⟨before', place', h⟩ := ih (some c) (place + 1)
      refine ⟨before', place', ?_⟩
      simp only [List.flatMap_cons, escapeChar, if_neg hc, List.cons_append, List.nil_append,
        List.map_cons, escaped]
      rw [readAll_char hc, h]
      cases readAll before' place' rest <;> rfl

/-- What is escaped and followed by nothing is read back as the characters that it stands for. -/
theorem readAll_escape (cs : List Char) (before : Option Char) (place : Nat) :
    readAll before place (cs.flatMap escapeChar) = .ok (cs.map escaped) := by
  obtain ⟨before', place', h⟩ := readAll_escape_append cs [] before place
  rw [List.append_nil] at h
  rw [h, readAll]
  simp [Except.map]

theorem readAll_plain {cs : List Char} (h : ∀ c ∈ cs, ¬ IsSpecial c) (before : Option Char)
    (place : Nat) : readAll before place cs = .ok (cs.map escaped) := by
  induction cs generalizing before place with
  | nil => rw [readAll, List.map_nil]
  | cons c cs ih =>
    obtain ⟨hc, hcs⟩ := List.forall_mem_cons.1 h
    rw [readAll_char hc, ih hcs, List.map_cons, escaped_of_not hc]
    rfl

/-- A star before characters without a meaning stands for any beginning. -/
theorem readAll_star {cs : List Char} (h : ∀ c ∈ cs, ¬ IsSpecial c) (before : Option Char)
    (place : Nat) : readAll before place ('*' :: cs) = .ok (.anyChars :: cs.map escaped) := by
  cases cs with
  | nil => rw [readAll, List.map_nil]
  | cons c cs =>
    have hc : c ≠ '*' := by
      rintro rfl
      exact h '*' List.mem_cons_self (by decide)
    rw [readAll, readAll_plain h]
    · rfl
    all_goals simp [hc]

theorem readAll_stars : readAll none 0 ['*', '*'] = .ok [.recursive] := by
  rw [readAll, if_pos (by decide)]

/-- The pattern of a search below a directory can be read, for every directory and for every
extension without special characters. -/
theorem readAll_search (cs : List Char) {rest : List Char} (h : ∀ c ∈ rest, ¬ IsSpecial c) :
    ∃ gs, readAll none 0 (cs.flatMap escapeChar ++ '/' :: (['*', '*'] ++ '/' :: '*' :: rest)) =
      .ok gs := by
  obtain ⟨before, place, hread⟩ := readAll_escape_append cs
    ('/' :: (['*', '*'] ++ '/' :: '*' :: rest)) none 0
  rw [hread, readAll_char (by decide), List.cons_append, List.cons_append, List.nil_append, readAll,
    if_neg (by decide), if_pos (by decide), if_pos rfl, readAll_star h]
  exact ⟨_, rfl⟩

/-- A set that is read takes from the front of the text, and it is never a single character: a
character in brackets stays a set. -/
theorem suffix_of_readSet {cs rest : List Char} {g : Glyph} {n : Nat}
    (h : readSet cs = some (g, n, rest)) : rest <:+ cs ∧ ∀ c, g ≠ .char c := by
  have hclose {make : List Char → Glyph} (hmake : ∀ inside c, make inside ≠ .char c) {taken : Nat}
      {cs : List Char} (h : closeSet make taken cs = some (g, n, rest)) :
      rest <:+ cs ∧ ∀ c, g ≠ .char c := by
    unfold closeSet at h
    split at h
    · cases h
    · rename_i hdrop
      cases h
      have hsuffix := List.dropWhile_suffix (l := cs) (· ≠ ']')
      rw [hdrop] at hsuffix
      exact ⟨(List.suffix_cons _ _).trans hsuffix, hmake _⟩
  unfold readSet at h
  split at h
  · obtain ⟨hrest, hg⟩ := hclose (by simp) h
    exact ⟨(hrest.trans (List.suffix_cons _ _)).trans (List.suffix_cons _ _), hg⟩
  · cases h
  · obtain ⟨hrest, hg⟩ := hclose (by simp) h
    exact ⟨hrest.trans (List.suffix_cons _ _), hg⟩
  · cases h

/-- A sign that stands for itself is a character of the text. -/
theorem mem_of_readAll {before : Option Char} {place : Nat} {cs : List Char} {gs : List Glyph}
    (h : readAll before place cs = .ok gs) {c : Char} (hc : .char c ∈ gs) : c ∈ cs := by
  have hcons {r : Except PatternError (List Glyph)} {g : Glyph} {gs : List Glyph}
      (h : r.map (g :: ·) = .ok gs) : ∃ gs', r = .ok gs' ∧ gs = g :: gs' := by
    cases r <;> cases h
    exact ⟨_, rfl, rfl⟩
  fun_induction readAll before place cs generalizing gs with
  | case1 | case3 | case4 =>
    cases h
    simp at hc
  | case5 | case6 | case8 | case9 | case12 => cases h
  | case2 _ _ _ ih | case7 _ _ _ _ _ ih | case10 _ _ _ _ _ _ ih =>
    obtain ⟨gs, hgs, rfl⟩ := hcons h
    simp only [List.mem_cons, reduceCtorEq, false_or] at hc
    simp only [List.mem_cons, ih hgs hc, or_true]
  | case11 _ _ _ _ _ _ hset ih =>
    obtain ⟨gs, hgs, rfl⟩ := hcons h
    obtain ⟨hrest, hg⟩ := suffix_of_readSet hset
    rcases List.mem_cons.1 hc with hc | hc
    · exact absurd hc.symm (hg c)
    · exact List.mem_cons_of_mem _ (hrest.subset (ih hgs hc))
  | case13 _ _ d _ _ _ _ _ _ _ ih =>
    obtain ⟨gs, hgs, rfl⟩ := hcons h
    rcases List.mem_cons.1 hc with hc | hc
    · cases hc
      exact List.mem_cons_self
    · exact List.mem_cons_of_mem _ (ih hgs hc)

/-! ## What signs stand for -/

/-- An escaped character stands for itself and for nothing else. -/
theorem holds_escaped (c d : Char) : (escaped c).holds d = true ↔ d = c := by
  unfold escaped
  split
  · have hrange : CharRange.anyHolds [⟨c, c⟩] d = true ↔ c ≤ d ∧ d ≤ c := by
      simp [CharRange.anyHolds]
    rw [holds, hrange]
    exact ⟨fun ⟨h, h'⟩ => Char.le_antisymm h' h, fun h => h ▸ ⟨Char.le_refl _, Char.le_refl _⟩⟩
  · rw [holds, beq_iff_eq]
    exact eq_comm

/-- Where a glyph other than a star leads: past one character that it stands for. -/
theorem mem_advance {g : Glyph} (hg : g ≠ .anyChars) {lefts : List (List Char)} {left : List Char} :
    left ∈ advance lefts g ↔ ∃ c, g.holds c = true ∧ c :: left ∈ lefts := by
  rw [advance.eq_3 lefts g hg, List.mem_filterMap]
  constructor
  · rintro ⟨whole, hmem, h⟩
    cases whole with
    | nil => cases h
    | cons c cs =>
      simp only [Option.ite_none_right_eq_some, Option.some.injEq] at h
      obtain ⟨hc, rfl⟩ := h
      exact ⟨c, hc, hmem⟩
  · rintro ⟨c, hc, hmem⟩
    exact ⟨c :: left, hmem, if_pos hc⟩

theorem mem_advance_escaped {lefts : List (List Char)} {c : Char} {left : List Char} :
    left ∈ advance lefts (escaped c) ↔ c :: left ∈ lefts := by
  rw [mem_advance (escaped_ne_anyChars c)]
  simp only [holds_escaped, exists_eq_left]

/-- Characters that are escaped are accepted one by one, so a text is accepted if it is what was
escaped. -/
theorem any_foldl_advance {cs : List Char} {lefts : List (List Char)} :
    ((cs.map escaped).foldl advance lefts).any List.isEmpty ↔ cs ∈ lefts := by
  induction cs generalizing lefts with
  | nil => simp
  | cons c cs ih =>
    rw [List.map_cons, List.foldl_cons, ih]
    exact mem_advance_escaped

theorem mem_ends {left cs : List Char} : left ∈ ends cs ↔ left <:+ cs := by
  induction cs with
  | nil => simp [ends]
  | cons c cs ih => rw [ends, List.mem_cons, ih, List.suffix_cons_iff]

end Glyph

/-! ## Components -/

namespace PatternSegment

/-- The component that stands for one name only. -/
def ofName (name : String) : PatternSegment := ⟨name.toList.map Glyph.escaped⟩

/-- A segment that is a name accepts this name and no other. -/
theorem accepts_ofName {t name : String} : (ofName t).accepts name ↔ name = t := by
  rw [accepts, Glyph.spell, ofName, Glyph.any_foldl_advance, List.mem_singleton, String.toList_inj]
  exact eq_comm

/-- The component that stands for all names that end as the text does. -/
def ofEnd (text : List Char) : PatternSegment := ⟨.anyChars :: text.map Glyph.escaped⟩

/-- A segment that is a star and an end accepts the names with that end. -/
theorem accepts_ofEnd {cs : List Char} {name : String} :
    (ofEnd cs).accepts name ↔ cs <:+ name.toList := by
  rw [accepts, Glyph.spell, ofEnd, List.foldl_cons, Glyph.any_foldl_advance]
  exact Glyph.mem_ends

theorem isRecursive_ofName (t : String) : (ofName t).isRecursive = false := by
  simp [isRecursive, ofName, Glyph.escaped_ne_recursive]

theorem isRecursive_ofEnd (cs : List Char) : (ofEnd cs).isRecursive = false := by
  simp [isRecursive, ofEnd, Glyph.escaped_ne_recursive]

/-- A name is looked up as it is if it has no special character; otherwise the entries of the
directory are gone through. -/
theorem literal?_ofName (t : String) : (ofName t).literal? =
    if t.toList.any fun c => Glyph.IsSpecial c then none else some t := by
  have hchars (cs : List Char) : (cs.map Glyph.escaped).mapM Glyph.char? =
      if cs.any fun c => Glyph.IsSpecial c then none else some cs := by
    induction cs with
    | nil => simp
    | cons c cs ih =>
      rw [List.map_cons, List.mapM_cons, ih]
      by_cases hc : Glyph.IsSpecial c
      · simp [Glyph.escaped, hc, Glyph.char?]
      · by_cases hcs : cs.any fun c => Glyph.IsSpecial c
        · simp [hcs]
        · simp [Glyph.escaped, hc, Glyph.char?, hcs]
  rw [literal?, ofName, hchars]
  split <;> simp

/-- A segment that is looked up as it is consists of the characters of its text. -/
theorem mem_of_literal? {s : PatternSegment} {t : String} (h : s.literal? = some t) {c : Char}
    (hc : c ∈ t.toList) : .char c ∈ s.glyphs := by
  obtain ⟨cs, hcs, rfl⟩ := Option.map_eq_some_iff.1 h
  rw [String.toList_ofList] at hc
  have hchars {gs : List Glyph} {cs : List Char} (h : gs.mapM Glyph.char? = some cs) (hc : c ∈ cs) :
      .char c ∈ gs := by
    induction gs generalizing cs with
    | nil =>
      cases h
      cases hc
    | cons g gs ih =>
      simp only [List.mapM_cons, Option.bind_eq_bind, Option.bind_eq_some_iff, Option.pure_def,
        Option.some.injEq] at h
      obtain ⟨d, hd, ds, hds, rfl⟩ := h
      rcases List.mem_cons.1 hc with rfl | hc
      · cases g <;> cases hd
        exact List.mem_cons_self
      · exact List.mem_cons_of_mem _ (ih hds hc)
  exact hchars hcs hc

end PatternSegment

/-! ## Whole patterns -/

/-- To escape a text leaves its pieces between slashes as they are, since a slash is not special. -/
theorem pieces_escape (cs : List Char) :
    pieces (cs.flatMap Glyph.escapeChar) = (pieces cs).map (·.flatMap Glyph.escapeChar) := by
  induction cs with
  | nil => rfl
  | cons c cs ih =>
    obtain ⟨p, ps, hps⟩ := List.exists_cons_of_ne_nil (pieces_ne_nil cs)
    rw [hps, List.map_cons] at ih
    by_cases hc : c = '/'
    · subst hc
      rw [List.flatMap_cons, Glyph.escapeChar, if_neg (by decide)]
      simp [pieces, ih, hps]
    · have hslash : '/' ∉ Glyph.escapeChar c := by
        unfold Glyph.escapeChar
        split <;> simp [Ne.symm hc]
      rw [List.flatMap_cons, pieces_append_of_not_mem hslash ih, pieces, if_neg hc, hps]
      simp

namespace Pattern

/-- Every character of the text stands for itself, and the text is a piece of a path. -/
def IsPlain (text : String) : Prop := ∀ c ∈ text.toList, ¬ Glyph.IsSpecial c ∧ c ≠ '/'

instance (text : String) : Decidable (IsPlain text) :=
  List.decidableBAll (fun c => ¬ Glyph.IsSpecial c ∧ c ≠ '/') text.toList

theorem toList_escape (text : String) :
    (escape text).toList = text.toList.flatMap Glyph.escapeChar := by
  rw [escape, String.toList_ofList]
  rfl

/-- No component of a pattern spells a name with a slash. -/
theorem not_mem_of_parse {text : String} {p : Pattern} (h : parse text = .ok p) {s : PatternSegment}
    (hs : s ∈ p.segments) {t : String} (ht : s.literal? = some t) : '/' ∉ t.toList := by
  obtain ⟨gs, -, h⟩ := exists_of_bind_ok h
  obtain ⟨segments, hsegments, h⟩ := exists_of_bind_ok h
  cases h
  obtain ⟨part, hpart, hread⟩ := exists_of_mapM_ok hsegments hs
  have hpiece : part ∈ pieces text.toList := by
    have htail : part ∈ if text.toList.head? == some '/' then (pieces text.toList).tail
        else pieces text.toList := by
      split at hpart
      · exact (List.dropLast_sublist _).subset hpart
      · exact hpart
    split at htail
    · exact List.mem_of_mem_tail htail
    · exact htail
  cases hgs : Glyph.readAll none 0 part with
  | error e =>
    rw [hgs] at hread
    cases hread
  | ok gs =>
    rw [hgs] at hread
    cases hread
    exact fun hslash => not_mem_of_mem_pieces hpiece
      (Glyph.mem_of_readAll hgs (PatternSegment.mem_of_literal? ht hslash))

end Pattern

end Dbml
