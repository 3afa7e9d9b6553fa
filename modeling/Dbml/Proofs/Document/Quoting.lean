import Dbml.Proofs.Document.Writable

/-!
# Putting a text between quotes

A text is put between the quotes that suit it and read again as one string: that goes well for some
texts and not for others, and which ones is said here of a single scan from left to right
(`escapePending`), in which a backslash escapes the character after it and nothing else is kept in
mind. What closes a string and what the choice of the quotes looks for are both the quotes that this
scan meets with no escape pending (`OccursUnescaped`), so the three stay in step.
-/

namespace Dbml

open Front

/-! ## One scan from left to right -/

/-- Whether an escape is pending after the character `c`. -/
def pendingAfter (pending : Bool) (c : Char) : Bool := !pending && c == '\\'

/-- Whether a text leaves an escape pending. -/
def escapePending (s : List Char) : Bool := s.foldl pendingAfter false

/-- The character stands at some place of the text where no escape is pending. -/
def OccursUnescaped (c : Char) (s : List Char) : Prop :=
  ∃ before after, s = before ++ c :: after ∧ escapePending before = false

theorem escapePending_escape (c : Char) (s : List Char) :
    escapePending ('\\' :: c :: s) = escapePending s := rfl

theorem escapePending_cons {c : Char} (hc : c ≠ '\\') (s : List Char) :
    escapePending (c :: s) = escapePending s := by
  have hnone : pendingAfter false c = false := beq_eq_false_iff_ne.2 hc
  rw [escapePending, List.foldl_cons, hnone]
  rfl

/-- No escape is pending at the end of a text that completes its escapes. -/
theorem escapeComplete_iff {s : List Char} : escapeComplete s = true ↔ escapePending s = false := by
  fun_induction escapeComplete s with
  | case1 => decide
  | case2 => decide
  | case3 c s ih => rw [escapePending_escape, ih]
  | case4 c s hend hesc ih => rw [escapePending_cons (ne_backslash hend hesc), ih]

/-- After a backslash and the character that it escapes, the scan begins anew. -/
theorem occursUnescaped_escape {q : Char} (hq : q ≠ '\\') {c : Char} {s : List Char} :
    OccursUnescaped q ('\\' :: c :: s) ↔ OccursUnescaped q s := by
  constructor
  · rintro ⟨before, after, heq, hbefore⟩
    match before with
    | [] => exact absurd (List.cons.inj heq).1.symm hq
    | [b] =>
      obtain ⟨rfl, -⟩ := List.cons.inj heq
      exact absurd hbefore (by decide)
    | b :: d :: before =>
      simp only [List.cons_append, List.cons.injEq] at heq
      obtain ⟨rfl, rfl, rfl⟩ := heq
      exact ⟨before, after, rfl, hbefore⟩
  · rintro ⟨before, after, rfl, hbefore⟩
    exact ⟨'\\' :: c :: before, after, rfl, hbefore⟩

/-- Away from backslashes an unescaped occurrence is the first character or further on. -/
theorem occursUnescaped_cons {q c : Char} (hc : c ≠ '\\') {s : List Char} :
    OccursUnescaped q (c :: s) ↔ q = c ∨ OccursUnescaped q s := by
  constructor
  · rintro ⟨before, after, heq, hbefore⟩
    match before with
    | [] => exact .inl (List.cons.inj heq).1.symm
    | b :: before =>
      obtain ⟨rfl, rfl⟩ := List.cons.inj heq
      rw [escapePending_cons hc] at hbefore
      exact .inr ⟨before, after, rfl, hbefore⟩
  · rintro (rfl | ⟨before, after, rfl, hbefore⟩)
    · exact ⟨[], s, rfl, rfl⟩
    · refine ⟨c :: before, after, rfl, ?_⟩
      rw [escapePending_cons hc, hbefore]

/-- The unescaped characters are those that occur where no escape is pending. -/
theorem mem_unescaped_iff {q : Char} (hq : q ≠ '\\') {s : List Char} :
    q ∈ unescaped s ↔ OccursUnescaped q s := by
  fun_induction unescaped s with
  | case1 =>
    constructor
    · intro h
      cases h
    · rintro ⟨before, after, heq, -⟩
      simp at heq
  | case2 =>
    constructor
    · intro h
      cases h
    · rintro ⟨before, after, heq, -⟩
      have hmem : q ∈ ['\\'] := by
        rw [heq]
        exact List.mem_append_right before List.mem_cons_self
      exact absurd (List.mem_singleton.1 hmem) hq
  | case3 c s ih => rw [occursUnescaped_escape hq, ih]
  | case4 c s hend hesc ih =>
    rw [occursUnescaped_cons (ne_backslash hend hesc), List.mem_cons, ih]

/-- The texts that one of the two quotes can stand around, told by the scan. -/
theorem isTypeText_iff_scan {raw : String} :
    IsTypeText raw ↔ escapePending raw.toList = false ∧
      ¬ (OccursUnescaped '"' raw.toList ∧ OccursUnescaped '\'' raw.toList) := by
  rw [isTypeText_iff, IsQuotable, escapeComplete_iff, mem_unescaped_iff (by decide),
    mem_unescaped_iff (by decide)]

/-! ## Reading what was put between quotes -/

/-- A text that can stand between quotes is put between such as suit it. -/
theorem tokenize_quoteType {raw : String} (h : IsTypeText raw) :
    tokenize (quoteType raw) = .ok [Token.read .start (typeTerminal raw).1.kind raw.toList,
      Token.eof (Place.start.after (quoteType raw).toList)] := by
  let f : Front := (typeTerminal raw).1.front
  have hf : f = lexeme (typeTerminal raw).1.kind raw.toList := by
    show lexeme _ (typeTerminal raw).1.value.toList = _
    rw [value_typeTerminal]
  have hvalid : f.Valid := lexical_type h
  have htext : (quoteType raw).toList = texts [f] := by
    rw [texts_cons, texts_nil, List.append_nil]
    exact (text_type raw).symm
  have hread : Readable [f] [] := readable_singleton.2 ⟨hvalid, stops_nil f⟩
  refine tokenizeAt_eq_ok_iff.2 ⟨[f], htext, hread, ?_⟩
  rw [hf]
  rfl

/-- Whatever text it was read from, a string has a value that can stand between quotes. -/
theorem isTypeText_of_mem_tokenize {source : String} {ts : List Token} {t : Token}
    (h : tokenize source = .ok ts) (ht : t ∈ ts)
    (hk : t.kind = .literal .doubleQuoted ∨ t.kind = .literal .singleQuoted) :
    IsTypeText t.value := by
  obtain ⟨fs, -, hread, rfl⟩ := tokenizeAt_eq_ok_iff.1 h
  rcases List.mem_append.1 ht with ht | ht
  · exact isTypeText_of_lexical (v := ⟨t, hk⟩) (lexical_of_mem_tokens hread ht)
  · obtain rfl := List.mem_singleton.1 ht
    rcases hk with hk | hk
    · cases hk
    · cases hk

/-- A text put between quotes is read as one string with that text as its value, and nothing after
it, if and only if the text leaves no escape pending and does not hold both quotes unescaped. -/
theorem tokenize_quoteType_iff (raw : String) :
    (∃ t e, tokenize (quoteType raw) = .ok [t, e] ∧
      (t.kind = .literal .doubleQuoted ∨ t.kind = .literal .singleQuoted) ∧
      t.value = raw ∧ e.kind = .eof) ↔
    escapePending raw.toList = false ∧
      ¬ (OccursUnescaped '"' raw.toList ∧ OccursUnescaped '\'' raw.toList) := by
  rw [← isTypeText_iff_scan]
  constructor
  · rintro ⟨t, e, htokens, hkind, rfl, -⟩
    exact isTypeText_of_mem_tokenize htokens List.mem_cons_self hkind
  · intro h
    refine ⟨_, _, tokenize_quoteType h, (typeTerminal raw).2, ?_, rfl⟩
    exact String.ofList_toList

end Dbml
