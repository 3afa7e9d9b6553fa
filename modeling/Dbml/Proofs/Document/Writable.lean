import Dbml.Proofs.Document.RoundTrip

/-!
# Which documents there are

A list of declarations is what some text spells if and only if each of them is writable
(`Document.exists_parse_iff_writable`). Being writable is a matter of characters alone
(`Decl.Writable`): it mentions neither how tokens are read nor how they are put together. That
nothing else is ever parsed is the invariant of reading (`Document.wellFormed_of_parse`); that all
of it is, is what printing shows (`Document.parse_print_of_wellFormed`).
-/

namespace Dbml

/-! ## Writable texts -/

/-- A word of ASCII letters and underscores that is not reserved. -/
def IsFreeWord (w : String) : Prop :=
  w ≠ "" ∧ (∀ c ∈ w.toList, ('a' ≤ c ∧ c ≤ 'z') ∨ ('A' ≤ c ∧ c ≤ 'Z') ∨ c = '_') ∧
    ∀ k : Keyword, w ≠ k.word

/-- No escape is left pending, and one of the two quotes occurs only escaped. -/
def IsQuotable (v : String) : Prop :=
  escapeComplete v.toList = true ∧
    ¬ ('"' ∈ unescaped v.toList ∧ '\'' ∈ unescaped v.toList)

/-- A body between double quotes, in which no escape is left pending and double quotes occur only
escaped. -/
def IsBetweenQuotes (v : String) : Prop :=
  ∃ body : String, v = "\"" ++ body ++ "\"" ∧ escapeComplete body.toList = true ∧
    '"' ∉ unescaped body.toList

/-- What the texts in a declaration may be. -/
def Decl.Writable : Decl → Prop
  | project n d _ => IsFreeWord n ∧ ∀ v ∈ d, IsQuotable v
  | table n a cs _ =>
    IsFreeWord n ∧ (∀ v ∈ a, IsFreeWord v) ∧ ∀ c ∈ cs, IsFreeWord c.name ∧ IsFreeWord c.type
  | enum n vs _ => IsFreeWord n ∧ ∀ v ∈ vs, IsFreeWord v ∨ IsBetweenQuotes v

/-! ## Writable texts are those of tokens -/

theorem isWordChar_iff {c : Char} :
    isWordChar c = true ↔ ('a' ≤ c ∧ c ≤ 'z') ∨ ('A' ≤ c ∧ c ≤ 'Z') ∨ c = '_' := by
  have hupper : c.isUpper = true ↔ 'A' ≤ c ∧ c ≤ 'Z' := decide_eq_true_iff
  have hlower : c.isLower = true ↔ 'a' ≤ c ∧ c ≤ 'z' := by
    refine Bool.and_eq_true_iff.trans (and_congr ?_ ?_) <;> exact decide_eq_true_iff
  show (c.isUpper || c.isLower || c == '_') = true ↔ _
  rw [Bool.or_eq_true, Bool.or_eq_true, hupper, hlower, beq_iff_eq]
  tauto

theorem Keyword.mem_all (k : Keyword) : k ∈ all := by
  cases k <;> decide

theorem Keyword.ofWord?_eq_none_iff {w : String} :
    ofWord? w = none ↔ ∀ k : Keyword, w ≠ k.word := by
  unfold ofWord?
  rw [List.find?_eq_none]
  constructor
  · intro h k hw
    exact h k k.mem_all (beq_iff_eq.2 hw.symm)
  · intro h k _ hw
    exact h k (beq_iff_eq.1 hw).symm

/-- Names are the free words. -/
theorem isName_iff {w : String} : IsName w ↔ IsFreeWord w := by
  unfold IsName IsFreeWord
  rw [Keyword.ofWord?_eq_none_iff]
  simp only [isWordChar_iff, ne_eq, String.toList_eq_nil_iff]

/-- The texts of types are those that can be put between quotes of one sort. -/
theorem isTypeText_iff {v : String} : IsTypeText v ↔ IsQuotable v := by
  unfold IsTypeText IsQuotable
  rw [isQuotedBody_iff, isQuotedBody_iff, ← and_or_left, not_and_or]

/-- The values of enums are free words and what stands between double quotes. -/
theorem isEnumValue_iff {v : String} : IsEnumValue v ↔ IsFreeWord v ∨ IsBetweenQuotes v := by
  unfold IsEnumValue IsBetweenQuotes
  rw [isName_iff]
  refine or_congr_right (exists_congr fun body => ?_)
  rw [isQuotedBody_iff]
  exact and_comm

/-- What can come out of the parser is what is writable by its characters. -/
theorem Decl.wellFormed_iff_writable (d : Decl) : d.WellFormed ↔ d.Writable := by
  cases d with
  | project n d p => simp only [WellFormed, Writable, isName_iff, isTypeText_iff]
  | table n a cs p => simp only [WellFormed, Writable, isName_iff]
  | enum n vs p => simp only [WellFormed, Writable, isName_iff, isEnumValue_iff]

theorem Decl.writable_unplaced (d : Decl) : d.unplaced.Writable ↔ d.Writable := by
  cases d with
  | project n d p => rfl
  | table n a cs p => simp [unplaced, Writable, Column.unplaced]
  | enum n vs p => rfl

/-! ## The documents that texts spell -/

/-- Declarations, up to their positions, are what some text spells if and only if all of them are
writable. -/
theorem Document.exists_parse_iff_writable (ds : List Decl) :
    (∃ source d, Document.parse source = .ok d ∧
      d.decls.map Decl.unplaced = ds.map Decl.unplaced) ↔ ∀ x ∈ ds, x.Writable := by
  constructor
  · rintro ⟨source, d, hparse, hsame⟩ x hx
    have hmem : x.unplaced ∈ d.decls.map Decl.unplaced := by
      rw [hsame]
      exact List.mem_map_of_mem hx
    obtain ⟨y, hy, hxy⟩ := List.mem_map.1 hmem
    rw [← Decl.writable_unplaced, ← hxy, Decl.writable_unplaced, ← Decl.wellFormed_iff_writable]
    exact wellFormed_of_parse hparse y hy
  · intro h
    have hwf : ∀ x ∈ ds, x.WellFormed := by
      intro x hx
      exact x.wellFormed_iff_writable.2 (h x hx)
    obtain ⟨d, hparse, hsame⟩ := parse_print_of_wellFormed (d := ⟨ds⟩) hwf
    exact ⟨_, d, hparse, congrArg Document.decls hsame⟩

end Dbml
