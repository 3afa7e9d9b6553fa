import Dbml.Proofs.Document.Derivation
import Dbml.Proofs.Document.TokenList

/-!
# Moving tokens

The parser looks at the kinds and values of tokens and only hands on where they stand. So when the
tokens are moved (`Relocation`), the document or the problem is moved with them and nothing else
changes: `Document.ofTokens_relocate`. Each phrase has its equation, and a sequence of phrases has
the one that its parts give it (`Relocation.answer_bind`).
-/

namespace Dbml

/-- A way to move what stands in a text. -/
structure Relocation where
  position : Position → Position
  span : Span → Span

namespace Relocation

variable (m : Relocation)

def token (t : Token) : Token := ⟨t.kind, t.value, m.position t.position, m.span t.span⟩

/-- A problem is moved; its texts are not touched. -/
def problem : Problem → Problem
  | .unterminatedLiteral kind p s => .unterminatedLiteral kind (m.position p) (m.span s)
  | .unterminatedComment p s => .unterminatedComment (m.position p) (m.span s)
  | .unexpected expected found p s => .unexpected expected found (m.position p) (m.span s)

def column (c : Decl.Column) : Decl.Column := ⟨c.name, c.type, m.position c.position⟩

def decl : Decl → Decl
  | .project n d p => .project n d (m.position p)
  | .table n a cs p => .table n a (cs.map m.column) (m.position p)
  | .enum n vs p => .enum n vs (m.position p)

def document (d : Document) : Document := ⟨d.decls.map m.decl⟩

/-- An answer is moved by what moves its value, a problem by itself. -/
def answer {α β : Type} (f : α → β) : Except Problem α → Except Problem β
  | .ok a => .ok (f a)
  | .error e => .error (m.problem e)

/-- What a phrase read is moved together with the tokens that it left. -/
def phrase {α β : Type} (f : α → β) : α × List Token → β × List Token :=
  Prod.map f (List.map m.token)

@[simp] theorem kind_token (t : Token) : (m.token t).kind = t.kind := rfl

variable {m} {α β γ δ : Type}

/-- A sequence of phrases is relocated if each of them is. -/
theorem answer_bind {f : α → β} {g : γ → δ} {x : Except Problem α} {k : α → Except Problem γ}
    {k' : β → Except Problem δ} (h : ∀ a, k' (f a) = m.answer g (k a)) :
    (m.answer f x >>= k') = m.answer g (x >>= k) := by
  cases x with
  | error e => rfl
  | ok a => exact h a

theorem answer_map {f : α → β} {g : γ → δ} {x : Except Problem α} {k : α → γ} {k' : β → δ}
    (h : ∀ a, k' (f a) = g (k a)) : (m.answer f x).map k' = m.answer g (x.map k) := by
  cases x with
  | error e => rfl
  | ok a => exact congrArg Except.ok (h a)

end Relocation

/-! ## Phrases -/

namespace Phrase

variable (m : Relocation) (stop : Token)

theorem misfit_relocate {α β : Type} (f : α → β) (expected : Expected) (ts : List Token) :
    misfit (m.token stop) expected (ts.map m.token) =
      m.answer (m.phrase f) (misfit stop expected ts) := by
  cases ts with
  | nil => rfl
  | cons t ts => rfl

/-- To expect a kind commutes with the relocation, which leaves kinds alone. -/
theorem expect_relocate (kind : Kind) (expected : Expected) (ts : List Token) :
    expect (m.token stop) kind expected (ts.map m.token) =
      m.answer (m.phrase m.token) (expect stop kind expected ts) := by
  cases ts with
  | nil => rfl
  | cons t ts =>
    rw [List.map_cons, expect, expect, m.kind_token]
    by_cases hk : t.kind = kind
    · rw [if_pos hk, if_pos hk]
      rfl
    · rw [if_neg hk, if_neg hk]
      exact misfit_relocate m stop m.token expected (t :: ts)

/-- The settings of a project hold no places, so they stay as they are. -/
theorem settings_relocate (last : Option String) (ts : List Token) :
    settings (m.token stop) last (ts.map m.token) =
      m.answer (m.phrase id) (settings stop last ts) := by
  fun_induction settings stop last ts with
  | case1 => exact misfit_relocate m stop id _ []
  | case2 last t ts hclose =>
    rw [List.map_cons, settings.eq_def]
    exact if_pos hclose
  | case3 last t hclose hkey =>
    rw [List.map_cons, settings.eq_def]
    simp only [m.kind_token, hkey]
    exact misfit_relocate m stop id _ []
  | case4 last t hclose hkey c hcolon =>
    rw [List.map_cons, settings.eq_def]
    simp only [List.map_cons, m.kind_token, hkey, hcolon]
    exact misfit_relocate m stop id _ []
  | case5 last t hclose hkey c hcolon v ts hvalue ih =>
    -- which string it is shows in its kind
    have hvalue' : isTypeString (m.token v) = true := hvalue
    rw [List.map_cons, settings.eq_def]
    simp only [List.map_cons, m.kind_token, hkey, hcolon, hvalue']
    exact ih
  | case6 last t hclose hkey c hcolon v ts hvalue =>
    have hvalue' : ¬ isTypeString (m.token v) = true := hvalue
    rw [List.map_cons, settings.eq_def]
    simp only [List.map_cons, m.kind_token, hkey, hcolon, hvalue']
    exact misfit_relocate m stop id _ (v :: ts)
  | case7 last t hclose hkey c ts hcolon =>
    rw [List.map_cons, settings.eq_def]
    simp only [List.map_cons, m.kind_token, hkey, hcolon]
    exact misfit_relocate m stop id _ (c :: ts)
  | case8 last t ts hclose hkey =>
    rw [List.map_cons, settings.eq_def]
    simp only [m.kind_token, hkey, hclose]
    exact misfit_relocate m stop id _ (t :: ts)

theorem columns_relocate (ts : List Token) :
    columns (m.token stop) (ts.map m.token) =
      m.answer (m.phrase (List.map m.column)) (columns stop ts) := by
  fun_induction columns stop ts with
  | case1 => exact misfit_relocate m stop _ _ []
  | case2 t ts hclose =>
    rw [List.map_cons, columns.eq_def]
    exact if_pos hclose
  | case3 t hclose hname =>
    rw [List.map_cons, columns.eq_def]
    simp only [m.kind_token, hname]
    exact misfit_relocate m stop _ _ []
  | case4 t hclose hname u ts htype ih =>
    rw [List.map_cons, columns.eq_def]
    simp only [List.map_cons, m.kind_token, hname, htype, reduceCtorEq, if_true, if_false]
    rw [ih]
    exact Relocation.answer_map fun _ => rfl
  | case5 t hclose hname u ts htype =>
    rw [List.map_cons, columns.eq_def]
    simp only [List.map_cons, m.kind_token, hname, htype]
    exact misfit_relocate m stop _ _ (u :: ts)
  | case6 t ts hclose hname =>
    rw [List.map_cons, columns.eq_def]
    simp only [m.kind_token, hname, hclose]
    exact misfit_relocate m stop _ _ (t :: ts)

theorem values_relocate (ts : List Token) :
    values (m.token stop) (ts.map m.token) = m.answer (m.phrase id) (values stop ts) := by
  fun_induction values stop ts with
  | case1 => exact misfit_relocate m stop id _ []
  | case2 t ts hclose =>
    rw [List.map_cons, values, m.kind_token, if_pos hclose]
    rfl
  | case3 t ts hclose hident ih =>
    rw [List.map_cons, values, m.kind_token, if_neg hclose, if_pos hident, ih]
    exact Relocation.answer_map fun _ => rfl
  | case4 t ts hclose hident hquoted ih =>
    rw [List.map_cons, values, m.kind_token, if_neg hclose, if_neg hident, if_pos hquoted, ih]
    exact Relocation.answer_map fun _ => rfl
  | case5 t ts hclose hident hquoted =>
    rw [List.map_cons, values, m.kind_token, if_neg hclose, if_neg hident, if_neg hquoted]
    exact misfit_relocate m stop id _ (t :: ts)

theorem tableAlias_relocate (ts : List Token) :
    tableAlias (m.token stop) (ts.map m.token) = m.answer (m.phrase id) (tableAlias stop ts) := by
  cases ts with
  | nil => rfl
  | cons t ts =>
    rw [List.map_cons, tableAlias, tableAlias, m.kind_token]
    by_cases hk : t.kind = .keyword .aliased
    · rw [if_pos hk, if_pos hk, name, expect_relocate]
      exact Relocation.answer_map fun _ => rfl
    · rw [if_neg hk, if_neg hk]
      rfl

/-- A declaration of relocated tokens is the relocated declaration. -/
theorem declaration_relocate (t : Token) (ts : List Token) :
    declaration (m.token stop) (m.token t) (ts.map m.token) =
      m.answer (m.phrase m.decl) (declaration stop t ts) := by
  unfold declaration
  rw [m.kind_token]
  split
  · unfold project name openBrace
    rw [expect_relocate]
    refine Relocation.answer_bind fun (n, ts) => ?_
    simp only [Relocation.phrase, Prod.map]
    rw [expect_relocate]
    refine Relocation.answer_bind fun (b, ts) => ?_
    simp only [Relocation.phrase, Prod.map]
    rw [settings_relocate]
    exact Relocation.answer_bind fun (d, ts) => rfl
  · unfold table name openBrace
    rw [expect_relocate]
    refine Relocation.answer_bind fun (n, ts) => ?_
    simp only [Relocation.phrase, Prod.map]
    rw [tableAlias_relocate]
    refine Relocation.answer_bind fun (a, ts) => ?_
    simp only [Relocation.phrase, Prod.map]
    rw [expect_relocate]
    refine Relocation.answer_bind fun (b, ts) => ?_
    simp only [Relocation.phrase, Prod.map]
    rw [columns_relocate]
    exact Relocation.answer_bind fun (cs, ts) => rfl
  · unfold enum name openBrace
    rw [expect_relocate]
    refine Relocation.answer_bind fun (n, ts) => ?_
    simp only [Relocation.phrase, Prod.map]
    rw [expect_relocate]
    refine Relocation.answer_bind fun (b, ts) => ?_
    simp only [Relocation.phrase, Prod.map]
    rw [values_relocate]
    exact Relocation.answer_bind fun (vs, ts) => rfl
  · exact misfit_relocate m stop m.decl _ (t :: ts)

theorem declarations_relocate (ts : List Token) :
    declarations (m.token stop) (ts.map m.token) =
      m.answer (List.map m.decl) (declarations stop ts) := by
  fun_induction declarations stop ts with
  | case1 =>
    rw [List.map_nil, declarations]
    rfl
  | case2 t ts d rest hd ih =>
    have hmoved := declaration_relocate m stop t ts
    rw [hd] at hmoved
    rw [List.map_cons, declarations_of_declaration hmoved, ih]
    exact Relocation.answer_map fun _ => rfl
  | case3 t ts e hd =>
    have hmoved := declaration_relocate m stop t ts
    rw [hd] at hmoved
    rw [List.map_cons, declarations]
    split <;> simp_all [Relocation.answer]

end Phrase

/-- When the tokens are moved, the document or the problem is moved with them. -/
theorem Document.ofTokens_relocate (m : Relocation) {ts : List Token}
    (h : ∃ t ∈ ts, t.isEof = true) :
    Document.ofTokens (ts.map m.token) = m.answer m.document (Document.ofTokens ts) := by
  obtain ⟨us, e, vs, rfl, hus, he⟩ := TokenList.exists_append h
  have hmoved : ∀ t ∈ us.map m.token, t.isEof = false := by
    intro t ht
    obtain ⟨u, hu, rfl⟩ := List.mem_map.1 ht
    exact hus u hu
  have hend : (m.token e).isEof = true := he
  unfold Document.ofTokens
  rw [List.map_append, List.map_cons, TokenList.ofTokens_append hmoved hend,
    TokenList.ofTokens_append hus he]
  simp only
  rw [Phrase.declarations_relocate]
  exact Relocation.answer_map fun _ => rfl

end Dbml
