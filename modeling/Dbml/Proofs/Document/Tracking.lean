import Dbml.Proofs.Document.Cursor
import Dbml.Proofs.Document.TokenList

/-!
# Walks beside phrases

A walk moves a cursor over the whole list, a phrase cuts tokens off the front of those that are
left. The two are compared at an index: what the phrase is given there are the tokens from that
index up to the first end of the input (`EndsAt`). A walk tracks a phrase (`Tracks`) if it comes to
the same answer with the cursor before what the phrase has left, or to the same problem, and has on
its way looked neither behind the index where it began nor past the end.

Tracking goes over a sequence (`Tracks.bind`) and over a loop (`tracks_loop`). For a loop it is
enough to know one turn (`Turn`): it is the last one, or it has taken a token. As there are fewer
tokens than turns, the loop then comes to an end.
-/

namespace Dbml

/-- The next token: the first of those left, or the end when none is left. -/
def Phrase.front (stop : Token) (ts : List Token) : Token := ts.head?.getD stop

open Phrase (front)

/-! ## Lists with an end -/

/-- The list begins with the tokens `body` of a document and the token `stop` that ends it. -/
structure EndsAt (all body : List Token) (stop : Token) : Prop where
  split : ∃ rest, all = body ++ stop :: rest
  not_isEof : ∀ t ∈ body, t.isEof = false
  isEof_stop : stop.isEof = true

/-- Every list of tokens, with an end supplied where it has none, ends at the first one. -/
theorem endsAt_withEnd (ts : List Token) :
    EndsAt (withEnd ts) (TokenList.ofTokens ts).body (TokenList.ofTokens ts).stop :=
  ⟨exists_withEnd ts, fun _ => TokenList.not_isEof_of_mem_body, TokenList.isEof_stop ts⟩

namespace EndsAt

variable {all body : List Token} {stop : Token}

theorem length_lt (h : EndsAt all body stop) : body.length < all.length := by
  obtain ⟨rest, rfl⟩ := h.split
  simp only [List.length_append, List.length_cons]
  omega

theorem findIdx_eq (h : EndsAt all body stop) : all.findIdx Token.isEof = body.length := by
  obtain ⟨rest, rfl⟩ := h.split
  rw [List.findIdx_append, List.findIdx_eq_length_of_false h.not_isEof,
    if_neg (Nat.lt_irrefl _), List.findIdx_cons, h.isEof_stop]
  simp

theorem take_eq (h : EndsAt all body stop) {j : Nat} (hj : j ≤ body.length) :
    all.take j = body.take j := by
  obtain ⟨rest, rfl⟩ := h.split
  exact List.take_append_of_le_length hj

theorem kind_stop (h : EndsAt all body stop) : stop.kind = .eof := by
  simpa [Token.isEof] using h.isEof_stop

theorem kind_ne_eof (h : EndsAt all body stop) {t : Token} (ht : t ∈ body) : t.kind ≠ .eof := by
  simpa [Token.isEof] using h.not_isEof t ht

/-- A token stands at every index up to the end of the document. -/
theorem getElem?_eq (h : EndsAt all body stop) {i : Nat} (hi : i ≤ body.length) :
    all[i]? = some (front stop (body.drop i)) := by
  obtain ⟨rest, rfl⟩ := h.split
  rw [front, List.head?_drop]
  rcases Nat.lt_or_eq_of_le hi with hlt | rfl
  · rw [List.getElem?_append_left hlt, List.getElem?_eq_getElem hlt]
    rfl
  · simp

/-- What is no end of the input stands before the end of the document. -/
theorem lt_of_front (h : EndsAt all body stop) {i : Nat}
    (hfront : (front stop (body.drop i)).kind ≠ .eof) : i < body.length := by
  apply Nat.lt_of_not_le
  intro hle
  rw [List.drop_eq_nil_of_le hle] at hfront
  exact hfront h.kind_stop

end EndsAt

/-! ## Tracking -/

namespace Walk

variable {α β σ : Type} {all body : List Token} {stop : Token} {i k : Nat}

/-- An end that agrees with what a phrase makes of the tokens left at the index `i`: the same
problem, or the same answer with the cursor at least `k` tokens on, before what the phrase has left. -/
inductive Comes (body : List Token) (i k : Nat) :
    Except Problem (α × List Token) → Ending α → Prop
  | answer {a : α} {j : Nat} (hij : i + k ≤ j) (hj : j ≤ body.length) :
    Comes body i k (.ok (a, body.drop j)) (.answer a j)
  | problem (e : Problem) : Comes body i k (.error e) (.problem e)

/-- What a run can come to: an answer at least so many tokens further and not behind the end, or a
problem; never out of bounds or out of turns. -/
theorem Comes.inv {result : Except Problem (α × List Token)} {ending : Ending α}
    (h : Comes body i k result ending) :
    (∃ a j, result = .ok (a, body.drop j) ∧ ending = .answer a j ∧ i + k ≤ j ∧ j ≤ body.length) ∨
      ∃ e, result = .error e ∧ ending = .problem e := by
  cases h with
  | answer hij hj => exact .inl ⟨_, _, rfl, rfl, hij, hj⟩
  | problem e => exact .inr ⟨e, rfl, rfl⟩

/-- All looks are from the index `i` on and not past the end of the document. -/
def LooksFrom (body : List Token) (i : Nat) (looks : List Nat) : Prop :=
  ∀ l ∈ looks, i ≤ l ∧ l ≤ body.length

/-- A run from the index `i` that agrees with what a phrase makes of the tokens left there. -/
structure Tracks (body : List Token) (i k : Nat) (run : Run α)
    (result : Except Problem (α × List Token)) : Prop where
  looks : LooksFrom body i run.looks
  ending : Comes body i k result run.ending

/-- Two walks one after the other: the second starts where the first ends. -/
theorem run_bind (x : Walk α) (f : α → Walk β) (all : List Token) (i : Nat) :
    (x >>= f).run all i = (x.run all i).andThen fun a j => (f a).run all j := rfl

/-- Once the first walk has an answer the looks are those of both, and the ending is that of the
second. -/
theorem run_bind_of_answer {x : Walk α} {f : α → Walk β} {looks : List Nat} {a : α} {j : Nat}
    (h : x.run all i = ⟨looks, .answer a j⟩) :
    (x >>= f).run all i = ⟨looks ++ ((f a).run all j).looks, ((f a).run all j).ending⟩ := by
  rw [run_bind, h]
  rfl

theorem looksFrom_nil : LooksFrom body i [] := nofun

/-- To look where one is, at the end at most, keeps all looks in bounds. -/
theorem looksFrom_cons (hi : i ≤ body.length) {looks : List Nat} (h : LooksFrom body i looks) :
    LooksFrom body i (i :: looks) := by
  intro l hl
  rcases List.mem_cons.1 hl with rfl | hl
  · exact ⟨Nat.le_refl _, hi⟩
  · exact h l hl

namespace Tracks

variable {run : Run α} {result : Except Problem (α × List Token)}

/-- A run that goes on at the index `j`, after some looks on the way there. -/
theorem after {looks : List Nat} {j m : Nat} (h : Tracks body j m run result)
    (hlooks : LooksFrom body i looks) (hij : i ≤ j) (hk : i + k ≤ j + m) :
    Tracks body i k ⟨looks ++ run.looks, run.ending⟩ result := by
  obtain ⟨looks', ending⟩ := run
  refine ⟨fun l hl => ?_, ?_⟩
  · rcases List.mem_append.1 hl with hl | hl
    · exact hlooks l hl
    · have := h.looks l hl
      omega
  · cases h.ending with
    | answer hjm hm => exact .answer (by omega) hm
    | problem e => exact .problem e

/-- An answer that takes nothing is tracked from anywhere in the body. -/
theorem answer (a : α) (hi : i ≤ body.length) :
    Tracks body i 0 ((pure a : Walk α).run all i) (.ok (a, body.drop i)) :=
  ⟨looksFrom_nil, .answer (Nat.le_refl i) hi⟩

/-- A sequence of walks beside a sequence of phrases. -/
theorem bind {x : Walk α} {f : α → Walk β} {g : α × List Token → Except Problem (β × List Token)}
    (hx : Tracks body i k (x.run all i) result)
    (hf : ∀ a j, i + k ≤ j → j ≤ body.length →
      Tracks body j 0 ((f a).run all j) (g (a, body.drop j))) :
    Tracks body i k ((x >>= f).run all i) (result >>= g) := by
  rw [run_bind]
  obtain ⟨hlooks, hending⟩ := hx
  generalize x.run all i = run at hlooks hending
  obtain ⟨looks, ending⟩ := run
  cases hending with
  | problem e => exact ⟨hlooks, .problem e⟩
  | @answer a j hij hj => exact (hf a j hij hj).after hlooks (by omega) (by omega)

/-- The same, where it does not matter how many tokens were taken. -/
theorem andThen {x : Walk α} {f : α → Walk β}
    {g : α × List Token → Except Problem (β × List Token)} (hx : Tracks body i k (x.run all i) result)
    (hf : ∀ a j, i + k ≤ j → j ≤ body.length →
      Tracks body j 0 ((f a).run all j) (g (a, body.drop j))) :
    Tracks body i 0 ((x >>= f).run all i) (result >>= g) :=
  (hx.bind hf).after looksFrom_nil (Nat.le_refl i) (by omega)

end Tracks

/-! ## The cursor -/

section Cursor

variable {result : Except Problem (β × List Token)} {kind : Kind}

/-- To look at the token at the cursor is to look at the front of what is left, or at the end. -/
theorem run_peek (h : EndsAt all body stop) (hi : i ≤ body.length) :
    peek.run all i = ⟨[i], .answer (front stop (body.drop i)) i⟩ := by
  simp only [peek, h.getElem?_eq hi]

/-- To take a token that is not the end moves the cursor by one. -/
theorem run_advance (h : EndsAt all body stop)
    (hfront : (front stop (body.drop i)).kind ≠ .eof) :
    advance.run all i = ⟨[i], .answer (front stop (body.drop i)) (i + 1)⟩ := by
  have hi := h.lt_of_front hfront
  have hnot : (front stop (body.drop i)).isEof = false := by
    simpa [Token.isEof] using hfront
  simp [advance, h.getElem?_eq (Nat.le_of_lt hi), hnot]

/-- A token of the kind asked for is taken, after it has been looked at. -/
theorem run_eat_some (h : EndsAt all body stop) (hkind : kind ≠ .eof)
    (hfront : (front stop (body.drop i)).kind = kind) :
    (eat kind).run all i = ⟨[i, i], .answer (some (front stop (body.drop i))) (i + 1)⟩ := by
  have hne : (front stop (body.drop i)).kind ≠ .eof := ne_of_eq_of_ne hfront hkind
  rw [eat, run_bind_of_answer (run_peek h (Nat.le_of_lt (h.lt_of_front hne))), if_pos hfront,
    run_bind_of_answer (run_advance h hne)]
  rfl

/-- A token of another kind is only looked at. -/
theorem run_eat_none (h : EndsAt all body stop) (hi : i ≤ body.length)
    (hfront : (front stop (body.drop i)).kind ≠ kind) :
    (eat kind).run all i = ⟨[i], .answer none i⟩ := by
  rw [eat, run_bind_of_answer (run_peek h hi), if_neg hfront]
  rfl

theorem tracks_peek (h : EndsAt all body stop) (hi : i ≤ body.length) {f : Token → Walk β}
    (hf : Tracks body i k ((f (front stop (body.drop i))).run all i) result) :
    Tracks body i k ((peek >>= f).run all i) result := by
  rw [run_bind_of_answer (run_peek h hi)]
  exact hf.after (looksFrom_cons hi looksFrom_nil) (Nat.le_refl i) (Nat.le_refl _)

/-- To take a token first is one step of progress, and what follows is tracked from behind it. -/
theorem tracks_advance (h : EndsAt all body stop) (hkind : kind ≠ .eof)
    (hfront : (front stop (body.drop i)).kind = kind) {f : Token → Walk β}
    (hf : i + 1 ≤ body.length →
      Tracks body (i + 1) 0 ((f (front stop (body.drop i))).run all (i + 1)) result) :
    Tracks body i 1 ((advance >>= f).run all i) result := by
  have hne : (front stop (body.drop i)).kind ≠ .eof := ne_of_eq_of_ne hfront hkind
  have hi := h.lt_of_front hne
  rw [run_bind_of_answer (run_advance h hne)]
  exact (hf hi).after (looksFrom_cons (Nat.le_of_lt hi) looksFrom_nil) (Nat.le_succ i)
    (Nat.le_refl _)

/-- The problem is the one that a phrase has with the next token. -/
theorem tracks_unexpected (h : EndsAt all body stop) (hi : i ≤ body.length) (words : String) :
    Tracks body i k ((unexpected words : Walk β).run all i)
      (.error (.insteadOf words (front stop (body.drop i)))) :=
  tracks_peek h hi ⟨looksFrom_nil, .problem _⟩

/-- A token of the given kind is taken, or the cursor stays; the walk goes on from there. -/
theorem tracks_eat (h : EndsAt all body stop) (hi : i ≤ body.length) (hkind : kind ≠ .eof)
    (hk : k ≤ 1) {f : Option Token → Walk β}
    (hsome : (front stop (body.drop i)).kind = kind → i + 1 ≤ body.length →
      Tracks body (i + 1) 0 ((f (some (front stop (body.drop i)))).run all (i + 1)) result)
    (hnone : (front stop (body.drop i)).kind ≠ kind → Tracks body i k ((f none).run all i) result) :
    Tracks body i k ((eat kind >>= f).run all i) result := by
  have hlook : LooksFrom body i [i] := looksFrom_cons hi looksFrom_nil
  by_cases hfront : (front stop (body.drop i)).kind = kind
  · have hlt : i < body.length := h.lt_of_front (ne_of_eq_of_ne hfront hkind)
    rw [run_bind_of_answer (run_eat_some h hkind hfront)]
    exact (hsome hfront hlt).after (looksFrom_cons hi hlook) (Nat.le_succ i) (by omega)
  · rw [run_bind_of_answer (run_eat_none h hi hfront)]
    exact (hnone hfront).after hlook (Nat.le_refl i) (Nat.le_refl _)

end Cursor

/-! ## Loops -/

section Loops

variable {phrase : σ → List Token → Except Problem (α × List Token)}

/-- The ends of a turn that began at the index `i`, beside a phrase that reads what the loop reads.
A turn that is not the last has taken a token, and leaves the phrase with the same to read. -/
inductive TurnEnds (body : List Token) (phrase : σ → List Token → Except Problem (α × List Token))
    (s : σ) (i : Nat) : Ending (σ ⊕ α) → Prop
  | exits {a : α} {j : Nat} (hij : i ≤ j) (hj : j ≤ body.length)
    (h : phrase s (body.drop i) = .ok (a, body.drop j)) : TurnEnds body phrase s i (.answer (.inr a) j)
  | fails {e : Problem} (h : phrase s (body.drop i) = .error e) :
    TurnEnds body phrase s i (.problem e)
  | goesOn {s' : σ} {j : Nat} (hij : i < j) (hj : j ≤ body.length)
    (h : phrase s (body.drop i) = phrase s' (body.drop j)) :
    TurnEnds body phrase s i (.answer (.inl s') j)

/-- A turn from the index `i` on. -/
structure Turn (body : List Token) (phrase : σ → List Token → Except Problem (α × List Token))
    (s : σ) (i : Nat) (run : Run (σ ⊕ α)) : Prop where
  looks : LooksFrom body i run.looks
  ending : TurnEnds body phrase s i run.ending

/-- What comes after a turn: the loop again, or its answer. -/
def resume (phrase : σ → List Token → Except Problem (α × List Token)) :
    (σ ⊕ α) × List Token → Except Problem (α × List Token)
  | (.inl s, ts) => phrase s ts
  | (.inr a, ts) => .ok (a, ts)

/-- A turn that is tracked and that the phrase can be unrolled by is a turn of the phrase. -/
theorem Tracks.turn {s : σ} {run : Run (σ ⊕ α)} {result : Except Problem ((σ ⊕ α) × List Token)}
    (h : Tracks body i 1 run result)
    (heq : phrase s (body.drop i) = result >>= resume phrase) : Turn body phrase s i run := by
  obtain ⟨looks, ending⟩ := run
  refine ⟨h.looks, ?_⟩
  cases h.ending with
  | problem e => exact .fails heq
  | @answer x j hij hj =>
    cases x with
    | inl s' => exact .goesOn hij hj heq
    | inr a => exact .exits (by omega) hj heq

/-- **Loops are tracked.** If every turn is one of the phrase, as many turns as there are tokens
left and one more are enough. -/
theorem tracks_turns {turn : σ → Walk (σ ⊕ α)}
    (hturn : ∀ s i, i ≤ body.length → Turn body phrase s i ((turn s).run all i)) (n : Nat) (s : σ)
    (hi : i ≤ body.length) (hn : body.length - i < n) :
    Tracks body i 0 ((turns turn n s).run all i) (phrase s (body.drop i)) := by
  -- a turn that is not the last leaves fewer tokens, so there are still more turns than tokens
  induction n generalizing s i with
  | zero => omega
  | succ n ih =>
    obtain ⟨hlooks, hending⟩ := hturn s i hi
    rw [turns, run_bind]
    generalize (turn s).run all i = run at hlooks hending
    obtain ⟨looks, ending⟩ := run
    cases hending with
    | fails h =>
      rw [h]
      exact ⟨hlooks, .problem _⟩
    | @exits a j hij hj h =>
      rw [h]
      exact (Tracks.answer a hj).after hlooks hij (by omega)
    | @goesOn s' j hij hj h =>
      rw [h]
      exact (ih s' hj (by omega)).after hlooks (Nat.le_of_lt hij) (by omega)

/-- A loop reads what the phrase reads that each of its turns reads a part of. -/
theorem tracks_loop (h : EndsAt all body stop) {turn : σ → Walk (σ ⊕ α)}
    (hturn : ∀ s i, i ≤ body.length → Turn body phrase s i ((turn s).run all i)) (s : σ)
    (hi : i ≤ body.length) : Tracks body i 0 ((loop turn s).run all i) (phrase s (body.drop i)) := by
  have := h.length_lt
  exact tracks_turns hturn all.length s hi (by omega)

end Loops

end Walk

end Dbml
