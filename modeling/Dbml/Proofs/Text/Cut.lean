import Dbml.Text.Cut

/-!
# What a cut finds

A run of characters of one class ends where a character of another class, or nothing, follows
(`Clear`).

Both cuts are determined by the part before the mark. A quoted body is a text that leaves no escape
pending and holds no quote of its own (`IsQuotedBody`); a text stands before the first occurrence of
a mark if the mark begins nowhere inside it (`FirstAt`). `cutQuoted_eq_some_iff` and
`cutAt_eq_some_iff` say that the cuts accept exactly these bodies, whatever follows the mark. What a
quoted body may not hold is said of its unescaped characters (`isQuotedBody_iff`); without such a
character, and without an occurrence of the mark, the cuts fail (`cutQuoted_eq_none_iff`,
`cutAt_eq_none_iff`).
-/

namespace Dbml

/-! ## Runs of characters -/

/-- No character of class `p` stands at the front of the text. -/
def Clear (p : Char → Bool) : List Char → Prop
  | [] => True
  | c :: _ => p c = false

@[simp] theorem clear_nil (p : Char → Bool) : Clear p [] := trivial

@[simp] theorem clear_cons {p : Char → Bool} {c : Char} {cs : List Char} :
    Clear p (c :: cs) ↔ p c = false := Iff.rfl

theorem clear_dropWhile (p : Char → Bool) (s : List Char) : Clear p (s.dropWhile p) := by
  induction s with
  | nil => exact clear_nil p
  | cons c cs ih =>
    rw [List.dropWhile_cons]
    split
    · exact ih
    · rename_i h
      exact Bool.eq_false_iff.2 h

theorem Clear.of_append {p : Char → Bool} {s t : List Char} (h : Clear p (s ++ t)) : Clear p s := by
  cases s with
  | nil => exact clear_nil p
  | cons c cs => exact h

theorem takeWhile_append_of_clear {p : Char → Bool} {s t : List Char} (hs : ∀ c ∈ s, p c = true)
    (ht : Clear p t) : (s ++ t).takeWhile p = s := by
  rw [List.takeWhile_append_of_pos hs]
  cases t with
  | nil => simp
  | cons c cs => rw [List.takeWhile_cons, if_neg (by rw [clear_cons.1 ht]; simp), List.append_nil]

theorem dropWhile_append_of_clear {p : Char → Bool} {s t : List Char} (hs : ∀ c ∈ s, p c = true)
    (ht : Clear p t) : (s ++ t).dropWhile p = t := by
  rw [List.dropWhile_append_of_pos hs]
  cases t with
  | nil => rfl
  | cons c cs => rw [List.dropWhile_cons, if_neg (by rw [clear_cons.1 ht]; simp)]

theorem mem_takeWhile {p : Char → Bool} {s : List Char} : ∀ c ∈ s.takeWhile p, p c = true :=
  List.all_eq_true.1 List.all_takeWhile

/-! ## Quoted bodies -/

/-- Whether no backslash at the end of a text waits for a character to escape. -/
def escapeComplete : List Char → Bool
  | [] => true
  | ['\\'] => false
  | '\\' :: _ :: cs => escapeComplete cs
  | _ :: cs => escapeComplete cs

/-- The texts that can stand between two `quote` marks. -/
def IsQuotedBody (quote : Char) (body : List Char) : Prop :=
  escapeComplete body = true ∧ hasUnescaped quote body = false

instance (quote : Char) (body : List Char) : Decidable (IsQuotedBody quote body) :=
  inferInstanceAs (Decidable (_ ∧ _))

/-- Away from backslashes the cut looks at one character at a time. -/
theorem cutQuoted_cons {quote c : Char} (hc : c ≠ '\\') (cs : List Char) :
    cutQuoted quote (c :: cs) =
      if c = quote then some ([], cs)
      else (cutQuoted quote cs).map fun (body, rest) => (c :: body, rest) :=
  cutQuoted.eq_4 quote c cs (fun h _ => hc h) (fun _ _ h _ => hc h)

theorem escapeComplete_cons {c : Char} (hc : c ≠ '\\') (cs : List Char) :
    escapeComplete (c :: cs) = escapeComplete cs :=
  escapeComplete.eq_4 c cs (fun h _ => hc h) (fun _ _ h _ => hc h)

@[simp] theorem isQuotedBody_nil (quote : Char) : IsQuotedBody quote [] := ⟨rfl, rfl⟩

/-- An escaped character may be any character, the quote too. -/
theorem isQuotedBody_escape {quote c : Char} {cs : List Char} :
    IsQuotedBody quote ('\\' :: c :: cs) ↔ IsQuotedBody quote cs := by
  simp [IsQuotedBody, escapeComplete, hasUnescaped, hasUnescapedFrom]

theorem isQuotedBody_cons {quote c : Char} {cs : List Char} (hc : c ≠ '\\') :
    IsQuotedBody quote (c :: cs) ↔ c ≠ quote ∧ IsQuotedBody quote cs := by
  unfold IsQuotedBody hasUnescaped
  rw [escapeComplete_cons hc, hasUnescapedFrom, if_neg hc]
  by_cases hq : c = quote
  · simp [hq]
  · simp [hq]

/-- A backslash at the end would escape the quote that closes. -/
theorem not_isQuotedBody_backslash {quote : Char} : ¬ IsQuotedBody quote ['\\'] := by
  simp [IsQuotedBody, escapeComplete]

theorem isQuotedBody_of_cutQuoted {quote : Char} {s body rest : List Char}
    (h : cutQuoted quote s = some (body, rest)) : IsQuotedBody quote body := by
  fun_induction cutQuoted quote s generalizing body with
  | case1 => simp at h
  | case2 => simp at h
  | case3 c cs ih =>
    obtain ⟨⟨b, r⟩, hb, he⟩ := Option.map_eq_some_iff.1 h
    simp only [Prod.mk.injEq] at he
    obtain ⟨rfl, rfl⟩ := he
    exact isQuotedBody_escape.2 (ih hb)
  | case4 => simp_all
  | case5 c cs hend hesc hq ih =>
    obtain ⟨⟨b, r⟩, hb, he⟩ := Option.map_eq_some_iff.1 h
    simp only [Prod.mk.injEq] at he
    obtain ⟨rfl, rfl⟩ := he
    have hc : c ≠ '\\' := ne_backslash hend hesc
    exact (isQuotedBody_cons hc).2 ⟨hq, ih hb⟩

/-- A quoted body is cut off at the quote after it, whatever follows. -/
theorem cutQuoted_append {quote : Char} (hq : quote ≠ '\\') {body : List Char}
    (h : IsQuotedBody quote body) (rest : List Char) :
    cutQuoted quote (body ++ quote :: rest) = some (body, rest) := by
  fun_induction escapeComplete body with
  | case1 => simp [cutQuoted_cons hq]
  | case2 => exact absurd h not_isQuotedBody_backslash
  | case3 c cs ih =>
    have hbody := ih (isQuotedBody_escape.1 h)
    simp [cutQuoted, hbody]
  | case4 c cs hend hesc ih =>
    have hc : c ≠ '\\' := ne_backslash hend hesc
    obtain ⟨hne, hcs⟩ := (isQuotedBody_cons hc).1 h
    rw [List.cons_append, cutQuoted_cons hc, ih hcs]
    simp [hne]

/-- The cut at an unescaped quote accepts the quoted bodies and nothing else. -/
theorem cutQuoted_eq_some_iff {quote : Char} (hq : quote ≠ '\\') {s body rest : List Char} :
    cutQuoted quote s = some (body, rest) ↔ IsQuotedBody quote body ∧ s = body ++ quote :: rest := by
  constructor
  · intro h
    exact ⟨isQuotedBody_of_cutQuoted h, append_of_cutQuoted h⟩
  · rintro ⟨hbody, rfl⟩
    exact cutQuoted_append hq hbody rest

/-! ## Unescaped characters -/

/-- The characters of a text that stand for themselves: those that no backslash escapes, and no
backslash. -/
def unescaped : List Char → List Char
  | [] => []
  | ['\\'] => []
  | '\\' :: _ :: cs => unescaped cs
  | c :: cs => c :: unescaped cs

/-- The scan for an unescaped quote finds one if there is one among the unescaped characters. -/
theorem hasUnescaped_iff {quote : Char} {s : List Char} :
    hasUnescaped quote s = true ↔ quote ∈ unescaped s := by
  rw [← isSome_cutQuoted]
  fun_induction unescaped s with
  | case1 => simp [cutQuoted]
  | case2 => simp [cutQuoted]
  | case3 c cs ih => simp [cutQuoted, ih]
  | case4 c cs hend hesc ih =>
    rw [cutQuoted_cons (ne_backslash hend hesc), List.mem_cons, ← ih]
    by_cases hq : c = quote
    · simp [hq]
    · simp [hq, Ne.symm hq]

/-- The cut at an unescaped quote fails on the texts that hold none. -/
theorem cutQuoted_eq_none_iff {quote : Char} {s : List Char} :
    cutQuoted quote s = none ↔ quote ∉ unescaped s := by
  rw [← hasUnescaped_iff, ← isSome_cutQuoted]
  simp

/-- A quoted body by its characters: no escape is pending at its end, and no unescaped one is the
quote. -/
theorem isQuotedBody_iff {quote : Char} {body : List Char} :
    IsQuotedBody quote body ↔ escapeComplete body = true ∧ quote ∉ unescaped body := by
  unfold IsQuotedBody
  rw [← hasUnescaped_iff, Bool.not_eq_true]

/-! ## Texts before a mark -/

/-- The first place in `body ++ mark` where `mark` begins is the end of `body`. -/
def FirstAt (mark body : List Char) : Prop :=
  ∀ i < body.length, ¬ mark <+: (body ++ mark).drop i

instance (mark body : List Char) : Decidable (FirstAt mark body) :=
  inferInstanceAs (Decidable (∀ i < body.length, ¬ mark <+: (body ++ mark).drop i))

theorem firstAt_nil (mark : List Char) : FirstAt mark [] := by
  intro i hi
  simp at hi

/-- A text stands before the first mark if the mark begins neither at its front nor further on. -/
theorem firstAt_cons {mark body : List Char} {c : Char} :
    FirstAt mark (c :: body) ↔ ¬ mark <+: c :: body ++ mark ∧ FirstAt mark body := by
  constructor
  · intro h
    refine ⟨h 0 (by simp), fun i hi => ?_⟩
    simpa using h (i + 1) (by simpa using hi)
  · rintro ⟨h0, h⟩ i hi
    cases i with
    | zero => exact h0
    | succ i => simpa using h i (by simpa using hi)

/-- Whether a mark begins at some place is settled within the length of the mark. -/
theorem prefix_append_iff {mark s t : List Char} (h : mark.length ≤ s.length) :
    mark <+: s ++ t ↔ mark <+: s :=
  ⟨fun hp => List.prefix_of_prefix_length_le hp (List.prefix_append s t) h,
    fun hp => hp.trans (List.prefix_append s t)⟩

/-- What is cut off at a mark stands before its first occurrence. -/
theorem firstAt_of_cutAt {mark s body rest : List Char} (h : cutAt mark s = some (body, rest)) :
    FirstAt mark body := by
  induction s generalizing body with
  | nil => simp [cutAt] at h
  | cons c cs ih =>
    rw [cutAt] at h
    split at h
    · simp only [Option.some.injEq, Prod.mk.injEq] at h
      rw [← h.1]
      exact firstAt_nil mark
    · rename_i hp
      obtain ⟨⟨b, r⟩, hb, he⟩ := Option.map_eq_some_iff.1 h
      simp only [Prod.mk.injEq] at he
      obtain ⟨rfl, rfl⟩ := he
      refine firstAt_cons.2 ⟨fun hpre => hp ?_, ih hb⟩
      rw [List.isPrefixOf_iff_prefix, append_of_cutAt hb]
      simpa using hpre.trans (List.prefix_append _ r)

/-- A text that stands before the first mark is cut off there, whatever follows. -/
theorem cutAt_append {mark : List Char} (hmark : mark ≠ []) {body : List Char}
    (h : FirstAt mark body) (rest : List Char) :
    cutAt mark (body ++ mark ++ rest) = some (body, rest) := by
  induction body with
  | nil =>
    obtain ⟨m, ms, rfl⟩ := List.exists_cons_of_ne_nil hmark
    simp [cutAt]
  | cons c body ih =>
    obtain ⟨hfirst, hbody⟩ := firstAt_cons.1 h
    have hp : ¬ mark <+: (c :: body ++ mark) ++ rest := by
      rw [prefix_append_iff (by simp; omega)]
      exact hfirst
    have hcut := ih hbody
    simp only [List.cons_append] at hp ⊢
    rw [cutAt, if_neg (fun h => hp (List.isPrefixOf_iff_prefix.1 h)), hcut]
    rfl

/-- The cut at a mark accepts the texts that stand before its first occurrence. -/
theorem cutAt_eq_some_iff {mark : List Char} (hmark : mark ≠ []) {s body rest : List Char} :
    cutAt mark s = some (body, rest) ↔ FirstAt mark body ∧ s = body ++ mark ++ rest := by
  constructor
  · intro h
    exact ⟨firstAt_of_cutAt h, append_of_cutAt h⟩
  · rintro ⟨hbody, rfl⟩
    exact cutAt_append hmark hbody rest

/-- The cut at a mark fails on the texts that do not hold it. -/
theorem cutAt_eq_none_iff {mark : List Char} (hmark : mark ≠ []) {s : List Char} :
    cutAt mark s = none ↔ ¬ mark <:+: s := by
  induction s with
  | nil => simp [cutAt, hmark]
  | cons c cs ih =>
    rw [cutAt, List.infix_cons_iff, ← List.isPrefixOf_iff_prefix]
    split
    · rename_i hp
      simp [hp]
    · rename_i hp
      simp [hp, ih]

/-- Before a mark of one character stand the texts without that character. -/
theorem firstAt_singleton_iff {m : Char} {body : List Char} : FirstAt [m] body ↔ m ∉ body := by
  induction body with
  | nil => simp [firstAt_nil]
  | cons c body ih =>
    rw [firstAt_cons, ih]
    simp

end Dbml
