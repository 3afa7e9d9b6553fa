/-!
# Cutting a text at its end mark

Two ways for a text to end: at the next occurrence of a mark (`cutAt`), or at the next quote that no
backslash escapes (`cutQuoted`). Either gives the part before the mark and the part after it, and
nothing when the mark does not occur. The parts and the mark make up the text again
(`append_of_cutAt`, `append_of_cutQuoted`).

Whether there is a quote to cut at can be told without cutting, by a scan that keeps one bit in mind
(`hasUnescaped`); the two agree (`isSome_cutQuoted`).
-/

namespace Dbml

/-- Cuts at the first occurrence of `mark`. -/
def cutAt (mark : List Char) : List Char → Option (List Char × List Char)
  | [] => none
  | c :: cs =>
    if mark.isPrefixOf (c :: cs) then some ([], (c :: cs).drop mark.length)
    else (cutAt mark cs).map fun (body, rest) => (c :: body, rest)

/-- Cuts at the first `quote` that is not escaped; a backslash escapes the character after it. -/
def cutQuoted (quote : Char) : List Char → Option (List Char × List Char)
  | [] => none
  | ['\\'] => none
  | '\\' :: c :: cs => (cutQuoted quote cs).map fun (body, rest) => ('\\' :: c :: body, rest)
  | c :: cs =>
    if c = quote then some ([], cs)
    else (cutQuoted quote cs).map fun (body, rest) => (c :: body, rest)

theorem append_of_cutAt {mark s body rest : List Char} (h : cutAt mark s = some (body, rest)) :
    s = body ++ mark ++ rest := by
  induction s generalizing body with
  | nil => simp [cutAt] at h
  | cons c cs ih =>
    rw [cutAt] at h
    split at h
    case isTrue hp =>
      obtain ⟨t, ht⟩ := List.isPrefixOf_iff_prefix.1 hp
      simp only [Option.some.injEq, Prod.mk.injEq] at h
      obtain ⟨rfl, rfl⟩ := h
      simp [← ht]
    case isFalse =>
      obtain ⟨⟨b, r⟩, hb, he⟩ := Option.map_eq_some_iff.1 h
      simp only [Prod.mk.injEq] at he
      obtain ⟨rfl, rfl⟩ := he
      simp [ih hb]

theorem append_of_cutQuoted {quote : Char} {s body rest : List Char}
    (h : cutQuoted quote s = some (body, rest)) : s = body ++ quote :: rest := by
  fun_induction cutQuoted quote s generalizing body with
  | case1 => simp at h
  | case2 => simp at h
  | case3 c cs ih =>
    obtain ⟨⟨b, r⟩, hb, he⟩ := Option.map_eq_some_iff.1 h
    simp only [Prod.mk.injEq] at he
    obtain ⟨rfl, rfl⟩ := he
    simp [ih hb]
  | case4 => simp_all
  | case5 c cs _ _ _ ih =>
    obtain ⟨⟨b, r⟩, hb, he⟩ := Option.map_eq_some_iff.1 h
    simp only [Prod.mk.injEq] at he
    obtain ⟨rfl, rfl⟩ := he
    simp [ih hb]

/-- Whether a scan meets a `quote` that is not escaped. The bit says whether a backslash has just
been met, so that the next character is escaped whatever it is. -/
def hasUnescapedFrom (quote : Char) : Bool → List Char → Bool
  | _, [] => false
  | true, _ :: cs => hasUnescapedFrom quote false cs
  | false, c :: cs =>
    if c = '\\' then hasUnescapedFrom quote true cs
    else if c = quote then true
    else hasUnescapedFrom quote false cs

/-- Whether a text holds a `quote` that no backslash escapes. -/
def hasUnescaped (quote : Char) (text : List Char) : Bool := hasUnescapedFrom quote false text

/-- In the last case of a scan with escapes, the character is no backslash. -/
theorem ne_backslash {c : Char} {cs : List Char} (hend : c = '\\' → cs = [] → False)
    (hesc : ∀ d ds, c = '\\' → cs = d :: ds → False) : c ≠ '\\' := by
  intro h
  cases cs with
  | nil => exact hend h rfl
  | cons d ds => exact hesc d ds h rfl

/-- The cut at a quote finds one just if the scan does. -/
theorem isSome_cutQuoted (quote : Char) (s : List Char) :
    (cutQuoted quote s).isSome = hasUnescaped quote s := by
  unfold hasUnescaped
  fun_induction cutQuoted quote s with
  | case1 => rfl
  | case2 => rfl
  | case3 c cs ih =>
    rw [Option.isSome_map, ih]
    rfl
  | case4 cs hend hesc =>
    have hc : quote ≠ '\\' := ne_backslash hend hesc
    simp [hasUnescapedFrom, hc]
  | case5 c cs hend hesc hq ih =>
    have hc : c ≠ '\\' := ne_backslash hend hesc
    rw [Option.isSome_map, ih]
    simp [hasUnescapedFrom, hc, hq]

end Dbml
