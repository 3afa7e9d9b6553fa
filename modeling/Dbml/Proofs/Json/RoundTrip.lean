import Dbml.Json.Writer
import Dbml.Proofs.Json.Spelling

/-!
# Reading what was written

What is written for a value spells it, over lines or without blanks (`Value.Plain.spelling_layout`,
`Value.Plain.spelling_compact`), so it is read back (`Value.parse?_pretty`, `Value.parse?_compact`).
Numbers keep their written form, so this is said of values whose numbers are whole (`Value.Plain`);
all that is ever written are such values.

The two layouts differ in the blanks alone, so items and members are one case for both: texts with
commas between them and blanks before each (`separated_commas`).
-/

namespace Dbml.Json

/-! ## Strings -/

theorem hexValue?_hexDigit {n : Nat} (h : n < 16) : hexValue? (hexDigit n) = some n := by
  have hall : ∀ n < 16, hexValue? (hexDigit n) = some n := by
    decide
  exact hall n h

/-- However a character is escaped, or if it is not, what is written spells its code point. -/
theorem unitSpelling_escape (c : Char) : UnitSpelling c.toNat (escape c) := by
  unfold escape
  split
  case isTrue h => subst h; exact .letter (by simp [letterEscapes])
  case isFalse hquote =>
  split
  case isTrue h => subst h; exact .letter (by simp [letterEscapes])
  case isFalse hbackslash =>
  split
  case isTrue h => subst h; exact .letter (by simp [letterEscapes])
  split
  case isTrue h => subst h; exact .letter (by simp [letterEscapes])
  split
  case isTrue h => subst h; exact .letter (by simp [letterEscapes])
  split
  case isTrue h => subst h; exact .letter (by simp [letterEscapes])
  split
  case isTrue h => subst h; exact .letter (by simp [letterEscapes])
  split
  case isTrue h =>
    have hzero : hexValue? '0' = some 0 := rfl
    apply UnitSpelling.hex
    simp only [hexNumber?, List.foldlM, hzero,
      hexValue?_hexDigit (show c.toNat / 16 < 16 by omega),
      hexValue?_hexDigit (show c.toNat % 16 < 16 by omega), Option.map_some, Option.bind_eq_bind,
      Option.bind_some, Option.pure_def, Option.some.injEq]
    omega
  case isFalse h => exact .char hquote hbackslash (Nat.le_of_not_lt h)

theorem unitsSpelling_flatMap_escape (cs : List Char) :
    UnitsSpelling (cs.map Char.toNat) (cs.flatMap escape) := by
  induction cs with
  | nil => exact .nil
  | cons c cs ih => exact .cons (unitSpelling_escape c) ih

/-- The code points of a text are decoded to the text, since no character is half of a pair. -/
theorem decodes_map_toNat (cs : List Char) : Decodes (cs.map Char.toNat) cs := by
  induction cs with
  | nil => exact .nil
  | cons c cs ih => exact .char ih

/-- Half of a surrogate pair alone stands for no characters. -/
theorem not_decodes_half (cs : List Char) : ¬ Decodes [0xd800] cs := by
  generalize hn : 0xd800 = n
  intro h
  cases h with
  | @char c =>
    have := (not_isSurrogate c).1
    rw [← hn] at this
    cases this

/-- A string in quotes is spelled by what stands between them. -/
theorem exists_quote (s : Option String) :
    ∃ t, (quote s).toList = '"' :: (t ++ ['"']) ∧ StringSpelling s t := by
  cases s with
  | none =>
    refine ⟨['\\', 'u', 'd', '8', '0', '0'], by simp [quote], ?_⟩
    exact .none (.cons (.hex rfl) .nil) not_decodes_half
  | some s =>
    refine ⟨s.toList.flatMap escape, by simp [quote], ?_⟩
    exact .some (unitsSpelling_flatMap_escape s.toList) (decodes_map_toNat s.toList)

/-! ## Numbers -/

/-- A number is written with digits, of which the first is a zero for zero alone. -/
theorem exists_toDigits (n : Nat) :
    ∃ d ds, Nat.toDigits 10 n = d :: ds ∧ d.isDigit = true ∧ (d = '0' → n = 0) := by
  induction n using Nat.strongRecOn with
  | _ n ih =>
    by_cases h : n < 10
    · refine ⟨n.digitChar, [], Nat.toDigits_of_lt_base h, ?_, Nat.digitChar_eq_zero.1⟩
      rw [Nat.isDigit_digitChar]
      exact decide_eq_true h
    · obtain ⟨d, ds, hd, hdigit, hzero⟩ := ih (n / 10) (by omega)
      refine ⟨d, ds ++ [(n % 10).digitChar], ?_, hdigit, ?_⟩
      · rw [Nat.toDigits_of_base_le (by decide) (by omega), hd]
        rfl
      · intro h0
        have := hzero h0
        omega

/-- The digits of a number are a number of the grammar: there is no zero in front. -/
theorem isNumber_toDigits (n : Nat) : IsNumber (Nat.toDigits 10 n) := by
  refine ⟨[], Nat.toDigits 10 n, [], [], by simp, .inl rfl, ?_, .inl rfl, .inl rfl⟩
  by_cases hn : n = 0
  · subst hn
    exact .inl rfl
  · refine .inr ⟨⟨Nat.toDigits_ne_nil, ?_⟩, ?_⟩
    · intro d hd
      exact Nat.isDigit_of_mem_toDigits (b := 10) (by decide) (by decide) hd
    · obtain ⟨d, ds, hd, -, hzero⟩ := exists_toDigits n
      rw [hd]
      intro hhead
      exact hn (hzero (Option.some.inj hhead))

theorem spelling_nat (n : Nat) : Spelling (.nat n) (toString n).toList := by
  have htext : String.ofList (Nat.toDigits 10 n) = toString n := by
    rw [Nat.toString_eq_repr, Nat.repr_eq_ofList_toDigits]
  have hnumber := Spelling.number (isNumber_toDigits n)
  rwa [htext, ← String.toList_ofList (l := Nat.toDigits 10 n), htext] at hnumber

/-! ## Texts with commas between them -/

/-- Texts with commas between them and the same text before each. -/
def commas (before : String) : List String → String
  | [] => ""
  | [s] => before ++ s
  | s :: ss => before ++ s ++ "," ++ commas before ss

/-- A function that writes its items one by one with commas between them. -/
theorem eq_commas {α : Type} {f : List α → String} {before : String} {text : α → String}
    (hnil : f [] = "") (hlast : ∀ a, f [a] = before ++ text a)
    (hcons : ∀ a b as, f (a :: b :: as) = before ++ text a ++ "," ++ f (b :: as)) (as : List α) :
    f as = commas before (as.map text) := by
  induction as with
  | nil => exact hnil
  | cons a as ih =>
    cases as with
    | nil => exact hlast a
    | cons b as =>
      rw [hcons, ih]
      rfl

/-- A member of an object: a key, a colon and, after a gap, the text of the value. -/
def memberText (gap : String) (key : Option String) (value : String) : String :=
  quote key ++ ":" ++ gap ++ value

theorem layoutItems_eq (level : Nat) (vs : List Value) :
    layoutItems level vs = commas (indent level) (vs.map (Value.layout level)) := by
  apply eq_commas
  · rw [layoutItems]
  · intro v
    rw [layoutItems]
  · intro v w vs
    rw [layoutItems]
    simp

/-- Members are laid out one to a line, with commas between them. -/
theorem layoutMembers_eq (level : Nat) (ms : List (Option String × Value)) :
    layoutMembers level ms =
      commas (indent level) (ms.map fun m => memberText " " m.1 (m.2.layout level)) := by
  have hcolon : ": " = ":" ++ " " := rfl
  apply eq_commas
  · rw [layoutMembers]
  · intro m
    simp only [layoutMembers, memberText, hcolon, String.append_assoc]
  · intro m n ms
    simp only [layoutMembers, memberText, hcolon, String.append_assoc]

theorem compactItems_eq (vs : List Value) :
    compactItems vs = commas "" (vs.map Value.compact) := by
  apply eq_commas
  · rw [compactItems]
  · intro v
    rw [compactItems, String.empty_append]
  · intro v w vs
    rw [compactItems, String.empty_append]
    simp

theorem compactMembers_eq (ms : List (Option String × Value)) :
    compactMembers ms = commas "" (ms.map fun m => memberText "" m.1 m.2.compact) := by
  apply eq_commas
  · rw [compactMembers]
  · intro m
    simp only [compactMembers, memberText, String.empty_append, String.append_empty]
  · intro m n ms
    simp only [compactMembers, memberText, String.empty_append, String.append_empty]

/-- What is written with commas between is separated as the grammar has it. -/
theorem separated_commas {α : Type} {P : α → List Char → Prop} {text : α → String}
    {before after : String} (hbefore : Blanks before.toList) (hafter : Blanks after.toList)
    {as : List α} (hne : as ≠ []) (h : ∀ a ∈ as, P a (text a).toList) :
    Separated P as ((commas before (as.map text)).toList ++ after.toList) := by
  induction as with
  | nil => exact absurd rfl hne
  | cons a as ih =>
    have ha := h a List.mem_cons_self
    cases as with
    | nil =>
      simp only [List.map_cons, List.map_nil, commas, String.toList_append, List.append_assoc]
      exact .last hbefore ha hafter
    | cons b as =>
      have hrest := ih (by simp) fun c hc => h c (List.mem_cons_of_mem a hc)
      have hcons := Separated.cons hbefore ha blanks_nil hrest
      simpa [commas] using hcons

/-! ## Values -/

theorem blanks_indent (level : Nat) : Blanks (indent level).toList := by
  intro c hc
  simp only [indent, String.toList_append, String.toList_ofList, List.mem_append,
    List.mem_replicate] at hc
  rcases hc with hc | ⟨-, rfl⟩
  · rw [List.mem_singleton.1 hc]
    rfl
  · rfl

theorem blanks_empty : Blanks "".toList := blanks_nil

theorem blanks_blank : Blanks " ".toList := by
  intro c hc
  rw [List.mem_singleton.1 hc]
  rfl

section Nested

variable {text : Value → String} {before after : String} (hbefore : Blanks before.toList)
  (hafter : Blanks after.toList)
include hbefore hafter

/-- An array that is written item by item is spelled, in either layout. -/
theorem spelling_items {items : List Value} (hne : items ≠ [])
    (h : ∀ v ∈ items, Spelling v (text v).toList) :
    Spelling (.array items) ("[" ++ commas before (items.map text) ++ after ++ "]").toList := by
  have hspelling := Spelling.array (separated_commas hbefore hafter hne h)
  simpa using hspelling

/-- An object that is written member by member is spelled, in either layout. -/
theorem spelling_members {gap : String} (hgap : Blanks gap.toList)
    {members : List (Option String × Value)} (hne : members ≠ [])
    (h : ∀ m ∈ members, Spelling m.2 (text m.2).toList) :
    Spelling (.object members) ("\x7b" ++
      commas before (members.map fun m => memberText gap m.1 (text m.2)) ++ after ++ "\x7d").toList := by
  have hmember (m) (hm : m ∈ members) :
      MemberSpelling Spelling m (memberText gap m.1 (text m.2)).toList := by
    obtain ⟨t, ht, hkey⟩ := exists_quote m.1
    have hspelling := MemberSpelling.mk hkey blanks_nil hgap (h m hm)
    simpa [memberText, ht] using hspelling
  have hspelling := Spelling.object (separated_commas hbefore hafter hne hmember)
  simpa using hspelling

end Nested

namespace Value

/-- The values that are written: their numbers are whole. -/
inductive Plain : Value → Prop where
  | null : Plain .null
  | bool (b : Bool) : Plain (.bool b)
  | nat (n : Nat) : Plain (.nat n)
  | string (s : Option String) : Plain (.string s)
  | array {items : List Value} (h : ∀ v ∈ items, Plain v) : Plain (.array items)
  | object {members : List (Option String × Value)} (h : ∀ m ∈ members, Plain m.2) :
    Plain (.object members)

theorem spelling_quote (s : Option String) : Spelling (.string s) (quote s).toList := by
  obtain ⟨t, ht, hs⟩ := exists_quote s
  rw [ht]
  exact .string hs

/-- A value laid out over lines spells itself. -/
theorem Plain.spelling_layout {v : Value} (h : v.Plain) (level : Nat) :
    Spelling v (v.layout level).toList := by
  induction h generalizing level with
  | null => rw [layout]; exact .null
  | bool b =>
    cases b with
    | false => rw [layout]; exact .boolFalse
    | true => rw [layout]; exact .boolTrue
  | nat n => exact spelling_nat n
  | string s => exact spelling_quote s
  | @array items h ih =>
    cases items with
    | nil => rw [layout]; exact .emptyArray blanks_nil
    | cons v vs =>
      rw [layout, layoutItems_eq]
      exact spelling_items (blanks_indent _) (blanks_indent _) (by simp)
        fun w hw => ih w hw (level + 1)
  | @object members h ih =>
    cases members with
    | nil => rw [layout]; exact .emptyObject blanks_nil
    | cons m ms =>
      rw [layout, layoutMembers_eq]
      exact spelling_members (blanks_indent _) (blanks_indent _) blanks_blank (by simp)
        fun w hw => ih w hw (level + 1)

/-- A value without blanks spells itself. -/
theorem Plain.spelling_compact {v : Value} (h : v.Plain) : Spelling v v.compact.toList := by
  induction h with
  | null => exact .null
  | bool b =>
    cases b with
    | false => exact .boolFalse
    | true => exact .boolTrue
  | nat n => exact spelling_nat n
  | string s => exact spelling_quote s
  | @array items h ih =>
    cases items with
    | nil => exact .emptyArray blanks_nil
    | cons v vs =>
      have hspelling := spelling_items blanks_empty blanks_empty (by simp) ih
      rwa [String.append_empty, ← compactItems_eq] at hspelling
  | @object members h ih =>
    cases members with
    | nil => exact .emptyObject blanks_nil
    | cons m ms =>
      have hspelling := spelling_members blanks_empty blanks_empty blanks_empty (by simp) ih
      rwa [String.append_empty, ← compactMembers_eq] at hspelling

/-- A value laid out over lines, with blanks after it, is one JSON text, and that of the value. -/
theorem parse?_pretty {v : Value} (hv : v.Plain) {blanks : String}
    (hblanks : ∀ c ∈ blanks.toList, isBlank c = true) : parse? (v.pretty ++ blanks) = some v :=
  parse?_eq_some_iff.2
    ⟨[], _, _, String.toList_append, blanks_nil, hv.spelling_layout 0, hblanks⟩

theorem parse?_compact {v : Value} (hv : v.Plain) : parse? v.compact = some v :=
  parse?_eq_some_iff.2
    ⟨[], _, [], (List.append_nil _).symm, blanks_nil, hv.spelling_compact, blanks_nil⟩

/-! ## Records -/

/-- The value of the first member with the given key. -/
def member? (key : String) : Value → Option Value
  | .object members => members.lookup (some key)
  | _ => none

@[simp] theorem member?_record (key : String) (ms : List (String × Value)) :
    (record ms).member? key = ms.lookup key := by
  show (ms.map fun m => (some m.1, m.2)).lookup (some key) = _
  induction ms with
  | nil => rfl
  | cons m ms ih =>
    obtain ⟨k, v⟩ := m
    simp only [List.map_cons, List.lookup_cons, ih]
    rfl

namespace Plain

theorem record {ms : List (String × Value)} (h : ∀ m ∈ ms, m.2.Plain) :
    (Value.record ms).Plain := by
  apply Plain.object
  intro m hm
  obtain ⟨n, hn, rfl⟩ := List.mem_map.1 hm
  exact h n hn

theorem str (s : String) : (Value.str s).Plain := .string (some s)

theorem items {α : Type} {f : α → Value} (h : ∀ a, (f a).Plain) (as : List α) :
    (Value.array (as.map f)).Plain := by
  apply Plain.array
  intro v hv
  obtain ⟨a, -, rfl⟩ := List.mem_map.1 hv
  exact h a

theorem orNull {α : Type} {f : α → Value} (h : ∀ a, (f a).Plain) (a : Option α) :
    (Value.orNull f a).Plain := by
  cases a with
  | none => exact .null
  | some a => exact h a

end Plain

end Value

end Dbml.Json
