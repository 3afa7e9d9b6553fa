import Dbml.Proofs.Json.Scalar
import Mathlib.Data.List.DropRight

/-!
# How JSON values are spelled

The grammar of JSON as a relation between values and texts (`Spelling`). It says nothing of how a
text is read. Phrases with commas between them are one relation for items and members alike
(`Separated`).

`parse?_eq_some_iff`: the reader accepts the texts that spell a value, with blanks around them, and
no others. A value that nests in another has a shorter text, so reading by depth comes to an end
before the depth does (`read_append`).
-/

namespace Dbml.Json

/-! ## Phrases with commas between them -/

/-- One phrase or more, with commas between them and blanks around each. -/
inductive Separated {α : Type} (P : α → List Char → Prop) : List α → List Char → Prop where
  | last {a : α} {b t c : List Char} (hb : Blanks b) (h : P a t) (hc : Blanks c) :
    Separated P [a] (b ++ (t ++ c))
  | cons {a : α} {as : List α} {b t c s : List Char} (hb : Blanks b) (h : P a t) (hc : Blanks c)
    (hs : Separated P as s) : Separated P (a :: as) (b ++ (t ++ (c ++ ',' :: s)))

/-- The text begins with a character that is neither a blank nor the given one. -/
def Begins (close : Char) (t : List Char) : Prop :=
  ∃ c cs, t = c :: cs ∧ isBlank c = false ∧ c ≠ close

theorem Begins.clear {close : Char} {t : List Char} (h : Begins close t) (rest : List Char) :
    Clear isBlank (t ++ rest) := by
  obtain ⟨c, cs, rfl, hc, -⟩ := h
  exact hc

section List

variable {α : Type} {P : α → List Char → Prop} {item : Reader α} {close : Char}

/-- Blanks before the first item make no difference. -/
theorem list_skip (s : List Char) :
    item.list isBlank close (skip s) = item.list isBlank close s := by
  rw [Reader.list, Reader.list.eq_def isBlank close item s, skip, List.dropWhile_idempotent]

theorem list_of_close {a : α} {s rest after : List Char} (hitem : item.read (skip s) = some (a, rest))
    (hrest : skip rest = close :: after) : item.list isBlank close s = some ([a], after) := by
  unfold skip at hitem hrest
  rw [Reader.list, hitem]
  simp only
  rw [hrest]
  simp

/-- An item that is followed by a comma is followed by more items. -/
theorem list_of_comma (hcomma : close ≠ ',') {a : α} {s rest after : List Char}
    (hitem : item.read (skip s) = some (a, rest)) (hrest : skip rest = ',' :: after) :
    item.list isBlank close s =
      (item.list isBlank close after).map fun (items, rest) => (a :: items, rest) := by
  unfold skip at hitem hrest
  rw [Reader.list, hitem]
  simp only
  rw [hrest]
  simp [hcomma.symm]

/-- A list that is read is made of items with commas between them, if its items are read so. -/
theorem list_sound
    (hitem : ∀ {s a rest}, item.read s = some (a, rest) → ∃ t, s = t ++ rest ∧ P a t)
    {s rest : List Char} {as : List α} (h : item.list isBlank close s = some (as, rest)) :
    ∃ t, s = t ++ close :: rest ∧ Separated P as t := by
  fun_induction Reader.list isBlank close item s generalizing as with
  | case1 => cases h
  | case2 => cases h
  | case3 s a mid hread after hclose =>
    cases h
    obtain ⟨b, hb, hs⟩ := exists_blanks s
    obtain ⟨c, hc, hmid⟩ := exists_blanks mid
    obtain ⟨t, ht, hP⟩ := hitem hread
    refine ⟨b ++ (t ++ c), ?_, .last hb hP hc⟩
    rw [hs, skip, ht, hmid, skip, hclose]
    simp only [List.append_assoc]
  | case4 s a mid hread after hcomma hne ih =>
    obtain ⟨⟨as', rest'⟩, hlist, he⟩ := Option.map_eq_some_iff.1 h
    cases he
    obtain ⟨b, hb, hs⟩ := exists_blanks s
    obtain ⟨c, hc, hmid⟩ := exists_blanks mid
    obtain ⟨t, ht, hP⟩ := hitem hread
    obtain ⟨u, rfl, hsep⟩ := ih hlist
    refine ⟨b ++ (t ++ (c ++ ',' :: u)), ?_, .cons hb hP hc hsep⟩
    rw [hs, skip, ht, hmid, skip, hcomma]
    simp only [List.append_assoc, List.cons_append]
  | case5 => cases h

variable (hbegins : ∀ {a t}, P a t → Begins close t)
include hbegins

/-- A list that is not empty does not begin with the mark that closes it. -/
theorem Separated.skip_ne {as : List α} {s : List Char} (h : Separated P as s)
    (rest after : List Char) : skip (s ++ rest) ≠ close :: after := by
  have hskip {a : α} {b t : List Char} (hb : Blanks b) (ht : P a t) (r : List Char) :
      skip (b ++ (t ++ r)) ≠ close :: after := by
    rw [skip_append hb ((hbegins ht).clear r)]
    obtain ⟨c, cs, rfl, -, hc⟩ := hbegins ht
    intro heq
    exact hc (List.cons.inj heq).1
  cases h with
  | @last a b t c hb ht hc =>
    rw [List.append_assoc, List.append_assoc]
    exact hskip hb ht (c ++ rest)
  | @cons a as b t c s hb ht hc hs =>
    rw [List.append_assoc, List.append_assoc]
    exact hskip hb ht ((c ++ ',' :: s) ++ rest)

/-- A reader that takes every phrase up to a given length takes phrases with commas between them. -/
theorem list_append (hblank : isBlank close = false) (hcomma : close ≠ ',')
    (hends : continuesNumber close = false) {n : Nat}
    (hread : ∀ {a t rest}, P a t → t.length ≤ n → EndsNumber rest →
      item.read (t ++ rest) = some (a, rest))
    {as : List α} {s : List Char} (h : Separated P as s) (hn : s.length ≤ n) (after : List Char) :
    item.list isBlank close (s ++ close :: after) = some (as, after) := by
  induction h with
  | @last a b t c hb ht hc =>
    simp only [List.length_append] at hn
    simp only [List.append_assoc]
    have hitem : item.read (skip (b ++ (t ++ (c ++ close :: after)))) =
        some (a, c ++ close :: after) := by
      rw [skip_append hb ((hbegins ht).clear _)]
      exact hread ht (by omega) (hc.endsNumber_append hends after)
    exact list_of_close hitem (skip_append hc hblank)
  | @cons a as b t c s hb ht hc hs ih =>
    simp only [List.length_append, List.length_cons] at hn
    simp only [List.append_assoc, List.cons_append]
    have hitem : item.read (skip (b ++ (t ++ (c ++ ',' :: (s ++ close :: after))))) =
        some (a, c ++ ',' :: (s ++ close :: after)) := by
      rw [skip_append hb ((hbegins ht).clear _)]
      exact hread ht (by omega) (hc.endsNumber_append rfl _)
    rw [list_of_comma hcomma hitem (skip_append hc rfl), ih (by omega)]
    rfl

end List

/-! ## Values -/

/-- A member of an object: a key, a colon and a value, with blanks around the colon. -/
inductive MemberSpelling (P : Value → List Char → Prop) : Option String × Value → List Char → Prop
    where
  | mk {key : Option String} {v : Value} {k b c t : List Char} (hk : StringSpelling key k)
    (hb : Blanks b) (hc : Blanks c) (hv : P v t) :
    MemberSpelling P (key, v) ('"' :: (k ++ '"' :: (b ++ ':' :: (c ++ t))))

/-- The texts that spell a value. -/
inductive Spelling : Value → List Char → Prop where
  | null : Spelling .null ['n', 'u', 'l', 'l']
  | boolTrue : Spelling (.bool true) ['t', 'r', 'u', 'e']
  | boolFalse : Spelling (.bool false) ['f', 'a', 'l', 's', 'e']
  | number {n : List Char} (h : IsNumber n) : Spelling (.number (String.ofList n)) n
  | string {s : Option String} {t : List Char} (h : StringSpelling s t) :
    Spelling (.string s) ('"' :: (t ++ ['"']))
  | emptyArray {b : List Char} (hb : Blanks b) : Spelling (.array []) ('[' :: (b ++ [']']))
  | array {items : List Value} {s : List Char} (h : Separated Spelling items s) :
    Spelling (.array items) ('[' :: (s ++ [']']))
  | emptyObject {b : List Char} (hb : Blanks b) :
    Spelling (.object []) ('\x7b' :: (b ++ ['\x7d']))
  | object {members : List (Option String × Value)} {s : List Char}
    (h : Separated (MemberSpelling Spelling) members s) :
    Spelling (.object members) ('\x7b' :: (s ++ ['\x7d']))

theorem MemberSpelling.begins {P : Value → List Char → Prop} {m : Option String × Value}
    {t : List Char} (h : MemberSpelling P m t) : Begins '\x7d' t := by
  cases h with
  | mk => exact ⟨'"', _, rfl, rfl, by simp⟩

theorem Spelling.begins {v : Value} {t : List Char} (h : Spelling v t) : Begins ']' t := by
  cases h with
  | number hn =>
    obtain ⟨c, cs, rfl, hc⟩ := hn.exists_cons
    refine ⟨c, cs, rfl, ?_, ?_⟩
    · by_contra hblank
      simp only [isBlank, Bool.not_eq_false, Bool.or_eq_true, beq_iff_eq] at hblank
      rcases hblank with ((rfl | rfl) | rfl) | rfl <;> simp_all [Char.isDigit]
    · rintro rfl
      simp_all [Char.isDigit]
  | _ => exact ⟨_, _, rfl, rfl, by simp⟩

/-- A member that is read is a key and a value with a colon between them. -/
theorem readMember_sound {inner : Reader Value}
    (hinner : ∀ {s v rest}, inner.read s = some (v, rest) → ∃ t, s = t ++ rest ∧ Spelling v t)
    {s rest : List Char} {m : Option String × Value} (h : readMember inner s = some (m, rest)) :
    ∃ t, s = t ++ rest ∧ MemberSpelling Spelling m t := by
  unfold readMember at h
  split at h
  case h_1 s =>
    obtain ⟨⟨key, r₁⟩, h₁, h⟩ := Option.bind_eq_some_iff.1 h
    simp only at h
    split at h
    case h_1 r₂ h₂ =>
      obtain ⟨⟨v, r₃⟩, h₃, h⟩ := Option.bind_eq_some_iff.1 h
      cases h
      obtain ⟨k, rfl, hk⟩ := body_eq_some_iff.1 h₁
      obtain ⟨b, hb, hs⟩ := exists_blanks r₁
      obtain ⟨c, hc, hr⟩ := exists_blanks r₂
      obtain ⟨t, ht, hv⟩ := hinner h₃
      refine ⟨_, ?_, .mk hk hb hc hv⟩
      rw [hs, h₂, hr, ht]
      simp only [List.append_assoc, List.cons_append]
    case h_2 => cases h
  case h_2 => cases h

theorem readMember_append {inner : Reader Value} {n : Nat}
    (hinner : ∀ {v t rest}, Spelling v t → t.length ≤ n → EndsNumber rest →
      inner.read (t ++ rest) = some (v, rest))
    {m : Option String × Value} {t rest : List Char} (h : MemberSpelling Spelling m t)
    (hn : t.length ≤ n) (hrest : EndsNumber rest) : readMember inner (t ++ rest) = some (m, rest) := by
  cases h with
  | @mk key v k b c t hk hb hc hv =>
    simp only [List.length_cons, List.length_append] at hn
    have hbody : body (k ++ '"' :: (b ++ ':' :: (c ++ (t ++ rest)))) =
        some (key, b ++ ':' :: (c ++ (t ++ rest))) := body_eq_some_iff.2 ⟨k, rfl, hk⟩
    have hcolon : skip (b ++ ':' :: (c ++ (t ++ rest))) = ':' :: (c ++ (t ++ rest)) :=
      skip_append hb rfl
    have hvalue : skip (c ++ (t ++ rest)) = t ++ rest := skip_append hc (hv.begins.clear rest)
    simp only [List.cons_append, List.append_assoc]
    rw [readMember]
    simp only [hbody, Option.bind_eq_bind, Option.bind_some]
    rw [hcolon]
    simp [hvalue, hinner hv (by omega) hrest]

/-- A value that is read is spelled by the text it is read from, if those inside are. -/
theorem readValue_sound {inner : Reader Value}
    (hinner : ∀ {s v rest}, inner.read s = some (v, rest) → ∃ t, s = t ++ rest ∧ Spelling v t)
    {s rest : List Char} {v : Value} (h : readValue inner s = some (v, rest)) :
    ∃ t, s = t ++ rest ∧ Spelling v t := by
  unfold readValue at h
  split at h
  case h_1 => cases h; exact ⟨_, rfl, .null⟩
  case h_2 => cases h; exact ⟨_, rfl, .boolTrue⟩
  case h_3 => cases h; exact ⟨_, rfl, .boolFalse⟩
  case h_4 =>
    obtain ⟨⟨text, r⟩, hb, he⟩ := Option.map_eq_some_iff.1 h
    cases he
    obtain ⟨t, rfl, ht⟩ := body_eq_some_iff.1 hb
    exact ⟨_, by simp, .string ht⟩
  case h_5 s =>
    split at h
    case h_1 hclose =>
      cases h
      obtain ⟨b, hb, hs⟩ := exists_blanks s
      rw [hclose] at hs
      exact ⟨_, by simp [hs], .emptyArray hb⟩
    case h_2 =>
      obtain ⟨⟨vs, r⟩, hl, he⟩ := Option.map_eq_some_iff.1 h
      cases he
      rw [list_skip] at hl
      obtain ⟨t, rfl, ht⟩ := list_sound hinner hl
      exact ⟨_, by simp, .array ht⟩
  case h_6 s =>
    split at h
    case h_1 hclose =>
      cases h
      obtain ⟨b, hb, hs⟩ := exists_blanks s
      rw [hclose] at hs
      exact ⟨_, by simp [hs], .emptyObject hb⟩
    case h_2 =>
      obtain ⟨⟨ms, r⟩, hl, he⟩ := Option.map_eq_some_iff.1 h
      cases he
      rw [list_skip] at hl
      obtain ⟨t, rfl, ht⟩ := list_sound (readMember_sound hinner) hl
      exact ⟨_, by simp, .object ht⟩
  case h_7 =>
    obtain ⟨⟨n, r⟩, hm, he⟩ := Option.map_eq_some_iff.1 h
    cases he
    obtain ⟨rfl, hn⟩ := number_sound hm
    exact ⟨n, rfl, .number hn⟩

theorem readValue_number (inner : Reader Value) {n rest : List Char} (hn : IsNumber n)
    (hrest : EndsNumber rest) :
    readValue inner (n ++ rest) = some (.number (String.ofList n), rest) := by
  have hnumber := number_append hn hrest
  obtain ⟨c, cs, rfl, hc⟩ := hn.exists_cons
  -- neither a digit nor a minus sign begins any other value
  have hne {d : Char} (hd : d.isDigit = false ∧ d ≠ '-') (t : List Char) :
      c :: cs ++ rest ≠ d :: t := by
    intro heq
    rw [(List.cons.inj heq).1] at hc
    rcases hc with hc | hc
    · rw [hd.1] at hc
      cases hc
    · exact hd.2 hc
  rw [readValue.eq_7 _ _ (fun _ => hne ⟨rfl, by simp⟩ _) (fun _ => hne ⟨rfl, by simp⟩ _)
    (fun _ => hne ⟨rfl, by simp⟩ _) (fun _ => hne ⟨rfl, by simp⟩ _)
    (fun _ => hne ⟨rfl, by simp⟩ _) (fun _ => hne ⟨rfl, by simp⟩ _), hnumber]
  rfl

/-- A spelled value is read back before whatever ends a number, if those inside are. -/
theorem readValue_append {inner : Reader Value} {n : Nat}
    (hinner : ∀ {v t rest}, Spelling v t → t.length ≤ n → EndsNumber rest →
      inner.read (t ++ rest) = some (v, rest))
    {v : Value} {t rest : List Char} (h : Spelling v t) (hn : t.length ≤ n + 1)
    (hrest : EndsNumber rest) : readValue inner (t ++ rest) = some (v, rest) := by
  cases h with
  | null => rfl
  | boolTrue => rfl
  | boolFalse => rfl
  | number hnumber => exact readValue_number inner hnumber hrest
  | @string s t hs =>
    have hbody : body (t ++ '"' :: rest) = some (s, rest) := body_eq_some_iff.2 ⟨t, rfl, hs⟩
    simp only [List.cons_append, List.append_assoc, List.nil_append]
    rw [readValue, hbody]
    rfl
  | @emptyArray b hb =>
    have hclose : skip (b ++ ']' :: rest) = ']' :: rest := skip_append hb rfl
    simp only [List.cons_append, List.append_assoc, List.nil_append]
    rw [readValue, hclose]
    rfl
  | @array items s hs =>
    simp only [List.length_cons, List.length_append, List.length_nil] at hn
    simp only [List.cons_append, List.append_assoc, List.nil_append]
    rw [readValue]
    split
    · exact absurd ‹_› (hs.skip_ne Spelling.begins _ _)
    · rw [list_skip, list_append Spelling.begins rfl (by simp) rfl hinner hs (by omega)]
      rfl
  | @emptyObject b hb =>
    have hclose : skip (b ++ '\x7d' :: rest) = '\x7d' :: rest := skip_append hb rfl
    simp only [List.cons_append, List.append_assoc, List.nil_append]
    rw [readValue, hclose]
    rfl
  | @object members s hs =>
    have hmember {m : Option String × Value} {t rest : List Char}
        (h : MemberSpelling Spelling m t) (hn : t.length ≤ n) (hrest : EndsNumber rest) :
        (member inner).read (t ++ rest) = some (m, rest) := readMember_append hinner h hn hrest
    simp only [List.length_cons, List.length_append, List.length_nil] at hn
    simp only [List.cons_append, List.append_assoc, List.nil_append]
    rw [readValue]
    split
    · exact absurd ‹_› (hs.skip_ne MemberSpelling.begins _ _)
    · rw [list_skip, list_append MemberSpelling.begins rfl (by simp) rfl hmember hs (by omega)]
      rfl

/-- At every depth, a value that is read is spelled by the text it is read from. -/
theorem read_sound {n : Nat} {s rest : List Char} {v : Value}
    (h : (value n).read s = some (v, rest)) : ∃ t, s = t ++ rest ∧ Spelling v t := by
  induction n generalizing s rest v with
  | zero => cases h
  | succ n ih => exact readValue_sound ih h

/-- A reader as deep as the text of a value is long takes it, before anything that cannot go on with
a number. -/
theorem read_append {n : Nat} {v : Value} {t rest : List Char} (h : Spelling v t)
    (hn : t.length ≤ n) (hrest : EndsNumber rest) :
    (value n).read (t ++ rest) = some (v, rest) := by
  induction n generalizing v t rest with
  | zero =>
    obtain ⟨c, cs, rfl, -⟩ := h.begins
    cases hn
  | succ n ih => exact readValue_append ih h hn hrest

/-! ## Whole texts -/

/-- The text spells the value, with nothing but blanks around it. -/
def IsText (text : String) (v : Value) : Prop :=
  ∃ b t c, text.toList = b ++ (t ++ c) ∧ Blanks b ∧ Spelling v t ∧ Blanks c

/-- The reader accepts exactly the texts that spell a value. -/
theorem parse?_eq_some_iff {text : String} {v : Value} : parse? text = some v ↔ IsText text v := by
  constructor
  · intro h
    unfold parse? at h
    split at h
    · rename_i w rest hread
      split at h
      · rename_i hrest
        cases h
        obtain ⟨b, hb, htext⟩ := exists_blanks text.toList
        obtain ⟨t, ht, hv⟩ := read_sound hread
        obtain ⟨c, hc, hend⟩ := exists_blanks rest
        rw [hrest, List.append_nil] at hend
        exact ⟨b, t, rest, by rw [← ht, ← htext], hb, hv, hend ▸ hc⟩
      · cases h
    · cases h
  · rintro ⟨b, t, c, htext, hb, hv, hc⟩
    have hskip : skip text.toList = t ++ c := by
      rw [htext]
      exact skip_append hb (hv.begins.clear c)
    have hlength : t.length ≤ text.length := by
      rw [← String.length_toList, htext]
      simp only [List.length_append]
      omega
    have hend : skip c = [] := List.dropWhile_eq_nil_iff.2 hc
    rw [parse?, hskip, read_append hv hlength hc.endsNumber]
    exact if_pos hend

end Dbml.Json
