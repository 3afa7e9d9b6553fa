import Dbml.Json.Reader
import Dbml.Proofs.Text.Cut

/-!
# How JSON numbers and strings are spelled

The grammar of the phrases that hold no other value, said of the text alone (`IsNumber`,
`StringSpelling`), and that the readers take exactly those phrases. A phrase is taken off the front
of a text, so a reader is shown to take one (`..._sound`) and to take all of it whatever follows
(`..._append`). Only a number has to be told from what follows it (`EndsNumber`).

A string is spelled in two steps: its text stands for code units (`UnitsSpelling`), and these for
characters (`Decodes`), unless a half of a surrogate pair stands alone.
-/

namespace Dbml.Json

/-! ## Blanks -/

/-- Nothing but blanks. -/
def Blanks (s : List Char) : Prop := ∀ c ∈ s, isBlank c = true

theorem blanks_nil : Blanks [] := by simp [Blanks]

theorem blanks_takeWhile (s : List Char) : Blanks (s.takeWhile isBlank) := mem_takeWhile

theorem skip_append {b t : List Char} (hb : Blanks b) (ht : Clear isBlank t) : skip (b ++ t) = t :=
  dropWhile_append_of_clear hb ht

/-- What is passed over are blanks. -/
theorem exists_blanks (s : List Char) : ∃ b, Blanks b ∧ s = b ++ skip s :=
  ⟨s.takeWhile isBlank, blanks_takeWhile s, List.takeWhile_append_dropWhile.symm⟩

/-! ## Numbers -/

/-- One digit or more. -/
def IsDigits (ds : List Char) : Prop := ds ≠ [] ∧ ∀ d ∈ ds, d.isDigit = true

/-- A whole number without sign: zero, or digits of which the first is not a zero. -/
def IsWhole (w : List Char) : Prop := w = ['0'] ∨ IsDigits w ∧ w.head? ≠ some '0'

/-- A fraction, or nothing. -/
def IsFraction (f : List Char) : Prop := f = [] ∨ ∃ ds, f = '.' :: ds ∧ IsDigits ds

/-- An exponent, or nothing. -/
def IsExponent (e : List Char) : Prop :=
  e = [] ∨ ∃ mark sign ds, e = mark :: (sign ++ ds) ∧ (mark = 'e' ∨ mark = 'E') ∧
    (sign = [] ∨ sign = ['+'] ∨ sign = ['-']) ∧ IsDigits ds

/-- A number: a minus sign if there is one, a whole number, a fraction and an exponent. -/
def IsNumber (n : List Char) : Prop :=
  ∃ sign w f e, n = sign ++ (w ++ (f ++ e)) ∧ (sign = [] ∨ sign = ['-']) ∧
    IsWhole w ∧ IsFraction f ∧ IsExponent e

/-- Whether a character may go on with a number. -/
def continuesNumber (c : Char) : Bool := c.isDigit || c == '.' || c == 'e' || c == 'E'

/-- The text does not begin with anything that goes on with a number. -/
def EndsNumber (s : List Char) : Prop := Clear continuesNumber s

theorem digits_sound {s ds rest : List Char} (h : digits s = some (ds, rest)) :
    s = ds ++ rest ∧ IsDigits ds := by
  unfold digits at h
  split at h
  · cases h
  · rename_i hne
    cases h
    exact ⟨List.takeWhile_append_dropWhile.symm, hne, mem_takeWhile⟩

theorem digits_append {ds rest : List Char} (hds : IsDigits ds) (hrest : Clear Char.isDigit rest) :
    digits (ds ++ rest) = some (ds, rest) := by
  obtain ⟨hne, hdigit⟩ := hds
  rw [digits, takeWhile_append_of_clear hdigit hrest, dropWhile_append_of_clear hdigit hrest]
  cases ds with
  | nil => exact absurd rfl hne
  | cons d ds => rfl

theorem whole_sound {s w rest : List Char} (h : whole s = some (w, rest)) :
    s = w ++ rest ∧ IsWhole w := by
  unfold whole at h
  split at h
  · cases h
    exact ⟨rfl, .inl rfl⟩
  · rename_i hzero
    obtain ⟨rfl, hw⟩ := digits_sound h
    refine ⟨rfl, .inr ⟨hw, fun hhead => ?_⟩⟩
    cases w with
    | nil => cases hhead
    | cons d ds =>
      cases hhead
      exact hzero (ds ++ rest) rfl

theorem whole_append {w rest : List Char} (hw : IsWhole w) (hrest : Clear Char.isDigit rest) :
    whole (w ++ rest) = some (w, rest) := by
  rcases hw with rfl | ⟨hdigits, hzero⟩
  · rfl
  · rw [whole.eq_2, digits_append hdigits hrest]
    intro r hr
    cases w with
    | nil => exact hdigits.1 rfl
    | cons d ds =>
      rw [List.cons_append] at hr
      rw [(List.cons.inj hr).1] at hzero
      exact hzero rfl

theorem fraction_sound {s f rest : List Char} (h : fraction s = some (f, rest)) :
    s = f ++ rest ∧ IsFraction f := by
  unfold fraction at h
  split at h
  · obtain ⟨⟨ds, r⟩, hd, he⟩ := Option.map_eq_some_iff.1 h
    cases he
    obtain ⟨rfl, hds⟩ := digits_sound hd
    exact ⟨rfl, .inr ⟨ds, rfl, hds⟩⟩
  · cases h
    exact ⟨rfl, .inl rfl⟩

theorem fraction_append {f rest : List Char} (hf : IsFraction f) (hdigit : Clear Char.isDigit rest)
    (hpoint : Clear (· == '.') rest) : fraction (f ++ rest) = some (f, rest) := by
  rcases hf with rfl | ⟨ds, rfl, hds⟩
  · rw [List.nil_append, fraction.eq_2]
    rintro r rfl
    exact absurd hpoint (by simp)
  · rw [List.cons_append, fraction, digits_append hds hdigit]
    rfl

theorem exponentSign_sound (s : List Char) :
    s = (exponentSign s).1 ++ (exponentSign s).2 ∧ ((exponentSign s).1 = [] ∨
      (exponentSign s).1 = ['+'] ∨ (exponentSign s).1 = ['-']) := by
  unfold exponentSign
  split
  · exact ⟨rfl, .inr (.inl rfl)⟩
  · exact ⟨rfl, .inr (.inr rfl)⟩
  · exact ⟨rfl, .inl rfl⟩

theorem exponentSign_append {sign ds rest : List Char}
    (hsign : sign = [] ∨ sign = ['+'] ∨ sign = ['-']) (hds : IsDigits ds) :
    exponentSign (sign ++ (ds ++ rest)) = (sign, ds ++ rest) := by
  rcases hsign with rfl | rfl | rfl
  · obtain ⟨hne, hdigit⟩ := hds
    obtain ⟨d, ds, rfl⟩ := List.exists_cons_of_ne_nil hne
    have hd := hdigit d List.mem_cons_self
    rw [List.nil_append, List.cons_append, exponentSign.eq_3]
    · rintro r hr
      rw [(List.cons.inj hr).1] at hd
      cases hd
    · rintro r hr
      rw [(List.cons.inj hr).1] at hd
      cases hd
  · rfl
  · rfl

theorem exponent_sound {s e rest : List Char} (h : exponent s = some (e, rest)) :
    s = e ++ rest ∧ IsExponent e := by
  unfold exponent at h
  split at h
  · cases h
    exact ⟨rfl, .inl rfl⟩
  · rename_i mark s
    split at h
    · rename_i hmark
      obtain ⟨⟨ds, r⟩, hds, he⟩ := Option.map_eq_some_iff.1 h
      cases he
      obtain ⟨hs, hsign⟩ := exponentSign_sound s
      obtain ⟨hrest, hds⟩ := digits_sound hds
      rw [hrest] at hs
      refine ⟨?_, .inr ⟨mark, _, ds, rfl, hmark, hsign, hds⟩⟩
      rw [List.append_assoc, List.cons_append, ← hs]
    · cases h
      exact ⟨rfl, .inl rfl⟩

theorem EndsNumber.clear_isDigit {rest : List Char} (h : EndsNumber rest) :
    Clear Char.isDigit rest := by
  cases rest with
  | nil => exact clear_nil _
  | cons c cs => simp_all [EndsNumber, continuesNumber]

theorem Blanks.endsNumber {b : List Char} (hb : Blanks b) : EndsNumber b := by
  cases b with
  | nil => exact clear_nil _
  | cons d ds =>
    have hd := hb d List.mem_cons_self
    simp only [isBlank, Bool.or_eq_true, beq_iff_eq] at hd
    rcases hd with ((rfl | rfl) | rfl) | rfl <;> exact rfl

/-- A number ends before blanks and a character that cannot continue one. -/
theorem Blanks.endsNumber_append {b : List Char} (hb : Blanks b) {c : Char}
    (hc : continuesNumber c = false) (rest : List Char) : EndsNumber (b ++ c :: rest) := by
  cases b with
  | nil => exact hc
  | cons d ds => exact hb.endsNumber

theorem exponent_append {e rest : List Char} (he : IsExponent e) (hrest : EndsNumber rest) :
    exponent (e ++ rest) = some (e, rest) := by
  rcases he with rfl | ⟨mark, sign, ds, rfl, hmark, hsign, hds⟩
  · cases rest with
    | nil => rfl
    | cons c cs =>
      have hc : ¬ (c = 'e' ∨ c = 'E') := by
        rintro (rfl | rfl)
        · cases hrest
        · cases hrest
      rw [List.nil_append, exponent, if_neg hc]
  · rw [List.cons_append, List.append_assoc, exponent, if_pos hmark, exponentSign_append hsign hds]
    simp only
    rw [digits_append hds hrest.clear_isDigit]
    rfl

/-- An exponent does not begin like what may stand before it. -/
theorem IsExponent.clear_append {e rest : List Char} (he : IsExponent e) (hrest : EndsNumber rest) :
    Clear Char.isDigit (e ++ rest) ∧ Clear (· == '.') (e ++ rest) := by
  rcases he with rfl | ⟨mark, sign, ds, rfl, rfl | rfl, -, -⟩
  · refine ⟨hrest.clear_isDigit, ?_⟩
    cases rest with
    | nil => exact clear_nil _
    | cons c cs => simp_all [EndsNumber, continuesNumber]
  · exact ⟨rfl, rfl⟩
  · exact ⟨rfl, rfl⟩

theorem IsFraction.clear_append {f rest : List Char} (hf : IsFraction f)
    (hrest : Clear Char.isDigit rest) : Clear Char.isDigit (f ++ rest) := by
  rcases hf with rfl | ⟨ds, rfl, -⟩
  · exact hrest
  · exact rfl

/-- A number without a sign that is read is made of its three parts. -/
theorem unsigned_sound {s n rest : List Char} (h : unsigned s = some (n, rest)) :
    s = n ++ rest ∧ ∃ w f e, n = w ++ (f ++ e) ∧ IsWhole w ∧ IsFraction f ∧ IsExponent e := by
  obtain ⟨⟨w, r₁⟩, h₁, h⟩ := Option.bind_eq_some_iff.1 h
  obtain ⟨⟨f, r₂⟩, h₂, h⟩ := Option.bind_eq_some_iff.1 h
  obtain ⟨⟨e, r₃⟩, h₃, h⟩ := Option.bind_eq_some_iff.1 h
  cases h
  obtain ⟨rfl, hw⟩ := whole_sound h₁
  obtain ⟨rfl, hf⟩ := fraction_sound h₂
  obtain ⟨rfl, he⟩ := exponent_sound h₃
  exact ⟨by simp only [List.append_assoc], w, f, e, List.append_assoc w f e, hw, hf, he⟩

/-- The three parts of a number are read before whatever ends a number. -/
theorem unsigned_append {w f e rest : List Char} (hw : IsWhole w) (hf : IsFraction f)
    (he : IsExponent e) (hrest : EndsNumber rest) :
    unsigned (w ++ (f ++ e) ++ rest) = some (w ++ (f ++ e), rest) := by
  obtain ⟨hdigit, hpoint⟩ := he.clear_append hrest
  rw [List.append_assoc, List.append_assoc]
  simp only [unsigned, whole_append hw (hf.clear_append hdigit), fraction_append hf hdigit hpoint,
    exponent_append he hrest, Option.bind_eq_bind, Option.bind_some, Option.pure_def,
    List.append_assoc]

/-- A number that is read is one of the grammar. -/
theorem number_sound {s n rest : List Char} (h : number s = some (n, rest)) :
    s = n ++ rest ∧ IsNumber n := by
  unfold number at h
  split at h
  · obtain ⟨⟨m, r⟩, hm, heq⟩ := Option.map_eq_some_iff.1 h
    cases heq
    obtain ⟨rfl, w, f, e, rfl, hw, hf, he⟩ := unsigned_sound hm
    exact ⟨rfl, ['-'], w, f, e, rfl, .inr rfl, hw, hf, he⟩
  · obtain ⟨rfl, w, f, e, rfl, hw, hf, he⟩ := unsigned_sound h
    exact ⟨rfl, [], w, f, e, rfl, .inl rfl, hw, hf, he⟩

theorem IsWhole.exists_cons {w : List Char} (h : IsWhole w) :
    ∃ d ds, w = d :: ds ∧ d.isDigit = true := by
  rcases h with rfl | ⟨⟨hne, hdigit⟩, -⟩
  · exact ⟨'0', [], rfl, rfl⟩
  · obtain ⟨d, ds, rfl⟩ := List.exists_cons_of_ne_nil hne
    exact ⟨d, ds, rfl, hdigit d List.mem_cons_self⟩

/-- A number begins with a digit or a minus sign. -/
theorem IsNumber.exists_cons {n : List Char} (h : IsNumber n) :
    ∃ c cs, n = c :: cs ∧ (c.isDigit = true ∨ c = '-') := by
  obtain ⟨sign, w, f, e, rfl, rfl | rfl, hw, -⟩ := h
  · obtain ⟨d, ds, rfl, hd⟩ := hw.exists_cons
    exact ⟨d, ds ++ (f ++ e), rfl, .inl hd⟩
  · exact ⟨'-', w ++ (f ++ e), rfl, .inr rfl⟩

theorem number_append {n rest : List Char} (hn : IsNumber n) (hrest : EndsNumber rest) :
    number (n ++ rest) = some (n, rest) := by
  obtain ⟨sign, w, f, e, rfl, rfl | rfl, hw, hf, he⟩ := hn
  · rw [List.nil_append, number.eq_2, unsigned_append hw hf he hrest]
    intro r hr
    obtain ⟨d, ds, rfl, hd⟩ := hw.exists_cons
    simp only [List.cons_append] at hr
    rw [(List.cons.inj hr).1] at hd
    cases hd
  · rw [List.cons_append, List.nil_append, List.cons_append, number, unsigned_append hw hf he hrest]
    rfl

/-! ## Strings -/

/-- The letters that stand for a character after a backslash. -/
def letterEscapes : List (Char × Char) :=
  [('"', '"'), ('\\', '\\'), ('/', '/'), ('b', '\x08'), ('f', '\x0c'), ('n', '\n'), ('r', '\r'),
    ('t', '\t')]

/-- The ways to write a code unit: as the character itself, which is no control character, by a
letter, or by four hexadecimal digits. -/
inductive UnitSpelling : Nat → List Char → Prop where
  | char {c : Char} (hquote : c ≠ '"') (hbackslash : c ≠ '\\') (hcontrol : 32 ≤ c.toNat) :
    UnitSpelling c.toNat [c]
  | letter {e c : Char} (h : (e, c) ∈ letterEscapes) : UnitSpelling c.toNat ['\\', e]
  | hex {a b c d : Char} {n : Nat} (h : hexNumber? [a, b, c, d] = some n) :
    UnitSpelling n ['\\', 'u', a, b, c, d]

/-- Code units written one after another. -/
inductive UnitsSpelling : List Nat → List Char → Prop where
  | nil : UnitsSpelling [] []
  | cons {n : Nat} {us : List Nat} {t s : List Char} (h : UnitSpelling n t)
    (hs : UnitsSpelling us s) : UnitsSpelling (n :: us) (t ++ s)

/-- The characters that code units stand for: one unit is the code point of a character, and the two
halves of a surrogate pair are one character together. -/
inductive Decodes : List Nat → List Char → Prop where
  | nil : Decodes [] []
  | char {c : Char} {us : List Nat} {cs : List Char} (h : Decodes us cs) :
    Decodes (c.toNat :: us) (c :: cs)
  | pair {high low : Nat} {c : Char} {us : List Nat} {cs : List Char}
    (hhigh : 0xd800 ≤ high ∧ high ≤ 0xdbff) (hlow : 0xdc00 ≤ low ∧ low ≤ 0xdfff)
    (hc : c.toNat = 0x10000 + (high - 0xd800) * 0x400 + (low - 0xdc00)) (h : Decodes us cs) :
    Decodes (high :: low :: us) (c :: cs)

/-- The texts that can stand between quotes, and the strings they spell. A text in which a half of a
surrogate pair stands alone spells none. -/
inductive StringSpelling : Option String → List Char → Prop where
  | some {us : List Nat} {s : String} {t : List Char} (ht : UnitsSpelling us t)
    (h : Decodes us s.toList) : StringSpelling (some s) t
  | none {us : List Nat} {t : List Char} (ht : UnitsSpelling us t) (h : ∀ cs, ¬ Decodes us cs) :
    StringSpelling none t

theorem unescape?_eq_some_iff {e c : Char} : unescape? e = some c ↔ (e, c) ∈ letterEscapes := by
  constructor
  · intro h
    unfold unescape? at h
    split at h <;> cases h <;> simp [letterEscapes]
  · intro h
    simp only [letterEscapes, List.mem_cons, Prod.mk.injEq, List.not_mem_nil, or_false] at h
    rcases h with ⟨rfl, rfl⟩ | ⟨rfl, rfl⟩ | ⟨rfl, rfl⟩ | ⟨rfl, rfl⟩ | ⟨rfl, rfl⟩ | ⟨rfl, rfl⟩ |
      ⟨rfl, rfl⟩ | ⟨rfl, rfl⟩ <;> rfl

/-- Code units that are read up to a quote are spelled by what stands before it. -/
theorem units_sound {s rest : List Char} {us : List Nat} (h : units s = some (us, rest)) :
    ∃ t, s = t ++ '"' :: rest ∧ UnitsSpelling us t := by
  fun_induction units s generalizing us with
  | case1 => cases h; exact ⟨[], rfl, .nil⟩
  | case2 a b c d s n hn ih =>
    obtain ⟨⟨us', r⟩, hu, he⟩ := Option.map_eq_some_iff.1 h
    cases he
    obtain ⟨t, rfl, ht⟩ := ih hu
    exact ⟨_, rfl, .cons (.hex hn) ht⟩
  | case3 => cases h
  | case4 e s _ c hc ih =>
    obtain ⟨⟨us', r⟩, hu, he⟩ := Option.map_eq_some_iff.1 h
    cases he
    obtain ⟨t, rfl, ht⟩ := ih hu
    exact ⟨_, rfl, .cons (.letter (unescape?_eq_some_iff.1 hc)) ht⟩
  | case5 => cases h
  | case6 => cases h
  | case7 c s hquote hhex hletter hcontrol ih =>
    obtain ⟨⟨us', r⟩, hu, he⟩ := Option.map_eq_some_iff.1 h
    cases he
    obtain ⟨t, rfl, ht⟩ := ih hu
    refine ⟨c :: t, rfl, .cons (.char hquote ?_ (Nat.le_of_not_lt hcontrol)) ht⟩
    rintro rfl
    -- something follows the backslash, so it is an escape
    cases t with
    | nil => exact hletter _ _ rfl rfl
    | cons d t => exact hletter _ _ rfl rfl
  | case8 => cases h

theorem units_unit {n : Nat} {t : List Char} (h : UnitSpelling n t) (s : List Char) :
    units (t ++ s) = (units s).map fun (us, rest) => (n :: us, rest) := by
  cases h with
  | char hquote hbackslash hcontrol =>
    rw [List.singleton_append, units.eq_4 _ s hquote (fun _ _ _ _ _ hc => absurd hc hbackslash)
      fun _ _ hc => absurd hc hbackslash, if_neg (Nat.not_lt.2 hcontrol)]
  | @letter e c h =>
    have hc := unescape?_eq_some_iff.2 h
    have hu : e ≠ 'u' := by
      rintro rfl
      cases hc
    rw [List.cons_append, List.singleton_append, units.eq_3 e s fun _ _ _ _ _ he => absurd he hu, hc]
  | hex h =>
    simp only [List.cons_append, List.nil_append]
    rw [units, h]

/-- Spelled code units are read up to the quote that closes them. -/
theorem units_append {us : List Nat} {t : List Char} (h : UnitsSpelling us t) (rest : List Char) :
    units (t ++ '"' :: rest) = some (us, rest) := by
  induction h with
  | nil => rw [List.nil_append, units]
  | cons h hs ih =>
    rw [List.append_assoc, units_unit h, ih]
    rfl

theorem hexValue?_lt {c : Char} {n : Nat} (h : hexValue? c = some n) : n < 16 := by
  unfold hexValue? at h
  split at h
  · rename_i hc
    have := Char.isDigit_iff_toNat.1 hc
    have : '0'.toNat = 48 ∧ '9'.toNat = 57 := ⟨rfl, rfl⟩
    cases h
    omega
  · split at h
    · rename_i hc
      cases h
      simp only [Bool.and_eq_true, decide_eq_true_eq, Char.le_def, UInt32.le_iff_toNat_le,
        Char.toNat_val] at hc
      have : 'a'.toNat = 97 ∧ 'f'.toNat = 102 := ⟨rfl, rfl⟩
      omega
    · split at h
      · rename_i hc
        cases h
        simp only [Bool.and_eq_true, decide_eq_true_eq, Char.le_def, UInt32.le_iff_toNat_le,
          Char.toNat_val] at hc
        have : 'A'.toNat = 65 ∧ 'F'.toNat = 70 := ⟨rfl, rfl⟩
        omega
      · cases h

theorem hexNumber?_lt {a b c d : Char} {n : Nat} (h : hexNumber? [a, b, c, d] = some n) :
    n < 0x10000 := by
  simp only [hexNumber?, List.foldlM_cons, List.foldlM_nil, Option.bind_eq_bind,
    Option.bind_eq_some_iff, Option.map_eq_some_iff, Option.pure_def, Option.some.injEq] at h
  obtain ⟨_, ⟨na, ha, rfl⟩, _, ⟨nb, hb, rfl⟩, _, ⟨nc, hc, rfl⟩, _, ⟨nd, hd, rfl⟩, rfl⟩ := h
  have := hexValue?_lt ha
  have := hexValue?_lt hb
  have := hexValue?_lt hc
  have := hexValue?_lt hd
  omega

theorem UnitSpelling.lt {n : Nat} {t : List Char} (h : UnitSpelling n t) : n < 0x110000 := by
  have hchar (c : Char) : c.toNat < 0x110000 := by
    have := c.valid
    simp only [UInt32.isValidChar, Nat.isValidChar] at this
    have hn : c.toNat = c.val.toNat := rfl
    omega
  cases h with
  | char => exact hchar _
  | letter => exact hchar _
  | hex h =>
    have := hexNumber?_lt h
    omega

/-- Every code unit that can be spelled is below the limit of characters. -/
theorem UnitsSpelling.lt {us : List Nat} {t : List Char} (h : UnitsSpelling us t) :
    ∀ n ∈ us, n < 0x110000 := by
  induction h with
  | nil => simp
  | cons h hs ih => exact List.forall_mem_cons.2 ⟨h.lt, ih⟩

/-- A character is no half of a surrogate pair. -/
theorem not_isSurrogate (c : Char) :
    isHighSurrogate c.toNat = false ∧ isLowSurrogate c.toNat = false := by
  have h := c.valid
  simp only [UInt32.isValidChar, Nat.isValidChar] at h
  have hn : c.toNat = c.val.toNat := rfl
  simp only [isHighSurrogate, isLowSurrogate, Bool.and_eq_false_iff, decide_eq_false_iff_not]
  omega

theorem toNat_ofNat {n : Nat} (h : n.isValidChar) : (Char.ofNat n).toNat = n := by
  rw [Char.ofNat, dif_pos h]
  rfl

/-- Code units are characters if the halves of pairs come in pairs. -/
theorem ofUnits?_eq_some_iff {us : List Nat} (hus : ∀ n ∈ us, n < 0x110000) {cs : List Char} :
    ofUnits? us = some cs ↔ Decodes us cs := by
  constructor
  · intro h
    fun_induction ofUnits? us generalizing cs with
    | case1 =>
      cases h
      exact .nil
    | case2 high hhigh low us hlow ih =>
      obtain ⟨cs', hcs, rfl⟩ := Option.map_eq_some_iff.1 h
      simp only [isHighSurrogate, isLowSurrogate, Bool.and_eq_true, decide_eq_true_eq] at hhigh hlow
      refine .pair hhigh hlow ?_ (ih (fun n hn => hus n (by simp [hn])) hcs)
      rw [ofPair, toNat_ofNat]
      simp only [Nat.isValidChar]
      omega
    | case3 => cases h
    | case4 => cases h
    | case5 => cases h
    | case6 n us hhigh hlow ih =>
      obtain ⟨cs', hcs, rfl⟩ := Option.map_eq_some_iff.1 h
      have hn := hus n List.mem_cons_self
      have hchar : (Char.ofNat n).toNat = n := by
        simp only [isHighSurrogate, isLowSurrogate, Bool.and_eq_true, decide_eq_true_eq] at hhigh hlow
        rw [toNat_ofNat]
        simp only [Nat.isValidChar]
        omega
      have := Decodes.char (c := Char.ofNat n) (ih (fun m hm => hus m (by simp [hm])) hcs)
      rwa [hchar] at this
  · intro h
    induction h with
    | nil => rfl
    | @char c us cs h ih =>
      obtain ⟨hhigh, hlow⟩ := not_isSurrogate c
      rw [ofUnits?.eq_def]
      simp [hhigh, hlow, ih fun n hn => hus n (by simp [hn])]
    | @pair high low c us cs hhigh hlow hc h ih =>
      have hhigh' : isHighSurrogate high = true := by simpa [isHighSurrogate] using hhigh
      have hlow' : isLowSurrogate low = true := by simpa [isLowSurrogate] using hlow
      rw [ofUnits?.eq_def]
      simp [hhigh', hlow', ih fun n hn => hus n (by simp [hn]), ofPair, ← hc]

/-- What stands before the closing quote spells the string that is read. -/
theorem body_eq_some_iff {s rest : List Char} {text : Option String} :
    body s = some (text, rest) ↔ ∃ t, s = t ++ '"' :: rest ∧ StringSpelling text t := by
  constructor
  · intro h
    obtain ⟨⟨us, r⟩, hu, he⟩ := Option.map_eq_some_iff.1 h
    cases he
    obtain ⟨t, rfl, ht⟩ := units_sound hu
    refine ⟨t, rfl, ?_⟩
    cases hcs : ofUnits? us with
    | none =>
      refine .none ht fun cs hdecodes => ?_
      rw [(ofUnits?_eq_some_iff ht.lt).2 hdecodes] at hcs
      cases hcs
    | some cs =>
      refine .some ht ?_
      rw [String.toList_ofList]
      exact (ofUnits?_eq_some_iff ht.lt).1 hcs
  · rintro ⟨t, rfl, h⟩
    cases h with
    | some ht h =>
      rw [body, units_append ht]
      simp [(ofUnits?_eq_some_iff ht.lt).2 h]
    | @none us _ ht h =>
      have hnone : ofUnits? us = none := by
        cases hcs : ofUnits? us with
        | none => rfl
        | some cs => exact absurd ((ofUnits?_eq_some_iff ht.lt).1 hcs) (h cs)
      rw [body, units_append ht]
      simp [hnone]

end Dbml.Json
