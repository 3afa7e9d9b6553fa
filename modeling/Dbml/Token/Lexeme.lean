import Dbml.Text.Cut
import Dbml.Token.Kind

/-!
# Lexemes

What stands at the front of a text: the lexeme of a token, something to pass over, or an opening
mark that is never closed (`Front`). `Front.read` decides by the first character and takes as much
as belongs to it. A character that begins nothing is passed over alone.

The part taken and the rest make up the text again (`Front.text_read`), so a loop over a text ends
with the text (`Front.length_read`).
-/

namespace Dbml

/-! ## Classes of characters -/

/-- The characters of words: the letters of ASCII and the underscore. -/
def isWordChar (c : Char) : Bool := c.isAlpha || c == '_'

/-! ## The front of a text -/

/-- What stands at the front of a text. -/
inductive Front where
  /-- A token's lexeme: its kind, and its value without the marks around it. -/
  | lexeme (kind : Kind) (value : List Char)
  /-- Text between tokens: a blank, a comment or a character that begins nothing. -/
  | trivia (text : List Char)
  /-- The opening mark of a literal that is never closed. -/
  | openLiteral (literal : Literal)
  /-- The opening mark of a block comment that is never closed. -/
  | openComment
deriving DecidableEq, Repr

namespace Front

/-- The text taken from the front; an opening mark that is never closed leaves all in place. -/
def text : Front → List Char
  | lexeme kind value => kind.fence ++ value ++ kind.fence
  | trivia text => text
  | openLiteral _ => []
  | openComment => []

/-- A literal by the cut at its closing mark. -/
def ofCut (literal : Literal) (all : List Char) :
    Option (List Char × List Char) → Front × List Char
  | some (value, rest) => (lexeme (.literal literal) value, rest)
  | none => (openLiteral literal, all)

/-- A number that begins with the digit `c`: digits, and a fraction if a point and a digit follow. -/
def number (c : Char) (cs : List Char) : Front × List Char :=
  let whole := c :: cs.takeWhile Char.isDigit
  match cs.dropWhile Char.isDigit with
  | '.' :: d :: ds =>
    if d.isDigit then
      (lexeme (.literal .float) (whole ++ '.' :: d :: ds.takeWhile Char.isDigit),
        ds.dropWhile Char.isDigit)
    else (lexeme (.literal .int) whole, '.' :: d :: ds)
  | rest => (lexeme (.literal .int) whole, rest)

/-- What follows an apostrophe: two more open a multiline string, which knows no escapes. -/
def apostrophe (cs : List Char) : Front × List Char :=
  match cs with
  | '\'' :: '\'' :: body => ofCut .multiline ('\'' :: cs) (cutAt ['\'', '\'', '\''] body)
  | _ => ofCut .singleQuoted ('\'' :: cs) (cutQuoted '\'' cs)

/-- What follows a slash: a comment, or nothing that counts. Block comments do not nest. -/
def slash (cs : List Char) : Front × List Char :=
  match cs with
  | '/' :: line => (trivia ('/' :: '/' :: line.takeWhile (· ≠ '\n')), line.dropWhile (· ≠ '\n'))
  | '*' :: body =>
    match cutAt ['*', '/'] body with
    | some (inner, rest) => (trivia ('/' :: '*' :: inner ++ ['*', '/']), rest)
    | none => (openComment, '/' :: cs)
  | _ => (trivia ['/'], cs)

/-- The front of the text `c :: cs`, and the text after it. -/
def read (c : Char) (cs : List Char) : Front × List Char :=
  if isWordChar c then
    let word := c :: cs.takeWhile isWordChar
    (lexeme (Kind.ofWord (String.ofList word)) word, cs.dropWhile isWordChar)
  else if c.isDigit then number c cs
  else if c = '"' then ofCut .doubleQuoted (c :: cs) (cutQuoted '"' cs)
  else if c = '\'' then apostrophe cs
  else if c = '\x60' then ofCut .funcExpr (c :: cs) (cutAt ['\x60'] cs)
  else if c = '/' then slash cs
  else
    match Kind.ofSymbol? c with
    | some kind => (lexeme kind [c], cs)
    | none => (trivia [c], cs)

/-! ## Nothing is lost -/

/-- Words have no marks around them. -/
theorem fence_ofWord (w : String) : (Kind.ofWord w).fence = [] := by
  unfold Kind.ofWord; split <;> rfl

/-- Symbols have no marks around them. -/
theorem fence_ofSymbol? {c : Char} {kind : Kind} (h : Kind.ofSymbol? c = some kind) :
    kind.fence = [] := by
  unfold Kind.ofSymbol? at h
  split at h <;> cases h <;> rfl

theorem text_number (c : Char) (cs : List Char) :
    (number c cs).1.text ++ (number c cs).2 = c :: cs := by
  have h := List.takeWhile_append_dropWhile (p := Char.isDigit) (l := cs)
  unfold number
  split
  case h_1 d ds hd =>
    rw [hd] at h
    conv => rhs; rw [← h]
    split <;> simp [text, Kind.fence, List.takeWhile_append_dropWhile]
  case h_2 => simp [text, Kind.fence]

theorem text_ofCut {literal : Literal} {all s : List Char} {cut : Option (List Char × List Char)}
    (hall : all = (Kind.literal literal).fence ++ s)
    (hcut : ∀ value rest, cut = some (value, rest) →
      s = value ++ (Kind.literal literal).fence ++ rest) :
    (ofCut literal all cut).1.text ++ (ofCut literal all cut).2 = all := by
  match cut with
  | none => rfl
  | some (value, rest) => simp [ofCut, text, hall, hcut value rest rfl]

theorem text_apostrophe (cs : List Char) :
    (apostrophe cs).1.text ++ (apostrophe cs).2 = '\'' :: cs := by
  unfold apostrophe
  split
  case h_1 body =>
    exact text_ofCut (s := body) rfl fun value rest h => append_of_cutAt h
  case h_2 =>
    refine text_ofCut (s := cs) rfl fun value rest h => ?_
    simpa [Kind.fence] using append_of_cutQuoted h

theorem text_slash (cs : List Char) : (slash cs).1.text ++ (slash cs).2 = '/' :: cs := by
  unfold slash
  split
  case h_1 => simp [text, List.takeWhile_append_dropWhile]
  case h_2 body =>
    split
    case h_1 inner rest h => simp [text, append_of_cutAt h]
    case h_2 => rfl
  case h_3 => rfl

/-- What was taken and what is left make up the text. -/
theorem text_read (c : Char) (cs : List Char) : (read c cs).1.text ++ (read c cs).2 = c :: cs := by
  unfold read
  split
  · simp [text, fence_ofWord, List.takeWhile_append_dropWhile]
  split
  · exact text_number c cs
  split
  case isTrue h =>
    subst h
    refine text_ofCut (s := cs) rfl fun value rest h => ?_
    simpa [Kind.fence] using append_of_cutQuoted h
  split
  case isTrue h => subst h; exact text_apostrophe cs
  split
  case isTrue h =>
    subst h
    exact text_ofCut (s := cs) rfl fun value rest h => append_of_cutAt h
  split
  case isTrue h => subst h; exact text_slash cs
  split
  case h_1 kind h => simp [text, fence_ofSymbol? h]
  case h_2 => rfl

/-! ## Every step goes forward -/

/-- Whether something was taken: an opening mark that is never closed leaves all in place. -/
def isClosed : Front → Bool
  | lexeme .. => true
  | trivia .. => true
  | _ => false

theorem text_ofCut_ne_nil {literal : Literal} {all : List Char}
    {cut : Option (List Char × List Char)} (hf : (Kind.literal literal).fence ≠ []) :
    (ofCut literal all cut).1.isClosed → (ofCut literal all cut).1.text ≠ [] := by
  match cut with
  | none => simp [ofCut, isClosed]
  | some _ => simp [ofCut, text, hf]

theorem text_read_ne_nil (c : Char) (cs : List Char) :
    (read c cs).1.isClosed → (read c cs).1.text ≠ [] := by
  unfold read
  split
  · simp [text]
  split
  · unfold number
    split
    · split <;> simp [text]
    · simp [text]
  split
  · exact text_ofCut_ne_nil (by simp [Kind.fence])
  split
  · unfold apostrophe
    split <;> exact text_ofCut_ne_nil (by simp [Kind.fence])
  split
  · exact text_ofCut_ne_nil (by simp [Kind.fence])
  split
  · unfold slash
    split
    · simp [text]
    · split <;> simp [text, isClosed]
    · simp [text]
  split <;> simp [text]

/-- After a step that took something, less than the text is left. -/
theorem length_read {c : Char} {cs rest : List Char} {f : Front} (h : read c cs = (f, rest))
    (hf : f.isClosed) : rest.length < (c :: cs).length := by
  have happ := text_read c cs
  have hne := text_read_ne_nil c cs
  rw [h] at happ hne
  rw [← happ, List.length_append]
  have := List.length_pos_iff.2 (hne hf)
  simp only at this ⊢
  omega

end Front

end Dbml
