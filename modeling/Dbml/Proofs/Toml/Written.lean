import Dbml.Toml.Value

/-!
# What a TOML text says

A string can be written at a path in many ways: under a header, with a dotted key, in braces, or
with parts of the path here and parts there. `Says` collects what statements say, one by one and
without any table. The table that they make up holds just that (`Table.holds_ofStatements`), however
the statements are ordered and whatever else they say: every function that changes a table adds to
what it holds and takes nothing away (`Table.Adds`).
-/

namespace Dbml.Toml

/-! ## What is held -/

/-- The tables in which a key below a value is looked up: all of them in an array of tables. -/
def Value.parts : Value → List Table
  | .table _ entries => [entries]
  | .tables last before => last :: before
  | _ => []

/-- The string `s` is in a value at the end of a path. -/
def Value.Holds (v : Value) (path : List String) (s : String) : Prop :=
  match path with
  | [] => v = .string s
  | k :: path => ∃ t ∈ v.parts, ∃ w, t.lookup k = some w ∧ w.Holds path s

/-- The string `s` is in a table at the end of a path. -/
def Table.Holds (t : Table) : List String → String → Prop
  | [], _ => False
  | k :: path, s => ∃ w, t.lookup k = some w ∧ w.Holds path s

namespace Value

variable {path : List String} {s : String}

theorem holds_string {text : String} : (string text).Holds path s ↔ path = [] ∧ text = s := by
  cases path <;> simp [Holds, parts]

@[simp]
theorem holds_table {origin : Origin} {t : Table} :
    (table origin t).Holds path s ↔ t.Holds path s := by
  cases path <;> simp [Holds, Table.Holds, parts]

@[simp]
theorem holds_tables {last : Table} {before : List Table} :
    (tables last before).Holds path s ↔ ∃ t ∈ last :: before, t.Holds path s := by
  cases path <;> simp [Holds, Table.Holds, parts]

/-- What is neither a string nor made of tables holds nothing. -/
theorem not_holds {v : Value} (hv : ∀ s, v ≠ string s) (hparts : v.parts = []) :
    ¬ v.Holds path s := by
  cases path <;> simp [Holds, hv, hparts]

end Value

@[simp]
theorem Table.not_holds_nil (path : List String) (s : String) : ¬ Table.Holds [] path s := by
  cases path <;> simp [Holds]

/-! ## What is added -/

/-- What is said below a path by what is said from its end. -/
def Below (path : List String) (new : List String → String → Prop) (q : List String) (s : String) :
    Prop :=
  ∃ rest, q = path ++ rest ∧ new rest s

theorem below_nil (new : List String → String → Prop) : Below [] new = new := by
  funext q s
  simp [Below]

theorem below_append (path path' : List String) (new : List String → String → Prop) :
    Below (path ++ path') new = Below path (Below path' new) := by
  funext q s
  simp only [Below, List.append_assoc, eq_iff_iff]
  constructor
  · rintro ⟨rest, rfl, h⟩
    exact ⟨_, rfl, rest, rfl, h⟩
  · rintro ⟨_, rfl, rest, rfl, h⟩
    exact ⟨rest, rfl, h⟩

theorem below_cons_iff {k j : String} {path q : List String} {new : List String → String → Prop}
    {s : String} : Below (k :: path) new (j :: q) s ↔ j = k ∧ Below path new q s := by
  simp [Below, and_assoc]

theorem below_false (path : List String) : Below path (fun _ _ => False) = fun _ _ => False := by
  funext q s
  simp [Below]

namespace Table

/-- The second table holds what the first one does and `new`, and nothing else. -/
def Adds (t t' : Table) (new : List String → String → Prop) : Prop :=
  ∀ q s, t'.Holds q s ↔ t.Holds q s ∨ new q s

variable {t t' : Table} {k : String} {v v' : Value} {new : List String → String → Prop}

theorem Adds.trans {t₁ t₂ t₃ : Table} {new' : List String → String → Prop} (h : Adds t₁ t₂ new)
    (h' : Adds t₂ t₃ new') : Adds t₁ t₃ fun q s => new q s ∨ new' q s := by
  intro q s
  rw [h', h, or_assoc]

theorem lookup_set_self (h : t.lookup k = some v') : (set k v t).lookup k = some v := by
  induction t with
  | nil => simp at h
  | cons e t ih =>
    obtain ⟨j, w⟩ := e
    by_cases hj : j = k
    · simp [set, hj]
    · have hk : (k == j) = false := by simpa using Ne.symm hj
      simp only [List.lookup_cons, hk] at h
      simp [set, hj, List.lookup_cons, hk, ih h]

theorem lookup_set_of_ne {j : String} (h : j ≠ k) : (set k v t).lookup j = t.lookup j := by
  induction t with
  | nil => rfl
  | cons e t ih =>
    obtain ⟨i, w⟩ := e
    by_cases hi : i = k
    · have hj : (j == k) = false := by simpa using h
      simp [set, hi, List.lookup_cons, hj]
    · simp [set, hi, List.lookup_cons, ih]

variable {path : List String}

/-- A new key holds what its value does. -/
theorem adds_cons (hk : t.lookup k = none) (hv : ∀ q s, v.Holds q s ↔ Below path new q s) :
    Adds t ((k, v) :: t) (Below (k :: path) new) := by
  intro q s
  cases q with
  | nil => simp [Holds, Below]
  | cons j q =>
    rw [below_cons_iff]
    by_cases hj : j = k
    · simp [Holds, hj, hk, hv]
    · have hj' : (j == k) = false := by simpa using hj
      simp [Holds, hj, hj', List.lookup_cons]

/-- A key whose value is changed holds what is added to the value. -/
theorem adds_set (hk : t.lookup k = some v)
    (hv : ∀ q s, v'.Holds q s ↔ v.Holds q s ∨ Below path new q s) :
    Adds t (set k v' t) (Below (k :: path) new) := by
  intro q s
  cases q with
  | nil => simp [Holds, Below]
  | cons j q =>
    rw [below_cons_iff]
    by_cases hj : j = k
    · simp [Holds, hj, hk, lookup_set_self hk, hv]
    · simp [Holds, hj, lookup_set_of_ne hj]

section Step

variable {origin origin' : Origin} {sub sub' : Table}

theorem adds_new_table (hk : t.lookup k = none) (h : Adds [] sub (Below path new)) :
    Adds t ((k, .table origin sub) :: t) (Below (k :: path) new) :=
  adds_cons hk fun q s => by rw [Value.holds_table, h q s, or_iff_right (not_holds_nil q s)]

theorem adds_table (hk : t.lookup k = some (.table origin sub))
    (h : Adds sub sub' (Below path new)) :
    Adds t (set k (.table origin' sub') t) (Below (k :: path) new) :=
  adds_set hk fun q s => by rw [Value.holds_table, Value.holds_table, h q s]

/-- The last table of an array that grows adds what is new in it. -/
theorem adds_tables {before : List Table} (hk : t.lookup k = some (.tables sub before))
    (h : Adds sub sub' (Below path new)) :
    Adds t (set k (.tables sub' before) t) (Below (k :: path) new) :=
  adds_set hk fun q s => by
    simp only [Value.holds_tables, List.mem_cons, exists_eq_or_imp, h q s]
    exact or_right_comm

end Step

/-! ## Changing tables -/

/-- Putting a value at a key adds what it holds below the key. -/
theorem adds_of_put {own : Bool} (h : put v own path t = some t') :
    Adds t t' (Below path v.Holds) := by
  fun_induction put v own path t generalizing t' with
  | case1 => cases h
  | case2 own k t hfree =>
    cases h
    have hk : t.lookup k = none := by simpa using (Bool.and_eq_true_iff.1 hfree).2
    exact adds_cons hk fun q s => by rw [below_nil]
  | case3 => cases h
  | case4 own k ks t _ hk ih =>
    obtain ⟨sub, hsub, rfl⟩ := Option.map_eq_some_iff.1 h
    exact adds_new_table hk (ih hsub)
  | case5 own k ks t _ origin sub hk horigin ih =>
    obtain ⟨sub', hsub, rfl⟩ := Option.map_eq_some_iff.1 h
    exact adds_table hk (ih hsub)
  | case6 => cases h
  | case7 own k ks t _ last before hk ih =>
    -- a dotted key goes on in the last table of an array
    obtain ⟨last', hlast, rfl⟩ := Option.map_eq_some_iff.1 h
    exact adds_tables hk (ih hlast)
  | case8 => cases h

/-- What a change adds at the end of a path is added below the path. -/
theorem adds_of_descend {change : Table → Option Table}
    (hchange : ∀ {t t'}, change t = some t' → Adds t t' new)
    (h : descend change path t = some t') : Adds t t' (Below path new) := by
  fun_induction descend change path t generalizing t' with
  | case1 t =>
    rw [below_nil]
    exact hchange h
  | case2 k ks t hk ih =>
    obtain ⟨sub, hsub, rfl⟩ := Option.map_eq_some_iff.1 h
    exact adds_new_table hk (ih hsub)
  | case3 => cases h
  | case4 k ks t origin sub hk horigin ih =>
    obtain ⟨sub', hsub, rfl⟩ := Option.map_eq_some_iff.1 h
    exact adds_table hk (ih hsub)
  | case5 k ks t last before hk ih =>
    obtain ⟨last', hlast, rfl⟩ := Option.map_eq_some_iff.1 h
    exact adds_tables hk (ih hlast)
  | case6 => cases h

/-- A header makes room for a table and puts nothing into it. -/
theorem adds_of_openTable (h : openTable k t = some t') : Adds t t' fun _ _ => False := by
  rw [← below_false [k]]
  unfold openTable at h
  split at h
  case h_1 hk =>
    cases h
    refine adds_new_table hk ?_
    exact fun q s => by simp [below_nil]
  case h_2 sub hk =>
    cases h
    refine adds_table hk ?_
    exact fun q s => by simp [below_nil]
  case h_3 => cases h

/-- A header makes room for one more table of an array and puts nothing into it. -/
theorem adds_of_openItem (h : openItem k t = some t') : Adds t t' fun _ _ => False := by
  rw [← below_false [k]]
  unfold openItem at h
  split at h
  case h_1 hk =>
    cases h
    refine adds_cons hk fun q s => ?_
    simp [below_nil]
  case h_2 last before hk =>
    cases h
    refine adds_set hk fun q s => ?_
    simp [below_nil]
  case h_3 => cases h

end Table

/-! ## What is said -/

/-- A term says that the string `s` is at the end of a path. -/
inductive Term.Says : Term → List String → String → Prop
  | string (s : String) : Says (.string s) [] s
  | inline {pairs : List (List String × Term)} {key : List String} {t : Term} {path : List String}
    {s : String} (hmem : (key, t) ∈ pairs) (h : Says t path s) :
    Says (.inline pairs) (key ++ path) s

/-- A statement says that the string `s` is at the end of a path when it stands under a header. -/
def Statement.Says (header : List String) : Statement → List String → String → Prop
  | .pair key t => Below (header ++ key) t.Says
  | .header _ => fun _ _ => False
  | .itemHeader _ => fun _ _ => False

/-- The header under which the statement after this one stands. -/
def Statement.headerAfter (header : List String) : Statement → List String
  | .pair _ _ => header
  | .header key => key
  | .itemHeader key => key

/-- One of some statements, which begin under a header, says that the string `s` is at the end of a
path. -/
inductive Says : List String → List Statement → List String → String → Prop
  | here {header path : List String} {st : Statement} {ss : List Statement} {s : String}
    (h : st.Says header path s) : Says header (st :: ss) path s
  | after {header path : List String} {st : Statement} {ss : List Statement} {s : String}
    (h : Says (st.headerAfter header) ss path s) : Says header (st :: ss) path s

/-- What statements say: what the first says, or the others under the header that it leaves. -/
theorem says_cons {header path : List String} {st : Statement} {ss : List Statement} {s : String} :
    Says header (st :: ss) path s ↔
      st.Says header path s ∨ Says (st.headerAfter header) ss path s := by
  constructor
  · rintro (h | h)
    · exact .inl h
    · exact .inr h
  · rintro (h | h)
    · exact .here h
    · exact .after h

/-- What some pairs say. -/
def PairsSay (pairs : List (List String × Term)) (q : List String) (s : String) : Prop :=
  ∃ p ∈ pairs, Below p.1 p.2.Says q s

theorem Term.says_inline {pairs : List (List String × Term)} {q : List String} {s : String} :
    (Term.inline pairs).Says q s ↔ PairsSay pairs q s := by
  constructor
  · rintro (_ | ⟨hmem, h⟩)
    exact ⟨_, hmem, _, rfl, h⟩
  · rintro ⟨⟨key, t⟩, hmem, path, rfl, h⟩
    exact .inline hmem h

-- The recursion is that of the terms: a table in braces is filled pair by pair, and each pair has a
-- smaller term.
mutual

/-- The value of a term holds what the term says. -/
theorem Term.holds_value {t : Term} {v : Value} (h : t.value? = some v) : v.Holds = t.Says := by
  funext q s
  rw [eq_iff_iff]
  match t with
  | .string text =>
    cases h
    rw [Value.holds_string]
    constructor
    · rintro ⟨rfl, rfl⟩
      exact .string text
    · rintro ⟨⟩
      exact ⟨rfl, rfl⟩
  | .integer _ | .float _ | .boolean _ | .dateTime _ =>
    cases h
    exact iff_of_false (Value.not_holds nofun rfl) nofun
  | .array items =>
    rw [Term.value?] at h
    obtain ⟨vs, -, rfl⟩ := Option.map_eq_some_iff.1 h
    exact iff_of_false (Value.not_holds nofun rfl) nofun
  | .inline pairs =>
    rw [Term.value?] at h
    obtain ⟨table, hfill, rfl⟩ := Option.map_eq_some_iff.1 h
    rw [Value.holds_table, Table.adds_of_fill hfill q s, Term.says_inline,
      or_iff_right (Table.not_holds_nil q s)]

/-- Pairs that are put into a table one after another add what they say. -/
theorem Table.adds_of_fill {t t' : Table} {pairs : List (List String × Term)}
    (h : fill? t pairs = some t') : Table.Adds t t' (PairsSay pairs) := by
  match pairs with
  | [] =>
    cases h
    exact fun q s => by simp [PairsSay]
  | (key, term) :: pairs =>
    rw [fill?] at h
    split at h
    case h_1 v hv =>
      split at h
      case h_1 t₁ hput =>
        have hadds := (Table.adds_of_put hput).trans (Table.adds_of_fill h)
        intro q s
        rw [hadds q s, Term.holds_value hv]
        simp [PairsSay]
      case h_2 => cases h
    case h_2 => cases h

end

/-! ## What a text comes to -/

/-- A statement adds what it says. -/
theorem Draft.adds_of_add {d d' : Draft} {st : Statement} (h : d.add st = some d') :
    Table.Adds d.root d'.root (st.Says d.path) ∧ d'.path = st.headerAfter d.path := by
  cases st with
  | pair key t =>
    obtain ⟨v, hv, h⟩ := Option.bind_eq_some_iff.1 h
    obtain ⟨root, hroot, h⟩ := Option.bind_eq_some_iff.1 h
    cases h
    refine ⟨?_, rfl⟩
    rw [Statement.Says, below_append, ← Term.holds_value hv]
    exact Table.adds_of_descend Table.adds_of_put hroot
  | header key =>
    obtain ⟨root, hroot, h⟩ := Option.bind_eq_some_iff.1 h
    cases h
    refine ⟨?_, rfl⟩
    rw [Statement.Says, ← below_false key.dropLast]
    exact Table.adds_of_descend Table.adds_of_openTable hroot
  | itemHeader key =>
    obtain ⟨root, hroot, h⟩ := Option.bind_eq_some_iff.1 h
    cases h
    refine ⟨?_, rfl⟩
    rw [Statement.Says, ← below_false key.dropLast]
    exact Table.adds_of_descend Table.adds_of_openItem hroot

/-- Statements add what they say, one after another. -/
theorem Draft.adds_of_foldlM {ss : List Statement} {d d' : Draft}
    (h : ss.foldlM Draft.add d = some d') : Table.Adds d.root d'.root (Says d.path ss) := by
  induction ss generalizing d with
  | nil =>
    cases h
    intro q s
    exact (or_iff_left nofun).symm
  | cons st ss ih =>
    rw [List.foldlM_cons] at h
    obtain ⟨d₁, hadd, hrest⟩ := Option.bind_eq_some_iff.1 h
    obtain ⟨hroot, hpath⟩ := adds_of_add hadd
    -- the rest of the statements stand under the header that the first one leaves
    intro q s
    rw [ih hrest q s, hroot q s, says_cons, hpath, or_assoc]

/-- A table holds what the statements say that make it up. -/
theorem Table.holds_ofStatements {ss : List Statement} {t : Table}
    (h : Table.ofStatements ss = some t) (q : List String) (s : String) :
    t.Holds q s ↔ Says [] ss q s := by
  obtain ⟨d, hd, rfl⟩ := Option.map_eq_some_iff.1 h
  rw [Draft.adds_of_foldlM hd q s, or_iff_right (Table.not_holds_nil q s)]

end Dbml.Toml
