import Dbml.Command.Settings
import Dbml.Proofs.Toml.Written
import Mathlib.Control.Monad.Basic

/-!
# One file and two keys

The settings come from one file, and from two strings in it. Which file counts is a matter of what
is there (`Chosen`); what a text says for a key is a matter of its statements (`Gives`), one by one,
so that neither their order nor the form of the table matters. A file that counts and cannot be
read, or is malformed, is an error (`load_one_file`).

Not all that is not a table is malformed. An array in the place of the table gives the two settings
by their order, and a date or a time gives none of them; so a file with `cli = []` counts and leaves
both settings at their defaults (`load_empty_array`).
-/

namespace Dbml.Settings

/-! ## The file that counts -/

/-- The file for settings in a directory for configurations. -/
def configFile (d : String) : Path := Path.join ⟨d⟩ ⟨"dbml/config.toml"⟩

/-- The file for settings in a home directory. -/
def homeFile (d : String) : Path := Path.join ⟨d⟩ ⟨".config/dbml/config.toml"⟩

/-- The file at a path counts: it is named, or none is named and it is the first of three places
where there is something. These are a file in the working directory and one each below the
directories that two variables name, if they are set. -/
inductive Chosen (fs : FileSystem) (env : Environment) : Option Path → Path → Prop
  | named (p : Path) : Chosen fs env (some p) p
  | here (h : fs.exists? ⟨"dbml.toml"⟩ = true) : Chosen fs env none ⟨"dbml.toml"⟩
  | configHome {d : String} (hd : env.configHome = some d)
    (hhere : fs.exists? ⟨"dbml.toml"⟩ = false) (h : fs.exists? (configFile d) = true) :
    Chosen fs env none (configFile d)
  | home {d : String} (hd : env.home = some d) (hhere : fs.exists? ⟨"dbml.toml"⟩ = false)
    (hconfig : ∀ c, env.configHome = some c → fs.exists? (configFile c) = false)
    (h : fs.exists? (homeFile d) = true) : Chosen fs env none (homeFile d)

variable {fs : FileSystem} {env : Environment} {named : Option Path} {p : Path}

/-- Where no file is named, the three places are tried in turn. -/
theorem file?_none : file? fs env none =
    if fs.exists? ⟨"dbml.toml"⟩ then some ⟨"dbml.toml"⟩
    else ((env.configHome.map configFile).filter fs.exists?).or
      ((env.home.map homeFile).filter fs.exists?) := by
  have hplaces : file? fs env none = (⟨"dbml.toml"⟩ :: (env.configHome.map configFile).toList
      ++ (env.home.map homeFile).toList).find? fs.exists? := rfl
  have hfind : ∀ o : Option Path, o.toList.find? fs.exists? = o.filter fs.exists? := by
    intro o
    cases o with
    | none => rfl
    | some q => cases hq : fs.exists? q <;> simp [hq, Option.filter]
  rw [hplaces, List.cons_append, List.find?_cons, List.find?_append, hfind, hfind]
  cases fs.exists? ⟨"dbml.toml"⟩ <;> rfl

/-- The file that counts is the one that is chosen by the order of the places. -/
theorem file?_eq_some_iff : file? fs env named = some p ↔ Chosen fs env named p := by
  cases named with
  | some q =>
    constructor
    · intro h
      cases h
      exact .named p
    · rintro ⟨⟩
      rfl
  | none =>
    rw [file?_none]
    constructor
    · intro h
      cases hhere : fs.exists? ⟨"dbml.toml"⟩ with
      | true =>
        rw [hhere] at h
        cases h
        exact .here hhere
      | false =>
        rw [hhere, if_neg Bool.false_ne_true, Option.or_eq_some_iff] at h
        simp only [Option.filter_eq_some_iff, Option.map_eq_some_iff, Option.filter_eq_none_iff] at h
        rcases h with ⟨⟨d, hd, rfl⟩, h⟩ | ⟨hconfig, ⟨d, hd, rfl⟩, h⟩
        · exact .configHome hd hhere h
        · refine .home hd hhere (fun c hc => ?_) h
          simpa using hconfig _ ⟨c, hc, rfl⟩
    · rintro (_ | h | ⟨hd, hhere, h⟩ | ⟨hd, hhere, hconfig, h⟩)
      · rw [if_pos h]
      · simp [hhere, hd, h, Option.filter]
      · have hnone : (env.configHome.map configFile).filter fs.exists? = none := by
          rw [Option.filter_eq_none_iff]
          intro q hq
          obtain ⟨c, hc, rfl⟩ := Option.map_eq_some_iff.1 hq
          simpa using hconfig c hc
        rw [hhere, if_neg Bool.false_ne_true, hnone, Option.none_or, hd, Option.map_some,
          Option.filter_some, if_pos h]

/-- The file that counts is the one that is read. -/
theorem load_of_chosen (h : Chosen fs env named p) : load fs env named = ofFile fs p := by
  rw [load, file?_eq_some_iff.2 h]

theorem load_of_not_chosen (h : ∀ p, ¬ Chosen fs env named p) : load fs env named = .ok {} := by
  have hnone : file? fs env named = none :=
    Option.eq_none_iff_forall_ne_some.2 fun p hp => h p (file?_eq_some_iff.1 hp)
  rw [load, hnone]

/-! ## What a text gives -/

/-- A text gives the string `s` for a key: one of its statements says so. -/
def Gives (text key s : String) : Prop :=
  ∃ ss, Toml.Statement.ofText? text = some ss ∧ Toml.Says [] ss ["cli", key] s

/-- Whether a value is a string if it is there. -/
def isTextIfAny : Option Toml.Value → Bool
  | none => true
  | some (.string _) => true
  | some _ => false

/-- Whether `cli` is a table and the two settings in it are strings, as far as they are there. -/
def isWellFormed (t : Toml.Table) : Bool :=
  match t.lookup "cli" with
  | none => true
  | some (.table _ entries) =>
    isTextIfAny (entries.lookup "default_schema_dir") &&
      isTextIfAny (entries.lookup "file_extension")
  | some _ => false

/-- A text is TOML in which `cli` is a table and the two settings are strings, as far as they are
there. -/
def WellFormed (text : String) : Prop := (Toml.parse? text).any isWellFormed = true

instance (text : String) : Decidable (WellFormed text) := inferInstanceAs (Decidable (_ = _))

/-- Whether there is nothing to take settings from, or a setting is no string: `cli` is neither a
table nor an array, nor a date or a time, or it is a table in which one of the two is something
else. -/
def isMalformed (t : Toml.Table) : Bool :=
  match t.lookup "cli" with
  | none => false
  | some (.table _ entries) =>
    !isTextIfAny (entries.lookup "default_schema_dir") || !isTextIfAny (entries.lookup "file_extension")
  | some (.array _) => false
  | some (.dateTime _) => false
  | some _ => true

/-- A text is not TOML, or settings cannot be taken from it. -/
def Malformed (text : String) : Prop := (Toml.parse? text).all isMalformed = true

instance (text : String) : Decidable (Malformed text) := inferInstanceAs (Decidable (_ = _))

/-- A text is TOML and has the value `v` at `cli`. -/
def HasCli (text : String) (v : Toml.Value) : Prop :=
  ∃ t, Toml.parse? text = some t ∧ t.lookup "cli" = some v

/-- A text is well formed or malformed, or there is an array or a date or a time in the place of the
table. -/
theorem wellFormed_or_malformed (text : String) :
    WellFormed text ∨ Malformed text ∨ (∃ items, HasCli text (.array items)) ∨
      ∃ d, HasCli text (.dateTime d) := by
  unfold WellFormed Malformed HasCli
  cases ht : Toml.parse? text with
  | none => exact .inr (.inl rfl)
  | some t =>
    simp only [Option.any_some, Option.all_some, Option.some.injEq, exists_eq_left']
    unfold isWellFormed isMalformed
    cases hcli : t.lookup "cli" with
    | none => exact .inl rfl
    | some v =>
      cases v with
      | table origin entries =>
        cases hdir : isTextIfAny (entries.lookup "default_schema_dir") <;>
          cases hext : isTextIfAny (entries.lookup "file_extension") <;> simp [hdir, hext]
      | array items => simp
      | dateTime d => simp
      | _ => exact .inr (.inl rfl)

/-- The text of a value that is a string. -/
def textOf? : Option Toml.Value → Option String
  | some (.string s) => some s
  | _ => none

/-- The string at a key under `cli`. -/
def textAt? (t : Toml.Table) (key : String) : Option String :=
  match t.lookup "cli" with
  | some (.table _ entries) => textOf? (entries.lookup key)
  | _ => none

section Table

variable {t : Toml.Table} {key s : String}

theorem text?_eq (default : String) (v : Option Toml.Value) :
    text? default v = if isTextIfAny v then some ((textOf? v).getD default) else none := by
  rcases v with _ | v
  · rfl
  · cases v <;> rfl

theorem textOf?_eq_some_iff {v : Option Toml.Value} :
    textOf? v = some s ↔ v = some (.string s) := by
  unfold textOf?
  split <;> simp_all

/-- The settings in a well-formed table: each of them by itself. -/
theorem ofTable?_of_isWellFormed (h : isWellFormed t = true) :
    ofTable? t = some ⟨(textAt? t "default_schema_dir").getD "schemas/",
      (textAt? t "file_extension").getD "dbml"⟩ := by
  unfold isWellFormed at h
  split at h
  case h_1 hcli => simp [ofTable?, textAt?, hcli]
  case h_2 entries hcli =>
    obtain ⟨hdir, hext⟩ := Bool.and_eq_true_iff.1 h
    simp [ofTable?, textAt?, hcli, ofValues?, text?_eq, hdir, hext]
  case h_3 => cases h

/-- There are no settings in a malformed table. -/
theorem ofTable?_of_isMalformed (h : isMalformed t = true) : ofTable? t = none := by
  unfold isMalformed at h
  split at h
  case h_1 => cases h
  case h_2 entries hcli =>
    simp only [ofTable?, hcli, ofValues?, text?_eq]
    rcases Bool.or_eq_true_iff.1 h with hdir | hext
    · simp [Bool.not_eq_true' _ ▸ hdir]
    · simp [Bool.not_eq_true' _ ▸ hext]
  case h_3 => cases h
  case h_4 => cases h
  case h_5 v htable harray hdate hcli =>
    cases v with
    | table origin entries => exact absurd rfl (htable origin entries)
    | array items => exact absurd rfl (harray items)
    | dateTime d => exact absurd rfl (hdate d)
    | _ => rw [ofTable?, hcli]

/-- The settings in an array are its first two items, each of them by itself. -/
theorem ofTable?_of_array {items : List Toml.Value} (h : t.lookup "cli" = some (.array items)) :
    ofTable? t = if isTextIfAny items[0]? && isTextIfAny items[1]? then
        some ⟨(textOf? items[0]?).getD "schemas/", (textOf? items[1]?).getD "dbml"⟩
      else none := by
  simp only [ofTable?, h, ofValues?, text?_eq]
  cases isTextIfAny items[0]? <;> cases isTextIfAny items[1]? <;> rfl

/-- What a well-formed table holds for a key is found in one place. -/
theorem holds_iff_textAt? (h : isWellFormed t = true) :
    t.Holds ["cli", key] s ↔ textAt? t key = some s := by
  unfold isWellFormed at h
  split at h
  case h_1 hcli => simp [Toml.Table.Holds, textAt?, hcli]
  case h_2 entries hcli =>
    simp [Toml.Table.Holds, Toml.Value.Holds, Toml.Value.parts, textAt?, hcli, textOf?_eq_some_iff]
  case h_3 => cases h

end Table

/-! ## What is read -/

section File

variable {text key s : String}

/-- What a well-formed text gives for a key is what is found there. -/
theorem gives_iff (h : WellFormed text) :
    Gives text key s ↔ (Toml.parse? text).bind (textAt? · key) = some s := by
  obtain ⟨t, ht, hwell⟩ := (Option.any_eq_true _ _).1 h
  obtain ⟨ss, hss, htable⟩ := Option.bind_eq_some_iff.1 ht
  rw [ht, Option.bind_some, ← holds_iff_textAt? hwell, Toml.Table.holds_ofStatements htable]
  constructor
  · rintro ⟨ss', hss', hsays⟩
    cases hss.symm.trans hss'
    exact hsays
  · exact fun hsays => ⟨ss, hss, hsays⟩

/-- The settings of a well-formed text: what it gives for each key, and the default for one that it
does not give. -/
theorem ofFile_of_wellFormed (hread : fs.read p = .ok text) (h : WellFormed text) :
    ∃ d e : Option String, (∀ s, d = some s ↔ Gives text "default_schema_dir" s) ∧
      (∀ s, e = some s ↔ Gives text "file_extension" s) ∧
      ofFile fs p = .ok ⟨d.getD "schemas/", e.getD "dbml"⟩ := by
  refine ⟨_, _, fun s => (gives_iff h).symm, fun s => (gives_iff h).symm, ?_⟩
  obtain ⟨t, ht, hwell⟩ := (Option.any_eq_true _ _).1 h
  simp [ofFile, hread, ht, ofTable?_of_isWellFormed hwell]

/-- The error of a file that settings cannot be taken from. -/
def malformedError (p : Path) : Failure :=
  .settings ("failed to parse " ++ p.text ++ ": <toml error>")

/-- A malformed text is an error that names the file. -/
theorem ofFile_of_malformed (hread : fs.read p = .ok text) (h : Malformed text) :
    ofFile fs p = .error (malformedError p) := by
  have hnone : (Toml.parse? text).bind ofTable? = none := by
    cases ht : Toml.parse? text with
    | none => rfl
    | some t =>
      rw [Malformed, ht] at h
      exact ofTable?_of_isMalformed h
  simp [ofFile, hread, hnone, malformedError]

/-- An array in the place of the table gives the settings by their order. -/
theorem ofFile_of_array {items : List Toml.Value} (hread : fs.read p = .ok text)
    (h : HasCli text (.array items)) :
    ofFile fs p = if isTextIfAny items[0]? && isTextIfAny items[1]? then
        .ok ⟨(textOf? items[0]?).getD "schemas/", (textOf? items[1]?).getD "dbml"⟩
      else .error (malformedError p) := by
  obtain ⟨t, ht, hcli⟩ := h
  have hsettings : (Toml.parse? text).bind ofTable? = ofTable? t := by
    rw [ht, Option.bind_some]
  simp only [ofFile, hread, hsettings, ofTable?_of_array hcli]
  cases isTextIfAny items[0]? && isTextIfAny items[1]? <;> rfl

/-- A date in the place of the table gives nothing. -/
theorem ofFile_of_dateTime {d : String} (hread : fs.read p = .ok text)
    (h : HasCli text (.dateTime d)) : ofFile fs p = .ok ⟨"schemas/", "dbml"⟩ := by
  obtain ⟨t, ht, hcli⟩ := h
  simp [ofFile, hread, ht, ofTable?, hcli]

end File

/-- What loading comes to when the file at `p` counts. -/
structure FromFile (fs : FileSystem) (env : Environment) (named : Option Path) (p : Path) :
    Prop where
  /-- Nothing counts but what is read at `p`. -/
  alone : ∀ {fs' env' named'}, Chosen fs' env' named' p → fs'.read p = fs.read p →
    load fs' env' named' = load fs env named
  unreadable : ∀ {e}, fs.read p = .error e → load fs env named = .error (.unreadable p e.message)
  /-- A text that is not TOML is an error, and so is one with other values at the keys. -/
  malformed : ∀ {text}, fs.read p = .ok text → Malformed text →
    load fs env named = .error (malformedError p)
  /-- Of an array the first two items are the settings; a missing one has its own default, one that
  is no string is an error, and more of them do not count. -/
  array : ∀ {text items}, fs.read p = .ok text → HasCli text (.array items) →
    load fs env named = if isTextIfAny items[0]? && isTextIfAny items[1]? then
        .ok ⟨(textOf? items[0]?).getD "schemas/", (textOf? items[1]?).getD "dbml"⟩
      else .error (malformedError p)
  dateTime : ∀ {text d}, fs.read p = .ok text → HasCli text (.dateTime d) →
    load fs env named = .ok ⟨"schemas/", "dbml"⟩
  /-- Each setting is what is given for its key, or else its own default. -/
  wellFormed : ∀ {text}, fs.read p = .ok text → WellFormed text →
    ∃ d e : Option String, (∀ s, d = some s ↔ Gives text "default_schema_dir" s) ∧
      (∀ s, e = some s ↔ Gives text "file_extension" s) ∧
      load fs env named = .ok ⟨d.getD "schemas/", e.getD "dbml"⟩
  /-- Two texts that give the same for the two keys make no difference, wherever they are. -/
  agree : ∀ {fs' env' named' p' text text'}, Chosen fs' env' named' p' →
    fs.read p = .ok text → fs'.read p' = .ok text' → WellFormed text → WellFormed text' →
    (∀ key ∈ ["default_schema_dir", "file_extension"], ∀ s, Gives text key s ↔ Gives text' key s) →
    load fs' env' named' = load fs env named

/-- **Settings come from one file and two keys.** The file that counts decides alone, also where it
is an error; what is given for the two keys decides the settings, however it is written. Where no
file counts, the settings are the defaults. Every text is of one of the forms that are spoken of. -/
theorem load_one_file :
    (∀ p, Chosen fs env named p → FromFile fs env named p) ∧
      ((∀ p, ¬ Chosen fs env named p) → load fs env named = .ok ⟨"schemas/", "dbml"⟩) ∧
      ∀ text, WellFormed text ∨ Malformed text ∨ (∃ items, HasCli text (.array items)) ∨
        ∃ d, HasCli text (.dateTime d) := by
  refine ⟨fun p hp => ?_, load_of_not_chosen, wellFormed_or_malformed⟩
  have hload := load_of_chosen hp
  constructor
  case alone =>
    intro fs' env' named' hp' hread
    rw [load_of_chosen hp', hload, ofFile, ofFile, hread]
  case unreadable =>
    intro e hread
    rw [hload, ofFile, hread]
  case malformed =>
    intro text hread h
    rw [hload, ofFile_of_malformed hread h]
  case array =>
    intro text items hread h
    rw [hload, ofFile_of_array hread h]
  case dateTime =>
    intro text d hread h
    rw [hload, ofFile_of_dateTime hread h]
  case wellFormed =>
    intro text hread h
    rw [hload]
    exact ofFile_of_wellFormed hread h
  case agree =>
    intro fs' env' named' p' text text' hp' hread hread' h h' hgives
    obtain ⟨d, e, hd, he, hfile⟩ := ofFile_of_wellFormed hread h
    obtain ⟨d', e', hd', he', hfile'⟩ := ofFile_of_wellFormed hread' h'
    -- a value is known by the strings that are given for it, and there is one at most
    have hdir : d' = d := Option.ext fun s => by
      rw [hd', hd, hgives _ (by simp)]
    have hext : e' = e := Option.ext fun s => by
      rw [he', he, hgives _ (by simp)]
    rw [load_of_chosen hp', hload, hfile, hfile', hdir, hext]

/-- A text with a header. -/
def headed : String := "[cli]\nfile_extension = \"txt\"\n"

/-- A text with a table in braces, among other things. -/
def braced : String :=
  "d.e = 1979-05-27\ncli = \x7b more = [1, []], 'file_extension' = 'txt' \x7d\n" ++
    "[[a.cli]]\nfile_extension = 1"

/-- Two spellings in two places come to the same, and a directory in front of one is an error. -/
theorem load_one_file_spellings :
    let headedLocally := FileSystem.empty.addFile ⟨"dbml.toml"⟩ headed.toUTF8
    let bracedElsewhere := FileSystem.empty.addFile ⟨"conf/dbml/config.toml"⟩ braced.toUTF8
    let behindDirectory := bracedElsewhere.addFile ⟨"dbml.toml/x"⟩ "".toUTF8
    load bracedElsewhere { configHome := some "conf" } none = load headedLocally {} none ∧
      load headedLocally {} none = .ok { fileExtension := "txt" } ∧
      load behindDirectory { configHome := some "conf" } none =
        .error (.unreadable ⟨"dbml.toml"⟩ "Is a directory (os error 21)") := by
  intro headedLocally bracedElsewhere behindDirectory
  have hlocal : Chosen headedLocally {} none ⟨"dbml.toml"⟩ :=
    file?_eq_some_iff.1 (by decide +kernel)
  have helsewhere : Chosen bracedElsewhere { configHome := some "conf" } none
      ⟨"conf/dbml/config.toml"⟩ :=
    file?_eq_some_iff.1 (by decide +kernel)
  have hdirectory : Chosen behindDirectory { configHome := some "conf" } none ⟨"dbml.toml"⟩ :=
    file?_eq_some_iff.1 (by decide +kernel)
  have hheaded : WellFormed headed := by decide +kernel
  have hbraced : WellFormed braced := by decide +kernel
  have hsame : ∀ key ∈ ["default_schema_dir", "file_extension"],
      (Toml.parse? headed).bind (textAt? · key) = (Toml.parse? braced).bind (textAt? · key) := by
    decide +kernel
  refine ⟨?_, by decide +kernel, ?_⟩
  · refine (load_one_file.1 _ hlocal).agree helsewhere (by decide +kernel) (by decide +kernel)
      hheaded hbraced ?_
    intro key hkey s
    rw [gives_iff hheaded, gives_iff hbraced, hsame key hkey]
  · exact (load_one_file.1 _ hdirectory).unreadable (e := .isADirectory) (by decide +kernel)

/-- An array in the place of the table, empty or not, and a date: the texts are not well formed, and
still they are taken for settings. -/
theorem load_empty_array :
    let load (text : String) :=
      load (FileSystem.empty.addFile ⟨"c.toml"⟩ text.toUTF8) {} (some ⟨"c.toml"⟩)
    ¬ WellFormed "cli = []" ∧ load "cli = []" = .ok ⟨"schemas/", "dbml"⟩ ∧
      ¬ WellFormed "cli = ['x', 'y']" ∧ load "cli = ['x', 'y']" = .ok ⟨"x", "y"⟩ ∧
      ¬ WellFormed "cli = 1979-05-27" ∧ load "cli = 1979-05-27" = .ok ⟨"schemas/", "dbml"⟩ := by
  decide +kernel

end Dbml.Settings
