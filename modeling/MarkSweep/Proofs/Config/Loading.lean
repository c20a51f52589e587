import MarkSweep.Config.Spelling
import MarkSweep.Word

/-!
# Loading reads each setting by itself

Loading goes from one setting to the next, and each builder starts from what the last one left. That
the settings do not get in each other's way comes from two facts about a builder: it sets its own
field (`Config.get_set_self`) and no other (`Config.get_set_of_ne`). So a field is what its variable
gives, or the standard value (`Config.get_load`).

What a variable gives is what its text spells, since reading finds no more and no less than that
(`Setting.read_eq_ok_iff`). For numerals this is a matter of digits and of the largest word, for
policies one of names; in both the margins are of no account, because there is no blank in a digit,
in a sign or in a letter of either case. As every field is written as a text that spells its value,
loading is the inverse of writing (`Config.load_each`).
-/

namespace MarkSweep

/-! ### Names of policies -/

namespace Policy

variable {p : Policy}

/-- The case of a letter is no matter of blanks. -/
theorem isBlank_toLower (c : Char) : Text.isBlank c.toLower = Text.isBlank c := by
  by_cases hupper : 'A'.val ≤ c.val ∧ c.val ≤ 'Z'.val
  · have hge : 65 ≤ c.toNat := hupper.1
    have hle : c.toNat ≤ 90 := hupper.2
    have hlower : c.toLower.toNat = c.toNat + 32 := by
      have hval : c.toLower.val = c.val + 32 := congrArg Char.val (dif_pos hupper)
      rw [Char.toNat, hval, UInt32.toNat_add]
      exact Nat.mod_eq_of_lt (Nat.lt_of_le_of_lt (Nat.add_le_add_right hle 32) (by decide))
    simp only [Text.isBlank, Text.blankRanges, List.any_cons, List.any_nil, hlower]
    rw [Bool.eq_iff_iff]
    simp only [Bool.or_eq_true, Bool.and_eq_true, decide_eq_true_eq, Bool.false_eq_true, or_false]
    omega
  · exact congrArg Text.isBlank (dif_neg hupper)

theorem isBlank_eq_false_of_mem_names {name : String} (hname : name ∈ p.names) :
    ∀ c ∈ name.toList, Text.isBlank c = false := by
  have hnames : p.names.all fun name => name.toList.all fun c => !Text.isBlank c := by
    cases p <;> rfl
  intro c hc
  simpa using List.all_eq_true.1 (List.all_eq_true.1 hnames name hname) c hc

theorem isBlank_eq_false_of_lower_mem_names {core : List Char}
    (hcore : String.ofList (core.map Char.toLower) ∈ p.names) :
    ∀ c ∈ core, Text.isBlank c = false := by
  intro c hc
  rw [← isBlank_toLower]
  refine isBlank_eq_false_of_mem_names hcore _ ?_
  rw [String.toList_ofList]
  exact List.mem_map_of_mem hc

/-- A name is looked for within blank margins, and again within those of what is found. -/
theorem isNamed_trim_iff {text : List Char} :
    p.isNamed (String.ofList (Text.trim text)) ↔
      ∃ core, Text.Margined core text ∧ String.ofList (core.map Char.toLower) ∈ p.names := by
  rw [isNamed, String.toList_ofList, List.contains_iff_mem]
  constructor
  · exact fun hnamed =>
      ⟨_, (Text.margined_trim _).trans (Text.margined_trim text), hnamed⟩
  · rintro ⟨core, hmargined, hname⟩
    have hblank := isBlank_eq_false_of_lower_mem_names hname
    rw [(Text.trim_eq_iff_margined hblank).2 hmargined,
      (Text.trim_eq_iff_margined hblank).2 (.refl core)]
    exact hname

/-- No name is that of two policies. -/
theorem ofText_eq_ok_iff {given : String} : ofText given = .ok p ↔ p.isNamed given := by
  have hdisjoint : static.isNamed given → ¬ adaptive.isNamed given := by
    have hnames : ∀ name ∈ names static, name ∉ names adaptive := by decide
    simp only [isNamed, List.contains_iff_mem]
    exact hnames _
  rw [ofText]
  by_cases hstatic : static.isNamed given
  · cases p <;> simp [hstatic, hdisjoint hstatic]
  · by_cases hadaptive : adaptive.isNamed given
    · cases p <;> simp [hstatic, hadaptive]
    · cases p <;> simp [hstatic, hadaptive]

end Policy

/-! ### One setting -/

namespace Setting

variable {s : Setting}

/-- The value of a setting that is read from a text. -/
def read : (s : Setting) → List Char → Except SettingError s.Value
  | objectsThreshold | bytesThreshold | maxBytes => Config.readNumeral
  | policy => Config.readPolicy

/-- The warnings about the variable of a setting: one if it is present and cannot be read. -/
def warnings (lookup : String → Option String) (s : Setting) : List Warning :=
  (Config.readSetting lookup s s.read).2

private theorem mapError_eq_ok_iff {ε ε' α : Type} {x : Except ε α} {f : ε → ε'} {a : α} :
    x.mapError f = .ok a ↔ x = .ok a := by
  cases x with
  | error cause => exact ⟨nofun, nofun⟩
  | ok b => exact ⟨fun h => congrArg _ (Except.ok.inj h), fun h => congrArg _ (Except.ok.inj h)⟩

theorem readNumeral_eq_ok_iff {text : List Char} {n : UInt64} : Config.readNumeral text = .ok n ↔
    ∃ core, Text.Margined core text ∧ Text.Denotes core n.toNat := by
  rw [Config.readNumeral, mapError_eq_ok_iff, Text.readWord_eq_ok_iff]
  constructor
  · exact fun h => ⟨_, Text.margined_trim text, h⟩
  · rintro ⟨core, hmargined, hdenotes⟩
    rwa [(Text.trim_eq_iff_margined hdenotes.isBlank_eq_false).2 hmargined]

theorem readPolicy_eq_ok_iff {text : List Char} {p : Policy} : Config.readPolicy text = .ok p ↔
    ∃ core, Text.Margined core text ∧ String.ofList (core.map Char.toLower) ∈ p.names := by
  rw [Config.readPolicy, mapError_eq_ok_iff, Policy.ofText_eq_ok_iff, Policy.isNamed_trim_iff]

/-- **What is read is what the text spells.** -/
theorem read_eq_ok_iff {text : String} {v : s.Value} :
    s.read text.toList = .ok v ↔ s.Spells text v := by
  cases s with
  | objectsThreshold | bytesThreshold | maxBytes => exact readNumeral_eq_ok_iff
  | policy => exact readPolicy_eq_ok_iff

end Setting

namespace Config

/-! ### From setting to setting -/

/-- The configuration with another value for a setting, as its builder takes it. -/
def set (c : Config) : (s : Setting) → s.Value → Config
  | .objectsThreshold, objects => c.withObjectsThreshold objects
  | .bytesThreshold, bytes => c.withBytesThreshold bytes
  | .maxBytes, bytes => c.withMaxBytes bytes
  | .policy, policy => c.withPolicy policy

/-- The configuration with the values that are found for some settings. -/
def fill (found : (s : Setting) → Option s.Value) (c : Config) (settings : List Setting) : Config :=
  settings.foldl (fun c s => (found s).elim c (c.set s)) c

theorem get_set_self (c : Config) (s : Setting) (v : s.Value) : (c.set s v).get s = s.adjust v := by
  cases s <;> rfl

/-- A builder leaves the other fields alone. -/
theorem get_set_of_ne (c : Config) {s s' : Setting} (v : s.Value) (hne : s ≠ s') :
    (c.set s v).get s' = c.get s' := by
  cases s <;> cases s' <;> first | rfl | exact absurd rfl hne

/-- A configuration is what it has for each setting. -/
theorem ext_get {c d : Config} (h : ∀ s, c.get s = d.get s) : c = d := by
  cases c
  cases d
  rw [Config.mk.injEq]
  exact ⟨h .objectsThreshold, h .bytesThreshold, h .maxBytes, h .policy⟩

variable {found : (s : Setting) → Option s.Value} {settings : List Setting} {s : Setting}

/-- Nor does it change them where nothing is found. -/
theorem get_elim_set_of_ne (c : Config) {s s' : Setting} (v : Option s.Value) (hne : s ≠ s') :
    (v.elim c (c.set s)).get s' = c.get s' := by
  cases v with
  | none => rfl
  | some v => exact c.get_set_of_ne v hne

theorem get_fill_of_not_mem (c : Config) (hs : s ∉ settings) :
    (c.fill found settings).get s = c.get s := by
  induction settings generalizing c with
  | nil => rfl
  | cons t settings ih =>
    rw [List.mem_cons, not_or] at hs
    exact (ih _ hs.2).trans (c.get_elim_set_of_ne _ (Ne.symm hs.1))

/-- What is found for a setting decides about its field, and nothing else does. -/
theorem get_fill_of_mem (c : Config) (hnodup : settings.Nodup) (hs : s ∈ settings) :
    (c.fill found settings).get s = (found s).elim (c.get s) s.adjust := by
  induction settings generalizing c with
  | nil => cases hs
  | cons t settings ih =>
    obtain ⟨hmem, hnodup⟩ := List.nodup_cons.1 hnodup
    rw [fill, List.foldl_cons]
    rcases List.mem_cons.1 hs with rfl | hs
    · refine (get_fill_of_not_mem _ hmem).trans ?_
      cases found s with
      | none => rfl
      | some v => exact c.get_set_self s v
    · have hne : t ≠ s := fun heq => hmem (heq ▸ hs)
      rw [← c.get_elim_set_of_ne (found t) hne]
      exact ih _ hnodup hs

/-! ### All settings -/

variable {lookup : String → Option String} {text : String}

/-- **A field comes from its own variable**, or is the standard one. -/
theorem get_load (lookup : String → Option String) (s : Setting) : (load lookup).1.get s =
    ((readSetting lookup s s.read).1.elim (standard.get s) s.adjust : s.Value) := by
  have hfill : (load lookup).1 =
      standard.fill (fun s => (readSetting lookup s s.read).1) Setting.all := rfl
  rw [hfill, get_fill_of_mem]
  · decide
  · cases s <;> decide

theorem warnings_load (lookup : String → Option String) :
    (load lookup).2 = Setting.all.flatMap (Setting.warnings lookup) := by
  simp only [load, Setting.all, List.flatMap_cons, List.flatMap_nil, List.append_nil,
    List.append_assoc]
  rfl

theorem readSetting_eq_some_iff {v : s.Value} : (readSetting lookup s s.read).1 = some v ↔
    ∃ text, lookup s.variableName = some text ∧ s.Spells text v := by
  rw [readSetting]
  rcases hvalue : lookup s.variableName with _ | text
  · simp
  · rcases hread : s.read text.toList with cause | result
    · simp [← Setting.read_eq_ok_iff, hread]
    · simp [← Setting.read_eq_ok_iff, hread]

theorem mem_warnings_iff {w : Warning} : w ∈ s.warnings lookup ↔
    w.setting = s ∧ lookup s.variableName = some w.value ∧
      s.read w.value.toList = .error w.cause := by
  obtain ⟨setting, value, cause⟩ := w
  rw [Setting.warnings, readSetting]
  rcases hvalue : lookup s.variableName with _ | text
  · simp
  · rcases hread : s.read text.toList with error | result
    · simp only [hread, List.mem_singleton, Warning.mk.injEq, Option.some.injEq]
      constructor
      · rintro ⟨rfl, rfl, rfl⟩
        exact ⟨rfl, rfl, hread⟩
      · rintro ⟨rfl, rfl, hread'⟩
        exact ⟨rfl, rfl, Except.error.inj (hread'.symm.trans hread)⟩
    · simp only [hread, List.not_mem_nil, Option.some.injEq, false_iff, not_and]
      rintro - rfl
      simp [hread]

/-- **The variables that are warned about** are those that are present and spell nothing. -/
theorem exists_warning_iff : (∃ w ∈ (load lookup).2, w.setting = s ∧ w.value = text) ↔
    lookup s.variableName = some text ∧ ∀ v, ¬ s.Spells text v := by
  simp only [warnings_load, List.mem_flatMap, ← Setting.read_eq_ok_iff]
  constructor
  · rintro ⟨w, ⟨s', -, hw⟩, rfl, rfl⟩
    obtain ⟨rfl, hvalue, hread⟩ := mem_warnings_iff.1 hw
    exact ⟨hvalue, by simp [hread]⟩
  · rintro ⟨hvalue, hread⟩
    rcases hcause : s.read text.toList with cause | v
    · exact ⟨⟨s, text, cause⟩, ⟨s, by cases s <;> decide, mem_warnings_iff.2 ⟨rfl, hvalue, hcause⟩⟩,
        rfl, rfl⟩
    · exact absurd hcause (hread v)

/-- The warnings follow the order of the settings, with one for each at most. -/
theorem sublist_settings_warnings (lookup : String → Option String) (settings : List Setting) :
    ((settings.flatMap (Setting.warnings lookup)).map Warning.setting).Sublist settings := by
  have hone (s : Setting) : ((s.warnings lookup).map Warning.setting).Sublist [s] := by
    rw [Setting.warnings, readSetting]
    rcases lookup s.variableName with _ | text
    · exact List.nil_sublist _
    · rcases hread : s.read text.toList with cause | result <;> simp only [hread]
      · exact List.Sublist.refl [s]
      · exact List.nil_sublist _
  induction settings with
  | nil => exact List.Sublist.refl _
  | cons s settings ih =>
    rw [List.flatMap_cons, List.map_append]
    exact (hone s).append ih

/-! ### Written configurations -/

variable {c : Config}

/-- What a field is written as spells its value. -/
theorem Writes.spells (h : c.Writes s text) : s.Spells text (c.get s) := by
  obtain ⟨core, hmargined, hcore⟩ := h
  refine ⟨core, hmargined, ?_⟩
  cases s with
  | objectsThreshold | bytesThreshold | maxBytes =>
    obtain ⟨zeros, rfl⟩ := hcore
    exact .inl (Text.digits_replicate_zero_append zeros _)
  | policy =>
    have hname (p : Policy) : p.name ∈ p.names := by cases p <;> decide
    change String.ofList (core.map Char.toLower) ∈ c.policy.names
    rw [hcore]
    exact hname c.policy

/-- Thresholds of one and more are taken as they are. -/
theorem adjust_get (hobjects : 1 ≤ c.objectsThreshold) (hbytes : 1 ≤ c.bytesThreshold)
    (s : Setting) : s.adjust (c.get s) = c.get s := by
  have hmax {n : UInt64} (hle : 1 ≤ n) : max n 1 = n := by
    rw [← UInt64.toNat_inj, Word.toNat_max]
    exact Nat.max_eq_left hle
  cases s with
  | objectsThreshold => exact hmax hobjects
  | bytesThreshold => exact hmax hbytes
  | maxBytes | policy => rfl

/-- A setting has the value that its variable spells. -/
theorem get_load_of_spells {v : s.Value} (hvalue : lookup s.variableName = some text)
    (hspells : s.Spells text v) : (load lookup).1.get s = s.adjust v := by
  rw [get_load, readSetting_eq_some_iff.2 ⟨text, hvalue, hspells⟩]
  rfl

/-- What is written in its variables is what is loaded. -/
theorem load_of_writes (hobjects : 1 ≤ c.objectsThreshold) (hbytes : 1 ≤ c.bytesThreshold)
    (hwritten : ∀ s, ∃ text, lookup s.variableName = some text ∧ c.Writes s text) :
    load lookup = (c, []) := by
  refine Prod.ext (ext_get fun s => ?_) (List.eq_nil_iff_forall_not_mem.2 fun w hw => ?_)
  · obtain ⟨text, hvalue, hwrites⟩ := hwritten s
    rw [get_load_of_spells hvalue hwrites.spells, adjust_get hobjects hbytes]
  · obtain ⟨text, hvalue, hwrites⟩ := hwritten w.setting
    obtain ⟨hvalue', hnone⟩ := exists_warning_iff.1 ⟨w, hw, rfl, rfl⟩
    obtain rfl : text = w.value := Option.some.inj (hvalue.symm.trans hvalue')
    exact hnone _ hwrites.spells

/-- A field is written as what it is rendered as. -/
theorem writes_render (c : Config) (s : Setting) : c.Writes s (c.render s) := by
  refine ⟨_, .refl _, ?_⟩
  cases s with
  | objectsThreshold | bytesThreshold | maxBytes => exact ⟨0, rfl⟩
  | policy =>
    have hlower (p : Policy) : String.ofList (p.name.toList.map Char.toLower) = p.name := by
      cases p <;> rfl
    exact hlower c.policy

/-- **A configuration is found again** in the variables that stand for it. -/
theorem load_lookup (hobjects : 1 ≤ c.objectsThreshold) (hbytes : 1 ≤ c.bytesThreshold) :
    load c.lookup = (c, []) := by
  refine load_of_writes hobjects hbytes fun s => ⟨c.render s, ?_, c.writes_render s⟩
  cases s <;> rfl

/-! ### What loading gives -/

/-- **What loading gives** for the variables of a lookup, setting by setting. -/
structure LoadsEach (lookup : String → Option String) : Prop where
  /-- A setting has the value that its variable spells, as it is adjusted. -/
  spelled : ∀ s text v, lookup s.variableName = some text → s.Spells text v →
    (load lookup).1.get s = s.adjust v
  /-- A setting has the standard value if its variable is absent or spells nothing. -/
  unspelled : ∀ s, (∀ text v, lookup s.variableName = some text → ¬ s.Spells text v) →
    (load lookup).1.get s = standard.get s
  /-- No other variable matters. -/
  get_eq : ∀ lookup' s, lookup' s.variableName = lookup s.variableName →
    (load lookup').1.get s = (load lookup).1.get s
  /-- The variables that are warned about are those that are present and spell nothing. -/
  warned_iff : ∀ s text, (∃ w ∈ (load lookup).2, w.setting = s ∧ w.value = text) ↔
    lookup s.variableName = some text ∧ ∀ v, ¬ s.Spells text v
  /-- There is one warning at most about a variable. -/
  nodup : ((load lookup).2.map Warning.setting).Nodup
  /-- A configuration with thresholds that a builder takes is found again in what it is written
  as, without any warning. -/
  written : ∀ c : Config, 1 ≤ c.objectsThreshold → 1 ≤ c.bytesThreshold →
    (∀ s, ∃ text, lookup s.variableName = some text ∧ c.Writes s text) → load lookup = (c, [])

/-- **Loading is a matter of each setting by itself**, and the inverse of writing. -/
theorem load_each (lookup : String → Option String) : LoadsEach lookup := by
  constructor
  case spelled => exact fun s text v => get_load_of_spells
  case unspelled =>
    intro s hnone
    rw [get_load]
    rcases hread : (readSetting lookup s s.read).1 with _ | v
    · rfl
    · obtain ⟨text, hvalue, hspells⟩ := readSetting_eq_some_iff.1 hread
      exact absurd hspells (hnone text v hvalue)
  case get_eq =>
    intro lookup' s heq
    rw [get_load, get_load, readSetting, readSetting, heq]
  case warned_iff => exact fun s text => exists_warning_iff
  case nodup =>
    rw [warnings_load]
    exact (sublist_settings_warnings lookup Setting.all).nodup (by decide)
  case written => exact fun c => load_of_writes

end Config

end MarkSweep
