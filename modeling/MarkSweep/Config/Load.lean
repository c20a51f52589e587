import MarkSweep.Config
import MarkSweep.Text.Numeral

/-!
# Loading a configuration

Each field of a configuration has a variable. A variable that is present is read without its blank
margins: the thresholds and the limit as numerals, the policy by its name. What cannot be read is
reported, and the field keeps its standard value, as does a field whose variable is absent.

`Config.load` reads the four variables independently of each other, and the warnings follow the
order of the fields.
-/

namespace MarkSweep

/-- A field of a configuration that can be loaded. -/
inductive Setting where
  /-- The threshold for objects. -/
  | objectsThreshold
  /-- The threshold for bytes. -/
  | bytesThreshold
  /-- The limit on bytes. -/
  | maxBytes
  /-- The threshold policy. -/
  | policy
  deriving DecidableEq, Repr

/-- The variable of a setting. -/
def Setting.variableName : Setting → String
  | objectsThreshold => "TARN_GC_OBJECTS_THRESHOLD"
  | bytesThreshold => "TARN_GC_BYTES_THRESHOLD"
  | maxBytes => "TARN_GC_MAX_BYTES"
  | policy => "TARN_GC_POLICY"

/-- The setting of a variable. -/
def Setting.ofVariableName? (name : String) : Option Setting :=
  [objectsThreshold, bytesThreshold, maxBytes, policy].find? fun s => s.variableName = name

/-- Why the value of a variable cannot be read. -/
inductive SettingError where
  /-- The value is not a numeral. -/
  | numeral (cause : Text.NumeralError)
  /-- The value names no policy. -/
  | policy (cause : UnknownPolicy)
  deriving DecidableEq, Repr

/-- The wording of an unreadable value. -/
def SettingError.message : SettingError → String
  | numeral cause => cause.message
  | policy cause => cause.message

/-- A variable that was ignored, since its value cannot be read. -/
structure Warning where
  /-- The setting of the variable. -/
  setting : Setting
  /-- The value of the variable, with its blank margins. -/
  value : String
  /-- Why it cannot be read. -/
  cause : SettingError
  deriving DecidableEq, Repr

namespace Config

/-- The numeral that a text is, blank margins aside. -/
def readNumeral (text : List Char) : Except SettingError UInt64 :=
  (Text.readWord (Text.trim text)).mapError SettingError.numeral

/-- The policy that a text names. A name that is refused is reported without its blank margins. -/
def readPolicy (text : List Char) : Except SettingError Policy :=
  (Policy.ofText (String.ofList (Text.trim text))).mapError SettingError.policy

/-- The value of a setting as `read` reads it, or a warning if the variable is present and
unreadable. -/
def readSetting {α : Type} (lookup : String → Option String) (setting : Setting)
    (read : List Char → Except SettingError α) : Option α × List Warning :=
  match lookup setting.variableName with
  | none => (none, [])
  | some value =>
    match read value.toList with
    | .ok result => (some result, [])
    | .error cause => (none, [⟨setting, value, cause⟩])

/-- The configuration that a lookup of variables gives, and a warning for each variable that had
to be ignored. -/
def load (lookup : String → Option String) : Config × List Warning :=
  let objects := readSetting lookup .objectsThreshold readNumeral
  let bytes := readSetting lookup .bytesThreshold readNumeral
  let limit := readSetting lookup .maxBytes readNumeral
  let policy := readSetting lookup .policy readPolicy
  let config := objects.1.elim standard standard.withObjectsThreshold
  let config := bytes.1.elim config config.withBytesThreshold
  let config := limit.1.elim config config.withMaxBytes
  let config := policy.1.elim config config.withPolicy
  (config, objects.2 ++ bytes.2 ++ limit.2 ++ policy.2)

/-! ### The variables of a configuration -/

/-- The value of the variable of a setting: a plain decimal numeral, or the name of the policy. -/
def render (c : Config) : Setting → String
  | .objectsThreshold => toString c.objectsThreshold.toNat
  | .bytesThreshold => toString c.bytesThreshold.toNat
  | .maxBytes => toString c.maxBytes.toNat
  | .policy => c.policy.name

/-- The variables that stand for a configuration, as a lookup. -/
def lookup (c : Config) (name : String) : Option String :=
  (Setting.ofVariableName? name).map c.render

end Config

end MarkSweep
