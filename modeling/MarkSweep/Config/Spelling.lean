import MarkSweep.Config.Load
import MarkSweep.Text.Spelling

/-!
# What a configuration looks like in its variables

Loading reads four variables, one after the other. Here is what it ought to find, for any one of
them: the values of a setting (`Setting.Value`), the texts that spell a value (`Setting.Spells`) and
those among them that a field is written as (`Config.Writes`).
-/

namespace MarkSweep

namespace Setting

/-- Every setting, in the order of the fields. -/
def all : List Setting := [objectsThreshold, bytesThreshold, maxBytes, policy]

/-- The values that a setting may have. -/
def Value : Setting → Type
  | objectsThreshold | bytesThreshold | maxBytes => UInt64
  | policy => Policy

/-- The text without its margins is a numeral, or a name of a policy whichever case its letters are
in. -/
def Names : (s : Setting) → List Char → s.Value → Prop
  | objectsThreshold, core, n | bytesThreshold, core, n | maxBytes, core, n =>
    Text.Denotes core (UInt64.toNat n)
  | policy, core, p => String.ofList (core.map Char.toLower) ∈ Policy.names p

/-- The text of a variable spells a value of its setting. -/
def Spells (s : Setting) (text : String) (v : s.Value) : Prop :=
  ∃ core, Text.Margined core text.toList ∧ s.Names core v

/-- The value that is taken for one that is spelled: a threshold is one at least. -/
def adjust : (s : Setting) → s.Value → s.Value
  | objectsThreshold, n | bytesThreshold, n => (max n 1 : UInt64)
  | maxBytes, n => n
  | policy, p => p

end Setting

namespace Config

/-- The value that a configuration has for a setting. -/
def get (c : Config) : (s : Setting) → s.Value
  | .objectsThreshold => c.objectsThreshold
  | .bytesThreshold => c.bytesThreshold
  | .maxBytes => c.maxBytes
  | .policy => c.policy

/-- The text is what a field is rendered as, with margins of blanks, zeros in front of a number, and
the letters of a name in any case. -/
def Writes (c : Config) (s : Setting) (text : String) : Prop :=
  ∃ core, Text.Margined core text.toList ∧
    match s with
    | .policy => String.ofList (core.map Char.toLower) = c.render .policy
    | s => ∃ zeros, core = List.replicate zeros '0' ++ (c.render s).toList

end Config

end MarkSweep
