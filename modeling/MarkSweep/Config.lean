import MarkSweep.Text.Blank

/-!
# Configuration of the collector

When to collect, how much to allow, and how the thresholds behave after a collection. The builders
keep the thresholds at one or more; a configuration written down field by field may hold zeros,
which the heap takes for ones.
-/

namespace MarkSweep

/-! ### Threshold policies -/

/-- How the thresholds behave after a collection. -/
inductive Policy where
  /-- They stay as configured. -/
  | static
  /-- A threshold doubles when more than half of it is still in use. -/
  | adaptive
  deriving DecidableEq, Repr

/-- A text that names no policy. -/
structure UnknownPolicy where
  /-- The text, as it was given. -/
  given : String
  deriving DecidableEq, Repr

/-- The wording of a refused policy name. -/
def UnknownPolicy.message (e : UnknownPolicy) : String :=
  "unknown threshold policy `" ++ e.given ++ "` (expected `static` or `adaptive`)"

namespace Policy

/-- The name of a policy. -/
def name : Policy → String
  | static => "static"
  | adaptive => "adaptive"

/-- The names by which a policy is known. -/
def names : Policy → List String
  | static => ["static", "fixed"]
  | adaptive => ["adaptive", "grow"]

/-- Whether a text names the policy, whatever blanks surround the name and whichever case its
letters are in. Case is that of the twenty-six basic letters. -/
def isNamed (p : Policy) (given : String) : Bool :=
  p.names.contains (String.ofList ((Text.trim given.toList).map Char.toLower))

/-- The policy that a text names. -/
def ofText (given : String) : Except UnknownPolicy Policy :=
  if isNamed static given then .ok static
  else if isNamed adaptive given then .ok adaptive
  else .error ⟨given⟩

end Policy

/-! ### Configurations -/

/-- What a heap is configured with. -/
structure Config where
  /-- The number of live objects from which on the heap asks for a collection. -/
  objectsThreshold : UInt64
  /-- The number of allocated bytes from which on the heap asks for a collection. -/
  bytesThreshold : UInt64
  /-- The limit on allocated bytes; zero stands for no limit. -/
  maxBytes : UInt64
  /-- How the thresholds behave after a collection. -/
  policy : Policy
  deriving DecidableEq, Repr

namespace Config

/-- Ten thousand objects, one mebibyte, no limit, and thresholds that adapt. -/
def standard : Config := ⟨10000, 1048576, 0, .adaptive⟩

instance : Inhabited Config := ⟨standard⟩

/-- The configuration with another threshold for objects, at least one. -/
def withObjectsThreshold (c : Config) (objects : UInt64) : Config :=
  { c with objectsThreshold := max objects 1 }

/-- The configuration with another threshold for bytes, at least one. -/
def withBytesThreshold (c : Config) (bytes : UInt64) : Config :=
  { c with bytesThreshold := max bytes 1 }

/-- The configuration with another limit. -/
def withMaxBytes (c : Config) (bytes : UInt64) : Config := { c with maxBytes := bytes }

/-- The configuration with another policy. -/
def withPolicy (c : Config) (policy : Policy) : Config := { c with policy := policy }

end Config

end MarkSweep
