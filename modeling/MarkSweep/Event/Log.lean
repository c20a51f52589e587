import MarkSweep.Event

/-!
# The log

Every event but the run of a finalizer has an entry in the log: a level, the part of the system it
comes from, a title and named values. The entry of an activity that goes on for a while, a full
collection or the teardown of a machine, opens a span; the others tell of a single moment.
-/

namespace MarkSweep

/-- How much detail an entry is. -/
inductive LogLevel where
  /-- The finest detail. -/
  | trace
  /-- Summaries. -/
  | debug
  /-- Something that deserves attention. -/
  | warn
  deriving DecidableEq, Repr

/-- The name of a level. -/
def LogLevel.name : LogLevel → String
  | trace => "TRACE"
  | debug => "DEBUG"
  | warn => "WARN"

/-- The part of the system that an entry comes from. -/
inductive LogOrigin where
  /-- The loading of configurations. -/
  | config
  /-- The heap. -/
  | heap
  /-- The machine. -/
  | machine
  /-- The operand stack. -/
  | stack
  deriving DecidableEq, Repr

/-- An entry of the log. -/
structure LogEntry where
  /-- How much detail the entry is. -/
  level : LogLevel
  /-- Where the entry comes from. -/
  origin : LogOrigin
  /-- Whether the entry opens a span. -/
  opensSpan : Bool
  /-- What happened. -/
  title : String
  /-- The named values, as text. -/
  fields : List (String × String)
  deriving DecidableEq, Repr

/-- The text of a word in the log. -/
private def wordText (w : UInt64) : String := toString w.toNat

/-- The log entry of an event. -/
def Event.entry? {φ : Type} : Event φ → Option LogEntry
  | settingIgnored w =>
    some ⟨.warn, .config, false, "ignoring unparseable GC setting",
      [("var", w.setting.variableName), ("value", w.value), ("err", w.cause.message)]⟩
  | allocated handle tag size =>
    some ⟨.trace, .heap, false, "allocated",
      [("handle", handle.text), ("tag", tag.name), ("size", wordText size)]⟩
  | collectionStarted objects bytes roots =>
    some ⟨.debug, .heap, true, "mark_sweep",
      [("objects", wordText objects), ("bytes", wordText bytes), ("roots", toString roots)]⟩
  | finalized _ => none
  | objectsThresholdRaised threshold =>
    some ⟨.debug, .heap, false, "objects threshold raised", [("threshold", wordText threshold)]⟩
  | bytesThresholdRaised threshold =>
    some ⟨.debug, .heap, false, "bytes threshold raised", [("threshold", wordText threshold)]⟩
  | collectionFinished stats objectsThreshold bytesThreshold =>
    some ⟨.debug, .heap, false, "collection finished",
      [("marked", wordText stats.objectsMarked), ("freed", wordText stats.sweep.objectsFreed),
        ("bytes_freed", wordText stats.sweep.bytesFreed),
        ("finalizers", wordText stats.sweep.finalizersRun),
        ("objects_threshold", wordText objectsThreshold),
        ("bytes_threshold", wordText bytesThreshold)]⟩
  | machineInitialized config =>
    some ⟨.debug, .machine, false, "machine initialized",
      [("objects_threshold", wordText config.objectsThreshold),
        ("bytes_threshold", wordText config.bytesThreshold),
        ("max_bytes", wordText config.maxBytes), ("policy", config.policy.name)]⟩
  | collectionTriggered objects bytes =>
    some ⟨.debug, .machine, false, "allocation triggered collection",
      [("objects", wordText objects), ("bytes", wordText bytes)]⟩
  | teardownStarted objects =>
    some ⟨.debug, .machine, true, "free", [("objects", wordText objects)]⟩
  | stackGrown before after =>
    some ⟨.trace, .stack, false, "stack grown", [("from", wordText before), ("to", wordText after)]⟩

end MarkSweep
