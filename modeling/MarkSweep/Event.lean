import MarkSweep.Config.Load
import MarkSweep.Fault
import MarkSweep.Object
import MarkSweep.Stats

/-!
# Events and outcomes

Operations have effects beyond the state: they run finalizers, and they announce what they do. A
finalizer is a label of an arbitrary type, and running it is the event `Event.finalized`, which
tells which finalizer ran and for what. The outcome of an operation is its answer, the state it
leaves and its events in order. A fault ends an operation but not the account of it: the state is
the one at the time of the fault, and the events are those up to it.
-/

namespace MarkSweep

variable {φ ε σ τ α β : Type}

/-- The run of a finalizer, just before the storage of its object is given back. -/
structure Finalization (φ : Type) where
  /-- The finalizer. -/
  finalizer : φ
  /-- The handle of the object. -/
  handle : Handle
  /-- The payload of the object at that time. -/
  object : Object
  deriving DecidableEq

/-- Something that an operation does or announces. -/
inductive Event (φ : Type) where
  /-- A variable was ignored while a configuration was loaded. -/
  | settingIgnored (warning : Warning)
  /-- An object was allocated. -/
  | allocated (handle : Handle) (tag : Tag) (size : UInt64)
  /-- A full collection begins, with this much allocated and so many roots. -/
  | collectionStarted (objects bytes : UInt64) (roots : Nat)
  /-- A finalizer ran. -/
  | finalized (run : Finalization φ)
  /-- The threshold for objects was raised to this. -/
  | objectsThresholdRaised (threshold : UInt64)
  /-- The threshold for bytes was raised to this. -/
  | bytesThresholdRaised (threshold : UInt64)
  /-- A full collection is complete; the thresholds are those after it. -/
  | collectionFinished (stats : CycleStats) (objectsThreshold bytesThreshold : UInt64)
  /-- A machine was set up. -/
  | machineInitialized (config : Config)
  /-- An allocation begins with a collection, with this much allocated. -/
  | collectionTriggered (objects bytes : UInt64)
  /-- A machine is being taken down, with so many objects live. -/
  | teardownStarted (objects : UInt64)
  /-- The capacity of an operand stack grew. -/
  | stackGrown (before after : UInt64)
  deriving DecidableEq

namespace Event

/-- The run of a finalizer that an event tells of. -/
def finalization? : Event φ → Option (Finalization φ)
  | finalized run => some run
  | _ => none

/-- The runs of finalizers among events, in order. -/
def finalizations (events : List (Event φ)) : List (Finalization φ) :=
  events.filterMap finalization?

end Event

/-- What an operation leaves: its answer, the state after it, and its events in order. -/
structure Outcome (φ ε σ α : Type) where
  /-- The answer, or the reason why there is none. -/
  answer : Except ε α
  /-- The state after the operation, also when there is no answer. -/
  state : σ
  /-- What the operation did and announced. -/
  events : List (Event φ)

namespace Outcome

/-- The outcome of an operation that does and announces nothing. -/
def quiet (answer : Except ε α) (state : σ) : Outcome φ ε σ α := ⟨answer, state, []⟩

/-- The same outcome for a larger state. -/
def mapState (f : σ → τ) (o : Outcome φ ε σ α) : Outcome φ ε τ α :=
  ⟨o.answer, f o.state, o.events⟩

/-- The outcome after other events. -/
def after (events : List (Event φ)) (o : Outcome φ ε σ α) : Outcome φ ε σ α :=
  { o with events := events ++ o.events }

/-- An operation that goes on from the answer of another and the state that it leaves, unless there
is no answer. -/
def andThen (o : Outcome φ ε σ α) (next : α → σ → Outcome φ ε σ β) : Outcome φ ε σ β :=
  match o.answer with
  | .ok a => (next a o.state).after o.events
  | .error e => ⟨.error e, o.state, o.events⟩

end Outcome

end MarkSweep
