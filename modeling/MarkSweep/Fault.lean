import MarkSweep.Handle
import MarkSweep.Header
import MarkSweep.Text.Layout

/-!
# Faults and errors

Two sorts of failure are kept apart. A **fault** is a breach of what a caller promises, such as
the use of a handle whose object is gone, or of what the heap promises, such as a header that does
not decode. An **error** is a refusal that any caller has to expect: memory has run out, or the
operand stack is empty.
-/

namespace MarkSweep

/-! ### Faults -/

/-- A broken promise, found while an operation runs. -/
inductive Fault where
  /-- A handle whose object is no longer live was used. -/
  | staleHandle (handle : Handle)
  /-- The tag bits of a header stand for no kind. -/
  | corruptTag (header : Header) (cause : UnknownTag)
  /-- The colour byte of a header stands for no colour. -/
  | corruptColor (header : Header) (cause : UnknownColor)
  deriving DecidableEq, Repr

/-- The wording of a fault. -/
def Fault.message : Fault → String
  | staleHandle handle => "stale ValueRef: " ++ handle.text
  | corruptTag header cause =>
    "corrupt object header " ++ header.wordText ++ ": " ++ cause.message
  | corruptColor header cause =>
    "corrupt object header " ++ header.wordText ++ ": " ++ cause.message

namespace Header

/-- The kind in a header that is relied on: tag bits that do not decode are a fault. -/
def tagOrFault (h : Header) : Except Fault Tag := h.tag.mapError (Fault.corruptTag h)

/-- The colour in a header that is relied on: a colour byte that does not decode is a fault. -/
def colorOrFault (h : Header) : Except Fault Color := h.color.mapError (Fault.corruptColor h)

end Header

/-! ### Errors -/

/-- An allocation was refused. The limit is zero where none is set. -/
structure OutOfMemory where
  /-- The bytes that were asked for. -/
  requested : UInt64
  /-- The bytes that were allocated at the time. -/
  allocated : UInt64
  /-- The limit on allocated bytes. -/
  limit : UInt64
  deriving DecidableEq, Repr

namespace OutOfMemory

/-- The wording of a refusal. -/
def message (e : OutOfMemory) : String :=
  "out of memory: requested " ++ toString e.requested.toNat ++ " bytes with "
    ++ toString e.allocated.toNat ++ " bytes allocated (limit " ++ toString e.limit.toNat ++ ")"

/-- The parts of a refusal. -/
def text (e : OutOfMemory) : String :=
  Text.record "OutOfMemory"
    [("requested", toString e.requested.toNat), ("allocated", toString e.allocated.toNat),
      ("limit", toString e.limit.toNat)]

end OutOfMemory

/-- Why an operation on the operand stack failed. -/
inductive StackError where
  /-- There is no slot at the depth that was asked for. -/
  | underflow
  /-- The stack could not be given a capacity of `requested` slots. -/
  | growthFailed (requested : UInt64)
  /-- The stack had capacity left but no storage for it, and got none. -/
  | exhausted
  deriving DecidableEq, Repr

namespace StackError

/-- The wording of a failure. -/
def message : StackError → String
  | underflow => "stack underflow"
  | growthFailed requested =>
    "stack growth to " ++ toString requested.toNat ++ " slots failed"
  | exhausted => "stack storage exhausted"

/-- The parts of a failure. -/
def text : StackError → String
  | underflow => "Underflow"
  | growthFailed requested =>
    Text.record "GrowthFailed" [("requested", toString requested.toNat)]
  | exhausted => "Exhausted"

end StackError

/-- Why a heap object could not be allocated. -/
inductive AllocationError where
  /-- A promise was broken on the way. -/
  | fault (cause : Fault)
  /-- There was no memory. -/
  | outOfMemory (cause : OutOfMemory)
  deriving DecidableEq, Repr

namespace AllocationError

/-- The wording of a failed allocation. -/
def message : AllocationError → String
  | fault cause => cause.message
  | outOfMemory cause => cause.message

end AllocationError

/-- An error of a machine: one of its heap or one of its operand stack. -/
inductive MachineError where
  /-- The heap refused an allocation. -/
  | heap (cause : OutOfMemory)
  /-- The operand stack failed. -/
  | stack (cause : StackError)
  deriving DecidableEq, Repr

namespace MachineError

/-- The wording of an error of a machine is that of its cause. -/
def message : MachineError → String
  | heap cause => cause.message
  | stack cause => cause.message

/-- The parts of an error of a machine. -/
def text : MachineError → String
  | heap cause => Text.applied "Gc" cause.text
  | stack cause => Text.applied "Stack" cause.text

end MachineError

end MarkSweep
