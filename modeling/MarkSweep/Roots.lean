import MarkSweep.Object

/-!
# Root sets

The handles that a collection has to treat as live: the environment, the slots of the operand
stack, and whatever handles the caller still holds. A collection finds no roots on its own.
-/

namespace MarkSweep

/-- A root set. The same handle may occur in it more than once. -/
structure Roots where
  /-- The environment. -/
  env : Option Handle
  /-- The operand stack, bottom first. -/
  stack : List Handle
  /-- Further handles. -/
  extra : List Handle
  deriving DecidableEq, Repr

namespace Roots

/-- The root set that keeps nothing alive. -/
def empty : Roots := ⟨none, [], []⟩

/-- The roots of an environment and an operand stack. -/
def make (env : Option Handle) (stack : List Handle) : Roots := ⟨env, stack, []⟩

/-- The root set with further handles. -/
def extend (r : Roots) (handles : List Handle) : Roots := { r with extra := r.extra ++ handles }

/-- Every root: the environment, then the stack from the bottom, then the further handles. -/
def toList (r : Roots) : List Handle := r.env.toList ++ r.stack ++ r.extra

/-- The number of roots, each occurrence counted. -/
def size (r : Roots) : Nat := r.toList.length

/-- Whether there is no root. -/
def isEmpty (r : Roots) : Bool := r.toList.isEmpty

/-- The text of a root set. -/
def text (r : Roots) : String :=
  Text.record "Roots"
    [("env", refText r.env), ("stack", Text.sequence (r.stack.map Handle.text)),
      ("extra", Text.sequence (r.extra.map Handle.text))]

end Roots

end MarkSweep
