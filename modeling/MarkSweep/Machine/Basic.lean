import MarkSweep.Heap.Collect
import MarkSweep.Stack

/-!
# The machine

What an interpreter loop runs against: a heap, an operand stack and an environment. The machine
knows what the roots are. A collection is rooted at the environment, the slots of the stack and
whatever the caller adds, and at nothing else.
-/

namespace MarkSweep

/-- A machine whose finalizers are labelled by `φ`. -/
structure Machine (φ : Type) where
  /-- The heap. -/
  heap : Heap φ
  /-- The operand stack. -/
  stack : Stack Handle
  /-- The environment. -/
  env : Option Handle
  /-- Whether execution goes on. -/
  isRunning : Bool
  /-- The instruction pointer. -/
  ip : Label

namespace Machine

variable {φ ε α : Type}

/-- The capacity of the operand stack of a new machine. -/
def initialCapacity : UInt64 := 8

/-- A machine with an empty heap. -/
def ofConfig (config : Config) : Machine φ :=
  ⟨Heap.ofConfig config, Stack.withCapacity initialCapacity, none, true, 0⟩

/-- A new machine, announced. -/
def start (config : Config) : Machine φ × List (Event φ) :=
  (ofConfig config, [.machineInitialized config])

/-- A new machine with the configuration that a lookup of variables gives. -/
def startLoaded (lookup : String → Option String) : Machine φ × List (Event φ) :=
  let loaded := Config.load lookup
  let started := start loaded.1
  (started.1, loaded.2.map Event.settingIgnored ++ started.2)

/-- The machine with another heap. -/
def withHeap (m : Machine φ) (heap : Heap φ) : Machine φ := { m with heap := heap }

/-- Performs an operation on the heap. -/
def onHeap (m : Machine φ) (op : Heap φ → Outcome φ ε (Heap φ) α) : Outcome φ ε (Machine φ) α :=
  let ⟨heap, stack, env, isRunning, ip⟩ := m
  (op heap).mapState fun heap => ⟨heap, stack, env, isRunning, ip⟩

@[simp]
theorem state_onHeap (m : Machine φ) (op : Heap φ → Outcome φ ε (Heap φ) α) :
    (m.onHeap op).state = m.withHeap (op m.heap).state := rfl

@[simp]
theorem answer_onHeap (m : Machine φ) (op : Heap φ → Outcome φ ε (Heap φ) α) :
    (m.onHeap op).answer = (op m.heap).answer := rfl

@[simp]
theorem events_onHeap (m : Machine φ) (op : Heap φ → Outcome φ ε (Heap φ) α) :
    (m.onHeap op).events = (op m.heap).events := rfl

/-- The roots of a collection that the caller adds nothing to. -/
def roots (m : Machine φ) : Roots := Roots.make m.env m.stack.toList

/-! ### Operand stack and registers -/

/-- Performs an operation on the operand stack. -/
def onStack (m : Machine φ) (op : Stack Handle → Outcome φ ε (Stack Handle) α) :
    Outcome φ ε (Machine φ) α :=
  let ⟨heap, stack, env, isRunning, ip⟩ := m
  (op stack).mapState fun stack => ⟨heap, stack, env, isRunning, ip⟩

@[simp]
theorem state_onStack (m : Machine φ) (op : Stack Handle → Outcome φ ε (Stack Handle) α) :
    (m.onStack op).state = { m with stack := (op m.stack).state } := rfl

@[simp]
theorem answer_onStack (m : Machine φ) (op : Stack Handle → Outcome φ ε (Stack Handle) α) :
    (m.onStack op).answer = (op m.stack).answer := rfl

@[simp]
theorem events_onStack (m : Machine φ) (op : Stack Handle → Outcome φ ε (Stack Handle) α) :
    (m.onStack op).events = (op m.stack).events := rfl

/-- Puts a handle on the operand stack. -/
def push (m : Machine φ) (h : Handle) (granted : Bool) : Outcome φ StackError (Machine φ) Unit :=
  m.onStack fun stack => stack.push h granted

/-- Takes the top handle from the operand stack. -/
def pop (m : Machine φ) : Outcome φ StackError (Machine φ) Handle := m.onStack Stack.pop

/-- Leaves at most the lowest `size` handles on the operand stack. -/
def truncate (m : Machine φ) (size : UInt64) : Machine φ :=
  { m with stack := m.stack.truncate size }

/-- Takes every handle from the operand stack. -/
def clear (m : Machine φ) : Machine φ := { m with stack := m.stack.clear }

/-- The machine with another environment. -/
def withEnv (m : Machine φ) (env : Option Handle) : Machine φ := { m with env := env }

/-- The text of a machine. -/
def text (m : Machine φ) : String :=
  Text.record "Machine"
    [("heap", m.heap.text), ("stack", m.stack.text Handle.text), ("env", refText m.env),
      ("is_running", Text.truth m.isRunning), ("ip", toString m.ip.toNat)]

end Machine

end MarkSweep
