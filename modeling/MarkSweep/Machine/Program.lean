import MarkSweep.Machine.Allocate

/-!
# Programs

A program names objects only through the roots of its machine: as the environment, or as the slot
of the operand stack at some depth. It never holds a handle of its own, so that what it does can be
compared between machines that give out different handles. A handle that a command answers is part
of its result, but no later command can name it.

A schedule is a program with full collections put in at will.
-/

namespace MarkSweep

/-- A reference as a program names it. -/
inductive Operand where
  /-- No reference. -/
  | absent
  /-- The environment. -/
  | env
  /-- The slot of the operand stack so far below the top. -/
  | slot (depth : UInt64)
  deriving DecidableEq, Repr

/-- An object with references written to all the fields that it has. -/
def Object.fill (refs : RefField → Option Handle) : Object → Object
  | pair _ _ => pair (refs .lhs) (refs .rhs)
  | tagged discriminant _ => tagged discriminant (refs .taggedValue)
  | closure _ entry => closure (refs .closureEnv) entry
  | object => object

/-- A command of a program. -/
inductive Command where
  /-- Allocate an object of the given shape, with these operands in its fields, and push it. -/
  | allocate (shape : Object) (lhs rhs : Operand)
  /-- Take the top slot from the operand stack. -/
  | pop
  /-- Leave at most so many slots on the operand stack. -/
  | truncate (size : UInt64)
  /-- Set the environment. -/
  | setEnv (source : Operand)
  /-- Write a reference to a field of the object in a slot. -/
  | store (depth : UInt64) (field : RefField) (source : Operand)
  deriving DecidableEq

/-- What the performance of a command comes to. -/
inductive CommandResult where
  /-- It was performed. -/
  | done
  /-- It was performed, and answered a handle: that of a new object, or the one taken off. -/
  | gave (h : Handle)
  /-- It was performed, and a change was applied or not. -/
  | stored (applied : Bool)
  /-- An operand names a slot that is not there. -/
  | underflow
  /-- There was no memory. -/
  | refused
  /-- A promise was broken on the way. -/
  | fault
  deriving DecidableEq, Repr

namespace Machine

variable {φ : Type}

/-- The reference that an operand names. -/
def resolve (m : Machine φ) : Operand → Except StackError (Option Handle)
  | .absent => .ok none
  | .env => .ok m.env
  | .slot depth => (m.stack.peekNth depth).map some

/-- The operands of an allocation by fields: the second one goes to the right half of a pair, and
the first one to any other field. -/
def assign (first second : Option Handle) (field : RefField) : Option Handle :=
  if field = .rhs then second else first

/-- Performs a command, with memory granted throughout. -/
def performCommand (m : Machine φ) : Command → CommandResult × Machine φ
  | .allocate shape lhs rhs =>
    match m.resolve lhs, m.resolve rhs with
    | .ok first, .ok second =>
      let allocated := m.allocate (shape.fill (assign first second)) none true
      match allocated.answer with
      | .error (.fault _) => (.fault, allocated.state)
      | .error (.outOfMemory _) => (.refused, allocated.state)
      | .ok h =>
        let pushed := allocated.state.push h true
        match pushed.answer with
        | .error _ => (.refused, pushed.state)
        | .ok _ => (.gave h, pushed.state)
    | _, _ => (.underflow, m)
  | .pop =>
    match m.pop.answer with
    | .error _ => (.underflow, m.pop.state)
    | .ok h => (.gave h, m.pop.state)
  | .truncate size => (.done, m.truncate size)
  | .setEnv source =>
    match m.resolve source with
    | .error _ => (.underflow, m)
    | .ok ref => (.done, m.withEnv ref)
  | .store depth field source =>
    match m.stack.peekNth depth, m.resolve source with
    | .ok target, .ok ref =>
      let stored := m.onHeap fun heap => heap.store target field ref
      match stored.answer with
      | .error _ => (.fault, stored.state)
      | .ok applied => (.stored applied, stored.state)
    | _, _ => (.underflow, m)

/-- A step of a schedule: a command, or a full collection rooted at the roots of the machine. -/
inductive ScheduleStep where
  /-- Perform a command. -/
  | command (c : Command)
  /-- Run a full collection. -/
  | collect
  deriving DecidableEq

/-- The machine after a step of a schedule. -/
def performStep (m : Machine φ) : ScheduleStep → Machine φ
  | .command c => (m.performCommand c).2
  | .collect => (m.collect none).state

/-- Whether the arena has a slot for one more object, and the operand stack can take one more
handle. -/
def canGrow (m : Machine φ) : Bool :=
  m.heap.hasSlot true && (!m.stack.isFull || 2 * m.stack.capacity.toNat < UInt64.size)

/-- Arena and operand stack can grow before every step of a schedule. -/
def GrowsThroughout (m : Machine φ) : List ScheduleStep → Prop
  | [] => True
  | step :: rest => m.canGrow ∧ GrowsThroughout (m.performStep step) rest

instance decidableGrowsThroughout :
    (m : Machine φ) → (schedule : List ScheduleStep) → Decidable (m.GrowsThroughout schedule)
  | _, [] => inferInstanceAs (Decidable True)
  | m, step :: rest =>
    have := decidableGrowsThroughout (m.performStep step) rest
    inferInstanceAs (Decidable (m.canGrow ∧ GrowsThroughout (m.performStep step) rest))

/-- The program of a schedule. -/
def programOf (schedule : List ScheduleStep) : List Command :=
  schedule.filterMap fun
    | .command c => some c
    | .collect => none

/-- The results of the commands of a schedule, each with the machine that the command leaves, and
the machine after the schedule. -/
def runSchedule (m : Machine φ) : List ScheduleStep → List (CommandResult × Machine φ) × Machine φ
  | [] => ([], m)
  | .command c :: rest =>
    let performed := m.performCommand c
    let (others, last) := performed.2.runSchedule rest
    (performed :: others, last)
  | .collect :: rest => (m.performStep .collect).runSchedule rest

end Machine

end MarkSweep
