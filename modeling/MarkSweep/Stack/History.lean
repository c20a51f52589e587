import MarkSweep.Stack

/-!
# Histories of a stack

A history is a sequence of calls of the operations of a stack. Where a stack is copied the history
goes on with the copy.

Beside the stack runs a plain list, with the top at its end (`Op.onList`). It has no capacity and
asks for no memory, so that it takes every slot that is pushed. `Plays` relates a history to what
it answers if it is one of a plain list, but for the pushes that are refused: those the list skips.
-/

namespace MarkSweep.Stack

variable {α : Type}

/-- A call of an operation of a stack. -/
inductive Op (α : Type) where
  /-- Put a slot on top. -/
  | push (slot : α) (granted : Bool)
  /-- Take the top slot. -/
  | pop
  /-- Look at the top slot. -/
  | peek
  /-- Look at the slot `depth` places below the top. -/
  | peekNth (depth : UInt64)
  /-- Leave at most so many slots. -/
  | truncate (size : UInt64)
  /-- Take every slot. -/
  | clear
  /-- Copy the stack, and go on with the copy. -/
  | clone
  deriving DecidableEq

/-- What a call answers: a slot or nothing in particular, or why it failed. -/
abbrev Answer (α : Type) := Except StackError (Option α)

namespace Op

/-- The outcome of a call. A stack runs no finalizers. -/
def perform (s : Stack α) : Op α → Outcome Empty StackError (Stack α) (Option α)
  | push slot granted =>
    let o := s.push slot granted
    ⟨o.answer.map fun _ => none, o.state, o.events⟩
  | pop =>
    let o := s.pop
    ⟨o.answer.map some, o.state, o.events⟩
  | peek => .quiet (s.peek.map some) s
  | peekNth depth => .quiet ((s.peekNth depth).map some) s
  | truncate size => .quiet (.ok none) (s.truncate size)
  | clear => .quiet (.ok none) s.clear
  | clone => .quiet (.ok none) s.clone

/-- The answer that is the slot found in a list, if any. -/
def answerOf : Option α → Answer α
  | some slot => .ok (some slot)
  | none => .error .underflow

/-- The answer to a call, and the list after it, where the stack is a plain list with the top at its
end. -/
def onList (l : List α) : Op α → Answer α × List α
  | push slot _ => (.ok none, l ++ [slot])
  | pop => (answerOf l.getLast?, l.dropLast)
  | peek => (answerOf l.getLast?, l)
  | peekNth depth => (answerOf l.reverse[depth.toNat]?, l)
  | truncate size => (.ok none, l.take size.toNat)
  | clear => (.ok none, [])
  | clone => (.ok none, l)

end Op

/-- The stack after calls performed one after the other. -/
def run (s : Stack α) : List (Op α) → Stack α
  | [] => s
  | op :: ops => run (op.perform s).state ops

/-- The answers to calls performed one after the other. -/
def trace (s : Stack α) : List (Op α) → List (Answer α)
  | [] => []
  | op :: ops => (op.perform s).answer :: trace (op.perform s).state ops

/-- A history of a plain list, from one list to another, with its answers. -/
inductive Plays : List α → List (Op α) → List (Answer α) → List α → Prop
  /-- No call is made. -/
  | nil (l : List α) : Plays l [] [] l
  /-- The first call does what it does to a list. -/
  | step {l last : List α} {ops : List (Op α)} {answers : List (Answer α)} (op : Op α)
      (tail : Plays (op.onList l).2 ops answers last) :
      Plays l (op :: ops) ((op.onList l).1 :: answers) last
  /-- The first call is a push, and is refused. -/
  | refused {l last : List α} {ops : List (Op α)} {answers : List (Answer α)} (slot : α)
      (granted : Bool) (error : StackError) (tail : Plays l ops answers last) :
      Plays l (.push slot granted :: ops) (.error error :: answers) last

theorem run_append (s : Stack α) (ops more : List (Op α)) :
    s.run (ops ++ more) = (s.run ops).run more := by
  induction ops generalizing s with
  | nil => rfl
  | cons op ops ih => exact ih _

/-- A property that every call keeps holds at the end of every history that starts with it. -/
theorem run_induction {p : Stack α → Prop}
    (hstep : ∀ s op, p s → p (Op.perform s op).state) {s : Stack α} (h : p s) (ops : List (Op α)) :
    p (s.run ops) := by
  induction ops generalizing s with
  | nil => exact h
  | cons op ops ih => exact ih (hstep s op h)

end MarkSweep.Stack
