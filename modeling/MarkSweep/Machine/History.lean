import MarkSweep.Heap.History
import MarkSweep.Machine.Allocate

/-!
# Histories of a machine

A history is a sequence of calls of the operations of a machine. `Op.Live` states what a caller
promises: every handle that is passed in a call is live at that moment.

A caller may also get hold of the heap of a machine, so that a history may be made of calls of both
(`Call`). Then the caller has more to promise (`Call.Orderly`). A caller who marks the heap without
a sweep leaves colours over that the next collection takes for its own, and one who sweeps it
without marking the roots takes from the machine what it holds.
-/

namespace MarkSweep.Machine

variable {φ : Type}

/-- A call of an operation of a machine. -/
inductive Op (φ : Type) where
  /-- Allocate an object, after a collection if one is called for. -/
  | allocate (object : Object) (finalizer : Option φ) (granted : Bool)
  /-- Run a full collection. -/
  | collect (extra : Option Handle)
  /-- Put a handle on the operand stack. -/
  | push (h : Handle) (granted : Bool)
  /-- Take the top handle from the operand stack. -/
  | pop
  /-- Leave at most so many handles on the operand stack. -/
  | truncate (size : UInt64)
  /-- Take every handle from the operand stack. -/
  | clear
  /-- Set the environment. -/
  | setEnv (env : Option Handle)
  /-- Write a reference, with a check of the object that it refers to. -/
  | store (target : Handle) (field : RefField) (ref : Option Handle)
  /-- Append integers to a vector. -/
  | append (target : Handle) (items : Array Int64)

/-- The handles that are passed in a call. -/
def Op.handles : Op φ → List Handle
  | allocate object _ _ => object.references
  | collect extra => extra.toList
  | push h _ => [h]
  | pop | truncate _ | clear => []
  | setEnv env => env.toList
  | store target _ ref => target :: ref.toList
  | append target _ => [target]

/-- Every handle that is passed in the call is live. -/
def Op.Live (m : Machine φ) (op : Op φ) : Prop := ∀ h ∈ op.handles, m.heap.contains h

instance (m : Machine φ) (op : Op φ) : Decidable (op.Live m) :=
  inferInstanceAs (Decidable (∀ h ∈ op.handles, m.heap.contains h))

/-- Why a call has no answer. -/
inductive Failure where
  /-- An allocation failed, or a promise was broken. -/
  | allocation (cause : AllocationError)
  /-- The operand stack failed. -/
  | stack (cause : StackError)
  deriving DecidableEq

/-- What a call answers. -/
inductive Answer where
  /-- Nothing in particular. -/
  | done
  /-- A handle. -/
  | handle (h : Handle)
  /-- Whether a change was applied. -/
  | changed (applied : Bool)
  /-- What a full collection did. -/
  | collected (stats : CycleStats)
  deriving DecidableEq

/-- The outcome of a call, with answers and failures of all operations made one type. -/
def Op.perform (m : Machine φ) : Op φ → Outcome φ Failure (Machine φ) Answer
  | allocate object finalizer granted =>
    let o := m.allocate object finalizer granted
    ⟨(o.answer.map .handle).mapError .allocation, o.state, o.events⟩
  | collect extra =>
    let o := m.collect extra
    ⟨(o.answer.map .collected).mapError fun f => .allocation (.fault f), o.state, o.events⟩
  | push h granted =>
    let o := m.push h granted
    ⟨(o.answer.map fun _ => .done).mapError .stack, o.state, o.events⟩
  | pop =>
    let o := m.pop
    ⟨(o.answer.map .handle).mapError .stack, o.state, o.events⟩
  | truncate size => .quiet (.ok .done) (m.truncate size)
  | clear => .quiet (.ok .done) m.clear
  | setEnv env => .quiet (.ok .done) (m.withEnv env)
  | store target field ref =>
    let o := m.onHeap fun heap => heap.store target field ref
    ⟨(o.answer.map .changed).mapError fun f => .allocation (.fault f), o.state, o.events⟩
  | append target items =>
    let o := m.onHeap fun heap => heap.append target items
    ⟨(o.answer.map .changed).mapError fun f => .allocation (.fault f), o.state, o.events⟩

/-- The machine after calls performed one after the other. -/
def run (m : Machine φ) : List (Op φ) → Machine φ
  | [] => m
  | op :: ops => run (op.perform m).state ops

/-- Every handle passed in any of the calls is live when it is passed. -/
def LiveCalls (m : Machine φ) : List (Op φ) → Prop
  | [] => True
  | op :: ops => op.Live m ∧ LiveCalls (op.perform m).state ops

instance decidableLiveCalls : (m : Machine φ) → (ops : List (Op φ)) → Decidable (m.LiveCalls ops)
  | _, [] => inferInstanceAs (Decidable True)
  | m, op :: ops =>
    have := decidableLiveCalls (op.perform m).state ops
    inferInstanceAs (Decidable (op.Live m ∧ LiveCalls (op.perform m).state ops))

/-- A property that every call with live handles keeps holds at the end of every history of such
calls that starts with it. -/
theorem run_induction {p : Machine φ → Prop}
    (hstep : ∀ m op, p m → Op.Live m op → p (Op.perform m op).state) {m : Machine φ} (h : p m)
    {ops : List (Op φ)} (hlive : m.LiveCalls ops) : p (m.run ops) := by
  induction ops generalizing m with
  | nil => exact h
  | cons op ops ih => exact ih (hstep m op h hlive.1) hlive.2

/-! ### Calls of the heap -/

/-- A call of an operation of a machine, or of its heap. -/
inductive Call (φ : Type) where
  /-- Call an operation of the machine. -/
  | ofMachine (op : Op φ)
  /-- Call an operation of the heap. -/
  | ofHeap (op : Heap.Op φ)

namespace Call

/-- The machine after a call. -/
def state (m : Machine φ) : Call φ → Machine φ
  | ofMachine op => (op.perform m).state
  | ofHeap op => m.withHeap (op.perform m.heap).state

/-- **What a caller promises** of calls that may be calls of the heap: every handle that is passed
is live, no reference is written without a check, and to mark and to sweep is left to full
collections, which count the roots of the machine. -/
def Orderly (m : Machine φ) : Call φ → Prop
  | ofMachine op => op.Live m
  | ofHeap (.allocate object _ _ _) => ∀ r ∈ object.references, m.heap.contains r
  | ofHeap (.edit target change) => m.heap.contains target ∧ ∀ old ∈ m.heap.get? target,
      ∀ new ∈ change old, new.tag = old.tag ∧ ∀ r ∈ new.references, r ∈ old.references
  | ofHeap (.store target _ ref) => ∀ h ∈ target :: ref.toList, m.heap.contains h
  | ofHeap (.collect roots) => (∀ r ∈ roots.toList, m.heap.contains r) ∧
      ∀ r ∈ m.roots.toList, r ∈ roots.toList
  | ofHeap (.mark _) | ofHeap .sweep | ofHeap .releaseAll => False

/-- Whether the call leaves it to the machine to put objects in. A machine collects first where its
heap asks for it; the heap does not. -/
def isPaced : Call φ → Bool
  | ofHeap (.allocate _ _ _ _) => false
  | ofMachine _ | ofHeap _ => true

end Call

/-- The machine after calls performed one after the other. -/
def runCalls (m : Machine φ) (calls : List (Call φ)) : Machine φ := calls.foldl Call.state m

/-- All of the calls keep the promise. -/
def OrderlyCalls (m : Machine φ) : List (Call φ) → Prop
  | [] => True
  | call :: calls => call.Orderly m ∧ OrderlyCalls (call.state m) calls

end MarkSweep.Machine
