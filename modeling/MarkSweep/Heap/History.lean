import MarkSweep.Heap.Collect

/-!
# Histories of a heap

A history is a sequence of calls of the operations of a heap. `Op.perform` carries out one call,
`run` the whole sequence, and `trace` keeps the outcome of every call. A call that ends in a fault
is part of a history like any other: the next one starts from the state that it left. What a caller
keeps to is said of the single call, in the state in which it is made (`Throughout`).
-/

namespace MarkSweep.Heap

variable {φ : Type}

/-- A call of an operation of the heap. -/
inductive Op (φ : Type) where
  /-- Allocate an object and charge so much for it. -/
  | allocate (object : Object) (size : UInt64) (finalizer : Option φ) (granted : Bool)
  /-- Change the payload of an object. -/
  | edit (target : Handle) (change : Object → Option Object)
  /-- Write a reference, with a check of the object that it refers to. -/
  | store (target : Handle) (field : RefField) (ref : Option Handle)
  /-- Mark without a sweep. -/
  | mark (roots : Roots)
  /-- Sweep without marking first. -/
  | sweep
  /-- Run a full collection. -/
  | collect (roots : Roots)
  /-- Release every object. -/
  | releaseAll

/-- What a call answers. -/
inductive Answer where
  /-- The handle of a new object. -/
  | allocated (h : Handle)
  /-- Whether a change was applied. -/
  | changed (applied : Bool)
  /-- The number of objects reached. -/
  | marked (reached : UInt64)
  /-- What a sweep released. -/
  | swept (stats : SweepStats)
  /-- What a full collection did. -/
  | collected (stats : CycleStats)
  deriving DecidableEq

/-- The outcome of a call, with answers and faults of all operations made one type. -/
def Op.perform (heap : Heap φ) : Op φ → Outcome φ AllocationError (Heap φ) Answer
  | allocate object size finalizer granted =>
    let o := heap.allocate object size finalizer granted
    ⟨o.answer.map .allocated, o.state, o.events⟩
  | edit target change =>
    let o := heap.edit target change
    ⟨(o.answer.map .changed).mapError .fault, o.state, o.events⟩
  | store target field ref =>
    let o := heap.store target field ref
    ⟨(o.answer.map .changed).mapError .fault, o.state, o.events⟩
  | mark roots =>
    let o := heap.mark roots
    ⟨(o.answer.map .marked).mapError .fault, o.state, o.events⟩
  | sweep =>
    let s := heap.sweep
    ⟨.ok (.swept s.stats), s.state, s.events⟩
  | collect roots =>
    let o := heap.collect roots
    ⟨(o.answer.map .collected).mapError .fault, o.state, o.events⟩
  | releaseAll =>
    let s := heap.releaseAll
    ⟨.ok (.swept s.stats), s.state, s.events⟩

/-- The outcomes of calls performed one after the other. -/
def trace (heap : Heap φ) : List (Op φ) → List (Outcome φ AllocationError (Heap φ) Answer)
  | [] => []
  | op :: ops => op.perform heap :: trace (op.perform heap).state ops

/-- The heap after calls performed one after the other. -/
def run (heap : Heap φ) : List (Op φ) → Heap φ
  | [] => heap
  | op :: ops => run (op.perform heap).state ops

/-- Every call of a history keeps to a rule, in the state in which it is made. -/
def Throughout (rule : Heap φ → Op φ → Prop) (heap : Heap φ) : List (Op φ) → Prop
  | [] => True
  | op :: ops => rule heap op ∧ Throughout rule (op.perform heap).state ops

instance decidableThroughout (rule : Heap φ → Op φ → Prop)
    [∀ heap op, Decidable (rule heap op)] :
    (heap : Heap φ) → (ops : List (Op φ)) → Decidable (heap.Throughout rule ops)
  | _, [] => inferInstanceAs (Decidable True)
  | heap, op :: ops =>
    have := decidableThroughout rule (op.perform heap).state ops
    inferInstanceAs (Decidable (rule heap op ∧ Throughout rule (op.perform heap).state ops))

/-- A property that every call keeps holds at the end of every history that starts with it. -/
theorem run_induction {p : Heap φ → Prop}
    (hstep : ∀ heap op, p heap → p (Op.perform heap op).state) {heap : Heap φ} (h : p heap)
    (ops : List (Op φ)) : p (heap.run ops) := by
  induction ops generalizing heap with
  | nil => exact h
  | cons op ops ih => exact ih (hstep heap op h)

theorem run_append (heap : Heap φ) (ops more : List (Op φ)) :
    heap.run (ops ++ more) = (heap.run ops).run more := by
  induction ops generalizing heap with
  | nil => rfl
  | cons op ops ih => exact ih _

/-- A property that is kept by every call that keeps to a rule holds at the end of every history of
such calls that starts with it. -/
theorem run_induction_of_throughout {p : Heap φ → Prop} {rule : Heap φ → Op φ → Prop}
    (hstep : ∀ heap op, p heap → rule heap op → p (Op.perform heap op).state) {heap : Heap φ}
    (h : p heap) {ops : List (Op φ)} (hrule : heap.Throughout rule ops) : p (heap.run ops) := by
  induction ops generalizing heap with
  | nil => exact h
  | cons op ops ih => exact ih (hstep heap op h hrule.1) hrule.2

theorem throughout_append {rule : Heap φ → Op φ → Prop} {heap : Heap φ} {ops more : List (Op φ)} :
    heap.Throughout rule (ops ++ more) ↔
      heap.Throughout rule ops ∧ (heap.run ops).Throughout rule more := by
  induction ops generalizing heap with
  | nil => exact (iff_of_eq (true_and _)).symm
  | cons op ops ih =>
    rw [List.cons_append, Throughout, ih, Throughout, and_assoc]
    rfl

end MarkSweep.Heap
