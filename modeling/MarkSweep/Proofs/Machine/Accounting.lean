import MarkSweep.Machine.Ledger
import MarkSweep.Proofs.Heap.Accounting
import MarkSweep.Proofs.Stack.Push

/-!
# What a call of a machine comes down to

A call of a machine comes down to calls of its heap, which leave the same heap, run the same
finalizers and register the same ones (`Call.comesDown`). So what is true of the histories of a heap
is true of the heap of a machine throughout a history of the machine.
-/

namespace MarkSweep.Machine

variable {φ : Type} {m : Machine φ}

/-- **A call comes down to calls of the heap**: they leave the heap that it leaves, run the
finalizers that it runs, in the same order, and register those that it registers. -/
structure Call.ComesDown (m : Machine φ) (call : Call φ) : Prop where
  heap_eq : (call.state m).heap = m.heap.run (call.heapOps m)
  finalized_eq : call.finalized m = m.heap.finalized (call.heapOps m)
  registered_eq : (call.registered m).toList = m.heap.registered (call.heapOps m)

/-! ### Calls -/

theorem registered_eq_none {heap : Heap φ} {op : Heap.Op φ} (hnone : op.finalizer? = none) :
    op.registered heap = none := by
  rw [Heap.Op.registered, hnone]
  rcases op.issued heap with _ | h <;> rfl

theorem registered_allocate (heap : Heap φ) (object : Object) (size : UInt64)
    (finalizer : Option φ) (granted : Bool) :
    (Heap.Op.allocate object size finalizer granted).registered heap =
      (heap.allocate object size finalizer granted).answer.toOption.bind fun h =>
        finalizer.map fun finalizer => (h, finalizer) := by
  rw [Heap.Op.registered, Heap.Op.issued, Heap.Op.perform]
  rcases (heap.allocate object size finalizer granted).answer with e | h <;> rfl

namespace Call.ComesDown

/-- A call that leaves the heap alone. -/
theorem of_nil {call : Call φ} (hops : call.heapOps m = [])
    (hheap : (call.state m).heap = m.heap) (hruns : call.finalized m = [])
    (hnone : call.registered m = none) : call.ComesDown m := by
  refine ⟨?_, ?_, ?_⟩
  · rw [hops, hheap, Heap.run_nil]
  · rw [hops, hruns]
    rfl
  · rw [hops, hnone]
    rfl

/-- A call that is one call of the heap. -/
theorem of_singleton {call : Call φ} (op : Heap.Op φ) (hops : call.heapOps m = [op])
    (hheap : (call.state m).heap = (op.perform m.heap).state)
    (hruns : call.finalized m = op.finalized m.heap)
    (hregistered : call.registered m = op.registered m.heap) : call.ComesDown m := by
  refine ⟨?_, ?_, ?_⟩
  · rw [hops, hheap]
    rfl
  · rw [hops, hruns]
    exact (List.append_nil _).symm
  · rw [hops, hregistered]
    exact (List.append_nil _).symm

theorem push (m : Machine φ) (h : Handle) (granted : Bool) :
    (ofMachine (.push h granted) : Call φ).ComesDown m := by
  refine .of_nil rfl ?_ ?_ rfl
  · simp [Call.state, Op.perform, Machine.push]
  · rcases m.stack.push_cases φ h granted with ⟨stack, events, hpush, -, hevents⟩ | ⟨e, hpush⟩
    · simp [Call.finalized, Op.perform, Machine.push, hpush, hevents]
    · simp [Call.finalized, Op.perform, Machine.push, hpush, Outcome.quiet, Event.finalizations]

theorem pop (m : Machine φ) : (ofMachine .pop : Call φ).ComesDown m := by
  refine .of_nil rfl ?_ ?_ rfl
  · simp [Call.state, Op.perform, Machine.pop]
  · rcases hlast : m.stack.toList.getLast? with _ | h <;>
      simp [Call.finalized, Op.perform, Machine.pop, Stack.pop_eq, hlast, Outcome.quiet,
        Event.finalizations]

theorem allocate (m : Machine φ) (object : Object) (finalizer : Option φ) (granted : Bool) :
    (ofMachine (.allocate object finalizer granted) : Call φ).ComesDown m := by
  rcases hcollects : m.collectsFor object.size with _ | _
  · have heq := allocate_of_not_collectsFor hcollects finalizer granted
    refine .of_singleton (.allocate object object.size finalizer granted) ?_ ?_ ?_ ?_
    · exact Call.heapOps_of_not_collectsFor hcollects finalizer granted
    · rw [Call.state, Op.perform, heq]
      rfl
    · rw [Call.finalized, Op.perform, heq]
      rfl
    · rw [registered_allocate, Call.registered, heq]
      rfl
  · rcases hanswer : (m.heap.collect (m.roots.extend object.references)).answer with fault | stats
    · have heq := allocate_of_collect_error hcollects hanswer finalizer granted
      refine .of_singleton (.collect (m.roots.extend object.references)) ?_ ?_ ?_ ?_
      · exact Call.heapOps_of_collect_error hcollects hanswer finalizer granted
      · rw [Call.state, Op.perform, heq]
        rfl
      · rw [Call.finalized, Op.perform, heq]
        rfl
      · rw [registered_eq_none rfl, Call.registered, heq]
        rfl
    · have heq := allocate_of_collect_ok hcollects hanswer finalizer granted
      have hops := Call.heapOps_of_collect_ok hcollects hanswer finalizer granted
      refine ⟨?_, ?_, ?_⟩
      · rw [hops, Call.state, Op.perform, heq]
        rfl
      · rw [hops, Call.finalized, Op.perform, heq]
        exact (Event.finalizations_append _ _).trans (congrArg _ (List.append_nil _).symm)
      · rw [hops, Heap.registered_cons, Heap.registered_cons, registered_eq_none rfl,
          registered_allocate, Call.registered, heq]
        exact (List.append_nil _).symm

end Call.ComesDown

/-- **A call of a machine** comes down to calls of its heap. -/
theorem Call.comesDown (m : Machine φ) (call : Call φ) : call.ComesDown m := by
  cases call with
  | ofHeap op => exact .of_singleton _ rfl rfl rfl rfl
  | ofMachine op =>
    cases op with
    | allocate object finalizer granted => exact .allocate m object finalizer granted
    | push h granted => exact .push m h granted
    | pop => exact .pop m
    | truncate | clear | setEnv => exact .of_nil rfl rfl rfl rfl
    | collect | store | append =>
      exact .of_singleton _ rfl rfl rfl (registered_eq_none rfl).symm

/-! ### Histories -/

/-- **A history of a machine** comes down to a history of its heap. -/
theorem comesDown_run (m : Machine φ) (calls : List (Call φ)) :
    (m.runCalls calls).heap = m.heap.run (m.heapOps calls) ∧
      m.finalized calls = m.heap.finalized (m.heapOps calls) ∧
      m.registered calls = m.heap.registered (m.heapOps calls) := by
  induction calls generalizing m with
  | nil => exact ⟨rfl, rfl, rfl⟩
  | cons call calls ih =>
    obtain ⟨hheap, hruns, hregistered⟩ := call.comesDown m
    obtain ⟨hheap', hruns', hregistered'⟩ := ih (call.state m)
    have hops : m.heapOps (call :: calls) = call.heapOps m ++ (call.state m).heapOps calls := rfl
    rw [hheap] at hheap' hruns' hregistered'
    refine ⟨?_, ?_, ?_⟩
    · rw [hops, Heap.run_append]
      exact hheap'
    · rw [hops, Heap.finalized, Heap.ledger_append]
      exact congrArg₂ _ hruns hruns'
    · rw [hops, Heap.registered, Heap.ledger_append]
      exact congrArg₂ _ hregistered hregistered'

/-- No call changes the configuration. -/
theorem config_runCalls (hi : m.heap.Intact) (calls : List (Call φ)) :
    (m.runCalls calls).heap.config = m.heap.config := by
  rw [(m.comesDown_run calls).1]
  exact hi.config_run _

end MarkSweep.Machine
