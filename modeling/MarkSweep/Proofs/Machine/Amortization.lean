import MarkSweep.Proofs.Heap.Thresholds
import MarkSweep.Proofs.Machine.Accounting

/-!
# Automatic collections are amortised

A machine collects where the threshold for objects is reached, before it puts another object in. So
there always is room below the threshold for the object: without a collection because the threshold
is not reached, and after one because it leaves at most half of the threshold in use
(`Call.hasRoom_heapOps`). Hence the histories of its heap are amortised, as long as nobody puts
objects in behind its back.
-/

namespace MarkSweep.Machine

variable {φ : Type} {m : Machine φ}

/-- A machine puts an object in only where there is room for it below the threshold. -/
theorem hasRoom_allocate (hp : m.heap.Paced) (object : Object) (finalizer : Option φ)
    (granted : Bool) : m.heap.Throughout Heap.Op.HasRoom
      ((Call.ofMachine (.allocate object finalizer granted)).heapOps m) := by
  rcases hcollects : m.collectsFor object.size with _ | _
  · rw [Call.heapOps_of_not_collectsFor hcollects]
    rw [collectsFor, Heap.shouldCollect, Bool.or_assoc, Bool.or_eq_false_iff,
      decide_eq_false_iff_not, UInt64.not_le] at hcollects
    exact ⟨hcollects.1, trivial⟩
  · rcases hanswer : (m.heap.collect (m.roots.extend object.references)).answer with fault | cycle
    · rw [Call.heapOps_of_collect_error hcollects hanswer]
      exact ⟨trivial, trivial⟩
    · rw [Call.heapOps_of_collect_ok hcollects hanswer]
      exact ⟨trivial, hp.lt_collect hanswer, trivial⟩

theorem Call.hasRoom_heapOps (hp : m.heap.Paced) {call : Call φ} (hcall : call.isPaced) :
    m.heap.Throughout Heap.Op.HasRoom (call.heapOps m) := by
  cases call with
  | ofHeap op =>
    refine ⟨?_, trivial⟩
    cases op with
    | allocate => cases hcall
    | edit | store | mark | sweep | collect | releaseAll => trivial
  | ofMachine op =>
    cases op with
    | allocate object finalizer granted => exact hasRoom_allocate hp object finalizer granted
    | collect | store | append => exact ⟨trivial, trivial⟩
    | push | pop | truncate | clear | setEnv => trivial

theorem hasRoom_heapOps (hp : m.heap.Paced) {calls : List (Call φ)}
    (hcalls : ∀ call ∈ calls, call.isPaced) :
    m.heap.Throughout Heap.Op.HasRoom (m.heapOps calls) := by
  induction calls generalizing m with
  | nil => trivial
  | cons call calls ih =>
    have hroom := Call.hasRoom_heapOps hp (hcalls call List.mem_cons_self)
    have hheap := (call.comesDown m).heap_eq
    refine Heap.throughout_append.2 ⟨hroom, ?_⟩
    have hnext := hp.run hroom
    rw [← hheap] at hnext ⊢
    exact ih hnext fun c hc => hcalls c (List.mem_cons_of_mem call hc)

/-- **Adaptive collections are amortised.** Take any history of a machine with adaptive thresholds,
zero included, and with any limit, in which objects are put in by the machine alone; the calls of
its heap may be anything else. The calls of the heap that it comes down to are amortised: the
threshold for objects is never exceeded, and every full collection that is completed, be it called
for or automatic, leaves at most half of it in use, so that it takes as many allocations as half of
the threshold to come up to it again. -/
theorem amortized_run (config : Config) (hpolicy : config.policy = .adaptive)
    (calls : List (Call φ)) (hcalls : ∀ call ∈ calls, call.isPaced) :
    let start : Machine φ := ofConfig config
    (start.runCalls calls).heap = start.heap.run (start.heapOps calls) ∧
      start.heap.Amortized (start.heapOps calls) := by
  intro start
  have hp : start.heap.Paced := .ofConfig hpolicy
  exact ⟨(start.comesDown_run calls).1, hp.amortized (hasRoom_heapOps hp hcalls)⟩

/-- Thresholds of zero count as one, and rise to eight while three pairs are kept. -/
theorem amortized_run_zero_thresholds :
    let config : Config := ⟨0, 0, 0, .adaptive⟩
    let calls : List (Call Unit) := [.ofMachine (.allocate (.pair none none) none true),
      .ofMachine (.push ⟨0, 0⟩ true),
      .ofMachine (.allocate (.pair (some ⟨0, 0⟩) none) none true), .ofMachine (.push ⟨1, 0⟩ true),
      .ofMachine (.allocate (.pair (some ⟨1, 0⟩) none) none true), .ofMachine (.push ⟨2, 0⟩ true),
      .ofMachine (.collect none), .ofHeap .sweep]
    let start : Machine Unit := ofConfig config
    config.policy = .adaptive ∧ (∀ call ∈ calls, call.isPaced) ∧
      start.heap.Amortized (start.heapOps calls) ∧
      (start.heapOps calls).length = 7 ∧
      (start.runCalls calls).heap.objectsThreshold = 8 := by
  intro config calls start
  have hcalls : ∀ call ∈ calls, call.isPaced := by decide
  obtain ⟨-, hamortized⟩ := amortized_run config rfl calls hcalls
  exact ⟨rfl, hcalls, hamortized, by decide +kernel, by decide +kernel⟩

end MarkSweep.Machine
