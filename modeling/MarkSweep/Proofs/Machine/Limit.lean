import MarkSweep.Proofs.Heap.Limit
import MarkSweep.Proofs.Machine.Accounting

/-!
# The limit of a machine

A machine allocates from the heap that it has prepared, which is its own, after a collection if one
is called for (`allocate_eq_prepared`). Both heaps are left by calls of the heap, so that the limit
is kept by both.
-/

namespace MarkSweep.Machine

variable {φ : Type} {m : Machine φ} {object : Object}

theorem limited_prepared (hl : m.heap.Limited) (object : Object) : (m.prepared object).Limited := by
  rw [prepared]
  split
  · exact hl.perform (.collect (m.roots.extend object.references))
  · exact hl

theorem config_prepared (hi : m.heap.Intact) (object : Object) :
    (m.prepared object).config = m.heap.config := by
  rw [prepared]
  split
  · exact hi.config_perform (.collect (m.roots.extend object.references))
  · rfl

/-- **A limit is never exceeded.** Take a limit that is not zero, which stands for none, and below
the largest word, and any history of calls of a heap or of a machine and its heap. The bytes and
their peak stay within the limit, the count of bytes does not wrap, and an allocation with live
references is refused for the limit exactly when the true sum exceeds it. For a machine this is so
in the heap that it allocates from. -/
theorem limit_kept_run (config : Config) (hlimited : config.maxBytes ≠ 0)
    (hbelow : config.maxBytes < Word.largest) :
    (∀ ops : List (Heap.Op φ), ((Heap.ofConfig config).run ops).KeepsLimit config.maxBytes) ∧
      ∀ calls : List (Call φ),
        let m := (ofConfig config).runCalls calls
        m.heap.KeepsLimit config.maxBytes ∧ ∀ object,
          (m.prepared object).KeepsLimit config.maxBytes ∧ ∀ finalizer granted,
            (m.collectsFor object.size → ∃ cycle,
              (m.heap.collect (m.roots.extend object.references)).answer = .ok cycle) →
            let o := (m.prepared object).allocate object object.size finalizer granted
            (m.allocate object finalizer granted).answer = o.answer ∧
              (m.allocate object finalizer granted).state = m.withHeap o.state := by
  have hstart : (Heap.ofConfig config : Heap φ).Limited := .ofConfig hlimited hbelow
  have hconfig (ops : List (Heap.Op φ)) : ((Heap.ofConfig config).run ops).config = config :=
    hstart.intact.config_run ops
  refine ⟨fun ops => ?_, fun calls => ?_⟩
  · have hkeeps := (hstart.run ops).keepsLimit
    rwa [hconfig] at hkeeps
  · intro m
    have hheap : m.heap = (Heap.ofConfig config).run ((ofConfig config).heapOps calls) :=
      ((ofConfig config).comesDown_run calls).1
    have hl : m.heap.Limited := hheap ▸ hstart.run _
    have hsame : m.heap.config = config := hheap ▸ hconfig _
    refine ⟨hsame ▸ hl.keepsLimit, fun object => ⟨?_, fun finalizer granted hcollected => ?_⟩⟩
    · have hkeeps := (limited_prepared hl object).keepsLimit
      rwa [config_prepared hl.intact, hsame] at hkeeps
    · exact allocate_eq_prepared hcollected finalizer granted

/-- With the highest limit that is kept, an object that leaves one byte is put in, and the true sum
is tested that a word would wrap. -/
theorem limit_kept_run_highest :
    let config : Config := ⟨10, 1000, Word.largest - 1, .adaptive⟩
    let ops : List (Heap.Op Unit) := [.allocate (.int 1) (Word.largest - 2) none true,
      .allocate (.int 2) 3 none true]
    let heap := (Heap.ofConfig config).run ops
    let m : Machine Unit := (ofConfig config).runCalls [.ofHeap (.allocate (.int 1) 40 none true)]
    config.maxBytes ≠ 0 ∧ config.maxBytes < Word.largest ∧
      heap.bytesAllocated = Word.largest - 2 ∧ heap.KeepsLimit config.maxBytes ∧
      m.heap.KeepsLimit config.maxBytes ∧
      (heap.allocate (.int 3) Word.largest none true).answer =
        .error (.outOfMemory ⟨Word.largest, Word.largest - 2, Word.largest - 1⟩) := by
  intro config ops heap m
  have hlimited : config.maxBytes ≠ 0 := by decide
  have hbelow : config.maxBytes < Word.largest := by decide
  have hkeeps : heap.KeepsLimit config.maxBytes :=
    (limit_kept_run config hlimited hbelow).1 ops
  have hmachine : m.heap.KeepsLimit config.maxBytes :=
    ((limit_kept_run config hlimited hbelow).2 _).1
  have hbytes : heap.bytesAllocated = Word.largest - 2 := by decide +kernel
  have hrefused := hkeeps.refuses (.int 3) Word.largest none true (by decide) (by decide +kernel)
  rw [hbytes] at hrefused
  exact ⟨hlimited, hbelow, hbytes, hkeeps, hmachine, congrArg Outcome.answer hrefused⟩

end MarkSweep.Machine
