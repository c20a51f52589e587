import MarkSweep.Heap.Access
import MarkSweep.Proofs.Heap.Erasure
import MarkSweep.Proofs.Heap.Links

/-!
# Changing one payload

Both ways to change a payload come down to `Heap.withObject`: `edit_cases` and `store_cases` say
when they get there and what they answer when they do not. The frame rule is
`find?_withObject`: the target has the new payload and keeps its header, its charge and its link,
and every other object stays as it was.
-/

namespace MarkSweep

/-- The slot with another payload. -/
def Slot.withObject (object : Object) (s : Slot) : Slot := { s with object := some object }

namespace Heap

variable {φ : Type} {heap : Heap φ} {h k : Handle} {old new : Object}

/-- The heap with another payload in the slot of a handle. -/
def withObject (heap : Heap φ) (h : Handle) (object : Object) : Heap φ :=
  heap.updateSlot h (Slot.withObject object)

/-- What an edit can come to: the target is stale, the change does not apply, or it is made. -/
theorem edit_cases (heap : Heap φ) (target : Handle) (change : Object → Option Object) :
    (heap.contains target = false ∧
      heap.edit target change = .quiet (.error (.staleHandle target)) heap) ∨
    (∃ old, heap.get? target = some old ∧ change old = none ∧
      heap.edit target change = .quiet (.ok false) heap) ∨
    ∃ old new, heap.get? target = some old ∧ change old = some new ∧
      heap.edit target change = .quiet (.ok true) (heap.withObject target new) := by
  rcases hget : heap.get? target with _ | old
  · refine .inl ⟨?_, by simp [edit, hget]⟩
    rw [Bool.eq_false_iff]
    intro hlive
    obtain ⟨old, hold⟩ := exists_get?_of_contains hlive
    rw [hget] at hold
    cases hold
  · rcases hchange : change old with _ | new
    · exact .inr (.inl ⟨old, rfl, hchange, by simp [edit, hget, hchange]⟩)
    · exact .inr (.inr ⟨old, new, rfl, hchange, by simp [edit, hget, hchange]; rfl⟩)

/-- A store is refused for the reference, or else it is an edit. -/
theorem store_cases (heap : Heap φ) (target : Handle) (field : RefField) (ref : Option Handle) :
    (∃ r ∈ ref.toList, heap.contains r = false ∧
      heap.store target field ref = .quiet (.error (.staleHandle r)) heap) ∨
    (∀ r ∈ ref.toList, heap.contains r) ∧
      heap.store target field ref = heap.edit target fun object => object.store field ref := by
  rcases hstale : heap.stale? ref.toList with _ | r
  · exact .inr ⟨stale?_eq_none_iff.1 hstale, by simp [store, hstale, storeUnchecked]⟩
  · refine .inl ⟨r, List.mem_of_find?_eq_some hstale, ?_, by simp [store, hstale]⟩
    simpa using List.find?_some hstale

/-- A store between live objects does not fault. -/
theorem store_of_live {target : Handle} {ref : Option Handle}
    (hrefs : ∀ r ∈ ref.toList, heap.contains r) (hget : heap.get? target = some old)
    (field : RefField) :
    heap.store target field ref = match old.store field ref with
      | none => .quiet (.ok false) heap
      | some new => .quiet (.ok true) (heap.withObject target new) := by
  rw [store, stale?_eq_none_iff.2 hrefs]
  simp only [storeUnchecked, edit, hget]
  rfl

section WithObject

variable (hget : heap.get? h = some old)
include hget

/-- A payload put in the place of another one leaves the skeleton. -/
theorem skeleton_withObject : (heap.withObject h new).skeleton = heap.skeleton := by
  obtain ⟨slot, hslot, -, hobject⟩ := get?_eq_some_iff.1 hget
  refine skeleton_updateSlot fun s hs => ?_
  obtain rfl : slot = s := Option.some.inj (hslot.symm.trans hs)
  simp [Slot.skeleton, Slot.withObject, hobject]

theorem contains_withObject (k : Handle) : (heap.withObject h new).contains k = heap.contains k :=
  contains_eq_of_skeleton_eq (skeleton_withObject hget) k

/-- **Frame rule.** Only the target has another payload. -/
theorem find?_withObject (k : Handle) : (heap.withObject h new).find? k =
    if k = h then (heap.find? k).map (Slot.withObject new) else heap.find? k := by
  obtain ⟨slot, hslot, hgen, hobject⟩ := get?_eq_some_iff.1 hget
  have hfind := find?_of_contains (contains_of_get? hget) hslot
  split
  · rename_i heq
    subst heq
    rw [hfind, Option.map_some]
    refine find?_eq_some_iff.2 ⟨?_, hgen, rfl⟩
    rw [withObject, getElem?_updateSlot, if_pos rfl, hslot, Option.map_some]
  · rename_i hne
    by_cases heq : h.slot = k.slot
    · -- another handle of the same slot is stale before and after
      have hlive := contains_of_get? hget
      have hlive' : (heap.withObject h new).contains h := (contains_withObject hget h).trans hlive
      rw [find?_eq_none_of_slot_eq hlive heq hne, find?_eq_none_of_slot_eq hlive' heq hne]
    · rw [find?, withObject, getElem?_updateSlot, if_neg heq, find?]

theorem get?_withObject (k : Handle) :
    (heap.withObject h new).get? k = if k = h then some new else heap.get? k := by
  rw [get?, find?_withObject hget]
  split
  · rename_i heq
    subst heq
    obtain ⟨slot, hfind, -⟩ := exists_find?_of_get? hget
    rw [hfind]
    rfl
  · rfl

end WithObject

end Heap

end MarkSweep
