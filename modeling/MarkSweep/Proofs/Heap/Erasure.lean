import MarkSweep.Heap.Reachability
import MarkSweep.Heap.WellFormed

/-!
# What colours and payloads do not matter for

Two erasures say what a change of a heap leaves alone. `Heap.colorless` paints every slot White:
two heaps with the same colourless heap differ in colours only. `Heap.skeleton` forgets headers and
payloads altogether and keeps how slots are linked, charged and counted, and which of them are
occupied.

The representation invariant reads no more than the skeleton, so that every change of headers and
payloads keeps it (`WellFormed.of_skeleton_eq`). Reachability and liveness read no more than the
colourless heap.
-/

namespace MarkSweep

namespace Slot

/-- The slot with a header and a payload that say nothing: what is left is how it is linked and
charged, its generation, and whether it is occupied. -/
def skeleton (s : Slot) : Slot :=
  { s with header := Header.make .int .white, object := s.object.map fun _ => .int 0 }

@[simp]
theorem skeleton_next (s : Slot) : s.skeleton.next = s.next := rfl

@[simp]
theorem skeleton_size (s : Slot) : s.skeleton.size = s.size := rfl

@[simp]
theorem isSome_skeleton_object (s : Slot) : s.skeleton.object.isSome = s.object.isSome := by
  simp [skeleton]

@[simp]
theorem isLive_skeleton (generation : UInt32) (s : Slot) :
    s.skeleton.isLive generation = s.isLive generation := by
  rw [isLive, isLive, isSome_skeleton_object]
  rfl

@[simp]
theorem isLive_recolor (generation : UInt32) (c : Color) (s : Slot) :
    (s.recolor c).isLive generation = s.isLive generation := rfl

/-- A change that keeps objects live commutes with the test for it. -/
theorem filter_isLive_map {f : Slot → Slot} {generation : UInt32}
    (hf : ∀ s, (f s).isLive generation = s.isLive generation) (o : Option Slot) :
    (o.map f).filter (isLive generation) = (o.filter (isLive generation)).map f := by
  rcases o with _ | s
  · rfl
  · by_cases hlive : s.isLive generation <;> simp [Option.filter_some, hf, hlive]

/-- Of two colours given one after the other, the last one stays. -/
@[simp]
theorem recolor_recolor (c d : Color) (s : Slot) : (s.recolor d).recolor c = s.recolor c := by
  have hheader : (s.header.setColor d).setColor c = s.header.setColor c :=
    Header.eq_of_fields (by simp [Header.setColor]) (by simp [Header.setColor])
  simp [recolor, hheader]

/-- An object that has a colour already is not changed when it gets it. -/
theorem recolor_eq_self {c : Color} {s : Slot} (hcolor : s.header.color = .ok c) :
    s.recolor c = s := by
  have hraw : s.header.rawColor = c.raw := (Color.raw_of_ofRaw hcolor).symm
  have hheader : s.header.setColor c = s.header :=
    Header.eq_of_fields (by simp [Header.setColor]) (by simp [Header.setColor, hraw])
  rw [recolor, hheader]

end Slot

namespace Heap

variable {φ : Type} {heap heap' : Heap φ}

/-- The heap with every slot changed in the same way. -/
def mapSlots (heap : Heap φ) (f : Slot → Slot) : Heap φ := { heap with slots := heap.slots.map f }

/-- The heap with every slot White. -/
def colorless (heap : Heap φ) : Heap φ := heap.mapSlots (Slot.recolor .white)

/-- The heap without headers and payloads. -/
def skeleton (heap : Heap φ) : Heap φ := heap.mapSlots Slot.skeleton

@[simp]
theorem getElem?_mapSlots (heap : Heap φ) (f : Slot → Slot) (i : Nat) :
    (heap.mapSlots f).slots[i]? = heap.slots[i]?.map f := by
  simp [mapSlots]

@[simp]
theorem size_slots_mapSlots (heap : Heap φ) (f : Slot → Slot) :
    (heap.mapSlots f).slots.size = heap.slots.size := by
  simp [mapSlots]

/-! ### What a change of all slots keeps -/

section MapSlots

variable {f : Slot → Slot}

/-- A change that keeps the links keeps what they lead through. -/
theorem linked_map_iff (hf : ∀ s, (f s).next = s.next) {slots : Array Slot}
    {cursor : Option Handle} {l : List Handle} :
    Linked (slots.map f) cursor l ↔ Linked slots cursor l := by
  constructor
  · intro hl
    induction hl with
    | nil => exact .nil
    | cons slot_eq _ ih =>
      rw [Array.getElem?_map, Option.map_eq_some_iff] at slot_eq
      obtain ⟨slot, hslot, rfl⟩ := slot_eq
      exact .cons hslot (hf slot ▸ ih)
  · intro hl
    induction hl with
    | nil => exact .nil
    | cons slot_eq _ ih =>
      refine .cons (by rw [Array.getElem?_map, slot_eq, Option.map_some]) ?_
      rwa [hf]

theorem handlesFrom_map (hf : ∀ s, (f s).next = s.next) (slots : Array Slot) (bound : Nat)
    (cursor : Option Handle) :
    handlesFrom (slots.map f) bound cursor = handlesFrom slots bound cursor := by
  induction bound generalizing cursor with
  | zero => simp [handlesFrom]
  | succ bound ih =>
    rcases cursor with _ | h
    · simp [handlesFrom]
    · rw [handlesFrom, handlesFrom, Array.getElem?_map]
      rcases slots[h.slot]? with _ | slot
      · rfl
      · simp [hf, ih]

theorem handles_mapSlots (hf : ∀ s, (f s).next = s.next) (heap : Heap φ) :
    (heap.mapSlots f).handles = heap.handles := by
  rw [handles, handles, size_slots_mapSlots]
  exact handlesFrom_map hf heap.slots heap.slots.size heap.head

theorem find?_mapSlots (hf : ∀ generation s, (f s).isLive generation = s.isLive generation)
    (heap : Heap φ) (h : Handle) : (heap.mapSlots f).find? h = (heap.find? h).map f := by
  rw [find?, find?, getElem?_mapSlots, Slot.filter_isLive_map (hf h.generation)]

theorem contains_mapSlots (hf : ∀ generation s, (f s).isLive generation = s.isLive generation)
    (heap : Heap φ) (h : Handle) : (heap.mapSlots f).contains h = heap.contains h := by
  rw [contains, contains, find?_mapSlots hf, Option.isSome_map]

theorem chargeOf_mapSlots (hf : ∀ s, (f s).size = s.size) (heap : Heap φ) (h : Handle) :
    (heap.mapSlots f).chargeOf h = heap.chargeOf h := by
  rw [chargeOf, chargeOf, getElem?_mapSlots]
  rcases heap.slots[h.slot]? with _ | slot <;> simp [hf]

end MapSlots

@[simp]
theorem handles_skeleton (heap : Heap φ) : heap.skeleton.handles = heap.handles :=
  handles_mapSlots Slot.skeleton_next heap

@[simp]
theorem contains_skeleton (heap : Heap φ) (h : Handle) :
    heap.skeleton.contains h = heap.contains h :=
  contains_mapSlots Slot.isLive_skeleton heap h

@[simp]
theorem chargeOf_skeleton (heap : Heap φ) (h : Handle) :
    heap.skeleton.chargeOf h = heap.chargeOf h :=
  chargeOf_mapSlots Slot.skeleton_size heap h

theorem exists_vacant_skeleton_iff (heap : Heap φ) (i : Nat) :
    (∃ slot, heap.skeleton.slots[i]? = some slot ∧ slot.object = none) ↔
      ∃ slot, heap.slots[i]? = some slot ∧ slot.object = none := by
  rw [skeleton, getElem?_mapSlots]
  rcases heap.slots[i]? with _ | slot <;> simp [Slot.skeleton]

/-! ### The representation invariant reads the skeleton only -/

section SameSkeleton

theorem handles_eq_of_skeleton_eq (hs : heap'.skeleton = heap.skeleton) :
    heap'.handles = heap.handles := by
  rw [← handles_skeleton, hs, handles_skeleton]

theorem contains_eq_of_skeleton_eq (hs : heap'.skeleton = heap.skeleton) (h : Handle) :
    heap'.contains h = heap.contains h := by
  rw [← contains_skeleton, hs, contains_skeleton]

theorem charges_eq_of_skeleton_eq (hs : heap'.skeleton = heap.skeleton) (l : List Handle) :
    heap'.charges l = heap.charges l := by
  refine charges_congr fun h _ => ?_
  rw [← chargeOf_skeleton, hs, chargeOf_skeleton]

/-- **The invariant is a matter of the skeleton.** -/
theorem WellFormed.of_skeleton_eq (hs : heap'.skeleton = heap.skeleton) (hw : heap.WellFormed) :
    heap'.WellFormed := by
  have hslots : heap'.slots.map Slot.skeleton = heap.slots.map Slot.skeleton :=
    congrArg Heap.slots hs
  have hhead : heap'.head = heap.head := (congrArg Heap.head hs :)
  have hfree : heap'.free = heap.free := (congrArg Heap.free hs :)
  have hfinalizers : heap'.finalizers = heap.finalizers := (congrArg Heap.finalizers hs :)
  have hobjects : heap'.objectsAllocated = heap.objectsAllocated :=
    (congrArg Heap.objectsAllocated hs :)
  have hbytes : heap'.bytesAllocated = heap.bytesAllocated := (congrArg Heap.bytesAllocated hs :)
  have hhandles := handles_eq_of_skeleton_eq hs
  have hcontains := contains_eq_of_skeleton_eq hs
  constructor
  case nodup => exact hhandles ▸ hw.nodup
  case free_nodup => exact hfree ▸ hw.free_nodup
  case linked =>
    rw [hhandles, hhead, ← linked_map_iff Slot.skeleton_next, hslots,
      linked_map_iff Slot.skeleton_next]
    exact hw.linked
  case live =>
    intro h hh
    rw [hcontains]
    exact hw.live h (hhandles ▸ hh)
  case listed =>
    intro h hh
    rw [hhandles]
    exact hw.listed h (hcontains h ▸ hh)
  case free_iff =>
    intro i
    rw [hfree, hw.free_iff i, ← exists_vacant_skeleton_iff heap, ← hs,
      exists_vacant_skeleton_iff]
  case slots_le =>
    have hsize : heap'.slots.size = heap.slots.size := by simpa using congrArg Array.size hslots
    rw [hsize]
    exact hw.slots_le
  case objects_eq =>
    rw [hhandles, hobjects]
    exact hw.objects_eq
  case bytes_eq =>
    rw [hhandles, charges_eq_of_skeleton_eq hs, hbytes]
    exact hw.bytes_eq
  case finalizers_live =>
    intro h hh
    rw [hcontains]
    exact hw.finalizers_live h (hfinalizers ▸ hh)

end SameSkeleton

/-! ### Changes of one slot -/

/-- A change at one place is not seen through a map that does not tell the change. -/
private theorem map_modify_eq_map {α β : Type} {g : α → β} {f : α → α} (a : Array α) (i : Nat)
    (hf : ∀ x, a[i]? = some x → g (f x) = g x) : (a.modify i f).map g = a.map g := by
  refine Array.ext_getElem? fun j => ?_
  rw [Array.getElem?_map, Array.getElem?_map, Array.getElem?_modify]
  split
  · rename_i hij
    subst hij
    rcases hx : a[i]? with _ | x
    · rfl
    · exact congrArg some (hf x hx)
  · rfl

/-- A change of one slot that keeps its skeleton keeps that of the heap. -/
theorem skeleton_updateSlot {h : Handle} {f : Slot → Slot}
    (hf : ∀ s, heap.slots[h.slot]? = some s → (f s).skeleton = s.skeleton) :
    (heap.updateSlot h f).skeleton = heap.skeleton := by
  rw [skeleton, mapSlots, updateSlot, skeleton, mapSlots]
  exact congrArg (fun slots => { heap with slots }) (map_modify_eq_map heap.slots h.slot hf)

/-- A look-up after a change of one slot that keeps its object live. -/
theorem find?_updateSlot {h k : Handle} {f : Slot → Slot}
    (hf : ∀ s, (f s).isLive k.generation = s.isLive k.generation) :
    (heap.updateSlot h f).find? k =
      if h.slot = k.slot then (heap.find? k).map f else heap.find? k := by
  rw [find?, getElem?_updateSlot, find?]
  split
  · exact Slot.filter_isLive_map hf _
  · rfl

/-- Painting one object is not seen in the colourless heap. -/
@[simp]
theorem colorless_recolor (heap : Heap φ) (h : Handle) (c : Color) :
    (heap.recolor h c).colorless = heap.colorless := by
  rw [colorless, mapSlots, recolor, updateSlot, colorless, mapSlots]
  exact congrArg (fun slots => { heap with slots })
    (map_modify_eq_map heap.slots h.slot fun s _ => Slot.recolor_recolor .white c s)

/-! ### Heaps that differ in colours only -/

section SameColorless

@[simp]
theorem find?_colorless (heap : Heap φ) (h : Handle) :
    heap.colorless.find? h = (heap.find? h).map (Slot.recolor .white) :=
  find?_mapSlots (fun generation s => Slot.isLive_recolor generation .white s) heap h

/-- Heaps that differ in colours only have the same skeleton. -/
theorem skeleton_eq_of_colorless_eq (hc : heap'.colorless = heap.colorless) :
    heap'.skeleton = heap.skeleton := by
  have hskeleton (heap : Heap φ) : heap.colorless.skeleton = heap.skeleton := by
    rw [skeleton, colorless, mapSlots, mapSlots, skeleton, mapSlots, Array.map_map]
    rfl
  rw [← hskeleton, hc, hskeleton]

/-- The slot of a live object in a heap that differs in colours only. -/
theorem find?_of_colorless_eq (hc : heap'.colorless = heap.colorless) {h : Handle} {slot : Slot}
    (hfind : heap'.find? h = some slot) :
    ∃ old, heap.find? h = some old ∧ slot.recolor .white = old.recolor .white := by
  have hmap : (heap'.find? h).map (Slot.recolor .white) =
      (heap.find? h).map (Slot.recolor .white) := by
    rw [← find?_colorless, hc, find?_colorless]
  rw [hfind, Option.map_some, eq_comm, Option.map_eq_some_iff] at hmap
  obtain ⟨old, hold, heq⟩ := hmap
  exact ⟨old, hold, heq.symm⟩

/-- Which references are followed does not depend on colours. -/
theorem Refers.of_colorless_eq (hc : heap'.colorless = heap.colorless) {a b : Handle}
    (hr : heap'.Refers a b) : heap.Refers a b := by
  obtain ⟨slot, tag, object, hfind, htag, hrefs, hobject, hb⟩ := hr
  obtain ⟨old, hold, heq⟩ := find?_of_colorless_eq hc hfind
  refine ⟨old, tag, object, hold, ?_, hrefs, ?_, hb⟩
  · have hheader : (slot.header.setColor .white).tag = (old.header.setColor .white).tag :=
      congrArg (fun s => s.header.tag) heq
    rwa [Header.tag_setColor, Header.tag_setColor, htag, eq_comm] at hheader
  · exact (congrArg Slot.object heq).symm.trans hobject

end SameColorless

end Heap

end MarkSweep
