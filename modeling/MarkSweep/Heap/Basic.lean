import Std.Data.TreeMap
import MarkSweep.Event

/-!
# The heap

Objects live in the slots of an arena. The occupied slots are threaded into one list through
`Slot.next`, from the newest object to the oldest, and `Heap.head` is where it begins. A slot that
is released goes onto the free list, from which the slot released last is taken first, and its
generation goes up by one. So a handle fits its slot for as long as its object lives, and
`Heap.find?` is the test that every checked access makes.

The list is read in two ways. `Heap.handles` follows the links, and `Heap.entries` adds the
payloads and stops short at a slot without one. Following a link never leads further than the
number of slots, since a list that visits no slot twice is no longer than that.
-/

namespace MarkSweep

/-- A slot of the arena. -/
structure Slot where
  /-- The header of the object. -/
  header : Header
  /-- The next older live object. -/
  next : Option Handle
  /-- The bytes charged for the object. -/
  size : UInt64
  /-- The number of times that the slot was released. -/
  generation : UInt32
  /-- The payload, which is missing while the slot is free. -/
  object : Option Object
  deriving DecidableEq

namespace Slot

/-- The slot with its object in another colour. -/
def recolor (c : Color) (s : Slot) : Slot := { s with header := s.header.setColor c }

/-- The slot after its object is gone. The header stays until the slot is used again. -/
def vacate (s : Slot) : Slot :=
  { s with next := none, size := 0, generation := s.generation + 1, object := none }

/-- Whether the slot is occupied, in the given generation. -/
def isLive (generation : UInt32) (s : Slot) : Bool :=
  s.generation = generation && s.object.isSome

end Slot

/-- A heap whose finalizers are labelled by `φ`. -/
structure Heap (φ : Type) where
  /-- The arena. -/
  slots : Array Slot
  /-- The free slots, the one released last in front. -/
  free : List UInt32
  /-- The newest live object. -/
  head : Option Handle
  /-- The bytes charged for live objects. -/
  bytesAllocated : UInt64
  /-- The number of live objects. -/
  objectsAllocated : UInt64
  /-- The number of objects from which on a collection is asked for. -/
  objectsThreshold : UInt64
  /-- The number of bytes from which on a collection is asked for. -/
  bytesThreshold : UInt64
  /-- The finalizers that have not run, by the handles of their objects. -/
  finalizers : Std.TreeMap Handle φ
  /-- The configuration. -/
  config : Config
  /-- Totals over the life of the heap. -/
  stats : HeapStats

namespace Heap

variable {φ : Type}

/-- An empty heap. A configured threshold of zero counts as one. -/
def ofConfig (config : Config) : Heap φ where
  slots := #[]
  free := []
  head := none
  bytesAllocated := 0
  objectsAllocated := 0
  objectsThreshold := max config.objectsThreshold 1
  bytesThreshold := max config.bytesThreshold 1
  finalizers := ∅
  config := config
  stats := HeapStats.zero

instance : Inhabited (Heap φ) := ⟨ofConfig Config.standard⟩

/-! ### Slots of live objects -/

/-- The slot of a live object: occupied, and in the generation of the handle. -/
def find? (heap : Heap φ) (h : Handle) : Option Slot :=
  heap.slots[h.slot]?.filter (Slot.isLive h.generation)

/-- Whether the object of a handle is live. -/
def contains (heap : Heap φ) (h : Handle) : Bool := (heap.find? h).isSome

/-- The payload of a live object. -/
def get? (heap : Heap φ) (h : Handle) : Option Object := (heap.find? h).bind Slot.object

/-- The slot of an object that has to be live. -/
def find (heap : Heap φ) (h : Handle) : Except Fault Slot :=
  match heap.find? h with
  | some slot => .ok slot
  | none => .error (.staleHandle h)

/-- The payload of an object that has to be live. -/
def get (heap : Heap φ) (h : Handle) : Except Fault Object :=
  match heap.get? h with
  | some object => .ok object
  | none => .error (.staleHandle h)

/-- The header of an object that has to be live. -/
def headerOf (heap : Heap φ) (h : Handle) : Except Fault Header :=
  (heap.find h).map Slot.header

/-- The colour of an object that has to be live. -/
def colorOf (heap : Heap φ) (h : Handle) : Except Fault Color :=
  (heap.headerOf h).bind Header.colorOrFault

/-- The heap with the slot of a handle changed, whether its object is live or not. -/
def updateSlot (heap : Heap φ) (h : Handle) (f : Slot → Slot) : Heap φ :=
  { heap with slots := heap.slots.modify h.slot f }

/-- The heap with an object in another colour. -/
def recolor (heap : Heap φ) (h : Handle) (c : Color) : Heap φ := heap.updateSlot h (Slot.recolor c)

/-! ### The list of live objects -/

/-- The handles met on following at most `bound` links from `cursor`. -/
def handlesFrom (slots : Array Slot) : (bound : Nat) → (cursor : Option Handle) → List Handle
  | bound + 1, some h =>
    match slots[h.slot]? with
    | some slot => h :: handlesFrom slots bound slot.next
    | none => []
  | _, _ => []

/-- The handles of the list, newest first. -/
def handles (heap : Heap φ) : List Handle := handlesFrom heap.slots heap.slots.size heap.head

/-- The handles and payloads met on following at most `bound` links from `cursor`, as far as there
is a payload. -/
def entriesFrom (slots : Array Slot) :
    (bound : Nat) → (cursor : Option Handle) → List (Handle × Object)
  | bound + 1, some h =>
    match slots[h.slot]? with
    | some slot =>
      match slot.object with
      | some object => (h, object) :: entriesFrom slots bound slot.next
      | none => []
    | none => []
  | _, _ => []

/-- The live objects, newest first. -/
def entries (heap : Heap φ) : List (Handle × Object) :=
  entriesFrom heap.slots heap.slots.size heap.head

/-- The number of live objects. -/
def size (heap : Heap φ) : Nat := heap.objectsAllocated.toNat

/-- Whether there are no live objects. -/
def isEmpty (heap : Heap φ) : Bool := heap.head.isNone

/-- The text of a heap: its counters, and the number of finalizers that have not run. -/
def text (heap : Heap φ) : String :=
  Text.openRecord "Heap"
    [("objects_allocated", toString heap.objectsAllocated.toNat),
      ("bytes_allocated", toString heap.bytesAllocated.toNat),
      ("objects_threshold", toString heap.objectsThreshold.toNat),
      ("bytes_threshold", toString heap.bytesThreshold.toNat),
      ("finalizers", toString heap.finalizers.size)]

/-! ### Elementary facts -/

/-- A handle is live exactly when its slot is occupied in its generation. -/
theorem find?_eq_some_iff {heap : Heap φ} {h : Handle} {slot : Slot} :
    heap.find? h = some slot ↔
      heap.slots[h.slot]? = some slot ∧ slot.generation = h.generation ∧ slot.object.isSome := by
  simp [find?, Option.filter_eq_some_iff, Slot.isLive]

/-- A payload is that of an occupied slot in the generation of the handle. -/
theorem get?_eq_some_iff {heap : Heap φ} {h : Handle} {object : Object} :
    heap.get? h = some object ↔ ∃ slot, heap.slots[h.slot]? = some slot ∧
      slot.generation = h.generation ∧ slot.object = some object := by
  simp only [get?, Option.bind_eq_some_iff, find?_eq_some_iff]
  constructor
  · rintro ⟨slot, ⟨hslot, hgen, -⟩, hobj⟩
    exact ⟨slot, hslot, hgen, hobj⟩
  · rintro ⟨slot, hslot, hgen, hobj⟩
    exact ⟨slot, ⟨hslot, hgen, by rw [hobj]; rfl⟩, hobj⟩

@[simp]
theorem getElem?_updateSlot (heap : Heap φ) (h : Handle) (f : Slot → Slot) (i : Nat) :
    (heap.updateSlot h f).slots[i]? =
      if h.slot = i then heap.slots[i]?.map f else heap.slots[i]? := by
  simp [updateSlot, Array.getElem?_modify]

end Heap

end MarkSweep
