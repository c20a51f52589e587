import MarkSweep.Event
import MarkSweep.Word

/-!
# The operand stack

A stack of slots with an explicit capacity, and its storage. The capacity is a promise about how
far the stack may grow before it asks for more; the storage, `Stack.room`, is how many slots there
is memory for. A push onto a stack whose capacity is used up doubles the capacity, the first
growth of a stack without any going to one slot, and reserves storage for exactly that many.

Whether memory is granted is an argument of the operations that may need it. A push asks for
memory where the storage does not suffice, and only there, so that one within the storage succeeds
without any. An operation that fails leaves the stack as far as it has written to it, so that it is
for the order of its writes to see to it that nothing has changed.

The slots are read through `Stack.toList`, bottom first: `pop_eq` and `peekNth_eq` say what the
operations do to that list. A push has more ways to end, which a module of their own lists.
-/

namespace MarkSweep

/-- A stack of slots, bottom first. -/
structure Stack (α : Type) where
  /-- The slots in use. -/
  slots : Array α
  /-- The slots that may be in use before the stack grows. -/
  capacity : UInt64
  /-- The slots that there is storage for. -/
  room : UInt64
  deriving DecidableEq, Repr

namespace Stack

variable {φ α : Type}

/-- An empty stack with capacity and storage for `capacity` slots. -/
def withCapacity (capacity : UInt64) : Stack α := ⟨#[], capacity, capacity⟩

/-- An empty stack without capacity or storage. -/
def empty : Stack α := withCapacity 0

instance : Inhabited (Stack α) := ⟨empty⟩

/-- The slots in use, bottom first. -/
def toList (s : Stack α) : List α := s.slots.toList

/-- The number of slots in use. -/
def size (s : Stack α) : Nat := s.slots.size

/-- Whether no slot is in use. -/
def isEmpty (s : Stack α) : Bool := s.slots.isEmpty

/-- Whether the slots in use are as many as the capacity says. -/
def isFull (s : Stack α) : Bool := s.size = s.capacity.toNat

/-! ### Growth -/

/-- The capacity after the next growth: one slot at first, twice as many from then on. -/
def nextCapacity (s : Stack α) : Except StackError UInt64 :=
  if s.capacity = 0 then .ok 1
  else if 2 * s.capacity.toNat < UInt64.size then .ok (2 * s.capacity)
  else .error (.growthFailed Word.largest)

/-- Obtains storage for at least `requested` slots. Storage that suffices is kept, and storage that
has to be extended is extended to exactly what is requested. -/
def reserve (s : Stack α) (requested : UInt64) (granted : Bool) :
    Outcome φ StackError (Stack α) Unit :=
  if requested ≤ s.room then .quiet (.ok ()) s
  else if granted then .quiet (.ok ()) { s with room := requested }
  else .quiet (.error (.growthFailed requested)) s

/-- Sets the capacity, and announces it. -/
def setCapacity (s : Stack α) (capacity : UInt64) : Outcome φ StackError (Stack α) Unit :=
  ⟨.ok (), { s with capacity := capacity }, [.stackGrown s.capacity capacity]⟩

/-- Goes on to the next capacity, once there is storage for it. -/
def grow (s : Stack α) (granted : Bool) : Outcome φ StackError (Stack α) Unit :=
  match s.nextCapacity with
  | .ok requested => (s.reserve requested granted).andThen fun _ s => s.setCapacity requested
  | .error e => .quiet (.error e) s

/-- The storage that is taken when a slot is put on top of a stack whose storage is used up: twice
as much, at least four slots, and at least what the slot needs. -/
def extendedRoom (s : Stack α) : UInt64 := max (max (2 * s.room) 4) (UInt64.ofNat s.size + 1)

/-- Puts a slot on top, whatever the capacity is. -/
def place (s : Stack α) (slot : α) (granted : Bool) : Outcome φ StackError (Stack α) Unit :=
  if s.size < s.room.toNat then .quiet (.ok ()) { s with slots := s.slots.push slot }
  else if granted then
    .quiet (.ok ()) { s with slots := s.slots.push slot, room := s.extendedRoom }
  else .quiet (.error .exhausted) s

/-! ### Operations -/

/-- Puts a slot on top. A stack whose capacity is used up grows first. -/
def push (s : Stack α) (slot : α) (granted : Bool) : Outcome φ StackError (Stack α) Unit :=
  let ready := if s.isFull then s.grow granted else .quiet (.ok ()) s
  ready.andThen fun _ s => s.place slot granted

/-- Takes the top slot. -/
def pop (s : Stack α) : Outcome φ StackError (Stack α) α :=
  match s.slots.back? with
  | some slot => .quiet (.ok slot) { s with slots := s.slots.pop }
  | none => .quiet (.error .underflow) s

/-- The slot `depth` places below the top. -/
def peekNth (s : Stack α) (depth : UInt64) : Except StackError α :=
  if depth.toNat < s.size then
    match s.slots[s.size - 1 - depth.toNat]? with
    | some slot => .ok slot
    | none => .error .underflow
  else .error .underflow

/-- The top slot. -/
def peek (s : Stack α) : Except StackError α :=
  match s.slots.back? with
  | some slot => .ok slot
  | none => .error .underflow

/-- The stack with its lowest `size` slots only; a stack that is no larger stays as it is. -/
def truncate (s : Stack α) (size : UInt64) : Stack α := { s with slots := s.slots.take size.toNat }

/-- The stack without its slots; capacity and storage stay. -/
def clear (s : Stack α) : Stack α := { s with slots := #[] }

/-- A second stack with the same slots and the same capacity, whose storage is for these slots
only. -/
def clone (s : Stack α) : Stack α := { s with room := UInt64.ofNat s.size }

/-- The text of a stack, given that of its slots. -/
def text (slotText : α → String) (s : Stack α) : String :=
  Text.record "Stack"
    [("data", Text.sequence (s.toList.map slotText)), ("capacity", toString s.capacity.toNat)]

/-! ### The slots as a list -/

@[simp]
theorem toList_empty : (empty : Stack α).toList = [] := rfl

@[simp]
theorem length_toList (s : Stack α) : s.toList.length = s.size := rfl

/-- A pop takes the last slot of the list, and fails exactly when there is none. -/
theorem pop_eq (s : Stack α) : (s.pop : Outcome φ StackError (Stack α) α) =
    match s.toList.getLast? with
      | some slot => .quiet (.ok slot) { s with slots := s.slots.pop }
      | none => .quiet (.error .underflow) s := by
  rw [pop, toList, Array.getLast?_toList]

/-- The slots below a popped one. -/
theorem toList_pop (s : Stack α) : ({ s with slots := s.slots.pop } : Stack α).toList =
    s.toList.dropLast := by
  simp [toList]

/-- The slot at a depth is found from the end of the list, and is missing exactly when the list
is too short. -/
theorem peekNth_eq (s : Stack α) (depth : UInt64) :
    s.peekNth depth = match s.toList.reverse[depth.toNat]? with
      | some slot => .ok slot
      | none => .error .underflow := by
  unfold peekNth
  split
  · rename_i hlt
    rw [List.getElem?_reverse (by simpa using hlt), length_toList, toList, Array.getElem?_toList]
  · rename_i hge
    rw [List.getElem?_eq_none (by simpa using hge)]

@[simp]
theorem toList_truncate (s : Stack α) (n : UInt64) :
    (s.truncate n).toList = s.toList.take n.toNat := by
  simp [truncate, toList]

@[simp]
theorem toList_clear (s : Stack α) : s.clear.toList = [] := rfl

@[simp]
theorem toList_clone (s : Stack α) : s.clone.toList = s.toList := rfl

end Stack

end MarkSweep
