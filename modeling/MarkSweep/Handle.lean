/-!
# Handles

A handle names a heap object by the slot that holds it and by the generation of that slot. The
generation changes whenever the slot is released, so that a handle kept for longer than its
object no longer fits the slot. Handles are ordered by slot first; the order is total and
decides equality, so handles serve as keys of a map.
-/

namespace MarkSweep

/-- A jump target in the instruction stream. -/
abbrev Label := UInt64

/-- A reference to a heap object. -/
structure Handle where
  /-- The slot of the arena. -/
  index : UInt32
  /-- The generation of the slot. -/
  generation : UInt32
  deriving DecidableEq, Repr

namespace Handle

/-- The position of the slot in the arena. -/
def slot (h : Handle) : Nat := h.index.toNat

/-- Handles are compared by slot, and within a slot by generation. -/
instance : Ord Handle := ⟨compareLex (compareOn index) (compareOn generation)⟩

instance : Std.TransOrd Handle :=
  inferInstanceAs (Std.TransCmp (compareLex (compareOn index) (compareOn generation)))

instance : Std.LawfulEqOrd Handle where
  eq_of_compare {a b} h := by
    obtain ⟨hindex, hgeneration⟩ := Ordering.then_eq_eq.1 h
    cases a; cases b
    rw [mk.injEq]
    exact ⟨Std.LawfulEqOrd.eq_of_compare hindex, Std.LawfulEqOrd.eq_of_compare hgeneration⟩

/-- The text of a handle. -/
def text (h : Handle) : String :=
  "ValueRef(" ++ toString h.index.toNat ++ "/" ++ toString h.generation.toNat ++ ")"

end Handle

end MarkSweep
