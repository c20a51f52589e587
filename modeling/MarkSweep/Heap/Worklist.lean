import MarkSweep.Handle

/-!
# Worklists

A queue of handles that are to be visited: the handle queued first is taken first. It is kept as
two lists, so that both ends are at hand, and read through `Worklist.toList`, oldest first.
-/

namespace MarkSweep

/-- A queue of handles. -/
structure Worklist where
  /-- The handles that are taken next, in order. -/
  front : List Handle
  /-- The handles that were queued since, the last one in front. -/
  back : List Handle
  deriving DecidableEq, Repr

namespace Worklist

/-- The queue without handles. -/
def empty : Worklist := ⟨[], []⟩

/-- The handles in the queue, oldest first. -/
def toList (w : Worklist) : List Handle := w.front ++ w.back.reverse

/-- The number of handles in the queue. -/
def size (w : Worklist) : Nat := w.front.length + w.back.length

/-- The queue with a handle at its end. -/
def push (w : Worklist) (h : Handle) : Worklist := { w with back := h :: w.back }

/-- The oldest handle and the queue without it. -/
def pop? (w : Worklist) : Option (Handle × Worklist) :=
  match w.front with
  | h :: front => some (h, { w with front := front })
  | [] =>
    match w.back.reverse with
    | h :: front => some (h, ⟨front, []⟩)
    | [] => none

@[simp]
theorem toList_empty : empty.toList = [] := rfl

@[simp]
theorem length_toList (w : Worklist) : w.toList.length = w.size := by
  simp [toList, size]

@[simp]
theorem toList_push (w : Worklist) (h : Handle) : (w.push h).toList = w.toList ++ [h] := by
  simp [toList, push]

@[simp]
theorem size_push (w : Worklist) (h : Handle) : (w.push h).size = w.size + 1 := by
  simp [size, push, Nat.add_assoc]

/-- Nothing is taken exactly from the queue without handles. -/
theorem pop?_eq_none_iff {w : Worklist} : w.pop? = none ↔ w.toList = [] := by
  unfold pop? toList
  cases w.front with
  | cons h front => simp
  | nil => cases w.back.reverse <;> simp

/-- What is taken is the oldest handle, and the others stay in order. -/
theorem toList_of_pop? {w rest : Worklist} {h : Handle} (hpop : w.pop? = some (h, rest)) :
    w.toList = h :: rest.toList := by
  unfold pop? at hpop
  unfold toList
  cases hfront : w.front with
  | cons k front =>
    rw [hfront] at hpop
    cases hpop
    rfl
  | nil =>
    rw [hfront] at hpop
    cases hback : w.back.reverse with
    | nil => rw [hback] at hpop; cases hpop
    | cons k front =>
      rw [hback] at hpop
      cases hpop
      simp

/-- Taking a handle makes the queue smaller. -/
theorem size_of_pop? {w rest : Worklist} {h : Handle} (hpop : w.pop? = some (h, rest)) :
    w.size = rest.size + 1 := by
  rw [← length_toList, ← length_toList, toList_of_pop? hpop, List.length_cons]

end Worklist

end MarkSweep
