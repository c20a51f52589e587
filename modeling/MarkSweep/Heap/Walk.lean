import MarkSweep.Heap.WellFormed

/-!
# Loops over the list

A loop that changes the heap as it goes through the list reads every link from the heap as its own
steps have left it, and no bound is put on the number of its steps. `Heap.Follows` relates where
such a loop starts to what it meets and to where it ends. A loop that leaves the arena, or that goes
on for ever, is related to nothing.
-/

namespace MarkSweep.Heap

variable {σ : Type} {slots : σ → Array Slot} {step : σ → Handle → σ} {cursor : Option Handle}
  {s : σ}

/-- A loop that is at a cursor meets these handles, one after the other, takes a step at each of
them, and ends. The next cursor is read before the step is taken. -/
inductive Follows (slots : σ → Array Slot) (step : σ → Handle → σ) :
    Option Handle → σ → List Handle → σ → Prop
  /-- There is no cursor left. -/
  | done {s : σ} : Follows slots step none s [] s
  /-- The slot of the cursor is there, and holds the next cursor. -/
  | next {h : Handle} {s last : σ} {slot : Slot} {rest : List Handle}
      (slot_eq : (slots s)[h.slot]? = some slot)
      (tail : Follows slots step slot.next (step s h) rest last) :
      Follows slots step (some h) s (h :: rest) last

/-- A loop ends in one way only. -/
theorem Follows.unique {l l' : List Handle} {last last' : σ}
    (hf : Follows slots step cursor s l last) (hf' : Follows slots step cursor s l' last') :
    l = l' ∧ last = last' := by
  induction hf generalizing l' with
  | done =>
    cases hf'
    exact ⟨rfl, rfl⟩
  | next slot_eq _ ih =>
    cases hf' with
    | next slot_eq' tail' =>
      obtain rfl := Option.some.inj (slot_eq.symm.trans slot_eq')
      obtain ⟨rfl, rfl⟩ := ih tail'
      exact ⟨rfl, rfl⟩

/-- A loop that has not changed a slot by the time it comes there meets the list that there was. -/
theorem Linked.follows {arena : Array Slot} {l : List Handle} (hl : Linked arena cursor l)
    (huntouched : ∀ met h rest, l = met ++ h :: rest →
      (slots (met.foldl step s))[h.slot]? = arena[h.slot]?) :
    Follows slots step cursor s l (l.foldl step s) := by
  induction hl generalizing s with
  | nil => exact .done
  | @cons h slot rest slot_eq _ ih =>
    refine .next ((huntouched [] h rest rfl).trans slot_eq) (ih fun met k more heq => ?_)
    exact huntouched (h :: met) k more (by rw [heq]; rfl)

end MarkSweep.Heap
