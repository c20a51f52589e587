import MarkSweep.Heap.Mark

/-!
# Markings that look into leaves

A marking does not look into objects whose header is that of a leaf. It might as well look into all
of them, or into those of some kinds, if there is nothing to be found there. `Marking.TracesBy` is
the loop of a marking with a table of the kinds that are looked into, and with a check that is made
in every round: the header of the object that is taken tells the kind of its payload. A loop in
which the check fails, or that goes on for ever, is related to nothing.
-/

namespace MarkSweep

variable {φ : Type}

namespace Marking

/-- Turns an object Black and shades its references, if the kind in its header is one of those that
are traced. -/
def visitBy (traced : Tag → Bool) (m : Marking φ) (h : Handle) : Marking φ × Option Fault :=
  match m.heap.find? h with
  | none => (m, some (.staleHandle h))
  | some slot =>
    match slot.header.tagOrFault with
    | .error fault => (m, some fault)
    | .ok tag =>
      let m := { m with heap := m.heap.recolor h .black, reached := h :: m.reached }
      if traced tag then m.shadeAll (slot.object.elim [] Object.references) else (m, none)

/-- The header of an object tells the kind of its payload. -/
def TellsKind (m : Marking φ) (h : Handle) : Prop :=
  ∀ slot object, m.heap.find? h = some slot → slot.object = some object →
    slot.header.tag = .ok object.tag

/-- The loop of a marking that traces the kinds of a table, from one state to where it ends. -/
inductive TracesBy (traced : Tag → Bool) : Marking φ → Marking φ × Option Fault → Prop
  /-- No handle is left in the queue. -/
  | done {m : Marking φ} (pop_eq : m.pending.pop? = none) : TracesBy traced m (m, none)
  /-- The visit of the oldest handle ends in a fault. -/
  | fault {m last : Marking φ} {h : Handle} {rest : Worklist} {fault : Fault}
      (pop_eq : m.pending.pop? = some (h, rest)) (tells : m.TellsKind h)
      (visit_eq : ({ m with pending := rest } : Marking φ).visitBy traced h = (last, some fault)) :
      TracesBy traced m (last, some fault)
  /-- The visit of the oldest handle is followed by further rounds. -/
  | round {m next : Marking φ} {h : Handle} {rest : Worklist} {o : Marking φ × Option Fault}
      (pop_eq : m.pending.pop? = some (h, rest)) (tells : m.TellsKind h)
      (visit_eq : ({ m with pending := rest } : Marking φ).visitBy traced h = (next, none))
      (tail : TracesBy traced next o) : TracesBy traced m o

/-- A marking from roots that traces the kinds of a table. -/
inductive TracesFrom (traced : Tag → Bool) (heap : Heap φ) (roots : List Handle) :
    Marking φ × Option Fault → Prop
  /-- A stale handle is among the roots. -/
  | fault {last : Marking φ} {fault : Fault}
      (shade_eq : shadeAll ⟨heap, Worklist.empty, []⟩ roots = (last, some fault)) :
      TracesFrom traced heap roots (last, some fault)
  /-- The roots are queued, and the loop begins. -/
  | loop {m : Marking φ} {o : Marking φ × Option Fault}
      (shade_eq : shadeAll ⟨heap, Worklist.empty, []⟩ roots = (m, none))
      (tail : TracesBy traced m o) : TracesFrom traced heap roots o

/-- A loop ends in one way only. -/
theorem TracesBy.unique {traced : Tag → Bool} {m : Marking φ} {o o' : Marking φ × Option Fault}
    (ht : TracesBy traced m o) (ht' : TracesBy traced m o') : o = o' := by
  induction ht with
  | done pop_eq => cases ht' <;> simp_all
  | fault pop_eq _ visit_eq => cases ht' <;> simp_all
  | round pop_eq _ visit_eq _ ih =>
    cases ht' with
    | done pop_eq' => simp [pop_eq] at pop_eq'
    | fault pop_eq' _ visit_eq' =>
      obtain ⟨rfl, rfl⟩ := Prod.mk.inj (Option.some.inj (pop_eq.symm.trans pop_eq'))
      simp [visit_eq] at visit_eq'
    | round pop_eq' _ visit_eq' tail' =>
      obtain ⟨rfl, rfl⟩ := Prod.mk.inj (Option.some.inj (pop_eq.symm.trans pop_eq'))
      obtain ⟨rfl, -⟩ := Prod.mk.inj (visit_eq.symm.trans visit_eq')
      exact ih tail'

/-- A marking ends in one way only. -/
theorem TracesFrom.unique {traced : Tag → Bool} {heap : Heap φ} {roots : List Handle}
    {o o' : Marking φ × Option Fault} (ht : TracesFrom traced heap roots o)
    (ht' : TracesFrom traced heap roots o') : o = o' := by
  cases ht with
  | fault shade_eq => cases ht' <;> simp_all
  | loop shade_eq tail =>
    cases ht' with
    | fault shade_eq' => simp [shade_eq] at shade_eq'
    | loop shade_eq' tail' =>
      obtain ⟨rfl, -⟩ := Prod.mk.inj (shade_eq.symm.trans shade_eq')
      exact tail.unique tail'

end Marking

end MarkSweep
