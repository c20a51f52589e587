import MarkSweep.Heap.Mark

/-!
# The traffic through the queue

What a marking puts into its queue and what it takes out of it, in order. A marking does not keep
this account. It is read off the queue, round by round: a round takes the handle in front, and what
comes after the handles left by that when the round is over is what the round has put there. The
round in which a fault occurs is part of the account.
-/

namespace MarkSweep

variable {φ : Type}

namespace Marking

/-- The handles in the queue that come after the first `n`. -/
def queuedAfter (m : Marking φ) (n : Nat) : List Handle := m.pending.toList.drop n

set_option linter.unusedVariables false in
-- the names of the two equations are for the proof that the weight goes down
/-- The rounds of the loop, in order: the handle that each takes from the queue, with the handles
that it puts there. -/
def rounds (m : Marking φ) : List (Handle × List Handle) :=
  match hpop : m.pending.pop? with
  | none => []
  | some (h, rest) =>
    match hvisit : ({ m with pending := rest } : Marking φ).visit h with
    | (m', some _) => [(h, m'.queuedAfter rest.size)]
    | (m', none) => (h, m'.queuedAfter rest.size) :: rounds m'
termination_by m.weight
decreasing_by
  have hlt := weight_visit_lt hpop
  rw [hvisit] at hlt
  exact hlt

end Marking

namespace Heap

/-- The handles that a marking from roots puts into its queue, in order. The roots come first, and
a stale one among them is the end of it. -/
def queued (heap : Heap φ) (roots : List Handle) : List Handle :=
  match Marking.shadeAll ⟨heap, Worklist.empty, []⟩ roots with
  | (m, some _) => m.pending.toList
  | (m, none) => m.pending.toList ++ m.rounds.flatMap Prod.snd

/-- The handles that a marking from roots takes from its queue, in order. -/
def taken (heap : Heap φ) (roots : List Handle) : List Handle :=
  match Marking.shadeAll ⟨heap, Worklist.empty, []⟩ roots with
  | (_, some _) => []
  | (m, none) => m.rounds.map Prod.fst

/-- The handles that are left in the queue when a marking from roots is over. -/
def waiting (heap : Heap φ) (roots : List Handle) : List Handle :=
  (Marking.fromRoots heap roots).1.pending.toList

end Heap

end MarkSweep
