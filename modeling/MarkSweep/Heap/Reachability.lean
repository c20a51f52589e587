import MarkSweep.Heap.Basic

/-!
# Reachability

Which objects a root set keeps alive is a matter of the references between objects, and not of how
a collection goes about finding them. `Heap.Refers` is the relation that is followed: a live
object whose header has a kind with references refers to the references of its payload.
`Heap.ReachableBy` follows it through handles of a given sort only, and `Heap.Reachable` and
`Heap.WhiteReachable` are its two uses: through any handles, and through live White objects.

A stale handle is reachable where a root or a reachable object holds it. So the statement that
every reachable handle is live says that nothing reachable is stale.
-/

namespace MarkSweep.Heap

variable {φ : Type}

/-- The object of `h` is live and has the colour `c`. -/
def HasColor (heap : Heap φ) (c : Color) (h : Handle) : Prop :=
  ∃ slot, heap.find? h = some slot ∧ slot.header.color = .ok c

/-- A look at the header of a live object decides about its colour. -/
instance (heap : Heap φ) (c : Color) (h : Handle) : Decidable (heap.HasColor c h) :=
  decidable_of_iff ((heap.find? h).any fun slot => slot.header.hasColor c) <| by
    rw [HasColor]
    rcases heap.find? h with _ | slot <;> simp [Header.hasColor_iff]

/-- The object of `a` is live and traced, and its payload holds the reference `b`. -/
def Refers (heap : Heap φ) (a b : Handle) : Prop :=
  ∃ slot tag object, heap.find? a = some slot ∧ slot.header.tag = .ok tag ∧ tag.hasReferences ∧
    slot.object = some object ∧ b ∈ object.references

/-- Reachable from the roots through handles that satisfy `p`, the end included. -/
inductive ReachableBy (heap : Heap φ) (p : Handle → Prop) (roots : List Handle) : Handle → Prop
  /-- A root is reachable. -/
  | root {h : Handle} (mem : h ∈ roots) (ok : p h) : ReachableBy heap p roots h
  /-- What a reachable object refers to is reachable. -/
  | step {a b : Handle} (reach : ReachableBy heap p roots a) (refers : heap.Refers a b)
      (ok : p b) : ReachableBy heap p roots b

/-- Reachable from the roots. -/
def Reachable (heap : Heap φ) (roots : List Handle) : Handle → Prop :=
  heap.ReachableBy (fun _ => True) roots

/-- Reachable from the roots through White objects only. -/
def WhiteReachable (heap : Heap φ) (roots : List Handle) : Handle → Prop :=
  heap.ReachableBy (heap.HasColor .white) roots

/-- What is reachable satisfies the condition on the handles along the way. -/
theorem ReachableBy.holds {heap : Heap φ} {p : Handle → Prop} {roots : List Handle} {h : Handle}
    (hr : heap.ReachableBy p roots h) : p h := by
  cases hr <;> assumption

/-- Reachability grows with the condition and with the roots. -/
theorem ReachableBy.mono {heap : Heap φ} {p q : Handle → Prop} {roots more : List Handle}
    {h : Handle} (hpq : ∀ k, p k → q k) (hroots : ∀ k ∈ roots, k ∈ more)
    (hr : heap.ReachableBy p roots h) : heap.ReachableBy q more h := by
  induction hr with
  | root mem ok => exact .root (hroots _ mem) (hpq _ ok)
  | step _ refers ok ih => exact .step ih refers (hpq _ ok)

/-- **Closure.** A set that holds the roots, and with an object all that it refers to, holds
everything reachable. -/
theorem ReachableBy.mem_of_closed {heap : Heap φ} {p s : Handle → Prop} {roots : List Handle}
    (hroots : ∀ k ∈ roots, p k → s k) (hclosed : ∀ a b, s a → heap.Refers a b → p b → s b)
    {h : Handle} (hr : heap.ReachableBy p roots h) : s h := by
  induction hr with
  | root mem ok => exact hroots _ mem ok
  | step _ refers ok ih => exact hclosed _ _ ih refers ok

end MarkSweep.Heap
