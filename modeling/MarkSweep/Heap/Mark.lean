import MarkSweep.Heap.Basic
import MarkSweep.Heap.Worklist
import MarkSweep.Roots

/-!
# Marking

Marking starts from the roots and turns what it reaches Black. A handle is queued only while its
object is White, which then turns Gray; a handle that is taken from the queue turns Black, and the
references of its object are shaded in turn. Whether an object is traced is for its header to say:
a leaf is marked and no more.

Every step takes a handle from the queue, and every handle that is queued costs a White object;
so `Marking.weight`, the number of White slots and queued handles together, goes down with each
step (`Marking.weight_visit_lt`), and marking ends.

Marking begins with the colours as they are and changes nothing but colours. A stale handle among
the roots or in an object that is traced is a fault, which leaves Gray and Black behind.
-/

namespace MarkSweep

variable {φ : Type}

/-- Whether the object of a slot is White. -/
def Slot.isWhite (s : Slot) : Bool := s.header.hasColor .white

/-- Marking in progress. -/
structure Marking (φ : Type) where
  /-- The heap with the colours so far. -/
  heap : Heap φ
  /-- The Gray objects that are still to be traced. -/
  pending : Worklist
  /-- The objects that turned Black, the last one in front. -/
  reached : List Handle

namespace Marking

/-- Turns a White object Gray and queues it. -/
def shade (m : Marking φ) (h : Handle) : Marking φ × Option Fault :=
  match m.heap.find? h with
  | none => (m, some (.staleHandle h))
  | some slot =>
    match slot.header.colorOrFault with
    | .error fault => (m, some fault)
    | .ok .white =>
      ({ m with heap := m.heap.recolor h .gray, pending := m.pending.push h }, none)
    | .ok _ => (m, none)

/-- Shades handles in order, up to the first fault. -/
def shadeAll : Marking φ → List Handle → Marking φ × Option Fault
  | m, [] => (m, none)
  | m, h :: rest =>
    match m.shade h with
    | (m, none) => m.shadeAll rest
    | (m, some fault) => (m, some fault)

/-- Turns an object Black and shades its references, unless it is a leaf. -/
def visit (m : Marking φ) (h : Handle) : Marking φ × Option Fault :=
  match m.heap.find? h with
  | none => (m, some (.staleHandle h))
  | some slot =>
    match slot.header.tagOrFault with
    | .error fault => (m, some fault)
    | .ok tag =>
      let m := { m with heap := m.heap.recolor h .black, reached := h :: m.reached }
      if tag.hasReferences then m.shadeAll (slot.object.elim [] Object.references) else (m, none)

/-! ### Marking ends -/

/-- The number of White slots and queued handles. -/
def weight (m : Marking φ) : Nat :=
  m.heap.slots.toList.countP Slot.isWhite + m.pending.size

private theorem countP_modify_le {α : Type} {p : α → Bool} {f : α → α} (hf : ∀ a, p (f a) = false)
    (l : List α) (i : Nat) : (l.modify i f).countP p ≤ l.countP p := by
  induction l generalizing i with
  | nil => simp
  | cons a l ih =>
    cases i with
    | zero => simp [List.modify_zero_cons, List.countP_cons, hf]
    | succ i => simpa [List.modify_succ_cons, List.countP_cons] using ih i

private theorem countP_modify_lt {α : Type} {p : α → Bool} {f : α → α} (hf : ∀ a, p (f a) = false)
    {l : List α} {i : Nat} {a : α} (ha : l[i]? = some a) (hpa : p a = true) :
    (l.modify i f).countP p < l.countP p := by
  induction l generalizing i with
  | nil => simp at ha
  | cons b l ih =>
    cases i with
    | zero =>
      simp only [List.getElem?_cons_zero, Option.some.injEq] at ha
      subst ha
      simp [List.modify_zero_cons, hf, hpa]
    | succ i =>
      simp only [List.getElem?_cons_succ] at ha
      simpa [List.modify_succ_cons, List.countP_cons] using ih ha

private theorem isWhite_recolor {c : Color} (hc : c ≠ .white) (s : Slot) :
    (s.recolor c).isWhite = false := by
  cases c with
  | white => exact absurd rfl hc
  | gray => simp [Slot.isWhite, Slot.recolor, Header.hasColor, Header.setColor, Color.raw]
  | black => simp [Slot.isWhite, Slot.recolor, Header.hasColor, Header.setColor, Color.raw]

/-- Shading does not add to the weight: what is queued was White. -/
theorem weight_shade_le (m : Marking φ) (h : Handle) : (m.shade h).1.weight ≤ m.weight := by
  unfold shade
  split
  · exact Nat.le_refl _
  · rename_i slot hfind
    split
    · exact Nat.le_refl _
    · rename_i hcolor
      have hslot : m.heap.slots.toList[h.slot]? = some slot := by
        simpa using (Heap.find?_eq_some_iff.1 hfind).1
      have hwhite : slot.isWhite = true := by
        rw [Slot.isWhite, Header.hasColor_iff]
        unfold Header.colorOrFault at hcolor
        cases hdec : slot.header.color with
        | error e => rw [hdec] at hcolor; cases hcolor
        | ok c => rw [hdec] at hcolor; cases hcolor; rfl
      have hlt := countP_modify_lt (isWhite_recolor (c := .gray) (by decide)) hslot hwhite
      simp only [weight, Heap.recolor, Heap.updateSlot, Array.toList_modify, Worklist.size_push]
      omega
    · exact Nat.le_refl _

theorem weight_shadeAll_le (m : Marking φ) (hs : List Handle) :
    (m.shadeAll hs).1.weight ≤ m.weight := by
  induction hs generalizing m with
  | nil => exact Nat.le_refl _
  | cons h hs ih =>
    unfold shadeAll
    have hle := weight_shade_le m h
    split
    · rename_i m' hshade
      rw [hshade] at hle
      exact Nat.le_trans (ih m') hle
    · rename_i m' fault hshade
      rw [hshade] at hle
      exact hle

/-- A visit does not add to the weight. -/
theorem weight_visit_le (m : Marking φ) (h : Handle) : (m.visit h).1.weight ≤ m.weight := by
  unfold visit
  split
  · exact Nat.le_refl _
  · split
    · exact Nat.le_refl _
    · have hblack : ({ m with heap := m.heap.recolor h .black, reached := h :: m.reached } :
          Marking φ).weight ≤ m.weight := by
        simp only [weight, Heap.recolor, Heap.updateSlot, Array.toList_modify]
        exact Nat.add_le_add_right
          (countP_modify_le (isWhite_recolor (c := .black) (by decide)) _ _) _
      split
      · exact Nat.le_trans (weight_shadeAll_le _ _) hblack
      · exact hblack

/-- Taking a handle from the queue and visiting it makes the weight smaller. -/
theorem weight_visit_lt {m : Marking φ} {h : Handle} {rest : Worklist}
    (hpop : m.pending.pop? = some (h, rest)) :
    (({ m with pending := rest } : Marking φ).visit h).1.weight < m.weight := by
  refine Nat.lt_of_le_of_lt (weight_visit_le _ h) ?_
  simp only [weight, Worklist.size_of_pop? hpop]
  omega

/-! ### The loop -/

set_option linter.unusedVariables false in
-- the names of the two equations are for the proof that the weight goes down
/-- Visits the queued handles in order until none is left or a fault occurs. -/
def drain (m : Marking φ) : Marking φ × Option Fault :=
  match hpop : m.pending.pop? with
  | none => (m, none)
  | some (h, rest) =>
    match hvisit : ({ m with pending := rest } : Marking φ).visit h with
    | (m', some fault) => (m', some fault)
    | (m', none) => drain m'
termination_by m.weight
decreasing_by
  have hlt := weight_visit_lt hpop
  rw [hvisit] at hlt
  exact hlt

/-- Shades the roots and visits what is queued. -/
def fromRoots (heap : Heap φ) (roots : List Handle) : Marking φ × Option Fault :=
  match shadeAll ⟨heap, Worklist.empty, []⟩ roots with
  | (m, some fault) => (m, some fault)
  | (m, none) => m.drain

end Marking

/-- Marks what is reachable from the roots, and answers how many objects were reached. -/
def Heap.mark (heap : Heap φ) (roots : Roots) : Outcome φ Fault (Heap φ) UInt64 :=
  match Marking.fromRoots heap roots.toList with
  | (m, some fault) => .quiet (.error fault) m.heap
  | (m, none) => .quiet (.ok (UInt64.ofNat m.reached.length)) m.heap

end MarkSweep
