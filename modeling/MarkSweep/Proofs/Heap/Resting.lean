import MarkSweep.Proofs.Heap.Exactness

/-!
# Heaps at rest

Between two operations of a machine its heap is at rest: every header is that of a White object of
the kind of its payload, and what live objects refer to is live. `Heap.Resting` says so. Then a
full collection from live roots cannot fault and is exact (`Resting.collect`), an allocation of an
object that holds live references can only be refused for want of memory (`Resting.allocate`), and
a write that keeps the kind and brings in live references is harmless (`Resting.withObject`).
-/

namespace MarkSweep.Heap

variable {φ : Type} {heap after : Heap φ} {h k : Handle}

/-! ### What an operation keeps -/

namespace Keeps

theorem refl (hlive : heap.contains h) : heap.Keeps heap h := by
  obtain ⟨slot, hfind⟩ := Option.isSome_iff_exists.1 hlive
  exact ⟨slot, slot.next, hfind, hfind⟩

variable (hk : heap.Keeps after h)
include hk

theorem trans {last : Heap φ} (hl : after.Keeps last h) : heap.Keeps last h := by
  obtain ⟨slot, next, hfind, hfind'⟩ := hk
  obtain ⟨slot', next', hslot', hlast⟩ := hl
  obtain rfl := Option.some.inj (hfind'.symm.trans hslot')
  exact ⟨slot, next', hfind, hlast⟩

theorem contains : after.contains h := by
  obtain ⟨slot, next, -, hfind⟩ := hk
  exact contains_of_find? hfind

theorem get?_eq : after.get? h = heap.get? h := by
  obtain ⟨slot, next, hfind, hfind'⟩ := hk
  rw [get?, hfind', get?, hfind]
  rfl

end Keeps

/-- A write leaves the other objects. -/
theorem keeps_withObject {old new : Object} (hget : heap.get? h = some old) (hne : k ≠ h)
    (hk : heap.contains k) : heap.Keeps (heap.withObject h new) k := by
  obtain ⟨slot, hfind⟩ := Option.isSome_iff_exists.1 hk
  exact ⟨slot, slot.next, hfind, by rw [find?_withObject hget, if_neg hne, hfind]⟩

/-! ### The invariant -/

/-- A heap between two operations of its machine. -/
structure Resting (heap : Heap φ) : Prop where
  /-- The representation is sound. -/
  wellFormed : heap.WellFormed
  /-- Headers tell the kinds of payloads, and every object is White. -/
  header_eq : ∀ h slot object, heap.find? h = some slot → slot.object = some object →
    slot.header = Header.make object.tag .white
  /-- Payloads refer to live objects only. -/
  closed : heap.Closed

/-- One heap at rest has a new object more than another. -/
structure Gains (heap : Heap φ) (object : Object) (size : UInt64) (h : Handle) (after : Heap φ) :
    Prop where
  resting : after.Resting
  fresh : heap.contains h = false
  find?_self : after.find? h = some (heap.newSlot object size h.generation)
  keeps : ∀ k, heap.contains k → heap.Keeps after k
  config_eq : after.config = heap.config

namespace Resting

theorem ofConfig (config : Config) : (Heap.ofConfig config : Heap φ).Resting where
  wellFormed := wellFormed_ofConfig config
  header_eq := by
    intro h slot object hfind
    simp [find?, Heap.ofConfig] at hfind
  closed := by
    intro a object hget
    simp [get?, find?, Heap.ofConfig] at hget

variable (hr : heap.Resting)
include hr

/-- A live object and its header. -/
theorem exists_object (hlive : heap.contains h) : ∃ slot object, heap.find? h = some slot ∧
    slot.object = some object ∧ slot.header = Header.make object.tag .white := by
  obtain ⟨slot, object, hfind, hobject⟩ := exists_find?_of_contains hlive
  exact ⟨slot, object, hfind, hobject, hr.header_eq h slot object hfind hobject⟩

theorem allWhite : heap.AllWhite := by
  intro h hlive
  obtain ⟨slot, object, hfind, -, hheader⟩ := hr.exists_object hlive
  exact ⟨slot, hfind, by rw [hheader, Header.color_make]⟩

theorem intact : heap.Intact := by
  refine ⟨hr.wellFormed, fun h slot hfind => ?_⟩
  obtain ⟨object, hobject⟩ := exists_object_of_find? hfind
  rw [hr.header_eq h slot object hfind hobject]
  exact Header.decodes_make _ _

/-- Every reference is followed: an object that holds one is of a kind with references. -/
theorem refers_iff {a b : Handle} :
    heap.Refers a b ↔ ∃ object, heap.get? a = some object ∧ b ∈ object.references := by
  constructor
  · rintro ⟨slot, -, object, hfind, -, -, hobject, hb⟩
    exact ⟨object, get?_of_find? hfind hobject, hb⟩
  · rintro ⟨object, hget, hb⟩
    obtain ⟨slot, hfind, hobject⟩ := exists_find?_of_get? hget
    refine ⟨slot, object.tag, object, hfind, ?_, ?_, hobject, hb⟩
    · rw [hr.header_eq a slot object hfind hobject, Header.tag_make]
    · rcases hrefs : object.tag.hasReferences with _ | _
      · rw [Object.references_eq_nil hrefs] at hb
        cases hb
      · rfl

/-- **A full collection** from live roots is exact, and leaves the heap at rest. -/
theorem collect {roots : Roots} (hroots : ∀ r ∈ roots.toList, heap.contains r) :
    ∃ cycle, (heap.collect roots).answer = .ok cycle ∧ (heap.collect roots).state.Resting ∧
      heap.CollectsExactly roots (heap.collect roots).state cycle := by
  have hlive := hr.closed.reachesLive hroots
  obtain ⟨cycle, hanswer, hexact⟩ := collect_exact hr.intact hr.allWhite hlive
  refine ⟨cycle, hanswer, ⟨(hr.intact.collect roots).wellFormed, ?_, ?_⟩, hexact⟩
  · -- a survivor differs by its link at most
    intro h slot object hfind hobject
    have hreach := ((hexact.contains_iff h).1 (contains_of_find? hfind)).2
    obtain ⟨old, next, hold, hnew⟩ := hexact.keeps h hreach
    obtain rfl := Option.some.inj (hfind.symm.trans hnew)
    exact hr.header_eq h old object hold hobject
  · -- what a survivor refers to was reachable as well
    intro a object hget b hb
    have hreach := ((hexact.contains_iff a).1 (contains_of_get? hget)).2
    rw [(hexact.keeps a hreach).get?_eq] at hget
    have hstep := hreach.step (hr.refers_iff.2 ⟨object, hget, hb⟩) trivial
    exact (hexact.contains_iff b).2 ⟨hr.closed a object hget b hb, hstep⟩

/-- **An object that holds live references** can be put in: the live objects are not touched. -/
theorem gains {object : Object} (hrefs : ∀ r ∈ object.references, heap.contains r)
    {size : UInt64} (ho : heap.Occupied object size h after) (finalizer : Option φ) :
    heap.Gains object size h (after.enter h size finalizer) := by
  have hself : (after.enter h size finalizer).find? h =
      some (heap.newSlot object size h.generation) := ho.find?_self
  have hkeeps (k : Handle) (hk : heap.contains k) :
      heap.Keeps (after.enter h size finalizer) k := by
    obtain ⟨slot, -, hfind, -⟩ := exists_find?_of_contains hk
    exact ⟨slot, slot.next, hfind, (ho.find?_of_contains hk).trans hfind⟩
  refine ⟨⟨(hr.wellFormed.enter ho finalizer).1, ?_, ?_⟩, ho.contains_eq_false, hself, hkeeps,
    (congrArg Heap.config ho.rest :)⟩
  · intro k slot payload hfind hobject
    rcases ho.find?_cases hfind with ⟨-, rfl⟩ | hold
    · obtain rfl : object = payload := Option.some.inj hobject
      rfl
    · exact hr.header_eq k slot payload hold hobject
  · intro a payload hget b hb
    obtain ⟨slot, hfind, hobject⟩ := exists_find?_of_get? hget
    -- either object holds only what was live before
    have hlive : heap.contains b := by
      rcases ho.find?_cases hfind with ⟨-, rfl⟩ | hold
      · obtain rfl : object = payload := Option.some.inj hobject
        exact hrefs b hb
      · exact hr.closed a payload (get?_of_find? hold hobject) b hb
    exact (hkeeps b hlive).contains

/-- **An allocation** of an object that holds live references is refused, or it gives a new handle
and touches no live object. -/
theorem allocate {object : Object} (hrefs : ∀ r ∈ object.references, heap.contains r)
    (size : UInt64) (finalizer : Option φ) (granted : Bool) :
    (∃ cause, (heap.allocate object size finalizer granted).answer = .error (.outOfMemory cause) ∧
      (heap.wouldExceed size ∨ heap.hasSlot granted = false) ∧
      (heap.allocate object size finalizer granted).state = heap) ∨
    ∃ h, (heap.allocate object size finalizer granted).answer = .ok h ∧
      heap.Gains object size h (heap.allocate object size finalizer granted).state := by
  rcases allocate_cases hr.wellFormed object size finalizer granted with
    ⟨r, hmem, hstale, -⟩ | ⟨hrefused, heq⟩ | ⟨-, h, after, ho, heq⟩
  · rw [hrefs r hmem] at hstale
    cases hstale
  · rw [heq]
    exact .inl ⟨_, rfl, hrefused, rfl⟩
  · rw [heq]
    exact .inr ⟨h, rfl, hr.gains hrefs ho finalizer⟩

/-- Whatever an allocation comes to, it leaves live objects alone and does not fault. -/
theorem allocate_keeps {object : Object} (hrefs : ∀ r ∈ object.references, heap.contains r)
    (size : UInt64) (finalizer : Option φ) (granted : Bool) :
    (heap.allocate object size finalizer granted).state.Resting ∧
      (∀ k, heap.contains k → heap.Keeps (heap.allocate object size finalizer granted).state k) ∧
      ∀ fault, (heap.allocate object size finalizer granted).answer ≠ .error (.fault fault) := by
  rcases hr.allocate hrefs size finalizer granted with ⟨cause, heq, -, hsame⟩ | ⟨h, heq, hgains⟩
  · rw [hsame, heq]
    exact ⟨hr, fun k hk => .refl hk, by simp⟩
  · rw [heq]
    exact ⟨hgains.resting, hgains.keeps, by simp⟩

/-- **A write** that keeps the kind and brings in live references leaves the heap at rest. -/
theorem withObject {old new : Object} (hget : heap.get? h = some old) (htag : new.tag = old.tag)
    (hrefs : ∀ r ∈ new.references, heap.contains r) : (heap.withObject h new).Resting := by
  refine ⟨hr.wellFormed.of_skeleton_eq (skeleton_withObject hget), ?_, ?_⟩
  · intro k slot object hfind hobject
    rw [find?_withObject hget] at hfind
    split at hfind
    · rename_i heq
      subst heq
      obtain ⟨slot', hfind', rfl⟩ := Option.map_eq_some_iff.1 hfind
      obtain rfl : new = object := Option.some.inj hobject
      rw [get?, hfind', Option.bind_some] at hget
      exact (hr.header_eq k slot' old hfind' hget).trans (by rw [htag])
    · exact hr.header_eq k slot object hfind hobject
  · intro a object hgeta b hb
    rw [contains_withObject hget]
    rw [get?_withObject hget] at hgeta
    split at hgeta
    · obtain rfl := Option.some.inj hgeta
      exact hrefs b hb
    · exact hr.closed a object hgeta b hb

end Resting

/-! ### Collections on the way -/

/-- One heap is left of another at rest by a collection rooted at the given handles, or by nothing:
what they reach is kept, nothing is added, and there is no less room. -/
structure Trims (heap : Heap φ) (roots : List Handle) (after : Heap φ) : Prop where
  resting : after.Resting
  keeps : ∀ h, heap.Reachable roots h → heap.Keeps after h
  keeps_of_contains : ∀ h, after.contains h → heap.Keeps after h
  config_eq : after.config = heap.config
  hasSlot : ∀ granted, heap.hasSlot granted → after.hasSlot granted

theorem config_adjusted (heap : Heap φ) :
    heap.adjustThresholds.countCollection.config = heap.config := rfl

theorem hasSlot_adjusted (heap : Heap φ) (granted : Bool) :
    heap.adjustThresholds.countCollection.hasSlot granted = heap.hasSlot granted := rfl

theorem Resting.trims_refl (hr : heap.Resting) {roots : List Handle}
    (hroots : ∀ r ∈ roots, heap.contains r) : heap.Trims roots heap where
  resting := hr
  keeps := fun h hh => .refl (hr.closed.reachesLive hroots h hh)
  keeps_of_contains := fun _ hh => .refl hh
  config_eq := rfl
  hasSlot := fun _ hslot => hslot

theorem Resting.trims_collect (hr : heap.Resting) {roots : Roots}
    (hroots : ∀ r ∈ roots.toList, heap.contains r) :
    heap.Trims roots.toList (heap.collect roots).state := by
  obtain ⟨cycle, -, hrest, hexact⟩ := hr.collect hroots
  have hcolorless := colorless_mark hr.intact.headersDecode roots
  have hw := (hr.intact.mark roots).wellFormed
  have hslots : (heap.mark roots).state.slots.size = heap.slots.size := by
    simpa [colorless] using congrArg (fun heap => heap.slots.size) hcolorless
  have hfree : (heap.mark roots).state.free = heap.free := (congrArg Heap.free hcolorless :)
  have hconfig : (heap.mark roots).state.config = heap.config :=
    (congrArg Heap.config hcolorless :)
  have hroom (granted : Bool) : (heap.mark roots).state.hasSlot granted = heap.hasSlot granted := by
    rw [hasSlot, hfree, hslots, hasSlot]
  refine ⟨hrest, hexact.keeps, ?_, ?_, ?_⟩
  · intro h hh
    exact hexact.keeps h ((hexact.contains_iff h).1 hh).2
  · rcases collect_cases heap roots with ⟨fault, -, -, heq⟩ | ⟨reached, -, -, heq⟩
    · rw [heq, hconfig]
    · rw [heq, config_adjusted, config_sweep hw, hconfig]
  · intro granted hslot
    rw [← hroom] at hslot
    rcases collect_cases heap roots with ⟨fault, -, -, heq⟩ | ⟨reached, -, -, heq⟩
    · rwa [heq]
    · rw [heq, hasSlot_adjusted]
      exact hasSlot_sweep hw hslot

end MarkSweep.Heap
