import MarkSweep.Proofs.Heap.Accounting

/-!
# All or nothing

An allocation and a checked store make their checks before they write anything. So either of them
does the whole of its work or leaves the heap as it was, in every part. Which of the two it is, and
which failure comes first where several are due, is decided by the heap before the call:
`Heap.AllocatesWhole` and `Heap.StoresWhole` say how.

What the work of a store is has to be said without the store itself. `Object.field?` reads one of
the fields that hold references, and `Object.withoutReferences` is what is left of an object beside
them; together they make up the object (`Object.eq_of_fields`), and a write changes the one field
(`Object.store_eq_some_iff`).
-/

namespace MarkSweep

namespace Object

variable {o p : Object} {f : RefField} {ref : Option Handle}

/-- The reference in a field, if the object has that field. -/
def field? : Object → RefField → Option (Option Handle)
  | pair lhs _, .lhs => some lhs
  | pair _ rhs, .rhs => some rhs
  | tagged _ value, .taggedValue => some value
  | closure env _, .closureEnv => some env
  | _, _ => none

/-- The object with its fields for references blank. -/
def withoutReferences : Object → Object
  | pair _ _ => pair none none
  | tagged discriminant _ => tagged discriminant none
  | closure _ entry => closure none entry
  | object => object

/-- An object is made up of its fields for references and the rest. -/
theorem eq_of_fields (hrest : p.withoutReferences = o.withoutReferences)
    (hfields : ∀ f, p.field? f = o.field? f) : p = o := by
  have hlhs := hfields .lhs
  have hrhs := hfields .rhs
  have hvalue := hfields .taggedValue
  have henv := hfields .closureEnv
  cases o <;> cases p <;> simp_all [withoutReferences, field?]

theorem isSome_store (o : Object) (f : RefField) (ref : Option Handle) :
    (o.store f ref).isSome = (o.field? f).isSome := by
  cases o <;> cases f <;> rfl

theorem fields_of_store (h : o.store f ref = some p) :
    p.withoutReferences = o.withoutReferences ∧
      ∀ g, p.field? g = if g = f then some ref else o.field? g := by
  cases o <;> cases f <;> simp only [store, Option.some.injEq, reduceCtorEq] at h <;> subst h <;>
    exact ⟨rfl, fun g => by cases g <;> rfl⟩

/-- **A write** applies to an object that has the field, and changes that field alone. -/
theorem store_eq_some_iff : o.store f ref = some p ↔ (o.field? f).isSome ∧
    p.withoutReferences = o.withoutReferences ∧
      ∀ g, p.field? g = if g = f then some ref else o.field? g := by
  constructor
  · intro h
    refine ⟨?_, fields_of_store h⟩
    rw [← isSome_store o f ref, h, Option.isSome_some]
  · rintro ⟨hsome, hrest, hfields⟩
    rw [← isSome_store o f ref] at hsome
    obtain ⟨q, hq⟩ := Option.isSome_iff_exists.1 hsome
    obtain ⟨hrest', hfields'⟩ := fields_of_store hq
    rw [hq, eq_of_fields (hrest'.trans hrest.symm) fun g => (hfields' g).trans (hfields g).symm]

end Object

namespace Heap

variable {φ : Type} {heap : Heap φ} {object : Object} {size : UInt64} {finalizer : Option φ}
  {granted : Bool} {h target : Handle} {field : RefField} {ref : Option Handle}

/-! ### Allocations -/

/-- A charge of `size` more bytes breaks the limit, if there is one. -/
def BreaksLimit (heap : Heap φ) (size : UInt64) : Prop :=
  heap.config.maxBytes ≠ 0 ∧
    heap.config.maxBytes.toNat < heap.bytesAllocated.toNat + size.toNat

/-- There is no slot for one more object: none is free, and the arena is as large as it can be or
is refused the memory to grow. -/
def LacksSlot (heap : Heap φ) (granted : Bool) : Prop :=
  heap.free = [] ∧ (heap.slots.size = maxSlots ∨ granted = false)

/-- **An object is put in**, and nothing else is done to the heap. -/
structure Enters (heap : Heap φ) (object : Object) (size : UInt64) (finalizer : Option φ)
    (h : Handle) (after : Heap φ) : Prop where
  /-- The heap is well formed after it. -/
  wellFormed : after.WellFormed
  /-- The handle was not live. -/
  fresh : heap.contains h = false
  /-- It is now the head of the list. -/
  head_eq : after.head = some h
  /-- The rest of the list is the list from before. -/
  handles_eq : after.handles = h :: heap.handles
  /-- The object is White, and the header tells the kind of the payload. -/
  entered : ∃ slot, after.find? h = some slot ∧ slot.header.tag = .ok object.tag ∧
    slot.header.color = .ok .white ∧ slot.next = heap.head ∧ slot.size = size ∧
      slot.object = some object
  /-- What was live is as it was. -/
  kept : ∀ k, heap.contains k → after.find? k = heap.find? k
  /-- So is every other slot. -/
  other : ∀ i, h.slot ≠ i → after.slots[i]? = heap.slots[i]?
  /-- The slot of the object stays in its generation. -/
  generation_eq : ∀ i, after.generationOf i = heap.generationOf i
  /-- It is the only one that is no longer free. -/
  mem_free_iff : ∀ i, i ∈ after.free ↔ i ∈ heap.free ∧ i ≠ h.index
  /-- The finalizer, if any, is registered for the handle. -/
  finalizers_eq : ∀ k, after.finalizers[k]? = if h = k then finalizer else heap.finalizers[k]?
  /-- The charge is added. -/
  bytes_eq : after.bytesAllocated.toNat = heap.bytesAllocated.toNat + size.toNat
  /-- The object is counted. -/
  objects_eq : after.objectsAllocated.toNat = heap.objectsAllocated.toNat + 1
  /-- Of the totals only the peak may move. -/
  stats_eq : after.stats =
    { heap.stats with peakBytes := max heap.stats.peakBytes after.bytesAllocated }
  /-- Configuration and thresholds stay. -/
  settings_eq : after.config = heap.config ∧ after.objectsThreshold = heap.objectsThreshold ∧
    after.bytesThreshold = heap.bytesThreshold

/-- **All or nothing**, for the outcome of an allocation. -/
structure AllocatesWhole (heap : Heap φ) (object : Object) (size : UInt64) (finalizer : Option φ)
    (granted : Bool) (outcome : Outcome φ AllocationError (Heap φ) Handle) : Prop where
  /-- Stale references come first. -/
  fault_iff : (∃ fault, outcome.answer = .error (.fault fault)) ↔
    ∃ r ∈ object.references, heap.contains r = false
  /-- Of several the first one is told. -/
  fault_eq : ∀ fault, outcome.answer = .error (.fault fault) →
    ∃ r, heap.stale? object.references = some r ∧ fault = .staleHandle r
  /-- Then come the limit and the slot. -/
  refused_iff : (∃ cause, outcome.answer = .error (.outOfMemory cause)) ↔
    (∀ r ∈ object.references, heap.contains r) ∧ (heap.BreaksLimit size ∨ heap.LacksSlot granted)
  /-- Both refusals are worded alike. -/
  refused_eq : ∀ cause, outcome.answer = .error (.outOfMemory cause) →
    cause = ⟨size, heap.bytesAllocated, heap.config.maxBytes⟩
  /-- A failure does nothing and announces nothing. -/
  nothing : ∀ e, outcome.answer = .error e → outcome.state = heap ∧ outcome.events = []
  /-- Otherwise there is a handle. -/
  entered_iff : (∃ h, outcome.answer = .ok h) ↔ (∀ r ∈ object.references, heap.contains r) ∧
    ¬ heap.BreaksLimit size ∧ ¬ heap.LacksSlot granted
  /-- Then all is done. -/
  whole : ∀ h, outcome.answer = .ok h → heap.Enters object size finalizer h outcome.state

/-- Unless a sum wraps, the saturating test of the limit is that of the true sum. -/
theorem wouldExceed_iff_breaksLimit (hfit : heap.wouldExceed size = false →
    heap.bytesAllocated.toNat + size.toNat < UInt64.size) :
    heap.wouldExceed size ↔ heap.BreaksLimit size := by
  rw [BreaksLimit]
  constructor
  · rw [wouldExceed_iff]
    exact fun ⟨hlimited, hlt⟩ => ⟨hlimited, by omega⟩
  · rintro ⟨hlimited, hlt⟩
    by_contra hpassed
    have hsum := hfit (Bool.not_eq_true _ ▸ hpassed)
    rw [wouldExceed_iff, not_and] at hpassed
    have hle := hpassed hlimited
    rw [Word.toNat_largest] at hle
    simp only [UInt64.size] at hsum
    omega

theorem hasSlot_eq_false_iff (hw : heap.WellFormed) :
    heap.hasSlot granted = false ↔ heap.LacksSlot granted := by
  have hfull : ¬ heap.slots.size < maxSlots ↔ heap.slots.size = maxSlots := by
    have hle := hw.slots_le
    omega
  rw [LacksSlot, ← hfull]
  simp [hasSlot, Decidable.imp_iff_not_or]

/-- What is put into a slot is entered, and nothing else happens. -/
theorem enters_enter (hw : heap.WellFormed) {after : Heap φ}
    (ho : heap.Occupied object size h after)
    (hgeneration : heap.generationOf h.slot = h.generation)
    (hsum : heap.bytesAllocated.toNat + size.toNat < UInt64.size) (finalizer : Option φ) :
    heap.Enters object size finalizer h (after.enter h size finalizer) := by
  obtain ⟨hwell, hhandles⟩ := hw.enter ho finalizer
  refine ⟨hwell, ho.contains_eq_false, rfl, hhandles,
    ⟨_, ho.find?_self, Header.tag_make _ _, Header.color_make _ _, rfl, rfl, rfl⟩,
    fun k hk => ho.find?_of_contains hk, ho.other, generationOf_enter ho hgeneration finalizer,
    ho.mem_free, hw.finalizers_enter ho finalizer, ?_, ?_, ?_, ?_⟩
  · have hbytes : after.bytesAllocated = heap.bytesAllocated :=
      (congrArg Heap.bytesAllocated ho.rest :)
    change (after.bytesAllocated + size).toNat = _
    rw [hbytes, UInt64.toNat_add, Nat.mod_eq_of_lt hsum]
  · rw [hwell.toNat_objectsAllocated, hhandles, List.length_cons, hw.toNat_objectsAllocated]
  · have hstats : after.stats = heap.stats := (congrArg Heap.stats ho.rest :)
    rw [← hstats]
    rfl
  · exact ⟨(congrArg Heap.config ho.rest :), (congrArg Heap.objectsThreshold ho.rest :),
      (congrArg Heap.bytesThreshold ho.rest :)⟩

theorem allocatesWhole_of_stale {r : Handle} (hstale : heap.stale? object.references = some r) :
    heap.AllocatesWhole object size finalizer granted
      (heap.allocate object size finalizer granted) := by
  have hmem := List.mem_of_find?_eq_some hstale
  have hdead : heap.contains r = false := by simpa using List.find?_some hstale
  have hnot : ¬ ∀ r ∈ object.references, heap.contains r := by simpa using ⟨r, hmem, hdead⟩
  rw [allocate_of_stale hstale size finalizer granted]
  refine ⟨⟨fun _ => ⟨r, hmem, hdead⟩, fun _ => ⟨_, rfl⟩⟩, fun fault hfault => ⟨r, hstale, ?_⟩,
    ⟨nofun, fun h => absurd h.1 hnot⟩, nofun, fun _ _ => ⟨rfl, rfl⟩,
    ⟨nofun, fun h => absurd h.1 hnot⟩, nofun⟩
  exact (AllocationError.fault.inj (Except.error.inj hfault)).symm

section Fits

variable (hw : heap.WellFormed)
  (hfit : heap.wouldExceed size = false → heap.bytesAllocated.toNat + size.toNat < UInt64.size)
include hw hfit

theorem allocatesWhole_of_refused (hlive : ∀ r ∈ object.references, heap.contains r)
    (hrefused : heap.BreaksLimit size ∨ heap.LacksSlot granted) :
    heap.AllocatesWhole object size finalizer granted
      (heap.allocate object size finalizer granted) := by
  have hnone : ¬ ∃ r ∈ object.references, heap.contains r = false := by simpa using hlive
  have htested : heap.wouldExceed size ∨ heap.hasSlot granted = false := by
    rwa [wouldExceed_iff_breaksLimit hfit, hasSlot_eq_false_iff hw]
  rw [allocate_of_refused hlive htested finalizer]
  refine ⟨⟨nofun, fun hdead => absurd hdead hnone⟩, nofun,
    ⟨fun _ => ⟨hlive, hrefused⟩, fun _ => ⟨_, rfl⟩⟩, fun cause hcause => ?_,
    fun _ _ => ⟨rfl, rfl⟩, ⟨nofun, fun hadmitted => ?_⟩, nofun⟩
  · exact (AllocationError.outOfMemory.inj (Except.error.inj hcause)).symm
  · exact absurd hrefused (not_or.2 hadmitted.2)

theorem allocatesWhole_of_admitted (hlive : ∀ r ∈ object.references, heap.contains r)
    (hadmitted : ¬ (heap.BreaksLimit size ∨ heap.LacksSlot granted)) :
    heap.AllocatesWhole object size finalizer granted
      (heap.allocate object size finalizer granted) := by
  have hnone : ¬ ∃ r ∈ object.references, heap.contains r = false := by simpa using hlive
  obtain ⟨hlimit, hslot⟩ := not_or.1 hadmitted
  rw [← wouldExceed_iff_breaksLimit hfit, Bool.not_eq_true] at hlimit
  rw [← hasSlot_eq_false_iff hw, Bool.not_eq_false] at hslot
  rw [allocate_of_admitted hlive hlimit hslot finalizer]
  refine ⟨⟨nofun, fun hdead => absurd hdead hnone⟩, nofun,
    ⟨nofun, fun h => absurd h.2 hadmitted⟩, nofun, nofun,
    ⟨fun _ => ⟨hlive, not_or.1 hadmitted⟩, fun _ => ⟨_, rfl⟩⟩, fun h hanswer => ?_⟩
  obtain rfl := Except.ok.inj hanswer
  exact enters_enter hw (occupied_spec hw object size hslot) (generation_occupy hslot object size)
    (hfit hlimit) finalizer

/-- **Allocations** are all or nothing. -/
theorem allocatesWhole (object : Object) (finalizer : Option φ) (granted : Bool) :
    heap.AllocatesWhole object size finalizer granted
      (heap.allocate object size finalizer granted) := by
  rcases hstale : heap.stale? object.references with _ | r
  · have hlive := stale?_eq_none_iff.1 hstale
    by_cases hrefused : heap.BreaksLimit size ∨ heap.LacksSlot granted
    · exact allocatesWhole_of_refused hw hfit hlive hrefused
    · exact allocatesWhole_of_admitted hw hfit hlive hrefused
  · exact allocatesWhole_of_stale hstale

end Fits

/-! ### Checked stores -/

/-- **A reference is written** to a field of a live object, and nothing else is done to the heap. -/
structure Writes (heap : Heap φ) (target : Handle) (field : RefField) (ref : Option Handle)
    (after : Heap φ) : Prop where
  /-- The payload changes in the one field, and the slot of the object in nothing but its
  payload. -/
  written : ∃ slot old new, heap.find? target = some slot ∧ slot.object = some old ∧
    after.find? target = some { slot with object := some new } ∧
    new.withoutReferences = old.withoutReferences ∧
    ∀ f, new.field? f = if f = field then some ref else old.field? f
  /-- Any other object is as it was. -/
  kept : ∀ k, k ≠ target → after.find? k = heap.find? k
  /-- So is every other slot. -/
  other : ∀ i, target.slot ≠ i → after.slots[i]? = heap.slots[i]?
  /-- The list stays. -/
  handles_eq : after.handles = heap.handles
  /-- The slots are all that is written to. -/
  rest : after = { heap with slots := after.slots }

/-- **All or nothing**, for the outcome of a checked store. -/
structure StoresWhole (heap : Heap φ) (target : Handle) (field : RefField) (ref : Option Handle)
    (outcome : Outcome φ Fault (Heap φ) Bool) : Prop where
  /-- A store faults where the value or the target is stale. -/
  fault_iff : (∃ fault, outcome.answer = .error fault) ↔
    (∃ r ∈ ref, heap.contains r = false) ∨ heap.contains target = false
  /-- A stale value comes before a stale target. -/
  fault_eq : ∀ fault, outcome.answer = .error fault →
    (∃ r ∈ ref, heap.contains r = false ∧ fault = .staleHandle r) ∨
      (∀ r ∈ ref, heap.contains r) ∧ heap.contains target = false ∧ fault = .staleHandle target
  /-- Between live objects the answer is whether the target has the field. -/
  answer_eq : ∀ old, (∀ r ∈ ref, heap.contains r) → heap.get? target = some old →
    outcome.answer = .ok (old.field? field).isSome
  /-- Unless it is applied, a store does nothing. -/
  nothing : outcome.answer ≠ .ok true → outcome.state = heap
  /-- If it is, it is a write of the whole reference. -/
  whole : outcome.answer = .ok true → heap.Writes target field ref outcome.state
  /-- A store announces nothing. -/
  silent : outcome.events = []

theorem writes_withObject {old new : Object} (hget : heap.get? target = some old)
    (hstore : old.store field ref = some new) :
    heap.Writes target field ref (heap.withObject target new) := by
  obtain ⟨-, hrest, hfields⟩ := Object.store_eq_some_iff.1 hstore
  obtain ⟨slot, hfind, hobject⟩ := exists_find?_of_get? hget
  refine ⟨⟨slot, old, new, hfind, hobject, ?_, hrest, hfields⟩, fun k hk => ?_, fun i hi => ?_,
    handles_eq_of_skeleton_eq (skeleton_withObject hget), rfl⟩
  · rw [find?_withObject hget, if_pos rfl, hfind]
    rfl
  · rw [find?_withObject hget, if_neg hk]
  · rw [withObject, getElem?_updateSlot, if_neg hi]

/-- Between live objects a store answers whether the target has the field. -/
theorem storesWhole_of_live {old : Object} (hlive : ∀ r ∈ ref, heap.contains r)
    (hget : heap.get? target = some old) (field : RefField) :
    heap.StoresWhole target field ref (heap.store target field ref) := by
  have hsound : ¬ ((∃ r ∈ ref, heap.contains r = false) ∨ heap.contains target = false) := by
    rw [not_or, Bool.not_eq_false]
    exact ⟨by simpa using hlive, contains_of_get? hget⟩
  have hanswer (answer : Bool) (h : (old.store field ref).isSome = answer) (new : Object)
      (hnew : heap.get? target = some new) : answer = (new.field? field).isSome := by
    obtain rfl := Option.some.inj (hget.symm.trans hnew)
    rw [← h, Object.isSome_store]
  rw [store_of_live (fun r hr => hlive r (Option.mem_toList.1 hr)) hget]
  rcases hstore : old.store field ref with _ | new
  · rw [hstore] at hanswer
    exact ⟨⟨nofun, fun hdead => absurd hdead hsound⟩, nofun,
      fun new _ hnew => congrArg Except.ok (hanswer false rfl new hnew), fun _ => rfl, nofun, rfl⟩
  · rw [hstore] at hanswer
    exact ⟨⟨nofun, fun hdead => absurd hdead hsound⟩, nofun,
      fun new _ hnew => congrArg Except.ok (hanswer true rfl new hnew), fun h => absurd rfl h,
      fun _ => writes_withObject hget hstore, rfl⟩

/-- **Checked stores** are all or nothing. -/
theorem storesWhole (heap : Heap φ) (target : Handle) (field : RefField) (ref : Option Handle) :
    heap.StoresWhole target field ref (heap.store target field ref) := by
  rcases store_cases heap target field ref with ⟨r, hr, hdead, heq⟩ | ⟨hlive, hedit⟩
  · rw [heq]
    refine ⟨⟨fun _ => .inl ⟨r, Option.mem_toList.1 hr, hdead⟩, fun _ => ⟨_, rfl⟩⟩,
      fun fault hfault => ?_, fun old hlive _ => ?_, fun _ => rfl, nofun, rfl⟩
    · exact .inl ⟨r, Option.mem_toList.1 hr, hdead, (Except.error.inj hfault).symm⟩
    · simp [hlive r (Option.mem_toList.1 hr)] at hdead
  · have hvalue : ∀ r ∈ ref, heap.contains r := fun r hr => hlive r (Option.mem_toList.2 hr)
    rcases edit_cases heap target fun object => object.store field ref with
      ⟨hdead, heq⟩ | ⟨old, hget, -⟩ | ⟨old, new, hget, -⟩
    · rw [hedit, heq]
      refine ⟨⟨fun _ => .inr hdead, fun _ => ⟨_, rfl⟩⟩, fun fault hfault => ?_,
        fun old _ hget => ?_, fun _ => rfl, nofun, rfl⟩
      · exact .inr ⟨hvalue, hdead, (Except.error.inj hfault).symm⟩
      · simp [contains_of_get? hget] at hdead
    · exact storesWhole_of_live hvalue hget field
    · exact storesWhole_of_live hvalue hget field

/-! ### Both -/

/-- **All or nothing.** In a well-formed heap an allocation whose sum of bytes does not wrap, and a
checked store of any reference into any field of any target, do the whole of their work or none. -/
theorem allocate_store_all_or_nothing (hw : heap.WellFormed) :
    (∀ object size finalizer granted,
      (heap.wouldExceed size = false →
        heap.bytesAllocated.toNat + size.toNat < UInt64.size) →
      heap.AllocatesWhole object size finalizer granted
        (heap.allocate object size finalizer granted)) ∧
    ∀ target field ref,
      heap.StoresWhole target field ref (heap.store target field ref) :=
  ⟨fun object _ finalizer granted hfit => allocatesWhole hw hfit object finalizer granted,
    storesWhole heap⟩

/-- One slot is free, so that no memory is needed; sixty more bytes are within the limit. A stale
reference comes before the limit, and a stale value before a stale target. -/
theorem allocate_store_all_or_nothing_free_slot :
    let heap := (ofConfig ⟨10, 1000, 100, .static⟩ : Heap Nat).run
      [.allocate (.int 1) 32 (some 5) true, .allocate (.pair none none) 40 none true,
        .collect ⟨none, [⟨1, 0⟩], []⟩]
    let value : Object := .tagged 7 (some ⟨1, 0⟩)
    heap.WellFormed ∧ heap.bytesAllocated.toNat + UInt64.toNat 60 < UInt64.size ∧
      heap.AllocatesWhole value 60 (some 6) false (heap.allocate value 60 (some 6) false) ∧
      (heap.allocate value 60 (some 6) false).answer = .ok ⟨0, 1⟩ ∧
      heap.AllocatesWhole value 61 (some 6) true (heap.allocate value 61 (some 6) true) ∧
      (heap.allocate value 61 (some 6) true).answer = .error (.outOfMemory ⟨61, 40, 100⟩) ∧
      (heap.allocate (.closure (some ⟨0, 0⟩) 9) 61 none true).answer =
        .error (.fault (.staleHandle ⟨0, 0⟩)) ∧
      heap.StoresWhole ⟨1, 0⟩ .rhs (some ⟨1, 0⟩) (heap.store ⟨1, 0⟩ .rhs (some ⟨1, 0⟩)) ∧
      (heap.store ⟨1, 0⟩ .rhs (some ⟨1, 0⟩)).answer = .ok true ∧
      (heap.store ⟨1, 0⟩ .closureEnv none).answer = .ok false ∧
      (heap.store ⟨2, 0⟩ .lhs (some ⟨0, 0⟩)).answer = .error (.staleHandle ⟨0, 0⟩) := by
  intro heap value
  have hw : heap.WellFormed := (intact_run ⟨10, 1000, 100, .static⟩ _).wellFormed
  have hbytes : heap.bytesAllocated = 40 := by decide +kernel
  have hfit (size : UInt64) (hsize : 40 + size.toNat < UInt64.size) :
      heap.wouldExceed size = false → heap.bytesAllocated.toNat + size.toNat < UInt64.size := by
    rw [hbytes]
    exact fun _ => hsize
  obtain ⟨hallocate, hstore⟩ := allocate_store_all_or_nothing hw
  exact ⟨hw, by rw [hbytes]; decide, hallocate _ _ _ _ (hfit 60 (by decide)), by decide +kernel,
    hallocate _ _ _ _ (hfit 61 (by decide)), by decide +kernel, by decide +kernel,
    hstore _ _ _, by decide +kernel, by decide +kernel, by decide +kernel⟩

end Heap

end MarkSweep
