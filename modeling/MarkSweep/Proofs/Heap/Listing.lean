import MarkSweep.Heap.Listing
import MarkSweep.Proofs.Heap.Accounting

/-!
# A listing is the history of allocations

A slot says nothing about the age of its object, since slots are used again in any order; the links
alone do. `Intact.entries_perform` follows the listing of a heap through one call. An allocation
that goes through puts its object in front, a sweep takes out what it releases, and any other call
leaves the handles as they are. So after a history the listing is what was put in and not released,
the newest object first (`Intact.entries_run`).

An object that was released may have had a handle that is given out again, after 2 ^ 32 releases of
its slot. That does no harm here: what counts is whether the handle is released after the call that
gave it out.
-/

namespace MarkSweep.Heap

variable {φ : Type} {heap : Heap φ} {op : Op φ} {h : Handle}

/-! ### The iteration -/

/-- Along links that lead through occupied slots an iteration gives their payloads. -/
theorem Linked.iterates {slots : Array Slot} {cursor : Option Handle} {l : List Handle}
    (hl : Linked slots cursor l)
    (hoccupied : ∀ h ∈ l, ∀ slot, slots[h.slot]? = some slot → slot.object.isSome) :
    Iterates slots cursor
      (l.filterMap fun h => (slots[h.slot]?.bind Slot.object).map (Prod.mk h)) := by
  induction hl with
  | nil => exact .done
  | @cons h slot rest slot_eq _ ih =>
    obtain ⟨object, hobject⟩ :=
      Option.isSome_iff_exists.1 (hoccupied h List.mem_cons_self slot slot_eq)
    have hhead : (slots[h.slot]?.bind Slot.object).map (Prod.mk h) = some (h, object) := by
      rw [slot_eq, Option.bind_some, hobject, Option.map_some]
    rw [List.filterMap_cons, hhead]
    exact .item slot_eq hobject (ih fun k hk => hoccupied k (List.mem_cons_of_mem h hk))

namespace WellFormed

variable (hw : heap.WellFormed)
include hw

/-- **The iteration ends**, and gives what is listed. -/
theorem iterates : Iterates heap.slots heap.head heap.entries := by
  have hoccupied : ∀ h ∈ heap.handles, ∀ slot, heap.slots[h.slot]? = some slot →
      slot.object.isSome := fun h hh slot hslot => hw.isSome_object hh hslot
  have hiterates := hw.linked.iterates hoccupied
  rwa [← entriesFrom_eq_of_linked hw.linked hoccupied hw.length_handles_le] at hiterates

/-- What is listed is live, with the payload that it has. -/
theorem mem_entries_iff {e : Handle × Object} :
    e ∈ heap.entries ↔ heap.get? e.1 = some e.2 := by
  rw [hw.entries_eq, List.mem_filterMap]
  constructor
  · rintro ⟨h, -, hget⟩
    obtain ⟨object, hobject, rfl⟩ := Option.map_eq_some_iff.1 hget
    exact hobject
  · intro hget
    refine ⟨e.1, hw.listed e.1 (contains_of_get? hget), ?_⟩
    rw [hget, Option.map_some]

theorem length_entries : heap.entries.length = heap.handles.length := by
  rw [← hw.map_fst_entries, List.length_map]

theorem head_eq : heap.head = heap.handles.head? := hw.linked.cursor_eq

theorem handles_eq_nil_iff : heap.handles = [] ↔ ∀ h, heap.contains h = false := by
  rw [List.eq_nil_iff_forall_not_mem]
  refine forall_congr' fun h => ?_
  rw [hw.mem_handles_iff, Bool.not_eq_true]

end WellFormed

/-! ### One call -/

namespace Intact

variable (hi : heap.Intact)
include hi

theorem toList_entered (op : Op φ) : (op.entered heap).toList =
    (op.issued heap).toList.filterMap fun h =>
      ((op.perform heap).state.get? h).map (Prod.mk h) := by
  rw [Op.entered]
  rcases hissued : op.issued heap with _ | h
  · rfl
  · obtain ⟨object, size, finalizer, granted, rfl, -, -, hh⟩ := hi.exists_of_issued hissued
    rw [Option.toList_some, List.filterMap_cons, hh.get?]
    rfl

/-- What is listed after a call and was listed before it was not released. -/
theorem get?_perform (op : Op φ) (hlive : heap.contains h) (hstays : h ∉ op.released heap) :
    (op.perform heap).state.get? h = (heap.get? h).map (op.payload heap h) := by
  obtain ⟨tag, size, object, hh⟩ := hi.exists_holds hlive
  rw [(hi.holds_perform op hh hstays).get?, hh.get?]
  rfl

/-- **The listing after a call**: what the call puts in is in front, and what it does not release
comes after that, in the order in which it was listed. -/
theorem entries_perform (op : Op φ) : (op.perform heap).state.entries =
    (op.entered heap).toList ++ heap.survivors [op] heap.entries := by
  obtain ⟨goes, hreleased, hhandles⟩ := hi.exists_partition op
  rw [(hi.perform op).wellFormed.entries_eq, hhandles, List.filterMap_append, hi.toList_entered,
    hi.wellFormed.entries_eq, survivors, released_singleton, List.filter_filterMap,
    List.map_filterMap, List.filterMap_filter]
  refine congrArg _ (List.filterMap_congr fun k hk => ?_)
  have hlive := hi.wellFormed.live k hk
  have hgoes : k ∈ op.released heap ↔ goes k := by
    rw [hreleased, List.mem_filter, and_iff_right hk]
  obtain ⟨object, hget⟩ := exists_get?_of_contains hlive
  by_cases hreleases : k ∈ op.released heap
  · simp [hgoes.1 hreleases, hget, hreleases, Option.filter_some]
  · rw [hi.get?_perform op hlive hreleases, hget]
    simp [hgoes.not.1 hreleases, hreleases, Option.filter_some, payload]

/-- **The listing after a history**: what was put in and not released, newest first, and then what
is left of the listing at the beginning. -/
theorem entries_run (ops : List (Op φ)) : (heap.run ops).entries =
    (heap.standing ops).reverse ++ heap.survivors ops heap.entries := by
  induction ops generalizing heap with
  | nil => rw [run_nil, survivors_nil]; rfl
  | cons op ops ih =>
    -- a call puts in one object at most, so that there is nothing to reverse
    have hone : ((op.perform heap).state.survivors ops (op.entered heap).toList).reverse =
        (op.perform heap).state.survivors ops (op.entered heap).toList := by
      rcases op.entered heap with _ | e
      · rfl
      · by_cases hreleased : e.1 ∈ (op.perform heap).state.released ops <;>
          simp [survivors, hreleased]
    rw [run_cons, ih (hi.perform op), hi.entries_perform, survivors_append, ← survivors_cons,
      standing, List.reverse_append, hone, List.append_assoc]

end Intact

/-! ### The simulation of a list -/

/-- **A call acts on the listing** as on a list of its own. -/
structure Op.Relists (heap : Heap φ) (op : Op φ) : Prop where
  /-- An allocation that succeeds puts its object in front. -/
  allocated : ∀ object size finalizer granted h, op = .allocate object size finalizer granted →
    (heap.allocate object size finalizer granted).answer = .ok h →
      (op.perform heap).state.entries = (h, object) :: heap.entries
  /-- A sweep takes out what it releases. -/
  swept : (op.sweep? heap).isSome →
    (op.perform heap).state.entries = heap.entries.filter fun e => e.1 ∉ op.released heap
  /-- Any other call leaves the sequence of handles alone. -/
  other : op.issued heap = none → op.sweep? heap = none →
    (op.perform heap).state.entries.map Prod.fst = heap.entries.map Prod.fst

namespace Intact

variable (hi : heap.Intact)
include hi

theorem relists (op : Op φ) : op.Relists heap := by
  have hentries := hi.entries_perform op
  constructor
  case allocated =>
    rintro object size finalizer granted h rfl hanswer
    have hentered :
        (Op.allocate object size finalizer granted).entered heap = some (h, object) := by
      rw [Op.entered, issued_allocate hanswer]
      rfl
    rw [hentries, hentered, survivors_of_payload_eq fun _ _ => rfl]
    simp [Op.released]
  case swept =>
    intro hsweep
    cases hi.effect op with
    | swept painted _ _ _ issued _ _ _ payload =>
      rw [hentries, Op.entered, issued, survivors_of_payload_eq payload]
      rfl
    | painted _ quiet _ => rw [quiet.sweep?] at hsweep; cases hsweep
    | written _ _ _ _ _ quiet _ => rw [quiet.sweep?] at hsweep; cases hsweep
    | entered h object size finalizer granted after _ _ _ hperform =>
      rw [Op.sweep?, hperform] at hsweep
      cases hsweep
  case other =>
    intro hissued hsweep
    have hreleased : op.released heap = [] := by
      refine List.eq_nil_iff_forall_not_mem.2 fun k hk => ?_
      have hsome := hi.isSome_sweep? op hk
      rw [hsweep] at hsome
      cases hsome
    rw [hentries, Op.entered, hissued, List.map_append, map_fst_survivors hreleased]
    rfl

end Intact

/-! ### Histories -/

/-- **The listing of a heap is its history of allocations**, newest first. -/
structure ListsHistory (start : Heap φ) (ops : List (Op φ)) : Prop where
  /-- The iteration from the head ends, and gives the listing. -/
  iterates : Iterates (start.run ops).slots (start.run ops).head (start.run ops).entries
  /-- The listing is what was put in and not released, in the reverse order, with the payloads that
  the calls of the history gave to it. -/
  entries_eq : (start.run ops).entries = (start.standing ops).reverse
  /-- No handle is listed twice. -/
  nodup : ((start.run ops).entries.map Prod.fst).Nodup
  /-- What is listed is live and has that payload, and what is live is listed. -/
  mem_iff : ∀ h object, (h, object) ∈ (start.run ops).entries ↔
    (start.run ops).get? h = some object
  /-- The head is the first handle of the listing. -/
  head_eq : (start.run ops).head = ((start.run ops).entries.map Prod.fst).head?
  /-- There is no head exactly when nothing is live. -/
  head_eq_none_iff : (start.run ops).head = none ↔ ∀ h, (start.run ops).contains h = false
  /-- The heap is empty exactly when nothing is listed. -/
  isEmpty_iff : (start.run ops).isEmpty ↔ (start.run ops).entries = []
  /-- Its size is the length of the listing. -/
  size_eq : (start.run ops).size = (start.run ops).entries.length
  /-- Every call on the way acts on the listing as on a list. -/
  relists : ∀ before op rest, ops = before ++ op :: rest → op.Relists (start.run before)

/-- **A listing is the history of allocations.** After any history of calls of a new heap, whichever
slots were used again and whatever the calls came to, an iteration ends and gives the objects that
were put in and not released, each of them once, the newest first. -/
theorem listing_run (config : Config) (ops : List (Op φ)) :
    (ofConfig config : Heap φ).ListsHistory ops := by
  have hi : (ofConfig config : Heap φ).Intact := .ofConfig config
  have hw := (hi.run ops).wellFormed
  have hempty : (ofConfig config : Heap φ).entries = [] := rfl
  have hlist := hi.entries_run ops
  have hhead := hw.head_eq
  constructor
  case iterates => exact hw.iterates
  case entries_eq =>
    rw [hlist, hempty]
    exact List.append_nil _
  case nodup =>
    rw [hw.map_fst_entries]
    exact hw.handles_nodup
  case mem_iff => exact fun h object => hw.mem_entries_iff
  case head_eq => rw [hw.map_fst_entries, hhead]
  case head_eq_none_iff => rw [hhead, List.head?_eq_none_iff, hw.handles_eq_nil_iff]
  case isEmpty_iff =>
    rw [isEmpty, Option.isNone_iff_eq_none, hhead, List.head?_eq_none_iff, ← hw.map_fst_entries,
      List.map_eq_nil_iff]
  case size_eq => rw [size, hw.toNat_objectsAllocated, hw.length_entries]
  case relists => exact fun before op rest _ => (hi.run before).relists op

/-- Three slots are used by five objects, and the second slot by the newest one. -/
example :
    let heap : Heap Unit := ofConfig Config.standard
    let ops : List (Op Unit) := [.allocate (.pair none none) 40 none true,
      .allocate (.int 1) 32 none true, .mark ⟨none, [⟨0, 0⟩], []⟩, .sweep,
      .allocate (.int 2) 32 none false, .allocate (.int 3) 32 none true,
      .store ⟨0, 0⟩ .lhs (some ⟨2, 0⟩), .collect ⟨none, [⟨0, 0⟩], []⟩,
      .allocate (.int 4) 32 none false]
    (heap.run ops).entries =
      [(⟨1, 2⟩, .int 4), (⟨2, 0⟩, .int 3), (⟨0, 0⟩, .pair (some ⟨2, 0⟩) none)] := by
  decide +kernel

end MarkSweep.Heap
