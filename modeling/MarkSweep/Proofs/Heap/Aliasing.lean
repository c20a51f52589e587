import MarkSweep.Proofs.Heap.Accounting

/-!
# Handles name one object each

The generation of a slot is the number of times that it was released, as far as a generation can
count. So until a slot has been released 2 ^ 32 times, a handle that was given out for it fits it
exactly until the first release after that. `contains_run_iff` says so for a history that begins
with the object live; it follows that no handle is given out twice (`nodup_issued`).

What releases the object of a handle is taken to be whatever releases its slot. That it does so
under the very same handle is a theorem (`mem_released_iff`).
-/

namespace MarkSweep.Heap

variable {φ : Type} {heap : Heap φ} {h : Handle} {tag : Tag} {size : UInt64} {object : Object}

/-! ### Histories -/

namespace Intact

variable (hi : heap.Intact) (ops : List (Op φ))
include hi

/-- **Generations count releases**, modulo their number. -/
theorem generationOf_run (i : Nat) : (heap.run ops).generationOf i =
    heap.generationOf i + UInt32.ofNat (((heap.released ops).map Handle.slot).count i) := by
  induction ops generalizing heap with
  | nil => exact (UInt32.add_zero _).symm
  | cons op ops ih =>
    have hfirst := hi.generationOf_perform op i
    have hrest := ih (hi.perform op)
    rw [run_cons, hrest, hfirst, released_cons, List.map_append, List.count_append,
      UInt32.ofNat_add, UInt32.add_assoc]

/-- A slot that was released, but not so often that its generation came round, does not belong to
the handle that it belonged to. -/
theorem generationOf_run_ne (hgeneration : heap.generationOf h.slot = h.generation)
    (hmem : h.slot ∈ (heap.released ops).map Handle.slot)
    (hbound : ((heap.released ops).map Handle.slot).count h.slot < UInt32.size) :
    (heap.run ops).generationOf h.slot ≠ h.generation := by
  -- the number of releases is positive and fits in a generation, in which it is not zero then
  have hpos := List.count_pos_iff.2 hmem
  rw [hi.generationOf_run, hgeneration]
  intro heq
  have hzero : UInt32.ofNat (((heap.released ops).map Handle.slot).count h.slot) = 0 := by
    simpa using heq
  have hcount := congrArg UInt32.toNat hzero
  rw [UInt32.toNat_ofNat_of_lt' hbound] at hcount
  exact absurd hcount (Nat.ne_of_gt hpos)

/-- The slot of a live object is released under the handle of that object. -/
theorem mem_released_iff (hh : heap.Holds h tag size object) :
    h ∈ heap.released ops ↔ h.slot ∈ (heap.released ops).map Handle.slot := by
  refine ⟨fun hmem => List.mem_map_of_mem hmem, fun hmem => ?_⟩
  induction ops generalizing heap object with
  | nil => cases hmem
  | cons op ops ih =>
    rw [released_cons, List.mem_append]
    by_cases hfirst : h ∈ op.released heap
    · exact .inl hfirst
    · rw [released_cons, List.map_append, List.mem_append] at hmem
      rcases hmem with hmem | hmem
      · -- an object that the first call releases was live, and so it was this one
        obtain ⟨k, hk, hslot⟩ := List.mem_map.1 hmem
        obtain rfl := eq_of_slot_eq (hi.contains_of_mem_released op hk) hh.contains hslot
        exact .inl hk
      · exact .inr (ih (hi.perform op) (hi.holds_perform op hh hfirst) hmem)

/-- **A handle is live until its slot is released**, and never again. -/
theorem contains_run_iff (hh : heap.Holds h tag size object)
    (hbound : ((heap.released ops).map Handle.slot).count h.slot < UInt32.size) :
    (heap.run ops).contains h ↔ h.slot ∉ (heap.released ops).map Handle.slot := by
  constructor
  · intro hlive hmem
    have hmoved := hi.generationOf_run_ne ops hh.generationOf_eq hmem hbound
    rw [contains_eq_false_of_generation hmoved] at hlive
    cases hlive
  · intro hstays
    exact (hi.holds_run ops hh ((hi.mem_released_iff ops hh).not.2 hstays)).contains

/-- A handle whose object is live is not given out for another one. -/
theorem not_mem_issued (hh : heap.Holds h tag size object)
    (hbound : ((heap.released ops).map Handle.slot).count h.slot < UInt32.size) :
    h ∉ heap.issued ops := by
  intro hmem
  obtain ⟨before, op, rest, rfl, hissued⟩ := mem_ledger_iff.1 hmem
  obtain ⟨-, -, -, -, -, hstale, hgeneration, -⟩ :=
    (hi.run before).exists_of_issued (Option.mem_toList.1 hissued)
  rw [released_append, List.map_append, List.count_append] at hbound
  have hbound := Nat.lt_of_le_of_lt (Nat.le_add_right _ _) hbound
  -- the slot has another generation when `h` is given out, or `h` is still live
  by_cases hreleased : h.slot ∈ (heap.released before).map Handle.slot
  · exact hi.generationOf_run_ne before hh.generationOf_eq hreleased hbound hgeneration
  · rw [(hi.contains_run_iff before hh hbound).2 hreleased] at hstale
    cases hstale

/-- **No handle is given out twice.** -/
theorem nodup_issued
    (hbound : ∀ i, ((heap.released ops).map Handle.slot).count i < UInt32.size) :
    (heap.issued ops).Nodup := by
  induction ops generalizing heap with
  | nil => exact .nil
  | cons op ops ih =>
    have hrest (i : Nat) :
        (((op.perform heap).state.released ops).map Handle.slot).count i < UInt32.size := by
      have hall := hbound i
      rw [released_cons, List.map_append, List.count_append] at hall
      exact Nat.lt_of_le_of_lt (Nat.le_add_left _ _) hall
    rw [issued_cons]
    rcases hissued : op.issued heap with _ | h
    · exact ih (hi.perform op) hrest
    · obtain ⟨object, size, finalizer, granted, -, -, -, hh⟩ := hi.exists_of_issued hissued
      exact List.nodup_cons.2 ⟨(hi.perform op).not_mem_issued ops hh (hrest h.slot),
        ih (hi.perform op) hrest⟩

end Intact

/-! ### Accesses -/

/-- The checked accesses through a handle all lead to this slot of the arena, with this payload:
the look-ups, which find its payload and its header, and the changes, which are made in it. -/
structure Reaches (heap : Heap φ) (h : Handle) (slot : Slot) (object : Object) : Prop where
  /-- The slot is the one that the handle names. -/
  slot_eq : heap.slots[h.slot]? = some slot
  /-- The object is the payload in it. -/
  object_eq : slot.object = some object
  /-- A lookup finds that payload. -/
  get? : heap.get? h = some object
  /-- So does a lookup that faults where there is none. -/
  get : heap.get h = .ok object
  /-- The header that is read is the one in the slot. -/
  headerOf : heap.headerOf h = .ok slot.header
  /-- A change of the payload is one in that slot. -/
  edit : ∀ change, heap.edit h change = match change object with
    | none => .quiet (.ok false) heap
    | some new => .quiet (.ok true)
      { heap with slots := heap.slots.modify h.slot fun s => { s with object := some new } }

theorem Holds.exists_reaches (hh : heap.Holds h tag size object) :
    ∃ slot, heap.Reaches h slot object ∧ slot.header.tag = .ok tag ∧ slot.size = size := by
  have hget := hh.get?
  obtain ⟨slot, hfind, htag, hsize, hobject⟩ := hh
  refine ⟨slot, ⟨(find?_eq_some_iff.1 hfind).1, hobject, hget, ?_, ?_, fun change => ?_⟩, htag,
    hsize⟩
  · rw [get, hget]
  · rw [headerOf, find, hfind]
    rfl
  · rw [edit, hget]
    rfl

/-- What a handle that was given out stands for throughout the calls that come after: the object of
its allocation up to the first release of the slot, and nothing at all from then on. -/
structure Names (entered : Heap φ) (h : Handle) (object : Object) (size : UInt64)
    (ops : List (Op φ)) : Prop where
  /-- The handle is live until its slot is released. -/
  contains_iff : ∀ later, later <+: ops → ((entered.run later).contains h ↔
    h.slot ∉ (entered.released later).map Handle.slot)
  /-- The slot is released under that handle. -/
  mem_released_iff : ∀ later, later <+: ops → (h ∈ entered.released later ↔
    h.slot ∈ (entered.released later).map Handle.slot)
  /-- A live handle leads to its slot, with the payload that the changes addressed to it made. -/
  reaches : ∀ later, later <+: ops → (entered.run later).contains h → ∃ slot,
    (entered.run later).Reaches h slot (entered.payload h object later) ∧
      slot.header.tag = .ok object.tag ∧ slot.size = size
  /-- Once the slot was released the handle leads nowhere, whatever is put into the slot. -/
  gone : ∀ earlier later, earlier <+: later → later <+: ops →
    h.slot ∈ (entered.released earlier).map Handle.slot →
    (entered.run later).contains h = false ∧ (entered.run later).get? h = none

/-- Releases are counted from the beginning of a history on. -/
theorem count_released_le {later ops : List (Op φ)} (hlater : later <+: ops) (i : Nat) :
    ((heap.released later).map Handle.slot).count i ≤
      ((heap.released ops).map Handle.slot).count i := by
  obtain ⟨more, rfl⟩ := hlater
  rw [released_append, List.map_append, List.count_append]
  exact Nat.le_add_right _ _

theorem Intact.names (hi : heap.Intact) (hh : heap.Holds h object.tag size object)
    (ops : List (Op φ))
    (hbound : ((heap.released ops).map Handle.slot).count h.slot < UInt32.size) :
    heap.Names h object size ops := by
  have hcontains (later : List (Op φ)) (hlater : later <+: ops) :=
    hi.contains_run_iff later hh (Nat.lt_of_le_of_lt (count_released_le hlater _) hbound)
  refine ⟨hcontains, fun later _ => hi.mem_released_iff later hh, ?_, ?_⟩
  · intro later hlater hlive
    have hstays := (hi.mem_released_iff later hh).not.2 ((hcontains later hlater).1 hlive)
    exact (hi.holds_run later hh hstays).exists_reaches
  · intro earlier later hearlier hlater hmem
    have hstale : (heap.run later).contains h = false := by
      rw [Bool.eq_false_iff, ne_eq, hcontains later hlater, not_not]
      obtain ⟨more, rfl⟩ := hearlier
      rw [released_append, List.map_append]
      exact List.mem_append_left _ hmem
    exact ⟨hstale, get?_eq_none hstale⟩

/-- **No handle aliases another object.** In every history of calls of a new heap that releases no
slot 2 ^ 32 times, the handles given out are pairwise distinct; and each of them, from its
allocation on, is live exactly until the object of that allocation is released, leads to the slot of
that object as long as it is live, and leads nowhere afterwards. -/
theorem issued_never_alias (config : Config) (ops : List (Op φ))
    (hbound : ∀ i, (((ofConfig config : Heap φ).released ops).map Handle.slot).count i <
      UInt32.size) :
    ((ofConfig config : Heap φ).issued ops).Nodup ∧
      ∀ before object size finalizer granted rest h,
        ops = before ++ .allocate object size finalizer granted :: rest →
        let heap := (ofConfig config : Heap φ).run before
        (heap.allocate object size finalizer granted).answer = .ok h →
          (heap.allocate object size finalizer granted).state.Names h object size rest := by
  refine ⟨(Intact.ofConfig config).nodup_issued ops hbound, ?_⟩
  intro before object size finalizer granted rest h hops heap hanswer
  have hi : heap.Intact := intact_run config before
  refine (hi.allocate object size finalizer granted).names (hi.holds_allocate hanswer) rest ?_
  have hall := hbound h.slot
  rw [hops, released_append, released_cons, List.map_append, List.map_append, List.count_append,
    List.count_append] at hall
  exact Nat.lt_of_le_of_lt (Nat.le_trans (Nat.le_add_left _ _) (Nat.le_add_left _ _)) hall

/-- A slot is used three times, by objects with three handles. -/
theorem issued_never_alias_reused_slot :
    let ops : List (Op Unit) := [.allocate (.pair none none) 40 none true, .sweep,
      .allocate (.int 7) 32 (some ()) false, .store ⟨0, 0⟩ .lhs none, .releaseAll,
      .allocate (.int 8) 32 none false]
    let heap : Heap Unit := ofConfig Config.standard
    heap.issued ops = [⟨0, 0⟩, ⟨0, 1⟩, ⟨0, 2⟩] ∧ heap.released ops = [⟨0, 0⟩, ⟨0, 1⟩] ∧
      (heap.issued ops).Nodup ∧
      (heap.allocate (.pair none none) 40 none true).state.Names ⟨0, 0⟩ (.pair none none) 40
        ops.tail := by
  intro ops heap
  have hreleased : heap.released ops = [⟨0, 0⟩, ⟨0, 1⟩] := by decide +kernel
  have hbound (i : Nat) : ((heap.released ops).map Handle.slot).count i < UInt32.size := by
    refine Nat.lt_of_le_of_lt List.count_le_length ?_
    rw [hreleased]
    decide
  obtain ⟨hnodup, hnames⟩ := issued_never_alias Config.standard ops hbound
  exact ⟨by decide +kernel, hreleased, hnodup,
    hnames [] (.pair none none) 40 none true ops.tail ⟨0, 0⟩ rfl (by decide +kernel)⟩

end MarkSweep.Heap
