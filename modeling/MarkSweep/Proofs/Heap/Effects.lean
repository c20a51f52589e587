import MarkSweep.Heap.Ledger
import MarkSweep.Proofs.Heap.Representation

/-!
# What a call can do

A call has one of four effects, and `Intact.effect` finds the one that it has: nothing but colours
change, or one payload does, or an object is put in, or a sweep releases some. `Heap.Effect` says
what each of them comes to, for the heap as well as for the ledger. What the calls of a history
keep is shown for the four effects; which operation they come from does not matter any more.
-/

namespace MarkSweep

variable {φ : Type}

namespace Sweeping

/-- The walk releases what is not Black, and in the order of the list. -/
theorem Progress.released_eq {heap : Heap φ} {done rest : List Handle} {s : Sweeping φ}
    (hp : Progress heap done rest s) (hw : heap.WellFormed)
    (hhandles : heap.handles = done ++ rest) : s.released rest = rest.filter heap.isDoomed := by
  induction rest generalizing done s with
  | nil => rfl
  | cons h rest ih =>
    obtain ⟨slot, -, hfind, -⟩ := Heap.exists_find?_of_contains (contains_next hw hhandles)
    have hself := hp.slots_eq_of_mem_rest hw hhandles (List.mem_cons_self (a := h))
    have hspares : s.spares h = heap.isBlack h := by
      rw [spares, hself, (Heap.find?_eq_some_iff.1 hfind).1, Heap.isBlack, hfind]
      rfl
    have hrest := ih (hp.step hw hhandles) (by rw [hhandles, List.append_assoc]; rfl)
    rw [released, hrest, hspares, List.filter_cons, Heap.isDoomed]
    cases heap.isBlack h <;> rfl

end Sweeping

namespace Event

/-- Sweeps tell of the finalizers that they ran. -/
@[simp]
theorem finalizations_map_finalized (runs : List (Finalization φ)) :
    finalizations (runs.map finalized) = runs := by
  induction runs with
  | nil => rfl
  | cons run runs ih => exact congrArg (run :: ·) ih

@[simp]
theorem finalizations_append (events more : List (Event φ)) :
    finalizations (events ++ more) = finalizations events ++ finalizations more :=
  List.filterMap_append

end Event

namespace Heap

variable {heap heap' painted after : Heap φ} {h k : Handle} {op : Op φ}

theorem sweepReleases_eq (hw : heap.WellFormed) :
    heap.sweepReleases = heap.handles.filter heap.isDoomed :=
  (Sweeping.Progress.start hw).released_eq hw rfl

theorem finalized_sweep (hw : heap.WellFormed) :
    heap.sweep.finalized = (heap.handles.filter heap.isDoomed).filterMap heap.finalizationOf? := by
  obtain ⟨s, hp, heq⟩ := exists_progress hw
  rw [heq]
  exact hp.finalized_eq

/-! ### The four effects -/

/-- The generation of a slot. A slot that is not there yet will be in the first one. -/
def generationOf (heap : Heap φ) (i : Nat) : UInt32 := (heap.slots[i]?.map Slot.generation).getD 0

/-- Two heaps that differ by their thresholds and totals at most. -/
structure SameContents (heap heap' : Heap φ) : Prop where
  slots : heap'.slots = heap.slots
  free : heap'.free = heap.free
  head : heap'.head = heap.head
  bytesAllocated : heap'.bytesAllocated = heap.bytesAllocated
  objectsAllocated : heap'.objectsAllocated = heap.objectsAllocated
  finalizers : heap'.finalizers = heap.finalizers
  config : heap'.config = heap.config

/-- Nothing happens that the ledger accounts for. -/
structure Op.Quiet (heap : Heap φ) (op : Op φ) : Prop where
  issued : op.issued heap = none
  released : op.released heap = []
  finalized : op.finalized heap = []
  sweep? : op.sweep? heap = none

/-- **The effect of a call** on the heap and on the ledger. -/
inductive Effect (heap : Heap φ) (op : Op φ) : Prop
  /-- Nothing but colours may change. -/
  | painted (state : (op.perform heap).state.colorless = heap.colorless) (quiet : op.Quiet heap)
      (payload : ∀ h object, heap.get? h = some object → op.payload heap h object = object)
  /-- One payload changes. -/
  | written (target : Handle) (old new : Object) (live : heap.get? target = some old)
      (state : (op.perform heap).state = heap.withObject target new) (quiet : op.Quiet heap)
      (payload : ∀ h object, heap.get? h = some object →
        op.payload heap h object = if h = target then new else object)
  /-- An object is put in. -/
  | entered (h : Handle) (object : Object) (size : UInt64) (finalizer : Option φ) (granted : Bool)
      (after : Heap φ) (op_eq : op = .allocate object size finalizer granted)
      (occupied : heap.Occupied object size h after)
      (generation_eq : heap.generationOf h.slot = h.generation)
      (perform_eq : op.perform heap =
        ⟨.ok (.allocated h), after.enter h size finalizer, [.allocated h object.tag size]⟩)
  /-- A sweep releases objects, after colours may have changed. -/
  | swept (painted : Heap φ) (colorless_eq : painted.colorless = heap.colorless)
      (intact : painted.Intact)
      (state : painted.sweep.state.SameContents (op.perform heap).state)
      (issued : op.issued heap = none) (released : op.released heap = painted.sweepReleases)
      (finalized : op.finalized heap = painted.sweep.finalized)
      (sweep? : op.sweep? heap = some painted.sweep.stats)
      (payload : ∀ h object, op.payload heap h object = object)

/-- The slot that is taken for an object is handed out in the generation it has. -/
theorem generation_occupy {granted : Bool} (hslot : heap.hasSlot granted) (object : Object)
    (size : UInt64) : heap.generationOf (heap.occupy object size).1.slot =
      (heap.occupy object size).1.generation := by
  rcases hfree : heap.free with _ | ⟨index, rest⟩
  · simp only [hasSlot, hfree, List.isEmpty_nil, Bool.not_true, Bool.false_or, Bool.and_eq_true,
      decide_eq_true_eq] at hslot
    have hindex : (UInt32.ofNat heap.slots.size).toNat = heap.slots.size :=
      UInt32.toNat_ofNat_of_lt' hslot.1
    simp [occupy, hfree, generationOf, Handle.slot, hindex]
  · simp only [occupy, hfree]
    rfl

/-- An allocation that gives out a handle had a slot, and put the object into it. -/
theorem allocate_of_answer_eq_ok {object : Object} {size : UInt64} {finalizer : Option φ}
    {granted : Bool} (hanswer : (heap.allocate object size finalizer granted).answer = .ok h) :
    heap.hasSlot granted ∧ (heap.occupy object size).1 = h ∧
      heap.allocate object size finalizer granted =
        ⟨.ok h, (heap.occupy object size).2.enter h size finalizer,
          [.allocated h object.tag size]⟩ := by
  unfold allocate at hanswer ⊢
  split at hanswer
  · cases hanswer
  · split at hanswer
    · cases hanswer
    · obtain rfl := Except.ok.inj hanswer
      simp_all

/-- A call without events, which gives out no handle and does not sweep. -/
theorem Op.Quiet.of_perform {answer : Except AllocationError Answer} {state : Heap φ}
    (hperform : op.perform heap = ⟨answer, state, []⟩) (hreleased : op.released heap = [])
    (hissued : answer.toOption.bind Answer.handle? = none)
    (hsweep : answer.toOption.bind Answer.sweep? = none) : op.Quiet heap where
  issued := by rw [Op.issued, hperform, hissued]
  released := hreleased
  finalized := by rw [Op.finalized, hperform]; rfl
  sweep? := by rw [Op.sweep?, hperform, hsweep]

/-- A call that comes down to an edit. -/
theorem effect_of_edit (target : Handle) (change : Object → Option Object)
    (hperform : op.perform heap = (Op.edit target change).perform heap)
    (hreleased : op.released heap = []) (hpayload : ∀ h object,
      op.payload heap h object = if target = h then (change object).getD object else object) :
    heap.Effect op := by
  rcases edit_cases heap target change with
    ⟨hstale, heq⟩ | ⟨old, hget, hchange, heq⟩ | ⟨old, new, hget, hchange, heq⟩
  · rw [Op.perform, heq] at hperform
    refine .painted (by rw [hperform]; rfl) (.of_perform hperform hreleased rfl rfl)
      fun h object hlive => ?_
    rw [hpayload, if_neg]
    rintro rfl
    simp [contains_of_get? hlive] at hstale
  · rw [Op.perform, heq] at hperform
    refine .painted (by rw [hperform]; rfl) (.of_perform hperform hreleased rfl rfl)
      fun h object hlive => ?_
    rw [hpayload]
    split
    · rename_i htarget
      subst htarget
      obtain rfl := Option.some.inj (hget.symm.trans hlive)
      rw [hchange, Option.getD_none]
    · rfl
  · rw [Op.perform, heq] at hperform
    refine .written target old new hget (by rw [hperform]; rfl)
      (.of_perform hperform hreleased rfl rfl) fun h object hlive => ?_
    rw [hpayload]
    by_cases htarget : target = h
    · subst htarget
      obtain rfl := Option.some.inj (hget.symm.trans hlive)
      rw [if_pos rfl, if_pos rfl, hchange, Option.getD_some]
    · rw [if_neg htarget, if_neg (Ne.symm htarget)]

theorem effect_store (heap : Heap φ) (target : Handle) (field : RefField) (ref : Option Handle) :
    heap.Effect (.store target field ref) := by
  rcases store_cases heap target field ref with ⟨r, hr, hstale, heq⟩ | ⟨hlive, heq⟩
  · have hperform : (Op.store target field ref).perform heap =
        ⟨.error (.fault (.staleHandle r)), heap, []⟩ := by
      rw [Op.perform, heq]
      rfl
    refine .painted (by rw [hperform]) (.of_perform hperform rfl rfl rfl) fun h object _ => ?_
    rw [Op.payload, if_neg]
    rintro ⟨-, hrefs⟩
    simp [hrefs r hr] at hstale
  · refine effect_of_edit target (fun object => object.store field ref) ?_ rfl fun h object => ?_
    · rw [Op.perform, Op.perform, heq]
    · rw [Op.payload]
      simp only [and_iff_left hlive]

theorem sameContents_refl (heap : Heap φ) : heap.SameContents heap :=
  ⟨rfl, rfl, rfl, rfl, rfl, rfl, rfl⟩

theorem sameContents_adjusted (heap : Heap φ) :
    heap.SameContents heap.adjustThresholds.countCollection :=
  ⟨rfl, rfl, rfl, rfl, rfl, rfl, rfl⟩

/-- Of the events of a full collection those of its sweep are the runs of finalizers. -/
theorem finalized_collect {roots : Roots} {reached : UInt64}
    (hanswer : (heap.mark roots).answer = .ok reached) :
    (Op.collect roots).finalized heap = (heap.mark roots).state.sweep.finalized := by
  have hthresholds (heap : Heap φ) : Event.finalizations heap.thresholdEvents = [] := by
    simp only [thresholdEvents, Event.finalizations_append]
    split <;> split <;> rfl
  simp only [Op.finalized, Op.perform, collect, hanswer, Swept.events, Event.finalizations_append,
    hthresholds, List.append_nil]
  -- the announcements at both ends tell of no run
  exact (List.append_nil _).trans (Event.finalizations_map_finalized _)

namespace Intact

variable (hi : heap.Intact)
include hi

theorem effect_allocate (object : Object) (size : UInt64) (finalizer : Option φ)
    (granted : Bool) : heap.Effect (.allocate object size finalizer granted) := by
  have hrefused (e : AllocationError)
      (heq : heap.allocate object size finalizer granted = .quiet (.error e) heap) :
      heap.Effect (.allocate object size finalizer granted) := by
    have hperform : (Op.allocate object size finalizer granted).perform heap =
        ⟨.error e, heap, []⟩ := by
      rw [Op.perform, heq]
      rfl
    exact .painted (by rw [hperform]) (.of_perform hperform rfl rfl rfl) fun _ _ _ => rfl
  rcases allocate_cases hi.wellFormed object size finalizer granted with
    ⟨r, -, -, heq⟩ | ⟨-, heq⟩ | ⟨-, h, after, -, heq⟩
  · exact hrefused _ heq
  · exact hrefused _ heq
  · obtain ⟨hslot, rfl, heq⟩ := allocate_of_answer_eq_ok (h := h) (by rw [heq])
    refine .entered _ object size finalizer granted _ rfl
      (occupied_spec hi.wellFormed object size hslot) (generation_occupy hslot object size) ?_
    rw [Op.perform, heq]
    rfl

theorem effect_mark (roots : Roots) : heap.Effect (.mark roots) := by
  have hcolorless := colorless_mark hi.headersDecode roots
  have hevents := events_mark heap roots
  rcases hanswer : (heap.mark roots).answer with fault | reached
  · have hperform : (Op.mark roots).perform heap =
        ⟨.error (.fault fault), (heap.mark roots).state, []⟩ := by
      rw [Op.perform, hanswer, hevents]
      rfl
    exact .painted hcolorless (.of_perform hperform rfl rfl rfl) fun _ _ _ => rfl
  · have hperform : (Op.mark roots).perform heap =
        ⟨.ok (.marked reached), (heap.mark roots).state, []⟩ := by
      rw [Op.perform, hanswer, hevents]
      rfl
    exact .painted hcolorless (.of_perform hperform rfl rfl rfl) fun _ _ _ => rfl

theorem effect_sweep : heap.Effect .sweep :=
  .swept heap rfl hi (sameContents_refl _) rfl rfl
    (Event.finalizations_map_finalized heap.sweep.finalized) rfl fun _ _ => rfl

theorem effect_releaseAll : heap.Effect .releaseAll :=
  .swept heap.whiten (colorless_whiten heap) ⟨hi.wellFormed.whiten, hi.headersDecode.whiten⟩
    (sameContents_refl _) rfl rfl
    (Event.finalizations_map_finalized heap.releaseAll.finalized) rfl fun _ _ => rfl

theorem effect_collect (roots : Roots) : heap.Effect (.collect roots) := by
  have hcolorless := colorless_mark hi.headersDecode roots
  rcases collect_cases heap roots with
    ⟨fault, hanswer, hresult, hstate⟩ | ⟨reached, hanswer, hresult, hstate⟩
  · refine .painted (by rw [Op.perform, hstate]; exact hcolorless) ⟨?_, ?_, ?_, ?_⟩
      fun _ _ _ => rfl
    · rw [Op.issued, Op.perform, hresult]
      rfl
    · rw [Op.released, hanswer]
    · rw [Op.finalized, Op.perform, Heap.collect, hanswer]
      rfl
    · rw [Op.sweep?, Op.perform, hresult]
      rfl
  · refine .swept (heap.mark roots).state hcolorless (hi.mark roots) ?_ ?_ ?_ ?_ ?_
      fun _ _ => rfl
    · rw [Op.perform, hstate]
      exact sameContents_adjusted _
    · rw [Op.issued, Op.perform, hresult]
      rfl
    · rw [Op.released, hanswer]
    · exact finalized_collect hanswer
    · rw [Op.sweep?, Op.perform, hresult]
      rfl

/-- **Every call** has one of the four effects. -/
theorem effect (op : Op φ) : heap.Effect op := by
  cases op with
  | allocate object size finalizer granted =>
    exact hi.effect_allocate object size finalizer granted
  | edit target change => exact effect_of_edit target change rfl rfl fun _ _ => rfl
  | store target field ref => exact effect_store heap target field ref
  | mark roots => exact hi.effect_mark roots
  | sweep => exact hi.effect_sweep
  | collect roots => exact hi.effect_collect roots
  | releaseAll => exact hi.effect_releaseAll

end Intact

end Heap

end MarkSweep
