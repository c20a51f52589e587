import MarkSweep.Heap.Tracing
import MarkSweep.Proofs.Heap.Coherence
import MarkSweep.Proofs.Heap.Interruption

/-!
# What reads headers

A sweep reads the colours of all objects on its way, and a marking reads the colour of every handle
that it meets and the kind of every object that it takes from its queue. In a coherent heap all of
these can be read, at every moment. What the header says of the kind is what the payload says, so
that a marking does well to ask the header: an object that is not looked into holds no references,
and to look into leaves as well would change nothing (`Marking.tracesFrom_iff`).
-/

namespace MarkSweep

namespace Heap

variable {φ : Type} {heap : Heap φ}

/-! ### Sweeps -/

/-- Whatever objects a sweep has met, the header of the one that comes next stands for its kind and
for a colour. -/
def SweepReadsHeaders (heap : Heap φ) : Prop :=
  ∀ met h rest, heap.handles = met ++ h :: rest →
    ∃ slot object, (heap.sweptThrough met).heap.find? h = some slot ∧
      slot.object = some object ∧ slot.header.tag = .ok object.tag ∧
      ∃ c, slot.header.color = .ok c

theorem Coherent.sweepReadsHeaders (hc : heap.Coherent) (hi : heap.Intact) :
    heap.SweepReadsHeaders := by
  intro met h rest hhandles
  have hmem : h ∈ heap.handles := by simp [hhandles]
  obtain ⟨slot, object, hfind, hobject⟩ :=
    exists_find?_of_contains (hi.wellFormed.live h hmem)
  -- the walk has not come to the slot yet
  have hsame := (progress_sweptThrough hi.wellFormed hhandles).slots_eq_of_mem_rest
    hi.wellFormed hhandles (List.mem_cons_self (a := h))
  refine ⟨slot, object, ?_, hobject, hc.tag_eq hfind hobject, (hi.headersDecode h slot hfind).2⟩
  rw [find?, hsame]
  exact hfind

end Heap

/-! ### Markings -/

namespace Marking

variable {φ : Type} {heap : Heap φ} {roots : List Handle} {m : Marking φ} {h : Handle}
  {traced : Tag → Bool}

/-- At every moment of a marking headers tell the kinds of payloads. -/
theorem Tricolor.tellsKind (hm : Tricolor heap roots m) (hc : heap.Coherent) (h : Handle) :
    m.TellsKind h := fun _ _ hfind hobject =>
  (hc.of_colorless_eq hm.colorless_eq).tag_eq hfind hobject

/-- To look into a leaf changes nothing: it holds no references. -/
theorem visitBy_eq_visit (htells : m.TellsKind h)
    (htraced : ∀ tag : Tag, tag.hasReferences → traced tag) : m.visitBy traced h = m.visit h := by
  unfold visitBy visit
  rcases hfind : m.heap.find? h with _ | slot
  · rfl
  · obtain ⟨object, hobject⟩ := Heap.exists_object_of_find? hfind
    have htag := htells slot object hfind hobject
    have hfault : slot.header.tagOrFault = .ok object.tag := by
      rw [Header.tagOrFault, htag]
      rfl
    simp only [hfault, hobject, Option.elim_some]
    by_cases hrefs : object.tag.hasReferences
    · rw [if_pos hrefs, if_pos (htraced _ hrefs)]
    · rw [if_neg hrefs, Object.references_eq_nil (Bool.eq_false_iff.2 hrefs), shadeAll, ite_self]

/-- **The loop** goes the same way whichever leaves are looked into. -/
theorem tracesBy_drain (hdecode : heap.HeadersDecode) (hc : heap.Coherent)
    (htraced : ∀ tag : Tag, tag.hasReferences → traced tag) (hm : Tricolor heap roots m)
    (hblack : Traced heap m) : TracesBy traced m m.drain := by
  -- the induction is on the weight, which every visit lowers
  induction hn : m.weight using Nat.strongRecOn generalizing m with
  | ind n ih =>
    rcases hpop : m.pending.pop? with _ | ⟨h, rest⟩
    · rw [drain_of_pop?_eq_none hpop]
      exact .done hpop
    · have hlt := weight_visit_lt hpop
      have htells := hm.tellsKind hc h
      have heq := visitBy_eq_visit (m := { m with pending := rest }) htells htraced
      rw [drain_of_pop?_eq_some hpop]
      rcases hvisit : ({ m with pending := rest } : Marking φ).visit h with ⟨m', _ | fault⟩
      · obtain ⟨hm', -, hblack', -⟩ := visit_spec hdecode hm hblack hpop hvisit
        rw [hvisit, hn] at hlt
        exact .round hpop htells (heq.trans hvisit) (ih m'.weight hlt hm' (hblack' rfl) rfl)
      · exact .fault hpop htells (heq.trans hvisit)

/-- **A marking** goes the same way whichever leaves are looked into. -/
theorem tracesFrom_iff (hdecode : heap.HeadersDecode) (hc : heap.Coherent)
    (htraced : ∀ tag : Tag, tag.hasReferences → traced tag) (roots : List Handle)
    {o : Marking φ × Option Fault} : TracesFrom traced heap roots o ↔ o = fromRoots heap roots := by
  have htraces : TracesFrom traced heap roots (fromRoots heap roots) := by
    have hshaded := shadeAll_spec hdecode (Tricolor.start heap roots)
      fun r hr hwhite => Heap.ReachableBy.root hr hwhite
    unfold fromRoots
    rcases hshade : shadeAll ⟨heap, Worklist.empty, []⟩ roots with ⟨m, _ | fault⟩
    · rw [hshade] at hshaded
      have hblack : Traced heap m := by
        intro a ha
        rw [hshaded.reached_eq] at ha
        cases ha
      exact .loop hshade (tracesBy_drain hdecode hc htraced hshaded.tricolor hblack)
    · exact .fault hshade
  exact ⟨fun ho => ho.unique htraces, fun heq => heq ▸ htraces⟩

end Marking

/-! ### Every state -/

namespace Heap

variable {φ : Type} {heap : Heap φ} {roots : Roots} {h : Handle}

/-- The colour of a live object is answered. -/
theorem HeadersDecode.exists_colorOf (hdecode : heap.HeadersDecode) (hlive : heap.contains h) :
    ∃ c, heap.colorOf h = .ok c := by
  obtain ⟨slot, hfind⟩ := Option.isSome_iff_exists.1 hlive
  obtain ⟨-, c, hcolor⟩ := hdecode h slot hfind
  refine ⟨c, ?_⟩
  simp [colorOf, headerOf, find, hfind, Header.colorOrFault, hcolor, Except.map, Except.bind,
    Except.mapError]

/-- The faults of a full collection are stale handles. -/
theorem exists_staleHandle_of_collect (hdecode : heap.HeadersDecode) {fault : Fault}
    (hanswer : (heap.collect roots).answer = .error fault) : ∃ b, fault = .staleHandle b := by
  obtain ⟨b, hb, -⟩ := exists_stale_of_fault hdecode (answer_mark_of_collect hanswer)
  exact ⟨b, hb⟩

/-- **Headers in every state.** Take a heap after any history of calls that keep the kinds of
payloads. The header of every live object stands for the kind of its payload and for a colour. So it
is when a sweep or a release of all objects comes to the object; no marking and no full collection
has another fault than a stale handle; and a marking goes the same way whichever leaves are looked
into, with the headers of all objects that it takes telling their kinds. -/
theorem coherent_run (config : Config) (ops : List (Op φ))
    (hkinds : (ofConfig config : Heap φ).Throughout Op.KeepsKinds ops) :
    let heap := (ofConfig config : Heap φ).run ops
    (∀ h slot object, heap.find? h = some slot → slot.object = some object →
      slot.header.tag = .ok object.tag ∧ ∃ c, slot.header.color = .ok c) ∧
    (∀ h, heap.contains h → ∃ c, heap.colorOf h = .ok c) ∧
    heap.SweepReadsHeaders ∧ heap.whiten.SweepReadsHeaders ∧
    (∀ roots fault, (heap.mark roots).answer = .error fault ∨
      (heap.collect roots).answer = .error fault → ∃ b, fault = .staleHandle b) ∧
    ∀ traced : Tag → Bool, (∀ tag : Tag, tag.hasReferences → traced tag) → ∀ roots o,
      Marking.TracesFrom traced heap roots o ↔ o = Marking.fromRoots heap roots := by
  intro heap
  have hstart : (ofConfig config : Heap φ).Intact := .ofConfig config
  have hi : heap.Intact := hstart.run ops
  have hc : heap.Coherent := (coherent_ofConfig config).run_of_keepsKinds hstart hkinds
  have hdecode := hi.headersDecode
  have hwhite : heap.whiten.Intact := ⟨hi.wellFormed.whiten, hdecode.whiten⟩
  refine ⟨fun h slot object hfind hobject => ⟨hc.tag_eq hfind hobject, (hdecode h slot hfind).2⟩,
    fun h hlive => hdecode.exists_colorOf hlive, hc.sweepReadsHeaders hi,
    (hc.of_colorless_eq (colorless_whiten heap)).sweepReadsHeaders hwhite, ?_,
    fun traced htraced roots o => Marking.tracesFrom_iff hdecode hc htraced roots⟩
  rintro roots fault (hanswer | hanswer)
  · obtain ⟨b, hb, -⟩ := exists_stale_of_fault hdecode hanswer
    exact ⟨b, hb⟩
  · exact exists_staleHandle_of_collect hdecode hanswer

/-- The slot of a string is used again for a vector, which grows; a pair that refers to it gets a
stale reference without a check, so that a marking ends in a fault and leaves the vector Gray. -/
theorem coherent_run_reused_slot :
    let start : Heap Unit := ofConfig Config.standard
    let ops : List (Op Unit) := [.allocate (.str ⟨#[97]⟩) 33 none true, .sweep,
      .allocate (.vectorInt #[]) 48 none false, .allocate (.pair (some ⟨0, 1⟩) none) 40 none true,
      .edit ⟨0, 1⟩ (Object.append #[3, 5]),
      .edit ⟨1, 0⟩ (fun object => object.store .rhs (some ⟨0, 0⟩)), .mark ⟨none, [⟨1, 0⟩], []⟩]
    let heap := start.run ops
    start.Throughout Op.KeepsKinds ops ∧ heap.get? ⟨0, 1⟩ = some (.vectorInt #[3, 5]) ∧
      heap.HasColor .gray ⟨0, 1⟩ ∧
      (∀ slot, heap.find? ⟨0, 1⟩ = some slot → slot.header.tag = .ok .vectorInt) ∧
      heap.SweepReadsHeaders ∧ Marking.TracesFrom (fun _ => true) heap [⟨0, 1⟩]
        (Marking.fromRoots heap [⟨0, 1⟩]) := by
  intro start ops heap
  have hkinds : start.Throughout Op.KeepsKinds ops :=
    ⟨trivial, trivial, trivial, trivial, Op.keepsKinds_append _ _ _, Op.keepsKinds_store _ _ _ _,
      trivial, trivial⟩
  have hget : heap.get? ⟨0, 1⟩ = some (.vectorInt #[3, 5]) := by decide +kernel
  obtain ⟨htag, -, hsweep, -, -, htraces⟩ := coherent_run Config.standard ops hkinds
  refine ⟨hkinds, hget, by decide +kernel, fun slot hfind => ?_, hsweep,
    (htraces (fun _ => true) (fun _ _ => rfl) _ _).2 rfl⟩
  obtain ⟨slot', hfind', hobject⟩ := exists_find?_of_get? hget
  obtain rfl := Option.some.inj (hfind.symm.trans hfind')
  exact (htag _ slot _ hfind hobject).1

end Heap

end MarkSweep
