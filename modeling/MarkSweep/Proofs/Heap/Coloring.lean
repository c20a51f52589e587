import Mathlib.Data.List.Nodup
import MarkSweep.Proofs.Heap.Exactness
import MarkSweep.Proofs.Heap.Traffic

/-!
# Marking from any colours

A marking takes the colours as they are. What is not White bars the way, whatever it refers to, and
so the objects that turn Black are those that are reachable from the roots through White objects
only. `Heap.MarksExactly` lists what that comes to when no fault occurs: each of these objects goes
through the queue once, nothing else changes, and the answer is their number. None of this depends
on how often a root is given, or in which order.

A fault occurs exactly when a stale handle is met (`exists_fault_iff`): a root, or a reference of an
object that is reachable in this way. What is behind the others is not looked at.
-/

namespace MarkSweep.Heap

variable {φ : Type} {heap : Heap φ} {roots : Roots} {rs more : List Handle} {h : Handle}

/-- A stale handle is met: it is a root, or an object that is reachable through White objects refers
to it. -/
def MeetsStale (heap : Heap φ) (roots : List Handle) : Prop :=
  ∃ b, heap.contains b = false ∧ (b ∈ roots ∨ ∃ a, heap.WhiteReachable roots a ∧ heap.Refers a b)

open Classical in
/-- The live objects that are reachable through White objects, newest first. -/
noncomputable def whiteReachables (heap : Heap φ) (roots : List Handle) : List Handle :=
  heap.handles.filter fun h => decide (heap.WhiteReachable roots h)

/-- **An exact marking** from one heap to another. -/
structure MarksExactly (heap : Heap φ) (roots : List Handle) (after : Heap φ) (count : UInt64) :
    Prop where
  /-- Nothing but colours changes. -/
  colorless_eq : after.colorless = heap.colorless
  /-- What turns Black is what was reachable through White objects. -/
  turned_iff : ∀ h, after.HasColor .black h ∧ ¬ heap.HasColor .black h ↔
    heap.WhiteReachable roots h
  /-- It was White before. -/
  white : ∀ h, heap.WhiteReachable roots h → heap.HasColor .white h
  /-- Any other object is as it was. -/
  kept : ∀ h, ¬ heap.WhiteReachable roots h → after.find? h = heap.find? h
  /-- All that is put into the queue is taken out again, in the same order. -/
  taken_eq : heap.taken roots = heap.queued roots
  /-- What turns Black was in the queue once. -/
  queued_once : ∀ h, heap.WhiteReachable roots h → (heap.queued roots).count h = 1
  /-- Nothing else was in the queue. -/
  queued_only : ∀ h ∈ heap.queued roots, heap.WhiteReachable roots h
  /-- The answer is the number of objects that turn Black. -/
  count_eq : count.toNat = (heap.whiteReachables roots).length

/-! ### Faults -/

/-- **A marking ends in a fault** exactly when a stale handle is met. -/
theorem exists_fault_iff (hdecode : heap.HeadersDecode) :
    (∃ fault, (Marking.fromRoots heap rs).2 = some fault) ↔ heap.MeetsStale rs := by
  obtain ⟨-, hdone, hfault⟩ := Marking.fromRoots_spec hdecode rs
  constructor
  · rintro ⟨fault, hf⟩
    obtain ⟨b, hstale, -, hb⟩ := hfault fault hf
    exact ⟨b, hstale, hb⟩
  · rintro ⟨b, hstale, hb⟩
    rcases hresult : (Marking.fromRoots heap rs).2 with _ | fault
    · -- without a fault, all roots and all that reached objects refer to have been seen to
      obtain ⟨-, htraced, hsettled⟩ := hdone hresult
      have hlive : heap.contains b := by
        rcases hb with hb | ⟨a, ha, hab⟩
        · exact (hsettled b hb).1
        · exact (htraced a ((Marking.mem_reached_iff hdecode hresult).2 ha) b hab).1
      simp [hlive] at hstale
    · exact ⟨fault, rfl⟩

theorem fault_eq_none (hdecode : heap.HeadersDecode) (hlive : ¬ heap.MeetsStale rs) :
    (Marking.fromRoots heap rs).2 = none := by
  rw [← exists_fault_iff hdecode, ← Option.ne_none_iff_exists', not_not] at hlive
  exact hlive

/-! ### Markings without a fault -/

theorem WhiteReachable.mono (hroots : ∀ r ∈ rs, r ∈ more) (hh : heap.WhiteReachable rs h) :
    heap.WhiteReachable more h :=
  ReachableBy.mono (fun _ hk => hk) hroots hh

theorem mem_whiteReachables_iff (hw : heap.WellFormed) :
    h ∈ heap.whiteReachables rs ↔ heap.WhiteReachable rs h := by
  classical
  rw [whiteReachables, List.mem_filter, hw.mem_handles_iff, decide_eq_true_eq]
  exact ⟨And.right, fun hh => ⟨hh.holds.contains, hh⟩⟩

section Mark

variable (hdecode : heap.HeadersDecode)
include hdecode

section

variable (hlive : ¬ heap.MeetsStale rs)
include hlive

theorem mem_taken_iff : h ∈ heap.taken rs ↔ heap.WhiteReachable rs h := by
  rw [← Marking.mem_reached_iff hdecode (fault_eq_none hdecode hlive), reached_fromRoots hdecode,
    List.mem_reverse]

/-- Nothing is left in the queue. -/
theorem waiting_eq_nil : heap.waiting rs = [] :=
  ((Marking.fromRoots_spec hdecode rs).2.1 (fault_eq_none hdecode hlive)).1

theorem taken_eq_queued : heap.taken rs = heap.queued rs := by
  rw [queued_eq hdecode, waiting_eq_nil hdecode hlive, List.append_nil]

end

variable (hlive : ¬ heap.MeetsStale roots.toList)
include hlive

/-- A marking answers how many handles it took from its queue. -/
theorem mark_eq : heap.mark roots =
    ⟨.ok (UInt64.ofNat (heap.taken roots.toList).length), (heap.mark roots).state, []⟩ := by
  have hanswer := answer_mark heap roots
  rw [fault_eq_none hdecode hlive, reached_fromRoots hdecode, List.length_reverse] at hanswer
  calc heap.mark roots
      = ⟨(heap.mark roots).answer, (heap.mark roots).state, (heap.mark roots).events⟩ := rfl
    _ = _ := by
      rw [hanswer, events_mark]
      rfl

/-- **The order of the roots** does not matter, nor how often each is given. -/
theorem mark_eq_of_mem_iff {others : Roots}
    (hsame : ∀ r, r ∈ others.toList ↔ r ∈ roots.toList) : heap.mark others = heap.mark roots := by
  have hreach (k : Handle) :
      heap.WhiteReachable others.toList k ↔ heap.WhiteReachable roots.toList k :=
    ⟨.mono fun r => (hsame r).1, .mono fun r => (hsame r).2⟩
  have hlive' : ¬ heap.MeetsStale others.toList := by
    rintro ⟨b, hstale, hb⟩
    refine hlive ⟨b, hstale, hb.imp (hsame b).1 ?_⟩
    rintro ⟨a, ha, hab⟩
    exact ⟨a, (hreach a).1 ha, hab⟩
  have hmem (k : Handle) : k ∈ heap.taken others.toList ↔ k ∈ heap.taken roots.toList := by
    rw [mem_taken_iff hdecode hlive', mem_taken_iff hdecode hlive, hreach]
  have hnodup (rs : List Handle) : (heap.taken rs).Nodup :=
    (List.nodup_append.1 (queued_eq hdecode rs ▸ nodup_queued hdecode rs)).1
  have hlength : (heap.taken others.toList).length = (heap.taken roots.toList).length :=
    ((List.perm_ext_iff_of_nodup (hnodup _) (hnodup _)).2 hmem).length_eq
  have hstate : (heap.mark others).state = (heap.mark roots).state :=
    (painted_mark hdecode others).unique (painted_mark hdecode roots) hmem fun k => by
      rw [waiting_eq_nil hdecode hlive', waiting_eq_nil hdecode hlive]
  rw [mark_eq hdecode hlive', mark_eq hdecode hlive, hlength, hstate]

end Mark

/-- **Marking without a fault is exact.** -/
theorem marksExactly (hi : heap.Intact) (hlive : ¬ heap.MeetsStale roots.toList) :
    heap.MarksExactly roots.toList (heap.mark roots).state
      (UInt64.ofNat (heap.taken roots.toList).length) := by
  have hdecode := hi.headersDecode
  have hp := painted_mark hdecode roots
  rw [waiting_eq_nil hdecode hlive] at hp
  have hmem (k : Handle) : k ∈ heap.taken roots.toList ↔ heap.WhiteReachable roots.toList k :=
    mem_taken_iff hdecode hlive
  have hqueued := taken_eq_queued hdecode hlive
  have hnodup : (heap.taken roots.toList).Nodup := hqueued ▸ nodup_queued hdecode roots.toList
  have hkept (k : Handle) (hk : ¬ heap.WhiteReachable roots.toList k) :
      (heap.mark roots).state.find? k = heap.find? k := by
    rw [← hmem] at hk
    refine hp.find?_other (fun j hj => ?_) (by rwa [List.append_nil])
    rw [List.append_nil, hmem] at hj
    exact hj.holds.contains
  refine ⟨hp.colorless_eq,
    fun k => ⟨fun ⟨hblack, hold⟩ => ?_, fun hk => ⟨hp.black k ((hmem k).2 hk), fun hold => ?_⟩⟩,
    fun k hk => hk.holds, hkept, hqueued, fun k hk => ?_, fun k hk => ?_, ?_⟩
  · -- an object that is not reachable in this way would have been Black before
    by_contra hk
    obtain ⟨slot, hfind, hcolor⟩ := hblack
    exact hold ⟨slot, (hkept k hk).symm.trans hfind, hcolor⟩
  · cases hold.unique hk.holds
  · exact List.count_eq_one_of_mem (hqueued ▸ hnodup) (hqueued ▸ (hmem k).2 hk)
  · exact (hmem k).1 (hqueued ▸ hk)
  · have hperm : (heap.taken roots.toList).Perm (heap.whiteReachables roots.toList) := by
      have hnodup' : (heap.whiteReachables roots.toList).Nodup :=
        hi.wellFormed.handles_nodup.filter _
      refine (List.perm_ext_iff_of_nodup hnodup hnodup').2 fun k => ?_
      rw [hmem, mem_whiteReachables_iff hi.wellFormed]
    rw [hperm.length_eq]
    exact hi.wellFormed.toNat_ofNat (List.length_filter_le _ _)

/-- **Exact marking from any colours.** Take a heap with its representation intact, in whatever
colours, and roots that are live; and let every reference be live that is held by an object which is
reachable through White objects. Marking ends without a fault and is exact, and any other roots of
the same objects give the same outcome. -/
theorem mark_exact (hi : heap.Intact) (roots : Roots)
    (hroots : ∀ r ∈ roots.toList, heap.contains r)
    (hrefs : ∀ a b, heap.WhiteReachable roots.toList a → heap.Refers a b → heap.contains b) :
    (∃ count, (heap.mark roots).answer = .ok count ∧
      heap.MarksExactly roots.toList (heap.mark roots).state count) ∧
    ∀ others : Roots, (∀ r, r ∈ others.toList ↔ r ∈ roots.toList) →
      heap.mark others = heap.mark roots := by
  have hlive : ¬ heap.MeetsStale roots.toList := by
    rintro ⟨b, hstale, hb | ⟨a, ha, hab⟩⟩
    · simp [hroots b hb] at hstale
    · simp [hrefs a b ha hab] at hstale
  refine ⟨⟨_, ?_, marksExactly hi hlive⟩, fun others hsame =>
    mark_eq_of_mem_iff hi.headersDecode hlive hsame⟩
  rw [mark_eq hi.headersDecode hlive]

/-- Two pairs that refer to each other are marked for the sake of one root given twice. One of them
refers to a Black pair, and a Gray tagged value is a root as well; neither is looked into. -/
theorem mark_exact_leftover_colors :
    let heap := (ofConfig Config.standard : Heap Unit).run
      [.allocate (.int 7) 32 none true, .allocate (.pair (some ⟨0, 0⟩) none) 40 none true,
        .mark ⟨none, [⟨1, 0⟩], []⟩, .allocate (.pair (some ⟨1, 0⟩) none) 40 none true,
        .allocate (.pair (some ⟨2, 0⟩) (some ⟨2, 0⟩)) 40 (some ()) true,
        .store ⟨2, 0⟩ .rhs (some ⟨3, 0⟩), .allocate (.tagged 3 (some ⟨2, 0⟩)) 40 none true,
        .mark ⟨none, [⟨4, 0⟩, ⟨9, 0⟩], []⟩]
    let roots : Roots := ⟨some ⟨4, 0⟩, [⟨3, 0⟩], [⟨3, 0⟩]⟩
    heap.Intact ∧ (∀ r ∈ roots.toList, heap.contains r) ∧
      (∀ a b, heap.WhiteReachable roots.toList a → heap.Refers a b → heap.contains b) ∧
      heap.HasColor .gray ⟨4, 0⟩ ∧ heap.HasColor .black ⟨1, 0⟩ ∧
      heap.queued roots.toList = [⟨3, 0⟩, ⟨2, 0⟩] ∧ (heap.mark roots).answer = .ok 2 ∧
      heap.MarksExactly roots.toList (heap.mark roots).state 2 ∧
      heap.mark ⟨none, [⟨3, 0⟩, ⟨4, 0⟩], []⟩ = heap.mark roots := by
  intro heap roots
  have hi : heap.Intact := intact_run Config.standard _
  have hclosed : heap.Closed := hi.wellFormed.closed_of_handles (by decide +kernel)
  have hrefs : ∀ a b, heap.WhiteReachable roots.toList a → heap.Refers a b → heap.contains b := by
    rintro a b - ⟨slot, tag, object, hfind, -, -, hobject, hb⟩
    exact hclosed a object (get?_of_find? hfind hobject) b hb
  have hroots : ∀ r ∈ roots.toList, heap.contains r := by decide +kernel
  have hanswer : (heap.mark roots).answer = .ok 2 := by decide +kernel
  obtain ⟨⟨count, hcount, hexact⟩, hsame⟩ := mark_exact hi roots hroots hrefs
  obtain rfl := Except.ok.inj (hcount.symm.trans hanswer)
  exact ⟨hi, hroots, hrefs, by decide +kernel, by decide +kernel, by decide +kernel, hanswer,
    hexact, hsame _ fun r => by grind [Roots.toList]⟩

end MarkSweep.Heap
