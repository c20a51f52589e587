import MarkSweep.Proofs.Heap.Coherence
import MarkSweep.Proofs.Heap.Exactness

/-!
# Collections that begin with colours left over

A marking queues what is White and takes any other colour for its own work. After a marking that no
sweep followed, or one that a fault ended, Gray and Black are left, and the next full collection
does not look behind them: what survives it is what was Black already, and what is reachable through
White objects only (`contains_collect_iff`). An object that is reachable by way of one that was
Black before is not found, unless it was Black as well, and it is released while a reachable object
holds a reference to it (`collect_frees_reachable`).

As long as every marking was followed by a sweep all is White, and a full collection keeps what is
reachable.
-/

namespace MarkSweep.Heap

variable {φ : Type} {heap : Heap φ} {op : Op φ} {roots : Roots} {h : Handle} {object : Object}

/-! ### Histories with checked stores -/

/-- Whether a call writes no reference without a check. -/
def Op.isChecked : Op φ → Bool
  | edit _ _ => false
  | allocate _ _ _ _ | store _ _ _ | mark _ | sweep | collect _ | releaseAll => true

/-- A checked call keeps kinds. -/
theorem Op.keepsKinds_of_isChecked (hchecked : op.isChecked) : op.KeepsKinds heap := by
  cases op with
  | edit target change => cases hchecked
  | allocate | store | mark | sweep | collect | releaseAll => trivial

theorem Coherent.run (hc : heap.Coherent) (hi : heap.Intact) {ops : List (Op φ)}
    (hchecked : ∀ op ∈ ops, op.isChecked) : (heap.run ops).Coherent := by
  induction ops generalizing heap with
  | nil => exact hc
  | cons op ops ih =>
    have hkinds : op.KeepsKinds heap :=
      Op.keepsKinds_of_isChecked (hchecked op List.mem_cons_self)
    exact ih (hc.perform hi hkinds) (hi.perform op)
      fun o ho => hchecked o (List.mem_cons_of_mem op ho)

/-! ### Colours left over -/

/-- Whether colours are left over after a call, if they may or may not have been before. A marking
leaves some and a sweep leaves none; a full collection sweeps, unless its marking ends in a
fault. -/
def Op.leavesColors (heap : Heap φ) (left : Bool) : Op φ → Bool
  | mark _ => true
  | sweep | releaseAll => false
  | collect roots =>
    match (heap.mark roots).answer with
    | .ok _ => false
    | .error _ => true
  | allocate _ _ _ _ | edit _ _ | store _ _ _ => left

/-- Whether colours may be left over after a history of a heap without any. -/
def leavesColors (heap : Heap φ) (ops : List (Op φ)) (left : Bool) : Bool :=
  match ops with
  | [] => left
  | op :: ops => leavesColors (op.perform heap).state ops (op.leavesColors heap left)

theorem AllWhite.edit (hwhite : heap.AllWhite) (target : Handle)
    (change : Object → Option Object) : (heap.edit target change).state.AllWhite := by
  rcases edit_cases heap target change with ⟨-, heq⟩ | ⟨old, -, -, heq⟩ | ⟨old, new, hget, -, heq⟩
  · rwa [heq]
  · rwa [heq]
  · rw [heq]
    intro k hk
    obtain ⟨slot, hfind, hcolor⟩ := hwhite k ((contains_withObject hget k).symm.trans hk)
    change (heap.withObject target new).HasColor .white k
    rw [HasColor, find?_withObject hget, hfind]
    split
    · exact ⟨_, rfl, hcolor⟩
    · exact ⟨slot, rfl, hcolor⟩

theorem AllWhite.allocate (hwhite : heap.AllWhite) (hw : heap.WellFormed) (object : Object)
    (size : UInt64) (finalizer : Option φ) (granted : Bool) :
    (heap.allocate object size finalizer granted).state.AllWhite := by
  rcases allocate_cases hw object size finalizer granted with
    ⟨r, -, -, heq⟩ | ⟨-, heq⟩ | ⟨-, h, after, ho, heq⟩
  · rwa [heq]
  · rwa [heq]
  · rw [heq]
    intro k hk
    obtain ⟨slot, hfind⟩ := Option.isSome_iff_exists.1 hk
    rcases ho.find?_cases hfind with ⟨-, rfl⟩ | hold
    · exact ⟨_, hfind, Header.color_make _ _⟩
    · obtain ⟨slot', hfind', hcolor⟩ := hwhite k (contains_of_find? hold)
      obtain rfl := Option.some.inj (hold.symm.trans hfind')
      exact ⟨slot, hfind, hcolor⟩

/-- Thresholds and totals do not matter. -/
theorem AllWhite.adjusted (hwhite : heap.AllWhite) :
    heap.adjustThresholds.countCollection.AllWhite := hwhite

theorem contains_adjusted (heap : Heap φ) (h : Handle) :
    heap.adjustThresholds.countCollection.contains h = heap.contains h := rfl

/-- **One call** leaves all White if it leaves no colours over. -/
theorem AllWhite.perform {left : Bool} (hwhite : left = false → heap.AllWhite) (hi : heap.Intact)
    (hleft : op.leavesColors heap left = false) : (op.perform heap).state.AllWhite := by
  cases op with
  | allocate object size finalizer granted =>
    exact (hwhite hleft).allocate hi.wellFormed object size finalizer granted
  | edit target change => exact (hwhite hleft).edit target change
  | store target field ref =>
    rcases store_cases heap target field ref with ⟨r, -, -, heq⟩ | ⟨-, heq⟩
    · rw [Op.perform, heq]
      exact hwhite hleft
    · rw [Op.perform, heq]
      exact (hwhite hleft).edit target _
  | mark roots => cases hleft
  | sweep => exact allWhite_sweep hi.wellFormed
  | collect roots =>
    rcases collect_cases heap roots with ⟨fault, hanswer, -, -⟩ | ⟨reached, -, -, hstate⟩
    · simp [Op.leavesColors, hanswer] at hleft
    · have hswept := allWhite_sweep (hi.mark roots).wellFormed
      rw [Op.perform, hstate]
      exact hswept.adjusted
  | releaseAll => exact allWhite_sweep hi.wellFormed.whiten

theorem AllWhite.run {left : Bool} (hwhite : left = false → heap.AllWhite) (hi : heap.Intact)
    {ops : List (Op φ)} (hleft : heap.leavesColors ops left = false) :
    (heap.run ops).AllWhite := by
  induction ops generalizing heap left with
  | nil => exact hwhite hleft
  | cons op ops ih => exact ih (fun hleft => .perform hwhite hi hleft) (hi.perform op) hleft

theorem allWhite_ofConfig (config : Config) : (Heap.ofConfig config : Heap φ).AllWhite := by
  intro h hh
  simp [contains, find?, Heap.ofConfig] at hh

/-! ### The collection -/

/-- What a full collection is for: an object that is reachable stays live, and an object that stays
and was reachable refers to live objects only. -/
structure KeepsReachable (heap : Heap φ) (roots : Roots) : Prop where
  /-- What is reachable stays live. -/
  live : ∀ h, heap.Reachable roots.toList h → (heap.collect roots).state.contains h
  /-- It holds no stale reference afterwards. -/
  references_live : ∀ h object, heap.Reachable roots.toList h →
    (heap.collect roots).state.get? h = some object →
    ∀ r ∈ object.references, (heap.collect roots).state.contains r

section Collect

variable (hi : heap.Intact) (hlive : heap.ReachesLive roots.toList)
include hi hlive

/-- **What survives a full collection** was Black before it, or reachable through White objects. -/
theorem contains_collect_iff : (∃ cycle, (heap.collect roots).answer = .ok cycle) ∧
    ∀ h, (heap.collect roots).state.contains h ↔
      heap.HasColor .black h ∨ heap.WhiteReachable roots.toList h := by
  have hreach (k : Handle) (hk : heap.WhiteReachable roots.toList k) :
      heap.Reachable roots.toList k := hk.mono (fun _ _ => trivial) fun _ hr => hr
  obtain ⟨reached, -, hmem, hanswer, hblack, hother⟩ := mark_spec hi.headersDecode
    (fun r hr => hlive r (.root hr trivial))
    fun a b ha hab => hlive b (.step (hreach a ha) hab trivial)
  rcases collect_cases heap roots with ⟨fault, hfault, -, -⟩ | ⟨count, -, hresult, hstate⟩
  · rw [hanswer] at hfault
    cases hfault
  · refine ⟨⟨_, hresult⟩, fun h => ?_⟩
    have hsurvives : (heap.collect roots).state.contains h ↔
        (heap.mark roots).state.HasColor .black h := by
      rw [hstate, contains_adjusted, contains_sweep (hi.mark roots).wellFormed, isBlack_iff]
    rw [hsurvives, ← hmem]
    by_cases hh : h ∈ reached
    · exact ⟨fun _ => .inr hh, fun _ => hblack h hh⟩
    · rw [hother h hh, or_iff_left hh]

omit hlive in
/-- A full collection changes no payload. -/
theorem get?_collect (hc : heap.Coherent) (hold : heap.contains h)
    (hget : (heap.collect roots).state.get? h = some object) : heap.get? h = some object := by
  obtain ⟨old, hold'⟩ := exists_get?_of_contains hold
  obtain ⟨size, hh⟩ := hc h old hold'
  have hstays : h ∉ (Op.collect roots).released heap :=
    (((hi.contains_perform_iff (.collect roots)).1 (contains_of_get? hget)).resolve_left
      (hi.issued_ne (.collect roots) hold)).2
  have hafter := hi.holds_perform (.collect roots) hh hstays
  obtain rfl : old = object := Option.some.inj (hafter.get?.symm.trans hget)
  exact hold'

/-- **A full collection keeps what is reachable** exactly when all of it is Black already or
reachable through White objects. -/
theorem keepsReachable_iff (hc : heap.Coherent) : heap.KeepsReachable roots ↔
    ∀ h, heap.Reachable roots.toList h →
      heap.HasColor .black h ∨ heap.WhiteReachable roots.toList h := by
  obtain ⟨-, hcontains⟩ := contains_collect_iff hi hlive
  constructor
  · intro hkeeps h hh
    exact (hcontains h).1 (hkeeps.live h hh)
  · intro hcovered
    have hkept (h : Handle) (hh : heap.Reachable roots.toList h) :=
      (hcontains h).2 (hcovered h hh)
    refine ⟨hkept, fun h object hh hget r hr => ?_⟩
    have hrefers := hc.refers (get?_collect hi hc (hlive h hh) hget) hr
    exact hkept r (hh.step hrefers trivial)

end Collect

/-- **Full collections in every state.** Take a heap after any history of calls with checked stores,
and roots from which nothing stale is reached. A full collection ends without a fault and leaves the
objects that were Black already or reachable through White ones. So it keeps what is reachable, and
what that refers to, exactly when these are all that is reachable; and they are if all that is
reachable is White, as it is when no marking of the history was left without a sweep. -/
theorem collect_run_of_checked (config : Config) (ops : List (Op φ))
    (hchecked : ∀ op ∈ ops, op.isChecked) (roots : Roots)
    (hlive : ((ofConfig config : Heap φ).run ops).ReachesLive roots.toList) :
    let start : Heap φ := ofConfig config
    let heap := start.run ops
    (∃ cycle, (heap.collect roots).answer = .ok cycle) ∧
      (∀ h, (heap.collect roots).state.contains h ↔
        heap.HasColor .black h ∨ heap.WhiteReachable roots.toList h) ∧
      (heap.KeepsReachable roots ↔ ∀ h, heap.Reachable roots.toList h →
        heap.HasColor .black h ∨ heap.WhiteReachable roots.toList h) ∧
      ((∀ h, heap.Reachable roots.toList h → heap.HasColor .white h) →
        heap.KeepsReachable roots) ∧
      (start.leavesColors ops false = false → heap.KeepsReachable roots) := by
  intro start heap
  have hstart : start.Intact := .ofConfig config
  have hi : heap.Intact := hstart.run ops
  have hc : heap.Coherent := (coherent_ofConfig config).run hstart hchecked
  obtain ⟨hanswer, hcontains⟩ := contains_collect_iff hi hlive
  have hiff := keepsReachable_iff hi hlive hc
  have hwhite (hall : ∀ h, heap.Reachable roots.toList h → heap.HasColor .white h) :
      heap.KeepsReachable roots :=
    hiff.2 fun h hh => .inr (whiteReachable_of_white hall hh)
  refine ⟨hanswer, hcontains, hiff, hwhite, fun hleft => hwhite fun h hh => ?_⟩
  have hall : heap.AllWhite := .run (fun _ => allWhite_ofConfig config) hstart hleft
  exact hall h (hlive h hh)

/-- A pair that was marked and swept before it got a reference keeps what it refers to. -/
theorem collect_run_of_checked_swept :
    let ops : List (Op Unit) := [.allocate (.pair none none) 40 none true,
      .mark ⟨none, [⟨0, 0⟩], []⟩, .sweep, .allocate (.int 7) 32 none true,
      .store ⟨0, 0⟩ .lhs (some ⟨1, 0⟩)]
    let heap := (ofConfig Config.standard : Heap Unit).run ops
    let roots : Roots := ⟨none, [⟨0, 0⟩], []⟩
    (∀ op ∈ ops, op.isChecked) ∧ heap.ReachesLive roots.toList ∧ heap.KeepsReachable roots := by
  intro ops heap roots
  have hchecked : ∀ op ∈ ops, op.isChecked := by decide
  have hw : heap.WellFormed := (intact_run Config.standard ops).wellFormed
  have hlive : heap.ReachesLive roots.toList :=
    (hw.closed_of_handles (by decide +kernel)).reachesLive (by decide +kernel)
  obtain ⟨-, -, -, -, hkeeps⟩ := collect_run_of_checked Config.standard ops hchecked roots hlive
  exact ⟨hchecked, hlive, hkeeps (by decide +kernel)⟩

/-- **A reachable object is released.** The pair is Black from a marking without a sweep when it
gets its reference, so that the collection does not look at what it refers to. -/
theorem collect_frees_reachable :
    let ops : List (Op Unit) := [.allocate (.pair none none) 40 none true,
      .mark ⟨none, [⟨0, 0⟩], []⟩, .allocate (.int 7) 32 none true,
      .store ⟨0, 0⟩ .lhs (some ⟨1, 0⟩)]
    let heap := (ofConfig Config.standard : Heap Unit).run ops
    let roots : Roots := ⟨none, [⟨0, 0⟩], []⟩
    (∀ op ∈ ops, op.isChecked) ∧ heap.ReachesLive roots.toList ∧
      heap.Reachable roots.toList ⟨1, 0⟩ ∧
      (heap.collect roots).state.contains ⟨1, 0⟩ = false ∧
      (heap.collect roots).state.get? ⟨0, 0⟩ = some (.pair (some ⟨1, 0⟩) none) ∧
      ¬ heap.KeepsReachable roots := by
  intro ops heap roots
  have hstart : (ofConfig Config.standard : Heap Unit).Intact := .ofConfig Config.standard
  have hchecked : ∀ op ∈ ops, op.isChecked := by decide
  have hi : heap.Intact := hstart.run ops
  have hc : heap.Coherent := (coherent_ofConfig Config.standard).run hstart hchecked
  have hlive : heap.ReachesLive roots.toList :=
    (hi.wellFormed.closed_of_handles (by decide +kernel)).reachesLive (by decide +kernel)
  have hget : heap.get? ⟨0, 0⟩ = some (.pair (some ⟨1, 0⟩) none) := by decide +kernel
  have hreach : heap.Reachable roots.toList ⟨1, 0⟩ :=
    .step (.root List.mem_cons_self trivial) (hc.refers hget (by decide)) trivial
  have hgone : (heap.collect roots).state.contains ⟨1, 0⟩ = false := by decide +kernel
  refine ⟨hchecked, hlive, hreach, hgone, by decide +kernel, fun hkeeps => ?_⟩
  rw [hkeeps.live _ hreach] at hgone
  cases hgone

end MarkSweep.Heap
