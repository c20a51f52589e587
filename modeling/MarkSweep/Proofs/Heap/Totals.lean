import MarkSweep.Proofs.Heap.Effects

/-!
# Thresholds and totals

What a call does to the thresholds, and to the totals over the life of a heap, depends on its answer
alone. A full collection that is completed is counted and has the thresholds adjusted to what it
left, what a sweep answers is added to what was released, and an object that is put in may bring the
bytes to a new peak. `Op.Settles` says so, and `Intact.settles` that it is so for every call.
-/

namespace MarkSweep.Heap

variable {φ : Type} {heap heap' painted : Heap φ} {op : Op φ}

/-- **What a call does to thresholds and totals**, by what it answers. -/
structure Op.Settles (heap : Heap φ) (op : Op φ) : Prop where
  objectsThreshold : (op.perform heap).state.objectsThreshold =
    if (op.cycle? heap).isSome then adjustedThreshold heap.config.policy heap.objectsThreshold
      (op.perform heap).state.objectsAllocated
    else heap.objectsThreshold
  bytesThreshold : (op.perform heap).state.bytesThreshold =
    if (op.cycle? heap).isSome then adjustedThreshold heap.config.policy heap.bytesThreshold
      (op.perform heap).state.bytesAllocated
    else heap.bytesThreshold
  collections : (op.perform heap).state.stats.collections =
    heap.stats.collections + UInt64.ofNat (op.cycle? heap).toList.length
  totalObjectsFreed : (op.perform heap).state.stats.totalObjectsFreed =
    heap.stats.totalObjectsFreed + (op.sweep? heap).elim 0 SweepStats.objectsFreed
  totalBytesFreed : (op.perform heap).state.stats.totalBytesFreed =
    heap.stats.totalBytesFreed + (op.sweep? heap).elim 0 SweepStats.bytesFreed
  peakBytes : (op.perform heap).state.stats.peakBytes =
    if (op.issued heap).isSome then
      max heap.stats.peakBytes (op.perform heap).state.bytesAllocated
    else heap.stats.peakBytes

/-- What a call answers about a sweep is what the sweep of its heap answers. -/
theorem sweep?_eq (heap : Heap φ) (op : Op φ) :
    op.sweep? heap = (op.swept? heap).map fun painted => painted.sweep.stats := by
  cases op with
  | sweep | releaseAll => rfl
  | collect roots =>
    rcases collect_cases heap roots with
      ⟨fault, hanswer, hresult, -⟩ | ⟨reached, hanswer, hresult, -⟩
    · rw [Op.sweep?, Op.perform, hresult, Op.swept?, hanswer]
      rfl
    · rw [Op.sweep?, Op.perform, hresult, Op.swept?, hanswer]
      rfl
  | allocate object size finalizer granted =>
    rw [Op.sweep?, Op.perform]
    rcases (heap.allocate object size finalizer granted).answer with e | h <;> rfl
  | edit target change =>
    rw [Op.sweep?, Op.perform]
    rcases (heap.edit target change).answer with fault | applied <;> rfl
  | store target field ref =>
    rw [Op.sweep?, Op.perform]
    rcases (heap.store target field ref).answer with fault | applied <;> rfl
  | mark roots =>
    rw [Op.sweep?, Op.perform]
    rcases (heap.mark roots).answer with fault | reached <;> rfl

/-- A full collection is a sweep. -/
theorem cycle?_eq_none (hsweep : op.sweep? heap = none) : op.cycle? heap = none := by
  rw [Op.sweep?] at hsweep
  rw [Op.cycle?]
  rcases hanswer : (op.perform heap).answer.toOption with _ | answer
  · rfl
  · rw [hanswer] at hsweep
    cases answer with
    | collected stats => cases hsweep
    | allocated | changed | marked | swept => rfl

theorem sameSettings_of_colorless_eq (hc : heap'.colorless = heap.colorless) :
    heap.SameSettings heap' :=
  ⟨(congrArg Heap.objectsThreshold hc :), (congrArg Heap.bytesThreshold hc :),
    (congrArg Heap.config hc :), (congrArg Heap.stats hc :)⟩

/-- A call that answers neither a handle nor a sweep, and leaves thresholds and totals alone. -/
theorem Op.Settles.of_quiet (hs : heap.SameSettings (op.perform heap).state)
    (hissued : op.issued heap = none) (hsweep : op.sweep? heap = none) : op.Settles heap := by
  obtain ⟨hobjects, hbytes, -, hstats⟩ := hs
  have hcycle := cycle?_eq_none hsweep
  constructor
  case objectsThreshold =>
    rw [hobjects, hcycle]
    rfl
  case bytesThreshold =>
    rw [hbytes, hcycle]
    rfl
  case collections =>
    rw [hstats, hcycle]
    exact (UInt64.add_zero _).symm
  case totalObjectsFreed =>
    rw [hstats, hsweep]
    exact (UInt64.add_zero _).symm
  case totalBytesFreed =>
    rw [hstats, hsweep]
    exact (UInt64.add_zero _).symm
  case peakBytes =>
    rw [hstats, hissued]
    rfl

/-- A sweep adds what it answers to the totals, and leaves the rest of the settings alone. -/
theorem settings_sweep (hw : heap.WellFormed) :
    heap.sweep.state.objectsThreshold = heap.objectsThreshold ∧
      heap.sweep.state.bytesThreshold = heap.bytesThreshold ∧
      heap.sweep.state.stats = { heap.stats with
        totalObjectsFreed := heap.stats.totalObjectsFreed + heap.sweep.stats.objectsFreed
        totalBytesFreed := heap.stats.totalBytesFreed + heap.sweep.stats.bytesFreed } := by
  obtain ⟨s, hp, heq⟩ := exists_progress hw
  obtain ⟨hobjects, hbytes, -, hstats⟩ := hp.settings
  rw [heq]
  exact ⟨hobjects, hbytes, by rw [hstats]⟩

/-- A sweep that is not part of a full collection. -/
theorem Op.Settles.of_sweep (hw : painted.WellFormed) (hc : painted.colorless = heap.colorless)
    (hstate : (op.perform heap).state = painted.sweep.state) (hissued : op.issued heap = none)
    (hsweep : op.sweep? heap = some painted.sweep.stats) (hcycle : op.cycle? heap = none) :
    op.Settles heap := by
  obtain ⟨hobjects, hbytes, hstats⟩ := settings_sweep hw
  have hsame := sameSettings_of_colorless_eq hc
  rw [hsame.objectsThreshold] at hobjects
  rw [hsame.bytesThreshold] at hbytes
  rw [hsame.stats] at hstats
  constructor
  case objectsThreshold =>
    rw [hstate, hobjects, hcycle]
    rfl
  case bytesThreshold =>
    rw [hstate, hbytes, hcycle]
    rfl
  case collections =>
    rw [hstate, hstats, hcycle]
    exact (UInt64.add_zero _).symm
  case totalObjectsFreed =>
    rw [hstate, hstats, hsweep]
    rfl
  case totalBytesFreed =>
    rw [hstate, hstats, hsweep]
    rfl
  case peakBytes =>
    rw [hstate, hstats, hissued]
    rfl

namespace Intact

variable (hi : heap.Intact)
include hi

theorem settles_collect (roots : Roots) : (Op.collect roots).Settles heap := by
  have hcolorless := colorless_mark hi.headersDecode roots
  have hsame := sameSettings_of_colorless_eq hcolorless
  rcases collect_cases heap roots with
    ⟨fault, -, hresult, hstate⟩ | ⟨reached, -, hresult, hstate⟩
  · refine .of_quiet ?_ ?_ ?_
    · rw [Op.perform, hstate]
      exact hsame
    · rw [Op.issued, Op.perform, hresult]
      rfl
    · rw [Op.sweep?, Op.perform, hresult]
      rfl
  · have hw := (hi.mark roots).wellFormed
    obtain ⟨hobjects, hbytes, hstats⟩ := settings_sweep hw
    have hconfig := config_sweep hw
    rw [hsame.objectsThreshold] at hobjects
    rw [hsame.bytesThreshold] at hbytes
    rw [hsame.stats] at hstats
    rw [hsame.config] at hconfig
    have hperform : ((Op.collect roots).perform heap).state =
        (heap.mark roots).state.sweep.state.adjustThresholds.countCollection := hstate
    have hissued : (Op.collect roots).issued heap = none := by
      rw [Op.issued, Op.perform, hresult]
      rfl
    have hsweep : (Op.collect roots).sweep? heap = some (heap.mark roots).state.sweep.stats := by
      rw [Op.sweep?, Op.perform, hresult]
      rfl
    have hcycle : (Op.collect roots).cycle? heap =
        some ⟨(heap.mark roots).state.sweep.stats, reached⟩ := by
      rw [Op.cycle?, Op.perform, hresult]
      rfl
    -- what was swept does not matter from here on
    generalize (heap.mark roots).state.sweep = swept at *
    constructor
    case objectsThreshold =>
      rw [hperform, hcycle, ← hobjects, ← hconfig]
      rfl
    case bytesThreshold =>
      rw [hperform, hcycle, ← hbytes, ← hconfig]
      rfl
    case collections =>
      rw [hperform, hcycle, adjustThresholds, countCollection, hstats]
      rfl
    case totalObjectsFreed =>
      rw [hperform, hsweep, adjustThresholds, countCollection, hstats]
      rfl
    case totalBytesFreed =>
      rw [hperform, hsweep, adjustThresholds, countCollection, hstats]
      rfl
    case peakBytes =>
      rw [hperform, hissued, adjustThresholds, countCollection, hstats]
      rfl

/-- **Every call** settles thresholds and totals by its answer. -/
theorem settles (op : Op φ) : op.Settles heap := by
  cases hi.effect op with
  | painted state quiet _ =>
    exact .of_quiet (sameSettings_of_colorless_eq state) quiet.issued quiet.sweep?
  | written target old new _ state quiet _ =>
    refine .of_quiet ?_ quiet.issued quiet.sweep?
    rw [state]
    exact ⟨rfl, rfl, rfl, rfl⟩
  | entered h object size finalizer granted after _ ho _ hperform =>
    have hissued : op.issued heap = some h := by rw [Op.issued, hperform]; rfl
    have hsweep : op.sweep? heap = none := by rw [Op.sweep?, hperform]; rfl
    have hcycle := cycle?_eq_none hsweep
    have hstats : after.stats = heap.stats := (congrArg Heap.stats ho.rest :)
    constructor
    case objectsThreshold =>
      rw [hperform, hcycle]
      exact (congrArg Heap.objectsThreshold ho.rest :)
    case bytesThreshold =>
      rw [hperform, hcycle]
      exact (congrArg Heap.bytesThreshold ho.rest :)
    case collections =>
      rw [hperform, hcycle, enter, hstats]
      exact (UInt64.add_zero _).symm
    case totalObjectsFreed =>
      rw [hperform, hsweep, enter, hstats]
      exact (UInt64.add_zero _).symm
    case totalBytesFreed =>
      rw [hperform, hsweep, enter, hstats]
      exact (UInt64.add_zero _).symm
    case peakBytes =>
      rw [hperform, hissued, enter, hstats]
      rfl
  | swept painted hc hp _ issued _ _ sweep? _ =>
    -- the contents do not tell thresholds and totals, so that the calls are taken one by one
    cases op with
    | sweep => exact .of_sweep hi.wellFormed rfl rfl rfl rfl rfl
    | releaseAll =>
      exact .of_sweep hi.wellFormed.whiten (colorless_whiten heap) rfl rfl rfl rfl
    | collect roots => exact hi.settles_collect roots
    | allocate | edit | store | mark =>
      rw [sweep?_eq] at sweep?
      cases sweep?

end Intact

end MarkSweep.Heap
