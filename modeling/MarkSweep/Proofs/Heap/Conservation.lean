import Mathlib.Algebra.GroupWithZero.Nat
import MarkSweep.Proofs.Heap.Accounting
import MarkSweep.Proofs.Heap.Totals

/-!
# Objects and bytes are conserved

An object that is put in is charged for, and it gives back what it was charged for when it is
released. Calls conserve charges: those that were given back and those of live objects are,
together, those that were there before or came in (`Intact.tally_run`). Everything else about the
counters of a heap is a sum over this: what is live and what was released comes to what was put in,
by number and by bytes, and what the sweeps answered comes to what was released
(`balanced_run`).

Counters are words, and wrap. Where a true total fits in a word, so does every part of it.
-/

namespace MarkSweep

variable {φ : Type}

namespace Sweeping

variable {heap : Heap φ} {done rest : List Handle} {h : Handle} {s : Sweeping φ}

/-- A release takes the charge of the object from the count of bytes. -/
theorem bytesAllocated_step (hspares : s.spares h = false) :
    (s.step h).heap.bytesAllocated = s.heap.bytesAllocated - s.heap.chargeOf h := by
  rw [spares] at hspares
  rcases hslot : s.heap.slots[h.slot]? with _ | slot
  · rw [hslot] at hspares
    cases hspares
  · rw [hslot, Option.all_some] at hspares
    have hstep : s.step h = s.release h slot := by
      rw [step, hslot]
      exact if_neg (ne_true_of_eq_false hspares)
    rw [hstep, Heap.chargeOf, hslot]
    exact Heap.bytesAllocated_remove

/-- What is released gives its charge back. -/
theorem Progress.returned_eq (hp : Progress heap done rest s) (hw : heap.WellFormed)
    (hhandles : heap.handles = done ++ rest) :
    s.returned rest = (s.released rest).map fun h => (h, heap.chargeOf h) := by
  induction rest generalizing done s with
  | nil => rfl
  | cons h rest ih =>
    have hrest := ih (hp.step hw hhandles) (by rw [hhandles, List.append_assoc]; rfl)
    have hself := hp.slots_eq_of_mem_rest hw hhandles (List.mem_cons_self (a := h))
    have hcharge : s.heap.chargeOf h = heap.chargeOf h := by
      rw [Heap.chargeOf, hself, Heap.chargeOf]
    rw [returned, released, hrest, List.map_append]
    refine congrArg (· ++ _) ?_
    rcases hspares : s.spares h with _ | _
    · have hdrop : s.heap.bytesAllocated - (s.heap.bytesAllocated - heap.chargeOf h) =
          heap.chargeOf h := by grind
      rw [bytesAllocated_step hspares, hcharge, hdrop]
      rfl
    · rfl

end Sweeping

namespace Heap

variable {heap painted after : Heap φ} {h : Handle} {op : Op φ} {ops : List (Op φ)} {tag : Tag}
  {size : UInt64} {object : Object}

/-! ### What is given back -/

theorem sweepReturns_eq (hw : heap.WellFormed) :
    heap.sweepReturns = heap.sweepReleases.map fun h => (h, heap.chargeOf h) :=
  (Sweeping.Progress.start hw).returned_eq hw rfl

theorem released_eq (heap : Heap φ) (op : Op φ) :
    op.released heap = (op.swept? heap).elim [] sweepReleases := by
  cases op with
  | collect roots =>
    rw [Op.released, Op.swept?]
    rcases (heap.mark roots).answer with fault | reached <;> rfl
  | allocate | edit | store | mark | sweep | releaseAll => rfl

/-- The live objects, newest first, with their charges. -/
def tally (heap : Heap φ) : List (Handle × UInt64) :=
  heap.handles.map fun h => (h, heap.chargeOf h)

theorem bytesOf_map_chargeOf (heap : Heap φ) (l : List Handle) :
    bytesOf (l.map fun h => (h, heap.chargeOf h)) = heap.charges l := by
  induction l with
  | nil => rfl
  | cons h l ih =>
    rw [charges_cons, ← ih]
    rfl

theorem bytesOf_tally (heap : Heap φ) : bytesOf heap.tally = heap.totalCharge :=
  heap.bytesOf_map_chargeOf heap.handles

/-- Bytes are conserved where charges are. -/
theorem totalCharge_eq_of_perm {given taken : List (Handle × UInt64)}
    (hp : (given ++ after.tally).Perm (heap.tally ++ taken)) :
    bytesOf given + after.totalCharge = heap.totalCharge + bytesOf taken := by
  have hbytes := bytesOf_perm hp
  rw [bytesOf_append, bytesOf_append, bytesOf_tally, bytesOf_tally] at hbytes
  exact hbytes

/-- What is charged for was put in by an allocation, which asked for the charge. -/
theorem exists_allocate_of_charged (hcharged : op.charged heap = some (h, size)) :
    ∃ object finalizer granted, op = .allocate object size finalizer granted ∧
      (heap.allocate object size finalizer granted).answer = .ok h := by
  obtain ⟨k, hissued, hsize⟩ := Option.bind_eq_some_iff.1 hcharged
  cases op with
  | allocate object charge finalizer granted =>
    obtain ⟨rfl, rfl⟩ := Prod.mk.inj (Option.some.inj hsize)
    exact ⟨object, finalizer, granted, rfl, answer_of_issued hissued⟩
  | edit | store | mark | sweep | collect | releaseAll => cases hsize

theorem charged_allocate {finalizer : Option φ} {granted : Bool}
    (hanswer : (heap.allocate object size finalizer granted).answer = .ok h) :
    (Op.allocate object size finalizer granted).charged heap = some (h, size) := by
  rw [Op.charged, issued_allocate hanswer]
  rfl

namespace Intact

section Call

variable (hi : heap.Intact)
include hi

/-- A heap that is swept differs in colours at most from the one that was called. -/
theorem of_swept? (hswept : op.swept? heap = some painted) :
    painted.colorless = heap.colorless ∧ painted.Intact := by
  cases op with
  | sweep =>
    obtain rfl := Option.some.inj hswept
    exact ⟨rfl, hi⟩
  | collect roots =>
    rw [Op.swept?] at hswept
    split at hswept
    · obtain rfl := Option.some.inj hswept
      exact ⟨colorless_mark hi.headersDecode roots, hi.mark roots⟩
    · cases hswept
  | releaseAll =>
    obtain rfl := Option.some.inj hswept
    exact ⟨colorless_whiten heap, hi.wellFormed.whiten, hi.headersDecode.whiten⟩
  | allocate | edit | store | mark => cases hswept

/-- **What is released gives back its charge.** -/
theorem returned_eq (op : Op φ) :
    op.returned heap = (op.released heap).map fun h => (h, heap.chargeOf h) := by
  rw [Op.returned, released_eq]
  rcases hswept : op.swept? heap with _ | painted
  · rfl
  · obtain ⟨hc, hp⟩ := hi.of_swept? hswept
    have hcharge (h : Handle) : painted.chargeOf h = heap.chargeOf h := by
      rw [← chargeOf_skeleton, skeleton_eq_of_colorless_eq hc, chargeOf_skeleton]
    rw [Option.elim_some, sweepReturns_eq hp.wellFormed]
    simp only [hcharge]
    rfl

/-- What a call answers about a sweep: what was released, and what that gave back. -/
theorem freed_eq (op : Op φ) :
    (op.sweep? heap).elim 0 SweepStats.objectsFreed = UInt64.ofNat (op.returned heap).length ∧
      (op.sweep? heap).elim 0 SweepStats.bytesFreed =
        UInt64.ofNat (bytesOf (op.returned heap)) := by
  rw [sweep?_eq, Op.returned]
  rcases hswept : op.swept? heap with _ | painted
  · exact ⟨rfl, rfl⟩
  · have hw := (hi.of_swept? hswept).2.wellFormed
    simp only [Option.map_some, Option.elim_some]
    rw [stats_sweep hw, sweepReturns_eq hw, bytesOf_map_chargeOf, List.length_map,
      sweepReleases_eq hw]
    exact ⟨rfl, rfl⟩

/-- What stays keeps its charge. -/
theorem chargeOf_perform (op : Op φ) (hlive : heap.contains h) (hstays : h ∉ op.released heap) :
    (op.perform heap).state.chargeOf h = heap.chargeOf h := by
  obtain ⟨tag, size, object, hh⟩ := hi.exists_holds hlive
  rw [(hi.holds_perform op hh hstays).chargeOf_eq, hh.chargeOf_eq]

theorem toList_charged (op : Op φ) : (op.charged heap).toList =
    (op.issued heap).toList.map fun h => (h, (op.perform heap).state.chargeOf h) := by
  rw [Op.charged]
  rcases hissued : op.issued heap with _ | h
  · rfl
  · obtain ⟨object, size, finalizer, granted, rfl, -, -, hh⟩ := hi.exists_of_issued hissued
    rw [Option.toList_some, List.map_cons, hh.chargeOf_eq]
    rfl

theorem exists_holds_of_charged (hcharged : op.charged heap = some (h, size)) :
    ∃ tag object, (op.perform heap).state.Holds h tag size object := by
  obtain ⟨object, finalizer, granted, rfl, hanswer⟩ := exists_allocate_of_charged hcharged
  exact ⟨object.tag, object, hi.holds_allocate hanswer⟩

/-- **One call** conserves charges. -/
theorem tally_perform (op : Op φ) : (op.returned heap ++ (op.perform heap).state.tally).Perm
    (heap.tally ++ (op.charged heap).toList) := by
  obtain ⟨goes, hreleased, hhandles⟩ := hi.exists_partition op
  have hleft : (op.perform heap).state.tally = (op.charged heap).toList ++
      (heap.handles.filter fun k => !goes k).map fun h => (h, heap.chargeOf h) := by
    rw [tally, hhandles, List.map_append, hi.toList_charged]
    refine congrArg _ (List.map_congr_left fun k hk => ?_)
    obtain ⟨hk, hstays⟩ := List.mem_filter.1 hk
    rw [hi.chargeOf_perform op (hi.wellFormed.live k hk)]
    rw [hreleased]
    intro hgoes
    simp [(List.mem_filter.1 hgoes).2] at hstays
  -- what goes and what stays is all there was, in another order
  have hparts := (List.filter_append_perm goes heap.handles).map fun h => (h, heap.chargeOf h)
  rw [List.map_append, ← hreleased, ← hi.returned_eq] at hparts
  rw [hleft]
  refine (List.perm_append_comm.append_left _).trans ?_
  rw [← List.append_assoc]
  exact hparts.append_right _

theorem totalCharge_perform (op : Op φ) :
    bytesOf (op.returned heap) + (op.perform heap).state.totalCharge =
      heap.totalCharge + bytesOf (op.charged heap).toList :=
  totalCharge_eq_of_perm (hi.tally_perform op)

end Call

/-! ### Histories -/

section History

variable (hi : heap.Intact) (ops : List (Op φ))
include hi

/-- **Every history** conserves charges. -/
theorem tally_run : (heap.returned ops ++ (heap.run ops).tally).Perm
    (heap.tally ++ heap.charged ops) := by
  induction ops generalizing heap with
  | nil => exact .of_eq (List.append_nil _).symm
  | cons op ops ih =>
    rw [returned_cons, run_cons, charged_cons, List.append_assoc]
    refine ((ih (hi.perform op)).append_left _).trans ?_
    rw [← List.append_assoc, ← List.append_assoc]
    exact (hi.tally_perform op).append_right _

theorem map_fst_charged : (heap.charged ops).map Prod.fst = heap.issued ops := by
  induction ops generalizing heap with
  | nil => rfl
  | cons op ops ih =>
    rw [charged_cons, issued_cons, List.map_append, ih (hi.perform op), hi.toList_charged,
      List.map_map]
    exact congrArg (· ++ _) (List.map_id _)

theorem length_charged : (heap.charged ops).length = (heap.issued ops).length := by
  rw [← hi.map_fst_charged, List.length_map]

theorem length_run : (heap.returned ops).length + (heap.run ops).handles.length =
    heap.handles.length + (heap.issued ops).length := by
  have hlength := (hi.tally_run ops).length_eq
  rw [List.length_append, List.length_append, hi.length_charged, tally, tally, List.length_map,
    List.length_map] at hlength
  exact hlength

theorem totalCharge_run : bytesOf (heap.returned ops) + (heap.run ops).totalCharge =
    heap.totalCharge + bytesOf (heap.charged ops) := totalCharge_eq_of_perm (hi.tally_run ops)

/-- The totals over the life of a heap count what was released. -/
theorem totals_run :
    (heap.run ops).stats.totalObjectsFreed =
        heap.stats.totalObjectsFreed + UInt64.ofNat (heap.returned ops).length ∧
      (heap.run ops).stats.totalBytesFreed =
        heap.stats.totalBytesFreed + UInt64.ofNat (bytesOf (heap.returned ops)) ∧
      (heap.run ops).stats.collections =
        heap.stats.collections + UInt64.ofNat (heap.cycles ops).length := by
  induction ops generalizing heap with
  | nil => exact ⟨(UInt64.add_zero _).symm, (UInt64.add_zero _).symm, (UInt64.add_zero _).symm⟩
  | cons op ops ih =>
    obtain ⟨hobjects, hbytes, hcollections⟩ := ih (hi.perform op)
    obtain ⟨hfreed, hgiven⟩ := hi.freed_eq op
    have hsettles := hi.settles op
    rw [run_cons, returned_cons, cycles_cons, bytesOf_append, List.length_append,
      List.length_append, UInt64.ofNat_add, UInt64.ofNat_add, UInt64.ofNat_add]
    refine ⟨?_, ?_, ?_⟩
    · rw [hobjects, hsettles.totalObjectsFreed, hfreed, UInt64.add_assoc]
    · rw [hbytes, hsettles.totalBytesFreed, hgiven, UInt64.add_assoc]
    · rw [hcollections, hsettles.collections, UInt64.add_assoc]

omit hi in
/-- What the sweeps answered adds up to a part of what was released, if every answer is that part of
what its sweep released and the sum fits in a word. -/
theorem sum_sweeps {part : SweepStats → UInt64} {total : List (Handle × UInt64) → Nat}
    (hnil : total [] = 0) (happend : ∀ l l', total (l ++ l') = total l + total l')
    (hpart : ∀ (heap : Heap φ) (op : Op φ), heap.Intact →
      (op.sweep? heap).elim 0 part = UInt64.ofNat (total (op.returned heap)))
    (hi : heap.Intact) (hfit : total (heap.returned ops) < UInt64.size) :
    ((heap.sweeps ops).map fun stats => (part stats).toNat).sum = total (heap.returned ops) := by
  induction ops generalizing heap with
  | nil => exact hnil.symm
  | cons op ops ih =>
    rw [returned_cons, happend] at hfit
    have hop := hpart heap op hi
    have hself : ((op.sweep? heap).toList.map fun stats => (part stats).toNat).sum =
        total (op.returned heap) := by
      rw [← UInt64.toNat_ofNat_of_lt' (by omega : total (op.returned heap) < UInt64.size), ← hop]
      rcases op.sweep? heap with _ | stats <;> rfl
    rw [sweeps_cons, List.map_append, List.sum_append, returned_cons, happend, hself,
      ih (hi.perform op) (by omega)]

/-! ### The peak -/

/-- The peak does not go down. -/
theorem peakBytes_le : heap.stats.peakBytes ≤ (heap.run ops).stats.peakBytes := by
  induction ops generalizing heap with
  | nil => exact UInt64.le_refl _
  | cons op ops ih =>
    refine UInt64.le_trans ?_ (ih (hi.perform op))
    rw [(hi.settles op).peakBytes]
    split
    · rw [UInt64.le_iff_toNat_le, Word.toNat_max]
      exact Nat.le_max_left _ _
    · exact UInt64.le_refl _

/-- The bytes do not go above the peak, as long as a word can hold them. -/
theorem bytesAllocated_le_peakBytes (hle : heap.bytesAllocated ≤ heap.stats.peakBytes)
    (hfit : heap.totalCharge + bytesOf (heap.charged ops) < UInt64.size) :
    (heap.run ops).bytesAllocated ≤ (heap.run ops).stats.peakBytes := by
  induction ops generalizing heap with
  | nil => exact hle
  | cons op ops ih =>
    have hself := hi.totalCharge_perform op
    rw [charged_cons, bytesOf_append] at hfit
    refine ih (hi.perform op) ?_ (by omega)
    rw [(hi.settles op).peakBytes]
    split
    · rw [UInt64.le_iff_toNat_le, Word.toNat_max]
      exact Nat.le_max_right _ _
    · -- nothing came in, so that the bytes can only have gone down
      rename_i hissued
      have hcharged : bytesOf (op.charged heap).toList = 0 := by
        rw [Op.charged, Option.not_isSome_iff_eq_none.1 hissued]
        rfl
      refine UInt64.le_trans ?_ hle
      rw [UInt64.le_iff_toNat_le, hi.wellFormed.toNat_bytesAllocated (by omega),
        (hi.perform op).wellFormed.toNat_bytesAllocated (by omega)]
      omega

/-- At no point of a history do they go above the peak that it leaves. -/
theorem bytesAllocated_le_of_prefix (hle : heap.bytesAllocated ≤ heap.stats.peakBytes)
    (hfit : heap.totalCharge + bytesOf (heap.charged ops) < UInt64.size) {before : List (Op φ)}
    (hbefore : before <+: ops) :
    (heap.run before).bytesAllocated ≤ (heap.run ops).stats.peakBytes := by
  obtain ⟨rest, rfl⟩ := hbefore
  have hcharged : heap.charged (before ++ rest) =
      heap.charged before ++ (heap.run before).charged rest := ledger_append _ heap before rest
  rw [hcharged, bytesOf_append] at hfit
  rw [run_append]
  exact UInt64.le_trans (hi.bytesAllocated_le_peakBytes before hle (by omega))
    ((hi.run before).peakBytes_le rest)

/-- The peak was there from the beginning, or was reached. -/
theorem peakBytes_reached : (heap.run ops).stats.peakBytes = heap.stats.peakBytes ∨
    ∃ before, before <+: ops ∧
      (heap.run before).bytesAllocated = (heap.run ops).stats.peakBytes := by
  induction ops generalizing heap with
  | nil => exact .inl rfl
  | cons op ops ih =>
    rcases ih (hi.perform op) with hsame | ⟨before, hbefore, hreached⟩
    · rw [(hi.settles op).peakBytes] at hsame
      split at hsame
      · rcases Word.max_eq_or heap.stats.peakBytes (op.perform heap).state.bytesAllocated with
          hstays | hrises
        · exact .inl (hsame.trans hstays)
        · exact .inr ⟨[op], List.cons_prefix_cons.2 ⟨rfl, List.nil_prefix⟩,
            (hsame.trans hrises).symm⟩
      · exact .inl hsame
    · exact .inr ⟨op :: before, List.cons_prefix_cons.2 ⟨rfl, hbefore⟩, hreached⟩

end History

end Intact

/-! ### Objects -/

/-- The object that a call puts in, if it does, gives back the bytes charged for it when a later
call releases it. -/
def GivesBack (heap : Heap φ) (op : Op φ) (more : List (Op φ)) : Prop :=
  ∀ h size, op.charged heap = some (h, size) → ∀ between last rest,
    more = between ++ last :: rest → h ∉ (op.perform heap).state.released between →
      h ∈ last.released ((op.perform heap).state.run between) →
        (last.returned ((op.perform heap).state.run between)).filter (fun c => c.1 = h) =
          [(h, size)]

theorem Intact.givesBack (hi : heap.Intact) (op : Op φ) (more : List (Op φ)) :
    heap.GivesBack op more := by
  intro h size hcharged between last rest _ hstays hreleased
  have hop := hi.perform op
  have hlast := hop.run between
  obtain ⟨tag, object, hh⟩ := hi.exists_holds_of_charged hcharged
  have hcharge := (hop.holds_run between hh hstays).chargeOf_eq
  have hself : (last.released ((op.perform heap).state.run between)).filter (fun k => k = h) =
      [h] := by
    rw [List.filter_eq, List.count_eq_one_of_mem (hlast.nodup_released last) hreleased]
    rfl
  rw [hlast.returned_eq last, List.filter_map, ← hcharge]
  exact congrArg (List.map _) hself

/-! ### The account is balanced -/

/-- **The counters of a heap are balanced** against the account of its history. -/
structure Balanced (start : Heap φ) (ops : List (Op φ)) : Prop where
  /-- What was put in is live, or gave back what was charged for it. -/
  charges : (start.returned ops ++ (start.run ops).tally).Perm (start.charged ops)
  /-- Live objects and released ones are those that were put in. -/
  objects : (start.run ops).objectsAllocated.toNat +
    (start.run ops).stats.totalObjectsFreed.toNat = (start.issued ops).length
  /-- Their bytes are those that were charged. -/
  bytes : (start.run ops).bytesAllocated.toNat + (start.run ops).stats.totalBytesFreed.toNat =
    bytesOf (start.charged ops)
  /-- The released objects are those that the sweeps answered. -/
  objects_swept : (start.run ops).stats.totalObjectsFreed.toNat =
    ((start.sweeps ops).map fun stats => stats.objectsFreed.toNat).sum
  /-- So are their bytes. -/
  bytes_swept : (start.run ops).stats.totalBytesFreed.toNat =
    ((start.sweeps ops).map fun stats => stats.bytesFreed.toNat).sum
  /-- The bytes were never above the peak. -/
  le_peak : ∀ before, before <+: ops →
    (start.run before).bytesAllocated ≤ (start.run ops).stats.peakBytes
  /-- They were there once. -/
  peak_reached : ∃ before, before <+: ops ∧
    (start.run before).bytesAllocated = (start.run ops).stats.peakBytes
  /-- The full collections that were completed are counted. -/
  collections : (start.run ops).stats.collections.toNat = (start.cycles ops).length
  /-- Every object gives back what was charged for it. -/
  gives_back : ∀ before op more, ops = before ++ op :: more → (start.run before).GivesBack op more

/-- **Objects and bytes are conserved.** After any history of calls, allocations with any charge
that succeed or fail, changes of payloads and checked stores, marking, sweeps, full collections and
the release of everything, the counters of a heap are balanced, if what was put in fits in a word,
by number and by bytes, and if the full collections can be counted in one. -/
theorem balanced_run (config : Config) (ops : List (Op φ))
    (hobjects : ((ofConfig config : Heap φ).issued ops).length < UInt64.size)
    (hbytes : bytesOf ((ofConfig config : Heap φ).charged ops) < UInt64.size)
    (hcycles : ((ofConfig config : Heap φ).cycles ops).length < UInt64.size) :
    (ofConfig config : Heap φ).Balanced ops := by
  have hi : (ofConfig config : Heap φ).Intact := .ofConfig config
  generalize hstart : (ofConfig config : Heap φ) = start at *
  have hhandles : start.handles = [] := by rw [← hstart]; rfl
  have hstats : start.stats = HeapStats.zero := by rw [← hstart]; rfl
  have hempty : start.bytesAllocated = 0 := by rw [← hstart]; rfl
  have hcharge : start.totalCharge = 0 := by rw [totalCharge, hhandles, charges_nil]
  have hw := (hi.run ops).wellFormed
  have hlength := hi.length_run ops
  have htotal := hi.totalCharge_run ops
  rw [hhandles, List.length_nil, Nat.zero_add] at hlength
  rw [hcharge, Nat.zero_add] at htotal
  obtain ⟨hreleased, hgiven, hcollections⟩ := hi.totals_run ops
  rw [hstats] at hreleased hgiven hcollections
  simp only [HeapStats.zero, UInt64.zero_add] at hreleased hgiven hcollections
  -- from here on, words are numbers
  have hreleased : (start.run ops).stats.totalObjectsFreed.toNat = (start.returned ops).length := by
    rw [hreleased, UInt64.toNat_ofNat_of_lt' (by omega)]
  have hgiven : (start.run ops).stats.totalBytesFreed.toNat = bytesOf (start.returned ops) := by
    rw [hgiven, UInt64.toNat_ofNat_of_lt' (by omega)]
  constructor
  case charges =>
    have htally : start.tally = [] := by rw [tally, hhandles, List.map_nil]
    have hperm := hi.tally_run ops
    rwa [htally] at hperm
  case objects => rw [hw.toNat_objectsAllocated, hreleased, Nat.add_comm, hlength]
  case bytes => rw [hw.toNat_bytesAllocated (by omega), hgiven, Nat.add_comm, htotal]
  case objects_swept =>
    rw [hreleased, Intact.sum_sweeps ops rfl (fun _ _ => List.length_append)
      (fun heap op hi => (hi.freed_eq op).1) hi (by omega)]
  case bytes_swept =>
    rw [hgiven, Intact.sum_sweeps ops rfl bytesOf_append (fun heap op hi => (hi.freed_eq op).2) hi
      (by omega)]
  case le_peak =>
    have hle : start.bytesAllocated ≤ start.stats.peakBytes := by
      rw [hempty, hstats]
      exact UInt64.le_refl _
    exact fun before => hi.bytesAllocated_le_of_prefix ops hle (by omega)
  case peak_reached =>
    refine (hi.peakBytes_reached ops).elim (fun hsame => ⟨[], List.nil_prefix, ?_⟩) id
    rw [hsame, hstats, run_nil, hempty]
    rfl
  case collections => rw [hcollections, UInt64.toNat_ofNat_of_lt' hcycles]
  case gives_back =>
    intro before op more _
    exact (hi.run before).givesBack op more

/-- A vector grows after it was charged for, an allocation is refused, and a slot is used again
after a full collection. -/
theorem balanced_run_grown_vector :
    let start : Heap Unit := ofConfig ⟨2, 64, 120, .adaptive⟩
    let ops : List (Op Unit) := [.allocate (.vectorInt #[]) 48 (some ()) true,
      .edit ⟨0, 0⟩ (Object.append #[1, 2, 3]), .allocate (.int 7) 100 none true,
      .allocate (.pair (some ⟨0, 0⟩) none) 72 none true, .collect ⟨none, [⟨0, 0⟩], []⟩,
      .allocate (.int 7) 32 none false, .releaseAll]
    (start.issued ops).length < UInt64.size ∧ bytesOf (start.charged ops) < UInt64.size ∧
      (start.cycles ops).length < UInt64.size ∧
      start.charged ops = [(⟨0, 0⟩, 48), (⟨1, 0⟩, 72), (⟨1, 1⟩, 32)] ∧
      start.returned ops = [(⟨1, 0⟩, 72), (⟨1, 1⟩, 32), (⟨0, 0⟩, 48)] ∧
      (start.run ops).stats.peakBytes = 120 ∧ start.Balanced ops := by
  intro start ops
  have hobjects : (start.issued ops).length < UInt64.size := by decide +kernel
  have hbytes : bytesOf (start.charged ops) < UInt64.size := by decide +kernel
  have hcycles : (start.cycles ops).length < UInt64.size := by decide +kernel
  exact ⟨hobjects, hbytes, hcycles, by decide +kernel, by decide +kernel, by decide +kernel,
    balanced_run _ ops hobjects hbytes hcycles⟩

end Heap

end MarkSweep
