import MarkSweep.Proofs.Machine.Accounting
import MarkSweep.Proofs.Machine.Soundness

/-!
# When memory is exhausted

The limit is tested twice on the way of an allocation: with garbage counted, to decide whether a
collection is called for, and again before the object is put in. Together the two tests come down
to one that mentions no garbage (`Sound.wouldExceed_prepared`): an allocation runs out of memory
exactly when what the roots and the operands reach takes up too much of the limit for the object.
The test with garbage cannot let an object pass that the other one would refuse, since garbage only
adds; and after a collection there is none.

A sum that exceeds the largest word is cut off there, which no limit can tell but the largest word
itself. So for that limit alone it is assumed that the sum fits in a word.
-/

namespace MarkSweep

variable {φ : Type}

namespace Heap

variable {heap after : Heap φ}

/-- An exact collection leaves the bytes of what was reachable. -/
theorem CollectsExactly.totalCharge_eq {roots : Roots} {cycle : CycleStats}
    (hc : heap.CollectsExactly roots after cycle) :
    after.totalCharge = heap.charges (heap.reachables roots.toList) := by
  rw [totalCharge, hc.handles_eq]
  refine charges_congr fun h hh => ?_
  have hreach : heap.Reachable roots.toList h := by
    classical
    simpa [reachables] using (List.mem_filter.1 hh).2
  obtain ⟨slot, next, hfind, hfind'⟩ := hc.keeps h hreach
  rw [chargeOf, (find?_eq_some_iff.1 hfind').1, chargeOf, (find?_eq_some_iff.1 hfind).1]
  rfl

theorem charges_reachables_le (heap : Heap φ) (roots : List Handle) :
    heap.charges (heap.reachables roots) ≤ heap.totalCharge :=
  charges_le_of_sublist List.filter_sublist

end Heap

namespace Machine

variable {m : Machine φ} {object : Object}

/-- The bytes charged for what the roots of a machine and the operands of an object reach. -/
noncomputable def held (m : Machine φ) (object : Object) : Nat :=
  m.heap.charges (m.heap.reachables (m.roots.toList ++ object.references))

namespace Sound

variable (hs : m.Sound) (hrefs : ∀ r ∈ object.references, m.heap.contains r)
  (hfit : m.heap.totalCharge < UInt64.size)
include hs hrefs hfit

/-- Without a collection the first test of the limit was passed, with garbage counted; after one no
garbage is left. -/
theorem prepared_cases :
    (m.prepared object = m.heap ∧ m.heap.wouldExceed object.size = false) ∨
    (∀ h, (m.prepared object).contains h ↔
        m.heap.Reachable (m.roots.toList ++ object.references) h) ∧
      (m.prepared object).bytesAllocated.toNat = m.held object := by
  rw [prepared]
  rcases hcollects : m.collectsFor object.size with _ | _
  · rw [collectsFor, Bool.or_eq_false_iff] at hcollects
    exact .inl ⟨rfl, hcollects.2⟩
  · have hroots : ∀ r ∈ (m.roots.extend object.references).toList, m.heap.contains r := by
      rw [toList_extend_roots]
      exact hs.live_append hrefs
    obtain ⟨cycle, -, hrest, hexact⟩ := hs.resting.collect hroots
    have htotal := hexact.totalCharge_eq
    rw [toList_extend_roots] at htotal
    refine .inr ⟨fun h => ?_, ?_⟩
    · rw [if_pos rfl, hexact.contains_iff, toList_extend_roots, and_iff_right_iff_imp]
      exact hs.resting.closed.reachesLive (hs.live_append hrefs) h
    · have hle := m.heap.charges_reachables_le (m.roots.toList ++ object.references)
      rw [if_pos rfl, hrest.wellFormed.toNat_bytesAllocated (by omega), htotal, held]

/-- **The test that decides** mentions no garbage. -/
theorem wouldExceed_prepared (hsum : m.heap.config.maxBytes = Word.largest →
      m.held object + object.size.toNat < UInt64.size) :
    (m.prepared object).wouldExceed object.size ↔ m.heap.config.maxBytes ≠ 0 ∧
      m.heap.config.maxBytes.toNat < m.held object + object.size.toNat := by
  have hconfig := (hs.allocate_eq hrefs none true).1.config_eq
  have hlimit := m.heap.config.maxBytes.toNat_lt
  have hsize : UInt64.size = 2 ^ 64 := rfl
  have hlargest : m.heap.config.maxBytes.toNat = Word.largest.toNat →
      m.held object + object.size.toNat < UInt64.size := fun heq => hsum (UInt64.toNat_inj.1 heq)
  rcases hs.prepared_cases hrefs hfit with ⟨heq, hpassed⟩ | ⟨-, hbytes⟩
  · -- what was passed with garbage counted is passed without
    have hbytes := hs.resting.wellFormed.toNat_bytesAllocated hfit
    have hle := m.heap.charges_reachables_le (m.roots.toList ++ object.references)
    rw [← held] at hle
    rw [heq, hpassed]
    rw [Bool.eq_false_iff, ne_eq, Heap.wouldExceed_iff, not_and, hbytes] at hpassed
    simp only [Bool.false_eq_true, false_iff, not_and, Word.toNat_largest] at hpassed hlargest ⊢
    intro hne
    have hpassed := hpassed hne
    omega
  · -- no garbage is left, so that only the cut at the largest word remains
    rw [Heap.wouldExceed_iff, hconfig, hbytes]
    simp only [Word.toNat_largest] at hlargest ⊢
    refine and_congr_right fun _ => ?_
    omega

/-- An allocation that the limit admits succeeds, if there is a slot. -/
theorem allocate_of_fits (hsum : m.heap.config.maxBytes = Word.largest →
      m.held object + object.size.toNat < UInt64.size) {granted : Bool}
    (hfits : m.heap.config.maxBytes = 0 ∨
      m.held object + object.size.toNat ≤ m.heap.config.maxBytes.toNat)
    (hslot : (m.prepared object).hasSlot granted) (finalizer : Option φ) :
    ∃ h, (m.allocate object finalizer granted).answer = .ok h := by
  obtain ⟨htrims, hanswer, -⟩ := hs.allocate_eq hrefs finalizer granted
  have hlive (r : Handle) (hr : r ∈ object.references) : (m.prepared object).contains r :=
    (htrims.keeps r (.root (List.mem_append_right _ hr) trivial)).contains
  rw [hanswer]
  rcases htrims.resting.allocate hlive object.size finalizer granted with
    ⟨cause, -, hrefused, -⟩ | ⟨h, hok, -⟩
  · rw [hs.wouldExceed_prepared hrefs hfit hsum, hslot] at hrefused
    rcases hrefused with ⟨hlimited, hlt⟩ | hslot
    · exact absurd hfits (not_or.2 ⟨hlimited, Nat.not_le.2 hlt⟩)
    · cases hslot
  · exact ⟨h, hok⟩

/-- An allocation that the limit does not admit is refused, after a collection. -/
theorem allocate_of_exhausted (hsum : m.heap.config.maxBytes = Word.largest →
      m.held object + object.size.toNat < UInt64.size) (hlimited : m.heap.config.maxBytes ≠ 0)
    (hexhausted : m.heap.config.maxBytes.toNat < m.held object + object.size.toNat)
    (finalizer : Option φ) (granted : Bool) :
    (m.allocate object finalizer granted).answer = .error (.outOfMemory
        ⟨object.size, UInt64.ofNat (m.held object), m.heap.config.maxBytes⟩) ∧
      (m.allocate object finalizer granted).state = m.withHeap (m.prepared object) ∧
      ∀ h, (m.prepared object).contains h ↔
        m.heap.Reachable (m.roots.toList ++ object.references) h := by
  obtain ⟨htrims, hanswer, hstate⟩ := hs.allocate_eq hrefs finalizer granted
  have hlive (r : Handle) (hr : r ∈ object.references) : (m.prepared object).contains r :=
    (htrims.keeps r (.root (List.mem_append_right _ hr) trivial)).contains
  have hexceeds := (hs.wouldExceed_prepared hrefs hfit hsum).2 ⟨hlimited, hexhausted⟩
  have hrefused : (m.prepared object).allocate object object.size finalizer granted =
      .quiet (.error (.outOfMemory ((m.prepared object).outOfMemory object.size)))
        (m.prepared object) := by
    rw [Heap.allocate, Heap.stale?_eq_none_iff.2 hlive, hexceeds]
    rfl
  rcases hs.prepared_cases hrefs hfit with ⟨heq, hpassed⟩ | ⟨hcontains, hbytes⟩
  · -- without a collection the limit was tested already
    rw [heq, hpassed] at hexceeds
    cases hexceeds
  · refine ⟨?_, by rw [hstate, hrefused]; rfl, hcontains⟩
    rw [hanswer, hrefused, Heap.outOfMemory, ← hbytes, UInt64.ofNat_toNat, htrims.config_eq]
    rfl

end Sound

/-- **Memory is exhausted when it is really exhausted.** Take a machine after any history of orderly
calls, with any run flag and instruction pointer, and an object whose operands are live. If what the
roots and the operands reach leaves room for the object under the limit, or if there is no limit,
the allocation succeeds, unless the arena is refused a slot. Otherwise it reports what was
requested, what is reachable and the limit, and what is live then is what was reachable, as it was.
Either way the operand stack, the environment, the instruction pointer and the run flag are left
alone.

Orderly are all calls of the machine with live handles, and those of its heap with live handles that
write no reference unchecked and that collect with the roots of the machine among theirs. Left out
are a bare mark, a bare sweep and the release of all objects through the heap of the machine: the
first leaves colours over, and the other two may leave the machine with stale handles. -/
theorem allocate_exhaustion_run (config : Config) (calls : List (Call φ))
    (horderly : (ofConfig config : Machine φ).OrderlyCalls calls) {m : Machine φ}
    {isRunning : Bool} {ip : Label}
    (hm : { (ofConfig config : Machine φ).runCalls calls with isRunning, ip } = m)
    (object : Object) (hrefs : ∀ r ∈ object.references, m.heap.contains r)
    (hfit : m.heap.totalCharge < UInt64.size)
    (hsum : config.maxBytes = Word.largest →
      m.held object + object.size.toNat < UInt64.size)
    (finalizer : Option φ) (granted : Bool) :
    let o := m.allocate object finalizer granted
    (config.maxBytes = 0 ∨ m.held object + object.size.toNat ≤ config.maxBytes.toNat →
      (m.prepared object).hasSlot granted → ∃ h, o.answer = .ok h) ∧
    (config.maxBytes ≠ 0 → config.maxBytes.toNat < m.held object + object.size.toNat →
      o.answer = .error (.outOfMemory
        ⟨object.size, UInt64.ofNat (m.held object), config.maxBytes⟩) ∧
      (UInt64.ofNat (m.held object)).toNat = m.held object ∧
      ∀ h, (o.state.heap.contains h ↔
          m.heap.Reachable (m.roots.toList ++ object.references) h) ∧
        (o.state.heap.contains h → m.heap.Keeps o.state.heap h)) ∧
    o.state.stack = m.stack ∧ o.state.env = m.env ∧ o.state.ip = m.ip ∧
      o.state.isRunning = m.isRunning := by
  intro o
  have hrun : ((ofConfig config : Machine φ).runCalls calls).Sound :=
    (Sound.ofConfig config).run_orderly horderly
  -- neither of the two registers matters
  have hs : m.Sound := hm ▸ ⟨hrun.resting, hrun.roots_live⟩
  have hconfig : m.heap.config = config := hm ▸ config_runCalls (Heap.Intact.ofConfig config) calls
  obtain ⟨htrims, -, hstate⟩ := hs.allocate_eq hrefs finalizer granted
  rw [← hconfig] at hsum ⊢
  refine ⟨fun hfits hslot => hs.allocate_of_fits hrefs hfit hsum hfits hslot finalizer, ?_, ?_⟩
  · intro hlimited hexhausted
    obtain ⟨hanswer, hsame, hcontains⟩ :=
      hs.allocate_of_exhausted hrefs hfit hsum hlimited hexhausted finalizer granted
    have hle := m.heap.charges_reachables_le (m.roots.toList ++ object.references)
    refine ⟨hanswer, UInt64.toNat_ofNat_of_lt' (Nat.lt_of_le_of_lt hle hfit), fun h => ?_⟩
    rw [hsame]
    exact ⟨hcontains h, htrims.keeps_of_contains h⟩
  · rw [hstate]
    exact ⟨rfl, rfl, rfl, rfl⟩

/-- With a limit of 100 bytes, of which a pair on the operand stack takes up 40 and garbage, put in
behind the back of the machine, 32, there is room for another pair, but not for a string of 40
bytes. -/
theorem allocate_exhaustion_run_garbage :
    let config : Config := ⟨10, 1000, 100, .adaptive⟩
    let calls : List (Call Unit) := [.ofMachine (.allocate (.pair none none) none true),
      .ofMachine (.push ⟨0, 0⟩ true), .ofHeap (.allocate (.int 3) 32 (some ()) true)]
    let m : Machine Unit := { (ofConfig config).runCalls calls with isRunning := false, ip := 5 }
    let text : Object := .str ⟨Array.replicate 40 0⟩
    (ofConfig config : Machine Unit).OrderlyCalls calls ∧ m.heap.totalCharge = 72 ∧
      (∃ h, (m.allocate (.pair (some ⟨0, 0⟩) none) none true).answer = .ok h) ∧
      (m.allocate text none true).answer = .error (.outOfMemory ⟨72, 40, 100⟩) ∧
      ∀ h, (m.allocate text none true).state.heap.contains h ↔ h = ⟨0, 0⟩ := by
  intro config calls m text
  have horderly : (ofConfig config : Machine Unit).OrderlyCalls calls := by
    refine ⟨?_, ?_, ?_, trivial⟩
    · show Op.Live _ _
      decide +kernel
    · show Op.Live _ _
      decide +kernel
    · rintro r ⟨⟩
  have hfit : m.heap.totalCharge = 72 := by decide +kernel
  have hroots : m.roots.toList = [⟨0, 0⟩] := by decide +kernel
  have hget : m.heap.get? ⟨0, 0⟩ = some (.pair none none) := by decide +kernel
  have hhandles : m.heap.handles = [⟨1, 0⟩, ⟨0, 0⟩] := by decide +kernel
  -- the pair on the operand stack refers to nothing
  have hreach (refs : List Handle) (hrefs : ∀ r ∈ refs, r = ⟨0, 0⟩) (h : Handle) :
      m.heap.Reachable (m.roots.toList ++ refs) h ↔ h = ⟨0, 0⟩ := by
    rw [hroots]
    constructor
    · refine fun hr => hr.mem_of_closed (s := fun k => k = ⟨0, 0⟩) (fun k hk _ => ?_) ?_
      · rcases List.mem_append.1 hk with hk | hk
        · exact List.mem_singleton.1 hk
        · exact hrefs k hk
      · rintro a b rfl ⟨slot, tag, object, hfind, -, -, hobject, hb⟩ -
        obtain rfl := Option.some.inj (hget.symm.trans (Heap.get?_of_find? hfind hobject))
        cases hb
    · rintro rfl
      exact .root (List.mem_append_left _ List.mem_cons_self) trivial
  have hheld (object : Object) (hrefs : ∀ r ∈ object.references, r = ⟨0, 0⟩) :
      m.held object = 40 := by
    have hreachables : m.heap.reachables (m.roots.toList ++ object.references) = [⟨0, 0⟩] := by
      simp [Heap.reachables, hreach _ hrefs, hhandles]
    rw [held, hreachables]
    decide +kernel
  have hpair := hheld (.pair (some ⟨0, 0⟩) none) (by decide)
  have htext := hheld text (by decide)
  have hunlimited (object : Object) : config.maxBytes = Word.largest →
      m.held object + object.size.toNat < UInt64.size := fun heq => absurd heq (by decide)
  obtain ⟨hfits, -, -⟩ := allocate_exhaustion_run config calls horderly (m := m) rfl
    (.pair (some ⟨0, 0⟩) none) (by decide +kernel) (hfit ▸ by decide) (hunlimited _) none true
  obtain ⟨-, hexhausted, -⟩ := allocate_exhaustion_run config calls horderly (m := m) rfl text
    (by decide +kernel) (hfit ▸ by decide) (hunlimited _) none true
  rw [hpair] at hfits
  rw [htext] at hexhausted
  obtain ⟨hanswer, -, hcontains⟩ := hexhausted (by decide) (by decide)
  refine ⟨horderly, hfit, hfits (.inr (by decide)) (by decide +kernel), hanswer, fun h => ?_⟩
  rw [(hcontains h).1]
  exact hreach text.references (by decide) h

end Machine

end MarkSweep
