import MarkSweep.Machine.Program
import MarkSweep.Proofs.Machine.Soundness

/-!
# Commands on sound machines

A command names live objects only, since all it names are roots. On a sound machine without a limit
on allocated bytes the commands therefore come down to a few plain cases: an allocation pushes a new
object after a collection or after nothing (`Ready.performCommand_allocate`), a store writes to a
live object (`Ready.performCommand_store`), and the rest moves roots. `Ready.performCommand` and
`Ready.collect_eq` say that the machine is left as sound as it was.
-/

namespace MarkSweep

/-- A filled shape holds no other references. -/
theorem Object.mem_references_fill {refs : RefField → Option Handle} {shape : Object} {a : Handle}
    (ha : a ∈ (shape.fill refs).references) : ∃ field, a ∈ refs field := by
  rcases shape
  case pair =>
    rcases List.mem_append.1 ha with ha | ha
    · exact ⟨_, Option.mem_toList.1 ha⟩
    · exact ⟨_, Option.mem_toList.1 ha⟩
  case tagged => exact ⟨_, Option.mem_toList.1 ha⟩
  case closure => exact ⟨_, Option.mem_toList.1 ha⟩
  all_goals cases ha

namespace Machine

variable {φ : Type} {m : Machine φ}

/-- A slot at a depth is a root. -/
theorem mem_roots_of_peekNth {depth : UInt64} {h : Handle} (hpeek : m.stack.peekNth depth = .ok h) :
    h ∈ m.roots.toList := by
  rw [Stack.peekNth_eq] at hpeek
  rcases hget : m.stack.toList.reverse[depth.toNat]? with _ | k
  · rw [hget] at hpeek
    cases hpeek
  · rw [hget] at hpeek
    obtain rfl := Except.ok.inj hpeek
    exact mem_roots_iff.2 (.inr (List.mem_reverse.1 (List.mem_of_getElem? hget)))

/-- What an operand names is a root. -/
theorem mem_roots_of_resolve {operand : Operand} {ref : Option Handle}
    (hresolve : m.resolve operand = .ok ref) {h : Handle} (hh : h ∈ ref) : h ∈ m.roots.toList := by
  rcases operand with _ | _ | depth
  · obtain rfl := Except.ok.inj hresolve
    cases hh
  · obtain rfl := Except.ok.inj hresolve
    exact mem_roots_iff.2 (.inl hh)
  · rcases hpeek : m.stack.peekNth depth with e | k
    · rw [resolve, hpeek] at hresolve
      cases hresolve
    · rw [resolve, hpeek] at hresolve
      obtain rfl := Except.ok.inj hresolve
      obtain rfl := Option.some.inj hh
      exact mem_roots_of_peekNth hpeek

/-- The pop command answers the top handle, and underflows exactly when there is none. -/
theorem performCommand_pop (m : Machine φ) :
    m.performCommand .pop = match m.stack.toList.getLast? with
      | none => (.underflow, m)
      | some h => (.gave h,
          ⟨m.heap, { m.stack with slots := m.stack.slots.pop }, m.env, m.isRunning, m.ip⟩) := by
  rcases hlast : m.stack.toList.getLast? with _ | h <;>
    simp [Machine.performCommand, Machine.pop, Stack.pop_eq, hlast, Outcome.quiet]

theorem resolve_withHeap (m : Machine φ) (heap : Heap φ) (operand : Operand) :
    (m.withHeap heap).resolve operand = m.resolve operand := by
  rcases operand <;> rfl

/-- A sound machine without a limit on allocated bytes. -/
structure Ready (m : Machine φ) : Prop where
  sound : m.Sound
  unlimited : m.heap.config.maxBytes = 0

namespace Ready

theorem ofConfig {config : Config} (hlimit : config.maxBytes = 0) :
    (Machine.ofConfig config : Machine φ).Ready :=
  ⟨.ofConfig config, hlimit⟩

variable (hr : m.Ready)
include hr

theorem of_trims {heap : Heap φ} {roots : List Handle} (ht : m.heap.Trims roots heap)
    (hroots : ∀ h ∈ m.roots.toList, h ∈ roots) : (m.withHeap heap).Ready :=
  ⟨.of_trims ht hroots, (congrArg Config.maxBytes ht.config_eq).trans hr.unlimited⟩

theorem collect_eq : ∃ heap, m.heap.Trims m.roots.toList heap ∧
    (m.collect none).state = m.withHeap heap := by
  have hlist : (m.roots.extend []).toList = m.roots.toList := by
    rw [toList_extend_roots, List.append_nil]
  have hroots : ∀ r ∈ (m.roots.extend []).toList, m.heap.contains r := by
    rw [hlist]
    exact hr.sound.roots_live
  have htrims := hr.sound.resting.trims_collect hroots
  exact ⟨_, hlist ▸ htrims, rfl⟩

/-- Without a limit an allocation goes through where the arena has a slot, after a collection or
after nothing. -/
theorem allocate {object : Object} (hrefs : ∀ r ∈ object.references, m.heap.contains r)
    (hslot : m.heap.hasSlot true) :
    ∃ heap h after, m.heap.Trims (m.roots.toList ++ object.references) heap ∧
      heap.Gains object object.size h after ∧ (m.allocate object none true).answer = .ok h ∧
      (m.allocate object none true).state = m.withHeap after := by
  obtain ⟨htrims, hanswer, hstate⟩ := hr.sound.allocate_eq hrefs none true
  generalize m.prepared object = heap at htrims hanswer hstate
  have hlive (r : Handle) (hr : r ∈ object.references) : heap.contains r :=
    (htrims.keeps r (.root (List.mem_append_right _ hr) trivial)).contains
  rcases htrims.resting.allocate hlive object.size none true with
    ⟨cause, -, hrefused, -⟩ | ⟨h, heq, hgains⟩
  · -- neither a limit nor the arena can be the cause
    have hlimit : heap.wouldExceed object.size = false := by
      simp [Heap.wouldExceed, htrims.config_eq, hr.unlimited]
    rw [hlimit, htrims.hasSlot true hslot] at hrefused
    simp at hrefused
  · exact ⟨heap, h, _, htrims, hgains, hanswer.trans heq, hstate⟩

/-- **The allocation command** pushes a new object, after a collection or after nothing. -/
theorem performCommand_allocate (hgrow : m.canGrow) (shape : Object) {lhs rhs : Operand}
    {first second : Option Handle} (hfirst : m.resolve lhs = .ok first)
    (hsecond : m.resolve rhs = .ok second) :
    ∃ roots heap h after stack, (∀ k ∈ m.roots.toList, k ∈ roots) ∧ m.heap.Trims roots heap ∧
      heap.Gains (shape.fill (assign first second)) shape.size h after ∧
      stack.toList = m.stack.toList ++ [h] ∧
      m.performCommand (.allocate shape lhs rhs) =
        (.gave h, ⟨after, stack, m.env, m.isRunning, m.ip⟩) := by
  rw [canGrow, Bool.and_eq_true] at hgrow
  obtain ⟨hslot, hgrow⟩ := hgrow
  have hrefs (k : Handle) (hk : k ∈ (shape.fill (assign first second)).references) :
      m.heap.contains k := by
    obtain ⟨field, hfield⟩ := Object.mem_references_fill hk
    refine hr.sound.roots_live k ?_
    rcases field
    case rhs => exact mem_roots_of_resolve hsecond hfield
    all_goals exact mem_roots_of_resolve hfirst hfield
  obtain ⟨heap, h, after, htrims, hgains, hanswer, hstate⟩ := hr.allocate hrefs hslot
  obtain ⟨stack, events, hpush, hlist⟩ := Stack.push_of_granted φ hgrow h
  have hsize : (shape.fill (assign first second)).size = shape.size := by
    rcases shape <;> rfl
  rw [hsize] at hgains
  refine ⟨_, heap, h, after, stack, fun k hk => List.mem_append_left _ hk, htrims, hgains, hlist,
    ?_⟩
  have hpushed : (m.withHeap after).push h true =
      ⟨.ok (), ⟨after, stack, m.env, m.isRunning, m.ip⟩, events⟩ :=
    congrArg (Outcome.mapState (Machine.mk after · m.env m.isRunning m.ip)) hpush
  simp only [performCommand, hfirst, hsecond, hanswer, hstate, hpushed]

/-- **The store command** is a plain store between live objects. -/
theorem performCommand_store {depth : UInt64} {field : RefField} {source : Operand}
    {target : Handle} {ref : Option Handle} {old : Object}
    (htarget : m.stack.peekNth depth = .ok target) (href : m.resolve source = .ok ref)
    (hget : m.heap.get? target = some old) :
    m.performCommand (.store depth field source) = match old.store field ref with
      | none => (.stored false, m)
      | some new => (.stored true, m.withHeap (m.heap.withObject target new)) := by
  have hrefs : ∀ r ∈ ref.toList, m.heap.contains r := fun r hmem =>
    hr.sound.roots_live r (mem_roots_of_resolve href (Option.mem_toList.1 hmem))
  have hstore := Heap.store_of_live hrefs hget field
  rcases hnew : old.store field ref with _ | new
  · rw [hnew] at hstore
    simp [performCommand, htarget, href, hstore, Outcome.quiet, withHeap]
  · rw [hnew] at hstore
    simp [performCommand, htarget, href, hstore, Outcome.quiet]

/-- A new object on the operand stack, after a collection or after nothing. -/
theorem of_gains {roots : List Handle} {heap after : Heap φ} {object : Object} {size : UInt64}
    {h : Handle} {stack : Stack Handle} (hroots : ∀ k ∈ m.roots.toList, k ∈ roots)
    (htrims : m.heap.Trims roots heap) (hgains : heap.Gains object size h after)
    (hlist : stack.toList = m.stack.toList ++ [h]) :
    (⟨after, stack, m.env, m.isRunning, m.ip⟩ : Machine φ).Ready := by
  have htrimmed := hr.of_trims htrims hroots
  have hkept (k : Handle) (hk : k ∈ m.roots.toList) : after.contains k :=
    (hgains.keeps k (htrimmed.sound.roots_live k hk)).contains
  refine ⟨⟨hgains.resting, ?_⟩, ?_⟩
  · intro k hk
    rcases mem_roots_iff.1 hk with hk | hk
    · exact hkept k (mem_roots_iff.2 (.inl hk))
    · rw [hlist] at hk
      rcases List.mem_append.1 hk with hk | hk
      · exact hkept k (mem_roots_iff.2 (.inr hk))
      · rw [List.mem_singleton.1 hk]
        exact Heap.contains_of_find? hgains.find?_self
  · exact (congrArg Config.maxBytes hgains.config_eq).trans htrimmed.unlimited

/-- A write of a reference that a root holds. -/
theorem withObject {target : Handle} {field : RefField} {ref : Option Handle} {old new : Object}
    (hget : m.heap.get? target = some old) (hnew : old.store field ref = some new)
    (href : ∀ k ∈ ref, k ∈ m.roots.toList) : (m.withHeap (m.heap.withObject target new)).Ready := by
  refine ⟨⟨hr.sound.resting.withObject hget (Object.tag_of_store hnew) ?_, ?_⟩, hr.unlimited⟩
  · intro k hk
    rcases Object.mem_references_of_store hnew hk with hk | hk
    · exact hr.sound.resting.closed target old hget k hk
    · exact hr.sound.roots_live k (href k hk)
  · intro k hk
    exact (Heap.contains_withObject hget k).trans (hr.sound.roots_live k hk)

/-- A command leaves a machine that programs can run on. -/
theorem performCommand (hgrow : m.canGrow) (c : Command) : (m.performCommand c).2.Ready := by
  rcases c with ⟨shape, lhs, rhs⟩ | _ | size | source | ⟨depth, field, source⟩
  · rcases hlhs : m.resolve lhs with e | first
    · simpa [Machine.performCommand, hlhs] using hr
    rcases hrhs : m.resolve rhs with e | second
    · simpa [Machine.performCommand, hlhs, hrhs] using hr
    obtain ⟨roots, heap, h, after, stack, hroots, htrims, hgains, hlist, heq⟩ :=
      hr.performCommand_allocate hgrow shape hlhs hrhs
    rw [heq]
    exact hr.of_gains hroots htrims hgains hlist
  · rw [performCommand_pop]
    split
    · exact hr
    · refine ⟨⟨hr.sound.resting, ?_⟩, hr.unlimited⟩
      intro k hk
      refine hr.sound.roots_live k (mem_roots_iff.2 ?_)
      rw [mem_roots_iff, Stack.toList_pop] at hk
      exact hk.imp_right fun hk => List.dropLast_subset _ hk
  · exact ⟨(hr.sound.truncate size).sound, hr.unlimited⟩
  · rcases hsource : m.resolve source with e | ref
    · simpa [Machine.performCommand, hsource] using hr
    · simp only [Machine.performCommand, hsource]
      have hlive : (Op.setEnv ref : Op φ).Live m := fun h hh =>
        hr.sound.roots_live h (mem_roots_of_resolve hsource (Option.mem_toList.1 hh))
      exact ⟨(hr.sound.setEnv hlive).sound, hr.unlimited⟩
  · rcases hpeek : m.stack.peekNth depth with e | target
    · simpa [Machine.performCommand, hpeek] using hr
    rcases hsource : m.resolve source with e | ref
    · simpa [Machine.performCommand, hpeek, hsource] using hr
    have hlive := hr.sound.roots_live target (mem_roots_of_peekNth hpeek)
    obtain ⟨old, hget⟩ := Heap.exists_get?_of_contains hlive
    rw [hr.performCommand_store hpeek hsource hget]
    rcases hnew : old.store field ref with _ | new
    · exact hr
    · exact hr.withObject hget hnew fun k hk => mem_roots_of_resolve hsource hk

end Ready

end Machine

end MarkSweep
