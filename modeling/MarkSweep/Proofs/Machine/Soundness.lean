import MarkSweep.Machine.History
import MarkSweep.Proofs.Heap.Resting
import MarkSweep.Proofs.Stack.Push

/-!
# No dangling references

A machine is sound when its heap is at rest and its roots are live. Every call with live handles
keeps it sound and does not fault, and what is reachable from the roots and from the handles that
are passed comes out of the call as it went in, but for the target of a write (`Sound.perform`).
So it is for every history of such calls, whichever of them collect. Calls of its heap keep the
machine sound as well, if they are orderly (`Sound.orderly`).

An allocation is a plain allocation after a collection or after nothing (`Sound.allocate_eq`), and
that collection is rooted at the operands too.
-/

namespace MarkSweep.Machine

variable {φ : Type} {m : Machine φ}

/-! ### Roots -/

theorem mem_roots_iff {h : Handle} : h ∈ m.roots.toList ↔ h ∈ m.env ∨ h ∈ m.stack.toList := by
  simp [roots, Roots.make, Roots.toList]

@[simp]
theorem toList_extend_roots (m : Machine φ) (hs : List Handle) :
    (m.roots.extend hs).toList = m.roots.toList ++ hs := by
  simp [roots, Roots.make, Roots.extend, Roots.toList]

/-! ### The invariant -/

/-- A machine without dangling references. -/
structure Sound (m : Machine φ) : Prop where
  /-- The heap has none. -/
  resting : m.heap.Resting
  /-- The roots are live. -/
  roots_live : ∀ r ∈ m.roots.toList, m.heap.contains r

theorem Sound.ofConfig (config : Config) : (Machine.ofConfig config : Machine φ).Sound where
  resting := .ofConfig config
  roots_live := by simp [mem_roots_iff, Machine.ofConfig, Stack.withCapacity, Stack.toList]

/-- A collection that counts the roots leaves no dangling references. -/
theorem Sound.of_trims {heap : Heap φ} {roots : List Handle} (ht : m.heap.Trims roots heap)
    (hroots : ∀ h ∈ m.roots.toList, h ∈ roots) : (m.withHeap heap).Sound :=
  ⟨ht.resting, fun r hr => (ht.keeps r (.root (hroots r hr) trivial)).contains⟩

/-- The object that a call may write to. -/
def Op.target : Op φ → Option Handle
  | store target _ _ => some target
  | append target _ => some target
  | _ => none

/-- **What a call may do**: it does not fault, it leaves no dangling references, and what the roots
and the handles that are passed keep alive stays as it is, but for the target of a write. -/
structure Op.Safe (m : Machine φ) (op : Op φ) : Prop where
  /-- No reference dangles afterwards. -/
  sound : (op.perform m).state.Sound
  /-- It does not fault. -/
  faultless : ∀ fault, (op.perform m).answer ≠ .error (.allocation (.fault fault))
  /-- What is kept alive stays live. -/
  contains : ∀ h, m.heap.Reachable (m.roots.toList ++ op.handles) h →
    (op.perform m).state.heap.contains h
  /-- It stays as it is, unless it is written to. -/
  keeps : ∀ h, m.heap.Reachable (m.roots.toList ++ op.handles) h → op.target ≠ some h →
    m.heap.Keeps (op.perform m).state.heap h

/-- A call is safe that writes to nothing which the roots and the handles that are passed keep
alive. -/
theorem Op.Safe.of_keeps {op : Op φ} (hrest : (op.perform m).state.heap.Resting)
    (hroots : ∀ r ∈ (op.perform m).state.roots.toList, r ∈ m.roots.toList ++ op.handles)
    (hkeeps : ∀ h, m.heap.Reachable (m.roots.toList ++ op.handles) h →
      m.heap.Keeps (op.perform m).state.heap h)
    (hanswer : ∀ fault, (op.perform m).answer ≠ .error (.allocation (.fault fault))) :
    op.Safe m where
  sound := ⟨hrest, fun r hr => (hkeeps r (.root (hroots r hr) trivial)).contains⟩
  faultless := hanswer
  contains := fun h hh => (hkeeps h hh).contains
  keeps := fun h hh _ => hkeeps h hh

namespace Sound

variable (hs : m.Sound)
include hs

theorem live_append {handles : List Handle} (hlive : ∀ h ∈ handles, m.heap.contains h) :
    ∀ r ∈ m.roots.toList ++ handles, m.heap.contains r := by
  intro r hr
  rcases List.mem_append.1 hr with hr | hr
  · exact hs.roots_live r hr
  · exact hlive r hr

/-! ### Calls that leave the heap alone -/

theorem safe_of_heap_eq {op : Op φ} (hlive : op.Live m)
    (hheap : (op.perform m).state.heap = m.heap)
    (hroots : ∀ r ∈ (op.perform m).state.roots.toList, r ∈ m.roots.toList ++ op.handles)
    (hanswer : ∀ fault, (op.perform m).answer ≠ .error (.allocation (.fault fault))) :
    op.Safe m := by
  have hreach := hs.resting.closed.reachesLive (hs.live_append hlive)
  refine .of_keeps ?_ hroots ?_ hanswer
  · rw [hheap]
    exact hs.resting
  · intro h hh
    rw [hheap]
    exact .refl (hreach h hh)

/-- A call that leaves the whole machine alone. -/
theorem safe_of_state_eq {op : Op φ} (hlive : op.Live m) (hstate : (op.perform m).state = m)
    (hanswer : ∀ fault, (op.perform m).answer ≠ .error (.allocation (.fault fault))) :
    op.Safe m := by
  refine hs.safe_of_heap_eq hlive (by rw [hstate]) (fun r hr => ?_) hanswer
  rw [hstate] at hr
  exact List.mem_append_left _ hr

theorem push {h : Handle} (granted : Bool) (hlive : (Op.push h granted : Op φ).Live m) :
    (Op.push h granted).Safe m := by
  rcases m.stack.push_cases φ h granted with ⟨stack, events, hpush, hlist, -⟩ | ⟨e, hpush⟩
  · refine hs.safe_of_heap_eq hlive ?_ ?_ fun fault => ?_
    · simp [Op.perform, Machine.push, hpush]
    · intro r hr
      simp only [Op.perform, Machine.push, state_onStack, hpush, mem_roots_iff, hlist] at hr
      rw [List.mem_append, mem_roots_iff]
      rcases hr with hr | hr
      · exact .inl (.inl hr)
      · exact (List.mem_append.1 hr).imp_left .inr
    · simp [Op.perform, Machine.push, hpush, Except.map, Except.mapError]
  · refine hs.safe_of_state_eq hlive ?_ fun fault => ?_
    · simp [Op.perform, Machine.push, hpush, Outcome.quiet]
    · simp [Op.perform, Machine.push, hpush, Outcome.quiet, Except.map, Except.mapError]

theorem pop : (Op.pop : Op φ).Safe m := by
  have hlive : (Op.pop : Op φ).Live m := by simp [Op.Live, Op.handles]
  rcases hpop : m.stack.toList.getLast? with _ | h
  · refine hs.safe_of_state_eq hlive ?_ fun fault => ?_
    · simp [Op.perform, Machine.pop, Stack.pop_eq, hpop, Outcome.quiet]
    · simp [Op.perform, Machine.pop, Stack.pop_eq, hpop, Outcome.quiet, Except.map, Except.mapError]
  · refine hs.safe_of_heap_eq hlive ?_ ?_ fun fault => ?_
    · simp [Op.perform, Machine.pop]
    · intro r hr
      simp only [Op.perform, Machine.pop, state_onStack, Stack.pop_eq, hpop, Outcome.quiet,
        mem_roots_iff, Stack.toList_pop] at hr
      rw [List.mem_append, mem_roots_iff]
      exact .inl (hr.imp_right fun hr => List.dropLast_subset _ hr)
    · simp [Op.perform, Machine.pop, Stack.pop_eq, hpop, Outcome.quiet, Except.map, Except.mapError]

theorem truncate (size : UInt64) : (Op.truncate size : Op φ).Safe m := by
  refine hs.safe_of_heap_eq (by simp [Op.Live, Op.handles]) rfl (fun r hr => ?_) fun fault => by
    simp [Op.perform, Outcome.quiet]
  simp only [Op.perform, Outcome.quiet, Machine.truncate, mem_roots_iff,
    Stack.toList_truncate] at hr
  rw [List.mem_append, mem_roots_iff]
  exact .inl (hr.imp_right List.mem_of_mem_take)

theorem clear : (Op.clear : Op φ).Safe m := by
  refine hs.safe_of_heap_eq (by simp [Op.Live, Op.handles]) rfl (fun r hr => ?_) fun fault => by
    simp [Op.perform, Outcome.quiet]
  simp only [Op.perform, Outcome.quiet, Machine.clear, mem_roots_iff, Stack.toList_clear] at hr
  rw [List.mem_append, mem_roots_iff]
  exact .inl (hr.imp_right fun hr => absurd hr List.not_mem_nil)

theorem setEnv {env : Option Handle} (hlive : (Op.setEnv env : Op φ).Live m) :
    (Op.setEnv env).Safe m := by
  refine hs.safe_of_heap_eq hlive rfl (fun r hr => ?_) fun fault => by
    simp [Op.perform, Outcome.quiet]
  simp only [Op.perform, Outcome.quiet, Machine.withEnv, mem_roots_iff] at hr
  rw [List.mem_append, mem_roots_iff]
  rcases hr with hr | hr
  · exact .inr (by simpa [Op.handles] using hr)
  · exact .inl (.inr hr)

/-! ### Calls that collect -/

theorem collect {extra : Option Handle} (hlive : (Op.collect extra : Op φ).Live m) :
    (Op.collect extra).Safe m := by
  have hroots : ∀ r ∈ (m.roots.extend extra.toList).toList, m.heap.contains r := by
    rw [toList_extend_roots]
    exact hs.live_append hlive
  have htrims := hs.resting.trims_collect hroots
  rw [toList_extend_roots] at htrims
  obtain ⟨cycle, hanswer, -, -⟩ := hs.resting.collect hroots
  refine .of_keeps htrims.resting ?_ htrims.keeps ?_
  · intro r hr
    exact List.mem_append_left _ hr
  · intro fault
    simp [Op.perform, Machine.collect, hanswer, Except.map, Except.mapError]

/-- **An allocation is a plain allocation** after a collection or after nothing. The operands count
as roots. -/
theorem allocate_eq {object : Object} (hrefs : ∀ r ∈ object.references, m.heap.contains r)
    (finalizer : Option φ) (granted : Bool) :
    m.heap.Trims (m.roots.toList ++ object.references) (m.prepared object) ∧
      (m.allocate object finalizer granted).answer =
        ((m.prepared object).allocate object object.size finalizer granted).answer ∧
      (m.allocate object finalizer granted).state =
        m.withHeap ((m.prepared object).allocate object object.size finalizer granted).state := by
  have hroots : ∀ r ∈ (m.roots.extend object.references).toList, m.heap.contains r := by
    rw [toList_extend_roots]
    exact hs.live_append hrefs
  have hcollected := hs.resting.collect hroots
  refine ⟨?_, allocate_eq_prepared (fun _ => hcollected.imp fun _ h => h.1) finalizer granted⟩
  rw [prepared]
  split
  · rw [← toList_extend_roots]
    exact hs.resting.trims_collect hroots
  · exact hs.resting.trims_refl (hs.live_append hrefs)

theorem allocate {object : Object} {finalizer : Option φ} {granted : Bool}
    (hlive : (Op.allocate object finalizer granted).Live m) :
    (Op.allocate object finalizer granted).Safe m := by
  obtain ⟨htrims, hanswer, hstate⟩ := hs.allocate_eq hlive finalizer granted
  generalize m.prepared object = heap at htrims hanswer hstate
  have hrefs (r : Handle) (hr : r ∈ object.references) : heap.contains r :=
    (htrims.keeps r (.root (List.mem_append_right _ hr) trivial)).contains
  obtain ⟨hrest, hkept, hfault⟩ :=
    htrims.resting.allocate_keeps hrefs object.size finalizer granted
  have hheap : ((Op.allocate object finalizer granted).perform m).state =
      m.withHeap (heap.allocate object object.size finalizer granted).state := hstate
  refine .of_keeps ?_ ?_ ?_ ?_
  · rw [hheap]
    exact hrest
  · intro r hr
    rw [hheap] at hr
    exact List.mem_append_left _ hr
  · -- the collection keeps what is reachable, and the allocation what is live
    intro h hh
    have hfirst := htrims.keeps h hh
    rw [hheap]
    exact hfirst.trans (hkept h hfirst.contains)
  · intro fault hfail
    refine hfault fault ?_
    simp only [Op.perform, hanswer] at hfail
    rcases hcase : (heap.allocate object object.size finalizer granted).answer with cause | h
    · rw [hcase] at hfail
      simpa [Except.map, Except.mapError] using hfail
    · rw [hcase] at hfail
      simp [Except.map, Except.mapError] at hfail

/-! ### Calls that write -/

/-- An edit of a live object that keeps the kind and brings in live references. -/
theorem edit {target : Handle} {change : Object → Option Object} (htarget : m.heap.contains target)
    (htag : ∀ old ∈ m.heap.get? target, ∀ new ∈ change old, new.tag = old.tag)
    (hrefs : ∀ old ∈ m.heap.get? target, ∀ new ∈ change old,
      ∀ r ∈ new.references, r ∈ old.references ∨ m.heap.contains r) :
    (∃ applied, (m.heap.edit target change).answer = .ok applied) ∧
      (m.heap.edit target change).state.Resting ∧
      (∀ h, m.heap.contains h → (m.heap.edit target change).state.contains h) ∧
      ∀ h, m.heap.contains h → h ≠ target → m.heap.Keeps (m.heap.edit target change).state h := by
  rcases m.heap.edit_cases target change with
    ⟨hstale, -⟩ | ⟨old, -, -, heq⟩ | ⟨old, new, hget, hchange, heq⟩
  · rw [htarget] at hstale
    cases hstale
  · rw [heq]
    exact ⟨⟨_, rfl⟩, hs.resting, fun h hh => hh, fun h hh _ => .refl hh⟩
  · rw [heq]
    refine ⟨⟨_, rfl⟩, hs.resting.withObject hget (htag old hget new hchange) ?_, ?_, ?_⟩
    · intro r hr
      rcases hrefs old hget new hchange r hr with hr | hr
      · exact hs.resting.closed target old hget r hr
      · exact hr
    · intro h hh
      exact (Heap.contains_withObject hget h).trans hh
    · intro h hh hne
      exact Heap.keeps_withObject hget hne hh

/-- A call that comes down to such an edit. -/
theorem safe_of_edit {op : Op φ} (hlive : op.Live m) {target : Handle}
    (change : Object → Option Object) (hop : op.target = some target)
    (hhandle : target ∈ op.handles) (hstate : (op.perform m).state =
      m.withHeap (m.heap.edit target change).state)
    (hanswer : (op.perform m).answer = ((m.heap.edit target change).answer.map .changed).mapError
      fun f => .allocation (.fault f))
    (htag : ∀ old new, change old = some new → new.tag = old.tag)
    (hrefs : ∀ old new, change old = some new →
      ∀ r ∈ new.references, r ∈ old.references ∨ m.heap.contains r) : op.Safe m := by
  obtain ⟨⟨applied, hedit⟩, hrest, hcontains, hkeeps⟩ := hs.edit (hlive target hhandle)
    (fun old _ new => htag old new) fun old _ new => hrefs old new
  have hreach := hs.resting.closed.reachesLive (hs.live_append hlive)
  refine ⟨⟨?_, ?_⟩, ?_, ?_, ?_⟩
  · rw [hstate]
    exact hrest
  · intro r hr
    rw [hstate] at hr ⊢
    exact hcontains r (hs.roots_live r hr)
  · intro fault
    rw [hanswer, hedit]
    simp [Except.map, Except.mapError]
  · intro h hh
    rw [hstate]
    exact hcontains h (hreach h hh)
  · intro h hh hne
    rw [hstate]
    exact hkeeps h (hreach h hh) fun heq => hne (hop.trans (congrArg some heq.symm))

theorem store {target : Handle} {field : RefField} {ref : Option Handle}
    (hlive : (Op.store target field ref : Op φ).Live m) : (Op.store target field ref).Safe m := by
  have hrefs : ∀ r ∈ ref.toList, m.heap.contains r := fun r hr =>
    hlive r (List.mem_cons_of_mem target hr)
  have heq : m.heap.store target field ref =
      m.heap.edit target fun object => object.store field ref := by
    rcases m.heap.store_cases target field ref with ⟨r, hr, hstale, -⟩ | ⟨-, heq⟩
    · rw [hrefs r hr] at hstale
      cases hstale
    · exact heq
  refine hs.safe_of_edit hlive (fun object => object.store field ref) rfl List.mem_cons_self ?_ ?_
    (fun old new => Object.tag_of_store) fun old new hstore r hr => ?_
  · rw [Op.perform, state_onHeap, heq]
  · rw [Op.perform, answer_onHeap, heq]
  · refine (Object.mem_references_of_store hstore hr).imp_right fun hr => hrefs r ?_
    exact Option.mem_toList.2 hr

theorem append {target : Handle} {items : Array Int64}
    (hlive : (Op.append target items : Op φ).Live m) : (Op.append target items).Safe m := by
  refine hs.safe_of_edit hlive (Object.append items) rfl List.mem_cons_self rfl rfl
    (fun old new => Object.tag_of_append) fun old new hchange r hr => ?_
  rcases old <;> simp only [Object.append, Option.some.injEq, reduceCtorEq] at hchange
  subst hchange
  cases hr

/-- **Every call** with live handles is safe. -/
theorem perform {op : Op φ} (hlive : op.Live m) : op.Safe m := by
  rcases op with ⟨object, finalizer, granted⟩ | extra | ⟨h, granted⟩ | _ | size | _ | env |
    ⟨target, field, ref⟩ | ⟨target, items⟩
  · exact hs.allocate hlive
  · exact hs.collect hlive
  · exact hs.push granted hlive
  · exact hs.pop
  · exact hs.truncate size
  · exact hs.clear
  · exact hs.setEnv hlive
  · exact hs.store hlive
  · exact hs.append hlive

/-- **Every orderly call**, of the machine or of its heap, leaves no dangling references. -/
theorem orderly {call : Call φ} (horderly : call.Orderly m) : (call.state m).Sound := by
  cases call with
  | ofMachine op => exact (hs.perform horderly).sound
  | ofHeap op =>
    cases op with
    | allocate object size finalizer granted =>
      obtain ⟨hrest, hkept, -⟩ := hs.resting.allocate_keeps horderly size finalizer granted
      exact ⟨hrest, fun r hr => (hkept r (hs.roots_live r hr)).contains⟩
    | edit target change =>
      obtain ⟨htarget, hchange⟩ := horderly
      obtain ⟨-, hrest, hcontains, -⟩ := hs.edit htarget
        (fun old hold new hnew => (hchange old hold new hnew).1)
        fun old hold new hnew r hr => .inl ((hchange old hold new hnew).2 r hr)
      exact ⟨hrest, fun r hr => hcontains r (hs.roots_live r hr)⟩
    | store target field ref => exact (hs.store horderly).sound
    | collect roots =>
      obtain ⟨hroots, hcounted⟩ := horderly
      exact .of_trims (hs.resting.trims_collect hroots) hcounted
    | mark | sweep | releaseAll => cases horderly

theorem run_orderly {calls : List (Call φ)} (horderly : m.OrderlyCalls calls) :
    (m.runCalls calls).Sound := by
  induction calls generalizing m with
  | nil => exact hs
  | cons call calls ih => exact ih (hs.orderly horderly.1) horderly.2

/-- What the roots keep alive all the way is not changed, if nothing writes to it. -/
theorem keeps_run {ops : List (Op φ)} (hlive : m.LiveCalls ops) {h : Handle}
    (hreach : ∀ p, p <+: ops → (m.run p).heap.Reachable (m.run p).roots.toList h)
    (htarget : ∀ op ∈ ops, op.target ≠ some h) : m.heap.Keeps (m.run ops).heap h := by
  induction ops generalizing m with
  | nil => exact .refl (hs.resting.closed.reachesLive hs.roots_live h (hreach [] List.nil_prefix))
  | cons op ops ih =>
    have hsafe := hs.perform hlive.1
    have hfirst : m.heap.Reachable (m.roots.toList ++ op.handles) h :=
      (hreach [] List.nil_prefix).mono (fun _ hk => hk) fun _ hk => List.mem_append_left _ hk
    refine (hsafe.keeps h hfirst (htarget op List.mem_cons_self)).trans ?_
    refine ih hsafe.sound hlive.2 ?_ ?_
    · intro p hp
      exact hreach (op :: p) ((List.prefix_cons_inj op).2 hp)
    · intro o ho
      exact htarget o (List.mem_cons_of_mem op ho)

end Sound

/-- Every history of calls with live handles leaves no dangling references. -/
theorem sound_run (config : Config) {ops : List (Op φ)}
    (hlive : (ofConfig config : Machine φ).LiveCalls ops) :
    ((ofConfig config : Machine φ).run ops).Sound :=
  run_induction (fun _ _ hs hop => (hs.perform hop).sound) (.ofConfig config) hlive

/-- **Safety of machines.** Whatever calls were made of a new machine, if every handle was live when
it was passed, then the operand stack, the environment and all live objects refer to live objects
only, which are all White. The next such call does not fault, and what the roots and the handles
that are passed keep alive stays alive and as it was, but for the target of a write; nor does a
history of such calls change an object that the roots keep alive all the way, unless by a write. -/
theorem safe_run (config : Config) (ops : List (Op φ))
    (hlive : (ofConfig config : Machine φ).LiveCalls ops) :
    let m := (ofConfig config : Machine φ).run ops
    (∀ h ∈ m.stack.toList, m.heap.contains h) ∧ (∀ h ∈ m.env, m.heap.contains h) ∧
      m.heap.Closed ∧ m.heap.AllWhite ∧
      (∀ op : Op φ, op.Live m →
        (∀ fault, (op.perform m).answer ≠ .error (.allocation (.fault fault))) ∧
        ∀ h, m.heap.Reachable (m.roots.toList ++ op.handles) h →
          (op.perform m).state.heap.contains h ∧
          (op.target ≠ some h → m.heap.Keeps (op.perform m).state.heap h)) ∧
      ∀ more : List (Op φ), m.LiveCalls more → ∀ h,
        (∀ p, p <+: more → (m.run p).heap.Reachable (m.run p).roots.toList h) →
        (∀ op ∈ more, op.target ≠ some h) → m.heap.Keeps (m.run more).heap h := by
  intro m
  have hs : m.Sound := sound_run config hlive
  refine ⟨?_, ?_, hs.resting.closed, hs.resting.allWhite, ?_, ?_⟩
  · intro h hh
    exact hs.roots_live h (mem_roots_iff.2 (.inr hh))
  · intro h hh
    exact hs.roots_live h (mem_roots_iff.2 (.inl hh))
  · intro op hop
    have hsafe := hs.perform hop
    exact ⟨hsafe.faultless, fun h hh => ⟨hsafe.contains h hh, hsafe.keeps h hh⟩⟩
  · intro more hmore h hreach htarget
    exact hs.keeps_run hmore hreach htarget

/-- A machine that collects before its third allocation and reuses a slot for the new pair, to which
the operand of that pair is then made to refer. -/
theorem safe_run_reused_slot :
    let ops : List (Op Unit) := [.allocate (.pair none none) none true, .push ⟨0, 0⟩ true,
      .allocate (.int 3) (some ()) true, .allocate (.pair (some ⟨0, 0⟩) none) none true,
      .store ⟨0, 0⟩ .rhs (some ⟨1, 1⟩), .setEnv (some ⟨1, 1⟩), .pop, .collect none]
    let m := (ofConfig ⟨2, 1000, 0, .adaptive⟩ : Machine Unit).run ops
    (ofConfig ⟨2, 1000, 0, .adaptive⟩ : Machine Unit).LiveCalls ops ∧
      m.heap.handles = [⟨1, 1⟩, ⟨0, 0⟩] ∧ (∀ h ∈ m.env, m.heap.contains h) ∧
      m.heap.Closed ∧ m.heap.AllWhite := by
  intro ops m
  have hlive : (ofConfig ⟨2, 1000, 0, .adaptive⟩ : Machine Unit).LiveCalls ops := by
    decide +kernel
  obtain ⟨-, henv, hclosed, hwhite, -⟩ := safe_run ⟨2, 1000, 0, .adaptive⟩ ops hlive
  exact ⟨hlive, by decide +kernel, henv, hclosed, hwhite⟩

end MarkSweep.Machine
