import Mathlib.Data.Set.Function
import MarkSweep.Proofs.Heap.Renaming
import MarkSweep.Proofs.Machine.Commands

/-!
# Collections are not seen by a program

Two machines match when their heaps match and their roots are related, slot by slot. A program
names objects only through the roots, so its commands go the same way in both
(`Matches.performCommand`), and a collection in one of them does no more than make the relation
smaller (`Matches.trim_left`). By induction on how two schedules of one program are interleaved,
the machines still match at the end (`Matches.runSchedule`), and a relation between matching
machines is a bijection between what is reachable in them (`Matches.exists_isRenaming`).
-/

namespace MarkSweep

/-- One shape filled with related references. -/
theorem Object.renames_fill {r : Handle → Handle → Prop} {first second : RefField → Option Handle}
    (href : ∀ field, Option.Rel r (first field) (second field)) (shape : Object) :
    Renames r (shape.fill first) (shape.fill second) := by
  rcases shape
  case pair => exact .pair (href _) (href _)
  case tagged d _ => exact .tagged d (href _)
  case closure _ entry => exact .closure entry (href _)
  all_goals exact .leaf rfl

/-- Two results that are the same but for the handles in them, which are related. Neither is a
refusal or a fault. -/
inductive CommandResult.Renames (r : Handle → Handle → Prop) : CommandResult → CommandResult → Prop
  | done : Renames r .done .done
  | gave {a b : Handle} (related : r a b) : Renames r (.gave a) (.gave b)
  | stored (applied : Bool) : Renames r (.stored applied) (.stored applied)
  | underflow : Renames r .underflow .underflow

namespace Machine

theorem rel_assign {r : Handle → Handle → Prop} {x₁ y₁ x₂ y₂ : Option Handle}
    (hx : Option.Rel r x₁ x₂) (hy : Option.Rel r y₁ y₂) (field : RefField) :
    Option.Rel r (assign x₁ y₁ field) (assign x₂ y₂ field) := by
  rcases field
  case rhs => exact hy
  all_goals exact hx

variable {φ : Type} {m₁ m₂ : Machine φ} {r : Handle → Handle → Prop}

/-! ### Matching machines -/

/-- **Two machines match** when their heaps do, and their roots are related. -/
structure Matches (r : Handle → Handle → Prop) (m₁ m₂ : Machine φ) : Prop where
  /-- Related handles are those of like objects, one to one. -/
  heap : Heap.Matches r m₁.heap m₂.heap
  /-- The environments are related, or both absent. -/
  env : Option.Rel r m₁.env m₂.env
  /-- The operand stacks are related slot by slot. -/
  stack : List.Forall₂ r m₁.stack.toList m₂.stack.toList

namespace Matches

theorem ofConfig (c₁ c₂ : Config) :
    Matches (fun _ _ => False) (Machine.ofConfig c₁ : Machine φ) (Machine.ofConfig c₂) :=
  ⟨⟨fun _ _ _ h => h.elim, fun _ _ _ h => h.elim, fun _ _ h => h.elim⟩, .none, .nil⟩

variable (hm : Matches r m₁ m₂)
include hm

theorem symm : Matches (flip r) m₂ m₁ :=
  ⟨hm.heap.symm, rel_flip hm.env, List.Forall₂.flip hm.stack⟩

/-- A collection in one machine only. -/
theorem trim_left {heap : Heap φ} {roots : List Handle} (ht : m₁.heap.Trims roots heap)
    (hroots : ∀ h ∈ m₁.roots.toList, h ∈ roots) :
    Matches (fun a b => heap.contains a ∧ r a b) (m₁.withHeap heap) m₂ := by
  have hlive (h : Handle) (hh : h ∈ m₁.roots.toList) : heap.contains h :=
    (ht.keeps h (.root (hroots h hh) trivial)).contains
  refine ⟨hm.heap.trim_left ht, ?_, ?_⟩
  · exact rel_mono hm.env fun a ha b hab => ⟨hlive a (mem_roots_iff.2 (.inl ha)), hab⟩
  · refine (List.forall₂_and_left _ _).2 ⟨fun a ha => ?_, hm.stack⟩
    exact hlive a (mem_roots_iff.2 (.inr ha))

theorem trim_right {heap : Heap φ} {roots : List Handle} (ht : m₂.heap.Trims roots heap)
    (hroots : ∀ h ∈ m₂.roots.toList, h ∈ roots) :
    Matches (fun a b => heap.contains b ∧ r a b) m₁ (m₂.withHeap heap) :=
  (hm.symm.trim_left ht hroots).symm

/-- The slot at a depth is there in both machines or in neither. -/
theorem peekNth_cases (depth : UInt64) :
    (∃ e₁ e₂, m₁.stack.peekNth depth = .error e₁ ∧ m₂.stack.peekNth depth = .error e₂) ∨
    ∃ a b, m₁.stack.peekNth depth = .ok a ∧ m₂.stack.peekNth depth = .ok b ∧ r a b := by
  have hrel := rel_getElem? (List.rel_reverse hm.stack) depth.toNat
  rw [Stack.peekNth_eq, Stack.peekNth_eq]
  rcases h₁ : m₁.stack.toList.reverse[depth.toNat]? with _ | a <;>
    rcases h₂ : m₂.stack.toList.reverse[depth.toNat]? with _ | b <;> rw [h₁, h₂] at hrel
  · exact .inl ⟨_, _, rfl, rfl⟩
  · cases hrel
  · cases hrel
  · rcases hrel with ⟨hab⟩
    exact .inr ⟨a, b, rfl, rfl, hab⟩

/-- An operand names related references, or is missing in both machines. -/
theorem resolve_cases (operand : Operand) :
    (∃ e₁ e₂, m₁.resolve operand = .error e₁ ∧ m₂.resolve operand = .error e₂) ∨
    ∃ x y, m₁.resolve operand = .ok x ∧ m₂.resolve operand = .ok y ∧ Option.Rel r x y := by
  rcases operand with _ | _ | depth
  · exact .inr ⟨none, none, rfl, rfl, .none⟩
  · exact .inr ⟨m₁.env, m₂.env, rfl, rfl, hm.env⟩
  · rcases hm.peekNth_cases depth with ⟨e₁, e₂, h₁, h₂⟩ | ⟨a, b, h₁, h₂, hab⟩
    · exact .inl ⟨e₁, e₂, by rw [resolve, h₁]; rfl, by rw [resolve, h₂]; rfl⟩
    · exact .inr ⟨some a, some b, by rw [resolve, h₁]; rfl, by rw [resolve, h₂]; rfl, .some hab⟩

/-- What an operand names in both machines is related. -/
theorem rel_of_resolve {operand : Operand} {x y : Option Handle}
    (hx : m₁.resolve operand = .ok x) (hy : m₂.resolve operand = .ok y) : Option.Rel r x y := by
  rcases hm.resolve_cases operand with ⟨e₁, e₂, h₁, -⟩ | ⟨x', y', h₁, h₂, hrel⟩
  · rw [hx] at h₁
    cases h₁
  · obtain rfl := Except.ok.inj (hx.symm.trans h₁)
    obtain rfl := Except.ok.inj (hy.symm.trans h₂)
    exact hrel

end Matches

/-! ### Commands in matching machines -/

/-- Two results, each with the machine that its command leaves: the machines match, and the handles
in the results are related as those in the machines are. -/
def Alike (o₁ o₂ : CommandResult × Machine φ) : Prop :=
  ∃ r, Matches r o₁.2 o₂.2 ∧ o₁.1.Renames r o₂.1

/-- A command that goes the same way as another is performed. -/
theorem Alike.performed {o₁ o₂ : CommandResult × Machine φ} (h : Alike o₁ o₂) :
    o₁.1 ≠ .refused ∧ o₁.1 ≠ .fault := by
  obtain ⟨r, -, hrenames⟩ := h
  generalize o₁.1 = result₁ at hrenames ⊢
  generalize o₂.1 = result₂ at hrenames
  cases hrenames <;> simp

namespace Matches

variable (hm : Matches r m₁ m₂)
include hm

theorem pop : Alike (m₁.performCommand .pop) (m₂.performCommand .pop) := by
  have hlast : Option.Rel r m₁.stack.toList.getLast? m₂.stack.toList.getLast? := by
    rw [← List.head?_reverse, ← List.head?_reverse, List.head?_eq_getElem?, List.head?_eq_getElem?]
    exact rel_getElem? (List.rel_reverse hm.stack) 0
  rw [performCommand_pop, performCommand_pop]
  generalize m₁.stack.toList.getLast? = last₁ at hlast ⊢
  generalize m₂.stack.toList.getLast? = last₂ at hlast ⊢
  rcases hlast with ⟨hab⟩ | _
  · refine ⟨r, ⟨hm.heap, hm.env, ?_⟩, .gave hab⟩
    simp only [Stack.toList_pop, List.dropLast_eq_take]
    rw [hm.stack.length_eq]
    exact List.forall₂_take _ hm.stack
  · exact ⟨r, hm, .underflow⟩

theorem setEnv (source : Operand) :
    Alike (m₁.performCommand (.setEnv source)) (m₂.performCommand (.setEnv source)) := by
  rcases hm.resolve_cases source with ⟨e₁, e₂, h₁, h₂⟩ | ⟨x, y, h₁, h₂, hxy⟩
  · simp only [performCommand, h₁, h₂]
    exact ⟨r, hm, .underflow⟩
  · simp only [performCommand, h₁, h₂]
    exact ⟨r, ⟨hm.heap, hxy, hm.stack⟩, .done⟩

variable (hr₁ : m₁.Ready) (hr₂ : m₂.Ready)
include hr₁ hr₂

theorem store (depth : UInt64) (field : RefField) (source : Operand) :
    Alike (m₁.performCommand (.store depth field source))
      (m₂.performCommand (.store depth field source)) := by
  rcases hm.peekNth_cases depth with ⟨e₁, e₂, h₁, h₂⟩ | ⟨a, b, ha, hb, hab⟩
  · simp only [performCommand, h₁, h₂]
    exact ⟨r, hm, .underflow⟩
  rcases hm.resolve_cases source with ⟨e₁, e₂, h₁, h₂⟩ | ⟨x, y, hx, hy, hxy⟩
  · simp only [performCommand, ha, hb, h₁, h₂]
    exact ⟨r, hm, .underflow⟩
  obtain ⟨s, t, o, p, hs, ht, ho, hp, -, hren⟩ := hm.heap.related a b hab
  have hget₁ := Heap.get?_of_find? hs ho
  have hget₂ := Heap.get?_of_find? ht hp
  have hstore := hren.store field hxy
  rw [hr₁.performCommand_store ha hx hget₁, hr₂.performCommand_store hb hy hget₂]
  rcases h₁ : o.store field x with _ | new₁ <;> rcases h₂ : p.store field y with _ | new₂ <;>
    rw [h₁, h₂] at hstore
  · exact ⟨r, hm, .stored false⟩
  · cases hstore
  · cases hstore
  · rcases hstore with ⟨hnew⟩
    exact ⟨r, ⟨hm.heap.write hab hget₁ hget₂ hnew, hm.env, hm.stack⟩, .stored true⟩

/-- Related objects are allocated, whichever machine collects for it. -/
theorem allocate (hgrow₁ : m₁.canGrow) (hgrow₂ : m₂.canGrow) (shape : Object) (lhs rhs : Operand) :
    Alike (m₁.performCommand (.allocate shape lhs rhs))
      (m₂.performCommand (.allocate shape lhs rhs)) := by
  rcases hm.resolve_cases lhs with ⟨e₁, e₂, h₁, h₂⟩ | ⟨x₁, x₂, hx₁, hx₂, -⟩
  · simp only [performCommand, h₁, h₂]
    exact ⟨r, hm, .underflow⟩
  rcases hm.resolve_cases rhs with ⟨e₁, e₂, h₁, h₂⟩ | ⟨y₁, y₂, hy₁, hy₂, -⟩
  · simp only [performCommand, hx₁, hx₂, h₁, h₂]
    exact ⟨r, hm, .underflow⟩
  obtain ⟨roots₁, heap₁, a, after₁, stack₁, hroots₁, htrims₁, hgains₁, hlist₁, heq₁⟩ :=
    hr₁.performCommand_allocate hgrow₁ shape hx₁ hy₁
  obtain ⟨roots₂, heap₂, b, after₂, stack₂, hroots₂, htrims₂, hgains₂, hlist₂, heq₂⟩ :=
    hr₂.performCommand_allocate hgrow₂ shape hx₂ hy₂
  -- what the operands name is still related after both machines have collected
  have htrimmed := (hm.trim_left htrims₁ hroots₁).trim_right htrims₂ hroots₂
  have hfirst := htrimmed.rel_of_resolve ((resolve_withHeap ..).trans hx₁)
    ((resolve_withHeap ..).trans hx₂)
  have hsecond := htrimmed.rel_of_resolve ((resolve_withHeap ..).trans hy₁)
    ((resolve_withHeap ..).trans hy₂)
  have hren := Object.renames_fill (rel_assign hfirst hsecond) shape
  rw [heq₁, heq₂]
  refine ⟨_, ⟨htrimmed.heap.insert hgains₁ hgains₂ hren, ?_, ?_⟩, .gave (.inr ⟨rfl, rfl⟩)⟩
  · exact rel_mono htrimmed.env fun _ _ _ hab => .inl hab
  · rw [hlist₁, hlist₂]
    refine List.rel_append (htrimmed.stack.imp fun _ _ hab => .inl hab) ?_
    exact .cons (.inr ⟨rfl, rfl⟩) .nil

/-- **Every command** goes the same way in matching machines. -/
theorem performCommand (hgrow₁ : m₁.canGrow) (hgrow₂ : m₂.canGrow) (c : Command) :
    Alike (m₁.performCommand c) (m₂.performCommand c) := by
  rcases c with ⟨shape, lhs, rhs⟩ | _ | size | source | ⟨depth, field, source⟩
  · exact hm.allocate hr₁ hr₂ hgrow₁ hgrow₂ shape lhs rhs
  · exact hm.pop
  · refine ⟨r, ⟨hm.heap, hm.env, ?_⟩, .done⟩
    simp only [Machine.performCommand, truncate, Stack.toList_truncate]
    exact List.forall₂_take _ hm.stack
  · exact hm.setEnv source
  · exact hm.store hr₁ hr₂ depth field source

end Matches

/-! ### Schedules of one program -/

/-- Two schedules have the same commands in the same order. -/
inductive SameProgram : List ScheduleStep → List ScheduleStep → Prop
  | nil : SameProgram [] []
  | command (c : Command) {s t : List ScheduleStep} (rest : SameProgram s t) :
      SameProgram (.command c :: s) (.command c :: t)
  | left {s t : List ScheduleStep} (rest : SameProgram s t) : SameProgram (.collect :: s) t
  | right {s t : List ScheduleStep} (rest : SameProgram s t) : SameProgram s (.collect :: t)

theorem sameProgram_of_programOf_eq {s t : List ScheduleStep} (h : programOf s = programOf t) :
    SameProgram s t := by
  induction s generalizing t with
  | nil =>
    induction t with
    | nil => exact .nil
    | cons step t ih =>
      rcases step with c | _
      · cases h
      · exact .right (ih h)
  | cons step s ih =>
    rcases step with c | _
    · -- the collections before the same command in the other schedule come first
      induction t with
      | nil => cases h
      | cons step t ih' =>
        rcases step with d | _
        · obtain ⟨rfl, hrest⟩ := List.cons_eq_cons.1 h
          exact .command c (ih hrest)
        · exact .right (ih' h)
    · exact .left (ih h)

/-- **Matching machines stay so** while they run schedules of one program, and every command goes
the same way in both. -/
theorem Matches.runSchedule {s t : List ScheduleStep} (hprogram : SameProgram s t)
    (hm : Matches r m₁ m₂) (hr₁ : m₁.Ready) (hr₂ : m₂.Ready) (hgrow₁ : m₁.GrowsThroughout s)
    (hgrow₂ : m₂.GrowsThroughout t) :
    (∃ r', Matches r' (m₁.runSchedule s).2 (m₂.runSchedule t).2) ∧
      (m₁.runSchedule s).2.Ready ∧ (m₂.runSchedule t).2.Ready ∧
      List.Forall₂ Alike (m₁.runSchedule s).1 (m₂.runSchedule t).1 := by
  -- the relation changes on the way: it shrinks with a collection and grows with an allocation
  induction hprogram generalizing r m₁ m₂ with
  | nil => exact ⟨⟨r, hm⟩, hr₁, hr₂, .nil⟩
  | command c rest ih =>
    obtain ⟨r', hm', hrenames⟩ := hm.performCommand hr₁ hr₂ hgrow₁.1 hgrow₂.1 c
    obtain ⟨hmatches, hready₁, hready₂, hresults⟩ :=
      ih hm' (hr₁.performCommand hgrow₁.1 c) (hr₂.performCommand hgrow₂.1 c) hgrow₁.2 hgrow₂.2
    exact ⟨hmatches, hready₁, hready₂, .cons ⟨r', hm', hrenames⟩ hresults⟩
  | left rest ih =>
    obtain ⟨heap, htrims, heq⟩ := hr₁.collect_eq
    have hgrow := hgrow₁.2
    simp only [Machine.runSchedule, performStep, heq] at hgrow ⊢
    have hready := hr₁.of_trims htrims fun _ hh => hh
    exact ih (hm.trim_left htrims fun _ hh => hh) hready hr₂ hgrow hgrow₂
  | right rest ih =>
    obtain ⟨heap, htrims, heq⟩ := hr₂.collect_eq
    have hgrow := hgrow₂.2
    simp only [Machine.runSchedule, performStep, heq] at hgrow ⊢
    have hready := hr₂.of_trims htrims fun _ hh => hh
    exact ih (hm.trim_right htrims fun _ hh => hh) hr₁ hready hgrow₁ hgrow

/-! ### From a relation to a bijection -/

/-- What the roots of a machine keep alive. -/
def reachable (m : Machine φ) : Set Handle := {h | m.heap.Reachable m.roots.toList h}

/-- **A renaming of handles** makes one machine into another, as far as a program can see: it is a
bijection between what is reachable in them, which goes from root to root, and from an object to one
with the same header and charge and the same payload, its references renamed. -/
structure IsRenaming (f : Handle → Handle) (m₁ m₂ : Machine φ) : Prop where
  /-- It is a bijection between what is reachable. -/
  bijOn : Set.BijOn f m₁.reachable m₂.reachable
  /-- It takes one environment to the other. -/
  env_eq : m₂.env = m₁.env.map f
  /-- It takes every slot of the operand stack to the same slot of the other. -/
  stack_eq : m₂.stack.toList = m₁.stack.toList.map f
  /-- It takes an object to one that a program cannot tell from it. -/
  object : ∀ a ∈ m₁.reachable, ∃ s t, m₁.heap.find? a = some s ∧ m₂.heap.find? (f a) = some t ∧
    t.header = s.header ∧ t.size = s.size ∧ t.object = s.object.map (Object.mapReferences f)

theorem Matches.exists_reachable (hm : Matches r m₁ m₂) (hs₁ : m₁.Sound) (hs₂ : m₂.Sound)
    {a : Handle} (ha : a ∈ m₁.reachable) : ∃ b ∈ m₂.reachable, r a b := by
  have hroots : ∀ a ∈ m₁.roots.toList, ∃ b ∈ m₂.roots.toList, r a b := by
    intro a ha
    rcases mem_roots_iff.1 ha with ha | ha
    · have henv := hm.env
      rw [Option.mem_def.1 ha] at henv
      generalize hb : m₂.env = env at henv
      rcases henv with ⟨hab⟩
      exact ⟨_, mem_roots_iff.2 (.inl hb), hab⟩
    · obtain ⟨i, hi⟩ := List.mem_iff_getElem?.1 ha
      have hslot := rel_getElem? hm.stack i
      rw [hi] at hslot
      generalize hb : m₂.stack.toList[i]? = slot at hslot
      rcases hslot with ⟨hab⟩
      exact ⟨_, mem_roots_iff.2 (.inr (List.mem_of_getElem? hb)), hab⟩
  obtain ⟨b, hab, hb⟩ := hm.heap.exists_reachable hs₁.resting hs₂.resting hroots ha
  exact ⟨b, hb, hab⟩

/-- **Matching machines are renamings of each other.** -/
theorem Matches.exists_isRenaming (hm : Matches r m₁ m₂) (hs₁ : m₁.Sound) (hs₂ : m₂.Sound) :
    ∃ f, IsRenaming f m₁ m₂ := by
  classical
  have hforth (a : Handle) (ha : a ∈ m₁.reachable) := hm.exists_reachable hs₁ hs₂ ha
  have hback (b : Handle) (hb : b ∈ m₂.reachable) := hm.symm.exists_reachable hs₂ hs₁ hb
  -- the relation is one to one, so it is a function where it relates anything at all
  let f (a : Handle) : Handle := if h : ∃ b, r a b then h.choose else a
  have hf {a b : Handle} (hab : r a b) : f a = b := by
    have hex : ∃ b, r a b := ⟨b, hab⟩
    simp only [f, dif_pos hex]
    exact hm.heap.right_unique a _ b hex.choose_spec hab
  refine ⟨f, ⟨?_, ?_, ?_⟩, ?_, ?_, ?_⟩
  · intro a ha
    obtain ⟨b, hb, hab⟩ := hforth a ha
    rw [hf hab]
    exact hb
  · intro a ha a' ha' heq
    obtain ⟨b, -, hab⟩ := hforth a ha
    obtain ⟨b', -, hab'⟩ := hforth a' ha'
    rw [hf hab, hf hab'] at heq
    exact hm.heap.left_unique a a' b hab (heq ▸ hab')
  · intro b hb
    obtain ⟨a, ha, hab⟩ := hback b hb
    exact ⟨a, ha, hf hab⟩
  · have henv := hm.env
    generalize m₁.env = x at henv
    generalize m₂.env = y at henv
    rcases henv with ⟨hab⟩ | _
    · exact congrArg some (hf hab).symm
    · rfl
  · have hmap := (List.forall₂_map_left_iff (f := f)).2 (hm.stack.imp fun _ _ hab => hf hab)
    exact (List.forall₂_eq_eq_eq ▸ hmap).symm
  · intro a ha
    obtain ⟨b, -, hab⟩ := hforth a ha
    obtain ⟨s, t, o, p, hs, ht, ho, hp, hsize, hren⟩ := hm.heap.related a b hab
    refine ⟨s, t, hs, hf hab ▸ ht, ?_, hsize.symm, ?_⟩
    · rw [hs₂.resting.header_eq b t p ht hp, hs₁.resting.header_eq a s o hs ho, hren.tag_eq]
    · rw [hp, ho, Option.map_some, hren.eq_mapReferences fun c _ d hcd => hf hcd]

/-- **Collections are not seen by a program.** Two schedules of one program, on new machines with
whatever thresholds and policies but without a limit, go the same way: every command has the same
result in both, but for handles, which are related as those in the machines are at that moment, and
no result is a refusal or a fault as long as arena and operand stack can grow. In the end one of the
machines is a renaming of the other. -/
theorem runSchedule_isRenaming (c₁ c₂ : Config) (s₁ s₂ : List ScheduleStep)
    (hlimit₁ : c₁.maxBytes = 0) (hlimit₂ : c₂.maxBytes = 0) (hprogram : programOf s₁ = programOf s₂)
    (hgrow₁ : (ofConfig c₁ : Machine φ).GrowsThroughout s₁)
    (hgrow₂ : (ofConfig c₂ : Machine φ).GrowsThroughout s₂) :
    let o₁ := (ofConfig c₁ : Machine φ).runSchedule s₁
    let o₂ := (ofConfig c₂ : Machine φ).runSchedule s₂
    List.Forall₂ Alike o₁.1 o₂.1 ∧ (∀ o ∈ o₁.1, o.1 ≠ .refused ∧ o.1 ≠ .fault) ∧
      o₁.2.stack.size = o₂.2.stack.size ∧ ∃ f, IsRenaming f o₁.2 o₂.2 := by
  intro o₁ o₂
  obtain ⟨⟨r, hm⟩, hr₁, hr₂, hresults⟩ := Matches.runSchedule
    (sameProgram_of_programOf_eq hprogram) (.ofConfig c₁ c₂) (.ofConfig hlimit₁) (.ofConfig hlimit₂)
    hgrow₁ hgrow₂
  have hperformed : ∀ o ∈ o₁.1, o.1 ≠ .refused ∧ o.1 ≠ .fault :=
    ((List.forall₂_and_left _ _).1 (hresults.imp fun _ _ h => ⟨h.performed, h⟩)).1
  exact ⟨hresults, hperformed, hm.stack.length_eq, hm.exists_isRenaming hr₁.sound hr₂.sound⟩

/-- One machine collects before every allocation and the other not at all, but for one collection
that is put in; so they give different handles to the second pair. -/
theorem runSchedule_isRenaming_reused_slot :
    let s₁ : List ScheduleStep := [.command (.allocate (.pair none none) .absent .absent),
      .command (.allocate (.int 3) .absent .absent), .command .pop,
      .command (.allocate (.pair none none) (.slot 0) .absent), .command (.store 1 .lhs (.slot 0)),
      .command (.setEnv (.slot 0)), .command (.truncate 0), .command .pop]
    let s₂ := s₁ ++ [.collect]
    let m₁ := ((ofConfig ⟨1, 1, 0, .static⟩ : Machine Unit).runSchedule s₁).2
    let m₂ := ((ofConfig Config.standard : Machine Unit).runSchedule s₂).2
    programOf s₁ = programOf s₂ ∧ (ofConfig ⟨1, 1, 0, .static⟩ : Machine Unit).GrowsThroughout s₁ ∧
      (ofConfig Config.standard : Machine Unit).GrowsThroughout s₂ ∧
      m₁.env = some ⟨1, 1⟩ ∧ m₂.env = some ⟨2, 0⟩ ∧ ∃ f, IsRenaming f m₁ m₂ := by
  intro s₁ s₂ m₁ m₂
  have hprogram : programOf s₁ = programOf s₂ := rfl
  have hgrow₁ : (ofConfig ⟨1, 1, 0, .static⟩ : Machine Unit).GrowsThroughout s₁ := by
    decide +kernel
  have hgrow₂ : (ofConfig Config.standard : Machine Unit).GrowsThroughout s₂ := by
    decide +kernel
  obtain ⟨-, -, -, hrenaming⟩ :=
    runSchedule_isRenaming ⟨1, 1, 0, .static⟩ Config.standard s₁ s₂ rfl rfl hprogram hgrow₁ hgrow₂
  exact ⟨hprogram, hgrow₁, hgrow₂, by decide +kernel, by decide +kernel, hrenaming⟩

end Machine

end MarkSweep
