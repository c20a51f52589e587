import MarkSweep.Proofs.Heap.LeftoverColors
import MarkSweep.Proofs.Heap.Resting

/-!
# Payloads that are overwritten

The kind of an object is on record twice, in its header and in its payload. Only an allocation
writes both. A payload that is assigned leaves the header, which says whether the object is traced,
while the payload says what is found then. So an object with the header of a leaf is not traced,
whatever has been assigned to it, and what only its payload refers to is released
(`collect_frees_assigned`).

Assignments of live references that leave a traced object its kind cannot do any other harm:
marking never meets a stale handle or an object whose header tells of another kind with references
(`Traceable.run`). What survives a full collection is what is reachable by way of the objects that
are traced, and that covers what the payloads refer to exactly when no payload of a leaf is needed
on the way (`collect_run_of_assigned`).
-/

namespace MarkSweep.Heap

variable {φ : Type} {heap : Heap φ} {op : Op φ} {ops : List (Op φ)} {roots : Roots} {h k : Handle}
  {tag : Tag} {size : UInt64} {object : Object}

/-! ### Reachability through payloads -/

/-- Reachable from the roots through the payloads of live objects, whatever their headers say. -/
inductive PayloadReachable (heap : Heap φ) (roots : List Handle) : Handle → Prop
  /-- A root is reachable. -/
  | root {h : Handle} (mem : h ∈ roots) : PayloadReachable heap roots h
  /-- A reference in the payload of a reachable object is reachable. -/
  | step {a b : Handle} {object : Object} (reach : PayloadReachable heap roots a)
      (live : heap.get? a = some object) (holds : b ∈ object.references) :
      PayloadReachable heap roots b

/-- **Marking follows payloads**: an object that is reachable through payloads survives a full
collection, and what it refers to then is live. -/
structure FollowsPayloads (heap : Heap φ) (roots : Roots) : Prop where
  /-- What is reachable through payloads stays live. -/
  live : ∀ h, heap.PayloadReachable roots.toList h → (heap.collect roots).state.contains h
  /-- It holds no stale reference afterwards. -/
  references_live : ∀ h object, heap.PayloadReachable roots.toList h →
    (heap.collect roots).state.get? h = some object →
      ∀ r ∈ object.references, (heap.collect roots).state.contains r

/-! ### Histories with assignments -/

/-- Whatever payload a change puts in the place of that of its target is admitted for the kind that
the header of the target tells. -/
def Admits (heap : Heap φ) (admitted : Tag → Object → Prop) (target : Handle)
    (change : Object → Option Object) : Prop :=
  ∀ slot ∈ heap.find? target, ∀ tag ∈ slot.header.tag.toOption, ∀ old ∈ slot.object,
    ∀ new ∈ change old, admitted tag new

instance (heap : Heap φ) (admitted : Tag → Object → Prop)
    [∀ tag new, Decidable (admitted tag new)] (target : Handle)
    (change : Object → Option Object) : Decidable (heap.Admits admitted target change) :=
  inferInstanceAs (Decidable (∀ slot ∈ heap.find? target, ∀ tag ∈ slot.header.tag.toOption,
    ∀ old ∈ slot.object, ∀ new ∈ change old, admitted tag new))

theorem Admits.of_holds {admitted : Tag → Object → Prop} {target : Handle}
    {change : Object → Option Object} (ha : heap.Admits admitted target change)
    (hh : heap.Holds target tag size object) {new : Object} (hchange : change object = some new) :
    admitted tag new := by
  obtain ⟨slot, hfind, htag, -, hobject⟩ := hh
  exact ha slot hfind tag (by rw [htag]; rfl) object hobject new hchange

namespace Op

/-- **What is asked** of a history of allocations, checked stores, assignments of payloads and full
collections. An assigned payload holds live references only, and is of the kind that the header
tells, if that is one with references; and a full collection is completed. -/
def Assigns (heap : Heap φ) : Op φ → Prop
  | edit target change => heap.Admits (fun tag new =>
      (∀ r ∈ new.references, heap.contains r) ∧ (tag.hasReferences → new.tag = tag)) target change
  | collect roots => (heap.collect roots).answer.isOk
  | allocate _ _ _ _ | store _ _ _ => True
  | mark _ | sweep | releaseAll => False

instance (heap : Heap φ) : (op : Op φ) → Decidable (op.Assigns heap)
  | edit target change => inferInstanceAs (Decidable (heap.Admits _ target change))
  | collect roots => inferInstanceAs (Decidable ((heap.collect roots).answer.isOk = true))
  | allocate _ _ _ _ | store _ _ _ => inferInstanceAs (Decidable True)
  | mark _ | sweep | releaseAll => inferInstanceAs (Decidable False)

/-- No payload of a kind with references takes the place of one whose header is that of a leaf. -/
def KeepsLeaves (heap : Heap φ) : Op φ → Prop
  | edit target change =>
    heap.Admits (fun tag new => new.tag.hasReferences → tag.hasReferences) target change
  | allocate _ _ _ _ | store _ _ _ | mark _ | sweep | collect _ | releaseAll => True

instance (heap : Heap φ) : (op : Op φ) → Decidable (op.KeepsLeaves heap)
  | edit target change => inferInstanceAs (Decidable (heap.Admits _ target change))
  | allocate _ _ _ _ | store _ _ _ | mark _ | sweep | collect _ | releaseAll =>
    inferInstanceAs (Decidable True)

end Op

/-! ### What is traced -/

/-- **What marking traces** is of the kind that its header tells, and refers to live objects. -/
structure Traceable (heap : Heap φ) : Prop where
  intact : heap.Intact
  allWhite : heap.AllWhite
  traced : ∀ h tag size object, heap.Holds h tag size object → tag.hasReferences →
    object.tag = tag ∧ ∀ r ∈ object.references, heap.contains r

/-- What a traced object refers to is what its payload holds. -/
theorem refers_iff_holds {a b : Handle} : heap.Refers a b ↔
    ∃ tag size object, heap.Holds a tag size object ∧ tag.hasReferences ∧
      b ∈ object.references := by
  constructor
  · rintro ⟨slot, tag, object, hfind, htag, hrefs, hobject, hb⟩
    exact ⟨tag, slot.size, object, ⟨slot, hfind, htag, rfl, hobject⟩, hrefs, hb⟩
  · rintro ⟨tag, size, object, ⟨slot, hfind, htag, -, hobject⟩, hrefs, hb⟩
    exact ⟨slot, tag, object, hfind, htag, hrefs, hobject, hb⟩

/-- The roots of a full collection that is completed are live. -/
theorem contains_of_collect_ok (hi : heap.Intact) (hok : (heap.collect roots).answer.isOk)
    (hr : h ∈ roots.toList) : heap.contains h := by
  obtain ⟨-, hdone, -⟩ := Marking.fromRoots_spec hi.headersDecode roots.toList
  rcases collect_cases heap roots with ⟨fault, -, hresult, -⟩ | ⟨reached, hanswer, -, -⟩
  · rw [hresult] at hok
    cases hok
  · rw [answer_mark] at hanswer
    rcases hmarked : (Marking.fromRoots heap roots.toList).2 with _ | fault
    · exact ((hdone hmarked).2.2 h hr).1
    · rw [hmarked] at hanswer
      cases hanswer

/-- No call of such a history leaves colours over. -/
theorem Op.Assigns.leavesColors_eq (hrule : op.Assigns heap) :
    op.leavesColors heap false = false := by
  cases op with
  | collect roots =>
    rcases collect_cases heap roots with ⟨fault, -, hresult, -⟩ | ⟨reached, hanswer, -, -⟩
    · rw [Op.Assigns, hresult] at hrule
      cases hrule
    · rw [Op.leavesColors, hanswer]
  | allocate | edit | store => rfl
  | mark | sweep | releaseAll => exact hrule.elim

namespace Traceable

theorem ofConfig (config : Config) : (Heap.ofConfig config : Heap φ).Traceable where
  intact := .ofConfig config
  allWhite := allWhite_ofConfig config
  traced := by
    rintro h tag size object ⟨slot, hfind, -⟩
    simp [find?, Heap.ofConfig] at hfind

variable (ht : heap.Traceable)
include ht

theorem reachesLive {rs : List Handle} (hroots : ∀ r ∈ rs, heap.contains r) :
    heap.ReachesLive rs := by
  intro h hr
  refine hr.mem_of_closed (fun k hk _ => hroots k hk) fun a b _ hab _ => ?_
  obtain ⟨tag, size, object, hh, hrefs, hb⟩ := refers_iff_holds.1 hab
  exact (ht.traced a tag size object hh hrefs).2 b hb

/-- A full collection from live roots is exact. -/
theorem collect_exact (hroots : ∀ r ∈ roots.toList, heap.contains r) :
    ∃ cycle, (heap.collect roots).answer = .ok cycle ∧
      heap.CollectsExactly roots (heap.collect roots).state cycle :=
  Heap.collect_exact ht.intact ht.allWhite (ht.reachesLive hroots)

/-- What a traced object holds that survives a full collection survives as well. -/
theorem contains_collect (hroots : ∀ r ∈ roots.toList, heap.contains r)
    (hh : heap.Holds h tag size object) (hrefs : tag.hasReferences)
    (hsurvives : (heap.collect roots).state.contains h) {r : Handle} (hr : r ∈ object.references) :
    (heap.collect roots).state.contains r := by
  obtain ⟨cycle, -, hexact⟩ := ht.collect_exact hroots
  have hreach := ((hexact.contains_iff h).1 hsurvives).2
  have hlive := (ht.traced h tag size object hh hrefs).2 r hr
  exact (hexact.contains_iff r).2
    ⟨hlive, hreach.step (refers_iff_holds.2 ⟨tag, size, object, hh, hrefs, hr⟩) trivial⟩

/-- What is to be seen of a call: of the object that it puts in, and of traced objects that stay. -/
theorem of_perform (hwhite : (op.perform heap).state.AllWhite)
    (hissued : ∀ h object size finalizer granted, op.issued heap = some h →
      op = .allocate object size finalizer granted →
        ∀ r ∈ object.references, (op.perform heap).state.contains r)
    (hstays : ∀ h tag size object, heap.Holds h tag size object → h ∉ op.released heap →
      tag.hasReferences → (op.payload heap h object).tag = tag ∧
        ∀ r ∈ (op.payload heap h object).references, (op.perform heap).state.contains r) :
    (op.perform heap).state.Traceable := by
  refine ⟨ht.intact.perform op, hwhite, fun h tag size object hh hrefs => ?_⟩
  rcases (ht.intact.contains_perform_iff op).1 hh.contains with hnew | ⟨hlive, hkept⟩
  · obtain ⟨new, charge, finalizer, granted, heq, -, -, hh'⟩ := ht.intact.exists_of_issued hnew
    obtain ⟨rfl, rfl, rfl⟩ := hh.unique hh'
    exact ⟨rfl, hissued h _ _ finalizer granted hnew heq⟩
  · obtain ⟨tag', charge, old, hold⟩ := ht.intact.exists_holds hlive
    obtain ⟨rfl, rfl, rfl⟩ := hh.unique (ht.intact.holds_perform op hold hkept)
    exact hstays h _ _ old hold hkept hrefs

/-- **One call** keeps what is traced traceable. -/
theorem perform (hrule : op.Assigns heap) : (op.perform heap).state.Traceable := by
  have hwhite : (op.perform heap).state.AllWhite :=
    .perform (fun _ => ht.allWhite) ht.intact hrule.leavesColors_eq
  have hkept {r : Handle} (hr : heap.contains r) (hstays : r ∉ op.released heap) :
      (op.perform heap).state.contains r :=
    (ht.intact.contains_perform_iff op).2 (.inr ⟨hr, hstays⟩)
  -- only a full collection releases anything
  have hsame {h : Handle} {tag : Tag} {size : UInt64} {object : Object}
      (hh : heap.Holds h tag size object) (hrefs : tag.hasReferences)
      (hnone : op.released heap = []) :
      object.tag = tag ∧ ∀ r ∈ object.references, (op.perform heap).state.contains r := by
    obtain ⟨htag, hlive⟩ := ht.traced h tag size object hh hrefs
    exact ⟨htag, fun r hr => hkept (hlive r hr) (hnone ▸ List.not_mem_nil)⟩
  cases op with
  | allocate new charge finalizer granted =>
    refine ht.of_perform hwhite ?_ fun h tag size object hh _ hrefs => hsame hh hrefs rfl
    rintro h object size finalizer granted hissued heq r hr
    obtain ⟨rfl, rfl, rfl, rfl⟩ := Op.allocate.inj heq
    rcases allocate_cases ht.intact.wellFormed new charge finalizer granted with
      ⟨_, -, -, heq⟩ | ⟨-, heq⟩ | ⟨hlive, -⟩
    · rw [Op.issued, Op.perform, heq] at hissued
      cases hissued
    · rw [Op.issued, Op.perform, heq] at hissued
      cases hissued
    · exact hkept (hlive r hr) List.not_mem_nil
  | edit target change =>
    refine ht.of_perform hwhite (by rintro _ _ _ _ _ - ⟨⟩) fun h tag size object hh _ hrefs => ?_
    rw [Op.payload]
    split
    · rename_i htarget
      subst htarget
      rcases hchange : change object with _ | new
      · exact hsame hh hrefs rfl
      · obtain ⟨hadmitted, htag⟩ := hrule.of_holds hh hchange
        exact ⟨htag hrefs, fun r hr => hkept (hadmitted r hr) List.not_mem_nil⟩
    · exact hsame hh hrefs rfl
  | store target field ref =>
    refine ht.of_perform hwhite (by rintro _ _ _ _ _ - ⟨⟩) fun h tag size object hh _ hrefs => ?_
    obtain ⟨htag, hlive⟩ := hsame hh hrefs rfl
    rw [Op.payload]
    split
    · rename_i hwritten
      rcases hstore : object.store field ref with _ | new
      · exact ⟨htag, hlive⟩
      · refine ⟨(Object.tag_of_store hstore).trans htag, fun r hr => ?_⟩
        rcases Object.mem_references_of_store hstore hr with hr | hr
        · exact hlive r hr
        · exact hkept (hwritten.2 r (Option.mem_toList.2 hr)) List.not_mem_nil
    · exact ⟨htag, hlive⟩
  | collect roots =>
    refine ht.of_perform hwhite (by rintro _ _ _ _ _ - ⟨⟩)
      fun h tag size object hh hstays hrefs => ?_
    have hroots (r : Handle) (hr : r ∈ roots.toList) : heap.contains r :=
      contains_of_collect_ok ht.intact hrule hr
    refine ⟨(ht.traced h tag size object hh hrefs).1, fun r hr => ?_⟩
    exact ht.contains_collect hroots hh hrefs (hkept hh.contains hstays) hr
  | mark | sweep | releaseAll => exact hrule.elim

theorem run (hrule : heap.Throughout Op.Assigns ops) : (heap.run ops).Traceable :=
  run_induction_of_throughout (fun _ _ ht => ht.perform) ht hrule

/-! ### The collection -/

variable (hroots : ∀ r ∈ roots.toList, heap.contains r)
include hroots

/-- **Marking follows payloads** exactly when all that is reachable through payloads is reachable
through traced objects. -/
theorem followsPayloads_iff : heap.FollowsPayloads roots ↔
    ∀ h, heap.PayloadReachable roots.toList h → heap.Reachable roots.toList h := by
  obtain ⟨cycle, -, hexact⟩ := ht.collect_exact hroots
  constructor
  · intro hfollows h hh
    exact ((hexact.contains_iff h).1 (hfollows.live h hh)).2
  · intro hcovered
    have hlive (h : Handle) (hh : heap.PayloadReachable roots.toList h) :
        (heap.collect roots).state.contains h :=
      (hexact.contains_iff h).2 ⟨ht.reachesLive hroots h (hcovered h hh), hcovered h hh⟩
    refine ⟨hlive, fun h object hh hget r hr => hlive r ?_⟩
    rw [(hexact.keeps h (hcovered h hh)).get?_eq] at hget
    exact hh.step hget hr

/-- So it is where no object on the way holds a reference behind the header of a leaf. -/
theorem followsPayloads_of_headers (hheaders : ∀ h tag size object,
      heap.PayloadReachable roots.toList h → heap.Holds h tag size object →
        object.references ≠ [] → tag.hasReferences) : heap.FollowsPayloads roots := by
  refine (ht.followsPayloads_iff hroots).2 fun h hh => ?_
  induction hh with
  | root mem => exact .root mem trivial
  | @step a b object reach live holds ih =>
    obtain ⟨tag, size, object', hheld⟩ := ht.intact.exists_holds (contains_of_get? live)
    obtain rfl := Option.some.inj (hheld.get?.symm.trans live)
    have hrefs := hheaders a tag size object' reach hheld (List.ne_nil_of_mem holds)
    exact ih.step (refers_iff_holds.2 ⟨tag, size, object', hheld, hrefs, holds⟩) trivial

end Traceable

/-! ### Leaves that are kept -/

/-- Behind the header of a leaf there is the payload of a leaf. -/
def LeavesKept (heap : Heap φ) : Prop :=
  ∀ h tag size object, heap.Holds h tag size object → object.tag.hasReferences → tag.hasReferences

theorem leavesKept_ofConfig (config : Config) : (Heap.ofConfig config : Heap φ).LeavesKept := by
  rintro h tag size object ⟨slot, hfind, -⟩
  simp [find?, Heap.ofConfig] at hfind

theorem LeavesKept.perform (hk : heap.LeavesKept) (hi : heap.Intact)
    (hrule : op.KeepsLeaves heap) : (op.perform heap).state.LeavesKept := by
  refine hi.kinds_perform (r := fun tag kind => kind.hasReferences → tag.hasReferences)
    (fun _ hrefs => hrefs) fun h tag size object hold hrefs => ?_
  cases op with
  | edit target change =>
    rw [Op.payload] at hrefs
    split at hrefs
    · rename_i htarget
      subst htarget
      rcases hchange : change object with _ | new
      · rw [hchange] at hrefs
        exact hk _ _ _ _ hold hrefs
      · rw [hchange] at hrefs
        exact hrule.of_holds hold hchange hrefs
    · exact hk _ _ _ _ hold hrefs
  | _ =>
    rw [(Op.keepsKinds_of_isChecked rfl).tag_payload hold.get?] at hrefs
    exact hk _ _ _ _ hold hrefs

theorem LeavesKept.run (hk : heap.LeavesKept) (hi : heap.Intact)
    (hrule : heap.Throughout Op.KeepsLeaves ops) : (heap.run ops).LeavesKept :=
  (run_induction_of_throughout (p := fun heap => heap.Intact ∧ heap.LeavesKept)
    (fun _ op hp hrule => ⟨hp.1.perform op, hp.2.perform hp.1 hrule⟩) ⟨hi, hk⟩ hrule).2

/-- **Full collections after assignments.** Take a heap after any history of allocations, checked
stores, full collections, and assignments of payloads that hold live references and are of the kind
that the header tells, if that is one with references. A full collection from live roots ends
without a fault and leaves what is reachable through traced objects. So it keeps what is reachable
through payloads, and what that refers to, exactly when the one covers the other; and it does if no
object on the way holds a reference behind the header of a leaf, as none does when no payload of a
kind with references was ever assigned to an object with the header of a leaf. -/
theorem collect_run_of_assigned (config : Config) (ops : List (Op φ))
    (hrule : (ofConfig config : Heap φ).Throughout Op.Assigns ops) (roots : Roots)
    (hroots : ∀ r ∈ roots.toList, ((ofConfig config : Heap φ).run ops).contains r) :
    let start : Heap φ := ofConfig config
    let heap := start.run ops
    (∃ cycle, (heap.collect roots).answer = .ok cycle) ∧
      (∀ h, (heap.collect roots).state.contains h ↔ heap.Reachable roots.toList h) ∧
      (heap.FollowsPayloads roots ↔
        ∀ h, heap.PayloadReachable roots.toList h → heap.Reachable roots.toList h) ∧
      ((∀ h tag size object, heap.PayloadReachable roots.toList h →
        heap.Holds h tag size object → object.references ≠ [] → tag.hasReferences) →
        heap.FollowsPayloads roots) ∧
      (start.Throughout Op.KeepsLeaves ops → heap.FollowsPayloads roots) := by
  intro start heap
  have ht : heap.Traceable := (Traceable.ofConfig config).run hrule
  obtain ⟨cycle, hanswer, hexact⟩ := ht.collect_exact hroots
  refine ⟨⟨cycle, hanswer⟩, fun h => ?_, ht.followsPayloads_iff hroots,
    ht.followsPayloads_of_headers hroots, fun hleaves => ?_⟩
  · rw [hexact.contains_iff, and_iff_right_iff_imp]
    exact ht.reachesLive hroots h
  · have hk : heap.LeavesKept := (leavesKept_ofConfig config).run (.ofConfig config) hleaves
    refine ht.followsPayloads_of_headers hroots fun h tag size object _ hh hrefs => ?_
    refine hk h tag size object hh ?_
    by_contra hleaf
    exact hrefs (Object.references_eq_nil (Bool.eq_false_iff.2 hleaf))

/-- A tagged value that is assigned in the place of another one, and an integer in that of a
string, do no harm. -/
theorem collect_run_of_assigned_tagged :
    let start : Heap Unit := ofConfig Config.standard
    let ops : List (Op Unit) := [.allocate (.tagged 1 none) 40 none true,
      .allocate (.str ⟨#[97]⟩) 33 none true, .edit ⟨1, 0⟩ (fun _ => some (.int 7)),
      .edit ⟨0, 0⟩ (fun _ => some (.tagged 2 (some ⟨1, 0⟩))), .collect ⟨none, [⟨0, 0⟩], []⟩]
    let roots : Roots := ⟨some ⟨0, 0⟩, [], []⟩
    start.Throughout Op.Assigns ops ∧ (∀ r ∈ roots.toList, (start.run ops).contains r) ∧
      start.Throughout Op.KeepsLeaves ops ∧ (start.run ops).FollowsPayloads roots ∧
      (start.run ops).PayloadReachable roots.toList ⟨1, 0⟩ := by
  intro start ops roots
  have hrule : start.Throughout Op.Assigns ops := by decide +kernel
  have hroots : ∀ r ∈ roots.toList, (start.run ops).contains r := by decide +kernel
  have hleaves : start.Throughout Op.KeepsLeaves ops := by decide +kernel
  have hget : (start.run ops).get? ⟨0, 0⟩ = some (.tagged 2 (some ⟨1, 0⟩)) := by decide +kernel
  obtain ⟨-, -, -, -, hfollows⟩ := collect_run_of_assigned Config.standard ops hrule roots hroots
  exact ⟨hrule, hroots, hleaves, hfollows hleaves,
    .step (.root List.mem_cons_self) hget List.mem_cons_self⟩

/-- **A payload is not followed.** An integer is given the payload of a pair that refers to another
integer. Its header still tells of an integer, so that the collection does not look at the pair, and
what it refers to is released. -/
theorem collect_frees_assigned :
    let start : Heap Unit := ofConfig Config.standard
    let ops : List (Op Unit) := [.allocate (.int 1) 32 none true, .allocate (.int 7) 32 none true,
      .edit ⟨0, 0⟩ fun _ => some (.pair (some ⟨1, 0⟩) none)]
    let heap := start.run ops
    let roots : Roots := ⟨none, [⟨0, 0⟩], []⟩
    start.Throughout Op.Assigns ops ∧ (∀ r ∈ roots.toList, heap.contains r) ∧
      heap.PayloadReachable roots.toList ⟨1, 0⟩ ∧
      (heap.collect roots).state.contains ⟨1, 0⟩ = false ∧
      (heap.collect roots).state.get? ⟨0, 0⟩ = some (.pair (some ⟨1, 0⟩) none) ∧
      ¬ heap.FollowsPayloads roots := by
  intro start ops heap roots
  have hrule : start.Throughout Op.Assigns ops := by decide +kernel
  have hroots : ∀ r ∈ roots.toList, heap.contains r := by decide +kernel
  have hget : heap.get? ⟨0, 0⟩ = some (.pair (some ⟨1, 0⟩) none) := by decide +kernel
  have hreach : heap.PayloadReachable roots.toList ⟨1, 0⟩ :=
    .step (.root List.mem_cons_self) hget List.mem_cons_self
  have hgone : (heap.collect roots).state.contains ⟨1, 0⟩ = false := by decide +kernel
  refine ⟨hrule, hroots, hreach, hgone, by decide +kernel, fun hfollows => ?_⟩
  rw [hfollows.live _ hreach] at hgone
  cases hgone

end MarkSweep.Heap
