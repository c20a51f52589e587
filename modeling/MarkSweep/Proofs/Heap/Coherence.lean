import MarkSweep.Proofs.Heap.Accounting

/-!
# Headers and payloads

The kind of an object is on record twice, in its header and in its payload, and the header shares
its word with the colour. An allocation writes both records, into a new slot or over what a released
object has left there; and no other call writes either of them, but for a change of the payload that
gives it another kind. So a heap whose payloads keep their kinds is coherent in every state
(`Coherent.run_of_keepsKinds`).
-/

namespace MarkSweep.Heap

variable {φ : Type} {heap heap' : Heap φ} {op : Op φ} {ops : List (Op φ)} {h : Handle}
  {object : Object}

/-! ### The two records of a kind -/

/-- What relates the kind in the header of every live object to that of its payload is true of new
objects, where the two are the same, and has to be seen of payloads that change. -/
theorem Intact.kinds_perform (hi : heap.Intact) {r : Tag → Tag → Prop} (hrefl : ∀ tag, r tag tag)
    (hpayload : ∀ h tag size object, heap.Holds h tag size object →
      r tag (op.payload heap h object).tag) :
    ∀ h tag size object, (op.perform heap).state.Holds h tag size object → r tag object.tag := by
  intro h tag size object hh
  rcases (hi.contains_perform_iff op).1 hh.contains with hnew | ⟨hlive, hstays⟩
  · obtain ⟨new, charge, -, -, -, -, -, hh'⟩ := hi.exists_of_issued hnew
    obtain ⟨rfl, rfl, rfl⟩ := hh.unique hh'
    exact hrefl _
  · obtain ⟨tag', charge, old, hold⟩ := hi.exists_holds hlive
    obtain ⟨rfl, rfl, rfl⟩ := hh.unique (hi.holds_perform op hold hstays)
    exact hpayload h _ _ old hold

/-! ### Calls that keep kinds -/

namespace Op

/-- The payload that a call puts in the place of another one is of the same kind. -/
def KeepsKinds (heap : Heap φ) : Op φ → Prop
  | edit target change => ∀ old ∈ heap.get? target, ∀ new ∈ change old, new.tag = old.tag
  | allocate _ _ _ _ | store _ _ _ | mark _ | sweep | collect _ | releaseAll => True

instance (heap : Heap φ) : (op : Op φ) → Decidable (op.KeepsKinds heap)
  | edit target change =>
    inferInstanceAs (Decidable (∀ old ∈ heap.get? target, ∀ new ∈ change old, new.tag = old.tag))
  | allocate _ _ _ _ | store _ _ _ | mark _ | sweep | collect _ | releaseAll =>
    inferInstanceAs (Decidable True)

/-- A write to a field keeps kinds, whether the reference is checked or not. -/
theorem keepsKinds_store (heap : Heap φ) (target : Handle) (field : RefField)
    (ref : Option Handle) : (edit target fun object => object.store field ref).KeepsKinds heap :=
  fun _ _ _ hnew => Object.tag_of_store hnew

/-- A vector that grows stays a vector. -/
theorem keepsKinds_append (heap : Heap φ) (target : Handle) (items : Array Int64) :
    (edit target (Object.append items)).KeepsKinds heap :=
  fun _ _ _ hnew => Object.tag_of_append hnew

/-- What is to be seen of such a call: every object that stays is of the kind that it was of. -/
theorem KeepsKinds.tag_payload (hkinds : op.KeepsKinds heap)
    (hget : heap.get? h = some object) : (op.payload heap h object).tag = object.tag := by
  cases op with
  | edit target change =>
    rw [Op.payload]
    split
    · rename_i htarget
      subst htarget
      rcases hchange : change object with _ | new
      · rfl
      · exact hkinds object hget new hchange
    · rfl
  | store target field ref =>
    rw [Op.payload]
    split
    · rcases hstore : object.store field ref with _ | new
      · rfl
      · exact Object.tag_of_store hstore
    · rfl
  | allocate | mark | sweep | collect | releaseAll => rfl

end Op

/-! ### Coherent heaps -/

/-- The header of every live object is that of the kind of its payload. -/
def Coherent (heap : Heap φ) : Prop :=
  ∀ h object, heap.get? h = some object → ∃ size, heap.Holds h object.tag size object

theorem coherent_ofConfig (config : Config) : (Heap.ofConfig config : Heap φ).Coherent := by
  intro h object hget
  simp [get?, find?, Heap.ofConfig] at hget

namespace Coherent

/-- In a coherent heap every reference is followed. -/
theorem refers (hc : heap.Coherent) {a b : Handle} (hget : heap.get? a = some object)
    (hb : b ∈ object.references) : heap.Refers a b := by
  obtain ⟨size, slot, hfind, htag, -, hobject⟩ := hc a object hget
  refine ⟨slot, object.tag, object, hfind, htag, ?_, hobject, hb⟩
  rcases hrefs : object.tag.hasReferences with _ | _
  · rw [Object.references_eq_nil hrefs] at hb
    cases hb
  · rfl

/-- The header of a live object, read for its kind. -/
theorem tag_eq (hc : heap.Coherent) {slot : Slot} (hfind : heap.find? h = some slot)
    (hobject : slot.object = some object) : slot.header.tag = .ok object.tag := by
  obtain ⟨size, slot', hfind', htag, -⟩ := hc h object (get?_of_find? hfind hobject)
  obtain rfl := Option.some.inj (hfind.symm.trans hfind')
  exact htag

/-- Colours do not matter. -/
theorem of_colorless_eq (hc : heap.Coherent) (hcolorless : heap'.colorless = heap.colorless) :
    heap'.Coherent := by
  intro h object hget
  obtain ⟨size, hh⟩ := hc h object ((get?_of_colorless_eq hcolorless h).symm.trans hget)
  exact ⟨size, hh.of_colorless_eq hcolorless⟩

theorem tag_eq_of_holds (hc : heap.Coherent) {tag : Tag} {size : UInt64}
    (hh : heap.Holds h tag size object) : tag = object.tag := by
  obtain ⟨size', hh'⟩ := hc h object hh.get?
  exact (hh.unique hh').1

/-- **One call** that keeps kinds keeps headers and payloads coherent. -/
theorem perform (hc : heap.Coherent) (hi : heap.Intact) (hkinds : op.KeepsKinds heap) :
    (op.perform heap).state.Coherent := by
  have hpayload (h : Handle) (tag : Tag) (size : UInt64) (object : Object)
      (hh : heap.Holds h tag size object) : tag = (op.payload heap h object).tag :=
    (hc.tag_eq_of_holds hh).trans (hkinds.tag_payload hh.get?).symm
  have hafter := hi.kinds_perform (r := (· = ·)) (fun _ => rfl) hpayload
  intro h object hget
  obtain ⟨tag, size, object', hh⟩ := (hi.perform op).exists_holds (contains_of_get? hget)
  obtain rfl := Option.some.inj (hh.get?.symm.trans hget)
  exact ⟨size, hafter h tag size object' hh ▸ hh⟩

/-- **Every history** of such calls keeps them coherent. -/
theorem run_of_keepsKinds (hc : heap.Coherent) (hi : heap.Intact)
    (hkinds : heap.Throughout Op.KeepsKinds ops) : (heap.run ops).Coherent :=
  (run_induction_of_throughout (p := fun heap => heap.Intact ∧ heap.Coherent)
    (fun _ op hp hkinds => ⟨hp.1.perform op, hp.2.perform hp.1 hkinds⟩) ⟨hi, hc⟩ hkinds).2

end Coherent

end MarkSweep.Heap
