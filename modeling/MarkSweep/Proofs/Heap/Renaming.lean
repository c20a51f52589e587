import Mathlib.Data.List.Forall2
import MarkSweep.Proofs.Heap.Resting

/-!
# Heaps up to a renaming of handles

Two heaps that were used alike give out different handles as soon as one of them collects and the
other does not. `Heap.Matches` compares them through a relation between their handles that is one
to one and relates objects with the same data, references aside, and with related references in
the same fields. It need not relate every object: what one of the heaps has not collected yet is
left out.

The relation gets smaller when either heap is trimmed (`Matches.trim_left`), grows by a pair when
both get the same new object (`Matches.insert`), and stays when related references are written to
the same field of related objects (`Matches.write`).
-/

namespace MarkSweep

/-! ### Related references -/

section Rel

variable {α β : Type} {r s : α → β → Prop}

theorem rel_mono {x : Option α} {y : Option β} (hxy : Option.Rel r x y)
    (hrs : ∀ a ∈ x, ∀ b, r a b → s a b) : Option.Rel s x y := by
  rcases hxy with ⟨hab⟩ | _
  · exact .some (hrs _ rfl _ hab)
  · exact .none

theorem rel_flip {x : Option α} {y : Option β} (hxy : Option.Rel r x y) :
    Option.Rel (flip r) y x := by
  rcases hxy with ⟨hab⟩ | _
  · exact .some hab
  · exact .none

theorem rel_getElem? {l : List α} {l' : List β} (hl : List.Forall₂ r l l') (i : Nat) :
    Option.Rel r l[i]? l'[i]? := by
  induction hl generalizing i with
  | nil => exact .none
  | cons hab _ ih =>
    rcases i with _ | i
    · exact .some hab
    · exact ih i

end Rel

variable {r s : Handle → Handle → Prop}

namespace Object

/-- The same data, and related references in the same fields. -/
inductive Renames (r : Handle → Handle → Prop) : Object → Object → Prop
  | leaf {o : Object} (hleaf : o.tag.hasReferences = false) : Renames r o o
  | pair {a b c d : Option Handle} (lhs : Option.Rel r a c) (rhs : Option.Rel r b d) :
      Renames r (pair a b) (pair c d)
  | tagged (discriminant : UInt64) {a b : Option Handle} (value : Option.Rel r a b) :
      Renames r (tagged discriminant a) (tagged discriminant b)
  | closure (entry : Label) {a b : Option Handle} (env : Option.Rel r a b) :
      Renames r (closure a entry) (closure b entry)

/-- The object with its references renamed. -/
def mapReferences (f : Handle → Handle) : Object → Object
  | .pair lhs rhs => .pair (lhs.map f) (rhs.map f)
  | .tagged discriminant value => .tagged discriminant (value.map f)
  | .closure env entry => .closure (env.map f) entry
  | object => object

namespace Renames

variable {o p : Object} (h : Renames r o p)
include h

theorem tag_eq : o.tag = p.tag := by
  rcases h with _ | _ | _ | _ <;> rfl

theorem flip : Renames (flip r) p o := by
  rcases h with hleaf | ⟨lhs, rhs⟩ | ⟨d, value⟩ | ⟨entry, env⟩
  · exact .leaf hleaf
  · exact .pair (rel_flip lhs) (rel_flip rhs)
  · exact .tagged d (rel_flip value)
  · exact .closure entry (rel_flip env)

theorem mono (hrs : ∀ a ∈ o.references, ∀ b, r a b → s a b) : Renames s o p := by
  rcases h with hleaf | ⟨lhs, rhs⟩ | ⟨d, value⟩ | ⟨entry, env⟩
  · exact .leaf hleaf
  · refine .pair (rel_mono lhs fun a ha => hrs a ?_) (rel_mono rhs fun a ha => hrs a ?_)
    · exact List.mem_append_left _ (Option.mem_toList.2 ha)
    · exact List.mem_append_right _ (Option.mem_toList.2 ha)
  · exact .tagged d (rel_mono value fun a ha => hrs a (Option.mem_toList.2 ha))
  · exact .closure entry (rel_mono env fun a ha => hrs a (Option.mem_toList.2 ha))

/-- A reference of one object has its counterpart in the other. -/
theorem exists_reference {a : Handle} (ha : a ∈ o.references) : ∃ b ∈ p.references, r a b := by
  have hfield {x y : Option Handle} (hxy : Option.Rel r x y) (hx : a ∈ x.toList) :
      ∃ b ∈ y.toList, r a b := by
    rcases hxy with ⟨hab⟩ | _
    · obtain rfl := List.mem_singleton.1 hx
      exact ⟨_, List.mem_singleton_self _, hab⟩
    · cases hx
  rcases h with hleaf | ⟨lhs, rhs⟩ | ⟨d, value⟩ | ⟨entry, env⟩
  · rw [references_eq_nil hleaf] at ha
    cases ha
  · rcases List.mem_append.1 ha with ha | ha
    · obtain ⟨b, hb, hab⟩ := hfield lhs ha
      exact ⟨b, List.mem_append_left _ hb, hab⟩
    · obtain ⟨b, hb, hab⟩ := hfield rhs ha
      exact ⟨b, List.mem_append_right _ hb, hab⟩
  · exact hfield value ha
  · exact hfield env ha

/-- Related writes to the same field both apply or both do not, and give related objects. -/
theorem store (field : RefField) {x y : Option Handle} (hxy : Option.Rel r x y) :
    Option.Rel (Renames r) (o.store field x) (p.store field y) := by
  rcases h with hleaf | ⟨lhs, rhs⟩ | ⟨d, value⟩ | ⟨entry, env⟩
  · have hnone (z : Option Handle) : o.store field z = none := by
      rcases o <;> rcases field <;> first | rfl | cases hleaf
    rw [hnone, hnone]
    exact .none
  · rcases field
    · exact .some (.pair hxy rhs)
    · exact .some (.pair lhs hxy)
    · exact .none
    · exact .none
  · rcases field
    · exact .none
    · exact .none
    · exact .some (.tagged d hxy)
    · exact .none
  · rcases field
    · exact .none
    · exact .none
    · exact .none
    · exact .some (.closure entry hxy)

/-- If the relation is that of a function, the references are renamed by it. -/
theorem eq_mapReferences {f : Handle → Handle} (hf : ∀ a ∈ o.references, ∀ b, r a b → f a = b) :
    p = o.mapReferences f := by
  have hfield {x y : Option Handle} (hxy : Option.Rel r x y)
      (hx : ∀ a ∈ x.toList, ∀ b, r a b → f a = b) : y = x.map f := by
    rcases hxy with ⟨hab⟩ | _
    · exact congrArg some (hx _ (List.mem_singleton_self _) _ hab).symm
    · rfl
  rcases h with hleaf | ⟨lhs, rhs⟩ | ⟨d, value⟩ | ⟨entry, env⟩
  · rcases o <;> first | rfl | cases hleaf
  · have hlhs := hfield lhs fun a ha => hf a (List.mem_append_left _ ha)
    have hrhs := hfield rhs fun a ha => hf a (List.mem_append_right _ ha)
    rw [hlhs, hrhs]
    rfl
  · have hvalue := hfield value hf
    rw [hvalue]
    rfl
  · have henv := hfield env hf
    rw [henv]
    rfl

end Renames

end Object

/-! ### Related heaps -/

namespace Heap

variable {φ : Type} {heap₁ heap₂ after₁ after₂ : Heap φ}

/-- Related handles are those of live objects with the same data and charge. -/
def MatchesAt (heap₁ heap₂ : Heap φ) (r : Handle → Handle → Prop) (a b : Handle) : Prop :=
  ∃ s t o p, heap₁.find? a = some s ∧ heap₂.find? b = some t ∧ s.object = some o ∧
    t.object = some p ∧ s.size = t.size ∧ Object.Renames r o p

/-- **Two heaps match** through a relation of their handles that is one to one. -/
structure Matches (r : Handle → Handle → Prop) (heap₁ heap₂ : Heap φ) : Prop where
  left_unique : ∀ a a' b, r a b → r a' b → a = a'
  right_unique : ∀ a b b', r a b → r a b' → b = b'
  related : ∀ a b, r a b → heap₁.MatchesAt heap₂ r a b

namespace MatchesAt

variable {a b : Handle} (h : heap₁.MatchesAt heap₂ r a b)
include h

theorem flip : heap₂.MatchesAt heap₁ (flip r) b a := by
  obtain ⟨s, t, o, p, hs, ht, ho, hp, hsize, hren⟩ := h
  exact ⟨t, s, p, o, ht, hs, hp, ho, hsize.symm, hren.flip⟩

theorem contains_left : heap₁.contains a := by
  obtain ⟨s, -, -, -, hs, -⟩ := h
  exact contains_of_find? hs

theorem contains_right : heap₂.contains b := h.flip.contains_left

/-- Objects that are kept are related as before, if their references are. -/
theorem keeps (hleft : heap₁.Keeps after₁ a) (hright : heap₂.Keeps after₂ b)
    (hrs : ∀ o, heap₁.get? a = some o → ∀ c ∈ o.references, ∀ d, r c d → s c d) :
    after₁.MatchesAt after₂ s a b := by
  obtain ⟨t, u, o, p, ht, hu, ho, hp, hsize, hren⟩ := h
  obtain ⟨t', next, ht', hafter⟩ := hleft
  obtain ⟨u', next', hu', hafter'⟩ := hright
  obtain rfl := Option.some.inj (ht.symm.trans ht')
  obtain rfl := Option.some.inj (hu.symm.trans hu')
  exact ⟨_, _, o, p, hafter, hafter', ho, hp, hsize, hren.mono (hrs o (get?_of_find? ht ho))⟩

end MatchesAt

namespace Matches

variable (hm : Matches r heap₁ heap₂)
include hm

theorem symm : Matches (flip r) heap₂ heap₁ :=
  ⟨fun b b' a hb hb' => hm.right_unique a b b' hb hb',
    fun b a a' ha ha' => hm.left_unique a a' b ha ha', fun b a hab => (hm.related a b hab).flip⟩

/-- Trimming one heap leaves the relation between what is left of it and the other. -/
theorem trim_left {roots : List Handle} (ht : heap₁.Trims roots after₁) :
    Matches (fun a b => after₁.contains a ∧ r a b) after₁ heap₂ := by
  refine ⟨?_, ?_, ?_⟩
  · rintro a a' b ⟨-, hab⟩ ⟨-, hab'⟩
    exact hm.left_unique a a' b hab hab'
  · rintro a b b' ⟨-, hab⟩ ⟨-, hab'⟩
    exact hm.right_unique a b b' hab hab'
  · rintro a b ⟨ha, hab⟩
    have hkeep := ht.keeps_of_contains a ha
    have hrelated := hm.related a b hab
    -- what is left refers to what is left, so the smaller relation still covers its references
    refine hrelated.keeps hkeep (.refl hrelated.contains_right) fun o ho c hc d hcd => ⟨?_, hcd⟩
    rw [← hkeep.get?_eq] at ho
    exact ht.resting.closed a o ho c hc

/-- Two new objects, related like their references, are a new pair. -/
theorem insert {h k : Handle} {o p : Object} {size : UInt64} (hg₁ : heap₁.Gains o size h after₁)
    (hg₂ : heap₂.Gains p size k after₂) (hren : Object.Renames r o p) :
    Matches (fun a b => r a b ∨ a = h ∧ b = k) after₁ after₂ := by
  have hold₁ (a b : Handle) (hab : r a b) : a ≠ h := by
    rintro rfl
    have hfresh := hg₁.fresh
    rw [(hm.related a b hab).contains_left] at hfresh
    cases hfresh
  have hold₂ (a b : Handle) (hab : r a b) : b ≠ k := by
    rintro rfl
    have hfresh := hg₂.fresh
    rw [(hm.related a b hab).contains_right] at hfresh
    cases hfresh
  refine ⟨?_, ?_, ?_⟩
  · rintro a a' b (hab | ⟨rfl, rfl⟩) (hab' | ⟨rfl, hb⟩)
    · exact hm.left_unique a a' b hab hab'
    · exact absurd hb (hold₂ a b hab)
    · exact absurd rfl (hold₂ a' b hab')
    · rfl
  · rintro a b b' (hab | ⟨rfl, rfl⟩) (hab' | ⟨ha, rfl⟩)
    · exact hm.right_unique a b b' hab hab'
    · exact absurd ha (hold₁ a b hab)
    · exact absurd rfl (hold₁ a b' hab')
    · rfl
  · rintro a b (hab | ⟨rfl, rfl⟩)
    · have hrelated := hm.related a b hab
      exact hrelated.keeps (hg₁.keeps a hrelated.contains_left)
        (hg₂.keeps b hrelated.contains_right) fun _ _ _ _ _ hcd => .inl hcd
    · exact ⟨_, _, o, p, hg₁.find?_self, hg₂.find?_self, rfl, rfl, rfl,
        hren.mono fun _ _ _ hcd => .inl hcd⟩

/-- Related writes to related objects. -/
theorem write {h k : Handle} {old₁ old₂ new₁ new₂ : Object} (hhk : r h k)
    (hget₁ : heap₁.get? h = some old₁) (hget₂ : heap₂.get? k = some old₂)
    (hren : Object.Renames r new₁ new₂) :
    Matches r (heap₁.withObject h new₁) (heap₂.withObject k new₂) := by
  refine ⟨hm.left_unique, hm.right_unique, ?_⟩
  intro a b hab
  have hrelated := hm.related a b hab
  by_cases ha : a = h
  · subst ha
    obtain rfl := hm.right_unique a b k hab hhk
    obtain ⟨s, t, o, p, hs, ht, -, -, hsize, -⟩ := hrelated
    refine ⟨s.withObject new₁, t.withObject new₂, new₁, new₂, ?_, ?_, rfl, rfl, hsize, hren⟩
    · rw [find?_withObject hget₁, if_pos rfl, hs, Option.map_some]
    · rw [find?_withObject hget₂, if_pos rfl, ht, Option.map_some]
  · have hb : b ≠ k := fun heq => ha (hm.left_unique a h b hab (heq ▸ hhk))
    exact hrelated.keeps (keeps_withObject hget₁ ha hrelated.contains_left)
      (keeps_withObject hget₂ hb hrelated.contains_right) fun _ _ _ _ _ hcd => hcd

/-- What is reachable from related roots is related. -/
theorem exists_reachable (hr₁ : heap₁.Resting) (hr₂ : heap₂.Resting) {roots₁ roots₂ : List Handle}
    (hroots : ∀ a ∈ roots₁, ∃ b ∈ roots₂, r a b) {a : Handle} (ha : heap₁.Reachable roots₁ a) :
    ∃ b, r a b ∧ heap₂.Reachable roots₂ b := by
  induction ha with
  | root mem _ =>
    obtain ⟨b, hb, hab⟩ := hroots _ mem
    exact ⟨b, hab, .root hb trivial⟩
  | step _ refers _ ih =>
    obtain ⟨b, hab, hb⟩ := ih
    obtain ⟨s, t, o, p, hs, ht, ho, hp, -, hren⟩ := hm.related _ b hab
    obtain ⟨o', hget, hc⟩ := hr₁.refers_iff.1 refers
    obtain rfl := Option.some.inj ((get?_of_find? hs ho).symm.trans hget)
    obtain ⟨d, hd, hcd⟩ := hren.exists_reference hc
    exact ⟨d, hcd, hb.step (hr₂.refers_iff.2 ⟨p, get?_of_find? ht hp, hd⟩) trivial⟩

end Matches

end Heap

end MarkSweep
