import MarkSweep.Heap.Mark
import MarkSweep.Proofs.Heap.Erasure
import MarkSweep.Proofs.Heap.Links

/-!
# The three colours while marking goes on

Marking may start from any colours, and what is not White at the start is never looked into. The
invariant `Marking.Tricolor` compares the marking with the heap it started from: the objects met so
far were White and are reachable through White objects, they are Black once they were taken from
the queue and Gray while they wait there, and no other object has changed at all. It holds at every
moment, also at that of a fault.

`Marking.Traced` is the other half: what a Black object of this marking refers to has been met. It
fails only while an object is being visited, and when the queue is empty it makes the objects that
were reached a closed set (`mark_spec`).
-/

namespace MarkSweep

variable {φ : Type}

/-- The header stands for a kind and a colour. -/
def Header.Decodes (h : Header) : Prop := (∃ tag, h.tag = .ok tag) ∧ ∃ c, h.color = .ok c

theorem Header.Decodes.setColor {h : Header} (hd : h.Decodes) (c : Color) :
    (h.setColor c).Decodes := by
  obtain ⟨⟨tag, htag⟩, -⟩ := hd
  exact ⟨⟨tag, by rw [Header.tag_setColor, htag]⟩, c, Header.color_setColor h c⟩

theorem Header.decodes_make (tag : Tag) (c : Color) : (Header.make tag c).Decodes :=
  ⟨⟨tag, Header.tag_make tag c⟩, c, Header.color_make tag c⟩

namespace Heap

variable {heap heap' : Heap φ} {h k : Handle} {c d : Color}

/-- Every header of a live object stands for a kind and a colour. -/
def HeadersDecode (heap : Heap φ) : Prop :=
  ∀ h slot, heap.find? h = some slot → slot.header.Decodes

theorem HasColor.contains (hc : heap.HasColor c h) : heap.contains h := by
  obtain ⟨slot, hfind, -⟩ := hc
  exact contains_of_find? hfind

/-- An object has one colour. -/
theorem HasColor.unique (hc : heap.HasColor c h) (hd : heap.HasColor d h) : c = d := by
  obtain ⟨slot, hfind, hcolor⟩ := hc
  obtain ⟨slot', hfind', hcolor'⟩ := hd
  obtain rfl : slot = slot' := Option.some.inj (hfind.symm.trans hfind')
  exact Except.ok.inj (hcolor.symm.trans hcolor')

theorem find?_recolor (heap : Heap φ) (h : Handle) (c : Color) (k : Handle) :
    (heap.recolor h c).find? k =
      if h.slot = k.slot then (heap.find? k).map (Slot.recolor c) else heap.find? k :=
  find?_updateSlot fun s => Slot.isLive_recolor k.generation c s

/-- Painting an object gives it the colour, and leaves the colours of the others. -/
theorem hasColor_recolor_iff (hlive : heap.contains h) :
    (heap.recolor h c).HasColor d k ↔ if k = h then d = c else heap.HasColor d k := by
  rw [HasColor, find?_recolor]
  by_cases hslot : h.slot = k.slot
  · by_cases hk : heap.contains k
    · obtain rfl := eq_of_slot_eq hlive hk hslot
      obtain ⟨slot, hfind⟩ := Option.isSome_iff_exists.1 hk
      rw [if_pos rfl, if_pos rfl, hfind, Option.map_some]
      simp only [Option.some.injEq, exists_eq_left', Slot.recolor, Header.color_setColor,
        Except.ok.injEq]
      exact eq_comm
    · have hne : k ≠ h := fun heq => hk (heq ▸ hlive)
      have hnone : heap.find? k = none := by
        simpa [contains] using hk
      rw [if_pos hslot, if_neg hne, HasColor, hnone]
      simp
  · have hne : k ≠ h := fun heq => hslot (heq ▸ rfl)
    rw [if_neg hslot, if_neg hne, HasColor]

end Heap

namespace Marking

/-- The handles met so far: the objects that are Black, and those that wait. -/
def found (m : Marking φ) : List Handle := m.reached ++ m.pending.toList

/-- The marking after an object turned Black, before its references are shaded. -/
def blacken (m : Marking φ) (h : Handle) : Marking φ :=
  { m with heap := m.heap.recolor h .black, reached := h :: m.reached }

/-- **The tricolour invariant** of a marking that began with `heap`. -/
structure Tricolor (heap : Heap φ) (roots : List Handle) (m : Marking φ) : Prop where
  /-- Nothing but colours changes. -/
  colorless_eq : m.heap.colorless = heap.colorless
  /-- No object is met twice. -/
  nodup : m.found.Nodup
  /-- What is met is reachable through White objects. -/
  reachable : ∀ h ∈ m.found, heap.WhiteReachable roots h
  /-- What has left the queue is Black. -/
  black : ∀ h ∈ m.reached, m.heap.HasColor .black h
  /-- What waits in it is Gray. -/
  gray : ∀ h ∈ m.pending.toList, m.heap.HasColor .gray h
  /-- What has not been met keeps its colour. -/
  unmet : ∀ h, h ∉ m.found → ∀ c, m.heap.HasColor c h ↔ heap.HasColor c h

/-- A handle has been seen to: it is live, and if its object was White it has been met. -/
def Settled (heap : Heap φ) (m : Marking φ) (h : Handle) : Prop :=
  heap.contains h ∧ (heap.HasColor .white h → h ∈ m.found)

/-- What the Black objects of the marking refer to has been seen to. -/
def Traced (heap : Heap φ) (m : Marking φ) : Prop :=
  ∀ a ∈ m.reached, ∀ b, heap.Refers a b → m.Settled heap b

section Steps

variable {heap : Heap φ} {roots : List Handle} {m : Marking φ} {h k : Handle}

/-- What shading a handle can come to, when the colours decode. -/
theorem shade_cases (hdecode : m.heap.contains h → ∃ c, m.heap.HasColor c h) :
    (m.heap.contains h = false ∧ m.shade h = (m, some (.staleHandle h))) ∨
    (m.heap.HasColor .white h ∧ m.shade h =
      ({ m with heap := m.heap.recolor h .gray, pending := m.pending.push h }, none)) ∨
    (m.heap.contains h ∧ ¬m.heap.HasColor .white h ∧ m.shade h = (m, none)) := by
  rcases hfind : m.heap.find? h with _ | slot
  · exact .inl ⟨by rw [Heap.contains, hfind]; rfl, by simp [shade, hfind]⟩
  · have hlive := Heap.contains_of_find? hfind
    obtain ⟨c, hc⟩ := hdecode hlive
    obtain ⟨slot', hfind', hcolor⟩ := id hc
    obtain rfl : slot = slot' := Option.some.inj (hfind.symm.trans hfind')
    have hfault : slot.header.colorOrFault = .ok c := by
      rw [Header.colorOrFault, hcolor]
      rfl
    by_cases hwhite : c = .white
    · subst hwhite
      exact .inr (.inl ⟨hc, by simp [shade, hfind, hfault]⟩)
    · refine .inr (.inr ⟨hlive, fun hw => hwhite (hc.unique hw), ?_⟩)
      rcases c with _ | _ | _
      · exact absurd rfl hwhite
      · simp [shade, hfind, hfault]
      · simp [shade, hfind, hfault]

namespace Tricolor

variable (hm : Tricolor heap roots m)
include hm

theorem contains_eq (k : Handle) : m.heap.contains k = heap.contains k :=
  Heap.contains_eq_of_skeleton_eq (Heap.skeleton_eq_of_colorless_eq hm.colorless_eq) k

/-- What is White now was White at the start and has not been met. -/
theorem white_iff : m.heap.HasColor .white k ↔ k ∉ m.found ∧ heap.HasColor .white k := by
  constructor
  · intro hk
    have hunmet : k ∉ m.found := by
      intro hmem
      rcases List.mem_append.1 hmem with hmem | hmem
      · cases hk.unique (hm.black k hmem)
      · cases hk.unique (hm.gray k hmem)
    exact ⟨hunmet, (hm.unmet k hunmet _).1 hk⟩
  · rintro ⟨hunmet, hk⟩
    exact (hm.unmet k hunmet _).2 hk

/-- Colours decode while marking goes on. -/
theorem exists_hasColor (hdecode : heap.HeadersDecode) (hk : m.heap.contains k) :
    ∃ c, m.heap.HasColor c k := by
  by_cases hmem : k ∈ m.found
  · rcases List.mem_append.1 hmem with hmem | hmem
    · exact ⟨_, hm.black k hmem⟩
    · exact ⟨_, hm.gray k hmem⟩
  · rw [hm.contains_eq] at hk
    obtain ⟨slot, hfind⟩ := Option.isSome_iff_exists.1 hk
    obtain ⟨-, c, hc⟩ := hdecode k slot hfind
    exact ⟨c, (hm.unmet k hmem c).2 ⟨slot, hfind, hc⟩⟩

theorem refers_iff {a b : Handle} : m.heap.Refers a b ↔ heap.Refers a b :=
  ⟨.of_colorless_eq hm.colorless_eq, .of_colorless_eq hm.colorless_eq.symm⟩

/-- Kinds decode while marking goes on. -/
theorem exists_tag (hdecode : heap.HeadersDecode) {slot : Slot}
    (hfind : m.heap.find? k = some slot) : ∃ tag, slot.header.tag = .ok tag := by
  obtain ⟨old, hold, heq⟩ := Heap.find?_of_colorless_eq hm.colorless_eq hfind
  obtain ⟨⟨tag, htag⟩, -⟩ := hdecode k old hold
  have hheader : (slot.header.setColor .white).tag = (old.header.setColor .white).tag :=
    congrArg (fun s => s.header.tag) heq
  rw [Header.tag_setColor, Header.tag_setColor] at hheader
  exact ⟨tag, hheader.trans htag⟩

/-- A White object that is met turns Gray and is put at the end of the queue. -/
theorem queue (hwhite : m.heap.HasColor .white h) (hreach : heap.WhiteReachable roots h) :
    Tricolor heap roots
      { m with heap := m.heap.recolor h .gray, pending := m.pending.push h } := by
  obtain ⟨hunmet, -⟩ := hm.white_iff.1 hwhite
  have hfound : ({ m with heap := m.heap.recolor h .gray, pending := m.pending.push h } :
      Marking φ).found = m.found ++ [h] := by
    simp [found]
  have hne (k : Handle) (hk : k ∈ m.found) : k ≠ h := fun heq => hunmet (heq ▸ hk)
  constructor
  case colorless_eq => rw [Heap.colorless_recolor, hm.colorless_eq]
  case nodup =>
    rw [hfound, List.nodup_append]
    exact ⟨hm.nodup, by simp, by simpa using hne⟩
  case reachable =>
    intro k hk
    rw [hfound] at hk
    rcases List.mem_append.1 hk with hk | hk
    · exact hm.reachable k hk
    · rwa [List.mem_singleton.1 hk]
  case black =>
    intro k hk
    rw [Heap.hasColor_recolor_iff hwhite.contains,
      if_neg (hne k (List.mem_append_left _ hk))]
    exact hm.black k hk
  case gray =>
    intro k hk
    rw [Worklist.toList_push] at hk
    rw [Heap.hasColor_recolor_iff hwhite.contains]
    rcases List.mem_append.1 hk with hk | hk
    · rw [if_neg (hne k (List.mem_append_right _ hk))]
      exact hm.gray k hk
    · rw [if_pos (List.mem_singleton.1 hk)]
  case unmet =>
    intro k hk c
    rw [hfound, List.mem_append, not_or, List.mem_singleton] at hk
    rw [Heap.hasColor_recolor_iff hwhite.contains, if_neg hk.2]
    exact hm.unmet k hk.1 c

/-- The object taken from the queue turns Black. -/
theorem take {rest : Worklist} (hpop : m.pending.pop? = some (h, rest)) :
    Tricolor heap roots (({ m with pending := rest } : Marking φ).blacken h) ∧
      ∀ k, k ∈ (({ m with pending := rest } : Marking φ).blacken h).found ↔ k ∈ m.found := by
  have hlist := Worklist.toList_of_pop? hpop
  have hgray : m.heap.HasColor .gray h := hm.gray h (by simp [hlist])
  have hperm : (({ m with pending := rest } : Marking φ).blacken h).found.Perm m.found := by
    rw [found, found, hlist]
    exact List.perm_middle.symm
  have hnodup := hperm.nodup_iff.2 hm.nodup
  refine ⟨⟨?_, hnodup, ?_, ?_, ?_, ?_⟩, fun k => hperm.mem_iff⟩
  · exact (Heap.colorless_recolor m.heap h .black).trans hm.colorless_eq
  · intro k hk
    exact hm.reachable k (hperm.mem_iff.1 hk)
  · intro k hk
    refine (Heap.hasColor_recolor_iff hgray.contains).2 ?_
    split
    · rfl
    · rename_i hne
      exact hm.black k ((List.mem_cons.1 hk).resolve_left hne)
  · intro k hk
    refine (Heap.hasColor_recolor_iff hgray.contains).2 ?_
    -- the handle does not wait twice
    have hne : k ≠ h := by
      rintro rfl
      exact (List.nodup_cons.1 hnodup).1 (List.mem_append_right _ hk)
    rw [if_neg hne]
    exact hm.gray k (hlist ▸ List.mem_cons_of_mem h hk)
  · intro k hk c
    have hk' : k ∉ m.found := fun hmem => hk (hperm.mem_iff.2 hmem)
    have hne : k ≠ h := fun heq => hk' (by simp [found, hlist, heq])
    exact ((Heap.hasColor_recolor_iff hgray.contains).trans (by rw [if_neg hne])).trans
      (hm.unmet k hk' c)

end Tricolor

/-- What shading some handles leaves behind, with or without a fault. -/
structure Shaded (heap : Heap φ) (roots : List Handle) (m : Marking φ) (hs : List Handle)
    (o : Marking φ × Option Fault) : Prop where
  tricolor : Tricolor heap roots o.1
  reached_eq : o.1.reached = m.reached
  found_subset : ∀ k ∈ m.found, k ∈ o.1.found
  settled : o.2 = none → ∀ h ∈ hs, o.1.Settled heap h
  fault : ∀ f, o.2 = some f → ∃ h ∈ hs, heap.contains h = false ∧ f = .staleHandle h

theorem Settled.mono {m' : Marking φ} (hs : m.Settled heap h)
    (hsub : ∀ k ∈ m.found, k ∈ m'.found) : m'.Settled heap h :=
  ⟨hs.1, fun hwhite => hsub h (hs.2 hwhite)⟩

/-- **Shading one handle** keeps the invariant. -/
theorem shade_spec (hdecode : heap.HeadersDecode) (hm : Tricolor heap roots m)
    (hreach : heap.HasColor .white h → heap.WhiteReachable roots h) :
    Shaded heap roots m [h] (m.shade h) := by
  rcases shade_cases fun hlive => hm.exists_hasColor hdecode hlive with
    ⟨hstale, heq⟩ | ⟨hwhite, heq⟩ | ⟨hlive, hwhite, heq⟩
  · rw [heq]
    refine ⟨hm, rfl, fun k hk => hk, fun hnone => by simp at hnone, ?_⟩
    intro f hf
    obtain rfl := Option.some.inj hf
    exact ⟨h, List.mem_singleton_self h, by rw [← hm.contains_eq, hstale], rfl⟩
  · rw [heq]
    have hwhite' := (hm.white_iff.1 hwhite).2
    refine ⟨hm.queue hwhite (hreach hwhite'), rfl, ?_, ?_, fun f hf => by simp at hf⟩
    · intro k hk
      rcases List.mem_append.1 hk with hk | hk
      · exact List.mem_append_left _ hk
      · exact List.mem_append_right _ (by simp [hk])
    · intro _ k hk
      obtain rfl := List.mem_singleton.1 hk
      exact ⟨hwhite'.contains, fun _ => by simp [found]⟩
  · -- the object was met before, or it was not White at the start
    rw [heq]
    refine ⟨hm, rfl, fun k hk => hk, ?_, fun f hf => by simp at hf⟩
    intro _ k hk
    obtain rfl := List.mem_singleton.1 hk
    refine ⟨by rwa [← hm.contains_eq], fun hk => Classical.byContradiction fun hunmet => ?_⟩
    exact hwhite (hm.white_iff.2 ⟨hunmet, hk⟩)

/-- **Shading handles in order** keeps the invariant, up to the first fault. -/
theorem shadeAll_spec (hdecode : heap.HeadersDecode) (hm : Tricolor heap roots m)
    {hs : List Handle}
    (hreach : ∀ h ∈ hs, heap.HasColor .white h → heap.WhiteReachable roots h) :
    Shaded heap roots m hs (m.shadeAll hs) := by
  induction hs generalizing m with
  | nil => exact ⟨hm, rfl, fun k hk => hk, fun _ => by simp, fun f hf => by simp [shadeAll] at hf⟩
  | cons h hs ih =>
    have hone := shade_spec hdecode hm (hreach h List.mem_cons_self)
    rcases hshade : m.shade h with ⟨m', _ | fault⟩
    · rw [hshade] at hone
      have hrest := ih hone.tricolor fun k hk => hreach k (List.mem_cons_of_mem h hk)
      have heq : m.shadeAll (h :: hs) = m'.shadeAll hs := by rw [shadeAll, hshade]
      rw [heq]
      refine ⟨hrest.tricolor, hrest.reached_eq.trans hone.reached_eq, ?_, ?_, ?_⟩
      · intro k hk
        exact hrest.found_subset k (hone.found_subset k hk)
      · intro hnone k hk
        rcases List.mem_cons.1 hk with rfl | hk
        · exact (hone.settled rfl k (List.mem_singleton_self k)).mono hrest.found_subset
        · exact hrest.settled hnone k hk
      · intro f hf
        obtain ⟨k, hk, hstale⟩ := hrest.fault f hf
        exact ⟨k, List.mem_cons_of_mem h hk, hstale⟩
    · rw [hshade] at hone
      have heq : m.shadeAll (h :: hs) = (m', some fault) := by rw [shadeAll, hshade]
      rw [heq]
      refine ⟨hone.tricolor, hone.reached_eq, hone.found_subset, fun hnone => by simp at hnone, ?_⟩
      intro f hf
      obtain ⟨k, hk, hstale⟩ := hone.fault f hf
      exact ⟨k, by simp [List.mem_singleton.1 hk], hstale⟩

/-- A visit turns the object Black and shades what it refers to. -/
theorem exists_visit_eq {slot : Slot} {tag : Tag} (hfind : m.heap.find? h = some slot)
    (htag : slot.header.tag = .ok tag) :
    ∃ refs, m.visit h = (m.blacken h).shadeAll refs ∧ ∀ b, b ∈ refs ↔ m.heap.Refers h b := by
  have hfault : slot.header.tagOrFault = .ok tag := by
    rw [Header.tagOrFault, htag]
    rfl
  obtain ⟨object, hobject⟩ := Heap.exists_object_of_find? hfind
  have hrefers (b : Handle) :
      m.heap.Refers h b ↔ tag.hasReferences ∧ b ∈ object.references := by
    constructor
    · rintro ⟨slot', tag', object', hfind', htag', hrefs, hobject', hb⟩
      obtain rfl : slot = slot' := Option.some.inj (hfind.symm.trans hfind')
      obtain rfl : tag = tag' := Except.ok.inj (htag.symm.trans htag')
      obtain rfl : object = object' := Option.some.inj (hobject.symm.trans hobject')
      exact ⟨hrefs, hb⟩
    · rintro ⟨hrefs, hb⟩
      exact ⟨slot, tag, object, hfind, htag, hrefs, hobject, hb⟩
  by_cases hrefs : tag.hasReferences
  · refine ⟨object.references, ?_, fun b => by simp [hrefers, hrefs]⟩
    simp [visit, hfind, hfault, hrefs, hobject, blacken]
  · refine ⟨[], ?_, fun b => by simp [hrefers, hrefs]⟩
    simp [visit, hfind, hfault, hrefs, blacken, shadeAll]

/-- **One visit** of the object that is taken from the queue keeps the invariant. When no fault
ends it, everything that was traced is, and the object is too. -/
theorem visit_spec (hdecode : heap.HeadersDecode) (hm : Tricolor heap roots m)
    (htraced : Traced heap m) {rest : Worklist} (hpop : m.pending.pop? = some (h, rest))
    {o : Marking φ × Option Fault} (ho : ({ m with pending := rest } : Marking φ).visit h = o) :
    Tricolor heap roots o.1 ∧ (∀ k ∈ m.found, k ∈ o.1.found) ∧ (o.2 = none → Traced heap o.1) ∧
      ∀ f, o.2 = some f → ∃ b, heap.WhiteReachable roots h ∧ heap.Refers h b ∧
        heap.contains b = false ∧ f = .staleHandle b := by
  obtain ⟨htake, hfound⟩ := hm.take hpop
  have hmem : h ∈ m.found :=
    List.mem_append_right _ (by simp [Worklist.toList_of_pop? hpop])
  have hreach := hm.reachable h hmem
  have hlive : m.heap.contains h := by
    rw [hm.contains_eq]
    exact hreach.holds.contains
  obtain ⟨slot, -, hfind, -⟩ := Heap.exists_find?_of_contains hlive
  obtain ⟨tag, htag⟩ := hm.exists_tag hdecode hfind
  obtain ⟨refs, heq, hrefs⟩ :=
    exists_visit_eq (m := { m with pending := rest }) hfind htag
  have hrefers (b : Handle) : b ∈ refs ↔ heap.Refers h b := (hrefs b).trans hm.refers_iff
  have hshaded : Shaded heap roots (({ m with pending := rest } : Marking φ).blacken h) refs o := by
    rw [← ho, heq]
    exact shadeAll_spec hdecode htake fun b hb hwhite => hreach.step ((hrefers b).1 hb) hwhite
  have hsub (k : Handle) (hk : k ∈ m.found) : k ∈ o.1.found :=
    hshaded.found_subset k ((hfound k).2 hk)
  refine ⟨hshaded.tricolor, hsub, ?_, ?_⟩
  · -- the object itself was just shaded through, the others had been before
    intro hnone a ha b hab
    rw [hshaded.reached_eq] at ha
    rcases List.mem_cons.1 ha with rfl | ha
    · exact hshaded.settled hnone b ((hrefers b).2 hab)
    · exact (htraced a ha b hab).mono hsub
  · intro f hf
    obtain ⟨b, hb, hstale, rfl⟩ := hshaded.fault f hf
    exact ⟨b, hreach, (hrefers b).1 hb, hstale, rfl⟩

theorem drain_of_pop?_eq_none (hpop : m.pending.pop? = none) : m.drain = (m, none) := by
  rw [drain]
  split
  · rfl
  · rename_i hsome
    rw [hpop] at hsome
    cases hsome

theorem drain_of_pop?_eq_some {rest : Worklist} (hpop : m.pending.pop? = some (h, rest)) :
    m.drain = match ({ m with pending := rest } : Marking φ).visit h with
      | (m', some fault) => (m', some fault)
      | (m', none) => m'.drain := by
  rw [drain]
  split
  · rename_i hnone
    rw [hpop] at hnone
    cases hnone
  · rename_i h' rest' hsome
    rw [hpop, Option.some.injEq, Prod.mk.injEq] at hsome
    obtain ⟨rfl, rfl⟩ := hsome
    split <;> rename_i hvisit <;> rw [hvisit]

/-- **The loop** keeps the invariant. It ends with an empty queue and everything traced, or else at
a stale handle that a reachable object refers to. -/
theorem drain_spec (hdecode : heap.HeadersDecode) (hm : Tricolor heap roots m)
    (htraced : Traced heap m) :
    Tricolor heap roots m.drain.1 ∧ (∀ k ∈ m.found, k ∈ m.drain.1.found) ∧
      (m.drain.2 = none → m.drain.1.pending.toList = [] ∧ Traced heap m.drain.1) ∧
      ∀ f, m.drain.2 = some f → ∃ a b, heap.WhiteReachable roots a ∧ heap.Refers a b ∧
        heap.contains b = false ∧ f = .staleHandle b := by
  -- the induction is on the weight, which every visit lowers
  induction hn : m.weight using Nat.strongRecOn generalizing m with
  | ind n ih =>
    rcases hpop : m.pending.pop? with _ | ⟨h, rest⟩
    · rw [drain_of_pop?_eq_none hpop]
      exact ⟨hm, fun k hk => hk, fun _ => ⟨Worklist.pop?_eq_none_iff.1 hpop, htraced⟩,
        fun f hf => by simp at hf⟩
    · have hlt := weight_visit_lt hpop
      rw [drain_of_pop?_eq_some hpop]
      rcases hvisit : ({ m with pending := rest } : Marking φ).visit h with ⟨m', _ | fault⟩
      · obtain ⟨hm', hsub, htraced', -⟩ := visit_spec hdecode hm htraced hpop hvisit
        rw [hvisit, hn] at hlt
        obtain ⟨hlast, hsub', hdone, hfault⟩ := ih m'.weight hlt hm' (htraced' rfl) rfl
        exact ⟨hlast, fun k hk => hsub' k (hsub k hk), hdone, hfault⟩
      · obtain ⟨hm', hsub, -, hfault⟩ := visit_spec hdecode hm htraced hpop hvisit
        refine ⟨hm', hsub, fun hnone => by simp at hnone, ?_⟩
        intro f hf
        obtain ⟨b, hreach, hrefers, hstale⟩ := hfault f hf
        exact ⟨h, b, hreach, hrefers, hstale⟩

end Steps

/-- No object is found before marking begins. -/
theorem Tricolor.start (heap : Heap φ) (roots : List Handle) :
    Tricolor heap roots ⟨heap, Worklist.empty, []⟩ where
  colorless_eq := rfl
  nodup := by simp [found]
  reachable := by simp [found]
  black := by simp
  gray := by simp
  unmet := fun _ _ _ => Iff.rfl

/-- **Marking from roots**, with or without a fault. -/
theorem fromRoots_spec {heap : Heap φ} (hdecode : heap.HeadersDecode) (roots : List Handle) :
    Tricolor heap roots (fromRoots heap roots).1 ∧
      ((fromRoots heap roots).2 = none → (fromRoots heap roots).1.pending.toList = [] ∧
        Traced heap (fromRoots heap roots).1 ∧
        ∀ r ∈ roots, (fromRoots heap roots).1.Settled heap r) ∧
      ∀ f, (fromRoots heap roots).2 = some f → ∃ b, heap.contains b = false ∧ f = .staleHandle b ∧
        (b ∈ roots ∨ ∃ a, heap.WhiteReachable roots a ∧ heap.Refers a b) := by
  have hshaded := shadeAll_spec hdecode (Tricolor.start heap roots)
    fun r hr hwhite => Heap.ReachableBy.root hr hwhite
  rcases hshade : shadeAll ⟨heap, Worklist.empty, []⟩ roots with ⟨m, _ | fault⟩
  · have heq : fromRoots heap roots = m.drain := by rw [fromRoots, hshade]
    rw [hshade] at hshaded
    have htraced : Traced heap m := by
      intro a ha
      rw [hshaded.reached_eq] at ha
      cases ha
    obtain ⟨hlast, hsub, hdone, hfault⟩ := drain_spec hdecode hshaded.tricolor htraced
    rw [heq]
    refine ⟨hlast, ?_, ?_⟩
    · intro hnone
      obtain ⟨hempty, htraced'⟩ := hdone hnone
      exact ⟨hempty, htraced', fun r hr => (hshaded.settled rfl r hr).mono hsub⟩
    · intro f hf
      obtain ⟨a, b, hreach, hrefers, hstale, hf⟩ := hfault f hf
      exact ⟨b, hstale, hf, .inr ⟨a, hreach, hrefers⟩⟩
  · have heq : fromRoots heap roots = (m, some fault) := by rw [fromRoots, hshade]
    rw [hshade] at hshaded
    rw [heq]
    refine ⟨hshaded.tricolor, fun hnone => by simp at hnone, ?_⟩
    intro f hf
    obtain ⟨b, hb, hstale, hf⟩ := hshaded.fault f hf
    exact ⟨b, hstale, hf, .inl hb⟩

/-- A marking without a fault reaches all that is reachable through White objects. -/
theorem mem_reached_iff {heap : Heap φ} {roots : List Handle} {h : Handle}
    (hdecode : heap.HeadersDecode) (hnone : (fromRoots heap roots).2 = none) :
    h ∈ (fromRoots heap roots).1.reached ↔ heap.WhiteReachable roots h := by
  obtain ⟨hm, hdone, -⟩ := fromRoots_spec hdecode roots
  obtain ⟨hempty, htraced, hsettled⟩ := hdone hnone
  generalize (fromRoots heap roots).1 = m at *
  have hfound : m.found = m.reached := by
    rw [found, hempty, List.append_nil]
  refine ⟨fun hh => hm.reachable h (List.mem_append_left _ hh), fun hh => ?_⟩
  -- what was reached is closed under references, so it holds all that is reachable
  have hclosed : ∀ a b, a ∈ m.reached → heap.Refers a b → heap.HasColor .white b →
      b ∈ m.reached := fun a b ha hab hb => hfound ▸ (htraced a ha b hab).2 hb
  exact hh.mem_of_closed (fun r hr hwhite => hfound ▸ (hsettled r hr).2 hwhite) hclosed

end Marking

/-! ### The effect of a marking -/

namespace Heap

variable {heap : Heap φ} {roots : Roots}

theorem state_mark (heap : Heap φ) (roots : Roots) :
    (heap.mark roots).state = (Marking.fromRoots heap roots.toList).1.heap := by
  rcases hm : Marking.fromRoots heap roots.toList with ⟨m, _ | fault⟩ <;>
    simp [mark, hm, Outcome.quiet]

theorem answer_mark (heap : Heap φ) (roots : Roots) :
    (heap.mark roots).answer = (Marking.fromRoots heap roots.toList).2.elim
      (.ok (UInt64.ofNat (Marking.fromRoots heap roots.toList).1.reached.length)) .error := by
  rcases hm : Marking.fromRoots heap roots.toList with ⟨m, _ | fault⟩ <;>
    simp [mark, hm, Outcome.quiet]

/-- Marking announces nothing. -/
theorem events_mark (heap : Heap φ) (roots : Roots) : (heap.mark roots).events = [] := by
  rcases hm : Marking.fromRoots heap roots.toList with ⟨m, _ | fault⟩ <;>
    simp [mark, hm, Outcome.quiet]

/-- Marking changes nothing but colours. -/
theorem colorless_mark (hdecode : heap.HeadersDecode) (roots : Roots) :
    (heap.mark roots).state.colorless = heap.colorless := by
  rw [state_mark]
  exact (Marking.fromRoots_spec hdecode roots.toList).1.colorless_eq

theorem HeadersDecode.mark (hdecode : heap.HeadersDecode) (roots : Roots) :
    (heap.mark roots).state.HeadersDecode := by
  intro h slot hfind
  rw [state_mark] at hfind
  have hm := (Marking.fromRoots_spec hdecode roots.toList).1
  obtain ⟨c, slot', hfind', hc⟩ := hm.exists_hasColor hdecode (contains_of_find? hfind)
  obtain rfl : slot = slot' := Option.some.inj (hfind.symm.trans hfind')
  exact ⟨hm.exists_tag hdecode hfind, c, hc⟩

/-- **Exact marking.** If no root is stale and no object that is reached refers to a stale handle,
marking turns Black exactly the objects that were reachable through White ones, and counts them. -/
theorem mark_spec (hdecode : heap.HeadersDecode)
    (hroots : ∀ r ∈ roots.toList, heap.contains r)
    (hrefs : ∀ a b, heap.WhiteReachable roots.toList a → heap.Refers a b → heap.contains b) :
    ∃ reached : List Handle, reached.Nodup ∧
      (∀ h, h ∈ reached ↔ heap.WhiteReachable roots.toList h) ∧
      (heap.mark roots).answer = .ok (UInt64.ofNat reached.length) ∧
      (∀ h ∈ reached, (heap.mark roots).state.HasColor .black h) ∧
      ∀ h, h ∉ reached → ∀ c, (heap.mark roots).state.HasColor c h ↔ heap.HasColor c h := by
  obtain ⟨hm, hdone, hfault⟩ := Marking.fromRoots_spec hdecode roots.toList
  rw [state_mark, answer_mark]
  rcases hresult : Marking.fromRoots heap roots.toList with ⟨m, _ | fault⟩
  · have hmem (h : Handle) := Marking.mem_reached_iff (h := h) hdecode (congrArg Prod.snd hresult)
    rw [hresult] at hm hdone hmem
    have hfound : m.found = m.reached := by
      rw [Marking.found, (hdone rfl).1, List.append_nil]
    exact ⟨m.reached, hfound ▸ hm.nodup, hmem, rfl, hm.black, hfound ▸ hm.unmet⟩
  · rw [hresult] at hfault
    obtain ⟨b, hstale, -, hb⟩ := hfault fault rfl
    have hlive : heap.contains b := by
      rcases hb with hb | ⟨a, ha, hab⟩
      · exact hroots b hb
      · exact hrefs a b ha hab
    simp [hlive] at hstale

end Heap

end MarkSweep
