import MarkSweep.Fault
import MarkSweep.Header.History

/-!
# The two fields of a header

A header is a faithful pair of its tag bits and its colour byte. A call writes its argument, as far
as that fits, to one of the two and keeps the other (`read_perform`), so that after any history each
field holds the argument of the last call on it, or what it held at first (`read_run`). Since the
two fields make up the word, histories with the same last calls come to the same header
(`run_eq_run_of_lastOn?_eq`). Hence calls on different fields commute, a call undoes all earlier
ones on its field, and a kind and a colour that were set are read, whatever the header was before
(`fields_run`).
-/

namespace MarkSweep.Header

variable {h k : Header} {ops more : List Op} {field : Field} {t : Tag} {c : Color}

/-- Headers that hold the same in both fields are the same. -/
theorem eq_of_read (hread : ∀ field : Field, field.read h = field.read k) : h = k :=
  eq_of_fields (UInt64.toNat_inj.1 (hread .tag)) (UInt8.toNat_inj.1 (hread .color))

/-! ### One call -/

theorem read_setRawTag (h : Header) (word : UInt64) (field : Field) :
    field.read (h.setRawTag word) =
      if Field.tag = field then word.toNat % field.size else field.read h := by
  cases field with
  | tag => exact rawTag_setRawTag h word
  | color => exact congrArg UInt8.toNat (rawColor_setRawTag h word)

theorem read_setRawColor (h : Header) (byte : UInt8) (field : Field) :
    field.read (h.setRawColor byte) =
      if Field.color = field then byte.toNat % field.size else field.read h := by
  cases field with
  | tag => exact congrArg UInt64.toNat (rawTag_setRawColor h byte)
  | color =>
    have hbyte : byte.toNat % Field.size .color = byte.toNat := Nat.mod_eq_of_lt byte.toNat_lt
    rw [if_pos rfl, hbyte]
    exact congrArg UInt8.toNat (rawColor_setRawColor h byte)

/-- **One call** writes its argument to its field, as far as it fits, and keeps the other field. -/
theorem read_perform (h : Header) (op : Op) (field : Field) :
    field.read (op.perform h) =
      if op.field = field then op.argument % field.size else field.read h := by
  cases op with
  | setTag tag => exact read_setRawTag h tag.raw field
  | setRawTag word => exact read_setRawTag h word field
  | setColor color => exact read_setRawColor h color.raw field
  | setRawColor byte => exact read_setRawColor h byte field

/-- What is written to the colour byte always fits. -/
theorem Op.argument_lt {op : Op} (hfield : op.field = .color) : op.argument < 256 := by
  cases op with
  | setTag tag => cases hfield
  | setRawTag word => cases hfield
  | setColor color => exact color.raw.toNat_lt
  | setRawColor byte => exact byte.toNat_lt

/-! ### Histories -/

/-- **What a field holds after a history** is the argument of the last call on it, as far as it
fits, or what it held at first. -/
theorem read_run (h : Header) (ops : List Op) (field : Field) :
    field.read (h.run ops) =
      (lastOn? field ops).elim (field.read h) fun op => op.argument % field.size := by
  induction ops generalizing h with
  | nil => rfl
  | cons op ops ih =>
    rw [run, ih, lastOn?_cons, read_perform]
    -- the first call counts only if no later one is on the field
    cases lastOn? field ops with
    | some last => rfl
    | none => by_cases hfield : op.field = field <;> simp [hfield]

/-- The tag bits after a history. -/
theorem rawTag_run (h : Header) (ops : List Op) : (h.run ops).rawTag.toNat =
    (lastOn? .tag ops).elim (h.word.toNat / 256) fun op => op.argument % 0x100000000000000 := by
  rw [← rawTag_toNat]
  exact read_run h ops .tag

/-- The colour byte after a history. -/
theorem rawColor_run (h : Header) (ops : List Op) : (h.run ops).rawColor.toNat =
    (lastOn? .color ops).elim (h.word.toNat % 256) Op.argument := by
  rw [← rawColor_toNat]
  refine (read_run h ops .color).trans ?_
  cases hlast : lastOn? .color ops with
  | none => rfl
  | some op => exact Nat.mod_eq_of_lt (Op.argument_lt (field_eq_of_lastOn? hlast))

/-- Bits of an argument that do not fit are lost, and do not get into the other field. -/
example : (⟨0xffffffffffffffff⟩ : Header).run [.setColor .gray, .setRawTag 0xff00000000010004] =
    make .pair .gray := by decide

/-- **The last calls decide**: histories that agree about them come to the same header. -/
theorem run_eq_run_of_lastOn?_eq (hlast : ∀ field, lastOn? field ops = lastOn? field more) :
    h.run ops = h.run more :=
  eq_of_read fun field => by rw [read_run, read_run, hlast]

/-- Calls on different fields can be made in either order. -/
theorem perform_comm {a b : Op} (hne : a.field ≠ b.field) :
    b.perform (a.perform h) = a.perform (b.perform h) := by
  refine eq_of_read fun field => ?_
  rw [read_perform, read_perform, read_perform, read_perform]
  by_cases hb : b.field = field
  · rw [if_pos hb, if_pos hb, if_neg fun ha => hne (ha.trans hb.symm)]
  · rw [if_neg hb, if_neg hb]

/-- A call undoes all earlier ones on its field. -/
theorem run_filter_append_cons (h : Header) (ops : List Op) (later : Op) (rest : List Op) :
    h.run ((ops.filter fun op => op.field ≠ later.field) ++ later :: rest) =
      h.run (ops ++ later :: rest) := by
  refine run_eq_run_of_lastOn?_eq fun field => ?_
  rw [lastOn?_append, lastOn?_append]
  by_cases hfield : field = later.field
  · -- there is a call on the field in what follows
    rw [lastOn?_cons, if_pos hfield.symm]
    cases lastOn? field rest <;> rfl
  · rw [lastOn?_filter_ne hfield]

/-! ### Kinds and colours -/

theorem rawTag_make (t : Tag) (c : Color) : (make t c).rawTag = t.raw := by
  cases t <;> cases c <;> rfl

theorem rawColor_make (t : Tag) (c : Color) : (make t c).rawColor = c.raw := by
  cases t <;> cases c <;> rfl

theorem rawTag_run_of_setTag (hlast : lastOn? .tag ops = some (.setTag t)) :
    (h.run ops).rawTag = t.raw := by
  have hraw := rawTag_run h ops
  rw [hlast] at hraw
  exact UInt64.toNat_inj.1 (hraw.trans (Nat.mod_eq_of_lt t.raw_lt))

theorem rawColor_run_of_setColor (hlast : lastOn? .color ops = some (.setColor c)) :
    (h.run ops).rawColor = c.raw := by
  have hraw := rawColor_run h ops
  rw [hlast] at hraw
  exact UInt8.toNat_inj.1 hraw

theorem tag_run_of_setTag (hlast : lastOn? .tag ops = some (.setTag t)) :
    (h.run ops).tag = .ok t := by
  rw [tag, rawTag_run_of_setTag hlast, Tag.ofRaw_raw]

theorem color_run_of_setColor (hlast : lastOn? .color ops = some (.setColor c)) :
    (h.run ops).color = .ok c := by
  rw [color, rawColor_run_of_setColor hlast, Color.ofRaw_raw]

/-- A kind that is read is no fault where it is relied on. -/
theorem tagOrFault_of_tag (htag : h.tag = .ok t) : h.tagOrFault = .ok t := by
  rw [tagOrFault, htag]
  rfl

/-- Nor is a colour. -/
theorem colorOrFault_of_color (hcolor : h.color = .ok c) : h.colorOrFault = .ok c := by
  rw [colorOrFault, hcolor]
  rfl

/-- A header that was last set to a kind and a colour is the one made with them. -/
theorem run_eq_make (htag : lastOn? .tag ops = some (.setTag t))
    (hcolor : lastOn? .color ops = some (.setColor c)) : h.run ops = make t c :=
  eq_of_fields ((rawTag_run_of_setTag htag).trans (rawTag_make t c).symm)
    ((rawColor_run_of_setColor hcolor).trans (rawColor_make t c).symm)

/-! ### A pair of fields -/

/-- **What a history makes of the fields** of the header `h` that it starts with. -/
structure KeepsFieldsApart (h : Header) (ops : List Op) : Prop where
  /-- The tag bits are the lowest fifty-six bits of the argument of the last call on them, or the
  upper bits of the word at first. -/
  rawTag_eq : (h.run ops).rawTag.toNat =
    (lastOn? .tag ops).elim (h.word.toNat / 256) fun op => op.argument % 0x100000000000000
  /-- The colour byte is the argument of the last call on it, or the lowest byte of the word at
  first. -/
  rawColor_eq : (h.run ops).rawColor.toNat =
    (lastOn? .color ops).elim (h.word.toNat % 256) Op.argument
  /-- The two fields make up the word. -/
  word_eq : (h.run ops).word.toNat = (h.run ops).rawTag.toNat * 256 + (h.run ops).rawColor.toNat
  /-- No other header has the same fields. -/
  eq_of_fields : ∀ k : Header, k.rawTag = (h.run ops).rawTag → k.rawColor = (h.run ops).rawColor →
    k = h.run ops
  /-- Two calls on different fields can be made in either order. -/
  comm : ∀ a b : Op, a.field ≠ b.field →
    b.perform (a.perform (h.run ops)) = a.perform (b.perform (h.run ops))
  /-- So can any others, as long as the order of the calls on each field is kept. -/
  rearranged : ∀ more, (∀ field, (more.filter fun op => op.field = field) =
    ops.filter fun op => op.field = field) → h.run more = h.run ops
  /-- A later call on a field undoes the earlier ones. -/
  undone : ∀ (later : Op) (rest : List Op),
    h.run ((ops.filter fun op => op.field ≠ later.field) ++ later :: rest) =
      h.run (ops ++ later :: rest)
  /-- A kind that was set is read. -/
  tag_eq : ∀ t, lastOn? .tag ops = some (.setTag t) →
    (h.run ops).tag = .ok t ∧ (h.run ops).tagOrFault = .ok t
  /-- A colour that was set is read. -/
  color_eq : ∀ c, lastOn? .color ops = some (.setColor c) →
    (h.run ops).color = .ok c ∧ (h.run ops).colorOrFault = .ok c
  /-- A header that was set to a kind and a colour is as good as new. -/
  eq_make : ∀ t c, lastOn? .tag ops = some (.setTag t) → lastOn? .color ops = some (.setColor c) →
    h.run ops = make t c

/-- **The fields of a header are independent** and make up the header. -/
theorem fields_run (h : Header) (ops : List Op) : KeepsFieldsApart h ops := by
  constructor
  case rawTag_eq => exact rawTag_run h ops
  case rawColor_eq => exact rawColor_run h ops
  case word_eq => exact word_toNat _
  case eq_of_fields => exact fun k => eq_of_fields
  case comm => exact fun a b => perform_comm
  case rearranged =>
    intro more hfilter
    exact run_eq_run_of_lastOn?_eq fun field => congrArg List.getLast? (hfilter field)
  case undone => exact run_filter_append_cons h ops
  case tag_eq =>
    intro t hlast
    have htag := tag_run_of_setTag (h := h) hlast
    exact ⟨htag, tagOrFault_of_tag htag⟩
  case color_eq =>
    intro c hlast
    have hcolor := color_run_of_setColor (h := h) hlast
    exact ⟨hcolor, colorOrFault_of_color hcolor⟩
  case eq_make => exact fun t c => run_eq_make

end MarkSweep.Header
