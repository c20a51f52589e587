import MarkSweep.Tag

/-!
# Colours and header words

The colour of an object says how far the current collection has got with it, and the header of an
object is one 64-bit word with the colour in the low eight bits and the raw tag in the rest.

The setters overwrite one field and keep the other. That is stated field by field
(`rawTag_setRawTag`, `rawColor_setRawTag`, `rawTag_setRawColor`, `rawColor_setRawColor`), and
`eq_of_fields` adds that the two fields determine the word.
-/

namespace MarkSweep

/-! ### Colours -/

/-- How far a collection has got with an object. -/
inductive Color where
  /-- Not reached; the resting state between collections. -/
  | white
  /-- Reached, and waiting to be traced. -/
  | gray
  /-- Reached and traced. -/
  | black
  deriving DecidableEq, Repr

instance : Inhabited Color := ⟨.white⟩

/-- A raw colour byte that stands for no colour. -/
structure UnknownColor where
  /-- The byte that was to be decoded. -/
  raw : UInt8
  deriving DecidableEq, Repr

namespace UnknownColor

/-- The wording of a failed decoding. -/
def message (e : UnknownColor) : String := "unknown color " ++ toString e.raw.toNat

end UnknownColor

namespace Color

/-- The colours in the order of their raw bytes. -/
def all : List Color := [white, gray, black]

/-- The raw byte of a colour. -/
def raw : Color → UInt8
  | white => 0
  | gray => 1
  | black => 2

/-- The colour with a given raw byte. -/
def ofRaw (byte : UInt8) : Except UnknownColor Color :=
  match all.find? fun c => c.raw = byte with
  | some c => .ok c
  | none => .error ⟨byte⟩

/-- Whether the object has been reached by the current collection. -/
def isMarked (c : Color) : Bool := c ≠ white

/-- The name of a colour. -/
def name : Color → String
  | white => "White"
  | gray => "Gray"
  | black => "Black"

/-- The raw byte of a colour decodes to the colour. -/
@[simp]
theorem ofRaw_raw (c : Color) : ofRaw c.raw = .ok c := by cases c <;> rfl

/-- Only the raw byte of a colour decodes to it. -/
theorem raw_of_ofRaw {byte : UInt8} {c : Color} (h : ofRaw byte = .ok c) : c.raw = byte := by
  unfold ofRaw at h
  split at h
  · rename_i d hd
    cases h
    simpa using List.find?_some hd
  · cases h

end Color

/-! ### Header words -/

/-- The word in front of a heap object: a raw tag above a raw colour. -/
structure Header where
  /-- The packed word. -/
  word : UInt64
  deriving DecidableEq, Repr

namespace Header

/-- The bits of the colour. -/
def colorMask : UInt64 := 0xff

/-- The tag bits. -/
def rawTag (h : Header) : UInt64 := h.word >>> 8

/-- The colour byte. -/
def rawColor (h : Header) : UInt8 := (h.word &&& colorMask).toUInt8

/-- The header with the given tag bits; bits of `tag` above the lowest fifty-six are lost. -/
def setRawTag (h : Header) (tag : UInt64) : Header :=
  ⟨(tag <<< 8) ||| (h.word &&& colorMask)⟩

/-- The header with the given colour byte. -/
def setRawColor (h : Header) (color : UInt8) : Header :=
  ⟨color.toUInt64 ||| (h.word &&& ~~~colorMask)⟩

/-- The header with the given kind. -/
def setTag (h : Header) (t : Tag) : Header := h.setRawTag t.raw

/-- The header with the given colour. -/
def setColor (h : Header) (c : Color) : Header := h.setRawColor c.raw

/-- The header of an object of kind `t` and colour `c`. -/
def make (t : Tag) (c : Color) : Header := ⟨(t.raw <<< 8) ||| c.raw.toUInt64⟩

/-- The kind that the tag bits stand for. -/
def tag (h : Header) : Except UnknownTag Tag := Tag.ofRaw h.rawTag

/-- The colour that the colour byte stands for. -/
def color (h : Header) : Except UnknownColor Color := Color.ofRaw h.rawColor

/-- The colour byte is that of `c`. -/
def hasColor (h : Header) (c : Color) : Bool := h.rawColor = c.raw

/-- The whole word in base sixteen. -/
def wordText (h : Header) : String := Text.hexPadded 16 h.word.toNat

/-- The text of a header: its two fields where both are known, and the word otherwise. -/
def text (h : Header) : String :=
  match h.tag, h.color with
  | .ok t, .ok c => "Header(" ++ t.name ++ ", " ++ c.name ++ ")"
  | _, _ => "Header(" ++ h.wordText ++ ")"

/-! ### The two fields are independent -/

theorem rawTag_toNat (h : Header) : h.rawTag.toNat = h.word.toNat / 256 := by
  simp [rawTag, UInt64.toNat_shiftRight, Nat.shiftRight_eq_div_pow]

theorem rawColor_toNat (h : Header) : h.rawColor.toNat = h.word.toNat % 256 := by
  have h255 : h.word.toNat &&& 255 = h.word.toNat % 256 := Nat.and_two_pow_sub_one_eq_mod _ 8
  rw [rawColor, UInt64.toNat_toUInt8, UInt64.toNat_and]
  change (h.word.toNat &&& 255) % 2 ^ 8 = _
  rw [h255]; omega

/-- The word is the raw tag times 256 plus the raw colour. -/
theorem word_toNat (h : Header) : h.word.toNat = h.rawTag.toNat * 256 + h.rawColor.toNat := by
  rw [rawTag_toNat, rawColor_toNat, Nat.mul_comm, Nat.div_add_mod]

/-- Two headers with the same fields are the same word. -/
theorem eq_of_fields {h k : Header} (htag : h.rawTag = k.rawTag)
    (hcolor : h.rawColor = k.rawColor) : h = k := by
  have hword : h.word.toNat = k.word.toNat := by rw [word_toNat h, word_toNat k, htag, hcolor]
  cases h; cases k
  exact congrArg Header.mk (UInt64.toNat_inj.1 hword)

/-- The bits above the colour, as a number. -/
private theorem toNat_and_not_colorMask (w : UInt64) :
    (w &&& ~~~colorMask).toNat = 256 * (w.toNat / 256) := by
  have hmask : (~~~colorMask).toNat = 2 ^ 8 * (2 ^ 56 - 1) := by decide
  change _ = 2 ^ 8 * (w.toNat / 2 ^ 8)
  apply Nat.eq_of_testBit_eq
  intro i
  rw [UInt64.toNat_and, hmask, Nat.testBit_and, Nat.testBit_two_pow_mul, Nat.testBit_two_pow_mul,
    Nat.testBit_two_pow_sub_one, Nat.testBit_div_two_pow]
  by_cases hi : 8 ≤ i
  · have hsum : i - 8 + 8 = i := by omega
    by_cases hlt : i < 64
    · simp [hi, show i - 8 < 56 by omega]
    · have hfalse : w.toNat.testBit i = false := Nat.testBit_lt_two_pow
        (Nat.lt_of_lt_of_le w.toNat_lt (Nat.pow_le_pow_right (by decide) (by omega)))
      simp [hfalse, hsum]
  · simp [hi]

/-- The bits of the colour, as a number. -/
private theorem toNat_and_colorMask (w : UInt64) :
    (w &&& colorMask).toNat = w.toNat % 256 := by
  rw [UInt64.toNat_and]
  exact Nat.and_two_pow_sub_one_eq_mod _ 8

/-- Overwriting the tag bits replaces the upper part of the word. -/
theorem word_setRawTag (h : Header) (t : UInt64) :
    (h.setRawTag t).word.toNat = t.toNat % 0x100000000000000 * 256 + h.word.toNat % 256 := by
  have hlt : h.word.toNat % 256 < 2 ^ 8 := Nat.mod_lt _ (by decide)
  have hshift : (t <<< 8).toNat = 2 ^ 8 * (t.toNat % 2 ^ 56) := by
    simp only [UInt64.toNat_shiftLeft, Nat.shiftLeft_eq, UInt64.reduceToNat, Nat.reduceMod,
      Nat.reducePow]
    omega
  rw [setRawTag, UInt64.toNat_or, hshift, toNat_and_colorMask, ← Nat.two_pow_add_eq_or_of_lt hlt]
  omega

/-- Overwriting the colour byte replaces the lower part of the word. -/
theorem word_setRawColor (h : Header) (c : UInt8) :
    (h.setRawColor c).word.toNat = h.word.toNat / 256 * 256 + c.toNat := by
  rw [setRawColor, UInt64.toNat_or, toNat_and_not_colorMask, UInt8.toNat_toUInt64, Nat.or_comm,
    ← Nat.two_pow_add_eq_or_of_lt c.toNat_lt]
  omega

/-- The tag bits after a write to them: the lowest fifty-six bits of what was written. -/
@[simp]
theorem rawTag_setRawTag (h : Header) (t : UInt64) :
    (h.setRawTag t).rawTag.toNat = t.toNat % 0x100000000000000 := by
  rw [rawTag_toNat, word_setRawTag]; omega

/-- A write to the tag bits keeps the colour byte. -/
@[simp]
theorem rawColor_setRawTag (h : Header) (t : UInt64) : (h.setRawTag t).rawColor = h.rawColor := by
  apply UInt8.toNat_inj.1
  rw [rawColor_toNat, word_setRawTag, rawColor_toNat]; omega

/-- A write to the colour byte keeps the tag bits. -/
@[simp]
theorem rawTag_setRawColor (h : Header) (c : UInt8) : (h.setRawColor c).rawTag = h.rawTag := by
  apply UInt64.toNat_inj.1
  have := c.toNat_lt
  rw [rawTag_toNat, word_setRawColor, rawTag_toNat]; omega

/-- The colour byte after a write to it. -/
@[simp]
theorem rawColor_setRawColor (h : Header) (c : UInt8) : (h.setRawColor c).rawColor = c := by
  apply UInt8.toNat_inj.1
  have := c.toNat_lt
  rw [rawColor_toNat, word_setRawColor]; omega

/-! ### Decoded fields -/

/-- A colour that was set is the colour. -/
@[simp]
theorem color_setColor (h : Header) (c : Color) : (h.setColor c).color = .ok c := by
  rw [color, setColor, rawColor_setRawColor, Color.ofRaw_raw]

/-- Setting a colour keeps the kind. -/
@[simp]
theorem tag_setColor (h : Header) (c : Color) : (h.setColor c).tag = h.tag := by
  rw [tag, setColor, rawTag_setRawColor, tag]

/-- A kind that was set is the kind. -/
@[simp]
theorem tag_setTag (h : Header) (t : Tag) : (h.setTag t).tag = .ok t := by
  have hraw : (h.setRawTag t.raw).rawTag = t.raw := by
    apply UInt64.toNat_inj.1
    rw [rawTag_setRawTag, Nat.mod_eq_of_lt t.raw_lt]
  rw [tag, setTag, hraw, Tag.ofRaw_raw]

/-- Setting a kind keeps the colour. -/
@[simp]
theorem color_setTag (h : Header) (t : Tag) : (h.setTag t).color = h.color := by
  rw [color, setTag, rawColor_setRawTag, color]

/-- A new header has the kind it was made with. -/
@[simp]
theorem tag_make (t : Tag) (c : Color) : (make t c).tag = .ok t := by
  cases t <;> cases c <;> rfl

/-- A new header has the colour it was made with. -/
@[simp]
theorem color_make (t : Tag) (c : Color) : (make t c).color = .ok c := by
  cases t <;> cases c <;> rfl

/-- The colour byte is that of a colour exactly when it decodes to that colour. -/
theorem hasColor_iff {h : Header} {c : Color} : h.hasColor c ↔ h.color = .ok c := by
  rw [hasColor, decide_eq_true_eq, color]
  exact ⟨fun heq => by rw [heq, Color.ofRaw_raw], fun hok => (Color.raw_of_ofRaw hok).symm⟩

end Header

end MarkSweep
