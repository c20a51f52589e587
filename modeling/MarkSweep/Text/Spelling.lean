import MarkSweep.Text.Blank
import MarkSweep.Text.Numeral

/-!
# What a text spells

`trim` and `readWord` go through a text from one end to the other. Here is what they find, without
any order: a text is a core between margins of blanks (`Margined`), and a numeral is a number
written in decimal digits, after a plus sign or not (`Denotes`). If there is no blank in the core,
trimming gives the core of a text and of no other (`trim_eq_iff_margined`), and the numerals that
are read are those of the numbers that fit in a word (`readWord_eq_ok_iff`).
-/

namespace MarkSweep.Text

/-! ### Margins -/

/-- The text is the core between two margins of blanks, either of which may be empty. -/
def Margined (core text : List Char) : Prop :=
  ∃ left right, (∀ c ∈ left, isBlank c) ∧ (∀ c ∈ right, isBlank c) ∧ text = left ++ core ++ right

theorem Margined.refl (core : List Char) : Margined core core :=
  ⟨[], [], by simp, by simp, by simp⟩

theorem Margined.trans {core text outer : List Char} (h : Margined core text)
    (h' : Margined text outer) : Margined core outer := by
  obtain ⟨left, right, hleft, hright, rfl⟩ := h
  obtain ⟨left', right', hleft', hright', rfl⟩ := h'
  refine ⟨left' ++ left, right ++ right', ?_, ?_, by simp only [List.append_assoc]⟩
  · exact List.forall_mem_append.2 ⟨hleft', hleft⟩
  · exact List.forall_mem_append.2 ⟨hright, hright'⟩

/-- Trimming takes blanks off, at both ends, and nothing else. -/
theorem margined_trim (text : List Char) : Margined (trim text) text := by
  have hblank {cs : List Char} : ∀ c ∈ cs.takeWhile isBlank, isBlank c :=
    List.all_eq_true.1 List.all_takeWhile
  let rest := text.dropWhile isBlank
  refine ⟨text.takeWhile isBlank, (rest.reverse.takeWhile isBlank).reverse, hblank, ?_, ?_⟩
  · exact fun c hc => hblank c (List.mem_reverse.1 hc)
  · have hrest : trim text ++ (rest.reverse.takeWhile isBlank).reverse = rest := by
      rw [trim, ← List.reverse_append, List.takeWhile_append_dropWhile, List.reverse_reverse]
    rw [List.append_assoc, hrest, List.takeWhile_append_dropWhile]

/-- **Trimming finds the core.** -/
theorem trim_eq_iff_margined {core text : List Char} (hcore : ∀ c ∈ core, isBlank c = false) :
    trim text = core ↔ Margined core text := by
  constructor
  · rintro rfl
    exact margined_trim text
  · rintro ⟨left, right, hleft, hright, rfl⟩
    exact trim_append_margins hleft hright (fun c hc => hcore c (List.mem_of_mem_head? hc))
      fun c hc => hcore c (List.mem_of_mem_getLast? hc)

/-! ### Numerals -/

/-- The text is the number written in one or more decimal digits. Zeros in front do not matter. -/
structure Digits (text : List Char) (n : Nat) : Prop where
  /-- There is a digit. -/
  ne_nil : text ≠ []
  /-- There is nothing but digits. -/
  isDigit : ∀ c ∈ text, c.isDigit
  /-- Their value is the number. -/
  value_eq : Nat.ofDigitChars 10 text 0 = n

/-- The text is a numeral of the number: its digits, after a plus sign or not. -/
def Denotes (text : List Char) (n : Nat) : Prop :=
  Digits text n ∨ ∃ digits, text = '+' :: digits ∧ Digits digits n

theorem digit?_of_isDigit {c : Char} (h : c.isDigit) : digit? c = some (c.toNat - '0'.toNat) := by
  rw [Char.isDigit, Bool.and_eq_true, decide_eq_true_eq, decide_eq_true_eq] at h
  exact if_pos h

theorem digit?_of_not_isDigit {c : Char} (h : ¬ c.isDigit) : digit? c = none := by
  rw [Char.isDigit, Bool.and_eq_true, decide_eq_true_eq, decide_eq_true_eq] at h
  exact if_neg h

/-- The digits that follow do not make a number smaller. -/
theorem le_ofDigitChars (acc : Nat) (cs : List Char) : acc ≤ Nat.ofDigitChars 10 cs acc := by
  induction cs generalizing acc with
  | nil => exact Nat.le_refl _
  | cons c cs ih =>
    rw [Nat.ofDigitChars_cons]
    exact Nat.le_trans (by omega) (ih _)

/-- Digits are read as long as the value fits in a word; once it does not, no further digit makes it
fit again. -/
theorem readDigits_eq_ok_iff {acc n : Nat} {cs : List Char} (hacc : acc < UInt64.size) :
    readDigits acc cs = .ok n ↔
      (∀ c ∈ cs, c.isDigit) ∧ Nat.ofDigitChars 10 cs acc = n ∧ n < UInt64.size := by
  induction cs generalizing acc with
  | nil =>
    rw [readDigits, Except.ok.injEq, Nat.ofDigitChars_nil]
    constructor
    · rintro rfl
      exact ⟨by simp, rfl, hacc⟩
    · exact fun h => h.2.1
  | cons c cs ih =>
    rw [readDigits, Nat.ofDigitChars_cons, List.forall_mem_cons]
    by_cases hdigit : c.isDigit
    · rw [digit?_of_isDigit hdigit]
      simp only [hdigit, true_and]
      by_cases hlt : 10 * acc + (c.toNat - '0'.toNat) < UInt64.size
      · rw [if_pos hlt, ih hlt]
      · rw [if_neg hlt]
        have hle := le_ofDigitChars (10 * acc + (c.toNat - '0'.toNat)) cs
        simp only [reduceCtorEq, false_iff, not_and]
        omega
    · rw [digit?_of_not_isDigit hdigit]
      simp [hdigit]

private theorem map_readDigits_eq_ok_iff {digits : List Char} (hne : digits ≠ []) {n : UInt64} :
    (readDigits 0 digits).map UInt64.ofNat = .ok n ↔ Digits digits n.toNat := by
  have hiff {m : Nat} : readDigits 0 digits = .ok m ↔
      (∀ c ∈ digits, c.isDigit) ∧ Nat.ofDigitChars 10 digits 0 = m ∧ m < UInt64.size :=
    readDigits_eq_ok_iff (by decide)
  constructor
  · intro h
    rcases hread : readDigits 0 digits with error | m
    · simp [hread, Except.map] at h
    · obtain ⟨hdigits, hvalue, hlt⟩ := hiff.1 hread
      obtain rfl : UInt64.ofNat m = n := by simpa [hread, Except.map] using h
      rw [UInt64.toNat_ofNat_of_lt' hlt]
      exact ⟨hne, hdigits, hvalue⟩
  · rintro ⟨-, hdigits, hvalue⟩
    rw [hiff.2 ⟨hdigits, hvalue, n.toNat_lt⟩]
    simp [Except.map]

/-- A sign is not a digit. -/
private theorem not_digits_plus {cs : List Char} {n : Nat} : ¬ Digits ('+' :: cs) n := fun h =>
  absurd (h.isDigit '+' List.mem_cons_self) (by decide)

/-- **Reading finds the number** that a text denotes, if that fits in a word. -/
theorem readWord_eq_ok_iff {text : List Char} {n : UInt64} :
    readWord text = .ok n ↔ Denotes text n.toNat := by
  rcases text with _ | ⟨c, cs⟩
  · have hempty : ¬ Digits [] n.toNat := fun h => h.ne_nil rfl
    simp [readWord, Denotes, hempty]
  · by_cases hplus : c = '+'
    · obtain rfl := hplus
      have hdenotes : Denotes ('+' :: cs) n.toNat ↔ Digits cs n.toNat := by
        simp [Denotes, not_digits_plus]
      rw [hdenotes]
      cases cs with
      | nil =>
        have hempty : ¬ Digits [] n.toNat := fun h => h.ne_nil rfl
        simp [readWord, hempty]
      | cons d cs => simp [readWord, ← map_readDigits_eq_ok_iff]
    · have hdenotes : Denotes (c :: cs) n.toNat ↔ Digits (c :: cs) n.toNat := by
        simp [Denotes, hplus]
      rw [hdenotes, ← map_readDigits_eq_ok_iff (List.cons_ne_nil c cs)]
      simp [readWord, hplus]

theorem isBlank_eq_false_of_isDigit {c : Char} (h : c.isDigit) : isBlank c = false := by
  obtain ⟨hge, hle⟩ := Char.isDigit_iff_toNat.1 h
  change 48 ≤ c.toNat at hge
  change c.toNat ≤ 57 at hle
  simp only [isBlank, blankRanges, List.any_cons, List.any_nil, Bool.or_eq_false_iff,
    Bool.and_eq_false_iff, decide_eq_false_iff_not, and_true]
  omega

theorem Denotes.isBlank_eq_false {text : List Char} {n : Nat} (h : Denotes text n) :
    ∀ c ∈ text, isBlank c = false := by
  rcases h with h | ⟨digits, rfl, h⟩
  · exact fun c hc => isBlank_eq_false_of_isDigit (h.isDigit c hc)
  · exact List.forall_mem_cons.2 ⟨by decide, fun c hc =>
      isBlank_eq_false_of_isDigit (h.isDigit c hc)⟩

/-- The decimal digits of a number denote it, whatever zeros are put in front. -/
theorem digits_replicate_zero_append (k n : Nat) :
    Digits (List.replicate k '0' ++ (toString n).toList) n := by
  rw [Nat.toString_eq_repr, Nat.toList_repr]
  constructor
  case ne_nil => simp [Nat.toDigits_ne_nil]
  case isDigit =>
    refine List.forall_mem_append.2 ⟨fun c hc => ?_, fun c hc => ?_⟩
    · rw [List.eq_of_mem_replicate hc]
      rfl
    · exact Nat.isDigit_of_mem_toDigits (by decide) (by decide) hc
  case value_eq =>
    rw [Nat.ofDigitChars_append, Nat.ofDigitChars_replicate_zero, Nat.mul_zero,
      Nat.ofDigitChars_ten_toDigits]

end MarkSweep.Text
