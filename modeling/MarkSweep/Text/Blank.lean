/-!
# Blank characters

The characters with the Unicode property `White_Space`, and the removal of a text's blank
margins. `trim_append_margins` says that margins never matter: whatever blanks surround a text
that neither begins nor ends with one, trimming gives the text back.
-/

namespace MarkSweep.Text

/-- The twenty-five code points with the property `White_Space`, as closed ranges in increasing
order. -/
def blankRanges : List (Nat × Nat) :=
  [(0x09, 0x0d), (0x20, 0x20), (0x85, 0x85), (0xa0, 0xa0), (0x1680, 0x1680), (0x2000, 0x200a),
    (0x2028, 0x2029), (0x202f, 0x202f), (0x205f, 0x205f), (0x3000, 0x3000)]

/-- Whether a character is blank. -/
def isBlank (c : Char) : Bool :=
  blankRanges.any fun r => r.1 ≤ c.toNat && c.toNat ≤ r.2

/-- The characters of a text without its blank margins. -/
def trim (cs : List Char) : List Char :=
  ((cs.dropWhile isBlank).reverse.dropWhile isBlank).reverse

/-- Blanks in front of a character that is none are dropped, and nothing else is. -/
theorem dropWhile_append_of_head {p : Char → Bool} {left cs : List Char}
    (hleft : ∀ c ∈ left, p c) (hhead : ∀ c ∈ cs.head?, p c = false) :
    (left ++ cs).dropWhile p = cs := by
  induction left with
  | nil =>
    cases cs with
    | nil => rfl
    | cons c cs => simp [hhead c (by simp)]
  | cons c left ih =>
    rw [List.cons_append, List.dropWhile_cons, if_pos (hleft c List.mem_cons_self)]
    exact ih fun d hd => hleft d (List.mem_cons_of_mem _ hd)

/-- **Margins do not matter.** A text that neither begins nor ends with a blank is found again
between any blank margins. -/
theorem trim_append_margins {left cs right : List Char} (hleft : ∀ c ∈ left, isBlank c)
    (hright : ∀ c ∈ right, isBlank c) (hhead : ∀ c ∈ cs.head?, isBlank c = false)
    (hlast : ∀ c ∈ cs.getLast?, isBlank c = false) :
    trim (left ++ cs ++ right) = cs := by
  cases cs with
  | nil =>
    have hall : ∀ c ∈ left ++ right, isBlank c := fun c hc =>
      (List.mem_append.1 hc).elim (hleft c) (hright c)
    have hdrop : (left ++ right ++ []).dropWhile isBlank = [] :=
      dropWhile_append_of_head hall (by simp)
    rw [List.append_nil] at hdrop
    simp [trim, hdrop]
  | cons c cs =>
    have hdrop : (left ++ ((c :: cs) ++ right)).dropWhile isBlank = (c :: cs) ++ right :=
      dropWhile_append_of_head hleft (by simpa using hhead)
    have hback : (right.reverse ++ (c :: cs).reverse).dropWhile isBlank = (c :: cs).reverse :=
      dropWhile_append_of_head (by simpa using hright) (by
        intro d hd
        rw [List.head?_reverse] at hd
        exact hlast d hd)
    rw [trim, List.append_assoc, hdrop, List.reverse_append, hback, List.reverse_reverse]

end MarkSweep.Text
