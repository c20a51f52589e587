import Mathlib.Algebra.Order.Ring.Nat
import Mathlib.Data.List.Infix
import Mathlib.Order.Bounds.Basic
import MarkSweep.Proofs.Stack.Push
import MarkSweep.Stack.History

/-!
# A stack is a list with a capacity that doubles

What a call makes of the stack is listed once (`Becomes`), as the ends of a push are. So a call
answers what it answers on a plain list and leaves what it leaves there (`plays_run`), and it keeps
the capacity or, where this is used up and the slot is taken all the same, goes on to the next one
(`perform_capacity_cases`).

The capacity is tested for equality with the size, so that a stack would never grow again once its
size were past it. This does not happen (`size_le_perform`), and over a history the capacity is the
least one in the sequence of doublings that was large enough for every size on the way
(`isLeast_capacity_run`), however many slots were taken off in between, and whatever growth failed.
-/

namespace MarkSweep.Stack

variable {α : Type} {s : Stack α}

/-! ### One call beside a list -/

/-- A call does what it does to a plain list, unless it is a push that is refused. -/
theorem perform_cases (s : Stack α) (op : Op α) :
    ((op.perform s).answer = (op.onList s.toList).1 ∧
        (op.perform s).state.toList = (op.onList s.toList).2) ∨
      ∃ slot granted error, op = .push slot granted ∧ op.perform s = .quiet (.error error) s := by
  cases op with
  | push slot granted =>
    rw [Op.perform]
    rcases s.push_cases Empty slot granted with ⟨t, events, hpush, hlist, -⟩ | ⟨error, hpush⟩
    · rw [hpush]
      exact .inl ⟨rfl, hlist⟩
    · rw [hpush]
      exact .inr ⟨slot, granted, error, rfl, rfl⟩
  | pop =>
    left
    rw [Op.perform, Op.onList, pop_eq]
    rcases hlast : s.toList.getLast? with _ | slot
    · have hnil : s.toList = [] := List.getLast?_eq_none_iff.1 hlast
      exact ⟨rfl, by simp [Outcome.quiet, hnil]⟩
    · exact ⟨rfl, toList_pop s⟩
  | peek =>
    left
    rw [Op.perform, Op.onList, peek, toList, Array.getLast?_toList]
    cases s.slots.back? <;> exact ⟨rfl, rfl⟩
  | peekNth depth =>
    left
    rw [Op.perform, Op.onList, peekNth_eq]
    cases s.toList.reverse[depth.toNat]? <;> exact ⟨rfl, rfl⟩
  | truncate size => exact .inl ⟨rfl, toList_truncate s size⟩
  | clear => exact .inl ⟨rfl, rfl⟩
  | clone => exact .inl ⟨rfl, rfl⟩

/-- A history of a stack is one of a plain list, from the slots at its beginning to those at its
end. -/
theorem plays_run (s : Stack α) (ops : List (Op α)) :
    Plays s.toList ops (s.trace ops) (s.run ops).toList := by
  induction ops generalizing s with
  | nil => exact .nil _
  | cons op ops ih =>
    have htail := ih (op.perform s).state
    rw [trace, run]
    rcases s.perform_cases op with ⟨hanswer, hlist⟩ | ⟨slot, granted, error, rfl, hrefused⟩
    · rw [hanswer]
      rw [hlist] at htail
      exact .step op htail
    · rw [hrefused] at htail ⊢
      exact .refused slot granted error htail

/-- A call that fails leaves the stack as it is. A push writes the capacity only after it has
obtained the storage, and then it does not fail any more. -/
theorem perform_of_error {op : Op α} {error : StackError}
    (h : (op.perform s).answer = .error error) : (op.perform s).state = s := by
  cases op with
  | push slot granted =>
    rw [Op.perform] at h ⊢
    rcases s.push_cases Empty slot granted with ⟨t, events, hpush, -⟩ | ⟨e, hpush⟩
    · rw [hpush] at h
      cases h
    · rw [hpush]
      rfl
  | pop =>
    rw [Op.perform, pop] at h ⊢
    cases hback : s.slots.back? with
    | some slot =>
      rw [hback] at h
      cases h
    | none => rfl
  | peek | peekNth depth => rfl
  | truncate size | clear | clone => cases h

/-- The answer to the call of a push is that of the push, with no slot in it. -/
theorem answer_perform_push_eq_error_iff (s : Stack α) (slot : α) (granted : Bool)
    (error : StackError) : ((Op.push slot granted).perform s).answer = .error error ↔
      (s.push slot granted : Outcome Empty StackError (Stack α) Unit).answer = .error error := by
  rw [Op.perform]
  cases (s.push slot granted : Outcome Empty StackError (Stack α) Unit).answer <;> simp [Except.map]

/-! ### What becomes of a stack -/

/-- What a call makes of a stack. -/
inductive Becomes (s : Stack α) (op : Op α) : Stack α → Prop
  /-- Slots may be taken off. -/
  | lowered (slots : Array α) (size_le : slots.size ≤ s.size) :
      Becomes s op { s with slots := slots }
  /-- The stack is copied. -/
  | copied (op_eq : op = .clone) : Becomes s op s.clone
  /-- A slot is put on top. -/
  | raised (slot : α) (granted : Bool) (t : Stack α) (events : List (Event Empty))
      (op_eq : op = .push slot granted) (push_eq : s.push slot granted = ⟨.ok (), t, events⟩) :
      Becomes s op t

theorem becomes (s : Stack α) (op : Op α) : s.Becomes op (op.perform s).state := by
  have hsame : s.Becomes op s := .lowered s.slots (Nat.le_refl _)
  cases op with
  | push slot granted =>
    rw [Op.perform]
    rcases s.push_cases Empty slot granted with ⟨t, events, hpush, -⟩ | ⟨error, hpush⟩
    · rw [hpush]
      exact .raised slot granted t events rfl hpush
    · rw [hpush]
      exact hsame
  | pop =>
    rw [Op.perform, pop]
    cases s.slots.back? with
    | some slot => exact .lowered _ (Array.size_pop.trans_le (Nat.sub_le _ _))
    | none => exact hsame
  | peek | peekNth depth => exact hsame
  | truncate n =>
    refine .lowered _ ?_
    rw [Array.take_eq_extract, Array.size_extract]
    exact (Nat.sub_le _ _).trans (Nat.min_le_right _ _)
  | clear => exact .lowered #[] (Nat.zero_le _)
  | clone => exact .copied rfl

/-! ### The capacity -/

/-- Growth is announced where the capacity has changed, and nothing else is. -/
theorem events_perform (s : Stack α) (op : Op α) : (op.perform s).events =
    if (op.perform s).state.capacity = s.capacity then []
    else [.stackGrown s.capacity (op.perform s).state.capacity] := by
  cases op with
  | push slot granted =>
    rw [Op.perform]
    have hp := s.pushed Empty slot granted
    generalize s.push slot granted = o at hp ⊢
    cases hp with
    | placed _ _ | extended _ _ _ | exhausted _ _ _ | overflow _ _ | refused _ _ _ _ _ =>
      exact (if_pos rfl).symm
    | grown next size_eq next_eq _ =>
      have hne : next ≠ s.capacity := by
        rintro rfl
        omega
      exact (if_neg hne).symm
  | pop =>
    rw [Op.perform, pop]
    cases s.slots.back? <;> exact (if_pos rfl).symm
  | peek | peekNth depth | truncate size | clear | clone => exact (if_pos rfl).symm

/-- What a call may do to the capacity of a stack and to its size: the capacity is kept and not
exceeded, or it was used up and goes on to the next one for one more slot. -/
theorem perform_capacity_cases (hfits : s.size ≤ s.capacity.toNat) (op : Op α) :
    ((op.perform s).state.capacity = s.capacity ∧ (op.perform s).state.size ≤ s.capacity.toNat) ∨
      s.size = s.capacity.toNat ∧ (op.perform s).state.size = s.capacity.toNat + 1 ∧
        (op.perform s).state.capacity.toNat = max 1 (2 * s.capacity.toNat) := by
  have hbecomes := s.becomes op
  generalize (op.perform s).state = t at hbecomes ⊢
  cases hbecomes with
  | lowered slots size_le => exact .inl ⟨rfl, size_le.trans hfits⟩
  | copied _ => exact .inl ⟨rfl, hfits⟩
  | raised slot granted t events _ push_eq =>
    have hsize : (s.slots.push slot).size = s.size + 1 := Array.size_push slot
    have hp : s.Pushed slot granted ⟨.ok (), t, events⟩ := push_eq ▸ s.pushed Empty slot granted
    cases hp with
    | placed size_ne _ | extended size_ne _ _ =>
      exact .inl ⟨rfl, hsize.trans_le (Nat.lt_of_le_of_ne hfits size_ne)⟩
    | grown next size_eq next_eq _ => exact .inr ⟨size_eq, hsize.trans (by rw [size_eq]), next_eq⟩

/-- The size is never past the capacity, where the test for growth would not see it. -/
theorem size_le_perform (hfits : s.size ≤ s.capacity.toNat) (op : Op α) :
    (op.perform s).state.size ≤ (op.perform s).state.capacity.toNat := by
  rcases perform_capacity_cases hfits op with ⟨hcapacity, hsize⟩ | ⟨-, hsize, hcapacity⟩
  · rwa [hcapacity]
  · omega

theorem size_le_run (hfits : s.size ≤ s.capacity.toNat) (ops : List (Op α)) :
    (s.run ops).size ≤ (s.run ops).capacity.toNat :=
  run_induction (p := fun s => s.size ≤ s.capacity.toNat)
    (fun _ op h => size_le_perform h op) hfits ops

theorem size_le_run_withCapacity (first : UInt64) (ops : List (Op α)) :
    ((withCapacity first).run ops).size ≤ ((withCapacity first).run ops).capacity.toNat :=
  size_le_run (Nat.zero_le _) ops

/-- The capacities that a stack can come to: the first one, and that one or, where it is none, one
slot, doubled any number of times. -/
def capacities (first : Nat) : Set Nat := insert first (Set.range fun k => max 1 first * 2 ^ k)

theorem mem_capacities_self (first : Nat) : first ∈ capacities first := .inl rfl

private theorem mul_two_pow_succ (a k : Nat) : a * 2 ^ (k + 1) = 2 * (a * 2 ^ k) := by
  rw [Nat.pow_succ', Nat.mul_left_comm]

theorem le_of_mem_capacities {first c : Nat} (hc : c ∈ capacities first) : first ≤ c := by
  rcases hc with rfl | ⟨k, rfl⟩
  · exact Nat.le_refl _
  · exact (Nat.le_max_right 1 first).trans (Nat.le_mul_of_pos_right _ (Nat.two_pow_pos k))

theorem next_mem_capacities {first c : Nat} (hc : c ∈ capacities first) :
    max 1 (2 * c) ∈ capacities first := by
  rcases hc with rfl | ⟨k, rfl⟩
  · rcases Nat.eq_zero_or_pos c with rfl | hpos
    · exact .inr ⟨0, rfl⟩
    · refine .inr ⟨1, ?_⟩
      simp only [Nat.pow_one]
      omega
  · have hpos : 0 < max 1 first * 2 ^ k := Nat.mul_pos (by omega) (Nat.two_pow_pos k)
    refine .inr ⟨k + 1, ?_⟩
    simp only [mul_two_pow_succ]
    omega

/-- Nothing lies between a capacity and the next one. -/
theorem next_le_of_lt {first c d : Nat} (hc : c ∈ capacities first) (hd : d ∈ capacities first)
    (hlt : c < d) : max 1 (2 * c) ≤ d := by
  have hle := le_of_mem_capacities hc
  rcases hd with rfl | ⟨l, rfl⟩
  · omega
  · rcases hc with rfl | ⟨k, rfl⟩
    · cases l with
      | zero =>
        simp only [Nat.pow_zero, Nat.mul_one] at hlt ⊢
        omega
      | succ l =>
        have hle : max 1 c ≤ max 1 c * 2 ^ l := Nat.le_mul_of_pos_right _ (Nat.two_pow_pos l)
        simp only [mul_two_pow_succ]
        omega
    · have hkl : k < l :=
        (Nat.pow_lt_pow_iff_right Nat.one_lt_two).1 (Nat.lt_of_mul_lt_mul_left hlt)
      have hpos : 0 < max 1 first * 2 ^ k := Nat.mul_pos (by omega) (Nat.two_pow_pos k)
      calc max 1 (2 * (max 1 first * 2 ^ k)) = max 1 first * 2 ^ (k + 1) := by
            rw [mul_two_pow_succ]
            omega
        _ ≤ max 1 first * 2 ^ l := Nat.mul_le_mul_left _ (Nat.pow_le_pow_right Nat.two_pos hkl)

/-- The capacity stays the least one that was large enough for every size on the way. A call that
goes past it comes to the next one, since every larger one is at least that. -/
theorem isLeast_capacity_run (hfits : s.size ≤ s.capacity.toNat) (ops : List (Op α)) :
    IsLeast {c ∈ capacities s.capacity.toNat |
      ∀ before, before <+: ops → (s.run before).size ≤ c} (s.run ops).capacity.toNat := by
  induction ops using List.reverseRecOn with
  | nil =>
    refine ⟨⟨mem_capacities_self _, fun before hbefore => ?_⟩, fun c hc =>
      le_of_mem_capacities hc.1⟩
    rwa [List.prefix_nil.1 hbefore]
  | append_singleton ops op ih =>
    obtain ⟨⟨hmem, hsizes⟩, hleast⟩ := ih
    have hrun : s.run (ops ++ [op]) = (op.perform (s.run ops)).state := run_append s ops [op]
    have hsizes_iff (c : Nat) : (∀ before, before <+: ops ++ [op] → (s.run before).size ≤ c) ↔
        (op.perform (s.run ops)).state.size ≤ c ∧
          ∀ before, before <+: ops → (s.run before).size ≤ c := by
      simp only [List.prefix_concat_iff, or_imp, forall_and, forall_eq, hrun]
    simp only [hsizes_iff, hrun]
    rcases perform_capacity_cases (size_le_run hfits ops) op with
      ⟨hcapacity, hsize⟩ | ⟨hfull, hsize, hcapacity⟩
    · rw [hcapacity]
      exact ⟨⟨hmem, hsize, hsizes⟩, fun c hc => hleast ⟨hc.1, hc.2.2⟩⟩
    · rw [hcapacity, hsize]
      refine ⟨⟨next_mem_capacities hmem, by omega, fun before hbefore => ?_⟩, fun c hc =>
        next_le_of_lt hmem hc.1 hc.2.1⟩
      have := hsizes before hbefore
      omega

/-! ### Histories of a new stack -/

/-- **A history of a stack**, from `start` to `s`, is that of a list, and of a capacity that is
doubled where it is used up. -/
structure DoublingList (start : Stack α) (ops : List (Op α)) (s : Stack α) : Prop where
  /-- Every call answers what it answers on a plain list and leaves what it leaves there, but for
  the pushes that are refused. -/
  plays : Plays start.toList ops (start.trace ops) s.toList
  /-- The slots are no more than the capacity says. -/
  size_le : s.size ≤ s.capacity.toNat
  /-- The capacity is the least one that was large enough for every size on the way. -/
  isLeast : IsLeast {c ∈ capacities start.capacity.toNat |
    ∀ before, before <+: ops → (start.run before).size ≤ c} s.capacity.toNat
  /-- The capacity never goes down. -/
  capacity_le : ∀ op : Op α, s.capacity ≤ (op.perform s).state.capacity
  /-- A push answers that growth failed exactly where the capacity is used up and the next one does
  not fit in a word or there is no memory for it, and it tells which capacity that is. No memory is
  asked for where the storage suffices for that capacity, as it may after a copy was extended. -/
  growthFailed_iff : ∀ slot granted n,
    ((Op.push slot granted).perform s).answer = .error (.growthFailed n) ↔
      s.size = s.capacity.toNat ∧ (UInt64.size ≤ 2 * s.capacity.toNat ∧ n = Word.largest ∨
        n.toNat = max 1 (2 * s.capacity.toNat) ∧ s.room < n ∧ granted = false)
  /-- A push comes to an end without an answer, which `StackError.exhausted` stands for, exactly
  where there is capacity left but neither storage nor memory for the slot. -/
  exhausted_iff : ∀ slot granted,
    ((Op.push slot granted).perform s).answer = .error .exhausted ↔
      s.size < s.capacity.toNat ∧ s.room.toNat ≤ s.size ∧ granted = false
  /-- There is no other way for a push to fail. -/
  push_ne_underflow : ∀ slot granted,
    ((Op.push slot granted).perform s).answer ≠ .error .underflow
  /-- A call that fails changes nothing. -/
  unchanged : ∀ (op : Op α) error,
    (op.perform s).answer = .error error → (op.perform s).state = s
  /-- Growth is announced where the capacity has changed, and nothing else is. -/
  events_eq : ∀ op : Op α, (op.perform s).events =
    if (op.perform s).state.capacity = s.capacity then []
    else [.stackGrown s.capacity (op.perform s).state.capacity]
  /-- Where the capacity is used up the next one is larger than the size, so that their difference
  is one of numbers. -/
  size_lt_next : ∀ n, s.isFull → s.nextCapacity = .ok n → s.size < n.toNat

/-- **A stack is a list with a capacity that doubles**, whatever its first capacity is, whatever
calls are made and whichever requests for memory are refused. -/
theorem growth_run (first : UInt64) (ops : List (Op α)) :
    DoublingList (withCapacity first) ops ((withCapacity first).run ops) := by
  have hfits := size_le_run_withCapacity first ops
  constructor
  case plays => exact plays_run _ ops
  case size_le => exact hfits
  case isLeast => exact isLeast_capacity_run (Nat.zero_le _) ops
  case capacity_le =>
    intro op
    rw [UInt64.le_iff_toNat_le]
    rcases perform_capacity_cases hfits op with ⟨hcapacity, -⟩ | ⟨-, -, hcapacity⟩
    · rw [hcapacity]
    · omega
  case growthFailed_iff =>
    intro slot granted n
    rw [answer_perform_push_eq_error_iff, answer_push_eq_growthFailed_iff]
  case exhausted_iff =>
    intro slot granted
    rw [answer_perform_push_eq_error_iff, answer_push_eq_exhausted_iff, Nat.lt_iff_le_and_ne,
      and_iff_right hfits]
  case push_ne_underflow =>
    intro slot granted
    rw [Ne, answer_perform_push_eq_error_iff]
    exact answer_push_ne_underflow Empty _ slot granted
  case unchanged => exact fun op error h => perform_of_error h
  case events_eq => exact events_perform _
  case size_lt_next =>
    intro n hfull hn
    have hfull := of_decide_eq_true hfull
    have hnext := nextCapacity_cases ((withCapacity first).run ops)
    rcases hnext with ⟨-, herror⟩ | ⟨m, hm, hok⟩
    · rw [herror] at hn
      cases hn
    · obtain rfl : m = n := Except.ok.inj (hok.symm.trans hn)
      omega

end MarkSweep.Stack
