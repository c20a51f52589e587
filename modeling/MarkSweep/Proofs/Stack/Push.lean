import MarkSweep.Stack

/-!
# How a push ends

A push is the one operation of a stack with several outcomes. `Pushed` lists them, with what is true
where a push ends so, and what a push leaves, answers and announces is read off this list. In
particular it writes nothing before it is sure of what it needs, so that one that fails leaves the
stack as it is: the capacity goes up last, and then there is storage for the slot.
-/

namespace MarkSweep.Stack

variable {φ α : Type} {s : Stack α}

/-! ### Growth -/

/-- The next capacity, where it fits in a word. -/
theorem nextCapacity_cases (s : Stack α) :
    (UInt64.size ≤ 2 * s.capacity.toNat ∧ s.nextCapacity = .error (.growthFailed Word.largest)) ∨
      ∃ n, n.toNat = max 1 (2 * s.capacity.toNat) ∧ s.nextCapacity = .ok n := by
  unfold nextCapacity
  by_cases hzero : s.capacity = 0
  · exact .inr ⟨1, by simp [hzero], if_pos hzero⟩
  · have hpos : s.capacity.toNat ≠ 0 := fun heq => hzero (UInt64.toNat_inj.1 heq)
    rw [if_neg hzero]
    split
    · rename_i hlt
      refine .inr ⟨_, ?_, rfl⟩
      rw [UInt64.toNat_mul]
      change 2 * s.capacity.toNat % 2 ^ 64 = _
      rw [Nat.mod_eq_of_lt hlt]
      omega
    · rename_i hge
      exact .inl ⟨Nat.le_of_not_lt hge, rfl⟩

/-- Storage is extended only if it has to be, which takes memory. -/
theorem reserve_of_or {n : UInt64} {granted : Bool} (h : n ≤ s.room ∨ granted = true) :
    (s.reserve n granted : Outcome φ StackError (Stack α) Unit) =
      .quiet (.ok ()) { s with room := max s.room n } := by
  rw [reserve]
  split
  · rename_i hle
    have hmax : max s.room n = s.room := by
      rw [← UInt64.toNat_inj, Word.toNat_max]
      exact Nat.max_eq_left hle
    rw [hmax]
  · rename_i hlt
    have hmax : max s.room n = n := by
      rw [← UInt64.toNat_inj, Word.toNat_max]
      exact Nat.max_eq_right (Nat.le_of_not_le hlt)
    rw [if_pos (h.resolve_left hlt), hmax]

/-- Where there is no memory for more storage, nothing is written. -/
theorem reserve_of_lt {n : UInt64} (h : s.room < n) :
    (s.reserve n false : Outcome φ StackError (Stack α) Unit) =
      .quiet (.error (.growthFailed n)) s := by
  rw [reserve, if_neg (UInt64.not_le.2 h)]
  rfl

/-! ### The ends of a push -/

/-- How a push ends, with what is true where it ends so. -/
inductive Pushed (s : Stack α) (slot : α) (granted : Bool) :
    Outcome φ StackError (Stack α) Unit → Prop
  /-- There is capacity and storage left. -/
  | placed (size_ne : s.size ≠ s.capacity.toNat) (lt_room : s.size < s.room.toNat) :
      Pushed s slot granted (.quiet (.ok ()) { s with slots := s.slots.push slot })
  /-- There is capacity left, and storage is obtained for it. -/
  | extended (size_ne : s.size ≠ s.capacity.toNat) (room_le : s.room.toNat ≤ s.size)
      (granted_eq : granted = true) : Pushed s slot granted
        (.quiet (.ok ()) { s with slots := s.slots.push slot, room := s.extendedRoom })
  /-- There is capacity left, but no storage and no memory for it. -/
  | exhausted (size_ne : s.size ≠ s.capacity.toNat) (room_le : s.room.toNat ≤ s.size)
      (granted_eq : granted = false) : Pushed s slot granted (.quiet (.error .exhausted) s)
  /-- The capacity is used up, and the next one does not fit in a word. -/
  | overflow (size_eq : s.size = s.capacity.toNat) (le : UInt64.size ≤ 2 * s.capacity.toNat) :
      Pushed s slot granted (.quiet (.error (.growthFailed Word.largest)) s)
  /-- The capacity is used up, and there is no memory for the next one. -/
  | refused (next : UInt64) (size_eq : s.size = s.capacity.toNat)
      (next_eq : next.toNat = max 1 (2 * s.capacity.toNat)) (room_lt : s.room < next)
      (granted_eq : granted = false) :
      Pushed s slot granted (.quiet (.error (.growthFailed next)) s)
  /-- The capacity is used up, and goes on to the next one. -/
  | grown (next : UInt64) (size_eq : s.size = s.capacity.toNat)
      (next_eq : next.toNat = max 1 (2 * s.capacity.toNat))
      (storage : next ≤ s.room ∨ granted = true) : Pushed s slot granted
        ⟨.ok (), ⟨s.slots.push slot, next, max s.room next⟩, [.stackGrown s.capacity next]⟩

/-- A stack that is not full takes a slot as its storage allows. -/
private theorem pushed_of_size_ne (hne : s.size ≠ s.capacity.toNat) (slot : α) (granted : Bool) :
    s.Pushed slot granted (s.place slot granted : Outcome φ StackError (Stack α) Unit) := by
  rw [place]
  split
  · rename_i hlt
    exact .placed hne hlt
  · rename_i hge
    cases granted with
    | true => exact .extended hne (Nat.le_of_not_lt hge) rfl
    | false => exact .exhausted hne (Nat.le_of_not_lt hge) rfl

variable (φ)

/-- Every push ends in one of these ways. -/
theorem pushed (s : Stack α) (slot : α) (granted : Bool) :
    s.Pushed slot granted (s.push slot granted : Outcome φ StackError (Stack α) Unit) := by
  by_cases hfull : s.size = s.capacity.toNat
  · have hpush : (s.push slot granted : Outcome φ StackError (Stack α) Unit) =
        (s.grow granted).andThen fun _ s => s.place slot granted := by
      simp [push, isFull, hfull]
    rw [hpush, grow]
    rcases s.nextCapacity_cases with ⟨hle, hnext⟩ | ⟨next, hnext, hok⟩
    · rw [hnext]
      exact .overflow hfull hle
    rw [hok]
    by_cases hstorage : next ≤ s.room ∨ granted = true
    · -- the storage that was reserved is there when the slot is put in
      have hlt : s.size < (max s.room next).toNat := by
        rw [Word.toNat_max]
        omega
      have hplace : (⟨s.slots, next, max s.room next⟩ : Stack α).place slot granted =
          (.quiet (.ok ()) ⟨s.slots.push slot, next, max s.room next⟩ :
            Outcome φ StackError (Stack α) Unit) := if_pos hlt
      simpa [reserve_of_or hstorage, Outcome.andThen, Outcome.after, Outcome.quiet, setCapacity,
        hplace] using Pushed.grown next hfull hnext hstorage
    · obtain ⟨hlt, hgranted⟩ := not_or.1 hstorage
      obtain rfl : granted = false := Bool.not_eq_true _ ▸ hgranted
      have hlt := UInt64.not_le.1 hlt
      simpa [reserve_of_lt hlt, Outcome.andThen, Outcome.quiet] using
        Pushed.refused next hfull hnext hlt rfl
  · have hpush : (s.push slot granted : Outcome φ StackError (Stack α) Unit) =
        s.place slot granted := by
      simp [push, isFull, hfull, Outcome.andThen, Outcome.after, Outcome.quiet]
    rw [hpush]
    exact pushed_of_size_ne hfull slot granted

/-- A push puts one slot on top and leaves the others, and runs no finalizers, or it fails and
leaves the stack as it is. -/
theorem push_cases (s : Stack α) (slot : α) (granted : Bool) :
    (∃ t events, (s.push slot granted : Outcome φ StackError (Stack α) Unit) = ⟨.ok (), t, events⟩ ∧
        t.toList = s.toList ++ [slot] ∧ Event.finalizations events = []) ∨
      ∃ e, (s.push slot granted : Outcome φ StackError (Stack α) Unit) = .quiet (.error e) s := by
  have hp := s.pushed φ slot granted
  generalize s.push slot granted = o at hp ⊢
  cases hp with
  | placed _ _ | extended _ _ _ | grown _ _ _ _ =>
    exact .inl ⟨_, _, rfl, Array.toList_push, rfl⟩
  | exhausted _ _ _ | overflow _ _ | refused _ _ _ _ _ => exact .inr ⟨_, rfl⟩

/-- A push succeeds where the capacity can double and memory is granted. -/
theorem push_of_granted (hgrow : !s.isFull || 2 * s.capacity.toNat < UInt64.size) (slot : α) :
    ∃ t events, (s.push slot true : Outcome φ StackError (Stack α) Unit) = ⟨.ok (), t, events⟩ ∧
      t.toList = s.toList ++ [slot] := by
  have hp := s.pushed φ slot true
  rw [Bool.or_eq_true, Bool.not_eq_true', isFull, decide_eq_false_iff_not, decide_eq_true_iff]
    at hgrow
  generalize s.push slot true = o at hp ⊢
  cases hp with
  | placed _ _ | extended _ _ _ | grown _ _ _ _ => exact ⟨_, _, rfl, Array.toList_push⟩
  | exhausted _ _ granted_eq | refused _ _ _ _ granted_eq => cases granted_eq
  | overflow size_eq le => exact absurd size_eq (hgrow.resolve_right (Nat.not_lt.2 le))

/-- A stack that is full cannot be pushed to exactly where the next capacity does not fit or there
is no memory for it, and then the failure tells that capacity. -/
theorem answer_push_eq_growthFailed_iff (s : Stack α) (slot : α) (granted : Bool) (n : UInt64) :
    (s.push slot granted : Outcome φ StackError (Stack α) Unit).answer =
        .error (.growthFailed n) ↔ s.size = s.capacity.toNat ∧
      (UInt64.size ≤ 2 * s.capacity.toNat ∧ n = Word.largest ∨
        n.toNat = max 1 (2 * s.capacity.toNat) ∧ s.room < n ∧ granted = false) := by
  have hp := s.pushed φ slot granted
  generalize s.push slot granted = o at hp ⊢
  have hn := n.toNat_lt
  cases hp with
  | placed size_ne _ => simp [size_ne, Outcome.quiet]
  | extended size_ne _ _ => simp [size_ne, Outcome.quiet]
  | exhausted size_ne _ _ => simp [size_ne, Outcome.quiet]
  | overflow size_eq le =>
    simp only [Outcome.quiet, Except.error.injEq, StackError.growthFailed.injEq, size_eq, le,
      true_and]
    constructor
    · rintro rfl
      exact .inl rfl
    · rintro (heq | ⟨heq, -⟩)
      · exact heq.symm
      · -- no word is that large
        rw [UInt64.size] at le
        omega
  | refused next size_eq next_eq room_lt granted_eq =>
    simp only [Outcome.quiet, Except.error.injEq, StackError.growthFailed.injEq, size_eq, true_and]
    constructor
    · rintro rfl
      exact .inr ⟨next_eq, room_lt, granted_eq⟩
    · rintro (⟨hle, -⟩ | ⟨heq, -⟩)
      · have := next.toNat_lt
        rw [UInt64.size] at hle
        omega
      · exact UInt64.toNat_inj.1 (next_eq.trans heq.symm)
  | grown next size_eq next_eq storage =>
    have := next.toNat_lt
    simp only [reduceCtorEq, false_iff, not_and, not_or, size_eq, UInt64.size]
    rintro -
    refine ⟨by omega, fun heq hlt hgranted => ?_⟩
    obtain rfl : n = next := UInt64.toNat_inj.1 (heq.trans next_eq.symm)
    rcases storage with hle | htrue
    · exact UInt64.not_le.2 hlt hle
    · simp [hgranted] at htrue

/-- A stack with capacity left but no storage for a slot does not take one without memory. -/
theorem answer_push_eq_exhausted_iff (s : Stack α) (slot : α) (granted : Bool) :
    (s.push slot granted : Outcome φ StackError (Stack α) Unit).answer = .error .exhausted ↔
      s.size ≠ s.capacity.toNat ∧ s.room.toNat ≤ s.size ∧ granted = false := by
  have hp := s.pushed φ slot granted
  generalize s.push slot granted = o at hp ⊢
  cases hp with
  | placed size_ne lt_room =>
    have := Nat.not_le.2 lt_room
    simp [this, Outcome.quiet]
  | extended size_ne room_le granted_eq => simp [granted_eq, Outcome.quiet]
  | exhausted size_ne room_le granted_eq => simp [size_ne, room_le, granted_eq, Outcome.quiet]
  | overflow size_eq _ => simp [size_eq, Outcome.quiet]
  | refused _ size_eq _ _ _ => simp [size_eq, Outcome.quiet]
  | grown _ size_eq _ _ => simp [size_eq]

theorem answer_push_ne_underflow (s : Stack α) (slot : α) (granted : Bool) :
    (s.push slot granted : Outcome φ StackError (Stack α) Unit).answer ≠ .error .underflow := by
  have hp := s.pushed φ slot granted
  generalize s.push slot granted = o at hp ⊢
  cases hp <;> simp [Outcome.quiet]

end MarkSweep.Stack
