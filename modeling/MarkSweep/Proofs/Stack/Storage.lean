import MarkSweep.Proofs.Stack.Growth

/-!
# What a stack has storage for

A stack asks for memory in two places. Where its capacity is used up it asks for the storage of the
next one, and if that is refused the push fails. Where there is capacity left it takes the storage
for granted and asks for more as a last resort; if that is refused there is no answer to give. The
second request is never made as long as the stack is covered, that is, the capacity not larger than
the storage (`push_ne_exhausted`). New stacks are covered, growth covers a stack whatever it was
before, and every call keeps it that way but one: a copy has storage for its slots only and the
capacity of the original, so that it is covered only if it is full (`storage_run`).
-/

namespace MarkSweep.Stack

variable {α : Type} {s : Stack α}

/-- There is storage for all that the capacity says. -/
def Covered (s : Stack α) : Prop := s.capacity ≤ s.room

instance (s : Stack α) : Decidable s.Covered := inferInstanceAs (Decidable (s.capacity ≤ s.room))

/-- A stack that is covered takes slots up to its capacity without any memory. -/
theorem push_ne_exhausted (hcovered : s.Covered) (hfits : s.size ≤ s.capacity.toNat) (slot : α)
    (granted : Bool) : ((Op.push slot granted).perform s).answer ≠ .error .exhausted := by
  rw [Ne, answer_perform_push_eq_error_iff, answer_push_eq_exhausted_iff]
  rintro ⟨hne, hroom, -⟩
  have := UInt64.le_iff_toNat_le.1 hcovered
  omega

/-! ### One call -/

theorem size_lt_toNat_extendedRoom (hlt : s.size < s.capacity.toNat) :
    s.size < s.extendedRoom.toNat := by
  have := s.capacity.toNat_lt
  have hnext : (UInt64.ofNat s.size + 1).toNat = s.size + 1 := by
    rw [UInt64.toNat_add, UInt64.toNat_ofNat_of_lt' (by rw [UInt64.size]; omega)]
    exact Nat.mod_eq_of_lt (Nat.lt_of_le_of_lt hlt this)
  rw [extendedRoom, Word.toNat_max, hnext]
  omega

theorem toNat_room_clone (hfits : s.size ≤ s.capacity.toNat) : s.clone.room.toNat = s.size :=
  UInt64.toNat_ofNat_of_lt' (Nat.lt_of_le_of_lt hfits s.capacity.toNat_lt)

/-- A copy is covered only if it is full. -/
theorem covered_clone_iff (hfits : s.size ≤ s.capacity.toNat) : s.clone.Covered ↔ s.isFull := by
  rw [Covered, UInt64.le_iff_toNat_le, toNat_room_clone hfits, isFull, decide_eq_true_iff]
  exact ⟨fun hle => Nat.le_antisymm hfits hle, Nat.le_of_eq ∘ Eq.symm⟩

/-- A stack that has grown is covered. -/
theorem covered_of_push_of_isFull {t : Stack α} {slot : α} {granted : Bool}
    {events : List (Event Empty)} (hfull : s.isFull)
    (h : s.push slot granted = ⟨.ok (), t, events⟩) : t.Covered := by
  have hfull := of_decide_eq_true hfull
  have hp : s.Pushed slot granted ⟨.ok (), t, events⟩ := h ▸ s.pushed Empty slot granted
  cases hp with
  | placed size_ne _ | extended size_ne _ _ => exact absurd hfull size_ne
  | grown next _ _ _ =>
    rw [Covered, UInt64.le_iff_toNat_le, Word.toNat_max]
    exact Nat.le_max_right _ _

/-- There is storage for the slots that are in use. -/
theorem size_le_room_perform (hfits : s.size ≤ s.capacity.toNat) (h : s.size ≤ s.room.toNat)
    (op : Op α) : (op.perform s).state.size ≤ (op.perform s).state.room.toNat := by
  have hbecomes := s.becomes op
  generalize (op.perform s).state = t at hbecomes ⊢
  cases hbecomes with
  | lowered slots size_le => exact size_le.trans h
  | copied _ => exact Nat.le_of_eq (toNat_room_clone hfits).symm
  | raised slot granted t events _ push_eq =>
    have hsize : (s.slots.push slot).size = s.size + 1 := Array.size_push slot
    have hp : s.Pushed slot granted ⟨.ok (), t, events⟩ := push_eq ▸ s.pushed Empty slot granted
    cases hp with
    | placed _ lt_room => exact hsize.trans_le lt_room
    | extended size_ne _ _ =>
      exact hsize.trans_le (size_lt_toNat_extendedRoom (Nat.lt_of_le_of_ne hfits size_ne))
    | grown next size_eq next_eq _ =>
      refine hsize.trans_le ?_
      rw [Word.toNat_max]
      omega

/-- Every call but a copy keeps a stack covered. -/
theorem Covered.perform (hcovered : s.Covered) (hfits : s.size ≤ s.capacity.toNat) {op : Op α}
    (hop : op ≠ .clone) : (op.perform s).state.Covered := by
  have hbecomes := s.becomes op
  generalize (op.perform s).state = t at hbecomes ⊢
  cases hbecomes with
  | lowered slots _ => exact hcovered
  | copied op_eq => exact absurd op_eq hop
  | raised slot granted t events _ push_eq =>
    have hp : s.Pushed slot granted ⟨.ok (), t, events⟩ := push_eq ▸ s.pushed Empty slot granted
    cases hp with
    | placed _ _ => exact hcovered
    | extended size_ne room_le _ =>
      have := UInt64.le_iff_toNat_le.1 hcovered
      omega
    | grown next size_eq _ _ =>
      exact covered_of_push_of_isFull (decide_eq_true size_eq) push_eq

/-! ### Histories -/

theorem size_le_room_run (hfits : s.size ≤ s.capacity.toNat) (h : s.size ≤ s.room.toNat)
    (ops : List (Op α)) : (s.run ops).size ≤ (s.run ops).room.toNat :=
  (run_induction (p := fun s => s.size ≤ s.capacity.toNat ∧ s.size ≤ s.room.toNat)
    (fun _ op h => ⟨size_le_perform h.1 op, size_le_room_perform h.1 h.2 op⟩) ⟨hfits, h⟩ ops).2

theorem Covered.run (hcovered : s.Covered) (hfits : s.size ≤ s.capacity.toNat)
    {ops : List (Op α)} (hops : .clone ∉ ops) : (s.run ops).Covered := by
  induction ops generalizing s with
  | nil => exact hcovered
  | cons op ops ih =>
    rw [List.mem_cons, not_or] at hops
    exact ih (hcovered.perform hfits (Ne.symm hops.1)) (size_le_perform hfits op) hops.2

/-- **What is true of the storage** of a stack `s` that a history leads to. -/
structure KeepsStorage (start : Stack α) (ops : List (Op α)) (s : Stack α) : Prop where
  /-- The slots are no more than the capacity says. -/
  size_le_capacity : s.size ≤ s.capacity.toNat
  /-- There is storage for them. -/
  size_le_room : s.size ≤ s.room.toNat
  /-- The stack is covered if it was so after the last copy, or if there was none. -/
  covered : ∀ before rest, ops = before ++ rest → .clone ∉ rest →
    (before = [] ∨ (start.run before).Covered) → s.Covered
  /-- A copy is covered only if it is full. -/
  covered_clone_iff : s.clone.Covered ↔ s.isFull
  /-- Growth covers a stack. -/
  covered_of_growth : ∀ slot granted, s.isFull →
    ((Op.push slot granted).perform s).answer = .ok none →
      ((Op.push slot granted).perform s).state.Covered
  /-- A push comes to an end without an answer, which `StackError.exhausted` stands for, exactly
  where there is capacity left, the storage is used up and there is no memory for more. -/
  exhausted_iff : ∀ slot granted,
    ((Op.push slot granted).perform s).answer = .error .exhausted ↔
      s.size < s.capacity.toNat ∧ s.size = s.room.toNat ∧ granted = false
  /-- It does not occur on a stack that is covered. -/
  push_ne_exhausted : s.Covered → ∀ slot granted,
    ((Op.push slot granted).perform s).answer ≠ .error .exhausted

/-- **The storage of a stack** holds its slots, and up to the first copy also what its capacity
says. -/
theorem storage_run (first : UInt64) (ops : List (Op α)) :
    KeepsStorage (withCapacity first) ops ((withCapacity first).run ops) := by
  have hfits := size_le_run_withCapacity first ops
  have hroom : ((withCapacity first).run ops).size ≤ ((withCapacity first).run ops).room.toNat :=
    size_le_room_run (Nat.zero_le _) (Nat.zero_le _) ops
  constructor
  case size_le_capacity => exact hfits
  case size_le_room => exact hroom
  case covered =>
    rintro before rest rfl hrest hbefore
    have hcovered : ((withCapacity first).run before).Covered := by
      rcases hbefore with rfl | hcovered
      · exact UInt64.le_refl _
      · exact hcovered
    rw [run_append]
    exact hcovered.run (size_le_run_withCapacity first before) hrest
  case covered_clone_iff => exact covered_clone_iff hfits
  case covered_of_growth =>
    intro slot granted hfull hanswer
    rw [Op.perform] at hanswer ⊢
    rcases Stack.push_cases Empty _ slot granted with ⟨t, events, hpush, -⟩ | ⟨error, hpush⟩
    · rw [hpush]
      exact covered_of_push_of_isFull hfull hpush
    · rw [hpush] at hanswer
      cases hanswer
  case exhausted_iff =>
    intro slot granted
    rw [answer_perform_push_eq_error_iff, answer_push_eq_exhausted_iff]
    constructor
    · rintro ⟨hne, hle, hgranted⟩
      exact ⟨Nat.lt_of_le_of_ne hfits hne, Nat.le_antisymm hroom hle, hgranted⟩
    · rintro ⟨hlt, heq, hgranted⟩
      exact ⟨Nat.ne_of_lt hlt, Nat.le_of_eq heq.symm, hgranted⟩
  case push_ne_exhausted => exact fun hcovered => push_ne_exhausted hcovered hfits

/-- The copy of a stack with capacity for one slot and none in use has no storage for that slot. A
push onto it that is refused memory has no answer; one that gets it takes more storage than the
capacity says, so that the stack grows next without any. -/
theorem clone_loses_storage :
    let copy := (empty : Stack Nat).run [.push 1 true, .push 2 false, .pop, .clone]
    copy.size < copy.capacity.toNat ∧ ¬ copy.Covered ∧
      copy.trace [.push 3 false] = [.error .exhausted] ∧
      copy.trace [.push 3 true, .push 4 false] = [.ok none, .ok none] := by
  exact ⟨by decide, by decide, rfl, rfl⟩

end MarkSweep.Stack
