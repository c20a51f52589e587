import MarkSweep.Heap.History

/-!
# The ledger of a history

Beside the states of a history stands its account: the handles that its allocations gave out, the
handles of the objects that its sweeps released, and the finalizers that were registered and that
ran. No heap keeps this account. What was released is read off the walk of a sweep, decision by
decision (`Sweeping.released`), and not off the generations of slots, so that it can be said of
generations, and of handles, that they tell released objects from live ones. So are the bytes that
were given back, by what each decision does to the count of bytes (`Sweeping.returned`), while the
bytes that were charged are those that the allocations asked for.

A heap that is given up is swept once more if a finalizer is left, which counts as one more call
(`Heap.closing`).
-/

namespace MarkSweep

variable {φ α : Type}

namespace Sweeping

/-- Whether the walk passes the next object without releasing it. -/
def spares (s : Sweeping φ) (h : Handle) : Bool :=
  s.heap.slots[h.slot]?.all fun slot => slot.header.hasColor .black

/-- The handles that the walk releases on its way through the given ones, in order. -/
def released (s : Sweeping φ) : List Handle → List Handle
  | [] => []
  | h :: rest => (if s.spares h then [] else [h]) ++ (s.step h).released rest

/-- The same with the number of bytes by which the count of bytes goes down at each release. -/
def returned (s : Sweeping φ) : List Handle → List (Handle × UInt64)
  | [] => []
  | h :: rest =>
    (if s.spares h then [] else [(h, s.heap.bytesAllocated - (s.step h).heap.bytesAllocated)]) ++
      (s.step h).returned rest

end Sweeping

/-- The finalizer that ran, with the handle of its object. -/
def Finalization.registration (run : Finalization φ) : Handle × φ := (run.handle, run.finalizer)

namespace Heap

/-! ### The account of one call -/

/-- The handles that a sweep releases, in order. -/
def sweepReleases (heap : Heap φ) : List Handle :=
  Sweeping.released ⟨heap, none, SweepStats.zero, #[]⟩ heap.handles

/-- The same with the bytes that each object gives back. -/
def sweepReturns (heap : Heap φ) : List (Handle × UInt64) :=
  Sweeping.returned ⟨heap, none, SweepStats.zero, #[]⟩ heap.handles

/-- The handle that an answer gives out. -/
def Answer.handle? : Answer → Option Handle
  | allocated h => some h
  | _ => none

/-- What an answer tells of a sweep. -/
def Answer.sweep? : Answer → Option SweepStats
  | swept stats => some stats
  | collected stats => some stats.sweep
  | _ => none

/-- What an answer tells of a full collection. -/
def Answer.cycle? : Answer → Option CycleStats
  | collected stats => some stats
  | _ => none

namespace Op

/-- The handle that a call gives out. -/
def issued (heap : Heap φ) (op : Op φ) : Option Handle :=
  (op.perform heap).answer.toOption.bind Answer.handle?

/-- What a call answers about its sweep. -/
def sweep? (heap : Heap φ) (op : Op φ) : Option SweepStats :=
  (op.perform heap).answer.toOption.bind Answer.sweep?

/-- What a call answers about its full collection. A collection that faults is not answered. -/
def cycle? (heap : Heap φ) (op : Op φ) : Option CycleStats :=
  (op.perform heap).answer.toOption.bind Answer.cycle?

/-- The runs of finalizers during a call, in order. -/
def finalized (heap : Heap φ) (op : Op φ) : List (Finalization φ) :=
  Event.finalizations (op.perform heap).events

/-- The handles of the objects that a call releases, in order. -/
def released (heap : Heap φ) : Op φ → List Handle
  | sweep => heap.sweepReleases
  | collect roots =>
    match (heap.mark roots).answer with
    | .ok _ => (heap.mark roots).state.sweepReleases
    | .error _ => []
  | releaseAll => heap.whiten.sweepReleases
  | allocate _ _ _ _ | edit _ _ | store _ _ _ | mark _ => []

/-- The heap that a call sweeps, in the colours that it has then. -/
def swept? (heap : Heap φ) : Op φ → Option (Heap φ)
  | sweep => some heap
  | collect roots =>
    match (heap.mark roots).answer with
    | .ok _ => some (heap.mark roots).state
    | .error _ => none
  | releaseAll => some heap.whiten
  | allocate _ _ _ _ | edit _ _ | store _ _ _ | mark _ => none

/-- The objects that a call releases, in order, with the bytes that each of them gives back. -/
def returned (heap : Heap φ) (op : Op φ) : List (Handle × UInt64) :=
  (op.swept? heap).elim [] sweepReturns

/-- The bytes that a call asks to be charged for its object. -/
def size? : Op φ → Option UInt64
  | allocate _ size _ _ => some size
  | edit _ _ | store _ _ _ | mark _ | sweep | collect _ | releaseAll => none

/-- The object that a call puts in, with the bytes charged for it. -/
def charged (heap : Heap φ) (op : Op φ) : Option (Handle × UInt64) :=
  (op.issued heap).bind fun h => op.size?.map fun size => (h, size)

/-- The finalizer that a call is given. -/
def finalizer? : Op φ → Option φ
  | allocate _ _ finalizer _ => finalizer
  | edit _ _ | store _ _ _ | mark _ | sweep | collect _ | releaseAll => none

/-- The finalizer that a call registers, with the handle of its object. An allocation that fails
registers none. -/
def registered (heap : Heap φ) (op : Op φ) : Option (Handle × φ) :=
  (op.issued heap).bind fun h => op.finalizer?.map fun finalizer => (h, finalizer)

/-- The payload of a live object after a call that does not release it. Only a change that is
addressed to the object gives it another one, and a write only of a reference that is live. -/
def payload (heap : Heap φ) (h : Handle) (object : Object) : Op φ → Object
  | edit target change => if target = h then (change object).getD object else object
  | store target field ref =>
    if target = h ∧ ∀ r ∈ ref.toList, heap.contains r then (object.store field ref).getD object
    else object
  | allocate _ _ _ _ | mark _ | sweep | collect _ | releaseAll => object

end Op

/-! ### The account of a history -/

/-- What the calls of a history account for, one after the other. -/
def ledger (item : Heap φ → Op φ → List α) (heap : Heap φ) : List (Op φ) → List α
  | [] => []
  | op :: ops => item heap op ++ ledger item (op.perform heap).state ops

/-- The handles given out. -/
def issued (heap : Heap φ) (ops : List (Op φ)) : List Handle :=
  heap.ledger (fun heap op => (op.issued heap).toList) ops

/-- The handles of the objects released. -/
def released (heap : Heap φ) (ops : List (Op φ)) : List Handle := heap.ledger Op.released ops

/-- The runs of finalizers. -/
def finalized (heap : Heap φ) (ops : List (Op φ)) : List (Finalization φ) :=
  heap.ledger Op.finalized ops

/-- The finalizers registered, with the handles of their objects. -/
def registered (heap : Heap φ) (ops : List (Op φ)) : List (Handle × φ) :=
  heap.ledger (fun heap op => (op.registered heap).toList) ops

/-- What the sweeps answered. -/
def sweeps (heap : Heap φ) (ops : List (Op φ)) : List SweepStats :=
  heap.ledger (fun heap op => (op.sweep? heap).toList) ops

/-- What the full collections answered that were completed. -/
def cycles (heap : Heap φ) (ops : List (Op φ)) : List CycleStats :=
  heap.ledger (fun heap op => (op.cycle? heap).toList) ops

/-- The objects put in, with the bytes charged for them. -/
def charged (heap : Heap φ) (ops : List (Op φ)) : List (Handle × UInt64) :=
  heap.ledger (fun heap op => (op.charged heap).toList) ops

/-- The objects released, with the bytes that they gave back. -/
def returned (heap : Heap φ) (ops : List (Op φ)) : List (Handle × UInt64) :=
  heap.ledger Op.returned ops

/-- The bytes in an account of objects, together. No word size bounds them. -/
def bytesOf (account : List (Handle × UInt64)) : Nat :=
  account.foldr (fun c total => c.2.toNat + total) 0

/-- The payload of an object after a history that does not release it. -/
def payload (heap : Heap φ) (h : Handle) (object : Object) : List (Op φ) → Object
  | [] => object
  | op :: ops => payload (op.perform heap).state h (op.payload heap h object) ops

/-- The calls that giving up a heap comes to. -/
def closing (heap : Heap φ) : List (Op φ) :=
  if heap.finalizers.isEmpty then [] else [.releaseAll]

@[simp]
theorem run_nil (heap : Heap φ) : heap.run [] = heap := rfl

@[simp]
theorem run_cons (heap : Heap φ) (op : Op φ) (ops : List (Op φ)) :
    heap.run (op :: ops) = (op.perform heap).state.run ops := rfl

@[simp]
theorem released_cons (heap : Heap φ) (op : Op φ) (ops : List (Op φ)) :
    heap.released (op :: ops) = op.released heap ++ (op.perform heap).state.released ops := rfl

@[simp]
theorem issued_cons (heap : Heap φ) (op : Op φ) (ops : List (Op φ)) :
    heap.issued (op :: ops) = (op.issued heap).toList ++ (op.perform heap).state.issued ops := rfl

@[simp]
theorem finalized_cons (heap : Heap φ) (op : Op φ) (ops : List (Op φ)) :
    heap.finalized (op :: ops) =
      op.finalized heap ++ (op.perform heap).state.finalized ops := rfl

@[simp]
theorem registered_cons (heap : Heap φ) (op : Op φ) (ops : List (Op φ)) :
    heap.registered (op :: ops) =
      (op.registered heap).toList ++ (op.perform heap).state.registered ops := rfl

@[simp]
theorem sweeps_cons (heap : Heap φ) (op : Op φ) (ops : List (Op φ)) :
    heap.sweeps (op :: ops) = (op.sweep? heap).toList ++ (op.perform heap).state.sweeps ops := rfl

@[simp]
theorem cycles_cons (heap : Heap φ) (op : Op φ) (ops : List (Op φ)) :
    heap.cycles (op :: ops) = (op.cycle? heap).toList ++ (op.perform heap).state.cycles ops := rfl

@[simp]
theorem charged_cons (heap : Heap φ) (op : Op φ) (ops : List (Op φ)) :
    heap.charged (op :: ops) =
      (op.charged heap).toList ++ (op.perform heap).state.charged ops := rfl

@[simp]
theorem returned_cons (heap : Heap φ) (op : Op φ) (ops : List (Op φ)) :
    heap.returned (op :: ops) = op.returned heap ++ (op.perform heap).state.returned ops := rfl

@[simp]
theorem bytesOf_nil : bytesOf [] = 0 := rfl

@[simp]
theorem bytesOf_cons (c : Handle × UInt64) (account : List (Handle × UInt64)) :
    bytesOf (c :: account) = c.2.toNat + bytesOf account := rfl

@[simp]
theorem bytesOf_append (account more : List (Handle × UInt64)) :
    bytesOf (account ++ more) = bytesOf account + bytesOf more := by
  induction account with
  | nil => rw [List.nil_append, bytesOf_nil, Nat.zero_add]
  | cons c account ih => rw [List.cons_append, bytesOf_cons, ih, bytesOf_cons, Nat.add_assoc]

theorem bytesOf_perm {account account' : List (Handle × UInt64)} (hp : account.Perm account') :
    bytesOf account = bytesOf account' := by
  induction hp with
  | nil => rfl
  | cons c _ ih => rw [bytesOf_cons, bytesOf_cons, ih]
  | swap c d account => simp only [bytesOf_cons, Nat.add_left_comm]
  | trans _ _ ih ih' => exact ih.trans ih'

theorem ledger_append (item : Heap φ → Op φ → List α) (heap : Heap φ) (ops more : List (Op φ)) :
    heap.ledger item (ops ++ more) = heap.ledger item ops ++ (heap.run ops).ledger item more := by
  induction ops generalizing heap with
  | nil => rfl
  | cons op ops ih =>
    rw [List.cons_append, ledger, ledger, ih, List.append_assoc]
    rfl

theorem released_append (heap : Heap φ) (ops more : List (Op φ)) :
    heap.released (ops ++ more) = heap.released ops ++ (heap.run ops).released more :=
  ledger_append _ heap ops more

/-- What a history accounts for, some call in it accounts for. -/
theorem mem_ledger_iff {heap : Heap φ} {item : Heap φ → Op φ → List α} {ops : List (Op φ)} {a : α} :
    a ∈ heap.ledger item ops ↔
      ∃ before op rest, ops = before ++ op :: rest ∧ a ∈ item (heap.run before) op := by
  induction ops generalizing heap with
  | nil => simp [ledger]
  | cons op ops ih =>
    rw [ledger, List.mem_append, ih]
    constructor
    · rintro (ha | ⟨before, op', rest, rfl, ha⟩)
      · exact ⟨[], op, ops, rfl, ha⟩
      · exact ⟨op :: before, op', rest, rfl, ha⟩
    · rintro ⟨_ | ⟨op', before⟩, op'', rest, heq, ha⟩
      · obtain ⟨rfl, rfl⟩ := List.cons.inj heq
        exact .inl ha
      · obtain ⟨rfl, rfl⟩ := List.cons.inj heq
        exact .inr ⟨before, op'', rest, rfl, ha⟩

end Heap

end MarkSweep
