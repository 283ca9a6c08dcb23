import TradePlat.Lib.RingCells
import TradePlat.Lib.Runs

/-!
# The queue of incoming orders (`MPSCQueue.h`)

Any number of producers call `enqueue` and one consumer calls `dequeue`. A step is
one atomic access or one copy of a value, of one thread; the inputs of a run are
the schedule, and say where a `compare_exchange_weak` fails spuriously. Counters
are natural numbers, so the differences the code takes are differences of integers.

What a thread holds in its local variables is in the constructor for the access it
makes next. A load of `enqueue_pos_` is one access, whether it is the first one or
the one after a cell that another producer was faster on.
-/

namespace TradePlat.MPSCQueue
open RingCells

variable {ι α : Type}

/-- `MPSCQueue(capacity)`. -/
def new (capacity : Nat) : Except String Capacity :=
  Capacity.check "Capacity must be a power of 2" capacity

/-- The access a call of `enqueue(data)` makes next. -/
inductive Enqueue (α : Type) where
  | idle
  | loadPos (data : α)
  | loadSequence (data : α) (pos : Nat)
  | compareExchange (data : α) (pos : Nat)
  | copyData (data : α) (pos : Nat)
  | storeSequence (data : α) (pos : Nat)
  deriving DecidableEq, Repr

/-- The access a call of `dequeue` makes next. The first one is the load of
`dequeue_pos_`. -/
inductive Dequeue (α : Type) where
  | idle
  | loadSequence (pos : Nat)
  | copyData (pos : Nat)
  | storePos (pos : Nat) (data : α)
  | storeSequence (pos : Nat) (data : α)
  deriving DecidableEq, Repr

structure State (ι α : Type) where
  sequence : Nat → Nat
  data : Nat → α
  enqueuePos : Nat
  dequeuePos : Nat
  producers : ι → Enqueue α
  consumer : Dequeue α

/-- The constructor. The cells hold what their default constructor left there. -/
def State.init (data : Nat → α) : State ι α := ⟨id, data, 0, 0, fun _ => .idle, .idle⟩

inductive Input (ι α : Type) where
  | enqueue (p : ι) (data : α)
  | producer (p : ι) (spurious : Bool)
  | consumer
  deriving DecidableEq, Repr

/-- `called` starts an `enqueue`, `claimed` is its successful compare-exchange;
`enqueued` and `full` are its returns, `dequeued` and `empty` those of `dequeue`. -/
inductive Output (ι α : Type) where
  | called (p : ι) (data : α)
  | claimed (p : ι) (pos : Nat) (data : α)
  | enqueued (p : ι) (pos : Nat) (data : α)
  | full (p : ι)
  | dequeued (data : α)
  | empty
  deriving DecidableEq, Repr

variable [DecidableEq ι]

def State.setProducer (s : State ι α) (p : ι) (call : Enqueue α) : State ι α :=
  { s with producers := Function.update s.producers p call }

/-- The next access of producer `p`. -/
def enqueueStep (capacity : Capacity) (s : State ι α) (p : ι) (spurious : Bool) :
    State ι α × List (Output ι α) :=
  match s.producers p with
  | .idle => (s, [])
  | .loadPos data => (s.setProducer p (.loadSequence data s.enqueuePos), [])
  | .loadSequence data pos =>
    let dif : Int := s.sequence (pos &&& capacity.mask) - pos
    if dif = 0 then (s.setProducer p (.compareExchange data pos), [])
    else if dif < 0 then (s.setProducer p .idle, [.full p])
    else (s.setProducer p (.loadPos data), [])
  | .compareExchange data pos =>
    if s.enqueuePos = pos ∧ spurious = false then
      ({ s.setProducer p (.copyData data pos) with enqueuePos := pos + 1 },
        [.claimed p pos data])
    else (s.setProducer p (.loadSequence data s.enqueuePos), [])
  | .copyData data pos =>
    ({ s.setProducer p (.storeSequence data pos) with
        data := Function.update s.data (pos &&& capacity.mask) data }, [])
  | .storeSequence data pos =>
    ({ s.setProducer p .idle with
        sequence := Function.update s.sequence (pos &&& capacity.mask) (pos + 1) },
      [.enqueued p pos data])

omit [DecidableEq ι] in
/-- The next access of the consumer. -/
def dequeueStep (capacity : Capacity) (s : State ι α) : State ι α × List (Output ι α) :=
  match s.consumer with
  | .idle => ({ s with consumer := .loadSequence s.dequeuePos }, [])
  | .loadSequence pos =>
    let dif : Int := s.sequence (pos &&& capacity.mask) - (pos + 1)
    if dif = 0 then ({ s with consumer := .copyData pos }, [])
    else ({ s with consumer := .idle }, [.empty])
  | .copyData pos =>
    ({ s with consumer := .storePos pos (s.data (pos &&& capacity.mask)) }, [])
  | .storePos pos data =>
    ({ s with dequeuePos := pos + 1, consumer := .storeSequence pos data }, [])
  | .storeSequence pos data =>
    ({ s with
        sequence := Function.update s.sequence (pos &&& capacity.mask) (pos + capacity.mask + 1)
        consumer := .idle }, [.dequeued data])

def step (capacity : Capacity) (s : State ι α) : Input ι α → State ι α × List (Output ι α)
  | .enqueue p data =>
    match s.producers p with
    | .idle => (s.setProducer p (.loadPos data), [.called p data])
    | _ => (s, [])
  | .producer p spurious => enqueueStep capacity s p spurious
  | .consumer => dequeueStep capacity s

/-! ## Steps, one by one -/

section Steps
variable {capacity : Capacity} {s : State ι α} {p : ι} {data : α} {pos : Nat}

@[simp] theorem setProducer_self (call : Enqueue α) : (s.setProducer p call).producers p = call :=
  Function.update_self ..

theorem setProducer_of_ne (call : Enqueue α) {q : ι} (h : q ≠ p) :
    (s.setProducer p call).producers q = s.producers q := Function.update_of_ne h ..

@[simp] theorem setProducer_sequence (call : Enqueue α) :
    (s.setProducer p call).sequence = s.sequence := rfl
@[simp] theorem setProducer_data (call : Enqueue α) : (s.setProducer p call).data = s.data := rfl

/-- What a producer does next is new for `p` and as before for the others. -/
theorem setProducer_cases {call call' : Enqueue α} {q : ι}
    (h : (s.setProducer p call).producers q = call') :
    (q = p ∧ call = call') ∨ (q ≠ p ∧ s.producers q = call') := by
  by_cases hq : q = p
  · rw [hq, setProducer_self] at h
    exact Or.inl ⟨hq, h⟩
  · rw [setProducer_of_ne call hq] at h
    exact Or.inr ⟨hq, h⟩

/-- A call that producer `p` does not go on with is one of another producer, from before. -/
theorem setProducer_other {call call' : Enqueue α} {q : ι}
    (h : (s.setProducer p call).producers q = call') (hne : call ≠ call') :
    s.producers q = call' := by
  rcases setProducer_cases h with ⟨-, heq⟩ | ⟨-, hq⟩
  · exact absurd heq hne
  · exact hq

theorem enqueueStep_idle (h : s.producers p = .idle) (spurious : Bool) :
    enqueueStep capacity s p spurious = (s, []) := by
  simp only [enqueueStep, h]

theorem enqueueStep_loadPos (h : s.producers p = .loadPos data) (spurious : Bool) :
    enqueueStep capacity s p spurious =
      (s.setProducer p (.loadSequence data s.enqueuePos), []) := by
  simp only [enqueueStep, h]

/-- The three branches on the sequence of the cell. -/
theorem enqueueStep_loadSequence (capacity : Capacity) (h : s.producers p = .loadSequence data pos)
    (spurious : Bool) :
    (s.sequence (pos % capacity.value) = pos ∧ enqueueStep capacity s p spurious =
        (s.setProducer p (.compareExchange data pos), [])) ∨
      (s.sequence (pos % capacity.value) < pos ∧ enqueueStep capacity s p spurious =
        (s.setProducer p .idle, [.full p])) ∨
      (pos < s.sequence (pos % capacity.value) ∧ enqueueStep capacity s p spurious =
        (s.setProducer p (.loadPos data), [])) := by
  simp only [enqueueStep, h, Capacity.and_mask]
  rcases Nat.lt_trichotomy (s.sequence (pos % capacity.value)) pos with hlt | heq | hgt
  · exact Or.inr (Or.inl ⟨hlt, by rw [if_neg (by omega), if_pos (by omega)]⟩)
  · exact Or.inl ⟨heq, by rw [if_pos (by omega)]⟩
  · exact Or.inr (Or.inr ⟨hgt, by rw [if_neg (by omega), if_neg (by omega)]⟩)

theorem enqueueStep_compareExchange (capacity : Capacity)
    (h : s.producers p = .compareExchange data pos) (spurious : Bool) :
    (s.enqueuePos = pos ∧ enqueueStep capacity s p spurious =
        ({ s.setProducer p (.copyData data pos) with enqueuePos := pos + 1 },
          [.claimed p pos data])) ∨
      enqueueStep capacity s p spurious =
        (s.setProducer p (.loadSequence data s.enqueuePos), []) := by
  simp only [enqueueStep, h]
  by_cases hpos : s.enqueuePos = pos ∧ spurious = false
  · exact Or.inl ⟨hpos.1, if_pos hpos⟩
  · exact Or.inr (if_neg hpos)

theorem enqueueStep_copyData (h : s.producers p = .copyData data pos) (spurious : Bool) :
    enqueueStep capacity s p spurious =
      ({ s.setProducer p (.storeSequence data pos) with
          data := Function.update s.data (pos % capacity.value) data }, []) := by
  simp only [enqueueStep, h, Capacity.and_mask]

theorem enqueueStep_storeSequence (h : s.producers p = .storeSequence data pos)
    (spurious : Bool) :
    enqueueStep capacity s p spurious =
      ({ s.setProducer p .idle with
          sequence := Function.update s.sequence (pos % capacity.value) (pos + 1) },
        [.enqueued p pos data]) := by
  simp only [enqueueStep, h, Capacity.and_mask]

omit [DecidableEq ι] in
theorem dequeueStep_loadSequence (capacity : Capacity) (h : s.consumer = .loadSequence pos) :
    (s.sequence (pos % capacity.value) = pos + 1 ∧ dequeueStep capacity s =
        ({ s with consumer := .copyData pos }, [])) ∨
      (s.sequence (pos % capacity.value) ≠ pos + 1 ∧ dequeueStep capacity s =
        ({ s with consumer := .idle }, [.empty])) := by
  simp only [dequeueStep, h, Capacity.and_mask]
  by_cases heq : s.sequence (pos % capacity.value) = pos + 1
  · exact Or.inl ⟨heq, by rw [if_pos (by omega)]⟩
  · exact Or.inr ⟨heq, by rw [if_neg (by omega)]⟩

omit [DecidableEq ι] in
theorem dequeueStep_copyData (h : s.consumer = .copyData pos) :
    dequeueStep capacity s =
      ({ s with consumer := .storePos pos (s.data (pos % capacity.value)) }, []) := by
  simp only [dequeueStep, h, Capacity.and_mask]

omit [DecidableEq ι] in
theorem dequeueStep_storeSequence (h : s.consumer = .storeSequence pos data) :
    dequeueStep capacity s =
      ({ s with
          sequence := Function.update s.sequence (pos % capacity.value) (pos + capacity.value)
          consumer := .idle }, [.dequeued data]) := by
  have hmask : pos + capacity.mask + 1 = pos + capacity.value := by
    have := capacity.pos
    unfold Capacity.mask
    omega
  simp only [dequeueStep, h, Capacity.and_mask, hmask]

/-- What a step inside `enqueue` puts out. -/
theorem enqueueStep_cases (capacity : Capacity) (s : State ι α) (p : ι) (spurious : Bool) :
    (enqueueStep capacity s p spurious).2 = [] ∨
      (∃ data pos, s.producers p = .loadSequence data pos ∧
        s.sequence (pos % capacity.value) < pos ∧
        (enqueueStep capacity s p spurious).2 = [.full p]) ∨
      (∃ data pos, (enqueueStep capacity s p spurious).2 = [.claimed p pos data]) ∨
      ∃ data pos, (enqueueStep capacity s p spurious).2 = [.enqueued p pos data] := by
  cases hp : s.producers p with
  | idle => exact Or.inl (by rw [enqueueStep_idle hp])
  | loadPos data => exact Or.inl (by rw [enqueueStep_loadPos hp])
  | loadSequence data pos =>
    rcases enqueueStep_loadSequence capacity hp spurious with ⟨-, heq⟩ | ⟨hlt, heq⟩ | ⟨-, heq⟩
    · exact Or.inl (by rw [heq])
    · exact Or.inr (Or.inl ⟨data, pos, rfl, hlt, by rw [heq]⟩)
    · exact Or.inl (by rw [heq])
  | compareExchange data pos =>
    rcases enqueueStep_compareExchange capacity hp spurious with ⟨-, heq⟩ | heq
    · exact Or.inr (Or.inr (Or.inl ⟨data, pos, by rw [heq]⟩))
    · exact Or.inl (by rw [heq])
  | copyData data pos => exact Or.inl (by rw [enqueueStep_copyData hp])
  | storeSequence data pos =>
    exact Or.inr (Or.inr (Or.inr ⟨data, pos, by rw [enqueueStep_storeSequence hp]⟩))

theorem enqueueStep_consumer (spurious : Bool) :
    (enqueueStep capacity s p spurious).1.consumer = s.consumer := by
  unfold enqueueStep
  split
  · rfl
  · rfl
  · dsimp only
    split
    · rfl
    · split <;> rfl
  · split <;> rfl
  · rfl
  · rfl

omit [DecidableEq ι] in
theorem dequeueStep_producers :
    (dequeueStep capacity s).1.producers = s.producers := by
  unfold dequeueStep
  split
  · rfl
  · dsimp only
    split <;> rfl
  · rfl
  · rfl
  · rfl

omit [DecidableEq ι] in
/-- A step inside `dequeue`, and its two returns. -/
theorem dequeueStep_cases (capacity : Capacity) (s : State ι α) :
    (dequeueStep capacity s).2 = [] ∨
      ((dequeueStep capacity s).2 = [.empty] ∧
        (dequeueStep capacity s).1.consumer = .idle ∧
        ∃ pos, s.consumer = .loadSequence pos ∧ s.sequence (pos % capacity.value) ≠ pos + 1) ∨
      ∃ data, (dequeueStep capacity s).2 = [.dequeued data] ∧
        (dequeueStep capacity s).1.consumer = .idle := by
  cases hc : s.consumer with
  | idle => exact Or.inl (by simp only [dequeueStep, hc])
  | loadSequence pos =>
    rcases dequeueStep_loadSequence capacity hc with ⟨-, heq⟩ | ⟨hne, heq⟩
    · exact Or.inl (by rw [heq])
    · rw [heq]
      exact Or.inr (Or.inl ⟨rfl, rfl, pos, rfl, hne⟩)
  | copyData pos =>
    rw [dequeueStep_copyData hc]
    exact Or.inl rfl
  | storePos pos data => exact Or.inl (by simp only [dequeueStep, hc])
  | storeSequence pos data =>
    rw [dequeueStep_storeSequence hc]
    exact Or.inr (Or.inr ⟨data, rfl, rfl⟩)

end Steps

end TradePlat.MPSCQueue
