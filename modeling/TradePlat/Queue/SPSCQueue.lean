import TradePlat.Lib.RingCells
import TradePlat.Lib.Runs

/-!
# The queue of trade events (`SPSCQueue.h`)

One producer calls `tryPush` and one consumer calls `tryPop`. A step is one atomic
access or one copy of a value, of one thread, and the inputs of a run are the
schedule. The counters are words of `w` bits, and both of them wrap around.

The invariant counts the values without wrapping: `pushed` are all the values that
were pushed, `popped` how many of them were popped. Each thread owns one counter,
and what it has read of the other one it uses at once, so nothing it remembers is
stale (`Inv.producer`, `Inv.consumer`).
-/

namespace TradePlat.SPSCQueue
open RingCells Runs

variable {w : Nat} {α : Type}

/-- `SPSCQueue(capacity)`. -/
def new (capacity : Nat) : Except String Capacity :=
  Capacity.check "SPSCQueue capacity must be a power of 2" capacity

/-- The access a call of `tryPush(value)` makes next. -/
inductive TryPush (w : Nat) (α : Type) where
  | idle
  | loadHead (value : α)
  | loadTail (value : α) (head : BitVec w)
  | copyValue (value : α) (head : BitVec w)
  | storeHead (value : α) (head : BitVec w)
  deriving DecidableEq, Repr

/-- The access a call of `tryPop` makes next. The first one is the load of `tail_`. -/
inductive TryPop (w : Nat) (α : Type) where
  | idle
  | loadHead (tail : BitVec w)
  | copyValue (tail : BitVec w)
  | storeTail (tail : BitVec w) (value : α)
  deriving DecidableEq, Repr

structure State (w : Nat) (α : Type) where
  head : BitVec w
  tail : BitVec w
  buffer : Nat → α
  producer : TryPush w α
  consumer : TryPop w α

/-- The constructor. The slots hold what their default constructor left there. -/
def State.init (buffer : Nat → α) : State w α := ⟨0, 0, buffer, .idle, .idle⟩

inductive Input (α : Type) where
  | tryPush (value : α)
  | producer
  | consumer
  deriving DecidableEq, Repr

/-- `called` starts a `tryPush`; `pushed` and `full` are its returns, `popped` and
`empty` those of `tryPop`. -/
inductive Output (α : Type) where
  | called (value : α)
  | pushed (value : α)
  | full (value : α)
  | popped (value : α)
  | empty
  deriving DecidableEq, Repr

/-- `mask_`. -/
def mask (w : Nat) (capacity : Capacity) : BitVec w := BitVec.ofNat w capacity.value - 1#w

/-- The next access of the producer. -/
def pushStep (capacity : Capacity) (s : State w α) : State w α × List (Output α) :=
  match s.producer with
  | .idle => (s, [])
  | .loadHead value => ({ s with producer := .loadTail value s.head }, [])
  | .loadTail value head =>
    if BitVec.ofNat w capacity.value < head + 1#w - s.tail then
      ({ s with producer := .idle }, [.full value])
    else ({ s with producer := .copyValue value head }, [])
  | .copyValue value head =>
    ({ s with
        buffer := Function.update s.buffer (head &&& mask w capacity).toNat value
        producer := .storeHead value head }, [])
  | .storeHead value head => ({ s with head := head + 1#w, producer := .idle }, [.pushed value])

/-- The next access of the consumer. -/
def popStep (capacity : Capacity) (s : State w α) : State w α × List (Output α) :=
  match s.consumer with
  | .idle => ({ s with consumer := .loadHead s.tail }, [])
  | .loadHead tail =>
    if tail = s.head then ({ s with consumer := .idle }, [.empty])
    else ({ s with consumer := .copyValue tail }, [])
  | .copyValue tail =>
    ({ s with consumer := .storeTail tail (s.buffer (tail &&& mask w capacity).toNat) }, [])
  | .storeTail tail value => ({ s with tail := tail + 1#w, consumer := .idle }, [.popped value])

def step (capacity : Capacity) (s : State w α) : Input α → State w α × List (Output α)
  | .tryPush value =>
    match s.producer with
    | .idle => ({ s with producer := .loadHead value }, [.called value])
    | _ => (s, [])
  | .producer => pushStep capacity s
  | .consumer => popStep capacity s

/-! ## Steps, one by one -/

section Steps
variable {capacity : Capacity} {s : State w α} {value : α} {head tail : BitVec w}

theorem pushStep_idle (h : s.producer = .idle) : pushStep capacity s = (s, []) := by
  simp only [pushStep, h]

theorem pushStep_loadHead (h : s.producer = .loadHead value) :
    pushStep capacity s = ({ s with producer := .loadTail value s.head }, []) := by
  simp only [pushStep, h]

theorem pushStep_loadTail (h : s.producer = .loadTail value head) :
    pushStep capacity s =
      if BitVec.ofNat w capacity.value < head + 1#w - s.tail then
        ({ s with producer := .idle }, [.full value])
      else ({ s with producer := .copyValue value head }, []) := by
  simp only [pushStep, h]

theorem pushStep_copyValue (h : s.producer = .copyValue value head) :
    pushStep capacity s =
      ({ s with
          buffer := Function.update s.buffer (head &&& mask w capacity).toNat value
          producer := .storeHead value head }, []) := by
  simp only [pushStep, h]

theorem pushStep_storeHead (h : s.producer = .storeHead value head) :
    pushStep capacity s =
      ({ s with head := head + 1#w, producer := .idle }, [.pushed value]) := by
  simp only [pushStep, h]

theorem popStep_idle (h : s.consumer = .idle) :
    popStep capacity s = ({ s with consumer := .loadHead s.tail }, []) := by
  simp only [popStep, h]

theorem popStep_loadHead (h : s.consumer = .loadHead tail) :
    popStep capacity s =
      if tail = s.head then ({ s with consumer := .idle }, [.empty])
      else ({ s with consumer := .copyValue tail }, []) := by
  simp only [popStep, h]

theorem popStep_copyValue (h : s.consumer = .copyValue tail) :
    popStep capacity s =
      ({ s with consumer := .storeTail tail (s.buffer (tail &&& mask w capacity).toNat) },
        []) := by
  simp only [popStep, h]

theorem popStep_storeTail (h : s.consumer = .storeTail tail value) :
    popStep capacity s =
      ({ s with tail := tail + 1#w, consumer := .idle }, [.popped value]) := by
  simp only [popStep, h]

theorem step_tryPush (h : s.producer = .idle) :
    step capacity s (.tryPush value) =
      ({ s with producer := .loadHead value }, [.called value]) := by
  simp only [step, h]

theorem step_tryPush_busy (h : s.producer ≠ .idle) :
    step capacity s (.tryPush value) = (s, []) := by
  cases hp : s.producer with
  | idle => exact absurd hp h
  | _ => simp only [step, hp]

end Steps

/-! ## The invariant -/

/-- The producer knows its own counter, and has checked what it goes by. -/
def TryPush.Ok (capacity : Capacity) (pushed : List α) (popped : Nat) (buffer : Nat → α) :
    TryPush w α → Prop
  | .idle | .loadHead _ => True
  | .loadTail _ head => head = BitVec.ofNat w pushed.length
  | .copyValue _ head =>
    head = BitVec.ofNat w pushed.length ∧ pushed.length < popped + capacity.value
  | .storeHead value head =>
    (head = BitVec.ofNat w pushed.length ∧ pushed.length < popped + capacity.value) ∧
      buffer (pushed.length % capacity.value) = value

/-- The same for the consumer. -/
def TryPop.Ok (pushed : List α) (popped : Nat) : TryPop w α → Prop
  | .idle => True
  | .loadHead tail => tail = BitVec.ofNat w popped
  | .copyValue tail => tail = BitVec.ofNat w popped ∧ popped < pushed.length
  | .storeTail tail value => tail = BitVec.ofNat w popped ∧ pushed[popped]? = some value

structure Inv (capacity : Capacity) (pushed : List α) (popped : Nat) (s : State w α) : Prop where
  head : s.head = BitVec.ofNat w pushed.length
  tail : s.tail = BitVec.ofNat w popped
  le : popped ≤ pushed.length
  bounded : pushed.length ≤ popped + capacity.value
  holds : ∀ i, popped ≤ i → i < pushed.length → Holds capacity.value s.buffer pushed i
  producer : s.producer.Ok capacity pushed popped s.buffer
  consumer : s.consumer.Ok pushed popped

theorem inv_init (capacity : Capacity) (buffer : Nat → α) :
    Inv capacity [] 0 (State.init buffer : State w α) where
  head := rfl
  tail := rfl
  le := Nat.le_refl 0
  bounded := Nat.zero_le _
  holds i _ h := absurd h (Nat.not_lt_zero i)
  producer := trivial
  consumer := trivial

/-- The number of values in the queue. -/
def State.depth (s : State w α) : Nat := (s.head - s.tail).toNat

theorem Inv.depth {capacity : Capacity} {s : State w α} {pushed : List α} {popped : Nat}
    (h : Inv capacity pushed popped s) (hw : capacity.value < 2 ^ w) :
    s.depth = pushed.length - popped := by
  have hle := h.le
  have hbound := h.bounded
  rw [State.depth, h.head, h.tail]
  exact toNat_sub_counter h.le (by omega)

theorem TryPop.Ok.append {pushed : List α} {popped : Nat} {call : TryPop w α}
    (h : call.Ok pushed popped) (more : List α) : call.Ok (pushed ++ more) popped := by
  cases call with
  | idle => trivial
  | loadHead tail => exact h
  | copyValue tail =>
    refine ⟨h.1, ?_⟩
    have := h.2
    rw [List.length_append]
    omega
  | storeTail tail value =>
    refine ⟨h.1, ?_⟩
    rw [List.getElem?_append_left (List.getElem?_eq_some_iff.mp h.2).1]
    exact h.2

theorem TryPush.Ok.popped {capacity : Capacity} {pushed : List α} {popped : Nat}
    {buffer : Nat → α} {call : TryPush w α} (h : call.Ok capacity pushed popped buffer) :
    call.Ok capacity pushed (popped + 1) buffer := by
  cases call with
  | idle | loadHead => trivial
  | loadTail value head => exact h
  | copyValue value head =>
    have := h.2
    exact ⟨h.1, by omega⟩
  | storeHead value head =>
    have := h.1.2
    exact ⟨⟨h.1.1, by omega⟩, h.2⟩

namespace Inv
variable {capacity : Capacity} {pushed : List α} {popped : Nat} {s : State w α} {value : α}
  {head tail : BitVec w}

theorem counter_succ (n : Nat) : BitVec.ofNat w n + 1#w = BitVec.ofNat w (n + 1) :=
  (BitVec.ofNat_add n 1).symm

/-! ### The producer -/

/-- The full test compares the number of values in the queue, whatever has wrapped. -/
theorem full_iff (h : Inv capacity pushed popped s) (hw : capacity.value < 2 ^ w)
    (hhead : head = BitVec.ofNat w pushed.length) :
    BitVec.ofNat w capacity.value < head + 1#w - s.tail ↔
      pushed.length = popped + capacity.value := by
  have hspare := capacity.succ_lt hw
  have hle := h.le
  have hbound := h.bounded
  have hdist : (head + 1#w - s.tail).toNat = pushed.length + 1 - popped := by
    rw [hhead, counter_succ, h.tail]
    exact toNat_sub_counter (by omega) (by omega)
  rw [BitVec.lt_def, hdist, BitVec.toNat_ofNat, Nat.mod_eq_of_lt hw]
  omega

theorem room (h : Inv capacity pushed popped s) (hw : capacity.value < 2 ^ w)
    (hhead : head = BitVec.ofNat w pushed.length)
    (hroom : ¬ BitVec.ofNat w capacity.value < head + 1#w - s.tail) :
    pushed.length < popped + capacity.value := by
  have hbound := h.bounded
  have := mt (h.full_iff hw hhead).mpr hroom
  omega

/-- The slot the producer writes is the one of the next position. -/
theorem slot_eq (hw : capacity.value < 2 ^ w) {n : Nat} (hhead : head = BitVec.ofNat w n) :
    (head &&& mask w capacity).toNat = n % capacity.value := by
  rw [hhead]
  exact toNat_and_counter capacity hw n

theorem copyValue (h : Inv capacity pushed popped s) (hw : capacity.value < 2 ^ w)
    (hp : s.producer = .copyValue value head) :
    Inv capacity pushed popped
      { s with
        buffer := Function.update s.buffer (head &&& mask w capacity).toNat value
        producer := .storeHead value head } := by
  have hok := h.producer
  rw [hp] at hok
  obtain ⟨hhead, hroom⟩ := hok
  rw [slot_eq hw hhead]
  refine { h with holds := fun i hi hlt => ?_, producer := ⟨⟨hhead, hroom⟩, Function.update_self ..⟩ }
  exact (h.holds i hi hlt).write ⟨hi, by omega⟩ ⟨h.le, hroom⟩ (by omega) value

/-- The store of `head_` adds the copied value to the queue. -/
theorem push (h : Inv capacity pushed popped s) (hp : s.producer = .storeHead value head) :
    Inv capacity (pushed ++ [value]) popped
      { s with head := head + 1#w, producer := .idle } := by
  have hok := h.producer
  rw [hp] at hok
  obtain ⟨⟨hhead, hroom⟩, hslot⟩ := hok
  have hlen : (pushed ++ [value]).length = pushed.length + 1 := by simp
  have hle := h.le
  refine ⟨?_, h.tail, by omega, by omega, fun i hi hlt => ?_, trivial, h.consumer.append _⟩
  · rw [hlen, hhead]
    exact counter_succ _
  · rcases Nat.lt_succ_iff_lt_or_eq.mp (hlen ▸ hlt) with hold | rfl
    · exact (h.holds i hi hold).append _
    · unfold Holds
      rw [List.getElem?_concat_length, hslot]

/-! ### The consumer -/

theorem empty_iff (h : Inv capacity pushed popped s) (hw : capacity.value < 2 ^ w)
    (htail : tail = BitVec.ofNat w popped) : tail = s.head ↔ pushed.length = popped := by
  have hbound := h.bounded
  have hle := h.le
  rw [htail, h.head, counter_inj hle (by omega)]
  exact eq_comm

theorem readValue (h : Inv capacity pushed popped s) (hw : capacity.value < 2 ^ w)
    (hc : s.consumer = .copyValue tail) :
    Inv capacity pushed popped
      { s with consumer := .storeTail tail (s.buffer (tail &&& mask w capacity).toNat) } := by
  have hok := h.consumer
  rw [hc] at hok
  obtain ⟨htail, hlt⟩ := hok
  rw [slot_eq hw htail]
  exact { h with consumer := ⟨htail, h.holds popped (Nat.le_refl _) hlt⟩ }

/-- The store of `tail_` takes the copied value off the queue. -/
theorem pop (h : Inv capacity pushed popped s) (hc : s.consumer = .storeTail tail value) :
    pushed[popped]? = some value ∧ Inv capacity pushed (popped + 1)
      { s with tail := tail + 1#w, consumer := .idle } := by
  have hok := h.consumer
  rw [hc] at hok
  obtain ⟨htail, hval⟩ := hok
  have hlt := (List.getElem?_eq_some_iff.mp hval).1
  have hbound := h.bounded
  refine ⟨hval, h.head, ?_, hlt, by omega, fun i hi hlt' => h.holds i (by omega) hlt',
    h.producer.popped, trivial⟩
  rw [htail]
  exact counter_succ _

end Inv

/-! ## Specifications of the steps -/

/-- The value of the call that is under way. -/
def TryPush.value : TryPush w α → Option α
  | .idle => none
  | .loadHead value | .loadTail value _ | .copyValue value _ | .storeHead value _ => some value

section Spec
variable {capacity : Capacity} {pushed : List α} {popped : Nat} {s : State w α}

/-- A step of the producer: the call goes on, or it returns `false` from a full
queue, or it returns `true` with its value pushed. -/
theorem pushStep_spec (hw : capacity.value < 2 ^ w) (h : Inv capacity pushed popped s) :
    ((pushStep capacity s).2 = [] ∧ Inv capacity pushed popped (pushStep capacity s).1 ∧
        (pushStep capacity s).1.producer.value = s.producer.value) ∨
      (∃ value, (pushStep capacity s).2 = [.full value] ∧
        Inv capacity pushed popped (pushStep capacity s).1 ∧ s.producer.value = some value ∧
        (pushStep capacity s).1.producer = .idle ∧ pushed.length = popped + capacity.value) ∨
      (∃ value, (pushStep capacity s).2 = [.pushed value] ∧
        Inv capacity (pushed ++ [value]) popped (pushStep capacity s).1 ∧
        s.producer.value = some value ∧ (pushStep capacity s).1.producer = .idle) := by
  have hok := h.producer
  cases hp : s.producer with
  | idle =>
    rw [pushStep_idle hp]
    exact Or.inl ⟨rfl, h, congrArg TryPush.value hp⟩
  | loadHead value =>
    rw [pushStep_loadHead hp]
    exact Or.inl ⟨rfl, { h with producer := h.head }, rfl⟩
  | loadTail value head =>
    rw [hp] at hok
    rw [pushStep_loadTail hp]
    by_cases hfull : BitVec.ofNat w capacity.value < head + 1#w - s.tail
    · rw [if_pos hfull]
      exact Or.inr (Or.inl
        ⟨value, rfl, { h with producer := trivial }, rfl, rfl, (h.full_iff hw hok).mp hfull⟩)
    · rw [if_neg hfull]
      exact Or.inl ⟨rfl, { h with producer := ⟨hok, h.room hw hok hfull⟩ }, rfl⟩
  | copyValue value head =>
    rw [pushStep_copyValue hp]
    exact Or.inl ⟨rfl, h.copyValue hw hp, rfl⟩
  | storeHead value head =>
    rw [pushStep_storeHead hp]
    exact Or.inr (Or.inr ⟨value, rfl, h.push hp, rfl, rfl⟩)

/-- A step of the consumer: the call goes on, or it returns `false` from an empty
queue, or it returns `true` with the next value. -/
theorem popStep_spec (hw : capacity.value < 2 ^ w) (h : Inv capacity pushed popped s) :
    ((popStep capacity s).2 = [] ∧ Inv capacity pushed popped (popStep capacity s).1) ∨
      ((popStep capacity s).2 = [.empty] ∧ Inv capacity pushed popped (popStep capacity s).1 ∧
        (popStep capacity s).1.consumer = .idle ∧ pushed.length = popped) ∨
      (∃ value, (popStep capacity s).2 = [.popped value] ∧
        Inv capacity pushed (popped + 1) (popStep capacity s).1 ∧
        (popStep capacity s).1.consumer = .idle ∧ pushed[popped]? = some value) := by
  have hok := h.consumer
  cases hc : s.consumer with
  | idle =>
    rw [popStep_idle hc]
    exact Or.inl ⟨rfl, { h with consumer := h.tail }⟩
  | loadHead tail =>
    rw [hc] at hok
    rw [popStep_loadHead hc]
    by_cases hempty : tail = s.head
    · rw [if_pos hempty]
      exact Or.inr (Or.inl
        ⟨rfl, { h with consumer := trivial }, rfl, (h.empty_iff hw hok).mp hempty⟩)
    · have hle := h.le
      have hne := mt (h.empty_iff hw hok).mpr hempty
      rw [if_neg hempty]
      exact Or.inl ⟨rfl, { h with consumer := ⟨hok, by omega⟩ }⟩
  | copyValue tail =>
    rw [popStep_copyValue hc]
    exact Or.inl ⟨rfl, h.readValue hw hc⟩
  | storeTail tail value =>
    obtain ⟨hval, hpop⟩ := h.pop hc
    rw [popStep_storeTail hc]
    exact Or.inr (Or.inr ⟨value, rfl, hpop, rfl, hval⟩)

/-- The steps of one thread leave the call of the other one as it is. -/
theorem pushStep_consumer (capacity : Capacity) (s : State w α) :
    (pushStep capacity s).1.consumer = s.consumer := by
  unfold pushStep
  split
  · rfl
  · rfl
  · split <;> rfl
  · rfl
  · rfl

theorem popStep_producer (capacity : Capacity) (s : State w α) :
    (popStep capacity s).1.producer = s.producer := by
  unfold popStep
  split
  · rfl
  · split <;> rfl
  · rfl
  · rfl

end Spec

/-! ## Traces -/

section Trace

/-- The values of the calls of `tryPush` that returned `true`. -/
def pushed (out : List (Output α)) : List α :=
  out.filterMap fun
    | .pushed value => some value
    | _ => none

/-- The values of the calls of `tryPop` that returned `true`. -/
def popped (out : List (Output α)) : List α :=
  out.filterMap fun
    | .popped value => some value
    | _ => none

/-- The values `tryPush` was called with. -/
def called (out : List (Output α)) : List α :=
  out.filterMap fun
    | .called value => some value
    | _ => none

/-- The values of the calls of `tryPush` that returned. -/
def returned (out : List (Output α)) : List α :=
  out.filterMap fun
    | .pushed value | .full value => some value
    | _ => none

@[simp] theorem pushed_append (out more : List (Output α)) :
    pushed (out ++ more) = pushed out ++ pushed more := List.filterMap_append

@[simp] theorem popped_append (out more : List (Output α)) :
    popped (out ++ more) = popped out ++ popped more := List.filterMap_append

@[simp] theorem called_append (out more : List (Output α)) :
    called (out ++ more) = called out ++ called more := List.filterMap_append

@[simp] theorem returned_append (out more : List (Output α)) :
    returned (out ++ more) = returned out ++ returned more := List.filterMap_append

theorem called_pushStep (capacity : Capacity) (s : State w α) :
    called (pushStep capacity s).2 = [] := by
  unfold pushStep
  split
  · rfl
  · rfl
  · split <;> rfl
  · rfl
  · rfl

theorem called_popStep (capacity : Capacity) (s : State w α) :
    called (popStep capacity s).2 = [] := by
  unfold popStep
  split
  · rfl
  · split <;> rfl
  · rfl
  · rfl

/-- The state of the queue behind a trace. Every call of `tryPush` has returned, but
for the one under way. -/
structure Traced (capacity : Capacity) (out : List (Output α)) (s : State w α) : Prop where
  inv : Inv capacity (pushed out) (popped out).length s
  taken : popped out = (pushed out).take (popped out).length
  calls : called out = returned out ++ s.producer.value.toList

variable {capacity : Capacity} {s : State w α} {out : List (Output α)}

theorem traced_init (capacity : Capacity) (buffer : Nat → α) :
    Traced capacity [] (State.init buffer : State w α) where
  inv := inv_init capacity buffer
  taken := rfl
  calls := rfl

theorem Traced.tryPush (h : Traced capacity out s) (hp : s.producer = .idle) (value : α) :
    Traced capacity (out ++ [.called value]) { s with producer := .loadHead value } where
  inv := by
    have hinv := h.inv
    have hcalled : pushed (out ++ [.called value]) = pushed out ∧
        popped (out ++ [.called value]) = popped out := by simp [pushed, popped]
    rw [hcalled.1, hcalled.2]
    exact { hinv with producer := trivial }
  taken := by simpa [pushed, popped] using h.taken
  calls := by
    have hcalls := h.calls
    rw [hp] at hcalls
    rw [called_append, hcalls]
    simp [called, returned, TryPush.value]

theorem Traced.producer (hw : capacity.value < 2 ^ w) (h : Traced capacity out s) :
    Traced capacity (out ++ (pushStep capacity s).2) (pushStep capacity s).1 := by
  have hle := h.inv.le
  have hcalls := h.calls
  rcases pushStep_spec hw h.inv with ⟨hout, hinv, hval⟩ | ⟨value, hout, hinv, hval, hidle, -⟩ |
    ⟨value, hout, hinv, hval, hidle⟩
  · rw [hout, List.append_nil]
    exact ⟨hinv, h.taken, by rw [hval]; exact hcalls⟩
  · rw [hout]
    rw [hval] at hcalls
    refine ⟨by simpa [pushed, popped] using hinv, by simpa [pushed, popped] using h.taken, ?_⟩
    rw [called_append, returned_append, hidle, hcalls]
    simp [called, returned, TryPush.value]
  · rw [hout]
    rw [hval] at hcalls
    refine ⟨by simpa [pushed, popped] using hinv, ?_, ?_⟩
    · rw [popped_append, pushed_append, show popped [Output.pushed value] = [] from rfl,
        List.append_nil, List.take_append_of_le_length hle]
      exact h.taken
    · rw [called_append, returned_append, hidle, hcalls]
      simp [called, returned, TryPush.value]

theorem Traced.consumer (hw : capacity.value < 2 ^ w) (h : Traced capacity out s) :
    Traced capacity (out ++ (popStep capacity s).2) (popStep capacity s).1 := by
  have hcalls := h.calls
  rw [← popStep_producer capacity s] at hcalls
  rcases popStep_spec hw h.inv with ⟨hout, hinv⟩ | ⟨hout, hinv, -⟩ | ⟨value, hout, hinv, -, hval⟩
  · rw [hout, List.append_nil]
    exact ⟨hinv, h.taken, hcalls⟩
  · rw [hout]
    exact ⟨by simpa [pushed, popped] using hinv, by simpa [pushed, popped] using h.taken,
      by simpa [called, returned] using hcalls⟩
  · rw [hout]
    refine ⟨by simpa [pushed, popped] using hinv, ?_, by simpa [called, returned] using hcalls⟩
    have hpopped : popped (out ++ [.popped value]) = popped out ++ [value] := by simp [popped]
    have hpushed : pushed (out ++ [.popped value]) = pushed out := by simp [pushed]
    rw [hpopped, hpushed, List.length_append, List.length_singleton, List.take_add_one, hval,
      ← h.taken]
    rfl

/-- **Every step keeps the invariant of the trace.** -/
theorem Traced.next (hw : capacity.value < 2 ^ w) (h : Traced capacity out s) (i : Input α) :
    Traced capacity (out ++ (step capacity s i).2) (step capacity s i).1 := by
  cases i with
  | tryPush value =>
    by_cases hp : s.producer = .idle
    · rw [step_tryPush hp]
      exact h.tryPush hp value
    · rw [step_tryPush_busy hp, List.append_nil]
      exact h
  | producer => exact h.producer hw
  | consumer => exact h.consumer hw

theorem traced_run (hw : capacity.value < 2 ^ w) (buffer : Nat → α) (inputs : List (Input α)) :
    Traced capacity (outputs (step capacity) (.init buffer : State w α) inputs)
      (run (step capacity) (.init buffer : State w α) inputs).1 :=
  invariant_run (fun _ out s => Traced capacity out s) (fun _ _ _ i h _ => h.next hw i)
    (traced_init capacity buffer) (guarded_true _ _ _ inputs)

theorem Traced.full (hw : capacity.value < 2 ^ w) (h : Traced capacity out s) {i : Input α}
    {value : α} (hfull : .full value ∈ (step capacity s i).2) :
    (pushed out).length = (popped out).length + capacity.value := by
  cases i with
  | tryPush v => cases hp : s.producer <;> simp [step, hp] at hfull
  | producer =>
    change _ ∈ (pushStep capacity s).2 at hfull
    rcases pushStep_spec hw h.inv with ⟨hout, -⟩ | ⟨v, -, -, -, -, hlen⟩ | ⟨v, hout, -⟩
    · simp [hout] at hfull
    · exact hlen
    · simp [hout] at hfull
  | consumer =>
    change _ ∈ (popStep capacity s).2 at hfull
    rcases popStep_spec hw h.inv with ⟨hout, -⟩ | ⟨hout, -⟩ | ⟨v, hout, -⟩ <;>
      simp [hout] at hfull

theorem Traced.empty (hw : capacity.value < 2 ^ w) (h : Traced capacity out s) {i : Input α}
    (hempty : .empty ∈ (step capacity s i).2) : (pushed out).length = (popped out).length := by
  cases i with
  | tryPush v => cases hp : s.producer <;> simp [step, hp] at hempty
  | producer =>
    change _ ∈ (pushStep capacity s).2 at hempty
    rcases pushStep_spec hw h.inv with ⟨hout, -⟩ | ⟨v, hout, -⟩ | ⟨v, hout, -⟩ <;>
      simp [hout] at hempty
  | consumer =>
    change _ ∈ (popStep capacity s).2 at hempty
    rcases popStep_spec hw h.inv with ⟨hout, -⟩ | ⟨-, -, -, hlen⟩ | ⟨v, hout, -⟩
    · simp [hout] at hempty
    · exact hlen
    · simp [hout] at hempty

/-- **The queue of trade events is a bounded lossless FIFO**, also where its counters
have wrapped around. In every run: the values popped are the first of those pushed,
which are among those `tryPush` was called with, in order, and at most `capacity`
values are in the queue, each in its slot. No slot of these is written, and the slot
that is read is that of the next value. `tryPush` fails only on a queue of
`capacity` values, and `tryPop` only on an empty one. -/
theorem spsc_lossless_fifo (capacity : Capacity) (hw : capacity.value < 2 ^ w)
    (buffer : Nat → α) (inputs : List (Input α)) :
    let out := outputs (step capacity) (.init buffer : State w α) inputs
    let s := (run (step capacity) (.init buffer : State w α) inputs).1
    (popped out <+: pushed out ∧ (pushed out).Sublist (called out) ∧
      (pushed out).length ≤ (popped out).length + capacity.value) ∧
    (∀ i, (popped out).length ≤ i → i < (pushed out).length →
      (pushed out)[i]? = some (s.buffer (i % capacity.value)) ∧
        ∀ value head, s.producer = .copyValue value head →
          (head &&& mask w capacity).toNat ≠ i % capacity.value) ∧
    (∀ tail, s.consumer = .copyValue tail → (popped out).length < (pushed out).length ∧
      (tail &&& mask w capacity).toNat = (popped out).length % capacity.value) ∧
    ∀ i, (∀ value, .full value ∈ (step capacity s i).2 →
        (pushed out).length = (popped out).length + capacity.value) ∧
      (.empty ∈ (step capacity s i).2 → (pushed out).length = (popped out).length) := by
  intro out s
  have h : Traced capacity out s := traced_run hw buffer inputs
  refine ⟨⟨?_, ?_, h.inv.bounded⟩, fun i hi hlt => ⟨h.inv.holds i hi hlt, fun v head hp => ?_⟩,
    fun tail hc => ?_, fun i => ⟨fun v hfull => h.full hw hfull, fun hempty => h.empty hw hempty⟩⟩
  · rw [h.taken]
    exact List.take_prefix _ _
  · rw [h.calls]
    refine List.Sublist.trans ?_ (List.sublist_append_left _ _)
    have hsub : ∀ l : List (Output α), (pushed l).Sublist (returned l) := by
      intro l
      induction l with
      | nil => exact .slnil
      | cons o l ih =>
        cases o with
        | pushed v => exact ih.cons_cons v
        | full v => exact ih.cons v
        | _ => exact ih
    exact hsub out
  · have hok := h.inv.producer
    rw [hp] at hok
    rw [Inv.slot_eq hw hok.1]
    intro hcell
    have := cell_inj (t := (popped out).length) ⟨h.inv.le, hok.2⟩ ⟨hi, by have := hok.2; omega⟩ hcell
    omega
  · have hok := h.inv.consumer
    rw [hc] at hok
    exact ⟨hok.2, Inv.slot_eq hw hok.1⟩

/-- Two slots and counters of two bits. -/
def twoSlots : Capacity := ⟨2, by decide, 1, by decide⟩

/-- Five calls of `tryPush`, each followed by a call of `tryPop`. -/
def turns : List (Input Nat) :=
  [1, 2, 3, 4, 5].flatMap fun value =>
    .tryPush value :: (List.replicate 4 .producer ++ List.replicate 4 .consumer)

theorem turns_lossless :
    twoSlots.value < 2 ^ 2 ∧
      popped (outputs (step twoSlots) (.init fun _ => 0 : State 2 Nat) turns) = [1, 2, 3, 4, 5] ∧
      (run (step twoSlots) (.init fun _ => 0 : State 2 Nat) turns).1.head = 1#2 ∧
      popped (outputs (step twoSlots) (.init fun _ => 0 : State 2 Nat) turns) <+:
        pushed (outputs (step twoSlots) (.init fun _ => 0 : State 2 Nat) turns) :=
  ⟨by decide, by decide, by decide,
    (spsc_lossless_fifo twoSlots (by decide) (fun _ => 0) turns).1.1⟩

end Trace

end TradePlat.SPSCQueue
