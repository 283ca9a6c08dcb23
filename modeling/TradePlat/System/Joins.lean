import TradePlat.Engine.Termination
import TradePlat.System.EndToEnd

/-!
# The joins of the stop return (`MatchingEngine::stop`)

`MatchingEngine::stop` joins the worker and `KafkaOffloader::stop` the offloader thread.
Behind the store of its flag each of the two threads has a number of accesses left, its
`toExit`, that every access of its own lowers and no other thread raises: the worker
publishes what is pending and takes one order more, which trades with every resting order
at most, and the offloader thread empties a queue that nothing is pushed to. So a join
returns once its thread was given that many steps, however the steps of all the others
come between (`shutdown_returns`).
-/

namespace TradePlat.SPSCQueue
open RingCells

variable {w : Nat} {α : Type} {capacity : Capacity} {s : State w α}

/-- The accesses that are left of a call of `tryPush`. -/
def TryPush.left : TryPush w α → Nat
  | .idle => 0
  | .loadHead _ => 4
  | .loadTail _ _ => 3
  | .copyValue _ _ => 2
  | .storeHead _ _ => 1

/-- The accesses that are left of a call of `tryPop`, or of the next one. -/
def TryPop.left : TryPop w α → Nat
  | .idle => 4
  | .loadHead _ => 3
  | .copyValue _ => 2
  | .storeTail _ _ => 1

variable (capacity) in
/-- A step inside `tryPush`, and its two returns. -/
theorem pushStep_left (h : s.producer ≠ .idle) :
    ((pushStep capacity s).2 = [] ∧ (pushStep capacity s).1.producer ≠ .idle ∧
      (pushStep capacity s).1.producer.left + 1 = s.producer.left) ∨
    (∃ value, (pushStep capacity s).2 = [.full value] ∧ s.producer.left = 3) ∨
    ∃ value, (pushStep capacity s).2 = [.pushed value] ∧ s.producer.left = 1 := by
  cases hp : s.producer with
  | idle => exact absurd hp h
  | loadHead value =>
    rw [pushStep_loadHead hp]
    exact Or.inl ⟨rfl, by simp, rfl⟩
  | loadTail value head =>
    rw [pushStep_loadTail hp]
    split
    · exact Or.inr (Or.inl ⟨value, rfl, rfl⟩)
    · exact Or.inl ⟨rfl, by simp, rfl⟩
  | copyValue value head =>
    rw [pushStep_copyValue hp]
    exact Or.inl ⟨rfl, by simp, rfl⟩
  | storeHead value head =>
    rw [pushStep_storeHead hp]
    exact Or.inr (Or.inr ⟨value, rfl, rfl⟩)

/-- A step inside `tryPop`, and its two returns. -/
theorem popStep_left {pushed : List α} {popped : Nat} (h : Inv capacity pushed popped s)
    (hw : capacity.value < 2 ^ w) :
    ((popStep capacity s).2 = [] ∧ (popStep capacity s).1.depth = s.depth ∧
      (popStep capacity s).1.consumer.left + 1 = s.consumer.left) ∨
    ((popStep capacity s).2 = [.empty] ∧ (popStep capacity s).1.depth = 0 ∧ s.depth = 0 ∧
      s.consumer.left = 3) ∨
    ∃ value, (popStep capacity s).2 = [.popped value] ∧
      (popStep capacity s).1.depth + 1 = s.depth ∧
      (popStep capacity s).1.consumer.left = 4 ∧ s.consumer.left = 1 := by
  have hok := h.consumer
  have hdepth := h.depth hw
  cases hc : s.consumer with
  | idle =>
    rw [popStep_idle hc]
    exact Or.inl ⟨rfl, rfl, rfl⟩
  | loadHead tail =>
    rw [hc] at hok
    rw [popStep_loadHead hc]
    split
    · rename_i hempty
      have hzero : s.depth = 0 := by
        rw [State.depth, ← hempty, h.tail, hok, BitVec.sub_self]
        rfl
      exact Or.inr (Or.inl ⟨rfl, hzero, hzero, rfl⟩)
    · exact Or.inl ⟨rfl, rfl, rfl⟩
  | copyValue tail =>
    rw [popStep_copyValue hc]
    exact Or.inl ⟨rfl, rfl, rfl⟩
  | storeTail tail value =>
    rw [hc] at hok
    obtain ⟨rfl, hvalue⟩ := hok
    have hlt := (List.getElem?_eq_some_iff.mp hvalue).1
    have hbound := h.bounded
    have hnext : (s.head - (BitVec.ofNat w popped + 1#w)).toNat =
        pushed.length - (popped + 1) := by
      rw [h.head, Inv.counter_succ]
      exact toNat_sub_counter hlt (by omega)
    rw [popStep_storeTail hc]
    refine Or.inr (Or.inr ⟨value, rfl, ?_, rfl, rfl⟩)
    change (s.head - (BitVec.ofNat w popped + 1#w)).toNat + 1 = s.depth
    rw [hnext]
    omega

end TradePlat.SPSCQueue

namespace TradePlat.KafkaOffloader

variable {E : Type} {started : Bool} {out : List (Output E)} {s : State E}

/-- The accesses that are left of a call of `publish`. -/
def Publish.left (queue : SPSCQueue.State 64 E) : Publish E → Nat
  | .idle => 0
  | .tryPush => queue.producer.left + 1
  | .countDropped _ => 2
  | .countPublished _ | .countTradeEventsDropped => 1

/-- A step inside `publish`. -/
theorem publishStep_left (h : Traced started out s) :
    (publishStep s).1.publisher.left (publishStep s).1.queue ≤
      s.publisher.left s.queue - 1 := by
  have hok := h.publisher
  cases hp : s.publisher with
  | idle =>
    simp only [publishStep, hp]
    exact Nat.le_refl _
  | tryPush =>
    rw [hp] at hok
    simp only [publishStep, hp]
    rcases SPSCQueue.pushStep_left queueCapacity hok with
      ⟨hout, -, hleft⟩ | ⟨event, hout, hleft⟩ | ⟨event, hout, hleft⟩
    · simp only [hout, State.pushed, hp, Publish.left]
      omega
    · simp only [hout, State.pushed, Publish.left]
      omega
    · simp only [hout, State.pushed, Publish.left]
      omega
  | countDropped event | countPublished event | countTradeEventsDropped =>
    simp only [publishStep, hp]
    exact Nat.le_refl _

/-- The accesses that are left behind a test that finds so many events in the queue. -/
def toPop (depth : Nat) : Nat := if depth = 0 then 0 else 10 * depth + 8

/-- The accesses of the offloader thread that are left behind its stop. -/
def Worker.toExit (queue : SPSCQueue.State 64 E) : Worker → Nat
  | .absent | .exited => 0
  | .loadTail _ => toPop queue.depth + 1
  | .loadHead => toPop queue.depth + 2
  | .loadRunning => toPop queue.depth + 3
  | .countDelivered _ => toPop queue.depth + 4
  | .publishBatch _ => toPop queue.depth + 5
  | .tryPop _ => 10 * queue.depth + queue.consumer.left + 3

def State.toExit (s : State E) : Nat := s.worker.toExit s.queue

theorem toPop_le (depth : Nat) : toPop depth ≤ 10 * depth + 8 := by
  unfold toPop
  split <;> omega

theorem State.toExit_le (s : State E) : s.toExit ≤ 10 * s.queue.depth + 13 := by
  have htest := toPop_le s.queue.depth
  have hcall : s.queue.consumer.left ≤ 4 := by
    cases s.queue.consumer <;> simp [SPSCQueue.TryPop.left]
  unfold State.toExit
  cases s.worker <;> simp only [Worker.toExit] <;> omega

/-- The batch is full or `tryPop` is called again. -/
theorem popping_toExit {queue : SPSCQueue.State 64 E} (h : queue.consumer.left = 4) (count : Nat) :
    (popping count).toExit queue ≤ 10 * queue.depth + 13 := by
  have htest := toPop_le queue.depth
  unfold popping
  split
  · simp only [Worker.toExit]
    omega
  · simp only [Worker.toExit]
    omega

/-- The batch is produced or there was nothing to pop. -/
theorem popped_toExit {queue : SPSCQueue.State 64 E} (h : queue.depth = 0) (count : Nat) :
    (popped count).toExit queue ≤ 5 := by
  have htest : toPop queue.depth = 0 := if_pos h
  unfold popped
  split
  · simp only [Worker.toExit]
    omega
  · simp only [Worker.toExit]
    omega

/-- A step inside `tryPop`. -/
theorem tryPop_toExit (h : Traced started out s) {count : Nat} (hw : s.worker = .tryPop count)
    (accepted : Bool) : (runStep s accepted).1.toExit + 1 ≤ s.toExit := by
  have hbefore : s.toExit = 10 * s.queue.depth + s.queue.consumer.left + 3 := by
    rw [State.toExit, hw]
    rfl
  rw [hbefore]
  simp only [runStep, hw, State.toExit]
  rcases SPSCQueue.popStep_left h.queue.inv capacity_lt with
    ⟨hout, hdepth, hleft⟩ | ⟨hout, hzero, hdepth, hleft⟩ | ⟨event, hout, hdepth, hnext, hleft⟩
  · simp only [hout, State.taken, hw, Worker.toExit, hdepth]
    omega
  · simp only [hout, State.taken]
    have hpopped := popped_toExit hzero count
    omega
  · simp only [hout, State.taken]
    have hpopping := popping_toExit hnext (count + 1)
    omega

/-- The test of `queueDepth`. -/
theorem loadTail_toExit (h : Traced started out s) {head : BitVec 64}
    (hw : s.worker = .loadTail head) (accepted : Bool) :
    (runStep s accepted).1.toExit + 1 ≤ s.toExit := by
  have hok := h.worker
  rw [hw] at hok
  obtain ⟨hconsumer, -, rfl⟩ := hok
  have hbefore : s.toExit = toPop s.queue.depth + 1 := by
    rw [State.toExit, hw]
    rfl
  have hidle : s.queue.consumer.left = 4 := by
    rw [hconsumer]
    rfl
  have hzero : (0 : BitVec 64).toNat = 0 := rfl
  rw [hbefore]
  simp only [runStep, hw, State.toExit]
  split
  · rename_i hdepth
    have hpos : 0 < s.queue.depth := by
      rwa [BitVec.lt_def, hzero] at hdepth
    have htest : toPop s.queue.depth = 10 * s.queue.depth + 8 := if_neg (by omega)
    have hcall : (popping 0).toExit s.queue = 10 * s.queue.depth + s.queue.consumer.left + 3 := by
      rw [popping, if_pos Inv.zero_lt_maxBatch]
      rfl
    omega
  · exact Nat.le_add_left _ _

/-- Behind the stop every access of the offloader thread leaves one less. -/
theorem runStep_toExit (h : Traced started out s) (hs : s.stop ≠ .notCalled) (accepted : Bool) :
    (runStep s accepted).1.toExit ≤ s.toExit - 1 := by
  have hrunning : s.running = false := by
    by_contra hrun
    exact hs (h.running.mp (Bool.eq_true_of_not_eq_false hrun)).2
  cases hw : s.worker with
  | tryPop count => exact Nat.le_sub_of_add_le (tryPop_toExit h hw accepted)
  | loadTail head => exact Nat.le_sub_of_add_le (loadTail_toExit h hw accepted)
  | absent | exited | loadHead | publishBatch count | countDelivered count =>
    simp only [State.toExit, runStep, hw]
    exact Nat.le_refl _
  | loadRunning =>
    simp only [State.toExit, runStep, hw, hrunning]
    exact Nat.le_refl _

theorem Traced.publisher_stopped (h : Traced started out s) (hs : s.stop ≠ .notCalled) :
    s.publisher = .idle := by
  have hstop := h.stop
  cases hcalled : s.stop with
  | notCalled => exact absurd hcalled hs
  | joining =>
    rw [hcalled] at hstop
    exact hstop
  | returned =>
    rw [hcalled] at hstop
    exact hstop.1

/-- Behind the stop no other thread leaves it more. -/
theorem step_toExit (h : Traced started out s) (hs : s.stop ≠ .notCalled) {i : Input E}
    (hi : ∀ accepted, i ≠ .worker accepted) : (step s i).1.toExit = s.toExit := by
  have hidle := h.publisher_stopped hs
  cases i with
  | publish event =>
    simp only [step]
    split
    · rename_i hcalled
      exact absurd hcalled hs
    · rfl
  | matching => simp only [step, publishStep, hidle]
  | worker accepted => exact absurd rfl (hi accepted)
  | stop =>
    simp only [step]
    split <;> rfl
  | join =>
    simp only [step]
    split <;> rfl

/-- Only the matching thread moves inside `publish`. -/
theorem publisher_left_other {i : Input E} (hi : i ≠ .matching)
    (hi' : ∀ event, i ≠ .publish event) :
    (step s i).1.publisher.left (step s i).1.queue = s.publisher.left s.queue := by
  have hproducer : (SPSCQueue.popStep queueCapacity s.queue).1.producer = s.queue.producer := by
    unfold SPSCQueue.popStep
    split
    · rfl
    · split <;> rfl
    · rfl
    · rfl
  cases i with
  | publish event => exact absurd rfl (hi' event)
  | matching => exact absurd rfl hi
  | worker accepted =>
    simp only [step, runStep]
    split
    case h_6 count hw =>
      dsimp only
      unfold Publish.left
      rw [hproducer]
    all_goals rfl
  | stop =>
    simp only [step]
    split <;> rfl
  | join =>
    simp only [step]
    split <;> rfl

/-- The stages of the stop follow each other. -/
theorem stop_moves (s : State E) (i : Input E) :
    (step s i).1.stop = s.stop ∨ (s.stop = .notCalled ∧ (step s i).1.stop = .joining) ∨
      (s.stop = .joining ∧ (step s i).1.stop = .returned) := by
  cases i with
  | publish event =>
    simp only [step]
    split <;> exact Or.inl rfl
  | matching =>
    simp only [step, publishStep]
    split <;> exact Or.inl rfl
  | worker accepted =>
    simp only [step, runStep]
    split <;> exact Or.inl rfl
  | stop =>
    simp only [step]
    split
    · rename_i hcalled
      exact Or.inr (Or.inl ⟨hcalled, rfl⟩)
    · exact Or.inl rfl
  | join =>
    simp only [step]
    split
    · rename_i hcalled hw
      exact Or.inr (Or.inr ⟨hcalled, rfl⟩)
    · rename_i hcalled hw
      exact Or.inr (Or.inr ⟨hcalled, rfl⟩)
    · exact Or.inl rfl

/-- A stop is never taken back. -/
theorem step_stopped (hs : s.stop ≠ .notCalled) (i : Input E) :
    (step s i).1.stop ≠ .notCalled := by
  rcases stop_moves s i with hsame | ⟨hcalled, -⟩ | ⟨-, hreturned⟩
  · rw [hsame]
    exact hs
  · exact absurd hcalled hs
  · simp [hreturned]

theorem step_returned (hs : s.stop = .returned) (i : Input E) :
    (step s i).1.stop = .returned := by
  rcases stop_moves s i with hsame | ⟨hcalled, -⟩ | ⟨-, hreturned⟩
  · exact hsame.trans hs
  · rw [hs] at hcalled
    cases hcalled
  · exact hreturned

/-- A join of a thread that is not there returns. -/
theorem step_join (hs : s.stop ≠ .notCalled) (hw : s.worker = .exited ∨ s.worker = .absent) :
    (step s .join).1.stop = .returned := by
  cases hcalled : s.stop with
  | notCalled => exact absurd hcalled hs
  | joining => rcases hw with hw | hw <;> simp only [step, hcalled, hw]
  | returned => simp only [step, hcalled]

/-- Nothing is left only behind the exit. -/
theorem toExit_eq_zero (h : s.toExit = 0) : s.worker = .exited ∨ s.worker = .absent := by
  unfold State.toExit at h
  cases hw : s.worker with
  | absent => exact Or.inr rfl
  | exited => exact Or.inl rfl
  | loadRunning | loadHead | loadTail | tryPop | publishBatch | countDelivered =>
    rw [hw] at h
    cases h

end TradePlat.KafkaOffloader

namespace TradePlat.MPSCQueue
open RingCells

variable {ι α : Type} {capacity : Capacity} {s : State ι α}

/-- The accesses that are left of a call of `dequeue`, or of the next one. -/
def Dequeue.left : Dequeue α → Nat
  | .idle => 5
  | .loadSequence _ => 4
  | .copyData _ => 3
  | .storePos _ _ => 2
  | .storeSequence _ _ => 1

theorem Dequeue.left_le (call : Dequeue α) : call.left ≤ 5 := by
  cases call <;> simp [Dequeue.left]

theorem Dequeue.left_pos (call : Dequeue α) : 1 ≤ call.left := by
  cases call <;> simp [Dequeue.left]

/-- A step inside `dequeue`, and its two returns. -/
theorem dequeueStep_left (capacity : Capacity) (s : State ι α) :
    ((dequeueStep capacity s).2 = [] ∧
      (dequeueStep capacity s).1.consumer.left + 1 = s.consumer.left) ∨
    (dequeueStep capacity s).2 = [.empty] ∨
    ∃ data, (dequeueStep capacity s).2 = [.dequeued data] := by
  cases hc : s.consumer with
  | idle =>
    simp only [dequeueStep, hc]
    exact Or.inl ⟨trivial, rfl⟩
  | loadSequence pos =>
    rcases dequeueStep_loadSequence capacity hc with ⟨-, heq⟩ | ⟨-, heq⟩
    · rw [heq]
      exact Or.inl ⟨rfl, rfl⟩
    · rw [heq]
      exact Or.inr (Or.inl rfl)
  | copyData pos =>
    rw [dequeueStep_copyData hc]
    exact Or.inl ⟨rfl, rfl⟩
  | storePos pos data =>
    simp only [dequeueStep, hc]
    exact Or.inl ⟨trivial, rfl⟩
  | storeSequence pos data =>
    rw [dequeueStep_storeSequence hc]
    exact Or.inr (Or.inr ⟨data, rfl⟩)

end TradePlat.MPSCQueue

namespace TradePlat.ProcessLoop
open Engine RingCells

variable {P : Type} [LT P] [DecidableLT P] {capacity : Capacity} {clock : Nat → Int64}
  {out : List (Output P)} {s : State P}

/-- The accesses of the worker that are left behind the store of `isRunning`: an order
that it takes trades with every resting order at most, and each trade is published. -/
def State.toExit (s : State P) : Nat :=
  match s.worker with
  | .exited => 0
  | .loadRunning => 1
  | .countProcessed => 2
  | .addOrder _ => 6 * (s.engine.book.orders.length + 1) + 3
  | .dequeue => 6 * (s.engine.book.orders.length + 1) + 3 + s.incomingOrders.consumer.left

omit [LT P] [DecidableLT P] in
theorem State.toExit_le (s : State P) :
    s.toExit ≤ 6 * s.engine.book.orders.length + 14 := by
  have hcall := s.incomingOrders.consumer.left_le
  unfold State.toExit
  cases s.worker <;> dsimp only <;> omega

/-- Every trade of a call of `addOrder` takes an order off the book. -/
theorem length_addOrder (clock : Nat → Int64) (e : MatchingEngine P) (o : Order P) :
    (addOrder clock e o).2.length + (addOrder clock e o).1.book.orders.length ≤
      e.book.orders.length + 1 := by
  have hmatches := (matching_matches clock { e with book := e.book.push o }).length_le
  have hpush := (push_orders e.book o).length_eq
  rw [List.length_cons] at hpush
  rw [addOrder]
  dsimp only at hmatches
  omega

variable (capacity clock) in
/-- Behind the stop every access of the worker that calls no `addOrder` leaves one less. -/
theorem workerStep_toExit (hrunning : s.isRunning = false)
    (hw : ∀ order, s.worker ≠ .addOrder order) :
    (workerStep capacity clock s).1.toExit ≤ s.toExit - 1 := by
  cases hworker : s.worker with
  | addOrder order => exact absurd hworker (hw order)
  | dequeue =>
    have hbefore : s.toExit =
        6 * (s.engine.book.orders.length + 1) + 3 + s.incomingOrders.consumer.left := by
      rw [State.toExit, hworker]
    have hcall := s.incomingOrders.consumer.left_pos
    rw [hbefore]
    simp only [workerStep, hworker, State.toExit]
    rcases MPSCQueue.dequeueStep_left capacity s.incomingOrders with
      ⟨hout, hleft⟩ | hout | ⟨data, hout⟩
    · simp only [hout, Worker.behind]
      omega
    · simp only [hout, Worker.behind]
      omega
    · simp only [hout, Worker.behind]
      omega
  | loadRunning =>
    simp only [State.toExit, workerStep, hworker, hrunning]
    exact Nat.le_refl _
  | countProcessed | exited =>
    simp only [State.toExit, workerStep, hworker]
    exact Nat.le_refl _

variable (capacity clock s) in
/-- The other threads leave the worker and what it has alone. -/
theorem step_alone {i : Input P} (hi : i ≠ .worker) :
    (step capacity clock s i).1.worker = s.worker ∧
      (step capacity clock s i).1.engine = s.engine ∧
      (step capacity clock s i).1.ordersProcessed = s.ordersProcessed ∧
      (step capacity clock s i).1.incomingOrders.consumer = s.incomingOrders.consumer := by
  obtain ⟨hworker, hengine, -⟩ := step_other capacity clock s hi
  refine ⟨hworker, hengine, ?_⟩
  cases i with
  | enqueueOrder order =>
    simp only [step]
    split
    · refine ⟨rfl, ?_⟩
      simp only [MPSCQueue.step]
      split <;> rfl
    · exact ⟨rfl, rfl⟩
  | gateway spurious =>
    simp only [step, gatewayStep]
    split
    · exact ⟨rfl, rfl⟩
    · exact ⟨rfl, MPSCQueue.enqueueStep_consumer spurious⟩
    · exact ⟨rfl, rfl⟩
  | worker => exact absurd rfl hi
  | stop =>
    simp only [step]
    split <;> exact ⟨rfl, rfl⟩
  | join =>
    simp only [step]
    split <;> exact ⟨rfl, rfl⟩

variable (capacity clock) in
theorem step_join_returned (hs : s.stop ≠ .notCalled) (hw : s.worker = .exited) :
    (step capacity clock s .join).1.stop = .returned := by
  cases hcalled : s.stop with
  | notCalled => exact absurd hcalled hs
  | joining => rw [step_join hcalled hw]
  | returned => exact step_returned hcalled .join

omit [LT P] [DecidableLT P] in
theorem toExit_eq_zero (h : s.toExit = 0) : s.worker = .exited := by
  unfold State.toExit at h
  cases hw : s.worker with
  | exited => rfl
  | loadRunning | countProcessed | addOrder =>
    rw [hw] at h
    cases h
  | dequeue =>
    rw [hw] at h
    dsimp only at h
    omega

end TradePlat.ProcessLoop

namespace TradePlat.Pipeline
open Runs Binary64 Engine Gateway RingCells

variable {capacity : Capacity} {clock : Nat → Int64} {started : Bool} {out : List Output}
  {s : State}

/-- The accesses of the worker for the events that are not published yet. -/
def State.toPublish (s : State) : Nat :=
  6 * s.pending.length + s.offloader.publisher.left s.offloader.queue

theorem State.toPublish_le (s : State) : s.toPublish ≤ 6 * s.pending.length + 5 := by
  have hqueue : s.offloader.queue.producer.left ≤ 4 := by
    cases s.offloader.queue.producer <;> simp [SPSCQueue.TryPush.left]
  unfold State.toPublish
  cases s.offloader.publisher <;> simp only [KafkaOffloader.Publish.left] <;> omega

theorem State.Published.toPublish (h : s.Published) : s.toPublish = 0 := by
  rw [State.toPublish, h.1, h.2]
  rfl

/-- The accesses of the worker that are left behind the store of `isRunning`. -/
def State.toExit (s : State) : Nat := s.toPublish + s.loop.toExit

theorem State.toExit_le (s : State) :
    s.toExit ≤ 6 * (s.pending.length + s.loop.engine.book.orders.length) + 19 := by
  have hloop := s.loop.toExit_le
  have hpublish := s.toPublish_le
  unfold State.toExit
  omega

/-- A step of the offloader thread. -/
def IsOffloader : Input → Bool
  | .offloader _ => true
  | _ => false

/-! ## What a step does to its parts -/

/-- The loop stays, or takes a step. -/
theorem loop_moves (capacity : Capacity) (clock : Nat → Int64) (s : State) (i : Input) :
    (step capacity clock s i).1.loop = s.loop ∨
      ∃ j, (step capacity clock s i).1.loop = (ProcessLoop.step capacity clock s.loop j).1 := by
  cases i with
  | server i =>
    simp only [step]
    split <;> exact Or.inl rfl
  | enqueueOrder t1 =>
    simp only [step]
    split
    · rename_i msg rest hdecoded hg
      exact Or.inr ⟨.enqueueOrder (msg.order t1 0), rfl⟩
    · exact Or.inl rfl
  | enqueue spurious => exact Or.inr ⟨.gateway spurious, rfl⟩
  | worker =>
    simp only [step]
    split
    · split <;> exact Or.inr ⟨.worker, rfl⟩
    · exact Or.inl rfl
  | offloader accepted => exact Or.inl rfl
  | stop =>
    simp only [step]
    split
    · exact Or.inr ⟨.stop, rfl⟩
    · exact Or.inl rfl
  | join => exact Or.inr ⟨.join, rfl⟩
  | stopOffloader =>
    simp only [step]
    split <;> exact Or.inl rfl
  | joinOffloader => exact Or.inl rfl

/-- The offloader stays, or takes a step, which is one of its thread only where the input
is. -/
theorem offloader_moves (capacity : Capacity) (clock : Nat → Int64) (s : State) (i : Input) :
    (step capacity clock s i).1.offloader = s.offloader ∨
      ∃ j, (∀ accepted, j = .worker accepted → i = .offloader accepted) ∧
        (step capacity clock s i).1.offloader = (KafkaOffloader.step s.offloader j).1 := by
  cases i with
  | server i =>
    simp only [step]
    split <;> exact Or.inl rfl
  | enqueueOrder t1 =>
    simp only [step]
    split <;> exact Or.inl rfl
  | enqueue spurious | join => exact Or.inl rfl
  | worker =>
    simp only [step]
    split
    · split <;> exact Or.inl rfl
    · simp only [State.feedStep, TradeFeed.step]
      split <;> exact Or.inr ⟨_, by simp, rfl⟩
  | offloader accepted => exact Or.inr ⟨.worker accepted, by simp, rfl⟩
  | stop =>
    simp only [step]
    split <;> exact Or.inl rfl
  | stopOffloader =>
    simp only [step]
    split
    · simp only [State.feedStep, TradeFeed.step]
      split
      · exact Or.inr ⟨.stop, by simp, rfl⟩
      · exact Or.inl rfl
    · exact Or.inl rfl
  | joinOffloader => exact Or.inr ⟨.join, by simp, rfl⟩

/-! ## The worker -/

variable (capacity clock s) in
/-- The other threads leave the worker and what it has alone. -/
theorem step_alone {i : Input} (hi : i ≠ .worker) :
    (step capacity clock s i).1.toPublish = s.toPublish ∧
      (step capacity clock s i).1.loop.worker = s.loop.worker ∧
      (step capacity clock s i).1.loop.engine = s.loop.engine ∧
      (step capacity clock s i).1.loop.ordersProcessed = s.loop.ordersProcessed ∧
      (step capacity clock s i).1.loop.incomingOrders.consumer =
        s.loop.incomingOrders.consumer := by
  have hquiet : s.toPublish = s.toPublish ∧ s.loop.worker = s.loop.worker ∧
      s.loop.engine = s.loop.engine ∧ s.loop.ordersProcessed = s.loop.ordersProcessed ∧
      s.loop.incomingOrders.consumer = s.loop.incomingOrders.consumer :=
    ⟨rfl, rfl, rfl, rfl, rfl⟩
  have hloop := fun i (hi : i ≠ ProcessLoop.Input.worker) =>
    ProcessLoop.step_alone capacity clock s.loop hi
  have hfeed : ∀ {j k}, TradeFeed.step clock s.feed j = s.feed.offload k → k ≠ .matching →
      (∀ event, k ≠ .publish event) → (s.feedStep clock j).1.toPublish = s.toPublish := by
    intro j k hstep hk hk'
    have hleft := KafkaOffloader.publisher_left_other (s := s.offloader) hk hk'
    simp only [State.feedStep, hstep]
    exact congrArg (6 * s.pending.length + ·) hleft
  cases i with
  | server i =>
    simp only [step]
    split <;> exact hquiet
  | enqueueOrder t1 =>
    simp only [step]
    split
    · rename_i msg rest hdecoded hg
      exact ⟨rfl, hloop (.enqueueOrder (msg.order t1 0)) (by simp)⟩
    · exact hquiet
  | enqueue spurious => exact ⟨rfl, hloop (.gateway spurious) (by simp)⟩
  | worker => exact absurd rfl hi
  | offloader accepted => exact ⟨hfeed rfl (by simp) (by simp), hquiet.2⟩
  | stop =>
    simp only [step]
    split
    · exact ⟨rfl, hloop .stop (by simp)⟩
    · exact hquiet
  | join => exact ⟨rfl, hloop .join (by simp)⟩
  | stopOffloader =>
    simp only [step]
    split
    · refine ⟨?_, hquiet.2⟩
      by_cases hpending : s.pending = []
      · exact hfeed (k := .stop) (by simp only [TradeFeed.step, State.feed, hpending]) (by simp)
          (by simp)
      · have hbusy : TradeFeed.step clock s.feed .stop = (s.feed, []) := by
          simp only [TradeFeed.step]
          split
          · rename_i hnone
            exact absurd hnone hpending
          · rfl
        simp only [State.feedStep, hbusy]
        rfl
    · exact hquiet
  | joinOffloader => exact ⟨hfeed rfl (by simp) (by simp), hquiet.2⟩

theorem step_toExit {i : Input} (hi : i ≠ .worker) :
    (step capacity clock s i).1.toExit = s.toExit := by
  obtain ⟨hpublish, hworker, hengine, -, hconsumer⟩ := step_alone capacity clock s hi
  rw [State.toExit, State.toExit, hpublish]
  unfold ProcessLoop.State.toExit
  rw [hworker, hengine, hconsumer]

/-- A step inside `publish`, or the call of it. -/
theorem Inv.publishing_left (h : Inv capacity clock started out s) (hno : ¬ s.Published) :
    (s.feedStep clock .matching).1.toPublish + 1 ≤ s.toPublish := by
  have hcalled : s.offloader.stop = .notCalled := by
    by_contra hstop
    have hexited := h.loop.returned (h.stopped hstop)
    rw [h.publishing hno] at hexited
    cases hexited
  have hok := h.feed.offloader.publisher
  simp only [State.feedStep, TradeFeed.step]
  split
  · rename_i event pending hpending hp
    have hp : s.offloader.publisher = .idle := hp
    have hpending : s.pending = event :: pending := hpending
    have hidle : s.offloader.queue.producer = .idle := by
      change s.offloader.publisher.Ok s.offloader.queue at hok
      rw [hp] at hok
      exact hok
    have hnext : (KafkaOffloader.step s.offloader (.publish event)).1.publisher.left
        (KafkaOffloader.step s.offloader (.publish event)).1.queue = 5 := by
      simp only [KafkaOffloader.step, hp, hcalled, SPSCQueue.step_tryPush hidle]
      rfl
    have hbefore : s.toPublish = 6 * (pending.length + 1) + 0 := by
      rw [State.toPublish, hpending, hp]
      rfl
    rw [hbefore]
    simp only [State.toPublish, TradeFeed.State.offload, State.feed, hnext]
    omega
  · rename_i hbusy
    have hp : s.offloader.publisher ≠ .idle := by
      intro hp
      cases hpending : s.pending with
      | nil => exact hno ⟨hpending, hp⟩
      | cons event pending => exact hbusy event pending hpending hp
    have hleft : (KafkaOffloader.publishStep s.offloader).1.publisher.left
        (KafkaOffloader.publishStep s.offloader).1.queue ≤
          s.offloader.publisher.left s.offloader.queue - 1 :=
      KafkaOffloader.publishStep_left h.feed.offloader
    have hpos : 1 ≤ s.offloader.publisher.left s.offloader.queue := by
      cases hpublisher : s.offloader.publisher with
      | idle => exact absurd hpublisher hp
      | tryPush | countDropped | countPublished | countTradeEventsDropped =>
        simp [KafkaOffloader.Publish.left]
    simp only [State.toPublish, TradeFeed.State.offload, State.feed, KafkaOffloader.step]
    omega

/-- **Behind the stop every access of the worker leaves it one less.** -/
theorem Inv.worker_toExit (h : Inv capacity clock started out s) (hs : s.loop.stop ≠ .notCalled) :
    (step capacity clock s .worker).1.toExit ≤ s.toExit - 1 := by
  have hrunning : s.loop.isRunning = false := by
    by_contra hrun
    exact hs (h.loop.running.mp (Bool.eq_true_of_not_eq_false hrun))
  simp only [step]
  split
  · rename_i hpublished
    have hnone := hpublished.toPublish
    obtain ⟨hpending, hidle⟩ := hpublished
    split
    · rename_i order hw
      have hfills := ProcessLoop.length_addOrder clock s.loop.engine order
      simp only [State.loopStep, ProcessLoop.step, ProcessLoop.workerStep, hw, State.toExit,
        ProcessLoop.State.toExit, State.toPublish, hidle, KafkaOffloader.Publish.left,
        List.length_map] at hnone ⊢
      omega
    · rename_i hw
      have hloop := ProcessLoop.workerStep_toExit capacity clock hrunning hw
      change s.toPublish + (ProcessLoop.workerStep capacity clock s.loop).1.toExit ≤
        s.toPublish + s.loop.toExit - 1
      omega
  · rename_i hno
    have hleft := h.publishing_left hno
    change (s.feedStep clock .matching).1.toPublish + s.loop.toExit ≤
      s.toPublish + s.loop.toExit - 1
    omega

/-- The stop is not taken back. -/
theorem Inv.stopped_step (h : Inv capacity clock started out s) (hs : s.loop.stop ≠ .notCalled)
    (i : Input) : (step capacity clock s i).1.loop.stop ≠ .notCalled := by
  rcases loop_moves capacity clock s i with hsame | ⟨j, hstep⟩
  · rw [hsame]
    exact hs
  · rw [hstep]
    exact (h.loop.left_step hs j).2

/-- The worker exits within the accesses that are left. -/
theorem Inv.worker_exits (h : Inv capacity clock started out s) (hs : s.loop.stop ≠ .notCalled)
    {inputs : List Input} (hcount : s.toExit ≤ inputs.countP (· = .worker)) :
    (run (step capacity clock) s inputs).1.loop.stop ≠ .notCalled ∧
      (run (step capacity clock) s inputs).1.loop.worker = .exited := by
  obtain ⟨⟨-, hstop⟩, hrank⟩ := run_rank (step capacity clock)
    (fun out s => Inv capacity clock started out s ∧ s.loop.stop ≠ .notCalled)
    (fun i => i = .worker) State.toExit
    (fun out s i hinv => by
      refine ⟨⟨hinv.1.next i, hinv.1.stopped_step hinv.2 i⟩, ?_⟩
      by_cases hi : i = .worker
      · rw [hi]
        exact hinv.1.worker_toExit hinv.2
      · rw [decide_eq_false hi]
        exact (step_toExit hi).le) ⟨h, hs⟩ inputs
  have hzero : (run (step capacity clock) s inputs).1.toExit = 0 := by omega
  refine ⟨hstop, ProcessLoop.toExit_eq_zero ?_⟩
  unfold State.toExit at hzero
  omega

/-! ## The offloader thread -/

/-- The offloader thread exits within the accesses that are left. -/
theorem Inv.offloader_exits (h : Inv capacity clock started out s)
    (hs : s.offloader.stop ≠ .notCalled) {inputs : List Input}
    (hcount : s.offloader.toExit ≤ inputs.countP IsOffloader) :
    (run (step capacity clock) s inputs).1.offloader.stop ≠ .notCalled ∧
      ((run (step capacity clock) s inputs).1.offloader.worker = .exited ∨
        (run (step capacity clock) s inputs).1.offloader.worker = .absent) := by
  obtain ⟨⟨-, hstop⟩, hrank⟩ := run_rank (step capacity clock)
    (fun out s => Inv capacity clock started out s ∧ s.offloader.stop ≠ .notCalled)
    IsOffloader (fun s => s.offloader.toExit)
    (fun out s i hinv => by
      obtain ⟨h, hs⟩ := hinv
      refine ⟨⟨h.next i, ?_⟩, ?_⟩
      · rcases offloader_moves capacity clock s i with hsame | ⟨j, -, hstep⟩
        · rw [hsame]
          exact hs
        · rw [hstep]
          exact KafkaOffloader.step_stopped hs j
      · by_cases hi : IsOffloader i
        · cases i with
          | offloader accepted => exact KafkaOffloader.runStep_toExit h.feed.offloader hs accepted
          | _ => cases hi
        · rw [Bool.eq_false_iff.mpr hi]
          rcases offloader_moves capacity clock s i with hsame | ⟨j, hj, hstep⟩
          · rw [hsame]
            exact Nat.le_refl _
          · rw [hstep]
            refine (KafkaOffloader.step_toExit h.feed.offloader hs fun accepted heq => ?_).le
            rw [hj accepted heq] at hi
            exact hi rfl) ⟨h, hs⟩ inputs
  exact ⟨hstop, KafkaOffloader.toExit_eq_zero (by omega)⟩

/-- Behind the join of the worker the stop of the offloader is called. -/
theorem Inv.stopOffloader (h : Inv capacity clock started out s) (hs : s.loop.stop = .returned) :
    (step capacity clock s .stopOffloader).1.offloader.stop ≠ .notCalled := by
  have hpublished : s.Published := by
    by_contra hno
    have hexited := h.loop.returned hs
    rw [h.publishing hno] at hexited
    cases hexited
  obtain ⟨hpending, hidle⟩ := hpublished
  have hstep : (step capacity clock s .stopOffloader).1.offloader =
      (KafkaOffloader.step s.offloader .stop).1 := by
    simp only [step, hs, State.feedStep, TradeFeed.step, State.feed, hpending]
    rfl
  rw [hstep]
  cases hcalled : s.offloader.stop with
  | notCalled => simp [KafkaOffloader.step, hidle, hcalled]
  | joining | returned => simp [KafkaOffloader.step, hidle, hcalled]

/-! ## Runs -/

theorem run_returned (hs : s.loop.stop = .returned) (inputs : List Input) :
    (run (step capacity clock) s inputs).1.loop.stop = .returned :=
  invariant_run (fun _ _ (s : State) => s.loop.stop = .returned)
    (fun _ _ s i hs _ => by
      rcases loop_moves capacity clock s i with hsame | ⟨j, hstep⟩
      · rw [hsame]
        exact hs
      · rw [hstep]
        exact ProcessLoop.step_returned hs j) hs (guarded_true _ _ _ inputs)

theorem run_joined (hs : s.offloader.stop = .returned) (inputs : List Input) :
    (run (step capacity clock) s inputs).1.offloader.stop = .returned :=
  invariant_run (fun _ _ (s : State) => s.offloader.stop = .returned)
    (fun _ _ s i hs _ => by
      rcases offloader_moves capacity clock s i with hsame | ⟨j, -, hstep⟩
      · rw [hsame]
        exact hs
      · rw [hstep]
        exact KafkaOffloader.step_returned hs j) hs (guarded_true _ _ _ inputs)

/-- **The stop returns.** In every run in which the stop of the engine was called: once the
worker was given six steps for each event that is still to be published, six for each order
in the book and 19 more, in whatever order the other threads took theirs, the join of the
worker returns. Then the stop of the offloader is called; its queue holds a bounded number
of events, and once the offloader thread was given ten steps for each of them and 13 more,
the join of it returns too, with every event that `publish` took handed to the producer. -/
theorem shutdown_returns (capacity : Capacity) (clock : Nat → Int64) (order : Order Double)
    (event : TradeEvent Double) (started : Bool)
    (before worker between offload after : List Input)
    (hstop : (run (step capacity clock) (start order event started) before).1.loop.stop ≠
      .notCalled)
    (hworker : let s := (run (step capacity clock) (start order event started) before).1
      6 * (s.pending.length + s.loop.engine.book.orders.length) + 19 ≤
        worker.countP (· = .worker)) :
    let state := fun inputs => (run (step capacity clock) (start order event started) inputs).1
    let out := fun inputs => outputs (step capacity clock) (start order event started) inputs
    let joined := before ++ worker ++ .join :: between
    let stopped := joined ++ [.stopOffloader]
    let inputs := stopped ++ offload ++ .joinOffloader :: after
    (state joined).loop.stop = .returned ∧
    (state stopped).offloader.queue.depth ≤ KafkaOffloader.queueCapacity.value ∧
    (10 * (state stopped).offloader.queue.depth + 13 ≤ offload.countP IsOffloader →
      (state inputs).loop.stop = .returned ∧ (state inputs).offloader.stop = .returned ∧
      (started = true → (KafkaOffloader.batches (feedOuts (out inputs))).flatten =
        KafkaOffloader.published (feedOuts (out inputs)))) := by
  intro state out joined stopped inputs
  have hinv : ∀ inputs, Inv capacity clock started (out inputs) (state inputs) :=
    inv_run capacity clock started order event
  have happend : ∀ is js, state (is ++ js) = (run (step capacity clock) (state is) js).1 :=
    run_append_state _ _
  -- the worker exits and its join returns
  have hjoined : (state joined).loop.stop = .returned := by
    obtain ⟨hcalled, hexited⟩ := (hinv before).worker_exits hstop
      ((state before).toExit_le.trans hworker)
    rw [← happend] at hcalled hexited
    have hjoin : (step capacity clock (state (before ++ worker)) .join).1.loop.stop = .returned :=
      ProcessLoop.step_join_returned capacity clock hcalled hexited
    change (state (before ++ worker ++ .join :: between)).loop.stop = .returned
    rw [happend]
    exact run_returned hjoin between
  have hstopped : (state stopped).offloader.stop ≠ .notCalled := by
    change (state (joined ++ [.stopOffloader])).offloader.stop ≠ .notCalled
    rw [happend]
    exact (hinv joined).stopOffloader hjoined
  have hqueue := (hinv stopped).feed.offloader.queue.inv
  have hbounded : (state stopped).offloader.queue.depth ≤ KafkaOffloader.queueCapacity.value := by
    have hbound := hqueue.bounded
    have hdepth : (state stopped).offloader.queue.depth = _ :=
      hqueue.depth KafkaOffloader.capacity_lt
    omega
  refine ⟨hjoined, hbounded, fun hoffload => ?_⟩
  have hloop : (state inputs).loop.stop = .returned := by
    have hsplit : inputs = joined ++ (.stopOffloader :: offload ++ .joinOffloader :: after) := by
      simp [inputs, stopped]
    rw [hsplit, happend]
    exact run_returned hjoined _
  -- the offloader thread exits and its join returns
  have hfeed : (state inputs).offloader.stop = .returned := by
    obtain ⟨hcalled, hexited⟩ := (hinv stopped).offloader_exits hstopped
      ((state stopped).offloader.toExit_le.trans hoffload)
    rw [← happend] at hcalled hexited
    have hjoin :
        (step capacity clock (state (stopped ++ offload)) .joinOffloader).1.offloader.stop =
          .returned := KafkaOffloader.step_join hcalled hexited
    change (state (stopped ++ offload ++ .joinOffloader :: after)).offloader.stop = .returned
    rw [happend]
    exact run_joined hjoin after
  refine ⟨hloop, hfeed, ?_⟩
  rintro rfl
  exact (hinv inputs).feed.offloader.batches_published hfeed

/-- The stop is called while the worker publishes the trade of the second order. -/
def stopInPublish : List Input :=
  List.flatten [sellThenBuyArrives.map .server,
    .enqueueOrder 7 :: List.replicate 5 (.enqueue false), List.replicate 8 .worker,
    .enqueueOrder 8 :: List.replicate 5 (.enqueue false),
    [.server (.read 8192), .server .next], List.replicate 10 .worker, [.stop]]

theorem stopInPublish_returns :
    let inputs := stopInPublish ++ List.replicate 31 .worker ++ [.join] ++ [.stopOffloader] ++
      List.replicate 23 (.offloader true) ++ [.joinOffloader]
    let machine := run (step ProcessLoop.queueCapacity fun _ => 9)
      (start ProcessLoop.oneOrder TradeFeed.emptyEvent true) inputs
    machine.1.loop.stop = .returned ∧ machine.1.offloader.stop = .returned ∧
      (KafkaOffloader.batches (feedOuts machine.2.flatten)).flatten.length = 1 := by
  have h := shutdown_returns ProcessLoop.queueCapacity (fun _ => 9) ProcessLoop.oneOrder
    TradeFeed.emptyEvent true stopInPublish (List.replicate 31 .worker) []
    (List.replicate 23 (.offloader true)) [] (by decide +kernel) (by decide +kernel)
  obtain ⟨hloop, hfeed, -⟩ := h.2.2 (by decide +kernel)
  exact ⟨hloop, hfeed, by decide +kernel⟩

end TradePlat.Pipeline
