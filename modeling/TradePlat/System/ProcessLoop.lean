import TradePlat.Engine.MatchLoop
import TradePlat.Queue.MPSCFifo

/-!
# Stopping the engine (`MatchingEngine.cpp`)

The gateway thread calls `enqueueOrder`, the worker runs `processLoop`, and a third
thread calls `MatchingEngine::stop` after the gateway has stopped. A step is one
access of one thread; `enqueue` and `dequeue` are the steps of the queue. The book is
the worker's own, so that `addOrder` is one step. `stop` goes on to join the metrics
thread and to stop the offloader, which touch neither the queue nor the counters.

The loop looks at `isRunning` before every `dequeue`, and leaves behind what is in the
queue then: the worker takes one more order where it is inside `dequeue`, and no other
(`State.left`).
-/

namespace TradePlat.ProcessLoop
open Runs Engine RingCells

variable {P : Type}

/-- The next access of `enqueueOrder`. -/
inductive Gateway where
  | idle
  | enqueue
  | countDropped
  deriving DecidableEq, Repr

/-- The next access of `processLoop`. -/
inductive Worker (P : Type) where
  | loadRunning
  | dequeue
  | addOrder (order : Order P)
  | countProcessed
  | exited
  deriving DecidableEq, Repr

inductive Stop where
  | notCalled
  | joining
  | returned
  deriving DecidableEq, Repr

structure State (P : Type) where
  incomingOrders : MPSCQueue.State Unit (Order P)
  globalSeq : Nat
  gateway : Gateway
  worker : Worker P
  isRunning : Bool
  engine : MatchingEngine P
  ordersProcessed : Nat
  ordersDropped : Nat
  stop : Stop

/-- `MatchingEngine::start`. All cells hold the order of the default constructor. -/
def start (empty : Order P) : State P :=
  ⟨.init fun _ => empty, 0, .idle, .loadRunning, true, .init, 0, 0, .notCalled⟩

/-- `enqueueOrder` comes with the fields the gateway makes the order of. -/
inductive Input (P : Type) where
  | enqueueOrder (order : Order P)
  | gateway (spurious : Bool)
  | worker
  | stop
  | join
  deriving DecidableEq, Repr

/-- `dropped` is the return of an `enqueueOrder` that found the queue full. -/
inductive Output (P : Type) where
  | queue (out : MPSCQueue.Output Unit (Order P))
  | dropped
  | added (order : Order P)
  | stopped
  deriving DecidableEq, Repr

/-- Behind a step of `enqueue`. -/
def Gateway.behind {α : Type} : List (MPSCQueue.Output Unit α) → Gateway
  | .enqueued _ _ _ :: _ => .idle
  | .full _ :: _ => .countDropped
  | _ => .enqueue

def gatewayStep (capacity : Capacity) (s : State P) (spurious : Bool) :
    State P × List (Output P) :=
  match s.gateway with
  | .idle => (s, [])
  | .enqueue =>
    let (queue, out) := MPSCQueue.enqueueStep capacity s.incomingOrders () spurious
    ({ s with incomingOrders := queue, gateway := .behind out }, out.map .queue)
  | .countDropped =>
    ({ s with ordersDropped := s.ordersDropped + 1, gateway := .idle }, [.dropped])

/-- Behind a step of `dequeue`. -/
def Worker.behind : List (MPSCQueue.Output Unit (Order P)) → Worker P
  | .dequeued order :: _ => .addOrder order
  | .empty :: _ => .loadRunning
  | _ => .dequeue

def workerStep [LT P] [DecidableLT P] (capacity : Capacity) (clock : Nat → Int64) (s : State P) :
    State P × List (Output P) :=
  match s.worker with
  | .loadRunning => ({ s with worker := if s.isRunning then .dequeue else .exited }, [])
  | .dequeue =>
    let (queue, out) := MPSCQueue.dequeueStep capacity s.incomingOrders
    ({ s with incomingOrders := queue, worker := .behind out }, out.map .queue)
  | .addOrder order =>
    ({ s with engine := (addOrder clock s.engine order).1, worker := .countProcessed },
      [.added order])
  | .countProcessed =>
    ({ s with ordersProcessed := s.ordersProcessed + 1, worker := .loadRunning }, [])
  | .exited => (s, [])

def step [LT P] [DecidableLT P] (capacity : Capacity) (clock : Nat → Int64) (s : State P) :
    Input P → State P × List (Output P)
  | .enqueueOrder order =>
    match s.gateway, s.stop with
    | .idle, .notCalled =>
      let order := { order with seqNo := s.globalSeq + 1 }
      let (queue, out) := MPSCQueue.step capacity s.incomingOrders (.enqueue () order)
      ({ s with incomingOrders := queue, globalSeq := s.globalSeq + 1, gateway := .enqueue },
        out.map .queue)
    | _, _ => (s, [])
  | .gateway spurious => gatewayStep capacity s spurious
  | .worker => workerStep capacity clock s
  | .stop =>
    match s.gateway, s.stop with
    | .idle, .notCalled => ({ s with isRunning := false, stop := .joining }, [])
    | _, _ => (s, [])
  | .join =>
    match s.stop, s.worker with
    | .joining, .exited => ({ s with stop := .returned }, [.stopped])
    | _, _ => (s, [])

/-! ## What is where -/

/-- The orders in the queue: published, and before the store of `dequeue_pos_`. -/
def State.inQueue (s : State P) : Nat :=
  s.incomingOrders.enqueuePos - (s.incomingOrders.producers ()).claim.toList.length -
    s.incomingOrders.dequeuePos

/-- The orders in the worker's hands: taken from the queue and not counted yet. -/
def State.inHands (s : State P) : Nat :=
  s.incomingOrders.consumer.ahead +
    match s.worker with
    | .addOrder _ | .countProcessed => 1
    | _ => 0

/-- The orders the worker takes before it looks at `isRunning` again, if it can. -/
def State.takes (s : State P) : Nat :=
  match s.worker with
  | .dequeue => 1 - s.incomingOrders.consumer.ahead
  | _ => 0

/-- The orders that are left in the queue if `isRunning` is `false` from now on. -/
def State.left (s : State P) : Nat := s.inQueue - s.takes

section Steps
variable [LT P] [DecidableLT P] {capacity : Capacity} {clock : Nat → Int64} {s : State P}

theorem step_enqueueOrder (hg : s.gateway = .idle) (hs : s.stop = .notCalled) (order : Order P) :
    step capacity clock s (.enqueueOrder order) =
      let call := .enqueue () { order with seqNo := s.globalSeq + 1 }
      ({ s with
          incomingOrders := (MPSCQueue.step capacity s.incomingOrders call).1
          globalSeq := s.globalSeq + 1
          gateway := .enqueue },
        (MPSCQueue.step capacity s.incomingOrders call).2.map .queue) := by
  simp only [step, hg, hs]

theorem step_enqueueOrder_busy (h : ¬ (s.gateway = .idle ∧ s.stop = .notCalled))
    (order : Order P) : step capacity clock s (.enqueueOrder order) = (s, []) := by
  simp only [step]
  split
  · rename_i hg hs
    exact absurd ⟨hg, hs⟩ h
  · rfl

theorem step_stop (hg : s.gateway = .idle) (hs : s.stop = .notCalled) :
    step capacity clock s .stop = ({ s with isRunning := false, stop := .joining }, []) := by
  simp only [step, hg, hs]

theorem step_stop_busy (h : ¬ (s.gateway = .idle ∧ s.stop = .notCalled)) :
    step capacity clock s .stop = (s, []) := by
  simp only [step]
  split
  · rename_i hg hs
    exact absurd ⟨hg, hs⟩ h
  · rfl

theorem step_join (hs : s.stop = .joining) (hw : s.worker = .exited) :
    step capacity clock s .join = ({ s with stop := .returned }, [.stopped]) := by
  simp only [step, hs, hw]

theorem step_join_busy (h : ¬ (s.stop = .joining ∧ s.worker = .exited)) :
    step capacity clock s .join = (s, []) := by
  simp only [step]
  split
  · rename_i hs hw
    exact absurd ⟨hs, hw⟩ h
  · rfl

end Steps

/-! ## Traces -/

def queueOuts (out : List (Output P)) : List (MPSCQueue.Output Unit (Order P)) :=
  out.filterMap fun
    | .queue o => some o
    | _ => none

/-- The orders `addOrder` was called with. -/
def added (out : List (Output P)) : List (Order P) :=
  out.filterMap fun
    | .added order => some order
    | _ => none

/-- The orders of the calls of `enqueueOrder` that put them into the queue. -/
def accepted (out : List (Output P)) : List (Order P) := MPSCQueue.enqueuedBy () (queueOuts out)

/-- The calls of `enqueueOrder` that dropped their orders. -/
def drops (out : List (Output P)) : Nat := out.countP fun
  | .dropped => true
  | _ => false

/-- The calls of `enqueueOrder` that are completed. -/
def completed (out : List (Output P)) : Nat := (accepted out).length + drops out

section Traces
variable (out more : List (Output P)) (o : List (MPSCQueue.Output Unit (Order P)))

@[simp] theorem queueOuts_append : queueOuts (out ++ more) = queueOuts out ++ queueOuts more :=
  List.filterMap_append

@[simp] theorem added_append : added (out ++ more) = added out ++ added more :=
  List.filterMap_append

@[simp] theorem drops_append : drops (out ++ more) = drops out + drops more :=
  List.countP_append

@[simp] theorem queueOuts_queue : queueOuts (o.map .queue) = o := by
  simp [queueOuts, List.filterMap_map]

@[simp] theorem added_queue : added (o.map .queue) = [] := by
  simp [added, List.filterMap_map]

@[simp] theorem drops_queue : drops (o.map .queue) = 0 := by
  simp [drops, List.countP_map, Function.comp_def]

end Traces

/-! ## Steps of the queue -/

section Queue
variable {α : Type} {capacity : Capacity} {s : MPSCQueue.State Unit α}
  {out : List (MPSCQueue.Output Unit α)}

/-- A call of `enqueue` that returned is over. -/
theorem enqueueStep_returned (spurious : Bool)
    (h : Gateway.behind (MPSCQueue.enqueueStep capacity s () spurious).2 ≠ .enqueue) :
    (MPSCQueue.enqueueStep capacity s () spurious).1.producers () = .idle := by
  cases hp : s.producers () with
  | idle =>
    rw [MPSCQueue.enqueueStep_idle hp]
    exact hp
  | loadPos data =>
    rw [MPSCQueue.enqueueStep_loadPos hp] at h
    exact absurd rfl h
  | loadSequence data pos =>
    rcases MPSCQueue.enqueueStep_loadSequence capacity hp spurious with
      ⟨-, heq⟩ | ⟨-, heq⟩ | ⟨-, heq⟩
    · rw [heq] at h
      exact absurd rfl h
    · rw [heq]
      exact MPSCQueue.setProducer_self _
    · rw [heq] at h
      exact absurd rfl h
  | compareExchange data pos =>
    rcases MPSCQueue.enqueueStep_compareExchange capacity hp spurious with ⟨-, heq⟩ | heq
    · rw [heq] at h
      exact absurd rfl h
    · rw [heq] at h
      exact absurd rfl h
  | copyData data pos =>
    rw [MPSCQueue.enqueueStep_copyData hp] at h
    exact absurd rfl h
  | storeSequence data pos =>
    rw [MPSCQueue.enqueueStep_storeSequence hp]
    exact MPSCQueue.setProducer_self (s := s) (p := ()) .idle

/-- With one producer, what is claimed is what was enqueued, and the order that is
not published yet. -/
theorem claimed_eq (h : MPSCQueue.Traced capacity out s) :
    MPSCQueue.claimed out =
      MPSCQueue.enqueuedBy () out ++ ((s.producers ()).claim.map Prod.snd).toList := by
  rw [← (h.account ()).returned, MPSCQueue.valuesOf, MPSCQueue.claimed]
  congr 1
  exact (List.filter_eq_self.mpr fun _ _ => by simp).symm

theorem length_claimed (h : MPSCQueue.Traced capacity out s) :
    (MPSCQueue.claimed out).length =
      (MPSCQueue.enqueuedBy () out).length + (s.producers ()).claim.toList.length := by
  rw [claimed_eq h, List.length_append]
  cases (s.producers ()).claim <;> rfl

/-- The position the consumer is at is published where it has been seen so. -/
theorem taken_le (h : MPSCQueue.Traced capacity out s) :
    (MPSCQueue.dequeued out).length + s.consumer.ahead ≤ (MPSCQueue.enqueuedBy () out).length := by
  have hlen := length_claimed h
  have hreleased := h.inv.released
  have hconsumer := h.inv.consumer
  have hahead : s.consumer.ahead = 1 → (MPSCQueue.dequeued out).length <
      (MPSCQueue.claimed out).length ∧ s.sequence ((MPSCQueue.dequeued out).length %
        capacity.value) = (MPSCQueue.dequeued out).length + 1 := by
    intro hone
    cases hc : s.consumer with
    | storeSequence pos data =>
      rw [hc] at hconsumer
      exact ⟨(List.getElem?_eq_some_iff.mp hconsumer.2.2).1, hconsumer.2.1⟩
    | _ => rw [hc] at hone; exact absurd hone Nat.zero_ne_one
  have hle : s.consumer.ahead = 0 ∨ s.consumer.ahead = 1 := by
    cases s.consumer <;> simp [MPSCQueue.Dequeue.ahead]
  cases hclaim : (s.producers ()).claim with
  | none =>
    rw [hclaim] at hlen
    simp only [Option.toList_none, List.length_nil, Nat.add_zero] at hlen
    rcases hle with hzero | hone
    · omega
    · have := (hahead hone).1
      omega
  | some c =>
    obtain ⟨pos, data⟩ := c
    rw [hclaim] at hlen
    simp only [Option.toList_some, List.length_singleton] at hlen
    obtain ⟨hr, hval, hseq⟩ := h.inv.reserved () pos data hclaim
    have hpos := (List.getElem?_eq_some_iff.mp hval).1
    rcases hle with hzero | hone
    · omega
    · obtain ⟨-, hpublished⟩ := hahead hone
      have hne : pos ≠ (MPSCQueue.dequeued out).length := by
        rintro rfl
        omega
      omega

/-- Where `dequeue` finds the queue empty and no `enqueue` runs, everything is dequeued. -/
theorem nothing_left (h : MPSCQueue.Traced capacity out s) (hidle : s.producers () = .idle)
    (hne : s.sequence ((MPSCQueue.dequeued out).length % capacity.value) ≠
      (MPSCQueue.dequeued out).length + 1) :
    (MPSCQueue.enqueuedBy () out).length ≤ (MPSCQueue.dequeued out).length := by
  have hlen := length_claimed h
  rw [hidle] at hlen
  by_contra hlt
  rcases h.inv.used _ (Nat.le_refl _) (by omega) with ⟨hseq, -⟩ | ⟨-, p, data, hclaim⟩
  · exact hne hseq
  · rw [show p = () from rfl, hidle] at hclaim
    cases hclaim

end Queue

/-! ## The invariant -/

/-- The order in the worker's hands behind `dequeue`. -/
def Worker.hand : Worker P → Option (Order P)
  | .addOrder order => some order
  | _ => none

/-- The order that is added and not counted yet. -/
def Worker.uncounted : Worker P → Nat
  | .countProcessed => 1
  | _ => 0

structure Inv [LT P] [DecidableLT P] (capacity : Capacity) (clock : Nat → Int64)
    (out : List (Output P)) (s : State P) : Prop where
  queue : MPSCQueue.Traced capacity (queueOuts out) s.incomingOrders
  seqNos : (MPSCQueue.calledBy () (queueOuts out)).map Order.seqNo = List.range' 1 s.globalSeq
  taken : MPSCQueue.dequeued (queueOuts out) = added out ++ s.worker.hand.toList
  processed : s.ordersProcessed + s.worker.uncounted = (added out).length
  dropped : s.ordersDropped = drops out
  engine : s.engine = (run (call clock) .init ((added out).map .addOrder)).1
  gateway : s.gateway ≠ .enqueue → s.incomingOrders.producers () = .idle
  worker : s.worker ≠ .dequeue → s.incomingOrders.consumer = .idle
  running : s.isRunning = true ↔ s.stop = .notCalled
  stopped : s.stop ≠ .notCalled → s.gateway = .idle
  exited : s.worker = .exited → s.isRunning = false
  returned : s.stop = .returned → s.worker = .exited

variable [LT P] [DecidableLT P] {capacity : Capacity} {clock : Nat → Int64}
  {out : List (Output P)} {s : State P}

theorem inv_start (capacity : Capacity) (clock : Nat → Int64) (empty : Order P) :
    Inv capacity clock [] (start empty) where
  queue := MPSCQueue.traced_init capacity _
  seqNos := rfl
  taken := rfl
  processed := rfl
  dropped := rfl
  engine := rfl
  gateway _ := rfl
  worker _ := rfl
  running := ⟨fun _ => rfl, fun _ => rfl⟩
  stopped h := absurd rfl h
  exited h := by cases h
  returned h := by cases h

namespace Inv

/-- A step of `enqueue`. -/
theorem enqueued (h : Inv capacity clock out s) {queue : MPSCQueue.State Unit (Order P)}
    {o : List (MPSCQueue.Output Unit (Order P))} {seq : Nat} {gateway : Gateway}
    (hqueue : MPSCQueue.Traced capacity (queueOuts out ++ o) queue)
    (hseq : (MPSCQueue.calledBy () (queueOuts out ++ o)).map Order.seqNo = List.range' 1 seq)
    (htaken : MPSCQueue.dequeued o = []) (hconsumer : queue.consumer = s.incomingOrders.consumer)
    (hgateway : gateway ≠ .enqueue → queue.producers () = .idle)
    (hstopped : s.stop ≠ .notCalled → gateway = .idle) :
    Inv capacity clock (out ++ o.map .queue)
      { s with incomingOrders := queue, globalSeq := seq, gateway := gateway } where
  queue := by simpa using hqueue
  seqNos := by simpa using hseq
  taken := by simpa [htaken] using h.taken
  processed := by simpa using h.processed
  dropped := by simpa using h.dropped
  engine := by simpa using h.engine
  gateway := hgateway
  worker hw := hconsumer.trans (h.worker hw)
  running := h.running
  stopped := hstopped
  exited := h.exited
  returned := h.returned

theorem enqueueOrder (h : Inv capacity clock out s) (order : Order P) :
    Inv capacity clock (out ++ (step capacity clock s (.enqueueOrder order)).2)
      (step capacity clock s (.enqueueOrder order)).1 := by
  by_cases hidle : s.gateway = .idle ∧ s.stop = .notCalled
  · rw [step_enqueueOrder hidle.1 hidle.2]
    have hproducer := h.gateway (by rw [hidle.1]; simp)
    refine h.enqueued (h.queue.next _) ?_ ?_ ?_ (by simp) (absurd hidle.2)
    · simp only [MPSCQueue.step, hproducer, MPSCQueue.calledBy_append, List.map_append, h.seqNos]
      rw [← List.range'_append_1]
      simp [MPSCQueue.calledBy, Nat.add_comm]
    · simp [MPSCQueue.step, hproducer, MPSCQueue.dequeued]
    · simp [MPSCQueue.step, hproducer, MPSCQueue.State.setProducer]
  · rw [step_enqueueOrder_busy hidle, List.append_nil]
    exact h

theorem gatewayStep (h : Inv capacity clock out s) (spurious : Bool) :
    Inv capacity clock (out ++ (gatewayStep capacity s spurious).2)
      (gatewayStep capacity s spurious).1 := by
  cases hg : s.gateway with
  | idle => simpa only [ProcessLoop.gatewayStep, hg, List.append_nil] using h
  | enqueue =>
    obtain ⟨hcalled, hdequeued⟩ :=
      MPSCQueue.calledBy_enqueueStep capacity s.incomingOrders () () spurious
    simp only [ProcessLoop.gatewayStep, hg]
    refine h.enqueued (h.queue.enqueueStep () spurious) ?_ hdequeued
      (MPSCQueue.enqueueStep_consumer spurious) (enqueueStep_returned spurious) fun hs => ?_
    · rw [MPSCQueue.calledBy_append, hcalled, List.append_nil]
      exact h.seqNos
    · have hidle := h.stopped hs
      rw [hg] at hidle
      cases hidle
  | countDropped =>
    simp only [ProcessLoop.gatewayStep, hg]
    have hproducer := h.gateway (by rw [hg]; simp)
    exact {
      queue := by simpa [queueOuts] using h.queue
      seqNos := by simpa [queueOuts] using h.seqNos
      taken := by simpa [queueOuts, added] using h.taken
      processed := by simpa [added] using h.processed
      dropped := by simpa [drops] using h.dropped
      engine := by simpa [added] using h.engine
      gateway := fun _ => hproducer
      worker := h.worker
      running := h.running
      stopped := fun _ => rfl
      exited := h.exited
      returned := h.returned }

/-- A step of `dequeue`. -/
theorem dequeued (h : Inv capacity clock out s) (hw : s.worker = .dequeue)
    {o : List (MPSCQueue.Output Unit (Order P))} {worker : Worker P}
    (ho : (MPSCQueue.dequeueStep capacity s.incomingOrders).2 = o)
    (htaken : MPSCQueue.dequeued o = worker.hand.toList) (huncounted : worker.uncounted = 0)
    (hconsumer : worker ≠ .dequeue →
      (MPSCQueue.dequeueStep capacity s.incomingOrders).1.consumer = .idle)
    (hexited : worker ≠ .exited) :
    Inv capacity clock (out ++ o.map .queue)
      { s with
        incomingOrders := (MPSCQueue.dequeueStep capacity s.incomingOrders).1
        worker := worker } := by
  have hqueue := h.queue.dequeueStep
  have hpast := h.taken
  have hprocessed := h.processed
  obtain ⟨hcalled, -⟩ := MPSCQueue.calledBy_dequeueStep capacity s.incomingOrders ()
  rw [hw] at hpast hprocessed
  rw [ho] at hqueue hcalled
  exact {
    queue := by simpa using hqueue
    seqNos := by simpa [hcalled] using h.seqNos
    taken := by simpa [htaken, Worker.hand] using hpast
    processed := by
      rw [added_append, added_queue, List.append_nil, huncounted]
      exact hprocessed
    dropped := by simpa using h.dropped
    engine := by simpa using h.engine
    gateway := fun hg => (congrFun MPSCQueue.dequeueStep_producers ()).trans (h.gateway hg)
    worker := hconsumer
    running := h.running
    stopped := h.stopped
    exited := fun heq => absurd heq hexited
    returned := fun hs => absurd ((h.returned hs).symm.trans hw) (by simp) }

/-- The accesses of the loop that leave the queue and the engine alone. -/
theorem goesOn (h : Inv capacity clock out s) (hw : s.worker ≠ .dequeue ∧ s.worker ≠ .exited)
    {worker : Worker P} {processed : Nat} (hhand : worker.hand = s.worker.hand)
    (hprocessed : processed + worker.uncounted = s.ordersProcessed + s.worker.uncounted)
    (hexited : worker = .exited → s.isRunning = false) :
    Inv capacity clock (out ++ []) { s with worker := worker, ordersProcessed := processed } := by
  rw [List.append_nil]
  exact { h with
    taken := by rw [hhand]; exact h.taken
    processed := hprocessed.trans h.processed
    worker := fun _ => h.worker hw.1
    exited := hexited
    returned := fun hs => absurd (h.returned hs) hw.2 }

theorem workerStep (h : Inv capacity clock out s) :
    Inv capacity clock (out ++ (workerStep capacity clock s).2)
      (workerStep capacity clock s).1 := by
  cases hw : s.worker with
  | loadRunning =>
    have hcalm : s.worker ≠ .dequeue ∧ s.worker ≠ .exited := by rw [hw]; simp
    simp only [ProcessLoop.workerStep, hw]
    by_cases hrun : s.isRunning = true
    · rw [if_pos hrun]
      exact h.goesOn hcalm (by rw [hw]; rfl) (by rw [hw]; rfl) (by simp)
    · rw [if_neg hrun]
      exact h.goesOn hcalm (by rw [hw]; rfl) (by rw [hw]; rfl)
        fun _ => Bool.eq_false_of_not_eq_true hrun
  | dequeue =>
    simp only [ProcessLoop.workerStep, hw]
    rcases MPSCQueue.dequeueStep_cases capacity s.incomingOrders with
      ho | ⟨ho, hconsumer, -⟩ | ⟨data, ho, hconsumer⟩
    · rw [ho]
      exact h.dequeued hw ho rfl rfl (absurd rfl) (by simp [Worker.behind])
    · rw [ho]
      exact h.dequeued hw ho rfl rfl (fun _ => hconsumer) (by simp [Worker.behind])
    · rw [ho]
      exact h.dequeued hw ho rfl rfl (fun _ => hconsumer) (by simp [Worker.behind])
  | addOrder order =>
    have htaken := h.taken
    have hprocessed := h.processed
    have hconsumer := h.worker (by rw [hw]; simp)
    rw [hw] at htaken hprocessed
    simp only [ProcessLoop.workerStep, hw]
    have hadded : added (out ++ [.added order]) = added out ++ [order] := by simp [added]
    exact {
      queue := by simpa [queueOuts] using h.queue
      seqNos := by simpa [queueOuts] using h.seqNos
      taken := by simpa [queueOuts, hadded, Worker.hand] using htaken
      processed := by simpa [hadded, Worker.uncounted] using hprocessed
      dropped := by simpa [drops] using h.dropped
      engine := by
        rw [hadded, List.map_append, run_append, h.engine]
        rfl
      gateway := h.gateway
      worker := fun _ => hconsumer
      running := h.running
      stopped := h.stopped
      exited := by simp
      returned := fun hs => absurd ((h.returned hs).symm.trans hw) (by simp) }
  | countProcessed =>
    have hcalm : s.worker ≠ .dequeue ∧ s.worker ≠ .exited := by rw [hw]; simp
    simp only [ProcessLoop.workerStep, hw]
    exact h.goesOn hcalm (by rw [hw]; rfl) (by rw [hw]; rfl) (by simp)
  | exited => simpa only [ProcessLoop.workerStep, hw, List.append_nil] using h

/-- **Every step keeps the invariant.** -/
theorem next (h : Inv capacity clock out s) (i : Input P) :
    Inv capacity clock (out ++ (step capacity clock s i).2) (step capacity clock s i).1 := by
  cases i with
  | enqueueOrder order => exact h.enqueueOrder order
  | gateway spurious => exact h.gatewayStep spurious
  | worker => exact h.workerStep
  | stop =>
    by_cases hidle : s.gateway = .idle ∧ s.stop = .notCalled
    · rw [step_stop hidle.1 hidle.2, List.append_nil]
      exact { h with
        running := ⟨by simp, by simp⟩
        stopped := fun _ => hidle.1
        exited := fun _ => rfl
        returned := by simp }
    · rw [step_stop_busy hidle, List.append_nil]
      exact h
  | join =>
    by_cases hjoin : s.stop = .joining ∧ s.worker = .exited
    · rw [step_join hjoin.1 hjoin.2]
      have hidle := h.stopped (by rw [hjoin.1]; simp)
      exact {
        queue := by simpa [queueOuts] using h.queue
        seqNos := by simpa [queueOuts] using h.seqNos
        taken := by simpa [queueOuts, added] using h.taken
        processed := by simpa [added] using h.processed
        dropped := by simpa [drops] using h.dropped
        engine := by simpa [added] using h.engine
        gateway := h.gateway
        worker := h.worker
        running := ⟨fun hrun => absurd (hrun.symm.trans (h.exited hjoin.2)) (by simp), by simp⟩
        stopped := fun _ => hidle
        exited := h.exited
        returned := fun _ => hjoin.2 }
    · rw [step_join_busy hjoin, List.append_nil]
      exact h

end Inv

theorem inv_append (h : Inv capacity clock out s) (inputs : List (Input P)) :
    Inv capacity clock (out ++ outputs (step capacity clock) s inputs)
      (run (step capacity clock) s inputs).1 :=
  have hrun := run_invariant (fun _ out s => Inv capacity clock out s)
    (fun _ _ _ i h _ => h.next i) h (guarded_true _ [] s inputs)
  hrun

theorem inv_run (capacity : Capacity) (clock : Nat → Int64) (empty : Order P)
    (inputs : List (Input P)) :
    Inv capacity clock (outputs (step capacity clock) (start empty) inputs)
      (run (step capacity clock) (start empty) inputs).1 :=
  inv_append (inv_start capacity clock empty) inputs

end TradePlat.ProcessLoop
