import Mathlib.Algebra.Group.Nat.Defs
import TradePlat.Queue.SPSCQueue

/-!
# The offloader of trade events (`KafkaOffloader.h`)

The matching thread calls `publish`, the offloader thread runs `run`, and a third
one calls `stop`. A step is one access of one thread; `tryPush` and `tryPop` are the
steps of the queue. The matching thread was joined before `stop` is called
(`MatchingEngine::stop`): `stop` waits for a call of `publish` to end, and none
begins behind it. Whether `produce` accepts a batch comes with the step that calls it.

The outputs are the returns of the calls, those of the queue among them, so that a
trace of the offloader holds the trace of its queue.
-/

namespace TradePlat.KafkaOffloader
open RingCells Runs

variable {E : Type}

/-- `QUEUE_CAPACITY`. -/
def queueCapacity : Capacity := ⟨2 ^ 16, by decide, 16, rfl⟩

def maxBatchEvents : Nat := 1024

/-- The next access of the matching thread. The last one follows a `publish` that
returned `false`. -/
inductive Publish (E : Type) where
  | idle
  | tryPush
  | countDropped (event : E)
  | countPublished (event : E)
  | countTradeEventsDropped
  deriving DecidableEq, Repr

/-- The next access of the offloader thread. `absent` where `start` failed. -/
inductive Worker where
  | absent
  | loadRunning
  | loadHead
  | loadTail (head : BitVec 64)
  | tryPop (count : Nat)
  | publishBatch (count : Nat)
  | countDelivered (count : Nat)
  | exited
  deriving DecidableEq, Repr

inductive Stop where
  | notCalled
  | joining
  | returned
  deriving DecidableEq, Repr

structure State (E : Type) where
  queue : SPSCQueue.State 64 E
  running : Bool
  publisher : Publish E
  worker : Worker
  batch : Nat → E
  stop : Stop
  published : Nat
  dropped : Nat
  delivered : Nat
  tradeEventsDropped : Nat

/-- An offloader whose `start` succeeded or failed. All slots hold the empty event. -/
def start (empty : E) (started : Bool) : State E where
  queue := .init fun _ => empty
  running := started
  publisher := .idle
  worker := if started then .loadRunning else .absent
  batch _ := empty
  stop := .notCalled
  published := 0
  dropped := 0
  delivered := 0
  tradeEventsDropped := 0

inductive Input (E : Type) where
  | publish (event : E)
  | matching
  | worker (accepted : Bool)
  | stop
  | join
  deriving DecidableEq, Repr

/-- `returned` are the returns of `publish`, `produced` the calls of `produce`. -/
inductive Output (E : Type) where
  | queue (out : SPSCQueue.Output E)
  | returned (event : E) (ok : Bool)
  | produced (batch : List E) (accepted : Bool)
  | stopped
  deriving DecidableEq, Repr

/-- The state behind a step of `tryPush`. -/
def State.pushed (s : State E) : List (SPSCQueue.Output E) → Publish E
  | .pushed event :: _ => .countPublished event
  | .full event :: _ => .countDropped event
  | _ => s.publisher

/-- The next access of `publish`, and of `matching` behind it. -/
def publishStep (s : State E) : State E × List (Output E) :=
  match s.publisher with
  | .idle => (s, [])
  | .tryPush =>
    let (queue, out) := SPSCQueue.pushStep queueCapacity s.queue
    ({ s with queue := queue, publisher := s.pushed out }, out.map .queue)
  | .countDropped event =>
    ({ s with dropped := s.dropped + 1, publisher := .countTradeEventsDropped },
      [.returned event false])
  | .countPublished event =>
    ({ s with published := s.published + 1, publisher := .idle }, [.returned event true])
  | .countTradeEventsDropped =>
    ({ s with tradeEventsDropped := s.tradeEventsDropped + 1, publisher := .idle }, [])

/-- The inner loop of `run` with `count` events in the batch. -/
def popping (count : Nat) : Worker :=
  if count < maxBatchEvents then .tryPop count else .publishBatch count

/-- Behind the inner loop. -/
def popped (count : Nat) : Worker := if count = 0 then .loadRunning else .publishBatch count

/-- The batch and the next access behind a step of `tryPop(batch[count])`. -/
def State.taken (s : State E) (count : Nat) : List (SPSCQueue.Output E) → (Nat → E) × Worker
  | .popped event :: _ => (Function.update s.batch count event, popping (count + 1))
  | .empty :: _ => (s.batch, popped count)
  | _ => (s.batch, s.worker)

/-- The next access of `run`. -/
def runStep (s : State E) (accepted : Bool) : State E × List (Output E) :=
  match s.worker with
  | .absent | .exited => (s, [])
  | .loadRunning => ({ s with worker := if s.running then popping 0 else .loadHead }, [])
  | .loadHead => ({ s with worker := .loadTail s.queue.head }, [])
  | .loadTail head =>
    ({ s with worker := if 0 < head - s.queue.tail then popping 0 else .exited }, [])
  | .tryPop count =>
    let (queue, out) := SPSCQueue.popStep queueCapacity s.queue
    let (batch, worker) := s.taken count out
    ({ s with queue := queue, batch := batch, worker := worker }, out.map .queue)
  | .publishBatch count =>
    ({ s with worker := .countDelivered count },
      [.produced ((List.range count).map s.batch) accepted])
  | .countDelivered count =>
    ({ s with delivered := s.delivered + count, worker := .loadRunning }, [])

def step (s : State E) : Input E → State E × List (Output E)
  | .publish event =>
    match s.publisher, s.stop with
    | .idle, .notCalled =>
      let (queue, out) := SPSCQueue.step queueCapacity s.queue (.tryPush event)
      ({ s with queue := queue, publisher := .tryPush }, out.map .queue)
    | _, _ => (s, [])
  | .matching => publishStep s
  | .worker accepted => runStep s accepted
  | .stop =>
    match s.publisher, s.stop with
    | .idle, .notCalled => ({ s with running := false, stop := .joining }, [])
    | _, _ => (s, [])
  | .join =>
    match s.stop, s.worker with
    | .joining, .exited | .joining, .absent => ({ s with stop := .returned }, [.stopped])
    | _, _ => (s, [])

end TradePlat.KafkaOffloader
