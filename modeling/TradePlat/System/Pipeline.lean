import TradePlat.Gateway.ServerInvariant
import TradePlat.System.Ingress
import TradePlat.System.Shutdown
import TradePlat.System.TradeFeed

/-!
# All threads of the engine process (`main.cpp`)

`TCPServer::run`, `enqueueOrder` in the same thread, `processLoop` with the publishing
in `matching`, the offloader, and the thread that stops them, each with the steps of its
own model; what happens on the network comes between any two of them. The gateway thread
makes orders of what it read before it reads on. The worker publishes the events of an
order before it counts it. `main` starts the threads and never leaves its loop; the calls
of `TCPServer::stop` and `MatchingEngine::stop` behind it are modelled as that of the
classes, the server first, and `MatchingEngine::stop` joins the worker before it stops the
offloader. A run need not call them.

The invariant `Inv` is that of the parts, and what ties them: the orders of the calls
of `enqueueOrder` are those of the messages received, and the events of the calls of
`publish` are those of one engine that was given the orders of the queue one by one.
-/

namespace TradePlat.ProcessLoop
open Runs Engine RingCells

variable {P : Type} [LT P] [DecidableLT P] {capacity : Capacity} {clock : Nat → Int64}
  {out : List (Output P)} {s : State P}

/-! ## What a step of the loop leaves alone -/

variable (capacity clock s) in
/-- Of the other threads none touches the worker and its engine. -/
theorem step_other {i : Input P} (hi : i ≠ .worker) :
    (step capacity clock s i).1.worker = s.worker ∧
      (step capacity clock s i).1.engine = s.engine ∧ added (step capacity clock s i).2 = [] := by
  cases i with
  | enqueueOrder order =>
    simp only [step]
    split
    · exact ⟨rfl, rfl, added_queue _⟩
    · exact ⟨rfl, rfl, rfl⟩
  | gateway spurious =>
    simp only [step, gatewayStep]
    split
    · exact ⟨rfl, rfl, rfl⟩
    · exact ⟨rfl, rfl, added_queue _⟩
    · exact ⟨rfl, rfl, rfl⟩
  | worker => exact absurd rfl hi
  | stop =>
    simp only [step]
    split <;> exact ⟨rfl, rfl, rfl⟩
  | join =>
    simp only [step]
    split <;> exact ⟨rfl, rfl, rfl⟩

/-- An access of the worker that is no call of `addOrder`. -/
theorem workerStep_quiet (h : ∀ order, s.worker ≠ .addOrder order) :
    (workerStep capacity clock s).1.engine = s.engine ∧
      added (workerStep capacity clock s).2 = [] := by
  cases hw : s.worker with
  | addOrder order => exact absurd hw (h order)
  | dequeue =>
    simp only [workerStep, hw]
    exact ⟨trivial, added_queue _⟩
  | loadRunning | countProcessed | exited =>
    simp only [workerStep, hw]
    exact ⟨trivial, rfl⟩

/-- Only `enqueueOrder` calls `enqueue`. -/
theorem calledBy_step {i : Input P} (hi : ∀ order, i ≠ .enqueueOrder order) :
    MPSCQueue.calledBy () (queueOuts (step capacity clock s i).2) = [] := by
  cases i with
  | enqueueOrder order => exact absurd rfl (hi order)
  | gateway spurious =>
    simp only [step, gatewayStep]
    split
    · rfl
    · rw [queueOuts_queue]
      exact (MPSCQueue.calledBy_enqueueStep capacity _ () () spurious).1
    · rfl
  | worker =>
    simp only [step, workerStep]
    split
    · rfl
    · rw [queueOuts_queue]
      exact (MPSCQueue.calledBy_dequeueStep capacity _ ()).1
    all_goals rfl
  | stop =>
    simp only [step]
    split <;> rfl
  | join =>
    simp only [step]
    split <;> rfl

/-- `enqueueOrder` calls it with the order and the next sequence number. -/
theorem Inv.calledBy_enqueueOrder (h : Inv capacity clock out s) (hg : s.gateway = .idle)
    (hs : s.stop = .notCalled) (order : Order P) :
    MPSCQueue.calledBy () (queueOuts (step capacity clock s (.enqueueOrder order)).2) =
      [{ order with seqNo := s.globalSeq + 1 }] := by
  have hproducer := h.gateway (by rw [hg]; simp)
  rw [step_enqueueOrder hg hs, queueOuts_queue]
  simp [MPSCQueue.step, hproducer, MPSCQueue.calledBy]

theorem step_returned (hs : s.stop = .returned) (i : Input P) :
    (step capacity clock s i).1.stop = .returned := by
  have hbusy : ¬ (s.gateway = .idle ∧ s.stop = .notCalled) := fun hand => by
    rw [hs] at hand
    cases hand.2
  cases i with
  | enqueueOrder order =>
    rw [step_enqueueOrder_busy hbusy]
    exact hs
  | gateway spurious =>
    simp only [step, gatewayStep]
    split <;> exact hs
  | worker => exact (workerStep_stop s).trans hs
  | stop =>
    rw [step_stop_busy hbusy]
    exact hs
  | join =>
    rw [step_join_busy fun hand => by rw [hs] at hand; cases hand.1]
    exact hs

/-! ## Calls and returns of `enqueueOrder` -/

/-- The call of `enqueueOrder` that has not returned. -/
def Gateway.calling : Gateway → Nat
  | .idle => 0
  | .enqueue | .countDropped => 1

/-- Every call is completed but the one under way. -/
def Answered (out : List (Output P)) (s : State P) : Prop :=
  completed out + s.gateway.calling = s.globalSeq

omit [LT P] [DecidableLT P] in
theorem Answered.gatewayStep (h : Answered out s) (spurious : Bool) :
    Answered (out ++ (gatewayStep capacity s spurious).2) (gatewayStep capacity s spurious).1 := by
  cases hg : s.gateway with
  | idle => simpa only [ProcessLoop.gatewayStep, hg, List.append_nil] using h
  | enqueue =>
    simp only [Answered, hg] at h
    simp only [ProcessLoop.gatewayStep, hg]
    have hcompleted : ∀ o : List (MPSCQueue.Output Unit (Order P)),
        completed (out ++ o.map .queue) = completed out + (MPSCQueue.enqueuedBy () o).length := by
      intro o
      simp only [completed, accepted, queueOuts_append, queueOuts_queue, drops_append, drops_queue,
        MPSCQueue.enqueuedBy_append, List.length_append]
      omega
    rcases MPSCQueue.enqueueStep_cases capacity s.incomingOrders () spurious with
      ho | ⟨data, pos, -, -, ho⟩ | ⟨data, pos, ho⟩ | ⟨data, pos, ho⟩ <;>
      rw [Answered, hcompleted, ho] <;> exact h
  | countDropped =>
    simp only [Answered, hg] at h
    simp only [ProcessLoop.gatewayStep, hg]
    have hdropped : completed (out ++ [.dropped]) = completed out + 1 := by
      simp [completed, accepted, queueOuts, drops, Nat.add_assoc]
    rw [Answered, hdropped]
    exact h

theorem Answered.next (h : Inv capacity clock out s) (ha : Answered out s) (i : Input P) :
    Answered (out ++ (step capacity clock s i).2) (step capacity clock s i).1 := by
  have hquiet : Answered (out ++ []) s := by
    rw [List.append_nil]
    exact ha
  cases i with
  | enqueueOrder order =>
    by_cases hidle : s.gateway = .idle ∧ s.stop = .notCalled
    · have hproducer := h.gateway (by rw [hidle.1]; simp)
      rw [step_enqueueOrder hidle.1 hidle.2]
      simp only [Answered, hidle.1] at ha
      simp only [Answered, completed, accepted, MPSCQueue.step, hproducer] at ha ⊢
      simp only [queueOuts_append, queueOuts_queue, drops_append, drops_queue,
        MPSCQueue.enqueuedBy_append]
      simpa [MPSCQueue.enqueuedBy, Gateway.calling] using ha
    · rw [step_enqueueOrder_busy hidle]
      exact hquiet
  | gateway spurious => exact ha.gatewayStep spurious
  | worker =>
    have hnone : completed (out ++ (workerStep capacity clock s).2) = completed out := by
      have hqueue := (MPSCQueue.calledBy_dequeueStep capacity s.incomingOrders ()).2
      unfold workerStep
      cases hw : s.worker with
      | dequeue =>
        simp only [completed, accepted, queueOuts_append, queueOuts_queue, drops_append,
          drops_queue, MPSCQueue.enqueuedBy_append, hqueue, List.append_nil, Nat.add_zero]
      | addOrder order => simp [completed, accepted, queueOuts, drops]
      | loadRunning | countProcessed | exited => simp
    have hsame : (workerStep capacity clock s).1.gateway = s.gateway ∧
        (workerStep capacity clock s).1.globalSeq = s.globalSeq := by
      unfold workerStep
      cases s.worker <;> exact ⟨rfl, rfl⟩
    change Answered (out ++ (workerStep capacity clock s).2) (workerStep capacity clock s).1
    rw [Answered, hnone, hsame.1, hsame.2]
    exact ha
  | stop =>
    simp only [step]
    split <;> exact hquiet
  | join =>
    simp only [step]
    split
    · simpa [Answered, completed, accepted, queueOuts, drops] using ha
    · exact hquiet

end TradePlat.ProcessLoop

namespace TradePlat.TradeFeed
open Runs Engine KafkaOffloader

variable {P : Type} [LT P] [DecidableLT P] {clock : Nat → Int64} {s : State P}

/-! ## What a step of the feed leaves alone -/

/-- The engine moves only in its calls. -/
theorem step_engine {i : Input P} (hi : ∀ c, i ≠ .call c) :
    (step clock s i).1.engine = s.engine := by
  cases i with
  | call c => exact absurd rfl (hi c)
  | matching =>
    simp only [step]
    split <;> rfl
  | worker accepted => rfl
  | stop =>
    simp only [step]
    split <;> rfl
  | join => rfl

omit [LT P] [DecidableLT P] in
/-- The other threads leave the publisher alone. -/
theorem step_publisher {o : KafkaOffloader.State (TradeEvent P)}
    {i : KafkaOffloader.Input (TradeEvent P)} (hi : i ≠ .matching)
    (hi' : ∀ event, i ≠ .publish event) :
    (KafkaOffloader.step o i).1.publisher = o.publisher := by
  cases i with
  | publish event => exact absurd rfl (hi' event)
  | matching => exact absurd rfl hi
  | worker accepted =>
    change (runStep o accepted).1.publisher = o.publisher
    unfold runStep
    cases o.worker <;> rfl
  | stop =>
    simp only [KafkaOffloader.step]
    split <;> rfl
  | join =>
    simp only [KafkaOffloader.step]
    split <;> rfl

/-- What the matching thread calls `publish` with was pending. -/
theorem Fed.calls_matching {started : Bool} {out : List (KafkaOffloader.Output (TradeEvent P))}
    (h : Fed started out s) :
    calls (step clock s .matching).2 ++ (step clock s .matching).1.pending = s.pending := by
  simp only [step]
  split
  · rename_i event pending hpending hp
    have hs : s.offloader.stop = .notCalled := by
      by_contra hno
      rw [h.stopped hno] at hpending
      cases hpending
    rw [hpending]
    exact congrArg (· ++ pending) (calls_publish h.offloader hp hs event)
  · exact congrArg (· ++ s.pending) (calls_step (by simp))

end TradePlat.TradeFeed

namespace TradePlat.Pipeline
open Runs Binary64 Engine Gateway RingCells

structure State where
  server : TCPServer.State
  /-- The messages of the latest read that are not orders yet. -/
  decoded : List OrderMessage
  loop : ProcessLoop.State Double
  /-- The events of the latest order that are not published yet. -/
  pending : List (TradeEvent Double)
  offloader : KafkaOffloader.State (TradeEvent Double)

def start (order : Order Double) (event : TradeEvent Double) (started : Bool) : State :=
  ⟨.init, [], ProcessLoop.start order, [], KafkaOffloader.start event started⟩

/-- `enqueueOrder` comes with the reading of the clock the gateway makes for the order. -/
inductive Input where
  | server (i : TCPServer.Input)
  | enqueueOrder (t1 : Int64)
  | enqueue (spurious : Bool)
  | worker
  | offloader (accepted : Bool)
  | stop
  | join
  | stopOffloader
  | joinOffloader
  deriving DecidableEq, Repr

inductive Output where
  | server (out : TCPServer.Output)
  | loop (out : ProcessLoop.Output Double)
  | feed (out : KafkaOffloader.Output (TradeEvent Double))
  deriving DecidableEq, Repr

/-- What is not a step of the server thread. -/
def IsNetwork : TCPServer.Input → Bool
  | .connect | .arrive _ _ | .hangUp _ => true
  | _ => false

/-- The server thread is in `run` and not inside `enqueueOrder`. -/
def State.Serving (s : State) : Prop :=
  s.decoded = [] ∧ s.loop.gateway = .idle ∧ s.loop.stop = .notCalled

instance (s : State) : Decidable s.Serving := inferInstanceAs (Decidable (_ ∧ _ ∧ _))

/-- The worker is not inside `publish`, and has nothing to publish. -/
def State.Published (s : State) : Prop := s.pending = [] ∧ s.offloader.publisher = .idle

instance (s : State) : Decidable s.Published := inferInstanceAs (Decidable (_ ∧ _))

/-- The messages the reads led to, with their connections. -/
def received (out : List TCPServer.Output) : List (Nat × OrderMessage) :=
  out.flatMap fun
    | .handled c _ actions => (Ingress.messages actions).map (c, ·)
    | .arrived _ _ => []

/-- The engine and its offloader. -/
def State.feed (s : State) : TradeFeed.State Double := ⟨s.loop.engine, s.pending, s.offloader⟩

def State.loopStep (capacity : Capacity) (clock : Nat → Int64) (s : State)
    (i : ProcessLoop.Input Double) : State × List Output :=
  let (loop, out) := ProcessLoop.step capacity clock s.loop i
  ({ s with loop := loop }, out.map .loop)

def State.feedStep (clock : Nat → Int64) (s : State) (i : TradeFeed.Input Double) :
    State × List Output :=
  let (feed, out) := TradeFeed.step clock s.feed i
  ({ s with pending := feed.pending, offloader := feed.offloader }, out.map .feed)

def step (capacity : Capacity) (clock : Nat → Int64) (s : State) : Input → State × List Output
  | .server i =>
    if IsNetwork i ∨ s.Serving then
      let (server, out) := TCPServer.step s.server i
      ({ s with server := server, decoded := s.decoded ++ (received out).map Prod.snd },
        out.map .server)
    else (s, [])
  | .enqueueOrder t1 =>
    match s.decoded, s.loop.gateway with
    | msg :: rest, .idle =>
      { s with decoded := rest }.loopStep capacity clock (.enqueueOrder (msg.order t1 0))
    | _, _ => (s, [])
  | .enqueue spurious => s.loopStep capacity clock (.gateway spurious)
  | .worker =>
    if s.Published then
      match s.loop.worker with
      | .addOrder order =>
        let events := (addOrder clock s.loop.engine order).2.map Fill.event
        { s with pending := events }.loopStep capacity clock .worker
      | _ => s.loopStep capacity clock .worker
    else s.feedStep clock .matching
  | .offloader accepted => s.feedStep clock (.worker accepted)
  | .stop =>
    if s.decoded = [] ∧ s.server.control = .wait then s.loopStep capacity clock .stop else (s, [])
  | .join => s.loopStep capacity clock .join
  | .stopOffloader =>
    if s.loop.stop = .returned then s.feedStep clock .stop else (s, [])
  | .joinOffloader => s.feedStep clock .join

/-! ## Traces -/

def serverOuts (out : List Output) : List TCPServer.Output :=
  out.filterMap fun
    | .server o => some o
    | _ => none

def loopOuts (out : List Output) : List (ProcessLoop.Output Double) :=
  out.filterMap fun
    | .loop o => some o
    | _ => none

def feedOuts (out : List Output) : List (KafkaOffloader.Output (TradeEvent Double)) :=
  out.filterMap fun
    | .feed o => some o
    | _ => none

section Traces
variable (out more : List Output)

@[simp] theorem serverOuts_append : serverOuts (out ++ more) = serverOuts out ++ serverOuts more :=
  List.filterMap_append

@[simp] theorem loopOuts_append : loopOuts (out ++ more) = loopOuts out ++ loopOuts more :=
  List.filterMap_append

@[simp] theorem feedOuts_append : feedOuts (out ++ more) = feedOuts out ++ feedOuts more :=
  List.filterMap_append

theorem outs_server (o : List TCPServer.Output) : serverOuts (o.map .server) = o ∧
    loopOuts (o.map .server) = [] ∧ feedOuts (o.map .server) = [] := by
  simp [serverOuts, loopOuts, feedOuts, List.filterMap_map]

theorem outs_loop (o : List (ProcessLoop.Output Double)) : loopOuts (o.map .loop) = o ∧
    serverOuts (o.map .loop) = [] ∧ feedOuts (o.map .loop) = [] := by
  simp [serverOuts, loopOuts, feedOuts, List.filterMap_map]

theorem outs_feed (o : List (KafkaOffloader.Output (TradeEvent Double))) :
    feedOuts (o.map .feed) = o ∧ serverOuts (o.map .feed) = [] ∧
      loopOuts (o.map .feed) = [] := by
  simp [serverOuts, loopOuts, feedOuts, List.filterMap_map]

theorem received_append (o o' : List TCPServer.Output) :
    received (o ++ o') = received o ++ received o' := List.flatMap_append

end Traces

/-- The orders of the calls of `enqueueOrder`. -/
def called (out : List Output) : List (Order Double) :=
  MPSCQueue.calledBy () (ProcessLoop.queueOuts (loopOuts out))

/-- The orders `addOrder` was called with. -/
def added (out : List Output) : List (Order Double) := ProcessLoop.added (loopOuts out)

/-- The fills of one engine that is given the orders one by one. -/
def fills (clock : Nat → Int64) (orders : List (Order Double)) : List (Fill Double) :=
  outputs (call clock) .init (orders.map .addOrder)

/-- An order without what the gateway adds to its message. -/
def plain (o : Order Double) : Order Double := { o with t1 := 0, seqNo := 0 }

theorem fills_append (clock : Nat → Int64) (orders more : List (Order Double)) :
    fills clock (orders ++ more) = fills clock orders ++
      outputs (call clock) (run (call clock) .init (orders.map .addOrder)).1
        (more.map .addOrder) := by
  rw [fills, List.map_append, outputs_append]
  rfl

/-! ## The invariant -/

structure Inv (capacity : Capacity) (clock : Nat → Int64) (started : Bool) (out : List Output)
    (s : State) : Prop where
  server : TCPServer.Inv (serverOuts out) s.server
  loop : ProcessLoop.Inv capacity clock (loopOuts out) s.loop
  answered : ProcessLoop.Answered (loopOuts out) s.loop
  feed : TradeFeed.Fed started (feedOuts out) s.feed
  orders : (called out).map plain ++ s.decoded.map (·.order 0 0) =
    (received (serverOuts out)).map (·.2.order 0 0)
  events : TradeFeed.calls (feedOuts out) ++ s.pending = (fills clock (added out)).map Fill.event
  publishing : ¬ s.Published → s.loop.worker = .countProcessed
  stopped : s.offloader.stop ≠ .notCalled → s.loop.stop = .returned
  drained : s.loop.stop ≠ .notCalled → s.decoded = []

variable {capacity : Capacity} {clock : Nat → Int64} {started : Bool} {out : List Output}
  {s : State}

theorem inv_start (capacity : Capacity) (clock : Nat → Int64) (started : Bool)
    (order : Order Double) (event : TradeEvent Double) :
    Inv capacity clock started [] (start order event started) where
  server := TCPServer.inv_init
  loop := ProcessLoop.inv_start capacity clock order
  answered := rfl
  feed := TradeFeed.fed_start event started
  orders := rfl
  events := rfl
  publishing h := absurd ⟨rfl, rfl⟩ h
  stopped h := absurd rfl h
  drained h := absurd rfl h

namespace Inv

theorem quiet (h : Inv capacity clock started out s) :
    Inv capacity clock started (out ++ []) s := by
  rw [List.append_nil]
  exact h

/-- What happens on the network, and a step of the server thread in `run`. -/
theorem serve (h : Inv capacity clock started out s) {i : TCPServer.Input}
    (hi : IsNetwork i ∨ s.Serving) :
    Inv capacity clock started (out ++ (step capacity clock s (.server i)).2)
      (step capacity clock s (.server i)).1 := by
  have hserver := h.server.next i
  obtain ⟨hout, hloop, hfeed⟩ := outs_server (TCPServer.step s.server i).2
  -- nothing on the network leads to a message
  have hnetwork : ¬ s.Serving → received (TCPServer.step s.server i).2 = [] := by
    intro hno
    cases i with
    | connect => rfl
    | arrive c bytes =>
      simp only [TCPServer.step]
      split
      · split <;> rfl
      · rfl
    | hangUp c =>
      simp only [TCPServer.step]
      split <;> rfl
    | _ => exact absurd (hi.resolve_left (by simp [IsNetwork])) hno
  simp only [step, if_pos hi]
  refine ⟨?_, ?_, ?_, ?_, ?_, ?_, h.publishing, h.stopped, fun hs => ?_⟩
  · simpa [hout] using hserver
  · simpa [hloop] using h.loop
  · simpa [hloop] using h.answered
  · rw [feedOuts_append, hfeed, List.append_nil]
    exact h.feed
  · have hcalled : called (out ++ (TCPServer.step s.server i).2.map .server) = called out := by
      rw [called, loopOuts_append, hloop, List.append_nil, called]
    rw [hcalled, serverOuts_append, hout, received_append, List.map_append, List.map_append,
      ← h.orders, List.append_assoc, List.map_map]
    rfl
  · rw [feedOuts_append, hfeed, List.append_nil, added, loopOuts_append, hloop, List.append_nil]
    exact h.events
  · change s.decoded ++ _ = []
    rw [h.drained hs, hnetwork fun hserving => hs hserving.2.2]
    rfl

/-- A step of `processLoop`, `enqueueOrder` or `stop` that calls no `addOrder`. -/
theorem loopStep (h : Inv capacity clock started out s) {i : ProcessLoop.Input Double}
    (hquiet : (ProcessLoop.step capacity clock s.loop i).1.engine = s.loop.engine ∧
      ProcessLoop.added (ProcessLoop.step capacity clock s.loop i).2 = [])
    (hworker : ¬ s.Published → (ProcessLoop.step capacity clock s.loop i).1.worker = s.loop.worker)
    {decoded : List OrderMessage}
    (horders : (MPSCQueue.calledBy () (ProcessLoop.queueOuts
        (ProcessLoop.step capacity clock s.loop i).2)).map plain ++ decoded.map (·.order 0 0) =
      s.decoded.map (·.order 0 0))
    (hdrained : (ProcessLoop.step capacity clock s.loop i).1.stop ≠ .notCalled → decoded = []) :
    Inv capacity clock started
      (out ++ ({ s with decoded := decoded }.loopStep capacity clock i).2)
      ({ s with decoded := decoded }.loopStep capacity clock i).1 := by
  obtain ⟨hout, hserver, hfeed⟩ := outs_loop (ProcessLoop.step capacity clock s.loop i).2
  dsimp only [State.loopStep]
  refine ⟨?_, ?_, ?_, ?_, ?_, ?_, fun hno => ?_, fun hs => ?_, hdrained⟩
  · simpa [hserver] using h.server
  · simpa [hout] using h.loop.next i
  · simpa [hout] using h.answered.next h.loop i
  · rw [feedOuts_append, hfeed, List.append_nil]
    dsimp only [State.feed]
    rw [hquiet.1]
    exact h.feed
  · rw [called, loopOuts_append, hout, serverOuts_append, hserver, List.append_nil, ← h.orders,
      ProcessLoop.queueOuts_append, MPSCQueue.calledBy_append, List.map_append, List.append_assoc,
      horders]
    rfl
  · rw [feedOuts_append, hfeed, List.append_nil, added, loopOuts_append, hout,
      ProcessLoop.added_append, hquiet.2, List.append_nil]
    exact h.events
  · exact (hworker hno).trans (h.publishing hno)
  · exact ProcessLoop.step_returned (h.stopped hs) i

/-- A step of the offloader, of what publishes to it, or of what stops it. -/
theorem feedStep (h : Inv capacity clock started out s) {i : TradeFeed.Input Double}
    (hi : ∀ c, i ≠ .call c)
    (hcalls : TradeFeed.calls (TradeFeed.step clock s.feed i).2 ++
      (TradeFeed.step clock s.feed i).1.pending = s.pending)
    (hpublishing : ¬ (s.feedStep clock i).1.Published → ¬ s.Published)
    (hstopped : (TradeFeed.step clock s.feed i).1.offloader.stop ≠ .notCalled →
      s.loop.stop = .returned) :
    Inv capacity clock started (out ++ (s.feedStep clock i).2) (s.feedStep clock i).1 := by
  obtain ⟨hout, hserver, hloop⟩ := outs_feed (TradeFeed.step clock s.feed i).2
  have hfeed : (s.feedStep clock i).1.feed = (TradeFeed.step clock s.feed i).1 := by
    have hengine : (TradeFeed.step clock s.feed i).1.engine = s.feed.engine :=
      TradeFeed.step_engine hi
    change (⟨s.feed.engine, _, _⟩ : TradeFeed.State Double) = _
    rw [← hengine]
    rfl
  refine ⟨?_, ?_, ?_, ?_, ?_, ?_, fun hno => h.publishing (hpublishing hno), hstopped, h.drained⟩
  · simpa [State.feedStep, hserver] using h.server
  · simpa [State.feedStep, hloop] using h.loop
  · simpa [State.feedStep, hloop] using h.answered
  · rw [hfeed]
    simpa [State.feedStep, hout] using h.feed.next clock i
  · simpa [State.feedStep, hserver, hloop, called] using h.orders
  · have hevents := h.events
    rw [← hcalls, ← List.append_assoc, ← TradeFeed.calls_append] at hevents
    simpa [State.feedStep, hout, hloop, added] using hevents

/-- A call of `addOrder`. -/
theorem addOrder (h : Inv capacity clock started out s) (hpublished : s.Published)
    {order : Order Double} (hw : s.loop.worker = .addOrder order) :
    Inv capacity clock started
      (out ++ ({ s with pending := (Engine.addOrder clock s.loop.engine order).2.map Fill.event
        }.loopStep capacity clock .worker).2)
      ({ s with pending := (Engine.addOrder clock s.loop.engine order).2.map Fill.event
        }.loopStep capacity clock .worker).1 := by
  have hloop := h.loop.next .worker
  have hanswered := h.answered.next h.loop .worker
  have hno : s.offloader.stop = .notCalled := by
    by_contra hstop
    have hexited := h.loop.returned (h.stopped hstop)
    rw [hw] at hexited
    cases hexited
  have hfeed := h.feed.call clock hpublished.1 hno (.addOrder order)
  have hevents := h.events
  have hstop : (ProcessLoop.workerStep capacity clock s.loop).1.stop = s.loop.stop :=
    ProcessLoop.workerStep_stop s.loop
  rw [hpublished.1, List.append_nil] at hevents
  simp only [ProcessLoop.step, ProcessLoop.workerStep, hw] at hloop hanswered hstop
  simp only [State.loopStep, ProcessLoop.step, ProcessLoop.workerStep, hw]
  refine ⟨?_, ?_, ?_, ?_, ?_, ?_, fun _ => rfl, fun hs => ?_, fun hs => h.drained hs⟩
  · simpa [serverOuts] using h.server
  · simpa [loopOuts] using hloop
  · simpa [loopOuts] using hanswered
  · rw [feedOuts_append, (outs_loop _).2.2, List.append_nil]
    exact hfeed
  · simpa [called, loopOuts, serverOuts, ProcessLoop.queueOuts] using h.orders
  · have hadded : added (out ++ [.loop (.added order)]) = added out ++ [order] := by
      simp [added, loopOuts, ProcessLoop.added]
    rw [List.map_singleton, hadded, fills_append, List.map_append, ← hevents]
    have hengine := h.loop.engine
    rw [show ProcessLoop.added (loopOuts out) = added out from rfl] at hengine
    simp [feedOuts, ← hengine, call]
  · exact absurd hno hs

/-- A step of the offloader thread, or of what stops it. -/
theorem offload (h : Inv capacity clock started out s) {i : TradeFeed.Input Double}
    {j : KafkaOffloader.Input (TradeEvent Double)}
    (hstep : TradeFeed.step clock s.feed i = s.feed.offload j) (hi : ∀ c, i ≠ .call c)
    (hj : j ≠ .matching ∧ ∀ event, j ≠ .publish event)
    (hstopped : (KafkaOffloader.step s.offloader j).1.stop ≠ .notCalled →
      s.loop.stop = .returned) :
    Inv capacity clock started (out ++ (s.feedStep clock i).2) (s.feedStep clock i).1 := by
  refine h.feedStep hi ?_ ?_ ?_
  · rw [hstep]
    exact congrArg (· ++ s.pending) (TradeFeed.calls_step hj.2)
  · dsimp only [State.feedStep, State.Published]
    rw [hstep]
    exact fun hno hpublished =>
      hno ⟨hpublished.1, (TradeFeed.step_publisher hj.1 hj.2).trans hpublished.2⟩
  · rw [hstep]
    exact hstopped

/-- **Every step keeps the invariant.** -/
theorem next (h : Inv capacity clock started out s) (i : Input) :
    Inv capacity clock started (out ++ (step capacity clock s i).2)
      (step capacity clock s i).1 := by
  cases i with
  | server i =>
    by_cases hi : IsNetwork i ∨ s.Serving
    · exact h.serve hi
    · simp only [step, if_neg hi]
      exact h.quiet
  | enqueueOrder t1 =>
    simp only [step]
    split
    · rename_i msg rest hdecoded hg
      have hs : s.loop.stop = .notCalled := by
        by_contra hno
        rw [h.drained hno] at hdecoded
        cases hdecoded
      have hother := ProcessLoop.step_other capacity clock s.loop
        (show ProcessLoop.Input.enqueueOrder (msg.order t1 0) ≠ .worker by simp)
      refine h.loopStep hother.2 (fun _ => hother.1) ?_ fun hno =>
        absurd (ProcessLoop.step_notCalled hs (by simp)) hno
      rw [h.loop.calledBy_enqueueOrder hg hs, hdecoded]
      rfl
    · exact h.quiet
  | enqueue spurious =>
    have hother := ProcessLoop.step_other capacity clock s.loop
      (show ProcessLoop.Input.gateway spurious ≠ .worker by simp)
    exact h.loopStep hother.2 (fun _ => hother.1) (by rw [ProcessLoop.calledBy_step (by simp)]; rfl)
      fun hs => h.drained fun hno => hs (ProcessLoop.step_notCalled hno (by simp))
  | worker =>
    simp only [step]
    by_cases hpublished : s.Published
    · rw [if_pos hpublished]
      split
      · rename_i order hw
        exact h.addOrder hpublished hw
      · rename_i hw
        exact h.loopStep (i := .worker) (ProcessLoop.workerStep_quiet hw) (absurd hpublished)
          (by rw [ProcessLoop.calledBy_step (by simp)]; rfl)
          fun hs => h.drained fun hno => hs (ProcessLoop.step_notCalled hno (by simp))
    · rw [if_neg hpublished]
      refine h.feedStep (by simp) h.feed.calls_matching (fun _ => hpublished) fun hs =>
        h.stopped fun hno => hs ?_
      simp only [TradeFeed.step]
      split <;> exact TradeFeed.stop_step (by simp) hno
  | offloader accepted =>
    exact h.offload rfl (by simp) ⟨by simp, by simp⟩ fun hs =>
      h.stopped fun hno => hs (TradeFeed.stop_step (by simp) hno)
  | stop =>
    simp only [step]
    by_cases hstop : s.decoded = [] ∧ s.server.control = .wait
    · rw [if_pos hstop]
      have hother := ProcessLoop.step_other capacity clock s.loop
        (show ProcessLoop.Input.stop ≠ .worker by simp)
      exact h.loopStep hother.2 (fun _ => hother.1)
        (by rw [ProcessLoop.calledBy_step (by simp)]; rfl) fun _ => hstop.1
    · rw [if_neg hstop]
      exact h.quiet
  | join =>
    have hother := ProcessLoop.step_other capacity clock s.loop
      (show ProcessLoop.Input.join ≠ .worker by simp)
    exact h.loopStep hother.2 (fun _ => hother.1) (by rw [ProcessLoop.calledBy_step (by simp)]; rfl)
      fun hs => h.drained fun hno => hs (ProcessLoop.step_notCalled hno (by simp))
  | stopOffloader =>
    simp only [step]
    by_cases hreturned : s.loop.stop = .returned
    · rw [if_pos hreturned]
      have hpublished : s.Published := by
        by_contra hno
        have hexited := h.loop.returned hreturned
        rw [h.publishing hno] at hexited
        cases hexited
      refine h.offload (j := .stop) ?_ (by simp) ⟨by simp, by simp⟩ fun _ => hreturned
      simp only [TradeFeed.step, State.feed, hpublished.1]
    · rw [if_neg hreturned]
      exact h.quiet
  | joinOffloader =>
    exact h.offload (i := .join) rfl (by simp) ⟨by simp, by simp⟩ fun hs =>
      h.stopped fun hno => hs (TradeFeed.stop_step (by simp) hno)

end Inv

theorem inv_run (capacity : Capacity) (clock : Nat → Int64) (started : Bool)
    (order : Order Double) (event : TradeEvent Double) (inputs : List Input) :
    Inv capacity clock started
      (outputs (step capacity clock) (start order event started) inputs)
      (run (step capacity clock) (start order event started) inputs).1 :=
  invariant_run (fun _ out s => Inv capacity clock started out s) (fun _ _ _ i h _ => h.next i)
    (inv_start capacity clock started order event) (guarded_true _ _ _ inputs)

end TradePlat.Pipeline
