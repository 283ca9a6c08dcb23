import TradePlat.Engine.Totals
import TradePlat.Gateway.Frames
import TradePlat.System.EventAccount
import TradePlat.System.Pipeline
import TradePlat.Telemetry.Books

/-!
# From the bytes of the bots to the books of the scorer

What the parts do together, for every interleaving of their threads:

* `events_justified`: every event handed to `produce` is a fill of one engine that was
  given orders one by one, its buy and its sell among them; each is the order of a message
  that arrived, in the order of arrival, and the messages of a connection are those of its
  own bytes;
* `quiescent_run_balanced`: where everything was read and nothing was dropped, refused or
  is still on its way, the engine got an order for every message in the bytes that
  arrived, and the scorer's books and the order book add up to the quantities of the
  messages; `clean_run_balanced`: so it is where all threads were stopped.
-/

namespace TradePlat.KafkaOffloader
open Runs

variable {E : Type} {started : Bool} {out : List (Output E)} {s : State E}

theorem answered_sublist {α : Type} (b : Bool) (l : List (α × Bool)) :
    (answered b l).Sublist (l.map Prod.fst) := List.filter_sublist.map _

/-- The batches hold events of the calls of `publish`, in their order and each once. -/
theorem Traced.batches_sublist (h : Traced started out s) :
    (batches out).flatten.Sublist (SPSCQueue.called (queueOuts out)) := by
  have hbatches : (batches out).flatten.Sublist (SPSCQueue.popped (queueOuts out)) := by
    rw [h.popped]
    exact List.sublist_append_left _ _
  have hpopped : (SPSCQueue.popped (queueOuts out)).Sublist (SPSCQueue.pushed (queueOuts out)) := by
    rw [h.queue.taken]
    exact List.take_sublist _ _
  have hpushed : (SPSCQueue.pushed (queueOuts out)).Sublist (SPSCQueue.called (queueOuts out)) := by
    rw [h.pushed, h.calls]
    refine (answered_sublist true _).append ?_
    cases s.publisher with
    | countPublished event => exact List.Sublist.refl _
    | idle | tryPush | countDropped | countTradeEventsDropped => exact List.nil_sublist _
  exact (hbatches.trans hpopped).trans hpushed

/-- Where nothing was dropped and the publisher is behind its last event, every call was
published. -/
theorem Traced.published_calls (h : Traced started out s) (hidle : s.publisher = .idle)
    (hdropped : s.tradeEventsDropped = 0) :
    published out = SPSCQueue.called (queueOuts out) := by
  have hcalls := h.calls
  have hcount := h.dropped
  have htrade := h.tradeEventsDropped
  rw [hidle] at hcalls htrade
  rw [hdropped] at htrade
  simp only [Publish.event, Publish.uncounted, List.append_nil, Nat.add_zero] at hcalls htrade
  rw [← htrade] at hcount
  rw [published, answered_true (List.eq_nil_of_length_eq_zero hcount.symm), hcalls]

end TradePlat.KafkaOffloader

namespace TradePlat.ProcessLoop
open Runs Engine RingCells

variable {P : Type} [LT P] [DecidableLT P] {capacity : Capacity} {clock : Nat → Int64}
  {out : List (Output P)} {s : State P}

/-- The accepted orders are those of calls, in their order. -/
theorem Inv.accepted_sublist (h : Inv capacity clock out s) :
    (accepted out).Sublist (MPSCQueue.calledBy () (queueOuts out)) := by
  have haccount := h.queue.account ()
  refine List.Sublist.trans ?_ haccount.called
  rw [haccount.returned, List.append_assoc]
  exact List.sublist_append_left _ _

/-- Where nothing was dropped, every call that returned put its order into the queue. -/
theorem Inv.accepted_calls (h : Inv capacity clock out s) (ha : Answered out s)
    (hg : s.gateway = .idle) (hdropped : s.ordersDropped = 0) :
    accepted out = MPSCQueue.calledBy () (queueOuts out) := by
  refine h.accepted_sublist.eq_of_length ?_
  have hseq := congrArg List.length h.seqNos
  rw [List.length_map, List.length_range'] at hseq
  have hdrops := h.dropped
  rw [Answered, hg, completed] at ha
  rw [hseq, ← ha, ← hdrops, hdropped]
  rfl

end TradePlat.ProcessLoop

namespace TradePlat.Pipeline
open Runs Binary64 Engine Gateway RingCells Telemetry

variable {capacity : Capacity} {clock : Nat → Int64} {started : Bool} {out : List Output}
  {s : State}

/-! ## Messages -/

/-- The messages of a connection among those of all. -/
def messagesOf (c : Nat) (messages : List (Nat × OrderMessage)) : List OrderMessage :=
  (messages.filter fun message => message.1 = c).map Prod.snd

theorem messagesOf_received (c : Nat) (out : List TCPServer.Output) :
    messagesOf c (received out) = Ingress.messages (TCPServer.actionsOn c out) := by
  induction out with
  | nil => rfl
  | cons o out ih =>
    have hcons : received (o :: out) = received [o] ++ received out := received_append [o] out
    have hactions : TCPServer.actionsOn c (o :: out) =
        TCPServer.actionsOn c [o] ++ TCPServer.actionsOn c out := TCPServer.actionsOn_append c [o] out
    have hmessages : ∀ actions more : List Action, Ingress.messages (actions ++ more) =
        Ingress.messages actions ++ Ingress.messages more := fun _ _ => List.filterMap_append
    have hone : messagesOf c (received [o]) = Ingress.messages (TCPServer.actionsOn c [o]) := by
      cases o with
      | arrived c' bytes => rfl
      | handled c' bytes actions =>
        rw [TCPServer.actionsOn_handled]
        by_cases hc : c' = c
        · simp [received, messagesOf, hc, List.filter_map, Function.comp_def]
        · simp [received, messagesOf, hc, List.filter_map, Function.comp_def, Ingress.messages]
    rw [hcons, hactions, hmessages, ← ih, ← hone, messagesOf, List.filter_append, List.map_append]
    rfl

namespace Inv

/-- The orders of the calls of `enqueueOrder` are those of the first messages. -/
theorem called_messages (h : Inv capacity clock started out s) :
    (called out).map plain <+: (received (serverOuts out)).map (·.2.order 0 0) := by
  rw [← h.orders]
  exact List.prefix_append _ _

theorem called_seqNos (h : Inv capacity clock started out s) :
    (called out).map Order.seqNo = List.range' 1 (called out).length := by
  have hseq := h.loop.seqNos
  have hlen := congrArg List.length hseq
  rw [List.length_map, List.length_range'] at hlen
  rw [called, hseq, hlen]

theorem produced_fills (h : Inv capacity clock started out s) :
    (KafkaOffloader.batches (feedOuts out)).flatten.Sublist
      ((fills clock (added out)).map Fill.event) := by
  have hevents := h.events
  rw [TradeFeed.calls] at hevents
  rw [← hevents]
  exact h.feed.offloader.batches_sublist.trans (List.sublist_append_left _ _)

/-- Every event in a batch is a trade of a buy and a sell that the engine was given. -/
theorem events_parties (h : Inv capacity clock started out s) :
    ∀ event ∈ (KafkaOffloader.batches (feedOuts out)).flatten,
      ∃ buy ∈ added out, ∃ sell ∈ added out,
        buy.isBuy = true ∧ sell.isBuy = false ∧ event.buyOrderId = buy.wire ∧
          event.sellOrderId = sell.wire ∧ (event.price = buy.price ∨ event.price = sell.price) := by
  intro event hevent
  obtain ⟨f, hf, rfl⟩ := List.mem_map.mp (h.produced_fills.subset hevent)
  obtain ⟨⟨buy, hbuy, hvbuy⟩, ⟨sell, hsell, hvsell⟩, n, hmade⟩ :=
    parties_submitted clock (added out) f hf
  rw [fills, (run_addOrder clock _).2] at hf
  have hsides := (sided_run clock _).2 f hf
  refine ⟨buy, hbuy, sell, hsell, ?_, ?_, ?_, ?_, ?_⟩
  · rw [← hvbuy.isBuy]
    exact hsides true
  · rw [← hvsell.isBuy]
    exact hsides false
  · rw [hmade, Order.wire, ← hvbuy.orderId]
    rfl
  · rw [hmade, Order.wire, ← hvsell.orderId]
    rfl
  · rw [hmade, ← hvbuy.price, ← hvsell.price]
    change executionPrice f.buy f.sell = _ ∨ executionPrice f.buy f.sell = _
    unfold executionPrice
    split
    · exact Or.inl rfl
    · exact Or.inr rfl

end Inv

/-- **Every event has its orders.** In every run: the events of the batches are, in order
and each once, among the fills of one engine that was given the orders `added` one by
one, and each is a trade of a buy and a sell of these, at the price of one of them; they
are orders of calls of `enqueueOrder`, in the order of the calls; the calls make the
orders of the messages received, in order, with the sequence numbers from 1 on; and the
messages of each connection are those of the bytes read of it, the first ones that
arrived on it. -/
theorem events_justified (capacity : Capacity) (clock : Nat → Int64) (started : Bool)
    (order : Order Double) (event : TradeEvent Double) (inputs : List Input) :
    let out := outputs (step capacity clock) (start order event started) inputs
    let events := (KafkaOffloader.batches (feedOuts out)).flatten
    events.Sublist ((fills clock (added out)).map Fill.event) ∧
    (∀ event ∈ events, ∃ buy ∈ added out, ∃ sell ∈ added out,
      buy.isBuy = true ∧ sell.isBuy = false ∧ event.buyOrderId = buy.wire ∧
        event.sellOrderId = sell.wire ∧ (event.price = buy.price ∨ event.price = sell.price)) ∧
    (added out).Sublist (called out) ∧
    (called out).map plain <+: (received (serverOuts out)).map (·.2.order 0 0) ∧
    (called out).map Order.seqNo = List.range' 1 (called out).length ∧
    ∀ c, (TCPServer.readOn c (serverOuts out)).flatten <+:
        TCPServer.arrivedOn c (serverOuts out) ∧
      messagesOf c (received (serverOuts out)) = Ingress.messages
        (outputs handleRead (some .fresh) [(TCPServer.readOn c (serverOuts out)).flatten]) := by
  intro out events
  have h := inv_run capacity clock started order event inputs
  refine ⟨h.produced_fills, h.events_parties,
    h.loop.added_prefix.sublist.trans h.loop.accepted_sublist, h.called_messages,
    h.called_seqNos, fun c => ?_⟩
  obtain ⟨hread, hactions⟩ := h.server.isolated c
  exact ⟨hread, by rw [messagesOf_received, hactions]⟩

/-! ## Runs that lose nothing -/

/-- The messages of the topic: Kafka is taken to keep the accepted ones, each once and in
their order. -/
def topic (out : List Output) : List Bytes :=
  (KafkaOffloader.answered true (KafkaOffloader.produced (feedOuts out))).map
    (List.flatMap packed)

/-- Everything was read, nothing was dropped, refused or left in a queue, and all threads
have ended. -/
structure Clean (out : List Output) (s : State) : Prop where
  idle : s.server.Idle
  stopped : s.loop.stop = .returned
  inQueue : s.loop.inQueue = 0
  ordersDropped : s.loop.ordersDropped = 0
  offloader : s.offloader.stop = .returned
  tradeEventsDropped : s.offloader.tradeEventsDropped = 0
  accepted : KafkaOffloader.answered false (KafkaOffloader.produced (feedOuts out)) = []

instance (out : List Output) (s : State) : Decidable (Clean out s) :=
  decidable_of_iff (s.server.Idle ∧ s.loop.stop = .returned ∧ s.loop.inQueue = 0 ∧
      s.loop.ordersDropped = 0 ∧ s.offloader.stop = .returned ∧
      s.offloader.tradeEventsDropped = 0 ∧
      KafkaOffloader.answered false (KafkaOffloader.produced (feedOuts out)) = [])
    ⟨fun ⟨h₁, h₂, h₃, h₄, h₅, h₆, h₇⟩ => ⟨h₁, h₂, h₃, h₄, h₅, h₆, h₇⟩,
      fun ⟨h₁, h₂, h₃, h₄, h₅, h₆, h₇⟩ => ⟨h₁, h₂, h₃, h₄, h₅, h₆, h₇⟩⟩

/-- Everything was read, nothing was dropped or refused, and nothing is left in a queue or
in the hands of a thread, whether the threads go on or have ended. -/
structure Quiescent (out : List Output) (s : State) : Prop where
  idle : s.server.Idle
  decoded : s.decoded = []
  gateway : s.loop.gateway = .idle
  inQueue : s.loop.inQueue = 0
  inHands : s.loop.inHands = 0
  ordersDropped : s.loop.ordersDropped = 0
  published : s.Published
  depth : s.offloader.queue.depth = 0
  inBatch : s.offloader.worker.inBatch = 0
  tradeEventsDropped : s.offloader.tradeEventsDropped = 0
  accepted : KafkaOffloader.answered false (KafkaOffloader.produced (feedOuts out)) = []

instance (out : List Output) (s : State) : Decidable (Quiescent out s) :=
  decidable_of_iff (s.server.Idle ∧ s.decoded = [] ∧ s.loop.gateway = .idle ∧
      s.loop.inQueue = 0 ∧ s.loop.inHands = 0 ∧ s.loop.ordersDropped = 0 ∧ s.Published ∧
      s.offloader.queue.depth = 0 ∧ s.offloader.worker.inBatch = 0 ∧
      s.offloader.tradeEventsDropped = 0 ∧
      KafkaOffloader.answered false (KafkaOffloader.produced (feedOuts out)) = [])
    ⟨fun ⟨h₁, h₂, h₃, h₄, h₅, h₆, h₇, h₈, h₉, h₁₀, h₁₁⟩ =>
        ⟨h₁, h₂, h₃, h₄, h₅, h₆, h₇, h₈, h₉, h₁₀, h₁₁⟩,
      fun ⟨h₁, h₂, h₃, h₄, h₅, h₆, h₇, h₈, h₉, h₁₀, h₁₁⟩ =>
        ⟨h₁, h₂, h₃, h₄, h₅, h₆, h₇, h₈, h₉, h₁₀, h₁₁⟩⟩

namespace Inv

/-- A clean end is quiescent. -/
theorem quiescent (h : Inv capacity clock true out s) (hclean : Clean out s) :
    Quiescent out s := by
  have hoffloader := h.feed.offloader
  obtain ⟨hdepth, hbatch⟩ := hoffloader.stopped_depth hclean.offloader
  exact {
    idle := hclean.idle
    decoded := h.drained (by rw [hclean.stopped]; simp)
    gateway := h.loop.stopped (by rw [hclean.stopped]; simp)
    inQueue := hclean.inQueue
    inHands := h.loop.returned_hands hclean.stopped
    ordersDropped := hclean.ordersDropped
    published := ⟨h.feed.stopped (by change s.offloader.stop ≠ _; rw [hclean.offloader]; simp),
      hoffloader.publisher_idle hclean.offloader⟩
    depth := hdepth
    inBatch := hbatch
    tradeEventsDropped := hclean.tradeEventsDropped
    accepted := hclean.accepted }

/-- Every call reached the engine. -/
theorem added_called (h : Inv capacity clock started out s) (hquiet : Quiescent out s) :
    added out = called out :=
  (h.loop.added_accepted hquiet.inQueue hquiet.inHands).trans
    (h.loop.accepted_calls h.answered hquiet.gateway hquiet.ordersDropped)

/-- Every message was handed to `enqueueOrder`. -/
theorem called_received (h : Inv capacity clock started out s) (hquiet : Quiescent out s) :
    (called out).map plain = (received (serverOuts out)).map (·.2.order 0 0) := by
  have horders := h.orders
  rw [hquiet.decoded] at horders
  simpa using horders

/-- The batches hold the events of all fills. -/
theorem batches_fills (h : Inv capacity clock started out s) (hquiet : Quiescent out s) :
    (KafkaOffloader.batches (feedOuts out)).flatten =
      (fills clock (called out)).map Fill.event := by
  have hevents := h.events
  have hoffloader := h.feed.offloader
  obtain ⟨hpending, hpublisher⟩ := hquiet.published
  rw [hpending, List.append_nil, h.added_called hquiet] at hevents
  rw [← hevents, TradeFeed.calls,
    hoffloader.batches_emptied hpublisher hquiet.depth hquiet.inBatch]
  exact hoffloader.published_calls hpublisher hquiet.tradeEventsDropped

/-- The match ids fit their field where the counter does. -/
theorem batches_fit (h : Inv capacity clock started out s)
    (hids : s.loop.engine.nextMatchId < 2 ^ 64) :
    ∀ batch ∈ KafkaOffloader.batches (feedOuts out), ∀ event ∈ batch, event.matchId < 2 ^ 64 := by
  intro batch hbatch event hevent
  have hcalled := h.feed.offloader.batches_sublist.subset
    (List.mem_flatten.mpr ⟨batch, hbatch, hevent⟩)
  have hrange := h.feed.ids
  have hmem : event.matchId ∈ List.range' 1 s.loop.engine.nextMatchId := by
    change _ = List.range' 1 s.loop.engine.nextMatchId at hrange
    rw [← hrange]
    exact List.mem_map_of_mem (List.mem_append_left _ hcalled)
  have := (List.mem_range'_1.mp hmem).2
  omega

/-- The scorer does with the topic what it does with the events of all fills. -/
theorem consume_topic (h : Inv capacity clock started out s) (hquiet : Quiescent out s)
    (hids : s.loop.engine.nextMatchId < 2 ^ 64) (str : Double → String) (now : Nat → Rat)
    (state : Scorer.ContestantState) :
    consume str now state (topic out) = .ok (process str now state
      (Scorer.events clock ((called out).map .addOrder))) := by
  have hbatches := h.batches_fills hquiet
  have hfit := h.batches_fit hids
  have htopic : topic out =
      (KafkaOffloader.batches (feedOuts out)).map (List.flatMap packed) := by
    rw [topic, KafkaOffloader.answered_true hquiet.accepted]
    rfl
  generalize KafkaOffloader.batches (feedOuts out) = batches at hbatches hfit htopic
  lift batches to List (List PackedEvent) using hfit
  have hpayload : topic out = batches.map payload := by
    rw [htopic, List.map_map]
    refine List.map_congr_left fun batch _ => ?_
    exact List.flatMap_map ..
  rw [hpayload, consume_payloads]
  have hevents : batches.flatten.map (fun event => Scorer.unpacked event.1) =
      Scorer.events clock ((called out).map .addOrder) := by
    have hmap := congrArg (List.map Scorer.unpacked) hbatches
    rw [← List.map_flatten, List.map_map, List.map_map] at hmap
    exact hmap
  rw [hevents]

end Inv

/-- What has come to rest balances. -/
theorem Inv.balanced (h : Inv capacity clock started out s) (hquiet : Quiescent out s) :
    (∀ c, messagesOf c (received (serverOuts out)) = Ingress.messages
      (outputs handleRead (some .fresh) [TCPServer.arrivedOn c (serverOuts out)])) ∧
    (called out).map plain = (received (serverOuts out)).map (·.2.order 0 0) ∧
    s.loop.engine = (run (call clock) .init ((called out).map .addOrder)).1 ∧
    ((∀ n, clock n ≤ clock (n + 1)) → s.loop.engine.nextMatchId < 2 ^ 64 →
      Guarded (call clock) (Scorer.Scorable clock) [] .init ((called out).map .addOrder) →
      ∀ str now windowSeconds, ∃ final,
        consume str now (.new windowSeconds) (topic out) = .ok final ∧
        Balanced clock (called out) final) := by
  have hengine : s.loop.engine = (run (call clock) .init ((called out).map .addOrder)).1 := by
    rw [← h.added_called hquiet]
    exact h.loop.engine
  refine ⟨fun c => ?_, h.called_received hquiet, hengine,
    fun hclock hids hscorable str now windowSeconds => ?_⟩
  · rw [messagesOf_received, h.server.complete hquiet.idle c]
  · exact ⟨_, h.consume_topic hquiet hids str now _,
      process_balanced hclock hscorable str now windowSeconds⟩

/-- **A clean run balances.** Where everything that arrived was read, nothing was dropped,
refused or left behind and all threads have ended, in whatever order they ran: the
messages of each connection are those of all its bytes; the engine was given the order of
every message, in the order of arrival; and if the scorer has nothing to object to these
orders, it reads the topic to its end without a violation, has an event for every match,
and what `order_fills` has of each order and what rests of it in the book are together
the quantity of its message. -/
theorem clean_run_balanced (capacity : Capacity) (clock : Nat → Int64) (order : Order Double)
    (event : TradeEvent Double) (inputs : List Input)
    (hclean : Clean (outputs (step capacity clock) (start order event true) inputs)
      (run (step capacity clock) (start order event true) inputs).1) :
    let out := outputs (step capacity clock) (start order event true) inputs
    let s := (run (step capacity clock) (start order event true) inputs).1
    (∀ c, messagesOf c (received (serverOuts out)) = Ingress.messages
      (outputs handleRead (some .fresh) [TCPServer.arrivedOn c (serverOuts out)])) ∧
    (called out).map plain = (received (serverOuts out)).map (·.2.order 0 0) ∧
    s.loop.engine = (run (call clock) .init ((called out).map .addOrder)).1 ∧
    ((∀ n, clock n ≤ clock (n + 1)) → s.loop.engine.nextMatchId < 2 ^ 64 →
      Guarded (call clock) (Scorer.Scorable clock) [] .init ((called out).map .addOrder) →
      ∀ str now windowSeconds, ∃ final,
        consume str now (.new windowSeconds) (topic out) = .ok final ∧
        Balanced clock (called out) final) := by
  intro out s
  have h : Inv capacity clock true out s := inv_run capacity clock true order event inputs
  exact h.balanced (h.quiescent hclean)

/-- A sell of five and a buy of three at 10, in one frame behind the request. -/
def sellThenBuy : Bytes :=
  let messages := [(1, "S", 5), (2, "B", 3)].flatMap fun (id, side, qty) =>
    ((Bot.before id).formatOrder 5 side qty ⟨0x4024000000000000⟩).2.getD []
  upgradeRequest ++ (websocketBinaryFrame (fun _ => 7) messages).getD []

/-- The connection, up to the read of its bytes. -/
def sellThenBuyArrives : List TCPServer.Input :=
  [.connect, .arrive 0 sellThenBuy, .epollWait [.listener], .next, .accept (some 5), .accept none,
    .next, .epollWait [.client 5], .next, .read 8192]

/-- The worker takes the first order before the second one is enqueued. -/
def sellThenBuyTrades : List Input :=
  List.flatten [sellThenBuyArrives.map .server,
    .enqueueOrder 7 :: List.replicate 5 (.enqueue false), List.replicate 8 .worker,
    .enqueueOrder 8 :: List.replicate 5 (.enqueue false),
    [.server (.read 8192), .server .next], List.replicate 11 .worker]

def sellThenBuyRun : List Input :=
  List.flatten [sellThenBuyTrades, List.replicate 3 (.offloader true), List.replicate 3 .worker,
    [.stop, .worker, .join, .stopOffloader], List.replicate 20 (.offloader true),
    [.joinOffloader]]

theorem sellThenBuyRun_balanced :
    let machine := run (step ProcessLoop.queueCapacity fun _ => 9)
      (start ProcessLoop.oneOrder TradeFeed.emptyEvent true) sellThenBuyRun
    machine.1.loop.engine.nextMatchId = 1 ∧ (called machine.2.flatten).length = 2 ∧
      ∃ final, consume (fun _ => "") (fun _ => 0) (.new 60) (topic machine.2.flatten) =
          .ok final ∧ Balanced (fun _ => 9) (called machine.2.flatten) final :=
  ⟨by decide +kernel, by decide +kernel,
    (clean_run_balanced ProcessLoop.queueCapacity (fun _ => 9) ProcessLoop.oneOrder
      TradeFeed.emptyEvent sellThenBuyRun (by decide +kernel)).2.2.2 (fun _ => by decide)
      (by decide +kernel) (by decide +kernel) _ _ _⟩

/-- **What has come to rest balances.** The same at any moment of a run at which everything
that arrived was read, nothing was dropped or refused and nothing is in a queue or in the
hands of a thread: no thread has to be stopped, and `main` stops none. -/
theorem quiescent_run_balanced (capacity : Capacity) (clock : Nat → Int64) (started : Bool)
    (order : Order Double) (event : TradeEvent Double) (inputs : List Input)
    (hquiet : Quiescent (outputs (step capacity clock) (start order event started) inputs)
      (run (step capacity clock) (start order event started) inputs).1) :
    let out := outputs (step capacity clock) (start order event started) inputs
    let s := (run (step capacity clock) (start order event started) inputs).1
    (∀ c, messagesOf c (received (serverOuts out)) = Ingress.messages
      (outputs handleRead (some .fresh) [TCPServer.arrivedOn c (serverOuts out)])) ∧
    (called out).map plain = (received (serverOuts out)).map (·.2.order 0 0) ∧
    s.loop.engine = (run (call clock) .init ((called out).map .addOrder)).1 ∧
    ((∀ n, clock n ≤ clock (n + 1)) → s.loop.engine.nextMatchId < 2 ^ 64 →
      Guarded (call clock) (Scorer.Scorable clock) [] .init ((called out).map .addOrder) →
      ∀ str now windowSeconds, ∃ final,
        consume str now (.new windowSeconds) (topic out) = .ok final ∧
        Balanced clock (called out) final) := by
  intro out s
  have h : Inv capacity clock started out s := inv_run capacity clock started order event inputs
  exact h.balanced hquiet

/-- The same orders, and no thread is stopped. -/
def sellThenBuyRest : List Input :=
  List.flatten [sellThenBuyTrades, List.replicate 4 .worker,
    List.replicate 12 (.offloader true)]

theorem sellThenBuyRest_balanced :
    let machine := run (step ProcessLoop.queueCapacity fun _ => 9)
      (start ProcessLoop.oneOrder TradeFeed.emptyEvent true) sellThenBuyRest
    machine.1.loop.isRunning = true ∧ machine.1.loop.engine.nextMatchId = 1 ∧
      (called machine.2.flatten).length = 2 ∧
      ∃ final, consume (fun _ => "") (fun _ => 0) (.new 60) (topic machine.2.flatten) =
          .ok final ∧ Balanced (fun _ => 9) (called machine.2.flatten) final :=
  ⟨by decide +kernel, by decide +kernel, by decide +kernel,
    (quiescent_run_balanced ProcessLoop.queueCapacity (fun _ => 9) true ProcessLoop.oneOrder
      TradeFeed.emptyEvent sellThenBuyRest (by decide +kernel)).2.2.2 (fun _ => by decide)
      (by decide +kernel) (by decide +kernel) _ _ _⟩

end TradePlat.Pipeline
