import TradePlat.System.Joins

/-!
# No accepted order waits forever

While the engine runs, the worker has a number of accesses left up to the count of the
`k`-th accepted order (`State.toCount`). Where that order is not counted, every access of
the worker lowers it and no other thread raises it: the orders behind it are not part of
it, the next order is published whatever the gateway is halfway through
(`Inv.next_published`), and a `publish` that finds the queue full gives up. What an order
can trade is bounded by the book, and the book by the orders before: a trade takes an order
off the book, which pays for the `publish` of its event.
-/

namespace TradePlat.ProcessLoop
open Runs Engine RingCells

variable {P : Type} [LT P] [DecidableLT P] {capacity : Capacity} {clock : Nat → Int64}
  {out : List (Output P)} {s : State P}

/-- The accesses of the worker up to the count of the `k`-th order. A trade pays for its
`publish` with the order that it takes off the book. -/
def State.toCount (k : Nat) (s : State P) : Nat :=
  6 * s.engine.book.orders.length + 14 * (k - s.ordersProcessed) +
    match s.worker with
    | .countProcessed | .exited => 0
    | .addOrder _ => 7
    | .dequeue => 7 + s.incomingOrders.consumer.left
    | .loadRunning => 13

omit [LT P] [DecidableLT P] in
theorem State.toCount_le (k : Nat) (s : State P) :
    s.toCount k ≤ 6 * s.engine.book.orders.length + 14 * (k - s.ordersProcessed) + 13 := by
  have hcall := s.incomingOrders.consumer.left_le
  unfold State.toCount
  cases s.worker <;> dsimp only <;> omega

namespace Inv

/-- No two claims are for the same order. -/
theorem claimed_nodup (h : Inv capacity clock out s) :
    (MPSCQueue.claimed (queueOuts out)).Nodup := by
  have hclaimed : (MPSCQueue.claimed (queueOuts out)).Sublist
      (MPSCQueue.calledBy () (queueOuts out)) := by
    rw [claimed_eq h.queue, ← (h.queue.account ()).returned]
    exact (List.sublist_append_left _ _).trans (h.queue.account ()).called
  have hcalled : ((MPSCQueue.calledBy () (queueOuts out)).map Order.seqNo).Nodup := by
    rw [h.seqNos]
    exact List.nodup_range'
  exact hcalled.of_map.sublist hclaimed

/-- The next order is published where it was accepted, whatever the gateway is doing. -/
theorem next_published (h : Inv capacity clock out s)
    (hlt : (MPSCQueue.dequeued (queueOuts out)).length < (accepted out).length) :
    s.incomingOrders.sequence
        ((MPSCQueue.dequeued (queueOuts out)).length % capacity.value) =
      (MPSCQueue.dequeued (queueOuts out)).length + 1 := by
  have hlen := length_claimed h.queue
  have hclaimed := claimed_eq h.queue
  change _ < (MPSCQueue.enqueuedBy () (queueOuts out)).length at hlt
  rcases h.queue.inv.used _ (Nat.le_refl _) (by omega) with ⟨hseq, -⟩ | ⟨-, p, data, hclaim⟩
  · exact hseq
  · -- the claim that is not published is the last one
    exfalso
    obtain ⟨-, hvalue, -⟩ := h.queue.inv.reserved p _ data hclaim
    rw [show p = () from rfl] at hclaim
    rw [hclaim] at hclaimed
    have hlast : (MPSCQueue.claimed (queueOuts out))[(MPSCQueue.enqueuedBy ()
        (queueOuts out)).length]? = some data := by
      rw [hclaimed]
      exact List.getElem?_concat_length
    have hsame := (List.getElem?_inj (List.getElem?_eq_some_iff.mp hvalue).1 h.claimed_nodup).mp
      (hvalue.trans hlast.symm)
    omega

/-- **Where an accepted order is not counted, every access of the worker that calls no
`addOrder` brings it nearer.** -/
theorem workerStep_toCount (h : Inv capacity clock out s) (hs : s.stop = .notCalled) {k : Nat}
    (hk : k ≤ (accepted out).length) (hlt : s.ordersProcessed < k)
    (hw : ∀ order, s.worker ≠ .addOrder order) :
    (ProcessLoop.workerStep capacity clock s).1.toCount k + 1 ≤ s.toCount k := by
  have hrunning : s.isRunning = true := h.running.mpr hs
  cases hworker : s.worker with
  | addOrder order => exact absurd hworker (hw order)
  | exited =>
    rw [h.exited hworker] at hrunning
    cases hrunning
  | loadRunning =>
    have hconsumer := h.worker (by rw [hworker]; simp)
    simp only [State.toCount, ProcessLoop.workerStep, hworker, hrunning, if_true, hconsumer,
      MPSCQueue.Dequeue.left]
    omega
  | countProcessed =>
    simp only [State.toCount, ProcessLoop.workerStep, hworker]
    omega
  | dequeue =>
    have hbefore : s.toCount k = 6 * s.engine.book.orders.length +
        14 * (k - s.ordersProcessed) + (7 + s.incomingOrders.consumer.left) := by
      rw [State.toCount, hworker]
    have hcall := s.incomingOrders.consumer.left_pos
    rw [hbefore]
    simp only [ProcessLoop.workerStep, hworker, State.toCount]
    rcases MPSCQueue.dequeueStep_left capacity s.incomingOrders with
      ⟨hout, hleft⟩ | hout | ⟨data, hout⟩
    · simp only [hout, Worker.behind]
      omega
    · -- the queue is not empty
      exfalso
      have hdequeued := h.length_dequeued
      have hprocessed := h.processed
      rw [hworker] at hdequeued hprocessed
      simp only [Worker.hand, Worker.uncounted, Option.toList_none, List.length_nil,
        Nat.add_zero] at hdequeued hprocessed
      have hseq := h.next_published (by omega)
      have hok := h.queue.inv.consumer
      rcases MPSCQueue.dequeueStep_cases capacity s.incomingOrders with
        hnone | ⟨-, -, pos, hconsumer, hne⟩ | ⟨data, hsome, -⟩
      · rw [hout] at hnone
        cases hnone
      · rw [hconsumer] at hok
        obtain rfl : pos = (MPSCQueue.dequeued (queueOuts out)).length := hok
        exact hne hseq
      · rw [hout] at hsome
        cases hsome
    · simp only [hout, Worker.behind]
      omega

end Inv

end TradePlat.ProcessLoop

namespace TradePlat.Pipeline
open Runs Binary64 Engine Gateway RingCells

variable {capacity : Capacity} {clock : Nat → Int64} {started : Bool} {out : List Output}
  {s : State}

/-- The `k`-th order is not counted, and the engine was not stopped. -/
def State.Waits (k : Nat) (s : State) : Prop :=
  s.loop.stop = .notCalled ∧ s.loop.ordersProcessed < k

instance (k : Nat) (s : State) : Decidable (s.Waits k) := inferInstanceAs (Decidable (_ ∧ _))

/-- The accesses of the worker up to the count of the `k`-th order. -/
def State.toCount (k : Nat) (s : State) : Nat :=
  if s.Waits k then s.toPublish + s.loop.toCount k else 0

theorem State.toCount_le (k : Nat) (s : State) :
    s.toCount k ≤ 6 * (s.pending.length + s.loop.engine.book.orders.length) +
      14 * (k - s.loop.ordersProcessed) + 18 := by
  have hloop := s.loop.toCount_le k
  have hpublish := s.toPublish_le
  unfold State.toCount
  split <;> omega

/-- A step of the worker takes no count back. -/
theorem worker_processed (s : State) :
    s.loop.ordersProcessed ≤ (step capacity clock s .worker).1.loop.ordersProcessed := by
  have hloop : s.loop.ordersProcessed ≤
      (ProcessLoop.workerStep capacity clock s.loop).1.ordersProcessed := by
    unfold ProcessLoop.workerStep
    split
    case h_4 => exact Nat.le_succ _
    all_goals exact Nat.le_refl _
  simp only [step]
  split
  · split <;> exact hloop
  · exact Nat.le_refl _

/-- What does not wait any more does not wait again. -/
theorem Inv.waits_step (h : Inv capacity clock started out s) {k : Nat} (i : Input)
    (hwaits : (step capacity clock s i).1.Waits k) : s.Waits k := by
  refine ⟨?_, ?_⟩
  · by_contra hs
    exact h.stopped_step hs i hwaits.1
  · have hlt := hwaits.2
    by_cases hi : i = .worker
    · subst hi
      exact Nat.lt_of_le_of_lt (worker_processed s) hlt
    · rwa [(step_alone capacity clock s hi).2.2.2.1] at hlt

/-- **Every access of the worker brings an accepted order nearer, and no other thread
holds it up.** -/
theorem Inv.toCount_step (h : Inv capacity clock started out s) {k : Nat}
    (hk : k ≤ (ProcessLoop.accepted (loopOuts out)).length) (i : Input) :
    (step capacity clock s i).1.toCount k ≤ s.toCount k - (decide (i = .worker)).toNat := by
  by_cases hnext : (step capacity clock s i).1.Waits k
  · have hwaits := h.waits_step i hnext
    obtain ⟨hs, hlt⟩ := hwaits
    rw [State.toCount, if_pos hnext, State.toCount, if_pos ⟨hs, hlt⟩]
    by_cases hi : i = .worker
    · subst hi
      refine Nat.le_sub_of_add_le ?_
      change _ + 1 ≤ _
      simp only [step]
      split
      · rename_i hpublished
        have hnone := hpublished.toPublish
        obtain ⟨hpending, hidle⟩ := hpublished
        split
        · rename_i order hw
          have hfills := ProcessLoop.length_addOrder clock s.loop.engine order
          simp only [State.loopStep, ProcessLoop.step, ProcessLoop.workerStep, hw,
            ProcessLoop.State.toCount, State.toPublish, hidle, KafkaOffloader.Publish.left,
            List.length_map] at hnone ⊢
          omega
        · rename_i hw
          have hloop := h.loop.workerStep_toCount hs hk hlt hw
          change s.toPublish + (ProcessLoop.workerStep capacity clock s.loop).1.toCount k + 1 ≤ _
          omega
      · rename_i hno
        have hleft := h.publishing_left hno
        change (s.feedStep clock .matching).1.toPublish + s.loop.toCount k + 1 ≤ _
        omega
    · obtain ⟨hpublish, hworker, hengine, hprocessed, hconsumer⟩ := step_alone capacity clock s hi
      rw [decide_eq_false hi, hpublish]
      unfold ProcessLoop.State.toCount
      rw [hworker, hengine, hprocessed, hconsumer]
      exact Nat.le_refl _
  · rw [State.toCount, if_neg hnext]
    exact Nat.zero_le _

theorem accepted_append (out more : List Output) :
    ProcessLoop.accepted (loopOuts (out ++ more)) =
      ProcessLoop.accepted (loopOuts out) ++ ProcessLoop.accepted (loopOuts more) := by
  simp only [ProcessLoop.accepted, loopOuts_append, ProcessLoop.queueOuts_append,
    MPSCQueue.enqueuedBy_append]

/-- The first accepted orders are counted within the accesses that are left for them. -/
theorem Inv.counted (h : Inv capacity clock started out s) {k : Nat}
    (hk : k ≤ (ProcessLoop.accepted (loopOuts out)).length) {inputs : List Input}
    (hcount : s.toCount k ≤ inputs.countP (· = .worker))
    (hrun : (run (step capacity clock) s inputs).1.loop.stop = .notCalled) :
    k ≤ (run (step capacity clock) s inputs).1.loop.ordersProcessed := by
  obtain ⟨-, hrank⟩ := run_rank (step capacity clock)
    (fun out s => Inv capacity clock started out s ∧
      k ≤ (ProcessLoop.accepted (loopOuts out)).length)
    (fun i => i = .worker) (State.toCount k)
    (fun out s i hinv => by
      refine ⟨⟨hinv.1.next i, ?_⟩, hinv.1.toCount_step hinv.2 i⟩
      rw [accepted_append, List.length_append]
      exact Nat.le_add_right_of_le hinv.2) ⟨h, hk⟩ inputs
  by_contra hlt
  have hwaits : (run (step capacity clock) s inputs).1.Waits k := ⟨hrun, Nat.lt_of_not_le hlt⟩
  have hpos : 14 * (k - (run (step capacity clock) s inputs).1.loop.ordersProcessed) ≤
      (run (step capacity clock) s inputs).1.toCount k := by
    rw [State.toCount, if_pos hwaits]
    unfold ProcessLoop.State.toCount
    omega
  omega

/-- **No accepted order waits forever.** From every state of every run, as long as the
engine is not stopped: six steps of the worker for each event that is still to be published
and each order in the book, 14 for each accepted order that is not counted and 18 more
bring all the accepted orders to `addOrder`, in their order, whatever the other threads do
meanwhile: that more orders arrive, that the offloader stands still and its queue is full,
or that the gateway is halfway through an `enqueue`. -/
theorem accepted_counted (capacity : Capacity) (clock : Nat → Int64) (order : Order Double)
    (event : TradeEvent Double) (started : Bool) (before more : List Input)
    (hrun : (run (step capacity clock) (start order event started) (before ++ more)).1.loop.stop =
      .notCalled)
    (hworker :
      let s := (run (step capacity clock) (start order event started) before).1
      let out := outputs (step capacity clock) (start order event started) before
      6 * (s.pending.length + s.loop.engine.book.orders.length) +
          14 * ((ProcessLoop.accepted (loopOuts out)).length - s.loop.ordersProcessed) + 18 ≤
        more.countP (· = .worker)) :
    let accepted := ProcessLoop.accepted
      (loopOuts (outputs (step capacity clock) (start order event started) before))
    let final := run (step capacity clock) (start order event started) (before ++ more)
    accepted <+: added final.2.flatten ∧ accepted.length ≤ final.1.loop.ordersProcessed := by
  intro accepted final
  have h := inv_run capacity clock started order event before
  have hend : Inv capacity clock started final.2.flatten final.1 :=
    inv_run capacity clock started order event (before ++ more)
  have hsplit : final.1 = (run (step capacity clock)
      (run (step capacity clock) (start order event started) before).1 more).1 :=
    run_append_state _ _ _ _
  have hcounted : accepted.length ≤ final.1.loop.ordersProcessed := by
    rw [run_append] at hrun
    rw [hsplit]
    exact h.counted (Nat.le_refl _) ((State.toCount_le _ _).trans hworker) hrun
  have haccepted : accepted <+: ProcessLoop.accepted (loopOuts final.2.flatten) := by
    have hout : final.2.flatten =
        outputs (step capacity clock) (start order event started) before ++
          outputs (step capacity clock)
            (run (step capacity clock) (start order event started) before).1 more :=
      outputs_append ..
    rw [hout, accepted_append]
    exact List.prefix_append _ _
  have hprocessed := hend.loop.processed
  refine ⟨List.prefix_of_prefix_length_le haccepted hend.loop.added_prefix ?_, hcounted⟩
  change accepted.length ≤ (ProcessLoop.added (loopOuts final.2.flatten)).length
  omega

/-- Both orders are in the queue before the worker looks at it. -/
def twoInQueue : List Input :=
  List.flatten [sellThenBuyArrives.map .server,
    .enqueueOrder 7 :: List.replicate 5 (.enqueue false),
    .enqueueOrder 8 :: List.replicate 5 (.enqueue false)]

theorem twoInQueue_counted :
    let machine := run (step ProcessLoop.queueCapacity fun _ => 9)
      (start ProcessLoop.oneOrder TradeFeed.emptyEvent true)
    let accepted := ProcessLoop.accepted (loopOuts (machine twoInQueue).2.flatten)
    let final := machine (twoInQueue ++ List.replicate 46 .worker)
    accepted.length = 2 ∧ accepted <+: added final.2.flatten ∧
      accepted.length ≤ final.1.loop.ordersProcessed :=
  ⟨by decide +kernel,
    accepted_counted ProcessLoop.queueCapacity (fun _ => 9) ProcessLoop.oneOrder
      TradeFeed.emptyEvent true twoInQueue (List.replicate 46 .worker) (by decide +kernel)
      (by decide +kernel)⟩

end TradePlat.Pipeline
