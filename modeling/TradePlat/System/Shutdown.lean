import TradePlat.Lib.Binary64
import TradePlat.System.ProcessLoop

/-!
# What a stop leaves in the queue (`MatchingEngine.cpp`)

The account of the calls of `enqueueOrder` is right at every moment, and the orders
reach `addOrder` by their sequence numbers. What `stop` leaves in the queue is decided
when it stores `isRunning`: from then on `State.left` does not change
(`Inv.left_step`), and it is what the queue holds when `stop` returns. So every
accepted order is matched exactly where nothing is left at that store
(`accepted_matched`), while `run` of the offloader goes on until its queue is empty.
-/

namespace TradePlat.ProcessLoop
open Runs Engine RingCells Binary64

variable {P : Type} [LT P] [DecidableLT P] {capacity : Capacity} {clock : Nat → Int64}
  {out : List (Output P)} {s : State P}

/-- The order that a worker inside `dequeue` takes, if there is one. -/
def Worker.taking : Worker P → Nat
  | .dequeue => 1
  | _ => 0

theorem workerStep_stop (s : State P) : (workerStep capacity clock s).1.stop = s.stop := by
  unfold workerStep
  cases s.worker <;> rfl

/-! ## The account -/

namespace Inv

theorem inQueue_eq (h : Inv capacity clock out s) :
    s.inQueue = (accepted out).length - (MPSCQueue.dequeued (queueOuts out)).length -
      s.incomingOrders.consumer.ahead := by
  have hlen := length_claimed h.queue
  rw [State.inQueue, h.queue.inv.enqueuePos, h.queue.inv.dequeuePos, hlen, accepted]
  omega

theorem length_dequeued (h : Inv capacity clock out s) :
    (MPSCQueue.dequeued (queueOuts out)).length =
      (added out).length + s.worker.hand.toList.length := by
  rw [h.taken, List.length_append]

/-- **The account.** Every completed call is that of an order that was processed,
dropped, is in the queue or in the worker's hands. -/
theorem account (h : Inv capacity clock out s) :
    completed out = s.ordersProcessed + s.ordersDropped + s.inQueue + s.inHands := by
  have hle := taken_le h.queue
  have hdequeued := h.length_dequeued
  have hprocessed := h.processed
  have hhands : s.inHands =
      s.incomingOrders.consumer.ahead + s.worker.hand.toList.length + s.worker.uncounted := by
    unfold State.inHands
    cases s.worker <;> rfl
  rw [completed, ← h.dropped, h.inQueue_eq, hhands, accepted]
  omega

/-- The engine is given the accepted orders one by one. -/
theorem added_prefix (h : Inv capacity clock out s) : added out <+: accepted out := by
  have hle := taken_le h.queue
  have hdequeued : MPSCQueue.dequeued (queueOuts out) <+: accepted out := by
    rw [h.queue.taken, claimed_eq h.queue, List.take_append_of_le_length (by omega)]
    exact List.take_prefix _ _
  rw [h.taken] at hdequeued
  exact (List.prefix_append _ _).trans hdequeued

/-- Where no accepted order is in the queue or in the worker's hands, all are added. -/
theorem added_accepted (h : Inv capacity clock out s) (hqueue : s.inQueue = 0)
    (hhands : s.inHands = 0) : added out = accepted out := by
  refine h.added_prefix.eq_of_length ?_
  have haccount := h.account
  have hprocessed := h.processed
  have hdrops := h.dropped
  have hcounted : s.worker.uncounted ≤ s.inHands := by
    unfold State.inHands
    cases s.worker <;> exact Nat.le_add_left _ _
  rw [completed, ← hdrops] at haccount
  omega

/-- **The order of arrival.** -/
theorem ordered (h : Inv capacity clock out s) :
    ((added out).map Order.seqNo).Pairwise (· < ·) := by
  have hcalled : ((MPSCQueue.calledBy () (queueOuts out)).map Order.seqNo).Pairwise (· < ·) := by
    rw [h.seqNos]
    exact List.pairwise_lt_range'
  have hadded : (added out).Sublist (MPSCQueue.dequeued (queueOuts out)) := by
    rw [h.taken]
    exact List.sublist_append_left _ _
  have hdequeued : (MPSCQueue.dequeued (queueOuts out)).Sublist
      (MPSCQueue.claimed (queueOuts out)) := by
    rw [h.queue.taken]
    exact List.take_sublist _ _
  have hclaimed : (MPSCQueue.claimed (queueOuts out)).Sublist
      (MPSCQueue.calledBy () (queueOuts out)) := by
    rw [claimed_eq h.queue, ← (h.queue.account ()).returned]
    exact (List.sublist_append_left _ _).trans (h.queue.account ()).called
  exact hcalled.sublist (((hadded.trans hdequeued).trans hclaimed).map _)

/-! ## What is left -/

theorem left_eq (h : Inv capacity clock out s) :
    s.left = (accepted out).length - (MPSCQueue.dequeued (queueOuts out)).length -
      s.worker.taking := by
  have hahead : s.incomingOrders.consumer.ahead ≤ 1 := by
    cases s.incomingOrders.consumer <;> simp [MPSCQueue.Dequeue.ahead]
  rw [State.left, h.inQueue_eq, State.takes]
  cases hw : s.worker with
  | dequeue =>
    dsimp only [Worker.taking]
    omega
  | loadRunning | addOrder | countProcessed | exited =>
    rw [h.worker (by rw [hw]; simp)]
    rfl

/-- A step of `dequeue` takes an order, or finds none. -/
theorem left_dequeue (h : Inv capacity clock out s) (hs : s.stop ≠ .notCalled)
    (hw : s.worker = .dequeue) :
    (ProcessLoop.workerStep capacity clock s).1.left = s.left := by
  have hnext := h.workerStep
  have hbefore := h.left_eq
  have hafter := hnext.left_eq
  have hproducer := h.gateway (by rw [h.stopped hs]; simp)
  have haccepted : accepted (out ++ (ProcessLoop.workerStep capacity clock s).2) =
      accepted out := by
    simp only [ProcessLoop.workerStep, hw, accepted, queueOuts_append, queueOuts_queue,
      MPSCQueue.enqueuedBy_append, (MPSCQueue.calledBy_dequeueStep _ _ _).2, List.append_nil]
  rw [haccepted, queueOuts_append, MPSCQueue.dequeued_append, List.length_append] at hafter
  rw [hw] at hbefore
  simp only [ProcessLoop.workerStep, hw, queueOuts_queue] at hafter ⊢
  rcases MPSCQueue.dequeueStep_cases capacity s.incomingOrders with
    ho | ⟨ho, -, pos, hc, hne⟩ | ⟨data, ho, -⟩
  · rw [ho] at hafter ⊢
    rw [hafter, hbefore]
    rfl
  · have hok := h.queue.inv.consumer
    rw [hc] at hok
    obtain rfl : pos = (MPSCQueue.dequeued (queueOuts out)).length := hok
    have hnothing := nothing_left h.queue hproducer hne
    rw [ho] at hafter ⊢
    rw [hafter, hbefore, accepted]
    change _ - (_ + 0) - 0 = _ - _ - 1
    omega
  · rw [ho] at hafter ⊢
    rw [hafter, hbefore]
    change _ - (_ + 1) - 0 = _ - _ - 1
    omega

theorem left_workerStep (h : Inv capacity clock out s) (hs : s.stop ≠ .notCalled) :
    (ProcessLoop.workerStep capacity clock s).1.left = s.left := by
  have hrunning : s.isRunning = false := by
    by_contra hrun
    exact hs (h.running.mp (Bool.eq_true_of_not_eq_false hrun))
  cases hw : s.worker with
  | dequeue => exact h.left_dequeue hs hw
  | loadRunning =>
    simp only [ProcessLoop.workerStep, hw, hrunning, State.left, State.inQueue, State.takes]
    rfl
  | addOrder order => simp only [ProcessLoop.workerStep, hw, State.left, State.inQueue, State.takes]
  | countProcessed => simp only [ProcessLoop.workerStep, hw, State.left, State.inQueue, State.takes]
  | exited => simp only [ProcessLoop.workerStep, hw]

/-- Behind the store of `isRunning` nothing changes what is left. -/
theorem left_step (h : Inv capacity clock out s) (hs : s.stop ≠ .notCalled) (i : Input P) :
    (step capacity clock s i).1.left = s.left ∧ (step capacity clock s i).1.stop ≠ .notCalled := by
  have hidle := h.stopped hs
  have hbusy : ¬ (s.gateway = .idle ∧ s.stop = .notCalled) := fun hand => hs hand.2
  cases i with
  | enqueueOrder order =>
    rw [step_enqueueOrder_busy hbusy]
    exact ⟨rfl, hs⟩
  | gateway spurious =>
    simp only [step, ProcessLoop.gatewayStep, hidle]
    exact ⟨trivial, hs⟩
  | stop =>
    rw [step_stop_busy hbusy]
    exact ⟨rfl, hs⟩
  | join =>
    by_cases hjoin : s.stop = .joining ∧ s.worker = .exited
    · rw [step_join hjoin.1 hjoin.2]
      exact ⟨rfl, by simp⟩
    · rw [step_join_busy hjoin]
      exact ⟨rfl, hs⟩
  | worker => exact ⟨h.left_workerStep hs, workerStep_stop s ▸ hs⟩

theorem left_run (h : Inv capacity clock out s) (hs : s.stop ≠ .notCalled)
    (inputs : List (Input P)) :
    (run (step capacity clock) s inputs).1.left = s.left := by
  induction inputs generalizing out s with
  | nil => rfl
  | cons i inputs ih =>
    obtain ⟨hleft, hstop⟩ := h.left_step hs i
    exact (ih (h.next i) hstop).trans hleft

/-- When `stop` has returned, what is left is what the queue holds. -/
theorem returned_left (h : Inv capacity clock out s) (hs : s.stop = .returned) :
    s.left = s.inQueue := by
  have hexited := h.returned hs
  rw [State.left, State.takes, hexited]
  rfl

/-- Behind the stop the worker has nothing in its hands. -/
theorem returned_hands (h : Inv capacity clock out s) (hs : s.stop = .returned) :
    s.inHands = 0 := by
  have hexited := h.returned hs
  rw [State.inHands, hexited, h.worker (by rw [hexited]; simp)]
  rfl

/-- An empty queue behind the stop has given every order to `addOrder`. -/
theorem returned_added (h : Inv capacity clock out s) (hs : s.stop = .returned)
    (hempty : s.inQueue = 0) : added out = accepted out :=
  h.added_accepted hempty (h.returned_hands hs)

end Inv

/-! ## Runs -/

/-- Nothing is left where the stop stores `isRunning`. -/
def Drained (s : State P) : Input P → Prop
  | .stop => s.gateway = .idle → s.stop = .notCalled → s.left = 0
  | _ => True

instance decidableDrained (s : State P) : ∀ i, Decidable (Drained s i)
  | .stop => inferInstanceAs (Decidable (_ → _ → _))
  | .enqueueOrder _ | .gateway _ | .worker | .join => .isTrue trivial

/-- Every completed call is accounted for, and the orders arrive by their sequence
numbers. -/
def Accounted (out : List (Output P)) (s : State P) : Prop :=
  completed out = s.ordersProcessed + s.ordersDropped + s.inQueue + s.inHands ∧
    ((added out).map Order.seqNo).Pairwise (· < ·)

/-- When `stop` has returned, the queue is empty and the engine is that of the accepted
orders, in the order of their calls. -/
def Matched (clock : Nat → Int64) (out : List (Output P)) (s : State P) : Prop :=
  s.stop = .returned → s.inQueue = 0 ∧ added out = accepted out ∧
    s.engine = (run (call clock) .init ((accepted out).map .addOrder)).1

theorem Inv.matched (h : Inv capacity clock out s) (hleft : s.stop ≠ .notCalled → s.left = 0) :
    Matched clock out s := by
  intro hs
  have hempty : s.inQueue = 0 := by
    rw [← h.returned_left hs]
    exact hleft (by rw [hs]; simp)
  have hadded := h.returned_added hs hempty
  exact ⟨hempty, hadded, hadded ▸ h.engine⟩

/-- Only `stop` calls the stop. -/
theorem step_notCalled (hs : s.stop = .notCalled) {i : Input P} (hi : i ≠ .stop) :
    (step capacity clock s i).1.stop = .notCalled := by
  cases i with
  | enqueueOrder order =>
    simp only [step]
    split <;> exact hs
  | gateway spurious =>
    simp only [step, gatewayStep]
    split <;> exact hs
  | worker => exact (workerStep_stop s).trans hs
  | stop => exact absurd rfl hi
  | join => rw [step_join_busy fun hjoin => absurd (hs.symm.trans hjoin.1) (by simp)]; exact hs

/-- Nothing is left where nothing was left, and where a drained engine is stopped. -/
theorem Inv.drained_step (h : Inv capacity clock out s) (hleft : s.stop ≠ .notCalled → s.left = 0)
    {i : Input P} (hdrained : Drained s i) (hs : (step capacity clock s i).1.stop ≠ .notCalled) :
    (step capacity clock s i).1.left = 0 := by
  by_cases hcalled : s.stop = .notCalled
  · have hi : i = .stop := by
      by_contra hne
      exact hs (step_notCalled hcalled hne)
    subst hi
    by_cases hidle : s.gateway = .idle
    · rw [step_stop hidle hcalled]
      exact hdrained hidle hcalled
    · rw [step_stop_busy fun hand => hidle hand.1] at hs
      exact absurd hcalled hs
  · exact (h.left_step hcalled i).1.trans (hleft hcalled)

/-- A run whose queue is empty behind the stop was stopped with nothing left. -/
theorem Inv.drained_of_empty (h : Inv capacity clock out s) {after : List (Input P)}
    (hs : (run (step capacity clock) s (.stop :: after)).1.stop = .returned)
    (hempty : (run (step capacity clock) s (.stop :: after)).1.inQueue = 0) :
    Drained s .stop := by
  intro hidle hcalled
  have hnext := h.next .stop
  have hend := inv_append h (.stop :: after)
  rw [← hend.returned_left hs, run] at hempty
  rw [hnext.left_run (by rw [step_stop hidle hcalled]; simp), step_stop hidle hcalled] at hempty
  exact hempty

/-- **When a stop loses no order.** In every state the calls of `enqueueOrder` are
accounted for and the orders arrive in order. A run in which nothing was left in the
queue at the store of `isRunning` has every accepted order matched when `stop` returns,
and a run in which `stop` returned has no other way to that. -/
theorem accepted_matched (capacity : Capacity) (clock : Nat → Int64) (empty : Order P)
    (inputs : List (Input P)) :
    let machine := step capacity clock
    let accounted := ∀ past, past <+: inputs →
      Accounted (outputs machine (start empty) past) (run machine (start empty) past).1
    let matched := ∀ past, past <+: inputs →
      Matched clock (outputs machine (start empty) past) (run machine (start empty) past).1
    let drained := Guarded machine (fun _ s i => Drained s i) [] (start empty) inputs
    accounted ∧ (drained → accounted ∧ matched) ∧
      ((run machine (start empty) inputs).1.stop = .returned →
        (accounted ∧ matched ↔ drained)) := by
  intro machine accounted matched drained
  have haccounted : accounted := fun past _ =>
    ⟨(inv_run capacity clock empty past).account, (inv_run capacity clock empty past).ordered⟩
  have hforward : drained → matched := by
    rintro hdrained past ⟨rest, rfl⟩
    have hpast := ((guarded_append _ _ _ _ past rest).mp hdrained).1
    have hinv := invariant_run
      (fun _ out s => Inv capacity clock out s ∧ (s.stop ≠ .notCalled → s.left = 0))
      (fun _ _ _ i h hi => ⟨h.1.next i, h.1.drained_step h.2 hi⟩)
      ⟨inv_start capacity clock empty, absurd rfl⟩ hpast
    exact hinv.1.matched hinv.2
  refine ⟨haccounted, fun hdrained => ⟨haccounted, hforward hdrained⟩, fun hs =>
    ⟨fun hright => ?_, fun hdrained => ⟨haccounted, hforward hdrained⟩⟩⟩
  obtain ⟨hempty, -, -⟩ := hright.2 inputs (List.prefix_refl inputs) hs
  refine guarded_iff_forall.mpr fun before i after hinputs => ?_
  cases i with
  | stop =>
    rw [hinputs, run_append] at hs hempty
    exact (inv_run capacity clock empty before).drained_of_empty hs hempty
  | _ => trivial

/-- `incomingOrders{65536}`. -/
def queueCapacity : Capacity := ⟨65536, by decide, 16, rfl⟩

def oneOrder : Order Double := ⟨1, 5, true, ⟨0x4024000000000000⟩, 1, 2, 0⟩

/-- One order, of which the worker takes `steps` accesses before the stop. -/
def orderThenStop (steps : Nat) : List (Input Double) :=
  .enqueueOrder oneOrder :: (List.replicate 5 (.gateway false) ++
    (List.replicate steps .worker ++ [.stop, .worker, .join]))

/-- The order is accepted, and the worker looks at `isRunning` behind the stop. -/
theorem accepted_unmatched :
    let final := run (step queueCapacity fun _ => 9) (start oneOrder) (orderThenStop 0)
    final.1.stop = .returned ∧ (accepted final.2.flatten).length = 1 ∧ final.1.inQueue = 1 ∧
      added final.2.flatten = [] := by
  decide +kernel

theorem orderThenStop_matched :
    let final := run (step queueCapacity fun _ => 9) (start oneOrder) (orderThenStop 8)
    final.1.stop = .returned ∧ (accepted final.2.flatten).length = 1 ∧
      Matched (fun _ => 9) final.2.flatten final.1 :=
  ⟨by decide +kernel, by decide +kernel,
    ((accepted_matched queueCapacity (fun _ => 9) oneOrder (orderThenStop 8)).2.1
      (by decide +kernel)).2 _ (List.prefix_refl _)⟩

end TradePlat.ProcessLoop
