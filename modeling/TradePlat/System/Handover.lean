import TradePlat.System.Joins

/-!
# No published event waits forever (`KafkaOffloader.h`)

The offloader thread has a number of accesses left up to the delivery of the `k`-th
published event (`State.toDeliver`). Where that event is not delivered, every access of
the thread lowers it and no other thread raises it, before the stop and behind it: an
event that was pushed is popped, and the batch that holds it is produced when it is full
or the queue is empty, so that less than `maxBatchEvents` later events go into it.
-/

namespace TradePlat.KafkaOffloader
open RingCells Runs

variable {E : Type} {started : Bool} {out : List (Output E)} {s : State E} {k : Nat}

/-- The events among the first `k` that the thread has not popped. -/
def State.awaited (k : Nat) (s : State E) : Nat :=
  k - (s.delivered + s.worker.uncounted + s.worker.inBatch)

/-- The accesses of the thread at the head of its loop with so many events to pop. -/
def perLoop (n : Nat) : Nat := if n = 0 then 0 else 10 * n + 4105

/-- The accesses of the thread up to the delivery of the `k`-th event. -/
def State.toDeliver (k : Nat) (s : State E) : Nat :=
  if s.delivered < k then
    match s.worker with
    | .absent | .exited => 0
    | .loadTail _ => perLoop (s.awaited k) - 2
    | .loadHead => perLoop (s.awaited k) - 1
    | .loadRunning => perLoop (s.awaited k)
    | .countDelivered _ => perLoop (s.awaited k) + 1
    | .publishBatch _ => perLoop (s.awaited k) + 2
    | .tryPop count =>
      (if s.awaited k = 0 then 4 * (maxBatchEvents - count) else 10 * s.awaited k + 4096) +
        s.queue.consumer.left + 2
  else 0

theorem State.toDeliver_le (k : Nat) (s : State E) :
    s.toDeliver k ≤ 10 * s.awaited k + 4107 := by
  have hcall : s.queue.consumer.left ≤ 4 := by
    cases s.queue.consumer <;> simp [SPSCQueue.TryPop.left]
  unfold State.toDeliver perLoop maxBatchEvents
  split
  · cases s.worker <;> dsimp only <;> (try split) <;> omega
  · exact Nat.zero_le _

/-- The queue holds what is to be popped. -/
theorem Traced.awaited_le (h : Traced started out s) (hk : k ≤ (published out).length) :
    s.awaited k ≤ s.queue.depth := by
  have hdepth := h.queue.inv.depth capacity_lt
  have hpushed := congrArg List.length h.pushed
  have hpopped := congrArg List.length h.popped
  have hdelivered := h.delivered
  rw [List.length_append] at hpushed hpopped
  rw [List.length_map, List.length_range] at hpopped
  change k ≤ (answered true (returns out)).length at hk
  rw [State.awaited, hdepth]
  omega

/-- A step inside `tryPop`. -/
theorem Traced.tryPop_toDeliver (h : Traced started out s) (hk : k ≤ (published out).length)
    (hlt : s.delivered < k) {count : Nat} (hw : s.worker = .tryPop count) (accepted : Bool) :
    (runStep s accepted).1.toDeliver k + 1 ≤ s.toDeliver k := by
  have hok := h.worker
  have hpop := h.awaited_le hk
  rw [hw] at hok
  change count < 1024 at hok
  have hawaited : s.awaited k = k - (s.delivered + count) := by
    rw [State.awaited, hw]
    rfl
  have hbefore : s.toDeliver k =
      (if s.awaited k = 0 then 4 * (1024 - count) else 10 * s.awaited k + 4096) +
        s.queue.consumer.left + 2 := by
    rw [State.toDeliver, if_pos hlt, hw]
    rfl
  rw [hbefore, hawaited]
  rw [hawaited] at hpop
  simp only [runStep, hw, State.toDeliver, State.awaited, if_pos hlt]
  rcases SPSCQueue.popStep_left h.queue.inv capacity_lt with
    ⟨hout, hdepth, hleft⟩ | ⟨hout, hzero, hdepth, hleft⟩ | ⟨event, hout, hdepth, hnext, hleft⟩
  · simp only [hout, State.taken, hw, Worker.uncounted, Worker.inBatch, Nat.add_zero,
      maxBatchEvents]
    omega
  · -- the queue is empty: nothing is awaited
    have hnone : k - (s.delivered + count) = 0 := by omega
    simp only [hout, State.taken, popped]
    by_cases hcount : count = 0
    · omega
    · simp only [if_neg hcount, Worker.uncounted, Worker.inBatch, Nat.add_zero, perLoop,
        if_pos hnone]
      omega
  · by_cases hfull : count + 1 < maxBatchEvents
    · have hworker : popping (count + 1) = .tryPop (count + 1) := if_pos hfull
      simp only [hout, State.taken, hworker, Worker.uncounted, Worker.inBatch, Nat.add_zero,
        maxBatchEvents]
      split <;> split <;> omega
    · have hworker : popping (count + 1) = .publishBatch (count + 1) := if_neg hfull
      simp only [hout, State.taken, hworker, Worker.uncounted, Worker.inBatch, Nat.add_zero,
        perLoop]
      split <;> split <;> omega

/-- **Where a published event is not delivered, every access of the offloader thread brings
it nearer.** -/
theorem Traced.runStep_toDeliver (h : Traced started out s) (hk : k ≤ (published out).length)
    (hlt : s.delivered < k) (hstarted : started = true) (accepted : Bool) :
    (runStep s accepted).1.toDeliver k + 1 ≤ s.toDeliver k := by
  have hok := h.worker
  have hpop := h.awaited_le hk
  have hdepth := h.queue.inv.depth capacity_lt
  cases hw : s.worker with
  | absent =>
    rw [h.absent.mp hw] at hstarted
    cases hstarted
  | exited =>
    rw [hw] at hok
    have hnone : (SPSCQueue.pushed (queueOuts out)).length =
      (SPSCQueue.popped (queueOuts out)).length := hok.2.2
    simp only [State.awaited, hw, Worker.uncounted, Worker.inBatch] at hpop
    omega
  | tryPop count => exact h.tryPop_toDeliver hk hlt hw accepted
  | loadRunning =>
    have hconsumer : s.queue.consumer.left = 4 := by
      rw [hw] at hok
      rw [show s.queue.consumer = .idle from hok]
      rfl
    have hpos : k - (s.delivered + 0 + 0) ≠ 0 := by omega
    cases hrunning : s.running with
    | true =>
      simp only [State.toDeliver, State.awaited, runStep, hw, hrunning, if_true, if_pos hlt,
        popping, if_pos Inv.zero_lt_maxBatch, Worker.uncounted, Worker.inBatch, perLoop,
        if_neg hpos, hconsumer]
      omega
    | false =>
      simp only [State.toDeliver, State.awaited, runStep, hw, hrunning, if_pos hlt,
        Worker.uncounted, Worker.inBatch, perLoop, if_neg hpos, Bool.false_eq_true, if_false]
      omega
  | loadHead =>
    have hpos : k - (s.delivered + 0 + 0) ≠ 0 := by omega
    simp only [State.toDeliver, State.awaited, runStep, hw, if_pos hlt, Worker.uncounted,
      Worker.inBatch, perLoop, if_neg hpos]
    omega
  | loadTail head =>
    rw [hw] at hok
    obtain ⟨hidle, -, rfl⟩ := hok
    have hconsumer : s.queue.consumer.left = 4 := by
      rw [hidle]
      rfl
    have hpos : k - (s.delivered + 0 + 0) ≠ 0 := by omega
    have hqueue : 0 < s.queue.head - s.queue.tail := by
      rw [BitVec.lt_def]
      change 0 < s.queue.depth
      simp only [State.awaited, hw, Worker.uncounted, Worker.inBatch] at hpop
      omega
    simp only [State.toDeliver, State.awaited, runStep, hw, if_pos hlt, if_pos hqueue, popping,
      if_pos Inv.zero_lt_maxBatch, Worker.uncounted, Worker.inBatch, perLoop, if_neg hpos,
      hconsumer]
    omega
  | publishBatch count =>
    simp only [State.toDeliver, State.awaited, runStep, hw, if_pos hlt, Worker.uncounted,
      Worker.inBatch, Nat.add_zero]
    omega
  | countDelivered count =>
    simp only [State.toDeliver, State.awaited, runStep, hw, if_pos hlt, Worker.uncounted,
      Worker.inBatch, Nat.add_zero]
    split <;> omega

/-- The other threads leave the offloader thread and what it has alone. -/
theorem toDeliver_other {i : Input E} (hi : ∀ accepted, i ≠ .worker accepted) :
    (step s i).1.toDeliver k = s.toDeliver k := by
  have hpush : (SPSCQueue.pushStep queueCapacity s.queue).1.consumer = s.queue.consumer := by
    unfold SPSCQueue.pushStep
    split
    · rfl
    · rfl
    · split <;> rfl
    · rfl
    · rfl
  have hcall : ∀ event, (SPSCQueue.step queueCapacity s.queue (.tryPush event)).1.consumer =
      s.queue.consumer := by
    intro event
    simp only [SPSCQueue.step]
    split <;> rfl
  have hqueue : ∀ (queue : SPSCQueue.State 64 E) (publisher : Publish E),
      queue.consumer = s.queue.consumer →
      ({ s with queue := queue, publisher := publisher } : State E).toDeliver k =
        s.toDeliver k := by
    intro queue publisher hconsumer
    unfold State.toDeliver State.awaited
    dsimp only
    rw [hconsumer]
  cases i with
  | publish event =>
    simp only [step]
    split
    · exact hqueue _ _ (hcall event)
    · rfl
  | matching =>
    simp only [step, publishStep]
    split
    case h_2 => exact hqueue _ _ hpush
    all_goals rfl
  | worker accepted => exact absurd rfl (hi accepted)
  | stop =>
    simp only [step]
    split <;> rfl
  | join =>
    simp only [step]
    split <;> rfl

/-- A step of the offloader thread takes no delivery back. -/
theorem runStep_delivered (s : State E) (accepted : Bool) :
    s.delivered ≤ (runStep s accepted).1.delivered := by
  unfold runStep
  split
  case h_8 count hw => exact Nat.le_add_right _ _
  all_goals exact Nat.le_refl _

/-! ## Runs -/

/-- A step of the offloader thread. -/
def IsWorker : Input E → Bool
  | .worker _ => true
  | _ => false

theorem published_append (out more : List (Output E)) :
    published (out ++ more) = published out ++ published more := by
  rw [published, returns_append, answered_append]
  rfl

/-- The first published events are delivered within the accesses that are left for them. -/
theorem Traced.delivers (h : Traced true out s) (hk : k ≤ (published out).length)
    {inputs : List (Input E)} (hcount : s.toDeliver k ≤ inputs.countP IsWorker) :
    k ≤ (run step s inputs).1.delivered := by
  obtain ⟨⟨hend, hkept⟩, hrank⟩ := run_rank step
    (fun out s => Traced true out s ∧ k ≤ (published out).length) IsWorker (State.toDeliver k)
    (fun out s i hinv => by
      obtain ⟨h, hk⟩ := hinv
      refine ⟨⟨h.next i, ?_⟩, ?_⟩
      · rw [published_append, List.length_append]
        exact Nat.le_add_right_of_le hk
      · cases i with
        | worker accepted =>
          by_cases hlt : s.delivered < k
          · exact Nat.le_sub_of_add_le (h.runStep_toDeliver hk hlt rfl accepted)
          · have hmore := runStep_delivered s accepted
            have hdone : (runStep s accepted).1.toDeliver k = 0 := if_neg (by omega)
            change (runStep s accepted).1.toDeliver k ≤ _
            rw [hdone]
            exact Nat.zero_le _
        | publish event | matching | stop | join => exact (toDeliver_other (by simp)).le)
    ⟨h, hk⟩ inputs
  by_contra hlt
  have hleft := hend.runStep_toDeliver hkept (Nat.lt_of_not_le hlt) rfl true
  omega

/-- **No published event waits forever.** From every state of every run of an offloader
that was started: ten steps of its thread for each event in the queue and 4107 more hand
all the events published so far to the producer, in the order of their `publish`, and count
them as delivered, whatever the matching thread publishes meanwhile and whenever the stop
is called. -/
theorem published_delivered (empty : E) (before more : List (Input E))
    (hworker : 10 * (run step (start empty true) before).1.queue.depth + 4107 ≤
      more.countP IsWorker) :
    let past := published (outputs step (start empty true) before)
    let final := run step (start empty true) (before ++ more)
    past <+: (batches final.2.flatten).flatten ∧ past.length ≤ final.1.delivered := by
  intro past final
  have h := traced_run empty true before
  have hend : Traced true final.2.flatten final.1 := traced_run empty true (before ++ more)
  have hsplit : final.1 = (run step (run step (start empty true) before).1 more).1 :=
    run_append_state _ _ _ _
  have hdelivered : past.length ≤ final.1.delivered := by
    rw [hsplit]
    refine h.delivers (Nat.le_refl _) ((State.toDeliver_le _ _).trans ?_)
    have hawaited := h.awaited_le (Nat.le_refl _)
    omega
  have hpast : past <+: SPSCQueue.pushed (queueOuts final.2.flatten) := by
    have hout : final.2.flatten = outputs step (start empty true) before ++
        outputs step (run step (start empty true) before).1 more := outputs_append ..
    have hpublished : past <+: published final.2.flatten := by
      rw [hout, published_append]
      exact List.prefix_append _ _
    rw [hend.pushed]
    exact hpublished.trans (List.prefix_append _ _)
  have hbatches : (batches final.2.flatten).flatten <+:
      SPSCQueue.pushed (queueOuts final.2.flatten) := by
    have hpopped : (batches final.2.flatten).flatten <+:
        SPSCQueue.popped (queueOuts final.2.flatten) := by
      rw [hend.popped]
      exact List.prefix_append _ _
    rw [hend.queue.taken] at hpopped
    exact hpopped.trans (List.take_prefix _ _)
  have hcounted := hend.delivered
  refine ⟨List.prefix_of_prefix_length_le hpast hbatches ?_, hdelivered⟩
  change past.length ≤ ((produced final.2.flatten).map Prod.fst).flatten.length
  omega

/-- One event is published before the offloader thread takes a step. -/
theorem onePublished_delivered :
    let before : List (Input Nat) := .publish 7 :: List.replicate 5 .matching
    let final := run step (start 0 true) (before ++ List.replicate 4117 (.worker false))
    [7] <+: (batches final.2.flatten).flatten ∧ 1 ≤ final.1.delivered := by
  have h := published_delivered (0 : Nat) (.publish 7 :: List.replicate 5 .matching)
    (List.replicate 4117 (.worker false))
    (by rw [List.countP_replicate]; decide +kernel)
  have hpast : published (outputs step (start 0 true)
      (.publish 7 :: List.replicate 5 .matching)) = [7] := by decide +kernel
  rw [hpast] at h
  exact h

end TradePlat.KafkaOffloader
