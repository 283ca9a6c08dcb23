import TradePlat.Telemetry.KafkaOffloader

/-!
# Traces of the offloader

`Inv` ties a state of the offloader to the trace behind it: the events of the
batches, with those in the batch under way, are the values popped from the queue, and
the events whose `publish` returned `true` are the values pushed to it. Each thread
has a predicate on its next access: what it has read is still true, since the counter
it read belongs to it or to a thread that has ended (`Worker.Ok`).
-/

namespace TradePlat.KafkaOffloader
open RingCells Runs

variable {E : Type}

theorem capacity_lt : queueCapacity.value < 2 ^ 64 := by decide

/-! ## What a trace says -/

/-- The trace of the queue. -/
def queueOuts (out : List (Output E)) : List (SPSCQueue.Output E) :=
  out.filterMap fun
    | .queue o => some o
    | _ => none

/-- The returns of `publish`. -/
def returns (out : List (Output E)) : List (E × Bool) :=
  out.filterMap fun
    | .returned event ok => some (event, ok)
    | _ => none

/-- The calls of `publishBatch`, with the answers of `produce`. -/
def produced (out : List (Output E)) : List (List E × Bool) :=
  out.filterMap fun
    | .produced batch accepted => some (batch, accepted)
    | _ => none

/-- What was answered with `b`. -/
def answered {α : Type} (b : Bool) (l : List (α × Bool)) : List α :=
  (l.filter fun a => a.2 = b).map Prod.fst

/-- The events whose `publish` returned `true`. -/
def published (out : List (Output E)) : List E := answered true (returns out)

/-- The events of each call of `publishBatch`. -/
def batches (out : List (Output E)) : List (List E) := (produced out).map Prod.fst

@[simp] theorem answered_nil {α : Type} (b : Bool) : answered b ([] : List (α × Bool)) = [] := rfl

@[simp] theorem answered_cons {α : Type} (b : Bool) (a : α) (c : Bool) (l : List (α × Bool)) :
    answered b ((a, c) :: l) = if c = b then a :: answered b l else answered b l := by
  unfold answered
  by_cases h : c = b
  · rw [if_pos h, List.filter_cons_of_pos (by simpa using h), List.map_cons]
  · rw [if_neg h, List.filter_cons_of_neg (by simpa using h)]

@[simp] theorem answered_append {α : Type} (b : Bool) (l more : List (α × Bool)) :
    answered b (l ++ more) = answered b l ++ answered b more := by
  simp [answered]

/-- Where nothing was refused, everything was accepted. -/
theorem answered_true {α : Type} {l : List (α × Bool)} (h : answered false l = []) :
    answered true l = l.map Prod.fst := by
  induction l with
  | nil => rfl
  | cons a l ih =>
    obtain ⟨a, b⟩ := a
    cases b with
    | false => simp at h
    | true => simpa using ih (by simpa using h)

theorem length_answered {α : Type} (l : List (α × Bool)) :
    (answered true l).length + (answered false l).length = l.length := by
  induction l with
  | nil => rfl
  | cons a l ih =>
    obtain ⟨a, b⟩ := a
    cases b <;> simp <;> omega

section Append
variable (out more : List (Output E))

theorem queueOuts_append : queueOuts (out ++ more) = queueOuts out ++ queueOuts more :=
  List.filterMap_append

theorem returns_append : returns (out ++ more) = returns out ++ returns more :=
  List.filterMap_append

theorem produced_append : produced (out ++ more) = produced out ++ produced more :=
  List.filterMap_append

/-- The outputs of the queue are nothing else. -/
theorem queueOuts_queue (o : List (SPSCQueue.Output E)) :
    queueOuts (o.map .queue) = o ∧ returns (o.map .queue) = [] ∧ produced (o.map .queue) = [] := by
  induction o with
  | nil => exact ⟨rfl, rfl, rfl⟩
  | cons head rest ih => exact ⟨congrArg (head :: ·) ih.1, ih.2.1, ih.2.2⟩

end Append

/-! ## The invariant -/

/-- The events of the batch that were not produced yet. -/
def Worker.inBatch : Worker → Nat
  | .tryPop count | .publishBatch count => count
  | _ => 0

/-- The events that were produced and not counted yet. -/
def Worker.uncounted : Worker → Nat
  | .countDelivered count => count
  | _ => 0

/-- The event in the queue whose `publish` has not returned. -/
def Publish.pushed : Publish E → List E
  | .countPublished event => [event]
  | _ => []

/-- The event dropped before its `publish` returns. -/
def Publish.refused : Publish E → List (E × Bool)
  | .countDropped event => [(event, false)]
  | _ => []

/-- The drops that `matching` has not counted. -/
def Publish.uncounted : Publish E → Nat
  | .countTradeEventsDropped => 1
  | _ => 0

/-- The event of the call of `publish` under way. -/
def Publish.event (queue : SPSCQueue.State 64 E) : Publish E → List E
  | .tryPush => queue.producer.value.toList
  | .countDropped event | .countPublished event => [event]
  | _ => []

def Publish.Ok (queue : SPSCQueue.State 64 E) : Publish E → Prop
  | .tryPush => queue.producer ≠ .idle
  | _ => queue.producer = .idle

/-- The offloader thread reads the counter of the producer only where nothing is
pushed any more. -/
def Worker.Ok (queue : SPSCQueue.State 64 E) (stop : Stop) (pushed popped : Nat) : Worker → Prop
  | .tryPop count => count < maxBatchEvents
  | .publishBatch count => queue.consumer = .idle ∧ 0 < count ∧ count ≤ maxBatchEvents
  | .loadHead => queue.consumer = .idle ∧ stop ≠ .notCalled
  | .loadTail head => queue.consumer = .idle ∧ stop ≠ .notCalled ∧ head = queue.head
  | .exited => queue.consumer = .idle ∧ stop ≠ .notCalled ∧ pushed = popped
  | .loadRunning | .countDelivered _ => queue.consumer = .idle
  | .absent => queue.consumer = .idle ∧ popped = 0

def Stop.Ok (publisher : Publish E) (worker : Worker) : Stop → Prop
  | .notCalled => True
  | .joining => publisher = .idle
  | .returned => publisher = .idle ∧ (worker = .exited ∨ worker = .absent)

structure Inv (started : Bool) (trace : List (SPSCQueue.Output E)) (rets : List (E × Bool))
    (sent : List (List E × Bool)) (s : State E) : Prop where
  queue : SPSCQueue.Traced queueCapacity trace s.queue
  publisher : s.publisher.Ok s.queue
  worker : s.worker.Ok s.queue s.stop (SPSCQueue.pushed trace).length
    (SPSCQueue.popped trace).length
  stop : s.stop.Ok s.publisher s.worker
  running : s.running = true ↔ started = true ∧ s.stop = .notCalled
  absent : s.worker = .absent ↔ started = false
  calls : SPSCQueue.called trace = rets.map Prod.fst ++ s.publisher.event s.queue
  pushed : SPSCQueue.pushed trace = answered true rets ++ s.publisher.pushed
  first : ∀ r ∈ (rets ++ s.publisher.refused).head?, r.2 = true
  popped : SPSCQueue.popped trace =
    (sent.map Prod.fst).flatten ++ (List.range s.worker.inBatch).map s.batch
  sizes : ∀ b ∈ sent, 0 < b.1.length ∧ b.1.length ≤ maxBatchEvents
  published : s.published = (answered true rets).length
  dropped : s.dropped = (answered false rets).length
  tradeEventsDropped : s.tradeEventsDropped + s.publisher.uncounted = s.dropped
  delivered : s.delivered + s.worker.uncounted = (sent.map Prod.fst).flatten.length

theorem inv_start (empty : E) (started : Bool) : Inv started [] [] [] (start empty started) where
  queue := SPSCQueue.traced_init _ _
  publisher := rfl
  worker := by
    cases started with
    | false => exact ⟨rfl, rfl⟩
    | true => rfl
  stop := trivial
  running := by simp [start]
  absent := by cases started <;> simp [start]
  calls := rfl
  pushed := rfl
  first := by simp [start, Publish.refused]
  popped := by cases started <;> rfl
  sizes := by simp
  published := rfl
  dropped := rfl
  tradeEventsDropped := rfl
  delivered := by cases started <;> rfl

/-- Before the stop, the offloader thread does not rely on the producer's counter. -/
theorem Worker.Ok.before {queue queue' : SPSCQueue.State 64 E} {pushed popped : Nat}
    {worker : Worker} (h : worker.Ok queue .notCalled pushed popped)
    (hconsumer : queue'.consumer = queue.consumer) (pushed' : Nat) :
    worker.Ok queue' .notCalled pushed' popped := by
  cases worker with
  | tryPop count => exact h
  | publishBatch count => exact ⟨hconsumer.trans h.1, h.2⟩
  | loadHead => exact absurd rfl h.2
  | loadTail head => exact absurd rfl h.2.1
  | exited => exact absurd rfl h.2.1
  | loadRunning | countDelivered => exact hconsumer.trans h
  | absent => exact ⟨hconsumer.trans h.1, h.2⟩

namespace Inv
variable {started : Bool} {trace : List (SPSCQueue.Output E)} {rets : List (E × Bool)}
  {sent : List (List E × Bool)} {s : State E} {event : E}

/-! ### The matching thread -/

/-- No call of `publish` is under way behind the stop. -/
theorem notCalled (h : Inv started trace rets sent s) (hp : s.publisher ≠ .idle) :
    s.stop = .notCalled := by
  have hstop := h.stop
  cases hs : s.stop with
  | notCalled => rfl
  | joining =>
    rw [hs] at hstop
    exact absurd hstop hp
  | returned =>
    rw [hs] at hstop
    exact absurd hstop.1 hp

theorem publish (h : Inv started trace rets sent s) (hp : s.publisher = .idle)
    (hs : s.stop = .notCalled) (event : E) :
    Inv started (trace ++ [.called event]) rets sent
      { s with
        queue := { s.queue with producer := .loadHead event }
        publisher := .tryPush } := by
  have hidle := h.publisher
  have hworker := h.worker
  have hcalls := h.calls
  have hpushed := h.pushed
  have hfirst := h.first
  have hdropped := h.tradeEventsDropped
  rw [hp] at hidle hcalls hpushed hfirst hdropped
  rw [hs] at hworker
  have hpop : SPSCQueue.popped (trace ++ [.called event]) = SPSCQueue.popped trace := by
    simp [SPSCQueue.popped]
  have hpush : SPSCQueue.pushed (trace ++ [.called event]) = SPSCQueue.pushed trace := by
    simp [SPSCQueue.pushed]
  refine
    { h with
      queue := h.queue.tryPush hidle event
      publisher := by simp [Publish.Ok]
      worker := ?_
      stop := ?_
      calls := ?_
      pushed := hpush.trans hpushed
      first := hfirst
      popped := hpop.trans h.popped
      tradeEventsDropped := hdropped }
  · rw [hpop]
    simp only [hs]
    exact hworker.before rfl _
  · simp only [hs]
    trivial
  · rw [SPSCQueue.called_append, hcalls]
    simp [SPSCQueue.called, Publish.event, SPSCQueue.TryPush.value]

/-- The steps of `tryPush` that go on. -/
theorem tryPush (h : Inv started trace rets sent s) (hp : s.publisher = .tryPush)
    {queue : SPSCQueue.State 64 E} (hq : SPSCQueue.Traced queueCapacity trace queue)
    (hvalue : queue.producer.value = s.queue.producer.value)
    (hbusy : queue.producer ≠ .idle) (hconsumer : queue.consumer = s.queue.consumer) :
    Inv started trace rets sent { s with queue := queue } := by
  have hs := h.notCalled (by rw [hp]; simp)
  have hworker := h.worker
  have hcalls := h.calls
  rw [hp] at hcalls
  rw [hs] at hworker
  refine
    { h with
      queue := hq
      publisher := ?_
      worker := ?_
      calls := ?_ }
  · simp only [hp]
    exact hbusy
  · simp only [hs]
    exact hworker.before hconsumer _
  · simp only [hp, Publish.event] at hcalls ⊢
    rw [hvalue]
    exact hcalls

/-- The return of `tryPush`: the event is in the queue, or the queue was full. -/
theorem tryPush_returns (h : Inv started trace rets sent s) (hp : s.publisher = .tryPush)
    {queue : SPSCQueue.State 64 E} (hvalue : s.queue.producer.value = some event)
    (hidle : queue.producer = .idle) (hconsumer : queue.consumer = s.queue.consumer)
    {o : SPSCQueue.Output E} (hq : SPSCQueue.Traced queueCapacity (trace ++ [o]) queue)
    (ho : o = .pushed event ∨ o = .full event ∧ 0 < (SPSCQueue.pushed trace).length) :
    Inv started (trace ++ [o]) rets sent
      { s with queue := queue, publisher := s.pushed [o] } := by
  have hs := h.notCalled (by rw [hp]; simp)
  have hworker := h.worker
  have hcalls := h.calls
  have hpushed := h.pushed
  have hfirst := h.first
  have hdropped := h.tradeEventsDropped
  rw [hp] at hcalls hpushed hfirst hdropped
  rw [hs] at hworker
  simp only [Publish.event, hvalue] at hcalls
  have hpop : SPSCQueue.popped (trace ++ [o]) = SPSCQueue.popped trace := by
    rcases ho with rfl | ⟨rfl, -⟩ <;> simp [SPSCQueue.popped]
  have hcall : SPSCQueue.called (trace ++ [o]) = SPSCQueue.called trace := by
    rcases ho with rfl | ⟨rfl, -⟩ <;> simp [SPSCQueue.called]
  refine
    { h with
      queue := hq
      publisher := ?_
      worker := ?_
      stop := ?_
      calls := ?_
      pushed := ?_
      first := ?_
      popped := hpop.trans h.popped
      tradeEventsDropped := ?_ }
  · rcases ho with rfl | ⟨rfl, -⟩ <;> exact hidle
  · rw [hpop]
    simp only [hs]
    exact hworker.before hconsumer _
  · simp only [hs]
    trivial
  · rw [hcall, hcalls]
    rcases ho with rfl | ⟨rfl, -⟩ <;> rfl
  · rcases ho with rfl | ⟨rfl, -⟩
    · rw [SPSCQueue.pushed_append, hpushed]
      simp [SPSCQueue.pushed, Publish.pushed, State.pushed]
    · rw [SPSCQueue.pushed_append, hpushed]
      simp [SPSCQueue.pushed, Publish.pushed, State.pushed]
  · rcases ho with rfl | ⟨rfl, hpos⟩
    · exact hfirst
    · -- a full queue holds an event that was published before
      have hne : rets ≠ [] := by
        rintro rfl
        rw [hpushed] at hpos
        exact absurd hpos (Nat.lt_irrefl 0)
      rw [List.head?_append_of_ne_nil _ hne] at hfirst ⊢
      exact hfirst
  · rcases ho with rfl | ⟨rfl, -⟩ <;> exact hdropped

/-- The other steps of the matching thread leave the queue alone. -/
theorem counted (h : Inv started trace rets sent s) (hp : s.publisher ≠ .idle)
    {s' : State E} {more : List (E × Bool)}
    (hsame : s'.queue = s.queue ∧ s'.running = s.running ∧ s'.worker = s.worker ∧
      s'.batch = s.batch ∧ s'.stop = s.stop ∧ s'.delivered = s.delivered)
    (hpublisher : s'.publisher.Ok s'.queue)
    (hcalls : rets.map Prod.fst ++ s.publisher.event s.queue =
      (rets ++ more).map Prod.fst ++ s'.publisher.event s'.queue)
    (hpushed : answered true rets ++ s.publisher.pushed =
      answered true (rets ++ more) ++ s'.publisher.pushed)
    (hfirst : ∀ r ∈ (rets ++ more ++ s'.publisher.refused).head?, r.2 = true)
    (hpublished : s'.published = (answered true (rets ++ more)).length)
    (hdropped : s'.dropped = (answered false (rets ++ more)).length)
    (hcounted : s'.tradeEventsDropped + s'.publisher.uncounted = s'.dropped) :
    Inv started trace (rets ++ more) sent s' := by
  obtain ⟨hqueue, hrunning, hworker, hbatch, hstop, hdelivered⟩ := hsame
  have hs := h.notCalled hp
  refine
    { queue := hqueue ▸ h.queue
      publisher := hpublisher
      worker := ?_
      stop := ?_
      running := ?_
      absent := ?_
      calls := h.calls.trans hcalls
      pushed := h.pushed.trans hpushed
      first := hfirst
      popped := ?_
      sizes := h.sizes
      published := hpublished
      dropped := hdropped
      tradeEventsDropped := hcounted
      delivered := ?_ }
  · rw [hworker, hqueue, hstop]
    exact h.worker
  · rw [hstop, hs]
    trivial
  · rw [hrunning, hstop]
    exact h.running
  · rw [hworker]
    exact h.absent
  · rw [hworker, hbatch]
    exact h.popped
  · rw [hworker, hdelivered]
    exact h.delivered

/-- What a step adds to the three traces. -/
def After (started : Bool) (trace : List (SPSCQueue.Output E)) (rets : List (E × Bool))
    (sent : List (List E × Bool)) (r : State E × List (Output E)) : Prop :=
  Inv started (trace ++ queueOuts r.2) (rets ++ returns r.2) (sent ++ produced r.2) r.1

theorem silent (h : Inv started trace rets sent s) : After started trace rets sent (s, []) := by
  unfold After
  simpa [queueOuts, returns, produced] using h

/-- A call of `tryPush` that goes on is still the same call. -/
theorem pushing_of_value {queue queue' : SPSCQueue.State 64 E}
    (hvalue : queue'.producer.value = queue.producer.value) (hbusy : queue.producer ≠ .idle) :
    queue'.producer ≠ .idle := by
  intro hidle
  rw [hidle] at hvalue
  cases hproducer : queue.producer with
  | idle => exact hbusy hproducer
  | _ => simp [hproducer, SPSCQueue.TryPush.value] at hvalue

/-- A step of `tryPush(event)`. -/
theorem pushStep (h : Inv started trace rets sent s) (hp : s.publisher = .tryPush) :
    After started trace rets sent
      ({ s with
          queue := (SPSCQueue.pushStep queueCapacity s.queue).1
          publisher := s.pushed (SPSCQueue.pushStep queueCapacity s.queue).2 },
        (SPSCQueue.pushStep queueCapacity s.queue).2.map .queue) := by
  have hq := h.queue.producer capacity_lt
  have hconsumer := SPSCQueue.pushStep_consumer queueCapacity s.queue
  have hbusy := h.publisher
  rw [hp] at hbusy
  unfold After
  obtain ⟨houts, hrets, hsent⟩ := queueOuts_queue (SPSCQueue.pushStep queueCapacity s.queue).2
  simp only [houts, hrets, hsent, List.append_nil]
  rcases SPSCQueue.pushStep_spec capacity_lt h.queue.inv with
    ⟨hout, -, hvalue⟩ | ⟨event, hout, -, hvalue, hidle, hfull⟩ | ⟨event, hout, -, hvalue, hidle⟩
  · rw [hout, List.append_nil] at hq ⊢
    exact h.tryPush hp hq hvalue (pushing_of_value hvalue hbusy) hconsumer
  · rw [hout] at hq ⊢
    have hpos := queueCapacity.pos
    exact h.tryPush_returns hp hvalue hidle hconsumer hq (Or.inr ⟨rfl, by omega⟩)
  · rw [hout] at hq ⊢
    exact h.tryPush_returns hp hvalue hidle hconsumer hq (Or.inl rfl)

theorem publishStep (h : Inv started trace rets sent s) :
    After started trace rets sent (publishStep s) := by
  unfold KafkaOffloader.publishStep
  cases hp : s.publisher with
  | idle => exact h.silent
  | tryPush => exact h.pushStep hp
  | countDropped event =>
    have hidle := h.publisher
    have hfirst := h.first
    have hdropped := h.tradeEventsDropped
    rw [hp] at hidle hfirst hdropped
    have hbusy : s.publisher ≠ .idle := by rw [hp]; simp
    unfold After
    simp only [queueOuts, returns, produced, List.filterMap_cons, List.filterMap_nil,
      List.append_nil]
    refine h.counted hbusy ⟨rfl, rfl, rfl, rfl, rfl, rfl⟩ hidle ?_ ?_ ?_ ?_ ?_ ?_
    · simp [hp, Publish.event]
    · simp [hp, Publish.pushed]
    · simpa [Publish.refused] using hfirst
    · simp [h.published]
    · simp [h.dropped]
    · exact congrArg (· + 1) hdropped
  | countPublished event =>
    have hidle := h.publisher
    have hfirst := h.first
    have hdropped := h.tradeEventsDropped
    rw [hp] at hidle hfirst hdropped
    have hbusy : s.publisher ≠ .idle := by rw [hp]; simp
    unfold After
    simp only [queueOuts, returns, produced, List.filterMap_cons, List.filterMap_nil,
      List.append_nil]
    refine h.counted hbusy ⟨rfl, rfl, rfl, rfl, rfl, rfl⟩ hidle ?_ ?_ ?_ ?_ ?_ hdropped
    · simp [hp, Publish.event]
    · simp [hp, Publish.pushed]
    · cases rets with
      | nil => simp [Publish.refused]
      | cons r rets => simpa [Publish.refused] using hfirst
    · simp [h.published]
    · simp [h.dropped]
  | countTradeEventsDropped =>
    have hidle := h.publisher
    have hfirst := h.first
    have hdropped := h.tradeEventsDropped
    rw [hp] at hidle hfirst hdropped
    have hbusy : s.publisher ≠ .idle := by rw [hp]; simp
    have hcounted : Inv started trace (rets ++ []) sent
        { s with tradeEventsDropped := s.tradeEventsDropped + 1, publisher := .idle } :=
      h.counted hbusy ⟨rfl, rfl, rfl, rfl, rfl, rfl⟩ hidle (by simp [hp, Publish.event])
        (by simp [hp, Publish.pushed]) (by simpa [Publish.refused] using hfirst)
        (by simp [h.published]) (by simp [h.dropped]) hdropped
    rw [List.append_nil] at hcounted
    exact hcounted.silent

/-! ### The offloader thread -/

/-- The steps of the offloader thread leave the calls of `publish` and `stop` alone. -/
theorem workerStep (h : Inv started trace rets sent s) {now : Worker} (hw : s.worker = now)
    (hnow : now ≠ .absent ∧ now ≠ .exited) (worker : Worker) (hnext : worker ≠ .absent)
    {queue : SPSCQueue.State 64 E} {batch : Nat → E} {delivered : Nat}
    {trace' : List (SPSCQueue.Output E)} {sent' : List (List E × Bool)}
    (hq : SPSCQueue.Traced queueCapacity trace' queue)
    (hproducer : queue.producer = s.queue.producer)
    (hpushed : SPSCQueue.pushed trace' = SPSCQueue.pushed trace)
    (hcalled : SPSCQueue.called trace' = SPSCQueue.called trace)
    (hworker : worker.Ok queue s.stop (SPSCQueue.pushed trace').length
      (SPSCQueue.popped trace').length)
    (hpopped : SPSCQueue.popped trace' =
      (sent'.map Prod.fst).flatten ++ (List.range worker.inBatch).map batch)
    (hsizes : ∀ b ∈ sent', 0 < b.1.length ∧ b.1.length ≤ maxBatchEvents)
    (hdelivered : delivered + worker.uncounted = (sent'.map Prod.fst).flatten.length) :
    Inv started trace' rets sent'
      { s with queue := queue, worker := worker, batch := batch, delivered := delivered } := by
  obtain ⟨habsent, hexited⟩ := hnow
  rw [← hw] at habsent hexited
  have hstop := h.stop
  have hcalls := h.calls
  have hpublisher := h.publisher
  refine
    { h with
      queue := hq
      publisher := ?_
      worker := hworker
      stop := ?_
      absent := ?_
      calls := ?_
      pushed := hpushed.trans h.pushed
      popped := hpopped
      sizes := hsizes
      delivered := hdelivered }
  · cases hp : s.publisher <;> rw [hp] at hpublisher <;>
      simp only [Publish.Ok, hproducer] at hpublisher ⊢ <;> exact hpublisher
  · cases hs : s.stop with
    | notCalled => trivial
    | joining =>
      rw [hs] at hstop
      exact hstop
    | returned =>
      rw [hs] at hstop
      rcases hstop.2 with hw | hw
      · exact absurd hw hexited
      · exact absurd hw habsent
  · exact iff_of_false hnext (fun hno => habsent (h.absent.mpr hno))
  · rw [hcalled, hcalls]
    cases s.publisher <;> simp only [Publish.event, hproducer]

theorem started_of_worker (h : Inv started trace rets sent s) (hw : s.worker ≠ .absent) :
    started = true := by
  cases started with
  | true => rfl
  | false => exact absurd (h.absent.mpr rfl) hw

/-- Behind the stop, nothing is left where the two counters agree. -/
theorem drained (h : Inv started trace rets sent s)
    (hdepth : ¬ 0 < s.queue.head - s.queue.tail) :
    (SPSCQueue.pushed trace).length = (SPSCQueue.popped trace).length := by
  have hle := h.queue.inv.le
  have hdist := h.queue.inv.depth capacity_lt
  have hzero : (0 : BitVec 64).toNat = 0 := rfl
  rw [BitVec.lt_def, hzero] at hdepth
  rw [SPSCQueue.State.depth] at hdist
  omega

/-- The steps of the offloader thread that do not use the queue. -/
theorem workerMoves (h : Inv started trace rets sent s) {now : Worker} (hw : s.worker = now)
    (hnow : now ≠ .absent ∧ now ≠ .exited) (worker : Worker) (hnext : worker ≠ .absent)
    (hworker : worker.Ok s.queue s.stop (SPSCQueue.pushed trace).length
      (SPSCQueue.popped trace).length)
    (hbatch : now.inBatch = 0 ∧ worker.inBatch = 0)
    (hcount : now.uncounted = 0 ∧ worker.uncounted = 0) :
    After started trace rets sent ({ s with worker := worker }, []) := by
  have hpopped := h.popped
  have hdelivered := h.delivered
  rw [hw, hbatch.1] at hpopped
  rw [hw, hcount.1] at hdelivered
  refine (h.workerStep hw hnow worker hnext h.queue rfl rfl rfl hworker ?_ h.sizes ?_).silent
  · rw [hbatch.2]
    exact hpopped
  · rw [hcount.2]
    exact hdelivered

theorem zero_lt_maxBatch : 0 < maxBatchEvents := by decide

theorem popping_ne_absent (count : Nat) : popping count ≠ .absent := by
  unfold popping
  split <;> simp

/-- The batch is full or `tryPop` is called again. -/
theorem popping_ok {queue : SPSCQueue.State 64 E} (hconsumer : queue.consumer = .idle)
    (stop : Stop) {count : Nat} (hcount : count ≤ maxBatchEvents) (pushed popped : Nat) :
    (popping count).Ok queue stop pushed popped ∧ (popping count).inBatch = count ∧
      (popping count).uncounted = 0 ∧ popping count ≠ .absent := by
  unfold popping
  by_cases hlt : count < maxBatchEvents
  · rw [if_pos hlt]
    exact ⟨hlt, rfl, rfl, by simp⟩
  · have hpos := zero_lt_maxBatch
    rw [if_neg hlt]
    exact ⟨⟨hconsumer, by omega, hcount⟩, rfl, rfl, by simp⟩

/-- The batch is produced or there was nothing to pop. -/
theorem popped_ok {queue : SPSCQueue.State 64 E} (hconsumer : queue.consumer = .idle)
    (stop : Stop) {count : Nat} (hcount : count ≤ maxBatchEvents) (pushed popped : Nat) :
    (KafkaOffloader.popped count).Ok queue stop pushed popped ∧
      (KafkaOffloader.popped count).inBatch = count ∧
      (KafkaOffloader.popped count).uncounted = 0 ∧ KafkaOffloader.popped count ≠ .absent := by
  unfold KafkaOffloader.popped
  by_cases hzero : count = 0
  · rw [if_pos hzero]
    exact ⟨hconsumer, hzero.symm, rfl, by simp⟩
  · rw [if_neg hzero]
    exact ⟨⟨hconsumer, by omega, hcount⟩, rfl, rfl, by simp⟩

/-- The events of a batch in which the next slot was filled. -/
theorem map_update_range (batch : Nat → E) (count : Nat) (event : E) :
    (List.range (count + 1)).map (Function.update batch count event) =
      (List.range count).map batch ++ [event] := by
  rw [List.range_succ, List.map_append, List.map_singleton, Function.update_self]
  congr 1
  apply List.map_congr_left
  intro i hi
  exact Function.update_of_ne (Nat.ne_of_lt (List.mem_range.mp hi)) event batch

/-- A step of `tryPop(batch[count])`. -/
theorem tryPop (h : Inv started trace rets sent s) {count : Nat} (hw : s.worker = .tryPop count) :
    After started trace rets sent
      ({ s with
          queue := (SPSCQueue.popStep queueCapacity s.queue).1
          batch := (s.taken count (SPSCQueue.popStep queueCapacity s.queue).2).1
          worker := (s.taken count (SPSCQueue.popStep queueCapacity s.queue).2).2 },
        (SPSCQueue.popStep queueCapacity s.queue).2.map .queue) := by
  have hq := h.queue.consumer capacity_lt
  have hproducer := SPSCQueue.popStep_producer queueCapacity s.queue
  have hok := h.worker
  have hpopped := h.popped
  have hdelivered := h.delivered
  rw [hw] at hok hpopped hdelivered
  have hcount : count ≤ maxBatchEvents := Nat.le_of_lt hok
  unfold After
  obtain ⟨houts, hrets, hsent⟩ := queueOuts_queue (SPSCQueue.popStep queueCapacity s.queue).2
  simp only [houts, hrets, hsent, List.append_nil]
  rcases SPSCQueue.popStep_spec capacity_lt h.queue.inv with
    ⟨hout, -⟩ | ⟨hout, -, hidle, -⟩ | ⟨event, hout, -, hidle, -⟩
  · rw [hout, List.append_nil] at hq ⊢
    refine h.workerStep hw ⟨by simp, by simp⟩ _ ?_ hq hproducer rfl rfl ?_ ?_ h.sizes ?_
    · simp only [State.taken, hw]
      simp
    · simp only [State.taken, hw]
      exact hok
    · simp only [State.taken, hw]
      exact hpopped
    · simp only [State.taken, hw]
      exact hdelivered
  · rw [hout] at hq ⊢
    obtain ⟨hnext, hbatch, huncounted, hne⟩ := popped_ok hidle s.stop hcount
      (SPSCQueue.pushed (trace ++ [.empty])).length (SPSCQueue.popped (trace ++ [.empty])).length
    refine h.workerStep hw ⟨by simp, by simp⟩ _ hne hq hproducer (by simp [SPSCQueue.pushed])
      (by simp [SPSCQueue.called]) hnext ?_ h.sizes ?_
    · simp only [State.taken, hbatch]
      simp only [Worker.inBatch] at hpopped
      rw [← hpopped]
      simp [SPSCQueue.popped]
    · simp only [huncounted]
      exact hdelivered
  · rw [hout] at hq ⊢
    obtain ⟨hnext, hbatch, huncounted, hne⟩ := popping_ok hidle s.stop
      (Nat.succ_le_of_lt hok) (SPSCQueue.pushed (trace ++ [.popped event])).length
      (SPSCQueue.popped (trace ++ [.popped event])).length
    refine h.workerStep hw ⟨by simp, by simp⟩ _ hne hq hproducer (by simp [SPSCQueue.pushed])
      (by simp [SPSCQueue.called]) hnext ?_ h.sizes ?_
    · simp only [State.taken, hbatch]
      rw [map_update_range, ← List.append_assoc]
      simp only [Worker.inBatch] at hpopped
      rw [← hpopped]
      simp [SPSCQueue.popped]
    · simp only [huncounted]
      exact hdelivered

/-- The test of `queueDepth`. -/
theorem loadTail (h : Inv started trace rets sent s) {head : BitVec 64}
    (hw : s.worker = .loadTail head) :
    After started trace rets sent
      ({ s with worker := if 0 < head - s.queue.tail then popping 0 else .exited }, []) := by
  have hok := h.worker
  rw [hw] at hok
  obtain ⟨hconsumer, hstop, rfl⟩ := hok
  by_cases hdepth : 0 < s.queue.head - s.queue.tail
  · rw [if_pos hdepth]
    exact h.workerMoves hw ⟨by simp, by simp⟩ (popping 0) (popping_ne_absent 0) zero_lt_maxBatch
      ⟨rfl, rfl⟩
      ⟨rfl, rfl⟩
  · rw [if_neg hdepth]
    exact h.workerMoves hw ⟨by simp, by simp⟩ .exited (by simp) ⟨hconsumer, hstop, h.drained hdepth⟩
      ⟨rfl, rfl⟩ ⟨rfl, rfl⟩

/-- The test of `running_`. -/
theorem loadRunning (h : Inv started trace rets sent s) (hw : s.worker = .loadRunning) :
    After started trace rets sent
      ({ s with worker := if s.running then popping 0 else .loadHead }, []) := by
  have hok := h.worker
  rw [hw] at hok
  by_cases hrun : s.running = true
  · rw [if_pos hrun]
    exact h.workerMoves hw ⟨by simp, by simp⟩ (popping 0) (popping_ne_absent 0) zero_lt_maxBatch
      ⟨rfl, rfl⟩
      ⟨rfl, rfl⟩
  · have hstarted := h.started_of_worker (by rw [hw]; simp)
    have hstop : s.stop ≠ .notCalled := fun hs => hrun (h.running.mpr ⟨hstarted, hs⟩)
    rw [if_neg hrun]
    exact h.workerMoves hw ⟨by simp, by simp⟩ .loadHead (by simp) ⟨hok, hstop⟩ ⟨rfl, rfl⟩ ⟨rfl, rfl⟩

/-- The first load of `queueDepth`. -/
theorem loadHead (h : Inv started trace rets sent s) (hw : s.worker = .loadHead) :
    After started trace rets sent ({ s with worker := .loadTail s.queue.head }, []) := by
  have hok := h.worker
  rw [hw] at hok
  exact h.workerMoves hw ⟨by simp, by simp⟩ (.loadTail s.queue.head) (by simp) ⟨hok.1, hok.2, rfl⟩
    ⟨rfl, rfl⟩ ⟨rfl, rfl⟩

theorem publishBatch (h : Inv started trace rets sent s) {count : Nat}
    (hw : s.worker = .publishBatch count) (accepted : Bool) :
    After started trace rets sent
      ({ s with worker := .countDelivered count },
        [.produced ((List.range count).map s.batch) accepted]) := by
  have hok := h.worker
  have hpopped := h.popped
  have hdelivered := h.delivered
  rw [hw] at hok hpopped hdelivered
  obtain ⟨hconsumer, hpos, hmax⟩ := hok
  unfold After
  simp only [queueOuts, returns, produced, List.filterMap_cons, List.filterMap_nil,
    List.append_nil]
  refine h.workerStep hw ⟨by simp, by simp⟩ (.countDelivered count) (by simp) h.queue rfl rfl rfl
    hconsumer ?_ ?_ ?_
  · rw [hpopped]
    simp [Worker.inBatch]
  · intro b hb
    rcases List.mem_append.mp hb with hb | hb
    · exact h.sizes b hb
    · rw [List.mem_singleton.mp hb]
      simpa using ⟨hpos, hmax⟩
  · simp only [Worker.uncounted, Nat.add_zero] at hdelivered ⊢
    rw [hdelivered]
    simp

theorem countDelivered (h : Inv started trace rets sent s) {count : Nat}
    (hw : s.worker = .countDelivered count) :
    After started trace rets sent
      ({ s with delivered := s.delivered + count, worker := .loadRunning }, []) := by
  have hok := h.worker
  have hpopped := h.popped
  have hdelivered := h.delivered
  rw [hw] at hok hpopped hdelivered
  exact (h.workerStep hw ⟨by simp, by simp⟩ .loadRunning (by simp) h.queue rfl rfl rfl hok hpopped
    h.sizes hdelivered).silent

theorem runStep (h : Inv started trace rets sent s) (accepted : Bool) :
    After started trace rets sent (runStep s accepted) := by
  unfold KafkaOffloader.runStep
  cases hw : s.worker with
  | absent | exited => exact h.silent
  | loadRunning => exact h.loadRunning hw
  | loadHead => exact h.loadHead hw
  | loadTail head => exact h.loadTail hw
  | tryPop count => exact h.tryPop hw
  | publishBatch count => exact h.publishBatch hw accepted
  | countDelivered count => exact h.countDelivered hw

/-! ### Every step -/

theorem stopping (h : Inv started trace rets sent s) (hp : s.publisher = .idle)
    (hs : s.stop = .notCalled) :
    After started trace rets sent ({ s with running := false, stop := .joining }, []) := by
  have hok := h.worker
  have hstill : s.worker.Ok s.queue .joining (SPSCQueue.pushed trace).length
      (SPSCQueue.popped trace).length := by
    rw [hs] at hok
    cases hw : s.worker with
    | loadHead => rw [hw] at hok; exact absurd rfl hok.2
    | loadTail head => rw [hw] at hok; exact absurd rfl hok.2.1
    | exited => rw [hw] at hok; exact absurd rfl hok.2.1
    | absent | loadRunning | countDelivered => rw [hw] at hok; exact hok
    | tryPop count => rw [hw] at hok; exact hok
    | publishBatch count => rw [hw] at hok; exact hok
  have hnext : Inv started trace rets sent { s with running := false, stop := .joining } :=
    { h with
      worker := hstill
      stop := hp
      running := ⟨by simp, fun hno => absurd hno.2 (by simp)⟩ }
  exact hnext.silent

theorem joined (h : Inv started trace rets sent s) (hs : s.stop = .joining)
    (hw : s.worker = .exited ∨ s.worker = .absent) :
    After started trace rets sent ({ s with stop := .returned }, [.stopped]) := by
  have hok := h.worker
  have hstop := h.stop
  have hrunning := h.running
  rw [hs] at hok hstop hrunning
  have hnext : Inv started trace rets sent { s with stop := .returned } :=
    { h with
      worker := by
        rcases hw with hw | hw
        · simp only [hw] at hok ⊢
          exact ⟨hok.1, (by simp), hok.2.2⟩
        · simp only [hw] at hok ⊢
          exact hok
      stop := ⟨hstop, hw⟩
      running := ⟨fun hrun => absurd (hrunning.mp hrun).2 (by simp), fun hno => absurd hno.2 (by simp)⟩ }
  unfold After
  simpa [queueOuts, returns, produced] using hnext

/-- **Every step keeps the invariant.** -/
theorem next (h : Inv started trace rets sent s) (i : Input E) :
    After started trace rets sent (step s i) := by
  cases i with
  | publish event =>
    simp only [step]
    split
    · rename_i hp hs
      have hidle := h.publisher
      rw [hp] at hidle
      rw [SPSCQueue.step_tryPush hidle]
      unfold After
      simpa [queueOuts, returns, produced] using h.publish hp hs event
    · exact h.silent
  | matching => exact h.publishStep
  | worker accepted => exact h.runStep accepted
  | stop =>
    simp only [step]
    split
    · rename_i hp hs
      exact h.stopping hp hs
    · exact h.silent
  | join =>
    simp only [step]
    split
    · rename_i hs hw
      exact h.joined hs (Or.inl hw)
    · rename_i hs hw
      exact h.joined hs (Or.inr hw)
    · exact h.silent

end Inv

/-! ## Runs -/

/-- The invariant of a trace. -/
def Traced (started : Bool) (out : List (Output E)) (s : State E) : Prop :=
  Inv started (queueOuts out) (returns out) (produced out) s

theorem Traced.next {started : Bool} {out : List (Output E)} {s : State E}
    (h : Traced started out s) (i : Input E) :
    Traced started (out ++ (step s i).2) (step s i).1 := by
  unfold Traced
  rw [queueOuts_append, returns_append, produced_append]
  exact Inv.next h i

theorem traced_run (empty : E) (started : Bool) (inputs : List (Input E)) :
    Traced started (outputs step (start empty started) inputs)
      (run step (start empty started) inputs).1 :=
  invariant_run (fun _ out s => Traced started out s) (fun _ _ _ i h _ => h.next i)
    (inv_start empty started) (guarded_true _ _ _ inputs)

/-! ## The offloader at its stop -/

section Stopped
variable {started : Bool} {out : List (Output E)} {s : State E}

theorem Traced.publisher_idle (h : Traced started out s) (hs : s.stop = .returned) :
    s.publisher = .idle := by
  have hstop := h.stop
  rw [hs] at hstop
  exact hstop.1

theorem Traced.worker_exited (h : Traced true out s) (hs : s.stop = .returned) :
    s.worker = .exited := by
  have hstop := h.stop
  rw [hs] at hstop
  rcases hstop.2 with hw | hw
  · exact hw
  · exact absurd (h.absent.mp hw) (by simp)

/-- Where nothing is in the queue, in the batch or inside `publish`, the batches hold the
published events. -/
theorem Traced.batches_emptied (h : Traced started out s) (hp : s.publisher = .idle)
    (hdepth : s.queue.depth = 0) (hbatch : s.worker.inBatch = 0) :
    (batches out).flatten = published out := by
  have hpushed := h.pushed
  have hpopped := h.popped
  have htaken := h.queue.taken
  have hlength := h.queue.inv.depth capacity_lt
  rw [hp] at hpushed
  simp only [Publish.pushed, List.append_nil] at hpushed
  rw [hbatch, List.range_zero, List.map_nil, List.append_nil] at hpopped
  rw [batches, published, ← hpopped, ← hpushed, htaken]
  exact List.take_of_length_le (by omega)

/-- When `stop` has returned, nothing is left in the queue. -/
theorem Traced.stopped_depth (h : Traced true out s) (hs : s.stop = .returned) :
    s.queue.depth = 0 ∧ s.worker.inBatch = 0 := by
  have hworker := h.worker
  have hlength := h.queue.inv.depth capacity_lt
  rw [h.worker_exited hs] at hworker ⊢
  have hsame := hworker.2.2
  exact ⟨by omega, rfl⟩

theorem Traced.batches_published (h : Traced true out s) (hs : s.stop = .returned) :
    (batches out).flatten = published out :=
  h.batches_emptied (h.publisher_idle hs) (h.stopped_depth hs).1 (h.stopped_depth hs).2

end Stopped

end TradePlat.KafkaOffloader
