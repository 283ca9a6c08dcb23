import TradePlat.Engine.MatchLoop
import TradePlat.Telemetry.OffloaderTrace

/-!
# The engine and its offloader (`MatchingEngine.cpp`, `KafkaOffloader.h`)

The matching thread makes a call of the engine and publishes its events one by one;
the offloader thread and the thread that stops the engine run beside it. The engine
is the matching thread's own, so a call is one step and its events are `pending` until
they are published. `MatchingEngine::stop` joins the matching thread before it stops
the offloader.

A match takes the next match id before its event is published, so the events of the
calls of `publish`, with those pending, carry the ids from 1 on (`Fed.ids`).
-/

namespace TradePlat.TradeFeed
open Runs Engine KafkaOffloader

variable {P : Type}

structure State (P : Type) where
  engine : MatchingEngine P
  pending : List (TradeEvent P)
  offloader : KafkaOffloader.State (TradeEvent P)

/-- `MatchingEngine::start`, which does not look at what `start` of the offloader returns. -/
def start (empty : TradeEvent P) (started : Bool) : State P :=
  ⟨.init, [], KafkaOffloader.start empty started⟩

inductive Input (P : Type) where
  | call (call : Call P)
  | matching
  | worker (accepted : Bool)
  | stop
  | join
  deriving DecidableEq, Repr

/-- A step of the offloader alone. -/
def State.offload (s : State P) (i : KafkaOffloader.Input (TradeEvent P)) :
    State P × List (Output (TradeEvent P)) :=
  ({ s with offloader := (KafkaOffloader.step s.offloader i).1 },
    (KafkaOffloader.step s.offloader i).2)

def step [LT P] [DecidableLT P] (clock : Nat → Int64) (s : State P) :
    Input P → State P × List (Output (TradeEvent P))
  | .call c =>
    match s.pending, s.offloader.publisher, s.offloader.stop with
    | [], .idle, .notCalled =>
      let (engine, fills) := call clock s.engine c
      ({ s with engine := engine, pending := fills.map Fill.event }, [])
    | _, _, _ => (s, [])
  | .matching =>
    match s.pending, s.offloader.publisher with
    | event :: pending, .idle => { s with pending := pending }.offload (.publish event)
    | _, _ => s.offload .matching
  | .worker accepted => s.offload (.worker accepted)
  | .stop =>
    match s.pending with
    | [] => s.offload .stop
    | _ => (s, [])
  | .join => s.offload .join

/-! ## Match ids -/

section Ids
variable [LT P] [DecidableLT P] {clock : Nat → Int64}

/-- The fills of a loop carry the next match ids. -/
theorem matches_ids {e e' : MatchingEngine P} {fs : List (Fill P)} (h : Matches clock e fs e') :
    fs.map (fun f => f.event.matchId) = List.range' (e.nextMatchId + 1) fs.length ∧
      e'.nextMatchId = e.nextMatchId + fs.length := by
  induction h with
  | exit _ => exact ⟨rfl, rfl⟩
  | emptyLevel hs _ ih =>
    obtain ⟨bid, buyVec, buys, ask, sellVec, sells, -, -, -, rfl⟩ := matchStep_emptyLevel hs
    exact ih
  | trade ht _ ih =>
    obtain ⟨hevent, hnext⟩ := ht.event_eq
    rw [hnext] at ih
    refine ⟨?_, by rw [ih.2, List.length_cons]; omega⟩
    rw [List.map_cons, ih.1, List.length_cons, List.range'_succ, hevent]
    rfl

theorem call_ids (clock : Nat → Int64) (e : MatchingEngine P) (c : Call P) :
    (call clock e c).2.map (fun f => f.event.matchId) =
        List.range' (e.nextMatchId + 1) (call clock e c).2.length ∧
      (call clock e c).1.nextMatchId = e.nextMatchId + (call clock e c).2.length := by
  cases c with
  | addOrder o =>
    have h := matches_ids (matching_matches clock { e with book := e.book.push o })
    exact h
  | cancelOrder id => exact ⟨rfl, rfl⟩

end Ids

/-! ## Calls of `publish` -/

/-- The events `publish` was called with. -/
def calls (out : List (Output (TradeEvent P))) : List (TradeEvent P) :=
  SPSCQueue.called (queueOuts out)

theorem calls_append (out more : List (Output (TradeEvent P))) :
    calls (out ++ more) = calls out ++ calls more := by
  rw [calls, queueOuts_append, SPSCQueue.called_append, calls, calls]

theorem calls_queue (o : List (SPSCQueue.Output (TradeEvent P))) :
    calls (o.map .queue) = SPSCQueue.called o := by
  rw [calls, (queueOuts_queue o).1]

/-- A step calls `publish` with its own event only. -/
theorem calls_step {s : KafkaOffloader.State (TradeEvent P)}
    {i : KafkaOffloader.Input (TradeEvent P)} (hi : ∀ event, i ≠ .publish event) :
    calls (KafkaOffloader.step s i).2 = [] := by
  cases i with
  | publish event => exact absurd rfl (hi event)
  | matching =>
    change calls (publishStep s).2 = []
    unfold publishStep
    cases s.publisher with
    | tryPush => exact (calls_queue _).trans (SPSCQueue.called_pushStep _ _)
    | _ => rfl
  | worker accepted =>
    change calls (runStep s accepted).2 = []
    unfold runStep
    cases s.worker with
    | tryPop count => exact (calls_queue _).trans (SPSCQueue.called_popStep _ _)
    | _ => rfl
  | stop =>
    simp only [KafkaOffloader.step]
    split <;> rfl
  | join =>
    simp only [KafkaOffloader.step]
    split <;> rfl

theorem calls_publish {started : Bool} {out : List (Output (TradeEvent P))}
    {s : KafkaOffloader.State (TradeEvent P)} (h : Traced started out s)
    (hp : s.publisher = .idle) (hs : s.stop = .notCalled) (event : TradeEvent P) :
    calls (KafkaOffloader.step s (.publish event)).2 = [event] := by
  have hidle := h.publisher
  rw [hp] at hidle
  simp only [KafkaOffloader.step, hp, hs]
  rw [SPSCQueue.step_tryPush hidle]
  rfl

/-- Only `stop` ends the calls. -/
theorem stop_step {s : KafkaOffloader.State (TradeEvent P)}
    {i : KafkaOffloader.Input (TradeEvent P)} (hi : i ≠ .stop)
    (hs : s.stop = .notCalled) : (KafkaOffloader.step s i).1.stop = .notCalled := by
  cases i with
  | publish event =>
    simp only [KafkaOffloader.step]
    split <;> exact hs
  | matching =>
    change (publishStep s).1.stop = _
    unfold publishStep
    cases s.publisher <;> exact hs
  | worker accepted =>
    change (runStep s accepted).1.stop = _
    unfold runStep
    cases s.worker <;> exact hs
  | stop => exact absurd rfl hi
  | join =>
    simp only [KafkaOffloader.step, hs]

/-! ## The invariant -/

structure Fed (started : Bool) (out : List (Output (TradeEvent P))) (s : State P) : Prop where
  offloader : Traced started out s.offloader
  ids : (calls out ++ s.pending).map TradeEvent.matchId = List.range' 1 s.engine.nextMatchId
  stopped : s.offloader.stop ≠ .notCalled → s.pending = []

theorem fed_start (empty : TradeEvent P) (started : Bool) :
    Fed started [] (start empty started) where
  offloader := inv_start empty started
  ids := rfl
  stopped _ := rfl

namespace Fed
variable {started : Bool} {out : List (Output (TradeEvent P))} {s : State P}

theorem offload (h : Fed started out s) {i : KafkaOffloader.Input (TradeEvent P)}
    (hi : ∀ event, i ≠ .publish event)
    (hstop : i = .stop → s.pending = []) :
    Fed started (out ++ (s.offload i).2) (s.offload i).1 where
  offloader := h.offloader.next i
  ids := by
    rw [calls_append, State.offload, calls_step hi, List.append_nil]
    exact h.ids
  stopped hs := by
    by_cases hi' : i = .stop
    · exact hstop hi'
    · exact h.stopped fun hno => hs (stop_step hi' hno)

theorem publish (h : Fed started out s) {event : TradeEvent P} {pending : List (TradeEvent P)}
    (hpending : s.pending = event :: pending) (hp : s.offloader.publisher = .idle) :
    Fed started (out ++ ({ s with pending := pending }.offload (.publish event)).2)
      ({ s with pending := pending }.offload (.publish event)).1 := by
  have hs : s.offloader.stop = .notCalled := by
    by_contra hno
    have := h.stopped hno
    rw [hpending] at this
    cases this
  have hids := h.ids
  rw [hpending] at hids
  refine ⟨h.offloader.next _, ?_,
    fun hno => absurd (stop_step (i := .publish event) (by simp) hs) hno⟩
  rw [calls_append, State.offload, calls_publish h.offloader hp hs, List.append_assoc]
  exact hids

variable [LT P] [DecidableLT P]

theorem call (h : Fed started out s) (clock : Nat → Int64) (hpending : s.pending = [])
    (hs : s.offloader.stop = .notCalled) (c : Call P) :
    Fed started out
      { s with
        engine := (Engine.call clock s.engine c).1
        pending := (Engine.call clock s.engine c).2.map Fill.event } := by
  have hids := h.ids
  obtain ⟨hfills, hnext⟩ := call_ids clock s.engine c
  rw [hpending, List.append_nil] at hids
  refine ⟨h.offloader, ?_, fun hno => absurd hs hno⟩
  rw [List.map_append, hids, List.map_map, hnext]
  have hmap : List.map (TradeEvent.matchId ∘ Fill.event) (Engine.call clock s.engine c).2 =
      List.range' (1 + s.engine.nextMatchId) (Engine.call clock s.engine c).2.length := by
    rw [Nat.add_comm 1, ← hfills]
    rfl
  rw [hmap, List.range'_append_1]

/-- **Every step keeps the match ids in order.** -/
theorem next (h : Fed started out s) (clock : Nat → Int64) (i : Input P) :
    Fed started (out ++ (step clock s i).2) (step clock s i).1 := by
  cases i with
  | call c =>
    simp only [step]
    split
    · rename_i hpending hp hs
      rw [List.append_nil]
      exact h.call clock hpending hs c
    · rw [List.append_nil]
      exact h
  | matching =>
    simp only [step]
    split
    · rename_i event pending hpending hp
      exact h.publish hpending hp
    · exact h.offload (by simp) (by simp)
  | worker accepted => exact h.offload (by simp) (by simp)
  | stop =>
    simp only [step]
    split
    · rename_i hpending
      exact h.offload (by simp) fun _ => hpending
    · rw [List.append_nil]
      exact h
  | join => exact h.offload (by simp) (by simp)

end Fed

theorem fed_run [LT P] [DecidableLT P] (clock : Nat → Int64) (empty : TradeEvent P)
    (started : Bool) (inputs : List (Input P)) :
    Fed started (outputs (step clock) (start empty started) inputs)
      (run (step clock) (start empty started) inputs).1 :=
  invariant_run (fun _ out s => Fed started out s) (fun _ _ _ i h _ => h.next clock i)
    (fed_start empty started) (guarded_true _ _ _ inputs)

end TradePlat.TradeFeed
