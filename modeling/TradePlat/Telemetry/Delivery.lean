import TradePlat.Telemetry.MarketEvents
import TradePlat.Telemetry.OffloaderTrace

/-!
# From the offloader to the scorer (`KafkaOffloader.h`, `scoring_engine.py`)

A message is the raw bytes of a batch. The scorer unpacks the messages one by one,
and validates and accepts the events of each. The topic holds the messages that
`produce` accepted, each once and in order. Whatever the batches are, the scorer does
what it would do with the published events in one list (`telemetry_intact`).
-/

namespace TradePlat.Telemetry
open Runs Binary64 Gateway Scorer KafkaOffloader

/-- A `TradeEvent` with its `match_id` in 64 bits. -/
abbrev PackedEvent := { event : Engine.TradeEvent Double // event.matchId < 2 ^ 64 }

/-- The bytes `publishBatch` hands to `produce`. -/
def payload (events : List PackedEvent) : Bytes := events.flatMap fun event => packed event.1

/-- The messages of the topic. -/
def messages (out : List (Output PackedEvent)) : List Bytes :=
  (answered true (produced out)).map payload

/-! ## The loop of the scorer -/

section Scorer
variable (str : Double → String) (now : Nat → Rat)

/-- The events of one message. A violation disqualifies and ends the loop. -/
def process : ContestantState → List TradeEvent → ContestantState × Option Violation
  | state, [] => (state, none)
  | state, event :: events =>
    match state.validate event with
    | some violation => ({ state with correctness := violation.message str }, some violation)
    | none => process (state.accept (now state.totalEvents) event) events

/-- The loop of `main` over the messages of the topic. -/
def consume : ContestantState → List Bytes → Except String (ContestantState × Option Violation)
  | state, [] => .ok (state, none)
  | state, message :: messages =>
    match unpackTradeEvents message with
    | .error error => .error error
    | .ok events =>
      match process str now state events with
      | (state, some violation) => .ok (state, some violation)
      | (state, none) => consume state messages

theorem process_append (state : ContestantState) (events more : List TradeEvent) :
    process str now state (events ++ more) =
      match process str now state events with
      | (state, some violation) => (state, some violation)
      | (state, none) => process str now state more := by
  induction events generalizing state with
  | nil => rfl
  | cons event events ih =>
    rw [List.cons_append, process, process]
    cases state.validate event with
    | some violation => rfl
    | none => exact ih _

/-- Its violation is the one `feed` finds. -/
theorem process_violation (state : ContestantState) (events : List TradeEvent) :
    (process str now state events).2 =
      state.feed (events.mapIdx fun i event => (now (state.totalEvents + i), event)) := by
  induction events generalizing state with
  | nil => rfl
  | cons event events ih =>
    rw [List.mapIdx_cons, process, ContestantState.feed]
    cases state.validate event with
    | some violation => rfl
    | none =>
      have htotal : (state.accept (now state.totalEvents) event).totalEvents =
          state.totalEvents + 1 := rfl
      simp only [Nat.add_zero]
      rw [ih, htotal]
      congr 2
      funext i event
      rw [Nat.add_right_comm, Nat.add_assoc]

theorem unpack_payload (events : List PackedEvent) :
    unpackTradeEvents (payload events) = .ok (events.map fun event => unpacked event.1) := by
  have hbytes : payload events = (events.map Subtype.val).flatMap packed := by
    rw [payload, List.flatMap_map]
  rw [hbytes, unpack_packed, List.map_map]
  congr 1
  apply List.map_congr_left
  intro event _
  change { unpacked event.1 with matchId := event.1.matchId % 2 ^ 64 } = unpacked event.1
  rw [Nat.mod_eq_of_lt event.2]
  rfl

theorem mapM_unpack (batches : List (List PackedEvent)) :
    (batches.map payload).mapM unpackTradeEvents =
      .ok (batches.map (List.map fun event => unpacked event.1)) := by
  induction batches with
  | nil => rfl
  | cons batch batches ih =>
    rw [List.map_cons, List.mapM_cons, unpack_payload, ih]
    rfl

/-- **The batches do not matter.** -/
theorem consume_payloads (state : ContestantState) (batches : List (List PackedEvent)) :
    consume str now state (batches.map payload) =
      .ok (process str now state (batches.flatten.map fun event => unpacked event.1)) := by
  induction batches generalizing state with
  | nil => rfl
  | cons batch batches ih =>
    rw [List.map_cons, consume, unpack_payload, List.flatten_cons, List.map_append,
      process_append]
    dsimp only
    generalize process str now state (batch.map fun event => unpacked event.1) = result
    obtain ⟨state', violation⟩ := result
    cases violation with
    | some violation => rfl
    | none => exact ih state'

end Scorer

/-! ## Runs -/

/-- **Trade events reach the scorer intact**, whatever the batches. In every run of an
offloader that was started, each batch holds 1 to 1024 events. If `produce` refused no
batch and `stop` has returned, the messages unpack to the published events in order,
each once, and the scorer does what it does with these events in one list. A message
unpacks exactly where its length is a multiple of 60. -/
theorem telemetry_intact (empty : PackedEvent) (inputs : List (Input PackedEvent)) :
    let out := outputs step (start empty true) inputs
    let s := (run step (start empty true) inputs).1
    (∀ batch ∈ batches out, 1 ≤ batch.length ∧ batch.length ≤ 1024) ∧
    (s.stop = .returned → answered false (produced out) = [] →
      ∃ events : List (List TradeEvent),
        (messages out).mapM unpackTradeEvents = .ok events ∧
        events.flatten = (published out).map (fun event => unpacked event.1) ∧
        ∀ str now state, consume str now state (messages out) =
          .ok (process str now state ((published out).map fun event => unpacked event.1))) ∧
    ∀ payload, (∃ events, unpackTradeEvents payload = .ok events) ↔ 60 ∣ payload.length := by
  intro out s
  have h : Traced true out s := traced_run empty true inputs
  refine ⟨fun batch hbatch => ?_, fun hstop haccepted => ?_, unpack_ok_iff⟩
  · obtain ⟨b, hb, rfl⟩ := List.mem_map.mp hbatch
    exact h.sizes b hb
  · have hmessages : messages out = (batches out).map payload := by
      rw [messages, answered_true haccepted, batches]
    have hflat := h.batches_published hstop
    refine ⟨_, hmessages ▸ mapM_unpack (batches out), ?_, fun str now state => ?_⟩
    · rw [← List.map_flatten, hflat]
    · rw [hmessages, consume_payloads, hflat]

/-- Two events in two batches: the second is pushed while the first is produced, and
popped behind the stop. -/
def twoBatches (first second : PackedEvent) : List (Input PackedEvent) :=
  .publish first :: (List.replicate 5 .matching ++ List.replicate 8 (.worker true) ++
    .publish second :: (List.replicate 5 .matching ++ .stop :: (List.replicate 16 (.worker true) ++
      [.join])))

def samplePacked (matchId : Nat) (h : matchId < 2 ^ 64) : PackedEvent :=
  ⟨⟨matchId, 1, 2, 3, 4, 5, ⟨0x4024000000000000⟩, 7⟩, h⟩

theorem twoBatches_intact :
    let first := samplePacked 1 (by decide)
    let second := samplePacked 2 (by decide)
    let out := outputs step (start first true) (twoBatches first second)
    batches out = [[first], [second]] ∧
      ∀ str now state, consume str now state (messages out) =
        .ok (process str now state [unpacked first.1, unpacked second.1]) := by
  intro first second out
  have hout : batches out = [[first], [second]] := by decide
  have hpublished : published out = [first, second] := by decide
  obtain ⟨events, -, -, hconsume⟩ :=
    (telemetry_intact first (twoBatches first second)).2.1 (by decide) (by decide)
  refine ⟨hout, fun str now state => ?_⟩
  rw [hconsume, hpublished]
  rfl

end TradePlat.Telemetry
