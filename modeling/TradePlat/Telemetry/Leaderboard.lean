import Mathlib.Algebra.Order.Field.Rat
import Mathlib.Data.List.AList
import Mathlib.Data.List.Sort
import Mathlib.Data.Prod.Lex
import Mathlib.Data.String.Basic
import TradePlat.Scorer.SlidingWindow
import TradePlat.Telemetry.Delivery

/-!
# The leaderboard (`scoring_engine.py`, `api.py`)

Any number of scoring workers publish to one Redis, and any number of clients read from
it: requests of the leaderboard, and streams that are told of publications. Each worker is
a process of its own; a contestant has as many as are started for him, be it one after the
other, as when a worker is started again, or at once. A step is one iteration of a loop or
one call to Redis, of one worker or one client; a worker can be killed between any two of
them, which is also what an error of Redis comes to. `publish_metrics` makes three calls,
and `read_leaderboard` one for the scores and one for each row.

Redis is a parameter: the sorted set of the scores, and hashes. Of its channel nothing is
assumed: a call of `get_message` returns a message or none, whatever was published, so
that messages may be lost, late or doubled. Metrics are in rational arithmetic and before
they are rounded, and are stored as they are.
-/

namespace TradePlat.Leaderboard
open Runs Binary64 Gateway Scorer Telemetry

/-- What is used of Redis: the sorted set `leaderboard:scores`, and hashes. `zrevrange`
is that of the first ranks. -/
structure Redis (R : Type) where
  empty : R
  zadd : R → String → Rat → R
  zrevrange : R → Nat → List (String × Rat)
  hset : R → String → Metrics → R
  hgetall : R → String → Option Metrics

/-- How Redis documents these commands, with `ZSCORE`. -/
structure Redis.Lawful {R : Type} (redis : Redis R) (zscore : R → String → Option Rat) : Prop where
  zscore_empty : ∀ member, zscore redis.empty member = none
  zscore_zadd : ∀ r member score member', zscore (redis.zadd r member score) member' =
    if member' = member then some score else zscore r member'
  zscore_hset : ∀ r key mapping member, zscore (redis.hset r key mapping) member = zscore r member
  hgetall_empty : ∀ key, redis.hgetall redis.empty key = none
  hgetall_hset : ∀ r key mapping key', redis.hgetall (redis.hset r key mapping) key' =
    if key' = key then some mapping else redis.hgetall r key'
  hgetall_zadd : ∀ r member score key,
    redis.hgetall (redis.zadd r member score) key = redis.hgetall r key
  zrevrange_score : ∀ r n, ∀ entry ∈ redis.zrevrange r n, zscore r entry.1 = some entry.2
  zrevrange_nodup : ∀ r n, ((redis.zrevrange r n).map Prod.fst).Nodup
  zrevrange_sorted : ∀ r n, (redis.zrevrange r n).Pairwise fun entry later => later.2 ≤ entry.2
  zrevrange_length : ∀ r n, (redis.zrevrange r n).length ≤ n
  zrevrange_first : ∀ r n member score, zscore r member = some score →
    (member, score) ∈ redis.zrevrange r n ∨
      ((redis.zrevrange r n).length = n ∧ ∀ entry ∈ redis.zrevrange r n, score ≤ entry.2)

/-! ## A store -/

/-- A sorted set and hashes, each by its keys. -/
structure Store where
  scores : AList fun _ : String => Rat
  metas : AList fun _ : String => Metrics

/-- By descending scores, and members of one score in reverse. -/
def Ranks (a b : String × Rat) : Prop := toLex (b.2, b.1) ≤ toLex (a.2, a.1)

instance : DecidableRel Ranks := fun a b =>
  inferInstanceAs (Decidable (toLex (b.2, b.1) ≤ toLex (a.2, a.1)))

instance : Std.Total Ranks := ⟨fun _ _ => le_total _ _⟩

instance : IsTrans (String × Rat) Ranks := ⟨fun _ _ _ hab hbc => le_trans hbc hab⟩

theorem Ranks.score {a b : String × Rat} (h : Ranks a b) : b.2 ≤ a.2 := by
  rcases Prod.Lex.le_iff.mp h with hlt | ⟨heq, -⟩
  · exact hlt.le
  · exact heq.le

namespace Store

def entries (r : Store) : List (String × Rat) :=
  (r.scores.entries.map fun entry => (entry.1, entry.2)).insertionSort Ranks

def redis : Redis Store where
  empty := ⟨∅, ∅⟩
  zadd r member score := { r with scores := r.scores.insert member score }
  zrevrange r n := r.entries.take n
  hset r key mapping := { r with metas := r.metas.insert key mapping }
  hgetall r key := r.metas.lookup key

theorem mem_entries {r : Store} {entry : String × Rat} :
    entry ∈ r.entries ↔ r.scores.lookup entry.1 = some entry.2 := by
  have hmem := AList.mem_lookup_iff (a := entry.1) (b := entry.2) (s := r.scores)
  rw [Option.mem_def] at hmem
  rw [entries, List.mem_insertionSort, List.mem_map, hmem]
  constructor
  · rintro ⟨e, he, rfl⟩
    exact he
  · exact fun he => ⟨_, he, rfl⟩

theorem entries_nodup (r : Store) : (r.entries.map Prod.fst).Nodup := by
  have hperm := (List.perm_insertionSort Ranks
    (r.scores.entries.map fun entry => (entry.1, entry.2))).map Prod.fst
  rw [List.map_map] at hperm
  exact hperm.nodup_iff.mpr r.scores.keys_nodup

theorem lawful : redis.Lawful fun r member => r.scores.lookup member where
  zscore_empty member := AList.lookup_empty member
  zscore_zadd r member score member' := by
    by_cases h : member' = member
    · subst h
      rw [if_pos rfl]
      exact AList.lookup_insert r.scores
    · rw [if_neg h]
      exact AList.lookup_insert_ne h
  zscore_hset _ _ _ _ := rfl
  hgetall_empty _ := rfl
  hgetall_hset r key mapping key' := by
    by_cases h : key' = key
    · subst h
      rw [if_pos rfl]
      exact AList.lookup_insert r.metas
    · rw [if_neg h]
      exact AList.lookup_insert_ne h
  hgetall_zadd _ _ _ _ := rfl
  zrevrange_score _ _ entry hentry := mem_entries.mp (List.mem_of_mem_take hentry)
  zrevrange_nodup r n := by
    change ((r.entries.take n).map Prod.fst).Nodup
    rw [List.map_take]
    exact r.entries_nodup.sublist (List.take_sublist _ _)
  zrevrange_sorted r n :=
    ((List.pairwise_insertionSort Ranks _).sublist (List.take_sublist n _)).imp Ranks.score
  zrevrange_length r n := List.length_take_le n r.entries
  zrevrange_first r n member score hscore := by
    have hmem : (member, score) ∈ r.entries := mem_entries.mpr hscore
    have hsorted := List.pairwise_insertionSort Ranks
      (r.scores.entries.map fun entry => (entry.1, entry.2))
    change List.Pairwise Ranks r.entries at hsorted
    change (member, score) ∈ r.entries.take n ∨
      ((r.entries.take n).length = n ∧ ∀ entry ∈ r.entries.take n, score ≤ entry.2)
    rw [← List.take_append_drop n r.entries] at hmem hsorted
    rcases List.mem_append.mp hmem with htake | hdrop
    · exact Or.inl htake
    · have hn : n < r.entries.length := by
        by_contra hle
        rw [List.drop_eq_nil_of_le (Nat.not_lt.mp hle)] at hdrop
        cases hdrop
      refine Or.inr ⟨by rw [List.length_take]; omega, fun entry hentry => ?_⟩
      exact ((List.pairwise_append.mp hsorted).2.2 entry hentry _ hdrop).score

end Store

def metaKey (id : String) : String := "contestant:meta:" ++ id

/-! ## Workers -/

/-- What `main` does next. The `check` of a publication is the reading of the clock it is
due to, and `none` where it is that of `disqualify`. -/
inductive Control where
  | poll
  | events (rest : List TradeEvent)
  | check
  | measure (check : Rat)
  | zadd (metrics : Metrics) (check : Option Rat)
  | hset (metrics : Metrics) (check : Option Rat)
  | publish (metrics : Metrics) (check : Option Rat)
  | ended
  deriving DecidableEq

/-- `id` is the `contestant_id` the worker was started for. -/
structure Worker where
  id : String
  state : ContestantState
  interval : Rat
  lastMetrics : Rat
  running : Bool
  killed : Bool
  control : Control

/-- What `consumer.poll` returns. -/
inductive Poll where
  | nothing
  | error
  | message (payload : Bytes)
  deriving DecidableEq, Repr

/-! ## Clients -/

/-- A row of `read_leaderboard`. -/
structure Row where
  rank : Nat
  id : String
  score : Rat
  tps : Rat
  p50LatUs : Rat
  p90LatUs : Rat
  p99LatUs : Rat
  correctness : String
  totalEvents : Nat
  lastMatchId : Nat
  deriving DecidableEq

def row (rank : Nat) (id : String) (score : Rat) : Option Metrics → Row
  | none => ⟨rank, id, score, 0, 0, 0, 0, "UNKNOWN", 0, 0⟩
  | some mapping => ⟨rank, id, score, mapping.tps, mapping.p50LatUs, mapping.p90LatUs,
      mapping.p99LatUs, mapping.correctness, mapping.totalEvents, mapping.lastMatchId⟩

/-- The default of `limit`. -/
def limit : Nat := 25

/-- What `read_leaderboard` calls next. -/
inductive Reading where
  | zrevrange
  | hgetall (rest : List ((String × Rat) × Nat)) (rows : List Row)
  deriving DecidableEq

/-- What a row is sent for. -/
inductive Kind where
  | response
  | snapshot
  | update
  deriving DecidableEq, Repr

inductive ClientControl where
  | absent
  | reading (kind : Kind) (reading : Reading)
  | getMessage
  deriving DecidableEq

structure Client where
  control : ClientControl
  lastSnapshot : Rat

/-! ## Steps -/

/-- The workers are counted by their processes. -/
structure State (R : Type) where
  redis : R
  workers : Nat → Option Worker
  clients : Nat → Client

def State.init {R : Type} (redis : Redis R) : State R :=
  ⟨redis.empty, fun _ => none, fun _ => ⟨.absent, 0⟩⟩

/-- `now` is the reading of the clock the step makes, if it makes one, and `message`
whether `get_message` returns one. -/
inductive Input where
  | start (p : Nat) (id : String) (windowSeconds interval now : Rat)
  | signal (p : Nat)
  | kill (p : Nat)
  | poll (p : Nat) (poll : Poll)
  | worker (p : Nat) (now : Rat)
  | request (client : Nat)
  | subscribe (client : Nat)
  | client (client : Nat)
  | getMessage (client : Nat) (message : Bool) (now : Rat)
  | close (client : Nat)
  deriving DecidableEq

/-- The worker the input is for. -/
def Input.process? : Input → Option Nat
  | start p _ _ _ _ | signal p | kill p | poll p _ | worker p _ => some p
  | request _ | subscribe _ | client _ | getMessage _ _ _ | close _ => none

/-- The client the input is for. -/
def Input.client? : Input → Option Nat
  | start _ _ _ _ _ | signal _ | kill _ | poll _ _ | worker _ _ => none
  | request c | subscribe c | client c | getMessage c _ _ | close c => some c

/-- What is delivered to a worker, what it makes of it, its calls to Redis, and the rows
that a client is sent. -/
inductive Output where
  | delivered (p : Nat) (payload : Bytes)
  | accepted (p : Nat) (event : TradeEvent)
  | rejected (p : Nat) (violation : Violation)
  | zadded (p : Nat) (id : String) (metrics : Metrics)
  | hashed (p : Nat) (id : String) (metrics : Metrics)
  | published (p : Nat) (id : String)
  | sent (client : Nat) (kind : Kind) (rows : List Row)
  deriving DecidableEq

section Steps
variable {R : Type} (redis : Redis R) (str : Double → String)

def State.setWorker (s : State R) (p : Nat) (w : Worker) : State R :=
  { s with workers := Function.update s.workers p (some w) }

def State.setClient (s : State R) (client : Nat) (c : Client) : State R :=
  { s with clients := Function.update s.clients client c }

def pollStep (s : State R) (p : Nat) (w : Worker) (poll : Poll) : State R × List Output :=
  if w.running then
    match poll with
    | .nothing => (s.setWorker p { w with control := .check }, [])
    | .error => (s.setWorker p { w with control := .ended }, [])
    | .message payload =>
      match unpackTradeEvents payload with
      | .error _ => (s.setWorker p { w with control := .ended }, [.delivered p payload])
      | .ok events => (s.setWorker p { w with control := .events events }, [.delivered p payload])
  else (s.setWorker p { w with control := .ended }, [])

/-- The next iteration or call of a worker. `metrics` that fail raise an `IndexError`. -/
def workerStep (s : State R) (p : Nat) (w : Worker) (now : Rat) : State R × List Output :=
  match w.control with
  | .poll | .ended => (s, [])
  | .events [] => (s.setWorker p { w with control := .check }, [])
  | .events (event :: rest) =>
    match w.state.validate event with
    | some violation =>
      let (state, metrics) := { w.state with correctness := violation.message str }.metrics now
      match metrics with
      | none => (s.setWorker p { w with state := state, control := .ended },
          [.rejected p violation])
      | some metrics =>
        (s.setWorker p { w with state := state, control := .zadd { metrics with score := -1 } none },
          [.rejected p violation])
    | none =>
      (s.setWorker p { w with state := w.state.accept now event, control := .events rest },
        [.accepted p event])
  | .check =>
    (s.setWorker p { w with
        control := if w.interval ≤ now - w.lastMetrics then .measure now else .poll }, [])
  | .measure check =>
    let (state, metrics) := w.state.metrics now
    match metrics with
    | none => (s.setWorker p { w with state := state, control := .ended }, [])
    | some metrics =>
      (s.setWorker p { w with state := state, control := .zadd metrics (some check) }, [])
  | .zadd metrics check =>
    ({ s.setWorker p { w with control := .hset metrics check } with
        redis := redis.zadd s.redis w.id metrics.score }, [.zadded p w.id metrics])
  | .hset metrics check =>
    ({ s.setWorker p { w with control := .publish metrics check } with
        redis := redis.hset s.redis (metaKey w.id) metrics }, [.hashed p w.id metrics])
  | .publish _ check =>
    let w := match check with
      | some now => { w with lastMetrics := now, control := .poll }
      | none => { w with control := .ended }
    (s.setWorker p w, [.published p w.id])

/-- The next call of `read_leaderboard`. -/
def Reading.next (r : R) : Reading → Reading
  | .zrevrange => .hgetall ((redis.zrevrange r limit).zipIdx 1) []
  | .hgetall (((id, score), rank) :: rest) rows =>
    .hgetall rest (rows ++ [row rank id score (redis.hgetall r (metaKey id))])
  | .hgetall [] rows => .hgetall [] rows

/-- What a client that reads does next. -/
def clientStep (s : State R) (client : Nat) : State R × List Output :=
  let c := s.clients client
  match c.control with
  | .absent | .getMessage => (s, [])
  | .reading kind (.hgetall [] rows) =>
    let control := match kind with
      | .response => .absent
      | .snapshot | .update => .getMessage
    (s.setClient client { c with control := control }, [.sent client kind rows])
  | .reading kind reading =>
    (s.setClient client { c with control := .reading kind (reading.next redis s.redis) }, [])

/-- An iteration of the loop of `leaderboard_stream`, up to `read_leaderboard`. -/
def getMessageStep (s : State R) (client : Nat) (message : Bool) (now : Rat) : State R :=
  let c := s.clients client
  match c.control with
  | .getMessage =>
    if message then s.setClient client ⟨.reading .update .zrevrange, now⟩
    else if 5 ≤ now - c.lastSnapshot then s.setClient client ⟨.reading .snapshot .zrevrange, now⟩
    else s
  | .absent | .reading _ _ => s

def step (s : State R) : Input → State R × List Output
  | .start p id windowSeconds interval now =>
    match s.workers p with
    | none => (s.setWorker p ⟨id, .new windowSeconds, interval, now, true, false, .poll⟩, [])
    | some _ => (s, [])
  | .signal p =>
    match s.workers p with
    | some w => (s.setWorker p { w with running := false }, [])
    | none => (s, [])
  | .kill p =>
    match s.workers p with
    | some w => (s.setWorker p { w with killed := true }, [])
    | none => (s, [])
  | .poll p poll =>
    match s.workers p with
    | some w =>
      if w.killed = false ∧ w.control = .poll then pollStep s p w poll else (s, [])
    | none => (s, [])
  | .worker p now =>
    match s.workers p with
    | some w => if w.killed = false then workerStep redis str s p w now else (s, [])
    | none => (s, [])
  | .request client =>
    match (s.clients client).control with
    | .absent => (s.setClient client ⟨.reading .response .zrevrange, 0⟩, [])
    | .getMessage | .reading _ _ => (s, [])
  | .subscribe client =>
    match (s.clients client).control with
    | .absent => (s.setClient client ⟨.reading .snapshot .zrevrange, 0⟩, [])
    | .getMessage | .reading _ _ => (s, [])
  | .client client => clientStep redis s client
  | .getMessage client message now => (getMessageStep s client message now, [])
  | .close client => (s.setClient client ⟨.absent, 0⟩, [])

end Steps
end TradePlat.Leaderboard
