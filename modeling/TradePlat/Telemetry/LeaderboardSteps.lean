import TradePlat.Telemetry.Leaderboard

/-!
# The steps of the leaderboard

What a step of one worker or one client does to the store, and what it leaves alone: a
worker writes what it holds (`WorkerStep`), a client reads on or is sent its rows
(`ClientStep`), and a step is one or the other (`step_cases`).
-/

namespace TradePlat.Leaderboard
open Runs Binary64 Gateway Scorer Telemetry

/-! ## Traces -/

/-- The calls of `zadd` for a contestant, each with its process. -/
def zaddsOf (id : String) (out : List Output) : List (Nat × Metrics) :=
  out.filterMap fun
    | .zadded p id' metrics => if id' = id then some (p, metrics) else none
    | _ => none

/-- The calls of `hset` for a contestant, each with its process. -/
def hashesOf (id : String) (out : List Output) : List (Nat × Metrics) :=
  out.filterMap fun
    | .hashed p id' metrics => if id' = id then some (p, metrics) else none
    | _ => none

/-- The calls of one process. -/
def ofProcess (p : Nat) (calls : List (Nat × Metrics)) : List Metrics :=
  (calls.filter fun call => call.1 = p).map Prod.snd

/-- The rows a client was sent. -/
def rowsSent (client : Nat) (out : List Output) : List (List Row) :=
  out.filterMap fun
    | .sent client' _ rows => if client' = client then some rows else none
    | _ => none

/-- A call that changes what Redis stores. -/
def Output.isWrite : Output → Bool
  | .zadded _ _ _ | .hashed _ _ _ => true
  | .delivered _ _ | .accepted _ _ | .rejected _ _ | .published _ _ | .sent _ _ _ => false

/-- Nothing stored, and nothing sent. -/
def Output.isLocal : Output → Bool
  | .delivered _ _ | .accepted _ _ | .rejected _ _ | .published _ _ => true
  | .zadded _ _ _ | .hashed _ _ _ | .sent _ _ _ => false

section Traces
variable (id : String) (p client : Nat) (out more : List Output)

@[simp] theorem zaddsOf_append : zaddsOf id (out ++ more) = zaddsOf id out ++ zaddsOf id more :=
  List.filterMap_append

@[simp] theorem hashesOf_append : hashesOf id (out ++ more) = hashesOf id out ++ hashesOf id more :=
  List.filterMap_append

@[simp] theorem rowsSent_append :
    rowsSent client (out ++ more) = rowsSent client out ++ rowsSent client more :=
  List.filterMap_append

@[simp] theorem ofProcess_append (calls others : List (Nat × Metrics)) :
    ofProcess p (calls ++ others) = ofProcess p calls ++ ofProcess p others := by
  rw [ofProcess, List.filter_append, List.map_append]
  rfl

@[simp] theorem zaddsOf_zadded (id' : String) (metrics : Metrics) :
    zaddsOf id [.zadded p id' metrics] = if id' = id then [(p, metrics)] else [] := by
  by_cases h : id' = id <;> simp [zaddsOf, h]

@[simp] theorem hashesOf_hashed (id' : String) (metrics : Metrics) :
    hashesOf id [.hashed p id' metrics] = if id' = id then [(p, metrics)] else [] := by
  by_cases h : id' = id <;> simp [hashesOf, h]

@[simp] theorem hashesOf_zadded (id' : String) (metrics : Metrics) :
    hashesOf id [.zadded p id' metrics] = [] := rfl

@[simp] theorem zaddsOf_hashed (id' : String) (metrics : Metrics) :
    zaddsOf id [.hashed p id' metrics] = [] := rfl

@[simp] theorem ofProcess_nil : ofProcess p [] = [] := rfl

@[simp] theorem ofProcess_singleton (q : Nat) (metrics : Metrics) :
    ofProcess p [(q, metrics)] = if q = p then [metrics] else [] := by
  by_cases h : q = p <;> simp [ofProcess, h]

theorem ofProcess_prefix {calls more : List (Nat × Metrics)} (h : calls <+: more) :
    ofProcess p calls <+: ofProcess p more := (h.filter _).map _

theorem ofProcess_all {p : Nat} {calls : List (Nat × Metrics)} (h : ∀ call ∈ calls, call.1 = p) :
    ofProcess p calls = calls.map Prod.snd := by
  rw [ofProcess, List.filter_eq_self.mpr fun call hcall => decide_eq_true (h call hcall)]

theorem outs_unwritten {more : List Output} (h : ∀ o ∈ more, o.isWrite = false) :
    zaddsOf id more = [] ∧ hashesOf id more = [] := by
  constructor
  all_goals
    refine List.filterMap_eq_nil_iff.mpr fun o ho => ?_
    have hno := h o ho
    cases o <;> first | rfl | cases hno

theorem outs_local {more : List Output} (h : ∀ o ∈ more, o.isLocal = true) :
    (∀ o ∈ more, o.isWrite = false) ∧ rowsSent client more = [] := by
  refine ⟨fun o ho => ?_, List.filterMap_eq_nil_iff.mpr fun o ho => ?_⟩
  all_goals
    have hlocal := h o ho
    cases o <;> first | rfl | cases hlocal

end Traces

/-! ## Steps, one by one -/

/-- What `zadd` was called with, and `hset` was not yet. -/
def Control.pending : Control → List Metrics
  | .hset metrics _ => [metrics]
  | _ => []

section Steps
variable {R : Type} {redis : Redis R} {str : Double → String} {s : State R} {p : Nat}

/-- The same of a process, if it works for the contestant. -/
def State.pending (s : State R) (p : Nat) (id : String) : List Metrics :=
  match s.workers p with
  | some w => if w.id = id then w.control.pending else []
  | none => []

theorem pending_of_worker {w : Worker} (hw : s.workers p = some w) (id : String) :
    s.pending p id = if w.id = id then w.control.pending else [] := by
  rw [State.pending, hw]

theorem pending_congr {s' : State R} (h : s'.workers p = s.workers p) (id : String) :
    s'.pending p id = s.pending p id := by
  rw [State.pending, h]
  rfl

theorem pending_length (s : State R) (p : Nat) (id : String) : (s.pending p id).length ≤ 1 := by
  have hone : ∀ control : Control, control.pending.length ≤ 1 := by
    intro control
    cases control <;> simp [Control.pending]
  unfold State.pending
  split
  · split
    · exact hone _
    · exact Nat.zero_le _
  · exact Nat.zero_le _

/-- What a step of a worker does to Redis and to the clients. -/
inductive WorkerStep (redis : Redis R) (s : State R) (p : Nat) :
    State R × List Output → Prop where
  | stays : WorkerStep redis s p (s, [])
  | starts (w : Worker) : s.workers p = none → w.control.pending = [] →
      WorkerStep redis s p (s.setWorker p w, [])
  | moves (w w' : Worker) (more : List Output) : s.workers p = some w →
      (∀ o ∈ more, o.isLocal = true) → w'.id = w.id → w'.control.pending = w.control.pending →
      WorkerStep redis s p (s.setWorker p w', more)
  | zadd (w : Worker) (metrics : Metrics) (check : Option Rat) : s.workers p = some w →
      w.control = .zadd metrics check →
      WorkerStep redis s p ({ s.setWorker p { w with control := .hset metrics check } with
        redis := redis.zadd s.redis w.id metrics.score }, [.zadded p w.id metrics])
  | hset (w : Worker) (metrics : Metrics) (check : Option Rat) : s.workers p = some w →
      w.control = .hset metrics check →
      WorkerStep redis s p ({ s.setWorker p { w with control := .publish metrics check } with
        redis := redis.hset s.redis (metaKey w.id) metrics }, [.hashed p w.id metrics])

theorem pollStep_moves {w : Worker} (hw : s.workers p = some w) (hc : w.control = .poll)
    (poll : Poll) : WorkerStep redis s p (pollStep s p w poll) := by
  unfold pollStep
  have hnone : w.control.pending = [] := by rw [hc]; rfl
  split
  · cases poll with
    | nothing => exact .moves w _ [] hw (by simp) rfl hnone.symm
    | error => exact .moves w _ [] hw (by simp) rfl hnone.symm
    | message payload =>
      dsimp only
      split
      · exact .moves w _ _ hw (by simp [Output.isLocal]) rfl hnone.symm
      · exact .moves w _ _ hw (by simp [Output.isLocal]) rfl hnone.symm
  · exact .moves w _ [] hw (by simp) rfl hnone.symm

theorem workerStep_cases {w : Worker} (hw : s.workers p = some w) (now : Rat) :
    WorkerStep redis s p (workerStep redis str s p w now) := by
  unfold workerStep
  cases hc : w.control with
  | poll | ended => exact .stays
  | events rest =>
    have hnone : w.control.pending = [] := by rw [hc]; rfl
    cases rest with
    | nil => exact .moves w _ [] hw (by simp) rfl hnone.symm
    | cons event rest =>
      dsimp only
      split
      · split
        · exact .moves w _ _ hw (by simp [Output.isLocal]) rfl hnone.symm
        · exact .moves w _ _ hw (by simp [Output.isLocal]) rfl hnone.symm
      · exact .moves w _ _ hw (by simp [Output.isLocal]) rfl hnone.symm
  | check =>
    refine .moves w _ [] hw (by simp) rfl ?_
    rw [hc]
    dsimp only
    split <;> rfl
  | measure check =>
    have hnone : w.control.pending = [] := by rw [hc]; rfl
    dsimp only
    split
    · exact .moves w _ [] hw (by simp) rfl hnone.symm
    · exact .moves w _ [] hw (by simp) rfl hnone.symm
  | zadd metrics check => exact .zadd w metrics check hw hc
  | hset metrics check => exact .hset w metrics check hw hc
  | publish metrics check =>
    have hnone : w.control.pending = [] := by rw [hc]; rfl
    refine .moves w _ _ hw (by simp [Output.isLocal]) ?_ ?_
    · cases check <;> rfl
    · rw [hnone]
      cases check <;> rfl

/-- The steps of a client up to the end of `read_leaderboard` and the sending of the rows. -/
def ClientControl.steps : ClientControl → Nat
  | .reading _ .zrevrange => limit + 2
  | .reading _ (.hgetall rest _) => rest.length + 1
  | .absent | .getMessage => 0

/-- What a step of a client does, its end aside. -/
inductive ClientStep (redis : Redis R) (s : State R) (client : Nat) (i : Input) :
    State R × List Output → Prop where
  | stays : (i = .client client → (s.clients client).control.steps = 0) →
      ClientStep redis s client i (s, [])
  | opens (kind : Kind) : (s.clients client).control = .absent →
      ClientStep redis s client i (s.setClient client ⟨.reading kind .zrevrange, 0⟩, [])
  | sends (kind : Kind) (rows : List Row) (control : ClientControl) :
      (s.clients client).control = .reading kind (.hgetall [] rows) →
      control = (if kind = .response then .absent else .getMessage) →
      ClientStep redis s client i
        (s.setClient client { s.clients client with control := control },
          [.sent client kind rows])
  | reads (kind : Kind) (reading : Reading) :
      (s.clients client).control = .reading kind reading → (∀ rows, reading ≠ .hgetall [] rows) →
      ClientStep redis s client i (s.setClient client { s.clients client with
        control := .reading kind (reading.next redis s.redis) }, [])
  | takes (kind : Kind) (now : Rat) : (s.clients client).control = .getMessage →
      kind ≠ .response →
      ClientStep redis s client i (s.setClient client ⟨.reading kind .zrevrange, now⟩, [])

theorem clientStep_cases (s : State R) (client : Nat) :
    ClientStep redis s client (.client client) (clientStep redis s client) := by
  unfold clientStep
  dsimp only
  split
  · rename_i hc
    exact .stays fun _ => by rw [hc]; rfl
  · rename_i hc
    exact .stays fun _ => by rw [hc]; rfl
  · rename_i kind rows hc
    refine .sends kind rows _ hc ?_
    cases kind <;> rfl
  · rename_i kind reading hno hc
    exact .reads kind reading hc fun rows heq => hno rows heq

theorem getMessageStep_cases (s : State R) (client : Nat) (message : Bool) (now : Rat) :
    ClientStep redis s client (.getMessage client message now)
      (getMessageStep s client message now, []) := by
  unfold getMessageStep
  dsimp only
  split
  · rename_i hc
    split
    · exact .takes _ _ hc (by simp)
    · split
      · exact .takes _ _ hc (by simp)
      · exact .stays (by simp)
  · exact .stays (by simp)
  · exact .stays (by simp)

variable (redis str) in
/-- Every step is one of a worker or one of a client. -/
theorem step_cases (s : State R) (i : Input) :
    (∃ p, i.process? = some p ∧ WorkerStep redis s p (step redis str s i)) ∨
      (∃ client, i.client? = some client ∧ ClientStep redis s client i (step redis str s i)) ∨
      ∃ client, i = .close client ∧ step redis str s i = (s.setClient client ⟨.absent, 0⟩, []) := by
  cases i with
  | start p id windowSeconds interval now =>
    refine Or.inl ⟨p, rfl, ?_⟩
    simp only [step]
    split
    · rename_i hw
      exact .starts _ hw rfl
    · exact .stays
  | signal p =>
    refine Or.inl ⟨p, rfl, ?_⟩
    simp only [step]
    split
    · rename_i w hw
      exact .moves w _ [] hw (by simp) rfl rfl
    · exact .stays
  | kill p =>
    refine Or.inl ⟨p, rfl, ?_⟩
    simp only [step]
    split
    · rename_i w hw
      exact .moves w _ [] hw (by simp) rfl rfl
    · exact .stays
  | poll p poll =>
    refine Or.inl ⟨p, rfl, ?_⟩
    simp only [step]
    split
    · rename_i w hw
      split
      · rename_i hpoll
        exact pollStep_moves hw hpoll.2 poll
      · exact .stays
    · exact .stays
  | worker p now =>
    refine Or.inl ⟨p, rfl, ?_⟩
    simp only [step]
    split
    · rename_i w hw
      split
      · exact workerStep_cases hw now
      · exact .stays
    · exact .stays
  | request client | subscribe client =>
    refine Or.inr (Or.inl ⟨client, rfl, ?_⟩)
    simp only [step]
    split
    · rename_i hc
      exact .opens _ hc
    · exact .stays (by simp)
    · exact .stays (by simp)
  | client client => exact Or.inr (Or.inl ⟨client, rfl, clientStep_cases s client⟩)
  | getMessage client message now =>
    exact Or.inr (Or.inl ⟨client, rfl, getMessageStep_cases s client message now⟩)
  | close client => exact Or.inr (Or.inr ⟨client, rfl, rfl⟩)

theorem WorkerStep.clients {result : State R × List Output} (h : WorkerStep redis s p result)
    (client : Nat) : result.1.clients = s.clients ∧ rowsSent client result.2 = [] := by
  cases h with
  | moves w w' more hw hmore => exact ⟨rfl, (outs_local client hmore).2⟩
  | _ => exact ⟨rfl, rfl⟩

/-- A step of a worker without a call that stores something. -/
theorem WorkerStep.unwritten {result : State R × List Output} (h : WorkerStep redis s p result)
    (hmore : ∀ o ∈ result.2, o.isWrite = false) : result.1.redis = s.redis := by
  cases h with
  | zadd w metrics check hw hc => cases hmore _ List.mem_cons_self
  | hset w metrics check hw hc => cases hmore _ List.mem_cons_self
  | _ => rfl

@[simp] theorem setClient_self (client : Nat) (c : Client) :
    (s.setClient client c).clients client = c := Function.update_self ..

theorem setClient_other {client client' : Nat} {c : Client} (h : client' ≠ client) :
    (s.setClient client c).clients client' = s.clients client' := Function.update_of_ne h _ _

/-- The clients write nothing. -/
theorem ClientStep.frame {client : Nat} {i : Input} {result : State R × List Output}
    (h : ClientStep redis s client i result) : result.1.redis = s.redis ∧
      result.1.workers = s.workers ∧ (∀ o ∈ result.2, o.isWrite = false) ∧
      ∀ client', client' ≠ client →
        result.1.clients client' = s.clients client' ∧ rowsSent client' result.2 = [] := by
  cases h with
  | stays => exact ⟨rfl, rfl, by simp, fun _ _ => ⟨rfl, rfl⟩⟩
  | sends kind rows control hc hcontrol =>
    refine ⟨rfl, rfl, by simp [Output.isWrite], fun client' hne => ⟨setClient_other hne, ?_⟩⟩
    simp [rowsSent, Ne.symm hne]
  | opens | reads | takes => exact ⟨rfl, rfl, by simp, fun _ hne => ⟨setClient_other hne, rfl⟩⟩

end Steps

end TradePlat.Leaderboard
