import TradePlat.Telemetry.LeaderboardTrace

/-!
# The verdict of a scoring process

The steps of one worker as its own (`Moves`), and what a whole run makes of the events it
is delivered, whatever the other workers, those of the same contestant among them, and the
clients do in between: `verdict_final`.
-/

namespace TradePlat.Leaderboard
open Runs Binary64 Gateway Scorer Telemetry

/-! ## The trace of one worker -/

/-- The worker the output is of. -/
def Output.process? : Output → Option Nat
  | delivered p _ | accepted p _ | rejected p _ | zadded p _ _ | hashed p _ _ | published p _ =>
    some p
  | sent _ _ _ => none

/-- The metrics a worker called `zadd` with. -/
def zadds (p : Nat) (out : List Output) : List Metrics :=
  out.filterMap fun
    | .zadded q _ metrics => if q = p then some metrics else none
    | _ => none

def delivered (p : Nat) (out : List Output) : List Bytes :=
  out.filterMap fun
    | .delivered q payload => if q = p then some payload else none
    | _ => none

def accepted (p : Nat) (out : List Output) : List TradeEvent :=
  out.filterMap fun
    | .accepted q event => if q = p then some event else none
    | _ => none

def rejected (p : Nat) (out : List Output) : List Violation :=
  out.filterMap fun
    | .rejected q violation => if q = p then some violation else none
    | _ => none

/-- The events of the payloads, those aside that cannot be unpacked. -/
def eventsOf (payloads : List Bytes) : List TradeEvent :=
  payloads.flatMap fun payload => (unpackTradeEvents payload).toOption.getD []

theorem eventsOf_append (payloads more : List Bytes) :
    eventsOf (payloads ++ more) = eventsOf payloads ++ eventsOf more := List.flatMap_append

section Traces
variable (p : Nat) (out more : List Output)

@[simp] theorem zadds_append : zadds p (out ++ more) = zadds p out ++ zadds p more :=
  List.filterMap_append

@[simp] theorem delivered_append :
    delivered p (out ++ more) = delivered p out ++ delivered p more :=
  List.filterMap_append

@[simp] theorem accepted_append :
    accepted p (out ++ more) = accepted p out ++ accepted p more :=
  List.filterMap_append

@[simp] theorem rejected_append :
    rejected p (out ++ more) = rejected p out ++ rejected p more :=
  List.filterMap_append

/-- Nothing of a worker. -/
structure Silent (more : List Output) : Prop where
  delivered : delivered p more = []
  accepted : accepted p more = []
  rejected : rejected p more = []
  zadds : zadds p more = []

end Traces

/-! ## The steps of one worker -/

section Moves
variable {R : Type} {redis : Redis R} {str : Double → String} {s : State R} {p : Nat}

/-- What a step of worker `p` does to it, and what it outputs. -/
inductive Moves (str : Double → String) (p : Nat) :
    Option Worker → Option Worker → List Output → Prop where
  | stays (w : Option Worker) : Moves str p w w []
  | starts (id : String) (windowSeconds interval now : Rat) :
      Moves str p none (some ⟨id, .new windowSeconds, interval, now, true, false, .poll⟩) []
  | flags (w : Worker) (running killed : Bool) :
      Moves str p (some w) (some { w with running := running, killed := killed }) []
  | ends (w : Worker) : w.control = .poll → Moves str p (some w) (some { w with control := .ended }) []
  | idles (w : Worker) : w.control = .poll → Moves str p (some w) (some { w with control := .check }) []
  | chokes (w : Worker) (payload : Bytes) : w.control = .poll →
      (unpackTradeEvents payload).toOption = none →
      Moves str p (some w) (some { w with control := .ended }) [.delivered p payload]
  | unpacks (w : Worker) (payload : Bytes) (events : List TradeEvent) : w.control = .poll →
      unpackTradeEvents payload = .ok events →
      Moves str p (some w) (some { w with control := .events events }) [.delivered p payload]
  | empties (w : Worker) : w.control = .events [] →
      Moves str p (some w) (some { w with control := .check }) []
  | accepts (w : Worker) (event : TradeEvent) (rest : List TradeEvent) (now : Rat) :
      w.control = .events (event :: rest) → w.state.validate event = none →
      Moves str p (some w)
        (some { w with state := w.state.accept now event, control := .events rest })
        [.accepted p event]
  | rejects (w : Worker) (event : TradeEvent) (rest : List TradeEvent) (violation : Violation)
      (state : ContestantState) (metrics : Metrics) : w.control = .events (event :: rest) →
      w.state.validate event = some violation → metrics.correctness = violation.message str →
      metrics.totalEvents = w.state.totalEvents → metrics.score = -1 →
      Moves str p (some w) (some { w with state := state, control := .zadd metrics none })
        [.rejected p violation]
  | checks (w : Worker) (control : Control) : w.control = .check →
      (control = .poll ∨ ∃ check, control = .measure check) →
      Moves str p (some w) (some { w with control := control }) []
  | measures (w : Worker) (check now : Rat) (metrics : Metrics) : w.control = .measure check →
      metrics.correctness = w.state.correctness → metrics.totalEvents = w.state.totalEvents →
      0 ≤ metrics.score → Moves str p (some w)
        (some { w with state := w.state.prune now, control := .zadd metrics (some check) }) []
  | zadd (w : Worker) (metrics : Metrics) (check : Option Rat) : w.control = .zadd metrics check →
      Moves str p (some w) (some { w with control := .hset metrics check }) [.zadded p w.id metrics]
  | hset (w : Worker) (metrics : Metrics) (check : Option Rat) : w.control = .hset metrics check →
      Moves str p (some w) (some { w with control := .publish metrics check })
        [.hashed p w.id metrics]
  | publish (w : Worker) (metrics : Metrics) (now : Rat) :
      w.control = .publish metrics (some now) →
      Moves str p (some w) (some { w with lastMetrics := now, control := .poll }) [.published p w.id]
  | retires (w : Worker) (metrics : Metrics) : w.control = .publish metrics none →
      Moves str p (some w) (some { w with control := .ended }) [.published p w.id]

/-- The calls of one process among those for a contestant are among its own. -/
theorem ofProcess_zaddsOf {more : List Output} (h : zadds p more = []) (id : String) :
    ofProcess p (zaddsOf id more) = [] := by
  refine List.map_eq_nil_iff.mpr (List.filter_eq_nil_iff.mpr fun call hcall hp => ?_)
  obtain ⟨o, ho, hcalled⟩ := List.mem_filterMap.mp hcall
  have hnone := List.filterMap_eq_nil_iff.mp h o ho
  cases o with
  | zadded q id' metrics =>
    by_cases hid : id' = id
    · simp only [hid, if_true, Option.some.injEq] at hcalled
      simp [← hcalled] at hp
      simp [hp] at hnone
    · simp [hid] at hcalled
  | _ => cases hcalled

/-- A worker stays with its contestant. -/
theorem Moves.owner {w w' : Worker} {more : List Output}
    (h : Moves str p (some w) (some w') more) : w'.id = w.id ∧ ∀ id,
      ofProcess p (zaddsOf id more) = if w.id = id then zadds p more else [] := by
  have hnone : zadds p more = [] →
      ∀ id, ofProcess p (zaddsOf id more) = if w.id = id then zadds p more else [] :=
    fun hnil id => by rw [ofProcess_zaddsOf hnil, hnil, ite_self]
  cases h with
  | zadd w metrics check hc =>
    refine ⟨rfl, fun id => ?_⟩
    rw [zaddsOf_zadded]
    by_cases hid : w.id = id <;> simp [hid, zadds]
  | _ => exact ⟨rfl, hnone rfl⟩

/-- What a step accepts is the next event of the payload. -/
theorem Moves.accepted_next {w w' : Worker} {more : List Output}
    (h : Moves str p (some w) (some w') more) : accepted p more = [] ∨
      ∃ event rest, w.control = .events (event :: rest) ∧ w.state.validate event = none ∧
        accepted p more = [event] := by
  cases h with
  | accepts w event rest now hc hnone =>
    exact Or.inr ⟨event, rest, hc, hnone, by simp [accepted]⟩
  | _ => exact Or.inl rfl

/-- What a step calls `zadd` with was measured before. -/
theorem Moves.zadds_next {w w' : Worker} {more : List Output}
    (h : Moves str p (some w) (some w') more) : zadds p more = [] ∨
      ∃ metrics check, w.control = .zadd metrics check ∧ zadds p more = [metrics] := by
  cases h with
  | zadd w metrics check hc => exact Or.inr ⟨metrics, check, hc, by simp [zadds]⟩
  | _ => exact Or.inl rfl

end Moves

/-! ## The verdict -/

/-- Metrics of a contestant of whom `n` events were accepted, and none was rejected. -/
structure Passing (n : Nat) (metrics : Metrics) : Prop where
  correctness : metrics.correctness = "PASSED"
  score : 0 ≤ metrics.score
  totalEvents : metrics.totalEvents ≤ n

/-- Metrics of a contestant who is disqualified behind `n` accepted events. -/
structure Final (str : Double → String) (violation : Violation) (n : Nat) (metrics : Metrics) :
    Prop where
  correctness : metrics.correctness = violation.message str
  score : metrics.score = -1
  totalEvents : metrics.totalEvents = n

/-- What the validator says of these events in turn, whatever the clock reads. -/
def Says (verdict : Option Violation) (events : List TradeEvent) : Prop :=
  ∀ windowSeconds stream, stream.map Prod.snd = events →
    (ContestantState.new windowSeconds).feed stream = verdict

/-- The events that a worker has yet to validate. -/
def Control.rest : Control → List TradeEvent
  | .events rest => rest
  | _ => []

/-- The worker is behind `zadd` and before the end of `publish_metrics`. -/
def Control.publishing : Control → Bool
  | .hset _ _ | .publish _ _ => true
  | _ => false

/-- The worker does not end a disqualification. -/
def Control.undecided : Control → Bool
  | .zadd _ none | .hset _ none | .publish _ none => false
  | _ => true

section Verdict
variable {str : Double → String} {p : Nat} {out more : List Output} {w : Worker}

/-- What the state remembers of the accepted events. -/
structure Remembers (accepted : List TradeEvent) (state : ContestantState) : Prop where
  synced : state.Synced
  prevEvent : state.prevEvent = accepted.getLast?
  totalEvents : state.totalEvents = accepted.length

/-- The violation of the event behind those that were accepted. -/
theorem Remembers.says {events : List TradeEvent} {state : ContestantState}
    (h : Remembers events state) (hformed : ∀ event ∈ events, event.WellFormed)
    (hchain : events.IsChain TradeEvent.Follows) (event : TradeEvent) :
    Says (state.validate event) (events ++ [event]) := by
  intro windowSeconds stream hstream
  obtain ⟨stream, last, rfl, rfl, hlast⟩ := List.map_eq_append_iff.mp hstream
  obtain ⟨⟨now, event'⟩, rfl, heq⟩ := List.map_eq_singleton_iff.mp hlast
  cases heq
  have hpass : (ContestantState.new windowSeconds).feed stream = none :=
    (ContestantState.feed_eq_none (ContestantState.synced_new _) stream).mpr
      ⟨fun entry hentry => hformed _ (List.mem_map_of_mem hentry), hchain⟩
  exact ContestantState.feed_concat (ContestantState.synced_new _) hpass h.synced h.prevEvent

/-- Where a worker stands. -/
inductive Stage (str : Double → String) (p : Nat) (out : List Output) (w : Worker) : Prop
  | passing : rejected p out = [] → w.state.correctness = "PASSED" →
      Remembers (accepted p out) w.state → w.control.undecided = true →
      accepted p out ++ w.control.rest = eventsOf (delivered p out) →
      (∀ metrics ∈ zadds p out, Passing (accepted p out).length metrics) →
      (∀ metrics check, w.control = .zadd metrics check →
        Passing (accepted p out).length metrics ∧ metrics.totalEvents = (accepted p out).length) →
      Stage str p out w
  | rejected (event : TradeEvent) (violation : Violation) (passing final : List Metrics)
      (metrics : Metrics) : rejected p out = [violation] →
      accepted p out ++ [event] <+: eventsOf (delivered p out) →
      Says (some violation) (accepted p out ++ [event]) → zadds p out = passing ++ final →
      (∀ metrics ∈ passing, Passing (accepted p out).length metrics) →
      Final str violation (accepted p out).length metrics →
      (w.control = .zadd metrics none ∧ final = [] ∨
        (w.control = .hset metrics none ∨ w.control = .publish metrics none ∨
          w.control = .ended) ∧ final = [metrics]) →
      Stage str p out w

/-- What holds of the trace of one worker, before it is started and after. -/
structure Judged (str : Double → String) (p : Nat) (out : List Output) (w : Option Worker) :
    Prop where
  formed : ∀ event ∈ accepted p out, event.WellFormed
  chain : (accepted p out).IsChain TradeEvent.Follows
  counts : (zadds p out).Pairwise fun metrics later => metrics.totalEvents ≤ later.totalEvents
  unstarted : w = none → Silent p out
  owner : ∀ id, ofProcess p (zaddsOf id out) =
    if w.map Worker.id = some id then zadds p out else []
  stage : ∀ w' ∈ w, Stage str p out w'

theorem Passing.mono {n n' : Nat} {metrics : Metrics} (h : Passing n metrics) (hn : n ≤ n') :
    Passing n' metrics := { h with totalEvents := h.totalEvents.trans hn }

theorem remembers_accept {events : List TradeEvent} {state : ContestantState}
    (h : Remembers events state) (now : Rat) (event : TradeEvent) :
    Remembers (events ++ [event]) (state.accept now event) where
  synced := ContestantState.synced_accept state now event
  prevEvent := by
    rw [List.getLast?_append]
    rfl
  totalEvents := by
    rw [List.length_append, ← h.totalEvents]
    rfl

/-- Behind a violation the worker publishes, or has ended. -/
theorem ended_of_undecided {metrics : Metrics} {final : List Metrics}
    (h : w.control = .zadd metrics none ∧ final = [] ∨
      (w.control = .hset metrics none ∨ w.control = .publish metrics none ∨
        w.control = .ended) ∧ final = [metrics])
    (hopen : w.control.undecided = true) : w.control = .ended := by
  rcases h with ⟨hc, -⟩ | ⟨hc | hc | hc, -⟩
  · rw [hc] at hopen
    cases hopen
  · rw [hc] at hopen
    cases hopen
  · rw [hc] at hopen
    cases hopen
  · exact hc

namespace Stage

/-- A worker that goes on, with nothing new in its trace but payloads. -/
theorem goesOn (h : Stage str p out w) {w' : Worker} (haccepted : accepted p more = [])
    (hrejected : Leaderboard.rejected p more = []) (hzadds : zadds p more = [])
    (hstate : w'.state = w.state) (hopen : w.control.undecided = true) (hcontrol : w.control ≠ .ended)
    (hopen' : w'.control.undecided = true)
    (hevents : accepted p out ++ w.control.rest = eventsOf (delivered p out) →
      accepted p out ++ w'.control.rest = eventsOf (delivered p (out ++ more)))
    (hno : ∀ metrics check, w'.control = .zadd metrics check → w.control = .zadd metrics check) :
    Stage str p (out ++ more) w' := by
  cases h with
  | passing hnone hpassed hremembers _ hrest hzadds' hzadd =>
    have haccepted' : accepted p (out ++ more) = accepted p out := by
      rw [accepted_append, haccepted, List.append_nil]
    refine .passing (by rw [rejected_append, hnone, hrejected]; rfl) (hstate ▸ hpassed)
      (by rw [haccepted', hstate]; exact hremembers) hopen' ?_ ?_ ?_
    · rw [haccepted']
      exact hevents hrest
    · rw [haccepted', zadds_append, hzadds, List.append_nil]
      exact hzadds'
    · intro metrics check hc
      rw [haccepted']
      exact hzadd metrics check (hno metrics check hc)
  | rejected event violation passing final metrics _ _ _ _ _ _ hends =>
    exact absurd (ended_of_undecided hends hopen) hcontrol

theorem silent (h : Stage str p out w) (hmore : Silent p more) {w' : Worker}
    (hstate : w'.state = w.state) (hcontrol : w'.control = w.control) :
    Stage str p (out ++ more) w' := by
  obtain ⟨hdelivered, haccepted, hrejected, hzadds⟩ := hmore
  cases h with
  | passing h₁ h₂ h₃ h₄ h₅ h₆ h₇ =>
    refine .passing ?_ (hstate ▸ h₂) ?_ (hcontrol ▸ h₄) ?_ ?_ ?_
    all_goals
      simp only [delivered_append, accepted_append, rejected_append, zadds_append, hdelivered,
        haccepted, hrejected, hzadds, List.append_nil, hstate, hcontrol]
    all_goals assumption
  | rejected event violation passing final metrics h₁ h₂ h₃ h₄ h₅ h₆ h₇ =>
    refine .rejected event violation passing final metrics ?_ ?_ ?_ ?_ ?_ ?_ ?_
    all_goals
      simp only [delivered_append, accepted_append, rejected_append, zadds_append, hdelivered,
        haccepted, hrejected, hzadds, List.append_nil, hcontrol]
    all_goals assumption

theorem zadd (h : Stage str p out w) {metrics : Metrics} {check : Option Rat}
    (hc : w.control = .zadd metrics check) :
    Stage str p (out ++ [.zadded p w.id metrics]) { w with control := .hset metrics check } := by
  have hnew : zadds p [.zadded p w.id metrics] = [metrics] := by simp [zadds]
  have haccepted : accepted p (out ++ [.zadded p w.id metrics]) = accepted p out := by simp [accepted]
  have hrejected : Leaderboard.rejected p (out ++ [.zadded p w.id metrics]) =
      Leaderboard.rejected p out := by simp [Leaderboard.rejected]
  have hdelivered : delivered p (out ++ [.zadded p w.id metrics]) = delivered p out := by
    simp [delivered]
  cases h with
  | passing h₁ h₂ h₃ h₄ h₅ h₆ h₇ =>
    rw [hc] at h₄ h₅
    refine .passing (hrejected.trans h₁) h₂ (haccepted ▸ h₃) ?_ ?_ ?_ (by simp)
    · cases check with
      | none => cases h₄
      | some check => rfl
    · rw [haccepted, hdelivered]
      exact h₅
    · rw [zadds_append, hnew, haccepted]
      intro metrics' hmem
      rcases List.mem_append.mp hmem with hmem | hmem
      · exact h₆ metrics' hmem
      · rw [List.mem_singleton.mp hmem]
        exact (h₇ metrics check hc).1
  | rejected event violation passing final metrics' h₁ h₂ h₃ h₄ h₅ h₆ h₇ =>
    rcases h₇ with ⟨hzadd, hfinal⟩ | ⟨hends, -⟩
    · rw [hc] at hzadd
      cases hzadd
      refine .rejected event violation passing [metrics] metrics (hrejected.trans h₁) ?_ ?_ ?_ ?_ ?_
        (Or.inr ⟨Or.inl rfl, rfl⟩)
      · rw [haccepted, hdelivered]
        exact h₂
      · rw [haccepted]
        exact h₃
      · rw [zadds_append, hnew, h₄, hfinal, List.append_nil]
      · rw [haccepted]
        exact h₅
      · rw [haccepted]
        exact h₆
    · rw [hc] at hends
      rcases hends with hno | hno | hno <;> cases hno

/-- The rest of `publish_metrics`. -/
theorem publishes (h : Stage str p out w) (hmore : Silent p more) {w' : Worker}
    (hstate : w'.state = w.state) (hquiet : ∀ metrics check, w'.control ≠ .zadd metrics check)
    (hrest : w.control.rest = w'.control.rest)
    (hopen : w.control.undecided = true → w'.control.undecided = true)
    (hends : ∀ metrics, w.control = .hset metrics none ∨ w.control = .publish metrics none →
      w'.control = .publish metrics none ∨ w'.control = .ended)
    (hcontrol : w.control.publishing = true) : Stage str p (out ++ more) w' := by
  have hsame : Stage str p (out ++ more) w := h.silent hmore rfl rfl
  cases hsame with
  | passing h₁ h₂ h₃ h₄ h₅ h₆ h₇ =>
    exact .passing h₁ (hstate ▸ h₂) (hstate ▸ h₃) (hopen h₄) (hrest ▸ h₅) h₆
      fun metrics check hc => absurd hc (hquiet metrics check)
  | rejected event violation passing final metrics h₁ h₂ h₃ h₄ h₅ h₆ h₇ =>
    refine .rejected event violation passing final metrics h₁ h₂ h₃ h₄ h₅ h₆ (Or.inr ?_)
    rcases h₇ with ⟨hc, -⟩ | ⟨hc | hc | hc, hfinal⟩
    · rw [hc] at hcontrol
      cases hcontrol
    · exact ⟨Or.inr (hends metrics (Or.inl hc)), hfinal⟩
    · exact ⟨Or.inr (hends metrics (Or.inr hc)), hfinal⟩
    · rw [hc] at hcontrol
      cases hcontrol

theorem accepts (h : Stage str p out w) {event : TradeEvent} {rest : List TradeEvent} (now : Rat)
    (hc : w.control = .events (event :: rest)) :
    Stage str p (out ++ [.accepted p event])
      { w with state := w.state.accept now event, control := .events rest } := by
  have haccepted : accepted p (out ++ [.accepted p event]) = accepted p out ++ [event] := by
    simp [accepted]
  cases h with
  | passing h₁ h₂ h₃ h₄ h₅ h₆ h₇ =>
    refine .passing (by simpa [Leaderboard.rejected] using h₁) h₂
      (haccepted ▸ remembers_accept h₃ now event) rfl ?_ ?_ nofun
    · have hdelivered : delivered p (out ++ [.accepted p event]) = delivered p out := by
        simp [delivered]
      rw [hc] at h₅
      rw [haccepted, hdelivered, List.append_assoc]
      exact h₅
    · have hzadds : zadds p (out ++ [.accepted p event]) = zadds p out := by simp [zadds]
      rw [hzadds, haccepted, List.length_append]
      exact fun metrics hmem => (h₆ metrics hmem).mono (Nat.le_add_right _ _)
  | rejected _ _ _ _ _ _ _ _ _ _ _ h₇ =>
    have hended := ended_of_undecided h₇ (by rw [hc]; rfl)
    rw [hc] at hended
    cases hended

theorem rejects (h : Stage str p out w) (hformed : ∀ event ∈ accepted p out, event.WellFormed)
    (hchain : (accepted p out).IsChain TradeEvent.Follows) {event : TradeEvent}
    {rest : List TradeEvent} {violation : Violation} (state : ContestantState) {metrics : Metrics}
    (hc : w.control = .events (event :: rest)) (hviolation : w.state.validate event = some violation)
    (hmetrics : metrics.correctness = violation.message str)
    (htotal : metrics.totalEvents = w.state.totalEvents) (hscore : metrics.score = -1) :
    Stage str p (out ++ [.rejected p violation])
      { w with state := state, control := .zadd metrics none } := by
  have haccepted : accepted p (out ++ [.rejected p violation]) = accepted p out := by
    simp [accepted]
  cases h with
  | passing h₁ h₂ h₃ h₄ h₅ h₆ h₇ =>
    have hsays := h₃.says hformed hchain event
    rw [hviolation] at hsays
    refine .rejected event violation (zadds p out) [] metrics ?_ ?_ ?_ ?_ ?_ ?_
      (Or.inl ⟨rfl, rfl⟩)
    · rw [rejected_append, h₁]
      simp [Leaderboard.rejected]
    · have hdelivered : delivered p (out ++ [.rejected p violation]) = delivered p out := by
        simp [delivered]
      rw [hc] at h₅
      rw [haccepted, hdelivered, ← h₅]
      exact ⟨rest, List.append_assoc _ _ _⟩
    · rw [haccepted]
      exact hsays
    · simp [zadds]
    · rw [haccepted]
      exact h₆
    · rw [haccepted]
      exact ⟨hmetrics, hscore, htotal.trans h₃.totalEvents⟩
  | rejected _ _ _ _ _ _ _ _ _ _ _ h₇ =>
    have hended := ended_of_undecided h₇ (by rw [hc]; rfl)
    rw [hc] at hended
    cases hended

theorem measures (h : Stage str p out w) {check : Rat} (now : Rat) {metrics : Metrics}
    (hc : w.control = .measure check) (hcorrectness : metrics.correctness = w.state.correctness)
    (htotal : metrics.totalEvents = w.state.totalEvents) (hscore : 0 ≤ metrics.score) :
    Stage str p out
      { w with state := w.state.prune now, control := .zadd metrics (some check) } := by
  cases h with
  | passing h₁ h₂ h₃ h₄ h₅ h₆ h₇ =>
    rw [hc] at h₅
    refine .passing h₁ h₂ ⟨⟨h₃.synced.lastMatchId, h₃.synced.lastT2Ns⟩, h₃.prevEvent,
      h₃.totalEvents⟩ rfl h₅ h₆ fun metrics' check' hzadd => ?_
    cases hzadd
    have hcount := htotal.trans h₃.totalEvents
    exact ⟨⟨hcorrectness.trans h₂, hscore, hcount.le⟩, hcount⟩
  | rejected _ _ _ _ _ _ _ _ _ _ _ h₇ =>
    have hended := ended_of_undecided h₇ (by rw [hc]; rfl)
    rw [hc] at hended
    cases hended

/-- **Every step of a worker keeps to its stage.** -/
theorem moves (h : Stage str p out w) (hformed : ∀ event ∈ accepted p out, event.WellFormed)
    (hchain : (accepted p out).IsChain TradeEvent.Follows) {w' : Worker}
    (hmoves : Moves str p (some w) (some w') more) : Stage str p (out ++ more) w' := by
  cases hmoves with
  | stays => exact h.silent ⟨rfl, rfl, rfl, rfl⟩ rfl rfl
  | flags w running killed => exact h.silent ⟨rfl, rfl, rfl, rfl⟩ rfl rfl
  | ends w hc | idles w hc | empties w hc =>
    exact h.goesOn rfl rfl rfl rfl (by rw [hc]; rfl) (by simp [hc]) rfl
      (by rw [hc, List.append_nil]; exact fun hevents => hevents) (by simp)
  | checks w control hc hcontrol =>
    have hnext : control.rest = [] ∧ control.undecided = true ∧
        ∀ metrics check, control ≠ .zadd metrics check := by
      rcases hcontrol with rfl | ⟨check, rfl⟩
      · exact ⟨rfl, rfl, (by simp)⟩
      · exact ⟨rfl, rfl, (by simp)⟩
    refine h.goesOn rfl rfl rfl rfl (by rw [hc]; rfl) (by simp [hc]) hnext.2.1
      (fun hevents => ?_) fun metrics check heq => absurd heq (hnext.2.2 metrics check)
    rw [hc] at hevents
    rw [hnext.1, List.append_nil out]
    exact hevents
  | chokes w payload hc hnone =>
    refine h.goesOn (by simp [accepted]) (by simp [Leaderboard.rejected]) (by simp [zadds]) rfl
      (by rw [hc]; rfl) (by simp [hc]) rfl (fun hevents => ?_) (by simp)
    rw [hc] at hevents
    have hnew : eventsOf (delivered p [.delivered p payload]) = [] := by
      simp [delivered, eventsOf, hnone]
    rw [delivered_append, eventsOf_append, hnew, List.append_nil]
    exact hevents
  | unpacks w payload events hc hok =>
    refine h.goesOn (by simp [accepted]) (by simp [Leaderboard.rejected]) (by simp [zadds]) rfl
      (by rw [hc]; rfl) (by simp [hc]) rfl (fun hevents => ?_) (by simp)
    rw [hc] at hevents
    have hnew : eventsOf (delivered p [.delivered p payload]) = events := by
      simp [delivered, eventsOf, hok, Except.toOption]
    rw [delivered_append, eventsOf_append, hnew, ← hevents]
    exact (congrArg (· ++ events) (List.append_nil _)).symm
  | accepts w event rest now hc hnone => exact h.accepts now hc
  | rejects w event rest violation state metrics hc hviolation hmetrics htotal hscore =>
    exact h.rejects hformed hchain state hc hviolation hmetrics htotal hscore
  | measures w check now metrics hc hcorrectness htotal hscore =>
    rw [List.append_nil]
    exact h.measures now hc hcorrectness htotal hscore
  | zadd w metrics check hc => exact h.zadd hc
  | hset w metrics check hc =>
    refine h.publishes ⟨rfl, rfl, rfl, rfl⟩ rfl (by simp) (by rw [hc]; rfl)
      (by rw [hc]; cases check <;> exact fun hopen => hopen) (fun metrics' hc' => ?_)
      (by rw [hc]; rfl)
    rw [hc] at hc'
    rcases hc' with hc' | hc' <;> cases hc'
    exact Or.inl rfl
  | publish w metrics now hc =>
    refine h.publishes ⟨rfl, rfl, rfl, rfl⟩ rfl (by simp) (by rw [hc]; rfl) (fun _ => rfl)
      (fun metrics' hc' => ?_) (by rw [hc]; rfl)
    rw [hc] at hc'
    rcases hc' with hc' | hc' <;> cases hc'
  | retires w metrics hc =>
    exact h.publishes ⟨rfl, rfl, rfl, rfl⟩ rfl (by simp) (by rw [hc]; rfl) (fun _ => rfl)
      (fun _ _ => Or.inr rfl) (by rw [hc]; rfl)

end Stage

/-- What a started worker shows first. -/
theorem stage_new (id : String) (windowSeconds interval now : Rat) (h : Silent p out) :
    Stage str p out ⟨id, .new windowSeconds, interval, now, true, false, .poll⟩ := by
  refine .passing h.rejected rfl ⟨ContestantState.synced_new _, ?_, ?_⟩ rfl ?_ ?_ nofun
  · rw [h.accepted]
    rfl
  · rw [h.accepted]
    rfl
  · rw [h.accepted, h.delivered]
    rfl
  · rw [h.zadds]
    nofun

namespace Judged

/-- Another worker moves, or a client. -/
theorem silent {w : Option Worker} (h : Judged str p out w) (hmore : Silent p more) :
    Judged str p (out ++ more) w where
  formed := by
    rw [accepted_append, hmore.accepted, List.append_nil]
    exact h.formed
  chain := by
    rw [accepted_append, hmore.accepted, List.append_nil]
    exact h.chain
  counts := by
    rw [zadds_append, hmore.zadds, List.append_nil]
    exact h.counts
  unstarted hw := by
    have hsilent := h.unstarted hw
    exact ⟨by rw [delivered_append, hsilent.delivered, hmore.delivered]; rfl,
      by rw [accepted_append, hsilent.accepted, hmore.accepted]; rfl,
      by rw [rejected_append, hsilent.rejected, hmore.rejected]; rfl,
      by rw [zadds_append, hsilent.zadds, hmore.zadds]; rfl⟩
  owner id := by
    rw [zaddsOf_append, ofProcess_append, ofProcess_zaddsOf hmore.zadds, zadds_append, hmore.zadds,
      List.append_nil, List.append_nil]
    exact h.owner id
  stage w' hw' := (h.stage w' hw').silent hmore rfl rfl

/-- What `zadd` is called with counts the events up to now. -/
theorem counted {w : Worker} (h : Stage str p out w) {metrics : Metrics} {check : Option Rat}
    (hc : w.control = .zadd metrics check) :
    ∀ before ∈ zadds p out, before.totalEvents ≤ metrics.totalEvents := by
  intro before hbefore
  cases h with
  | passing h₁ h₂ h₃ h₄ h₅ h₆ h₇ =>
    rw [(h₇ metrics check hc).2]
    exact (h₆ before hbefore).totalEvents
  | rejected event violation passing final metrics' h₁ h₂ h₃ h₄ h₅ h₆ h₇ =>
    rcases h₇ with ⟨hzadd, hfinal⟩ | ⟨hends, -⟩
    · rw [hc] at hzadd
      cases hzadd
      rw [h₄, hfinal, List.append_nil] at hbefore
      rw [h₆.totalEvents]
      exact (h₅ before hbefore).totalEvents
    · rw [hc] at hends
      rcases hends with hno | hno | hno <;> cases hno

/-- The event that is accepted goes on with those before. -/
theorem follows {w : Worker} (h : Judged str p out (some w)) {event : TradeEvent}
    {rest : List TradeEvent} (hc : w.control = .events (event :: rest))
    (hvalid : w.state.validate event = none) :
    event.WellFormed ∧ (accepted p out ++ [event]).IsChain TradeEvent.Follows := by
  cases h.stage w rfl with
  | passing h₁ h₂ h₃ h₄ h₅ h₆ h₇ =>
    obtain ⟨hformed, hfollows⟩ := (ContestantState.validate_eq_none h₃.synced).mp hvalid
    refine ⟨hformed, List.isChain_append.mpr ⟨h.chain, List.isChain_singleton _, ?_⟩⟩
    intro prev hprev next hnext
    cases hnext
    exact hfollows prev (h₃.prevEvent ▸ hprev)
  | rejected _ _ _ _ _ _ _ _ _ _ _ h₇ =>
    have hended := ended_of_undecided h₇ (by rw [hc]; rfl)
    rw [hc] at hended
    cases hended

/-- What a step accepts goes on with the events before. -/
theorem accepts {w w' : Worker} (h : Judged str p out (some w))
    (hmoves : Moves str p (some w) (some w') more) :
    (∀ event ∈ accepted p (out ++ more), event.WellFormed) ∧
      (accepted p (out ++ more)).IsChain TradeEvent.Follows := by
  rw [accepted_append]
  rcases hmoves.accepted_next with hnil | ⟨event, rest, hc, hvalid, hnew⟩
  · rw [hnil, List.append_nil]
    exact ⟨h.formed, h.chain⟩
  · obtain ⟨hformed, hchain⟩ := h.follows hc hvalid
    rw [hnew]
    refine ⟨fun event' hevent' => ?_, hchain⟩
    rcases List.mem_append.mp hevent' with hold | hlast
    · exact h.formed event' hold
    · exact List.mem_singleton.mp hlast ▸ hformed

/-- What a step publishes counts no fewer events than what was published before. -/
theorem publishes {w w' : Worker} (h : Judged str p out (some w))
    (hmoves : Moves str p (some w) (some w') more) :
    (zadds p (out ++ more)).Pairwise fun metrics later =>
      metrics.totalEvents ≤ later.totalEvents := by
  rw [zadds_append]
  rcases hmoves.zadds_next with hnil | ⟨metrics, check, hc, hnew⟩
  · rw [hnil, List.append_nil]
    exact h.counts
  · rw [hnew]
    refine List.pairwise_append.mpr ⟨h.counts, List.pairwise_singleton _ _, ?_⟩
    intro before hbefore metrics' hmem
    rw [List.mem_singleton.mp hmem]
    exact counted (h.stage w rfl) hc before hbefore

/-- **Every step of the worker is judged.** -/
theorem moves {w w' : Option Worker} (h : Judged str p out w) (hmoves : Moves str p w w' more) :
    Judged str p (out ++ more) w' := by
  cases w with
  | none =>
    cases hmoves with
    | stays => exact h.silent ⟨rfl, rfl, rfl, rfl⟩
    | starts id windowSeconds interval now =>
      rw [List.append_nil]
      refine ⟨h.formed, h.chain, h.counts, nofun, fun id' => ?_, fun w' hw' => ?_⟩
      · rw [h.owner id', (h.unstarted rfl).zadds, ite_self, ite_self]
      cases hw'
      exact stage_new id windowSeconds interval now (h.unstarted rfl)
  | some w =>
    obtain ⟨w', rfl⟩ : ∃ w'', w' = some w'' := by cases hmoves <;> exact ⟨_, rfl⟩
    obtain ⟨hformed, hchain⟩ := h.accepts hmoves
    refine ⟨hformed, hchain, h.publishes hmoves, nofun, fun id => ?_, fun w'' hw'' => ?_⟩
    · obtain ⟨hid, hcalls⟩ := hmoves.owner
      have howner := h.owner id
      simp only [Option.map_some, Option.some.injEq] at howner ⊢
      rw [zaddsOf_append, ofProcess_append, zadds_append, howner, hcalls id, hid]
      split <;> rfl
    · cases hw''
      exact (h.stage w rfl).moves h.formed h.chain hmoves

end Judged

end Verdict

end TradePlat.Leaderboard
