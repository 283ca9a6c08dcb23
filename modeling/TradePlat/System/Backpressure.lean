import Mathlib.Data.List.Range
import TradePlat.Scorer.NoFalsePositives
import TradePlat.System.TradeFeed

/-!
# Backpressure of the offloader (`MatchingEngine.cpp`, `KafkaOffloader.h`)

An event whose `publish` finds the queue full is dropped, with its match id. If a
later `publish` finds room again, the ids of the published events have a gap there,
which the scorer reports as `MATCH_SEQUENCE`. So the ids are consecutive exactly where
no `publish` finds room behind one that found the queue full
(`published_consecutive`).
-/

namespace TradePlat.TradeFeed
open Runs Engine KafkaOffloader Binary64

variable {E P : Type}

/-! ## The steps of `publish` -/

/-- The next access of `tryPush` finds room in the queue. -/
def FindsRoom (queue : SPSCQueue.State 64 E) : Prop :=
  match queue.producer with
  | .loadTail _ head => ¬ BitVec.ofNat 64 queueCapacity.value < head + 1#64 - queue.tail
  | _ => False

instance (queue : SPSCQueue.State 64 E) : Decidable (FindsRoom queue) := by
  unfold FindsRoom
  cases queue.producer <;> infer_instance

/-- A call of `tryPush` behind its test. -/
def Pushes : SPSCQueue.TryPush 64 E → Prop
  | .copyValue _ _ | .storeHead _ _ => True
  | _ => False

/-- The call of `publish` under way has found room. -/
def FoundRoom (s : KafkaOffloader.State E) : Prop :=
  Pushes s.queue.producer ∨ s.publisher.pushed ≠ []

theorem not_foundRoom {s : KafkaOffloader.State E} (hidle : s.queue.producer = .idle)
    (hpushed : s.publisher.pushed = []) : ¬ FoundRoom s := by
  rintro (hpush | hpush)
  · rw [hidle] at hpush
    exact hpush
  · exact hpush hpushed

theorem not_findsRoom {queue : SPSCQueue.State 64 E} (hidle : queue.producer = .idle) :
    ¬ FindsRoom queue := by
  simp [FindsRoom, hidle]

/-- What a step of the offloader does to the calls of `publish`. -/
inductive Moves (s : KafkaOffloader.State E) (i : KafkaOffloader.Input E) : Prop
  | goesOn (returns : returns (KafkaOffloader.step s i).2 = [])
      (dropped : (KafkaOffloader.step s i).1.dropped = s.dropped)
      (keeps : FoundRoom s → FoundRoom (KafkaOffloader.step s i).1)
      (finds : FoundRoom (KafkaOffloader.step s i).1 → FoundRoom s ∨ i = .matching ∧ FindsRoom s.queue)
      (found : i = .matching → FindsRoom s.queue → FoundRoom (KafkaOffloader.step s i).1)
  | published (event : E) (found : s.publisher = .countPublished event)
      (returns : returns (KafkaOffloader.step s i).2 = [(event, true)])
      (dropped : (KafkaOffloader.step s i).1.dropped = s.dropped)
      (ended : ¬ FoundRoom (KafkaOffloader.step s i).1)
  | dropped (event : E) (full : s.publisher = .countDropped event) (closed : ¬ FoundRoom s)
      (returns : returns (KafkaOffloader.step s i).2 = [(event, false)])
      (dropped : (KafkaOffloader.step s i).1.dropped = s.dropped + 1)
      (ended : ¬ FoundRoom (KafkaOffloader.step s i).1)

section Moves
variable {started : Bool} {out : List (Output E)} {s : KafkaOffloader.State E}

/-- A step that leaves the calls of `publish` alone. -/
theorem Moves.other {i : KafkaOffloader.Input E} (hi : i ≠ .matching)
    (hreturns : returns (KafkaOffloader.step s i).2 = [])
    (hdropped : (KafkaOffloader.step s i).1.dropped = s.dropped)
    (hpublisher : (KafkaOffloader.step s i).1.publisher = s.publisher)
    (hproducer : (KafkaOffloader.step s i).1.queue.producer = s.queue.producer) : Moves s i := by
  have hfound : FoundRoom (KafkaOffloader.step s i).1 ↔ FoundRoom s := by
    unfold FoundRoom
    rw [hpublisher, hproducer]
  exact .goesOn hreturns hdropped hfound.mpr (fun h => Or.inl (hfound.mp h))
    fun hm => absurd hm hi

theorem returns_runStep (s : KafkaOffloader.State E) (accepted : Bool) :
    returns (runStep s accepted).2 = [] := by
  unfold runStep
  cases s.worker with
  | tryPop count => exact (queueOuts_queue _).2.1
  | _ => rfl

theorem runStep_frame (s : KafkaOffloader.State E) (accepted : Bool) :
    (runStep s accepted).1.dropped = s.dropped ∧
      (runStep s accepted).1.publisher = s.publisher ∧
      (runStep s accepted).1.queue.producer = s.queue.producer := by
  unfold runStep
  cases s.worker with
  | tryPop count => exact ⟨rfl, rfl, SPSCQueue.popStep_producer _ _⟩
  | _ => exact ⟨rfl, rfl, rfl⟩

/-- The steps of `tryPush`. -/
theorem moves_tryPush (h : Traced started out s) (hp : s.publisher = .tryPush) :
    Moves s .matching := by
  have hbusy := h.publisher
  rw [hp] at hbusy
  have hstep : KafkaOffloader.step s .matching =
      ({ s with
          queue := (SPSCQueue.pushStep queueCapacity s.queue).1
          publisher := s.pushed (SPSCQueue.pushStep queueCapacity s.queue).2 },
        (SPSCQueue.pushStep queueCapacity s.queue).2.map .queue) := by
    change publishStep s = _
    simp only [publishStep, hp]
  have hreturns : returns (KafkaOffloader.step s .matching).2 = [] := by
    rw [hstep]
    exact (queueOuts_queue _).2.1
  have hdropped : (KafkaOffloader.step s .matching).1.dropped = s.dropped := by rw [hstep]
  have hsame : s.pushed [] = .tryPush := hp
  cases hq : s.queue.producer with
  | idle => exact absurd hq hbusy
  | loadHead event =>
    rw [SPSCQueue.pushStep_loadHead hq] at hstep
    refine .goesOn hreturns hdropped ?_ ?_ ?_ <;> rw [hstep] <;>
      simp [FoundRoom, FindsRoom, Pushes, Publish.pushed, hq, hp, hsame]
  | loadTail event head =>
    rw [SPSCQueue.pushStep_loadTail hq] at hstep
    by_cases hfull : BitVec.ofNat 64 queueCapacity.value < head + 1#64 - s.queue.tail
    · rw [if_pos hfull] at hstep
      refine .goesOn hreturns hdropped ?_ ?_ ?_ <;> rw [hstep] <;>
        simp [FoundRoom, FindsRoom, Pushes, Publish.pushed, hq, hp, hfull, State.pushed]
    · rw [if_neg hfull] at hstep
      refine .goesOn hreturns hdropped ?_ ?_ ?_ <;> rw [hstep] <;>
        simp [FoundRoom, FindsRoom, Pushes, Publish.pushed, hq, hp, hfull, hsame]
  | copyValue event head =>
    rw [SPSCQueue.pushStep_copyValue hq] at hstep
    refine .goesOn hreturns hdropped ?_ ?_ ?_ <;> rw [hstep] <;>
      simp [FoundRoom, FindsRoom, Pushes, Publish.pushed, hq, hp, hsame]
  | storeHead event head =>
    rw [SPSCQueue.pushStep_storeHead hq] at hstep
    refine .goesOn hreturns hdropped ?_ ?_ ?_ <;> rw [hstep] <;>
      simp [FoundRoom, FindsRoom, Pushes, Publish.pushed, hq, hp, State.pushed]

theorem moves_matching (h : Traced started out s) : Moves s .matching := by
  have hok := h.publisher
  have hstep : KafkaOffloader.step s .matching = publishStep s := rfl
  cases hp : s.publisher with
  | idle =>
    rw [hp] at hok
    have hstill : KafkaOffloader.step s .matching = (s, []) := by
      rw [hstep]
      simp only [publishStep, hp]
    refine .goesOn ?_ ?_ ?_ ?_ ?_ <;> rw [hstill]
    · rfl
    · exact id
    · exact Or.inl
    · exact fun _ hfinds => absurd hfinds (not_findsRoom hok)
  | tryPush => exact moves_tryPush h hp
  | countDropped event =>
    rw [hp] at hok
    have hdrop : KafkaOffloader.step s .matching =
        ({ s with dropped := s.dropped + 1, publisher := .countTradeEventsDropped },
          [.returned event false]) := by
      rw [hstep]
      simp only [publishStep, hp]
    refine .dropped event hp (not_foundRoom hok (by rw [hp]; rfl)) ?_ ?_ ?_ <;> rw [hdrop]
    · rfl
    · exact not_foundRoom hok rfl
  | countPublished event =>
    rw [hp] at hok
    have hpublish : KafkaOffloader.step s .matching =
        ({ s with published := s.published + 1, publisher := .idle },
          [.returned event true]) := by
      rw [hstep]
      simp only [publishStep, hp]
    refine .published event hp ?_ ?_ ?_ <;> rw [hpublish]
    · rfl
    · exact not_foundRoom hok rfl
  | countTradeEventsDropped =>
    rw [hp] at hok
    have hcount : KafkaOffloader.step s .matching =
        ({ s with tradeEventsDropped := s.tradeEventsDropped + 1, publisher := .idle }, []) := by
      rw [hstep]
      simp only [publishStep, hp]
    have hbefore : ¬ FoundRoom s := not_foundRoom hok (by rw [hp]; rfl)
    refine .goesOn ?_ ?_ ?_ ?_ ?_ <;> rw [hcount]
    · rfl
    · exact fun hfound => absurd hfound hbefore
    · exact fun hfound => absurd hfound (not_foundRoom hok rfl)
    · exact fun _ hfinds => absurd hfinds (not_findsRoom hok)

/-- Only an access of `tryPush` finds room. -/
theorem publisher_of_room (h : Traced started out s) (hroom : FindsRoom s.queue) :
    s.publisher = .tryPush := by
  have hok := h.publisher
  cases hp : s.publisher with
  | tryPush => rfl
  | _ =>
    rw [hp] at hok
    exact absurd hroom (not_findsRoom hok)

/-- **Every step of the offloader is one of the three.** -/
theorem moves (h : Traced started out s) (i : KafkaOffloader.Input E) : Moves s i := by
  cases i with
  | publish event =>
    have hok := h.publisher
    by_cases hp : s.publisher = .idle ∧ s.stop = .notCalled
    · rw [hp.1] at hok
      have hstep : KafkaOffloader.step s (.publish event) =
          ({ s with
              queue := { s.queue with producer := .loadHead event }
              publisher := .tryPush }, [.queue (.called event)]) := by
        simp only [KafkaOffloader.step, hp.1, hp.2]
        rw [SPSCQueue.step_tryPush hok]
        rfl
      have hbefore : ¬ FoundRoom s := not_foundRoom hok (by rw [hp.1]; rfl)
      refine .goesOn ?_ ?_ ?_ ?_ (by simp) <;> rw [hstep]
      · rfl
      · exact fun hfound => absurd hfound hbefore
      · rintro (hpush | hpush)
        · exact absurd hpush id
        · exact absurd rfl hpush
    · have hstep : KafkaOffloader.step s (.publish event) = (s, []) := by
        simp only [KafkaOffloader.step]
        split
        · rename_i hp₁ hp₂
          exact absurd ⟨hp₁, hp₂⟩ hp
        · rfl
      exact .other (by simp) (by rw [hstep]; rfl) (by rw [hstep]) (by rw [hstep]) (by rw [hstep])
  | matching => exact moves_matching h
  | worker accepted =>
    obtain ⟨hdropped, hpublisher, hproducer⟩ := runStep_frame s accepted
    exact .other (by simp) (returns_runStep s accepted) hdropped hpublisher hproducer
  | stop =>
    refine .other (by simp) ?_ ?_ ?_ ?_ <;> simp only [KafkaOffloader.step] <;> split <;> rfl
  | join =>
    refine .other (by simp) ?_ ?_ ?_ ?_ <;> simp only [KafkaOffloader.step] <;> split <;> rfl

/-! ## Dropped events -/

/-- The published events are the first of those whose `publish` returned, and no call
behind a drop finds room. -/
def Orderly (out : List (Output E)) (s : KafkaOffloader.State E) : Prop :=
  published out <+: (returns out).map Prod.fst ∧ (0 < s.dropped → ¬ FoundRoom s)

theorem Orderly.next (h : Traced started out s) (ho : Orderly out s)
    {i : KafkaOffloader.Input E}
    (hroom : i = .matching → FindsRoom s.queue → s.dropped = 0) :
    Orderly (out ++ (KafkaOffloader.step s i).2) (KafkaOffloader.step s i).1 := by
  obtain ⟨hbegins, hclosed⟩ := ho
  unfold Orderly published
  rw [returns_append]
  cases moves h i with
  | goesOn hreturns hdropped hkeeps hfinds hfound =>
    rw [hreturns, List.append_nil, hdropped]
    refine ⟨hbegins, fun hpos hroomed => ?_⟩
    rcases hfinds hroomed with hbefore | ⟨hi, hfinds⟩
    · exact hclosed hpos hbefore
    · have := hroom hi hfinds
      omega
  | published event hp hreturns hdropped hended =>
    have hzero : s.dropped = 0 := by
      by_contra hne
      exact hclosed (Nat.pos_of_ne_zero hne) (Or.inr (by simp [hp, Publish.pushed]))
    have hall : answered false (returns out) = [] :=
      List.eq_nil_of_length_eq_zero (h.dropped.symm.trans hzero)
    rw [hreturns, answered_append, List.map_append, answered_true hall]
    exact ⟨List.prefix_refl _, fun _ => hended⟩
  | dropped event hp hclosed' hreturns hdropped hended =>
    have hlonger := hbegins.trans (List.prefix_append ((returns out).map Prod.fst) [event])
    rw [hreturns, answered_append, List.map_append]
    exact ⟨by simpa [published] using hlonger, fun _ => hended⟩

end Moves

/-! ## Match ids -/

/-- Each match id is the one before it plus one. -/
def Consecutive (events : List (TradeEvent P)) : Prop :=
  events.IsChain fun prev event => event.matchId = prev.matchId + 1

instance (events : List (TradeEvent P)) : Decidable (Consecutive events) :=
  inferInstanceAs (Decidable (events.IsChain _))

theorem consecutive_of_ids {events : List (TradeEvent P)} {n k : Nat}
    (h : events.map TradeEvent.matchId = List.range' n k) : Consecutive events := by
  have hchain := List.isChain_range' n k 1
  rw [← h, List.isChain_map] at hchain
  exact hchain

/-- Consecutive events are numbered from the first one on. -/
theorem Consecutive.ids {events : List (TradeEvent P)} (h : Consecutive events) {n : Nat}
    (hfirst : ∀ event ∈ events.head?, event.matchId = n) :
    events.map TradeEvent.matchId = List.range' n events.length := by
  induction events generalizing n with
  | nil => rfl
  | cons event events ih =>
    have hid : event.matchId = n := hfirst event rfl
    rw [List.map_cons, List.length_cons, List.range'_succ, hid, ih h.tail]
    intro next hnext
    cases events with
    | nil => cases hnext
    | cons other events =>
      cases hnext
      rw [(List.isChain_cons_cons.mp h).1, hid]

section Late
variable {started : Bool} {out : List (Output (TradeEvent P))}
  {s : KafkaOffloader.State (TradeEvent P)}

theorem prefix_range {l : List Nat} {a n : Nat} (h : l <+: List.range' a n) :
    l = List.range' a l.length := by
  have hlen := h.length_le
  rw [List.length_range'] at hlen
  have hsplit : List.range' a n =
      List.range' a l.length ++ List.range' (a + l.length) (n - l.length) := by
    rw [List.range'_append_1, Nat.add_sub_cancel' hlen]
  have htake := List.prefix_iff_eq_take.mp h
  rw [hsplit, List.take_left' List.length_range'] at htake
  exact htake

/-- The events whose `publish` returned carry the first ids. -/
theorem returned_ids (h : Traced started out s) {n : Nat}
    (hids : (calls out).map TradeEvent.matchId <+: List.range' 1 n) :
    ((returns out).map Prod.fst ++ s.publisher.event s.queue).map TradeEvent.matchId =
      List.range' 1 ((returns out).map Prod.fst ++ s.publisher.event s.queue).length := by
  have hcalls : calls out = (returns out).map Prod.fst ++ s.publisher.event s.queue := h.calls
  rw [hcalls] at hids
  have hrange := prefix_range hids
  rw [List.length_map] at hrange
  exact hrange

/-- A `publish` has found room behind a drop, or there is a gap already. -/
def Late (out : List (Output (TradeEvent P))) (s : KafkaOffloader.State (TradeEvent P)) : Prop :=
  (0 < s.dropped ∧ FoundRoom s) ∨ ¬ Consecutive (published out)

/-- The event published behind a drop leaves a gap. -/
theorem gap (h : Traced started out s) {n : Nat}
    (hids : (calls out).map TradeEvent.matchId <+: List.range' 1 n) (hdropped : 0 < s.dropped)
    {event : TradeEvent P} (hp : s.publisher = .countPublished event) :
    ¬ Consecutive (published out ++ [event]) := by
  intro hchain
  have hret := returned_ids h hids
  have hfirst := h.first
  have hcount := h.dropped
  have hlen := length_answered (returns out)
  rw [hp] at hret hfirst
  simp only [Publish.event, List.map_append, List.map_singleton, List.length_append,
    List.length_map, List.length_singleton, Publish.refused, List.append_nil] at hret hfirst
  rw [List.range'_concat, Nat.one_mul] at hret
  obtain ⟨hbefore, hlast⟩ := List.append_inj' hret rfl
  have hid : event.matchId = 1 + (returns out).length := (List.cons.inj hlast).1
  have hhead : ∀ e ∈ (published out ++ [event]).head?, e.matchId = 1 := by
    cases hr : returns out with
    | nil =>
      rw [hr] at hcount
      rw [answered_nil, List.length_nil] at hcount
      omega
    | cons r rest =>
      obtain ⟨e, ok⟩ := r
      rw [hr] at hfirst hbefore
      have hok : ok = true := by simpa using hfirst
      rw [List.map_cons, List.map_cons, List.length_cons, List.range'_succ] at hbefore
      rw [published, hr, answered_cons, if_pos hok]
      intro e' he'
      cases he'
      exact (List.cons.inj hbefore).1
  have hnumbers := hchain.ids hhead
  rw [List.map_append, List.map_singleton, List.length_append, List.length_singleton,
    List.range'_concat, Nat.one_mul] at hnumbers
  have hlate := (List.cons.inj (List.append_inj' hnumbers rfl).2).1
  rw [published] at hlate
  omega

theorem Late.next (h : Traced started out s) {n : Nat}
    (hids : (calls out).map TradeEvent.matchId <+: List.range' 1 n) (hl : Late out s)
    (i : KafkaOffloader.Input (TradeEvent P)) :
    Late (out ++ (KafkaOffloader.step s i).2) (KafkaOffloader.step s i).1 := by
  unfold Late published at hl ⊢
  rw [returns_append]
  cases moves h i with
  | goesOn hreturns hdropped hkeeps hfinds hfound =>
    rw [hreturns, List.append_nil, hdropped]
    exact hl.imp_left fun hroom => ⟨hroom.1, hkeeps hroom.2⟩
  | published event hp hreturns hdropped hended =>
    have happend : answered true (returns out ++ [(event, true)]) =
        answered true (returns out) ++ [event] := by simp
    rw [hreturns, happend]
    rcases hl with ⟨hpos, -⟩ | hgap
    · exact Or.inr (gap h hids hpos hp)
    · exact Or.inr fun hchain => hgap hchain.left_of_append
  | dropped event hp hclosed hreturns hdropped hended =>
    have happend : answered true (returns out ++ [(event, false)]) =
        answered true (returns out) := by simp
    rw [hreturns, happend]
    rcases hl with ⟨-, hroom⟩ | hgap
    · exact absurd hroom hclosed
    · exact Or.inr hgap

end Late

/-! ## Runs -/

/-- No `publish` finds room in the queue once an event was dropped. -/
def NoLateRoom (_ : List (Input P)) (s : State P) : Input P → Prop
  | .matching => FindsRoom s.offloader.queue → s.offloader.dropped = 0
  | _ => True

theorem Fed.calls_ids {started : Bool} {out : List (Output (TradeEvent P))} {s : State P}
    (h : Fed started out s) :
    (calls out).map TradeEvent.matchId <+: List.range' 1 s.engine.nextMatchId := by
  rw [← h.ids, List.map_append]
  exact List.prefix_append _ _

instance (past : List (Input P)) (s : State P) : DecidablePred (NoLateRoom past s)
  | .matching => inferInstanceAs (Decidable (FindsRoom s.offloader.queue → _ = 0))
  | .call _ | .worker _ | .stop | .join => inferInstanceAs (Decidable True)

section Runs
variable [LT P] [DecidableLT P] {clock : Nat → Int64} {started : Bool}
  {out : List (Output (TradeEvent P))} {s : State P}

/-- A step is one of the offloader, or it leaves the offloader alone. -/
theorem step_offloader (clock : Nat → Int64) (s : State P) (i : Input P) :
    ((step clock s i).1.offloader = s.offloader ∧ (step clock s i).2 = []) ∨
      ∃ j, (step clock s i).1.offloader = (KafkaOffloader.step s.offloader j).1 ∧
        (step clock s i).2 = (KafkaOffloader.step s.offloader j).2 ∧
        (j = .matching → i = .matching) := by
  cases i with
  | call c =>
    refine Or.inl ?_
    simp only [step]
    split <;> exact ⟨rfl, rfl⟩
  | matching =>
    refine Or.inr ?_
    simp only [step]
    split
    · exact ⟨_, rfl, rfl, fun _ => trivial⟩
    · exact ⟨_, rfl, rfl, fun _ => trivial⟩
  | worker accepted => exact Or.inr ⟨.worker accepted, rfl, rfl, by simp⟩
  | stop =>
    simp only [step]
    split
    · exact Or.inr ⟨.stop, rfl, rfl, by simp⟩
    · exact Or.inl ⟨rfl, rfl⟩
  | join => exact Or.inr ⟨.join, rfl, rfl, by simp⟩

theorem orderly_next (h : Fed started out s) (ho : Orderly out s.offloader) {i : Input P}
    {past : List (Input P)} (hi : NoLateRoom past s i) :
    Orderly (out ++ (step clock s i).2) (step clock s i).1.offloader := by
  rcases step_offloader clock s i with ⟨hoff, hout⟩ | ⟨j, hoff, hout, hj⟩
  · rw [hoff, hout, List.append_nil]
    exact ho
  · rw [hoff, hout]
    refine ho.next h.offloader fun hmatching => ?_
    rw [hj hmatching] at hi
    exact hi

theorem late_next (h : Fed started out s) (hl : Late out s.offloader) (i : Input P) :
    Late (out ++ (step clock s i).2) (step clock s i).1.offloader := by
  rcases step_offloader clock s i with ⟨hoff, hout⟩ | ⟨j, hoff, hout, -⟩
  · rw [hoff, hout, List.append_nil]
    exact hl
  · rw [hoff, hout]
    exact hl.next h.offloader h.calls_ids j

/-- The access that finds room behind a drop. -/
theorem late_of_room (h : Fed started out s) (hroom : FindsRoom s.offloader.queue)
    (hdropped : s.offloader.dropped ≠ 0) :
    Late (out ++ (step clock s .matching).2) (step clock s .matching).1.offloader := by
  have hpublisher := publisher_of_room h.offloader hroom
  have hstep : step clock s .matching = s.offload .matching := by
    simp only [step]
    split
    · rename_i hidle
      cases hpublisher.symm.trans hidle
    · rfl
  rw [hstep, State.offload]
  cases moves h.offloader .matching with
  | goesOn hreturns hdrop hkeeps hfinds hfound =>
    refine Or.inl ⟨?_, hfound rfl hroom⟩
    change 0 < (KafkaOffloader.step s.offloader .matching).1.dropped
    rw [hdrop]
    exact Nat.pos_of_ne_zero hdropped
  | published event hp hreturns hdrop hended => cases hpublisher.symm.trans hp
  | dropped event hp hclosed hreturns hdrop hended => cases hpublisher.symm.trans hp

theorem late_run (clock : Nat → Int64) (empty : TradeEvent P) (started : Bool)
    (before after : List (Input P))
    (hroom : FindsRoom (run (step clock) (start empty started) before).1.offloader.queue)
    (hdropped : (run (step clock) (start empty started) before).1.offloader.dropped ≠ 0) :
    Late (outputs (step clock) (start empty started) (before ++ .matching :: after))
      (run (step clock) (start empty started) (before ++ .matching :: after)).1.offloader := by
  have hfed := fed_run clock empty started before
  have hlate := run_invariant (fun _ out s => Fed started out s ∧ Late out s.offloader)
    (fun _ _ _ i h _ => ⟨h.1.next clock i, late_next h.1 h.2 i⟩)
    ⟨hfed.next clock .matching, late_of_room hfed hroom hdropped⟩
    (guarded_true (step clock) [] _ after)
  rw [outputs_append, outputs_cons, run_append, ← List.append_assoc]
  exact hlate.2

end Runs

/-- **When the published match ids are consecutive.** In a run in which no `publish`
finds room behind a drop, they are, and the scorer never reports `MATCH_SEQUENCE`
wherever in the stream it starts. In any other run they are not, once the call under
way has returned. -/
theorem published_consecutive (clock : Nat → Int64) (empty : TradeEvent Double) (started : Bool)
    (inputs : List (Input Double)) :
    let out := outputs (step clock) (start empty started) inputs
    let s := (run (step clock) (start empty started) inputs).1
    let orderly := Guarded (step clock) NoLateRoom [] (start empty started) inputs
    (orderly → Consecutive (published out) ∧
      ∀ (windowSeconds : Rat) (stream : List (Rat × Scorer.TradeEvent)),
        stream.map Prod.snd <:+: (published out).map Scorer.unpacked →
        ∀ expected got, (Scorer.ContestantState.new windowSeconds).feed stream ≠
          some (.matchSequence expected got)) ∧
    (s.offloader.publisher = .idle → (orderly ↔ Consecutive (published out))) := by
  intro out s orderly
  have hforward : orderly → Consecutive (published out) := by
    intro hguard
    have hrun := invariant_run
      (fun _ out s => Fed started out s ∧ Orderly out s.offloader)
      (fun _ _ _ i h hi => ⟨h.1.next clock i, orderly_next h.1 h.2 hi⟩)
      ⟨fed_start empty started, ⟨List.prefix_refl _, fun hpos => absurd hpos (Nat.lt_irrefl 0)⟩⟩
      hguard
    have hcalls : calls out = (returns out).map Prod.fst ++ s.offloader.publisher.event
        s.offloader.queue := hrun.1.offloader.calls
    have hbegins : published out <+: calls out :=
      hrun.2.1.trans (hcalls ▸ List.prefix_append _ _)
    exact consecutive_of_ids
      (prefix_range ((hbegins.map TradeEvent.matchId).trans hrun.1.calls_ids))
  refine ⟨fun hguard => ⟨hforward hguard, ?_⟩, fun hidle => ⟨hforward, fun hconsecutive => ?_⟩⟩
  · intro windowSeconds stream hstream
    refine Scorer.ContestantState.feed_ne_matchSequence ?_
    have hchain : (((published out).map Scorer.unpacked).map Scorer.TradeEvent.matchId).IsChain
        fun prev id => id = prev + 1 := by
      rw [List.map_map, List.isChain_map]
      exact hforward hguard
    have hinfix := hstream.map Scorer.TradeEvent.matchId
    rw [List.map_map] at hinfix
    exact hchain.infix hinfix
  · refine guarded_iff_forall.mpr fun before i after heq => ?_
    cases i with
    | matching =>
      intro hroom
      by_contra hdropped
      have hlate := late_run clock empty started before after hroom hdropped
      rw [← heq] at hlate
      have hproducer := (fed_run clock empty started inputs).offloader.publisher
      rw [show (run (step clock) (start empty started) inputs).1.offloader.publisher = .idle
        from hidle] at hproducer
      rcases hlate with ⟨-, hfound⟩ | hgap
      · exact not_foundRoom hproducer (congrArg Publish.pushed hidle) hfound
      · exact hgap hconsecutive
    | _ => trivial

/-! ## A gap -/

def tenPrice : Double := ⟨0x4024000000000000⟩

/-- The `k`-th pair of orders, of which the second one trades with the first. -/
def sellOrder (k : Nat) : Order Double :=
  ⟨Int32.ofNat (2 * k + 1), 1, false, tenPrice, 1, 2, 2 * k⟩

def buyOrder (k : Nat) : Order Double :=
  ⟨Int32.ofNat (2 * k + 2), 1, true, tenPrice, 1, 2, 2 * k + 1⟩

/-- The event of the `k`-th pair. -/
def pairEvent (k : Nat) : TradeEvent Double :=
  tradeEvent (k + 1) 9 (buyOrder k) (sellOrder k)

/-- The pair and the call of `publish` for its event. -/
def tradePair (k : Nat) : List (Input Double) :=
  [.call (.addOrder (sellOrder k)), .call (.addOrder (buyOrder k)), .matching, .matching,
    .matching, .matching, .matching, .matching]

section Pair

theorem call_sell (n k : Nat) :
    call (fun _ => 9) ⟨.empty, n⟩ (.addOrder (sellOrder k)) =
      (⟨⟨[], [(tenPrice, [sellOrder k])],
        Function.update (fun _ => none) (sellOrder k).orderId (some ⟨false, tenPrice, 0⟩)⟩, n⟩,
        []) := rfl

theorem consumeFront_single (m : OrderMap Double) {o : Order Double} (h : o.quantity = 1) :
    consumeFront m (o.reduce 1) [o.reduce 1] = (Function.update m o.orderId none, []) := by
  unfold consumeFront
  rw [if_pos (by rw [reduce_quantity, h]; rfl)]
  rfl

theorem matchStep_pair (n k : Nat) (m : OrderMap Double) :
    matchStep (fun _ => 9)
        ⟨⟨[(tenPrice, [buyOrder k])], [(tenPrice, [sellOrder k])], m⟩, n⟩ =
      .trade
        ⟨⟨[], [], Function.update (Function.update m (buyOrder k).orderId none)
          (sellOrder k).orderId none⟩, n + 1⟩
        ⟨tradeEvent (n + 1) 9 (buyOrder k) (sellOrder k), buyOrder k, sellOrder k⟩ := by
  have hlt : ¬ tenPrice < tenPrice := by decide
  have hqty : tradedQty (buyOrder k) (sellOrder k) = 1 := rfl
  simp only [matchStep, if_neg hlt, hqty]
  rw [consumeFront_single m (o := buyOrder k) rfl, consumeFront_single _ (o := sellOrder k) rfl]
  rfl

theorem call_buy (n k : Nat) :
    call (fun _ => 9)
        ⟨⟨[], [(tenPrice, [sellOrder k])],
          Function.update (fun _ => none) (sellOrder k).orderId (some ⟨false, tenPrice, 0⟩)⟩, n⟩
        (.addOrder (buyOrder k)) =
      (⟨.empty, n + 1⟩,
        [⟨tradeEvent (n + 1) 9 (buyOrder k) (sellOrder k), buyOrder k, sellOrder k⟩]) := by
  have hpush : ∀ m : OrderMap Double,
      OrderBook.push ⟨[], [(tenPrice, [sellOrder k])], m⟩ (buyOrder k) =
        ⟨[(tenPrice, [buyOrder k])], [(tenPrice, [sellOrder k])],
          Function.update m (buyOrder k).orderId (some ⟨true, tenPrice, 0⟩)⟩ := fun m => rfl
  have hsize : ∀ m, OrderBook.size
      ⟨[(tenPrice, [buyOrder k])], [(tenPrice, [sellOrder k])], m⟩ = 4 := fun _ => rfl
  simp only [call, addOrder, hpush, matching, hsize, matchLoop, matchStep_pair]
  rw [Function.update_idem]
  simp only [matchStep]
  congr 3
  funext id
  by_cases h₁ : id = (sellOrder k).orderId <;> by_cases h₂ : id = (buyOrder k).orderId <;>
    simp [Function.update, h₁, h₂]

variable {o : KafkaOffloader.State (TradeEvent Double)} (n : Nat)

/-- The pair where the queue is full. -/
theorem tradePair_full (hp : o.publisher = .idle) (hs : o.stop = .notCalled)
    (hq : o.queue.producer = .idle)
    (hfull : BitVec.ofNat 64 queueCapacity.value < o.queue.head + 1#64 - o.queue.tail) :
    run (step fun _ => 9) ⟨⟨.empty, n⟩, [], o⟩ (tradePair n) =
      (⟨⟨.empty, n + 1⟩, [],
          { o with
            dropped := o.dropped + 1
            tradeEventsDropped := o.tradeEventsDropped + 1 }⟩,
        [[], [], [.queue (.called (pairEvent n))], [], [.queue (.full (pairEvent n))],
          [.returned (pairEvent n) false], [], []]) := by
  obtain ⟨⟨head, tail, buffer, producer, consumer⟩, running, publisher, worker, batch, stop,
    published, dropped, delivered, tradeEventsDropped⟩ := o
  simp only at hp hs hq hfull
  subst hp hs hq
  simp [tradePair, run, step, call_sell, call_buy, State.offload, KafkaOffloader.step,
    publishStep, SPSCQueue.step, SPSCQueue.pushStep, KafkaOffloader.State.pushed, hfull, pairEvent]

/-- The pair where it is not. -/
theorem tradePair_room (hp : o.publisher = .idle) (hs : o.stop = .notCalled)
    (hq : o.queue.producer = .idle)
    (hroom : ¬ BitVec.ofNat 64 queueCapacity.value < o.queue.head + 1#64 - o.queue.tail) :
    run (step fun _ => 9) ⟨⟨.empty, n⟩, [], o⟩ (tradePair n) =
      (⟨⟨.empty, n + 1⟩, [],
          { o with
            queue :=
              { o.queue with
                head := o.queue.head + 1#64
                buffer := Function.update o.queue.buffer
                  (o.queue.head &&& SPSCQueue.mask 64 queueCapacity).toNat (pairEvent n) }
            published := o.published + 1 }⟩,
        [[], [], [.queue (.called (pairEvent n))], [], [], [],
          [.queue (.pushed (pairEvent n))], [.returned (pairEvent n) true]]) := by
  obtain ⟨⟨head, tail, buffer, producer, consumer⟩, running, publisher, worker, batch, stop,
    published, dropped, delivered, tradeEventsDropped⟩ := o
  simp only at hp hs hq hroom
  subst hp hs hq
  simp [tradePair, run, step, call_sell, call_buy, State.offload, KafkaOffloader.step,
    publishStep, SPSCQueue.step, SPSCQueue.pushStep, KafkaOffloader.State.pushed, hroom, pairEvent]

end Pair

/-- The state behind `n` pairs that were all published, before the offloader thread
has done anything. -/
structure Filled (n : Nat) (s : State Double) : Prop where
  engine : s.engine = ⟨.empty, n⟩
  pending : s.pending = []
  publisher : s.offloader.publisher = .idle
  stop : s.offloader.stop = .notCalled
  producer : s.offloader.queue.producer = .idle
  consumer : s.offloader.queue.consumer = .idle
  worker : s.offloader.worker = .loadRunning
  running : s.offloader.running = true
  head : s.offloader.queue.head = BitVec.ofNat 64 n
  tail : s.offloader.queue.tail = 0

theorem Filled.eq {n : Nat} {s : State Double} (h : Filled n s) :
    s = ⟨⟨.empty, n⟩, [], s.offloader⟩ := by
  obtain ⟨engine, pending, offloader⟩ := s
  have hengine : engine = ⟨.empty, n⟩ := h.engine
  have hpending : pending = [] := h.pending
  rw [hengine, hpending]

/-- The full test with `n` events pushed and `k` popped. -/
theorem full_test {n k : Nat} (hle : k ≤ n + 1) (hn : n ≤ queueCapacity.value) :
    BitVec.ofNat 64 queueCapacity.value < BitVec.ofNat 64 n + 1#64 - BitVec.ofNat 64 k ↔
      queueCapacity.value + k < n + 1 := by
  have hcapacity := capacity_lt
  have hspare := queueCapacity.succ_lt hcapacity
  have hsucc : BitVec.ofNat 64 n + 1#64 = BitVec.ofNat 64 (n + 1) :=
    (BitVec.ofNat_add n 1).symm
  have hdist : (BitVec.ofNat 64 (n + 1) - BitVec.ofNat 64 k).toNat = n + 1 - k :=
    RingCells.toNat_sub_counter hle (by omega)
  rw [hsucc, BitVec.lt_def, hdist, BitVec.toNat_ofNat, Nat.mod_eq_of_lt hcapacity]
  omega

theorem filled_run {n : Nat} (hn : n ≤ queueCapacity.value) :
    Filled n (run (step fun _ => 9) (start (pairEvent 0) true)
        ((List.range n).flatMap tradePair)).1 ∧
      returns (outputs (step fun _ => 9) (start (pairEvent 0) true)
        ((List.range n).flatMap tradePair)) = (List.range n).map fun k => (pairEvent k, true) := by
  induction n with
  | zero => exact ⟨⟨rfl, rfl, rfl, rfl, rfl, rfl, rfl, rfl, rfl, rfl⟩, rfl⟩
  | succ n ih =>
    obtain ⟨h, hreturns⟩ := ih (Nat.le_of_succ_le hn)
    have hroom : ¬ BitVec.ofNat 64 queueCapacity.value <
        BitVec.ofNat 64 n + 1#64 - BitVec.ofNat 64 0 :=
      mt (full_test (Nat.zero_le _) (Nat.le_of_succ_le hn)).mp (by omega)
    have hpair := tradePair_room n h.publisher h.stop h.producer (by rw [h.head, h.tail]; exact hroom)
    rw [← h.eq] at hpair
    have hout := congrArg (fun r => r.2.flatten) hpair
    rw [List.range_succ, List.flatMap_append, List.flatMap_singleton, run_append, outputs_append,
      hpair]
    constructor
    · refine ⟨rfl, rfl, h.publisher, h.stop, h.producer, h.consumer, h.worker, h.running, ?_,
        h.tail⟩
      change (_ : BitVec 64) + 1#64 = _
      rw [h.head]
      exact (BitVec.ofNat_add n 1).symm
    · rw [returns_append, List.map_append, hreturns]
      exact congrArg _ (congrArg returns hout)

theorem twoPairs_consecutive :
    let inputs := tradePair 0 ++ tradePair 1
    let out := outputs (step fun _ => 9) (start (pairEvent 0) true) inputs
    published out = [pairEvent 0, pairEvent 1] ∧ Consecutive (published out) ∧
      (Guarded (step fun _ => 9) NoLateRoom [] (start (pairEvent 0) true) inputs ↔
        Consecutive (published out)) :=
  have h := published_consecutive (fun _ => 9) (pairEvent 0) true (tradePair 0 ++ tradePair 1)
  ⟨by decide, (h.1 (by decide)).1, h.2 (by decide)⟩

/-- `n` pairs, another one, the pop of one event, and a last pair. -/
def gapInputs (n : Nat) : List (Input Double) :=
  (List.range n).flatMap tradePair ++
    (tradePair n ++ (List.replicate 5 (.worker true) ++ tradePair (n + 1)))

/-- The accesses that pop the first event. -/
theorem pop_first {s : State Double} (hworker : s.offloader.worker = .loadRunning)
    (hrunning : s.offloader.running = true) (hconsumer : s.offloader.queue.consumer = .idle)
    (hne : s.offloader.queue.tail ≠ s.offloader.queue.head) :
    let first := s.offloader.queue.buffer
      (s.offloader.queue.tail &&& SPSCQueue.mask 64 queueCapacity).toNat
    run (step fun _ => 9) s (List.replicate 5 (.worker true)) =
      ({ s with
          offloader :=
            { s.offloader with
              queue := { s.offloader.queue with tail := s.offloader.queue.tail + 1#64 }
              worker := .tryPop 1
              batch := Function.update s.offloader.batch 0 first } },
        [[], [], [], [], [.queue (.popped first)]]) := by
  obtain ⟨engine, pending, ⟨⟨head, tail, buffer, producer, consumer⟩, running, publisher, worker,
    batch, stop, published, dropped, delivered, tradeEventsDropped⟩⟩ := s
  simp only at hworker hrunning hconsumer hne
  subst hworker hrunning hconsumer
  simp [run, step, State.offload, KafkaOffloader.step, runStep, popping, maxBatchEvents,
    SPSCQueue.popStep, KafkaOffloader.State.taken, hne, List.replicate]

/-- Where the first `n` pairs fill the queue, the event of the next one is dropped. -/
theorem gap_published {n : Nat} (hn : n = queueCapacity.value) :
    published (outputs (step fun _ => 9) (start (pairEvent 0) true) (gapInputs n)) =
      (List.range n).map pairEvent ++ [pairEvent (n + 1)] := by
  have hpos := queueCapacity.pos
  have hlt := capacity_lt
  obtain ⟨h, hreturns⟩ := filled_run hn.le
  have hall : answered true ((List.range n).map fun k => (pairEvent k, true)) =
      (List.range n).map pairEvent := by
    simp [answered, List.filter_map, Function.comp_def]
  unfold gapInputs published
  rw [outputs_append, returns_append, answered_append, hreturns, hall]
  generalize (run (step fun _ => 9) (start (pairEvent 0) true)
    ((List.range n).flatMap tradePair)).1 = s at h
  have hne : s.offloader.queue.tail ≠ s.offloader.queue.head := by
    rw [h.head, h.tail]
    intro heq
    have := (RingCells.counter_inj (w := 64) (Nat.zero_le n) (by omega)).mp heq
    omega
  have hfull := tradePair_full n h.publisher h.stop h.producer (by
    rw [h.head, h.tail]
    exact (full_test (Nat.zero_le _) hn.le).mpr (by omega))
  rw [← h.eq] at hfull
  have hpop := pop_first (s := (run (step fun _ => 9) s (tradePair n)).1)
    (by rw [hfull]; exact h.worker) (by rw [hfull]; exact h.running)
    (by rw [hfull]; exact h.consumer) (by rw [hfull]; exact hne)
  rw [hfull] at hpop
  have hroom := tradePair_room (n + 1)
    (o := { s.offloader with
      queue := { s.offloader.queue with tail := s.offloader.queue.tail + 1#64 }
      worker := .tryPop 1
      batch := Function.update s.offloader.batch 0 (s.offloader.queue.buffer
        (s.offloader.queue.tail &&& SPSCQueue.mask 64 queueCapacity).toNat)
      dropped := s.offloader.dropped + 1
      tradeEventsDropped := s.offloader.tradeEventsDropped + 1 })
    h.publisher h.stop h.producer (by
      simp only
      rw [h.head, h.tail]
      exact mt (full_test (k := 1) (by omega) hn.le).mp (by omega))
  rw [outputs_append, outputs_append]
  unfold outputs
  rw [hfull, hpop, hroom]
  rfl

theorem pairEvent_parties {k : Nat} (hk : 2 * k + 2 < 2 ^ 31) :
    (Scorer.unpacked (pairEvent k)).buyOrderId = 2 * k + 2 ∧
      (Scorer.unpacked (pairEvent k)).sellOrderId = 2 * k + 1 :=
  ⟨Scorer.wireId_ofNat hk, Scorer.wireId_ofNat (by omega)⟩

theorem pairEvent_eq (k : Nat) :
    Scorer.unpacked (pairEvent k) =
      { Scorer.unpacked (pairEvent k) with
        matchId := k + 1, t0Ns := 1, t1Ns := 2, t2Ns := 9, price := tenPrice, qty := 1 } := by
  have htaker : taker (buyOrder k) (sellOrder k) = buyOrder k := by
    unfold taker
    exact if_pos (Nat.lt_succ_self _)
  have hprice : executionPrice (buyOrder k) (sellOrder k) = tenPrice := by
    rcases executionPrice_eq (buyOrder k) (sellOrder k) with hp | hp <;> exact hp
  simp only [pairEvent, tradeEvent, Scorer.unpacked, htaker, hprice]
  rfl

theorem pairEvent_wellFormed {k : Nat} (hk : 2 * k + 2 < 2 ^ 31) :
    (Scorer.unpacked (pairEvent k)).WellFormed := by
  obtain ⟨hbuy, hsell⟩ := pairEvent_parties hk
  rw [pairEvent_eq]
  refine ⟨?_, ?_, ?_, Nat.one_pos, show 1 ≤ 2 by decide, show 2 ≤ 9 by decide,
    show tenPrice.IsFinite by decide, show Double.zero < tenPrice by decide, Nat.one_pos⟩
  · simp only [hbuy]
    omega
  · simp only [hsell]
    omega
  · simp only [hbuy, hsell]
    omega

theorem pairEvent_follows {k : Nat} (hk : 2 * (k + 1) + 2 < 2 ^ 31) :
    (Scorer.unpacked (pairEvent k)).Follows (Scorer.unpacked (pairEvent (k + 1))) := by
  obtain ⟨hbuy, hsell⟩ := pairEvent_parties (k := k) (by omega)
  obtain ⟨hbuy', hsell'⟩ := pairEvent_parties hk
  refine ⟨⟨rfl, Nat.le_refl _⟩, fun hsame => ?_, fun hsame => ?_⟩
  · rw [hbuy, hbuy'] at hsame
    omega
  · rw [hsell, hsell'] at hsame
    omega

theorem pairs_pass {n : Nat} (hn : 2 * n < 2 ^ 31) :
    (Scorer.ContestantState.new 1).feed
      ((List.range n).map fun k => (0, Scorer.unpacked (pairEvent k))) = none := by
  refine (Scorer.ContestantState.feed_eq_none (Scorer.ContestantState.synced_new 1) _).mpr ⟨?_, ?_⟩
  · intro entry hentry
    obtain ⟨k, hk, rfl⟩ := List.mem_map.mp hentry
    have := List.mem_range.mp hk
    exact pairEvent_wellFormed (by omega)
  · change (List.map Prod.snd _).IsChain _
    rw [List.map_map, List.isChain_map]
    cases n with
    | zero => exact .nil
    | succ n =>
      exact (List.isChain_range_succ _ n).mpr fun k hk => pairEvent_follows (by omega)

/-- The scorer reports the gap. -/
theorem gap_feed {n : Nat} (hpos : 0 < n) (hn : 2 * n < 2 ^ 31) :
    (Scorer.ContestantState.new 1).feed
        (((List.range n).map pairEvent ++ [pairEvent (n + 1)]).map
          fun event => (0, Scorer.unpacked event)) =
      some (.matchSequence (n + 1) (n + 2)) := by
  obtain ⟨m, rfl⟩ : ∃ m, n = m + 1 := ⟨n - 1, by omega⟩
  have hpass := pairs_pass hn
  rw [List.range_succ, List.map_append, List.map_singleton] at hpass
  rw [List.range_succ, List.map_append, List.map_append, List.map_append, List.map_map,
    List.append_assoc]
  exact Scorer.ContestantState.feed_gap hpass (show m + 1 + 1 + 1 ≠ m + 1 + 1 by omega)

theorem gap_not_consecutive {n : Nat} (hpos : 0 < n) :
    ¬ Consecutive ((List.range n).map pairEvent ++ [pairEvent (n + 1)]) := by
  obtain ⟨m, rfl⟩ : ∃ m, n = m + 1 := ⟨n - 1, by omega⟩
  rw [List.range_succ, List.map_append, List.append_assoc]
  intro h
  have hnext := (List.isChain_cons_cons.mp h.right_of_append).1
  change m + 1 + 1 + 1 = m + 1 + 1 at hnext
  omega

/-- 65537 trades before the offloader thread pops an event, and one behind it. -/
theorem backpressure_disqualifies :
    let out := outputs (step fun _ => 9) (start (pairEvent 0) true) (gapInputs 65536)
    ¬ Consecutive (published out) ∧
      (Scorer.ContestantState.new 1).feed
          ((published out).map fun event => (0, Scorer.unpacked event)) =
        some (.matchSequence 65537 65538) := by
  have hpublished := gap_published (n := 65536) rfl
  intro out
  rw [hpublished]
  exact ⟨gap_not_consecutive (by decide), gap_feed (by decide) (by decide)⟩

end TradePlat.TradeFeed
