import TradePlat.Lib.Binary64
import TradePlat.System.TradeFeed

/-!
# The account of trade events (`MatchingEngine.cpp`, `KafkaOffloader.h`)

An event is lost where the queue is full, where `produce` refuses its batch and where
the offloader was not started. Only the first loss is counted: `run` adds a batch to
`delivered_` whatever `produce` returned, and `MatchingEngine::start` ignores that
`start` of the offloader failed. So the account of a run that was stopped balances
exactly where `produce` refused nothing and the offloader was started, or nothing
traded (`events_accounted`).
-/

namespace TradePlat.TradeFeed
open Runs Engine KafkaOffloader Binary64

variable {P : Type}

/-- `delivered` counts events of accepted batches only, and behind the stop every
match id is that of a delivered or a dropped event. -/
def Accounted (out : List (Output (TradeEvent P))) (s : State P) : Prop :=
  s.offloader.delivered ≤ (answered true (produced out)).flatten.length ∧
    (s.offloader.stop = .returned →
      s.engine.nextMatchId = s.offloader.delivered + s.offloader.tradeEventsDropped)

section Account
variable {E : Type} {started : Bool} {out : List (Output E)} {s : KafkaOffloader.State E}

/-! ## The offloader at its stop -/

/-- The thread has ended, and everything it produced is counted. -/
theorem stopped_delivered (h : Traced started out s) (hs : s.stop = .returned) :
    s.delivered = (batches out).flatten.length := by
  have hstop := h.stop
  have hdelivered := h.delivered
  rw [hs] at hstop
  rcases hstop.2 with hw | hw <;> rw [hw] at hdelivered <;> exact hdelivered

/-- What was called was published or dropped. -/
theorem stopped_returns (h : Traced started out s) (hs : s.stop = .returned) :
    (SPSCQueue.called (queueOuts out)).length = (published out).length + s.tradeEventsDropped := by
  have hidle := h.publisher_idle hs
  have hcalls := h.calls
  have hdropped := h.tradeEventsDropped
  have hcount := h.dropped
  have hlen := length_answered (returns out)
  rw [hidle] at hcalls hdropped
  simp only [Publish.event, Publish.uncounted, List.append_nil, Nat.add_zero] at hcalls hdropped
  rw [hcalls, List.length_map, hdropped, hcount, published, hlen]

/-- Without the thread nothing is produced. -/
theorem absent_delivered (h : Traced false out s) : (batches out).flatten = [] := by
  have habsent := h.absent.mpr rfl
  have hpopped := h.popped
  have hworker := h.worker
  rw [habsent] at hworker hpopped
  simp only [Worker.inBatch, List.range_zero, List.map_nil, List.append_nil] at hpopped
  rw [batches, ← hpopped]
  exact List.eq_nil_of_length_eq_zero hworker.2

/-- The first event is published, whatever happens later. -/
theorem published_pos (h : Traced started out s) (hne : returns out ≠ []) :
    0 < (published out).length := by
  have hfirst := h.first
  cases hr : returns out with
  | nil => exact absurd hr hne
  | cons r rest =>
    obtain ⟨event, ok⟩ := r
    rw [hr] at hfirst
    have hok : ok = true := by simpa using hfirst
    rw [published, hr, answered_cons, if_pos hok]
    exact Nat.succ_pos _

theorem delivered_le (h : Traced started out s) :
    s.delivered ≤ (batches out).flatten.length := by
  have hdelivered := h.delivered
  rw [batches]
  omega

/-! ## Refused batches -/

theorem length_flatten_answered (l : List (List E × Bool)) :
    (l.map Prod.fst).flatten.length =
      (answered true l).flatten.length + (answered false l).flatten.length := by
  induction l with
  | nil => rfl
  | cons b l ih =>
    obtain ⟨batch, accepted⟩ := b
    cases accepted <;> simp at ih ⊢ <;> omega

/-- A refused batch is not empty. -/
theorem refused_nil (h : Traced started out s)
    (hlen : (answered false (produced out)).flatten.length = 0) :
    answered false (produced out) = [] := by
  have hflat := List.eq_nil_of_length_eq_zero hlen
  rw [List.flatten_eq_nil_iff] at hflat
  rw [List.eq_nil_iff_forall_not_mem]
  intro batch hmem
  obtain ⟨b, hb, hbatch⟩ := List.mem_map.mp hmem
  have hpos := (h.sizes b (List.mem_filter.mp hb).1).1
  rw [hbatch, hflat batch hmem] at hpos
  exact absurd hpos (Nat.lt_irrefl 0)

end Account

/-! ## Runs -/

section Stopped
variable {started : Bool} {out : List (Output (TradeEvent P))} {s : State P}

theorem Fed.assigned (h : Fed started out s) (hs : s.offloader.stop = .returned) :
    s.engine.nextMatchId = (published out).length + s.offloader.tradeEventsDropped := by
  have hids := congrArg List.length h.ids
  have hpending := h.stopped (by rw [hs]; simp)
  rw [hpending, List.append_nil, List.length_map, List.length_range'] at hids
  rw [← hids, calls, stopped_returns h.offloader hs]

/-- Where nothing is refused and the offloader runs, or nothing trades, the account is right. -/
theorem Fed.accounted (h : Fed started out s) (haccepted : answered false (produced out) = [])
    (htrades : started = true ∨ s.engine.nextMatchId = 0) : Accounted out s := by
  refine ⟨?_, fun hs => ?_⟩
  · have hle := delivered_le h.offloader
    rw [answered_true haccepted]
    exact hle
  · have hassigned := h.assigned hs
    have hdelivered := stopped_delivered h.offloader hs
    rcases htrades with rfl | hzero
    · rw [hdelivered, h.offloader.batches_published hs]
      exact hassigned
    · cases started with
      | true =>
        rw [hdelivered, h.offloader.batches_published hs]
        exact hassigned
      | false =>
        rw [hdelivered, absent_delivered h.offloader, List.length_nil]
        omega

/-- What the account of a stopped run says of the losses. -/
theorem Fed.accounted_stopped (h : Fed started out s) (hs : s.offloader.stop = .returned)
    (haccounted : Accounted out s) :
    answered false (produced out) = [] ∧ (started = true ∨ s.engine.nextMatchId = 0) := by
  obtain ⟨hle, hbalance⟩ := haccounted
  have hassigned := h.assigned hs
  have hdelivered := stopped_delivered h.offloader hs
  have hsplit := length_flatten_answered (produced out)
  rw [batches] at hdelivered
  refine ⟨refused_nil h.offloader (by omega), ?_⟩
  cases started with
  | true => exact Or.inl rfl
  | false =>
    have hnone := congrArg List.length (absent_delivered h.offloader)
    rw [batches, List.length_nil] at hnone
    have hbal := hbalance hs
    have hpublished : (published out).length = 0 := by omega
    have hreturns : returns out = [] := by
      by_contra hne
      have := published_pos h.offloader hne
      omega
    have hcount := h.offloader.dropped
    have hdropped := h.offloader.tradeEventsDropped
    rw [hreturns, answered_nil, List.length_nil] at hcount
    exact Or.inr (by omega)

end Stopped

section Runs
variable [LT P] [DecidableLT P] {clock : Nat → Int64}

theorem step_nextMatchId (s : State P) (i : Input P) :
    s.engine.nextMatchId ≤ (step clock s i).1.engine.nextMatchId := by
  cases i with
  | call c =>
    simp only [step]
    split
    · rw [(call_ids clock s.engine c).2]
      exact Nat.le_add_right _ _
    · exact Nat.le_refl _
  | matching =>
    simp only [step]
    split <;> exact Nat.le_refl _
  | worker accepted => exact Nat.le_refl _
  | stop =>
    simp only [step]
    split <;> exact Nat.le_refl _
  | join => exact Nat.le_refl _

theorem run_nextMatchId (clock : Nat → Int64) (s : State P) (inputs : List (Input P)) :
    s.engine.nextMatchId ≤ (run (step clock) s inputs).1.engine.nextMatchId := by
  induction inputs generalizing s with
  | nil => exact Nat.le_refl _
  | cons i inputs ih => exact Nat.le_trans (step_nextMatchId s i) (ih _)

end Runs

/-- **When every lost trade event is counted.** In a run whose batches were all
accepted and whose offloader was started, or in which nothing traded, `delivered` and
the account of the match ids are right in every state. A run that was stopped has no
other way to keep them right. -/
theorem events_accounted [LT P] [DecidableLT P] (clock : Nat → Int64) (empty : TradeEvent P)
    (started : Bool) (inputs : List (Input P)) :
    let out := outputs (step clock) (start empty started) inputs
    let s := (run (step clock) (start empty started) inputs).1
    let right := ∀ past, past <+: inputs →
      Accounted (outputs (step clock) (start empty started) past)
        (run (step clock) (start empty started) past).1
    let lossless :=
      answered false (produced out) = [] ∧ (started = true ∨ s.engine.nextMatchId = 0)
    (lossless → right) ∧ (s.offloader.stop = .returned → (right ↔ lossless)) := by
  intro out s right lossless
  have hforward : lossless → right := by
    rintro ⟨haccepted, htrades⟩ past ⟨rest, rfl⟩
    have hfed := fed_run clock empty started past
    have hout : out = outputs (step clock) (start empty started) past ++
        outputs (step clock) (run (step clock) (start empty started) past).1 rest :=
      outputs_append _ _ _ _
    have hs : s = (run (step clock) (run (step clock) (start empty started) past).1 rest).1 := by
      change (run (step clock) (start empty started) (past ++ rest)).1 = _
      rw [run_append]
    rw [hout, produced_append, answered_append, List.append_eq_nil_iff] at haccepted
    refine hfed.accounted haccepted.1 ?_
    rcases htrades with hstarted | hzero
    · exact Or.inl hstarted
    · have hle := run_nextMatchId clock
        (run (step clock) (start empty started) past).1 rest
      rw [← hs, hzero] at hle
      exact Or.inr (Nat.le_zero.mp hle)
  refine ⟨hforward, fun hstop => ⟨fun hright => ?_, hforward⟩⟩
  exact (fed_run clock empty started inputs).accounted_stopped hstop
    (hright inputs (List.prefix_refl inputs))

/-- A sell and a buy that match, and a stop behind them. -/
def tradeThenStop (accepted : Bool) : List (Input Double) :=
  .call (.addOrder ⟨1, 5, false, ⟨0x4024000000000000⟩, 1, 2, 0⟩) ::
    .call (.addOrder ⟨2, 5, true, ⟨0x4024000000000000⟩, 1, 2, 1⟩) ::
      (List.replicate 6 .matching ++ .stop :: (List.replicate 14 (.worker accepted) ++ [.join]))

def emptyEvent : TradeEvent Double := ⟨0, 0, 0, 0, 0, 0, ⟨0⟩, 0⟩

/-- One event, in a run whose `produce` refuses every batch and in one whose offloader
was not started. -/
theorem lost_uncounted :
    let refused := run (step fun _ => 9) (start emptyEvent true) (tradeThenStop false)
    let absent := run (step fun _ => 9) (start emptyEvent false) (tradeThenStop true)
    (refused.1.offloader.stop = .returned ∧ answered true (produced refused.2.flatten) = [] ∧
      refused.1.offloader.delivered = 1) ∧
    (absent.1.offloader.stop = .returned ∧ absent.1.engine.nextMatchId = 1 ∧
      absent.1.offloader.delivered + absent.1.offloader.tradeEventsDropped = 0) := by
  decide

theorem tradeThenStop_accounted :
    let s := run (step fun _ => 9) (start emptyEvent true) (tradeThenStop true)
    s.1.engine.nextMatchId = 1 ∧ Accounted (outputs (step fun _ => 9) (start emptyEvent true)
      (tradeThenStop true)) s.1 :=
  ⟨by decide, (events_accounted (fun _ => 9) emptyEvent true (tradeThenStop true)).1
    ⟨by decide, Or.inl rfl⟩ _ (List.prefix_refl _)⟩

end TradePlat.TradeFeed
