import Mathlib.Data.List.Induction
import TradePlat.Queue.SPSCQueue

/-!
# The reported depth (`SPSCQueue::approxSize`)

A third thread, such as the metrics thread through `queueDepth()`, subtracts the two
counters. It loads them one after the other, in the order the compiler chose, and the
producer and the consumer go on in between.

Between the loads only the counter that is read second matters. With `head_` read
first, pops may take `tail_` past it, and the difference wraps around; with `tail_`
read first, pushes into the room that pops make count on top of what was there.
`approxSize_le_capacity_iff` is the exact condition, in numbers of pushes and pops.
-/

namespace TradePlat.SPSCQueue
open RingCells Runs

variable {w : Nat} {α : Type}

inductive Cursor where
  | head
  | tail
  deriving DecidableEq, Repr

/-- A call of `approxSize` holds the counter of its first load. -/
inductive ApproxSize (w : Nat) where
  | idle
  | loaded (first : Cursor) (value : BitVec w)
  deriving DecidableEq, Repr

/-- The queue with the thread that reports its depth. -/
structure Watched (w : Nat) (α : Type) where
  queue : State w α
  call : ApproxSize w

def Watched.init (buffer : Nat → α) : Watched w α := ⟨.init buffer, .idle⟩

inductive WatchInput (α : Type) where
  | queue (input : Input α)
  | firstLoad (first : Cursor)
  | secondLoad
  deriving DecidableEq, Repr

inductive WatchOutput (w : Nat) (α : Type) where
  | queue (output : Output α)
  | depth (size : BitVec w)
  deriving DecidableEq, Repr

def State.load (s : State w α) : Cursor → BitVec w
  | .head => s.head
  | .tail => s.tail

/-- `head_.load() - tail_.load()`, with `value` from the first load. -/
def approxSize (first : Cursor) (value : BitVec w) (s : State w α) : BitVec w :=
  match first with
  | .head => value - s.tail
  | .tail => s.head - value

def watchStep (capacity : Capacity) (s : Watched w α) :
    WatchInput α → Watched w α × List (WatchOutput w α)
  | .queue input =>
    ({ s with queue := (step capacity s.queue input).1 },
      (step capacity s.queue input).2.map .queue)
  | .firstLoad first =>
    match s.call with
    | .idle => ({ s with call := .loaded first (s.queue.load first) }, [])
    | .loaded .. => (s, [])
  | .secondLoad =>
    match s.call with
    | .idle => (s, [])
    | .loaded first value =>
      ({ s with call := .idle }, [.depth (approxSize first value s.queue)])

/-- What the producer and the consumer did. -/
def queueOutputs (out : List (WatchOutput w α)) : List (Output α) :=
  out.filterMap fun
    | .queue output => some output
    | .depth _ => none

@[simp] theorem queueOutputs_append (out more : List (WatchOutput w α)) :
    queueOutputs (out ++ more) = queueOutputs out ++ queueOutputs more :=
  List.filterMap_append

@[simp] theorem queueOutputs_map (out : List (Output α)) :
    queueOutputs (out.map (.queue : _ → WatchOutput w α)) = out := by
  induction out with
  | nil => rfl
  | cons o out ih => exact congrArg (o :: ·) ih

/-! ## Steps -/

section Steps
variable {capacity : Capacity} {s : Watched w α} {first : Cursor} {value : BitVec w}

theorem watchStep_firstLoad (h : s.call = .idle) :
    watchStep capacity s (.firstLoad first) =
      ({ s with call := .loaded first (s.queue.load first) }, []) := by
  simp only [watchStep, h]

theorem watchStep_firstLoad_busy (h : s.call = .loaded first value) (again : Cursor) :
    watchStep capacity s (.firstLoad again) = (s, []) := by
  simp only [watchStep, h]

theorem watchStep_secondLoad (h : s.call = .loaded first value) :
    watchStep capacity s .secondLoad =
      ({ s with call := .idle }, [.depth (approxSize first value s.queue)]) := by
  simp only [watchStep, h]

theorem watchStep_secondLoad_idle (h : s.call = .idle) :
    watchStep capacity s .secondLoad = (s, []) := by
  simp only [watchStep, h]

/-- A depth comes from a second load only. -/
theorem eq_secondLoad_of_depth {i : WatchInput α} {size : BitVec w}
    (h : .depth size ∈ (watchStep capacity s i).2) :
    i = .secondLoad ∧
      ∃ first value, s.call = .loaded first value ∧ size = approxSize first value s.queue := by
  cases i with
  | queue input => simp [watchStep] at h
  | firstLoad first => cases hc : s.call <;> simp [watchStep, hc] at h
  | secondLoad =>
    cases hc : s.call with
    | idle => simp [watchStep_secondLoad_idle hc] at h
    | loaded first value =>
      rw [watchStep_secondLoad hc, List.mem_singleton] at h
      exact ⟨rfl, first, value, rfl, WatchOutput.depth.inj h⟩

/-- A call waits for its second load. -/
theorem call_watchStep (h : s.call = .loaded first value) {i : WatchInput α}
    (hi : i ≠ .secondLoad) : (watchStep capacity s i).1.call = .loaded first value := by
  cases i with
  | queue input => exact h
  | firstLoad again =>
    rw [watchStep_firstLoad_busy h]
    exact h
  | secondLoad => exact absurd rfl hi

theorem call_run (h : s.call = .loaded first value) {between : List (WatchInput α)}
    (hb : .secondLoad ∉ between) :
    (run (watchStep capacity) s between).1.call = .loaded first value := by
  induction between generalizing s with
  | nil => exact h
  | cons i between ih =>
    rw [List.mem_cons, not_or] at hb
    exact ih (call_watchStep h (Ne.symm hb.1)) hb.2

end Steps

/-! ## The queue under watch -/

section Queue
variable {capacity : Capacity} {s : Watched w α} {out : List (WatchOutput w α)}

/-- The third thread writes nothing. -/
theorem Traced.watchNext (hw : capacity.value < 2 ^ w)
    (h : Traced capacity (queueOutputs out) s.queue) (i : WatchInput α) :
    Traced capacity (queueOutputs (out ++ (watchStep capacity s i).2))
      (watchStep capacity s i).1.queue := by
  rw [queueOutputs_append]
  cases i with
  | queue input =>
    simp only [watchStep, queueOutputs_map]
    exact h.next hw input
  | firstLoad first =>
    cases hc : s.call with
    | idle =>
      rw [watchStep_firstLoad hc]
      simpa [queueOutputs] using h
    | loaded first value =>
      rw [watchStep_firstLoad_busy hc]
      simpa [queueOutputs] using h
  | secondLoad =>
    cases hc : s.call with
    | idle =>
      rw [watchStep_secondLoad_idle hc]
      simpa [queueOutputs] using h
    | loaded first value =>
      rw [watchStep_secondLoad hc]
      simpa [queueOutputs] using h

/-- The state of a run after the given inputs. -/
def stateAfter (w : Nat) (capacity : Capacity) (buffer : Nat → α)
    (inputs : List (WatchInput α)) : Watched w α :=
  (run (watchStep capacity) (.init buffer) inputs).1

theorem stateAfter_append (w : Nat) (capacity : Capacity) (buffer : Nat → α)
    (inputs more : List (WatchInput α)) :
    stateAfter w capacity buffer (inputs ++ more) =
      (run (watchStep capacity) (stateAfter w capacity buffer inputs) more).1 := by
  rw [stateAfter, run_append]
  rfl

theorem outputs_watch (w : Nat) (capacity : Capacity) (buffer : Nat → α)
    (inputs more : List (WatchInput α)) :
    outputs (watchStep capacity) (.init buffer : Watched w α) (inputs ++ more) =
      outputs (watchStep capacity) (.init buffer : Watched w α) inputs ++
        outputs (watchStep capacity) (stateAfter w capacity buffer inputs) more :=
  outputs_append _ _ _ _

theorem traced_watch (hw : capacity.value < 2 ^ w) (buffer : Nat → α)
    (inputs : List (WatchInput α)) :
    Traced capacity
      (queueOutputs (outputs (watchStep capacity) (.init buffer : Watched w α) inputs))
      (stateAfter w capacity buffer inputs).queue :=
  invariant_run (fun _ out (s : Watched w α) => Traced capacity (queueOutputs out) s.queue)
    (fun _ _ _ i h _ => h.watchNext hw i) (traced_init capacity buffer)
    (guarded_true _ _ _ inputs)

end Queue

/-! ## Calls -/

/-- A call of `approxSize` in a run, from its first load to its second one. -/
structure IsCall (w : Nat) (capacity : Capacity) (buffer : Nat → α)
    (inputs before : List (WatchInput α)) (first : Cursor)
    (between after : List (WatchInput α)) : Prop where
  split : inputs = before ++ .firstLoad first :: (between ++ .secondLoad :: after)
  idle : (stateAfter w capacity buffer before).call = .idle
  waiting : .secondLoad ∉ between

/-- What the call returns. -/
def callDepth (w : Nat) (capacity : Capacity) (buffer : Nat → α) (before : List (WatchInput α))
    (first : Cursor) (between : List (WatchInput α)) : BitVec w :=
  approxSize first ((stateAfter w capacity buffer before).queue.load first)
    (stateAfter w capacity buffer (before ++ .firstLoad first :: between)).queue

/-- What the producer and the consumer did before the call. -/
def outputsBefore (w : Nat) (capacity : Capacity) (buffer : Nat → α)
    (before : List (WatchInput α)) : List (Output α) :=
  queueOutputs (outputs (watchStep capacity) (.init buffer : Watched w α) before)

/-- What they did between its loads. -/
def outputsBetween (w : Nat) (capacity : Capacity) (buffer : Nat → α)
    (before : List (WatchInput α)) (first : Cursor) (between : List (WatchInput α)) :
    List (Output α) :=
  queueOutputs (outputs (watchStep capacity)
    (stateAfter w capacity buffer (before ++ [.firstLoad first])) between)

/-- How much may happen between the loads of a call that finds `size` values in the
queue. The counters are words, so it is up to whole turns of them. -/
def InTime (w : Nat) (capacity : Capacity) (size pushed popped : Nat) : Cursor → Prop
  | .head => ∃ turns, popped ≤ size + turns * 2 ^ w ∧
      size + turns * 2 ^ w ≤ popped + capacity.value
  | .tail => ∃ turns, turns * 2 ^ w ≤ size + pushed ∧
      size + pushed ≤ turns * 2 ^ w + capacity.value

/-- The condition for one call, on the counts of its run. -/
def CallInTime (w : Nat) (capacity : Capacity) (buffer : Nat → α) (before : List (WatchInput α))
    (first : Cursor) (between : List (WatchInput α)) : Prop :=
  InTime w capacity
    ((pushed (outputsBefore w capacity buffer before)).length -
      (popped (outputsBefore w capacity buffer before)).length)
    (pushed (outputsBetween w capacity buffer before first between)).length
    (popped (outputsBetween w capacity buffer before first between)).length first

/-! ### The condition -/

section Condition
variable {capacity : Capacity} {n p more less : Nat}

/-- The depth of a call that finds `n` values in the queue, `p` having been popped. Only
the counter of its second load can have gone round since. -/
theorem approxSize_le_iff (hw : capacity.value < 2 ^ w) (hn : n ≤ capacity.value)
    {q q' : State w α} (hhead : q.head = BitVec.ofNat w (p + n)) (htail : q.tail = BitVec.ofNat w p)
    (hhead' : q'.head = BitVec.ofNat w (p + n + more))
    (htail' : q'.tail = BitVec.ofNat w (p + less)) (first : Cursor) :
    (approxSize first (q.load first) q').toNat ≤ capacity.value ↔
      InTime w capacity n more less first := by
  cases first with
  | head =>
    simp only [approxSize, State.load, hhead, htail', InTime]
    rw [toNat_sub_counter_le_iff hw]
    constructor
    · rintro (⟨turns, hle, hge⟩ | ⟨turns, hle, hge⟩)
      · exact ⟨turns, by omega, by omega⟩
      · cases turns with
        | zero => exact ⟨0, by omega, by omega⟩
        | succ turns =>
          rw [Nat.succ_mul] at hle
          omega
    · rintro ⟨turns, hle, hge⟩
      exact Or.inl ⟨turns, by omega, by omega⟩
  | tail =>
    simp only [approxSize, State.load, htail, hhead', InTime]
    rw [toNat_sub_counter_le_iff hw]
    constructor
    · rintro (⟨turns, hle, hge⟩ | ⟨turns, hle, hge⟩)
      · cases turns with
        | zero => exact ⟨0, by omega, by omega⟩
        | succ turns =>
          rw [Nat.succ_mul] at hge
          omega
      · exact ⟨turns, by omega, by omega⟩
    · rintro ⟨turns, hle, hge⟩
      exact Or.inr ⟨turns, by omega, by omega⟩

/-- Where neither counter comes near a whole turn between the loads: no more is popped
than was there at the load of `head_`, or all that was there and is pushed fits. -/
theorem inTime_iff_of_short (hmore : n + more < 2 ^ w) (hless : less + capacity.value < 2 ^ w)
    (hn : n ≤ capacity.value) (first : Cursor) :
    InTime w capacity n more less first ↔
      match first with
      | .head => less ≤ n
      | .tail => n + more ≤ capacity.value := by
  cases first with
  | head =>
    simp only [InTime]
    constructor
    · rintro ⟨turns, hle, hge⟩
      cases turns with
      | zero => omega
      | succ turns =>
        rw [Nat.succ_mul] at hge
        omega
    · intro h
      exact ⟨0, by omega, by omega⟩
  | tail =>
    simp only [InTime]
    constructor
    · rintro ⟨turns, hle, hge⟩
      cases turns with
      | zero => omega
      | succ turns =>
        rw [Nat.succ_mul] at hle
        omega
    · intro h
      exact ⟨0, by omega, by omega⟩

end Condition

/-! ### The calls of a run -/

section Call
variable {capacity : Capacity} {buffer : Nat → α}
  {inputs before between after : List (WatchInput α)} {first : Cursor}

theorem stateAfter_firstLoad (h : (stateAfter w capacity buffer before).call = .idle)
    (first : Cursor) :
    stateAfter w capacity buffer (before ++ [.firstLoad first]) =
      { stateAfter w capacity buffer before with
        call := .loaded first ((stateAfter w capacity buffer before).queue.load first) } := by
  rw [stateAfter_append]
  simp only [run, watchStep_firstLoad h]

/-- The queue at the second load. -/
theorem IsCall.inv_between (hw : capacity.value < 2 ^ w)
    (h : IsCall w capacity buffer inputs before first between after) :
    Inv capacity
      (pushed (outputsBefore w capacity buffer before) ++
        pushed (outputsBetween w capacity buffer before first between))
      ((popped (outputsBefore w capacity buffer before)).length +
        (popped (outputsBetween w capacity buffer before first between)).length)
      (stateAfter w capacity buffer (before ++ .firstLoad first :: between)).queue := by
  have hnone : outputs (watchStep capacity)
      (stateAfter w capacity buffer before) [.firstLoad first] = [] := by
    simp [watchStep_firstLoad h.idle]
  have hinv := (traced_watch hw buffer (before ++ [.firstLoad first] ++ between)).inv
  rw [outputs_watch, outputs_watch, hnone, List.append_nil, queueOutputs_append, pushed_append,
    popped_append, List.length_append, List.append_assoc, List.singleton_append] at hinv
  exact hinv

/-- The counters at the loads of a call, in numbers of pushes and pops. -/
theorem IsCall.depth_le_iff (hw : capacity.value < 2 ^ w)
    (h : IsCall w capacity buffer inputs before first between after) :
    (callDepth w capacity buffer before first between).toNat ≤ capacity.value ↔
      CallInTime w capacity buffer before first between := by
  have hinv : Inv capacity (pushed (outputsBefore w capacity buffer before))
      (popped (outputsBefore w capacity buffer before)).length _ :=
    (traced_watch hw buffer before).inv
  have hinv' := h.inv_between hw
  have hsize := Nat.add_sub_cancel' hinv.le
  have hbound := hinv.bounded
  refine approxSize_le_iff hw (by omega) ?_ hinv.tail ?_ hinv'.tail first
  · rw [hsize]
    exact hinv.head
  · rw [hsize, ← List.length_append]
    exact hinv'.head

/-- A call is in time while the producer or the consumer stands still, as the consumer
does when `run()` itself asks for the depth. -/
theorem IsCall.inTime_of_still (hw : capacity.value < 2 ^ w)
    (h : IsCall w capacity buffer inputs before first between after)
    (hstill : pushed (outputsBetween w capacity buffer before first between) = [] ∨
      popped (outputsBetween w capacity buffer before first between) = []) :
    CallInTime w capacity buffer before first between := by
  have hinv : Inv capacity (pushed (outputsBefore w capacity buffer before))
      (popped (outputsBefore w capacity buffer before)).length _ :=
    (traced_watch hw buffer before).inv
  have hinv' := h.inv_between hw
  have hle := hinv.le
  have hle' := hinv'.le
  have hbound := hinv.bounded
  have hbound' := hinv'.bounded
  rw [List.length_append] at hle' hbound'
  cases first with
  | head =>
    refine ⟨0, ?_, by omega⟩
    rcases hstill with hpushed | hpopped
    · rw [hpushed, List.length_nil] at hle'
      omega
    · rw [hpopped, List.length_nil]
      omega
  | tail =>
    refine ⟨0, by omega, ?_⟩
    rcases hstill with hpushed | hpopped
    · rw [hpushed, List.length_nil]
      omega
    · rw [hpopped, List.length_nil] at hbound'
      omega

theorem IsCall.depth_mem (h : IsCall w capacity buffer inputs before first between after) :
    .depth (callDepth w capacity buffer before first between) ∈
      outputs (watchStep capacity) (.init buffer : Watched w α) inputs := by
  rw [mem_outputs]
  refine ⟨before ++ .firstLoad first :: between, .secondLoad, after, by simp [h.split], ?_⟩
  have hcall : (stateAfter w capacity buffer (before ++ .firstLoad first :: between)).call =
      .loaded first ((stateAfter w capacity buffer before).queue.load first) := by
    rw [← List.singleton_append, ← List.append_assoc, stateAfter_append,
      stateAfter_firstLoad h.idle]
    exact call_run rfl h.waiting
  change _ ∈ (watchStep capacity (stateAfter w capacity buffer _) .secondLoad).2
  rw [watchStep_secondLoad hcall]
  exact List.mem_singleton_self _

/-- What is held of a counter was loaded in this call. -/
theorem exists_firstLoad {value : BitVec w}
    (h : (stateAfter w capacity buffer inputs).call = .loaded first value) :
    ∃ before between, inputs = before ++ .firstLoad first :: between ∧
      (stateAfter w capacity buffer before).call = .idle ∧ .secondLoad ∉ between ∧
      value = (stateAfter w capacity buffer before).queue.load first := by
  induction inputs using List.reverseRecOn generalizing first value with
  | nil => cases h
  | append_singleton past i ih =>
    rw [stateAfter_append] at h
    simp only [run] at h
    cases hc : (stateAfter w capacity buffer past).call with
    | idle =>
      cases i with
      | queue input => cases hc.symm.trans h
      | firstLoad again =>
        rw [watchStep_firstLoad hc] at h
        obtain ⟨rfl, rfl⟩ := ApproxSize.loaded.inj h
        exact ⟨past, [], rfl, hc, by simp, rfl⟩
      | secondLoad =>
        rw [watchStep_secondLoad_idle hc] at h
        cases hc.symm.trans h
    | loaded first' value' =>
      have hi : i ≠ .secondLoad := by
        rintro rfl
        rw [watchStep_secondLoad hc] at h
        cases h
      obtain ⟨rfl, rfl⟩ := ApproxSize.loaded.inj ((call_watchStep hc hi).symm.trans h)
      obtain ⟨before, between, rfl, hidle, hwaiting, hvalue⟩ := ih hc
      refine ⟨before, between ++ [i], by simp, hidle, ?_, hvalue⟩
      rw [List.mem_append, List.mem_singleton, not_or]
      exact ⟨hwaiting, Ne.symm hi⟩

/-- Every depth of a run is that of one of its calls. -/
theorem exists_isCall {size : BitVec w}
    (h : .depth size ∈ outputs (watchStep capacity) (.init buffer : Watched w α) inputs) :
    ∃ before first between after, IsCall w capacity buffer inputs before first between after ∧
      size = callDepth w capacity buffer before first between := by
  obtain ⟨past, i, after, rfl, hout⟩ := (mem_outputs _ _).mp h
  obtain ⟨rfl, first, value, hcall, rfl⟩ := eq_secondLoad_of_depth hout
  obtain ⟨before, between, rfl, hidle, hwaiting, rfl⟩ := exists_firstLoad hcall
  exact ⟨before, first, between, after, ⟨by simp, hidle, hwaiting⟩, rfl⟩

end Call

/-- **When the reported depth is a depth.** A run reports at most `capacity` values each
time if and only if each of its calls is in time. -/
theorem approxSize_le_capacity_iff (capacity : Capacity) (hw : capacity.value < 2 ^ w)
    (buffer : Nat → α) (inputs : List (WatchInput α)) :
    (∀ size, .depth size ∈ outputs (watchStep capacity) (.init buffer : Watched w α) inputs →
      size.toNat ≤ capacity.value) ↔
    ∀ before first between after, IsCall w capacity buffer inputs before first between after →
      CallInTime w capacity buffer before first between := by
  constructor
  · intro h before first between after hcall
    exact (hcall.depth_le_iff hw).mp (h _ hcall.depth_mem)
  · intro h size hsize
    obtain ⟨before, first, between, after, hcall, rfl⟩ := exists_isCall hsize
    exact (hcall.depth_le_iff hw).mpr (h before first between after hcall)

/-- A turn of both threads for each value: it is pushed, and one is popped. -/
def turn (value : Nat) : List (WatchInput Nat) :=
  .queue (.tryPush value) ::
    (List.replicate 4 (.queue .producer) ++ List.replicate 4 (.queue .consumer))

/-- One turn between the loads of `head_` and of `tail_`. -/
def overtaken : List (WatchInput Nat) := .firstLoad .head :: (turn 1 ++ [.secondLoad])

/-- Three turns between the loads of `tail_` and of `head_`. -/
def refilled : List (WatchInput Nat) :=
  .firstLoad .tail :: (turn 1 ++ turn 2 ++ turn 3 ++ [.secondLoad])

theorem overtaken_late :
    ¬ ∀ before first between after,
      IsCall 64 twoSlots (fun _ => 0) overtaken before first between after →
        CallInTime 64 twoSlots (fun _ => 0) before first between := by
  intro h
  have hdepth : .depth (-1#64) ∈
      outputs (watchStep twoSlots) (.init fun _ => 0 : Watched 64 Nat) overtaken := by decide
  have := (approxSize_le_capacity_iff twoSlots (by decide) (fun _ => 0) overtaken).mpr h _ hdepth
  exact absurd this (by decide)

/-- `QUEUE_CAPACITY`, that of the offloader. -/
def eventSlots : Capacity := ⟨1 <<< 16, by decide, 16, by decide⟩

/-- The depth of an empty queue that one value has passed through since the load of
`head_`, and that of a queue of two slots. -/
theorem approxSize_wraps :
    .depth 18446744073709551615#64 ∈
        outputs (watchStep eventSlots) (.init fun _ => 0 : Watched 64 Nat) overtaken ∧
      .depth 3#64 ∈ outputs (watchStep twoSlots) (.init fun _ => 0 : Watched 64 Nat) refilled ∧
      ¬ ∀ (capacity : Capacity) (inputs : List (WatchInput Nat)) (size : BitVec 64),
        .depth size ∈ outputs (watchStep capacity) (.init fun _ => 0 : Watched 64 Nat) inputs →
          size.toNat ≤ capacity.value := by
  have hwraps : .depth 18446744073709551615#64 ∈
      outputs (watchStep eventSlots) (.init fun _ => 0 : Watched 64 Nat) overtaken := by decide
  exact ⟨hwraps, by decide, fun h => absurd (h _ _ _ hwraps) (by decide)⟩

end TradePlat.SPSCQueue
