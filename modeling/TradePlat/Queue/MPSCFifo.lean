import TradePlat.Queue.MPSCQueue

/-!
# The queue of incoming orders is a queue

The state is read through a window: `r` positions are released, `values.length`
are claimed, at most `capacity` more than are released. The sequence of a cell says
which position of the window is in it and how far it is (`Inv.free`, `Inv.used`); a
claimed position that is not published yet belongs to one producer, which alone
may write its cell (`Inv.reserved`, `Inv.alone`). Everything a producer remembers of
`enqueue_pos_` may be stale, so `Inv` only bounds it.
-/

namespace TradePlat.MPSCQueue
open RingCells Runs

variable {ι α : Type}

/-! ## The window -/

/-- The position a call has claimed and not published yet, with its value. -/
def Enqueue.claim : Enqueue α → Option (Nat × α)
  | .copyData data pos => some (pos, data)
  | .storeSequence data pos => some (pos, data)
  | _ => none

/-- `dequeue_pos_` is ahead of the releases by this. -/
def Dequeue.ahead : Dequeue α → Nat
  | .storeSequence _ _ => 1
  | _ => 0

/-- The consumer is in order: its position is the next one, and a cell that it has
seen published stays so. -/
def Dequeue.Ok (values : List α) (r : Nat) (published : Prop) : Dequeue α → Prop
  | .idle => True
  | .loadSequence pos => pos = r
  | .copyData pos => pos = r ∧ published
  | .storePos pos data => pos = r ∧ published ∧ values[r]? = some data
  | .storeSequence pos data => pos = r ∧ published ∧ values[r]? = some data

theorem Dequeue.Ok.mono {values : List α} {r : Nat} {published published' : Prop}
    {call : Dequeue α} (h : call.Ok values r published) (himp : published → published') :
    call.Ok values r published' := by
  cases call with
  | idle => trivial
  | loadSequence pos => exact h
  | copyData pos => exact ⟨h.1, himp h.2⟩
  | storePos pos data => exact ⟨h.1, himp h.2.1, h.2.2⟩
  | storeSequence pos data => exact ⟨h.1, himp h.2.1, h.2.2⟩

theorem Dequeue.Ok.append {values : List α} {r : Nat} {published : Prop} {call : Dequeue α}
    (h : call.Ok values r published) (more : List α) : call.Ok (values ++ more) r published := by
  have hlift : ∀ {data}, values[r]? = some data → (values ++ more)[r]? = some data := by
    intro data hval
    rw [List.getElem?_append_left (List.getElem?_eq_some_iff.mp hval).1]
    exact hval
  cases call with
  | idle => trivial
  | loadSequence pos => exact h
  | copyData pos => exact h
  | storePos pos data => exact ⟨h.1, h.2.1, hlift h.2.2⟩
  | storeSequence pos data => exact ⟨h.1, h.2.1, hlift h.2.2⟩

structure Inv (capacity : Capacity) (values : List α) (r : Nat) (s : State ι α) : Prop where
  enqueuePos : s.enqueuePos = values.length
  dequeuePos : s.dequeuePos = r + s.consumer.ahead
  released : r ≤ values.length
  bounded : values.length ≤ r + capacity.value
  free : ∀ i, values.length ≤ i → i < r + capacity.value → s.sequence (i % capacity.value) = i
  used : ∀ i, r ≤ i → i < values.length →
    (s.sequence (i % capacity.value) = i + 1 ∧ Holds capacity.value s.data values i) ∨
      (s.sequence (i % capacity.value) = i ∧ ∃ p data, (s.producers p).claim = some (i, data))
  reserved : ∀ p i data, (s.producers p).claim = some (i, data) →
    r ≤ i ∧ values[i]? = some data ∧ s.sequence (i % capacity.value) = i
  alone : ∀ p q i data data', (s.producers p).claim = some (i, data) →
    (s.producers q).claim = some (i, data') → p = q
  seen : ∀ p data i, s.producers p = .loadSequence data i → i ≤ values.length
  compared : ∀ p data i, s.producers p = .compareExchange data i →
    i ≤ values.length ∧ i < r + capacity.value
  copied : ∀ p data i, s.producers p = .storeSequence data i →
    Holds capacity.value s.data values i
  consumer : s.consumer.Ok values r (s.sequence (r % capacity.value) = r + 1)

theorem inv_init (capacity : Capacity) (data : Nat → α) :
    Inv capacity [] 0 (State.init data : State ι α) where
  enqueuePos := rfl
  dequeuePos := rfl
  released := Nat.le_refl 0
  bounded := Nat.zero_le _
  free i _ h := by
    rw [Nat.zero_add] at h
    exact Nat.mod_eq_of_lt h
  used i _ h := absurd h (Nat.not_lt_zero i)
  reserved p i data h := by cases h
  alone p q i data data' h := by cases h
  seen p data i h := by cases h
  compared p data i h := by cases h
  copied p data i h := by cases h
  consumer := trivial

namespace Inv
variable {capacity : Capacity} {values : List α} {r : Nat} {s : State ι α} {p : ι} {data : α}
  {pos : Nat}

/-- The window `[r, r + capacity)` has every claimed position that is not released. -/
theorem window (h : Inv capacity values r s) {i : Nat} (hr : r ≤ i) (hi : i < values.length) :
    r ≤ i ∧ i < r + capacity.value :=
  ⟨hr, Nat.lt_of_lt_of_le hi h.bounded⟩

theorem sequence_window (h : Inv capacity values r s) {i : Nat}
    (hi : r ≤ i ∧ i < r + capacity.value) :
    s.sequence (i % capacity.value) = i ∨ s.sequence (i % capacity.value) = i + 1 := by
  by_cases hused : i < values.length
  · rcases h.used i hi.1 hused with ⟨hseq, -⟩ | ⟨hseq, -⟩
    · exact Or.inr hseq
    · exact Or.inl hseq
  · exact Or.inl (h.free i (by omega) hi.2)

/-- A cell is never behind a position below the end of the window. -/
theorem le_sequence (h : Inv capacity values r s) {i : Nat} (hi : i < r + capacity.value) :
    i ≤ s.sequence (i % capacity.value) := by
  obtain ⟨j, hij, hj, hcell⟩ := exists_later capacity.pos hi
  rw [← hcell]
  rcases h.sequence_window hj with hseq | hseq <;> omega

/-- A cell is behind a position only where every cell is claimed and not released. -/
theorem full_of_behind (h : Inv capacity values r s) (hpos : pos ≤ values.length)
    (hlt : s.sequence (pos % capacity.value) < pos) :
    values.length = r + capacity.value := by
  have hend : ¬ pos < r + capacity.value := fun hin => by
    have := h.le_sequence hin
    omega
  have := h.bounded
  omega

/-- A cell that is level with a position leaves it inside the window. -/
theorem lt_of_level (h : Inv capacity values r s) (hpos : pos ≤ values.length)
    (hseq : s.sequence (pos % capacity.value) = pos) : pos < r + capacity.value := by
  by_contra hend
  have hbound := h.bounded
  have htwo := capacity.two_le
  obtain rfl : pos = r + capacity.value := by omega
  rw [Nat.add_mod_right] at hseq
  rcases h.sequence_window (i := r) ⟨Nat.le_refl r, by omega⟩ with hr | hr <;> omega

theorem published_lt (h : Inv capacity values r s)
    (hseq : s.sequence (r % capacity.value) = r + 1) : r < values.length := by
  by_contra hend
  have hpos := capacity.pos
  have := h.free r (by omega) (by omega)
  omega

/-- The next position is in its cell once it is published. -/
theorem published_holds (h : Inv capacity values r s)
    (hseq : s.sequence (r % capacity.value) = r + 1) : Holds capacity.value s.data values r := by
  rcases h.used r (Nat.le_refl r) (h.published_lt hseq) with ⟨-, hold⟩ | ⟨hseq', -⟩
  · exact hold
  · omega

/-! ## Steps of a producer -/

variable [DecidableEq ι]

omit [DecidableEq ι] in
/-- Producers with different claims are different. -/
theorem ne_of_claim {q : ι} {i : Nat} {d : α} (hq : (s.producers q).claim = some (i, d))
    (hp : (s.producers p).claim ≠ some (i, d)) : q ≠ p := by
  rintro rfl
  exact hp hq

/-- The claims after a step of one producer. -/
theorem claim_setProducer (s : State ι α) (p : ι) (call : Enqueue α) (q : ι) :
    ((s.setProducer p call).producers q).claim =
      if q = p then call.claim else (s.producers q).claim := by
  by_cases hq : q = p
  · rw [if_pos hq, hq, setProducer_self]
  · rw [if_neg hq, setProducer_of_ne call hq]

/-- A producer goes on without a write to the queue, and with the claim it had. -/
theorem move (h : Inv capacity values r s) {call : Enqueue α}
    (hclaim : call.claim = (s.producers p).claim)
    (hseen : ∀ data i, call = .loadSequence data i → i ≤ values.length)
    (hcompared : ∀ data i, call = .compareExchange data i →
      i ≤ values.length ∧ i < r + capacity.value)
    (hcopied : ∀ data i, call = .storeSequence data i → Holds capacity.value s.data values i) :
    Inv capacity values r (s.setProducer p call) := by
  have hall : ∀ q, ((s.setProducer p call).producers q).claim = (s.producers q).claim := by
    intro q
    rw [claim_setProducer]
    split
    · rename_i hq
      rw [hq, hclaim]
    · rfl
  refine ⟨h.enqueuePos, h.dequeuePos, h.released, h.bounded, h.free, ?_, ?_, ?_, ?_, ?_, ?_,
    h.consumer⟩
  · simpa only [hall, setProducer_sequence, setProducer_data] using h.used
  · simpa only [hall, setProducer_sequence] using h.reserved
  · simpa only [hall] using h.alone
  · intro q data i hq
    rcases setProducer_cases hq with ⟨-, hq⟩ | ⟨-, hq⟩
    · exact hseen data i hq
    · exact h.seen q data i hq
  · intro q data i hq
    rcases setProducer_cases hq with ⟨-, hq⟩ | ⟨-, hq⟩
    · exact hcompared data i hq
    · exact h.compared q data i hq
  · intro q data i hq
    rcases setProducer_cases hq with ⟨-, hq⟩ | ⟨-, hq⟩
    · exact hcopied data i hq
    · exact h.copied q data i hq

/-- A successful compare-exchange claims the next position of the window. -/
theorem claim (h : Inv capacity values r s) (hp : s.producers p = .compareExchange data pos)
    (hpos : s.enqueuePos = pos) :
    pos = values.length ∧ Inv capacity (values ++ [data]) r
      { s.setProducer p (.copyData data pos) with enqueuePos := pos + 1 } := by
  obtain rfl : pos = values.length := hpos.symm.trans h.enqueuePos
  have hin := (h.compared p data _ hp).2
  have hfree := h.free _ (Nat.le_refl _) hin
  have hlen : (values ++ [data]).length = values.length + 1 := by simp
  have hsplit : ∀ {q i d},
      ((s.setProducer p (.copyData data values.length)).producers q).claim = some (i, d) →
        (q = p ∧ i = values.length ∧ d = data) ∨ (q ≠ p ∧ (s.producers q).claim = some (i, d)) := by
    intro q i d hq
    rw [claim_setProducer] at hq
    split at hq
    · rename_i hqp
      simp only [Enqueue.claim, Option.some.injEq, Prod.mk.injEq] at hq
      exact Or.inl ⟨hqp, hq.1.symm, hq.2.symm⟩
    · rename_i hqp
      exact Or.inr ⟨hqp, hq⟩
  have hold : ∀ {q i d}, (s.producers q).claim = some (i, d) → i < values.length := by
    intro q i d hq
    exact (List.getElem?_eq_some_iff.mp (h.reserved q i d hq).2.1).1
  refine ⟨rfl, hlen.symm, h.dequeuePos, ?_, ?_, ?_, ?_, ?_, ?_, ?_, ?_, ?_, ?_⟩
  · have := h.released
    omega
  · omega
  · intro i hi
    exact h.free i (by omega)
  · intro i hr hi
    rcases Nat.lt_succ_iff_lt_or_eq.mp (hlen ▸ hi) with hlt | rfl
    · rcases h.used i hr hlt with ⟨hseq, hheld⟩ | ⟨hseq, q, d, hq⟩
      · exact Or.inl ⟨hseq, hheld.append _⟩
      · refine Or.inr ⟨hseq, q, d, ?_⟩
        have hqp := ne_of_claim (p := p) hq (by simp [hp, Enqueue.claim])
        exact (claim_setProducer s p _ q).trans ((if_neg hqp).trans hq)
    · exact Or.inr ⟨hfree, p, data, congrArg Enqueue.claim (setProducer_self _)⟩
  · intro q i d hq
    rcases hsplit hq with ⟨-, rfl, rfl⟩ | ⟨-, hq⟩
    · exact ⟨h.released, by simp, hfree⟩
    · obtain ⟨hr, hval, hseq⟩ := h.reserved q i d hq
      exact ⟨hr, by rw [List.getElem?_append_left (hold hq)]; exact hval, hseq⟩
  · intro q q' i d d' hq hq'
    rcases hsplit hq with ⟨rfl, rfl, -⟩ | ⟨-, hq⟩
    · rcases hsplit hq' with ⟨rfl, -, -⟩ | ⟨-, hq'⟩
      · rfl
      · exact absurd (hold hq') (Nat.lt_irrefl _)
    · rcases hsplit hq' with ⟨-, rfl, -⟩ | ⟨-, hq'⟩
      · exact absurd (hold hq) (Nat.lt_irrefl _)
      · exact h.alone q q' i d d' hq hq'
  · intro q d i hq
    have := h.seen q d i (setProducer_other hq nofun)
    omega
  · intro q d i hq
    have := h.compared q d i (setProducer_other hq nofun)
    exact ⟨by omega, this.2⟩
  · intro q d i hq
    exact (h.copied q d i (setProducer_other hq nofun)).append _
  · exact h.consumer.append _

/-- The copy of a value into the cell of its claimed position. -/
theorem copy (h : Inv capacity values r s) (hp : s.producers p = .copyData data pos) :
    Inv capacity values r
      { s.setProducer p (.storeSequence data pos) with
        data := Function.update s.data (pos % capacity.value) data } := by
  obtain ⟨hr, hval, hseq⟩ := h.reserved p pos data (by rw [hp]; rfl)
  have hin := h.window hr (List.getElem?_eq_some_iff.mp hval).1
  have hkeep : ∀ {i}, Holds capacity.value s.data values i → r ≤ i → i ≠ pos →
      Holds capacity.value (Function.update s.data (pos % capacity.value) data) values i :=
    fun hheld hri hne => hheld.write (h.window hri hheld.lt) hin hne data
  have hwrite : Inv capacity values r
      { s with data := Function.update s.data (pos % capacity.value) data } := by
    refine { h with used := fun i hri hi => ?_, copied := fun q d i hq => ?_ }
    · rcases h.used i hri hi with ⟨hs, hheld⟩ | hs
      · refine Or.inl ⟨hs, hkeep hheld hri ?_⟩
        rintro rfl
        omega
      · exact Or.inr hs
    · have hclaim : (s.producers q).claim = some (i, d) := by rw [hq]; rfl
      refine hkeep (h.copied q d i hq) (h.reserved q i d hclaim).1 ?_
      rintro rfl
      have hqp := h.alone q p i d data hclaim (by rw [hp]; rfl)
      rw [hqp, hp] at hq
      cases hq
  refine hwrite.move ?_ ?_ ?_ ?_
  · change _ = (s.producers p).claim
    rw [hp]
    rfl
  · intro d i hq
    cases hq
  · intro d i hq
    cases hq
  · intro d i hq
    cases hq
    exact holds_written hval

/-- The store of the sequence of a copied value publishes it. -/
theorem publish (h : Inv capacity values r s) (hp : s.producers p = .storeSequence data pos) :
    Inv capacity values r
      { s.setProducer p .idle with
        sequence := Function.update s.sequence (pos % capacity.value) (pos + 1) } := by
  have hclaim : (s.producers p).claim = some (pos, data) := by rw [hp]; rfl
  obtain ⟨hr, hval, hseq⟩ := h.reserved p pos data hclaim
  have hlt := (List.getElem?_eq_some_iff.mp hval).1
  have hin := h.window hr hlt
  have hother : ∀ {i}, r ≤ i → i < r + capacity.value → i ≠ pos →
      Function.update s.sequence (pos % capacity.value) (pos + 1) (i % capacity.value) =
        s.sequence (i % capacity.value) := fun hri hi hne =>
    Function.update_of_ne (fun hcell => hne (cell_inj ⟨hri, hi⟩ hin hcell)) ..
  have hclaims : ∀ {q i d}, ((s.setProducer p .idle).producers q).claim = some (i, d) →
      (s.producers q).claim = some (i, d) ∧ i ≠ pos := by
    intro q i d hq
    rw [claim_setProducer] at hq
    split at hq
    · cases hq
    · rename_i hqp
      refine ⟨hq, ?_⟩
      rintro rfl
      exact hqp (h.alone q p i d data hq hclaim)
  refine ⟨h.enqueuePos, h.dequeuePos, h.released, h.bounded, ?_, ?_, ?_, ?_, ?_, ?_, ?_, ?_⟩
  · intro i hi hend
    have := h.released
    exact (hother (by omega) hend (by omega)).trans (h.free i hi hend)
  · intro i hri hi
    have hend := h.window hri hi
    by_cases hne : i = pos
    · rw [hne]
      exact Or.inl ⟨Function.update_self .., h.copied p data pos hp⟩
    · change (Function.update s.sequence _ _ _ = _ ∧ _) ∨ (Function.update s.sequence _ _ _ = _ ∧ _)
      rw [hother hri hend.2 hne]
      rcases h.used i hri hi with hs | ⟨hs, q, d, hq⟩
      · exact Or.inl hs
      · refine Or.inr ⟨hs, q, d, ?_⟩
        have hqp := ne_of_claim (p := p) hq (by simp [hclaim, Ne.symm hne])
        exact (claim_setProducer s p _ q).trans ((if_neg hqp).trans hq)
  · intro q i d hq
    obtain ⟨hq, hne⟩ := hclaims hq
    obtain ⟨hri, hi, hs⟩ := h.reserved q i d hq
    have hend := h.window hri (List.getElem?_eq_some_iff.mp hi).1
    exact ⟨hri, hi, (hother hri hend.2 hne).trans hs⟩
  · intro q q' i d d' hq hq'
    exact h.alone q q' i d d' (hclaims hq).1 (hclaims hq').1
  · intro q d i hq
    exact h.seen q d i (setProducer_other hq nofun)
  · intro q d i hq
    exact h.compared q d i (setProducer_other hq nofun)
  · intro q d i hq
    exact h.copied q d i (setProducer_other hq nofun)
  · -- a published next position is not the one that is published now
    have hsame : s.sequence (r % capacity.value) = r + 1 →
        Function.update s.sequence (pos % capacity.value) (pos + 1) (r % capacity.value) = r + 1 := by
      intro hpub
      have hpos := capacity.pos
      refine (hother (Nat.le_refl r) (by omega) ?_).trans hpub
      rintro rfl
      omega
    exact h.consumer.mono hsame

omit [DecidableEq ι] in
/-- A write to the cell of another position of the window. -/
theorem sequence_of_ne (h : Inv capacity values r s) {i j : Nat} (hi : r ≤ i ∧ i < values.length)
    (hj : r ≤ j ∧ j < values.length) (hne : i ≠ j) (n : Nat) :
    Function.update s.sequence (j % capacity.value) n (i % capacity.value) =
      s.sequence (i % capacity.value) :=
  Function.update_of_ne
    (fun hcell => hne (cell_inj (h.window hi.1 hi.2) (h.window hj.1 hj.2) hcell)) ..

/-! ## Steps of the consumer -/

omit [DecidableEq ι] in
/-- The release of the next position moves the window on. -/
theorem release (h : Inv capacity values r s) (hc : s.consumer = .storeSequence pos data) :
    pos = r ∧ values[r]? = some data ∧ Inv capacity values (r + 1)
      { s with
        sequence := Function.update s.sequence (pos % capacity.value) (pos + capacity.value)
        consumer := .idle } := by
  have hok := h.consumer
  rw [hc] at hok
  obtain ⟨rfl, hpub, hval⟩ := hok
  have hlt := h.published_lt hpub
  have hpos := capacity.pos
  have hother : ∀ {i}, pos < i → i < pos + capacity.value →
      Function.update s.sequence (pos % capacity.value) (pos + capacity.value)
        (i % capacity.value) = s.sequence (i % capacity.value) := fun hri hi =>
    Function.update_of_ne (fun hcell => Nat.ne_of_gt hri
      (cell_inj (t := pos) ⟨hri.le, hi⟩ ⟨Nat.le_refl pos, by omega⟩ hcell)) ..
  have hahead : s.dequeuePos = pos + 1 := by
    rw [h.dequeuePos, hc]
    rfl
  refine ⟨rfl, hval, h.enqueuePos, hahead, hlt, ?_, ?_, ?_, ?_, h.alone, h.seen, ?_, h.copied,
    trivial⟩
  · have := h.bounded
    omega
  · intro i hi hend
    rcases Nat.lt_or_ge i (pos + capacity.value) with hin | hout
    · exact (hother (by omega) hin).trans (h.free i hi hin)
    · obtain rfl : i = pos + capacity.value := by omega
      rw [Nat.add_mod_right]
      exact Function.update_self ..
  · intro i hri hi
    have hin := h.window (i := i) (by omega) hi
    change (Function.update s.sequence _ _ _ = _ ∧ _) ∨ (Function.update s.sequence _ _ _ = _ ∧ _)
    rw [hother hri hin.2]
    exact h.used i (by omega) hi
  · intro q i d hq
    obtain ⟨hri, hi, hs⟩ := h.reserved q i d hq
    have hne : i ≠ pos := by
      rintro rfl
      omega
    have hin := h.window hri (List.getElem?_eq_some_iff.mp hi).1
    exact ⟨by omega, hi, (hother (by omega) hin.2).trans hs⟩
  · intro q d i hq
    have := h.compared q d i hq
    exact ⟨this.1, by omega⟩

end Inv

/-! ## Traces -/

section Trace
variable [DecidableEq ι]

/-- The claims in order, each with its producer, its position and its value. -/
def claims (out : List (Output ι α)) : List (ι × Nat × α) :=
  out.filterMap fun
    | .claimed p pos data => some (p, pos, data)
    | _ => none

/-- The values of the enqueues in the order their positions were claimed. -/
def claimed (out : List (Output ι α)) : List α := (claims out).map fun c => c.2.2

/-- The values returned by successful dequeues. -/
def dequeued (out : List (Output ι α)) : List α :=
  out.filterMap fun
    | .dequeued data => some data
    | _ => none

/-- The values producer `p` called `enqueue` with. -/
def calledBy (p : ι) (out : List (Output ι α)) : List α :=
  out.filterMap fun
    | .called q data => if q = p then some data else none
    | _ => none

/-- The values of the calls of producer `p` that returned `true`. -/
def enqueuedBy (p : ι) (out : List (Output ι α)) : List α :=
  out.filterMap fun
    | .enqueued q _ data => if q = p then some data else none
    | _ => none

/-- The values among some claims that are of producer `p`. -/
def valuesOf (p : ι) (cs : List (ι × Nat × α)) : List α :=
  (cs.filter fun c => c.1 = p).map fun c => c.2.2

omit [DecidableEq ι] in
@[simp] theorem claims_append (out more : List (Output ι α)) :
    claims (out ++ more) = claims out ++ claims more := List.filterMap_append

omit [DecidableEq ι] in
@[simp] theorem claimed_append (out more : List (Output ι α)) :
    claimed (out ++ more) = claimed out ++ claimed more := by simp [claimed]

omit [DecidableEq ι] in
@[simp] theorem dequeued_append (out more : List (Output ι α)) :
    dequeued (out ++ more) = dequeued out ++ dequeued more := List.filterMap_append

@[simp] theorem calledBy_append (p : ι) (out more : List (Output ι α)) :
    calledBy p (out ++ more) = calledBy p out ++ calledBy p more := List.filterMap_append

@[simp] theorem enqueuedBy_append (p : ι) (out more : List (Output ι α)) :
    enqueuedBy p (out ++ more) = enqueuedBy p out ++ enqueuedBy p more := List.filterMap_append

@[simp] theorem valuesOf_append (p : ι) (cs more : List (ι × Nat × α)) :
    valuesOf p (cs ++ more) = valuesOf p cs ++ valuesOf p more := by simp [valuesOf]

theorem calledBy_enqueueStep (capacity : Capacity) (s : State ι α) (p q : ι) (spurious : Bool) :
    calledBy q (enqueueStep capacity s p spurious).2 = [] ∧
      dequeued (enqueueStep capacity s p spurious).2 = [] := by
  rcases enqueueStep_cases capacity s p spurious with
    heq | ⟨data, pos, -, -, heq⟩ | ⟨data, pos, heq⟩ | ⟨data, pos, heq⟩ <;> rw [heq] <;>
    exact ⟨rfl, rfl⟩

theorem calledBy_dequeueStep (capacity : Capacity) (s : State ι α) (q : ι) :
    calledBy q (dequeueStep capacity s).2 = [] ∧ enqueuedBy q (dequeueStep capacity s).2 = [] := by
  rcases dequeueStep_cases capacity s with heq | ⟨heq, -⟩ | ⟨data, heq, -⟩ <;> rw [heq] <;>
    exact ⟨rfl, rfl⟩

/-- The value of a call that has not claimed its position yet. -/
def Enqueue.wanted : Enqueue α → Option α
  | .loadPos data | .loadSequence data _ | .compareExchange data _ => some data
  | _ => none

/-- The account of one producer: it claims for its calls in their order, and has
returned `true` for every claim but the one it is publishing. -/
structure Account (p : ι) (out : List (Output ι α)) (call : Enqueue α) : Prop where
  returned : valuesOf p (claims out) = enqueuedBy p out ++ (call.claim.map Prod.snd).toList
  called : (valuesOf p (claims out) ++ call.wanted.toList).Sublist (calledBy p out)

/-- The state of the queue behind a trace. -/
structure Traced (capacity : Capacity) (out : List (Output ι α)) (s : State ι α) : Prop where
  inv : Inv capacity (claimed out) (dequeued out).length s
  taken : dequeued out = (claimed out).take (dequeued out).length
  positions : (claims out).map (fun c => c.2.1) = List.range (claims out).length
  published : ∀ p i data, .enqueued p i data ∈ out → i < (claimed out).length ∧
    ((dequeued out).length ≤ i → s.sequence (i % capacity.value) = i + 1)
  account : ∀ p, Account p out (s.producers p)

theorem traced_init (capacity : Capacity) (cells : Nat → α) :
    Traced capacity [] (State.init cells : State ι α) where
  inv := inv_init capacity cells
  taken := rfl
  positions := rfl
  published := by simp
  account p := ⟨rfl, .slnil⟩

variable {capacity : Capacity} {s : State ι α} {out more : List (Output ι α)} {p : ι} {data : α}
  {pos : Nat}

/-- Outputs of other producers do not change the account. -/
theorem Account.quiet {call : Enqueue α} (h : Account p out call)
    (hclaims : valuesOf p (claims more) = []) (hcalled : calledBy p more = [])
    (henqueued : enqueuedBy p more = []) : Account p (out ++ more) call where
  returned := by
    rw [claims_append, valuesOf_append, hclaims, enqueuedBy_append, henqueued, List.append_nil,
      List.append_nil]
    exact h.returned
  called := by
    rw [claims_append, valuesOf_append, hclaims, calledBy_append, hcalled, List.append_nil,
      List.append_nil]
    exact h.called

/-- A producer that goes on changes no account but its own. -/
theorem Traced.accounts (h : Traced capacity out s) {call : Enqueue α}
    (hp : Account p (out ++ more) call)
    (hothers : ∀ q, q ≠ p →
      valuesOf q (claims more) = [] ∧ calledBy q more = [] ∧ enqueuedBy q more = []) (q : ι) :
    Account q (out ++ more) ((s.setProducer p call).producers q) := by
  by_cases hq : q = p
  · rw [hq, setProducer_self]
    exact hp
  · rw [setProducer_of_ne _ hq]
    obtain ⟨hclaims, hcalled, henqueued⟩ := hothers q hq
    exact (h.account q).quiet hclaims hcalled henqueued

/-- A producer goes on and neither claims nor publishes. -/
theorem Traced.move (h : Traced capacity out s) {call : Enqueue α}
    (hinv : Inv capacity (claimed out) (dequeued out).length (s.setProducer p call))
    (hp : Account p (out ++ more) call) (hmore : more = [] ∨ (∃ data, more = [.called p data]) ∨
      more = [.full p]) :
    Traced capacity (out ++ more) (s.setProducer p call) := by
  have hnone : claims more = [] ∧ dequeued more = [] ∧ ∀ q i d, .enqueued q i d ∉ more := by
    rcases hmore with rfl | ⟨d, rfl⟩ | rfl
    · exact ⟨rfl, rfl, by simp⟩
    · exact ⟨rfl, rfl, by simp⟩
    · exact ⟨rfl, rfl, by simp⟩
  have hclaimed : claimed (out ++ more) = claimed out := by
    rw [claimed_append, claimed, claimed, hnone.1, List.map_nil, List.append_nil]
  have hdequeued : dequeued (out ++ more) = dequeued out := by
    rw [dequeued_append, hnone.2.1, List.append_nil]
  refine ⟨by rw [hclaimed, hdequeued]; exact hinv, by rw [hclaimed, hdequeued]; exact h.taken, ?_,
    ?_, h.accounts hp ?_⟩
  · rw [claims_append, hnone.1, List.append_nil]
    exact h.positions
  · intro q i d hmem
    rw [hclaimed, hdequeued]
    rcases List.mem_append.mp hmem with hmem | hmem
    · exact h.published q i d hmem
    · exact absurd hmem (hnone.2.2 q i d)
  · intro q hq
    rcases hmore with rfl | ⟨d, rfl⟩ | rfl
    · exact ⟨rfl, rfl, rfl⟩
    · simp [claims, valuesOf, calledBy, enqueuedBy, Ne.symm hq]
    · simp [claims, valuesOf, calledBy, enqueuedBy]

theorem Traced.claim (h : Traced capacity out s) (hp : s.producers p = .compareExchange data pos)
    (hpos : s.enqueuePos = pos) :
    Traced capacity (out ++ [.claimed p pos data])
      { s.setProducer p (.copyData data pos) with enqueuePos := pos + 1 } := by
  obtain ⟨rfl, hinv⟩ := h.inv.claim hp hpos
  have haccount := h.account p
  rw [hp] at haccount
  have hlen : (claims out).length = (claimed out).length := (List.length_map _).symm
  have hle := h.inv.released
  refine ⟨?_, ?_, ?_, ?_, h.accounts ⟨?_, ?_⟩ ?_⟩
  · simpa [claimed, dequeued, claims] using hinv
  · have htaken : (claimed (out ++ [.claimed p (claimed out).length data])).take
        (dequeued out).length = (claimed out).take (dequeued out).length := by
      rw [claimed_append, List.take_append_of_le_length hle]
    rw [dequeued_append, show dequeued [Output.claimed p (claimed out).length data] = [] from rfl,
      List.append_nil, htaken]
    exact h.taken
  · rw [claims_append, List.map_append, h.positions, List.length_append, hlen]
    exact List.range_succ.symm
  · intro q i d hmem
    have hmem' : .enqueued q i d ∈ out := by simpa using hmem
    obtain ⟨hlt, hseq⟩ := h.published q i d hmem'
    refine ⟨?_, ?_⟩
    · rw [claimed_append, List.length_append]
      omega
    · simpa [dequeued] using hseq
  · have hreturned := haccount.returned
    rw [claims_append, valuesOf_append, hreturned, enqueuedBy_append]
    simp [claims, valuesOf, enqueuedBy, Enqueue.claim]
  · have hcalled := haccount.called
    rw [claims_append, valuesOf_append, calledBy_append]
    simpa [claims, valuesOf, calledBy, Enqueue.wanted] using hcalled
  · intro q hq
    simp [claims, valuesOf, calledBy, enqueuedBy, Ne.symm hq]

theorem Traced.publish (h : Traced capacity out s) (hp : s.producers p = .storeSequence data pos) :
    Traced capacity (out ++ [.enqueued p pos data])
      { s.setProducer p .idle with
        sequence := Function.update s.sequence (pos % capacity.value) (pos + 1) } := by
  have hinv := h.inv.publish hp
  have haccount := h.account p
  rw [hp] at haccount
  obtain ⟨hr, hval, -⟩ := h.inv.reserved p pos data (by rw [hp]; rfl)
  have hlt := (List.getElem?_eq_some_iff.mp hval).1
  have hclaimed : claimed (out ++ [.enqueued p pos data]) = claimed out := by simp [claimed, claims]
  have hdequeued : dequeued (out ++ [.enqueued p pos data]) = dequeued out := by simp [dequeued]
  refine ⟨?_, ?_, ?_, ?_, h.accounts ⟨?_, ?_⟩ ?_⟩
  · rw [hclaimed, hdequeued]
    exact hinv
  · rw [hclaimed, hdequeued]
    exact h.taken
  · rw [claims_append, show claims [Output.enqueued p pos data] = [] from rfl, List.append_nil]
    exact h.positions
  · intro q i d hmem
    rw [hclaimed, hdequeued]
    rcases List.mem_append.mp hmem with hmem | hmem
    · obtain ⟨hi, hseq⟩ := h.published q i d hmem
      refine ⟨hi, fun hri => ?_⟩
      by_cases hne : i = pos
      · rw [hne]
        exact Function.update_self ..
      · exact (h.inv.sequence_of_ne ⟨hri, hi⟩ ⟨hr, hlt⟩ hne _).trans (hseq hri)
    · cases List.mem_singleton.mp hmem
      exact ⟨hlt, fun _ => Function.update_self ..⟩
  · have hreturned := haccount.returned
    rw [claims_append, valuesOf_append, hreturned, enqueuedBy_append]
    simp [claims, valuesOf, enqueuedBy, Enqueue.claim]
  · have hcalled := haccount.called
    rw [claims_append, valuesOf_append, calledBy_append]
    simpa [claims, valuesOf, calledBy, Enqueue.wanted] using hcalled
  · intro q hq
    simp [claims, valuesOf, calledBy, enqueuedBy, Ne.symm hq]

/-- A call goes on with its claim and its value, and without an output. -/
theorem Traced.goOn (h : Traced capacity out s) {p : ι} {call : Enqueue α}
    (hinv : Inv capacity (claimed out) (dequeued out).length (s.setProducer p call))
    (hclaim : call.claim = (s.producers p).claim)
    (hwanted : call.wanted = (s.producers p).wanted) :
    Traced capacity (out ++ []) (s.setProducer p call) := by
  have haccount := h.account p
  refine h.move hinv ?_ (Or.inl rfl)
  rw [List.append_nil]
  exact ⟨by rw [hclaim]; exact haccount.returned, by rw [hwanted]; exact haccount.called⟩

/-- The steps of a producer, at the head of a call and inside it. -/
theorem Traced.enqueueStep (h : Traced capacity out s) (p : ι) (spurious : Bool) :
    Traced capacity (out ++ (enqueueStep capacity s p spurious).2)
      (enqueueStep capacity s p spurious).1 := by
  have haccount := h.account p
  cases hp : s.producers p with
  | idle =>
    rw [enqueueStep_idle hp, List.append_nil]
    exact h
  | loadPos data =>
    rw [enqueueStep_loadPos hp]
    refine h.goOn (h.inv.move (by rw [hp]; rfl) ?_ (by simp) (by simp)) (by rw [hp]; rfl)
      (by rw [hp]; rfl)
    intro d i hcall
    cases hcall
    exact h.inv.enqueuePos.le
  | loadSequence data pos =>
    rw [hp] at haccount
    have hseen := h.inv.seen p data pos hp
    rcases enqueueStep_loadSequence capacity hp spurious with
      ⟨hseq, heq⟩ | ⟨hseq, heq⟩ | ⟨hseq, heq⟩
    · rw [heq]
      refine h.goOn (h.inv.move (by rw [hp]; rfl) (by simp) ?_ (by simp)) (by rw [hp]; rfl)
        (by rw [hp]; rfl)
      intro d i hcall
      cases hcall
      exact ⟨hseen, h.inv.lt_of_level hseen hseq⟩
    · rw [heq]
      refine h.move (h.inv.move (by rw [hp]; rfl) (by simp) (by simp) (by simp)) ⟨?_, ?_⟩
        (Or.inr (Or.inr rfl))
      · simpa [claims, enqueuedBy, Enqueue.claim] using haccount.returned
      · have hsub := (List.sublist_append_left _ _).trans haccount.called
        simpa [claims, calledBy, Enqueue.wanted] using hsub
    · rw [heq]
      exact h.goOn (h.inv.move (by rw [hp]; rfl) (by simp) (by simp) (by simp)) (by rw [hp]; rfl)
        (by rw [hp]; rfl)
  | compareExchange data pos =>
    rcases enqueueStep_compareExchange capacity hp spurious with ⟨hpos, heq⟩ | heq
    · rw [heq]
      exact h.claim hp hpos
    · rw [heq]
      refine h.goOn (h.inv.move (by rw [hp]; rfl) ?_ (by simp) (by simp)) (by rw [hp]; rfl)
        (by rw [hp]; rfl)
      intro d i hcall
      cases hcall
      exact h.inv.enqueuePos.le
  | copyData data pos =>
    rw [enqueueStep_copyData hp]
    rw [hp] at haccount
    rw [List.append_nil]
    have haccounts : ∀ q, Account q (out ++ [])
        ((s.setProducer p (.storeSequence data pos)).producers q) :=
      h.accounts (by rw [List.append_nil]; exact ⟨haccount.returned, haccount.called⟩)
        fun _ _ => ⟨rfl, rfl, rfl⟩
    rw [List.append_nil] at haccounts
    exact ⟨h.inv.copy hp, h.taken, h.positions, h.published, haccounts⟩
  | storeSequence data pos =>
    rw [enqueueStep_storeSequence hp]
    exact h.publish hp

/-- A step of the consumer that neither takes a value nor writes a sequence. -/
theorem Traced.consume (h : Traced capacity out s) {dequeuePos : Nat} {call : Dequeue α}
    (hpos : dequeuePos = (dequeued out).length + call.ahead)
    (hok : call.Ok (claimed out) (dequeued out).length
      (s.sequence ((dequeued out).length % capacity.value) = (dequeued out).length + 1))
    (hmore : more = [] ∨ more = [.empty]) :
    Traced capacity (out ++ more) { s with dequeuePos := dequeuePos, consumer := call } := by
  have hinv := h.inv
  have hclaims : claims (out ++ more) = claims out := by
    rcases hmore with rfl | rfl <;> simp [claims]
  have hdequeued : dequeued (out ++ more) = dequeued out := by
    rcases hmore with rfl | rfl <;> simp [dequeued]
  refine ⟨?_, ?_, by rw [hclaims]; exact h.positions, ?_, fun q => (h.account q).quiet ?_ ?_ ?_⟩
  · rw [claimed, hclaims, hdequeued]
    exact { hinv with dequeuePos := hpos, consumer := hok }
  · rw [claimed, hclaims, hdequeued]
    exact h.taken
  · intro q i d hmem
    rw [claimed, hclaims, hdequeued]
    refine h.published q i d ?_
    rcases hmore with rfl | rfl <;> simpa using hmem
  · rcases hmore with rfl | rfl <;> rfl
  · rcases hmore with rfl | rfl <;> rfl
  · rcases hmore with rfl | rfl <;> rfl

theorem Traced.release (h : Traced capacity out s) (hc : s.consumer = .storeSequence pos data) :
    Traced capacity (out ++ [.dequeued data])
      { s with
        sequence := Function.update s.sequence (pos % capacity.value) (pos + capacity.value)
        consumer := .idle } := by
  obtain ⟨rfl, hval, hinv⟩ := h.inv.release hc
  have hclaims : claims (out ++ [.dequeued data]) = claims out := by simp [claims]
  have hdequeued : dequeued (out ++ [.dequeued data]) = dequeued out ++ [data] := by
    simp [dequeued]
  have hlt := (List.getElem?_eq_some_iff.mp hval).1
  refine ⟨?_, ?_, by rw [hclaims]; exact h.positions, ?_,
    fun q => (h.account q).quiet rfl rfl rfl⟩
  · rw [claimed, hclaims, hdequeued, List.length_append, List.length_singleton]
    exact hinv
  · rw [claimed, hclaims, hdequeued, List.length_append, List.length_singleton, ← claimed,
      List.take_add_one, hval, ← h.taken]
    rfl
  · intro q i d hmem
    rw [claimed, hclaims, hdequeued, List.length_append, List.length_singleton]
    obtain ⟨hi, hseq⟩ := h.published q i d (by simpa using hmem)
    refine ⟨hi, fun hri => ?_⟩
    have hne : i ≠ (dequeued out).length := by omega
    exact (h.inv.sequence_of_ne ⟨by omega, hi⟩ ⟨Nat.le_refl _, hlt⟩ hne _).trans
      (hseq (by omega))

theorem Traced.dequeueStep (h : Traced capacity out s) :
    Traced capacity (out ++ (dequeueStep capacity s).2) (dequeueStep capacity s).1 := by
  have hpos := h.inv.dequeuePos
  have hok := h.inv.consumer
  cases hc : s.consumer with
  | idle =>
    rw [hc] at hpos
    simp only [MPSCQueue.dequeueStep, hc]
    exact h.consume hpos hpos (Or.inl rfl)
  | loadSequence pos =>
    rw [hc] at hpos hok
    obtain rfl : pos = (dequeued out).length := hok
    rcases dequeueStep_loadSequence capacity hc with ⟨hseq, heq⟩ | ⟨-, heq⟩
    · rw [heq]
      exact h.consume hpos ⟨rfl, hseq⟩ (Or.inl rfl)
    · rw [heq]
      exact h.consume hpos trivial (Or.inr rfl)
  | copyData pos =>
    rw [hc] at hpos hok
    obtain ⟨rfl, hpub⟩ := hok
    rw [dequeueStep_copyData hc]
    exact h.consume hpos ⟨rfl, hpub, h.inv.published_holds hpub⟩ (Or.inl rfl)
  | storePos pos data =>
    rw [hc] at hok
    obtain ⟨rfl, hpub, hval⟩ := hok
    simp only [MPSCQueue.dequeueStep, hc]
    exact h.consume rfl ⟨rfl, hpub, hval⟩ (Or.inl rfl)
  | storeSequence pos data =>
    rw [dequeueStep_storeSequence hc]
    exact h.release hc

theorem Traced.enqueue (h : Traced capacity out s) (hp : s.producers p = .idle) (data : α) :
    Traced capacity (out ++ [.called p data]) (s.setProducer p (.loadPos data)) := by
  have haccount := h.account p
  rw [hp] at haccount
  refine h.move (h.inv.move (by rw [hp]; rfl) (by simp) (by simp) (by simp)) ⟨?_, ?_⟩
    (Or.inr (Or.inl ⟨data, rfl⟩))
  · simpa [claims, enqueuedBy, Enqueue.claim] using haccount.returned
  · have hsub := haccount.called
    simp only [Enqueue.wanted, Option.toList_none, List.append_nil] at hsub
    simpa [claims, calledBy, Enqueue.wanted] using hsub.append_right [data]

/-- **Every step keeps the invariant of the trace.** -/
theorem Traced.next (h : Traced capacity out s) (i : Input ι α) :
    Traced capacity (out ++ (step capacity s i).2) (step capacity s i).1 := by
  cases i with
  | enqueue p data =>
    cases hp : s.producers p with
    | idle =>
      simp only [step, hp]
      exact h.enqueue hp data
    | _ =>
      simp only [step, hp, List.append_nil]
      exact h
  | producer p spurious => exact h.enqueueStep p spurious
  | consumer => exact h.dequeueStep

theorem traced_run (capacity : Capacity) (cells : Nat → α) (inputs : List (Input ι α)) :
    Traced capacity (outputs (step capacity) (.init cells) inputs)
      (run (step capacity) (.init cells) inputs).1 :=
  invariant_run (fun _ out s => Traced capacity out s) (fun _ _ _ i h _ => h.next i)
    (traced_init capacity cells) (guarded_true _ _ _ inputs)

/-- Only the load of a sequence finds the queue full. -/
theorem Traced.full (h : Traced capacity out s) {i : Input ι α}
    (hfull : .full p ∈ (step capacity s i).2) :
    (claimed out).length = (dequeued out).length + capacity.value := by
  cases i with
  | enqueue q data =>
    cases hq : s.producers q <;> simp [step, hq] at hfull
  | producer q spurious =>
    change _ ∈ (MPSCQueue.enqueueStep capacity s q spurious).2 at hfull
    rcases enqueueStep_cases capacity s q spurious with
      heq | ⟨data, pos, hq, hlt, -⟩ | ⟨data, pos, heq⟩ | ⟨data, pos, heq⟩
    · simp [heq] at hfull
    · exact h.inv.full_of_behind (h.inv.seen q data pos hq) hlt
    · simp [heq] at hfull
    · simp [heq] at hfull
  | consumer =>
    change _ ∈ (MPSCQueue.dequeueStep capacity s).2 at hfull
    rcases dequeueStep_cases capacity s with heq | ⟨heq, -⟩ | ⟨data, heq, -⟩ <;>
      simp [heq] at hfull

/-- Only the load of a sequence finds the queue empty. -/
theorem Traced.empty (h : Traced capacity out s) {i : Input ι α}
    (hempty : .empty ∈ (step capacity s i).2) (q : ι) (data : α) :
    .enqueued q (dequeued out).length data ∉ out := by
  cases i with
  | enqueue p d =>
    cases hp : s.producers p <;> simp [step, hp] at hempty
  | producer p spurious =>
    change _ ∈ (MPSCQueue.enqueueStep capacity s p spurious).2 at hempty
    rcases enqueueStep_cases capacity s p spurious with
      heq | ⟨d, pos, -, -, heq⟩ | ⟨d, pos, heq⟩ | ⟨d, pos, heq⟩ <;> simp [heq] at hempty
  | consumer =>
    change _ ∈ (MPSCQueue.dequeueStep capacity s).2 at hempty
    rcases dequeueStep_cases capacity s with heq | ⟨-, -, pos, hc, hne⟩ | ⟨d, heq, -⟩
    · simp [heq] at hempty
    · have hok := h.inv.consumer
      rw [hc] at hok
      obtain rfl : pos = (dequeued out).length := hok
      exact fun hmem => hne ((h.published q _ data hmem).2 (Nat.le_refl _))
    · simp [heq] at hempty

/-- **The queue of incoming orders is a lossless FIFO.** In every run: the values
dequeued are the first of those enqueued, in the order of the claims, which take the
positions in turn. The values of one producer come out in the order of its calls,
and its claims are the calls that returned `true` and the one it is publishing.
`enqueue` finds the queue full only while `capacity` claimed positions are not
released, and `dequeue` finds it empty only while the next position is not
published. -/
theorem mpsc_lossless_fifo (capacity : Capacity) (cells : Nat → α) (inputs : List (Input ι α)) :
    let out := outputs (step capacity) (.init cells) inputs
    let s := (run (step capacity) (.init cells) inputs).1
    (dequeued out <+: claimed out ∧
      (claims out).map (fun c => c.2.1) = List.range (claims out).length) ∧
    (∀ p, valuesOf p ((claims out).take (dequeued out).length) <+: valuesOf p (claims out) ∧
      (valuesOf p (claims out)).Sublist (calledBy p out) ∧
      valuesOf p (claims out) =
        enqueuedBy p out ++ ((s.producers p).claim.map Prod.snd).toList) ∧
    ∀ i, (∀ p, .full p ∈ (step capacity s i).2 →
        (claimed out).length = (dequeued out).length + capacity.value) ∧
      (.empty ∈ (step capacity s i).2 →
        ∀ p data, .enqueued p (dequeued out).length data ∉ out) := by
  intro out s
  have h : Traced capacity out s := traced_run capacity cells inputs
  refine ⟨⟨?_, h.positions⟩, fun p => ⟨?_, ?_, (h.account p).returned⟩,
    fun i => ⟨fun p hfull => h.full hfull, fun hempty => h.empty hempty⟩⟩
  · rw [h.taken]
    exact List.take_prefix _ _
  · exact ((List.take_prefix _ _).filter _).map _
  · exact (List.sublist_append_left _ _).trans (h.account p).called

end Trace

end TradePlat.MPSCQueue
