import TradePlat.Gateway.Segmentation
import TradePlat.Lib.Runs
import TradePlat.Engine.LimitPrices
import TradePlat.Scorer.NoFalsePositives

/-!
# From the sockets to the events (`TCPServer.cpp`, `MatchingEngine.cpp`)

The gateway thread and the matching thread as one machine. The gateway accepts
connections, reads from any of them, and makes orders of the messages it
decoded, one at a time; the matching thread takes an order from the queue, pushes
it into the book and iterates `matching`. Either may take the next step. The
queue may be full, which drops the order. There is one system clock; `readings`
counts the readings the two threads made of it.
-/

namespace TradePlat.Ingress
open Runs Binary64 Engine Gateway

structure State where
  clientBuffers : Nat → Option RingBuffer
  /-- The messages of the latest read that are not orders yet. -/
  decoded : List OrderMessage
  globalSeq : Nat
  incomingOrders : List (Order Double)
  engine : MatchingEngine Double
  /-- The matching thread is in `matching`. -/
  inMatching : Bool
  readings : Nat

inductive Input where
  | accept (fd : Nat)
  | disconnect (fd : Nat)
  | read (fd : Nat) (bytes : Bytes)
  | enqueueOrder (room : Bool)
  | dequeue
  | iterate
  deriving DecidableEq, Repr

/-- What a step makes: an order of a message, or an event. -/
inductive Output where
  | ordered (msg : OrderMessage) (order : Order Double)
  | published (f : Fill Double)
  deriving DecidableEq, Repr

def State.init : State := ⟨fun _ => none, [], 0, [], .init, false, 0⟩

/-- The messages among the actions of a read. -/
def messages (actions : List Action) : List OrderMessage :=
  actions.filterMap fun
    | .enqueueOrder msg => some msg
    | _ => none

theorem messages_enqueued (payload : Bytes) :
    messages (enqueued payload) = (recordsOf payload).map .decode := by
  simp [enqueued, messages, List.filterMap_map]

def step (clock : Nat → Int64) (s : State) : Input → State × List Output
  | .accept fd =>
    ({ s with clientBuffers :=
        Function.update s.clientBuffers fd (some ((s.clientBuffers fd).getD .fresh)) }, [])
  | .disconnect fd => ({ s with clientBuffers := Function.update s.clientBuffers fd none }, [])
  | .read fd bytes =>
    match s.decoded, s.clientBuffers fd with
    | [], some rb =>
      let handled := handleRead (some rb) bytes
      ({ s with
          clientBuffers := Function.update s.clientBuffers fd handled.1
          decoded := messages handled.2 }, [])
    | _, _ => (s, [])
  | .enqueueOrder room =>
    match s.decoded with
    | [] => (s, [])
    | msg :: rest =>
      let order := msg.order (clock (s.readings + 1)) (s.globalSeq + 1)
      ({ s with
          decoded := rest
          globalSeq := s.globalSeq + 1
          incomingOrders := if room then s.incomingOrders ++ [order] else s.incomingOrders
          readings := s.readings + 1 }, [.ordered msg order])
  | .dequeue =>
    match s.inMatching, s.incomingOrders with
    | false, order :: rest =>
      ({ s with
          incomingOrders := rest
          engine := { s.engine with book := s.engine.book.push order }
          inMatching := true }, [])
    | _, _ => (s, [])
  | .iterate =>
    if s.inMatching then
      match matchStep (fun _ => clock (s.readings + 1)) s.engine with
      | .exit => ({ s with inMatching := false }, [])
      | .emptyLevel e => ({ s with engine := e }, [])
      | .trade e f => ({ s with engine := e, readings := s.readings + 1 }, [.published f])
    else (s, [])

/-! ## Steps, one by one -/

section Steps
variable {clock clk : Nat → Int64} {s : State}

/-- A read changes the buffers and the messages only. -/
theorem step_read (fd : Nat) (bytes : Bytes) :
    ∃ buffers decoded, step clock s (.read fd bytes) =
      ({ s with clientBuffers := buffers, decoded := decoded }, []) := by
  cases hdecoded : s.decoded with
  | cons msg rest =>
    refine ⟨s.clientBuffers, s.decoded, ?_⟩
    simp only [step, hdecoded]
    rw [← hdecoded]
  | nil =>
    cases hbuf : s.clientBuffers fd with
    | none =>
      refine ⟨s.clientBuffers, s.decoded, ?_⟩
      simp only [step, hdecoded, hbuf]
      rw [← hdecoded]
    | some rb =>
      refine ⟨Function.update s.clientBuffers fd (handleRead (some rb) bytes).1,
        messages (handleRead (some rb) bytes).2, ?_⟩
      simp only [step, hdecoded, hbuf]

theorem step_enqueueOrder {msg : OrderMessage} {rest : List OrderMessage}
    (h : s.decoded = msg :: rest) (room : Bool) :
    step clock s (.enqueueOrder room) =
      ({ s with
          decoded := rest
          globalSeq := s.globalSeq + 1
          incomingOrders :=
            if room then s.incomingOrders ++ [msg.order (clock (s.readings + 1)) (s.globalSeq + 1)]
            else s.incomingOrders
          readings := s.readings + 1 },
        [.ordered msg (msg.order (clock (s.readings + 1)) (s.globalSeq + 1))]) := by
  simp only [step, h]

theorem step_enqueueOrder_none (h : s.decoded = []) (room : Bool) :
    step clock s (.enqueueOrder room) = (s, []) := by
  simp only [step, h]

theorem step_dequeue {o : Order Double} {rest : List (Order Double)}
    (hidle : s.inMatching = false) (hqueue : s.incomingOrders = o :: rest) :
    step clock s .dequeue =
      ({ s with
          incomingOrders := rest
          engine := { s.engine with book := s.engine.book.push o }
          inMatching := true }, []) := by
  simp only [step, hidle, hqueue]

theorem step_dequeue_busy (h : s.inMatching = true) : step clock s .dequeue = (s, []) := by
  simp only [step, h]

theorem step_dequeue_none (h : s.incomingOrders = []) : step clock s .dequeue = (s, []) := by
  cases hin : s.inMatching <;> simp only [step, h, hin]

theorem step_iterate_idle (h : s.inMatching = false) : step clock s .iterate = (s, []) := by
  simp only [step, h]
  rfl

theorem step_iterate_exit (h : s.inMatching = true)
    (hm : matchStep (fun _ => clock (s.readings + 1)) s.engine = .exit) :
    step clock s .iterate = ({ s with inMatching := false }, []) := by
  simp only [step, h, hm, ↓reduceIte]

theorem step_iterate_emptyLevel {e : MatchingEngine Double} (h : s.inMatching = true)
    (hm : matchStep (fun _ => clock (s.readings + 1)) s.engine = .emptyLevel e) :
    step clock s .iterate = ({ s with engine := e }, []) := by
  simp only [step, h, hm, ↓reduceIte]

theorem step_iterate_trade {e : MatchingEngine Double} {f : Fill Double}
    (h : s.inMatching = true)
    (hm : matchStep (fun _ => clock (s.readings + 1)) s.engine = .trade e f) :
    step clock s .iterate =
      ({ s with engine := e, readings := s.readings + 1 }, [.published f]) := by
  simp only [step, h, hm, ↓reduceIte]

theorem matchStep_congr {e : MatchingEngine Double}
    (h : clk (e.nextMatchId + 1) = clock (e.nextMatchId + 1)) :
    matchStep clk e = matchStep clock e := by
  unfold matchStep
  simp only [h]

theorem run_iterate_idle (h : s.inMatching = false) (n : Nat) :
    run (step clock) s (List.replicate n .iterate) = (s, List.replicate n []) := by
  induction n with
  | zero => rfl
  | succ n ih => simp only [List.replicate_succ, run, step_iterate_idle h, ih]

/-- Iterations without a step of the gateway between them are the loop of `matching`. -/
theorem run_iterate (h : s.inMatching = true)
    (hclk : ∀ k, clk (s.engine.nextMatchId + k) = clock (s.readings + k)) (n : Nat) :
    (run (step clock) s (List.replicate n .iterate)).1.engine = (matchLoop clk n s.engine).1 ∧
      outputs (step clock) s (List.replicate n .iterate) =
        (matchLoop clk n s.engine).2.map .published := by
  induction n generalizing s with
  | zero => exact ⟨rfl, rfl⟩
  | succ n ih =>
    have hread : matchStep clk s.engine = matchStep (fun _ => clock (s.readings + 1)) s.engine :=
      matchStep_congr (hclk 1)
    rw [List.replicate_succ, outputs_cons, run, matchLoop, hread]
    cases hm : matchStep (fun _ => clock (s.readings + 1)) s.engine with
    | exit =>
      rw [step_iterate_exit h hm, outputs, run_iterate_idle rfl]
      exact ⟨rfl, by simp⟩
    | emptyLevel e =>
      have hnext : e.nextMatchId = s.engine.nextMatchId := by
        obtain ⟨_, _, _, _, _, _, -, -, -, rfl⟩ := matchStep_emptyLevel hm
        rfl
      rw [step_iterate_emptyLevel h hm]
      exact ih (s := { s with engine := e }) h fun k => by rw [hnext]; exact hclk k
    | trade e f =>
      have hnext : e.nextMatchId = s.engine.nextMatchId + 1 := (matchStep_trade hm).event_eq.2
      rw [step_iterate_trade h hm]
      obtain ⟨hengine, hout⟩ := ih (s := { s with engine := e, readings := s.readings + 1 }) h
        fun k => by
          rw [hnext]
          simpa only [Nat.add_assoc, Nat.add_comm 1 k] using hclk (k + 1)
      exact ⟨hengine, congrArg (Output.published f :: ·) hout⟩

/-- The matching thread's steps for one order of the queue, with no step of the
gateway between them. -/
def oneOrder (book : OrderBook Double) (o : Order Double) : List Input :=
  .dequeue :: List.replicate ((book.push o).size + 1) .iterate

/-- **One order of the queue is one `addOrder`.** -/
theorem run_oneOrder {o : Order Double} {rest : List (Order Double)}
    (hidle : s.inMatching = false) (hqueue : s.incomingOrders = o :: rest)
    (hclk : ∀ k, clk (s.engine.nextMatchId + k) = clock (s.readings + k)) :
    (run (step clock) s (oneOrder s.engine.book o)).1.engine = (addOrder clk s.engine o).1 ∧
      outputs (step clock) s (oneOrder s.engine.book o) =
        (addOrder clk s.engine o).2.map .published := by
  rw [oneOrder, outputs_cons, run, step_dequeue hidle hqueue]
  exact run_iterate (s := { s with
    incomingOrders := rest
    engine := { s.engine with book := s.engine.book.push o }
    inMatching := true }) rfl hclk _

end Steps

/-! ## Messages and events as they should be -/

/-- A message without a malformed field, received at `t1`. -/
structure Sane (msg : OrderMessage) (t1 : Int64) : Prop where
  orderId : msg.orderId ≠ 0
  qty : 1 ≤ msg.qty.toNat ∧ msg.qty.toNat < 2 ^ 31
  finite : msg.price.IsFinite
  positive : Double.zero < msg.price
  sent : msg.timestampNs ≠ 0
  received : (msg.timestampNs.toNat : Int) ≤ t1.toInt
  side : msg.side ∈ ([1, 2, 66, 98, 83, 115] : List UInt8)

/-- The order was made of a message. -/
def Ordered (trace : List Output) (o : Order Double) : Prop :=
  ∃ msg o', .ordered msg o' ∈ trace ∧ o'.Version o

/-- No event is malformed, and none is made of a malformed message. -/
structure Proper (trace : List Output) : Prop where
  event : ∀ f, .published f ∈ trace →
    (Scorer.unpacked f.event).WellFormed ∧ f.event.qty.toNat < 2 ^ 31
  origin : ∀ f, .published f ∈ trace → Ordered trace f.buy ∧ Ordered trace f.sell
  message : ∀ f, .published f ∈ trace → ∀ msg o, .ordered msg o ∈ trace →
    o.Version f.buy ∨ o.Version f.sell → Sane msg o.t1

/-- The order accepts the price of the resting one. -/
def Accepts (o r : Order Double) : Prop :=
  if o.isBuy then r.price ≤ o.price else o.price ≤ r.price

/-- The condition on a step: the message that becomes an order has no malformed
field and an id that is not zero when cut to 32 bits, and the order that enters the
book does not accept the price of an order with its own id. -/
def Orderly (clock : Nat → Int64) (_ : List Input) (s : State) : Input → Prop
  | .enqueueOrder _ => ∀ msg ∈ s.decoded.head?,
      Sane msg (clock (s.readings + 1)) ∧ msg.orderId.toUInt32 ≠ 0
  | .dequeue => s.inMatching = false → ∀ o ∈ s.incomingOrders.head?,
      ∀ r ∈ s.engine.book.resting (!o.isBuy), Accepts o r → r.orderId ≠ o.orderId
  | _ => True

instance (msg : OrderMessage) (t1 : Int64) : Decidable (Sane msg t1) :=
  decidable_of_iff (msg.orderId ≠ 0 ∧ (1 ≤ msg.qty.toNat ∧ msg.qty.toNat < 2 ^ 31) ∧
      msg.price.IsFinite ∧ Double.zero < msg.price ∧ msg.timestampNs ≠ 0 ∧
      (msg.timestampNs.toNat : Int) ≤ t1.toInt ∧ msg.side ∈ ([1, 2, 66, 98, 83, 115] : List UInt8))
    ⟨fun ⟨h₁, h₂, h₃, h₄, h₅, h₆, h₇⟩ => ⟨h₁, h₂, h₃, h₄, h₅, h₆, h₇⟩,
      fun ⟨h₁, h₂, h₃, h₄, h₅, h₆, h₇⟩ => ⟨h₁, h₂, h₃, h₄, h₅, h₆, h₇⟩⟩

instance (o r : Order Double) : Decidable (Accepts o r) :=
  inferInstanceAs (Decidable (if o.isBuy then r.price ≤ o.price else o.price ≤ r.price))

instance (clock : Nat → Int64) (past : List Input) (s : State) :
    DecidablePred (Orderly clock past s)
  | .enqueueOrder _ => inferInstanceAs (Decidable (∀ msg ∈ s.decoded.head?,
      Sane msg (clock (s.readings + 1)) ∧ msg.orderId.toUInt32 ≠ 0))
  | .dequeue => inferInstanceAs (Decidable (s.inMatching = false →
      ∀ o ∈ s.incomingOrders.head?, ∀ r ∈ s.engine.book.resting (!o.isBuy),
        Accepts o r → r.orderId ≠ o.orderId))
  | .accept _ | .disconnect _ | .read _ _ | .iterate => inferInstanceAs (Decidable True)

theorem toInt64_toInt {x : UInt64} (h : x.toNat < 2 ^ 63) : x.toInt64.toInt = x.toNat := by
  have hx : 2 * x.toBitVec.toNat < 2 ^ 64 := by
    change 2 * x.toNat < 2 ^ 64
    omega
  exact BitVec.toInt_eq_toNat_of_lt hx

theorem toInt32_toInt {x : UInt32} (h : x.toNat < 2 ^ 31) : x.toInt32.toInt = x.toNat := by
  have hx : 2 * x.toBitVec.toNat < 2 ^ 32 := by
    change 2 * x.toNat < 2 ^ 32
    omega
  exact BitVec.toInt_eq_toNat_of_lt hx

variable {clock : Nat → Int64} {s : State} {trace : List Output}

/-- A sane message makes an order the engine may take. -/
theorem order_eligible {msg : OrderMessage} {t1 : Int64} (h : Sane msg t1)
    (hid : msg.orderId.toUInt32 ≠ 0) {n : Nat} (hclock : t1 ≤ clock (n + 1)) (seqNo : Nat) :
    Scorer.Eligible clock n (msg.order t1 seqNo) where
  orderId := by
    intro hzero
    have hcut := congrArg Int32.toUInt32 hzero
    change msg.orderId.toUInt32.toInt32.toUInt32 = 0 at hcut
    exact hid (by simpa using hcut)
  quantity := by
    rw [Int32.lt_iff_toInt_lt]
    have := toInt32_toInt h.qty.2
    have hpos := h.qty.1
    change (0 : Int32).toInt < msg.qty.toInt32.toInt
    rw [this, show (0 : Int32).toInt = 0 from rfl]
    omega
  finite := h.finite
  positive := h.positive
  sent := by
    have hlt := t1.toInt_lt
    have hrec := h.received
    have hne : msg.timestampNs.toNat ≠ 0 := fun hz => h.sent (UInt64.toNat_inj.mp hz)
    have := toInt64_toInt (x := msg.timestampNs) (by omega)
    rw [Int64.lt_iff_toInt_lt]
    change (0 : Int64).toInt < msg.timestampNs.toInt64.toInt
    rw [this, show (0 : Int64).toInt = 0 from rfl]
    omega
  received := by
    have hlt := t1.toInt_lt
    have hrec := h.received
    have := toInt64_toInt (x := msg.timestampNs) (by omega)
    rw [Int64.le_iff_toInt_le]
    change msg.timestampNs.toInt64.toInt ≤ t1.toInt
    omega
  processed := hclock

/-! ## The invariant -/

/-- Every order in the queue and in the book is eligible, and was made of a message. -/
structure Sound (clock : Nat → Int64) (trace : List Output) (s : State) : Prop where
  queued : ∀ o ∈ s.incomingOrders, Scorer.Eligible clock s.readings o ∧ Ordered trace o
  resting : ∀ o ∈ s.engine.book.orders, Scorer.Eligible clock s.readings o ∧ Ordered trace o
  opposite : ∀ b ∈ s.engine.book.resting true, ∀ a ∈ s.engine.book.resting false,
    a.price ≤ b.price → b.orderId ≠ a.orderId
  compared : Compared s.engine
  nonempty : s.engine.book.NoEmptyLevel
  event : ∀ f, .published f ∈ trace →
    (Scorer.unpacked f.event).WellFormed ∧ f.event.qty.toNat < 2 ^ 31
  origin : ∀ f, .published f ∈ trace → Ordered trace f.buy ∧ Ordered trace f.sell
  sane : ∀ msg o, .ordered msg o ∈ trace → Sane msg o.t1

theorem sound_init (clock : Nat → Int64) : Sound clock [] .init where
  queued := by simp [State.init]
  resting := by simp [State.init]
  opposite b hb := by cases hb
  compared := compared_init
  nonempty b l hl := by cases b <;> cases hl
  event := by simp
  origin := by simp
  sane := by simp

theorem Sound.proper (h : Sound clock trace s) : Proper trace :=
  ⟨h.event, h.origin, fun _ _ msg o ho _ => h.sane msg o ho⟩

theorem eligible_frozen {k : Nat} {o : Order Double} (h : Scorer.Eligible clock k o) (n : Nat) :
    Scorer.Eligible (fun _ => clock (k + 1)) n o := { h with processed := h.processed }

theorem Ordered.append {o : Order Double} (h : Ordered trace o) (out : List Output) :
    Ordered (trace ++ out) o := by
  obtain ⟨msg, o', ho, hv⟩ := h
  exact ⟨msg, o', List.mem_append_left _ ho, hv⟩

theorem Ordered.version {o r : Order Double} (h : Ordered trace o) (hv : o.Version r) :
    Ordered trace r := by
  obtain ⟨msg, o', ho, hv'⟩ := h
  exact ⟨msg, o', ho, hv'.trans hv⟩

/-- A step that touches neither the queue nor the book. -/
theorem Sound.quiet (h : Sound clock trace s) {s' : State}
    (hqueue : s'.incomingOrders = s.incomingOrders) (hengine : s'.engine = s.engine)
    (hreadings : s'.readings = s.readings) : Sound clock (trace ++ []) s' := by
  rw [List.append_nil]
  refine ⟨?_, ?_, ?_, ?_, ?_, h.event, h.origin, h.sane⟩
  · rw [hqueue, hreadings]
    exact h.queued
  · rw [hengine, hreadings]
    exact h.resting
  · rw [hengine]
    exact h.opposite
  · rw [hengine]
    exact h.compared
  · rw [hengine]
    exact h.nonempty

theorem Sound.enqueueOrder (hclock : ∀ n, clock n ≤ clock (n + 1)) (h : Sound clock trace s)
    {msg : OrderMessage} {rest : List OrderMessage} (hdecoded : s.decoded = msg :: rest)
    (hsane : Sane msg (clock (s.readings + 1))) (hid : msg.orderId.toUInt32 ≠ 0) (room : Bool) :
    Sound clock (trace ++ (step clock s (.enqueueOrder room)).2)
      (step clock s (.enqueueOrder room)).1 := by
  rw [step_enqueueOrder hdecoded]
  have hlater : ∀ o : Order Double, Scorer.Eligible clock s.readings o ∧ Ordered trace o →
      Scorer.Eligible clock (s.readings + 1) o ∧ Ordered (trace ++ [.ordered msg
        (msg.order (clock (s.readings + 1)) (s.globalSeq + 1))]) o := fun o ho =>
    ⟨(Scorer.kept_eligible hclock).later _ o ho.1, ho.2.append _⟩
  have hnew := order_eligible hsane hid (hclock (s.readings + 1)) (s.globalSeq + 1)
  refine ⟨fun o ho => ?_, fun o ho => hlater o (h.resting o ho), h.opposite, h.compared,
    h.nonempty, fun f hf => h.event f (by simpa using hf), fun f hf => ?_, fun msg' o ho => ?_⟩
  · simp only at ho
    split at ho
    · rcases List.mem_append.mp ho with ho | ho
      · exact hlater o (h.queued o ho)
      · rw [List.mem_singleton.mp ho]
        exact ⟨hnew, msg, _, by simp, .refl _⟩
    · exact hlater o (h.queued o ho)
  · obtain ⟨hb, ha⟩ := h.origin f (by simpa using hf)
    exact ⟨hb.append _, ha.append _⟩
  · rcases List.mem_append.mp ho with ho | ho
    · exact h.sane msg' o ho
    · cases List.mem_singleton.mp ho
      exact hsane

theorem Sound.dequeue (h : Sound clock trace s) {o : Order Double} {rest : List (Order Double)}
    (hidle : s.inMatching = false) (hqueue : s.incomingOrders = o :: rest)
    (hfresh : ∀ r ∈ s.engine.book.resting (!o.isBuy), Accepts o r → r.orderId ≠ o.orderId) :
    Sound clock (trace ++ (step clock s .dequeue).2) (step clock s .dequeue).1 := by
  rw [step_dequeue hidle hqueue, List.append_nil]
  have hmine := h.queued
  rw [hqueue] at hmine
  have hown : ∀ r ∈ (s.engine.book.push o).resting o.isBuy, r = o ∨
      r ∈ s.engine.book.resting o.isBuy := fun r hr =>
    List.mem_cons.mp ((push_resting_own s.engine.book o).mem_iff.mp hr)
  have hother := push_resting_other s.engine.book o
  have hnan : ¬ o.price.IsNaN := (hmine o List.mem_cons_self).1.finite.not_nan
  refine ⟨fun r hr => hmine r (List.mem_cons_of_mem _ hr), fun r hr => ?_,
    fun b hb a ha hle => ?_, h.compared.push hnan, push_noEmptyLevel h.nonempty o, h.event,
    h.origin, h.sane⟩
  · rcases List.mem_cons.mp ((push_orders s.engine.book o).mem_iff.mp hr) with rfl | hr
    · exact hmine r List.mem_cons_self
    · exact h.resting r hr
  · change b ∈ (s.engine.book.push o).resting true at hb
    change a ∈ (s.engine.book.push o).resting false at ha
    unfold Accepts at hfresh
    cases hside : o.isBuy
    · rw [hside] at hown hother hfresh
      rw [show (true : Bool) = !false from rfl, hother] at hb
      rcases hown a ha with rfl | ha
      · exact hfresh b hb hle
      · exact h.opposite b hb a ha hle
    · rw [hside] at hown hother hfresh
      rw [show (false : Bool) = !true from rfl, hother] at ha
      rcases hown b hb with rfl | hb
      · exact (hfresh a ha hle).symm
      · exact h.opposite b hb a ha hle

/-- One iteration that trades. -/
theorem Sound.trade (hclock : ∀ n, clock n ≤ clock (n + 1)) (h : Sound clock trace s)
    {e : MatchingEngine Double} {f : Fill Double}
    (hm : matchStep (fun _ => clock (s.readings + 1)) s.engine = .trade e f) :
    Sound clock (trace ++ [.published f]) { s with engine := e, readings := s.readings + 1 } := by
  have ht := matchStep_trade hm
  obtain ⟨hcompared, hcross⟩ := h.compared.trade hm
  obtain ⟨hbuy, hsell⟩ := ht.mem_orders
  -- The iteration reads the clock once, so it might as well stand still.
  obtain ⟨hleft, hmade⟩ := ht.made
    (Scorer.kept_eligible fun _ => Int64.le_refl (clock (s.readings + 1)))
    fun r hr => eligible_frozen (h.resting r hr).1 s.engine.nextMatchId
  have hqty : f.event.qty.toNat < 2 ^ 31 := by
    have hq := tradeEvent_qty (s.engine.nextMatchId + 1) (clock (s.readings + 1))
      hmade.buy.quantity hmade.sell.quantity
    have hlt := (tradedQty f.buy f.sell).toInt_lt
    rw [hmade.event]
    omega
  have hne : f.buy.orderId ≠ f.sell.orderId := by
    obtain ⟨_, hb, -⟩ := ht.resting_buy
    obtain ⟨_, ha, -⟩ := ht.resting_sell
    exact h.opposite f.buy (by rw [hb]; simp) f.sell (by rw [ha]; simp) hcross
  refine ⟨fun o ho => ?_, fun r hr => ?_, fun b hb a ha hle => ?_, hcompared,
    ht.noEmptyLevel h.nonempty, fun g hg => ?_, fun g hg => ?_, fun msg o ho => ?_⟩
  · obtain ⟨he, ho⟩ := h.queued o ho
    exact ⟨(Scorer.kept_eligible hclock).later _ o he, ho.append _⟩
  · obtain ⟨o, ho, hv⟩ := ht.origin hr
    have hfrozen := hleft r hr
    exact ⟨{ hfrozen with processed := Int64.le_trans hfrozen.processed (hclock _) },
      ((h.resting o ho).2.version hv).append _⟩
  · obtain ⟨b', hb', hvb⟩ := ht.origin_side hb
    obtain ⟨a', ha', hva⟩ := ht.origin_side ha
    rw [hvb.orderId, hva.orderId]
    rw [hvb.price, hva.price] at hle
    exact h.opposite b' hb' a' ha' hle
  · rcases List.mem_append.mp hg with hg | hg
    · exact h.event g hg
    · cases List.mem_singleton.mp hg
      exact ⟨Scorer.wellFormed_of_made hmade hne, hqty⟩
  · rcases List.mem_append.mp hg with hg | hg
    · obtain ⟨hb, ha⟩ := h.origin g hg
      exact ⟨hb.append _, ha.append _⟩
    · cases List.mem_singleton.mp hg
      exact ⟨(h.resting _ hbuy).2.append _, (h.resting _ hsell).2.append _⟩
  · exact h.sane msg o (by simpa using ho)

/-- **Every orderly step keeps the invariant.** -/
theorem Sound.next (hclock : ∀ n, clock n ≤ clock (n + 1)) {past : List Input}
    (h : Sound clock trace s) {i : Input} (hok : Orderly clock past s i) :
    Sound clock (trace ++ (step clock s i).2) (step clock s i).1 := by
  cases i with
  | accept fd => exact h.quiet rfl rfl rfl
  | disconnect fd => exact h.quiet rfl rfl rfl
  | read fd bytes =>
    obtain ⟨buffers, decoded, hstep⟩ := step_read fd bytes
    rw [hstep]
    exact h.quiet rfl rfl rfl
  | enqueueOrder room =>
    cases hdecoded : s.decoded with
    | nil =>
      rw [step_enqueueOrder_none hdecoded]
      exact h.quiet rfl rfl rfl
    | cons msg rest =>
      obtain ⟨hsane, hid⟩ := hok msg (by rw [hdecoded]; rfl)
      exact h.enqueueOrder hclock hdecoded hsane hid room
  | dequeue =>
    cases hidle : s.inMatching with
    | true =>
      rw [step_dequeue_busy hidle]
      exact h.quiet rfl rfl rfl
    | false =>
      cases hqueue : s.incomingOrders with
      | nil =>
        rw [step_dequeue_none hqueue]
        exact h.quiet rfl rfl rfl
      | cons o rest =>
        exact h.dequeue hidle hqueue (hok hidle o (by rw [hqueue]; rfl))
  | iterate =>
    cases hin : s.inMatching with
    | false =>
      rw [step_iterate_idle hin]
      exact h.quiet rfl rfl rfl
    | true =>
      cases hm : matchStep (fun _ => clock (s.readings + 1)) s.engine with
      | exit =>
        rw [step_iterate_exit hin hm]
        exact h.quiet rfl rfl rfl
      | emptyLevel e => exact absurd hm (NoEmptyLevel.not_emptyLevel h.nonempty e)
      | trade e f =>
        rw [step_iterate_trade hin hm]
        exact h.trade hclock hm

/-- **In an orderly run every event is proper.** -/
theorem orderly_run_proper (clock : Nat → Int64) (hclock : ∀ n, clock n ≤ clock (n + 1))
    (inputs : List Input) (h : Guarded (step clock) (Orderly clock) [] .init inputs) :
    Proper (outputs (step clock) .init inputs) :=
  (invariant_run (fun _ trace s => Sound clock trace s)
    (fun _ _ _ _ hs hok => hs.next hclock hok) (sound_init clock) h).proper

/-- A masked frame with one message: ten at 10.0, sent at 1. -/
def orderFrame (orderId side : UInt8) : Bytes :=
  [0x82, 0xA0, 0, 0, 0, 0] ++ [orderId, 0, 0, 0, 0, 0, 0, 0] ++ [1, 0, 0, 0, 0, 0, 0, 0] ++
    [0, 0, 0, 0, 0, 0, 0x24, 0x40] ++ [10, 0, 0, 0] ++ [side, 0, 0, 0]

/-- A client sells, another one buys. -/
def twoClients (sellId buyId : UInt8) : List Input :=
  [.accept 4, .accept 5, .read 4 (upgradeRequest ++ orderFrame sellId 2), .enqueueOrder true,
    .read 5 (upgradeRequest ++ orderFrame buyId 1), .dequeue, .iterate, .enqueueOrder true,
    .dequeue, .iterate, .iterate]

theorem twoClients_proper :
    Proper (outputs (step fun _ => 9) .init (twoClients 5 6)) ∧
      ∃ f, .published f ∈ outputs (step fun _ => 9) .init (twoClients 5 6) :=
  ⟨orderly_run_proper (fun _ => 9) (fun _ => by decide) (twoClients 5 6) (by decide +kernel),
    ⟨⟨1, 6, 5, 1, 9, 9, ⟨0x4024000000000000⟩, 10⟩,
      ⟨6, 10, true, ⟨0x4024000000000000⟩, 1, 9, 2⟩,
      ⟨5, 10, false, ⟨0x4024000000000000⟩, 1, 9, 1⟩⟩, by decide +kernel⟩

/-- A buy with the order id 0 is matched, and the event has a zero id. -/
theorem zeroOrderId_published :
    ¬ Proper (outputs (step fun _ => 9) .init (twoClients 5 0)) := by
  intro h
  have hf : Output.published
      ⟨⟨1, 0, 5, 1, 9, 9, ⟨0x4024000000000000⟩, 10⟩,
        ⟨0, 10, true, ⟨0x4024000000000000⟩, 1, 9, 2⟩,
        ⟨5, 10, false, ⟨0x4024000000000000⟩, 1, 9, 1⟩⟩ ∈
      outputs (step fun _ => 9) .init (twoClients 5 0) := by
    decide +kernel
  exact (h.event _ hf).1.buyOrderId rfl

end TradePlat.Ingress
