import TradePlat.Gateway.Packing
import TradePlat.Lib.Runs
import TradePlat.Telemetry.MarketEvents

/-!
# Ids and quantities from the wire to the events (`main.py`, `Order.h`, `MarketEvents.h`)

A bot packs an id of 64 bits and a quantity of 32 bits, both unsigned. `Order` has
room for two signed numbers of 32 bits, and the event takes the id of the order, with
its sign extended. So an id comes back where its upper half only repeats bit 31
(`wireId_engineId`), a quantity enters the book where it is below `2 ^ 31`, and two
orders share an id of the engine where theirs agree modulo `2 ^ 32`.
-/

namespace TradePlat.WireFidelity
open Runs Engine Gateway Telemetry Scorer Binary64

/-! ## Narrowing -/

/-- The conversion of `msg.order_id` to the `int` of an `Order`. -/
def engineId (orderId : Nat) : Int32 := (UInt64.ofNat orderId).toUInt32.toInt32

/-- The signed reading of 32 bits. -/
theorem toInt32_bmod (x : UInt32) : x.toInt32.toInt = (x.toNat : Int).bmod (2 ^ 32) :=
  BitVec.toInt_eq_toNat_bmod x.toBitVec

theorem engineId_toInt (orderId : Nat) :
    (engineId orderId).toInt = (orderId : Int).bmod (2 ^ 32) := by
  have hlow : (UInt64.ofNat orderId).toUInt32.toNat = orderId % 2 ^ 32 := by
    rw [UInt64.toNat_toUInt32, UInt64.toNat_ofNat']
    omega
  rw [engineId, toInt32_bmod, hlow, Int.natCast_emod]
  exact Int.emod_bmod orderId (2 ^ 32)

theorem wireId_toInt (id : Int32) :
    (wireId id : Int) = if 0 ≤ id.toInt then id.toInt else id.toInt + 2 ^ 64 := by
  have hwide : id.toInt64.toUInt64.toBitVec.toInt = id.toInt := Int32.toInt_toInt64 id
  have hbits : wireId id = id.toInt64.toUInt64.toBitVec.toNat := rfl
  rw [BitVec.toInt_eq_toNat_cond] at hwide
  split at hwide <;> split <;> omega

/-- An id comes back where the sign of its lower half gives the upper half. -/
theorem wireId_engineId {orderId : Nat} (h : orderId < 2 ^ 64) :
    wireId (engineId orderId) = orderId ↔ orderId < 2 ^ 31 ∨ 2 ^ 64 - 2 ^ 31 ≤ orderId := by
  have hwire := wireId_toInt (engineId orderId)
  rw [engineId_toInt, Int.bmod_def] at hwire
  split at hwire <;> split at hwire <;> omega

theorem engineId_eq (orderId orderId' : Nat) :
    engineId orderId = engineId orderId' ↔ orderId % 2 ^ 32 = orderId' % 2 ^ 32 := by
  rw [← Int32.toInt_inj, engineId_toInt, engineId_toInt]
  simp only [Int.bmod_def]
  constructor
  · intro h
    split at h <;> split at h <;> omega
  · intro h
    split <;> split <;> omega

theorem quantity_toInt {qty : Nat} (h : qty < 2 ^ 32) :
    (UInt32.ofNat qty).toInt32.toInt = qty ↔ qty < 2 ^ 31 := by
  rw [toInt32_bmod, UInt32.toNat_ofNat_of_lt' h, Int.bmod_def]
  split <;> omega

/-! ## Orders of the bots -/

/-- The fields of an order that a bot can pack. -/
structure WireOrder where
  orderId : Nat
  timestampNs : Nat
  price : Double
  qty : Nat
  side : String
  orderId_lt : orderId < 2 ^ 64
  timestampNs_lt : timestampNs < 2 ^ 64
  finite : price.IsFinite
  qty_lt : qty < 2 ^ 32

/-- The order the gateway makes of the bytes that `format_order` packs. -/
def WireOrder.received (w : WireOrder) (t1 : Int64) (seqNo : Nat) : Option (Order Double) :=
  ((Bot.before w.orderId).formatOrder w.timestampNs w.side w.qty w.price).2.map fun bytes =>
    (OrderMessage.decode bytes).order t1 seqNo

/-- What the order holds of the fields. -/
structure WireOrder.Narrowed (w : WireOrder) (o : Order Double) : Prop where
  orderId : o.orderId = engineId w.orderId
  quantity : o.quantity = (UInt32.ofNat w.qty).toInt32
  price : o.price = w.price

theorem WireOrder.received_narrowed (w : WireOrder) (t1 : Int64) (seqNo : Nat) :
    ∃ o, w.received t1 seqNo = some o ∧ w.Narrowed o := by
  obtain ⟨bytes, hpacked, -, hdecode⟩ :=
    decode_formatOrder w.orderId_lt w.timestampNs_lt w.qty_lt w.side w.price
  refine ⟨(OrderMessage.decode bytes).order t1 seqNo, ?_, ?_⟩
  · rw [received, hpacked]
    rfl
  · rw [hdecode]
    exact ⟨rfl, rfl, rfl⟩

/-- The order enters the book with the quantity of the wire, and every event it takes
part in, as the scorer unpacks it, has the id of the wire on its side. -/
structure WireOrder.Faithful (w : WireOrder) (o : Order Double) : Prop where
  enters : ∀ book : OrderBook Double,
    o ∈ (book.push o).resting o.isBuy ∧ o.quantity.toInt = w.qty
  carried : ∀ clock calls, .addOrder o ∈ calls → ∀ f ∈ outputs (call clock) .init calls,
    ∃ event, unpackTradeEvents (packed f.event) = .ok [event] ∧
      (o.Version f.buy → event.buyOrderId = w.orderId) ∧
      (o.Version f.sell → event.sellOrderId = w.orderId)

/-! ## Events -/

section Events
variable {P : Type} [LT P] [DecidableLT P] {clock : Nat → Int64} {e e' : MatchingEngine P}

theorem matches_events {fs : List (Fill P)} (h : Matches clock e fs e') :
    ∀ f ∈ fs, ∃ n, f.event = tradeEvent n (clock n) f.buy f.sell := by
  induction h with
  | exit _ => simp
  | emptyLevel _ _ ih => exact ih
  | trade ht _ ih =>
    intro f hf
    rcases List.mem_cons.mp hf with rfl | hf
    · exact ⟨_, ht.event_eq.1⟩
    · exact ih f hf

/-- Every event is made of the two orders of its fill. -/
theorem run_events (calls : List (Call P)) :
    ∀ f ∈ outputs (call clock) e calls, ∃ n, f.event = tradeEvent n (clock n) f.buy f.sell := by
  induction calls generalizing e with
  | nil => simp
  | cons c calls ih =>
    intro f hf
    rw [outputs_cons] at hf
    rcases List.mem_append.mp hf with hf | hf
    · cases c with
      | addOrder o => exact matches_events (matching_matches clock _) f hf
      | cancelOrder id => exact absurd hf List.not_mem_nil
    · exact ih f hf

theorem matchStep_oneSided (h : e.book.buyOrders = [] ∨ e.book.sellOrders = []) :
    matchStep clock e = .exit := by
  unfold matchStep
  rcases h with h | h
  · rw [h]
  · rw [h]
    cases e.book.buyOrders <;> rfl

theorem matchStep_twoOrders (clock : Nat → Int64) {buy sell : Order P} {bid ask : P}
    (hbuy : e.book.buyOrders = [(bid, [buy])]) (hsell : e.book.sellOrders = [(ask, [sell])])
    (hcross : ¬ bid < ask) : ∃ e' event, matchStep clock e = .trade e' ⟨event, buy, sell⟩ := by
  unfold matchStep
  rw [hbuy, hsell]
  exact ⟨_, _, if_neg hcross⟩

theorem matching_first {f : Fill P} (h : matchStep clock e = .trade e' f) :
    f ∈ (matching clock e).2 := by
  rw [matching, matchLoop, h]
  exact List.mem_cons_self

/-- An order that trades with the given one as soon as both are in the book. -/
def counter (o : Order P) : Order P := { o with isBuy := !o.isBuy, seqNo := o.seqNo + 1 }

/-- The sides of a book with one order, and with its counter behind it. -/
theorem push_oneOrder (o : Order P) :
    (OrderBook.empty.push o).side o.isBuy = [(o.price, [o])] ∧
      (OrderBook.empty.push o).side (!o.isBuy) = [] := by
  have hempty : ∀ b, (OrderBook.empty : OrderBook P).side b = [] := fun b => by cases b <;> rfl
  rw [push_side_own, push_side_other, hempty, hempty]
  exact ⟨rfl, rfl⟩

theorem push_counter (o : Order P) :
    ((OrderBook.empty.push o).push (counter o)).side o.isBuy = [(o.price, [o])] ∧
      ((OrderBook.empty.push o).push (counter o)).side (!o.isBuy) =
        [(o.price, [counter o])] := by
  obtain ⟨hown, hother⟩ := push_oneOrder o
  have hsame := push_side_other (OrderBook.empty.push o) (counter o)
  have hnew := push_side_own (OrderBook.empty.push o) (counter o)
  rw [show (counter o).isBuy = !o.isBuy from rfl] at hsame hnew
  rw [Bool.not_not] at hsame
  rw [hother] at hnew
  exact ⟨hsame.trans hown, hnew⟩

theorem counter_trades (clock : Nat → Int64) (o : Order P) (hirrefl : ¬ o.price < o.price) :
    ∃ f ∈ outputs (call clock) .init [.addOrder o, .addOrder (counter o)],
      if o.isBuy then f.buy = o else f.sell = o := by
  obtain ⟨hown, hother⟩ := push_oneOrder o
  obtain ⟨hown', hother'⟩ := push_counter o
  -- Nothing is on the other side when the order comes.
  have hfirst : call clock .init (.addOrder o) = (⟨OrderBook.empty.push o, 0⟩, []) := by
    have hexit : matchStep clock ⟨OrderBook.empty.push o, 0⟩ = .exit := by
      apply matchStep_oneSided
      cases hside : o.isBuy with
      | true => exact Or.inr (by rw [hside] at hother; exact hother)
      | false => exact Or.inl (by rw [hside] at hother; exact hother)
    simp only [call, addOrder, matching, matchLoop, MatchingEngine.init, hexit]
  have hsecond : ∃ f ∈ (matching clock ⟨(OrderBook.empty.push o).push (counter o), 0⟩).2,
      if o.isBuy then f.buy = o else f.sell = o := by
    cases hside : o.isBuy with
    | true =>
      rw [hside] at hown' hother'
      obtain ⟨e', event, hstep⟩ := matchStep_twoOrders clock
        (e := ⟨(OrderBook.empty.push o).push (counter o), 0⟩) hown' hother' hirrefl
      exact ⟨_, matching_first hstep, rfl⟩
    | false =>
      rw [hside] at hown' hother'
      obtain ⟨e', event, hstep⟩ := matchStep_twoOrders clock
        (e := ⟨(OrderBook.empty.push o).push (counter o), 0⟩) hother' hown' hirrefl
      exact ⟨_, matching_first hstep, rfl⟩
  rw [outputs_cons, outputs_cons, hfirst, outputs_nil, List.append_nil, List.nil_append]
  exact hsecond

end Events

/-! ## Fidelity -/

theorem WireOrder.Narrowed.faithful {w : WireOrder} {o : Order Double} (h : w.Narrowed o)
    (hid : w.orderId < 2 ^ 31 ∨ 2 ^ 64 - 2 ^ 31 ≤ w.orderId) (hqty : w.qty < 2 ^ 31) :
    w.Faithful o where
  enters book := ⟨(push_resting_own book o).mem_iff.mpr List.mem_cons_self,
    by rw [h.quantity]; exact (quantity_toInt w.qty_lt).mpr hqty⟩
  carried clock calls _ f hf := by
    obtain ⟨n, hevent⟩ := run_events calls f hf
    have hwire : wireId o.orderId = w.orderId := by
      rw [h.orderId]
      exact (wireId_engineId w.orderId_lt).mpr hid
    refine ⟨_, by simpa using unpack_packed [f.event], fun hv => ?_, fun hv => ?_⟩
    · rw [hevent, ← hwire, ← hv.orderId]
      rfl
    · rw [hevent, ← hwire, ← hv.orderId]
      rfl

theorem WireOrder.Faithful.fits {w : WireOrder} {o : Order Double} (hf : w.Faithful o)
    (h : w.Narrowed o) :
    (w.orderId < 2 ^ 31 ∨ 2 ^ 64 - 2 ^ 31 ≤ w.orderId) ∧ w.qty < 2 ^ 31 := by
  have hqty := (hf.enters .empty).2
  rw [h.quantity] at hqty
  refine ⟨?_, (quantity_toInt w.qty_lt).mp hqty⟩
  have hirrefl : ¬ o.price < o.price := fun hlt => Int.lt_irrefl _ hlt.2.2
  obtain ⟨f, hmem, hside⟩ := counter_trades (fun _ => 0) o hirrefl
  obtain ⟨n, hevent⟩ := run_events _ f hmem
  obtain ⟨event, hunpack, hbuy, hsell⟩ := hf.carried _ _ List.mem_cons_self f hmem
  have hread : event = { unpacked f.event with matchId := f.event.matchId % 2 ^ 64 } := by
    have hpacked := unpack_packed [f.event]
    rw [List.flatMap_cons, List.flatMap_nil, List.append_nil, hunpack] at hpacked
    simpa using hpacked
  refine (wireId_engineId w.orderId_lt).mp ?_
  rw [← h.orderId]
  cases hb : o.isBuy with
  | true =>
    rw [hb, if_pos rfl] at hside
    rw [← hbuy (hside ▸ .refl o), hread, hevent, hside]
    rfl
  | false =>
    rw [hb, if_neg (by simp)] at hside
    rw [← hsell (hside ▸ .refl o), hread, hevent, hside]
    rfl

/-- **When an order of the wire is itself in the engine.** For every order that a bot can
pack, the order the gateway makes of its bytes has the quantity in every book, and its
events have the id, exactly where the upper half of the id repeats bit 31 and the
quantity is below `2 ^ 31`. Two orders share an id of the engine exactly where the ids of
the wire agree modulo `2 ^ 32`. -/
theorem wire_faithful_iff (w w' : WireOrder) (t1 t1' : Int64) (seqNo seqNo' : Nat) :
    ∃ o o', w.received t1 seqNo = some o ∧ w'.received t1' seqNo' = some o' ∧
      (w.Faithful o ↔
        (w.orderId < 2 ^ 31 ∨ 2 ^ 64 - 2 ^ 31 ≤ w.orderId) ∧ w.qty < 2 ^ 31) ∧
      (o.orderId = o'.orderId ↔ w.orderId % 2 ^ 32 = w'.orderId % 2 ^ 32) := by
  obtain ⟨o, ho, hnarrowed⟩ := w.received_narrowed t1 seqNo
  obtain ⟨o', ho', hnarrowed'⟩ := w'.received_narrowed t1' seqNo'
  refine ⟨o, o', ho, ho', ⟨fun hf => hf.fits hnarrowed, fun hfits => ?_⟩, ?_⟩
  · exact hnarrowed.faithful hfits.1 hfits.2
  · rw [hnarrowed.orderId, hnarrowed'.orderId]
    exact engineId_eq w.orderId w'.orderId

def tenPrice : Double := ⟨0x4024000000000000⟩

/-- An order that needs both of its wide fields, and one with the lower half of its id. -/
def wideOrder : WireOrder :=
  ⟨2 ^ 32 + 1, 5, tenPrice, 2 ^ 31, "B", by decide, by decide, by decide, by decide⟩

def narrowOrder : WireOrder :=
  ⟨1, 5, tenPrice, 5, "B", by decide, by decide, by decide, by decide⟩

/-- The two orders share the id 1, the wide one has a negative quantity, and its event
has the id of the other. -/
theorem wideOrder_narrowed :
    ∃ o o', wideOrder.received 2 0 = some o ∧ narrowOrder.received 2 1 = some o' ∧
      o.orderId = o'.orderId ∧ o.quantity.toInt = -2 ^ 31 ∧
      (outputs (call fun _ => 9) .init [.addOrder o, .addOrder (counter o)]).map
          (fun f : Fill Double => (unpackTradeEvents (packed f.event)).toOption.map
            (List.map Scorer.TradeEvent.buyOrderId)) = [some [1]] := by
  refine ⟨⟨1, -2 ^ 31, true, tenPrice, 5, 2, 0⟩, ⟨1, 5, true, tenPrice, 5, 2, 1⟩, ?_, ?_, rfl,
    ?_, ?_⟩
  · decide +kernel
  · decide +kernel
  · decide
  · decide +kernel

theorem narrowOrder_faithful :
    ∃ o, narrowOrder.received 2 1 = some o ∧ narrowOrder.Faithful o := by
  obtain ⟨o, -, ho, -, hiff, -⟩ := wire_faithful_iff narrowOrder wideOrder 2 2 1 0
  exact ⟨o, ho, hiff.mpr ⟨Or.inl (by decide), by decide⟩⟩

end TradePlat.WireFidelity
