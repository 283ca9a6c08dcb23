import TradePlat.Gateway.Packing
import TradePlat.Scorer.NoFalsePositives

/-!
# Trade events on the wire (`MarketEvents.h`, `scoring_engine.py`)

The offloader sends the raw bytes of packed `TradeEvent`s, 60 for each, and the
scorer unpacks a message event by event. Unpacking undoes packing for any number of
events in a message (`unpack_packed`), and it fails exactly where the length of a
message is no multiple of 60 (`unpack_ok_iff`).
-/

namespace TradePlat.Telemetry
open Binary64 Gateway Scorer

/-- `sizeof(TradeEvent)` and `TRADE_EVENT_SIZE`. -/
def tradeEventSize : Nat := 60

/-! ## Packing -/

/-- The bytes of a packed `TradeEvent`. Its `match_id` is 64 bits wide. -/
def packed (event : Engine.TradeEvent Double) : Bytes :=
  littleEndianBytes 8 event.matchId ++ (littleEndianBytes 8 event.buyOrderId.toNat ++
    (littleEndianBytes 8 event.sellOrderId.toNat ++ (littleEndianBytes 8 event.t0Ns.toNat ++
      (littleEndianBytes 8 event.t1Ns.toNat ++ (littleEndianBytes 8 event.t2Ns.toNat ++
        (littleEndianBytes 8 event.price.bits.toNat ++
          littleEndianBytes 4 event.qty.toNat))))))

theorem packed_length (event : Engine.TradeEvent Double) :
    (packed event).length = tradeEventSize := by
  simp [packed, tradeEventSize]

/-! ## Unpacking -/

/-- The `k`-th of fields of eight bytes each. -/
def field : Nat → Bytes → Nat
  | 0, bytes => littleEndian (bytes.take 8)
  | k + 1, bytes => field k (bytes.drop 8)

theorem field_zero (value : Nat) (rest : Bytes) :
    field 0 (littleEndianBytes 8 value ++ rest) = value % 256 ^ 8 := by
  rw [field, take_littleEndianBytes, littleEndian_bytes]

theorem field_succ (k value : Nat) (rest : Bytes) :
    field (k + 1) (littleEndianBytes 8 value ++ rest) = field k rest := by
  rw [field, drop_littleEndianBytes]

/-- `TradeEvent(*struct.unpack(TRADE_EVENT_FORMAT, bytes))`. The format is `"<QQQQQQdI"`. -/
def unpackFields (bytes : Bytes) : TradeEvent where
  matchId := field 0 bytes
  buyOrderId := field 1 bytes
  sellOrderId := field 2 bytes
  t0Ns := field 3 bytes
  t1Ns := field 4 bytes
  t2Ns := field 5 bytes
  price := ⟨UInt64.ofNat (field 6 bytes)⟩
  qty := littleEndian ((bytes.drop 56).take 4)

/-- `struct.unpack_from`, with the message of its `struct.error`. -/
def unpackFrom (payload : Bytes) (offset : Nat) : Except String TradeEvent :=
  if payload.length < offset + tradeEventSize then
    .error ("unpack_from requires a buffer of at least " ++ toString (offset + tradeEventSize) ++
      " bytes for unpacking " ++ toString tradeEventSize ++ " bytes at offset " ++
      toString offset ++ " (actual buffer size is " ++ toString payload.length ++ ")")
  else .ok (unpackFields (payload.drop offset))

/-- `range(0, len(payload), TRADE_EVENT_SIZE)`. -/
def offsets (len : Nat) : List Nat :=
  List.range' 0 ((len + tradeEventSize - 1) / tradeEventSize) tradeEventSize

/-- `unpack_trade_events`: all events of the generator, or what it raises. -/
def unpackTradeEvents (payload : Bytes) : Except String (List TradeEvent) :=
  if payload.length % tradeEventSize ≠ 0 then
    .error ("payload size " ++ toString payload.length ++ " is not a multiple of " ++
      toString tradeEventSize)
  else (offsets payload.length).mapM (unpackFrom payload)

/-! ## Round trip -/

theorem unpackFields_packed (event : Engine.TradeEvent Double) (rest : Bytes) :
    unpackFields (packed event ++ rest) =
      { unpacked event with matchId := event.matchId % 2 ^ 64 } := by
  have hfield : ∀ x : UInt64, x.toNat % 256 ^ 8 = x.toNat := fun x =>
    Nat.mod_eq_of_lt x.toNat_lt
  have hqty : event.qty.toNat % 256 ^ 4 = event.qty.toNat := Nat.mod_eq_of_lt event.qty.toNat_lt
  have hdrop : ∀ l : Bytes,
      l.drop 56 = ((((((l.drop 8).drop 8).drop 8).drop 8).drop 8).drop 8).drop 8 := fun l => by
    simp only [List.drop_drop]
  unfold unpackFields packed
  rw [hdrop]
  simp only [List.append_assoc, field_succ, field_zero, drop_littleEndianBytes,
    take_littleEndianBytes, littleEndian_bytes, hfield, hqty, UInt64.ofNat_toNat]
  rfl

theorem unpackFrom_ok {payload : Bytes} {offset : Nat}
    (h : offset + tradeEventSize ≤ payload.length) :
    unpackFrom payload offset = .ok (unpackFields (payload.drop offset)) := by
  unfold unpackFrom
  rw [if_neg (by omega)]

theorem offsets_length (n : Nat) :
    offsets (n * tradeEventSize) = List.range' 0 n tradeEventSize := by
  unfold offsets tradeEventSize
  congr 1
  omega

theorem mapM_unpackFrom {payload : Bytes} (offset n : Nat)
    (h : offset + n * tradeEventSize ≤ payload.length) :
    (List.range' offset n tradeEventSize).mapM (unpackFrom payload) =
      .ok ((List.range' offset n tradeEventSize).map fun i => unpackFields (payload.drop i)) := by
  induction n generalizing offset with
  | zero => rfl
  | succ n ih =>
    have hhead : offset + tradeEventSize ≤ payload.length := by
      rw [Nat.succ_mul] at h
      omega
    have htail : offset + tradeEventSize + n * tradeEventSize ≤ payload.length := by
      rw [Nat.succ_mul] at h
      omega
    rw [List.range'_succ, List.mapM_cons, unpackFrom_ok hhead, ih _ htail]
    rfl

theorem unpack_ok {payload : Bytes} {n : Nat} (h : payload.length = n * tradeEventSize) :
    unpackTradeEvents payload =
      .ok ((List.range' 0 n tradeEventSize).map fun i => unpackFields (payload.drop i)) := by
  unfold unpackTradeEvents
  rw [h, Nat.mul_mod_left, if_neg (fun hne => hne rfl), offsets_length]
  exact mapM_unpackFrom 0 n (by omega)

/-- **Only a length that is no multiple of 60 is an error.** -/
theorem unpack_ok_iff (payload : Bytes) :
    (∃ events, unpackTradeEvents payload = .ok events) ↔ tradeEventSize ∣ payload.length := by
  constructor
  · rintro ⟨events, h⟩
    unfold unpackTradeEvents at h
    split at h
    · cases h
    · rename_i hmod
      exact Nat.dvd_of_mod_eq_zero (not_not.mp hmod)
  · rintro ⟨n, hn⟩
    exact ⟨_, unpack_ok (hn.trans (Nat.mul_comm _ _))⟩

theorem packed_flatMap_length (events : List (Engine.TradeEvent Double)) :
    (events.flatMap packed).length = events.length * tradeEventSize := by
  induction events with
  | nil => rfl
  | cons event events ih =>
    rw [List.flatMap_cons, List.length_append, packed_length, ih, List.length_cons, Nat.succ_mul,
      Nat.add_comm]

theorem map_unpackFields (events : List (Engine.TradeEvent Double)) (before : Bytes) :
    (List.range' before.length events.length tradeEventSize).map
        (fun i => unpackFields ((before ++ events.flatMap packed).drop i)) =
      events.map fun event => { unpacked event with matchId := event.matchId % 2 ^ 64 } := by
  induction events generalizing before with
  | nil => rfl
  | cons event events ih =>
    have hlen : before.length + tradeEventSize = (before ++ packed event).length := by
      rw [List.length_append, packed_length]
    have hbytes : before ++ (event :: events).flatMap packed =
        (before ++ packed event) ++ events.flatMap packed := by
      rw [List.flatMap_cons, List.append_assoc]
    rw [List.length_cons, List.range'_succ, List.map_cons, List.map_cons, hlen, hbytes, ih,
      List.append_assoc, List.drop_left, unpackFields_packed]

/-- **Unpacking undoes packing**, for any number of events in one message. -/
theorem unpack_packed (events : List (Engine.TradeEvent Double)) :
    unpackTradeEvents (events.flatMap packed) =
      .ok (events.map fun event => { unpacked event with matchId := event.matchId % 2 ^ 64 }) := by
  rw [unpack_ok (packed_flatMap_length events)]
  exact congrArg _ (map_unpackFields events [])

end TradePlat.Telemetry
