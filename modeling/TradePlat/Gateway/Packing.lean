import TradePlat.Gateway.Connection

/-!
# Packed orders (`main.py`)

`Bot.format_order` packs an order with `struct.pack`, in little-endian fields, and
the gateway copies the same 32 bytes over an `OrderMessage`: the message holds what
the bot packed (`decode_formatOrder`).
-/

namespace TradePlat.Gateway
open Binary64 Engine

/-! ## Little-endian fields -/

/-- The `n` bytes of a number, the least significant first. -/
def littleEndianBytes : Nat → Nat → Bytes
  | 0, _ => []
  | n + 1, value => UInt8.ofNat value :: littleEndianBytes n (value / 256)

@[simp] theorem littleEndianBytes_length (n value : Nat) :
    (littleEndianBytes n value).length = n := by
  induction n generalizing value with
  | zero => rfl
  | succ n ih => rw [littleEndianBytes, List.length_cons, ih]

theorem littleEndian_bytes (n value : Nat) :
    littleEndian (littleEndianBytes n value) = value % 256 ^ n := by
  induction n generalizing value with
  | zero =>
    rw [Nat.pow_zero, Nat.mod_one]
    rfl
  | succ n ih =>
    have hbyte : (UInt8.ofNat value).toNat = value % 256 := UInt8.toNat_ofNat'
    rw [littleEndianBytes, littleEndian, ih, hbyte, Nat.pow_succ, Nat.mul_comm (256 ^ n),
      Nat.mod_mul]

theorem littleEndian_bytes_of_lt {n value : Nat} (h : value < 256 ^ n) :
    littleEndian (littleEndianBytes n value) = value := by
  rw [littleEndian_bytes, Nat.mod_eq_of_lt h]

@[simp] theorem take_littleEndianBytes (n value : Nat) (rest : Bytes) :
    (littleEndianBytes n value ++ rest).take n = littleEndianBytes n value :=
  List.take_left' (littleEndianBytes_length n value)

@[simp] theorem drop_littleEndianBytes (n value : Nat) (rest : Bytes) :
    (littleEndianBytes n value ++ rest).drop n = rest :=
  List.drop_left' (littleEndianBytes_length n value)

/-! ## Orders of a bot -/

/-- An unsigned field of `struct.pack`. `none` is `struct.error`. -/
def packUnsigned (n : Nat) (value : Int) : Option Bytes :=
  if 0 ≤ value ∧ value < 256 ^ n then some (littleEndianBytes n value.toNat) else none

theorem packUnsigned_natCast {n value : Nat} (h : value < 256 ^ n) :
    packUnsigned n value = some (littleEndianBytes n value) := by
  unfold packUnsigned
  rw [if_pos ⟨Int.natCast_nonneg value, by exact_mod_cast h⟩, Int.toNat_natCast]

theorem packUnsigned_some {n : Nat} {value : Int} {bytes : Bytes}
    (h : packUnsigned n value = some bytes) : ∃ k : Nat, value = k ∧ k < 256 ^ n := by
  unfold packUnsigned at h
  split at h
  · rename_i hrange
    obtain ⟨k, rfl⟩ := Int.eq_ofNat_of_zero_le hrange.1
    exact ⟨k, rfl, by exact_mod_cast hrange.2⟩
  · cases h

theorem packUnsigned_length {n : Nat} {value : Int} {bytes : Bytes}
    (h : packUnsigned n value = some bytes) : bytes.length = n := by
  unfold packUnsigned at h
  split at h
  · cases h
    exact littleEndianBytes_length n _
  · cases h

/-- `Bot`, with the counter of its order ids. -/
structure Bot where
  orderIdCounter : Int
  deriving DecidableEq, Repr

/-- `generate_order_id`. -/
def Bot.generateOrderId (bot : Bot) : Bot × Int :=
  (⟨bot.orderIdCounter + 1⟩, bot.orderIdCounter + 1)

def sideCode (side : String) : UInt8 := if side = "B" then 1 else 2

/-- `format_order`, at the reading `timeNs` of `time.time_ns`. The format is `"<QQdIB3x"`. -/
def Bot.formatOrder (bot : Bot) (timeNs : Int) (side : String) (qty : Int) (price : Double) :
    Bot × Option Bytes :=
  let (bot, orderId) := bot.generateOrderId
  (bot, do
    let orderId ← packUnsigned 8 orderId
    let timestampNs ← packUnsigned 8 timeNs
    let qty ← packUnsigned 4 qty
    some (orderId ++ (timestampNs ++ (littleEndianBytes 8 price.bits.toNat ++
      (qty ++ (sideCode side :: List.replicate 3 0))))))

theorem formatOrder_length {bot bot' : Bot} {timeNs qty : Int} {side : String} {price : Double}
    {order : Bytes} (h : bot.formatOrder timeNs side qty price = (bot', some order)) :
    order.length = msgSize := by
  have horder : (bot.formatOrder timeNs side qty price).2 = some order := congrArg Prod.snd h
  simp only [Bot.formatOrder, Bot.generateOrderId, Option.bind_eq_bind,
    Option.bind_eq_some_iff] at horder
  obtain ⟨id, hid, time, htime, quantity, hqty, heq⟩ := horder
  cases heq
  simp [packUnsigned_length hid, packUnsigned_length htime, packUnsigned_length hqty, msgSize]

/-- A bot whose next order id is the given one. -/
def Bot.before (orderId : Nat) : Bot := ⟨(orderId : Int) - 1⟩

theorem formatOrder_before {orderId timestampNs qty : Nat} (hid : orderId < 2 ^ 64)
    (htime : timestampNs < 2 ^ 64) (hqty : qty < 2 ^ 32) (side : String) (price : Double) :
    ((Bot.before orderId).formatOrder timestampNs side qty price).2 =
      some (littleEndianBytes 8 orderId ++ (littleEndianBytes 8 timestampNs ++
        (littleEndianBytes 8 price.bits.toNat ++
          (littleEndianBytes 4 qty ++ (sideCode side :: List.replicate 3 0))))) := by
  have hcounter : (Bot.before orderId).orderIdCounter + 1 = (orderId : Int) :=
    Int.sub_add_cancel (orderId : Int) 1
  simp only [Bot.formatOrder, Bot.generateOrderId, hcounter]
  rw [packUnsigned_natCast (show orderId < 256 ^ 8 by omega),
    packUnsigned_natCast (show timestampNs < 256 ^ 8 by omega),
    packUnsigned_natCast (show qty < 256 ^ 4 by omega)]
  rfl

/-- **The gateway reads the message the bot packed.** -/
theorem decode_formatOrder {orderId timestampNs qty : Nat} (hid : orderId < 2 ^ 64)
    (htime : timestampNs < 2 ^ 64) (hqty : qty < 2 ^ 32) (side : String) (price : Double) :
    ∃ bytes, ((Bot.before orderId).formatOrder timestampNs side qty price).2 = some bytes ∧
      bytes.length = msgSize ∧
      OrderMessage.decode bytes =
        ⟨UInt64.ofNat orderId, UInt64.ofNat timestampNs, price, UInt32.ofNat qty,
          sideCode side⟩ := by
  refine ⟨_, formatOrder_before hid htime hqty side price, ?_, ?_⟩
  · simp [msgSize]
  · have hprice : price.bits.toNat < 256 ^ 8 := price.bits.toNat_lt
    have hdrop₁₆ : ∀ l : Bytes, l.drop 16 = (l.drop 8).drop 8 := fun l => by
      rw [List.drop_drop]
    have hdrop₂₄ : ∀ l : Bytes, l.drop 24 = ((l.drop 8).drop 8).drop 8 := fun l => by
      rw [List.drop_drop, List.drop_drop]
    have hside : ∀ l : Bytes, l.getD 28 0 = ((((l.drop 8).drop 8).drop 8).drop 4).getD 0 0 := by
      intro l
      simp [List.drop_drop, List.getD_eq_getElem?_getD]
    unfold OrderMessage.decode
    rw [hside, hdrop₂₄, hdrop₁₆]
    simp only [take_littleEndianBytes, drop_littleEndianBytes]
    rw [littleEndian_bytes_of_lt (show orderId < 256 ^ 8 by omega),
      littleEndian_bytes_of_lt (show timestampNs < 256 ^ 8 by omega),
      littleEndian_bytes_of_lt hprice, littleEndian_bytes_of_lt (show qty < 256 ^ 4 by omega),
      UInt64.ofNat_toNat]
    rfl

end TradePlat.Gateway
