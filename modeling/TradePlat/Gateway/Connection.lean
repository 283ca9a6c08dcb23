import TradePlat.Lib.Binary64
import TradePlat.Engine.OrderBook
import TradePlat.Gateway.Handshake

/-!
# A client connection (`TCPServer.h`, `TCPServer.cpp`, `Protocol.h`, `Order.h`)

`handleRead` is what `handleClientData` does with the bytes of one `read`, on the
`RingBuffer` of the connection: the handshake, the frame loop and the cutting of
the payload into order messages. Its effects on the outside are `Action`s, in
order; a connection that was closed has no buffer any more. Loops run on fuel,
and every iteration reads at least one byte of what the fuel counts.
-/

namespace TradePlat.Gateway
open Binary64 Engine

/-! ## Order messages -/

/-- `OrderMessage`, less its padding. -/
structure OrderMessage where
  orderId : UInt64
  timestampNs : UInt64
  price : Double
  qty : UInt32
  side : UInt8
  deriving DecidableEq, Repr

/-- The number of little-endian bytes. -/
def littleEndian : Bytes → Nat
  | [] => 0
  | c :: rest => c.toNat + 256 * littleEndian rest

def msgSize : Nat := 32

/-- The `memcpy` of a message. -/
def OrderMessage.decode (bytes : Bytes) : OrderMessage where
  orderId := UInt64.ofNat (littleEndian (bytes.take 8))
  timestampNs := UInt64.ofNat (littleEndian ((bytes.drop 8).take 8))
  price := ⟨UInt64.ofNat (littleEndian ((bytes.drop 16).take 8))⟩
  qty := UInt32.ofNat (littleEndian ((bytes.drop 24).take 4))
  side := bytes.getD 28 0

def OrderMessage.isBuy (msg : OrderMessage) : Bool :=
  msg.side = 66 || msg.side = 98 || msg.side = 1

/-- `Order(msg.order_id, msg.qty, isBuy, msg.price, msg.timestamp_ns, t1_ns)`, which
takes the next sequence number. -/
def OrderMessage.order (msg : OrderMessage) (t1 : Int64) (seqNo : Nat) : Order Double where
  orderId := msg.orderId.toUInt32.toInt32
  quantity := msg.qty.toInt32
  isBuy := msg.isBuy
  price := msg.price
  t0 := msg.timestampNs.toInt64
  t1 := t1
  seqNo := seqNo

/-! ## Frames -/

/-- What the head of the frame loop finds in the unread bytes. -/
inductive Frame where
  | incomplete
  | close (consumed : Nat)
  | frame (opcode : UInt8) (payload : Bytes) (consumed : Nat)
  deriving DecidableEq, Repr

/-- The payload length and the header length without the mask. `none` where the
length field is not there yet. -/
def frameLength (base : Bytes) : Option (Nat × Nat) :=
  let len := (base.getD 1 0 &&& 0x7F).toNat
  if len = 126 then
    if base.length < 4 then none
    else some ((base.getD 2 0).toNat * 256 + (base.getD 3 0).toNat, 4)
  else if len = 127 then
    if base.length < 10 then none
    else some (((base.drop 2).take 8).foldl (fun n c => n * 256 + c.toNat) 0, 10)
  else some (len, 2)

def unmask (mask : Nat → UInt8) (payload : Bytes) : Bytes :=
  payload.mapIdx fun i c => c ^^^ mask (i % 4)

/-- The head of the frame loop, on the bytes from `read_ptr` on. -/
def parseFrame (base : Bytes) : Frame :=
  if base.length < 2 then .incomplete
  else match frameLength base with
    | none => .incomplete
    | some (payloadLen, headerLen) =>
      if base.getD 1 0 &&& 0x80 = 0 then .close 0
      else if payloadLen > 2 ^ 20 then .close 0
      else if base.length < headerLen + 4 + payloadLen then .incomplete
      else if base.getD 0 0 &&& 0x0F = 8 then .close (headerLen + 4 + payloadLen)
      else
        .frame (base.getD 0 0 &&& 0x0F)
          (unmask (fun i => base.getD (headerLen + i) 0)
            ((base.drop (headerLen + 4)).take payloadLen))
          (headerLen + 4 + payloadLen)

/-! ## The connection -/

structure RingBuffer where
  data : Bytes
  readPtr : Nat
  payload : Bytes
  payloadReadPtr : Nat
  websocketReady : Bool
  deriving DecidableEq, Repr

def RingBuffer.fresh : RingBuffer := ⟨[], 0, [], 0, false⟩

inductive Action where
  | respond (response : Bytes)
  | enqueueOrder (msg : OrderMessage)
  | close
  deriving DecidableEq, Repr

/-- The loop of `process_payload_orders`: the messages and the new `payload_read_ptr`. -/
def cutMessages (payload : Bytes) : Nat → Nat → List OrderMessage × Nat
  | 0, ptr => ([], ptr)
  | fuel + 1, ptr =>
    if payload.length - ptr < msgSize then ([], ptr)
    else
      let rest := cutMessages payload fuel (ptr + msgSize)
      (OrderMessage.decode ((payload.drop ptr).take msgSize) :: rest.1, rest.2)

/-- `process_payload_orders`. -/
def processPayloadOrders (rb : RingBuffer) : RingBuffer × List OrderMessage :=
  let cut := cutMessages rb.payload (rb.payload.length + 1) rb.payloadReadPtr
  if cut.2 > 16384 then
    ({ rb with payload := rb.payload.drop cut.2, payloadReadPtr := 0 }, cut.1)
  else ({ rb with payloadReadPtr := cut.2 }, cut.1)

/-- The end of the frame loop: the payload of a data frame is processed, that of
any other frame is passed over. -/
def acceptFrame (rb : RingBuffer) (opcode : UInt8) (payload : Bytes) (consumed : Nat) :
    RingBuffer × List OrderMessage :=
  let processed :=
    if opcode = 2 ∨ opcode = 0 then
      processPayloadOrders { rb with payload := rb.payload ++ payload }
    else (rb, [])
  ({ processed.1 with readPtr := processed.1.readPtr + consumed }, processed.2)

/-- The frame loop: the buffer, the actions, and `close_client`. -/
def frameLoop : Nat → RingBuffer → RingBuffer × List Action × Bool
  | 0, rb => (rb, [], false)
  | fuel + 1, rb =>
    match parseFrame (rb.data.drop rb.readPtr) with
    | .incomplete => (rb, [], false)
    | .close consumed => ({ rb with readPtr := rb.readPtr + consumed }, [], true)
    | .frame opcode payload consumed =>
      let accepted := acceptFrame rb opcode payload consumed
      let rest := frameLoop fuel accepted.1
      (rest.1, accepted.2.map .enqueueOrder ++ rest.2.1, rest.2.2)

/-- The frame loop on everything unread, the compaction behind it and the close. -/
def handleFrames (rb : RingBuffer) : Option RingBuffer × List Action :=
  let looped := frameLoop (rb.data.length + 1) rb
  let rb' :=
    if looped.1.readPtr > 16384 then
      { looped.1 with data := looped.1.data.drop looped.1.readPtr, readPtr := 0 }
    else looped.1
  if looped.2.2 then (none, looped.2.1 ++ [.close]) else (some rb', looped.2.1)

/-- `handleClientData` behind the insertion of the new bytes. -/
def handleData (rb : RingBuffer) : Option RingBuffer × List Action :=
  if rb.websocketReady then handleFrames rb
  else match headerEnd rb.data with
    | none => (some rb, [])
    | some pos =>
      let key := headerValue (rb.data.take (pos + 4)) (ascii "Sec-WebSocket-Key")
      if key = [] then (none, [.close])
      else
        let opened := handleFrames
          { rb with data := rb.data.drop (pos + 4), readPtr := 0, websocketReady := true }
        (opened.1, .respond (handshakeResponse key) :: opened.2)

/-- What `handleClientData` does with the bytes of one `read`. -/
def handleRead : Option RingBuffer → Bytes → Option RingBuffer × List Action
  | none, _ => (none, [])
  | some rb, bytes => handleData { rb with data := rb.data ++ bytes }

end TradePlat.Gateway
