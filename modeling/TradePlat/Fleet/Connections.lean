import TradePlat.Gateway.Frames
import TradePlat.Gateway.ServerInvariant
import TradePlat.Gateway.Upgrade
import TradePlat.System.FleetIds

/-!
# The connections of a fleet (`main.py`)

Any number of bots, each with the task of `run` and its `read_loop` tasks, and the
gateway they connect to. A step is what one task does up to its next `await`, one step of
the gateway, or some bytes that arrive there. What a bot writes waits in its socket until
it arrives. Connections of others than the bots are there as well.

What a bot reads is any bytes, and what it awaits may raise any error: of the network
only the direction to the gateway is modelled. `bot_logic` is that of any subclass, which
sends what it wants and returns when it wants.
-/

namespace TradePlat.Fleet
open Runs Gateway Binary64 FleetIds

/-- Where the task of `run` awaits something. The order is the one that `send_order` was
called with, and `none` in the `connect` of `run`. -/
inductive Control where
  | new
  | stagger
  | openConnection (order : Option Bytes) (backoff : Rat)
  | drainRequest (order : Option Bytes) (backoff : Rat) (key : Bytes)
  | readResponse (order : Option Bytes) (backoff : Rat) (key : Bytes)
  | waitClosed (order : Option Bytes) (backoff : Rat)
  | sleep (order : Option Bytes) (backoff : Rat)
  | botLogic
  | drainOrder (order : Bytes)
  | ended
  deriving DecidableEq

/-- `Bot`, with its tasks. The reader is that of the writer. -/
structure Client where
  bot : Bot
  running : Bool
  writer : Option Nat
  ordersSent : Nat
  failedMessages : Nat
  connectionDrops : Nat
  control : Control
  readLoops : Nat

/-- The bot at a place of the fleet. -/
def Client.new (place : Nat) : Client := ⟨newBot (place + 1), false, none, 0, 0, 0, .new, 0⟩

/-- `opener` is the bot that opened a connection, `isClosing` that of its writer, and
`unsent` what was written to it and has not arrived. -/
structure State where
  server : TCPServer.State
  clients : Nat → Client
  opener : Nat → Option Nat
  isClosing : Nat → Bool
  unsent : Nat → Bytes

def State.init : State :=
  ⟨.init, Client.new, fun _ => none, fun _ => false, fun _ => []⟩

/-- What the tasks of a bot go on with. `fail` is an error that is caught, `raises`
another one, or that the task is cancelled. `kept` says whether a closing writer takes
what is written to it. -/
inductive Event where
  | run
  | slept
  | opened (urandom : Fin 16 → UInt8)
  | drained
  | response (response : Bytes) (mask : Mask) (kept : Bool)
  | closed
  | fail
  | raises
  | sendOrder (timeNs : Int) (side : String) (qty : Int) (price : Double) (mask : Mask)
  | finish
  | read (data : Bytes)
  | disconnect

inductive Input where
  | client (b : Nat) (event : Event)
  | arrive (connection count : Nat)
  | connect
  | arriveOther (connection : Nat) (bytes : Bytes)
  | server (input : TCPServer.Input)

/-- What the gateway does, the orders that are formatted, and what is written. -/
inductive Output where
  | server (output : TCPServer.Output)
  | formatted (b : Nat) (order : Bytes)
  | requested (connection : Nat) (request : Bytes)
  | wrote (b connection : Nat) (order frame : Bytes)
  deriving DecidableEq

section Steps
variable (host : String) (port : Int)

def State.setClient (s : State) (b : Nat) (c : Client) : State :=
  { s with clients := Function.update s.clients b c }

/-- `writer.close()`. -/
def State.close (s : State) : Option Nat → State
  | some connection => { s with isClosing := Function.update s.isClosing connection true }
  | none => s

/-- `writer.write(data)`. -/
def State.write (s : State) (connection : Nat) (data : Bytes) : State :=
  { s with unsent := Function.update s.unsent connection (s.unsent connection ++ data) }

/-- The head of the loop of `connect`. It returns `False` where the bot is not running. -/
def Client.loop (c : Client) (order : Option Bytes) (backoff : Rat) : Client :=
  { c with control := if c.running then .openConnection order backoff else .botLogic }

/-- `connect()`. -/
def Client.connect (c : Client) (order : Option Bytes) : Client := c.loop order 1

/-- The `except` of `connect`. -/
def Client.retry (c : Client) (order : Option Bytes) (backoff : Rat) : Client :=
  { c with connectionDrops := c.connectionDrops + 1, control := .sleep order backoff }

/-- The `except` of `send_order`. -/
def State.failed (s : State) (b : Nat) (c : Client) : State × List Output :=
  ((s.setClient b { c with failedMessages := c.failedMessages + 1, control := .botLogic }).close
    c.writer, [])

/-- The `try` of `send_order`. -/
def State.sendFrame (s : State) (b : Nat) (c : Client) (order : Bytes) (mask : Mask)
    (kept : Bool) : State × List Output :=
  match c.writer, websocketBinaryFrame mask order with
  | some connection, some frame =>
    let s := s.setClient b { c with control := .drainOrder order }
    if s.isClosing connection = false ∨ kept = true then
      (s.write connection frame, [.wrote b connection order frame])
    else (s, [])
  | _, _ => s.failed b c

/-- `open_connection` has returned, and `connect` writes the request. -/
def State.opened (s : State) (b : Nat) (c : Client) (order : Option Bytes) (backoff : Rat)
    (urandom : Bytes) : State × List Output :=
  let connection := s.server.connections
  let key := Base64.encode urandom
  let s := { s with
    server := (TCPServer.step s.server .connect).1
    opener := Function.update s.opener connection (some b) }
  let c := { c with writer := some connection }
  match connectRequest host port key with
  | some request =>
    ((s.setClient b { c with control := .drainRequest order backoff key }).write connection request,
      [.requested connection request])
  | none => (s.setClient b { c with control := .ended }, [])

def clientStep (s : State) (b : Nat) (event : Event) : State × List Output :=
  let c := s.clients b
  match event, c.control with
  | .run, .new => (s.setClient b { c with running := true, control := .stagger }, [])
  | .slept, .stagger => (s.setClient b (c.connect none), [])
  | .opened urandom, .openConnection order backoff =>
    s.opened host port b c order backoff (List.ofFn urandom)
  | .drained, .drainRequest order backoff key =>
    (s.setClient b { c with control := .readResponse order backoff key }, [])
  | .response response mask kept, .readResponse order backoff key =>
    if acceptsResponse key response then
      let c := { c with readLoops := c.readLoops + 1, control := .botLogic }
      match order with
      | some order => s.sendFrame b c order mask kept
      | none => (s.setClient b c, [])
    else ((s.setClient b { c with control := .waitClosed order backoff }).close c.writer, [])
  | .closed, .waitClosed order backoff => (s.setClient b (c.retry order backoff), [])
  | .slept, .sleep order backoff =>
    (s.setClient b (c.loop order (min (backoff * 2) 10)), [])
  | .fail, .openConnection order backoff | .fail, .drainRequest order backoff _
  | .fail, .readResponse order backoff _ | .fail, .waitClosed order backoff =>
    (s.setClient b (c.retry order backoff), [])
  | .sendOrder timeNs side qty price mask, .botLogic =>
    match c.bot.formatOrder timeNs side qty price with
    | (bot, none) => (s.setClient b { c with bot := bot, control := .ended }, [])
    | (bot, some order) =>
      let c := { c with bot := bot }
      if c.writer.any fun connection => s.isClosing connection = false then
        let (s, more) := s.sendFrame b c order mask false
        (s, .formatted b order :: more)
      else (s.setClient b (c.connect (some order)), [.formatted b order])
  | .drained, .drainOrder _ =>
    (s.setClient b { c with ordersSent := c.ordersSent + 1, control := .botLogic }, [])
  | .fail, .drainOrder _ => s.failed b c
  | .finish, .botLogic => (s.setClient b { c with control := .ended }, [])
  | .raises, _ => (s.setClient b { c with control := .ended }, [])
  | .read data, _ =>
    -- an end of the stream and an error of `read` are both without data
    if c.readLoops = 0 ∨ (data ≠ [] ∧ c.running = true) then (s, [])
    else
      let c := { c with readLoops := c.readLoops - 1 }
      if c.running then
        ((s.setClient b { c with connectionDrops := c.connectionDrops + 1 }).close c.writer, [])
      else (s.setClient b c, [])
  | .disconnect, _ => ((s.setClient b { c with running := false }).close c.writer, [])
  | _, _ => (s, [])

/-- A step of the gateway. -/
def serverStep (s : State) (input : TCPServer.Input) : State × List Output :=
  ({ s with server := (TCPServer.step s.server input).1 },
    (TCPServer.step s.server input).2.map .server)

def step (s : State) : Input → State × List Output
  | .client b event => clientStep host port s b event
  | .arrive connection count =>
    let (s', more) := serverStep s (.arrive connection ((s.unsent connection).take count))
    ({ s' with unsent :=
        Function.update s.unsent connection ((s.unsent connection).drop count) }, more)
  | .connect => serverStep s .connect
  | .arriveOther connection bytes =>
    if s.opener connection = none then serverStep s (.arrive connection bytes) else (s, [])
  | .server input =>
    match input with
    | .connect | .arrive _ _ => (s, [])
    | _ => serverStep s input

end Steps
end TradePlat.Fleet
