import TradePlat.Gateway.Segmentation

/-!
# The server loop (`TCPServer.cpp`)

`run` waits for events, accepts connections and reads from them until nothing is left
to read. A step is one system call of this thread, or something that happens on the
network: a connection arrives, bytes or the end of a stream arrive on one. Client
sockets are edge-triggered: `epoll_wait` reports one when something arrived on it since
it was reported last, or was there when it was added, and not because something is left.
The listening socket is level-triggered. A closed file descriptor is used again.
-/

namespace TradePlat.TCPServer
open Runs Gateway

/-- `MAX_EVENTS`. -/
def maxEvents : Nat := 1024

/-- `BUFFER_SIZE`. -/
def bufferSize : Nat := 8192

/-- The number of calls of `accept` for one event. -/
def maxAccepts : Nat := 256

/-- What waits to be read from a connection, whether its end is behind that, and
whether something arrived since `epoll_wait` last reported it. -/
structure Socket where
  unread : Bytes
  ended : Bool
  edge : Bool
  deriving DecidableEq, Repr

/-- `read` would not return `EAGAIN`. -/
def Socket.Readable (socket : Socket) : Prop := socket.unread ≠ [] ∨ socket.ended = true

instance (socket : Socket) : Decidable socket.Readable := inferInstanceAs (Decidable (_ ∨ _))

inductive Event where
  | listener
  | client (fd : Nat)
  deriving DecidableEq, Repr

/-- The next system call of `run`, and the events of the batch behind it. -/
inductive Control where
  | wait
  | next (events : List Event)
  | accept (calls : Nat) (events : List Event)
  | read (fd : Nat) (events : List Event)
  deriving DecidableEq, Repr

/-- Connections are numbered as they arrive; `client` says which one a descriptor is
open for. -/
structure State where
  sockets : Nat → Option Socket
  connections : Nat
  backlog : List Nat
  client : Nat → Option Nat
  clientBuffers : Nat → Option RingBuffer
  control : Control

def State.init : State := ⟨fun _ => none, 0, [], fun _ => none, fun _ => none, .wait⟩

/-- `accept` comes with the new descriptor, or `none` where the call fails for want of
one; `read` with the number of bytes it is given. -/
inductive Input where
  | connect
  | arrive (connection : Nat) (bytes : Bytes)
  | hangUp (connection : Nat)
  | epollWait (events : List Event)
  | next
  | accept (fd : Option Nat)
  | read (count : Nat)
  deriving DecidableEq, Repr

/-- What arrived on a connection, and what one read of it was and led to. -/
inductive Output where
  | arrived (connection : Nat) (bytes : Bytes)
  | handled (connection : Nat) (bytes : Bytes) (actions : List Action)
  deriving DecidableEq, Repr

/-- Something arrived on a connection. -/
def State.notify (s : State) (connection : Nat) (socket : Socket) : State :=
  { s with sockets := Function.update s.sockets connection (some { socket with edge := true }) }

/-- `epoll_wait` can report the event. -/
def State.Reports (s : State) : Event → Prop
  | .listener => s.backlog ≠ []
  | .client fd => ((s.client fd).bind s.sockets).any Socket.edge = true

instance (s : State) : DecidablePred s.Reports
  | .listener => inferInstanceAs (Decidable (s.backlog ≠ []))
  | .client _ => inferInstanceAs (Decidable (_ = true))

/-- The event is that of a connection. -/
def State.IsOf (s : State) (connection : Nat) : Event → Bool
  | .listener => false
  | .client fd => s.client fd = some connection

/-- What `epoll_wait` can return. -/
def State.Returns (s : State) (events : List Event) : Prop :=
  events.Nodup ∧ events.length ≤ maxEvents ∧ ∀ event ∈ events, s.Reports event

instance (s : State) (events : List Event) : Decidable (s.Returns events) :=
  inferInstanceAs (Decidable (_ ∧ _ ∧ _))

/-- `epoll_ctl(EPOLL_CTL_DEL)`, `close` and `client_buffers_.erase`. -/
def State.close (s : State) (fd : Nat) (connection : Option Nat) : State :=
  { s with
    sockets := match connection with
      | some c => Function.update s.sockets c none
      | none => s.sockets
    client := Function.update s.client fd none
    clientBuffers := Function.update s.clientBuffers fd none }

/-- One iteration of `handleClientData`. -/
def readStep (s : State) (fd : Nat) (events : List Event) (count : Nat) : State × List Output :=
  match s.client fd with
  | none => ({ s.close fd none with control := .next events }, [])
  | some c =>
    match s.sockets c with
    | none => ({ s.close fd none with control := .next events }, [])
    | some socket =>
      if socket.unread ≠ [] then
        let size := min (max count 1) bufferSize
        let bytes := socket.unread.take size
        let handled := handleRead (some ((s.clientBuffers fd).getD .fresh)) bytes
        let socket := { socket with unread := socket.unread.drop size }
        match handled.1 with
        | none =>
          ({ s.close fd (some c) with control := .next events }, [.handled c bytes handled.2])
        | some rb =>
          ({ s with
              sockets := Function.update s.sockets c (some socket)
              clientBuffers := Function.update s.clientBuffers fd (some rb) },
            [.handled c bytes handled.2])
      else if socket.ended then ({ s.close fd (some c) with control := .next events }, [])
      else ({ s with control := .next events }, [])

/-- One iteration of the loop around `accept`. `client_buffers_[client_fd]` makes an
entry only where there is none. -/
def acceptStep (s : State) (calls : Nat) (events : List Event) (fd : Option Nat) :
    State × List Output :=
  if calls < maxAccepts then
    match s.backlog, fd with
    | c :: rest, some fd =>
      if s.client fd = none then
        ({ s with
            sockets := Function.update s.sockets c
              ((s.sockets c).map fun socket => { socket with edge := socket.Readable })
            backlog := rest
            client := Function.update s.client fd (some c)
            clientBuffers :=
              Function.update s.clientBuffers fd (some ((s.clientBuffers fd).getD .fresh))
            control := .accept (calls + 1) events }, [])
      else (s, [])
    | _, _ => ({ s with control := .next events }, [])
  else ({ s with control := .next events }, [])

def step (s : State) : Input → State × List Output
  | .connect =>
    ({ s with
        sockets := Function.update s.sockets s.connections (some ⟨[], false, false⟩)
        connections := s.connections + 1
        backlog := s.backlog ++ [s.connections] }, [])
  | .arrive c bytes =>
    match s.sockets c with
    | some socket =>
      if socket.ended ∨ bytes = [] then (s, [])
      else (s.notify c { socket with unread := socket.unread ++ bytes }, [.arrived c bytes])
    | none => (s, [])
  | .hangUp c =>
    match s.sockets c with
    | some socket => (s.notify c { socket with ended := true }, [])
    | none => (s, [])
  | .epollWait events =>
    if s.control = .wait ∧ s.Returns events then
      ({ s with
          sockets := fun c => (s.sockets c).map fun socket =>
            if events.any (s.IsOf c) then { socket with edge := false } else socket
          control := .next events }, [])
    else (s, [])
  | .next =>
    match s.control with
    | .next [] => ({ s with control := .wait }, [])
    | .next (.listener :: events) => ({ s with control := .accept 0 events }, [])
    | .next (.client fd :: events) => ({ s with control := .read fd events }, [])
    | _ => (s, [])
  | .accept fd =>
    match s.control with
    | .accept calls events => acceptStep s calls events fd
    | _ => (s, [])
  | .read count =>
    match s.control with
    | .read fd events => readStep s fd events count
    | _ => (s, [])

/-- Nothing is left for `epoll_wait` to report. -/
def State.Idle (s : State) : Prop :=
  s.control = .wait ∧ s.backlog = [] ∧
    ∀ c < s.connections, ∀ socket ∈ s.sockets c, socket.edge = false

instance (s : State) : Decidable s.Idle := inferInstanceAs (Decidable (_ ∧ _ ∧ _))

end TradePlat.TCPServer
