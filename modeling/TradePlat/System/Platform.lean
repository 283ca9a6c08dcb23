import TradePlat.Engine.Totals
import TradePlat.Fleet.ConnectionsTrace
import TradePlat.Lib.TaggedParts
import TradePlat.System.EndToEnd

/-!
# The whole platform

The bots, the network, the gateway, the engine and its offloader as one machine. The
gateway of the fleet and that of the exchange are the same one, so that a run of the
platform is a run of the fleet (`fleet_run`) and a run of the exchange (`exchange_run`) at
once, and what holds of either holds here.

* `trades_asked_for`: where only bots are connected, the engine is given orders they
  formatted, none more often than it was formatted; every event of every batch is a trade
  between two of them; and the events of an id trade no more than its orders asked for.
* `clean_platform_balanced`: where moreover nothing is on its way or left behind, the engine
  is given every order that a bot wrote, once, and the scorer's books and the order book
  add up to what these orders asked for.
-/

namespace TradePlat.Platform
open Runs Gateway Binary64 Engine RingCells TaggedParts

structure State where
  fleet : Fleet.State
  decoded : List OrderMessage
  loop : ProcessLoop.State Double
  pending : List (TradeEvent Double)
  offloader : KafkaOffloader.State (TradeEvent Double)

def start (order : Order Double) (event : TradeEvent Double) (started : Bool) : State :=
  ⟨.init, [], ProcessLoop.start order, [], KafkaOffloader.start event started⟩

/-- The exchange behind the gateway of the fleet. -/
def State.exchange (s : State) : Pipeline.State :=
  ⟨s.fleet.server, s.decoded, s.loop, s.pending, s.offloader⟩

inductive Input where
  | fleet (i : Fleet.Input)
  | exchange (i : Pipeline.Input)

inductive Output where
  | fleet (out : Fleet.Output)
  | loop (out : ProcessLoop.Output Double)
  | feed (out : KafkaOffloader.Output (TradeEvent Double))
  deriving DecidableEq

def Output.ofExchange : Pipeline.Output → Output
  | .server out => .fleet (.server out)
  | .loop out => .loop out
  | .feed out => .feed out

/-- A step of the server thread. -/
def IsServerThread : Fleet.Input → Bool
  | .server i => !Pipeline.IsNetwork i
  | _ => false

section Steps
variable (host : String) (port : Int) (capacity : Capacity) (clock : Nat → Int64)

def fleetStep (s : State) (i : Fleet.Input) : State × List Output :=
  let (fleet, out) := Fleet.step host port s.fleet i
  ({ s with
      fleet := fleet
      decoded := s.decoded ++ (Pipeline.received (Fleet.serverOuts out)).map Prod.snd },
    out.map .fleet)

def exchangeStep (s : State) (i : Pipeline.Input) : State × List Output :=
  let (exchange, out) := Pipeline.step capacity clock s.exchange i
  (⟨s.fleet, exchange.decoded, exchange.loop, exchange.pending, exchange.offloader⟩,
    out.map .ofExchange)

/-- The steps of the gateway are those of the fleet. -/
def step (s : State) : Input → State × List Output
  | .fleet i =>
    if IsServerThread i ∧ ¬ s.exchange.Serving then (s, []) else fleetStep host port s i
  | .exchange i =>
    match i with
    | .server _ => (s, [])
    | i => exchangeStep capacity clock s i

end Steps

/-! ## Traces -/

def Output.ofFleet : Output → List Fleet.Output
  | .fleet out => [out]
  | .loop _ | .feed _ => []

def Output.toExchange : Output → List Pipeline.Output
  | .fleet (.server out) => [.server out]
  | .fleet _ => []
  | .loop out => [.loop out]
  | .feed out => [.feed out]

def fleetOuts (out : List Output) : List Fleet.Output := out.flatMap Output.ofFleet

def exchangeOuts (out : List Output) : List Pipeline.Output := out.flatMap Output.toExchange

/-- The gateway of both is the same. -/
theorem serverOuts_eq (out : List Output) :
    Pipeline.serverOuts (exchangeOuts out) = Fleet.serverOuts (fleetOuts out) := by
  induction out with
  | nil => rfl
  | cons o out ih =>
    have hexchange : exchangeOuts (o :: out) = o.toExchange ++ exchangeOuts out := rfl
    have hfleet : fleetOuts (o :: out) = o.ofFleet ++ fleetOuts out := rfl
    rw [hexchange, hfleet, Pipeline.serverOuts_append, Fleet.serverOuts_append, ih]
    congr 1
    rcases o with (_ | _ | _ | _) | _ | _ <;> rfl

theorem outs_fleet (out : List Fleet.Output) :
    fleetOuts (out.map .fleet) = out ∧
      exchangeOuts (out.map .fleet) = (Fleet.serverOuts out).map .server := by
  induction out with
  | nil => exact ⟨rfl, rfl⟩
  | cons o out ih =>
    have hfleet : fleetOuts ((o :: out).map .fleet) = o :: fleetOuts (out.map .fleet) := rfl
    have hexchange : exchangeOuts ((o :: out).map .fleet) =
        Output.toExchange (.fleet o) ++ exchangeOuts (out.map .fleet) := rfl
    rw [hfleet, hexchange, ih.1, ih.2]
    refine ⟨rfl, ?_⟩
    cases o <;> rfl

theorem outs_exchange {out : List Pipeline.Output} (h : Pipeline.serverOuts out = []) :
    fleetOuts (out.map .ofExchange) = [] ∧ exchangeOuts (out.map .ofExchange) = out := by
  induction out with
  | nil => exact ⟨rfl, rfl⟩
  | cons o out ih =>
    have hfleet : fleetOuts ((o :: out).map .ofExchange) =
        (Output.ofExchange o).ofFleet ++ fleetOuts (out.map .ofExchange) := rfl
    have hexchange : exchangeOuts ((o :: out).map .ofExchange) =
        (Output.ofExchange o).toExchange ++ exchangeOuts (out.map .ofExchange) := rfl
    cases o with
    | server o => cases h
    | loop o | feed o =>
      obtain ⟨ihfleet, ihexchange⟩ := ih h
      rw [hfleet, hexchange, ihfleet, ihexchange]
      exact ⟨rfl, rfl⟩

/-! ## The parts of a run -/

theorem setClient_close_server (s : Fleet.State) (b : Nat) (c : Fleet.Client)
    (closes : Option Nat) : ((s.setClient b c).close closes).server = s.server := by
  cases closes <;> rfl

/-- A step of a bot is none of the gateway, or a new connection. -/
theorem client_server (host : String) (port : Int) (s : Fleet.State) (b : Nat)
    (event : Fleet.Event) :
    Fleet.serverOuts (Fleet.clientStep host port s b event).2 = [] ∧
      ((Fleet.clientStep host port s b event).1.server = s.server ∨
        (Fleet.clientStep host port s b event).1.server =
          (TCPServer.step s.server .connect).1) := by
  have hmoves := Fleet.clientStep_moves host port s b event
  generalize Fleet.clientStep host port s b event = result at hmoves
  cases hmoves with
  | stays => exact ⟨rfl, Or.inl rfl⟩
  | quiet c' closes | formats c' closes order =>
    exact ⟨rfl, Or.inl (setClient_close_server s b c' closes)⟩
  | writes c' connection order frame mask | sends c' connection order frame mask =>
    exact ⟨rfl, Or.inl rfl⟩
  | opens order backoff urandom =>
    unfold Fleet.State.opened
    dsimp only
    split <;> exact ⟨rfl, Or.inr rfl⟩

/-- A step of the fleet is none of the gateway, or one. -/
theorem fleet_server (host : String) (port : Int) (s : Fleet.State) (i : Fleet.Input) :
    ((Fleet.step host port s i).1.server = s.server ∧
      Fleet.serverOuts (Fleet.step host port s i).2 = []) ∨
    ∃ j, (i = .server j ∨ Pipeline.IsNetwork j) ∧
      (Fleet.step host port s i).1.server = (TCPServer.step s.server j).1 ∧
      Fleet.serverOuts (Fleet.step host port s i).2 = (TCPServer.step s.server j).2 := by
  cases i with
  | client b event =>
    obtain ⟨hout, hsame | hconnect⟩ := client_server host port s b event
    · exact Or.inl ⟨hsame, hout⟩
    · exact Or.inr ⟨.connect, Or.inr rfl, hconnect, hout⟩
  | arrive connection count =>
    exact Or.inr ⟨_, Or.inr rfl, rfl, Fleet.serverOuts_server _⟩
  | connect => exact Or.inr ⟨_, Or.inr rfl, rfl, Fleet.serverOuts_server _⟩
  | arriveOther connection bytes =>
    simp only [Fleet.step]
    split
    · exact Or.inr ⟨_, Or.inr rfl, rfl, Fleet.serverOuts_server _⟩
    · exact Or.inl ⟨rfl, rfl⟩
  | server j =>
    simp only [Fleet.step]
    split
    · exact Or.inl ⟨rfl, rfl⟩
    · exact Or.inl ⟨rfl, rfl⟩
    · exact Or.inr ⟨j, Or.inl rfl, rfl, Fleet.serverOuts_server _⟩

section Parts
variable {host : String} {port : Int} {capacity : Capacity} {clock : Nat → Int64}

variable (capacity clock) in
theorem exchange_server (s : Pipeline.State) {i : Pipeline.Input} (hi : ∀ j, i ≠ .server j) :
    (Pipeline.step capacity clock s i).1.server = s.server ∧
      Pipeline.serverOuts (Pipeline.step capacity clock s i).2 = [] := by
  have hloop : ∀ (s : Pipeline.State) i, (s.loopStep capacity clock i).1.server = s.server ∧
      Pipeline.serverOuts (s.loopStep capacity clock i).2 = [] :=
    fun s i => ⟨rfl, (Pipeline.outs_loop _).2.1⟩
  have hfeed : ∀ i, (s.feedStep clock i).1.server = s.server ∧
      Pipeline.serverOuts (s.feedStep clock i).2 = [] :=
    fun i => ⟨rfl, (Pipeline.outs_feed _).2.1⟩
  cases i with
  | server j => exact absurd rfl (hi j)
  | enqueueOrder t1 =>
    simp only [Pipeline.step]
    split
    · exact hloop _ _
    · exact ⟨rfl, rfl⟩
  | enqueue spurious | join => exact hloop _ _
  | worker =>
    simp only [Pipeline.step]
    split
    · split <;> exact hloop _ _
    · exact hfeed _
  | offloader accepted | joinOffloader => exact hfeed _
  | stop =>
    simp only [Pipeline.step]
    split
    · exact hloop _ _
    · exact ⟨rfl, rfl⟩
  | stopOffloader =>
    simp only [Pipeline.step]
    split
    · exact hfeed _
    · exact ⟨rfl, rfl⟩

theorem step_client (s : State) (b : Nat) (event : Fleet.Event) :
    step host port capacity clock s (.fleet (.client b event)) =
      fleetStep host port s (.client b event) := by
  have hno : ¬ (IsServerThread (.client b event) = true ∧ ¬ s.exchange.Serving) :=
    fun h => Bool.false_ne_true h.1
  rw [step, if_neg hno]

variable (host port capacity clock) in
theorem step_exchange (s : State) {i : Pipeline.Input} (hi : ∀ j, i ≠ .server j) :
    step host port capacity clock s (.exchange i) = exchangeStep capacity clock s i := by
  cases i with
  | server j => exact absurd rfl (hi j)
  | _ => rfl

variable (host port capacity clock) in
/-- **A run of the platform is a run of the fleet.** -/
theorem fleet_run (order : Order Double) (event : TradeEvent Double) (started : Bool)
    (inputs : List Input) :
    ∃ is, (run (Fleet.step host port) .init is).1 =
        (run (step host port capacity clock) (start order event started) inputs).1.fleet ∧
      outputs (Fleet.step host port) .init is =
        fleetOuts (outputs (step host port capacity clock) (start order event started) inputs) := by
  refine run_projects (f := State.fleet) (fun s i => ?_) (start order event started) inputs
  have hquiet : ∃ js, (run (Fleet.step host port) s.fleet js).1 = s.fleet ∧
      outputs (Fleet.step host port) s.fleet js = fleetOuts [] := ⟨[], rfl, rfl⟩
  cases i with
  | fleet i =>
    simp only [step]
    split
    · exact hquiet
    · refine ⟨[i], rfl, ?_⟩
      rw [outputs_cons, outputs_nil, List.append_nil]
      exact (outs_fleet _).1.symm
  | exchange i =>
    by_cases hi : ∃ j, i = .server j
    · obtain ⟨j, rfl⟩ := hi
      exact hquiet
    · have hserver := (exchange_server capacity clock s.exchange (not_exists.mp hi)).2
      rw [step_exchange host port capacity clock s (not_exists.mp hi)]
      exact ⟨[], rfl, (outs_exchange hserver).1.symm⟩

variable (host port capacity clock) in
/-- **A run of the platform is a run of the exchange.** -/
theorem exchange_run (order : Order Double) (event : TradeEvent Double) (started : Bool)
    (inputs : List Input) :
    ∃ is, (run (Pipeline.step capacity clock) (Pipeline.start order event started) is).1 =
        (run (step host port capacity clock) (start order event started) inputs).1.exchange ∧
      outputs (Pipeline.step capacity clock) (Pipeline.start order event started) is =
        exchangeOuts
          (outputs (step host port capacity clock) (start order event started) inputs) := by
  refine run_projects (f := State.exchange) (fun s i => ?_) (start order event started) inputs
  have hquiet : ∃ js, (run (Pipeline.step capacity clock) s.exchange js).1 = s.exchange ∧
      outputs (Pipeline.step capacity clock) s.exchange js = exchangeOuts [] := ⟨[], rfl, rfl⟩
  cases i with
  | fleet i =>
    simp only [step]
    split
    · exact hquiet
    · rename_i hruns
      rcases fleet_server host port s.fleet i with ⟨hsame, hout⟩ | ⟨j, hj, hserver, hout⟩
      · refine ⟨[], ?_, ?_⟩
        · simp [fleetStep, State.exchange, run, hsame, hout, Pipeline.received]
        · simp only [fleetStep]
          rw [outputs_nil]
          exact ((outs_fleet _).2.trans (by rw [hout]; rfl)).symm
      · have hserving : Pipeline.IsNetwork j ∨ s.exchange.Serving := by
          rcases hj with rfl | hj
          · by_cases hnetwork : Pipeline.IsNetwork j
            · exact Or.inl hnetwork
            · refine Or.inr (by_contra fun hno => hruns ⟨?_, hno⟩)
              rw [IsServerThread, Bool.eq_false_iff.mpr hnetwork]
              rfl
          · exact Or.inl hj
        have hstep : Pipeline.step capacity clock s.exchange (.server j) =
            ((fleetStep host port s i).1.exchange, exchangeOuts (fleetStep host port s i).2) := by
          simp only [Pipeline.step, if_pos hserving, fleetStep]
          rw [(outs_fleet _).2]
          simp only [State.exchange, hserver, hout]
        refine ⟨[.server j], ?_, ?_⟩
        · rw [run, hstep]
          rfl
        · rw [outputs_cons, outputs_nil, List.append_nil, hstep]
          rfl
  | exchange i =>
    by_cases hi : ∃ j, i = .server j
    · obtain ⟨j, rfl⟩ := hi
      exact hquiet
    · obtain ⟨hserver, hout⟩ := exchange_server capacity clock s.exchange (not_exists.mp hi)
      rw [step_exchange host port capacity clock s (not_exists.mp hi)]
      refine ⟨[i], ?_, ?_⟩
      · change (Pipeline.step capacity clock s.exchange i).1 = _
        unfold exchangeStep
        generalize Pipeline.step capacity clock s.exchange i = result at hserver ⊢
        obtain ⟨⟨server, decoded, loop, pending, offloader⟩, out⟩ := result
        cases hserver
        rfl
      · rw [outputs_cons, outputs_nil, List.append_nil]
        exact (outs_exchange hout).2.symm

/-- What holds of the fleet and of the exchange holds of the platform. -/
theorem inv_run (order : Order Double) (event : TradeEvent Double) (started : Bool)
    (inputs : List Input) {out : List Output} {s : State}
    (hout : outputs (step host port capacity clock) (start order event started) inputs = out)
    (hs : (run (step host port capacity clock) (start order event started) inputs).1 = s) :
    Fleet.Wired host port (fleetOuts out) s.fleet ∧ Fleet.Formats (fleetOuts out) s.fleet ∧
      Pipeline.Inv capacity clock started (exchangeOuts out) s.exchange := by
  obtain ⟨is, hfleet, hfleetOut⟩ := fleet_run host port capacity clock order event started inputs
  obtain ⟨js, hexchange, hexchangeOut⟩ :=
    exchange_run host port capacity clock order event started inputs
  rw [hout] at hfleetOut hexchangeOut
  rw [hs] at hfleet hexchange
  obtain ⟨hwired, hformats⟩ := Fleet.inv_run host port is
  have hx := Pipeline.inv_run capacity clock started order event js
  rw [hfleet, hfleetOut] at hwired hformats
  rw [hexchange, hexchangeOut] at hx
  exact ⟨hwired, hformats, hx⟩

end Parts

/-! ## Orders of bots -/

/-- The orders that are formatted, with their bots. -/
def formatted (out : List Fleet.Output) : List (Nat × Bytes) :=
  out.filterMap fun
    | .formatted b order => some (b, order)
    | _ => none

/-- The order that a message asks for. -/
def wanted (message : Nat × Bytes) : Order Double := (OrderMessage.decode message.2).order 0 0

theorem formattedBy_eq (b : Nat) (out : List Fleet.Output) :
    Fleet.formattedBy b out = ((formatted out).filter fun m => m.1 = b).map Prod.snd := by
  induction out with
  | nil => rfl
  | cons o out ih =>
    rw [show o :: out = [o] ++ out from rfl, Fleet.formattedBy_append, ih]
    have happend : formatted ([o] ++ out) = formatted [o] ++ formatted out :=
      List.filterMap_append
    rw [happend, List.filter_append, List.map_append]
    congr 1
    cases o with
    | formatted b' order =>
      by_cases hb : b' = b <;> simp [Fleet.formattedBy, formatted, hb]
    | _ => rfl

section Bots
variable {host : String} {port : Int} {capacity : Capacity} {clock : Nat → Int64}
  {started : Bool} {out : List Output} {s : State}

/-- What is written was formatted, each order once. -/
theorem writes_subperm {out : List Fleet.Output} {s : Fleet.State} (h : Fleet.Formats out s) :
    ((Fleet.writes out).map Prod.snd).Subperm ((formatted out).map Prod.snd) := by
  refine parts_subperm (fun w => w.1.1) Prod.fst fun b => ?_
  rw [← formattedBy_eq]
  exact (List.sublist_append_left _ _).trans (h.wrote b)

theorem ordersOn_size {out : List Fleet.Output} {s : Fleet.State} (h : Fleet.Formats out s)
    (c : Nat) : ∀ order ∈ Fleet.ordersOn c out, order.length = msgSize := by
  intro order hmem
  obtain ⟨w, hw, rfl⟩ := List.mem_map.mp hmem
  have hwrote : w.2 ∈ Fleet.wroteBy w.1.1 out := List.mem_map_of_mem
    (List.mem_filter.mpr ⟨List.mem_of_mem_filter hw, decide_eq_true rfl⟩)
  exact h.size w.1.1 w.2 (((List.sublist_append_left _ _).trans (h.wrote w.1.1)).subset hwrote)

/-- Nothing is made of a connection that is not there, and nothing was written to it. -/
theorem received_absent {out : List Fleet.Output} {s : Fleet.State}
    (h : Fleet.Wired host port out s) {c : Nat} (hc : s.server.connections ≤ c) :
    Fleet.received c out = [] ∧ Fleet.ordersOn c out = [] := by
  refine ⟨?_, (h.unopened c (h.fresh c hc)).2⟩
  rw [Fleet.received, h.server.streams.actions c, h.server.streams.waiting c (Or.inr hc)]
  rfl

/-- What the gateway makes of the connections of bots was written to them. -/
theorem received_subperm {out : List Fleet.Output} {s : Fleet.State}
    (h : Fleet.Wired host port out s) (hf : Fleet.Formats out s) (hhost : HostOk host)
    (hbots : ∀ c < s.server.connections, s.opener c ≠ none) :
    ((Pipeline.received (Fleet.serverOuts out)).map Prod.snd).Subperm
      ((Fleet.writes out).map fun w => OrderMessage.decode w.2) := by
  refine parts_subperm Prod.fst (fun w => w.1.2) fun c => ?_
  have hmessages : (((Pipeline.received (Fleet.serverOuts out)).filter fun m => m.1 = c).map
      Prod.snd) = Fleet.received c out := Pipeline.messagesOf_received c _
  rw [hmessages]
  by_cases hc : c < s.server.connections
  · obtain ⟨b, hopen⟩ := Option.ne_none_iff_exists'.mp (hbots c hc)
    have hprefix := (h.received_prefix hhost hopen (ordersOn_size hf c)).sublist
    rwa [Fleet.ordersOn, List.map_map] at hprefix
  · rw [(received_absent h (Nat.le_of_not_lt hc)).1]
    exact List.nil_sublist _

/-- It is all of it where nothing is on its way. -/
theorem received_perm {out : List Fleet.Output} {s : Fleet.State}
    (h : Fleet.Wired host port out s) (hf : Fleet.Formats out s) (hhost : HostOk host)
    (hbots : ∀ c < s.server.connections, s.opener c ≠ none ∧ s.unsent c = [] ∧
      TCPServer.Live s.server c) (hidle : s.server.Idle) :
    ((Pipeline.received (Fleet.serverOuts out)).map Prod.snd).Perm
      ((Fleet.writes out).map fun w => OrderMessage.decode w.2) := by
  have hparts : ∀ c, (((Pipeline.received (Fleet.serverOuts out)).filter fun m => m.1 = c).map
      Prod.snd) = ((Fleet.writes out).filter fun w => w.1.2 = c).map
        fun w => OrderMessage.decode w.2 := by
    intro c
    have hmessages : (((Pipeline.received (Fleet.serverOuts out)).filter fun m => m.1 = c).map
        Prod.snd) = Fleet.received c out := Pipeline.messagesOf_received c _
    have horders : ((Fleet.writes out).filter fun w => w.1.2 = c).map
        (fun w => OrderMessage.decode w.2) = (Fleet.ordersOn c out).map .decode := by
      rw [Fleet.ordersOn, List.map_map]
      rfl
    rw [hmessages, horders]
    by_cases hc : c < s.server.connections
    · obtain ⟨hopened, hsent, hlive⟩ := hbots c hc
      obtain ⟨b, hopen⟩ := Option.ne_none_iff_exists'.mp hopened
      exact h.received_all hhost hopen (ordersOn_size hf c) hidle hsent hlive
    · obtain ⟨hreceived, hnone⟩ := received_absent h (Nat.le_of_not_lt hc)
      rw [hreceived, hnone]
      rfl
  exact perm_of_parts Prod.fst (fun w => w.1.2) hparts

/-- The orders given to the engine were asked for by bots. -/
theorem added_subperm {out : List Fleet.Output} {s : Fleet.State}
    {exchange : List Pipeline.Output} {e : Pipeline.State} (h : Fleet.Wired host port out s)
    (hf : Fleet.Formats out s) (hx : Pipeline.Inv capacity clock started exchange e)
    (hhost : HostOk host) (hbots : ∀ c < s.server.connections, s.opener c ≠ none)
    (hserver : Pipeline.serverOuts exchange = Fleet.serverOuts out) :
    ((Pipeline.added exchange).map Pipeline.plain).Subperm ((formatted out).map wanted) := by
  have hcalled := hx.called_messages
  have hadded : (Pipeline.added exchange).Sublist (Pipeline.called exchange) :=
    hx.loop.added_prefix.sublist.trans hx.loop.accepted_sublist
  have hreceived : ((Pipeline.added exchange).map Pipeline.plain).Sublist
      (((Pipeline.received (Fleet.serverOuts out)).map Prod.snd).map (·.order 0 0)) := by
    rw [hserver] at hcalled
    rw [List.map_map]
    exact (hadded.map _).trans hcalled.sublist
  have hwrites := map_subperm (fun order => (OrderMessage.decode order).order 0 0)
    (writes_subperm hf)
  have hmessages := map_subperm (·.order 0 0) (received_subperm h hf hhost hbots)
  rw [List.map_map] at hwrites hmessages hreceived
  rw [List.map_map] at hwrites hmessages
  exact hreceived.subperm.trans (hmessages.trans hwrites)

/-- At rest the engine was given what the bots wrote. -/
theorem given_perm {out : List Fleet.Output} {s : Fleet.State}
    {exchange : List Pipeline.Output} {e : Pipeline.State} (h : Fleet.Wired host port out s)
    (hf : Fleet.Formats out s) (hx : Pipeline.Inv capacity clock started exchange e)
    (hhost : HostOk host)
    (hbots : ∀ c < s.server.connections, s.opener c ≠ none ∧ s.unsent c = [] ∧
      TCPServer.Live s.server c) (hidle : s.server.Idle) (hquiet : Pipeline.Quiescent exchange e)
    (hserver : Pipeline.serverOuts exchange = Fleet.serverOuts out) :
    ((Pipeline.called exchange).map Pipeline.plain).Perm
      ((Fleet.writes out).map fun w => (OrderMessage.decode w.2).order 0 0) := by
  have hreceived := received_perm h hf hhost hbots hidle
  have hcalled := hx.called_received hquiet
  rw [hserver] at hcalled
  have hmap := hreceived.map fun message : OrderMessage => message.order 0 0
  rw [List.map_map, List.map_map] at hmap
  exact (List.Perm.of_eq hcalled).trans hmap

end Bots

/-- **Every trade was asked for.** In every run of the platform to which only bots connect
and in which they ask for positive quantities: the engine is given orders that bots
formatted, each at most as often as it was formatted; every event in a batch is a trade
between a buy and a sell order that bots formatted, at the price of one of them; and the
events of a side and an id trade together no more than the orders formatted with that
side and id ask for. -/
theorem trades_asked_for (host : String) (port : Int) (hhost : HostOk host)
    (capacity : Capacity) (clock : Nat → Int64) (order : Order Double)
    (event : TradeEvent Double) (started : Bool) (inputs : List Input)
    (hbots : let s := (run (step host port capacity clock) (start order event started) inputs).1
      ∀ c < s.fleet.server.connections, s.fleet.opener c ≠ none)
    (hpos : ∀ message ∈ formatted (fleetOuts (outputs (step host port capacity clock)
      (start order event started) inputs)), 0 < (wanted message).quantity) :
    let out := outputs (step host port capacity clock) (start order event started) inputs
    let asked := (formatted (fleetOuts out)).map wanted
    let events := (KafkaOffloader.batches (Pipeline.feedOuts (exchangeOuts out))).flatten
    ((Pipeline.added (exchangeOuts out)).map Pipeline.plain).Subperm asked ∧
    (∀ event ∈ events, ∃ buy ∈ asked, ∃ sell ∈ asked,
      buy.isBuy = true ∧ sell.isBuy = false ∧ event.buyOrderId = buy.wire ∧
        event.sellOrderId = sell.wire ∧ (event.price = buy.price ∨ event.price = sell.price)) ∧
    ∀ b id, tradedBy b id events ≤ askedBy b id asked := by
  intro out asked events
  obtain ⟨hwired, hformats, hx⟩ := inv_run order event started inputs rfl rfl
  have hadded := added_subperm hwired hformats hx hhost hbots (serverOuts_eq out)
  have hpositive : ∀ o ∈ Pipeline.added (exchangeOuts out), 0 < o.quantity := fun o ho => by
    obtain ⟨message, hmessage, heq⟩ := List.mem_map.mp (hadded.subset (List.mem_map_of_mem ho))
    change 0 < (Pipeline.plain o).quantity
    rw [← heq]
    exact hpos message hmessage
  refine ⟨hadded, fun event hevent => ?_, fun b id => ?_⟩
  · obtain ⟨buy, hbuy, sell, hsell, hparties⟩ := hx.events_parties event hevent
    exact ⟨_, hadded.subset (List.mem_map_of_mem hbuy), _,
      hadded.subset (List.mem_map_of_mem hsell), hparties⟩
  · have hseq : ((Pipeline.added (exchangeOuts out)).map Order.seqNo).Nodup := by
      have hcalled := (hx.loop.added_prefix.sublist.trans hx.loop.accepted_sublist).map Order.seqNo
      rw [← Pipeline.called, hx.called_seqNos] at hcalled
      exact hcalled.nodup List.nodup_range'
    have htraded := tradedBy_le_askedBy clock hpositive hseq b id
    have hplain : askedBy b id (Pipeline.added (exchangeOuts out)) =
        askedBy b id ((Pipeline.added (exchangeOuts out)).map Pipeline.plain) := by
      rw [askedBy, askedBy, List.filter_map, List.map_map]
      rfl
    have hasked : ∀ o ∈ asked, 0 < o.quantity := List.forall_mem_map.mpr hpos
    exact ((tradedBy_sublist hx.produced_fills).trans htraded).trans
      (hplain ▸ askedBy_subperm hasked hadded)

/-- **A clean run of the platform.** Where besides nothing is on its way and no connection
has ended, and the exchange has ended cleanly: every order that a bot wrote was given to
the engine, exactly once; and if the scorer has nothing to object to them, it reads the
topic to its end without a violation, and its books and the order book add up to what
these orders asked for. -/
theorem clean_platform_balanced (host : String) (port : Int) (hhost : HostOk host)
    (capacity : Capacity) (clock : Nat → Int64) (order : Order Double)
    (event : TradeEvent Double) (inputs : List Input)
    (hbots : let s := (run (step host port capacity clock) (start order event true) inputs).1
      ∀ c < s.fleet.server.connections, s.fleet.opener c ≠ none ∧ s.fleet.unsent c = [] ∧
        TCPServer.Live s.fleet.server c)
    (hclean : Pipeline.Clean
      (exchangeOuts (outputs (step host port capacity clock) (start order event true) inputs))
      (run (step host port capacity clock) (start order event true) inputs).1.exchange) :
    let out := outputs (step host port capacity clock) (start order event true) inputs
    let s := (run (step host port capacity clock) (start order event true) inputs).1
    let given := Pipeline.called (exchangeOuts out)
    (given.map Pipeline.plain).Perm
      ((Fleet.writes (fleetOuts out)).map fun w => (OrderMessage.decode w.2).order 0 0) ∧
    s.loop.engine = (run (call clock) .init (given.map .addOrder)).1 ∧
    ((∀ n, clock n ≤ clock (n + 1)) → s.loop.engine.nextMatchId < 2 ^ 64 →
      Guarded (call clock) (Scorer.Scorable clock) [] .init (given.map .addOrder) →
      ∀ str now windowSeconds, ∃ final,
        Telemetry.consume str now (.new windowSeconds) (Pipeline.topic (exchangeOuts out)) =
          .ok final ∧ Telemetry.Balanced clock given final) := by
  intro out s given
  obtain ⟨hwired, hformats, hx⟩ := inv_run order event true inputs rfl rfl
  have hquiet := hx.quiescent hclean
  exact ⟨given_perm hwired hformats hx hhost hbots hquiet.idle hquiet (serverOuts_eq out),
    (hx.balanced hquiet).2.2⟩

/-- **The platform at rest balances.** The same at any moment of a run at which nothing is
on its way, no connection has ended, and the exchange has read everything, dropped and
refused nothing and has nothing left in a queue or in the hands of a thread. -/
theorem quiescent_platform_balanced (host : String) (port : Int) (hhost : HostOk host)
    (capacity : Capacity) (clock : Nat → Int64) (started : Bool) (order : Order Double)
    (event : TradeEvent Double) (inputs : List Input)
    (hbots : let s := (run (step host port capacity clock) (start order event started) inputs).1
      ∀ c < s.fleet.server.connections, s.fleet.opener c ≠ none ∧ s.fleet.unsent c = [] ∧
        TCPServer.Live s.fleet.server c)
    (hquiet : Pipeline.Quiescent
      (exchangeOuts (outputs (step host port capacity clock) (start order event started) inputs))
      (run (step host port capacity clock) (start order event started) inputs).1.exchange) :
    let out := outputs (step host port capacity clock) (start order event started) inputs
    let s := (run (step host port capacity clock) (start order event started) inputs).1
    let given := Pipeline.called (exchangeOuts out)
    (given.map Pipeline.plain).Perm
      ((Fleet.writes (fleetOuts out)).map fun w => (OrderMessage.decode w.2).order 0 0) ∧
    s.loop.engine = (run (call clock) .init (given.map .addOrder)).1 ∧
    ((∀ n, clock n ≤ clock (n + 1)) → s.loop.engine.nextMatchId < 2 ^ 64 →
      Guarded (call clock) (Scorer.Scorable clock) [] .init (given.map .addOrder) →
      ∀ str now windowSeconds, ∃ final,
        Telemetry.consume str now (.new windowSeconds) (Pipeline.topic (exchangeOuts out)) =
          .ok final ∧ Telemetry.Balanced clock given final) := by
  intro out s given
  obtain ⟨hwired, hformats, hx⟩ := inv_run order event started inputs rfl rfl
  exact ⟨given_perm hwired hformats hx hhost hbots hquiet.idle hquiet (serverOuts_eq out),
    (hx.balanced hquiet).2.2⟩

/-- A bot that is connected sells five and buys three at 10, and the engine is given both. -/
def tradeBegins : List Input :=
  let ten : Double := ⟨0x4024000000000000⟩
  List.flatten [
    [.client 0 (.sendOrder 5 "S" 5 ten fun _ => 7), .client 0 .drained,
      .client 0 (.sendOrder 6 "B" 3 ten fun _ => 7), .client 0 .drained, .arrive 0 1000,
      .server (.epollWait [.listener]), .server .next, .server (.accept (some 5)),
      .server (.accept none), .server .next, .server (.epollWait [.client 5]), .server .next,
      .server (.read 8192)].map .fleet,
    [.enqueueOrder 7].map .exchange, List.replicate 5 (.exchange (.enqueue false)),
    List.replicate 8 (.exchange .worker), [.enqueueOrder 8].map .exchange,
    List.replicate 5 (.exchange (.enqueue false)),
    [.server (.read 8192), .server .next].map .fleet, List.replicate 11 (.exchange .worker)]

/-- The trade is published, and the threads of the exchange are stopped. -/
def tradeRun : List Input :=
  List.flatten [tradeBegins, List.replicate 3 (.exchange (.offloader true)),
    List.replicate 3 (.exchange .worker), [.stop, .worker, .join, .stopOffloader].map .exchange,
    List.replicate 20 (.exchange (.offloader true)), [.joinOffloader].map .exchange]

/-- The trade is published, and the threads of the exchange go on. -/
def tradeRest : List Input :=
  List.flatten [tradeBegins, List.replicate 4 (.exchange .worker),
    List.replicate 12 (.exchange (.offloader true))]

/-- The platform without a clock. -/
def stopped : State → Input → State × List Output :=
  step "127.0.0.1" 8080 ProcessLoop.queueCapacity fun _ => 9

/-- The state before the response of the gateway, and behind it. -/
def requested : State :=
  (run stopped (start ProcessLoop.oneOrder TradeFeed.emptyEvent true)
    (Fleet.helloRun.map .fleet)).1

def connected : State := { requested with fleet := Fleet.greeted }

theorem run_connected (more : List Input) : ∃ inputs : List Input,
    (run stopped (start ProcessLoop.oneOrder TradeFeed.emptyEvent true) inputs).1 =
        (run stopped connected more).1 ∧
      outputs stopped (start ProcessLoop.oneOrder TradeFeed.emptyEvent true) inputs =
        outputs stopped (start ProcessLoop.oneOrder TradeFeed.emptyEvent true)
          (Fleet.helloRun.map .fleet) ++ outputs stopped connected more := by
  obtain ⟨response, -, haccepts⟩ :=
    acceptsResponse_handshake (Base64.encode (List.ofFn fun _ : Fin 16 => (7 : UInt8)))
  have haccepted := Fleet.accepted_response "127.0.0.1" 8080 1
    (s := requested.fleet) (b := 0) rfl haccepts (fun _ => 0) true
  have hstep : stopped requested (.fleet (.client 0 (.response response (fun _ => 0) true))) =
      (connected, []) := by
    rw [stopped, step_client, fleetStep, haccepted]
    rfl
  refine ⟨Fleet.helloRun.map .fleet ++
    .fleet (.client 0 (.response response (fun _ => 0) true)) :: more, ?_, ?_⟩
  · rw [run_append, ← requested]
    simp only [run, hstep]
  · rw [outputs_append, outputs_cons, ← requested, hstep, List.nil_append]

theorem tradeRun_asked_for : ∃ inputs : List Input,
    let out := outputs stopped (start ProcessLoop.oneOrder TradeFeed.emptyEvent true) inputs
    let events := (KafkaOffloader.batches (Pipeline.feedOuts (exchangeOuts out))).flatten
    events.length = 1 ∧ ∀ b id,
      tradedBy b id events ≤ askedBy b id ((formatted (fleetOuts out)).map wanted) := by
  obtain ⟨inputs, hstate, hout⟩ := run_connected tradeRun
  have h := trades_asked_for "127.0.0.1" 8080 (by decide) ProcessLoop.queueCapacity (fun _ => 9)
    ProcessLoop.oneOrder TradeFeed.emptyEvent true inputs
    (by rw [← stopped, hstate]; decide +kernel) (by rw [← stopped, hout]; decide +kernel)
  refine ⟨inputs, ?_, h.2.2⟩
  rw [hout]
  decide +kernel

theorem tradeRun_balanced : ∃ inputs : List Input,
    let out := outputs stopped (start ProcessLoop.oneOrder TradeFeed.emptyEvent true) inputs
    let given := Pipeline.called (exchangeOuts out)
    given.length = 2 ∧ ∃ final,
      Telemetry.consume (fun _ => "") (fun _ => 0) (.new 60) (Pipeline.topic (exchangeOuts out)) =
        .ok final ∧ Telemetry.Balanced (fun _ => 9) given final := by
  obtain ⟨inputs, hstate, hout⟩ := run_connected tradeRun
  have h := clean_platform_balanced "127.0.0.1" 8080 (by decide) ProcessLoop.queueCapacity
    (fun _ => 9) ProcessLoop.oneOrder TradeFeed.emptyEvent inputs
    (by rw [← stopped, hstate]; decide +kernel)
    (by rw [← stopped, hstate, hout]; decide +kernel)
  rw [← stopped] at h
  refine ⟨inputs, ?_, h.2.2 (fun _ => by decide) ?_ ?_ _ _ _⟩
  · rw [hout]
    decide +kernel
  · rw [hstate]
    decide +kernel
  · rw [hout]
    decide +kernel

theorem tradeRest_balanced : ∃ inputs : List Input,
    let out := outputs stopped (start ProcessLoop.oneOrder TradeFeed.emptyEvent true) inputs
    let s := (run stopped (start ProcessLoop.oneOrder TradeFeed.emptyEvent true) inputs).1
    let given := Pipeline.called (exchangeOuts out)
    s.loop.isRunning = true ∧ given.length = 2 ∧ ∃ final,
      Telemetry.consume (fun _ => "") (fun _ => 0) (.new 60) (Pipeline.topic (exchangeOuts out)) =
        .ok final ∧ Telemetry.Balanced (fun _ => 9) given final := by
  obtain ⟨inputs, hstate, hout⟩ := run_connected tradeRest
  have h := quiescent_platform_balanced "127.0.0.1" 8080 (by decide) ProcessLoop.queueCapacity
    (fun _ => 9) true ProcessLoop.oneOrder TradeFeed.emptyEvent inputs
    (by rw [← stopped, hstate]; decide +kernel)
    (by rw [← stopped, hstate, hout]; decide +kernel)
  rw [← stopped] at h
  refine ⟨inputs, ?_, ?_, h.2.2 (fun _ => by decide) ?_ ?_ _ _ _⟩
  · rw [hstate]
    decide +kernel
  · rw [hout]
    decide +kernel
  · rw [hstate]
    decide +kernel
  · rw [hout]
    decide +kernel

end TradePlat.Platform
