import TradePlat.Fleet.ClientSteps
import TradePlat.Lib.TaggedParts
import TradePlat.System.Ingress

/-!
# What the gateway gets of a fleet

Each connection of a bot carries a request and the frames of orders, one behind the
other, whatever the tasks of the bot do in between; the gateway reads a prefix of that
and makes a prefix of the orders of it. So no order arrives twice or in front of an
earlier one of its connection (`fleet_received`), and while a bot runs its counters
account for every order it formats (`fleet_accounted`).
-/

namespace TradePlat.Fleet
open Runs Incremental Gateway Binary64 FleetIds TaggedParts

/-! ## The stream of a bot -/

/-- A request and frames of orders behind it. -/
structure BotStream (host : String) (port : Int) (stream : Bytes) (orders : List Bytes) : Prop where
  begun : ∃ urandom request frames encoded, List.length urandom = 16 ∧
    connectRequest host port (Base64.encode urandom) = some request ∧
    websocketBinaryFrames frames = some encoded ∧ frames.map Prod.snd = orders ∧
    stream = request ++ encoded

/-- The gateway makes the orders of the stream. -/
theorem BotStream.messages {host : String} {port : Int} {stream : Bytes} {orders : List Bytes}
    (h : BotStream host port stream orders) (hhost : HostOk host)
    (hsize : ∀ order ∈ orders, order.length = msgSize) :
    Ingress.messages (outputs handleRead (some .fresh) [stream]) = orders.map .decode := by
  obtain ⟨urandom, request, frames, encoded, hlen, hrequest, hframes, rfl, rfl⟩ := h.begun
  obtain ⟨r, rfl, hvalue⟩ := connectRequest_head hhost hrequest
  have hkey : r.value websocketKey ≠ [] := by
    rw [hvalue]
    exact Base64.encode_ne_nil (List.ne_nil_of_length_pos (by omega))
  have hstep := gatewayStep_bytes r encoded
  rw [if_neg hkey] at hstep
  have hsmall : ∀ f ∈ frames, f.2.length ≤ 2 ^ 20 := fun f hf => by
    rw [hsize f.2 (List.mem_map_of_mem hf)]
    decide
  have hend : Parses gateway ⟨true, remainderOf ([] ++ frames.flatMap Prod.snd)⟩ [] []
      (some (⟨true, remainderOf ([] ++ frames.flatMap Prod.snd)⟩, [])) := .wait rfl
  have hparse := frames_parse hsmall hframes (show ([] : Bytes).length < msgSize by decide) hend
  rw [List.append_nil, List.append_nil, List.nil_append] at hparse
  have hrest : (r.bytes ++ encoded).drop r.bytes.length = encoded := List.drop_left
  have hnext : Parses gateway ⟨false, []⟩ (r.bytes ++ encoded)
      ([.respond (handshakeResponse (r.value websocketKey))] ++ enqueued (frames.flatMap Prod.snd))
      (some (⟨true, remainderOf (frames.flatMap Prod.snd)⟩, [])) :=
    .next hstep (by rw [hrest]; exact hparse)
  have hreads := reads_parse RingBuffer.valid_fresh rfl [r.bytes ++ encoded]
  rw [List.flatten_singleton] at hreads
  rw [(hreads.deterministic hnext).1]
  change Ingress.messages (enqueued (frames.flatMap Prod.snd)) = _
  rw [Ingress.messages_enqueued, List.flatMap_def, records_of_orders hsize]

/-- What is read first gives the orders that come first. -/
theorem messages_prefix {read stream : Bytes} (h : read <+: stream) :
    Ingress.messages (outputs handleRead (some .fresh) [read]) <+:
      Ingress.messages (outputs handleRead (some .fresh) [stream]) := by
  obtain ⟨rest, rfl⟩ := h
  have hcut := TCPServer.actionsOf_flatten [read, rest]
  rw [List.flatten_cons, List.flatten_singleton] at hcut
  change Ingress.messages (TCPServer.actionsOf [read]) <+:
    Ingress.messages (TCPServer.actionsOf [read ++ rest])
  rw [← hcut, TCPServer.actionsOf, TCPServer.actionsOf, show [read, rest] = [read] ++ [rest] from rfl,
    outputs_append, Ingress.messages, Ingress.messages, List.filterMap_append]
  exact List.prefix_append _ _

theorem BotStream.request {host : String} {port : Int} {urandom request : Bytes}
    (hlen : urandom.length = 16)
    (h : connectRequest host port (Base64.encode urandom) = some request) :
    BotStream host port request [] :=
  ⟨urandom, request, [], [], hlen, h, rfl, rfl, (List.append_nil _).symm⟩

theorem BotStream.frame {host : String} {port : Int} {stream : Bytes} {orders : List Bytes}
    (h : BotStream host port stream orders) {mask : Mask} {order frame : Bytes}
    (hframe : websocketBinaryFrame mask order = some frame) :
    BotStream host port (stream ++ frame) (orders ++ [order]) := by
  obtain ⟨urandom, request, frames, encoded, hlen, hrequest, hframes, rfl, rfl⟩ := h.begun
  obtain ⟨parts, hparts, rfl⟩ := Option.map_eq_some_iff.mp hframes
  refine ⟨urandom, request, frames ++ [(mask, order)], parts.flatten ++ frame, hlen, hrequest, ?_,
    by rw [List.map_append]; rfl, List.append_assoc _ _ _⟩
  have hlast : [(mask, order)].mapM (fun f => websocketBinaryFrame f.1 f.2) = some [frame] := by
    rw [List.mapM_cons, hframe]
    rfl
  rw [websocketBinaryFrames, List.mapM_append, hparts, hlast]
  exact congrArg some (by rw [List.flatten_append, List.flatten_singleton])

/-! ## Traces -/

def serverOuts (out : List Output) : List TCPServer.Output :=
  out.filterMap fun
    | .server o => some o
    | _ => none

/-- The orders a bot formatted. -/
def formattedBy (b : Nat) (out : List Output) : List Bytes :=
  out.filterMap fun
    | .formatted b' order => if b' = b then some order else none
    | _ => none

/-- The orders that were written, with the bot and the connection. -/
def writes (out : List Output) : List ((Nat × Nat) × Bytes) :=
  out.filterMap fun
    | .wrote b c order _ => some ((b, c), order)
    | _ => none

/-- The orders a bot wrote. -/
def wroteBy (b : Nat) (out : List Output) : List Bytes :=
  ((writes out).filter fun w => w.1.1 = b).map Prod.snd

/-- The orders written to a connection. -/
def ordersOn (c : Nat) (out : List Output) : List Bytes :=
  ((writes out).filter fun w => w.1.2 = c).map Prod.snd

/-- All that was written to a connection. -/
def streamOn (c : Nat) (out : List Output) : Bytes :=
  out.flatMap fun
    | .requested c' request => if c' = c then request else []
    | .wrote _ c' _ frame => if c' = c then frame else []
    | _ => []

section Traces
variable (b c : Nat) (out more : List Output)

@[simp] theorem serverOuts_append : serverOuts (out ++ more) = serverOuts out ++ serverOuts more :=
  List.filterMap_append

@[simp] theorem formattedBy_append :
    formattedBy b (out ++ more) = formattedBy b out ++ formattedBy b more := List.filterMap_append

@[simp] theorem writes_append : writes (out ++ more) = writes out ++ writes more :=
  List.filterMap_append

@[simp] theorem wroteBy_append : wroteBy b (out ++ more) = wroteBy b out ++ wroteBy b more := by
  simp [wroteBy]

@[simp] theorem ordersOn_append : ordersOn c (out ++ more) = ordersOn c out ++ ordersOn c more := by
  simp [ordersOn]

@[simp] theorem streamOn_append : streamOn c (out ++ more) = streamOn c out ++ streamOn c more :=
  List.flatMap_append

@[simp] theorem serverOuts_server (outs : List TCPServer.Output) :
    serverOuts (outs.map .server) = outs := by
  simp [serverOuts, List.filterMap_map]

/-- The gateway writes nothing on the side of the bots. -/
theorem outs_server (outs : List TCPServer.Output) :
    formattedBy b (outs.map .server) = [] ∧ writes (outs.map .server) = [] ∧
      streamOn c (outs.map .server) = [] := by
  simp [formattedBy, writes, streamOn, List.filterMap_map, List.flatMap_map]

/-- Nothing is written. -/
theorem outs_of_writes (h : writes more = []) : wroteBy b more = [] ∧ ordersOn c more = [] := by
  rw [wroteBy, ordersOn, h]
  exact ⟨rfl, rfl⟩

end Traces

/-! ## The invariant -/

section Inv
variable {host : String} {port : Int} {s : State} {b c : Nat} {out more : List Output}

/-- What the bots have written, and what of it has arrived. -/
structure Wired (host : String) (port : Int) (out : List Output) (s : State) : Prop where
  server : TCPServer.Inv (serverOuts out) s.server
  fresh : ∀ c, s.server.connections ≤ c → s.opener c = none
  unopened : ∀ c, s.opener c = none → streamOn c out = [] ∧ ordersOn c out = []
  writer : ∀ b c, (s.clients b).writer = some c → s.opener c = some b ∧
    ((s.clients b).control ≠ .ended → streamOn c out ≠ [])
  stream : ∀ c, streamOn c out = [] ∧ ordersOn c out = [] ∨
    BotStream host port (streamOn c out) (ordersOn c out)
  arrived : ∀ c, s.opener c ≠ none → TCPServer.arrivedOn c (serverOuts out) <+: streamOn c out ∧
    (TCPServer.Live s.server c →
      TCPServer.arrivedOn c (serverOuts out) ++ s.unsent c = streamOn c out)
  idle : ∀ c, s.opener c = none → s.unsent c = []
  written : ∀ w ∈ writes out, s.opener w.1.2 = some w.1.1

/-- What the bots have formatted. -/
structure Formats (out : List Output) (s : State) : Prop where
  wrote : ∀ b, (wroteBy b out ++ (s.clients b).control.hand).Sublist (formattedBy b out)
  size : ∀ b, ∀ order ∈ formattedBy b out, order.length = msgSize
  counts : ∀ b, (s.clients b).Counts → (formattedBy b out).length = (s.clients b).total

theorem wired_init : Wired host port [] .init where
  server := TCPServer.inv_init
  fresh _ _ := rfl
  unopened _ _ := ⟨rfl, rfl⟩
  writer _ _ h := by cases h
  stream _ := Or.inl ⟨rfl, rfl⟩
  arrived _ h := absurd rfl h
  idle _ _ := rfl
  written _ h := by cases h

theorem formats_init : Formats [] .init where
  wrote _ := List.Sublist.refl _
  size _ _ h := by cases h
  counts _ _ := rfl

namespace Wired

/-- A connection of a bot has a number. -/
theorem opened_lt (h : Wired host port out s) (hc : s.opener c ≠ none) :
    c < s.server.connections := Nat.lt_of_not_le fun hle => hc (h.fresh c hle)

/-- A step of the gateway. What arrives on a connection of a bot is what comes next. -/
theorem serverStep (h : Wired host port out s) (input : TCPServer.Input) (unsent : Nat → Bytes)
    (hunsent : ∀ c, s.opener c = none → unsent c = [])
    (harrive : ∀ c, s.opener c ≠ none →
      (∃ bytes, input = .arrive c bytes ∧ s.unsent c = bytes ++ unsent c) ∨
        (∀ bytes, input ≠ .arrive c bytes) ∧ unsent c = s.unsent c) :
    Wired host port (out ++ (Fleet.serverStep s input).2)
      { (Fleet.serverStep s input).1 with unsent := unsent } := by
  have houts : serverOuts (out ++ (Fleet.serverStep s input).2) =
      serverOuts out ++ (TCPServer.step s.server input).2 := by
    rw [serverOuts_append, Fleet.serverStep, serverOuts_server]
  have hstream : ∀ c, streamOn c (out ++ (Fleet.serverStep s input).2) = streamOn c out := fun c => by
    rw [streamOn_append, Fleet.serverStep, (outs_server 0 c _).2.2, List.append_nil]
  have hwrites : writes (Fleet.serverStep s input).2 = [] := (outs_server 0 0 _).2.1
  have horders : ∀ c, ordersOn c (out ++ (Fleet.serverStep s input).2) = ordersOn c out := fun c => by
    rw [ordersOn_append, (outs_of_writes 0 c _ hwrites).2, List.append_nil]
  constructor
  case server =>
    rw [houts]
    exact h.server.next input
  case fresh =>
    intro c hc
    refine h.fresh c (Nat.le_trans ?_ hc)
    by_cases hconnect : input = .connect
    · rw [hconnect]
      exact Nat.le_succ _
    · exact (TCPServer.step_connections s.server hconnect).ge
  case unopened =>
    intro c hc
    rw [hstream, horders]
    exact h.unopened c hc
  case writer =>
    intro b c hwriter
    rw [hstream]
    exact h.writer b c hwriter
  case stream =>
    intro c
    rw [hstream, horders]
    exact h.stream c
  case arrived =>
    intro c hc
    obtain ⟨hfront, hlive⟩ := h.arrived c hc
    have hback : TCPServer.Live (TCPServer.step s.server input).1 c → TCPServer.Live s.server c :=
      TCPServer.live_of_step (h.opened_lt hc)
    rw [houts, hstream, TCPServer.arrivedOn_append]
    rcases TCPServer.step_arrivedOn s.server input c with ⟨bytes, rfl, hin, hout⟩ | ⟨hno, hnone⟩
    · by_cases hl : TCPServer.Live s.server c
      · rcases harrive c hc with ⟨bytes', heq, hsplit⟩ | ⟨hno, -⟩
        · cases heq
          have hall := hlive hl
          rw [hsplit, ← List.append_assoc] at hall
          rw [hin hl]
          exact ⟨⟨_, hall⟩, fun _ => hall⟩
        · exact absurd rfl (hno bytes)
      · rw [hout hl, List.append_nil]
        exact ⟨hfront, fun hnew => absurd (hback hnew) hl⟩
    · rcases harrive c hc with ⟨bytes, heq, -⟩ | ⟨-, hsame⟩
      · exact absurd heq (hno bytes)
      · rw [hnone, List.append_nil]
        refine ⟨hfront, fun hnew => ?_⟩
        change _ ++ unsent c = _
        rw [hsame]
        exact hlive (hback hnew)
  case idle => exact hunsent
  case written =>
    rw [writes_append, hwrites, List.append_nil]
    exact h.written

/-- Nothing is written, and no connection is opened. -/
theorem congr (h : Wired host port out s) {s' : State} (hserver : s'.server = s.server)
    (hopener : s'.opener = s.opener) (hunsent : s'.unsent = s.unsent)
    (hwriter : ∀ b, (s'.clients b).writer = (s.clients b).writer)
    (halive : ∀ b, (s'.clients b).control ≠ .ended → (s.clients b).control ≠ .ended)
    (houts : serverOuts more = []) (hstream : ∀ c, streamOn c more = [])
    (hwrites : writes more = []) : Wired host port (out ++ more) s' := by
  have hstream' : ∀ c, streamOn c (out ++ more) = streamOn c out := fun c => by
    rw [streamOn_append, hstream, List.append_nil]
  have horders' : ∀ c, ordersOn c (out ++ more) = ordersOn c out := fun c => by
    rw [ordersOn_append, (outs_of_writes 0 c more hwrites).2, List.append_nil]
  have houts' : serverOuts (out ++ more) = serverOuts out := by
    rw [serverOuts_append, houts, List.append_nil]
  refine ⟨?_, ?_, ?_, ?_, ?_, ?_, ?_, ?_⟩
  · rw [houts', hserver]
    exact h.server
  · rw [hserver, hopener]
    exact h.fresh
  · intro c hc
    rw [hstream', horders']
    exact h.unopened c (hopener ▸ hc)
  · intro b c hw
    rw [hstream', hopener]
    obtain ⟨hopen, hbegun⟩ := h.writer b c (hwriter b ▸ hw)
    exact ⟨hopen, fun hne => hbegun (halive b hne)⟩
  · intro c
    rw [hstream', horders']
    exact h.stream c
  · intro c hc
    rw [hstream', houts', hserver, hunsent]
    exact h.arrived c (hopener ▸ hc)
  · rw [hopener, hunsent]
    exact h.idle
  · rw [writes_append, hwrites, List.append_nil, hopener]
    exact h.written

/-- A connection is opened by a bot, and nothing is written to it yet. -/
theorem connected (h : Wired host port out s) (b : Nat) :
    Wired host port out { s with
      server := (TCPServer.step s.server .connect).1
      opener := Function.update s.opener s.server.connections (some b) } := by
  have hnew : s.opener s.server.connections = none := h.fresh _ (Nat.le_refl _)
  have hold : ∀ {c b'}, s.opener c = some b' →
      Function.update s.opener s.server.connections (some b) c = some b' := by
    intro c b' hc
    have hne : c ≠ s.server.connections := by
      rintro rfl
      rw [hnew] at hc
      cases hc
    rwa [Function.update_of_ne hne]
  have hnone : ∀ {c}, Function.update s.opener s.server.connections (some b) c = none →
      s.opener c = none := by
    intro c hc
    by_cases hne : c = s.server.connections
    · rw [hne, Function.update_self] at hc
      cases hc
    · rwa [Function.update_of_ne hne] at hc
  constructor
  case server =>
    have hnext := h.server.next .connect
    change TCPServer.Inv (serverOuts out ++ []) _ at hnext
    rwa [List.append_nil] at hnext
  case fresh =>
    intro c hc
    change s.server.connections + 1 ≤ c at hc
    exact (Function.update_of_ne (by omega) _ _).trans (h.fresh c (by omega))
  case unopened => exact fun c hc => h.unopened c (hnone hc)
  case writer => exact fun b' c hw => ⟨hold (h.writer b' c hw).1, (h.writer b' c hw).2⟩
  case stream => exact h.stream
  case arrived =>
    intro c hc
    by_cases hne : c = s.server.connections
    · subst hne
      rw [(h.server.streams.unknown _ (Nat.le_refl _)).2, (h.unopened _ hnew).1]
      exact ⟨List.prefix_refl _, fun _ => h.idle _ hnew⟩
    · change Function.update s.opener s.server.connections (some b) c ≠ none at hc
      rw [Function.update_of_ne hne] at hc
      obtain ⟨hfront, hlive⟩ := h.arrived c hc
      exact ⟨hfront, fun hl => hlive (TCPServer.live_of_step (i := .connect) (h.opened_lt hc) hl)⟩
  case idle => exact fun c hc => h.idle c (hnone hc)
  case written => exact fun w hw => hold (h.written w hw)

/-- A bot writes to a connection that it opened: `data`, which carries `orders`. -/
theorem append (h : Wired host port out s) {k : Nat} {data : Bytes} (orders : List Bytes)
    (c' : Client) (hopen : s.opener k = some b)
    (hwriter : ∀ c, c'.writer = some c → s.opener c = some b ∧
      (c'.control ≠ .ended → streamOn c (out ++ more) ≠ []))
    (hbot : streamOn k out ++ data = [] ∧ ordersOn k out ++ orders = [] ∨
      BotStream host port (streamOn k out ++ data) (ordersOn k out ++ orders))
    (houts : serverOuts more = [])
    (hstream : ∀ c, streamOn c more = if k = c then data else [])
    (hwrites : writes more = orders.map ((b, k), ·)) :
    Wired host port (out ++ more) ((s.setClient b c').write k data) := by
  have horders : ∀ c, ordersOn c more = if k = c then orders else [] := fun c => by
    by_cases hc : k = c <;> simp [ordersOn, hwrites, hc, List.filter_map, Function.comp_def]
  have hother : ∀ c, k ≠ c → streamOn c (out ++ more) = streamOn c out ∧
      ordersOn c (out ++ more) = ordersOn c out := fun c hne => by
    rw [streamOn_append, ordersOn_append, hstream, horders, if_neg hne, if_neg hne,
      List.append_nil, List.append_nil]
    exact ⟨rfl, rfl⟩
  have hown : streamOn k (out ++ more) = streamOn k out ++ data ∧
      ordersOn k (out ++ more) = ordersOn k out ++ orders := by
    rw [streamOn_append, ordersOn_append, hstream, horders, if_pos rfl, if_pos rfl]
    exact ⟨rfl, rfl⟩
  have houts' : serverOuts (out ++ more) = serverOuts out := by
    rw [serverOuts_append, houts, List.append_nil]
  have hne : ∀ {c}, s.opener c = none → k ≠ c := by
    rintro c hc rfl
    rw [hopen] at hc
    cases hc
  constructor
  case server =>
    rw [houts']
    exact h.server
  case fresh => exact h.fresh
  case unopened =>
    intro c hc
    rw [(hother c (hne hc)).1, (hother c (hne hc)).2]
    exact h.unopened c hc
  case writer =>
    intro b' c hw
    change (Function.update s.clients b c' b').writer = some c at hw
    change _ ∧ ((Function.update s.clients b c' b').control ≠ .ended → _)
    by_cases hb : b' = b
    · subst hb
      rw [Function.update_self] at hw ⊢
      exact hwriter c hw
    · rw [Function.update_of_ne hb] at hw ⊢
      obtain ⟨ho, hbegun⟩ := h.writer b' c hw
      refine ⟨ho, fun ha => ?_⟩
      rw [streamOn_append]
      exact List.append_ne_nil_of_left_ne_nil (hbegun ha) _
  case stream =>
    intro c
    by_cases hc : k = c
    · subst hc
      rw [hown.1, hown.2]
      exact hbot
    · rw [(hother c hc).1, (hother c hc).2]
      exact h.stream c
  case arrived =>
    intro c hc
    obtain ⟨hfront, hlive⟩ := h.arrived c hc
    rw [houts']
    change _ ∧ (_ → _ ++ Function.update s.unsent k _ c = _)
    by_cases hc : k = c
    · subst hc
      rw [hown.1, Function.update_self]
      refine ⟨hfront.trans (List.prefix_append _ _), fun hl => ?_⟩
      have hall : TCPServer.arrivedOn k (serverOuts out) ++ s.unsent k = streamOn k out := hlive hl
      rw [← hall, List.append_assoc]
      rfl
    · rw [(hother c hc).1, Function.update_of_ne (Ne.symm hc)]
      exact ⟨hfront, hlive⟩
  case idle =>
    intro c hc
    exact (Function.update_of_ne (hne hc).symm _ _).trans (h.idle c hc)
  case written =>
    intro w hw
    rw [writes_append, hwrites, List.mem_append] at hw
    rcases hw with hw | hw
    · exact h.written w hw
    · obtain ⟨order, -, rfl⟩ := List.mem_map.mp hw
      exact hopen

/-- A frame is written to a connection that has its request. -/
theorem write (h : Wired host port out s) {c' : Client} {connection : Nat} {order frame : Bytes}
    {mask : Mask} (hwriter : (s.clients b).writer = some connection)
    (halive : (s.clients b).control ≠ .ended) (hsame : c'.writer = (s.clients b).writer)
    (hframe : websocketBinaryFrame mask order = some frame) (houts : serverOuts more = [])
    (hstream : ∀ c, streamOn c more = if connection = c then frame else [])
    (hwrites : writes more = [((b, connection), order)]) :
    Wired host port (out ++ more) ((s.setClient b c').write connection frame) := by
  obtain ⟨hopen, hbegun⟩ := h.writer b connection hwriter
  refine h.append [order] c' hopen (fun c hw => ?_) (Or.inr ?_) houts hstream hwrites
  · obtain ⟨ho, hne⟩ := h.writer b c (hsame ▸ hw)
    refine ⟨ho, fun _ => ?_⟩
    rw [streamOn_append]
    exact List.append_ne_nil_of_left_ne_nil (hne halive) _
  · rcases h.stream connection with ⟨hnil, -⟩ | hbot
    · exact absurd hnil (hbegun halive)
    · exact hbot.frame hframe

/-- A connection is opened, and `data` is written to it. -/
theorem opening (h : Wired host port out s) (b : Nat) (c' : Client) (data : Bytes)
    (more : List Output)
    (hwriter : c'.writer = some s.server.connections)
    (hdata : c'.control ≠ .ended → data ≠ []) (houts : serverOuts more = [])
    (hstream : ∀ c, streamOn c more = if s.server.connections = c then data else [])
    (hwrites : writes more = [])
    (hbegun : data = [] ∨ BotStream host port data []) :
    Wired host port (out ++ more)
      (({ s with
          server := (TCPServer.step s.server .connect).1
          opener := Function.update s.opener s.server.connections (some b) }.setClient b c').write
        s.server.connections data) := by
  obtain ⟨hnewStream, hnewOrders⟩ := h.unopened _ (h.fresh _ (Nat.le_refl _))
  refine (h.connected b).append [] c' (Function.update_self _ _ _) (fun c hw => ?_) ?_ houts
    hstream hwrites
  · rw [hwriter] at hw
    cases hw
    refine ⟨Function.update_self _ _ _, fun hne => ?_⟩
    rw [streamOn_append, hnewStream, hstream, if_pos rfl]
    exact hdata hne
  · rw [hnewStream, hnewOrders]
    exact hbegun.imp (fun hnil => ⟨hnil, rfl⟩) fun hbot => hbot

theorem opens (h : Wired host port out s) {order : Option Bytes} {backoff : Rat} {urandom : Bytes}
    (hlen : urandom.length = 16) :
    Wired host port (out ++ (s.opened host port b (s.clients b) order backoff urandom).2)
      (s.opened host port b (s.clients b) order backoff urandom).1 := by
  unfold State.opened
  dsimp only
  split
  · rename_i request hrequest
    have hbot : BotStream host port request [] := .request hlen hrequest
    refine h.opening b _ _ _ rfl (fun _ hnil => ?_) rfl (fun c => by simp [streamOn]) rfl
      (Or.inr hbot)
    rw [hnil] at hrequest
    unfold connectRequest at hrequest
    split at hrequest
    · have hlength := congrArg (Option.map List.length) hrequest
      simp [ascii] at hlength
    · cases hrequest
  · -- no request: the task ends
    have hopening := h.opening b { s.clients b with
        writer := some s.server.connections, control := .ended } [] [] rfl
      (fun hne => absurd rfl hne) rfl (fun c => by simp [streamOn]) rfl (Or.inl rfl)
    have hsame : Function.update s.unsent s.server.connections (s.unsent s.server.connections ++ []) =
        s.unsent := by rw [List.append_nil, Function.update_eq_self]
    unfold State.write at hopening
    dsimp only [State.setClient] at hopening ⊢
    rwa [hsame] at hopening

/-- **Every step of a bot keeps to its streams.** -/
theorem moves (h : Wired host port out s) {result : State × List Output}
    (hmoves : Moves host port s b result) : Wired host port (out ++ result.2) result.1 := by
  have hset : ∀ (c' : Client) (closes : Option Nat), ((s.setClient b c').close closes).server =
      s.server ∧ ((s.setClient b c').close closes).opener = s.opener ∧
      ((s.setClient b c').close closes).unsent = s.unsent ∧
      ((s.setClient b c').close closes).clients = Function.update s.clients b c' := by
    intro c' closes
    cases closes <;> exact ⟨rfl, rfl, rfl, rfl⟩
  have hkeeps : ∀ {n : Nat} {c' : Client} {closes : Option Nat}, Keeps n (s.clients b) c' → ∀ b',
      (((s.setClient b c').close closes).clients b').writer = (s.clients b').writer ∧
      ((((s.setClient b c').close closes).clients b').control ≠ .ended →
        (s.clients b').control ≠ .ended) := by
    intro n c' closes hk b'
    rw [(hset c' closes).2.2.2]
    by_cases hb : b' = b
    · subst hb
      rw [Function.update_self]
      exact ⟨hk.writer, hk.alive⟩
    · rw [Function.update_of_ne hb]
      exact ⟨rfl, fun hne => hne⟩
  cases hmoves with
  | stays =>
    rw [List.append_nil]
    exact h
  | quiet c' closes hk _ =>
    obtain ⟨h₁, h₂, h₃, -⟩ := hset c' closes
    exact h.congr h₁ h₂ h₃ (fun b' => (hkeeps hk b').1) (fun b' => (hkeeps hk b').2) rfl
      (fun _ => rfl) rfl
  | formats c' closes order hk _ _ _ =>
    obtain ⟨h₁, h₂, h₃, -⟩ := hset c' closes
    exact h.congr h₁ h₂ h₃ (fun b' => (hkeeps hk b').1) (fun b' => (hkeeps hk b').2) rfl
      (fun _ => rfl) rfl
  | writes c' connection order frame mask hk _ _ halive hwriter hframe =>
    exact h.write hwriter halive hk.writer hframe rfl (fun c => by simp [streamOn])
      rfl
  | sends c' connection order frame mask hk _ _ halive hwriter hframe _ =>
    exact h.write hwriter halive hk.writer hframe rfl (fun c => by simp [streamOn])
      rfl
  | opens order backoff urandom _ hlen => exact h.opens hlen

end Wired

namespace Formats

/-- A step of one bot that formats the orders `new` and writes the orders `now`. -/
theorem client (h : Formats out s) {s' : State} (c' : Client) (new now : List Bytes)
    (hclients : s'.clients = Function.update s.clients b c')
    (hnew : ∀ b', formattedBy b' more = if b = b' then new else [])
    (hnow : ∀ b', wroteBy b' more = if b = b' then now else [])
    (hhand : (now ++ c'.control.hand).Sublist ((s.clients b).control.hand ++ new))
    (hsize : ∀ order ∈ new, order.length = msgSize)
    (hcounts : c'.Counts → (s.clients b).Counts ∧ c'.total = (s.clients b).total + new.length) :
    Formats (out ++ more) s' where
  wrote b' := by
    rw [hclients, wroteBy_append, formattedBy_append, hnew, hnow]
    by_cases hb : b = b'
    · subst hb
      rw [Function.update_self, if_pos rfl, if_pos rfl, List.append_assoc]
      have hgrows := (h.wrote b).append_right new
      rw [List.append_assoc] at hgrows
      exact (hhand.append_left (wroteBy b out)).trans hgrows
    · rw [Function.update_of_ne (Ne.symm hb), if_neg hb, if_neg hb, List.append_nil, List.append_nil]
      exact h.wrote b'
  size b' order hmem := by
    rw [formattedBy_append, hnew, List.mem_append] at hmem
    rcases hmem with hold | hmem
    · exact h.size b' order hold
    · split at hmem
      · exact hsize order hmem
      · cases hmem
  counts b' hc := by
    rw [hclients] at hc ⊢
    rw [formattedBy_append, hnew, List.length_append]
    by_cases hb : b = b'
    · subst hb
      rw [Function.update_self] at hc ⊢
      obtain ⟨hold, htotal⟩ := hcounts hc
      rw [if_pos rfl, h.counts b hold, htotal]
    · rw [Function.update_of_ne (Ne.symm hb)] at hc ⊢
      rw [if_neg hb, h.counts b' hc]
      rfl

/-- **Every step of a bot keeps its orders in line.** -/
theorem moves (h : Formats out s) {result : State × List Output}
    (hmoves : Moves host port s b result) : Formats (out ++ result.2) result.1 := by
  cases hmoves with
  | stays =>
    rw [List.append_nil]
    exact h
  | quiet c' closes hk hhand =>
    refine h.client c' [] [] ?_ (by simp [formattedBy])
      (by simp [wroteBy, writes]) (by simpa using hhand) nofun hk.counts
    cases closes <;> rfl
  | formats c' closes order hk hnone hhand hlen =>
    refine h.client c' [order] [] ?_
      (fun b' => by by_cases hb : b = b' <;> simp [formattedBy, hb])
      (fun b' => by simp [wroteBy, writes]) (by rw [hnone]; exact hhand) (by simpa using hlen)
      hk.counts
    cases closes <;> rfl
  | writes c' connection order frame mask hk hhand hhand' halive hwriter hframe =>
    exact h.client c' [] [order] rfl (by simp [formattedBy])
      (fun b' => by by_cases hb : b = b' <;> simp [wroteBy, Fleet.writes, hb])
      (by rw [hhand, hhand']) nofun hk.counts
  | sends c' connection order frame mask hk hhand hhand' halive hwriter hframe hlen =>
    exact h.client c' [order] [order] rfl
      (fun b' => by by_cases hb : b = b' <;> simp [formattedBy, hb])
      (fun b' => by by_cases hb : b = b' <;> simp [wroteBy, writes, hb])
      (by rw [hhand, hhand']; exact List.Sublist.refl _) (by simpa using hlen) hk.counts
  | opens order backoff urandom hc hlen =>
    unfold State.opened
    dsimp only
    split
    · refine h.client _ [] [] rfl (by simp [formattedBy]) (by simp [wroteBy, writes])
        (by rw [hc, List.append_nil]; exact List.Sublist.refl _) nofun
        (counts_of_alive (by rw [hc]; nofun) nofun rfl fun _ => ?_)
      rw [Client.total, Client.total, hc]
      rfl
    · exact h.client _ [] [] rfl (by simp [formattedBy]) (by simp [wroteBy, writes])
        (List.nil_sublist _) nofun fun hcounts => absurd hcounts (not_counts_of_ended rfl)

theorem serverStep (h : Formats out s) (input : TCPServer.Input) (unsent : Nat → Bytes) :
    Formats (out ++ (Fleet.serverStep s input).2)
      { (Fleet.serverStep s input).1 with unsent := unsent } := by
  have hformatted : ∀ b, formattedBy b (out ++ (Fleet.serverStep s input).2) = formattedBy b out :=
    fun b => by rw [formattedBy_append, Fleet.serverStep, (outs_server b 0 _).1, List.append_nil]
  have hwrites : writes (Fleet.serverStep s input).2 = [] := (outs_server 0 0 _).2.1
  refine ⟨fun b => ?_, fun b => ?_, fun b => ?_⟩
  · rw [wroteBy_append, (outs_of_writes b 0 _ hwrites).1, List.append_nil, hformatted]
    exact h.wrote b
  · rw [hformatted]
    exact h.size b
  · rw [hformatted]
    exact h.counts b

end Formats

/-- **Every step keeps the invariant.** -/
theorem inv_next (h : Wired host port out s ∧ Formats out s) (i : Input) :
    Wired host port (out ++ (step host port s i).2) (step host port s i).1 ∧
      Formats (out ++ (step host port s i).2) (step host port s i).1 := by
  obtain ⟨hwired, hformats⟩ := h
  have hquiet : Wired host port (out ++ []) s ∧ Formats (out ++ []) s := by
    rw [List.append_nil]
    exact ⟨hwired, hformats⟩
  -- a step of the gateway that is no arrival on a connection of the bots
  have hserver : ∀ input, (∀ c bytes, s.opener c ≠ none → input ≠ .arrive c bytes) →
      Wired host port (out ++ (serverStep s input).2) (serverStep s input).1 ∧
        Formats (out ++ (serverStep s input).2) (serverStep s input).1 := fun input hno =>
    ⟨hwired.serverStep input s.unsent hwired.idle
      fun c hc => Or.inr ⟨fun bytes => hno c bytes hc, rfl⟩, hformats.serverStep input s.unsent⟩
  cases i with
  | client b event =>
    have hmoves := clientStep_moves host port s b event
    exact ⟨hwired.moves hmoves, hformats.moves hmoves⟩
  | arrive connection count =>
    refine ⟨hwired.serverStep _ _ (fun c hc => ?_) fun c hc => ?_, hformats.serverStep _ _⟩
    · by_cases hne : c = connection
      · subst hne
        rw [Function.update_self, hwired.idle c hc, List.drop_nil]
      · rw [Function.update_of_ne hne]
        exact hwired.idle c hc
    · by_cases hne : c = connection
      · subst hne
        rw [Function.update_self]
        exact Or.inl ⟨_, rfl, (List.take_append_drop count _).symm⟩
      · rw [Function.update_of_ne hne]
        exact Or.inr ⟨fun bytes heq => hne (by cases heq; rfl), rfl⟩
  | connect => exact hserver .connect nofun
  | arriveOther connection bytes =>
    simp only [step]
    split
    · rename_i hnone
      exact hserver _ fun c bytes' hc heq => hc (by cases heq; exact hnone)
    · exact hquiet
  | server input =>
    simp only [step]
    split
    · exact hquiet
    · exact hquiet
    · rename_i hno
      exact hserver _ fun c bytes _ => hno c bytes

variable (host port) in
theorem inv_run (inputs : List Input) :
    Wired host port (outputs (step host port) .init inputs) (run (step host port) .init inputs).1 ∧
      Formats (outputs (step host port) .init inputs) (run (step host port) .init inputs).1 :=
  invariant_run (fun _ out s => Wired host port out s ∧ Formats out s)
    (fun _ _ _ i h _ => inv_next h i) ⟨wired_init, formats_init⟩ (guarded_true _ _ _ inputs)

end Inv

/-! ## Runs -/

/-- The orders the gateway made of what it read from a connection. -/
def received (c : Nat) (out : List Output) : List OrderMessage :=
  Ingress.messages (TCPServer.actionsOn c (serverOuts out))

/-- The connections that a bot opened. -/
def connectionsOf (b : Nat) (s : State) : List Nat :=
  (List.range s.server.connections).filter fun c => s.opener c = some b

section Runs
variable {host : String} {port : Int} {s : State} {out : List Output}

/-- What a bot wrote is what is on its connections. -/
theorem Wired.wrote_perm (h : Wired host port out s) (b : Nat) :
    ((connectionsOf b s).flatMap (ordersOn · out)).Perm (wroteBy b out) := by
  have hparts := parts_perm (fun w : (Nat × Nat) × Bytes => w.1.2) Prod.snd
    (connectionsOf b s) (List.nodup_range.filter _)
    (l := (writes out).filter fun w => w.1.1 = b) fun w hw => by
      obtain ⟨hmem, hb⟩ := List.mem_filter.mp hw
      have hopen := h.written w hmem
      rw [of_decide_eq_true hb] at hopen
      exact List.mem_filter.mpr
        ⟨List.mem_range.mpr (h.opened_lt (by rw [hopen]; nofun)), decide_eq_true hopen⟩
  refine List.Perm.trans (List.Perm.of_eq (List.flatMap_congr fun c hc => ?_)) hparts
  have hopen : s.opener c = some b := of_decide_eq_true (List.mem_filter.mp hc).2
  rw [ordersOn, List.filter_filter]
  congr 1
  refine List.filter_congr fun w hw => ?_
  by_cases hwc : w.1.2 = c
  · have hwb := h.written w hw
    rw [hwc, hopen] at hwb
    simp [hwc, (Option.some.inj hwb).symm]
  · simp [hwc]

/-- The gateway makes of a connection the first ones of its orders. -/
theorem Wired.received_prefix (h : Wired host port out s) (hhost : HostOk host) {b c : Nat}
    (hopen : s.opener c = some b) (hsize : ∀ order ∈ ordersOn c out, order.length = msgSize) :
    received c out <+: (ordersOn c out).map .decode := by
  obtain ⟨hread, hactions⟩ := h.server.isolated c
  have hstream := hread.trans (h.arrived c (by rw [hopen]; nofun)).1
  rw [received, hactions]
  rcases h.stream c with ⟨hnil, horders⟩ | hbot
  · rw [hnil] at hstream
    rw [List.prefix_nil.mp hstream, horders]
    exact List.prefix_refl _
  · rw [← hbot.messages hhost hsize]
    exact messages_prefix hstream

theorem Wired.received_all (h : Wired host port out s) (hhost : HostOk host) {b c : Nat}
    (hopen : s.opener c = some b) (hsize : ∀ order ∈ ordersOn c out, order.length = msgSize)
    (hidle : s.server.Idle) (hsent : s.unsent c = []) (hlive : TCPServer.Live s.server c) :
    received c out = (ordersOn c out).map .decode := by
  have hall := (h.arrived c (by rw [hopen]; nofun)).2 hlive
  rw [hsent, List.append_nil] at hall
  rw [received, h.server.complete hidle c, hall]
  rcases h.stream c with ⟨hnil, horders⟩ | hbot
  · rw [hnil, horders]
    rfl
  · exact hbot.messages hhost hsize

end Runs

/-- **What arrives of a fleet.** For any number of bots, every order of their tasks, every
reconnection and every cut of the streams on the way: a bot writes each order it formats
at most once, in their order; the gateway makes of a connection the orders written to it,
in their order and from the first one on, and all of them where nothing is on the way,
nothing is left to report and the connection has not ended; and of all connections of a
bot together it makes no order more often than the bot has formatted it. -/
theorem fleet_received (host : String) (port : Int) (hhost : HostOk host) (inputs : List Input)
    (b : Nat) :
    let out := outputs (step host port) .init inputs
    let s := (run (step host port) .init inputs).1
    (wroteBy b out).Sublist (formattedBy b out) ∧
    (∀ c, s.opener c = some b →
      received c out <+: (ordersOn c out).map .decode ∧
      (s.server.Idle → s.unsent c = [] → TCPServer.Live s.server c →
        received c out = (ordersOn c out).map .decode)) ∧
    ((connectionsOf b s).flatMap (ordersOn · out)).Perm (wroteBy b out) ∧
    ((connectionsOf b s).flatMap (received · out)).Subperm ((formattedBy b out).map .decode) := by
  intro out s
  obtain ⟨hwired, hformats⟩ : Wired host port out s ∧ Formats out s :=
    inv_run host port inputs
  have hwrote : (wroteBy b out).Sublist (formattedBy b out) :=
    (List.sublist_append_left _ _).trans (hformats.wrote b)
  have hperm := hwired.wrote_perm b
  have hsize : ∀ c, s.opener c = some b → ∀ order ∈ ordersOn c out, order.length = msgSize := by
    intro c hopen order hmem
    have hc : c ∈ connectionsOf b s := List.mem_filter.mpr
      ⟨List.mem_range.mpr (hwired.opened_lt (by rw [hopen]; nofun)), decide_eq_true hopen⟩
    exact hformats.size b order (hwrote.subset (hperm.subset (List.mem_flatMap.mpr ⟨c, hc, hmem⟩)))
  refine ⟨hwrote, fun c hopen => ⟨hwired.received_prefix hhost hopen (hsize c hopen),
    fun hidle hsent hlive => hwired.received_all hhost hopen (hsize c hopen) hidle hsent hlive⟩,
    hperm, ?_⟩
  have hparts : ((connectionsOf b s).flatMap (received · out)).Sublist
      ((connectionsOf b s).flatMap fun c => (ordersOn c out).map .decode) :=
    List.Sublist.flatMap_right _ fun c hc => by
      have hopen : s.opener c = some b := of_decide_eq_true (List.mem_filter.mp hc).2
      exact (hwired.received_prefix hhost hopen (hsize c hopen)).sublist
  have hmap : ((connectionsOf b s).flatMap fun c => (ordersOn c out).map .decode) =
      ((connectionsOf b s).flatMap (ordersOn · out)).map OrderMessage.decode :=
    (List.map_flatMap ..).symm
  rw [hmap] at hparts
  exact hparts.subperm.trans (((hperm.map _).subperm).trans (hwrote.map _).subperm)

/-- A response that passes the test of `connect`, in `run`. -/
theorem accepted_response (host : String) (port : Int) {s : State} {b : Nat} (backoff : Rat)
    {key response : Bytes} (hc : (s.clients b).control = .readResponse none backoff key)
    (h : acceptsResponse key response = true) (mask : Mask) (kept : Bool) :
    step host port s (.client b (.response response mask kept)) =
      (s.setClient b { s.clients b with
        readLoops := (s.clients b).readLoops + 1, control := .botLogic }, []) := by
  simp only [step, clientStep, hc, h, if_true]

/-- A bot up to the response of the gateway. -/
def helloRun : List Input :=
  [.client 0 .run, .client 0 .slept, .client 0 (.opened fun _ => 7), .client 0 .drained]

/-- It sends an order, which arrives. -/
def orderRun : List Input :=
  [.client 0 (.sendOrder 5 "B" 3 ⟨0x4024000000000000⟩ fun _ => 7), .client 0 .drained,
    .arrive 0 1000, .server (.epollWait [.listener]), .server .next, .server (.accept (some 5)),
    .server (.accept none), .server .next, .server (.epollWait [.client 5]), .server .next,
    .server (.read 8192), .server (.read 8192), .server .next]

/-- The state behind the response. -/
def greeted : State :=
  let s := (run (step "127.0.0.1" 8080) .init helloRun).1
  s.setClient 0 { s.clients 0 with readLoops := (s.clients 0).readLoops + 1, control := .botLogic }

/-- All of it, with what the bot reads. -/
def meetingRun (response : Bytes) : List Input :=
  helloRun ++ .client 0 (.response response (fun _ => 0) true) :: orderRun

theorem run_greeted : ∃ response : Bytes,
    (run (step "127.0.0.1" 8080) .init (meetingRun response)).1 =
        (run (step "127.0.0.1" 8080) greeted orderRun).1 ∧
      outputs (step "127.0.0.1" 8080) .init (meetingRun response) =
        outputs (step "127.0.0.1" 8080) .init helloRun ++
          outputs (step "127.0.0.1" 8080) greeted orderRun := by
  obtain ⟨response, -, haccepts⟩ :=
    acceptsResponse_handshake (Base64.encode (List.ofFn fun _ : Fin 16 => (7 : UInt8)))
  have hstep := accepted_response "127.0.0.1" 8080 1
    (s := (run (step "127.0.0.1" 8080) .init helloRun).1) (b := 0) rfl haccepts (fun _ => 0) true
  refine ⟨response, ?_, ?_⟩
  · rw [meetingRun, run_append]
    simp only [run, hstep]
    rfl
  · rw [meetingRun, outputs_append, outputs_cons, hstep]
    rfl

theorem orderRun_received : ∃ inputs : List Input,
    let out := outputs (step "127.0.0.1" 8080) .init inputs
    (received 0 out).length = 1 ∧ received 0 out = (ordersOn 0 out).map .decode := by
  obtain ⟨response, hstate, hout⟩ := run_greeted
  have h := fleet_received "127.0.0.1" 8080 (by decide) (meetingRun response) 0
  dsimp only at h
  rw [hstate, hout] at h
  refine ⟨meetingRun response, ?_, ?_⟩
  · rw [hout]
    decide +kernel
  · rw [hout]
    exact (h.2.1 0 (by decide +kernel)).2 (by decide +kernel) (by decide +kernel) (by decide +kernel)

/-- **The account of a bot.** While a bot runs, every order it has formatted was sent, has
failed, or is the one it is about to send. -/
theorem fleet_accounted (host : String) (port : Int) (inputs : List Input) (b : Nat)
    (hcounts : ((run (step host port) .init inputs).1.clients b).running = true)
    (halive : ((run (step host port) .init inputs).1.clients b).control ≠ .ended) :
    let out := outputs (step host port) .init inputs
    let c := (run (step host port) .init inputs).1.clients b
    (formattedBy b out).length = c.ordersSent + c.failedMessages + c.control.busy :=
  (inv_run host port inputs).2.counts b (Or.inr ⟨hcounts, halive⟩)

theorem orderRun_accounted : ∃ inputs : List Input,
    let out := outputs (step "127.0.0.1" 8080) .init inputs
    let c := (run (step "127.0.0.1" 8080) .init inputs).1.clients 0
    c.ordersSent = 1 ∧
      (formattedBy 0 out).length = c.ordersSent + c.failedMessages + c.control.busy := by
  obtain ⟨response, hstate, -⟩ := run_greeted
  refine ⟨meetingRun response, ?_, fleet_accounted "127.0.0.1" 8080 _ 0 ?_ ?_⟩
  · rw [hstate]
    decide +kernel
  · rw [hstate]
    decide +kernel
  · rw [hstate]
    decide +kernel

end TradePlat.Fleet
