import TradePlat.Gateway.ServerTrace

/-!
# What the server loop does for its connections

All connections share `client_buffers_`, their descriptors are used again, and an edge
is reported once. Proved here, for any number of connections and every order of steps:

* `connection_isolated`: what the gateway does for a connection is what it would do
  with the bytes of that connection alone, read in one piece;
* `idle_complete`: where `epoll_wait` has nothing to report, everything that arrived
  on any connection was read and handled.

The invariant has three parts: who owns a descriptor (`Table`), what was read of whom
(`Streams`), and that a socket which can be read has an edge or an event still to be
handled (`Edges`).
-/

namespace TradePlat.TCPServer
open Runs Gateway

/-! ## The invariant -/

/-- The events that are still to be handled, that of the socket under way first. -/
def Control.events : Control → List Event
  | .wait => []
  | .next events | .accept _ events => events
  | .read fd events => .client fd :: events

/-- Descriptors, buffers and connections: every connection waits for `accept`, is open
under one descriptor with a buffer of its own, or is closed. -/
structure Table (s : State) : Prop where
  known : ∀ fd c, s.client fd = some c → c < s.connections ∧ c ∉ s.backlog ∧ s.sockets c ≠ none
  injective : ∀ fd fd' c, s.client fd = some c → s.client fd' = some c → fd = fd'
  nodup : s.backlog.Nodup
  waiting : ∀ c ∈ s.backlog, c < s.connections ∧ s.sockets c ≠ none
  connected : ∀ c, s.sockets c ≠ none → c ∈ s.backlog ∨ ∃ fd, s.client fd = some c
  buffers : ∀ fd, (s.clientBuffers fd).isSome = (s.client fd).isSome

/-- What was read of each connection, and what was done for it. -/
structure Streams (out : List Output) (s : State) : Prop where
  unread : ∀ c socket, s.sockets c = some socket →
    (readOn c out).flatten ++ socket.unread = arrivedOn c out
  closed : ∀ c, s.sockets c = none → (readOn c out).flatten <+: arrivedOn c out ∧
    (bufferOf (readOn c out) = none ∨ (readOn c out).flatten = arrivedOn c out)
  waiting : ∀ c, c ∈ s.backlog ∨ s.connections ≤ c → readOn c out = []
  unknown : ∀ c, s.connections ≤ c → s.sockets c = none ∧ arrivedOn c out = []
  buffer : ∀ fd c, s.client fd = some c → s.clientBuffers fd = bufferOf (readOn c out)
  actions : ∀ c, actionsOn c out = actionsOf (readOn c out)

/-- A socket that can be read has an edge, or its event is still to be handled. -/
structure Edges (s : State) : Prop where
  readable : ∀ fd c socket, s.client fd = some c → s.sockets c = some socket →
    socket.Readable → socket.edge = true ∨ .client fd ∈ s.control.events
  registered : ∀ fd, .client fd ∈ s.control.events → s.client fd ≠ none
  nodup : s.control.events.Nodup

structure Inv (out : List Output) (s : State) : Prop where
  table : Table s
  streams : Streams out s
  edges : Edges s

theorem inv_init : Inv [] .init where
  table := by constructor <;> simp [State.init]
  streams := by
    constructor
    case closed => exact fun c _ => ⟨List.prefix_refl _, Or.inr rfl⟩
    all_goals simp [State.init, readOn, arrivedOn, actionsOn, actionsOf]
  edges := by constructor <;> simp [State.init, Control.events]

variable {out : List Output} {s s' : State}

/-- The table does not depend on what the sockets and the buffers hold. -/
theorem Table.congr (h : Table s) (hconnections : s'.connections = s.connections)
    (hbacklog : s'.backlog = s.backlog) (hclient : s'.client = s.client)
    (hsockets : ∀ c, s'.sockets c ≠ none ↔ s.sockets c ≠ none)
    (hbuffers : ∀ fd, (s'.clientBuffers fd).isSome = (s.clientBuffers fd).isSome) : Table s' where
  known fd c hc := by
    rw [hclient] at hc
    rw [hconnections, hbacklog, hsockets]
    exact h.known fd c hc
  injective := by
    rw [hclient]
    exact h.injective
  nodup := by
    rw [hbacklog]
    exact h.nodup
  waiting c hc := by
    rw [hbacklog] at hc
    rw [hconnections, hsockets]
    exact h.waiting c hc
  connected c hc := by
    rw [hsockets] at hc
    rw [hbacklog, hclient]
    exact h.connected c hc
  buffers fd := by
    rw [hbuffers, hclient]
    exact h.buffers fd

theorem update_ne_none {α : Type} {f : Nat → Option α} {c : Nat} (h : f c ≠ none) (a : α) (c' : Nat) :
    Function.update f c (some a) c' ≠ none ↔ f c' ≠ none := by
  by_cases hc : c' = c
  · subst hc
    simp [h]
  · rw [Function.update_of_ne hc]

/-! ### The network -/

theorem Table.notify (h : Table s) {c : Nat} (hc : s.sockets c ≠ none) (socket : Socket) :
    Table (s.notify c socket) :=
  h.congr rfl rfl rfl (update_ne_none hc _) fun _ => rfl

/-- An edge for everything that arrives. -/
theorem Edges.notify (h : Edges s) (c : Nat) (socket : Socket) : Edges (s.notify c socket) where
  readable fd c' socket' hclient hsocket hread := by
    change Function.update s.sockets c _ c' = some socket' at hsocket
    by_cases hc : c' = c
    · subst hc
      rw [Function.update_self] at hsocket
      cases hsocket
      exact Or.inl rfl
    · rw [Function.update_of_ne hc] at hsocket
      exact h.readable fd c' socket' hclient hsocket hread
  registered := h.registered
  nodup := h.nodup

/-- What arrives is behind what is unread. -/
theorem Streams.notify (h : Streams out s) {c : Nat} {socket socket' : Socket} {more : List Output}
    (hc : s.sockets c = some socket) (hread : ∀ c', readOn c' more = [])
    (hactions : ∀ c', actionsOn c' more = []) (hother : ∀ c', c' ≠ c → arrivedOn c' more = [])
    (hown : socket'.unread = socket.unread ++ arrivedOn c more) :
    Streams (out ++ more) (s.notify c socket') := by
  have hsame : ∀ c', c' ≠ c → (s.notify c socket').sockets c' = s.sockets c' :=
    fun c' hcc => Function.update_of_ne hcc _ _
  have hnone : ∀ c', (s.notify c socket').sockets c' = none → c' ≠ c := by
    rintro c' hsocket rfl
    change Function.update s.sockets c' _ c' = none at hsocket
    rw [Function.update_self] at hsocket
    cases hsocket
  refine ⟨fun c' socket₁ hsocket => ?_, fun c' hsocket => ?_, fun c' hw => ?_, fun c' hw => ?_,
    fun fd c' hclient => ?_, fun c' => ?_⟩
  · rw [readOn_append, hread, List.append_nil, arrivedOn_append]
    by_cases hcc : c' = c
    · subst hcc
      change Function.update s.sockets c' _ c' = some socket₁ at hsocket
      rw [Function.update_self] at hsocket
      cases hsocket
      rw [hown, ← List.append_assoc, h.unread c' socket hc]
    · rw [hsame c' hcc] at hsocket
      rw [hother c' hcc, List.append_nil]
      exact h.unread c' socket₁ hsocket
  · have hcc := hnone c' hsocket
    rw [hsame c' hcc] at hsocket
    rw [readOn_append, hread, List.append_nil, arrivedOn_append, hother c' hcc, List.append_nil]
    exact h.closed c' hsocket
  · rw [readOn_append, hread, List.append_nil]
    exact h.waiting c' hw
  · obtain ⟨hsocket, harrived⟩ := h.unknown c' hw
    have hcc : c' ≠ c := by
      rintro rfl
      rw [hc] at hsocket
      cases hsocket
    rw [hsame c' hcc, arrivedOn_append, hother c' hcc, List.append_nil]
    exact ⟨hsocket, harrived⟩
  · rw [readOn_append, hread, List.append_nil]
    exact h.buffer fd c' hclient
  · rw [readOn_append, hread, List.append_nil, actionsOn_append, hactions, List.append_nil]
    exact h.actions c'

theorem Inv.arrive (h : Inv out s) {c : Nat} {socket : Socket} (hc : s.sockets c = some socket)
    (bytes : Bytes) :
    Inv (out ++ [.arrived c bytes]) (s.notify c { socket with unread := socket.unread ++ bytes }) where
  table := h.table.notify (by rw [hc]; simp) _
  streams := h.streams.notify hc (fun _ => rfl) (fun _ => rfl)
    (fun c' hcc => by simp [Ne.symm hcc]) (by simp)
  edges := h.edges.notify c _

theorem Inv.hangUp (h : Inv out s) {c : Nat} {socket : Socket} (hc : s.sockets c = some socket) :
    Inv (out ++ []) (s.notify c { socket with ended := true }) where
  table := h.table.notify (by rw [hc]; simp) _
  streams := h.streams.notify hc (fun _ => rfl) (fun _ => rfl) (fun _ _ => rfl)
    (List.append_nil _).symm
  edges := h.edges.notify c _

theorem Table.connect (h : Table s) (hs : Streams out s) :
    Table (step s .connect).1 := by
  have hnew : s.sockets s.connections = none := (hs.unknown _ (Nat.le_refl _)).1
  have hold : ∀ c, c ≠ s.connections →
      ((step s .connect).1.sockets c ≠ none ↔ s.sockets c ≠ none) := by
    intro c hc
    change Function.update s.sockets s.connections _ c ≠ none ↔ _
    rw [Function.update_of_ne hc]
  have hself : (step s .connect).1.sockets s.connections ≠ none := by
    simp [step]
  have hlt : ∀ c, c < s.connections → c ≠ s.connections := fun _ => Nat.ne_of_lt
  exact {
    known := fun fd c hc => by
      obtain ⟨hknown, hback, hsocket⟩ := h.known fd c hc
      refine ⟨Nat.lt_succ_of_lt hknown, ?_, (hold c (hlt c hknown)).mpr hsocket⟩
      simpa [step] using ⟨hback, hlt c hknown⟩
    injective := h.injective
    nodup := by
      refine List.nodup_append.mpr ⟨h.nodup, by simp, ?_⟩
      intro c hc c' hc' heq
      rw [List.mem_singleton.mp hc'] at heq
      exact hlt c (h.waiting c hc).1 heq
    waiting := fun c hc => by
      rcases List.mem_append.mp hc with hc | hc
      · obtain ⟨hknown, hsocket⟩ := h.waiting c hc
        exact ⟨Nat.lt_succ_of_lt hknown, (hold c (hlt c hknown)).mpr hsocket⟩
      · rw [List.mem_singleton.mp hc]
        exact ⟨Nat.lt_succ_self _, hself⟩
    connected := fun c hc => by
      by_cases heq : c = s.connections
      · exact Or.inl (by simp [step, heq])
      · rcases h.connected c ((hold c heq).mp hc) with hback | hfd
        · exact Or.inl (by simp [step, hback])
        · exact Or.inr hfd
    buffers := h.buffers }

theorem Streams.connect (h : Streams out s) : Streams out (step s .connect).1 where
  unread c socket hsocket := by
    change Function.update s.sockets s.connections _ c = some socket at hsocket
    by_cases hc : c = s.connections
    · subst hc
      rw [Function.update_self] at hsocket
      cases hsocket
      rw [h.waiting _ (Or.inr (Nat.le_refl _)), (h.unknown _ (Nat.le_refl _)).2]
      rfl
    · rw [Function.update_of_ne hc] at hsocket
      exact h.unread c socket hsocket
  closed c hsocket := by
    change Function.update s.sockets s.connections _ c = none at hsocket
    by_cases hc : c = s.connections
    · subst hc
      rw [Function.update_self] at hsocket
      cases hsocket
    · rw [Function.update_of_ne hc] at hsocket
      exact h.closed c hsocket
  waiting c hw := by
    rcases hw with hw | hw
    · rcases List.mem_append.mp hw with hw | hw
      · exact h.waiting c (Or.inl hw)
      · exact h.waiting c (Or.inr (by rw [List.mem_singleton.mp hw]))
    · exact h.waiting c (Or.inr (Nat.le_of_succ_le hw))
  unknown c hw := by
    have hc : c ≠ s.connections := by
      rintro rfl
      exact absurd hw (Nat.not_succ_le_self _)
    obtain ⟨hnone, harrived⟩ := h.unknown c (Nat.le_of_succ_le hw)
    refine ⟨?_, harrived⟩
    change Function.update s.sockets s.connections _ c = none
    rw [Function.update_of_ne hc]
    exact hnone
  buffer := h.buffer
  actions := h.actions

theorem Edges.connect (h : Edges s) (ht : Table s) : Edges (step s .connect).1 where
  readable fd c socket hclient hsocket hread := by
    have hc : c ≠ s.connections := Nat.ne_of_lt (ht.known fd c hclient).1
    change Function.update s.sockets s.connections _ c = some socket at hsocket
    rw [Function.update_of_ne hc] at hsocket
    exact h.readable fd c socket hclient hsocket hread
  registered := h.registered
  nodup := h.nodup

theorem Inv.connect (h : Inv out s) : Inv (out ++ []) (step s .connect).1 := by
  rw [List.append_nil]
  exact ⟨h.table.connect h.streams, h.streams.connect, h.edges.connect h.table⟩

/-! ### The thread -/

/-- A step that only moves on in the batch, and loses no event of a socket to be read. -/
theorem Inv.moveOn (h : Inv out s) {control : Control}
    (hevents : control.events.Sublist s.control.events)
    (hdone : ∀ fd c socket, s.client fd = some c → s.sockets c = some socket → socket.Readable →
      .client fd ∈ s.control.events → .client fd ∈ control.events) :
    Inv (out ++ []) { s with control := control } := by
  rw [List.append_nil]
  refine ⟨h.table.congr rfl rfl rfl (fun _ => Iff.rfl) fun _ => rfl,
    ⟨h.streams.unread, h.streams.closed, h.streams.waiting, h.streams.unknown, h.streams.buffer,
      h.streams.actions⟩, ⟨fun fd c socket hclient hsocket hread => ?_, fun fd hfd => ?_,
      h.edges.nodup.sublist hevents⟩⟩
  · rcases h.edges.readable fd c socket hclient hsocket hread with hedge | hpending
    · exact Or.inl hedge
    · exact Or.inr (hdone fd c socket hclient hsocket hread hpending)
  · exact h.edges.registered fd (hevents.subset hfd)

/-- A step that touches the edges of the sockets only. -/
theorem Streams.congr (h : Streams out s) (hconnections : s'.connections = s.connections)
    (hbacklog : s'.backlog = s.backlog) (hclient : s'.client = s.client)
    (hbuffers : s'.clientBuffers = s.clientBuffers)
    (hsockets : ∀ c, (s'.sockets c).map Socket.unread = (s.sockets c).map Socket.unread) :
    Streams out s' := by
  have hnone : ∀ c, s'.sockets c = none ↔ s.sockets c = none := fun c => by
    rw [← Option.map_eq_none_iff (f := Socket.unread), hsockets, Option.map_eq_none_iff]
  refine ⟨fun c socket hsocket => ?_, fun c hsocket => ?_, fun c hw => ?_, fun c hw => ?_,
    fun fd c hc => ?_, h.actions⟩
  · have hunread := hsockets c
    rw [hsocket, Option.map_some] at hunread
    obtain ⟨socket', hsocket', heq⟩ := Option.map_eq_some_iff.mp hunread.symm
    rw [← heq]
    exact h.unread c socket' hsocket'
  · exact h.closed c ((hnone c).mp hsocket)
  · rw [hbacklog, hconnections] at hw
    exact h.waiting c hw
  · rw [hconnections] at hw
    rw [hnone]
    exact h.unknown c hw
  · rw [hclient] at hc
    rw [hbuffers]
    exact h.buffer fd c hc

theorem State.Reports.client_ne_none {fd : Nat} (h : s.Reports (.client fd)) :
    s.client fd ≠ none := by
  intro hnone
  simp [State.Reports, hnone] at h

theorem Inv.epollWait (h : Inv out s) {events : List Event} (hwait : s.control = .wait)
    (hreturns : s.Returns events) :
    Inv (out ++ [])
      { s with
        sockets := fun c => (s.sockets c).map fun socket =>
          if events.any (s.IsOf c) then { socket with edge := false } else socket
        control := .next events } := by
  obtain ⟨hnodup, -, hreports⟩ := hreturns
  rw [List.append_nil]
  refine ⟨h.table.congr rfl rfl rfl (fun c => ?_) fun _ => rfl,
    h.streams.congr rfl rfl rfl rfl fun c => ?_,
    ⟨fun fd c socket hclient hsocket hread => ?_, fun fd hfd => ?_, hnodup⟩⟩
  · rw [ne_eq, Option.map_eq_none_iff]
  · rw [Option.map_map]
    congr 1
    funext socket
    dsimp only [Function.comp_apply]
    split <;> rfl
  · obtain ⟨socket', hsocket', heq⟩ := Option.map_eq_some_iff.mp hsocket
    by_cases hmem : .client fd ∈ events
    · exact Or.inr hmem
    · -- no other descriptor is open for the connection
      have hnone : events.any (s.IsOf c) = false := by
        rw [List.any_eq_false]
        rintro event hevent hof
        cases event with
        | listener => cases hof
        | client fd' =>
          have hfd := h.table.injective fd' fd c (of_decide_eq_true hof) hclient
          exact hmem (hfd ▸ hevent)
      rw [hnone] at heq
      have hsame : socket' = socket := heq
      subst hsame
      rcases h.edges.readable fd c socket' hclient hsocket' hread with hedge | hpending
      · exact Or.inl hedge
      · rw [hwait] at hpending
        cases hpending
  · exact (hreports _ hfd).client_ne_none

/-- `EPOLL_CTL_ADD` reports a socket that can be read already. -/
theorem Inv.added (h : Inv out s) {c : Nat} (hc : c ∈ s.backlog) :
    Inv out
      { s with
        sockets := Function.update s.sockets c
          ((s.sockets c).map fun socket => { socket with edge := socket.Readable }) } := by
  refine ⟨h.table.congr rfl rfl rfl (fun c' => ?_) fun _ => rfl,
    h.streams.congr rfl rfl rfl rfl fun c' => ?_,
    ⟨fun fd c' socket hclient hsocket hread => ?_, h.edges.registered, h.edges.nodup⟩⟩
  · by_cases hcc : c' = c
    · subst hcc
      simp only [Function.update_self]
      rw [ne_eq, Option.map_eq_none_iff]
    · simp only [Function.update_of_ne hcc]
  · by_cases hcc : c' = c
    · subst hcc
      simp only [Function.update_self, Option.map_map]
      rfl
    · simp only [Function.update_of_ne hcc]
  · have hcc : c' ≠ c := by
      rintro rfl
      exact (h.table.known fd c' hclient).2.1 hc
    simp only [Function.update_of_ne hcc] at hsocket
    exact h.edges.readable fd c' socket hclient hsocket hread

section Accepted
variable {c fd calls : Nat} {rest : List Nat} {events : List Event}

/-- The connection is under the descriptor, and the loop around `accept` goes on. -/
def State.accepted (s : State) (c fd : Nat) (rest : List Nat) (control : Control) : State :=
  { s with
    backlog := rest
    client := Function.update s.client fd (some c)
    clientBuffers := Function.update s.clientBuffers fd (some ((s.clientBuffers fd).getD .fresh))
    control := control }

/-- The new connection was under no descriptor, and this one was not in use. -/
theorem Table.ne_accepted (h : Table s) (hbacklog : s.backlog = c :: rest)
    (hfree : s.client fd = none) {fd' c' : Nat} (hclient : s.client fd' = some c') :
    fd' ≠ fd ∧ c' ≠ c := by
  refine ⟨?_, ?_⟩
  · rintro rfl
    rw [hfree] at hclient
    cases hclient
  · rintro rfl
    exact (h.known fd' c' hclient).2.1 (by rw [hbacklog]; exact List.mem_cons_self)

theorem Table.client_accepted (h : Table s) (hbacklog : s.backlog = c :: rest)
    (hfree : s.client fd = none) {fd' c' : Nat} {control : Control}
    (hclient : (s.accepted c fd rest control).client fd' = some c') :
    (fd' = fd ∧ c' = c) ∨ (fd' ≠ fd ∧ c' ≠ c ∧ s.client fd' = some c') := by
  change Function.update s.client fd (some c) fd' = some c' at hclient
  by_cases hfd : fd' = fd
  · subst hfd
    rw [Function.update_self] at hclient
    exact Or.inl ⟨rfl, (Option.some.inj hclient).symm⟩
  · rw [Function.update_of_ne hfd] at hclient
    exact Or.inr ⟨hfd, (h.ne_accepted hbacklog hfree hclient).2, hclient⟩

theorem Table.accepted (h : Table s) (hbacklog : s.backlog = c :: rest)
    (hfree : s.client fd = none) (control : Control) : Table (s.accepted c fd rest control) := by
  have hnodup := h.nodup
  have hwaiting := h.waiting
  rw [hbacklog] at hnodup hwaiting
  obtain ⟨hc, hrest⟩ := List.nodup_cons.mp hnodup
  obtain ⟨hknown, hsocket⟩ := hwaiting c List.mem_cons_self
  constructor
  case known =>
    intro fd' c' hclient
    rcases h.client_accepted hbacklog hfree hclient with ⟨-, rfl⟩ | ⟨-, -, hold⟩
    · exact ⟨hknown, hc, hsocket⟩
    · obtain ⟨hk, hb, hs⟩ := h.known fd' c' hold
      exact ⟨hk, fun hm => hb (by rw [hbacklog]; exact List.mem_cons_of_mem _ hm), hs⟩
  case injective =>
    intro fd' fd₁ c' hclient hclient₁
    rcases h.client_accepted hbacklog hfree hclient with ⟨rfl, rfl⟩ | ⟨-, hne, hold⟩ <;>
      rcases h.client_accepted hbacklog hfree hclient₁ with ⟨rfl, hcc⟩ | ⟨-, hne₁, hold₁⟩
    · rfl
    · exact absurd rfl hne₁
    · exact absurd hcc hne
    · exact h.injective fd' fd₁ c' hold hold₁
  case nodup => exact hrest
  case waiting => exact fun c' hc' => hwaiting c' (List.mem_cons_of_mem _ hc')
  case connected =>
    intro c' hc'
    rcases h.connected c' hc' with hback | ⟨fd', hclient⟩
    · rw [hbacklog] at hback
      rcases List.mem_cons.mp hback with rfl | hback
      · exact Or.inr ⟨fd, Function.update_self _ _ _⟩
      · exact Or.inl hback
    · refine Or.inr ⟨fd', ?_⟩
      rw [← hclient]
      exact Function.update_of_ne (h.ne_accepted hbacklog hfree hclient).1 _ _
  case buffers =>
    intro fd'
    by_cases hfd : fd' = fd
    · subst hfd
      simp [State.accepted]
    · simpa only [State.accepted, Function.update_of_ne hfd] using h.buffers fd'

/-- A connection that waited has a fresh buffer, as nothing was read of it. -/
theorem Streams.accepted (h : Streams out s) (ht : Table s) (hbacklog : s.backlog = c :: rest)
    (hfree : s.client fd = none) (control : Control) :
    Streams out (s.accepted c fd rest control) := by
  have hnone : s.clientBuffers fd = none := by
    have hbuffer := ht.buffers fd
    rw [hfree] at hbuffer
    exact Option.isNone_iff_eq_none.mp (Option.isSome_eq_false_iff.mp hbuffer)
  refine ⟨h.unread, h.closed, fun c' hw => ?_, h.unknown, fun fd' c' hclient => ?_, h.actions⟩
  · refine h.waiting c' (hw.imp_left fun hm => ?_)
    rw [hbacklog]
    exact List.mem_cons_of_mem _ hm
  · rcases ht.client_accepted hbacklog hfree hclient with ⟨rfl, rfl⟩ | ⟨hfd, -, hold⟩
    · rw [h.waiting c' (Or.inl (by rw [hbacklog]; exact List.mem_cons_self))]
      simp only [State.accepted, Function.update_self, hnone]
      rfl
    · simp only [State.accepted, Function.update_of_ne hfd]
      exact h.buffer fd' c' hold

theorem Edges.accepted (h : Edges s) (ht : Table s) (hbacklog : s.backlog = c :: rest)
    (hfree : s.client fd = none) (hcontrol : s.control = .accept calls events)
    (hedge : ∀ socket, s.sockets c = some socket → socket.Readable → socket.edge = true) :
    Edges (s.accepted c fd rest (.accept (calls + 1) events)) := by
  refine ⟨fun fd' c' socket hclient hsocket hread => ?_, fun fd' hfd' => ?_, ?_⟩
  · rcases ht.client_accepted hbacklog hfree hclient with ⟨rfl, rfl⟩ | ⟨hfd, -, hold⟩
    · exact Or.inl (hedge socket hsocket hread)
    · have hold' := h.readable fd' c' socket hold hsocket hread
      rw [hcontrol] at hold'
      exact hold'
  · by_cases hfd : fd' = fd
    · subst hfd
      simp [State.accepted]
    · simp only [State.accepted, Function.update_of_ne hfd]
      exact h.registered fd' (by rw [hcontrol]; exact hfd')
  · have hnodup := h.nodup
    rw [hcontrol] at hnodup
    exact hnodup

/-- A connection is accepted under a descriptor that is not in use. -/
theorem Inv.accepted (h : Inv out s) (hbacklog : s.backlog = c :: rest)
    (hfree : s.client fd = none) (hcontrol : s.control = .accept calls events)
    (hedge : ∀ socket, s.sockets c = some socket → socket.Readable → socket.edge = true) :
    Inv (out ++ []) (s.accepted c fd rest (.accept (calls + 1) events)) := by
  rw [List.append_nil]
  exact ⟨h.table.accepted hbacklog hfree _, h.streams.accepted h.table hbacklog hfree _,
    h.edges.accepted h.table hbacklog hfree hcontrol hedge⟩

end Accepted

/-- A connection that waits, or that there is not, is not the one under a descriptor. -/
theorem Table.ne_of_waiting (h : Table s) {fd c c' : Nat} (hc : s.client fd = some c)
    (hw : c' ∈ s.backlog ∨ s.connections ≤ c') : c' ≠ c := by
  obtain ⟨hknown, hback, -⟩ := h.known fd c hc
  rintro rfl
  rcases hw with hw | hw
  · exact hback hw
  · exact absurd hknown (Nat.not_lt.mpr hw)

/-- Another descriptor is that of another connection. -/
theorem Table.ne_of_client (h : Table s) {fd fd' c c' : Nat} (hc : s.client fd = some c)
    (hc' : s.client fd' = some c') (hfd : fd' ≠ fd) : c' ≠ c := by
  rintro rfl
  exact hfd (h.injective fd' fd c' hc' hc)

/-- What is done for a read is what the connection alone would have done. -/
theorem Streams.actions_read (h : Streams out s) {fd c : Nat} (hc : s.client fd = some c)
    (bytes : Bytes) (c' : Nat) :
    actionsOn c' (out ++ [.handled c bytes (handleRead (s.clientBuffers fd) bytes).2]) =
      actionsOf (readOn c' (out ++ [.handled c bytes
        (handleRead (s.clientBuffers fd) bytes).2])) := by
  rw [actionsOn_append, readOn_append, actionsOn_handled, readOn_handled]
  by_cases hcc : c = c'
  · subst hcc
    rw [if_pos rfl, if_pos rfl, actionsOf_append, h.actions, h.buffer fd c hc]
  · rw [if_neg hcc, if_neg hcc, List.append_nil, List.append_nil]
    exact h.actions c'

/-- The reads of the other connections are what they were. -/
theorem readOn_other {c c' : Nat} (hcc : c' ≠ c) (bytes : Bytes) (actions : List Action) :
    readOn c' (out ++ [.handled c bytes actions]) = readOn c' out := by
  simp [Ne.symm hcc]

/-- What was read is what was unread before. -/
theorem Streams.handled (h : Streams out s) (ht : Table s) {fd c : Nat} {socket : Socket}
    (hc : s.client fd = some c) (hsocket : s.sockets c = some socket) {bytes rest : Bytes}
    (hunread : socket.unread = bytes ++ rest) {rb : RingBuffer}
    (hrb : (handleRead (s.clientBuffers fd) bytes).1 = some rb) :
    Streams (out ++ [.handled c bytes (handleRead (s.clientBuffers fd) bytes).2])
      { s with
        sockets := Function.update s.sockets c (some { socket with unread := rest })
        clientBuffers := Function.update s.clientBuffers fd (some rb) } := by
  have hother : ∀ c', c' ≠ c →
      Function.update s.sockets c (some { socket with unread := rest }) c' = s.sockets c' :=
    fun c' hcc => Function.update_of_ne hcc _ _
  have hown : ∀ actions, readOn c (out ++ [.handled c bytes actions]) = readOn c out ++ [bytes] :=
    fun actions => by simp
  refine ⟨fun c' socket' hs => ?_, fun c' hs => ?_, fun c' hw => ?_, fun c' hw => ?_,
    fun fd' c' hclient => ?_, h.actions_read hc bytes⟩
  · rw [arrivedOn_append, arrivedOn_handled, List.append_nil]
    by_cases hcc : c' = c
    · subst hcc
      simp only [Function.update_self, Option.some.injEq] at hs
      rw [hown, ← hs, List.flatten_append, List.flatten_singleton, List.append_assoc, ← hunread]
      exact h.unread c' socket hsocket
    · dsimp only at hs
      rw [hother c' hcc] at hs
      rw [readOn_other hcc]
      exact h.unread c' socket' hs
  · have hcc : c' ≠ c := by
      rintro rfl
      simp at hs
    dsimp only at hs
    rw [hother c' hcc] at hs
    rw [readOn_other hcc, arrivedOn_append, arrivedOn_handled, List.append_nil]
    exact h.closed c' hs
  · rw [readOn_other (ht.ne_of_waiting hc hw)]
    exact h.waiting c' hw
  · dsimp only
    rw [hother c' (ht.ne_of_waiting hc (Or.inr hw)), arrivedOn_append, arrivedOn_handled,
      List.append_nil]
    exact h.unknown c' hw
  · by_cases hfd : fd' = fd
    · subst hfd
      obtain rfl : c = c' := Option.some.inj (hc.symm.trans hclient)
      rw [hown, bufferOf_append, ← h.buffer fd' c hc, hrb]
      exact Function.update_self _ _ _
    · simp only [Function.update_of_ne hfd]
      rw [readOn_other (ht.ne_of_client hc hclient hfd)]
      exact h.buffer fd' c' hclient

/-- A read that leaves the connection open. -/
theorem Inv.handled (h : Inv out s) {fd c : Nat} {socket : Socket} {events : List Event}
    (hcontrol : s.control = .read fd events) (hc : s.client fd = some c)
    (hsocket : s.sockets c = some socket) {bytes rest : Bytes} (hunread : socket.unread = bytes ++ rest)
    {rb : RingBuffer} (hrb : (handleRead (s.clientBuffers fd) bytes).1 = some rb) :
    Inv (out ++ [.handled c bytes (handleRead (s.clientBuffers fd) bytes).2])
      { s with
        sockets := Function.update s.sockets c (some { socket with unread := rest })
        clientBuffers := Function.update s.clientBuffers fd (some rb) } := by
  have hne : s.sockets c ≠ none := by rw [hsocket]; simp
  refine ⟨h.table.congr rfl rfl rfl (update_ne_none hne _) fun fd' => ?_,
    h.streams.handled h.table hc hsocket hunread hrb,
    ⟨fun fd' c' socket' hclient hs hreadable => ?_, h.edges.registered, h.edges.nodup⟩⟩
  · by_cases hfd : fd' = fd
    · subst hfd
      simp only [Function.update_self]
      rw [h.table.buffers, hc]
      rfl
    · simp only [Function.update_of_ne hfd]
  · by_cases hfd : fd' = fd
    · subst hfd
      exact Or.inr (by rw [hcontrol]; exact List.mem_cons_self)
    · dsimp only at hs
      rw [Function.update_of_ne (h.table.ne_of_client hc hclient hfd)] at hs
      exact h.edges.readable fd' c' socket' hclient hs hreadable

section Closed
variable {fd c : Nat} {events : List Event} {more : List Output}

/-- The other descriptors and their connections stay as they are. -/
theorem Table.client_closed (h : Table s) (hc : s.client fd = some c) {fd' c' : Nat}
    (hclient : Function.update s.client fd none fd' = some c') :
    fd' ≠ fd ∧ c' ≠ c ∧ s.client fd' = some c' := by
  have hfd : fd' ≠ fd := by
    rintro rfl
    simp at hclient
  rw [Function.update_of_ne hfd] at hclient
  exact ⟨hfd, h.ne_of_client hc hclient hfd, hclient⟩

theorem sockets_closed {c' : Nat} (hs : Function.update s.sockets c none c' ≠ none) :
    c' ≠ c ∧ s.sockets c' ≠ none := by
  have hcc : c' ≠ c := by
    rintro rfl
    simp at hs
  rw [Function.update_of_ne hcc] at hs
  exact ⟨hcc, hs⟩

theorem Table.close (h : Table s) (hc : s.client fd = some c) (control : Control) :
    Table { s.close fd (some c) with control := control } := by
  constructor
  case known =>
    intro fd' c' hclient
    obtain ⟨-, hcc, hold⟩ := h.client_closed hc hclient
    obtain ⟨hk, hb, hs⟩ := h.known fd' c' hold
    exact ⟨hk, hb, by simpa [State.close, Function.update_of_ne hcc] using hs⟩
  case injective =>
    exact fun fd' fd₁ c' hclient hclient₁ =>
      h.injective fd' fd₁ c' (h.client_closed hc hclient).2.2 (h.client_closed hc hclient₁).2.2
  case nodup => exact h.nodup
  case waiting =>
    intro c' hw
    obtain ⟨hk, hs⟩ := h.waiting c' hw
    have hcc := h.ne_of_waiting hc (Or.inl hw)
    exact ⟨hk, by simpa [State.close, Function.update_of_ne hcc] using hs⟩
  case connected =>
    intro c' hs
    obtain ⟨hcc, hs⟩ := sockets_closed hs
    rcases h.connected c' hs with hb | ⟨fd', hclient⟩
    · exact Or.inl hb
    · refine Or.inr ⟨fd', ?_⟩
      have hfd : fd' ≠ fd := by
        rintro rfl
        exact hcc (Option.some.inj (hclient.symm.trans hc))
      rw [← hclient]
      exact Function.update_of_ne hfd _ _
  case buffers =>
    intro fd'
    by_cases hfd : fd' = fd
    · subst hfd
      simp [State.close]
    · simpa [State.close, Function.update_of_ne hfd] using h.buffers fd'

/-- The last read, if there is one, is of the connection that is closed. -/
theorem Streams.close (h : Streams out s) (ht : Table s) (hc : s.client fd = some c)
    (hmore : ∀ c', arrivedOn c' more = [] ∧ (c' ≠ c → readOn c' more = []))
    (hactions : ∀ c', actionsOn c' (out ++ more) = actionsOf (readOn c' (out ++ more)))
    (hfront : (readOn c (out ++ more)).flatten <+: arrivedOn c out)
    (hend : bufferOf (readOn c (out ++ more)) = none ∨
      (readOn c (out ++ more)).flatten = arrivedOn c out) (control : Control) :
    Streams (out ++ more) { s.close fd (some c) with control := control } := by
  have harrived : ∀ c', arrivedOn c' (out ++ more) = arrivedOn c' out := fun c' => by
    rw [arrivedOn_append, (hmore c').1, List.append_nil]
  have hread : ∀ c', c' ≠ c → readOn c' (out ++ more) = readOn c' out := fun c' hcc => by
    rw [readOn_append, (hmore c').2 hcc, List.append_nil]
  refine ⟨fun c' socket' hs => ?_, fun c' hs => ?_, fun c' hw => ?_, fun c' hw => ?_,
    fun fd' c' hclient => ?_, hactions⟩
  · change Function.update s.sockets c none c' = some socket' at hs
    have hcc := (sockets_closed (by rw [hs]; simp)).1
    rw [Function.update_of_ne hcc] at hs
    rw [harrived, hread c' hcc]
    exact h.unread c' socket' hs
  · rw [harrived]
    by_cases hcc : c' = c
    · subst hcc
      exact ⟨hfront, hend⟩
    · change Function.update s.sockets c none c' = none at hs
      rw [Function.update_of_ne hcc] at hs
      rw [hread c' hcc]
      exact h.closed c' hs
  · rw [hread c' (ht.ne_of_waiting hc hw)]
    exact h.waiting c' hw
  · rw [harrived]
    refine ⟨?_, (h.unknown c' hw).2⟩
    change Function.update s.sockets c none c' = none
    rw [Function.update_of_ne (ht.ne_of_waiting hc (Or.inr hw))]
    exact (h.unknown c' hw).1
  · obtain ⟨hfd, hcc, hold⟩ := ht.client_closed hc hclient
    rw [hread c' hcc, ← h.buffer fd' c' hold]
    exact Function.update_of_ne hfd _ _

theorem Edges.close (h : Edges s) (ht : Table s) (hcontrol : s.control = .read fd events)
    (hc : s.client fd = some c) :
    Edges { s.close fd (some c) with control := .next events } := by
  have hnodup := h.nodup
  rw [hcontrol] at hnodup
  obtain ⟨hdone, hevents⟩ := List.nodup_cons.mp hnodup
  refine ⟨fun fd' c' socket' hclient hs hreadable => ?_, fun fd' hfd' => ?_, hevents⟩
  · obtain ⟨hfd, hcc, hold⟩ := ht.client_closed hc hclient
    change Function.update s.sockets c none c' = some socket' at hs
    rw [Function.update_of_ne hcc] at hs
    have hold' := h.readable fd' c' socket' hold hs hreadable
    rw [hcontrol] at hold'
    rcases hold' with hedge | hpending
    · exact Or.inl hedge
    · rcases List.mem_cons.mp hpending with heq | hpending
      · exact absurd (Event.client.inj heq) hfd
      · exact Or.inr hpending
  · have hfd : fd' ≠ fd := by
      rintro rfl
      exact hdone hfd'
    have hold := h.registered fd' (by rw [hcontrol]; exact List.mem_cons_of_mem _ hfd')
    simpa [State.close, Function.update_of_ne hfd] using hold

/-- The connection under way is closed, and its descriptor is free again. -/
theorem Inv.closed (h : Inv out s) (hcontrol : s.control = .read fd events)
    (hc : s.client fd = some c)
    (hmore : ∀ c', arrivedOn c' more = [] ∧ (c' ≠ c → readOn c' more = []))
    (hactions : ∀ c', actionsOn c' (out ++ more) = actionsOf (readOn c' (out ++ more)))
    (hfront : (readOn c (out ++ more)).flatten <+: arrivedOn c out)
    (hend : bufferOf (readOn c (out ++ more)) = none ∨
      (readOn c (out ++ more)).flatten = arrivedOn c out) :
    Inv (out ++ more) { s.close fd (some c) with control := .next events } :=
  ⟨h.table.close hc _, h.streams.close h.table hc hmore hactions hfront hend _,
    h.edges.close h.table hcontrol hc⟩

end Closed

theorem Inv.readStep (h : Inv out s) {fd : Nat} {events : List Event}
    (hcontrol : s.control = .read fd events) (count : Nat) :
    Inv (out ++ (readStep s fd events count).2) (readStep s fd events count).1 := by
  have hopen : s.client fd ≠ none :=
    h.edges.registered fd (by rw [hcontrol]; exact List.mem_cons_self)
  obtain ⟨c, hc⟩ := Option.ne_none_iff_exists'.mp hopen
  obtain ⟨socket, hsocket⟩ := Option.ne_none_iff_exists'.mp (h.table.known fd c hc).2.2
  have hbuffer : some ((s.clientBuffers fd).getD .fresh) = s.clientBuffers fd := by
    have hsome := h.table.buffers fd
    rw [hc] at hsome
    obtain ⟨rb, hrb⟩ := Option.isSome_iff_exists.mp hsome
    rw [hrb]
    rfl
  unfold TCPServer.readStep
  simp only [hc, hsocket, hbuffer]
  have hstream := h.streams.unread c socket hsocket
  by_cases hunread : socket.unread ≠ []
  · rw [if_pos hunread]
    generalize min (max count 1) bufferSize = size
    have hsplit : socket.unread = socket.unread.take size ++ socket.unread.drop size :=
      (List.take_append_drop _ _).symm
    cases hrb : (handleRead (s.clientBuffers fd) (socket.unread.take size)).1 with
    | some rb => exact h.handled hcontrol hc hsocket hsplit hrb
    | none =>
      have hread : readOn c (out ++ [.handled c (socket.unread.take size)
          (handleRead (s.clientBuffers fd) (socket.unread.take size)).2]) =
          readOn c out ++ [socket.unread.take size] := by simp
      refine h.closed hcontrol hc (fun c' => ⟨rfl, fun hcc => by simp [Ne.symm hcc]⟩)
        (h.streams.actions_read hc _) ?_ (Or.inl ?_)
      · rw [hread, List.flatten_append, List.flatten_singleton, ← hstream]
        exact (List.prefix_append_right_inj _).mpr (List.take_prefix _ _)
      · rw [hread, bufferOf_append, ← h.streams.buffer fd c hc, hrb]
  · rw [if_neg hunread]
    have hnil : socket.unread = [] := not_not.mp hunread
    rw [hnil, List.append_nil] at hstream
    by_cases hended : socket.ended = true
    · rw [if_pos hended]
      refine h.closed hcontrol hc (fun c' => ⟨rfl, fun _ => rfl⟩) (fun c' => ?_) ?_ ?_
      · rw [List.append_nil]
        exact h.streams.actions c'
      · exact ⟨[], by rw [List.append_nil, List.append_nil, hstream]⟩
      · rw [List.append_nil]
        exact Or.inr hstream
    · rw [if_neg hended]
      refine h.moveOn (by rw [hcontrol]; exact List.sublist_cons_self _ _)
        fun fd' c' socket' hclient hsocket' hread hmem => ?_
      rw [hcontrol] at hmem
      rcases List.mem_cons.mp hmem with heq | hmem
      · -- `EAGAIN`: nothing is left to read
        obtain rfl := Event.client.inj heq
        obtain rfl : c = c' := Option.some.inj (hc.symm.trans hclient)
        obtain rfl : socket = socket' := Option.some.inj (hsocket.symm.trans hsocket')
        rcases hread with hread | hread
        · exact absurd hread hunread
        · exact absurd hread hended
      · exact hmem

theorem Inv.acceptStep (h : Inv out s) {calls : Nat} {events : List Event}
    (hcontrol : s.control = .accept calls events) (fd : Option Nat) :
    Inv (out ++ (acceptStep s calls events fd).2) (acceptStep s calls events fd).1 := by
  have hend : Inv (out ++ []) { s with control := .next events } :=
    h.moveOn (by rw [hcontrol]; exact List.Sublist.refl _)
      fun _ _ _ _ _ _ hmem => by rw [hcontrol] at hmem; exact hmem
  unfold TCPServer.acceptStep
  by_cases hcalls : calls < maxAccepts
  · rw [if_pos hcalls]
    split
    · rename_i c rest fd hbacklog
      by_cases hfree : s.client fd = none
      · rw [if_pos hfree]
        have hadded := h.added (c := c) (by rw [hbacklog]; exact List.mem_cons_self)
        refine hadded.accepted hbacklog hfree hcontrol fun socket hsocket hread => ?_
        simp only [Function.update_self] at hsocket
        obtain ⟨socket', -, rfl⟩ := Option.map_eq_some_iff.mp hsocket
        exact decide_eq_true hread
      · rw [if_neg hfree, List.append_nil]
        exact h
    · exact hend
  · rw [if_neg hcalls]
    exact hend

/-- **Every step keeps the invariant.** -/
theorem Inv.next (h : Inv out s) (i : Input) : Inv (out ++ (step s i).2) (step s i).1 := by
  have hquiet : Inv (out ++ []) s := by
    rw [List.append_nil]
    exact h
  cases i with
  | connect => exact h.connect
  | arrive c bytes =>
    simp only [step]
    cases hsocket : s.sockets c with
    | none => exact hquiet
    | some socket =>
      by_cases hdrop : socket.ended ∨ bytes = []
      · simp only [if_pos hdrop]
        exact hquiet
      · simp only [if_neg hdrop]
        exact h.arrive hsocket bytes
  | hangUp c =>
    simp only [step]
    cases hsocket : s.sockets c with
    | none => exact hquiet
    | some socket => exact h.hangUp hsocket
  | epollWait events =>
    simp only [step]
    by_cases hwait : s.control = .wait ∧ s.Returns events
    · rw [if_pos hwait]
      exact h.epollWait hwait.1 hwait.2
    · rw [if_neg hwait]
      exact hquiet
  | next =>
    simp only [step]
    split
    · rename_i hcontrol
      exact h.moveOn (List.nil_sublist _) fun _ _ _ _ _ _ hmem => by rw [hcontrol] at hmem; exact hmem
    · rename_i events hcontrol
      refine h.moveOn (by rw [hcontrol]; exact List.sublist_cons_self _ _)
        fun fd _ _ _ _ _ hmem => ?_
      rw [hcontrol] at hmem
      exact (List.mem_cons.mp hmem).resolve_left (by simp)
    · rename_i fd events hcontrol
      exact h.moveOn (by rw [hcontrol]; exact List.Sublist.refl _)
        fun _ _ _ _ _ _ hmem => by rw [hcontrol] at hmem; exact hmem
    · exact hquiet
  | accept fd =>
    simp only [step]
    split
    · rename_i calls events hcontrol
      exact h.acceptStep hcontrol fd
    · exact hquiet
  | read count =>
    simp only [step]
    split
    · rename_i fd events hcontrol
      exact h.readStep hcontrol count
    · exact hquiet

theorem inv_run (inputs : List Input) :
    Inv (outputs step .init inputs) (run step .init inputs).1 :=
  invariant_run (fun _ out s => Inv out s) (fun _ _ _ i h _ => h.next i) inv_init
    (guarded_true _ _ _ inputs)

/-- What was read of a connection is what arrived on it first, and the gateway did what
is to be done for it. -/
theorem Inv.isolated (h : Inv out s) (c : Nat) : (readOn c out).flatten <+: arrivedOn c out ∧
    actionsOn c out = outputs handleRead (some .fresh) [(readOn c out).flatten] := by
  refine ⟨?_, ?_⟩
  · cases hsocket : s.sockets c with
    | none => exact (h.streams.closed c hsocket).1
    | some socket =>
      rw [← h.streams.unread c socket hsocket]
      exact List.prefix_append _ _
  · rw [h.streams.actions c, actionsOf_flatten]
    rfl

/-- An open connection has nothing left to read where `epoll_wait` has nothing to report. -/
theorem Inv.drained (h : Inv out s) (hidle : s.Idle) {c : Nat} {socket : Socket}
    (hsocket : s.sockets c = some socket) : ¬ socket.Readable := by
  obtain ⟨hwait, hbacklog, hedge⟩ := hidle
  intro hread
  rcases h.table.connected c (by rw [hsocket]; simp) with hmem | ⟨fd, hclient⟩
  · rw [hbacklog] at hmem
    cases hmem
  · rcases h.edges.readable fd c socket hclient hsocket hread with hfd | hpending
    · have hnone := hedge c (h.table.known fd c hclient).1 socket hsocket
      rw [hfd] at hnone
      cases hnone
    · rw [hwait] at hpending
      cases hpending

theorem Inv.complete (h : Inv out s) (hidle : s.Idle) (c : Nat) :
    actionsOn c out = outputs handleRead (some .fresh) [arrivedOn c out] := by
  rw [h.streams.actions c]
  have hall : (readOn c out).flatten = arrivedOn c out →
      actionsOf (readOn c out) = actionsOf [arrivedOn c out] := fun heq => by
    rw [actionsOf_flatten, heq]
  cases hsocket : s.sockets c with
  | some socket =>
    have hunread : socket.unread = [] :=
      not_not.mp fun hne => h.drained hidle hsocket (Or.inl hne)
    have hstream := h.streams.unread c socket hsocket
    rw [hunread, List.append_nil] at hstream
    exact hall hstream
  | none =>
    obtain ⟨⟨rest, hrest⟩, hclosed | heq⟩ := h.streams.closed c hsocket
    · rw [← actionsOf_closed hclosed rest, actionsOf_flatten, List.flatten_append,
        List.flatten_singleton, hrest]
      rfl
    · exact hall heq

/-! ## Runs -/

/-- **Connections do not disturb each other.** For any number of connections, every
order of steps and every reuse of descriptors: what is done for a connection is what is
done for it alone with the bytes that were read of it, which are the first ones that
arrived on it; and `client_buffers_` has entries for the open descriptors only. -/
theorem connection_isolated (inputs : List Input) (c : Nat) :
    let out := outputs step .init inputs
    let s := (run step .init inputs).1
    (readOn c out).flatten <+: arrivedOn c out ∧
    actionsOn c out = outputs handleRead (some .fresh) [(readOn c out).flatten] ∧
    ∀ fd, (s.clientBuffers fd).isSome ↔ ∃ c', s.client fd = some c' := by
  intro out s
  have h : Inv out s := inv_run inputs
  obtain ⟨hread, hactions⟩ := h.isolated c
  exact ⟨hread, hactions, fun fd => by rw [h.table.buffers, Option.isSome_iff_exists]⟩

/-- **No edge is lost.** Where `epoll_wait` has nothing to report, the gateway has done
for every connection what is to be done for all the bytes that arrived on it, and what
is open has not ended. -/
theorem idle_complete (inputs : List Input) (hidle : (run step .init inputs).1.Idle) (c : Nat) :
    let out := outputs step .init inputs
    let s := (run step .init inputs).1
    actionsOn c out = outputs handleRead (some .fresh) [arrivedOn c out] ∧
      ∀ socket, s.sockets c = some socket → socket.unread = [] ∧ socket.ended = false := by
  intro out s
  have h : Inv out s := inv_run inputs
  refine ⟨h.complete hidle c, fun socket hsocket => ?_⟩
  have hnone := h.drained hidle hsocket
  simpa only [Socket.Readable, not_or, not_not, Bool.not_eq_true] using hnone

/-- The second connection arrives while the first one is read, and gets its descriptor. -/
def twoSessions (first second : Bytes) : List Input :=
  [.connect, .arrive 0 first, .epollWait [.listener], .next, .accept (some 5), .accept none, .next,
    .epollWait [.client 5], .next, .read 8192, .connect, .hangUp 0, .read 8192, .next,
    .epollWait [.listener], .next, .accept (some 5), .arrive 1 second, .accept none, .next,
    .epollWait [.client 5], .next, .read 10, .read 8192, .read 8192, .next]

theorem twoSessions_complete :
    let machine := run step .init (twoSessions [71, 69] upgradeRequest)
    machine.1.client 5 = some 1 ∧
      actionsOn 1 machine.2.flatten = outputs handleRead (some .fresh) [upgradeRequest] :=
  ⟨by decide +kernel,
    (idle_complete (twoSessions [71, 69] upgradeRequest) (by decide +kernel) 1).1.trans
      (congrArg (fun bytes => outputs handleRead (some .fresh) [bytes]) (by decide +kernel))⟩

end TradePlat.TCPServer
