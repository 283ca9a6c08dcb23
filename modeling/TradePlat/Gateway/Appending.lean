import TradePlat.Gateway.Frames

/-!
# The payload stream of a connection (`TCPServer.cpp`)

The buffer `payload` is compacted, so what was appended to it is not in the state.
`readAppends` is what one read appends, by the branches of `handleClientData`; the
orders of a connection are the records of the joined appends, and what the connection
holds of an order is their remainder (`appends_orders`). Over all reads the appends are
those of the joined bytes, however they are cut (`appends_parse`).
-/

namespace TradePlat.Gateway
open Runs Incremental

/-! ## What a read appends -/

/-- What an iteration of the frame loop appends to `payload`. -/
def appendedOf (opcode : UInt8) (payload : Bytes) : Bytes :=
  if opcode = 2 ∨ opcode = 0 then payload else []

/-- What the frame loop appends to `payload`. -/
def loopAppends : Nat → RingBuffer → Bytes
  | 0, _ => []
  | fuel + 1, rb =>
    match parseFrame (rb.data.drop rb.readPtr) with
    | .incomplete | .close _ => []
    | .frame opcode payload consumed =>
      appendedOf opcode payload ++ loopAppends fuel (acceptFrame rb opcode payload consumed).1

/-- What `handleClientData` appends to `payload` behind the insertion of the new bytes. -/
def dataAppends (rb : RingBuffer) : Bytes :=
  if rb.websocketReady then loopAppends (rb.data.length + 1) rb
  else match headerEnd rb.data with
    | none => []
    | some pos =>
      if headerValue (rb.data.take (pos + 4)) (ascii "Sec-WebSocket-Key") = [] then []
      else
        let opened :=
          { rb with data := rb.data.drop (pos + 4), readPtr := 0, websocketReady := true }
        loopAppends (opened.data.length + 1) opened

def readAppends : Option RingBuffer → Bytes → Bytes
  | none, _ => []
  | some rb, bytes => dataAppends { rb with data := rb.data ++ bytes }

/-- A read, with what it appends for its output. -/
def appendRead (rb : Option RingBuffer) (bytes : Bytes) : Option RingBuffer × Bytes :=
  ((handleRead rb bytes).1, readAppends rb bytes)

/-! ## The parser -/

def appendStep (ready : Bool) (buf : Bytes) : Step Bool UInt8 :=
  if ready then
    match parseFrame buf with
    | .incomplete => .wait
    | .close _ => .stop []
    | .frame opcode payload consumed => .next true consumed (appendedOf opcode payload)
  else
    match headerEnd buf with
    | none => .wait
    | some pos =>
      if headerValue (buf.take (pos + 4)) (ascii "Sec-WebSocket-Key") = [] then .stop []
      else .next true (pos + 4) []

/-- One handshake or one frame of the gateway, and what it appends. -/
inductive Lockstep (mode : Mode) (buf : Bytes) : Prop where
  | wait : gatewayStep mode buf = .wait → appendStep mode.websocketReady buf = .wait →
      Lockstep mode buf
  | stop : gatewayStep mode buf = .stop [.close] → appendStep mode.websocketReady buf = .stop [] →
      Lockstep mode buf
  | handshake (n : Nat) (response : Bytes) :
      gatewayStep mode buf = .next ⟨true, mode.partialMessage⟩ n [.respond response] →
      appendStep mode.websocketReady buf = .next true n [] → Lockstep mode buf
  | frame (n : Nat) (bytes : Bytes) :
      gatewayStep mode buf = .next ⟨true, remainderOf (mode.partialMessage ++ bytes)⟩ n
        (enqueued (mode.partialMessage ++ bytes)) →
      appendStep mode.websocketReady buf = .next true n bytes → Lockstep mode buf

theorem lockstep {mode : Mode} (hshort : mode.partialMessage.length < msgSize) (buf : Bytes) :
    Lockstep mode buf := by
  cases hready : mode.websocketReady with
  | true =>
    have hgateway := gatewayStep_ready hready buf
    cases hf : parseFrame buf with
    | incomplete =>
      exact .wait (by rw [hgateway, hf]) (by rw [hready, appendStep, if_pos rfl, hf])
    | close n =>
      exact .stop (by rw [hgateway, hf]) (by rw [hready, appendStep, if_pos rfl, hf])
    | frame opcode payload n =>
      refine .frame n (appendedOf opcode payload) ?_ (by rw [hready, appendStep, if_pos rfl, hf])
      rw [hgateway, hf]
      dsimp only
      unfold appendedOf
      by_cases hop : opcode = 2 ∨ opcode = 0
      · rw [if_pos hop, if_pos hop]
      · obtain ⟨hrecords, hremainder⟩ := recordsOf_short hshort
        obtain ⟨ready, part⟩ := mode
        obtain rfl : ready = true := hready
        rw [if_neg hop, if_neg hop, List.append_nil, enqueued, hrecords, hremainder]
        rfl
  | false =>
    cases hpos : headerEnd buf with
    | none =>
      refine .wait ?_ ?_
      · simp [gatewayStep, hready, hpos]
      · simp [appendStep, hready, hpos]
    | some pos =>
      have hgateway := gatewayStep_handshake hready hpos
      have happend : appendStep mode.websocketReady buf =
          if headerValue (buf.take (pos + 4)) (ascii "Sec-WebSocket-Key") = [] then .stop []
          else .next true (pos + 4) [] := by
        simp [appendStep, hready, hpos]
      by_cases hkey : headerValue (buf.take (pos + 4)) (ascii "Sec-WebSocket-Key") = []
      · rw [if_pos hkey] at hgateway happend
        exact .stop hgateway happend
      · rw [if_neg hkey] at hgateway happend
        exact .handshake _ _ hgateway happend

def appending : Parser Bool UInt8 UInt8 where
  step := appendStep
  within {ready buf ready' n out} h := by
    have hstep : Lockstep ⟨ready, []⟩ buf := lockstep (show ([] : Bytes).length < 32 by decide) buf
    cases hstep with
    | wait _ happend => cases happend.symm.trans h
    | stop _ happend => cases happend.symm.trans h
    | handshake _ _ hgateway happend =>
      cases happend.symm.trans h
      exact gateway.within hgateway
    | frame _ _ hgateway happend =>
      cases happend.symm.trans h
      exact gateway.within hgateway
  stable {ready buf} h more := by
    cases ready with
    | true =>
      simp only [appendStep, if_pos] at h ⊢
      rw [parseFrame_append]
      intro hf
      simp [hf] at h
    | false =>
      cases hpos : headerEnd buf with
      | none => simp [appendStep, hpos] at h
      | some pos =>
        obtain ⟨hlen, happ⟩ := headerEnd_append hpos more
        simp only [appendStep, hpos, happ, List.take_append_of_le_length hlen]
        rfl

theorem appending_step (ready : Bool) (buf : Bytes) :
    appending.step ready buf = appendStep ready buf := rfl

/-! ## The orders of the appended bytes -/

/-- The orders among the actions. -/
def ordersOf (out : List Action) : List Action :=
  out.filter fun
    | .enqueueOrder _ => true
    | _ => false

theorem ordersOf_append (out more : List Action) :
    ordersOf (out ++ more) = ordersOf out ++ ordersOf more := List.filter_append ..

theorem ordersOf_enqueued (payload : Bytes) : ordersOf (enqueued payload) = enqueued payload := by
  refine List.filter_eq_self.mpr fun action hmem => ?_
  obtain ⟨r, -, rfl⟩ := List.mem_map.mp hmem
  rfl

/-- **The orders are the records of what is appended.** -/
theorem parses_appends {mode : Mode} {buf : Bytes} {out : List Action}
    {r : Option (Mode × Bytes)} (h : Parses gateway mode buf out r)
    (hshort : mode.partialMessage.length < msgSize) :
    ∃ bytes, Parses appending mode.websocketReady buf bytes
        (r.map fun rest => (rest.1.websocketReady, rest.2)) ∧
      ordersOf out = enqueued (mode.partialMessage ++ bytes) ∧
      ∀ rest ∈ r, rest.1.partialMessage = remainderOf (mode.partialMessage ++ bytes) := by
  induction h with
  | wait hw =>
    rename_i mode buf
    obtain ⟨hrecords, hremainder⟩ := recordsOf_short hshort
    cases lockstep hshort buf with
    | wait _ happend =>
      refine ⟨[], .wait happend, ?_, ?_⟩
      · rw [List.append_nil, enqueued, hrecords]
        rfl
      · rintro _ ⟨⟩
        rw [List.append_nil, hremainder]
    | stop hgateway _ => cases hgateway.symm.trans hw
    | handshake _ _ hgateway _ => cases hgateway.symm.trans hw
    | frame _ _ hgateway _ => cases hgateway.symm.trans hw
  | stop hs =>
    rename_i mode buf out
    obtain ⟨hrecords, -⟩ := recordsOf_short hshort
    cases lockstep hshort buf with
    | stop hgateway happend =>
      cases hgateway.symm.trans hs
      refine ⟨[], .stop happend, ?_, by simp⟩
      rw [List.append_nil, enqueued, hrecords]
      rfl
    | wait hgateway _ => cases hgateway.symm.trans hs
    | handshake _ _ hgateway _ => cases hgateway.symm.trans hs
    | frame _ _ hgateway _ => cases hgateway.symm.trans hs
  | next hn _ ih =>
    rename_i mode mode' buf n out out' r _
    cases lockstep hshort buf with
    | wait hgateway _ => cases hgateway.symm.trans hn
    | stop hgateway _ => cases hgateway.symm.trans hn
    | handshake n response hgateway happend =>
      cases hgateway.symm.trans hn
      obtain ⟨bytes, hparse, horders, hheld⟩ := ih hshort
      refine ⟨bytes, .next happend hparse, ?_, hheld⟩
      rw [ordersOf_append, horders]
      rfl
    | frame n bytes hgateway happend =>
      cases hgateway.symm.trans hn
      obtain ⟨more, hparse, horders, hheld⟩ := ih (recordsOf_flatten _).2.2
      refine ⟨bytes ++ more, .next happend hparse, ?_, ?_⟩
      · rw [ordersOf_append, ordersOf_enqueued, horders, ← List.append_assoc,
          enqueued_append (mode.partialMessage ++ bytes) more]
      · intro rest hrest
        rw [hheld rest hrest, ← List.append_assoc,
          (recordsOf_append (mode.partialMessage ++ bytes) more).2]

/-! ## The appends parse -/

theorem loopAppends_parses (fuel : Nat) {rb : RingBuffer} (hv : rb.Valid)
    (hready : rb.websocketReady = true) (hfuel : rb.data.length - rb.readPtr < fuel) :
    ∃ r, Parses appending true rb.view.2 (loopAppends fuel rb) r := by
  induction fuel generalizing rb with
  | zero => omega
  | succ fuel ih =>
    have hview : rb.data.drop rb.readPtr = rb.view.2 := rfl
    unfold loopAppends
    rw [hview]
    cases hf : parseFrame rb.view.2 with
    | incomplete => exact ⟨_, .wait (by rw [appending_step, appendStep, if_pos rfl, hf])⟩
    | close consumed => exact ⟨_, .stop (by rw [appending_step, appendStep, if_pos rfl, hf])⟩
    | frame opcode payload consumed =>
      obtain ⟨-, hrest, hv', hready', hless⟩ := acceptFrame_step hv hready hf
      obtain ⟨r, hparse⟩ := ih hv' hready' (by omega)
      rw [hrest] at hparse
      exact ⟨r, .next (by rw [appending_step, appendStep, if_pos rfl, hf]) hparse⟩

theorem dataAppends_parses {rb : RingBuffer} (hv : rb.Valid) :
    ∃ r, Parses appending rb.websocketReady rb.view.2 (dataAppends rb) r := by
  unfold dataAppends
  cases hready : rb.websocketReady with
  | true =>
    rw [if_pos rfl]
    exact loopAppends_parses _ hv hready (by omega)
  | false =>
    have hunread : rb.view.2 = rb.data := by
      rw [RingBuffer.view, hv.unread hready, List.drop_zero]
    rw [if_neg (by simp), hunread]
    cases hpos : headerEnd rb.data with
    | none => exact ⟨_, .wait (by simp [appending_step, appendStep, hpos])⟩
    | some pos =>
      dsimp only
      by_cases hkey : headerValue (rb.data.take (pos + 4)) (ascii "Sec-WebSocket-Key") = []
      · rw [if_pos hkey]
        exact ⟨_, .stop (by simp [appending_step, appendStep, hpos, hkey])⟩
      · rw [if_neg hkey]
        have hopen := hv.opened (rb.data.drop (pos + 4))
        obtain ⟨r, hparse⟩ :=
          loopAppends_parses ((rb.data.drop (pos + 4)).length + 1) hopen rfl (by simp)
        have hstep : appending.step false rb.data = .next true (pos + 4) [] := by
          simp [appending_step, appendStep, hpos, hkey]
        simp only [RingBuffer.view, List.drop_zero] at hparse
        have hall := Parses.next hstep hparse
        exact ⟨r, hall⟩

/-- The state of the parser and the unread bytes. -/
def RingBuffer.unread (rb : RingBuffer) : Bool × Bytes := (rb.websocketReady, rb.view.2)

/-- What holds of a connection between two reads. -/
def RingBuffer.Kept (rb : RingBuffer) : Prop :=
  rb.Valid ∧ rb.view.1.partialMessage.length < msgSize

theorem RingBuffer.kept_fresh : RingBuffer.fresh.Kept := ⟨valid_fresh, by decide⟩

/-- A read appends what the parser finds in the unread bytes and the new ones. -/
theorem appendRead_parses {rb : RingBuffer} (hk : rb.Kept) (bytes : Bytes) :
    Parses appending rb.unread.1 (rb.unread.2 ++ bytes) (appendRead (some rb) bytes).2
        ((appendRead (some rb) bytes).1.map RingBuffer.unread) ∧
      ∀ rb' ∈ (appendRead (some rb) bytes).1, rb'.Kept := by
  obtain ⟨hv, hshort⟩ := hk
  obtain ⟨hparse, hvalid⟩ := handleRead_parses hv bytes
  obtain ⟨appends, happends, -, -⟩ := parses_appends hparse hshort
  have hview : rb.view.2 ++ bytes = (rb.data ++ bytes).drop rb.readPtr :=
    (List.drop_append_of_le_length hv.data).symm
  obtain ⟨r, hread⟩ := dataAppends_parses (hv.insert bytes)
  change Parses appending rb.websocketReady ((rb.data ++ bytes).drop rb.readPtr) _ r at hread
  rw [← hview] at hread
  obtain ⟨hbytes, hr⟩ := hread.deterministic happends
  rw [hr, Option.map_map] at hread
  refine ⟨hread, fun rb' hrb' => ⟨hvalid rb' hrb', ?_⟩⟩
  rw [show (handleRead (some rb) bytes).1 = some rb' from hrb'] at hparse
  exact partialMessage_short hparse hshort

/-- **The appends of a connection** are those of the joined reads. -/
theorem appends_parse (chunks : List Bytes) :
    Parses appending false chunks.flatten (outputs appendRead (some .fresh) chunks)
      ((run appendRead (some .fresh) chunks).1.map RingBuffer.unread) := by
  have hwait : appending.step RingBuffer.fresh.unread.1 RingBuffer.fresh.unread.2 = .wait := rfl
  have hstopped : ∀ chunk, appendRead none chunk = (none, []) := fun _ => rfl
  have hparse := chunks_parse hstopped (fun _ bytes hk => appendRead_parses hk bytes) chunks
    RingBuffer.kept_fresh hwait
  exact hparse

/-- **The orders of a connection** are the records of what was appended, and it holds
the remainder. -/
theorem appends_orders (chunks : List Bytes) :
    ordersOf (outputs handleRead (some .fresh) chunks) =
        enqueued (outputs appendRead (some .fresh) chunks) ∧
      ∀ rb ∈ (run handleRead (some .fresh) chunks).1, rb.payload.drop rb.payloadReadPtr =
        remainderOf (outputs appendRead (some .fresh) chunks) := by
  have hparse := reads_parse RingBuffer.valid_fresh rfl chunks
  obtain ⟨bytes, happends, horders, hheld⟩ := parses_appends hparse (by decide)
  obtain ⟨rfl, -⟩ := (appends_parse chunks).deterministic happends
  refine ⟨horders, fun rb hrb => ?_⟩
  exact hheld rb.view (Option.mem_map_of_mem _ hrb)

end TradePlat.Gateway
