import Mathlib.Tactic.Linarith
import TradePlat.Lib.Incremental
import TradePlat.Gateway.Connection

/-!
# TCP segmentation

The gateway is an incremental parser: its state is the mode and the payload bytes
that do not make a message yet, its buffer the unread bytes. `handleRead` parses
what the connection holds and the new bytes (`handleRead_parses`), where the two
read cursors and their compaction do not show. So the bytes of a connection are
parsed in the same way however TCP cuts them (`segmentation_independent`).
-/

namespace TradePlat.Gateway
open Runs Incremental

/-! ## Records of a payload -/

/-- The full messages at the front of a payload, as bytes. -/
def recordsOf (payload : Bytes) : List Bytes :=
  (List.range (payload.length / msgSize)).map fun i =>
    (payload.drop (i * msgSize)).take msgSize

/-- What is left of a payload behind its full messages. -/
def remainderOf (payload : Bytes) : Bytes :=
  payload.drop (payload.length / msgSize * msgSize)

theorem recordsOf_short {payload : Bytes} (h : payload.length < msgSize) :
    recordsOf payload = [] ∧ remainderOf payload = payload := by
  have hdiv : payload.length / msgSize = 0 := Nat.div_eq_of_lt h
  simp [recordsOf, remainderOf, hdiv]

theorem recordsOf_long {payload : Bytes} (h : msgSize ≤ payload.length) :
    recordsOf payload = payload.take msgSize :: recordsOf (payload.drop msgSize) ∧
      remainderOf payload = remainderOf (payload.drop msgSize) := by
  have hdiv : payload.length / msgSize = (payload.drop msgSize).length / msgSize + 1 := by
    rw [List.length_drop]
    unfold msgSize at *
    omega
  constructor
  · unfold recordsOf
    rw [hdiv, List.range_succ_eq_map, List.map_cons, List.map_map]
    simp only [Nat.zero_mul, List.drop_zero, List.cons.injEq, true_and]
    apply List.map_congr_left
    intro i _
    simp only [Function.comp_apply, List.drop_drop]
    rw [Nat.succ_mul, Nat.add_comm]
  · unfold remainderOf
    rw [hdiv, List.drop_drop, Nat.succ_mul, Nat.add_comm]

theorem records_of_orders {orders : List Bytes} (h : ∀ order ∈ orders, order.length = msgSize) :
    recordsOf orders.flatten = orders := by
  induction orders with
  | nil => exact (recordsOf_short (by decide)).1
  | cons order orders ih =>
    have hlen := h order List.mem_cons_self
    have hlong : msgSize ≤ (order ++ orders.flatten).length := by
      rw [List.length_append]
      omega
    rw [List.flatten_cons, (recordsOf_long hlong).1, List.take_left' hlen, List.drop_left' hlen,
      ih fun o ho => h o (List.mem_cons_of_mem _ ho)]

/-- The loop of `process_payload_orders` cuts the unread payload into its records. -/
theorem cutMessages_eq (payload : Bytes) (fuel ptr : Nat) (h : payload.length - ptr < fuel) :
    cutMessages payload fuel ptr =
      ((recordsOf (payload.drop ptr)).map OrderMessage.decode,
        ptr + (payload.length - ptr) / msgSize * msgSize) := by
  induction fuel generalizing ptr with
  | zero => omega
  | succ fuel ih =>
    unfold cutMessages
    by_cases hshort : payload.length - ptr < msgSize
    · have hlen : (payload.drop ptr).length < msgSize := by rwa [List.length_drop]
      rw [if_pos hshort, (recordsOf_short hlen).1, Nat.div_eq_of_lt hshort]
      simp
    · have hlen : msgSize ≤ (payload.drop ptr).length := by
        rw [List.length_drop]
        omega
      have hsize : msgSize = 32 := rfl
      rw [if_neg hshort, ih (ptr + msgSize) (by omega), (recordsOf_long hlen).1, List.drop_drop]
      simp only [List.map_cons, Prod.mk.injEq, true_and]
      rw [hsize] at hshort ⊢
      omega

/-! ## Stability -/

theorem getD_append {l : Bytes} {i : Nat} (h : i < l.length) (more : Bytes) :
    (l ++ more).getD i 0 = l.getD i 0 := by
  simp [List.getD, List.getElem?_append_left h]

theorem headerEnd_append {buf : Bytes} {pos : Nat} (h : headerEnd buf = some pos) (more : Bytes) :
    pos + 4 ≤ buf.length ∧ headerEnd (buf ++ more) = some pos := by
  induction buf generalizing pos with
  | nil => cases h
  | cons c rest ih =>
    unfold headerEnd at h
    rw [List.cons_append]
    unfold headerEnd
    split at h
    · rename_i hp
      obtain ⟨t, ht⟩ := List.isPrefixOf_iff_prefix.mp hp
      have hp' : [13, 10, 13, 10].isPrefixOf (c :: (rest ++ more)) = true :=
        List.isPrefixOf_iff_prefix.mpr ⟨t ++ more, by rw [← List.append_assoc, ht]; rfl⟩
      have hlen := congrArg List.length ht
      simp only [List.length_append, List.length_cons, List.length_nil] at hlen
      cases h
      refine ⟨?_, if_pos hp'⟩
      simp only [List.length_cons]
      omega
    · rename_i hp
      obtain ⟨pos', hpos', rfl⟩ := Option.map_eq_some_iff.mp h
      obtain ⟨hlen, happ⟩ := ih hpos'
      have hp' : ¬ [13, 10, 13, 10].isPrefixOf (c :: (rest ++ more)) = true := by
        intro hp'
        apply hp
        rw [List.isPrefixOf_iff_prefix] at hp' ⊢
        refine List.prefix_of_prefix_length_le hp' ⟨more, rfl⟩ ?_
        simp only [List.length_cons, List.length_nil]
        omega
      rw [if_neg hp', happ]
      exact ⟨by simp only [List.length_cons]; omega, rfl⟩

theorem frameLength_append {base : Bytes} {r : Nat × Nat} (h2 : 2 ≤ base.length)
    (h : frameLength base = some r) (more : Bytes) :
    frameLength (base ++ more) = some r ∧ 2 ≤ r.2 ∧ r.2 ≤ base.length := by
  unfold frameLength at h ⊢
  dsimp only at h ⊢
  rw [getD_append (by omega)]
  split at h
  · rename_i hlen
    split at h
    · cases h
    · cases h
      rw [if_pos hlen, if_neg (by simp; omega), getD_append (by omega), getD_append (by omega)]
      exact ⟨rfl, by omega, by omega⟩
  · rename_i hlen
    split at h
    · rename_i hlen'
      split at h
      · cases h
      · cases h
        rw [if_neg hlen, if_pos hlen', if_neg (by simp; omega),
          List.drop_append_of_le_length (by omega),
          List.take_append_of_le_length (by rw [List.length_drop]; omega)]
        exact ⟨rfl, by omega, by omega⟩
    · rename_i hlen'
      cases h
      rw [if_neg hlen, if_neg hlen']
      exact ⟨rfl, by omega, by omega⟩

theorem unmask_congr {mask mask' : Nat → UInt8} (h : ∀ i < 4, mask i = mask' i) (payload : Bytes) :
    unmask mask payload = unmask mask' payload := by
  unfold unmask
  congr 1
  funext i c
  rw [h _ (Nat.mod_lt i (by decide))]

/-- A frame that does not wait for input is the same with more input behind it. -/
theorem parseFrame_append {base : Bytes} (h : parseFrame base ≠ .incomplete) (more : Bytes) :
    parseFrame (base ++ more) = parseFrame base := by
  unfold parseFrame at h ⊢
  by_cases h2 : base.length < 2
  · simp [h2] at h
  rw [if_neg h2] at h ⊢
  rw [if_neg (by simp; omega)]
  cases hlen : frameLength base with
  | none => simp [hlen] at h
  | some r =>
    obtain ⟨payloadLen, headerLen⟩ := r
    obtain ⟨happ, hh, hle⟩ := frameLength_append (by omega) hlen more
    simp only [hlen] at h
    rw [happ]
    dsimp only at h hh hle ⊢
    rw [getD_append (by omega), getD_append (by omega)]
    by_cases hmask : base.getD 1 0 &&& 0x80 = 0
    · rw [if_pos hmask, if_pos hmask]
    rw [if_neg hmask] at h ⊢
    rw [if_neg hmask]
    by_cases hlong : payloadLen > 2 ^ 20
    · rw [if_pos hlong, if_pos hlong]
    rw [if_neg hlong] at h ⊢
    rw [if_neg hlong]
    by_cases hall : base.length < headerLen + 4 + payloadLen
    · rw [if_pos hall] at h
      exact absurd rfl h
    rw [if_neg hall, if_neg (by simp; omega)]
    split
    · rfl
    · congr 1
      rw [List.drop_append_of_le_length (by omega),
        List.take_append_of_le_length (by rw [List.length_drop]; omega)]
      exact unmask_congr (fun i hi => getD_append (by omega) more) _

/-- The header is there, in at most ten bytes; a length field that is not there yet is
missing from fewer than ten. -/
theorem frameLength_cases {base : Bytes} (h2 : 2 ≤ base.length) :
    (frameLength base = none ∧ base.length < 10) ∨
      ∃ payloadLen headerLen, frameLength base = some (payloadLen, headerLen) ∧
        2 ≤ headerLen ∧ headerLen ≤ 10 ∧ headerLen ≤ base.length := by
  unfold frameLength
  dsimp only
  split
  · split
    · exact Or.inl ⟨rfl, by omega⟩
    · exact Or.inr ⟨_, _, rfl, by omega, by omega, by omega⟩
  · split
    · split
      · exact Or.inl ⟨rfl, by omega⟩
      · exact Or.inr ⟨_, _, rfl, by omega, by omega, by omega⟩
    · exact Or.inr ⟨_, _, rfl, by omega, by omega, h2⟩

/-- What a frame takes off `size` bytes is there. One that waits for more has few: its
length is checked before its payload is waited for. -/
def Frame.Within (size : Nat) : Frame → Prop
  | .incomplete => size < 2 ^ 20 + 14
  | .close consumed => consumed ≤ size
  | .frame _ _ consumed => 2 ≤ consumed ∧ consumed ≤ size

theorem parseFrame_spec (base : Bytes) : (parseFrame base).Within base.length := by
  unfold parseFrame
  split
  · rename_i hshort
    show base.length < 2 ^ 20 + 14
    omega
  rename_i hshort
  have h2 : 2 ≤ base.length := by omega
  rcases frameLength_cases h2 with
    ⟨hlen, hshort⟩ | ⟨payloadLen, headerLen, hlen, hpos, hten, -⟩
  · rw [hlen]
    show base.length < 2 ^ 20 + 14
    omega
  rw [hlen]
  dsimp only
  split
  · exact Nat.zero_le _
  split
  · exact Nat.zero_le _
  split
  · show base.length < 2 ^ 20 + 14
    omega
  rename_i hall
  have hwithin : headerLen + 4 + payloadLen ≤ base.length := by omega
  split
  · exact hwithin
  · exact ⟨by omega, hwithin⟩

theorem parseFrame_within {base : Bytes} {opcode : UInt8} {payload : Bytes} {consumed : Nat}
    (h : parseFrame base = .frame opcode payload consumed) :
    2 ≤ consumed ∧ consumed ≤ base.length := by
  have hspec := parseFrame_spec base
  rwa [h] at hspec

theorem parseFrame_close_within {base : Bytes} {consumed : Nat}
    (h : parseFrame base = .close consumed) : consumed ≤ base.length := by
  have hspec := parseFrame_spec base
  rwa [h] at hspec

theorem parseFrame_incomplete_short {base : Bytes} (h : parseFrame base = .incomplete) :
    base.length < 2 ^ 20 + 14 := by
  have hspec := parseFrame_spec base
  rwa [h] at hspec

/-! ## The gateway as a parser -/

/-- The mode of a connection and the payload bytes that do not make a message yet. -/
structure Mode where
  websocketReady : Bool
  partialMessage : Bytes
  deriving DecidableEq, Repr

def enqueued (payload : Bytes) : List Action :=
  (recordsOf payload).map fun r => .enqueueOrder (.decode r)

/-- One handshake or one frame. -/
def gatewayStep (mode : Mode) (buf : Bytes) : Step Mode Action :=
  if mode.websocketReady then
    match parseFrame buf with
    | .incomplete => .wait
    | .close _ => .stop [.close]
    | .frame opcode payload consumed =>
      if opcode = 2 ∨ opcode = 0 then
        .next ⟨true, remainderOf (mode.partialMessage ++ payload)⟩ consumed
          (enqueued (mode.partialMessage ++ payload))
      else .next mode consumed []
  else
    match headerEnd buf with
    | none => .wait
    | some pos =>
      let key := headerValue (buf.take (pos + 4)) (ascii "Sec-WebSocket-Key")
      if key = [] then .stop [.close]
      else .next ⟨true, mode.partialMessage⟩ (pos + 4) [.respond (handshakeResponse key)]

theorem gatewayStep_ready {mode : Mode} (h : mode.websocketReady = true) (buf : Bytes) :
    gatewayStep mode buf =
      match parseFrame buf with
      | .incomplete => .wait
      | .close _ => .stop [.close]
      | .frame opcode payload consumed =>
        if opcode = 2 ∨ opcode = 0 then
          .next ⟨true, remainderOf (mode.partialMessage ++ payload)⟩ consumed
            (enqueued (mode.partialMessage ++ payload))
        else .next mode consumed [] := if_pos h

theorem gatewayStep_handshake {mode : Mode} (h : mode.websocketReady = false) {buf : Bytes}
    {pos : Nat} (hpos : headerEnd buf = some pos) :
    gatewayStep mode buf =
      if headerValue (buf.take (pos + 4)) (ascii "Sec-WebSocket-Key") = [] then .stop [.close]
      else .next ⟨true, mode.partialMessage⟩ (pos + 4)
        [.respond (handshakeResponse
          (headerValue (buf.take (pos + 4)) (ascii "Sec-WebSocket-Key")))] := by
  unfold gatewayStep
  rw [h, hpos]
  rfl

def gateway : Parser Mode UInt8 Action where
  step := gatewayStep
  within {mode buf mode' n out} h := by
    cases hready : mode.websocketReady with
    | true =>
      rw [gatewayStep_ready hready] at h
      cases hf : parseFrame buf with
      | incomplete => simp [hf] at h
      | close _ => simp [hf] at h
      | frame opcode payload consumed =>
        have hn := (parseFrame_within hf).2
        simp only [hf] at h
        split at h <;> cases h <;> exact hn
    | false =>
      cases hpos : headerEnd buf with
      | none => simp [gatewayStep, hready, hpos] at h
      | some pos =>
        rw [gatewayStep_handshake hready hpos] at h
        split at h
        · cases h
        · cases h
          exact (headerEnd_append hpos []).1
  stable {mode buf} h more := by
    cases hready : mode.websocketReady with
    | true =>
      rw [gatewayStep_ready hready] at h ⊢
      rw [gatewayStep_ready hready, parseFrame_append]
      intro hf
      simp [hf] at h
    | false =>
      cases hpos : headerEnd buf with
      | none => simp [gatewayStep, hready, hpos] at h
      | some pos =>
        obtain ⟨hlen, happ⟩ := headerEnd_append hpos more
        rw [gatewayStep_handshake hready hpos, gatewayStep_handshake hready happ,
          List.take_append_of_le_length hlen]

theorem gateway_step (mode : Mode) (buf : Bytes) :
    gateway.step mode buf = gatewayStep mode buf := rfl

/-! ## The code parses -/

/-- The cursors are inside their buffers, and nothing is read before the handshake. -/
structure RingBuffer.Valid (rb : RingBuffer) : Prop where
  data : rb.readPtr ≤ rb.data.length
  payload : rb.payloadReadPtr ≤ rb.payload.length
  unread : rb.websocketReady = false → rb.readPtr = 0

theorem RingBuffer.valid_fresh : RingBuffer.fresh.Valid :=
  ⟨Nat.le_refl _, Nat.le_refl _, fun _ => rfl⟩

/-- `data.insert(data.end(), …)`. -/
theorem RingBuffer.Valid.insert {rb : RingBuffer} (hv : rb.Valid) (bytes : Bytes) :
    RingBuffer.Valid { rb with data := rb.data ++ bytes } := by
  have hle : rb.readPtr ≤ (rb.data ++ bytes).length := by
    rw [List.length_append]
    exact Nat.le_add_right_of_le hv.data
  exact ⟨hle, hv.payload, hv.unread⟩

/-- `payload.resize(…)`, with the payload of a frame in the new bytes. -/
theorem RingBuffer.Valid.resize {rb : RingBuffer} (hv : rb.Valid) (payload : Bytes) :
    RingBuffer.Valid { rb with payload := rb.payload ++ payload } := by
  have hle : rb.payloadReadPtr ≤ (rb.payload ++ payload).length := by
    rw [List.length_append]
    exact Nat.le_add_right_of_le hv.payload
  exact ⟨hv.data, hle, hv.unread⟩

/-- The connection behind the handshake. -/
theorem RingBuffer.Valid.opened {rb : RingBuffer} (hv : rb.Valid) (data : Bytes) :
    RingBuffer.Valid { rb with data := data, readPtr := 0, websocketReady := true } :=
  ⟨Nat.zero_le _, hv.payload, fun _ => rfl⟩

def RingBuffer.view (rb : RingBuffer) : Mode × Bytes :=
  (⟨rb.websocketReady, rb.payload.drop rb.payloadReadPtr⟩, rb.data.drop rb.readPtr)

/-- `process_payload_orders` cuts the unread payload; only the payload and its
cursor change. -/
theorem processPayloadOrders_spec {rb : RingBuffer} (hv : rb.Valid) :
    (processPayloadOrders rb).1.Valid ∧
      (processPayloadOrders rb).1.data = rb.data ∧
      (processPayloadOrders rb).1.readPtr = rb.readPtr ∧
      (processPayloadOrders rb).1.websocketReady = rb.websocketReady ∧
      (processPayloadOrders rb).1.payload.drop (processPayloadOrders rb).1.payloadReadPtr =
        remainderOf (rb.payload.drop rb.payloadReadPtr) ∧
      (processPayloadOrders rb).2.map .enqueueOrder =
        enqueued (rb.payload.drop rb.payloadReadPtr) := by
  have hcut := cutMessages_eq rb.payload (rb.payload.length + 1) rb.payloadReadPtr (by omega)
  have hsize : msgSize = 32 := rfl
  have hend : rb.payloadReadPtr +
      (rb.payload.length - rb.payloadReadPtr) / msgSize * msgSize ≤ rb.payload.length := by
    have := hv.payload
    rw [hsize]
    omega
  have hdrop : rb.payload.drop (rb.payloadReadPtr +
      (rb.payload.length - rb.payloadReadPtr) / msgSize * msgSize) =
        remainderOf (rb.payload.drop rb.payloadReadPtr) := by
    rw [remainderOf, List.length_drop, List.drop_drop]
  have hdata := hv.data
  unfold processPayloadOrders
  rw [hcut]
  dsimp only
  split
  · exact ⟨⟨hdata, Nat.zero_le _, hv.unread⟩, rfl, rfl, rfl, by rw [List.drop_zero, hdrop],
      by rw [enqueued, List.map_map]; rfl⟩
  · exact ⟨⟨hdata, hend, hv.unread⟩, rfl, rfl, rfl, hdrop, by rw [enqueued, List.map_map]; rfl⟩

/-- A frame that is accepted is one step of the parser. -/
theorem acceptFrame_step {rb : RingBuffer} (hv : rb.Valid) (hready : rb.websocketReady = true)
    {opcode : UInt8} {payload : Bytes} {consumed : Nat}
    (hf : parseFrame rb.view.2 = .frame opcode payload consumed) :
    let accepted := acceptFrame rb opcode payload consumed
    gatewayStep rb.view.1 rb.view.2 =
        .next accepted.1.view.1 consumed (accepted.2.map .enqueueOrder) ∧
      accepted.1.view.2 = rb.view.2.drop consumed ∧
      accepted.1.Valid ∧ accepted.1.websocketReady = true ∧
      accepted.1.data.length - accepted.1.readPtr < rb.data.length - rb.readPtr := by
  obtain ⟨hpos, hle⟩ := parseFrame_within hf
  have hlen : rb.view.2.length = rb.data.length - rb.readPtr := List.length_drop ..
  have hdata := hv.data
  rw [gatewayStep_ready hready, hf]
  unfold acceptFrame
  by_cases hop : opcode = 2 ∨ opcode = 0
  · obtain ⟨hpv, hpdata, hpptr, hpready, hpleft, hpout⟩ :=
      processPayloadOrders_spec (hv.resize payload)
    have hleft : (rb.payload ++ payload).drop rb.payloadReadPtr =
        rb.view.1.partialMessage ++ payload :=
      List.drop_append_of_le_length hv.payload
    simp only [if_pos hop]
    generalize hp : processPayloadOrders { rb with payload := rb.payload ++ payload } = processed
      at *
    obtain ⟨rb', messages⟩ := processed
    dsimp only at hpdata hpptr hpready hpleft hpout hpv ⊢
    rw [hleft] at hpleft hpout
    have hready' : rb'.websocketReady = true := hpready.trans hready
    refine ⟨?_, ?_, ⟨?_, hpv.payload, fun h => by simp [hready'] at h⟩, hready', ?_⟩
    · rw [hpout, ← hpleft]
      simp only [RingBuffer.view, hready']
    · simp only [RingBuffer.view, hpdata, hpptr, List.drop_drop]
    · simp only [hpdata, hpptr]
      omega
    · simp only [hpdata, hpptr]
      omega
  · simp only [if_neg hop]
    exact ⟨rfl, by simp only [RingBuffer.view, List.drop_drop],
      ⟨by dsimp only; omega, hv.payload, fun h => by simp [hready] at h⟩, hready, by omega⟩

/-- The action of a close. -/
def closing (close : Bool) : List Action := if close then [.close] else []

/-- **The frame loop parses the unread bytes.** -/
theorem frameLoop_parses (fuel : Nat) {rb : RingBuffer} (hv : rb.Valid)
    (hready : rb.websocketReady = true) (hfuel : rb.data.length - rb.readPtr < fuel) :
    let looped := frameLoop fuel rb
    Parses gateway rb.view.1 rb.view.2 (looped.2.1 ++ closing looped.2.2)
        (if looped.2.2 then none else some looped.1.view) ∧
      (looped.2.2 = false → looped.1.Valid) := by
  induction fuel generalizing rb with
  | zero => omega
  | succ fuel ih =>
    have hstep := gatewayStep_ready (show rb.view.1.websocketReady = true from hready) rb.view.2
    have hview : rb.data.drop rb.readPtr = rb.view.2 := rfl
    unfold frameLoop
    rw [hview]
    cases hf : parseFrame rb.view.2 with
    | incomplete =>
      rw [hf] at hstep
      exact ⟨.wait hstep, fun _ => hv⟩
    | close consumed =>
      rw [hf] at hstep
      exact ⟨.stop hstep, fun h => by cases h⟩
    | frame opcode payload consumed =>
      obtain ⟨hnext, hrest, hv', hready', hless⟩ := acceptFrame_step hv hready hf
      obtain ⟨hparse, hvalid⟩ := ih hv' hready' (by omega)
      refine ⟨?_, hvalid⟩
      rw [List.append_assoc]
      rw [hrest] at hparse
      exact .next hnext hparse

theorem handleFrames_parses {rb : RingBuffer} (hv : rb.Valid) (hready : rb.websocketReady = true) :
    Parses gateway rb.view.1 rb.view.2 (handleFrames rb).2
        ((handleFrames rb).1.map RingBuffer.view) ∧
      ∀ rb' ∈ (handleFrames rb).1, rb'.Valid := by
  obtain ⟨hparse, hvalid⟩ := frameLoop_parses (rb.data.length + 1) hv hready (by omega)
  unfold handleFrames
  generalize frameLoop (rb.data.length + 1) rb = looped at *
  obtain ⟨rb', actions, close⟩ := looped
  cases close with
  | true => exact ⟨hparse, by simp⟩
  | false =>
    have hv' : rb'.Valid := hvalid rfl
    simp only [closing, Bool.false_eq_true, ↓reduceIte, List.append_nil] at hparse
    simp only [Bool.false_eq_true, ↓reduceIte, Option.map_some, Option.mem_def, Option.some.injEq,
      forall_eq']
    -- the compaction keeps what is unread
    split
    · exact ⟨by simpa [RingBuffer.view] using hparse,
        ⟨Nat.zero_le _, hv'.payload, fun _ => rfl⟩⟩
    · exact ⟨hparse, hv'⟩

theorem handleData_parses {rb : RingBuffer} (hv : rb.Valid) :
    Parses gateway rb.view.1 rb.view.2 (handleData rb).2
        ((handleData rb).1.map RingBuffer.view) ∧
      ∀ rb' ∈ (handleData rb).1, rb'.Valid := by
  unfold handleData
  cases hready : rb.websocketReady with
  | true =>
    rw [if_pos rfl]
    exact handleFrames_parses hv hready
  | false =>
    rw [if_neg (by simp)]
    have hunread : rb.view.2 = rb.data := by
      rw [RingBuffer.view, hv.unread hready, List.drop_zero]
    cases hpos : headerEnd rb.data with
    | none =>
      have hwait : gatewayStep rb.view.1 rb.view.2 = .wait := by
        rw [hunread]
        simp [gatewayStep, RingBuffer.view, hready, hpos]
      refine ⟨.wait hwait, ?_⟩
      rintro _ ⟨⟩
      exact hv
    | some pos =>
      have hstep := gatewayStep_handshake (show rb.view.1.websocketReady = false from hready)
        (hunread ▸ hpos : headerEnd rb.view.2 = some pos)
      rw [hunread] at hstep ⊢
      dsimp only
      by_cases hkey : headerValue (rb.data.take (pos + 4)) (ascii "Sec-WebSocket-Key") = []
      · rw [if_pos hkey] at hstep ⊢
        exact ⟨.stop hstep, by simp⟩
      · rw [if_neg hkey] at hstep ⊢
        have hopen := hv.opened (rb.data.drop (pos + 4))
        obtain ⟨hparse, hvalid⟩ := handleFrames_parses hopen rfl
        refine ⟨Parses.next (p := gateway) hstep ?_, hvalid⟩
        simpa only [RingBuffer.view, List.drop_zero] using hparse

/-- **A read parses the unread bytes and the new ones.** -/
theorem handleRead_parses {rb : RingBuffer} (hv : rb.Valid) (bytes : Bytes) :
    Parses gateway rb.view.1 (rb.view.2 ++ bytes) (handleRead (some rb) bytes).2
        ((handleRead (some rb) bytes).1.map RingBuffer.view) ∧
      ∀ rb' ∈ (handleRead (some rb) bytes).1, rb'.Valid := by
  have hview : rb.view.2 ++ bytes = (rb.data ++ bytes).drop rb.readPtr :=
    (List.drop_append_of_le_length hv.data).symm
  rw [hview]
  exact handleData_parses (hv.insert bytes)

/-- A connection that waits for input parses what it is sent, in whatever chunks. -/
theorem reads_parse {rb : RingBuffer} (hv : rb.Valid)
    (hwait : gatewayStep rb.view.1 rb.view.2 = .wait) (chunks : List Bytes) :
    Parses gateway rb.view.1 (rb.view.2 ++ chunks.flatten)
      (outputs handleRead (some rb) chunks)
      ((run handleRead (some rb) chunks).1.map RingBuffer.view) :=
  chunks_parse (p := gateway) (fun _ => rfl) (fun _ bytes hv => handleRead_parses hv bytes)
    chunks hv hwait

/-- The chunks are reads of at most 8192 bytes, and none is empty. -/
def Reads (stream : Bytes) (chunks : List Bytes) : Prop :=
  chunks.flatten = stream ∧ ∀ chunk ∈ chunks, chunk ≠ [] ∧ chunk.length ≤ 8192

instance (stream : Bytes) (chunks : List Bytes) : Decidable (Reads stream chunks) :=
  inferInstanceAs (Decidable (_ ∧ _))

/-- **The parse does not depend on TCP segmentation.** Two ways to read one stream
give the same responses, the same orders in the same order and the same close; and
where the connection stays open, what it still holds is the same. -/
theorem segmentation_independent (stream : Bytes) (chunks chunks' : List Bytes)
    (h : Reads stream chunks) (h' : Reads stream chunks') :
    outputs handleRead (some .fresh) chunks = outputs handleRead (some .fresh) chunks' ∧
      ((run handleRead (some .fresh) chunks).1 = none ↔
        (run handleRead (some .fresh) chunks').1 = none) ∧
      (run handleRead (some .fresh) chunks).1.map RingBuffer.view =
        (run handleRead (some .fresh) chunks').1.map RingBuffer.view := by
  have hwait : gatewayStep RingBuffer.fresh.view.1 RingBuffer.fresh.view.2 = .wait := rfl
  have hparse := reads_parse RingBuffer.valid_fresh hwait chunks
  have hparse' := reads_parse RingBuffer.valid_fresh hwait chunks'
  rw [h.1] at hparse
  rw [h'.1] at hparse'
  obtain ⟨hout, hview⟩ := hparse.deterministic hparse'
  refine ⟨hout, ?_, hview⟩
  rw [← Option.map_eq_none_iff (f := RingBuffer.view), hview, Option.map_eq_none_iff]

/-- A request that opens a connection. -/
def upgradeRequest : Bytes := ascii "GET / HTTP/1.1\r\nSec-WebSocket-Key: abc\r\n\r\n"

/-- A request and two frames, the second without a mask: whole and byte by byte. -/
def requestAndFrames : Bytes := upgradeRequest ++ [0x82, 0x81, 1, 2, 3, 4, 5, 0x82, 0x01, 6]

theorem bytewise_reads_agree :
    Reads requestAndFrames [requestAndFrames] ∧
      Reads requestAndFrames (requestAndFrames.map fun c => [c]) ∧
      outputs handleRead (some .fresh) [requestAndFrames] =
        outputs handleRead (some .fresh) (requestAndFrames.map fun c => [c]) := by
  have hwhole : Reads requestAndFrames [requestAndFrames] := by decide
  have hbytes : Reads requestAndFrames (requestAndFrames.map fun c => [c]) := by decide
  exact ⟨hwhole, hbytes, (segmentation_independent _ _ _ hwhole hbytes).1⟩

end TradePlat.Gateway
