import TradePlat.Gateway.Frames

/-!
# Cursors and buffers (`TCPServer.cpp`)

`handleReadAccesses` lists what `handleClientData` does to the two buffers of a
connection for the bytes of one `read`: every unsigned subtraction, every byte read
or written, every copy, every erase, and the cursors between the statements. On a
connection whose cursors are inside their buffers everything listed is inside
(`handleReadAccesses_ok`), with one exception: a compaction erases the bytes before
the cursor and sets the cursor back in the next statement, and between the two the
cursor is past the end. When an upgraded connection waits for more input, what it
holds is bounded (`handleRead_bounded`).
-/

namespace TradePlat.Gateway
open Runs Incremental

/-! ## Accesses -/

inductive Access where
  /-- The cursors between two statements. -/
  | cursors (rb : RingBuffer)
  /-- The cursors between the erase of a compaction and the reset of its cursor. -/
  | compacting (rb : RingBuffer)
  /-- `a - b` in `size_t`. -/
  | minus (a b : Nat)
  /-- The byte at index `i` of a buffer. -/
  | byte (size i : Nat)
  /-- `n` bytes from index `i` on. -/
  | copy (size i n : Nat)
  /-- `erase(begin, begin + n)`. -/
  | erase (size n : Nat)
  /-- The fuel of a loop ran out. -/
  | exhausted
  deriving DecidableEq, Repr

/-- Both cursors are inside their buffers. -/
def RingBuffer.CursorsInside (rb : RingBuffer) : Prop :=
  rb.readPtr ≤ rb.data.length ∧ rb.payloadReadPtr ≤ rb.payload.length

/-- The access does not leave its buffer, the subtraction does not wrap. -/
def Access.Ok : Access → Prop
  | .cursors rb => rb.CursorsInside
  | .compacting rb => rb.CursorsInside
  | .minus a b => b ≤ a
  | .byte size i => i < size
  | .copy size i n => i + n ≤ size
  | .erase size n => n ≤ size
  | .exhausted => False

/-- The access is not the point inside a compaction. -/
def Access.Settled : Access → Prop
  | .compacting _ => False
  | _ => True

/-- The loop of `process_payload_orders`. -/
def cutAccesses : Nat → RingBuffer → List Access
  | 0, _ => [.exhausted]
  | fuel + 1, rb =>
    .minus rb.payload.length rb.payloadReadPtr ::
      if rb.payload.length - rb.payloadReadPtr < msgSize then []
      else
        let rb' := { rb with payloadReadPtr := rb.payloadReadPtr + msgSize }
        .copy rb.payload.length rb.payloadReadPtr msgSize :: .cursors rb' :: cutAccesses fuel rb'

/-- `process_payload_orders`. -/
def processAccesses (rb : RingBuffer) : List Access :=
  let ptr := (cutMessages rb.payload (rb.payload.length + 1) rb.payloadReadPtr).2
  cutAccesses (rb.payload.length + 1) rb ++
    if ptr > 16384 then
      [.erase rb.payload.length ptr,
        .compacting { rb with payload := rb.payload.drop ptr, payloadReadPtr := ptr },
        .cursors { rb with payload := rb.payload.drop ptr, payloadReadPtr := 0 }]
    else []

/-- The length field: `base[2]` and `base[3]`, or `base[2]` to `base[9]`. -/
def lengthAccesses (rb : RingBuffer) : List Access :=
  let size := rb.data.length
  let base := rb.data.drop rb.readPtr
  let len := (base.getD 1 0 &&& 0x7F).toNat
  if len = 126 then
    .minus size rb.readPtr ::
      if base.length < 4 then [] else [.byte size (rb.readPtr + 2), .byte size (rb.readPtr + 3)]
  else if len = 127 then
    .minus size rb.readPtr ::
      if base.length < 10 then []
      else (List.range 8).map fun i => .byte size (rb.readPtr + (2 + i))
  else []

/-- The loop that takes off the mask: `payload[i]`, `mask[i & 3]` and
`rb.payload[old_size + i]`. -/
def unmaskAccesses (rb : RingBuffer) (headerLen payloadLen : Nat) : List Access :=
  (List.range payloadLen).flatMap fun i =>
    [.byte rb.data.length (rb.readPtr + (headerLen + 4 + i)),
      .byte rb.data.length (rb.readPtr + (headerLen + i % 4)),
      .byte (rb.payload.length + payloadLen) (rb.payload.length + i)]

/-- An iteration of the frame loop, up to `process_payload_orders`. -/
def frameAccesses (rb : RingBuffer) : List Access :=
  let size := rb.data.length
  let base := rb.data.drop rb.readPtr
  .minus size rb.readPtr ::
    if base.length < 2 then []
    else
      [.byte size rb.readPtr, .byte size (rb.readPtr + 1)] ++ lengthAccesses rb ++
        match frameLength base with
        | none => []
        | some (payloadLen, headerLen) =>
          if base.getD 1 0 &&& 0x80 = 0 then []
          else if payloadLen > 2 ^ 20 then []
          else
            .minus size rb.readPtr ::
              if base.length < headerLen + 4 + payloadLen then []
              else if base.getD 0 0 &&& 0x0F = 2 ∨ base.getD 0 0 &&& 0x0F = 0 then
                unmaskAccesses rb headerLen payloadLen
              else []

/-- The end of an iteration. -/
def acceptAccesses (rb : RingBuffer) (opcode : UInt8) (payload : Bytes) (consumed : Nat) :
    List Access :=
  (if opcode = 2 ∨ opcode = 0 then
    .cursors { rb with payload := rb.payload ++ payload } ::
      processAccesses { rb with payload := rb.payload ++ payload }
  else []) ++ [.cursors (acceptFrame rb opcode payload consumed).1]

def frameLoopAccesses : Nat → RingBuffer → List Access
  | 0, _ => [.exhausted]
  | fuel + 1, rb =>
    frameAccesses rb ++
      match parseFrame (rb.data.drop rb.readPtr) with
      | .incomplete => []
      | .close consumed => [.cursors { rb with readPtr := rb.readPtr + consumed }]
      | .frame opcode payload consumed =>
        acceptAccesses rb opcode payload consumed ++
          frameLoopAccesses fuel (acceptFrame rb opcode payload consumed).1

/-- The compaction behind the frame loop. -/
def compactAccesses (rb : RingBuffer) : List Access :=
  if rb.readPtr > 16384 then
    [.erase rb.data.length rb.readPtr,
      .compacting { rb with data := rb.data.drop rb.readPtr },
      .cursors { rb with data := rb.data.drop rb.readPtr, readPtr := 0 }]
  else []

def handleFramesAccesses (rb : RingBuffer) : List Access :=
  frameLoopAccesses (rb.data.length + 1) rb ++
    compactAccesses (frameLoop (rb.data.length + 1) rb).1

def handleDataAccesses (rb : RingBuffer) : List Access :=
  if rb.websocketReady then handleFramesAccesses rb
  else match headerEnd rb.data with
    | none => []
    | some pos =>
      .copy rb.data.length 0 (pos + 4) ::
        if headerValue (rb.data.take (pos + 4)) (ascii "Sec-WebSocket-Key") = [] then []
        else
          .erase rb.data.length (pos + 4) ::
            .cursors { rb with data := rb.data.drop (pos + 4) } ::
            .cursors { rb with data := rb.data.drop (pos + 4), readPtr := 0, websocketReady := true } ::
            handleFramesAccesses
              { rb with data := rb.data.drop (pos + 4), readPtr := 0, websocketReady := true }

/-- The accesses for the bytes of one `read`. -/
def handleReadAccesses : Option RingBuffer → Bytes → List Access
  | none, _ => []
  | some rb, bytes =>
    .cursors { rb with data := rb.data ++ bytes } ::
      handleDataAccesses { rb with data := rb.data ++ bytes }

/-- `handleRead` with its accesses as the output. -/
def handleReadTraced (s : Option RingBuffer) (bytes : Bytes) : Option RingBuffer × List Access :=
  ((handleRead s bytes).1, handleReadAccesses s bytes)

/-! ## Accesses are inside -/

/-- Every access is inside, apart from the points inside a compaction. -/
def AllOk (accesses : List Access) : Prop := ∀ a ∈ accesses, a.Settled → a.Ok

theorem allOk_nil : AllOk [] := fun _ h => by cases h

theorem allOk_cons {a : Access} {accesses : List Access} (ha : a.Settled → a.Ok)
    (h : AllOk accesses) : AllOk (a :: accesses) := by
  intro b hb
  rcases List.mem_cons.mp hb with rfl | hb
  · exact ha
  · exact h b hb

theorem allOk_append {accesses accesses' : List Access} (h : AllOk accesses)
    (h' : AllOk accesses') : AllOk (accesses ++ accesses') := by
  intro a ha
  rcases List.mem_append.mp ha with ha | ha
  · exact h a ha
  · exact h' a ha

theorem RingBuffer.Valid.inside {rb : RingBuffer} (hv : rb.Valid) : rb.CursorsInside :=
  ⟨hv.data, hv.payload⟩

theorem cutAccesses_ok {fuel : Nat} {rb : RingBuffer} (hv : rb.CursorsInside)
    (hfuel : rb.payload.length - rb.payloadReadPtr < fuel) : AllOk (cutAccesses fuel rb) := by
  induction fuel generalizing rb with
  | zero => omega
  | succ fuel ih =>
    have hsize : msgSize = 32 := rfl
    unfold cutAccesses
    refine allOk_cons (fun _ => hv.2) ?_
    split
    · exact allOk_nil
    · rename_i hlong
      have hcopy : rb.payloadReadPtr + msgSize ≤ rb.payload.length := by omega
      refine allOk_cons (fun _ => hcopy) (allOk_cons (fun _ => ⟨hv.1, hcopy⟩) (ih ⟨hv.1, hcopy⟩ ?_))
      dsimp only
      omega

theorem cutMessages_within {rb : RingBuffer} (hv : rb.CursorsInside) :
    (cutMessages rb.payload (rb.payload.length + 1) rb.payloadReadPtr).2 ≤ rb.payload.length ∧
      rb.payload.length - (cutMessages rb.payload (rb.payload.length + 1) rb.payloadReadPtr).2 <
        msgSize := by
  have hpayload := hv.2
  have hsize : msgSize = 32 := rfl
  rw [cutMessages_eq _ _ _ (by omega), hsize]
  dsimp only
  omega

theorem processAccesses_ok {rb : RingBuffer} (hv : rb.CursorsInside) :
    AllOk (processAccesses rb) := by
  have hptr := (cutMessages_within hv).1
  unfold processAccesses
  refine allOk_append (cutAccesses_ok hv (by omega)) ?_
  split
  · exact allOk_cons (fun _ => hptr) (allOk_cons (fun h => h.elim)
      (allOk_cons (fun _ => ⟨hv.1, Nat.zero_le _⟩) allOk_nil))
  · exact allOk_nil

theorem lengthAccesses_ok {rb : RingBuffer} (hv : rb.CursorsInside) : AllOk (lengthAccesses rb) := by
  have hbase : (rb.data.drop rb.readPtr).length = rb.data.length - rb.readPtr := List.length_drop
  have hdata := hv.1
  unfold lengthAccesses
  dsimp only
  split
  · refine allOk_cons (fun _ => hdata) ?_
    split
    · exact allOk_nil
    · have h2 : rb.readPtr + 2 < rb.data.length := by omega
      have h3 : rb.readPtr + 3 < rb.data.length := by omega
      exact allOk_cons (fun _ => h2) (allOk_cons (fun _ => h3) allOk_nil)
  · split
    · refine allOk_cons (fun _ => hdata) ?_
      split
      · exact allOk_nil
      · intro a ha _
        obtain ⟨i, hi, rfl⟩ := List.mem_map.mp ha
        have := List.mem_range.mp hi
        show rb.readPtr + (2 + i) < rb.data.length
        omega
    · exact allOk_nil

theorem unmaskAccesses_ok {rb : RingBuffer} {headerLen payloadLen : Nat}
    (h : rb.readPtr + (headerLen + 4 + payloadLen) ≤ rb.data.length) :
    AllOk (unmaskAccesses rb headerLen payloadLen) := by
  intro a ha _
  obtain ⟨i, hi, ha⟩ := List.mem_flatMap.mp ha
  have hlt := List.mem_range.mp hi
  have hpayload : rb.readPtr + (headerLen + 4 + i) < rb.data.length := by omega
  have hmask : rb.readPtr + (headerLen + i % 4) < rb.data.length := by omega
  have hwrite : rb.payload.length + i < rb.payload.length + payloadLen := by omega
  simp only [List.mem_cons, List.not_mem_nil, or_false] at ha
  rcases ha with rfl | rfl | rfl
  · exact hpayload
  · exact hmask
  · exact hwrite

theorem frameAccesses_ok {rb : RingBuffer} (hv : rb.CursorsInside) : AllOk (frameAccesses rb) := by
  have hbase : (rb.data.drop rb.readPtr).length = rb.data.length - rb.readPtr := List.length_drop
  have hdata := hv.1
  unfold frameAccesses
  dsimp only
  refine allOk_cons (fun _ => hdata) ?_
  split
  · exact allOk_nil
  · have h0 : rb.readPtr < rb.data.length := by omega
    have h1 : rb.readPtr + 1 < rb.data.length := by omega
    refine allOk_append (allOk_append (allOk_cons (fun _ => h0) (allOk_cons (fun _ => h1) allOk_nil))
      (lengthAccesses_ok hv)) ?_
    cases frameLength (rb.data.drop rb.readPtr) with
    | none => exact allOk_nil
    | some r =>
      obtain ⟨payloadLen, headerLen⟩ := r
      dsimp only
      split
      · exact allOk_nil
      split
      · exact allOk_nil
      refine allOk_cons (fun _ => hdata) ?_
      split
      · exact allOk_nil
      split
      · exact unmaskAccesses_ok (by omega)
      · exact allOk_nil

theorem acceptAccesses_ok {rb : RingBuffer} (hv : rb.Valid) (hready : rb.websocketReady = true)
    {opcode : UInt8} {payload : Bytes} {consumed : Nat}
    (hf : parseFrame rb.view.2 = .frame opcode payload consumed) :
    AllOk (acceptAccesses rb opcode payload consumed) := by
  have hv' : (acceptFrame rb opcode payload consumed).1.Valid :=
    (acceptFrame_step hv hready hf).2.2.1
  have hresize := (hv.resize payload).inside
  unfold acceptAccesses
  refine allOk_append ?_ (allOk_cons (fun _ => hv'.inside) allOk_nil)
  split
  · exact allOk_cons (fun _ => hresize) (processAccesses_ok hresize)
  · exact allOk_nil

/-- The loop leaves the cursors inside, also where it closes the connection. -/
theorem frameLoopAccesses_ok (fuel : Nat) {rb : RingBuffer} (hv : rb.Valid)
    (hready : rb.websocketReady = true) (hfuel : rb.data.length - rb.readPtr < fuel) :
    AllOk (frameLoopAccesses fuel rb) ∧ (frameLoop fuel rb).1.CursorsInside := by
  induction fuel generalizing rb with
  | zero => omega
  | succ fuel ih =>
    have hframe := frameAccesses_ok hv.inside
    have hview : rb.data.drop rb.readPtr = rb.view.2 := rfl
    unfold frameLoopAccesses frameLoop
    rw [hview]
    cases hf : parseFrame rb.view.2 with
    | incomplete => exact ⟨allOk_append hframe allOk_nil, hv.inside⟩
    | close consumed =>
      have hwithin := parseFrame_close_within hf
      have hlen : rb.view.2.length = rb.data.length - rb.readPtr := List.length_drop
      have hdata := hv.data
      have hinside : RingBuffer.CursorsInside { rb with readPtr := rb.readPtr + consumed } :=
        ⟨by dsimp only; omega, hv.payload⟩
      exact ⟨allOk_append hframe (allOk_cons (fun _ => hinside) allOk_nil), hinside⟩
    | frame opcode payload consumed =>
      obtain ⟨_, _, hv', hready', hless⟩ := acceptFrame_step hv hready hf
      obtain ⟨hrest, hinside⟩ := ih hv' hready' (by omega)
      exact ⟨allOk_append hframe (allOk_append (acceptAccesses_ok hv hready hf) hrest), hinside⟩

theorem compactAccesses_ok {rb : RingBuffer} (hv : rb.CursorsInside) :
    AllOk (compactAccesses rb) := by
  unfold compactAccesses
  split
  · exact allOk_cons (fun _ => hv.1) (allOk_cons (fun h => h.elim)
      (allOk_cons (fun _ => ⟨Nat.zero_le _, hv.2⟩) allOk_nil))
  · exact allOk_nil

theorem handleFramesAccesses_ok {rb : RingBuffer} (hv : rb.Valid)
    (hready : rb.websocketReady = true) : AllOk (handleFramesAccesses rb) := by
  obtain ⟨hloop, hinside⟩ := frameLoopAccesses_ok (rb.data.length + 1) hv hready (by omega)
  exact allOk_append hloop (compactAccesses_ok hinside)

theorem handleDataAccesses_ok {rb : RingBuffer} (hv : rb.Valid) : AllOk (handleDataAccesses rb) := by
  unfold handleDataAccesses
  split
  · rename_i hready
    exact handleFramesAccesses_ok hv hready
  · rename_i hready
    cases hpos : headerEnd rb.data with
    | none => exact allOk_nil
    | some pos =>
      have hlen : pos + 4 ≤ rb.data.length := (headerEnd_append hpos []).1
      have hcopy : 0 + (pos + 4) ≤ rb.data.length := by omega
      have hzero : rb.readPtr = 0 := hv.unread (Bool.eq_false_iff.mpr hready)
      have herased : RingBuffer.CursorsInside { rb with data := rb.data.drop (pos + 4) } :=
        ⟨by dsimp only; omega, hv.payload⟩
      have hopen := hv.opened (rb.data.drop (pos + 4))
      dsimp only
      refine allOk_cons (fun _ => hcopy) ?_
      split
      · exact allOk_nil
      · exact allOk_cons (fun _ => hlen) (allOk_cons (fun _ => herased)
          (allOk_cons (fun _ => hopen.inside) (handleFramesAccesses_ok hopen rfl)))

theorem handleReadAccesses_ok {rb : RingBuffer} (hv : rb.Valid) (bytes : Bytes) :
    AllOk (handleReadAccesses (some rb) bytes) := by
  have hinsert := hv.insert bytes
  exact allOk_cons (fun _ => hinsert.inside) (handleDataAccesses_ok hinsert)

/-! ## Memory -/

/-- What a connection holds between two reads. -/
structure RingBuffer.Bounded (rb : RingBuffer) : Prop where
  valid : rb.Valid
  readPtr : rb.readPtr ≤ 16384
  payloadReadPtr : rb.payloadReadPtr ≤ 16384
  payload : rb.payload.length - rb.payloadReadPtr < msgSize
  waits : rb.websocketReady = true → parseFrame rb.view.2 = .incomplete

theorem RingBuffer.bounded_fresh : RingBuffer.fresh.Bounded :=
  ⟨RingBuffer.valid_fresh, Nat.zero_le _, Nat.zero_le _, by decide, fun h => by cases h⟩

/-- The payload is bounded after every frame. -/
theorem processPayloadOrders_bounded {rb : RingBuffer} (hv : rb.CursorsInside) :
    (processPayloadOrders rb).1.payloadReadPtr ≤ 16384 ∧
      (processPayloadOrders rb).1.payload.length - (processPayloadOrders rb).1.payloadReadPtr <
        msgSize := by
  have hrest := (cutMessages_within hv).2
  unfold processPayloadOrders
  dsimp only
  split
  · rename_i hlarge
    refine ⟨Nat.zero_le _, ?_⟩
    dsimp only
    rw [List.length_drop]
    omega
  · rename_i hsmall
    exact ⟨by dsimp only; omega, hrest⟩

theorem acceptFrame_bounded {rb : RingBuffer} (hv : rb.Valid) {opcode : UInt8} {payload : Bytes}
    {consumed : Nat} (hptr : rb.payloadReadPtr ≤ 16384)
    (hpayload : rb.payload.length - rb.payloadReadPtr < msgSize) :
    (acceptFrame rb opcode payload consumed).1.payloadReadPtr ≤ 16384 ∧
      (acceptFrame rb opcode payload consumed).1.payload.length -
        (acceptFrame rb opcode payload consumed).1.payloadReadPtr < msgSize := by
  have hresize := (hv.resize payload).inside
  unfold acceptFrame
  by_cases hop : opcode = 2 ∨ opcode = 0
  · simp only [if_pos hop]
    exact processPayloadOrders_bounded hresize
  · simp only [if_neg hop]
    exact ⟨hptr, hpayload⟩

theorem frameLoop_bounded (fuel : Nat) {rb : RingBuffer} (hv : rb.Valid)
    (hready : rb.websocketReady = true) (hfuel : rb.data.length - rb.readPtr < fuel)
    (hptr : rb.payloadReadPtr ≤ 16384)
    (hpayload : rb.payload.length - rb.payloadReadPtr < msgSize) :
    (frameLoop fuel rb).1.payloadReadPtr ≤ 16384 ∧
      (frameLoop fuel rb).1.payload.length - (frameLoop fuel rb).1.payloadReadPtr < msgSize := by
  induction fuel generalizing rb with
  | zero => omega
  | succ fuel ih =>
    have hview : rb.data.drop rb.readPtr = rb.view.2 := rfl
    unfold frameLoop
    rw [hview]
    cases hf : parseFrame rb.view.2 with
    | incomplete => exact ⟨hptr, hpayload⟩
    | close consumed => exact ⟨hptr, hpayload⟩
    | frame opcode payload consumed =>
      obtain ⟨_, _, hv', hready', hless⟩ := acceptFrame_step hv hready hf
      obtain ⟨hptr', hpayload'⟩ := acceptFrame_bounded hv hptr hpayload
      exact ih hv' hready' (by omega) hptr' hpayload'

theorem parseFrame_of_wait {mode : Mode} {buf : Bytes} (hready : mode.websocketReady = true)
    (h : gatewayStep mode buf = .wait) : parseFrame buf = .incomplete := by
  rw [gatewayStep_ready hready] at h
  cases hf : parseFrame buf with
  | incomplete => rfl
  | close consumed => simp [hf] at h
  | frame opcode payload consumed =>
    simp only [hf] at h
    split at h <;> cases h

theorem handleFrames_bounded {rb rb' : RingBuffer} (hv : rb.Valid)
    (hready : rb.websocketReady = true) (hptr : rb.payloadReadPtr ≤ 16384)
    (hpayload : rb.payload.length - rb.payloadReadPtr < msgSize)
    (h : (handleFrames rb).1 = some rb') : rb'.Bounded := by
  obtain ⟨hparse, hvalid⟩ := handleFrames_parses hv hready
  obtain ⟨hptr', hpayload'⟩ :=
    frameLoop_bounded (rb.data.length + 1) hv hready (by omega) hptr hpayload
  have hwaits : rb'.websocketReady = true → parseFrame rb'.view.2 = .incomplete := by
    intro hready'
    rw [h] at hparse
    exact parseFrame_of_wait hready' hparse.settled
  have hcursors : rb'.readPtr ≤ 16384 ∧ rb'.payloadReadPtr ≤ 16384 ∧
      rb'.payload.length - rb'.payloadReadPtr < msgSize := by
    unfold handleFrames at h
    dsimp only at h
    split at h
    · cases h
    · cases h
      split
      · exact ⟨Nat.zero_le _, hptr', hpayload'⟩
      · rename_i hsmall
        exact ⟨by omega, hptr', hpayload'⟩
  exact ⟨hvalid rb' h, hcursors.1, hcursors.2.1, hcursors.2.2, hwaits⟩

/-- **What a connection holds stays bounded.** -/
theorem handleRead_bounded {rb rb' : RingBuffer} {bytes : Bytes} (hb : rb.Bounded)
    (h : (handleRead (some rb) bytes).1 = some rb') : rb'.Bounded := by
  have hv := hb.valid.insert bytes
  unfold handleRead handleData at h
  dsimp only at h
  split at h
  · rename_i hready
    exact handleFrames_bounded hv hready hb.payloadReadPtr hb.payload h
  · rename_i hready
    split at h
    · cases h
      exact ⟨hv, hb.readPtr, hb.payloadReadPtr, hb.payload, fun h => absurd h hready⟩
    · rename_i pos hpos
      split at h
      · cases h
      · have hopen := hb.valid.opened ((rb.data ++ bytes).drop (pos + 4))
        exact handleFrames_bounded hopen rfl hb.payloadReadPtr hb.payload h

/-! ## Runs -/

theorem run_traced (s : Option RingBuffer) (chunks : List Bytes) :
    (run handleReadTraced s chunks).1 = (run handleRead s chunks).1 := by
  induction chunks generalizing s with
  | nil => rfl
  | cons chunk chunks ih => exact ih _

/-- What holds of a connection and of its accesses so far. -/
def Contained (accesses : List Access) (s : Option RingBuffer) : Prop :=
  AllOk accesses ∧ ∀ rb, s = some rb → rb.Bounded

theorem handleReadTraced_contained {accesses : List Access} {s : Option RingBuffer} (bytes : Bytes)
    (h : Contained accesses s) :
    Contained (accesses ++ (handleReadTraced s bytes).2) (handleReadTraced s bytes).1 := by
  cases s with
  | none => exact ⟨allOk_append h.1 allOk_nil, fun rb hrb => by cases hrb⟩
  | some rb =>
    have hb : rb.Bounded := h.2 rb rfl
    exact ⟨allOk_append h.1 (handleReadAccesses_ok hb.valid bytes),
      fun rb' hrb' => handleRead_bounded hb hrb'⟩

theorem run_contained (chunks : List Bytes) :
    Contained (outputs handleReadTraced (some .fresh) chunks)
      (run handleRead (some .fresh) chunks).1 := by
  have hfresh : Contained [] (some RingBuffer.fresh) :=
    ⟨allOk_nil, fun rb hrb => by
      cases hrb
      exact RingBuffer.bounded_fresh⟩
  rw [← run_traced]
  exact invariant_run (fun _ accesses s => Contained accesses s)
    (fun _ _ _ bytes h _ => handleReadTraced_contained bytes h) hfresh
    (guarded_true handleReadTraced [] (some .fresh) chunks)

/-- **Cursors and memory.** For every way to read a stream: but for the point inside a
compaction the cursors are inside their buffers between any two statements, no
subtraction wraps, and every byte, copy and erase is inside its buffer; an upgraded
connection that returns to `read` holds a bounded number of bytes. -/
theorem cursors_inside (chunks : List Bytes) :
    (∀ a ∈ outputs handleReadTraced (some .fresh) chunks, a.Settled → a.Ok) ∧
      ∀ rb, (run handleRead (some .fresh) chunks).1 = some rb → rb.websocketReady = true →
        rb.data.length - rb.readPtr < 2 ^ 20 + 14 ∧
        rb.data.length < 16384 + 2 ^ 20 + 14 ∧
        rb.payload.length - rb.payloadReadPtr < 32 ∧
        rb.payload.length ≤ 16384 + 31 := by
  obtain ⟨hok, hstate⟩ := run_contained chunks
  refine ⟨hok, fun rb hrb hready => ?_⟩
  have hb : rb.Bounded := hstate rb hrb
  have hunread := parseFrame_incomplete_short (hb.waits hready)
  have hlen : rb.view.2.length = rb.data.length - rb.readPtr := List.length_drop
  have hread := hb.readPtr
  have hptr := hb.payloadReadPtr
  have hpayload : rb.payload.length - rb.payloadReadPtr < 32 := hb.payload
  omega

/-! ## The point inside a compaction -/

/-- A ping with 5,600 bytes, which the gateway passes over. -/
def pingFrame : Bytes := [0x89, 0xFE, 0x15, 0xE0, 0, 0, 0, 0] ++ List.replicate 5600 0

theorem parseFrame_ping {body : Bytes} (hbody : body.length = 5600) :
    ∃ payload, parseFrame ([0x89, 0xFE, 0x15, 0xE0, 0, 0, 0, 0] ++ body) =
      .frame 9 payload 5608 := by
  have hlength : frameLength ([0x89, 0xFE, 0x15, 0xE0, 0, 0, 0, 0] ++ body) = some (5600, 4) := by
    simp [frameLength]
  have hlen : ([0x89, 0xFE, 0x15, 0xE0, 0, 0, 0, 0] ++ body).length = 5608 := by
    rw [List.length_append, hbody]
    rfl
  have h0 : ([0x89, 0xFE, 0x15, 0xE0, 0, 0, 0, 0] ++ body).getD 0 0 = 0x89 := rfl
  have h1 : ([0x89, 0xFE, 0x15, 0xE0, 0, 0, 0, 0] ++ body).getD 1 0 = 0xFE := rfl
  unfold parseFrame
  rw [hlength, hlen, h0, h1, if_neg (by decide)]
  dsimp only
  rw [if_neg (by decide), if_neg (by decide), if_neg (by decide), if_neg (by decide)]
  exact ⟨_, rfl⟩

theorem length_pingFrame : pingFrame.length = 5608 := by
  rw [pingFrame, List.length_append, List.length_replicate]
  rfl

/-- An upgraded connection that has read everything it holds. -/
def RingBuffer.idle (data : Bytes) : RingBuffer := ⟨data, data.length, [], 0, true⟩

/-- The same connection, with the data erased and the cursor not set back yet. -/
def RingBuffer.erased (data : Bytes) : RingBuffer := ⟨[], data.length, [], 0, true⟩

theorem RingBuffer.erased_data (data : Bytes) : (RingBuffer.erased data).data = [] := rfl

theorem RingBuffer.erased_readPtr (data : Bytes) :
    (RingBuffer.erased data).readPtr = data.length := rfl

theorem frameLoop_ping (data : Bytes) (fuel : Nat) :
    frameLoop (fuel + 2) { RingBuffer.idle data with data := data ++ pingFrame } =
      (.idle (data ++ pingFrame), [], false) := by
  obtain ⟨payload, hping⟩ := parseFrame_ping (List.length_replicate (n := 5600) (a := (0 : UInt8)))
  have hnext : (data ++ pingFrame).drop data.length = pingFrame := List.drop_left
  have hend : (data ++ pingFrame).drop (data.length + 5608) = [] := by
    rw [← List.drop_drop, hnext, ← length_pingFrame, List.drop_length]
  have hempty : parseFrame [] = .incomplete := rfl
  have haccept : ∀ rb : RingBuffer, acceptFrame rb 9 payload 5608 =
      ({ rb with readPtr := rb.readPtr + 5608 }, []) := by
    intro rb
    unfold acceptFrame
    rw [if_neg (by decide)]
  have hlength : (data ++ pingFrame).length = data.length + 5608 := by
    rw [List.length_append, length_pingFrame]
  have hping' : parseFrame pingFrame = .frame 9 payload 5608 := hping
  unfold frameLoop RingBuffer.idle
  simp only [hnext, hping', haccept, hlength]
  unfold frameLoop
  simp only [hend, hempty]
  rfl

theorem handleRead_ping {data : Bytes} (h : data.length + 5608 ≤ 16384) :
    handleRead (some (.idle data)) pingFrame = (some (.idle (data ++ pingFrame)), []) := by
  have hlength : (data ++ pingFrame).length = data.length + 5608 := by
    rw [List.length_append, length_pingFrame]
  have hloop := frameLoop_ping data (data.length + 5607)
  have hframes : handleFrames { RingBuffer.idle data with data := data ++ pingFrame } =
      (some (.idle (data ++ pingFrame)), []) := by
    have hfuel : (data ++ pingFrame).length + 1 = data.length + 5607 + 2 := by omega
    have hsmall : ¬(RingBuffer.idle (data ++ pingFrame)).readPtr > 16384 := by
      show ¬(data ++ pingFrame).length > 16384
      omega
    unfold handleFrames
    simp only [hfuel, hloop, if_neg hsmall]
    rfl
  exact hframes

/-- A ping that fills more than 16,384 bytes is compacted away. -/
theorem compacting_ping {data : Bytes} (h : data.length + 5608 > 16384) :
    .compacting (.erased (data ++ pingFrame)) ∈
      handleReadAccesses (some (.idle data)) pingFrame := by
  have hlength : (data ++ pingFrame).length = data.length + 5608 := by
    rw [List.length_append, length_pingFrame]
  have hloop := frameLoop_ping data (data.length + 5607)
  have hfuel : (data ++ pingFrame).length + 1 = data.length + 5607 + 2 := by omega
  have hlarge : (RingBuffer.idle (data ++ pingFrame)).readPtr > 16384 := by
    show (data ++ pingFrame).length > 16384
    omega
  have herased : (RingBuffer.idle (data ++ pingFrame)).data.drop
      (RingBuffer.idle (data ++ pingFrame)).readPtr = [] := List.drop_length
  have hcompact : .compacting (.erased (data ++ pingFrame)) ∈
      compactAccesses (frameLoop ((data ++ pingFrame).length + 1)
        { RingBuffer.idle data with data := data ++ pingFrame }).1 := by
    rw [hfuel, hloop]
    unfold compactAccesses
    rw [if_pos hlarge, herased]
    exact List.mem_cons_of_mem _ List.mem_cons_self
  exact List.mem_cons_of_mem _ (List.mem_append_right _ hcompact)

/-- A request and three pings, each in a read of its own. -/
def pingReads : List Bytes := [upgradeRequest, pingFrame, pingFrame, pingFrame]

theorem pingReads_short : ∀ chunk ∈ pingReads, chunk.length ≤ 8192 := by
  intro chunk hchunk
  have hping : pingFrame.length ≤ 8192 := by
    rw [length_pingFrame]
    decide
  simp only [pingReads, List.mem_cons, List.not_mem_nil, or_false] at hchunk
  rcases hchunk with rfl | rfl | rfl | rfl
  · decide
  · exact hping
  · exact hping
  · exact hping

theorem mem_accesses_next {s s' : Option RingBuffer} {chunk : Bytes} {chunks : List Bytes}
    {a : Access} (h : (handleRead s chunk).1 = s') (ha : a ∈ outputs handleReadTraced s' chunks) :
    a ∈ outputs handleReadTraced s (chunk :: chunks) := by
  have hstate : (handleReadTraced s chunk).1 = s' := h
  rw [outputs_cons, hstate]
  exact List.mem_append_right _ ha

theorem mem_accesses_now {s : Option RingBuffer} {chunk : Bytes} (chunks : List Bytes)
    {a : Access} (ha : a ∈ handleReadAccesses s chunk) :
    a ∈ outputs handleReadTraced s (chunk :: chunks) := by
  rw [outputs_cons]
  exact List.mem_append_left _ ha

/-- **Inside a compaction the cursor is past the end**: the third ping takes `read_ptr` to
16,824; the data is erased, and `read_ptr` is set back in the statement behind it. -/
theorem cursor_past_erased :
    (∀ chunk ∈ pingReads, chunk.length ≤ 8192) ∧
      ∃ rb, .compacting rb ∈ outputs handleReadTraced (some .fresh) pingReads ∧
        rb.data.length = 0 ∧ rb.readPtr = 16824 ∧ ¬(Access.compacting rb).Ok := by
  have hopen : (handleRead (some .fresh) upgradeRequest).1 = some (.idle []) := by decide
  have hone : (handleRead (some (.idle [])) pingFrame).1 = some (.idle pingFrame) := by
    rw [handleRead_ping (by decide), List.nil_append]
  have htwo : (handleRead (some (.idle pingFrame)) pingFrame).1 =
      some (.idle (pingFrame ++ pingFrame)) := by
    rw [handleRead_ping (by rw [length_pingFrame]; decide)]
  have hlarge : (pingFrame ++ pingFrame).length + 5608 > 16384 := by
    rw [List.length_append, length_pingFrame]
    decide
  have hthree := compacting_ping hlarge
  have hptr : (pingFrame ++ pingFrame ++ pingFrame).length = 16824 := by
    rw [List.length_append, List.length_append, length_pingFrame]
  refine ⟨pingReads_short, .erased (pingFrame ++ pingFrame ++ pingFrame), ?_, ?_, ?_,
    fun hok => ?_⟩
  · exact mem_accesses_next hopen (mem_accesses_next hone (mem_accesses_next htwo
      (mem_accesses_now [] hthree)))
  · rw [RingBuffer.erased_data, List.length_nil]
  · rw [RingBuffer.erased_readPtr, hptr]
  · have hinside := hok.1
    rw [RingBuffer.erased_data, RingBuffer.erased_readPtr, List.length_nil] at hinside
    omega

end TradePlat.Gateway
