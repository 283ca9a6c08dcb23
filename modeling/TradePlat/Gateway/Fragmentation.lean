import TradePlat.Gateway.Appending

/-!
# Messages in fragments (`TCPServer.cpp`)

RFC 6455 cuts a message into a data frame and continuation frames, and lets control
frames come between them: what a continuation belongs to is decided by the frames
before it. The frame loop decides by the opcode of the frame alone, and so appends the
continuations of text messages too. It stops at a close frame, and at a payload above
`2 ^ 20` bytes, for which the gateway closes the connection.
-/

namespace TradePlat.Gateway
open Runs Incremental

/-! ## Frames of a client -/

/-- A masked frame. The length is in the fewest bytes. -/
structure ClientFrame where
  head : UInt8
  mask : Mask
  payload : Bytes
  sized : payload.length < 2 ^ 63

namespace ClientFrame

def opcode (f : ClientFrame) : UInt8 := f.head &&& 0x0F

def fin (f : ClientFrame) : Bool := f.head &&& 0x80 ≠ 0

/-- The bytes of the frame: those of a bot, with another first byte. -/
def encode (f : ClientFrame) : Bytes :=
  match websocketBinaryFrame f.mask f.payload with
  | some bytes => f.head :: bytes.tail
  | none => []

/-- The gateway closes the connection at this frame. -/
def closes (f : ClientFrame) : Bool := f.opcode = 8 || 2 ^ 20 < f.payload.length

end ClientFrame

/-- The frame loop reads no more of the first byte than the opcode. -/
theorem parseFrame_head (head : UInt8) (bytes : Bytes) :
    parseFrame (head :: bytes) =
      match parseFrame (0x82 :: bytes) with
      | .frame _ payload consumed =>
        if head &&& 0x0F = 8 then .close consumed else .frame (head &&& 0x0F) payload consumed
      | other => other := by
  cases bytes with
  | nil => rfl
  | cons b₁ l =>
    have hlength : ∀ c, frameLength (c :: b₁ :: l) = frameLength (0x82 :: b₁ :: l) := fun c => by
      rw [frameLength_cons, frameLength_cons]
    unfold parseFrame
    rw [hlength head]
    simp only [List.length_cons, List.getD_cons_zero, List.getD_cons_succ]
    split
    · rfl
    · cases hlen : frameLength (0x82 :: b₁ :: l) with
      | none => rfl
      | some r =>
        obtain ⟨payloadLen, headerLen⟩ := r
        obtain ⟨-, hpos, -⟩ := frameLength_append (by simp) hlen []
        obtain ⟨k, rfl⟩ : ∃ k, headerLen = k + 1 := ⟨headerLen - 1, by dsimp only at hpos; omega⟩
        have hmask : ∀ c : UInt8, (fun i => (c :: b₁ :: l).getD (k + 1 + i) 0) =
            fun i => (b₁ :: l).getD (k + i) 0 := fun c => by
          funext i
          rw [Nat.add_right_comm, List.getD_cons_succ]
        have hdrop : ∀ c : UInt8, (c :: b₁ :: l).drop (k + 1 + 4) = (b₁ :: l).drop (k + 4) :=
          fun c => by rw [Nat.add_right_comm, List.drop_succ_cons]
        dsimp only
        split
        · rfl
        · split
          · rfl
          · split
            · rfl
            · rw [hmask, hmask, hdrop, hdrop]
              rfl

namespace ClientFrame

theorem encode_eq (f : ClientFrame) :
    ∃ tail, websocketBinaryFrame f.mask f.payload = some (0x82 :: tail) ∧
      f.encode = f.head :: tail := by
  have hheader : ∃ header, frameHeader f.payload.length = some (0x82 :: header) := by
    have hsized := f.sized
    unfold frameHeader
    split_ifs
    · exact ⟨_, rfl⟩
    · exact ⟨_, rfl⟩
    · exact ⟨_, rfl⟩
    · omega
  obtain ⟨header, hheader⟩ := hheader
  have hframe : ∃ tail, websocketBinaryFrame f.mask f.payload = some (0x82 :: tail) :=
    ⟨_, by rw [websocketBinaryFrame, hheader]; rfl⟩
  obtain ⟨tail, htail⟩ := hframe
  exact ⟨tail, htail, by rw [encode, htail]; rfl⟩

/-- **What the frame loop finds of a frame.** -/
theorem parseFrame_encode (f : ClientFrame) (rest : Bytes) :
    parseFrame (f.encode ++ rest) =
      if 2 ^ 20 < f.payload.length then .close 0
      else if f.opcode = 8 then .close f.encode.length
      else .frame f.opcode f.payload f.encode.length := by
  obtain ⟨tail, htail, hencode⟩ := f.encode_eq
  have hbinary := parseFrame_encoded htail rest
  have hlen : (0x82 :: tail).length = f.encode.length := by rw [hencode]; rfl
  rw [hlen] at hbinary
  rw [hencode, List.cons_append, parseFrame_head, ← List.cons_append, hbinary, ← hencode]
  by_cases hsize : f.payload.length ≤ 2 ^ 20
  · rw [if_pos hsize, if_neg (Nat.not_lt.mpr hsize)]
    rfl
  · rw [if_neg hsize, if_pos (Nat.lt_of_not_le hsize)]

theorem closes_iff (f : ClientFrame) :
    f.closes = true ↔ f.opcode = 8 ∨ 2 ^ 20 < f.payload.length := by
  rw [closes, Bool.or_eq_true, decide_eq_true_eq, decide_eq_true_eq]

/-- One step of the gateway's parser at a frame. -/
theorem appendStep_encode (f : ClientFrame) (rest : Bytes) :
    appendStep true (f.encode ++ rest) =
      if f.closes then .stop []
      else .next true f.encode.length (appendedOf f.opcode f.payload) := by
  rw [appendStep, if_pos rfl, parseFrame_encode]
  by_cases hsize : 2 ^ 20 < f.payload.length
  · rw [if_pos hsize, if_pos (f.closes_iff.mpr (Or.inr hsize))]
  · rw [if_neg hsize]
    by_cases hop : f.opcode = 8
    · rw [if_pos hop, if_pos (f.closes_iff.mpr (Or.inl hop))]
    · rw [if_neg hop, if_neg fun hcloses => (f.closes_iff.mp hcloses).elim hop hsize]

end ClientFrame

/-! ## What the gateway appends -/

/-- What the gateway appends for frames behind one another. -/
def gatewayAppends : List ClientFrame → Bytes
  | [] => []
  | f :: fs => if f.closes then [] else appendedOf f.opcode f.payload ++ gatewayAppends fs

theorem frames_append (frames : List ClientFrame) :
    ∃ r, Parses appending true (frames.flatMap ClientFrame.encode) (gatewayAppends frames) r := by
  induction frames with
  | nil => exact ⟨_, .wait rfl⟩
  | cons f fs ih =>
    have hstep := f.appendStep_encode (fs.flatMap ClientFrame.encode)
    rw [List.flatMap_cons, gatewayAppends]
    by_cases hcloses : f.closes
    · rw [if_pos hcloses] at hstep ⊢
      exact ⟨_, .stop hstep⟩
    · rw [if_neg hcloses] at hstep ⊢
      obtain ⟨r, hparse⟩ := ih
      refine ⟨r, .next hstep ?_⟩
      rw [List.drop_left]
      exact hparse

/-- A request that the gateway answers, and nothing behind it. -/
structure Opens (request : Bytes) : Prop where
  headerEnd : ∃ pos, headerEnd request = some pos ∧ request.length = pos + 4
  key : headerValue request (ascii "Sec-WebSocket-Key") ≠ []

theorem Opens.appendStep {request : Bytes} (h : Opens request) (rest : Bytes) :
    appendStep false (request ++ rest) = .next true request.length [] := by
  obtain ⟨pos, hpos, hlen⟩ := h.headerEnd
  obtain ⟨-, happ⟩ := headerEnd_append hpos rest
  have htake : (request ++ rest).take (pos + 4) = request := List.take_left' hlen
  simp [Gateway.appendStep, happ, htake, h.key, hlen]

/-- **The appends of a connection**, however its bytes are cut. -/
theorem connection_appends {request : Bytes} (h : Opens request) (frames : List ClientFrame)
    {chunks : List Bytes} (hchunks : chunks.flatten = request ++ frames.flatMap ClientFrame.encode) :
    outputs appendRead (some .fresh) chunks = gatewayAppends frames := by
  obtain ⟨r, hframes⟩ := frames_append frames
  have hall : Parses appending false (request ++ frames.flatMap ClientFrame.encode)
      ([] ++ gatewayAppends frames) r := by
    refine .next (h.appendStep _) ?_
    rw [List.drop_left]
    exact hframes
  have hparse := appends_parse chunks
  rw [hchunks] at hparse
  exact (hparse.deterministic hall).1

/-! ## Messages -/

inductive Kind where
  | text
  | binary
  deriving DecidableEq, Repr

namespace ClientFrame

def isControl (f : ClientFrame) : Bool := f.opcode = 8 || f.opcode = 9 || f.opcode = 10

/-- The kind of the message a frame is of, behind frames that left `message` unfinished. -/
def kind (message : Option Kind) (f : ClientFrame) : Option Kind :=
  if f.isControl then none
  else if f.opcode = 0 then message
  else if f.opcode = 2 then some .binary
  else some .text

/-- The message that is unfinished behind the frame. -/
def unfinished (message : Option Kind) (f : ClientFrame) : Option Kind :=
  if f.isControl then message else if f.fin then none else f.kind message

end ClientFrame

/-- A frame that may come next: a data frame where no message is unfinished, else a
continuation. Control frames are whole. -/
def ClientFrame.MayFollow (message : Option Kind) (f : ClientFrame) : Prop :=
  if f.isControl then f.fin = true
  else if message = none then f.opcode = 1 ∨ f.opcode = 2
  else f.opcode = 0

instance (message : Option Kind) (f : ClientFrame) : Decidable (f.MayFollow message) :=
  inferInstanceAs (Decidable (if f.isControl then f.fin = true
    else if message = none then f.opcode = 1 ∨ f.opcode = 2 else f.opcode = 0))

/-- The fragmentation of RFC 6455: a message is a frame with opcode 1 or 2 and frames with
opcode 0 up to the one with FIN; control frames come anywhere. -/
def Fragmented : Option Kind → List ClientFrame → Prop
  | _, [] => True
  | message, f :: fs => f.MayFollow message ∧ Fragmented (f.unfinished message) fs

instance decidableFragmented : ∀ message frames, Decidable (Fragmented message frames)
  | _, [] => .isTrue trivial
  | message, f :: fs =>
    have := decidableFragmented (f.unfinished message) fs
    inferInstanceAs (Decidable (f.MayFollow message ∧ _))

/-- The payloads of the binary messages. -/
def binaryPayload : Option Kind → List ClientFrame → Bytes
  | _, [] => []
  | message, f :: fs =>
    (if f.kind message = some .binary then f.payload else []) ++
      binaryPayload (f.unfinished message) fs

/-- A continuation of a text message that is empty, or another frame. Where the
connection is closed, a frame of a binary message that is empty, or another one. -/
def ClientFrame.IsHarmless (closed : Bool) (message : Option Kind) (f : ClientFrame) : Prop :=
  if closed then f.kind message = some .binary → f.payload = []
  else f.opcode = 0 → f.kind message = some .text → f.payload = []

instance (closed : Bool) (message : Option Kind) (f : ClientFrame) :
    Decidable (f.IsHarmless closed message) :=
  inferInstanceAs (Decidable (if closed then f.kind message = some .binary → f.payload = []
    else f.opcode = 0 → f.kind message = some .text → f.payload = []))

/-- Every frame is harmless; the connection is closed from the first frame on that closes it. -/
def Harmless : Bool → Option Kind → List ClientFrame → Prop
  | _, _, [] => True
  | closed, message, f :: fs =>
    f.IsHarmless (closed || f.closes) message ∧
      Harmless (closed || f.closes) (f.unfinished message) fs

instance decidableHarmless : ∀ closed message frames, Decidable (Harmless closed message frames)
  | _, _, [] => .isTrue trivial
  | closed, message, f :: fs =>
    have := decidableHarmless (closed || f.closes) (f.unfinished message) fs
    inferInstanceAs (Decidable (f.IsHarmless _ message ∧ _))

/-! ## Which messages reach the payload -/

section Exact
variable {message : Option Kind} {f : ClientFrame} {fs : List ClientFrame}

/-- Before the close, a frame appends its part of a binary message except where it
continues a text message. -/
theorem open_exact (hframe : f.MayFollow message) (hopen : f.opcode ≠ 8) :
    (appendedOf f.opcode f.payload = if f.kind message = some .binary then f.payload else []) ↔
      f.IsHarmless false message := by
  unfold ClientFrame.IsHarmless ClientFrame.kind appendedOf
  unfold ClientFrame.MayFollow at hframe
  rw [if_neg Bool.false_ne_true]
  by_cases hcontrol : f.isControl = true
  · have hop : f.opcode = 9 ∨ f.opcode = 10 := by
      simp only [ClientFrame.isControl, Bool.or_eq_true, decide_eq_true_eq] at hcontrol
      rcases hcontrol with (h8 | h9) | h10
      · exact absurd h8 hopen
      · exact Or.inl h9
      · exact Or.inr h10
    have hneither : ¬ (f.opcode = 2 ∨ f.opcode = 0) := by
      rcases hop with hop | hop <;> rw [hop] <;> decide
    rw [if_neg hneither, if_pos hcontrol, if_neg nofun]
    exact ⟨fun _ _ => nofun, fun _ => rfl⟩
  · rw [if_neg hcontrol] at hframe ⊢
    cases message with
    | none =>
      rw [if_pos rfl] at hframe
      rcases hframe with hop | hop
      · have h₁ : ¬ ((1 : UInt8) = 2 ∨ (1 : UInt8) = 0) := by decide
        have h₂ : ¬ (1 : UInt8) = 0 := by decide
        rw [hop, if_neg h₁, if_neg h₂, if_neg (by decide), if_neg (by decide)]
        exact ⟨fun _ hzero => absurd hzero h₂, fun _ => rfl⟩
      · have h₂ : ¬ (2 : UInt8) = 0 := by decide
        rw [hop, if_pos (Or.inl rfl), if_neg h₂, if_pos rfl, if_pos rfl]
        exact ⟨fun _ hzero => absurd hzero h₂, fun _ => rfl⟩
    | some k =>
      rw [if_neg nofun] at hframe
      rw [hframe, if_pos (Or.inr rfl), if_pos rfl]
      cases k with
      | binary =>
        rw [if_pos rfl]
        exact ⟨fun _ _ => nofun, fun _ => rfl⟩
      | text =>
        rw [if_neg (by decide)]
        exact ⟨fun hempty _ _ => hempty, fun himp => himp rfl rfl⟩

/-- Behind the close nothing is appended. -/
theorem closed_exact :
    (([] : Bytes) = if f.kind message = some .binary then f.payload else []) ↔
      f.IsHarmless true message := by
  unfold ClientFrame.IsHarmless
  rw [if_pos rfl]
  by_cases hbinary : f.kind message = some .binary
  · rw [if_pos hbinary]
    exact ⟨fun h _ => h.symm, fun h => (h hbinary).symm⟩
  · rw [if_neg hbinary]
    exact ⟨fun _ h => absurd h hbinary, fun _ => rfl⟩

/-- What the gateway appends, once it may have closed the connection. -/
def appendsFrom (closed : Bool) (frames : List ClientFrame) : Bytes :=
  if closed then [] else gatewayAppends frames

theorem appendsFrom_cons (closed : Bool) :
    appendsFrom closed (f :: fs) =
      (if closed || f.closes then [] else appendedOf f.opcode f.payload) ++
        appendsFrom (closed || f.closes) fs := by
  unfold appendsFrom
  rw [gatewayAppends]
  cases closed <;> cases f.closes <;> rfl

theorem frame_exact (closed : Bool) (h : f.MayFollow message) :
    ((if closed || f.closes then [] else appendedOf f.opcode f.payload) =
        if f.kind message = some .binary then f.payload else []) ↔
      f.IsHarmless (closed || f.closes) message := by
  cases hclosed : (closed || f.closes) with
  | true => exact closed_exact
  | false =>
    have hopen : f.opcode ≠ 8 := fun hop => by
      rw [f.closes_iff.mpr (Or.inl hop), Bool.or_true] at hclosed
      cases hclosed
    exact open_exact h hopen

end Exact

/-- Frame by frame, the appends are the binary messages exactly where nothing harmful is sent. -/
theorem appends_iff_harmless (closed : Bool) {message : Option Kind} {frames : List ClientFrame}
    (h : Fragmented message frames) :
    (∀ past, past <+: frames → appendsFrom closed past = binaryPayload message past) ↔
      Harmless closed message frames := by
  induction frames generalizing closed message with
  | nil =>
    refine ⟨fun _ => trivial, fun _ past hpast => ?_⟩
    obtain rfl := List.prefix_nil.mp hpast
    cases closed <;> rfl
  | cons f fs ih =>
    have hrest := ih (closed || f.closes) h.2
    rw [Harmless, ← frame_exact closed h.1, ← hrest]
    constructor
    · intro hall
      have hframe := hall [f] (List.prefix_cons_inj f |>.mpr (List.nil_prefix))
      have hnil : appendsFrom (closed || f.closes) [] = [] := by
        unfold appendsFrom
        split <;> rfl
      rw [appendsFrom_cons, binaryPayload, hnil, binaryPayload, List.append_nil,
        List.append_nil] at hframe
      refine ⟨hframe, fun past hpast => ?_⟩
      have hboth := hall (f :: past) ((List.prefix_cons_inj f).mpr hpast)
      rw [appendsFrom_cons, binaryPayload, hframe] at hboth
      exact List.append_cancel_left hboth
    · rintro ⟨hframe, hpasts⟩ past hpast
      cases past with
      | nil => cases closed <;> rfl
      | cons g past =>
        obtain ⟨rfl, hbehind⟩ := List.cons_prefix_cons.mp hpast
        rw [appendsFrom_cons, binaryPayload, hframe, hpasts past hbehind]

/-- **When only binary messages carry orders.** A connection is sent a request that opens it
and frames that obey the fragmentation of RFC 6455, in any chunks. After every frame the
bytes appended so far are the payloads of the binary messages, exactly where the
continuations of text messages that come before a close are empty, and so is what binary
messages have at or behind the close. -/
theorem binary_only_iff {request : Bytes} (hopens : Opens request) {frames : List ClientFrame}
    (hfragmented : Fragmented none frames) :
    (∀ past, past <+: frames → ∀ chunks : List Bytes,
        chunks.flatten = request ++ past.flatMap ClientFrame.encode →
          outputs appendRead (some .fresh) chunks = binaryPayload none past) ↔
      Harmless false none frames := by
  rw [← appends_iff_harmless false hfragmented]
  constructor
  · intro hall past hpast
    have hone := hall past hpast [request ++ past.flatMap ClientFrame.encode] (by simp)
    rw [connection_appends hopens past (by simp)] at hone
    exact hone
  · intro hall past hpast chunks hchunks
    rw [connection_appends hopens past hchunks]
    exact hall past hpast

theorem upgradeRequest_opens : Opens upgradeRequest :=
  ⟨⟨upgradeRequest.length - 4, by decide, by decide⟩, by decide⟩

/-- A text message in two frames, an order in the second one. -/
def textFragments : List ClientFrame :=
  [⟨0x01, fun _ => 1, [], by decide⟩, ⟨0x80, fun _ => 2, List.replicate 32 7, by decide⟩]

/-- The order of a text message is enqueued. -/
theorem textFragments_enqueued :
    let bytes := upgradeRequest ++ textFragments.flatMap ClientFrame.encode
    Opens upgradeRequest ∧ Fragmented none textFragments ∧ binaryPayload none textFragments = [] ∧
      outputs appendRead (some .fresh) [bytes] = List.replicate 32 7 ∧
      ordersOf (outputs handleRead (some .fresh) [bytes]) =
        [.enqueueOrder (.decode (List.replicate 32 7))] := by
  refine ⟨upgradeRequest_opens, by decide, by decide, ?_, ?_⟩ <;> decide +kernel

/-- A binary message in two frames with a ping between them. -/
def binaryFragments : List ClientFrame :=
  [⟨0x02, fun _ => 1, [1, 2, 3], by decide⟩, ⟨0x89, fun _ => 3, [9], by decide⟩,
    ⟨0x80, fun _ => 2, [4, 5], by decide⟩]

theorem binaryFragments_append :
    outputs appendRead (some .fresh)
      [upgradeRequest ++ binaryFragments.flatMap ClientFrame.encode] = [1, 2, 3, 4, 5] :=
  (binary_only_iff upgradeRequest_opens (show Fragmented none binaryFragments by decide)).mpr
    (by decide) binaryFragments (List.prefix_refl _) _ (List.flatten_singleton)

end TradePlat.Gateway
