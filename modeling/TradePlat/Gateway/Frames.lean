import TradePlat.Gateway.Segmentation

/-!
# Frames of a bot (`main.py`)

`Bot.websocket_binary_frame` writes a payload in a masked binary frame, with one
of three encodings of its length. The frame loop of the gateway undoes it
(`parseFrame_encoded`): it reads the length back, takes off the mask and consumes
exactly the frame. So a list of frames is parsed to the messages in their joined
payloads (`frames_decode`).
-/

namespace TradePlat.Gateway
open Runs Incremental

/-! ## The encoder -/

abbrev Mask := Fin 4 → UInt8

/-- The opcode and the length. `none` where `to_bytes(8, "big")` overflows. -/
def frameHeader (payloadLen : Nat) : Option Bytes :=
  if payloadLen < 126 then some [0x82, 0x80 ||| UInt8.ofNat payloadLen]
  else if payloadLen ≤ 0xFFFF then some ([0x82, 0x80 ||| 126] ++ bigEndian 2 payloadLen)
  else if payloadLen < 2 ^ 64 then some ([0x82, 0x80 ||| 127] ++ bigEndian 8 payloadLen)
  else none

/-- `Bot.websocket_binary_frame`, with the mask it draws. -/
def websocketBinaryFrame (mask : Mask) (payload : Bytes) : Option Bytes :=
  (frameHeader payload.length).map fun header =>
    header ++ List.ofFn mask ++ payload.mapIdx fun i c => c ^^^ mask (Fin.ofNat 4 i)

/-- The frames of a list of payloads, one behind the other. -/
def websocketBinaryFrames (frames : List (Mask × Bytes)) : Option Bytes :=
  (frames.mapM fun f => websocketBinaryFrame f.1 f.2).map List.flatten

/-! ## Lengths -/

theorem foldl_bigEndian (n value acc : Nat) :
    (bigEndian n value).foldl (fun n c => n * 256 + c.toNat) acc =
      acc * 256 ^ n + value % 256 ^ n := by
  induction n generalizing acc with
  | zero => simp [bigEndian, Nat.mod_one]
  | succ n ih =>
    have hbyte : (UInt8.ofNat (value >>> (n * 8))).toNat = value / 256 ^ n % 256 := by
      rw [UInt8.toNat_ofNat', Nat.shiftRight_eq_div_pow, Nat.mul_comm n 8, Nat.pow_mul]
    rw [bigEndian_succ, List.foldl_cons, ih, hbyte, Nat.pow_succ, Nat.mod_mul]
    ring

theorem shortLength {n : Nat} (h : n < 126) :
    ((0x80 ||| UInt8.ofNat n) &&& 0x7F).toNat = n ∧ (0x80 ||| UInt8.ofNat n) &&& 0x80 ≠ 0 := by
  have hall : ∀ n : Fin 126, ((0x80 ||| UInt8.ofNat n.val) &&& 0x7F).toNat = n.val ∧
      (0x80 ||| UInt8.ofNat n.val) &&& 0x80 ≠ 0 := by decide
  exact hall ⟨n, h⟩

/-- The length field behind the first two bytes. -/
theorem frameLength_cons (b₀ b₁ : UInt8) (l : Bytes) :
    frameLength (b₀ :: b₁ :: l) =
      if (b₁ &&& 0x7F).toNat = 126 then
        if l.length < 2 then none else some ((l.getD 0 0).toNat * 256 + (l.getD 1 0).toNat, 4)
      else if (b₁ &&& 0x7F).toNat = 127 then
        if l.length < 8 then none
        else some ((l.take 8).foldl (fun n c => n * 256 + c.toNat) 0, 10)
      else some ((b₁ &&& 0x7F).toNat, 2) := by
  unfold frameLength
  have h₄ : (b₀ :: b₁ :: l).length < 4 ↔ l.length < 2 := by simp only [List.length_cons]; omega
  have h₁₀ : (b₀ :: b₁ :: l).length < 10 ↔ l.length < 8 := by simp only [List.length_cons]; omega
  simp only [h₄, h₁₀]
  rfl

/-- The gateway reads the length the bot wrote. -/
theorem frameHeader_spec {n : Nat} {header : Bytes} (h : frameHeader n = some header)
    (rest : Bytes) :
    2 ≤ header.length ∧ frameLength (header ++ rest) = some (n, header.length) ∧
      (header ++ rest).getD 0 0 &&& 0x0F = 2 ∧ (header ++ rest).getD 1 0 &&& 0x80 ≠ 0 := by
  have hopcode : (0x82 : UInt8) &&& 0x0F = 2 := by decide
  unfold frameHeader at h
  split at h
  · rename_i hn
    cases h
    obtain ⟨hlen, hmask⟩ := shortLength hn
    refine ⟨Nat.le_refl _, ?_, hopcode, hmask⟩
    simp only [List.cons_append, List.nil_append, frameLength_cons, hlen]
    rw [if_neg (by omega), if_neg (by omega)]
    rfl
  · split at h
    · rename_i hn
      cases h
      have hlen : ((0x80 ||| 126 : UInt8) &&& 0x7F).toNat = 126 := by decide
      have hmask : (0x80 ||| 126 : UInt8) &&& 0x80 ≠ 0 := by decide
      have hfold := foldl_bigEndian 2 n 0
      rw [Nat.mod_eq_of_lt (by omega)] at hfold
      refine ⟨by simp, ?_, hopcode, hmask⟩
      simp only [List.cons_append, List.nil_append, frameLength_cons, hlen, ↓reduceIte]
      rw [if_neg (by rw [List.length_append, bigEndian_length]; omega)]
      simp only [bigEndian_succ, List.foldl_cons] at hfold ⊢
      simp only [List.length_cons, bigEndian_length]
      simpa [bigEndian] using hfold
    · split at h
      · rename_i hn
        cases h
        have hlen : ((0x80 ||| 127 : UInt8) &&& 0x7F).toNat = 127 := by decide
        have hmask : (0x80 ||| 127 : UInt8) &&& 0x80 ≠ 0 := by decide
        have hfold := foldl_bigEndian 8 n 0
        rw [Nat.mod_eq_of_lt (by omega), Nat.zero_mul, Nat.zero_add] at hfold
        refine ⟨by simp, ?_, hopcode, hmask⟩
        simp only [List.cons_append, List.nil_append, frameLength_cons, hlen]
        rw [if_neg (by decide), if_pos trivial,
          if_neg (by rw [List.length_append, bigEndian_length]; omega),
          List.take_left' (bigEndian_length 8 n), hfold]
        simp only [List.length_cons, bigEndian_length]
      · cases h

/-! ## Frames -/

theorem unmask_mask (mask : Mask) (payload : Bytes) :
    unmask (fun i => (List.ofFn mask).getD i 0)
      (payload.mapIdx fun i c => c ^^^ mask (Fin.ofNat 4 i)) = payload := by
  have hmask : ∀ i, (List.ofFn mask).getD (i % 4) 0 = mask (Fin.ofNat 4 i) := by
    intro i
    have hlt : i % 4 < (List.ofFn mask).length := by
      rw [List.length_ofFn]
      omega
    rw [List.getD, List.getElem?_eq_getElem hlt, List.getElem_ofFn]
    rfl
  unfold unmask
  refine List.ext_getElem (by simp) fun i hi _ => ?_
  simp only [List.getElem_mapIdx, hmask, UInt8.xor_assoc, UInt8.xor_self, UInt8.xor_zero]

/-- **The frame loop undoes the encoder**, up to the largest payload it takes. -/
theorem parseFrame_encoded {mask : Mask} {payload encoded : Bytes}
    (h : websocketBinaryFrame mask payload = some encoded) (rest : Bytes) :
    parseFrame (encoded ++ rest) =
      if payload.length ≤ 2 ^ 20 then .frame 2 payload encoded.length else .close 0 := by
  obtain ⟨header, hheader, rfl⟩ := Option.map_eq_some_iff.mp h
  generalize hmasked : (payload.mapIdx fun i c => c ^^^ mask (Fin.ofNat 4 i)) = masked
  have hmaskedLen : masked.length = payload.length := by rw [← hmasked, List.length_mapIdx]
  have hmaskLen : (List.ofFn mask).length = 4 := List.length_ofFn
  obtain ⟨h2, hlen, hopcode, hmask⟩ :=
    frameHeader_spec hheader (List.ofFn mask ++ masked ++ rest)
  have hall : header ++ List.ofFn mask ++ masked ++ rest =
      header ++ (List.ofFn mask ++ masked ++ rest) := by simp only [List.append_assoc]
  unfold parseFrame
  rw [hall, if_neg (by rw [List.length_append]; omega), hlen]
  dsimp only
  rw [if_neg hmask]
  by_cases hsize : payload.length ≤ 2 ^ 20
  · have hbytes : (fun i => (header ++ (List.ofFn mask ++ masked ++ rest)).getD
        (header.length + i) 0) = fun i => (List.ofFn mask ++ masked ++ rest).getD i 0 := by
      funext i
      simp [List.getD, List.getElem?_append_right]
    have hpayload : ((header ++ (List.ofFn mask ++ masked ++ rest)).drop
        (header.length + 4)).take payload.length = masked := by
      rw [← List.drop_drop, List.drop_left' rfl, List.append_assoc, List.drop_left' hmaskLen,
        List.take_left' hmaskedLen]
    rw [if_neg (by omega), if_pos hsize, hopcode, if_neg (by
      simp only [List.length_append]
      omega), if_neg (by decide), hbytes, hpayload]
    congr 1
    · have hcongr : ∀ i < 4, (List.ofFn mask ++ masked ++ rest).getD i 0 =
          (List.ofFn mask).getD i 0 := by
        intro i hi
        rw [List.append_assoc, getD_append (by omega)]
      rw [unmask_congr hcongr, ← hmasked, unmask_mask]
    · simp only [List.length_append]
      omega
  · rw [if_pos (by omega), if_neg hsize]

/-! ## Lists of frames -/

theorem recordsOf_append (front back : Bytes) :
    recordsOf (front ++ back) = recordsOf front ++ recordsOf (remainderOf front ++ back) ∧
      remainderOf (front ++ back) = remainderOf (remainderOf front ++ back) := by
  induction hn : front.length using Nat.strongRecOn generalizing front with
  | _ n ih =>
    by_cases hshort : front.length < msgSize
    · obtain ⟨hr, hm⟩ := recordsOf_short hshort
      rw [hr, hm]
      exact ⟨rfl, rfl⟩
    · have hlong : msgSize ≤ front.length := by omega
      have hsize : msgSize = 32 := rfl
      obtain ⟨hr, hm⟩ := recordsOf_long hlong
      obtain ⟨hr', hm'⟩ := recordsOf_long
        (show msgSize ≤ (front ++ back).length by rw [List.length_append]; omega)
      obtain ⟨ihr, ihm⟩ := ih (front.drop msgSize).length
        (by rw [List.length_drop]; omega) (front.drop msgSize) rfl
      rw [hr', hm', List.drop_append_of_le_length hlong, List.take_append_of_le_length hlong,
        ihr, ihm, hr, hm]
      exact ⟨rfl, rfl⟩

/-- The records and the remainder are the payload, cut every 32 bytes. -/
theorem recordsOf_flatten (payload : Bytes) :
    (recordsOf payload).flatten ++ remainderOf payload = payload ∧
      (∀ r ∈ recordsOf payload, r.length = msgSize) ∧ (remainderOf payload).length < msgSize := by
  induction hn : payload.length using Nat.strongRecOn generalizing payload with
  | _ n ih =>
    by_cases hshort : payload.length < msgSize
    · obtain ⟨hr, hm⟩ := recordsOf_short hshort
      rw [hr, hm]
      exact ⟨rfl, by simp, hshort⟩
    · have hlong : msgSize ≤ payload.length := by omega
      have hsize : msgSize = 32 := rfl
      obtain ⟨hr, hm⟩ := recordsOf_long hlong
      obtain ⟨ihf, ihr, ihm⟩ := ih (payload.drop msgSize).length
        (by rw [List.length_drop]; omega) (payload.drop msgSize) rfl
      rw [hr, hm]
      refine ⟨?_, ?_, ihm⟩
      · rw [List.flatten_cons, List.append_assoc, ihf, List.take_append_drop]
      · intro r hmem
        rcases List.mem_cons.mp hmem with rfl | hmem
        · rw [List.length_take]
          omega
        · exact ihr r hmem

theorem enqueued_append (front back : Bytes) :
    enqueued (front ++ back) = enqueued front ++ enqueued (remainderOf front ++ back) := by
  rw [enqueued, (recordsOf_append front back).1, List.map_append]
  rfl

theorem websocketBinaryFrames_cons {mask : Mask} {payload : Bytes} {frames : List (Mask × Bytes)}
    {encoded : Bytes} (h : websocketBinaryFrames ((mask, payload) :: frames) = some encoded) :
    ∃ first more, websocketBinaryFrame mask payload = some first ∧
      websocketBinaryFrames frames = some more ∧ encoded = first ++ more := by
  unfold websocketBinaryFrames at h ⊢
  rw [List.mapM_cons] at h
  obtain ⟨parts, hparts, rfl⟩ := Option.map_eq_some_iff.mp h
  obtain ⟨first, hfirst, hparts⟩ := Option.bind_eq_some_iff.mp hparts
  obtain ⟨more, hmore, hparts⟩ := Option.bind_eq_some_iff.mp hparts
  cases hparts
  exact ⟨first, more.flatten, hfirst, by rw [hmore]; rfl, List.flatten_cons⟩

theorem websocketBinaryFrames_exists {frames : List (Mask × Bytes)}
    (hsize : ∀ f ∈ frames, f.2.length ≤ 2 ^ 20) :
    ∃ encoded, websocketBinaryFrames frames = some encoded := by
  induction frames with
  | nil => exact ⟨[], rfl⟩
  | cons f frames ih =>
    obtain ⟨more, hmore⟩ := ih fun f' hf' => hsize f' (by simp [hf'])
    obtain ⟨parts, hparts, -⟩ := Option.map_eq_some_iff.mp hmore
    have hlen := hsize f (by simp)
    obtain ⟨header, hheader⟩ : ∃ header, frameHeader f.2.length = some header := by
      unfold frameHeader
      split_ifs
      · exact ⟨_, rfl⟩
      · exact ⟨_, rfl⟩
      · exact ⟨_, rfl⟩
      · omega
    have hframe : ∃ first, websocketBinaryFrame f.1 f.2 = some first :=
      ⟨_, by rw [websocketBinaryFrame, hheader]; rfl⟩
    obtain ⟨first, hfirst⟩ := hframe
    exact ⟨(first :: parts).flatten, by
      rw [websocketBinaryFrames, List.mapM_cons, hparts, hfirst]; rfl⟩

/-- Frames of at most `2 ^ 20` bytes are parsed to the messages in their payloads. -/
theorem frames_parse {frames : List (Mask × Bytes)} (hsize : ∀ f ∈ frames, f.2.length ≤ 2 ^ 20)
    {encoded : Bytes} (h : websocketBinaryFrames frames = some encoded) {part rest : Bytes}
    (hpart : part.length < msgSize) {out : List Action} {r : Option (Mode × Bytes)}
    (hrest : Parses gateway ⟨true, remainderOf (part ++ frames.flatMap Prod.snd)⟩ rest out r) :
    Parses gateway ⟨true, part⟩ (encoded ++ rest)
      (enqueued (part ++ frames.flatMap Prod.snd) ++ out) r := by
  induction frames generalizing part encoded with
  | nil =>
    obtain rfl : encoded = [] := by simpa [websocketBinaryFrames, eq_comm] using h
    simp only [List.flatMap_nil, List.append_nil] at hrest ⊢
    rw [(recordsOf_short hpart).2] at hrest
    rw [enqueued, (recordsOf_short hpart).1]
    exact hrest
  | cons f frames ih =>
    obtain ⟨mask, payload⟩ := f
    obtain ⟨first, more, hfirst, hmore, rfl⟩ := websocketBinaryFrames_cons h
    have hframe := parseFrame_encoded hfirst (more ++ rest)
    rw [if_pos (hsize (mask, payload) (by simp))] at hframe
    have hstep : gateway.step ⟨true, part⟩ (first ++ (more ++ rest)) =
        .next ⟨true, remainderOf (part ++ payload)⟩ first.length (enqueued (part ++ payload)) := by
      rw [gateway_step, gatewayStep_ready rfl, hframe]
      rfl
    rw [List.flatMap_cons, ← List.append_assoc, enqueued_append, List.append_assoc,
      List.append_assoc]
    rw [List.flatMap_cons, ← List.append_assoc, (recordsOf_append _ _).2] at hrest
    refine .next hstep ?_
    rw [List.drop_left' rfl]
    exact ih (fun f hf => hsize f (by simp [hf])) hmore (recordsOf_flatten _).2.2 hrest

/-! ## Connections -/

/-- The payload bytes kept between frames never make a message. -/
theorem partialMessage_short {mode mode' : Mode} {buf buf' : Bytes} {out : List Action}
    (h : Parses gateway mode buf out (some (mode', buf')))
    (hshort : mode.partialMessage.length < msgSize) : mode'.partialMessage.length < msgSize := by
  generalize hr : (some (mode', buf') : Option (Mode × Bytes)) = r at h
  induction h with
  | wait _ =>
    cases hr
    exact hshort
  | stop _ => cases hr
  | @next mode s buf n out out' r hn _ ih =>
    refine ih ?_ hr
    rw [gateway_step] at hn
    cases hready : mode.websocketReady with
    | true =>
      rw [gatewayStep_ready hready] at hn
      cases hf : parseFrame buf with
      | incomplete => simp [hf] at hn
      | close _ => simp [hf] at hn
      | frame opcode payload consumed =>
        simp only [hf] at hn
        split at hn
        · cases hn
          exact (recordsOf_flatten _).2.2
        · cases hn
          exact hshort
    | false =>
      cases hpos : headerEnd buf with
      | none => simp [gatewayStep, hready, hpos] at hn
      | some pos =>
        rw [gatewayStep_handshake hready hpos] at hn
        split at hn
        · cases hn
        · cases hn
          exact hshort

theorem reads_valid {rb rb' : RingBuffer} (hv : rb.Valid) {chunks : List Bytes}
    (h : (run handleRead (some rb) chunks).1 = some rb') : rb'.Valid := by
  induction chunks generalizing rb with
  | nil =>
    cases h
    exact hv
  | cons chunk chunks ih =>
    simp only [run] at h
    cases hr : (handleRead (some rb) chunk).1 with
    | none =>
      rw [hr] at h
      rw [(run_stopped (fun _ => rfl) chunks).1] at h
      cases h
    | some rb₁ =>
      rw [hr] at h
      exact ih ((handleRead_parses hv chunk).2 rb₁ hr) h

/-- **Frame decoding undoes frame encoding.** A connection `rb` past its handshake
with nothing unread is sent the frames of payloads of at most `2 ^ 20` bytes, in
any chunks. It stays open with nothing unread; the orders passed on are the
records of the joined payload, behind what the connection still held of an order;
and the rest of it is held. If a frame of a larger payload follows, the
connection is closed behind the same orders. -/
theorem frames_decode (earlier : List Bytes) (rb : RingBuffer)
    (hrb : (run handleRead (some .fresh) earlier).1 = some rb) (hready : rb.websocketReady = true)
    (hunread : rb.data.drop rb.readPtr = []) (frames : List (Mask × Bytes))
    (hsize : ∀ f ∈ frames, f.2.length ≤ 2 ^ 20) :
    let payload := rb.payload.drop rb.payloadReadPtr ++ frames.flatMap Prod.snd
    let orders := (recordsOf payload).map fun r => Action.enqueueOrder (.decode r)
    ∃ encoded, websocketBinaryFrames frames = some encoded ∧
      (∀ chunks : List Bytes, chunks.flatten = encoded →
        outputs handleRead (some rb) chunks = orders ∧
          ∃ rb', (run handleRead (some rb) chunks).1 = some rb' ∧
            rb'.websocketReady = true ∧ rb'.data.drop rb'.readPtr = [] ∧
            rb'.payload.drop rb'.payloadReadPtr = remainderOf payload) ∧
      (∀ mask large frame, 2 ^ 20 < large.length →
        websocketBinaryFrame mask large = some frame →
        ∀ (chunks : List Bytes) (rest : Bytes), chunks.flatten = encoded ++ frame ++ rest →
          outputs handleRead (some rb) chunks = orders ++ [.close] ∧
            (run handleRead (some rb) chunks).1 = none) := by
  intro payload orders
  have hv := reads_valid RingBuffer.valid_fresh hrb
  have hview : rb.view = (⟨true, rb.payload.drop rb.payloadReadPtr⟩, []) := by
    rw [RingBuffer.view, hready, hunread]
  have hwait : gatewayStep rb.view.1 rb.view.2 = .wait := by
    rw [hview]
    rfl
  have hpart : (rb.payload.drop rb.payloadReadPtr).length < msgSize := by
    have hparse := reads_parse RingBuffer.valid_fresh rfl earlier
    rw [hrb, Option.map_some, hview] at hparse
    exact partialMessage_short hparse (by decide)
  have hreads := reads_parse hv hwait
  simp only [hview, List.nil_append] at hreads
  obtain ⟨encoded, hencoded⟩ := websocketBinaryFrames_exists hsize
  refine ⟨encoded, hencoded, fun chunks hchunks => ?_, ?_⟩
  · have hend : Parses gateway ⟨true, remainderOf payload⟩ [] []
        (some (⟨true, remainderOf payload⟩, [])) := .wait rfl
    have hparse := frames_parse hsize hencoded hpart hend
    rw [List.append_nil, List.append_nil, ← hchunks] at hparse
    obtain ⟨hout, hfinal⟩ := (hreads chunks).deterministic hparse
    obtain ⟨rb', hrb', hview'⟩ := Option.map_eq_some_iff.mp hfinal
    simp only [RingBuffer.view, Prod.mk.injEq, Mode.mk.injEq] at hview'
    exact ⟨hout, rb', hrb', hview'.1.1, hview'.2, hview'.1.2⟩
  · intro mask large frame hlarge hframe chunks rest hchunks
    have hstop : gateway.step ⟨true, remainderOf payload⟩ (frame ++ rest) = .stop [.close] := by
      rw [gateway_step, gatewayStep_ready rfl, parseFrame_encoded hframe, if_neg (by omega)]
    have hparse := frames_parse hsize hencoded hpart (Parses.stop hstop)
    rw [← List.append_assoc, ← hchunks] at hparse
    obtain ⟨hout, hfinal⟩ := (hreads chunks).deterministic hparse
    exact ⟨hout, Option.map_eq_none_iff.mp hfinal⟩

/-- A message straddles two frames: it is cut at the 32nd byte. -/
theorem straddlingFrames_decode :
    ∃ encoded,
      websocketBinaryFrames [(fun _ => 1, [1, 2, 3]), (fun i => i.val.toUInt8, List.replicate 30 7)]
        = some encoded ∧
      ∀ chunks : List Bytes, chunks.flatten = encoded →
        outputs handleRead (some ⟨[], 0, [], 0, true⟩) chunks =
          [.enqueueOrder (.decode ([1, 2, 3] ++ List.replicate 29 7))] := by
  have hrb : (run handleRead (some .fresh) [upgradeRequest]).1 = some ⟨[], 0, [], 0, true⟩ := by
    decide +kernel
  obtain ⟨encoded, hencoded, hdecode, -⟩ := frames_decode [upgradeRequest] _ hrb rfl rfl
    [(fun _ => 1, [1, 2, 3]), (fun i => i.val.toUInt8, List.replicate 30 7)] (by decide)
  refine ⟨encoded, hencoded, fun chunks hchunks => ?_⟩
  rw [(hdecode chunks hchunks).1]
  decide +kernel

end TradePlat.Gateway
