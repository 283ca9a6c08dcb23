import Mathlib.Data.List.Infix
import TradePlat.Gateway.Segmentation
import TradePlat.Gateway.Digest

/-!
# The upgrade (`TCPServer.cpp`, `main.py`)

A head is a first line, header lines and a blank line. The gateway finds its end
(`headerEnd_bytes`) and the value of its first `Sec-WebSocket-Key` header
(`headerValue_bytes`), whatever else it contains, so it takes off exactly the head
and reads the bytes behind it as frames (`handshake_agreement`). The response is a
head too, and passes the test of `Bot.connect`.
-/

namespace TradePlat.Gateway
open Runs Incremental

/-! ## Heads -/

/-- A text without a line end in it. -/
def OneLine (text : Bytes) : Prop := 13 ∉ text ∧ 10 ∉ text

instance (text : Bytes) : Decidable (OneLine text) := inferInstanceAs (Decidable (_ ∧ _))

theorem OneLine.append {text text' : Bytes} (h : OneLine text) (h' : OneLine text') :
    OneLine (text ++ text') := by
  constructor
  · rw [List.mem_append]
    exact not_or.mpr ⟨h.1, h'.1⟩
  · rw [List.mem_append]
    exact not_or.mpr ⟨h.2, h'.2⟩

structure Header where
  name : Bytes
  value : Bytes
  name_oneLine : OneLine name
  name_colon : 58 ∉ name
  value_oneLine : OneLine value

/-- The text of a header line. -/
def Header.text (h : Header) : Bytes := h.name ++ 58 :: h.value

structure HttpHead where
  firstLine : Bytes
  headers : List Header
  firstLine_oneLine : OneLine firstLine
  firstLine_colon : 58 ∉ firstLine

def crlf : Bytes := [13, 10]

def headerBytes (headers : List Header) : Bytes := headers.flatMap fun h => h.text ++ crlf

def HttpHead.bytes (r : HttpHead) : Bytes := r.firstLine ++ (crlf ++ (headerBytes r.headers ++ crlf))

/-- The first header with the name in any letter case, without white space around it;
empty if there is none. -/
def HttpHead.value (r : HttpHead) (name : Bytes) : Bytes :=
  ((r.headers.find? fun h => lower h.name = lower name).map fun h => trim h.value).getD []

theorem Header.text_oneLine (h : Header) : OneLine h.text :=
  h.name_oneLine.append ((show OneLine [58] by decide).append h.value_oneLine)

/-! ## The end of a head -/

theorem headerEnd_append_of_not_mem {line : Bytes} (h : 13 ∉ line) (rest : Bytes) :
    headerEnd (line ++ rest) = (headerEnd rest).map (· + line.length) := by
  induction line with
  | nil => simp
  | cons c line ih =>
    have hc : ¬[13, 10, 13, 10].isPrefixOf (c :: (line ++ rest)) = true := by
      have : c ≠ 13 := fun hc => h (hc ▸ List.mem_cons_self)
      simp [List.isPrefixOf, this.symm]
    rw [List.cons_append, headerEnd, if_neg hc, ih fun hm => h (List.mem_cons_of_mem c hm),
      Option.map_map]
    congr 1

theorem headerEnd_crlf {rest : Bytes} (h : rest.head? ≠ some 13) :
    headerEnd (crlf ++ rest) = (headerEnd rest).map (· + 2) := by
  have hstart : ¬[13, 10, 13, 10].isPrefixOf (13 :: 10 :: rest) = true := by
    cases rest with
    | nil => decide
    | cons c rest =>
      have : c ≠ 13 := fun hc => h (by rw [hc, List.head?_cons])
      simp [List.isPrefixOf, this.symm]
  have hfeed : headerEnd (10 :: rest) = (headerEnd rest).map (· + 1) :=
    headerEnd_append_of_not_mem (show 13 ∉ [10] by decide) rest
  change headerEnd (13 :: 10 :: rest) = _
  rw [headerEnd, if_neg hstart, hfeed, Option.map_map]
  rfl

theorem head_text {h : Header} (rest : Bytes) : (h.text ++ rest).head? ≠ some 13 := by
  have hname := h.name_oneLine.1
  unfold Header.text
  cases hn : h.name with
  | nil => simp
  | cons c name =>
    rw [hn] at hname
    have : c ≠ 13 := fun hc => hname (hc ▸ List.mem_cons_self)
    simpa using this

theorem headerEnd_headers (headers : List Header) (more : Bytes) :
    headerEnd (crlf ++ (headerBytes headers ++ (crlf ++ more))) =
      some (headerBytes headers).length := by
  induction headers with
  | nil => rfl
  | cons h headers ih =>
    have hsplit : headerBytes (h :: headers) ++ (crlf ++ more) =
        h.text ++ (crlf ++ (headerBytes headers ++ (crlf ++ more))) := by
      simp only [headerBytes, List.flatMap_cons, List.append_assoc]
    rw [hsplit, headerEnd_crlf (head_text _), headerEnd_append_of_not_mem h.text_oneLine.1, ih]
    simp only [headerBytes, List.flatMap_cons, List.length_append, Option.map_some, crlf,
      List.length_cons, List.length_nil]
    congr 1
    omega

/-- The search stops at the blank line. -/
theorem headerEnd_bytes (r : HttpHead) (more : Bytes) :
    ∃ pos, headerEnd (r.bytes ++ more) = some pos ∧ pos + 4 = r.bytes.length := by
  refine ⟨(headerBytes r.headers).length + r.firstLine.length, ?_, ?_⟩
  · simp only [HttpHead.bytes, List.append_assoc]
    rw [headerEnd_append_of_not_mem r.firstLine_oneLine.1, headerEnd_headers]
    rfl
  · simp only [HttpHead.bytes, List.length_append, crlf, List.length_cons, List.length_nil]
    omega

/-- Before the last byte of a head there is no blank line. -/
theorem headerEnd_before {r : HttpHead} {front back : Bytes} (h : front ++ back = r.bytes)
    (hback : back ≠ []) : headerEnd front = none := by
  cases hfront : headerEnd front with
  | none => rfl
  | some pos =>
    obtain ⟨hlen, happ⟩ := headerEnd_append hfront back
    obtain ⟨pos', hpos', hend⟩ := headerEnd_bytes r []
    rw [List.append_nil, ← h, happ] at hpos'
    cases hpos'
    have hlength := congrArg List.length h
    have hpositive := List.length_pos_iff.mpr hback
    rw [List.length_append] at hlength
    omega

/-! ## The value of a header -/

theorem getLines_line {line : Bytes} (h : 10 ∉ line) (rest : Bytes) :
    getLines (line ++ 10 :: rest) = line :: getLines rest := by
  induction line with
  | nil => rw [List.nil_append, getLines, if_pos rfl]
  | cons c line ih =>
    have hc : c ≠ 10 := fun hc => h (hc ▸ List.mem_cons_self)
    rw [List.cons_append, getLines, if_neg hc, ih fun hm => h (List.mem_cons_of_mem c hm)]

theorem getLines_crlf {line : Bytes} (h : OneLine line) (rest : Bytes) :
    getLines (line ++ (crlf ++ rest)) = (line ++ [13]) :: getLines rest := by
  have hline : 10 ∉ line ++ [13] := by
    rw [List.mem_append]
    exact not_or.mpr ⟨h.2, by decide⟩
  rw [← getLines_line hline, List.append_assoc]
  rfl

theorem lineValue_text (target : Bytes) (h : Header) :
    lineValue target (h.text ++ [13]) =
      if lower h.name = target then some (trim h.value) else none := by
  have hname : ∀ c ∈ h.name, (c ≠ 58 : Bool) = true := by
    intro c hc
    exact decide_eq_true fun h58 => h.name_colon (h58 ▸ hc)
  have htake : h.text.takeWhile (· ≠ 58) = h.name := by
    rw [Header.text, List.takeWhile_append_of_pos hname]
    simp
  have hdrop : h.text.dropWhile (· ≠ 58) = 58 :: h.value := by
    rw [Header.text, List.dropWhile_append_of_pos hname]
    simp
  have hcolon : 58 ∈ h.text := by simp [Header.text]
  unfold lineValue
  simp only [List.getLast?_concat, if_true, List.dropLast_concat, if_pos hcolon, htake, hdrop,
    List.drop_succ_cons, List.drop_zero]

theorem lineValue_noColon {line : Bytes} (h : 58 ∉ line) (target : Bytes) :
    lineValue target (line ++ [13]) = none := by
  unfold lineValue
  simp only [List.getLast?_concat, if_true, List.dropLast_concat, if_neg h]

theorem findSome_headers (target : Bytes) (headers : List Header) :
    (getLines (headerBytes headers ++ crlf)).findSome? (lineValue target) =
      (headers.find? fun h => lower h.name = target).map fun h => trim h.value := by
  induction headers with
  | nil =>
    have hblank : getLines (headerBytes [] ++ crlf) = [[] ++ [13]] := rfl
    rw [hblank, List.findSome?_cons, lineValue_noColon (show 58 ∉ [] by decide)]
    rfl
  | cons h headers ih =>
    have hlines : getLines (headerBytes (h :: headers) ++ crlf) =
        (h.text ++ [13]) :: getLines (headerBytes headers ++ crlf) := by
      rw [← getLines_crlf h.text_oneLine]
      simp only [headerBytes, List.flatMap_cons, List.append_assoc]
    rw [hlines, List.findSome?_cons, lineValue_text, List.find?_cons]
    by_cases hname : lower h.name = target
    · simp [hname]
    · simp [hname, ih]

/-- The scan of the lines finds the first header with the name. -/
theorem headerValue_bytes (r : HttpHead) (name : Bytes) :
    headerValue r.bytes name = r.value name := by
  have hlines : getLines r.bytes =
      (r.firstLine ++ [13]) :: getLines (headerBytes r.headers ++ crlf) := by
    rw [HttpHead.bytes, getLines_crlf r.firstLine_oneLine]
  rw [headerValue, hlines, List.findSome?_cons, lineValue_noColon r.firstLine_colon]
  simp only [findSome_headers]
  rfl

/-- The value of a header is that of the first one with the name. -/
theorem HttpHead.value_of_first {r : HttpHead} {name : Bytes} {before after : List Header}
    {h : Header} (hheaders : r.headers = before ++ h :: after)
    (hbefore : ∀ h' ∈ before, lower h'.name ≠ lower name) (hname : lower h.name = lower name) :
    r.value name = trim h.value := by
  have hnone : before.find? (fun h' => lower h'.name = lower name) = none := by
    rw [List.find?_eq_none]
    intro h' hmem heq
    exact hbefore h' hmem (of_decide_eq_true heq)
  rw [HttpHead.value, hheaders, List.find?_append, hnone, Option.none_or]
  simp only [List.find?_cons, hname, decide_true, Option.map_some, Option.getD_some]

/-! ## The gateway on a head -/

def websocketKey : Bytes := ascii "Sec-WebSocket-Key"

/-- A connection that has not been upgraded, with the bytes it holds. -/
def RingBuffer.holding (data : Bytes) : RingBuffer := { RingBuffer.fresh with data := data }

/-- A connection that has been upgraded, with the bytes behind the request. -/
def RingBuffer.upgraded (data : Bytes) : RingBuffer :=
  { RingBuffer.fresh with data := data, websocketReady := true }

theorem RingBuffer.valid_upgraded (data : Bytes) : (RingBuffer.upgraded data).Valid :=
  ⟨Nat.zero_le _, Nat.le_refl _, fun _ => rfl⟩

theorem handleRead_waits {r : HttpHead} {held chunk back : Bytes}
    (h : (held ++ chunk) ++ back = r.bytes) (hback : back ≠ []) :
    handleRead (some (.holding held)) chunk = (some (.holding (held ++ chunk)), []) := by
  have hend : headerEnd (held ++ chunk) = none := headerEnd_before h hback
  simp only [handleRead, handleData, RingBuffer.holding, RingBuffer.fresh, hend]
  rfl

theorem run_waits {r : HttpHead} (before : List Bytes) {held back : Bytes}
    (h : (held ++ before.flatten) ++ back = r.bytes) (hback : back ≠ []) :
    (run handleRead (some (.holding held)) before).1 =
        some (.holding (held ++ before.flatten)) ∧
      outputs handleRead (some (.holding held)) before = [] := by
  induction before generalizing held with
  | nil => simp [run]
  | cons chunk before ih =>
    rw [List.flatten_cons, ← List.append_assoc] at h ⊢
    have hrest : before.flatten ++ back ≠ [] := fun hnil => hback (List.append_eq_nil_iff.mp hnil).2
    have hwait : handleRead (some (.holding held)) chunk = (some (.holding (held ++ chunk)), []) :=
      handleRead_waits (by rw [← h, List.append_assoc (held ++ chunk)]) hrest
    rw [outputs_cons]
    simp only [run, hwait]
    exact ih h

/-- The reads before the one that brings the last byte of a head are held. -/
theorem run_before {r : HttpHead} {before : List Bytes} {chunk rest : Bytes}
    (hshort : before.flatten.length < r.bytes.length)
    (hsplit : before.flatten ++ chunk = r.bytes ++ rest) :
    (run handleRead (some .fresh) before).1 = some (.holding before.flatten) ∧
      outputs handleRead (some .fresh) before = [] := by
  obtain ⟨back, hback⟩ : ∃ back, before.flatten ++ back = r.bytes := by
    refine ⟨chunk.take (r.bytes.length - before.flatten.length), ?_⟩
    have htake := congrArg (List.take r.bytes.length) hsplit
    rwa [List.take_left, List.take_append, List.take_of_length_le hshort.le] at htake
  have hne : back ≠ [] := by
    rintro rfl
    rw [← hback, List.append_nil] at hshort
    exact Nat.lt_irrefl _ hshort
  have hheld : ([] ++ before.flatten) ++ back = r.bytes := hback
  exact run_waits before hheld hne

/-- The read that brings the last byte of a head takes off the head, and reads what is
behind it as frames. -/
theorem handleRead_completes {r : HttpHead} {held chunk more : Bytes}
    (h : held ++ chunk = r.bytes ++ more) :
    handleRead (some (.holding held)) chunk =
      if r.value websocketKey = [] then (none, [.close])
      else ((handleFrames (.upgraded more)).1,
        .respond (handshakeResponse (r.value websocketKey)) ::
          (handleFrames (.upgraded more)).2) := by
  obtain ⟨pos, hpos, hlen⟩ := headerEnd_bytes r more
  have hkey : headerValue ((r.bytes ++ more).take (pos + 4)) (ascii "Sec-WebSocket-Key") =
      r.value websocketKey := by
    rw [List.take_left' hlen.symm, headerValue_bytes]
    rfl
  have hrest : (r.bytes ++ more).drop (pos + 4) = more := List.drop_left' hlen.symm
  simp only [handleRead, handleData, RingBuffer.holding, RingBuffer.fresh, h, hpos, hkey, hrest]
  rfl

/-- The first step of the parser on a head. -/
theorem gatewayStep_bytes (r : HttpHead) (more : Bytes) :
    gatewayStep ⟨false, []⟩ (r.bytes ++ more) =
      if r.value websocketKey = [] then .stop [.close]
      else .next ⟨true, []⟩ r.bytes.length [.respond (handshakeResponse (r.value websocketKey))] := by
  obtain ⟨pos, hpos, hlen⟩ := headerEnd_bytes r more
  rw [gatewayStep_handshake rfl hpos, List.take_left' hlen.symm, headerValue_bytes, hlen]
  rfl

theorem run_refused {r : HttpHead} {more : Bytes} {chunks : List Bytes}
    (h : chunks.flatten = r.bytes ++ more) (hkey : r.value websocketKey = []) :
    outputs handleRead (some .fresh) chunks = [.close] ∧
      (run handleRead (some .fresh) chunks).1 = none := by
  have hparse := reads_parse RingBuffer.valid_fresh rfl chunks
  have hstep := gatewayStep_bytes r more
  rw [if_pos hkey] at hstep
  rw [h] at hparse
  obtain ⟨hout, hview⟩ := hparse.deterministic (.stop hstep)
  exact ⟨hout, Option.map_eq_none_iff.mp hview⟩

theorem run_upgraded {r : HttpHead} {more : Bytes} {chunks : List Bytes}
    (h : chunks.flatten = r.bytes ++ more) (hkey : r.value websocketKey ≠ []) :
    outputs handleRead (some .fresh) chunks =
        .respond (handshakeResponse (r.value websocketKey)) :: (handleFrames (.upgraded more)).2 ∧
      (run handleRead (some .fresh) chunks).1.map RingBuffer.view =
        (handleFrames (.upgraded more)).1.map RingBuffer.view := by
  have hparse := reads_parse RingBuffer.valid_fresh rfl chunks
  have hstep := gatewayStep_bytes r more
  have hframes := (handleFrames_parses (RingBuffer.valid_upgraded more) rfl).1
  rw [if_neg hkey] at hstep
  rw [h] at hparse
  have hrest : (r.bytes ++ more).drop r.bytes.length = more := List.drop_left
  have hnext : Parses gateway ⟨false, []⟩ (r.bytes ++ more)
      ([.respond (handshakeResponse (r.value websocketKey))] ++ (handleFrames (.upgraded more)).2)
      ((handleFrames (.upgraded more)).1.map RingBuffer.view) :=
    .next hstep (by rw [hrest]; exact hframes)
  exact hparse.deterministic hnext

/-! ## The response -/

theorem isSpace_of_mem_encode {bytes : Bytes} {c : UInt8} (h : c ∈ Base64.encode bytes) :
    isSpace c = false ∧ c ≠ 13 ∧ c ≠ 10 := by
  have halphabet : (Base64.alphabet.all fun c => isSpace c = false ∧ c ≠ 13 ∧ c ≠ 10) = true := by
    decide
  rcases Base64.mem_encode h with hc | rfl
  · exact of_decide_eq_true (List.all_eq_true.mp halphabet c hc)
  · decide

theorem encode_oneLine (bytes : Bytes) : OneLine (Base64.encode bytes) :=
  ⟨fun h => (isSpace_of_mem_encode h).2.1 rfl, fun h => (isSpace_of_mem_encode h).2.2 rfl⟩

theorem dropWhile_of_none {text : Bytes} (h : ∀ c ∈ text, isSpace c = false) :
    text.dropWhile isSpace = text := by
  cases text with
  | nil => rfl
  | cons c text => rw [List.dropWhile_cons, if_neg (by simp [h c List.mem_cons_self])]

/-- A value behind one space. -/
theorem trim_space {text : Bytes} (h : ∀ c ∈ text, isSpace c = false) : trim (32 :: text) = text := by
  have hspace : (32 :: text).dropWhile isSpace = text := by
    rw [List.dropWhile_cons, if_pos (by decide), dropWhile_of_none h]
  have hreverse : ∀ c ∈ text.reverse, isSpace c = false := fun c hc =>
    h c (List.mem_reverse.mp hc)
  rw [trim, hspace, dropWhile_of_none hreverse, List.reverse_reverse]

/-- The head of the response with the accept key. -/
def acceptHead (accept : Bytes) (h : OneLine accept) : HttpHead where
  firstLine := ascii "HTTP/1.1 101 Switching Protocols"
  headers :=
    [⟨ascii "Upgrade", ascii " websocket", by decide, by decide, by decide⟩,
      ⟨ascii "Connection", ascii " Upgrade", by decide, by decide, by decide⟩,
      ⟨ascii "Sec-WebSocket-Accept", ascii " " ++ accept, by decide, by decide,
        OneLine.append (by decide) h⟩]
  firstLine_oneLine := by decide
  firstLine_colon := by decide

/-- The accept key of the protocol. -/
def standardAccept (key : Bytes) : Bytes := Base64.encode (SecureHash.sha1 (key ++ wsGuid))

theorem handshakeResponse_eq (key : Bytes) :
    handshakeResponse key = (acceptHead (standardAccept key) (encode_oneLine _)).bytes := by
  have hfirst : ascii "HTTP/1.1 101 Switching Protocols\r\n" =
      ascii "HTTP/1.1 101 Switching Protocols" ++ crlf := by decide
  have hupgrade : ascii "Upgrade: websocket\r\n" =
      ascii "Upgrade" ++ 58 :: ascii " websocket" ++ crlf := by decide
  have hconnection : ascii "Connection: Upgrade\r\n" =
      ascii "Connection" ++ 58 :: ascii " Upgrade" ++ crlf := by decide
  have haccept : ascii "Sec-WebSocket-Accept: " =
      ascii "Sec-WebSocket-Accept" ++ 58 :: ascii " " := by decide
  have hend : ascii "\r\n\r\n" = crlf ++ crlf := by decide
  rw [handshakeResponse, hfirst, hupgrade, hconnection, haccept, hend, websocketAccept_eq]
  simp only [acceptHead, HttpHead.bytes, headerBytes, List.flatMap_cons, List.flatMap_nil,
    List.append_nil, Header.text, List.append_assoc, List.cons_append, standardAccept]

theorem acceptHead_value (accept : Bytes) (h : OneLine accept)
    (hspace : ∀ c ∈ accept, isSpace c = false) :
    (acceptHead accept h).value (ascii "Sec-WebSocket-Accept") = accept := by
  have hupgrade : lower (ascii "Upgrade") ≠ lower (ascii "Sec-WebSocket-Accept") := by decide
  have hconnection : lower (ascii "Connection") ≠ lower (ascii "Sec-WebSocket-Accept") := by decide
  have hheaders : (acceptHead accept h).headers = [_, _] ++ _ :: [] := rfl
  rw [HttpHead.value_of_first hheaders (by simp [hupgrade, hconnection]) rfl]
  exact trim_space hspace

/-! ## The client -/

/-- The request that `Bot.connect` writes, with the key it draws. `none` where the host
is not ASCII. -/
def connectRequest (host : String) (port : Int) (key : Bytes) : Option Bytes :=
  if host.toList.all fun c => c.toNat < 128 then
    some (ascii "GET /orders HTTP/1.1\r\n" ++
      (ascii "Host: " ++ ascii host ++ ascii ":" ++ ascii (toString port) ++ ascii "\r\n") ++
      ascii "Upgrade: websocket\r\n" ++
      ascii "Connection: Upgrade\r\n" ++
      (ascii "Sec-WebSocket-Key: " ++ key ++ ascii "\r\n") ++
      ascii "Sec-WebSocket-Version: 13\r\n\r\n")
  else none

/-- `reader.readuntil(b"\r\n\r\n")`, on all the bytes the server sends. -/
def readUntilBlank (stream : Bytes) : Option Bytes :=
  (headerEnd stream).map fun pos => stream.take (pos + 4)

/-- The test of `Bot.connect` on the response, with the standard SHA-1 and Base64. -/
def acceptsResponse (key response : Bytes) : Bool :=
  let acceptSrc := key ++ ascii "258EAFA5-E914-47DA-95CA-C5AB0DC85B11"
  let expectedAccept := Base64.encode (SecureHash.sha1 acceptSrc)
  decide (ascii " 101 " <:+: response) && decide (expectedAccept <:+: response)

/-- A host without line ends. -/
def HostOk (host : String) : Prop := ∀ c ∈ host.toList, c ≠ '\r' ∧ c ≠ '\n'

instance (host : String) : Decidable (HostOk host) := List.decidableBAll _ _

theorem ascii_oneLine {text : String}
    (h : ∀ c ∈ text.toList, c.toNat < 128 ∧ c.toNat ≠ 13 ∧ c.toNat ≠ 10) :
    OneLine (ascii text) := by
  have hbyte : ∀ c ∈ text.toList, c.toNat.toUInt8.toNat = c.toNat := by
    intro c hc
    have := (h c hc).1
    rw [Nat.toUInt8_eq, UInt8.toNat_ofNat', Nat.mod_eq_of_lt (by omega)]
  constructor
  · intro hmem
    obtain ⟨c, hc, hcr⟩ := List.mem_map.mp hmem
    have htoNat := congrArg UInt8.toNat hcr
    rw [hbyte c hc] at htoNat
    exact (h c hc).2.1 htoNat
  · intro hmem
    obtain ⟨c, hc, hlf⟩ := List.mem_map.mp hmem
    have htoNat := congrArg UInt8.toNat hlf
    rw [hbyte c hc] at htoNat
    exact (h c hc).2.2 htoNat

theorem ascii_append (text text' : String) : ascii (text ++ text') = ascii text ++ ascii text' := by
  simp [ascii]

theorem natText_oneLine (n : Nat) : OneLine (ascii (toString n)) := by
  apply ascii_oneLine
  intro c hc
  have hdigit : c.isDigit = true :=
    Nat.isDigit_of_mem_toDigits (by decide) (by decide) (show c ∈ Nat.toDigits 10 n by
      simpa [Nat.repr] using hc)
  have hrange : 48 ≤ c.toNat ∧ c.toNat ≤ 57 := by
    simpa [Char.isDigit, UInt32.le_iff_toNat_le] using hdigit
  omega

theorem portText_oneLine (port : Int) : OneLine (ascii (toString port)) := by
  cases port with
  | ofNat n => exact natText_oneLine n
  | negSucc n =>
    have htext : toString (Int.negSucc n) = "-" ++ toString (n + 1) := rfl
    rw [htext, ascii_append]
    exact OneLine.append (by decide) (natText_oneLine (n + 1))

theorem hostText_oneLine {host : String} (hascii : host.toList.all fun c => c.toNat < 128)
    (h : HostOk host) : OneLine (ascii host) := by
  apply ascii_oneLine
  intro c hc
  have hsmall : c.toNat < 128 := by simpa using List.all_eq_true.mp hascii c hc
  refine ⟨hsmall, fun h13 => (h c hc).1 ?_, fun h10 => (h c hc).2 ?_⟩
  · exact Char.ext (UInt32.toNat_inj.mp h13)
  · exact Char.ext (UInt32.toNat_inj.mp h10)

/-- The request as a head. -/
def connectHead (host port key : Bytes) (hhost : OneLine host) (hport : OneLine port)
    (hkey : OneLine key) : HttpHead where
  firstLine := ascii "GET /orders HTTP/1.1"
  headers :=
    [⟨ascii "Host", ascii " " ++ (host ++ (ascii ":" ++ port)), by decide, by decide,
        OneLine.append (by decide) (hhost.append (OneLine.append (by decide) hport))⟩,
      ⟨ascii "Upgrade", ascii " websocket", by decide, by decide, by decide⟩,
      ⟨ascii "Connection", ascii " Upgrade", by decide, by decide, by decide⟩,
      ⟨websocketKey, ascii " " ++ key, by decide, by decide, OneLine.append (by decide) hkey⟩,
      ⟨ascii "Sec-WebSocket-Version", ascii " 13", by decide, by decide, by decide⟩]
  firstLine_oneLine := by decide
  firstLine_colon := by decide

theorem connectRequest_eq {host : String} {port : Int} {key request : Bytes}
    (h : connectRequest host port key = some request) (hhost : OneLine (ascii host))
    (hkey : OneLine key) :
    request = (connectHead (ascii host) (ascii (toString port)) key hhost (portText_oneLine port)
      hkey).bytes := by
  have hfirst : ascii "GET /orders HTTP/1.1\r\n" = ascii "GET /orders HTTP/1.1" ++ crlf := by decide
  have hhostName : ascii "Host: " = ascii "Host" ++ 58 :: ascii " " := by decide
  have hupgrade : ascii "Upgrade: websocket\r\n" =
      ascii "Upgrade" ++ 58 :: ascii " websocket" ++ crlf := by decide
  have hconnection : ascii "Connection: Upgrade\r\n" =
      ascii "Connection" ++ 58 :: ascii " Upgrade" ++ crlf := by decide
  have hkeyName : ascii "Sec-WebSocket-Key: " = websocketKey ++ 58 :: ascii " " := by decide
  have hversion : ascii "Sec-WebSocket-Version: 13\r\n\r\n" =
      ascii "Sec-WebSocket-Version" ++ 58 :: ascii " 13" ++ crlf ++ crlf := by decide
  have hend : ascii "\r\n" = crlf := by decide
  unfold connectRequest at h
  split at h
  · cases h
    rw [hfirst, hhostName, hupgrade, hconnection, hkeyName, hversion, hend]
    simp only [connectHead, HttpHead.bytes, headerBytes, List.flatMap_cons, List.flatMap_nil,
      List.append_nil, Header.text, List.append_assoc, List.cons_append]
  · cases h

theorem connectHead_value {host port key : Bytes} {hhost : OneLine host} {hport : OneLine port}
    {hkey : OneLine key} (hspace : ∀ c ∈ key, isSpace c = false) :
    (connectHead host port key hhost hport hkey).value websocketKey = key := by
  have hhostName : lower (ascii "Host") ≠ lower websocketKey := by decide
  have hupgrade : lower (ascii "Upgrade") ≠ lower websocketKey := by decide
  have hconnection : lower (ascii "Connection") ≠ lower websocketKey := by decide
  have hheaders : (connectHead host port key hhost hport hkey).headers =
      [_, _, _] ++ _ :: [_] := rfl
  rw [HttpHead.value_of_first hheaders (by simp [hhostName, hupgrade, hconnection]) rfl]
  exact trim_space hspace

/-- What `Bot.connect` writes is a head that names the key. -/
theorem connectRequest_head {host : String} {port : Int} {urandom request : Bytes}
    (hhost : HostOk host) (h : connectRequest host port (Base64.encode urandom) = some request) :
    ∃ r : HttpHead, request = r.bytes ∧ r.value websocketKey = Base64.encode urandom := by
  have hascii : host.toList.all fun c => c.toNat < 128 := by
    unfold connectRequest at h
    split at h
    · assumption
    · cases h
  have hspace : ∀ c ∈ Base64.encode urandom, isSpace c = false :=
    fun c hc => (isSpace_of_mem_encode hc).1
  exact ⟨_, connectRequest_eq h (hostText_oneLine hascii hhost) (encode_oneLine urandom),
    connectHead_value hspace⟩

/-- The client reads all of the response, and it passes the test. -/
theorem acceptsResponse_handshake (key : Bytes) :
    ∃ response, readUntilBlank (handshakeResponse key) = some response ∧
      acceptsResponse key response = true := by
  refine ⟨handshakeResponse key, ?_, ?_⟩
  · obtain ⟨pos, hpos, hlen⟩ := headerEnd_bytes (acceptHead (standardAccept key) (encode_oneLine _)) []
    rw [List.append_nil, ← handshakeResponse_eq] at hpos
    rw [← handshakeResponse_eq] at hlen
    rw [readUntilBlank, hpos, Option.map_some, hlen, List.take_length]
  · have hcode : ascii "HTTP/1.1 101 Switching Protocols\r\n" =
        ascii "HTTP/1.1" ++ (ascii " 101 " ++ ascii "Switching Protocols\r\n") := by decide
    have hguid : ascii "258EAFA5-E914-47DA-95CA-C5AB0DC85B11" = wsGuid := rfl
    unfold acceptsResponse
    rw [hguid, Bool.and_eq_true, decide_eq_true_iff, decide_eq_true_iff, handshakeResponse,
      websocketAccept_eq]
    constructor
    · rw [hcode]
      simp only [List.append_assoc]
      exact (List.infix_append_left).trans (List.infix_append_right)
    · exact ⟨_, _, rfl⟩

/-- **The handshake.** Of a head that names a key, however it is read, the gateway sends
a 101 head with the accept key of the protocol, takes off exactly the head, and reads
what is behind it as frames; a head that names none closes the connection. What
`Bot.connect` writes is such a head, and the bot accepts the response. -/
theorem handshake_agreement :
    (∀ (r : HttpHead) (more : Bytes) (chunks : List Bytes), chunks.flatten = r.bytes ++ more →
      (r.value websocketKey = [] →
        outputs handleRead (some .fresh) chunks = [.close] ∧
          (run handleRead (some .fresh) chunks).1 = none) ∧
      (r.value websocketKey ≠ [] →
        ∃ response : HttpHead,
          response.firstLine = ascii "HTTP/1.1 101 Switching Protocols" ∧
          response.value (ascii "Sec-WebSocket-Accept") =
            Base64.encode (SecureHash.sha1 (r.value websocketKey ++ wsGuid)) ∧
          outputs handleRead (some .fresh) chunks =
            .respond response.bytes :: (handleFrames (.upgraded more)).2 ∧
          (run handleRead (some .fresh) chunks).1.map RingBuffer.view =
            (handleFrames (.upgraded more)).1.map RingBuffer.view ∧
          ∀ before chunk after rest, chunks = before ++ chunk :: after →
            before.flatten.length < r.bytes.length →
            before.flatten ++ chunk = r.bytes ++ rest →
            (run handleRead (some .fresh) before).1 = some (.holding before.flatten) ∧
              outputs handleRead (some .fresh) before = [] ∧
              handleRead (some (.holding before.flatten)) chunk =
                ((handleFrames (.upgraded rest)).1,
                  .respond response.bytes :: (handleFrames (.upgraded rest)).2))) ∧
    (∀ (host : String) (port : Int) (urandom request : Bytes) (chunks : List Bytes),
      HostOk host → urandom.length = 16 →
      connectRequest host port (Base64.encode urandom) = some request →
      chunks.flatten = request →
      ∃ stream response, outputs handleRead (some .fresh) chunks = [.respond stream] ∧
        readUntilBlank stream = some response ∧
        acceptsResponse (Base64.encode urandom) response = true) := by
  refine ⟨fun r more chunks h => ⟨run_refused h, fun hkey => ?_⟩, ?_⟩
  · obtain ⟨hout, hview⟩ := run_upgraded h hkey
    have hspace : ∀ c ∈ standardAccept (r.value websocketKey), isSpace c = false :=
      fun c hc => (isSpace_of_mem_encode hc).1
    refine ⟨acceptHead (standardAccept (r.value websocketKey)) (encode_oneLine _), rfl,
      acceptHead_value _ _ hspace, ?_, hview, ?_⟩
    · rw [← handshakeResponse_eq]
      exact hout
    · intro before chunk after rest _ hshort hsplit
      rw [← handshakeResponse_eq]
      have hread := handleRead_completes hsplit
      rw [if_neg hkey] at hread
      obtain ⟨hrun, hnone⟩ := run_before hshort hsplit
      exact ⟨hrun, hnone, hread⟩
  · intro host port urandom request chunks hhost hlen hrequest hchunks
    obtain ⟨r, rfl, hvalue⟩ := connectRequest_head hhost hrequest
    have hkey : r.value websocketKey ≠ [] := by
      rw [hvalue]
      exact Base64.encode_ne_nil (List.ne_nil_of_length_pos (by omega))
    obtain ⟨hout, _⟩ := run_upgraded (hchunks.trans (List.append_nil _).symm) hkey
    obtain ⟨response, hresponse, haccepts⟩ := acceptsResponse_handshake (Base64.encode urandom)
    rw [hvalue] at hout
    exact ⟨_, response, hout, hresponse, haccepts⟩

/-- A head with colons in a value, a name in another letter case and white space. -/
def mixedHead : HttpHead where
  firstLine := ascii "GET / HTTP/1.1"
  headers :=
    [⟨ascii "Host", ascii " h:80", by decide, by decide, by decide⟩,
      ⟨ascii "sec-websocket-KEY", ascii "\t abc ", by decide, by decide, by decide⟩]
  firstLine_oneLine := by decide
  firstLine_colon := by decide

theorem mixedHead_upgrades :
    mixedHead.value websocketKey = ascii "abc" ∧
      (∃ response : HttpHead,
        response.value (ascii "Sec-WebSocket-Accept") =
          Base64.encode (SecureHash.sha1 (ascii "abc" ++ wsGuid)) ∧
        outputs handleRead (some .fresh) [mixedHead.bytes.take 20, mixedHead.bytes.drop 20] =
          [.respond response.bytes]) ∧
      ∃ stream response, (connectRequest "localhost" 9000
          (Base64.encode (List.replicate 16 7))).map
            (fun request => outputs handleRead (some .fresh) [request]) =
          some [.respond stream] ∧
        readUntilBlank stream = some response ∧
        acceptsResponse (Base64.encode (List.replicate 16 7)) response = true := by
  have hvalue : mixedHead.value websocketKey = ascii "abc" := by decide
  have hchunks : [mixedHead.bytes.take 20, mixedHead.bytes.drop 20].flatten =
      mixedHead.bytes ++ [] := by simp
  obtain ⟨response, _, haccept, hout, _⟩ :=
    (handshake_agreement.1 mixedHead [] _ hchunks).2 (by rw [hvalue]; decide)
  rw [hvalue] at haccept
  obtain ⟨stream, response', hstream, hresponse, haccepts⟩ :=
    handshake_agreement.2 "localhost" 9000 (List.replicate 16 7) _ _ (by decide) rfl rfl
      (List.flatten_singleton)
  exact ⟨hvalue, ⟨response, haccept, hout⟩, stream, response', congrArg some hstream, hresponse,
    haccepts⟩

end TradePlat.Gateway
