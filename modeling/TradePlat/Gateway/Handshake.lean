import Mathlib.Algebra.Group.Nat.Defs
import Mathlib.Data.List.Basic

/-!
# The WebSocket handshake (`TCPServer.cpp`)

The helpers of the anonymous namespace, on strings as byte lists: the SHA-1 and
Base64 of the accept key, and the search for a header value in a request.
-/

namespace TradePlat.Gateway

abbrev Bytes := List UInt8

/-- The bytes of an ASCII text. -/
def ascii (text : String) : Bytes := text.toList.map fun c => c.toNat.toUInt8

/-! ## SHA-1 and Base64 -/

def wsGuid : Bytes := ascii "258EAFA5-E914-47DA-95CA-C5AB0DC85B11"

def rol (value : UInt32) (bits : UInt32) : UInt32 := (value <<< bits) ||| (value >>> (32 - bits))

/-- The bytes of a number, the most significant first. -/
def bigEndian (n value : Nat) : Bytes :=
  (List.range n).map fun i => UInt8.ofNat (value >>> ((n - 1 - i) * 8))

theorem bigEndian_succ (n value : Nat) :
    bigEndian (n + 1) value = UInt8.ofNat (value >>> (n * 8)) :: bigEndian n value := by
  unfold bigEndian
  rw [List.range_succ_eq_map, List.map_cons, List.map_map]
  congr 1
  apply List.map_congr_left
  intro i hi
  have := List.mem_range.mp hi
  simp only [Function.comp_apply]
  congr 3
  omega

theorem bigEndian_length (n value : Nat) : (bigEndian n value).length = n := by
  simp [bigEndian]

/-- The message with its padding: a one bit, zeros, and the length in bits. -/
def sha1Pad (input : Bytes) : Bytes :=
  let zeros := (119 - input.length % 64) % 64
  input ++ [0x80] ++ List.replicate zeros 0 ++ bigEndian 8 (input.length * 8 % 2 ^ 64)

/-- The 80 words of a block of 64 bytes. -/
def sha1Schedule (block : Bytes) : Array UInt32 :=
  let byte i : UInt32 := (block.getD i 0).toUInt32
  let first : Array UInt32 := ((List.range 16).map fun i =>
    (byte (i * 4) <<< 24) ||| (byte (i * 4 + 1) <<< 16) ||| (byte (i * 4 + 2) <<< 8) |||
      byte (i * 4 + 3)).toArray
  (List.range' 16 64).foldl
    (fun w i => w.push (rol (w.getD (i - 3) 0 ^^^ w.getD (i - 8) 0 ^^^ w.getD (i - 14) 0 ^^^
      w.getD (i - 16) 0) 1))
    first

structure Sha1 where
  h0 : UInt32
  h1 : UInt32
  h2 : UInt32
  h3 : UInt32
  h4 : UInt32

def sha1Init : Sha1 := ⟨0x67452301, 0xEFCDAB89, 0x98BADCFE, 0x10325476, 0xC3D2E1F0⟩

/-- One of the 80 rounds, on `a` to `e`. -/
def sha1Round (w : Array UInt32) (s : Sha1) (i : Nat) : Sha1 :=
  let ⟨a, b, c, d, e⟩ := s
  let (f, k) : UInt32 × UInt32 :=
    if i < 20 then ((b &&& c) ||| (~~~b &&& d), 0x5A827999)
    else if i < 40 then (b ^^^ c ^^^ d, 0x6ED9EBA1)
    else if i < 60 then ((b &&& c) ||| (b &&& d) ||| (c &&& d), 0x8F1BBCDC)
    else (b ^^^ c ^^^ d, 0xCA62C1D6)
  ⟨rol a 5 + f + e + k + w.getD i 0, a, rol b 30, c, d⟩

def sha1Block (s : Sha1) (block : Bytes) : Sha1 :=
  let r := (List.range 80).foldl (sha1Round (sha1Schedule block)) s
  ⟨s.h0 + r.h0, s.h1 + r.h1, s.h2 + r.h2, s.h3 + r.h3, s.h4 + r.h4⟩

def sha1 (input : Bytes) : Bytes :=
  let data := sha1Pad input
  let s := (List.range (data.length / 64)).foldl
    (fun s i => sha1Block s ((data.drop (i * 64)).take 64)) sha1Init
  [s.h0, s.h1, s.h2, s.h3, s.h4].flatMap fun h => bigEndian 4 h.toNat

def base64Table : Bytes :=
  ascii "ABCDEFGHIJKLMNOPQRSTUVWXYZabcdefghijklmnopqrstuvwxyz0123456789+/"

def base64Char (n : Nat) : UInt8 := base64Table.getD (n % 64) 0

def base64 : Bytes → Bytes
  | [] => []
  | [a] =>
    let n := a.toNat * 2 ^ 16
    [base64Char (n / 2 ^ 18), base64Char (n / 2 ^ 12), 61, 61]
  | [a, b] =>
    let n := a.toNat * 2 ^ 16 + b.toNat * 2 ^ 8
    [base64Char (n / 2 ^ 18), base64Char (n / 2 ^ 12), base64Char (n / 2 ^ 6), 61]
  | a :: b :: c :: rest =>
    let n := a.toNat * 2 ^ 16 + b.toNat * 2 ^ 8 + c.toNat
    [base64Char (n / 2 ^ 18), base64Char (n / 2 ^ 12), base64Char (n / 2 ^ 6), base64Char n] ++
      base64 rest

def websocketAccept (key : Bytes) : Bytes := base64 (sha1 (key ++ wsGuid))

/-! ## Headers -/

def isSpace (c : UInt8) : Bool := c == 32 || (9 ≤ c && c ≤ 13)

def trim (value : Bytes) : Bytes :=
  (((value.dropWhile isSpace).reverse).dropWhile isSpace).reverse

def lower (value : Bytes) : Bytes := value.map fun c => if 65 ≤ c ∧ c ≤ 90 then c + 32 else c

/-- The lines `std::getline` reads: the text behind the last line feed is a line
unless it is empty. -/
def getLines : Bytes → List Bytes
  | [] => []
  | c :: rest =>
    if c = 10 then [] :: getLines rest
    else match getLines rest with
      | [] => [[c]]
      | line :: lines => (c :: line) :: lines

/-- The value of a header line `line` with the name `target`. -/
def lineValue (target line : Bytes) : Option Bytes :=
  let line := if line.getLast? = some 13 then line.dropLast else line
  if 58 ∈ line then
    if lower (line.takeWhile (· ≠ 58)) = target then
      some (trim ((line.dropWhile (· ≠ 58)).drop 1))
    else none
  else none

def headerValue (request headerName : Bytes) : Bytes :=
  ((getLines request).findSome? (lineValue (lower headerName))).getD []

/-- The position of the first `"\r\n\r\n"`. -/
def headerEnd : Bytes → Option Nat
  | [] => none
  | c :: rest =>
    if [13, 10, 13, 10].isPrefixOf (c :: rest) then some 0 else (headerEnd rest).map (· + 1)

/-- The response to a request with the key `key`. -/
def handshakeResponse (key : Bytes) : Bytes :=
  ascii "HTTP/1.1 101 Switching Protocols\r\n" ++ ascii "Upgrade: websocket\r\n" ++
    ascii "Connection: Upgrade\r\n" ++ ascii "Sec-WebSocket-Accept: " ++ websocketAccept key ++
    ascii "\r\n\r\n"

end TradePlat.Gateway
