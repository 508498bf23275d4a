import Chainlite.BaseFields
import Chainlite.ProofText

/-! The HTTP server of the node and the client that `clctl`, the launcher and the GPU miner use. A string is the list of
its bytes, each written as the character with that code, and a connection is the list of the chunks that `recv` returns
on it, an empty one standing for the end or a timeout. The socket calls themselves are left out. -/

open Std

namespace Chainlite

/-! ### The C library -/

/-- What `%s` writes: the characters before the first zero. -/
def cstr (s : List Char) : List Char := s.takeWhile fun c => c != '\x00'

/-- `strf`: the buffer has room for 4095 characters and the final zero. -/
def strfSize : Nat := 4095

def strf (s : List Char) : List Char := s.take strfSize

/-- `atoi` and `atoll`, for numbers of `w` bits: the digits after blanks and a sign, cut off at the ends of the range. -/
def atoN (w : Nat) (s : List Char) : Int :=
  let s := s.dropWhile isSpace
  let (negative, s) := match s with
    | '-' :: rest => (true, rest)
    | '+' :: rest => (false, rest)
    | s => (false, s)
  let n : Int := Nat.ofDigitChars 10 (s.takeWhile Char.isDigit) 0
  if negative then max (-2 ^ (w - 1)) (-n) else min (2 ^ (w - 1) - 1) n

def atoi (s : List Char) : Int := atoN 32 s

def atoll (s : List Char) : Int := atoN 64 s

/-- `(uint16_t)` of an integer. -/
def toPort (n : Int) : UInt16 := UInt16.ofInt n

def crlf : List Char := ['\r', '\n']

/-! ### The server -/

structure HttpReq where
  method : String
  path : String
  query : ExtTreeMap String String := ∅
  body : String := ""

/-- `url_decode`: a percent sign counts only before two hexadecimal digits. -/
def urlDecode : List Char → List Char
  | [] => []
  | '%' :: h :: l :: rest =>
      match hexval h, hexval l with
      | some high, some low => Char.ofNat (16 * high + low) :: urlDecode rest
      | _, _ => '%' :: urlDecode (h :: l :: rest)
  | c :: rest => (if c = '+' then ' ' else c) :: urlDecode rest

/-- One piece of a query; without an equals sign it is passed over. -/
def readParam (query : ExtTreeMap String String) (kv : List Char) : ExtTreeMap String String :=
  match Text.cutFirst '=' kv with
  | none => query
  | some (key, value) => query.insert (String.ofList (urlDecode key)) (String.ofList (urlDecode value))

def readQuery (qs : List Char) : ExtTreeMap String String := (Text.pieces '&' qs).foldl readParam ∅

/-- The request for the target `full`, which a question mark parts into a path and a query. -/
def readTarget (method full body : List Char) : HttpReq :=
  match Text.cutFirst '?' full with
  | none => { method := String.ofList method, path := String.ofList full, body := String.ofList body }
  | some (path, qs) =>
      { method := String.ofList method, path := String.ofList path, query := readQuery qs, body := String.ofList body }

/-- The method and the target of a request line: what stands before the first blank, and between it and the last. -/
def readLine0 (line : List Char) : Option (List Char × List Char) := do
  let (method, rest) ← Text.cutFirst ' ' line
  let (full, _) ← Text.cutLast ' ' rest
  return (method, full)

/-- `clen`, an unsigned 64-bit number: what follows the first `content-length:` of the head, in any case. -/
def contentLength (head : List Char) : Nat :=
  let lower := head.map Char.toLower
  match Text.find "content-length:".toList lower with
  | none => 0
  | some p => (atoll (lower.drop (p + 15)) % 2 ^ 64).toNat

def maxHead : Nat := 1024 * 1024

def maxBody : Nat := 4 * 1024 * 1024

namespace RpcServer

/-- The request that `handle` reads from a connection, unless it gives up on it. -/
def request (chunks : List (List Char)) : Option HttpReq := do
  let (req, hdrEnd, chunks) ← Text.readUntil (crlf ++ crlf) maxHead [] chunks
  let head := req.take hdrEnd
  let line := match Text.find crlf head with
    | none => head
    | some le => head.take le
  let (method, full) ← readLine0 line
  let clen := contentLength head
  if maxBody < clen then none
  else return readTarget method full (Text.readUpTo clen (req.drop (hdrEnd + 4)) chunks)

def statusText (code : Nat) : String :=
  if code = 200 then "200 OK"
  else if code = 400 then "400 Bad Request"
  else if code = 404 then "404 Not Found"
  else "500 Internal Server Error"

def responseHead (resp : HttpResp) : List Char :=
  "HTTP/1.1 ".toList ++ (statusText resp.status).toList ++ "\r\nContent-Type: ".toList ++ cstr resp.ctype.toList ++
    "\r\nContent-Length: ".toList ++ (toString resp.body.length).toList ++
    "\r\nAccess-Control-Allow-Origin: *\r\nConnection: close\r\n\r\n".toList

/-- What `handle` sends back. -/
def response (resp : HttpResp) : List Char := strf (responseHead resp) ++ resp.body.toList

end RpcServer

/-! ### The client -/

namespace HttpClient

def requestHead (host : String) (port : UInt16) (method path body : String) : List Char :=
  cstr method.toList ++ " ".toList ++ cstr path.toList ++ " HTTP/1.1\r\nHost: ".toList ++ cstr host.toList ++
    ":".toList ++ (toString port).toList ++ "\r\nContent-Length: ".toList ++ (toString body.length).toList ++
    "\r\nConnection: close\r\n\r\n".toList

/-- What `http_req` sends. -/
def request (host : String) (port : UInt16) (method path body : String) : List Char :=
  strf (requestHead host port method path body) ++ body.toList

def maxResponse : Nat := 64 * 1024 * 1024

/-- What `http_req` returns, and the body it writes to `out`, for the chunks of the response. -/
def reply (chunks : List (List Char)) : Int × String :=
  let resp := Text.readUpTo (maxResponse + 1) [] chunks
  match Text.find (crlf ++ crlf) resp with
  | none => (-1, "")
  | some he =>
      let code := match Text.find " ".toList resp with
        | none => -1
        | some sp => if sp + 4 ≤ resp.length then atoi (resp.drop (sp + 1)) else -1
      (code, String.ofList (resp.drop (he + 4)))

end HttpClient

def extractJsonStr (body key : String) : String :=
  match Text.after (Text.named '"' ':' key.toList ++ ['"']) body.toList with
  | none => ""
  | some rest =>
      match Text.cutFirst '"' rest with
      | none => ""
      | some (value, _) => String.ofList value

def extractJsonInt (body key : String) (dflt : Int) : Int :=
  match Text.after (Text.named '"' ':' key.toList) body.toList with
  | none => dflt
  | some rest => atoll rest

end Chainlite
