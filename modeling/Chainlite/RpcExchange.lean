import Chainlite.Rpc

/-! A request and its response over a connection that delivers them in any pieces. The server finds the request line and
the length of the body whatever the pieces are, and hands on what the client asked for; the client finds the code and
the body of what the handler returned. So a call of `http_req` is a call of the handler. -/

open Std

namespace Chainlite

/-! ### Numbers in texts -/

theorem strf_eq_self {s : List Char} (h : s.length ≤ strfSize) : strf s = s := List.take_of_length_le h

theorem cstr_eq_self {s : List Char} (h : '\x00' ∉ s) : cstr s = s := by
  refine List.takeWhile_eq_self_iff.mpr fun c hc => ?_
  have hne : c ≠ '\x00' := fun heq => h (heq ▸ hc)
  simpa using hne

theorem toList_toString_nat (n : Nat) : (toString n).toList = Nat.toDigits 10 n := Nat.toList_repr

theorem toList_toString_uint16 (n : UInt16) : (toString n).toList = Nat.toDigits 10 n.toNat := Nat.toList_repr

/-- Blanks before a number are skipped. -/
theorem atoN_blank {w : Nat} {c : Char} (h : isSpace c = true) (s : List Char) : atoN w (c :: s) = atoN w s := by
  rw [atoN, atoN, List.dropWhile_cons, if_pos h]

/-- Digits are read up to the first other character. -/
theorem atoN_digits {w : Nat} {digits rest : List Char} (hne : digits ≠ []) (h : ∀ c ∈ digits, c.isDigit = true)
    (hrest : ∀ c ∈ rest.head?, c.isDigit = false) : atoN w (digits ++ rest) = min (2 ^ (w - 1) - 1) (decimal digits : Int) := by
  obtain ⟨c, tail, rfl⟩ := List.exists_cons_of_ne_nil hne
  have hc : c.isDigit = true := h c List.mem_cons_self
  have hstart : (c :: tail ++ rest).dropWhile isSpace = c :: (tail ++ rest) := dropWhile_isSpace_cons hc (tail ++ rest)
  have htake : (c :: (tail ++ rest)).takeWhile Char.isDigit = c :: tail := takeWhile_isDigit h hrest
  unfold atoN
  rw [hstart]
  dsimp only
  split
  · rename_i heq
    injection heq with heq
    rw [heq] at hc
    exact absurd hc (by decide)
  · rename_i heq
    injection heq with heq
    rw [heq] at hc
    exact absurd hc (by decide)
  · rw [htake, if_neg Bool.false_ne_true]

/-- The decimal text of a number that fits gives it back. -/
theorem atoN_toDigits {w n : Nat} (hn : (n : Int) < 2 ^ (w - 1)) {rest : List Char}
    (hrest : ∀ c ∈ rest.head?, c.isDigit = false) : atoN w (Nat.toDigits 10 n ++ rest) = n := by
  have hvalue : decimal (Nat.toDigits 10 n) = n := Nat.ofDigitChars_ten_toDigits
  rw [atoN_digits Nat.toDigits_ne_nil (fun c => isDigit_of_mem_toDigits) hrest, hvalue]
  exact min_eq_right (by omega)

/-! ### The head of a request -/

/-- A method or a target: no blank, no end of a line, no colon and no zero. -/
structure Word (s : String) : Prop where
  blank : ' ' ∉ s.toList
  ret : '\r' ∉ s.toList
  colon : ':' ∉ s.toList
  zero : '\x00' ∉ s.toList

/-- An address that `inet_pton` can take: digits and dots. -/
def Dotted (host : String) : Prop := ∀ c ∈ host.toList, c.isDigit = true ∨ c = '.'

theorem not_mem_of_isDigit {c : Char} {s : List Char} (h : ∀ x ∈ s, x.isDigit = true) (hc : c.isDigit = false) : c ∉ s :=
  fun hmem => by rw [h c hmem] at hc; cases hc

theorem Dotted.not_mem {host : String} (h : Dotted host) {c : Char} (hdigit : c.isDigit = false) (hdot : c ≠ '.') :
    c ∉ host.toList := by
  intro hmem
  rcases h c hmem with hc | hc
  · rw [hc] at hdigit
    cases hdigit
  · exact hdot hc

/-- The lines of the head that `http_req` writes. -/
def requestLines (host : String) (port : UInt16) (method path : String) (n : Nat) : List (List Char) :=
  [method.toList ++ ' ' :: (path.toList ++ ' ' :: "HTTP/1.1".toList),
    "Host: ".toList ++ host.toList ++ ':' :: Nat.toDigits 10 port.toNat,
    "Content-Length: ".toList ++ Nat.toDigits 10 n, "Connection: close".toList]

section
variable {host method path body : String} {port : UInt16}

theorem requestHead_eq (hmethod : Word method) (hpath : Word path) (hhost : Dotted host) :
    HttpClient.requestHead host port method path body =
      List.intercalate crlf (requestLines host port method path body.length) ++ (crlf ++ crlf) := by
  rw [HttpClient.requestHead, cstr_eq_self hmethod.zero, cstr_eq_self hpath.zero,
    cstr_eq_self (hhost.not_mem (by decide) (by decide)), toList_toString_uint16, toList_toString_nat]
  simp [requestLines, List.intercalate, List.intersperse, crlf]

theorem requestLines_clean (hmethod : Word method) (hpath : Word path) (hhost : Dotted host) (n : Nat) :
    ∀ l ∈ requestLines host port method path n, '\r' ∉ l ∧ l ≠ [] := by
  have hdigits : ∀ m, '\r' ∉ Nat.toDigits 10 m :=
    fun m => not_mem_of_isDigit (fun c => isDigit_of_mem_toDigits) (by decide)
  have hret := hhost.not_mem (c := '\r') (by decide) (by decide)
  rw [requestLines]
  refine List.forall_mem_cons.mpr ⟨⟨?_, by simp⟩, List.forall_mem_cons.mpr ⟨⟨?_, by simp⟩,
    List.forall_mem_cons.mpr ⟨⟨?_, by simp⟩, List.forall_mem_cons.mpr ⟨by decide, nofun⟩⟩⟩⟩
  · simp only [List.mem_append, List.mem_cons, not_or]
    exact ⟨hmethod.ret, by decide, hpath.ret, by decide, by decide⟩
  · simp only [List.mem_append, List.mem_cons, not_or]
    exact ⟨⟨by decide, hret⟩, by decide, hdigits _⟩
  · simp only [List.mem_append, not_or]
    exact ⟨by decide, hdigits _⟩

/-- The request line is read back. -/
theorem readLine0_requestLine (hmethod : Word method) (path : String) :
    readLine0 (method.toList ++ ' ' :: (path.toList ++ ' ' :: "HTTP/1.1".toList)) = some (method.toList, path.toList) := by
  rw [readLine0, Text.cutFirst_append hmethod.blank]
  change (Text.cutLast ' ' (path.toList ++ ' ' :: "HTTP/1.1".toList)).bind _ = _
  rw [Text.cutLast_append _ (by decide)]
  rfl

/-! ### The length of the body -/

theorem toLower_of_isDigit {c : Char} (h : c.isDigit = true) : c.toLower = c := by
  rw [Char.toLower, dif_neg]
  rintro ⟨hge, -⟩
  simp only [Char.isDigit, Bool.and_eq_true, decide_eq_true_eq] at h
  exact absurd (UInt32.le_trans hge h.2) (by decide)

/-- No letter becomes a colon. -/
theorem toLower_ne_colon {c : Char} (h : c ≠ ':') : c.toLower ≠ ':' := by
  rw [Char.toLower]
  split
  · rename_i hupper
    intro heq
    have hval := congrArg (fun c : Char => c.val.toNat) heq
    have hlow : 65 ≤ c.val.toNat := hupper.1
    have hhigh : c.val.toNat ≤ 90 := hupper.2
    simp only [UInt32.toNat_add] at hval
    have h32 : ('a'.val - 'A'.val).toNat = 32 := by decide
    have h58 : ':'.val.toNat = 58 := by decide
    rw [h32, h58] at hval
    omega
  · exact h

theorem colon_not_mem_lower {s : List Char} (h : ':' ∉ s) : ':' ∉ s.map Char.toLower := by
  intro hmem
  obtain ⟨c, hc, heq⟩ := List.mem_map.mp hmem
  exact toLower_ne_colon (fun hcolon => h (hcolon ▸ hc)) heq

theorem map_toLower_toDigits (n : Nat) : (Nat.toDigits 10 n).map Char.toLower = Nat.toDigits 10 n := by
  rw [List.map_congr_left fun c hc => toLower_of_isDigit (isDigit_of_mem_toDigits hc), List.map_id']

theorem Dotted.lower (hhost : Dotted host) : host.toList.map Char.toLower = host.toList := by
  have hkept : ∀ c ∈ host.toList, c.toLower = c := by
    intro c hc
    rcases hhost c hc with hdigit | rfl
    · exact toLower_of_isDigit hdigit
    · decide
  rw [List.map_congr_left hkept, List.map_id']

/-- The length is found behind the request line and the host. -/
theorem contentLength_requestLines (hmethod : Word method) (hpath : Word path) (hhost : Dotted host) {n : Nat}
    (hn : n < 2 ^ 63) : contentLength (List.intercalate crlf (requestLines host port method path n)) = n := by
  set first := method.toList ++ ' ' :: (path.toList ++ ' ' :: "HTTP/1.1".toList) with hfirst
  set second := "host: ".toList ++ host.toList ++ ':' :: Nat.toDigits 10 port.toNat with hsecond
  set before := first.map Char.toLower ++ '\r' :: (['\n'] ++ (second ++ '\r' :: ['\n'])) with hbefore
  set after := ' ' :: (Nat.toDigits 10 n ++ "\r\nconnection: close".toList) with hafter
  have hlower : (List.intercalate crlf (requestLines host port method path n)).map Char.toLower =
      before ++ ("content-length:".toList ++ after) := by
    have hhost' : "Host: ".toList.map Char.toLower = "host: ".toList := by decide
    have hlength' : "Content-Length: ".toList.map Char.toLower = "content-length: ".toList := by decide
    have hclose : "Connection: close".toList.map Char.toLower = "connection: close".toList := by decide
    have hcolon : ':'.toLower = ':' := by decide
    rw [requestLines, List.intercalate_cons_cons, List.intercalate_cons_cons, List.intercalate_cons_cons,
      List.intercalate_singleton, ← hfirst]
    simp only [List.map_append, List.map_cons, hhost', hlength', hclose, hcolon, map_toLower_toDigits, hhost.lower]
    simp [hbefore, hsecond, hafter, crlf]
  have hcolon : ':' ∉ first.map Char.toLower := by
    refine colon_not_mem_lower ?_
    rw [hfirst]
    simp only [List.mem_append, List.mem_cons, not_or]
    exact ⟨hmethod.colon, by decide, hpath.colon, by decide, by decide⟩
  have hc : 'c' ∉ second := by
    rw [hsecond]
    simp only [List.mem_append, List.mem_cons, not_or]
    exact ⟨⟨by decide, hhost.not_mem (by decide) (by decide)⟩, by decide,
      not_mem_of_isDigit (fun c => isDigit_of_mem_toDigits) (by decide)⟩
  have hfind : Text.find "content-length:".toList (before ++ ("content-length:".toList ++ after)) = some before.length := by
    have hskip : 'c' ∉ '\r' :: (['\n'] ++ (second ++ '\r' :: ['\n'])) := by
      simp only [List.mem_append, List.mem_cons, not_or]
      exact ⟨by decide, ⟨by decide, by simp⟩, hc, by decide, by decide, by simp⟩
    have hword : "content-length:".toList = 'c' :: "ontent-length:".toList := rfl
    calc Text.find "content-length:".toList (before ++ ("content-length:".toList ++ after))
        = (Text.find "content-length:".toList ('\r' :: (['\n'] ++ (second ++ '\r' :: ['\n'])) ++
            ("content-length:".toList ++ after))).map (· + (first.map Char.toLower).length) := by
          rw [hbefore, List.append_assoc, List.cons_append]
          exact Text.find_skip_line (by decide) (show ':' ∈ "content-length:".toList by decide) hcolon _
      _ = some (('\r' :: (['\n'] ++ (second ++ '\r' :: ['\n']))).length + (first.map Char.toLower).length) := by
          rw [hword, Text.find_skip hskip, Text.find_of_prefix (List.prefix_append _ _), Option.map_some, Option.map_some,
            Nat.zero_add]
      _ = some before.length := by rw [hbefore, List.length_append, Nat.add_comm]
  have hdrop : (before ++ ("content-length:".toList ++ after)).drop (before.length + 15) = after := by
    rw [← List.drop_drop, List.drop_left]
    rfl
  have hread : atoll after = n := by
    have hstop : ∀ c ∈ "\r\nconnection: close".toList.head?, c.isDigit = false := by
      intro c hc
      obtain rfl : '\r' = c := Option.some.inj hc
      decide
    rw [hafter, atoll, atoN_blank (by decide)]
    exact atoN_toDigits (by exact_mod_cast hn) hstop
  rw [contentLength, hlower, hfind]
  dsimp only
  rw [hdrop, hread]
  omega

/-! ### The server reads the request -/

/-- What the server makes of what it has read and of the rest, once the head is complete. -/
theorem request_of_head (hmethod : Word method) (hpath : Word path) (hhost : Dotted host)
    (hbody : body.length ≤ maxBody) {chunks : List (List Char)} {read part : List Char} {rest : List (List Char)}
    (hread : Text.readUntil (crlf ++ crlf) maxHead [] chunks =
      some (read, (List.intercalate crlf (requestLines host port method path body.length)).length, rest))
    (hhead : read = List.intercalate crlf (requestLines host port method path body.length) ++ (crlf ++ crlf ++ part)) :
    RpcServer.request chunks =
      some (readTarget method.toList path.toList (Text.readUpTo body.length part rest)) := by
  have hmax : maxBody < 2 ^ 63 := by decide
  set head := List.intercalate crlf (requestLines host port method path body.length) with hheadtext
  have htake : read.take head.length = head := by rw [hhead, List.take_left]
  have hdrop : read.drop (head.length + 4) = part := by
    rw [hhead, ← List.drop_drop, List.drop_left]
    rfl
  have hfirst : Text.find crlf head = some (method.toList ++ ' ' :: (path.toList ++ ' ' :: "HTTP/1.1".toList)).length := by
    have hclean := (@requestLines_clean host method path port hmethod hpath hhost body.length _ List.mem_cons_self).1
    rw [hheadtext, requestLines, List.intercalate_cons_cons]
    exact Text.find_after hclean _
  have hline : head.take (method.toList ++ ' ' :: (path.toList ++ ' ' :: "HTTP/1.1".toList)).length =
      method.toList ++ ' ' :: (path.toList ++ ' ' :: "HTTP/1.1".toList) := by
    rw [hheadtext, requestLines, List.intercalate_cons_cons, List.append_assoc]
    exact List.take_left
  have hclen : contentLength head = body.length :=
    contentLength_requestLines hmethod hpath hhost (Nat.lt_of_le_of_lt hbody hmax)
  rw [RpcServer.request, hread]
  change (readLine0 _).bind _ = _
  rw [htake, hfirst]
  dsimp only
  rw [hline, readLine0_requestLine hmethod path, Option.bind_some]
  dsimp only
  rw [hclen, if_neg (Nat.not_lt.mpr hbody), hdrop]
  rfl

theorem request_eq (hmethod : Word method) (hpath : Word path) (hhost : Dotted host)
    (hhead : (HttpClient.requestHead host port method path body).length ≤ strfSize) :
    HttpClient.request host port method path body =
      List.intercalate crlf (requestLines host port method path body.length) ++ (crlf ++ crlf ++ body.toList) := by
  rw [HttpClient.request, strf_eq_self hhead, requestHead_eq hmethod hpath hhost, List.append_assoc]

theorem find_request (hmethod : Word method) (hpath : Word path) (hhost : Dotted host) :
    Text.find (crlf ++ crlf) (List.intercalate crlf (requestLines host port method path body.length) ++
      (crlf ++ crlf ++ body.toList)) = some (List.intercalate crlf (requestLines host port method path body.length)).length :=
  Text.find_double (by decide) (List.cons_ne_nil _ _) (requestLines_clean hmethod hpath hhost _) body.toList

/-- **However the request is cut**, the server hands on the method, the target and the body. -/
theorem request_reads (hmethod : Word method) (hpath : Word path) (hhost : Dotted host)
    (hhead : (HttpClient.requestHead host port method path body).length ≤ strfSize) (hbody : body.length ≤ maxBody)
    {chunks : List (List Char)} (hchunks : ∀ chunk ∈ chunks, chunk ≠ [])
    (hsent : chunks.flatten = HttpClient.request host port method path body) :
    RpcServer.request chunks = some (readTarget method.toList path.toList body.toList) := by
  have hsize : strfSize ≤ maxHead := by decide
  set head := List.intercalate crlf (requestLines host port method path body.length) with hheadtext
  have htext : chunks.flatten = head ++ (crlf ++ crlf ++ body.toList) := by rw [hsent, request_eq hmethod hpath hhost hhead]
  have hfind : Text.find (crlf ++ crlf) ([] ++ chunks.flatten) = some head.length := by
    rw [List.nil_append, htext]
    exact find_request hmethod hpath hhost
  have hlimit : head.length + (crlf ++ crlf).length ≤ maxHead := by
    rw [requestHead_eq hmethod hpath hhost, List.length_append] at hhead
    exact hhead.trans hsize
  obtain ⟨read, rest, huntil, hat, hrest, hread⟩ := Text.readUntil_of_find hchunks rfl hfind hlimit
  rw [List.nil_append, htext] at hread
  have hlen : (head ++ (crlf ++ crlf)).length ≤ read.length := by
    rw [List.length_append]
    exact Text.find_add_length_le hat
  obtain ⟨part, hpart⟩ : head ++ (crlf ++ crlf) <+: read :=
    List.prefix_of_prefix_length_le ⟨body.toList, by simp⟩ (hread ▸ List.prefix_append _ _) hlen
  rw [List.append_assoc] at hpart
  have hwhole : part ++ rest.flatten = body.toList := by
    rw [← hpart] at hread
    simp only [List.append_assoc, List.append_cancel_left_eq] at hread
    exact hread
  rw [request_of_head hmethod hpath hhost hbody huntil hpart.symm,
    Text.readUpTo_all hrest (by rw [hwhole, String.length_toList]), hwhole]

/-- **Of a request that breaks off** the server makes nothing, or the same request with the beginning of its body. -/
theorem request_of_part (hmethod : Word method) (hpath : Word path) (hhost : Dotted host)
    (hhead : (HttpClient.requestHead host port method path body).length ≤ strfSize) (hbody : body.length ≤ maxBody)
    {chunks : List (List Char)} (hsent : chunks.flatten <+: HttpClient.request host port method path body) :
    RpcServer.request chunks = none ∨ ∃ part, part <+: body.toList ∧
      RpcServer.request chunks = some (readTarget method.toList path.toList part) := by
  set head := List.intercalate crlf (requestLines host port method path body.length) with hheadtext
  cases huntil : Text.readUntil (crlf ++ crlf) maxHead [] chunks with
  | none =>
      left
      rw [RpcServer.request, huntil]
      rfl
  | some out =>
      right
      obtain ⟨read, i, rest⟩ := out
      obtain ⟨hat, hread⟩ := Text.readUntil_eq_some huntil
      obtain ⟨more, hmore⟩ := hsent
      rw [request_eq hmethod hpath hhost hhead, ← hheadtext, ← List.nil_append chunks.flatten, ← hread,
        List.append_assoc] at hmore
      have hplace : Text.find (crlf ++ crlf) (head ++ (crlf ++ crlf ++ body.toList)) = some head.length :=
        find_request hmethod hpath hhost
      rw [← hmore, Text.find_append hat] at hplace
      obtain rfl := Option.some.inj hplace
      have hlen : (head ++ (crlf ++ crlf)).length ≤ read.length := by
        rw [List.length_append]
        exact Text.find_add_length_le hat
      obtain ⟨part, hpart⟩ : head ++ (crlf ++ crlf) <+: read :=
        List.prefix_of_prefix_length_le ⟨body.toList, by simp⟩ (hmore ▸ List.prefix_append _ _) hlen
      rw [List.append_assoc] at hpart
      have hwhole : part ++ rest.flatten ++ more = body.toList := by
        rw [← hpart] at hmore
        simp only [List.append_assoc, List.append_cancel_left_eq] at hmore ⊢
        exact hmore
      refine ⟨_, ?_, request_of_head hmethod hpath hhost hbody huntil hpart.symm⟩
      exact (Text.readUpTo_isPrefix _ _ _).trans ⟨more, hwhole⟩

end

/-! ### The client reads the response -/

/-- The code that goes out for the code of a response. -/
def shownCode (code : Nat) : Nat := if code = 200 ∨ code = 400 ∨ code = 404 then code else 500

theorem statusText_eq (code : Nat) : ∃ reason : List Char, '\r' ∉ reason ∧
    (RpcServer.statusText code).toList = Nat.toDigits 10 (shownCode code) ++ ' ' :: reason := by
  by_cases hok : code = 200
  · subst hok
    exact ⟨"OK".toList, by decide, by decide⟩
  · by_cases hbad : code = 400
    · subst hbad
      exact ⟨"Bad Request".toList, by decide, by decide⟩
    · by_cases hmissing : code = 404
      · subst hmissing
        exact ⟨"Not Found".toList, by decide, by decide⟩
      · refine ⟨"Internal Server Error".toList, by decide, ?_⟩
        rw [RpcServer.statusText, if_neg hok, if_neg hbad, if_neg hmissing, shownCode, if_neg (by simp [hok, hbad, hmissing])]
        decide

/-- A content type that stays within its line. -/
structure OneLine (ctype : String) : Prop where
  ret : '\r' ∉ ctype.toList
  zero : '\x00' ∉ ctype.toList

/-- The lines of the head that `handle` writes. -/
def responseLines (resp : HttpResp) : List (List Char) :=
  ["HTTP/1.1 ".toList ++ (RpcServer.statusText resp.status).toList, "Content-Type: ".toList ++ resp.ctype.toList,
    "Content-Length: ".toList ++ Nat.toDigits 10 resp.body.length, "Access-Control-Allow-Origin: *".toList,
    "Connection: close".toList]

section
variable {resp : HttpResp}

theorem responseHead_eq (hctype : OneLine resp.ctype) :
    RpcServer.responseHead resp = List.intercalate crlf (responseLines resp) ++ (crlf ++ crlf) := by
  have htype : "\r\nContent-Type: ".toList = crlf ++ "Content-Type: ".toList := by simp [crlf]
  have hlength : "\r\nContent-Length: ".toList = crlf ++ "Content-Length: ".toList := by simp [crlf]
  have hlast : "\r\nAccess-Control-Allow-Origin: *\r\nConnection: close\r\n\r\n".toList =
      crlf ++ ("Access-Control-Allow-Origin: *".toList ++ (crlf ++ ("Connection: close".toList ++ (crlf ++ crlf)))) := by simp [crlf]
  unfold RpcServer.responseHead responseLines
  simp only [cstr_eq_self hctype.zero, toList_toString_nat, htype, hlength, hlast, List.intercalate_cons_cons,
    List.intercalate_singleton, List.append_assoc]

theorem responseLines_clean (hctype : OneLine resp.ctype) : ∀ l ∈ responseLines resp, '\r' ∉ l ∧ l ≠ [] := by
  have hdigits : ∀ m, '\r' ∉ Nat.toDigits 10 m :=
    fun m => not_mem_of_isDigit (fun c => isDigit_of_mem_toDigits) (by decide)
  obtain ⟨reason, hreason, hstatus⟩ := statusText_eq resp.status
  rw [responseLines, hstatus]
  refine List.forall_mem_cons.mpr ⟨⟨?_, by simp⟩, List.forall_mem_cons.mpr ⟨⟨?_, by simp⟩,
    List.forall_mem_cons.mpr ⟨⟨?_, by simp⟩, List.forall_mem_cons.mpr ⟨⟨?_, by simp⟩,
      List.forall_mem_cons.mpr ⟨⟨?_, by simp⟩, nofun⟩⟩⟩⟩⟩
  · simp only [List.mem_append, List.mem_cons, not_or]
    exact ⟨by decide, hdigits _, by decide, hreason⟩
  · simp only [List.mem_append, not_or]
    exact ⟨by decide, hctype.ret⟩
  · simp only [List.mem_append, not_or]
    exact ⟨by decide, hdigits _⟩
  · simp
  · simp

/-- The code that is read from a text that begins with the head of a response. -/
theorem atoi_response (resp : HttpResp) (rest : List Char) :
    Text.find " ".toList ("HTTP/1.1 ".toList ++ (RpcServer.statusText resp.status).toList ++ rest) = some 8 ∧
      atoi (("HTTP/1.1 ".toList ++ (RpcServer.statusText resp.status).toList ++ rest).drop 9) = shownCode resp.status := by
  obtain ⟨reason, -, hstatus⟩ := statusText_eq resp.status
  refine ⟨?_, ?_⟩
  · have hblank : ' ' ∉ "HTTP/1.1".toList := by decide
    have hsplit : "HTTP/1.1 ".toList ++ (RpcServer.statusText resp.status).toList ++ rest =
        "HTTP/1.1".toList ++ " ".toList ++ ((RpcServer.statusText resp.status).toList ++ rest) := by simp
    rw [hsplit]
    exact Text.find_after hblank _
  · have hdrop : ("HTTP/1.1 ".toList ++ (RpcServer.statusText resp.status).toList ++ rest).drop 9 =
        Nat.toDigits 10 (shownCode resp.status) ++ ' ' :: (reason ++ rest) := by
      rw [hstatus, List.append_assoc, List.append_assoc, List.cons_append]
      exact List.drop_left' rfl
    have hstop : ∀ c ∈ (' ' :: (reason ++ rest)).head?, c.isDigit = false := by
      intro c hc
      obtain rfl : ' ' = c := Option.some.inj hc
      decide
    have hsmall : ((shownCode resp.status : Nat) : Int) < 2 ^ (32 - 1) := by
      unfold shownCode
      split
      · rename_i hcode
        rcases hcode with hcode | hcode | hcode <;> rw [hcode] <;> decide
      · decide
    rw [hdrop, atoi]
    exact atoN_toDigits hsmall hstop

/-- What the client makes of a text that holds the whole head and the beginning of the body. -/
theorem reply_of_head (hctype : OneLine resp.ctype) {chunks : List (List Char)} {part : List Char}
    (hgot : Text.readUpTo (HttpClient.maxResponse + 1) [] chunks = RpcServer.responseHead resp ++ part) :
    HttpClient.reply chunks = ((shownCode resp.status : Int), String.ofList part) := by
  set head := List.intercalate crlf (responseLines resp) with hhead
  have hgot' : Text.readUpTo (HttpClient.maxResponse + 1) [] chunks = head ++ (crlf ++ crlf ++ part) := by
    rw [hgot, responseHead_eq hctype, List.append_assoc]
  have hfind : Text.find (crlf ++ crlf) (head ++ (crlf ++ crlf ++ part)) = some head.length :=
    Text.find_double (by decide) (List.cons_ne_nil _ _) (responseLines_clean hctype) part
  have hline : "HTTP/1.1 ".toList ++ (RpcServer.statusText resp.status).toList <+: head := by
    rw [hhead, responseLines, List.intercalate_cons_cons, List.append_assoc]
    exact List.prefix_append _ _
  obtain ⟨rest, hrest⟩ := hline.trans (List.prefix_append head (crlf ++ crlf ++ part))
  obtain ⟨hblank, hcode⟩ := atoi_response resp rest
  have hlong : 8 + 4 ≤ (head ++ (crlf ++ crlf ++ part)).length := by
    have hfour : (crlf ++ crlf ++ part).length = 4 + part.length := by
      rw [List.length_append]
      rfl
    have hnine : 9 ≤ head.length := ((List.prefix_append _ _).trans hline).length_le
    rw [List.length_append, hfour]
    omega
  have hbody : (head ++ (crlf ++ crlf ++ part)).drop (head.length + 4) = part := by
    rw [← List.drop_drop, List.drop_left]
    rfl
  unfold HttpClient.reply
  rw [hgot']
  dsimp only
  rw [hfind]
  dsimp only
  rw [hbody]
  rw [← hrest] at hlong ⊢
  rw [hblank]
  dsimp only
  rw [if_pos hlong, hcode]

/-- **However much of a response arrives, and in whatever pieces**, the client gets its code with the beginning of its
body, or nothing at all. -/
theorem reply_of_part (hctype : OneLine resp.ctype) (hhead : (RpcServer.responseHead resp).length ≤ strfSize)
    {chunks : List (List Char)} (hpart : chunks.flatten <+: RpcServer.response resp) :
    HttpClient.reply chunks = (-1, "") ∨ ∃ part, part <+: resp.body.toList ∧
      HttpClient.reply chunks = ((shownCode resp.status : Int), String.ofList part) := by
  obtain ⟨more, hmore⟩ := (Text.readUpTo_isPrefix (HttpClient.maxResponse + 1) [] chunks).trans hpart
  rw [RpcServer.response, strf_eq_self hhead, responseHead_eq hctype, List.append_assoc] at hmore
  cases hfind : Text.find (crlf ++ crlf) (Text.readUpTo (HttpClient.maxResponse + 1) [] chunks) with
  | none =>
      left
      unfold HttpClient.reply
      dsimp only
      rw [hfind]
  | some i =>
      right
      have hwhole : Text.find (crlf ++ crlf) (List.intercalate crlf (responseLines resp) ++ (crlf ++ crlf ++ resp.body.toList)) =
          some (List.intercalate crlf (responseLines resp)).length :=
        Text.find_double (by decide) (List.cons_ne_nil _ _) (responseLines_clean hctype) resp.body.toList
      rw [← hmore, Text.find_append hfind] at hwhole
      obtain rfl := Option.some.inj hwhole
      have hlen : (RpcServer.responseHead resp).length ≤
          (Text.readUpTo (HttpClient.maxResponse + 1) [] chunks).length := by
        rw [responseHead_eq hctype, List.length_append]
        exact Text.find_add_length_le hfind
      rw [← List.append_assoc, ← responseHead_eq hctype] at hmore
      have hprefix : RpcServer.responseHead resp <+: Text.readUpTo (HttpClient.maxResponse + 1) [] chunks :=
        List.prefix_of_prefix_length_le (hmore ▸ List.prefix_append _ _) (List.prefix_append _ more) hlen
      obtain ⟨part, hpart⟩ := hprefix
      refine ⟨part, ?_, reply_of_head hctype hpart.symm⟩
      rw [← hpart, List.append_assoc] at hmore
      exact ⟨more, List.append_cancel_left hmore⟩

theorem reply_reads (hctype : OneLine resp.ctype) (hhead : (RpcServer.responseHead resp).length ≤ strfSize)
    (hsize : (RpcServer.response resp).length ≤ HttpClient.maxResponse) {chunks : List (List Char)}
    (hchunks : ∀ chunk ∈ chunks, chunk ≠ []) (hsent : chunks.flatten = RpcServer.response resp) :
    HttpClient.reply chunks = ((shownCode resp.status : Int), resp.body) := by
  have hall : Text.readUpTo (HttpClient.maxResponse + 1) [] chunks = RpcServer.responseHead resp ++ resp.body.toList := by
    rw [Text.readUpTo_all hchunks (by rw [List.nil_append, hsent]; omega), List.nil_append, hsent, RpcServer.response,
      strf_eq_self hhead]
  rw [reply_of_head hctype hall, String.ofList_toList]

end

/-! ### The target -/

/-- Characters that stand for themselves in a query. -/
def Verbatim (s : List Char) : Prop := '&' ∉ s ∧ '=' ∉ s ∧ '%' ∉ s ∧ '+' ∉ s

theorem urlDecode_eq_self {s : List Char} (hpercent : '%' ∉ s) (hplus : '+' ∉ s) : urlDecode s = s := by
  induction s with
  | nil => rfl
  | cons c s ih =>
      obtain ⟨hc, hpercent⟩ := List.ne_and_not_mem_of_not_mem_cons hpercent
      obtain ⟨hc', hplus⟩ := List.ne_and_not_mem_of_not_mem_cons hplus
      rw [urlDecode.eq_def]
      split
      · rename_i heq
        cases heq
      · rename_i heq
        injection heq with heq
        exact absurd heq.symm hc
      · rename_i heq
        injection heq with hhead htail
        subst hhead htail
        rw [ih hpercent hplus, if_neg fun heq => hc' heq.symm]

/-- A target with parameters. -/
def target (path : String) (params : List (String × String)) : String :=
  String.ofList (path.toList ++ '?' :: List.intercalate ['&'] (params.map fun kv => kv.1.toList ++ '=' :: kv.2.toList))

/-- The parameters are read back, the last of those with one name. -/
theorem readTarget_target {method body path : String} {params : List (String × String)} (hpath : '?' ∉ path.toList)
    (hparams : ∀ kv ∈ params, Verbatim kv.1.toList ∧ Verbatim kv.2.toList) :
    readTarget method.toList (target path params).toList body.toList =
      { method := method, path := path, query := params.foldl (fun q kv => q.insert kv.1 kv.2) ∅, body := body } := by
  have hpieces : ∀ piece ∈ params.map fun kv => kv.1.toList ++ '=' :: kv.2.toList, '&' ∉ piece ∧ piece ≠ [] := by
    intro piece hpiece
    obtain ⟨kv, hkv, rfl⟩ := List.mem_map.mp hpiece
    obtain ⟨hkey, hvalue⟩ := hparams kv hkv
    refine ⟨?_, by simp⟩
    simp only [List.mem_append, List.mem_cons, not_or]
    exact ⟨hkey.1, by decide, hvalue.1⟩
  have hread : ∀ params : List (String × String), (∀ kv ∈ params, Verbatim kv.1.toList ∧ Verbatim kv.2.toList) → ∀ q,
      (params.map fun kv => kv.1.toList ++ '=' :: kv.2.toList).foldl readParam q =
        params.foldl (fun q kv => q.insert kv.1 kv.2) q := by
    intro params hparams
    induction params with
    | nil => exact fun q => rfl
    | cons kv params ih =>
        intro q
        obtain ⟨⟨hkey, hvalue⟩, hparams⟩ := List.forall_mem_cons.mp hparams
        have hone : readParam q (kv.1.toList ++ '=' :: kv.2.toList) = q.insert kv.1 kv.2 := by
          rw [readParam, Text.cutFirst_append hkey.2.1]
          dsimp only
          rw [urlDecode_eq_self hkey.2.2.1 hkey.2.2.2, urlDecode_eq_self hvalue.2.2.1 hvalue.2.2.2, String.ofList_toList,
            String.ofList_toList]
        rw [List.map_cons, List.foldl_cons, List.foldl_cons, hone]
        exact ih hparams _
  rw [target, String.toList_ofList, readTarget, Text.cutFirst_append hpath]
  dsimp only
  rw [readQuery, Text.pieces_intercalate hpieces, hread params hparams]
  simp only [String.ofList_toList]

theorem readTarget_plain {method body path : String} (hpath : '?' ∉ path.toList) :
    readTarget method.toList path.toList body.toList = { method := method, path := path, body := body } := by
  rw [readTarget, Text.cutFirst_eq_none hpath]
  simp only [String.ofList_toList]

/-! ### A call -/

/-- What the texts of a call must fit: the head of the request in its buffer, the body in what the server takes. -/
structure Sendable (host : String) (port : UInt16) (method path body : String) : Prop where
  okMethod : Word method
  okPath : Word path
  okHost : Dotted host
  headFits : (HttpClient.requestHead host port method path body).length ≤ strfSize
  bodyFits : body.length ≤ maxBody

/-- The same for the response. -/
structure Answerable (resp : HttpResp) : Prop where
  oneLine : OneLine resp.ctype
  headFits : (RpcServer.responseHead resp).length ≤ strfSize
  wholeFits : (RpcServer.response resp).length ≤ HttpClient.maxResponse

theorem length_statusText_le (code : Nat) : (RpcServer.statusText code).toList.length ≤ 25 := by
  unfold RpcServer.statusText
  split
  · decide
  · split
    · decide
    · split <;> decide

/-- Every answer in JSON that is not too long can be read. -/
theorem answerable_json (status : Nat) {body : String} (hbody : body.length ≤ 2 ^ 25) :
    Answerable ⟨status, "application/json", body⟩ := by
  have hline : OneLine "application/json" := ⟨by decide, by decide⟩
  have hcstr : cstr "application/json".toList = "application/json".toList := cstr_eq_self hline.zero
  have hdigits : (Nat.toDigits 10 body.length).length ≤ 20 := by
    rw [Nat.length_toDigits_le_iff (by decide) (by decide)]
    exact Nat.lt_of_le_of_lt hbody (by decide)
  have hhead : (RpcServer.responseHead ⟨status, "application/json", body⟩).length ≤ strfSize := by
    have hstatus := length_statusText_le status
    unfold RpcServer.responseHead strfSize
    rw [hcstr, toList_toString_nat]
    simp only [List.length_append]
    simp
    omega
  have hwhole : (RpcServer.response ⟨status, "application/json", body⟩).length ≤ HttpClient.maxResponse := by
    have hlen : body.toList.length = body.length := String.length_toList
    rw [RpcServer.response, strf_eq_self hhead, List.length_append, hlen]
    unfold strfSize at hhead
    unfold HttpClient.maxResponse
    omega
  exact ⟨hline, hhead, hwhole⟩

/-- **A call is a call of the handler.** However the connection cuts the request, the handler is called with the method,
the target and the body of the client; and however it cuts the response, the client gets the code and the body that the
handler returned. When the connection breaks, it gets nothing, or the code and the beginning of the body. -/
theorem call_reaches_handler {host method path body : String} {port : UInt16} (hsend : Sendable host port method path body)
    (handler : HttpReq → HttpResp) (hanswer : Answerable (handler (readTarget method.toList path.toList body.toList)))
    {sent : List (List Char)} (hchunks : ∀ chunk ∈ sent, chunk ≠ [])
    (hsent : sent.flatten = HttpClient.request host port method path body) :
    ∃ resp, (RpcServer.request sent).map handler = some resp ∧
      resp = handler (readTarget method.toList path.toList body.toList) ∧
      ∀ received : List (List Char), received.flatten <+: RpcServer.response resp →
        ((∀ chunk ∈ received, chunk ≠ []) → received.flatten = RpcServer.response resp →
          HttpClient.reply received = ((shownCode resp.status : Int), resp.body)) ∧
        (HttpClient.reply received = (-1, "") ∨ ∃ part, part <+: resp.body.toList ∧
          HttpClient.reply received = ((shownCode resp.status : Int), String.ofList part)) := by
  have hreq := request_reads hsend.okMethod hsend.okPath hsend.okHost hsend.headFits hsend.bodyFits hchunks hsent
  refine ⟨_, by rw [hreq]; rfl, rfl, ?_⟩
  intro received hpart
  refine ⟨fun hfull hwhole => ?_, reply_of_part hanswer.oneLine hanswer.headFits hpart⟩
  exact reply_reads hanswer.oneLine hanswer.headFits hanswer.wholeFits hfull hwhole

theorem call_reaches_handler_status :
    ∃ resp, (RpcServer.request [HttpClient.request "127.0.0.1" 8501 "GET" "/status" ""]).map
        (fun _ => ⟨200, "application/json", "[]"⟩) = some resp ∧ resp = ⟨200, "application/json", "[]"⟩ ∧
      ∀ received : List (List Char), received.flatten <+: RpcServer.response resp →
        ((∀ chunk ∈ received, chunk ≠ []) → received.flatten = RpcServer.response resp →
          HttpClient.reply received = ((shownCode resp.status : Int), resp.body)) ∧
        (HttpClient.reply received = (-1, "") ∨ ∃ part, part <+: resp.body.toList ∧
          HttpClient.reply received = ((shownCode resp.status : Int), String.ofList part)) := by
  have hsend : Sendable "127.0.0.1" 8501 "GET" "/status" "" :=
    { okMethod := ⟨by decide, by decide, by decide, by decide⟩
      okPath := ⟨by decide, by decide, by decide, by decide⟩
      okHost := by simp [Dotted]
      headFits := by decide +kernel
      bodyFits := by decide }
  have hanswer : Answerable ⟨200, "application/json", "[]"⟩ :=
    { oneLine := ⟨by decide, by decide⟩
      headFits := by decide +kernel
      wholeFits := by decide +kernel }
  refine call_reaches_handler hsend (fun _ => ⟨200, "application/json", "[]"⟩) hanswer ?_ (by simp)
  intro chunk hchunk
  obtain rfl := List.mem_singleton.mp hchunk
  decide +kernel

end Chainlite
