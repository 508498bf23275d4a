import Chainlite.RpcHosts

/-! The calls that the wallet, the verifier and the miner make: their requests fit, the node understands them, and its
answers can be read. -/

open Std

namespace Chainlite

/-! ### Requests that fit -/

/-- A call to such an address with a short method and a short target. -/
theorem sendable {host method path body : String} {port : UInt16} (hhost : Inet host) (hmethod : Word method)
    (hmethodLen : method.length ≤ 4) (hpath : Word path) (hpathLen : path.length ≤ 1000) (hbody : body.length ≤ maxBody) :
    Sendable host port method path body := by
  refine { okMethod := hmethod, okPath := hpath, okHost := hhost.dotted, headFits := ?_, bodyFits := hbody }
  have hport : (Nat.toDigits 10 port.toNat).length ≤ 5 := by
    rw [Nat.length_toDigits_le_iff (by decide) (by decide)]
    exact Nat.lt_trans port.toNat_lt (by decide)
  have hlen : (Nat.toDigits 10 body.length).length ≤ 20 := by
    rw [Nat.length_toDigits_le_iff (by decide) (by decide)]
    exact Nat.lt_of_le_of_lt hbody (by decide)
  have hhostLen : host.toList.length ≤ 15 := hhost.short
  have hmethodLen : method.toList.length ≤ 4 := hmethodLen
  have hpathLen : path.toList.length ≤ 1000 := hpathLen
  unfold HttpClient.requestHead strfSize
  rw [cstr_eq_self hmethod.zero, cstr_eq_self hpath.zero, cstr_eq_self (hhost.dotted.not_mem (by decide) (by decide)),
    toList_toString_uint16, toList_toString_nat]
  simp only [List.length_append]
  simp
  omega

theorem word_get : Word "GET" := ⟨by decide, by decide, by decide, by decide⟩

theorem word_post : Word "POST" := ⟨by decide, by decide, by decide, by decide⟩

/-- A `GET` with a short target. -/
theorem sendable_get {host path : String} {port : UInt16} (hhost : Inet host) (hpath : Word path)
    (hlen : path.length ≤ 1000) : Sendable host port "GET" path "" :=
  sendable hhost word_get (by decide) hpath hlen (Nat.zero_le _)

theorem sendable_post {host path body : String} {port : UInt16} (hhost : Inet host) (hpath : Word path)
    (hlen : path.length ≤ 1000) (hbody : body.length ≤ maxBody) : Sendable host port "POST" path body :=
  sendable hhost word_post (by decide) hpath hlen hbody

theorem inet_localhost : Inet "127.0.0.1" := ⟨by simp [Dotted], by decide⟩

/-! ### What the node makes of them -/

section
variable [Crypto] {c : RpcConfig} {r : Readings} {a : App} {req : HttpReq}

theorem handleRpc_status (hpath : req.path = "/status") : a.handleRpc c r req = (a, [], a.status) := by
  unfold App.handleRpc
  simp [hpath]

theorem handleRpc_balance (hpath : req.path = "/balance") :
    a.handleRpc c r req = (a, [], a.balance req.query["addr"]?) := by
  unfold App.handleRpc
  simp [hpath]

theorem handleRpc_block (hpath : req.path = "/block") :
    a.handleRpc c r req = (a, [], a.block req.query["height"]? req.query["hash"]?) := by
  unfold App.handleRpc
  simp [hpath]

theorem handleRpc_submit (hpath : req.path = "/submit") (hmethod : req.method = "POST") :
    a.handleRpc c r req = a.submit req.body := by
  unfold App.handleRpc
  simp [hpath, hmethod]

theorem handleRpc_work (hpath : req.path = "/work") :
    a.handleRpc c r req = ((a.work r req.query["addr"]?).1, [], (a.work r req.query["addr"]?).2) := by
  unfold App.handleRpc
  simp [hpath]

theorem handleRpc_submitWork (hpath : req.path = "/submitwork") (hmethod : req.method = "POST") :
    a.handleRpc c r req = a.submitWork r req.body := by
  unfold App.handleRpc
  simp [hpath, hmethod]

end

/-- A target with one parameter. -/
theorem readTarget_one {method path key value : String} (hpath : '?' ∉ path.toList) (hkey : Verbatim key.toList)
    (hvalue : Verbatim value.toList) (body : List Char) :
    readTarget method.toList (target path [(key, value)]).toList body =
      { method := method, path := path, query := (∅ : ExtTreeMap String String).insert key value,
        body := String.ofList body } := by
  have hread := @readTarget_target method (String.ofList body) path [(key, value)] hpath
    (List.forall_mem_singleton.mpr ⟨hkey, hvalue⟩)
  rwa [String.toList_ofList] at hread

theorem readTarget_none {method path : String} (hpath : '?' ∉ path.toList) (body : List Char) :
    readTarget method.toList path.toList body = { method := method, path := path, body := String.ofList body } := by
  have hread := @readTarget_plain method (String.ofList body) path hpath
  rwa [String.toList_ofList] at hread

theorem verbatim_hexs (bytes : Bytes) : Verbatim (hexs bytes).toList :=
  ⟨not_mem_hexs (by decide) bytes, not_mem_hexs (by decide) bytes, not_mem_hexs (by decide) bytes,
    not_mem_hexs (by decide) bytes⟩

/-- The decimal text of a number stands for itself as well. -/
theorem not_mem_toString {c : Char} (hc : c.isDigit = false) (n : UInt64) : c ∉ (toString n).toList := by
  rw [toList_toString_uint64]
  exact not_mem_of_isDigit (fun c => isDigit_of_mem_toDigits) hc

theorem verbatim_toString (n : UInt64) : Verbatim (toString n).toList :=
  ⟨not_mem_toString (by decide) n, not_mem_toString (by decide) n, not_mem_toString (by decide) n,
    not_mem_toString (by decide) n⟩

theorem word_toString (n : UInt64) : Word (toString n) :=
  ⟨not_mem_toString (by decide) n, not_mem_toString (by decide) n, not_mem_toString (by decide) n,
    not_mem_toString (by decide) n⟩

theorem word_hexs (bytes : Bytes) : Word (hexs bytes) :=
  ⟨not_mem_hexs (by decide) bytes, not_mem_hexs (by decide) bytes, not_mem_hexs (by decide) bytes,
    not_mem_hexs (by decide) bytes⟩

theorem Word.append {s t : String} (hs : Word s) (ht : Word t) : Word (s ++ t) := by
  have hmem : ∀ {c : Char}, c ∉ s.toList → c ∉ t.toList → c ∉ (s ++ t).toList := by
    intro c hcs hct
    rw [String.toList_append, List.mem_append]
    exact not_or.mpr ⟨hcs, hct⟩
  exact ⟨hmem hs.blank ht.blank, hmem hs.ret ht.ret, hmem hs.colon ht.colon, hmem hs.zero ht.zero⟩

/-! ### The calls of the wallet -/

def balancePath (me : Addr20) : String := "/balance?addr=" ++ hexs me.toList

def statusCall (host : String) (port : UInt16) : Call := { host := host, port := port, method := "GET", path := "/status" }

def balanceCall (host : String) (port : UInt16) (me : Addr20) : Call :=
  { host := host, port := port, method := "GET", path := balancePath me }

def submitCall (host : String) (port : UInt16) (body : String) : Call :=
  { host := host, port := port, method := "POST", path := "/submit", body := body }

section
variable {host : String} {port : UInt16}

theorem statusCall_sendable (hhost : Inet host) : (statusCall host port).Sendable :=
  @sendable_get host "/status" port hhost ⟨by decide, by decide, by decide, by decide⟩ (by decide)

theorem balanceCall_sendable (hhost : Inet host) (me : Addr20) : (balanceCall host port me).Sendable := by
  have hpath : Word (balancePath me) := Word.append ⟨by decide, by decide, by decide, by decide⟩ (word_hexs _)
  have hlen : (balancePath me).length ≤ 1000 := by
    have hhex : (hexs me.toList).toList.length = 40 := by rw [length_hexs, Vector.length_toList]
    rw [← String.length_toList, balancePath, String.toList_append, List.length_append, hhex]
    decide
  exact sendable_get hhost hpath hlen

theorem submitCall_sendable (hhost : Inet host) {body : String} (hbody : body.length ≤ maxBody) :
    (submitCall host port body).Sendable :=
  @sendable_post host "/submit" body port hhost ⟨by decide, by decide, by decide, by decide⟩ (by decide) hbody

end

section
variable [Crypto] {c : RpcConfig} {r : Readings} {a : App}

theorem handle_statusCall (part : List Char) :
    a.handleRpc c r (readTarget "GET".toList "/status".toList part) = (a, [], a.status) := by
  rw [readTarget_none (by decide)]
  exact handleRpc_status rfl

theorem handle_balanceCall (me : Addr20) (part : List Char) :
    a.handleRpc c r (readTarget "GET".toList (balancePath me).toList part) =
      (a, [], ⟨200, "application/json", App.balanceJson me (a.chain.st.acct me)⟩) := by
  have hpath : balancePath me = target "/balance" [("addr", hexs me.toList)] := by
    apply String.toList_inj.mp
    rw [balancePath, target, String.toList_append, String.toList_ofList]
    simp
  rw [hpath, readTarget_one (by decide) ⟨by decide, by decide, by decide, by decide⟩ (verbatim_hexs _),
    handleRpc_balance rfl]
  dsimp only
  rw [ExtTreeMap.getElem?_insert_self, App.balance, Option.getD_some, unhexN_hexs]

theorem handle_submitCall (part : List Char) :
    a.handleRpc c r (readTarget "POST".toList "/submit".toList part) = a.submit (String.ofList part) := by
  rw [readTarget_none (by decide)]
  exact handleRpc_submit rfl rfl

/-! ### Their answers -/

omit [Crypto] in
theorem length_digits64 (n : UInt64) : (Nat.toDigits 10 n.toNat).length ≤ 20 := by
  rw [Nat.length_toDigits_le_iff (by decide) (by decide)]
  exact Nat.lt_trans n.toNat_lt (by decide)

omit [Crypto] in
theorem length_digits32 (n : UInt32) : (Nat.toDigits 10 n.toNat).length ≤ 10 := by
  rw [Nat.length_toDigits_le_iff (by decide) (by decide)]
  exact Nat.lt_trans n.toNat_lt (by decide)

omit [Crypto] in
theorem balance_answerable (me : Addr20) (acct : Account) :
    Answerable ⟨200, "application/json", App.balanceJson me acct⟩ := by
  apply answerable_json
  have hhex : (hexs me.toList).toList.length = 40 := by rw [length_hexs, Vector.length_toList]
  have hbalance := length_digits64 acct.balance
  have hnonce := length_digits64 acct.nonce
  rw [← String.length_toList, (balance_shows me acct).text]
  simp [balanceFields, jsonText, Text.fields, Text.named, Text.Value.text, hhex]
  omega

omit [Crypto] in
/-- The status can be read as long as the pool and the peers are counted in 64 bits. -/
theorem status_answerable (hpeers : a.p2p.readyCount < 2 ^ 64) (hpool : a.pool.size < 2 ^ 64) : Answerable a.status := by
  apply @answerable_json 200 a.status.body
  have htip : (hexs a.chain.tipHash.toList).toList.length = 64 := by rw [length_hexs, Vector.length_toList]
  have haddr : (hexs a.minerAddr.toList).toList.length = 40 := by rw [length_hexs, Vector.length_toList]
  have hheight := length_digits64 a.chain.height
  have hwork := length_digits64 a.chain.work
  have hreward := length_digits64 a.params.reward
  have hnet := length_digits32 a.params.netId
  have hbits := length_digits32 a.params.bits
  have hready : (Nat.toDigits 10 a.p2p.readyCount).length ≤ 20 :=
    (Nat.length_toDigits_le_iff (by decide) (by decide)).mpr (Nat.lt_trans hpeers (by decide))
  have hsize : (Nat.toDigits 10 a.pool.size).length ≤ 20 :=
    (Nat.length_toDigits_le_iff (by decide) (by decide)).mpr (Nat.lt_trans hpool (by decide))
  have hmining : (if a.mineOn then "true" else "false").toList.length ≤ 5 := by split <;> decide
  rw [← String.length_toList, (status_shows a).text]
  simp only [statusFields, jsonText, Text.fields, Text.named, Text.Value.text, List.map_cons, List.map_nil, List.length_cons,
    List.length_append, htip, haddr]
  simp
  omega

omit [Crypto] in
theorem length_err400 (e : String) : (err400 e).body.length = e.length + 12 := by
  rw [← String.length_toList, err400]
  simp only [String.toList_append, List.length_append, String.length_toList]
  have hopen : "\x7b\"error\":\"".length = 10 := by decide
  have hclose : "\"\x7d".length = 2 := by decide
  omega

theorem App.submit_answerable (a : App) (body : String) : Answerable (a.submit body).2.2 := by
  have herr : ∀ e : String, e.length ≤ 100 → Answerable (err400 e) := by
    intro e he
    apply @answerable_json 400 (err400 e).body
    rw [length_err400]
    omega
  have hparse : ∀ e : ParseError, ("parse: " ++ e.text).length ≤ 100 := by
    intro e
    cases e <;> decide
  have hpool : ∀ e : PoolError, e.text.length ≤ 100 := by
    intro e
    cases e <;> decide
  unfold App.submit
  split
  · exact herr _ (by decide)
  · split
    · exact herr _ (hparse _)
    · split
      · exact herr _ (hparse _)
      · split
        · exact herr _ (by decide)
        · split
          · exact herr _ (hpool _)
          · apply answerable_json
            rw [← String.length_toList]
            simp only [String.toList_append, List.length_append, length_hexs, Vector.length_toList]
            simp

/-! ### The calls in full -/

omit [Crypto] in
theorem shownCode_eq_ok {code : Nat} : (shownCode code : Int) = 200 ↔ code = 200 := by
  have hcast : (shownCode code : Int) = 200 ↔ shownCode code = 200 := by omega
  rw [hcast]
  unfold shownCode
  split <;> omega

section
variable {c : Addr → RpcConfig} {w w' : Hosts} {host : String} {port : UInt16} {x : Int × String}

/-- An answer to `/balance` begins as the text about the account does. -/
theorem Exchange.balance {me : Addr20} (h : Exchange c w (balanceCall host port me) x w') (hcode : x.1 = 200) :
    ∃ t, (w (host, port)).2 ≤ t ∧ w' = Function.update w (host, port) ((w (host, port)).1, t) ∧
      x.2.toList <+: (App.balanceJson me ((w (host, port)).1.chain.st.acct me)).toList := by
  obtain ⟨r, t, part, hr, -, hw', -, hbody⟩ := h.answered (fun hhost => balanceCall_sendable hhost me)
    (fun r part => handle_balanceCall me part) (fun _ _ => balance_answerable me _) (by rw [hcode]; decide)
  exact ⟨t, hr.le, hw', hbody⟩

/-- A transaction that `/submit` answers with success was handed to the node, perhaps only its beginning. -/
theorem Exchange.submit {body : String} (h : Exchange c w (submitCall host port body) x w')
    (hbody : body.length ≤ maxBody) (hcode : x.1 = 200) :
    ∃ r t part, r.Between (w (host, port)).2 t ∧ part <+: body.toList ∧
      ((w (host, port)).1.submit (String.ofList part)).2.2.status = 200 ∧
      w' = Function.update w (host, port) ((w (host, port)).1.step r (.submit (String.ofList part)), t) := by
  obtain ⟨r, t, part, hr, hpart, hw', hshown, -⟩ := h.answered
    (fun hhost => submitCall_sendable hhost hbody) (fun r part => handle_submitCall part) (fun _ part => App.submit_answerable _ (String.ofList part))
    (by rw [hcode]; decide)
  rw [hcode] at hshown
  exact ⟨r, t, part, hr, hpart, shownCode_eq_ok.mp hshown.symm, hw'⟩

theorem Intact.status (h : Intact c w (statusCall host port) x w') (hhost : Inet host)
    (hpeers : (w (host, port)).1.p2p.readyCount < 2 ^ 64) (hpool : (w (host, port)).1.pool.size < 2 ^ 64) :
    ∃ t, (w (host, port)).2 ≤ t ∧ w' = Function.update w (host, port) ((w (host, port)).1, t) ∧
      x = (200, (w (host, port)).1.status.body) := by
  obtain ⟨r, t, hr, hw', hx⟩ := h.answered (statusCall_sendable hhost) (fun r => handle_statusCall _)
    (fun _ => status_answerable hpeers hpool)
  exact ⟨t, hr.le, hw', hx⟩

theorem Intact.balance {me : Addr20} (h : Intact c w (balanceCall host port me) x w') (hhost : Inet host) :
    ∃ t, w' = Function.update w (host, port) ((w (host, port)).1, t) ∧
      x = (200, App.balanceJson me ((w (host, port)).1.chain.st.acct me)) := by
  obtain ⟨r, t, -, hw', hx⟩ := h.answered (balanceCall_sendable hhost me) (fun r => handle_balanceCall me _)
    (fun _ => balance_answerable me _)
  exact ⟨t, hw', hx⟩

theorem Intact.submit {body : String} (h : Intact c w (submitCall host port body) x w') (hhost : Inet host)
    (hbody : body.length ≤ maxBody) : x.1 = 200 ↔ ((w (host, port)).1.submit body).2.2.status = 200 := by
  obtain ⟨r, t, -, -, hx⟩ := h.answered (submitCall_sendable hhost hbody) (fun r => handle_submitCall _)
    (fun _ => App.submit_answerable _ _)
  have hbody' : String.ofList (submitCall host port body).body.toList = body := String.ofList_toList
  rw [hx, hbody']
  exact shownCode_eq_ok

/-- Readings of a clock that stands still. -/
def standing (t : Clock) : Readings := { now := fun _ => t, ms := fun _ => 0 }

omit [Crypto] in
theorem standing_between (t : Clock) : (standing t).Between t t := ⟨fun _ => Clock.le_refl t, fun _ => Clock.le_refl t⟩

/-- A call of the status can be made. -/
theorem Intact.status_can (c : Addr → RpcConfig) (hhost : Inet host) (hpeers : (w (host, port)).1.p2p.readyCount < 2 ^ 64)
    (hpool : (w (host, port)).1.pool.size < 2 ^ 64) :
    Intact c w (statusCall host port) (200, (w (host, port)).1.status.body) w := by
  have hcall : Intact c w (statusCall host port) (200, (w (host, port)).1.status.body)
      (Function.update w (host, port) (w (host, port))) :=
    Intact.of_handle hhost (statusCall_sendable hhost) (standing_between (w (host, port)).2) (handle_statusCall _)
      (status_answerable hpeers hpool)
  rwa [Function.update_eq_self] at hcall

theorem Intact.balance_can (c : Addr → RpcConfig) (me : Addr20) (hhost : Inet host) :
    Intact c w (balanceCall host port me) (200, App.balanceJson me ((w (host, port)).1.chain.st.acct me)) w := by
  have hcall : Intact c w (balanceCall host port me) (200, App.balanceJson me ((w (host, port)).1.chain.st.acct me))
      (Function.update w (host, port) (w (host, port))) :=
    Intact.of_handle hhost (balanceCall_sendable hhost me) (standing_between (w (host, port)).2) (handle_balanceCall me _)
      (balance_answerable me _)
  rwa [Function.update_eq_self] at hcall

theorem Intact.submit_can (c : Addr → RpcConfig) (hhost : Inet host) {body : String} (hbody : body.length ≤ maxBody) :
    Intact c w (submitCall host port body) ((shownCode ((w (host, port)).1.submit body).2.2.status : Int),
        ((w (host, port)).1.submit body).2.2.body)
      (Function.update w (host, port) ((w (host, port)).1.step (standing (w (host, port)).2) (.submit body),
        (w (host, port)).2)) := by
  have hbody' : String.ofList (submitCall host port body).body.toList = body := String.ofList_toList
  have hcall := Intact.of_handle (c := c) hhost (submitCall_sendable hhost hbody) (standing_between (w (host, port)).2)
    (handle_submitCall _) (App.submit_answerable _ _)
  rw [hbody'] at hcall
  exact hcall

end

end

end Chainlite
