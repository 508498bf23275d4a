import Chainlite.MiningLaunch
import Chainlite.NodeWork
import Chainlite.WalletSend

/-! The loop of the GPU miner. A turn asks the node for work, searches for a nonce in up to 64 launches, looks every eighth
time whether the tip has moved, and hands in the header with the nonce that was found. -/

open Std

namespace Chainlite

/-- What the machine delivers in one turn: the nonce to begin with, and for each round what its launch leaves in `*found`
when the flag is set. -/
structure Device where
  base : UInt64
  found : Nat → Gpu.Launch → Option UInt64

/-- A nonce is found only by a thread that has tried it and accepted it. -/
def Device.Honest (d : Device) : Prop :=
  ∀ round l nonce, d.found round l = some nonce →
    (∃ flag, nonce ∈ l.tried flag) ∧ Gpu.accepts l.hdr l.bits nonce = true

/-- The arguments of the miner and its launch configuration. -/
structure Miner where
  host : String := "127.0.0.1"
  port : UInt16
  addr : String := ""
  config : Gpu.Config

/-- What is read from the answer of `/work`. -/
structure Work where
  hdr : Bytes
  bits : UInt32
  tip : String

/-- The answer to a header that was handed in. -/
structure Solved where
  nonce : UInt64
  code : Int
  deriving DecidableEq

def readWork (body : String) : Option Work :=
  let bits := extractJsonInt body "bits" 0
  match unhex (extractJsonStr body "header") with
  | none => none
  | some hdr =>
      if hdr.length ≠ 100 ∨ bits ≤ 0 then none
      else some { hdr := hdr, bits := UInt32.ofInt bits, tip := extractJsonStr body "tip" }

def workPath (addr : String) : String := "/work" ++ if addr = "" then "" else "?addr=" ++ addr

def workCall (host : String) (port : UInt16) (addr : String) : Call :=
  { host := host, port := port, method := "GET", path := workPath addr }

def submitWorkCall (host : String) (port : UInt16) (body : String) : Call :=
  { host := host, port := port, method := "POST", path := "/submitwork", body := body }

def maxRounds : Nat := 64

namespace Miner

/-- The rounds for one header. -/
def search (m : Miner) (d : Device) (work : Work) : Nat → Nat → UInt64 →
    Client.Prog Call (Int × String) (Option UInt64)
  | 0, _, _ => .done none
  | left + 1, round, base =>
      let found := d.found round (m.config.launch work.hdr work.bits base)
      let rest :=
        match found with
        | some nonce => .done (some nonce)
        | none => search m d work left (round + 1) (m.config.advance base)
      if round % 8 = 7 then
        .ask (statusCall m.host m.port) fun reply =>
          let cur := extractJsonStr reply.2 "tip"
          if reply.1 = 200 ∧ cur ≠ "" ∧ work.tip ≠ "" ∧ cur ≠ work.tip then .done found else rest
      else rest

/-- The header with the nonce is handed in. -/
def handIn (m : Miner) (work : Work) : Option UInt64 → Client.Prog Call (Int × String) (Option Solved)
  | none => .done none
  | some nonce =>
      .ask (submitWorkCall m.host m.port (hexs (patchNonce work.hdr nonce))) fun reply =>
        .done (some { nonce := nonce, code := reply.1 })

/-- The search and the handing in, on the node's answer to `GET /work`. -/
def onWork (m : Miner) (d : Device) (reply : Int × String) : Client.Prog Call (Int × String) (Option Solved) :=
  if reply.1 ≠ 200 then .done none
  else
    match readWork reply.2 with
    | none => .done none
    | some work => (m.search d work maxRounds 0 d.base).bind (m.handIn work)

/-- One turn of the loop. -/
def turn (m : Miner) (d : Device) : Client.Prog Call (Int × String) (Option Solved) :=
  .ask (workCall m.host m.port m.addr) (m.onWork d)

/-- The first turns of the loop. -/
def mine (m : Miner) : List Device → Client.Prog Call (Int × String) (List Solved)
  | [] => .done []
  | d :: ds => (m.turn d).bind fun out => (mine m ds).bind fun rest => .done (out.toList ++ rest)

end Miner

/-! ### What is handed in -/

theorem submitWorkCall_sendable {host : String} {port : UInt16} (hhost : Inet host) {body : String}
    (hbody : body.length ≤ maxBody) : (submitWorkCall host port body).Sendable :=
  @sendable_post host "/submitwork" body port hhost ⟨by decide, by decide, by decide, by decide⟩ (by decide) hbody

theorem length_patchNonce {hdr : Bytes} (h : hdr.length = 100) (nonce : UInt64) : (patchNonce hdr nonce).length = 100 :=
  (Gpu.length_store hdr 92 8 _).trans h

/-- A header with its nonce replaced. -/
theorem patchNonce_header {hdr : Bytes} (h : hdr.length = 100) (nonce : UInt64) :
    ∃ header : BlockHeader, patchNonce hdr nonce = header.serialize ∧ header.nonce = nonce := by
  obtain ⟨before, -, rfl⟩ := BlockHeader.parse_total (show hdr.length = headerSize from h)
  exact ⟨{ before with nonce := nonce }, patchNonce_serialize before nonce, rfl⟩

theorem length_hdr_of_readWork {body : String} {work : Work} (h : readWork body = some work) : work.hdr.length = 100 := by
  unfold readWork at h
  dsimp only at h
  split at h
  · cases h
  · split at h
    · cases h
    · rename_i hgood
      cases h
      exact not_not.mp (not_or.mp hgood).1

section
variable [Crypto] {c : RpcConfig} {r : Readings} {a : App}

theorem handle_submitWorkCall (part : List Char) :
    a.handleRpc c r (readTarget "POST".toList "/submitwork".toList part) = a.submitWork r (String.ofList part) := by
  rw [readTarget_none (by decide)]
  exact handleRpc_submitWork rfl rfl

omit [Crypto] in
theorem length_err400_le {e : String} (h : e.length ≤ 150) : Answerable (err400 e) := by
  apply @answerable_json 400 (err400 e).body
  rw [length_err400]
  omega

omit [Crypto] in
theorem length_toString64 (n : UInt64) : (toString n).length ≤ 20 := by
  rw [← String.length_toList, toList_toString_uint64]
  exact length_digits64 n

omit [Crypto] in
theorem TxError.length_text (e : TxError) : e.text.length ≤ 80 := by
  cases e with
  | badNonce want got =>
      have hwant := length_toString64 want
      have hgot := length_toString64 got
      have htext : (TxError.badNonce want got).text = "bad nonce (want " ++ toString want ++ " got " ++ toString got ++ ")" := rfl
      rw [htext]
      simp only [String.length_append]
      have hopen : "bad nonce (want ".length = 16 := by decide
      have hmid : " got ".length = 5 := by decide
      have hclose : ")".length = 1 := by decide
      omega
  | _ => decide

/-- The place of the transaction that an error of a body names. -/
theorem applyBody_error_lt {p : Params} {height : UInt64} {st : State} {k : Nat} {txs : List Tx} {i : Nat} {err : TxError}
    (h : applyBody p height st k txs = .error (i, err)) : i < k + txs.length := by
  induction txs generalizing st k with
  | nil => cases h
  | cons t rest ih =>
      rw [applyBody] at h
      rw [List.length_cons]
      split at h
      · have hlt := ih h
        omega
      · injection h with h
        injection h with hi
        omega

theorem Chain.connectBlock_tx_error {chain : Chain} {now : Clock} {b : Block} {i : Nat} {err : TxError}
    (h : chain.connectBlock now b = .error (.tx i err)) : i < maxBlockTxs := by
  unfold connectBlock at h
  split at h
  · split at h <;> cases h
  · repeat
      split at h
      · cases h
    rename_i hcount _
    split at h
    · rename_i herror
      cases h
      have hlt := applyBody_error_lt herror
      have hle := not_or.mp hcount
      omega
    · cases h

theorem Chain.connectBlock_error_length {chain : Chain} {now : Clock} {b : Block} {e : ConnectError}
    (h : chain.connectBlock now b = .error e) : ("rejected: " ++ e.text).length ≤ 150 := by
  cases e with
  | tx i err =>
      have hi : (toString i).length ≤ 4 := by
        rw [← String.length_toList, toList_toString_nat, Nat.length_toDigits_le_iff (by decide) (by decide)]
        exact Nat.lt_trans (connectBlock_tx_error h) (by decide)
      have herr := TxError.length_text err
      have htext : (ConnectError.tx i err).text = "tx " ++ toString i ++ ": " ++ err.text := rfl
      rw [htext]
      simp only [String.length_append]
      have hfront : "rejected: ".length = 10 := by decide
      have hopen : "tx ".length = 3 := by decide
      have hcolon : ": ".length = 2 := by decide
      omega
  | _ => decide

theorem App.submitWork_answerable (r : Readings) (a : App) (body : String) : Answerable (a.submitWork r body).2.2 := by
  have hok : ∀ h : BlockHeader, Answerable ⟨200, "application/json", "\x7b\"ok\":true,\"height\":" ++ toString h.height ++
      ",\"hash\":\"" ++ hexs h.hash.toList ++ "\"\x7d"⟩ := by
    intro h
    have hheight := length_digits64 h.height
    apply answerable_json
    rw [← String.length_toList]
    simp only [String.toList_append, List.length_append, length_hexs, Vector.length_toList, toList_toString_uint64]
    simp
    omega
  unfold App.submitWork
  split
  · exact length_err400_le (by decide)
  · split
    · exact length_err400_le (by decide)
    · split
      · exact length_err400_le (by decide)
      · split
        · exact length_err400_le (by decide)
        · split
          · rename_i hconnect
            exact length_err400_le (Chain.connectBlock_error_length hconnect)
          · exact hok _

/-- Of a header that arrives only in part, nothing is taken. -/
theorem App.submitWork_part {raw : Bytes} (hraw : raw.length = 100) {part : List Char} (hpart : part <+: (hexs raw).toList)
    (h : (a.submitWork r (String.ofList part)).2.2.status = 200) : part = (hexs raw).toList := by
  have hread : ∃ got, unhex (String.ofList part) = some got ∧ got.length = headerSize := by
    unfold submitWork at h
    split at h
    · cases h
    · rename_i got hgot
      split at h
      · cases h
      · rename_i hlen
        exact ⟨got, hgot, not_not.mp hlen⟩
  obtain ⟨got, hgot, hlen⟩ := hread
  rw [unhex, String.toList_ofList] at hgot
  obtain ⟨htake, htext⟩ := unhexChars_part hpart hgot
  have hwhole : raw.take got.length = raw := by
    rw [hlen, ← show raw.length = headerSize from hraw, List.take_length]
  rw [hwhole] at htake
  rw [htext, htake]

/-- A header that is taken makes a block that connects. -/
theorem App.submitWork_connects {header : BlockHeader} (h : (a.submitWork r (hexs header.serialize)).2.2.status = 200) :
    ∃ (txs : List Tx) (chain : Chain), a.workCache[header.merkle]? = some txs ∧
      a.chain.connectBlock (r.now 0) { h := header, txs := txs } = .ok chain ∧
      (a.step r (.submitWork (hexs header.serialize))).chain = chain := by
  have hheader := submitWork_header r a header
  cases hcache : a.workCache[header.merkle]? with
  | none =>
      rw [hcache] at hheader
      rw [hheader] at h
      cases h
  | some txs =>
      rw [hcache] at hheader
      dsimp only at hheader
      cases hconnect : a.chain.connectBlock (r.now 0) { h := header, txs := txs } with
      | error e =>
          rw [hconnect] at hheader
          rw [hheader] at h
          cases h
      | ok chain =>
          rw [hconnect] at hheader
          refine ⟨txs, chain, rfl, hconnect, ?_⟩
          rw [App.step_chain, App.handle, hheader]
          rfl

end

/-! ### Blocks that are mined on the way -/

section
variable [Crypto] {c : Addr → RpcConfig} {m : Miner} {d : Device} {w w₁ w' : Hosts} {addr : Addr} {x : Int × String}

/-- From `w` to `w'` the node at the address connects these blocks from its cache, one after another, and anything else
may happen as well. -/
inductive Mined (c : Addr → RpcConfig) (addr : Addr) : List Block → Hosts → Hosts → Prop
  | none {w w' : Hosts} (hlead : Hosts.Leads c w w') : Mined c addr [] w w'
  | block {w w₁ w' : Hosts} {r : Readings} {t : Clock} {b : Block} {chain : Chain} {bs : List Block}
      (hlead : Hosts.Leads c w w₁) (hr : r.Between (w₁ addr).2 t)
      (hcached : (w₁ addr).1.workCache[b.h.merkle]? = some b.txs)
      (hconnect : (w₁ addr).1.chain.connectBlock (r.now 0) b = .ok chain)
      (hchain : ((w₁ addr).1.step r (.submitWork (hexs b.h.serialize))).chain = chain)
      (hrest : Mined c addr bs
        (Function.update w₁ addr ((w₁ addr).1.step r (.submitWork (hexs b.h.serialize)), t)) w') :
      Mined c addr (b :: bs) w w'

theorem Mined.after {bs : List Block} (hlead : Hosts.Leads c w w₁) (h : Mined c addr bs w₁ w') : Mined c addr bs w w' := by
  cases h with
  | none h => exact .none (hlead.trans h)
  | block h hr hcached hconnect hchain hrest => exact .block (hlead.trans h) hr hcached hconnect hchain hrest

theorem Mined.append {bs bs' : List Block} (h : Mined c addr bs w w₁) (h' : Mined c addr bs' w₁ w') :
    Mined c addr (bs ++ bs') w w' := by
  induction h with
  | none hlead => exact h'.after hlead
  | block hlead hr hcached hconnect hchain _ ih => exact .block hlead hr hcached hconnect hchain (ih h')

theorem Mined.before {bs : List Block} (h : Mined c addr bs w w₁) (hlead : Hosts.Leads c w₁ w') : Mined c addr bs w w' := by
  induction h with
  | none hfront => exact .none (hfront.trans hlead)
  | block hfront hr hcached hconnect hchain _ ih => exact .block hfront hr hcached hconnect hchain (ih hlead)

/-- A header that `/submitwork` answers with success was handed to the node, perhaps only its beginning. -/
theorem Exchange.submitWork {body : String} (h : Exchange c w (submitWorkCall addr.1 addr.2 body) x w')
    (hbody : body.length ≤ maxBody) (hcode : x.1 = 200) :
    ∃ r t part, r.Between (w addr).2 t ∧ part <+: body.toList ∧
      ((w addr).1.submitWork r (String.ofList part)).2.2.status = 200 ∧
      w' = Function.update w addr ((w addr).1.step r (.submitWork (String.ofList part)), t) := by
  obtain ⟨r, t, part, hr, hpart, hw', hshown, -⟩ := h.answered (fun hhost => submitWorkCall_sendable hhost hbody)
    (fun r part => handle_submitWorkCall part) (fun r part => App.submitWork_answerable r _ (String.ofList part))
    (by rw [hcode]; decide)
  rw [hcode] at hshown
  exact ⟨r, t, part, hr, hpart, shownCode_eq_ok.mp hshown.symm, hw'⟩

omit [Crypto] in
theorem length_header_le {raw : Bytes} (h : raw.length = 100) : (hexs raw).length ≤ maxBody := by
  rw [← String.length_toList, length_hexs, h]
  decide

/-- **A header that is handed in with success** is that of a block of the node. -/
theorem Exchange.mined {raw : Bytes} {header : BlockHeader} (hraw : raw = header.serialize)
    (h : Exchange c w (submitWorkCall addr.1 addr.2 (hexs raw)) x w') (hcode : x.1 = 200) :
    ∃ b, b.h = header ∧ Mined c addr [b] w w' := by
  have hlen : raw.length = 100 := by
    rw [hraw]
    exact header.length_serialize
  obtain ⟨r, t, part, hr, hpart, hok, hw'⟩ := h.submitWork (length_header_le hlen) hcode
  obtain rfl := App.submitWork_part hlen hpart hok
  rw [String.ofList_toList, hraw] at hok hw'
  obtain ⟨txs, chain, hcached, hconnect, hchain⟩ := App.submitWork_connects hok
  refine ⟨{ h := header, txs := txs }, rfl, .block .refl hr hcached hconnect hchain (.none ?_)⟩
  rw [hw']
  exact .refl

theorem Mined.of_runs {ρ : Type} {prog : Client.Prog Call (Int × String) ρ} {out : ρ}
    (h : Client.Runs HostStep (Exchange c) prog w out w') : Mined c addr [] w w' := .none (Hosts.Leads.of_runs h)

/-- The nonces of the headers that were taken. -/
def takenNonces (out : List Solved) : List UInt64 := (out.filter fun s => s.code = 200).map Solved.nonce

theorem Miner.handIn_mined {work : Work} (hwork : work.hdr.length = 100) {found : Option UInt64} {out : Option Solved}
    (hrun : Client.Runs HostStep (Exchange c) (m.handIn work found) w out w') :
    ∃ bs, Mined c (m.host, m.port) bs w w' ∧ takenNonces out.toList = bs.map fun b => b.h.nonce := by
  cases found with
  | none =>
      obtain ⟨rfl, hsteps⟩ := hrun.done_inv
      exact ⟨[], .none (Hosts.Leads.of_steps hsteps), rfl⟩
  | some nonce =>
      obtain ⟨w₁, x, w₂, hidle, hask, hend⟩ := hrun.ask_inv
      obtain ⟨rfl, hsteps⟩ := hend.done_inv
      by_cases hcode : x.1 = 200
      · obtain ⟨header, hheader, hnonce⟩ := patchNonce_header hwork nonce
        obtain ⟨b, rfl, hmined⟩ := @Exchange.mined _ c w₁ w₂ (m.host, m.port) x _ _ hheader hask hcode
        refine ⟨[b], ?_, ?_⟩
        · exact (hmined.after (Hosts.Leads.of_steps hidle)).before (Hosts.Leads.of_steps hsteps)
        · rw [List.map_singleton, hnonce]
          simp [takenNonces, hcode]
      · refine ⟨[], .of_runs hrun, ?_⟩
        simp [takenNonces, hcode]

theorem Miner.turn_mined {out : Option Solved} (hrun : Client.Runs HostStep (Exchange c) (m.turn d) w out w') :
    ∃ bs, Mined c (m.host, m.port) bs w w' ∧ takenNonces out.toList = bs.map fun b => b.h.nonce := by
  obtain ⟨w₁, reply, w₂, hidle, hask, hrun⟩ := hrun.ask_inv
  have hlead : Hosts.Leads c w w₂ := Hosts.Leads.call hidle hask
  unfold onWork at hrun
  split at hrun
  · obtain ⟨rfl, hsteps⟩ := hrun.done_inv
    exact ⟨[], .none (hlead.trans (Hosts.Leads.of_steps hsteps)), rfl⟩
  · split at hrun
    · obtain ⟨rfl, hsteps⟩ := hrun.done_inv
      exact ⟨[], .none (hlead.trans (Hosts.Leads.of_steps hsteps)), rfl⟩
    · rename_i work hwork
      obtain ⟨found, w₃, hsearch, hrun⟩ := hrun.bind_inv
      obtain ⟨bs, hmined, hnonces⟩ := handIn_mined (length_hdr_of_readWork hwork) hrun
      exact ⟨bs, hmined.after (hlead.trans (Hosts.Leads.of_runs hsearch)), hnonces⟩

/-- **What the miner counts as solved is on a chain.** Whatever the work says, the device finds and happens to the nodes,
and wherever connections break: the headers that the node takes are, in their order and with their nonces, those of blocks
that the node connects one after another, each with a body from its cache. -/
theorem solved_is_connected {ds : List Device} {out : List Solved}
    (hrun : Client.Runs HostStep (Exchange c) (m.mine ds) w out w') :
    ∃ bs, Mined c (m.host, m.port) bs w w' ∧ takenNonces out = bs.map fun b => b.h.nonce := by
  induction ds generalizing w w' out with
  | nil =>
      obtain ⟨rfl, -⟩ := hrun.done_inv
      exact ⟨[], .of_runs hrun, rfl⟩
  | cons d ds ih =>
      obtain ⟨first, w₁, hturn, hrun⟩ := hrun.bind_inv
      obtain ⟨rest, w₂, hmine, hrun⟩ := hrun.bind_inv
      obtain ⟨rfl, hsteps⟩ := hrun.done_inv
      obtain ⟨bs, hmined, hnonces⟩ := Miner.turn_mined hturn
      obtain ⟨bs', hmined', hnonces'⟩ := ih hmine
      refine ⟨bs ++ bs', (hmined.append hmined').before (Hosts.Leads.of_steps hsteps), ?_⟩
      calc takenNonces (first.toList ++ rest)
          = takenNonces first.toList ++ takenNonces rest := by
            rw [takenNonces, List.filter_append, List.map_append]
            rfl
        _ = (bs ++ bs').map fun b => b.h.nonce := by rw [hnonces, hnonces', List.map_append]

end

end Chainlite
