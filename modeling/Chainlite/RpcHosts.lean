import Chainlite.BaseClient
import Chainlite.NodeRun
import Chainlite.RpcFields

/-! Nodes at their addresses, and clients that call them. Between two calls anything can happen to the nodes, and a call
can break off at any place: the node may see the beginning of a request and the client the beginning of an answer. -/

open Std

namespace Chainlite

/-- An address as `inet_pton` takes it. -/
structure Inet (host : String) : Prop where
  dotted : Dotted host
  short : host.length ≤ 15

/-- A call of `http_req`. -/
structure Call where
  host : String
  port : UInt16
  method : String
  path : String
  body : String := ""

/-- An address of a node's RPC. -/
abbrev Addr := String × UInt16

def Call.addr (q : Call) : Addr := (q.host, q.port)

def Call.Sendable (q : Call) : Prop := Chainlite.Sendable q.host q.port q.method q.path q.body

/-- The nodes at their addresses, each with its clock. -/
abbrev Hosts := Addr → App × Clock

section
variable [Crypto]

/-- A node after a request: the handler, then its calls to the network. -/
def App.serve (c : RpcConfig) (r : Readings) (a : App) (req : HttpReq) : App :=
  { (a.handleRpc c r req).1 with
    p2p := (a.handleRpc c r req).2.1.foldl P2P.perform (a.handleRpc c r req).1.p2p }

/-- Something happens to one of the nodes. -/
inductive HostStep (w : Hosts) : Hosts → Prop
  | event (addr : Addr) {r : Readings} {t : Clock} (hr : r.Between (w addr).2 t) (ev : Event) :
      HostStep w (Function.update w addr ((w addr).1.step r ev, t))

/-- A call and its result: no answer, or what the client makes of the part of the answer that arrives when the node has
seen a part of the request. A host that is no address is not connected to. -/
inductive Exchange (c : Addr → RpcConfig) (w : Hosts) (q : Call) : Int × String → Hosts → Prop
  | failed : Exchange c w q (-1, "") w
  | served {sent received : List (List Char)} {req : HttpReq} {r : Readings} {t : Clock} (hhost : Inet q.host)
      (hsent : sent.flatten <+: HttpClient.request q.host q.port q.method q.path q.body)
      (hreq : RpcServer.request sent = some req) (hr : r.Between (w q.addr).2 t)
      (hreceived : received.flatten <+: RpcServer.response ((w q.addr).1.handleRpc (c q.addr) r req).2.2) :
      Exchange c w q (HttpClient.reply received)
        (Function.update w q.addr ((w q.addr).1.serve (c q.addr) r req, t))

/-- A call that does not break off. -/
inductive Intact (c : Addr → RpcConfig) (w : Hosts) (q : Call) : Int × String → Hosts → Prop
  | served {sent received : List (List Char)} {req : HttpReq} {r : Readings} {t : Clock} (hhost : Inet q.host)
      (hsent : sent.flatten = HttpClient.request q.host q.port q.method q.path q.body)
      (hsentChunks : ∀ chunk ∈ sent, chunk ≠ [])
      (hreq : RpcServer.request sent = some req) (hr : r.Between (w q.addr).2 t)
      (hreceived : received.flatten = RpcServer.response ((w q.addr).1.handleRpc (c q.addr) r req).2.2)
      (hreceivedChunks : ∀ chunk ∈ received, chunk ≠ []) :
      Intact c w q (HttpClient.reply received)
        (Function.update w q.addr ((w q.addr).1.serve (c q.addr) r req, t))

/-! ### Requests as events -/

/-- What a request does: nothing, or what one of three events does. -/
inductive Dispatched (c : RpcConfig) (r : Readings) (a : App) (req : HttpReq) : Prop
  | read (resp : HttpResp) (h : a.handleRpc c r req = (a, [], resp))
  | submit (hpath : req.path = "/submit") (hmethod : req.method = "POST") (h : a.handleRpc c r req = a.submit req.body)
  | work (hpath : req.path = "/work") (h : a.handleRpc c r req = ((a.work r req.query["addr"]?).1, [], (a.work r req.query["addr"]?).2))
  | submitWork (hpath : req.path = "/submitwork") (hmethod : req.method = "POST")
      (h : a.handleRpc c r req = a.submitWork r req.body)

theorem App.dispatched (c : RpcConfig) (r : Readings) (a : App) (req : HttpReq) : Dispatched c r a req := by
  by_cases hsubmit : req.path = "/submit" ∧ req.method = "POST"
  · refine .submit hsubmit.1 hsubmit.2 ?_
    unfold handleRpc
    simp [hsubmit.1, hsubmit.2]
  · by_cases hwork : req.path = "/work"
    · refine .work hwork ?_
      unfold handleRpc
      simp [hwork]
    · by_cases hsubmitWork : req.path = "/submitwork" ∧ req.method = "POST"
      · refine .submitWork hsubmitWork.1 hsubmitWork.2 ?_
        unfold handleRpc
        simp [hsubmitWork.1, hsubmitWork.2]
      · have hbranch : ∀ {P : Prop} [Decidable P] (resp : HttpResp) {out : App × List NetCall × HttpResp},
            (∃ resp', out = (a, [], resp')) → ∃ resp', (if P then (a, [], resp) else out) = (a, [], resp') := by
          intro P _ resp out hout
          split
          · exact ⟨resp, rfl⟩
          · exact hout
        have hread : ∃ resp, a.handleRpc c r req = (a, [], resp) := by
          unfold handleRpc
          rw [if_neg hsubmit, if_neg hwork, if_neg hsubmitWork]
          repeat refine hbranch _ ?_
          exact ⟨_, rfl⟩
        obtain ⟨resp, hresp⟩ := hread
        exact .read resp hresp

/-! ### Refusals -/

namespace App

variable {c : RpcConfig} {r : Readings} {a : App} {req : HttpReq}

theorem submit_refused (body : String) : (a.submit body).2.2.status = 200 ∨
    (a.submit body).2.2.status = 400 ∧ a.submit body = (a, [], (a.submit body).2.2) := by
  unfold App.submit
  split
  · exact Or.inr ⟨rfl, rfl⟩
  · split
    · exact Or.inr ⟨rfl, rfl⟩
    · split
      · exact Or.inr ⟨rfl, rfl⟩
      · split
        · exact Or.inr ⟨rfl, rfl⟩
        · split
          · exact Or.inr ⟨rfl, rfl⟩
          · exact Or.inl rfl

theorem submitWork_refused (body : String) : (a.submitWork r body).2.2.status = 200 ∨
    (a.submitWork r body).2.2.status = 400 ∧ a.submitWork r body = (a, [], (a.submitWork r body).2.2) := by
  unfold App.submitWork
  split
  · exact Or.inr ⟨rfl, rfl⟩
  · split
    · exact Or.inr ⟨rfl, rfl⟩
    · split
      · exact Or.inr ⟨rfl, rfl⟩
      · split
        · exact Or.inr ⟨rfl, rfl⟩
        · split
          · exact Or.inr ⟨rfl, rfl⟩
          · exact Or.inl rfl

theorem work_refused (addr : Option String) : (a.work r addr).2.status = 200 ∨
    (a.work r addr).2.status = 400 ∧ a.work r addr = (a, (a.work r addr).2) := by
  unfold App.work
  split
  · exact Or.inl rfl
  · split
    · exact Or.inr ⟨rfl, rfl⟩
    · exact Or.inl rfl

/-- **A request is an event**, if it does anything. -/
theorem serve_eq_step (c : RpcConfig) (r : Readings) (a : App) (req : HttpReq) :
    ∃ ev, a.serve c r req = a.step r ev := by
  cases a.dispatched c r req with
  | read resp h => exact ⟨.net a.p2p, by rw [serve, h]; rfl⟩
  | submit _ _ h => exact ⟨.submit req.body, by rw [serve, h]; rfl⟩
  | work _ h => exact ⟨.work req.query["addr"]?, by rw [serve, h]; rfl⟩
  | submitWork _ _ h => exact ⟨.submitWork req.body, by rw [serve, h]; rfl⟩

/-- **A refused request leaves no trace.** -/
theorem refused (h : (a.handleRpc c r req).2.2.status ≠ 200) :
    a.handleRpc c r req = (a, [], (a.handleRpc c r req).2.2) := by
  cases a.dispatched c r req with
  | read resp heq => rw [heq]
  | submit _ _ heq =>
      rw [heq] at h ⊢
      exact ((a.submit_refused req.body).resolve_left h).2
  | work _ heq =>
      rw [heq] at h ⊢
      have hnode : (a.work r req.query["addr"]?).1 = a :=
        congrArg Prod.fst ((work_refused req.query["addr"]?).resolve_left h).2
      rw [hnode]
  | submitWork _ _ heq =>
      rw [heq] at h ⊢
      exact ((submitWork_refused req.body).resolve_left h).2

end App

/-! ### Runs of the hosts -/

variable {p : Params}

/-- Every node is on a run of its own. -/
def Hosts.Running (p : Params) (w : Hosts) : Prop := ∀ addr, NodeRun p (w addr).1 (w addr).2

theorem Hosts.Running.update {w : Hosts} (h : w.Running p) (addr : Addr) {r : Readings} {t : Clock}
    (hr : r.Between (w addr).2 t) (ev : Event) : Hosts.Running p (Function.update w addr ((w addr).1.step r ev, t)) := by
  intro other
  by_cases heq : other = addr
  · subst heq
    rw [Function.update_self]
    exact (h other).step hr ev
  · rw [Function.update_of_ne heq]
    exact h other

theorem HostStep.running {w w' : Hosts} (hstep : HostStep w w') (h : w.Running p) : w'.Running p := by
  cases hstep with
  | event addr hr ev => exact h.update addr hr ev

theorem Exchange.running {c : Addr → RpcConfig} {w w' : Hosts} {q : Call} {x : Int × String}
    (hx : Exchange c w q x w') (h : w.Running p) : w'.Running p := by
  cases hx with
  | failed => exact h
  | @served sent received req r t _ _ _ hr _ =>
      obtain ⟨ev, hev⟩ := (w q.addr).1.serve_eq_step (c q.addr) r req
      rw [hev]
      exact h.update q.addr hr ev

theorem Intact.exchange {c : Addr → RpcConfig} {w w' : Hosts} {q : Call} {x : Int × String} (h : Intact c w q x w') :
    Exchange c w q x w' := by
  cases h with
  | served hhost hsent _ hreq hr hreceived _ =>
      exact .served hhost (hsent ▸ List.prefix_refl _) hreq hr (hreceived ▸ List.prefix_refl _)

/-! ### What a call comes to -/

variable {c : Addr → RpcConfig} {w w' : Hosts} {q : Call} {x : Int × String}

omit [Crypto] in
/-- A node after the handler has run, with its calls to the network made. -/
def App.perform (out : App × List NetCall × HttpResp) : App := { out.1 with p2p := out.2.1.foldl P2P.perform out.1.p2p }

/-- **A call with an answer was served**: the node has handled the request, perhaps with the beginning of its body only. -/
theorem Exchange.answered (h : Exchange c w q x w') (hq : Inet q.host → q.Sendable)
    {out : Readings → List Char → App × List NetCall × HttpResp}
    (hout : ∀ r part, (w q.addr).1.handleRpc (c q.addr) r (readTarget q.method.toList q.path.toList part) = out r part)
    (hresp : ∀ r part, Answerable (out r part).2.2) (hcode : x.1 ≠ -1) :
    ∃ r t part, r.Between (w q.addr).2 t ∧ part <+: q.body.toList ∧
      w' = Function.update w q.addr (App.perform (out r part), t) ∧
      x.1 = (shownCode (out r part).2.2.status : Int) ∧ x.2.toList <+: (out r part).2.2.body.toList := by
  cases h with
  | failed => exact absurd rfl hcode
  | @served sent received req r t hhost hsent hreq hr hreceived =>
      replace hq := hq hhost
      rcases request_of_part hq.okMethod hq.okPath hq.okHost hq.headFits hq.bodyFits hsent with hnone | ⟨part, hpart, hsome⟩
      · rw [hnone] at hreq
        cases hreq
      · rw [hsome] at hreq
        obtain rfl := Option.some.inj hreq
        rw [hout] at hreceived
        have hanswer := hresp r part
        rcases reply_of_part hanswer.oneLine hanswer.headFits hreceived with hlost | ⟨shown, hshown, hreply⟩
        · rw [hlost] at hcode
          exact absurd rfl hcode
        · refine ⟨r, t, part, hr, hpart, by rw [App.serve, hout]; rfl, ?_, ?_⟩
          · rw [hreply]
          · rw [hreply, String.toList_ofList]
            exact hshown

/-- **A call that does not break off** gets what the handler returns. -/
theorem Intact.answered (h : Intact c w q x w') (hq : q.Sendable) {out : Readings → App × List NetCall × HttpResp}
    (hout : ∀ r, (w q.addr).1.handleRpc (c q.addr) r (readTarget q.method.toList q.path.toList q.body.toList) = out r)
    (hresp : ∀ r, Answerable (out r).2.2) :
    ∃ r t, r.Between (w q.addr).2 t ∧ w' = Function.update w q.addr (App.perform (out r), t) ∧
      x = ((shownCode (out r).2.2.status : Int), (out r).2.2.body) := by
  cases h with
  | @served sent received req r t _ hsent hsentChunks hreq hr hreceived hreceivedChunks =>
      rw [request_reads hq.okMethod hq.okPath hq.okHost hq.headFits hq.bodyFits hsentChunks hsent] at hreq
      obtain rfl := Option.some.inj hreq
      rw [hout] at hreceived
      have hanswer := hresp r
      refine ⟨r, t, hr, by rw [App.serve, hout]; rfl, ?_⟩
      exact reply_reads hanswer.oneLine hanswer.headFits hanswer.wholeFits hreceivedChunks hreceived

/-- Such a call can be made. -/
theorem Intact.of_handle (hhost : Inet q.host) (hq : q.Sendable) {r : Readings} {t : Clock} (hr : r.Between (w q.addr).2 t)
    {out : App × List NetCall × HttpResp}
    (hout : (w q.addr).1.handleRpc (c q.addr) r (readTarget q.method.toList q.path.toList q.body.toList) = out)
    (hanswer : Answerable out.2.2) :
    Intact c w q ((shownCode out.2.2.status : Int), out.2.2.body) (Function.update w q.addr (App.perform out, t)) := by
  have hsent : [HttpClient.request q.host q.port q.method q.path q.body].flatten =
      HttpClient.request q.host q.port q.method q.path q.body := List.flatten_singleton
  have hrequest : ∀ chunk ∈ [HttpClient.request q.host q.port q.method q.path q.body], chunk ≠ [] := by
    refine List.forall_mem_singleton.mpr ?_
    rw [request_eq hq.okMethod hq.okPath hq.okHost hq.headFits]
    simp [crlf]
  have hreceived : [RpcServer.response out.2.2].flatten = RpcServer.response out.2.2 := List.flatten_singleton
  have hresponse : ∀ chunk ∈ [RpcServer.response out.2.2], chunk ≠ [] := by
    refine List.forall_mem_singleton.mpr ?_
    rw [RpcServer.response, strf_eq_self hanswer.headFits, responseHead_eq hanswer.oneLine]
    simp [crlf]
  have hreq := request_reads hq.okMethod hq.okPath hq.okHost hq.headFits hq.bodyFits hrequest hsent
  have hreply := reply_reads hanswer.oneLine hanswer.headFits hanswer.wholeFits hresponse hreceived
  have hcall := Intact.served (c := c) hhost hsent hrequest hreq hr (by rw [hout, hreceived]) hresponse
  rw [hreply, App.serve, hout] at hcall
  exact hcall

end

end Chainlite
