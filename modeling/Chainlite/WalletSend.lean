import Chainlite.NodePending
import Chainlite.Wallet

/-! What `build_and_submit` achieves. Whatever happens to the nodes in between, and wherever a connection breaks, it only
says yes when the node has taken the transaction it built: half a transaction is not one, and half an answer at worst
gives a nonce that is too small. When nothing breaks off and nothing happens in between, it says no only when the
transaction is refused. -/

open Std

namespace Chainlite

/-! ### Half a transaction -/

theorem take_hexs (bytes : Bytes) (n : Nat) : (hexs bytes).toList.take (2 * n) = (hexs (bytes.take n)).toList := by
  rw [hexs, hexs, String.toList_ofList, String.toList_ofList]
  induction bytes generalizing n with
  | nil => simp
  | cons byte bytes ih =>
      cases n with
      | zero => rfl
      | succ n =>
          rw [Nat.mul_succ, List.flatMap_cons, List.take_succ_cons, List.flatMap_cons, ← ih n]
          rfl

/-- The beginning of a text of digits stands for the beginning of the bytes. -/
theorem unhexChars_part {bytes raw : Bytes} {part : List Char} (hpart : part <+: (hexs bytes).toList)
    (h : unhexChars part = some raw) : raw = bytes.take raw.length ∧ part = (hexs raw).toList := by
  have hvalues := unhexChars_eq_some_iff.mp h
  have hlen : part.length = 2 * raw.length := by
    have hmaps := congrArg List.length hvalues
    rwa [List.length_map, List.length_map, length_hexs] at hmaps
  have htake : part = (hexs (bytes.take raw.length)).toList := by
    rw [List.prefix_iff_eq_take.mp hpart, hlen, take_hexs]
  have hraw : raw = bytes.take raw.length := by
    have hread : unhexChars part = some (bytes.take raw.length) := by
      rw [htake]
      exact unhex_hexs _
    rw [h] at hread
    exact Option.some.inj hread
  exact ⟨hraw, by rw [htake, ← hraw]⟩

/-- No transaction is the beginning of another one. -/
theorem Tx.serialize_of_part {t u : Tx} (hu : u.Fits) (ht : t.payload.length < 2 ^ 16)
    (hpart : u.serialize <+: t.serialize) : u = t := by
  have hfield : ∀ v : Tx, v.serialize.drop 105 =
      Writer.u16 (UInt16.ofNat v.payload.length) ++ (v.payload ++ Writer.arr v.sig) := by
    intro v
    have hfront : v.serialize = (Writer.u8 v.type ++ Writer.u32 v.netId ++ Writer.arr v.fromKey ++ Writer.arr v.toAddr ++
        Writer.u64 v.amount ++ Writer.u64 v.nonce) ++
        (Writer.u16 (UInt16.ofNat v.payload.length) ++ (v.payload ++ Writer.arr v.sig)) := by
      simp [Tx.serialize, Tx.ser]
    rw [hfront]
    exact List.drop_left' (by simp)
  obtain ⟨more, hmore⟩ := hpart
  have hlong : 105 ≤ u.serialize.length := by
    rw [Tx.length_serialize]
    omega
  have htails := congrArg (List.drop 105) hmore
  rw [List.drop_append_of_le_length hlong, hfield, hfield, List.append_assoc] at htails
  have hlens : Writer.u16 (UInt16.ofNat u.payload.length) = Writer.u16 (UInt16.ofNat t.payload.length) :=
    (List.append_inj htails (by simp)).1
  have hsame : u.payload.length = t.payload.length := by
    have hwrote := Reader.u16_reads (UInt16.ofNat u.payload.length)
    rw [hlens] at hwrote
    have hread := hwrote.injective (Reader.u16_reads _)
    have hnat := congrArg UInt16.toNat hread
    rw [UInt16.toNat_ofNat', UInt16.toNat_ofNat'] at hnat
    have husmall : u.payload.length < 2 ^ 16 := Nat.lt_of_le_of_lt hu (by decide)
    omega
  have hnil : more = [] := by
    have hlen := congrArg List.length hmore
    rw [List.length_append, Tx.length_serialize, Tx.length_serialize] at hlen
    exact List.length_eq_zero_iff.mp (by omega)
  have htfits : t.Fits := by
    unfold Tx.Fits
    rw [← hsame]
    exact hu
  rw [hnil, List.append_nil] at hmore
  exact Tx.serialize_injective hu htfits hmore

section
variable [Crypto]

/-- What `/submit` takes is a transaction. -/
theorem App.submits_of_ok {a : App} {body : String} (h : (a.submit body).2.2.status = 200) :
    ∃ t, a.Submits (.submit body) t := by
  have hstatus := h
  unfold App.submit at h
  cases hraw : unhex body with
  | none =>
      rw [hraw] at h
      cases h
  | some raw =>
      rw [hraw] at h
      dsimp only at h
      rcases hparse : Tx.parse raw with e | ⟨t, rest⟩
      · rw [hparse] at h
        cases h
      · rw [hparse] at h
        dsimp only at h
        split at h
        · cases h
        · rename_i hrest
          rw [not_not.mp hrest] at hparse
          obtain ⟨hfits, rfl⟩ := Tx.parse_eq_iff.mp hparse
          exact ⟨t, body, rfl, hfits, hraw, hstatus⟩

/-- What `/submit` says to a whole transaction. -/
theorem App.submit_ok_iff {a : App} {t : Tx} (ht : t.Fits) : (a.submit (hexs t.serialize)).2.2.status = 200 ↔
    (a.pool.has t.txid || a.chain.txidx.contains t.txid) = false ∧ ∃ pool, a.pool.add t a.chain.st a.params = .ok pool := by
  have hparse : Tx.parse t.serialize = .ok (t, []) := Tx.parse_eq_iff.mpr ⟨ht, rfl⟩
  unfold App.submit
  rw [unhex_hexs]
  dsimp only
  rw [hparse]
  dsimp only
  rw [if_neg (not_not.mpr rfl)]
  cases hknown : (a.pool.has t.txid || a.chain.txidx.contains t.txid) with
  | true =>
      rw [if_pos rfl]
      simp [err400]
  | false =>
      rw [if_neg (by decide)]
      cases hadd : a.pool.add t a.chain.st a.params with
      | ok pool => simp
      | error e => simp [err400]

/-- Of a transaction that arrives only in part, nothing is taken. -/
theorem App.submits_part {a : App} {t : Tx} (ht : t.payload.length < 2 ^ 16) {part : List Char}
    (hpart : part <+: (hexs t.serialize).toList) (h : (a.submit (String.ofList part)).2.2.status = 200) :
    part = (hexs t.serialize).toList ∧ a.Submits (.submit (hexs t.serialize)) t := by
  obtain ⟨u, body, hbody, hfits, hraw, -⟩ := App.submits_of_ok h
  obtain rfl := Event.submit.inj hbody
  rw [unhex, String.toList_ofList] at hraw
  obtain ⟨htake, htext⟩ := unhexChars_part hpart hraw
  have hprefix : u.serialize <+: t.serialize := by
    rw [htake]
    exact List.take_prefix _ _
  obtain rfl := Tx.serialize_of_part hfits ht hprefix
  rw [htext, String.ofList_toList] at h
  exact ⟨htext, hexs u.serialize, rfl, hfits, unhex_hexs _, h⟩

/-! ### The way of the hosts -/

/-- Anything may happen to the hosts and any calls be made, from `w` to `w'`. -/
def Hosts.Leads (c : Addr → RpcConfig) : Hosts → Hosts → Prop :=
  Relation.ReflTransGen fun w w' => HostStep w w' ∨ ∃ q x, Exchange c w q x w'

theorem Hosts.Leads.of_steps {c : Addr → RpcConfig} {w w' : Hosts} (h : Relation.ReflTransGen HostStep w w') :
    Hosts.Leads c w w' :=
  Relation.ReflTransGen.mono (fun _ _ hstep => Or.inl hstep) _ _ h

theorem Hosts.Leads.call {c : Addr → RpcConfig} {w w₁ w' : Hosts} {q : Call} {x : Int × String}
    (h : Relation.ReflTransGen HostStep w w₁) (hx : Exchange c w₁ q x w') : Hosts.Leads c w w' :=
  (Hosts.Leads.of_steps h).tail (Or.inr ⟨q, x, hx⟩)

theorem Hosts.Leads.running {p : Params} {c : Addr → RpcConfig} {w w' : Hosts} (h : Hosts.Leads c w w')
    (hw : w.Running p) : w'.Running p := by
  induction h with
  | refl => exact hw
  | tail _ hstep ih =>
      rcases hstep with hstep | ⟨q, x, hx⟩
      · exact hstep.running ih
      · exact hx.running ih

/-- A run of a client is one way of the hosts. -/
theorem Hosts.Leads.of_runs {ρ : Type} {c : Addr → RpcConfig} {prog : Client.Prog Call (Int × String) ρ} {out : ρ}
    {w w' : Hosts} (h : Client.Runs HostStep (Exchange c) prog w out w') : Hosts.Leads c w w' := by
  refine h.preserves (fun s s' hstep hlead => ?_) (fun s q x s' hx hlead => ?_) (Relation.ReflTransGen.refl)
  · exact Relation.ReflTransGen.tail hlead (Or.inl hstep)
  · exact Relation.ReflTransGen.tail hlead (Or.inr ⟨q, x, hx⟩)

/-! ### Yes means taken -/

section
variable {p : Params} {c : Addr → RpcConfig} {cng : Bytes → H256 → Option Sig64} {host : String} {port : UInt16}
  {kp : KeyPair} {type : UInt8} {toAddr : Addr20} {amount : UInt64} {payload : Bytes} {w w' : Hosts}

omit [Crypto] in
theorem length_body_le {t : Tx} (ht : t.payload.length < 2 ^ 16) : (hexs t.serialize).length ≤ maxBody := by
  rw [← String.length_toList, length_hexs, Tx.length_serialize]
  unfold maxBody
  omega

/-- **Yes means taken.** Whatever happens to the nodes and wherever a connection breaks: when `build_and_submit` says yes,
the node took, on the way, the very transaction that was asked for, signed, with a nonce not above that of the account
when it was asked for it. -/
theorem submitted_is_taken (hpayload : payload.length < 2 ^ 16)
    (hrun : Client.Runs HostStep (Exchange c) (buildAndSubmit cng host port kp type toAddr amount payload) w true w') :
    ∃ (u : Tx) (w₀ w₁ : Hosts) (r : Readings) (t : Clock), Hosts.Leads c w w₀ ∧ Hosts.Leads c w₀ w₁ ∧
      u = { buildTx kp type toAddr amount payload u.netId u.nonce with sig := u.sig } ∧
      kpSign cng kp u.signHash = some u.sig ∧
      u.nonce ≤ ((w₀ (host, port)).1.chain.st.acct u.sender).nonce ∧
      r.Between (w₁ (host, port)).2 t ∧ (w₁ (host, port)).1.Submits (.submit (hexs u.serialize)) u ∧
      Hosts.Leads c (Function.update w₁ (host, port)
        ((w₁ (host, port)).1.step r (.submit (hexs u.serialize)), t)) w' := by
  obtain ⟨wa, st, wb, hidle, hstatus, hrun⟩ := hrun.ask_inv
  by_cases hst : st.1 ≠ 200
  · rw [if_pos hst] at hrun
    exact absurd hrun.done_inv.1 (by decide)
  rw [if_neg hst] at hrun
  obtain ⟨w₀, bal, wc, hidle', hbalance, hrun⟩ := hrun.ask_inv
  by_cases hbal : bal.1 ≠ 200
  · rw [if_pos hbal] at hrun
    exact absurd hrun.done_inv.1 (by decide)
  rw [if_neg hbal] at hrun
  set nonce := UInt64.ofInt (extractJsonInt bal.2 "nonce" 0) with hnonce
  set netId := UInt32.ofInt (extractJsonInt st.2 "net_id" 0)
  dsimp only at hrun
  cases hsig : kpSign cng kp (buildTx kp type toAddr amount payload netId nonce).signHash with
  | none =>
      rw [hsig] at hrun
      exact absurd hrun.done_inv.1 (by decide)
  | some sig =>
      rw [hsig] at hrun
      obtain ⟨w₁, resp, wd, hidle'', hsubmit, hrun⟩ := hrun.ask_inv
      obtain ⟨hcode, hend⟩ := hrun.done_inv
      have hcode : resp.1 = 200 := by simpa using hcode.symm
      set u : Tx := { buildTx kp type toAddr amount payload netId nonce with sig := sig } with hu
      obtain ⟨ta, -, hwc, hshown⟩ := hbalance.balance (not_not.mp hbal)
      obtain ⟨r, t, part, hr, hpart, hok, hwd⟩ := hsubmit.submit (length_body_le (t := u) hpayload) hcode
      obtain ⟨hwhole, hsubmits⟩ := App.submits_part (t := u) hpayload hpart hok
      rw [hwhole, String.ofList_toList] at hwd
      refine ⟨u, w₀, w₁, r, t, (Hosts.Leads.call hidle hstatus).trans (Hosts.Leads.of_steps hidle'), ?_, rfl, hsig,
        balance_nonce_le hshown, hr, hsubmits, ?_⟩
      · exact (Hosts.Leads.call .refl hbalance).trans (Hosts.Leads.of_steps hidle'')
      · rw [← hwd]
        exact Hosts.Leads.of_steps hend

/-! ### No means refused -/

omit [Crypto] in
theorem Tx.Payable.fits {t : Tx} {acct : Account} (h : t.Payable acct) : t.Fits := by
  rcases h with ⟨-, hpay, -⟩ | ⟨-, -, -, hsize⟩
  · rw [Tx.Fits, hpay]
    exact Nat.zero_le _
  · exact hsize

/-- What `/submit` says to the next transaction of an account, signed for the network of the node. -/
theorem App.submit_next_iff {a : App} {u : Tx} (hpayload : u.payload.length < 2 ^ 16)
    (hnet : u.netId = a.params.netId) (hverify : sigVerify u.fromKey u.signHash u.sig = true)
    (hnext : u.nonce = (a.chain.st.acct u.sender).nonce) (hsmall : (a.chain.st.acct u.sender).nonce.toNat < 2 ^ 63) :
    (a.submit (hexs u.serialize)).2.2.status = 200 ↔
      (a.pool.has u.txid || a.chain.txidx.contains u.txid) = false ∧ isZero u.fromKey = false ∧ a.pool.size < 10000 ∧
      (u.sender, u.nonce) ∉ a.pool.m ∧ u.Payable (a.chain.st.acct u.sender) := by
  have hwindow : ¬(a.chain.st.acct u.sender).nonce + maxNonceAhead < u.nonce := by
    have hsum : ((a.chain.st.acct u.sender).nonce + maxNonceAhead).toNat =
        (a.chain.st.acct u.sender).nonce.toNat + maxNonceAhead.toNat := toNat_add_of_lt (by
      have hsixteen : maxNonceAhead.toNat = 16 := rfl
      omega)
    rw [hnext, UInt64.lt_iff_toNat_lt, hsum]
    omega
  have hused : ¬u.nonce < (a.chain.st.acct u.sender).nonce := by
    rw [hnext]
    exact UInt64.lt_irrefl _
  constructor
  · intro hok
    have hpart : (a.submit (String.ofList (hexs u.serialize).toList)).2.2.status = 200 := by rwa [String.ofList_toList]
    obtain ⟨-, -, -, hfits, -, -⟩ := App.submits_part hpayload (List.prefix_refl _) hpart
    obtain ⟨hknown, pool, hadd⟩ := (App.submit_ok_iff hfits).mp hok
    obtain ⟨hshaped, hroom, hid, -, hkey, -⟩ := Mempool.add_ok hadd
    have hhas : a.pool.has u.txid = false := (Bool.or_eq_false_iff.mp hknown).1
    obtain ⟨-, -, -, -, hshape⟩ := (Mempool.add_succeeds_iff hroom hhas hkey).mp ⟨pool, hadd⟩
    exact ⟨hknown, hshaped.signed.sender, hroom, hkey, (Mempool.shapeError_eq_none_iff hnext).mp hshape⟩
  · rintro ⟨hknown, hzero, hroom, hkey, hpayable⟩
    refine (App.submit_ok_iff hpayable.fits).mpr ⟨hknown, ?_⟩
    refine (Mempool.add_succeeds_iff hroom (Bool.or_eq_false_iff.mp hknown).1 hkey).mpr ?_
    exact ⟨hpayable.ne_coinbase, ⟨hnet, hzero, hverify⟩, hused, hwindow, (Mempool.shapeError_eq_none_iff hnext).mpr hpayable⟩

omit [Crypto] in
theorem quiet {σ : Type} {s s' : σ} (h : Relation.ReflTransGen (fun _ _ => False) s s') : s = s' := by
  induction h with
  | refl => rfl
  | tail _ h _ => exact h.elim

/-- A run without breaks is one of all runs. -/
theorem runs_of_quiet {ρ : Type} {prog : Client.Prog Call (Int × String) ρ} {out : ρ}
    (h : Client.Runs (fun _ _ => False) (Intact c) prog w out w') : Client.Runs HostStep (Exchange c) prog w out w' :=
  h.mono (fun _ _ hstep => hstep.elim) fun _ _ _ _ hcall => hcall.exchange

/-- A run that says yes, where the node takes the transaction. -/
theorem buildAndSubmit_can (c : Addr → RpcConfig) (hnode : NodeRun p (w (host, port)).1 (w (host, port)).2)
    (hnonce : ((w (host, port)).1.chain.st.acct (addrOf kp.pub)).nonce.toNat < 2 ^ 63)
    (hpeers : (w (host, port)).1.p2p.readyCount < 2 ^ 64) (hhost : Inet host) (hpayload : payload.length < 2 ^ 16)
    {sig : Sig64} {u : Tx}
    (hu : u = { buildTx kp type toAddr amount payload p.netId
      ((w (host, port)).1.chain.st.acct (addrOf kp.pub)).nonce with sig := sig })
    (hsig : kpSign cng kp u.signHash = some sig)
    (hok : ((w (host, port)).1.submit (hexs u.serialize)).2.2.status = 200) :
    ∃ w', Client.Runs (fun _ _ => False) (Intact c) (buildAndSubmit cng host port kp type toAddr amount payload) w true w' := by
  have hparams : (w (host, port)).1.params = p := hnode.valid.params
  have hsize : (w (host, port)).1.pool.size < 2 ^ 64 := hnode.poolSize_lt
  have hpay : u.payload.length < 2 ^ 16 := by rw [hu]; exact hpayload
  have hcall := @Intact.submit_can _ w host port c hhost _ (length_body_le hpay)
  rw [hok] at hcall
  refine ⟨Function.update w (host, port) ((w (host, port)).1.step (standing (w (host, port)).2)
    (.submit (hexs u.serialize)), (w (host, port)).2), .ask (Intact.status_can c hhost hpeers hsize) ?_⟩
  rw [if_neg fun h => h rfl]
  refine .ask (Intact.balance_can c (addrOf kp.pub) hhost) ?_
  rw [if_neg fun h => h rfl]
  dsimp only
  rw [status_netId, hparams, balance_nonce hnonce]
  have hsign : kpSign cng kp (buildTx kp type toAddr amount payload p.netId
      ((w (host, port)).1.chain.st.acct (addrOf kp.pub)).nonce).signHash = some sig := by
    subst hu
    exact hsig
  rw [hsign]
  subst hu
  exact .ask hcall .done

/-- **When nothing breaks off and nothing happens in between**, `build_and_submit` says yes exactly when the signature is
made and the transaction with the account's own nonce is one that the node can take: new, payable, with no other
transaction of that nonce waiting and room in the pool. -/
theorem submit_succeeds_iff (hnode : NodeRun p (w (host, port)).1 (w (host, port)).2)
    (hlen : (w (host, port)).1.chain.txs.length < 2 ^ 63) (hpeers : (w (host, port)).1.p2p.readyCount < 2 ^ 64)
    (hhost : Inet host) (hpayload : payload.length < 2 ^ 16)
    (hverify : ∀ digest sig, kpSign cng kp digest = some sig → sigVerify kp.pub digest sig = true) {out : Bool}
    (hrun : Client.Runs (fun _ _ => False) (Intact c) (buildAndSubmit cng host port kp type toAddr amount payload) w out w')
    {t : Tx} (ht : t = buildTx kp type toAddr amount payload p.netId
      ((w (host, port)).1.chain.st.acct (addrOf kp.pub)).nonce) :
    out = true ↔ ∃ sig, kpSign cng kp t.signHash = some sig ∧
      ((w (host, port)).1.pool.has { t with sig := sig }.txid ||
        (w (host, port)).1.chain.txidx.contains { t with sig := sig }.txid) = false ∧
      isZero kp.pub = false ∧ (w (host, port)).1.pool.size < 10000 ∧
      (addrOf kp.pub, t.nonce) ∉ (w (host, port)).1.pool.m ∧
      t.Payable ((w (host, port)).1.chain.st.acct (addrOf kp.pub)) := by
  set a := (w (host, port)).1 with ha
  have hvalid := hnode.valid
  have hparams : a.params = p := hvalid.params
  have hnonce63 : (a.chain.st.acct (addrOf kp.pub)).nonce.toNat < 2 ^ 63 := by
    have hcounted := Chain.Sound.counted hvalid.sound (Nat.lt_trans hlen (by decide))
    exact Nat.lt_of_le_of_lt (hcounted.le (addrOf kp.pub)) hlen
  have hsize : a.pool.size < 2 ^ 64 := hnode.poolSize_lt
  obtain ⟨wa, st, wb, hidle, hstatus, hrun⟩ := hrun.ask_inv
  obtain rfl := quiet hidle
  obtain ⟨ta, -, rfl, rfl⟩ := hstatus.status hhost hpeers hsize
  rw [if_neg fun h => h rfl] at hrun
  obtain ⟨wc, bal, wd, hidle, hbalance, hrun⟩ := hrun.ask_inv
  obtain rfl := quiet hidle
  obtain ⟨tb, rfl, rfl⟩ := hbalance.balance hhost
  rw [Function.update_self, Function.update_idem, if_neg fun h => h rfl] at hrun
  dsimp only at hrun
  rw [← ha, status_netId, hparams, balance_nonce hnonce63, ← ht] at hrun
  cases hsig : kpSign cng kp t.signHash with
  | none =>
      rw [hsig] at hrun
      rw [hrun.done_inv.1]
      simp
  | some sig =>
      rw [hsig] at hrun
      obtain ⟨we, resp, wf, hidle, hsubmit, hrun⟩ := hrun.ask_inv
      obtain rfl := quiet hidle
      obtain ⟨hout, -⟩ := hrun.done_inv
      set u : Tx := { t with sig := sig } with hu
      have hkey : u.fromKey = kp.pub := by rw [hu, ht]; rfl
      have hsender : u.sender = addrOf kp.pub := congrArg addrOf hkey
      have hpay : u.payload.length < 2 ^ 16 := by rw [hu, ht]; exact hpayload
      have hnet : u.netId = a.params.netId := by rw [hu, ht, hparams]; rfl
      have hnext : u.nonce = (a.chain.st.acct u.sender).nonce := by rw [hsender, hu, ht]; rfl
      have hsigned : sigVerify u.fromKey u.signHash u.sig = true := by
        rw [hkey]
        exact hverify _ _ hsig
      have hanswer := hsubmit.submit hhost (length_body_le hpay)
      rw [Function.update_self] at hanswer
      have hiff := App.submit_next_iff hpay hnet hsigned hnext (by rw [hsender]; exact hnonce63)
      rw [hkey, hsender] at hiff
      rw [hout, decide_eq_true_iff, hanswer, hiff]
      constructor
      · exact fun h => ⟨sig, rfl, h⟩
      · rintro ⟨sig', hsig', h⟩
        obtain rfl := Option.some.inj hsig'
        exact h

end

end

/-! ### A first payment -/

section
local instance walletCrypto : Crypto := pendingCrypto

/-- Every address has an easy node. -/
def easyHosts : Hosts := fun _ => (easyNode, Chain.easyClock)

def ownPair : KeyPair := { pub := ownKey, blob := List.replicate blobSize 0 }

/-- A system whose signatures are all zero. -/
def zeroSign (_ : Bytes) (_ : H256) : Option Sig64 := some (zeros 64)

theorem easyHosts_node (addr : Addr) : (easyHosts addr).1 = easyNode := rfl

theorem easyHosts_run (addr : Addr) : NodeRun Chain.easyParams (easyHosts addr).1 (easyHosts addr).2 := easyNode_run

theorem easyNode_acct (addr : Addr20) : easyNode.chain.st.acct addr = {} := by
  have hst : easyNode.chain.st = ∅ := rfl
  rw [hst, State.acct_empty]

theorem easyNode_readyCount : easyNode.p2p.readyCount < 2 ^ 64 := by
  have hnet : easyNode.p2p = {} := rfl
  rw [hnet]
  decide

theorem firstTransfer_built : firstTransfer = { buildTx ownPair txTransfer (zeros 20) 0 [] Chain.easyParams.netId
    (easyNode.chain.st.acct (addrOf ownPair.pub)).nonce with sig := zeros 64 } := by
  rw [easyNode_acct]
  rfl

theorem firstPayment (c : Addr → RpcConfig) : ∃ w', Client.Runs (fun _ _ => False) (Intact c)
    (buildAndSubmit zeroSign "127.0.0.1" 8501 ownPair txTransfer (zeros 20) 0 []) easyHosts true w' := by
  obtain ⟨body, hbody, -, -, hok⟩ : easyNode.Submits (.submit (hexs firstTransfer.serialize)) firstTransfer :=
    submits_firstTransfer
  obtain rfl := Event.submit.inj hbody
  have hnonce : ((easyHosts ("127.0.0.1", 8501)).1.chain.st.acct (addrOf ownPair.pub)).nonce.toNat < 2 ^ 63 := by
    rw [easyHosts_node, easyNode_acct]
    decide
  have hpeers : (easyHosts ("127.0.0.1", 8501)).1.p2p.readyCount < 2 ^ 64 := by
    rw [easyHosts_node]
    exact easyNode_readyCount
  have hbuilt : firstTransfer = { buildTx ownPair txTransfer (zeros 20) 0 [] Chain.easyParams.netId
      ((easyHosts ("127.0.0.1", 8501)).1.chain.st.acct (addrOf ownPair.pub)).nonce with sig := zeros 64 } := by
    rw [easyHosts_node]
    exact firstTransfer_built
  have hok : ((easyHosts ("127.0.0.1", 8501)).1.submit (hexs firstTransfer.serialize)).2.2.status = 200 := by
    rw [easyHosts_node]
    exact hok
  exact buildAndSubmit_can c (easyHosts_run _) hnonce hpeers inet_localhost (by decide) hbuilt rfl hok

/-- The first payment from an easy node succeeds, so it is one that the node can take. -/
theorem submit_succeeds_iff_first : ∃ w', Client.Runs (fun _ _ => False) (Intact fun _ => {})
    (buildAndSubmit zeroSign "127.0.0.1" 8501 ownPair txTransfer (zeros 20) 0 []) easyHosts true w' ∧
    (true = true ↔ ∃ sig, kpSign zeroSign ownPair (buildTx ownPair txTransfer (zeros 20) 0 [] Chain.easyParams.netId
        (easyNode.chain.st.acct (addrOf ownPair.pub)).nonce).signHash = some sig ∧
      (easyNode.pool.has { buildTx ownPair txTransfer (zeros 20) 0 [] Chain.easyParams.netId
          (easyNode.chain.st.acct (addrOf ownPair.pub)).nonce with sig := sig }.txid ||
        easyNode.chain.txidx.contains { buildTx ownPair txTransfer (zeros 20) 0 [] Chain.easyParams.netId
          (easyNode.chain.st.acct (addrOf ownPair.pub)).nonce with sig := sig }.txid) = false ∧
      isZero ownPair.pub = false ∧ easyNode.pool.size < 10000 ∧
      (addrOf ownPair.pub, (easyNode.chain.st.acct (addrOf ownPair.pub)).nonce) ∉ easyNode.pool.m ∧
      (buildTx ownPair txTransfer (zeros 20) 0 [] Chain.easyParams.netId
        (easyNode.chain.st.acct (addrOf ownPair.pub)).nonce).Payable (easyNode.chain.st.acct (addrOf ownPair.pub))) := by
  obtain ⟨w', hrun⟩ := firstPayment fun _ => {}
  refine ⟨w', hrun, ?_⟩
  have hlen : (easyHosts ("127.0.0.1", 8501)).1.chain.txs.length < 2 ^ 63 := by
    have hempty : easyNode.chain.txs = [] := rfl
    rw [easyHosts_node, hempty]
    decide
  have hpeers : (easyHosts ("127.0.0.1", 8501)).1.p2p.readyCount < 2 ^ 64 := by
    rw [easyHosts_node]
    exact easyNode_readyCount
  exact submit_succeeds_iff (easyHosts_run _) hlen hpeers inet_localhost (by decide) (fun _ _ _ => rfl) hrun rfl

/-- A yes about the first payment. -/
theorem submitted_is_taken_first : ∃ w', ∃ (u : Tx) (w₀ w₁ : Hosts) (r : Readings) (t : Clock),
    Hosts.Leads (fun _ => {}) easyHosts w₀ ∧ Hosts.Leads (fun _ => {}) w₀ w₁ ∧
    u = { buildTx ownPair txTransfer (zeros 20) 0 [] u.netId u.nonce with sig := u.sig } ∧
    kpSign zeroSign ownPair u.signHash = some u.sig ∧
    u.nonce ≤ ((w₀ ("127.0.0.1", 8501)).1.chain.st.acct u.sender).nonce ∧
    r.Between (w₁ ("127.0.0.1", 8501)).2 t ∧ (w₁ ("127.0.0.1", 8501)).1.Submits (.submit (hexs u.serialize)) u ∧
    Hosts.Leads (fun _ => {}) (Function.update w₁ ("127.0.0.1", 8501)
      ((w₁ ("127.0.0.1", 8501)).1.step r (.submit (hexs u.serialize)), t)) w' := by
  obtain ⟨w', hrun⟩ := firstPayment fun _ => {}
  exact ⟨w', submitted_is_taken (by decide) (runs_of_quiet hrun)⟩

end

end Chainlite
