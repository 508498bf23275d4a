import Chainlite.MiningTurn

/-! A miner alone with its node. When nothing breaks off and nothing happens in between, a turn adds a block to the chain
exactly when the device finds a nonce. -/

open Std

namespace Chainlite

/-- The first nonce that the device finds, in rounds that nothing stops. -/
def Device.first (d : Device) (config : Gpu.Config) (hdr : Bytes) (bits : UInt32) : Nat → Nat → UInt64 → Option UInt64
  | 0, _, _ => none
  | left + 1, round, base =>
      match d.found round (config.launch hdr bits base) with
      | some nonce => some nonce
      | none => first d config hdr bits left (round + 1) (config.advance base)

/-- The address that the miner is paid to, when there is one. -/
def Miner.payto (m : Miner) (a : App) : Option Addr20 := if m.addr = "" then some a.minerAddr else unhexN 20 m.addr

theorem Device.Honest.first {d : Device} (h : d.Honest) {config : Gpu.Config} {hdr : Bytes} {bits : UInt32}
    {left round : Nat} {base nonce : UInt64} (hfirst : d.first config hdr bits left round base = some nonce) :
    Gpu.accepts hdr bits nonce = true := by
  induction left generalizing round base with
  | zero => cases hfirst
  | succ left ih =>
      rw [Device.first] at hfirst
      split at hfirst
      · rename_i found hfound
        obtain rfl := Option.some.inj hfirst
        exact (h _ _ _ hfound).2
      · exact ih hfirst

/-! ### The call for work -/

theorem hexval_isSome_of_unhexN {n : Nat} {s : String} {v : Vector UInt8 n} (h : unhexN n s = some v) :
    (∀ c ∈ s.toList, (hexval c).isSome) ∧ s.length = 2 * n := by
  unfold unhexN at h
  split at h
  · cases h
  · rename_i bytes hbytes
    split at h
    · rename_i hlen
      have hvalues := unhexChars_eq_some_iff.mp hbytes
      refine ⟨fun c hc => ?_, ?_⟩
      · have hmem : hexval c ∈ (hexs bytes).toList.map hexval := hvalues ▸ List.mem_map_of_mem hc
        obtain ⟨digit, hdigit, heq⟩ := List.mem_map.mp hmem
        rw [hexs, String.toList_ofList] at hdigit
        obtain ⟨byte, -, hdigit⟩ := List.mem_flatMap.mp hdigit
        rw [← heq]
        rcases List.mem_cons.mp hdigit with rfl | hdigit
        · rw [hexval_hexDigit _ (high_digit_lt byte)]
          rfl
        · rw [List.mem_singleton.mp hdigit, hexval_hexDigit _ (low_digit_lt byte)]
          rfl
      · have hmaps := congrArg List.length hvalues
        rw [List.length_map, List.length_map, length_hexs, hlen] at hmaps
        rw [← String.length_toList]
        exact hmaps
    · cases h

theorem not_mem_of_unhexN {n : Nat} {s : String} {v : Vector UInt8 n} (h : unhexN n s = some v) {c : Char}
    (hc : hexval c = none) : c ∉ s.toList := by
  intro hmem
  have hsome := (hexval_isSome_of_unhexN h).1 c hmem
  rw [hc] at hsome
  cases hsome

section
variable [Crypto] {c : RpcConfig} {r : Readings} {a : App} {m : Miner} {payto : Addr20}

omit [Crypto] in
theorem workCall_sendable (hhost : Inet m.host) (hpay : m.payto a = some payto) :
    (workCall m.host m.port m.addr).Sendable := by
  have hbare : Word "/work" := ⟨by decide, by decide, by decide, by decide⟩
  unfold Miner.payto at hpay
  split at hpay
  · rename_i hempty
    have hpath : workPath m.addr = "/work" := by rw [workPath, if_pos hempty]; rfl
    have hword : Word (workPath m.addr) := hpath ▸ hbare
    have hlen : (workPath m.addr).length ≤ 1000 := by
      rw [hpath]
      decide
    exact sendable_get hhost hword hlen
  · rename_i hsome
    have hpath : workPath m.addr = "/work" ++ ("?addr=" ++ m.addr) := by rw [workPath, if_neg hsome]
    have haddr : Word m.addr := ⟨not_mem_of_unhexN hpay (by decide), not_mem_of_unhexN hpay (by decide),
      not_mem_of_unhexN hpay (by decide), not_mem_of_unhexN hpay (by decide)⟩
    have hword : Word (workPath m.addr) := by
      rw [hpath]
      exact hbare.append (Word.append ⟨by decide, by decide, by decide, by decide⟩ haddr)
    have hlen : (workPath m.addr).length ≤ 1000 := by
      rw [hpath, String.length_append, String.length_append, (hexval_isSome_of_unhexN hpay).2]
      decide
    exact sendable_get hhost hword hlen

theorem handle_workCall (hpay : m.payto a = some payto) (part : List Char) :
    a.handleRpc c r (readTarget "GET".toList (workPath m.addr).toList part) =
      ((a.workFor r payto).1, [], (a.workFor r payto).2) := by
  unfold Miner.payto at hpay
  split at hpay
  · rename_i hempty
    obtain rfl := Option.some.inj hpay
    have hpath : workPath m.addr = "/work" := by rw [workPath, if_pos hempty]; rfl
    rw [hpath, readTarget_none (by decide), handleRpc_work rfl]
    dsimp only
    rw [ExtTreeMap.getElem?_empty, App.work]
  · rename_i hsome
    have hverbatim : Verbatim m.addr.toList := ⟨not_mem_of_unhexN hpay (by decide), not_mem_of_unhexN hpay (by decide),
      not_mem_of_unhexN hpay (by decide), not_mem_of_unhexN hpay (by decide)⟩
    have hpath : workPath m.addr = target "/work" [("addr", m.addr)] := by
      apply String.toList_inj.mp
      rw [workPath, if_neg hsome, target, String.toList_append, String.toList_ofList]
      simp
    rw [hpath, readTarget_one (by decide) ⟨by decide, by decide, by decide, by decide⟩ hverbatim, handleRpc_work rfl]
    dsimp only
    rw [ExtTreeMap.getElem?_insert_self, App.work, hpay]

theorem workFor_answerable : Answerable (a.workFor r payto).2 := by
  rw [App.workFor_resp]
  apply answerable_json
  have hhdr : (hexs (a.workBlock r payto).h.serialize).toList.length = 200 := by
    rw [length_hexs, BlockHeader.length_serialize]
    rfl
  have htip : (hexs a.chain.tipHash.toList).toList.length = 64 := by rw [length_hexs, Vector.length_toList]
  have hbits := length_digits32 (a.workBlock r payto).h.bits
  have hheight := length_digits64 (a.workBlock r payto).h.height
  have hcount : (a.workBlock r payto).txs.length < 2 ^ 64 := by
    have hpicked := (a.pool.collect_spec a.chain.st a.params (a.chain.height + 1)).2
    have hbody : (a.workBlock r payto).txs.length = (a.pool.collect a.chain.st a.params (a.chain.height + 1)).length + 1 := rfl
    have hmax : maxCollected = 1000 := rfl
    omega
  have hntx : (Nat.toDigits 10 (a.workBlock r payto).txs.length).length ≤ 20 :=
    (Nat.length_toDigits_le_iff (by decide) (by decide)).mpr (Nat.lt_trans hcount (by decide))
  rw [← String.length_toList, (work_shows _ _).text]
  simp only [workFields, jsonText, Text.fields, Text.named, Text.Value.text, List.map_cons, List.map_nil, List.length_cons,
    List.length_append, hhdr, htip]
  simp
  omega

omit [Crypto] in
/-- The miner reads the work as the node wrote it. -/
theorem readWork_workJson (b : Block) (tip : H256) (hbits : 0 < b.h.bits.toNat) :
    readWork (workJson b tip) = some { hdr := b.h.serialize, bits := b.h.bits, tip := hexs tip.toList } := by
  have hshows := work_shows b tip
  have hheader : extractJsonStr (workJson b tip) "header" = hexs b.h.serialize := by
    rw [hshows.str (by decide) (v := (hexs b.h.serialize).toList) (by simp [workFields]), String.ofList_toList]
  have htip : extractJsonStr (workJson b tip) "tip" = hexs tip.toList := by
    rw [hshows.str (by decide) (v := (hexs tip.toList).toList) (by simp [workFields]), String.ofList_toList]
  have hread : extractJsonInt (workJson b tip) "bits" 0 = b.h.bits.toNat :=
    hshows.int (by decide) (by simp [workFields]) (Nat.lt_trans b.h.bits.toNat_lt (by decide)) 0
  have hlen : b.h.serialize.length = 100 := BlockHeader.length_serialize _
  have hgood : ¬(b.h.serialize.length ≠ 100 ∨ (b.h.bits.toNat : Int) ≤ 0) := by omega
  unfold readWork
  rw [hheader, htip, hread, unhex_hexs]
  dsimp only
  rw [if_neg hgood, ofInt32_natCast, UInt32.ofNat_toNat]

end

/-! ### A turn alone -/

section
variable [Crypto] {p : Params} {c : Addr → RpcConfig} {m : Miner} {d : Device} {w w' : Hosts} {x : Int × String}
  {payto : Addr20}

theorem Intact.work (h : Intact c w (workCall m.host m.port m.addr) x w') (hhost : Inet m.host)
    (hpay : m.payto (w (m.host, m.port)).1 = some payto) :
    ∃ r t, r.Between (w (m.host, m.port)).2 t ∧
      w' = Function.update w (m.host, m.port) (((w (m.host, m.port)).1.workFor r payto).1, t) ∧
      x = (200, workJson ((w (m.host, m.port)).1.workBlock r payto) (w (m.host, m.port)).1.chain.tipHash) := by
  obtain ⟨r, t, hr, hw', hx⟩ := h.answered (workCall_sendable hhost hpay) (fun r => handle_workCall hpay _)
    (fun _ => workFor_answerable)
  exact ⟨r, t, hr, hw', hx⟩

theorem Intact.submitWork {body : String} (h : Intact c w (submitWorkCall m.host m.port body) x w') (hhost : Inet m.host)
    (hbody : body.length ≤ maxBody) :
    ∃ r t, r.Between (w (m.host, m.port)).2 t ∧
      w' = Function.update w (m.host, m.port) ((w (m.host, m.port)).1.step r (.submitWork body), t) ∧
      x.1 = (shownCode ((w (m.host, m.port)).1.submitWork r body).2.2.status : Int) := by
  obtain ⟨r, t, hr, hw', hx⟩ := h.answered (submitWorkCall_sendable hhost hbody) (fun r => handle_submitWorkCall _)
    (fun r => App.submitWork_answerable r _ _)
  have hbody' : String.ofList (submitWorkCall m.host m.port body).body.toList = body := String.ofList_toList
  rw [hbody'] at hw' hx
  exact ⟨r, t, hr, hw', congrArg Prod.fst hx⟩

/-- The work of a node, handed in with a nonce that meets the difficulty, extends the chain. -/
theorem NodeRun.handIn {a a' : App} {t : Clock} (hnode : NodeRun p a t)
    (hsupply : p.reward.toNat * a.chain.blocks.length < 2 ^ 64) {r r' : Readings} {nonce : UInt64}
    (hchain : a'.chain = a.chain) (hcached : a'.workCache[(a.workBlock r payto).h.merkle]? = some (a.workBlock r payto).txs)
    (hpow : powOk (App.withNonce (a.workBlock r payto) nonce).h.hash p.bits = true) (htime : r.now 0 ≤ r'.now 0) :
    (a'.submitWork r' (hexs (App.withNonce (a.workBlock r payto) nonce).h.serialize)).2.2.status = 200 ∧
      (a'.step r' (.submitWork (hexs (App.withNonce (a.workBlock r payto) nonce).h.serialize))).chain.blocks =
        a.chain.blocks ++ [App.withNonce (a.workBlock r payto) nonce] := by
  have hvalid := hnode.valid
  have hparams : a.params = p := hvalid.params
  have hblock : App.withNonce (a.workBlock r payto) nonce =
      a.chain.template p a.pool payto (r.now 0).seconds nonce := by
    rw [App.workBlock, hparams]
    rfl
  have htimely : Chain.Timely (r'.now 0) (App.withNonce (a.workBlock r payto) nonce) := by
    rw [hblock]
    exact Chain.candidate_timely.mpr (Clock.le_add_skew htime)
  have haccepts : a.chain.Accepts (App.withNonce (a.workBlock r payto) nonce) := by
    rw [hblock] at hpow ⊢
    exact Chain.template_accepted hvalid.sound hvalid.nonempty hsupply hpow
  have hconnect : a'.chain.connectBlock (r'.now 0)
      { h := (App.withNonce (a.workBlock r payto) nonce).h, txs := (a.workBlock r payto).txs } =
      .ok (a.chain.grow (App.withNonce (a.workBlock r payto) nonce)) := by
    rw [hchain]
    exact Chain.connectBlock_ok_iff.mpr ⟨haccepts, fun _ => htimely, rfl⟩
  have hheader := submitWork_header r' a' (App.withNonce (a.workBlock r payto) nonce).h
  rw [show (App.withNonce (a.workBlock r payto) nonce).h.merkle = (a.workBlock r payto).h.merkle from rfl, hcached] at hheader
  dsimp only at hheader
  rw [hconnect] at hheader
  refine ⟨by rw [hheader], ?_⟩
  rw [App.step_chain, App.handle, hheader]
  exact Chain.grow_blocks _ _

/-- The tip does not move, so the rounds come to the end that the device gives them. -/
theorem Miner.search_quiet {work : Work} {left round : Nat} {base : UInt64} {out : Option UInt64} (hhost : Inet m.host)
    (hpeers : (w (m.host, m.port)).1.p2p.readyCount < 2 ^ 64) (hpool : (w (m.host, m.port)).1.pool.size < 2 ^ 64)
    (htip : work.tip = hexs (w (m.host, m.port)).1.chain.tipHash.toList)
    (hrun : Client.Runs (fun _ _ => False) (Intact c) (m.search d work left round base) w out w') :
    out = d.first m.config work.hdr work.bits left round base ∧ (w' (m.host, m.port)).1 = (w (m.host, m.port)).1 ∧
      (w (m.host, m.port)).2 ≤ (w' (m.host, m.port)).2 := by
  induction left generalizing round base w with
  | zero =>
      obtain ⟨rfl, hidle⟩ := hrun.done_inv
      obtain rfl := quiet hidle
      exact ⟨rfl, rfl, Clock.le_refl _⟩
  | succ left ih =>
      have hrest : ∀ {w : Hosts}, (w (m.host, m.port)).1.p2p.readyCount < 2 ^ 64 →
          (w (m.host, m.port)).1.pool.size < 2 ^ 64 → work.tip = hexs (w (m.host, m.port)).1.chain.tipHash.toList →
          Client.Runs (fun _ _ => False) (Intact c)
            (match d.found round (m.config.launch work.hdr work.bits base) with
            | some nonce => .done (some nonce)
            | none => m.search d work left (round + 1) (m.config.advance base)) w out w' →
          out = d.first m.config work.hdr work.bits (left + 1) round base ∧
            (w' (m.host, m.port)).1 = (w (m.host, m.port)).1 ∧ (w (m.host, m.port)).2 ≤ (w' (m.host, m.port)).2 := by
        intro w hpeers hpool htip hrun
        rw [Device.first]
        cases hfound : d.found round (m.config.launch work.hdr work.bits base) with
        | some nonce =>
            rw [hfound] at hrun
            obtain ⟨rfl, hidle⟩ := hrun.done_inv
            obtain rfl := quiet hidle
            exact ⟨rfl, rfl, Clock.le_refl _⟩
        | none =>
            rw [hfound] at hrun
            exact ih hpeers hpool htip hrun
      rw [Miner.search] at hrun
      dsimp only at hrun
      split at hrun
      · obtain ⟨w₁, reply, w₂, hidle, hask, hrun⟩ := hrun.ask_inv
        obtain rfl := quiet hidle
        obtain ⟨t, ht, rfl, rfl⟩ := hask.status hhost hpeers hpool
        have hsame : extractJsonStr (w (m.host, m.port)).1.status.body "tip" = work.tip := by
          rw [htip, (status_shows _).str (by decide)
            (v := (hexs (w (m.host, m.port)).1.chain.tipHash.toList).toList) (by simp [statusFields]),
            String.ofList_toList]
        rw [if_neg fun h => h.2.2.2 hsame] at hrun
        have hself : Function.update w (m.host, m.port) ((w (m.host, m.port)).1, t) (m.host, m.port) =
            ((w (m.host, m.port)).1, t) := Function.update_self ..
        have hend := hrest (by rw [hself]; exact hpeers) (by rw [hself]; exact hpool) (by rw [hself]; exact htip) hrun
        rw [hself] at hend
        exact ⟨hend.1, hend.2.1, Clock.le_trans ht hend.2.2⟩
      · exact hrest hpeers hpool htip hrun

/-- From the work on. -/
theorem Miner.solve_alone (hsha : ∀ bytes, sha256d bytes = Sha.sha256d bytes) (hhonest : d.Honest) {a : App} {t : Clock}
    (hnode : NodeRun p a t) (hbits : p.bits.toNat < 2 ^ 31) (hsupply : p.reward.toNat * a.chain.blocks.length < 2 ^ 64)
    (hhost : Inet m.host) {r : Readings} {b : Block} (hb : b = a.workBlock r payto) (hr : r.now 0 ≤ (w (m.host, m.port)).2)
    (hchain : (w (m.host, m.port)).1.chain = a.chain) (hcached : (w (m.host, m.port)).1.workCache[b.h.merkle]? = some b.txs)
    (hpeers : (w (m.host, m.port)).1.p2p.readyCount < 2 ^ 64) (hpool : (w (m.host, m.port)).1.pool.size < 2 ^ 64)
    {out : Option Solved} {work : Work}
    (hwork : work = { hdr := b.h.serialize, bits := p.bits, tip := hexs a.chain.tipHash.toList })
    (hrun : Client.Runs (fun _ _ => False) (Intact c) ((m.search d work maxRounds 0 d.base).bind (m.handIn work)) w out w') :
    ∃ found, found = d.first m.config b.h.serialize p.bits maxRounds 0 d.base ∧
      (found = none → out = none ∧ (w' (m.host, m.port)).1.chain = a.chain) ∧
      ∀ nonce, found = some nonce → out = some { nonce := nonce, code := 200 } ∧
        (w' (m.host, m.port)).1.chain.blocks = a.chain.blocks ++ [App.withNonce b nonce] := by
  obtain ⟨found, w₁, hsearch, hrun⟩ := hrun.bind_inv
  obtain ⟨hfound, hsame, htime⟩ := Miner.search_quiet hhost hpeers hpool (by rw [hwork, hchain]) hsearch
  rw [hwork] at hfound
  refine ⟨found, hfound, ?_, ?_⟩
  · rintro rfl
    obtain ⟨rfl, hidle⟩ := hrun.done_inv
    obtain rfl := quiet hidle
    exact ⟨rfl, by rw [hsame, hchain]⟩
  · rintro nonce rfl
    have hpow : powOk (App.withNonce b nonce).h.hash p.bits = true := by
      have haccepts := hhonest.first hfound.symm
      have hhash := hash_patchNonce b.h nonce
      rw [hsha] at hhash
      rw [Gpu.accepts_eq (BlockHeader.length_serialize _) hbits, hhash] at haccepts
      exact haccepts
    obtain ⟨w₂, x, w₃, hidle, hask, hend⟩ := hrun.ask_inv
    obtain rfl := quiet hidle
    obtain ⟨rfl, hidle⟩ := hend.done_inv
    obtain rfl := quiet hidle
    have hpatched : patchNonce b.h.serialize nonce = (App.withNonce b nonce).h.serialize := patchNonce_serialize b.h nonce
    rw [hwork, hpatched] at hask
    obtain ⟨r', t', hr', rfl, hx⟩ := hask.submitWork hhost (length_header_le (BlockHeader.length_serialize _))
    have hlater : r.now 0 ≤ r'.now 0 := Clock.le_trans hr (Clock.le_trans htime (hr'.after 0))
    subst hb
    have hchain₁ : (w₁ (m.host, m.port)).1.chain = a.chain := by rw [hsame, hchain]
    have hcached₁ : (w₁ (m.host, m.port)).1.workCache[(a.workBlock r payto).h.merkle]? = some (a.workBlock r payto).txs := by
      rw [hsame, hcached]
    obtain ⟨hok, hblocks⟩ := hnode.handIn hsupply hchain₁ hcached₁ hpow hlater
    refine ⟨?_, ?_⟩
    · have hcode : x.1 = 200 := hx.trans (shownCode_eq_ok.mpr hok)
      rw [hcode]
    · rw [Function.update_self]
      exact hblocks

/-- **A turn alone.** Asked for work, the node hands out a block on its tip that pays the miner's address. When the device
finds no nonce, the chain stays; when it finds one, the answer is success and the chain of the node has grown by the block
with that nonce. -/
theorem mined_alone (hsha : ∀ bytes, sha256d bytes = Sha.sha256d bytes) (hhonest : d.Honest)
    (hnode : NodeRun p (w (m.host, m.port)).1 (w (m.host, m.port)).2) (hpos : 0 < p.bits.toNat)
    (hbits : p.bits.toNat < 2 ^ 31) (hsupply : p.reward.toNat * (w (m.host, m.port)).1.chain.blocks.length < 2 ^ 64)
    (hpeers : (w (m.host, m.port)).1.p2p.readyCount < 2 ^ 64) (hhost : Inet m.host)
    (hpay : m.payto (w (m.host, m.port)).1 = some payto) {out : Option Solved}
    (hrun : Client.Runs (fun _ _ => False) (Intact c) (m.turn d) w out w') :
    ∃ r t, r.Between (w (m.host, m.port)).2 t ∧ ∃ b, b = (w (m.host, m.port)).1.workBlock r payto ∧
      ∃ found, found = d.first m.config b.h.serialize p.bits maxRounds 0 d.base ∧
        (found = none → out = none ∧ (w' (m.host, m.port)).1.chain = (w (m.host, m.port)).1.chain) ∧
        ∀ nonce, found = some nonce → out = some { nonce := nonce, code := 200 } ∧
          (w' (m.host, m.port)).1.chain.blocks =
            (w (m.host, m.port)).1.chain.blocks ++ [App.withNonce b nonce] := by
  have hparams : (w (m.host, m.port)).1.params = p := hnode.valid.params
  have hpool : (w (m.host, m.port)).1.pool.size < 2 ^ 64 := hnode.poolSize_lt
  obtain ⟨w₁, reply, w₂, hidle, hask, hrun⟩ := hrun.ask_inv
  obtain rfl := quiet hidle
  obtain ⟨r, t, hr, hw₂, hreply⟩ := hask.work hhost hpay
  have hself : w₂ (m.host, m.port) = (((w (m.host, m.port)).1.workFor r payto).1, t) := by
    rw [hw₂, Function.update_self]
  obtain ⟨b, hb⟩ : ∃ b, b = (w (m.host, m.port)).1.workBlock r payto := ⟨_, rfl⟩
  have hblockBits : b.h.bits = p.bits := by
    rw [hb, ← hparams]
    rfl
  have hcode : ¬reply.1 ≠ 200 := not_not.mpr (congrArg Prod.fst hreply)
  have hread : readWork reply.2 = some
      { hdr := b.h.serialize, bits := b.h.bits, tip := hexs (w (m.host, m.port)).1.chain.tipHash.toList } := by
    rw [hreply, ← hb]
    exact readWork_workJson b _ (by rw [hblockBits]; exact hpos)
  unfold Miner.onWork at hrun
  rw [if_neg hcode, hread] at hrun
  dsimp only at hrun
  refine ⟨r, t, hr, b, hb, ?_⟩
  refine Miner.solve_alone hsha hhonest hnode hbits hsupply hhost hb ?_ ?_ ?_ ?_ ?_ (by rw [hblockBits]) hrun
  · rw [hself]
    exact hr.upto 0
  · rw [hself]
    rfl
  · rw [hself, hb]
    exact ExtTreeMap.getElem?_insert_self
  · rw [hself]
    exact hpeers
  · rw [hself]
    exact hpool

/-! ### Such turns can be made -/

theorem Intact.work_can (c : Addr → RpcConfig) (hhost : Inet m.host) (hpay : m.payto (w (m.host, m.port)).1 = some payto) :
    Intact c w (workCall m.host m.port m.addr)
      (200, workJson ((w (m.host, m.port)).1.workBlock (standing (w (m.host, m.port)).2) payto)
        (w (m.host, m.port)).1.chain.tipHash)
      (Function.update w (m.host, m.port)
        (((w (m.host, m.port)).1.workFor (standing (w (m.host, m.port)).2) payto).1, (w (m.host, m.port)).2)) :=
  Intact.of_handle hhost (workCall_sendable hhost hpay) (standing_between (w (m.host, m.port)).2) (handle_workCall hpay _)
    workFor_answerable

theorem Intact.submitWork_can (c : Addr → RpcConfig) (hhost : Inet m.host) {body : String} (hbody : body.length ≤ maxBody) :
    ∃ x w', Intact c w (submitWorkCall m.host m.port body) x w' :=
  ⟨_, _, Intact.of_handle hhost (submitWorkCall_sendable hhost hbody) (standing_between (w (m.host, m.port)).2)
    (handle_submitWorkCall _) (App.submitWork_answerable _ _ _)⟩

theorem Miner.search_can (c : Addr → RpcConfig) (hhost : Inet m.host)
    (hpeers : (w (m.host, m.port)).1.p2p.readyCount < 2 ^ 64) (hpool : (w (m.host, m.port)).1.pool.size < 2 ^ 64)
    (work : Work) (left round : Nat) (base : UInt64) :
    ∃ out, Client.Runs (fun _ _ => False) (Intact c) (m.search d work left round base) w out w := by
  induction left generalizing round base with
  | zero => exact ⟨none, .done⟩
  | succ left ih =>
      have hrest : ∃ out, Client.Runs (fun _ _ => False) (Intact c)
          (match d.found round (m.config.launch work.hdr work.bits base) with
          | some nonce => .done (some nonce)
          | none => m.search d work left (round + 1) (m.config.advance base)) w out w := by
        cases d.found round (m.config.launch work.hdr work.bits base) with
        | some nonce => exact ⟨some nonce, .done⟩
        | none => exact ih (round + 1) (m.config.advance base)
      rw [Miner.search]
      dsimp only
      split
      · have hask := Intact.status_can c hhost hpeers hpool
        by_cases hmoved : (200 : Int) = 200 ∧ extractJsonStr (w (m.host, m.port)).1.status.body "tip" ≠ "" ∧
            work.tip ≠ "" ∧ extractJsonStr (w (m.host, m.port)).1.status.body "tip" ≠ work.tip
        · refine ⟨d.found round (m.config.launch work.hdr work.bits base), .ask hask ?_⟩
          rw [if_pos hmoved]
          exact .done
        · obtain ⟨out, hrun⟩ := hrest
          refine ⟨out, .ask hask ?_⟩
          rw [if_neg hmoved]
          exact hrun
      · exact hrest

/-- A miner alone with its node can make a turn, and the nonce that the device finds for the work of the moment is taken. -/
theorem Miner.turn_can (c : Addr → RpcConfig) (hsha : ∀ bytes, sha256d bytes = Sha.sha256d bytes) (hhonest : d.Honest)
    (hnode : NodeRun p (w (m.host, m.port)).1 (w (m.host, m.port)).2) (hpos : 0 < p.bits.toNat)
    (hbits : p.bits.toNat < 2 ^ 31) (hsupply : p.reward.toNat * (w (m.host, m.port)).1.chain.blocks.length < 2 ^ 64)
    (hpeers : (w (m.host, m.port)).1.p2p.readyCount < 2 ^ 64) (hhost : Inet m.host)
    (hpay : m.payto (w (m.host, m.port)).1 = some payto) :
    ∃ w', Client.Runs (fun _ _ => False) (Intact c) (m.turn d) w
      ((d.first m.config ((w (m.host, m.port)).1.workBlock (standing (w (m.host, m.port)).2) payto).h.serialize p.bits
        maxRounds 0 d.base).map fun nonce => { nonce := nonce, code := 200 }) w' := by
  have hparams : (w (m.host, m.port)).1.params = p := hnode.valid.params
  have hpool : (w (m.host, m.port)).1.pool.size < 2 ^ 64 := hnode.poolSize_lt
  have hask := Intact.work_can c hhost hpay
  obtain ⟨b, hb⟩ : ∃ b, b = (w (m.host, m.port)).1.workBlock (standing (w (m.host, m.port)).2) payto := ⟨_, rfl⟩
  obtain ⟨w₁, hw₁⟩ : ∃ w₁, w₁ = Function.update w (m.host, m.port)
      (((w (m.host, m.port)).1.workFor (standing (w (m.host, m.port)).2) payto).1, (w (m.host, m.port)).2) := ⟨_, rfl⟩
  rw [← hw₁, ← hb] at hask
  have hself : w₁ (m.host, m.port) =
      (((w (m.host, m.port)).1.workFor (standing (w (m.host, m.port)).2) payto).1, (w (m.host, m.port)).2) := by
    rw [hw₁, Function.update_self]
  have hblockBits : b.h.bits = p.bits := by
    rw [hb, ← hparams]
    rfl
  obtain ⟨work, hwork⟩ : ∃ work : Work, work =
      { hdr := b.h.serialize, bits := p.bits, tip := hexs (w (m.host, m.port)).1.chain.tipHash.toList } := ⟨_, rfl⟩
  have hread : readWork (workJson b (w (m.host, m.port)).1.chain.tipHash) = some work := by
    rw [readWork_workJson b _ (by rw [hblockBits]; exact hpos), hwork, hblockBits]
  have hlen : work.hdr.length = 100 := length_hdr_of_readWork hread
  have hpeers₁ : (w₁ (m.host, m.port)).1.p2p.readyCount < 2 ^ 64 := by rw [hself]; exact hpeers
  have hpool₁ : (w₁ (m.host, m.port)).1.pool.size < 2 ^ 64 := by rw [hself]; exact hpool
  obtain ⟨out, w', hrun⟩ : ∃ out w', Client.Runs (fun _ _ => False) (Intact c)
      ((m.search d work maxRounds 0 d.base).bind (m.handIn work)) w₁ out w' := by
    obtain ⟨found, hsearch⟩ := Miner.search_can c hhost hpeers₁ hpool₁ work maxRounds 0 d.base
    cases found with
    | none => exact ⟨_, _, hsearch.bind .done⟩
    | some nonce =>
        obtain ⟨x, w₂, hsubmit⟩ := Intact.submitWork_can c hhost (length_header_le (length_patchNonce hlen nonce))
        exact ⟨_, _, hsearch.bind (.ask hsubmit .done)⟩
  have hcached : (w₁ (m.host, m.port)).1.workCache[b.h.merkle]? = some b.txs := by
    rw [hself, hb]
    exact ExtTreeMap.getElem?_insert_self
  obtain ⟨found, hfound, hnone, hsome⟩ := Miner.solve_alone hsha hhonest hnode hbits hsupply hhost hb
    (by rw [hself]; exact (standing_between _).upto 0) (by rw [hself]; rfl) hcached hpeers₁ hpool₁ hwork hrun
  have hout : out = found.map fun nonce => { nonce := nonce, code := 200 } := by
    cases found with
    | none => exact (hnone rfl).1
    | some nonce => exact (hsome nonce rfl).1
  refine ⟨w', .ask hask ?_⟩
  rw [← hb, ← hfound, ← hout]
  unfold Miner.onWork
  rw [if_neg (not_not.mpr rfl), hread]
  exact hrun

end

/-! ### A first block -/

section
variable [Crypto]

/-- Parameters with a difficulty. -/
def Chain.hardParams : Params := { bits := 2 }

theorem Chain.init_hard : (Chain.fresh hardParams).init (fun _ => easyClock) none =
    .ok ((Chain.fresh hardParams).grow (makeGenesis hardParams)) := by
  have hgenesis : (fresh hardParams).Accepts (makeGenesis hardParams) := by
    rw [Accepts, if_pos (show (fresh hardParams).blocks = [] from rfl)]
    exact ⟨rfl, rfl⟩
  show (fresh hardParams).connectBlock easyClock (makeGenesis hardParams) = .ok _
  exact connectBlock_ok_iff.mpr ⟨hgenesis, fun hne => absurd rfl hne, rfl⟩

/-- A node that has only the genesis block. -/
def hardNode : App :=
  App.start Chain.hardParams ((Chain.fresh Chain.hardParams).grow (makeGenesis Chain.hardParams)) (zeros 20) false 0

theorem hardNode_run : NodeRun Chain.hardParams hardNode Chain.easyClock :=
  .start (zeros 20) false 0 (fun _ => Clock.le_refl _) Chain.init_hard

def hardHosts : Hosts := fun _ => (hardNode, Chain.easyClock)

theorem hardHosts_run (addr : Addr) : NodeRun Chain.hardParams (hardHosts addr).1 (hardHosts addr).2 := hardNode_run

theorem hardHosts_supply (addr : Addr) :
    Chain.hardParams.reward.toNat * (hardHosts addr).1.chain.blocks.length < 2 ^ 64 := by
  have hblocks : (hardHosts addr).1.chain.blocks = [makeGenesis Chain.hardParams] := rfl
  rw [hblocks]
  decide

theorem hardHosts_readyCount (addr : Addr) : (hardHosts addr).1.p2p.readyCount < 2 ^ 64 := by
  have hnet : (hardHosts addr).1.p2p = {} := rfl
  rw [hnet]
  decide

omit [Crypto] in
/-- A device whose threads never see the flag before their own nonce. -/
def plainDevice : Device :=
  { base := 0, found := fun _ l => (l.tried fun _ _ _ => false).find? fun nonce => Gpu.accepts l.hdr l.bits nonce }

omit [Crypto] in
theorem plainDevice_honest : plainDevice.Honest := by
  intro round l nonce hfound
  exact ⟨⟨_, List.mem_of_find?_eq_some hfound⟩, List.find?_some hfound⟩

def smallMiner : Miner := { port := 8501, config := Gpu.Config.small }

omit [Crypto] in
theorem smallMiner_payto (a : App) : smallMiner.payto a = some a.minerAddr := rfl

end

section
local instance aloneCrypto : Crypto := Sha.crypto fun _ _ _ => false

theorem aloneCrypto_sha256d (bytes : Bytes) : sha256d bytes = Sha.sha256d bytes := by
  unfold sha256d aloneCrypto Sha.crypto
  rfl

/-- The nonce that the device finds for the first block. -/
theorem plainDevice_first : plainDevice.first smallMiner.config
    ((hardHosts (smallMiner.host, smallMiner.port)).1.workBlock
      (standing (hardHosts (smallMiner.host, smallMiner.port)).2) (zeros 20)).h.serialize
    Chain.hardParams.bits maxRounds 0 plainDevice.base = some 6 := by
  decide +kernel

/-- Its turn. -/
theorem hardHosts_turn (c : Addr → RpcConfig) : ∃ w', Client.Runs (fun _ _ => False) (Intact c)
    (smallMiner.turn plainDevice) hardHosts (some { nonce := 6, code := 200 }) w' := by
  obtain ⟨w', hrun⟩ := Miner.turn_can c aloneCrypto_sha256d plainDevice_honest (hardHosts_run _) (by decide) (by decide)
    (hardHosts_supply _) (hardHosts_readyCount _) inet_localhost (smallMiner_payto _)
  have hpayto : (hardHosts (smallMiner.host, smallMiner.port)).1.minerAddr = zeros 20 := rfl
  rw [hpayto, plainDevice_first] at hrun
  exact ⟨w', hrun⟩

/-- The nonce that the miner counts is that of a block on the chain. -/
theorem solved_is_connected_first : ∃ w' b, Mined (fun _ => {}) ("127.0.0.1", 8501) [b] hardHosts w' ∧ b.h.nonce = 6 := by
  obtain ⟨w', hrun⟩ := hardHosts_turn fun _ => {}
  have hmine : Client.Runs HostStep (Exchange fun _ => {}) (smallMiner.mine [plainDevice]) hardHosts
      [{ nonce := 6, code := 200 }] w' :=
    (runs_of_quiet hrun).bind (Client.Runs.bind .done .done)
  obtain ⟨bs, hmined, hnonces⟩ := solved_is_connected hmine
  obtain ⟨b, rfl, hb⟩ := List.map_eq_singleton_iff.mp hnonces.symm
  exact ⟨w', b, hmined, hb⟩

/-- A first turn, of a node that has only the genesis block: the nonce is found and taken, and the block is on the chain. -/
theorem mined_alone_first : ∃ w', Client.Runs (fun _ _ => False) (Intact fun _ => {}) (smallMiner.turn plainDevice) hardHosts
      (some { nonce := 6, code := 200 }) w' ∧
    ∃ r, (w' (smallMiner.host, smallMiner.port)).1.chain.blocks =
      [makeGenesis Chain.hardParams, App.withNonce (hardNode.workBlock r (zeros 20)) 6] := by
  obtain ⟨w', hrun⟩ := hardHosts_turn fun _ => {}
  obtain ⟨r, t, -, b, rfl, found, -, hnone, hsome⟩ := mined_alone aloneCrypto_sha256d plainDevice_honest (hardHosts_run _)
    (by decide) (by decide) (hardHosts_supply _) (hardHosts_readyCount _) inet_localhost (smallMiner_payto _) hrun
  refine ⟨w', hrun, r, ?_⟩
  cases found with
  | none => cases (hnone rfl).1
  | some nonce =>
      obtain ⟨hout, hblocks⟩ := hsome nonce rfl
      cases hout
      exact hblocks

end

end Chainlite
