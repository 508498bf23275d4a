import Chainlite.ProofTamper
import Chainlite.WalletSend

/-! `clctl verify` in full: the checks of the proof, then the question to each node which block it has at that height. A
node that does not answer, or has no block there, does not count against the proof. -/

open Std

namespace Chainlite

/-- The address in an item of `--rpc-all`: a port, behind the last colon if there is one. -/
def readSpec (spec : List Char) : Addr :=
  match Text.cutLast ':' spec with
  | none => ("127.0.0.1", toPort (atoi spec))
  | some (host, port) => (String.ofList host, toPort (atoi port))

def blockPath (height : UInt64) : String := "/block?height=" ++ toString height

def blockCall (addr : Addr) (height : UInt64) : Call :=
  { host := addr.1, port := addr.2, method := "GET", path := blockPath height }

/-- The verdict, and how many of the nodes agree. -/
structure CrossCheck where
  pass : Bool
  agree : Nat := 0
  total : Nat := 0
  deriving DecidableEq

/-- One turn of the loop over the nodes: what the reply of a node adds. -/
def CrossCheck.count (blockhash : H256) (out : CrossCheck) (reply : Int × String) : CrossCheck :=
  let out := { out with total := out.total + 1 }
  if reply.1 ≠ 200 then out
  else if extractJsonStr reply.2 "hash" = hexs blockhash.toList then { out with agree := out.agree + 1 }
  else { out with pass := false }

/-- The loop over the nodes. -/
def crossCheck (height : UInt64) (blockhash : H256) : List Addr → CrossCheck → Client.Prog Call (Int × String) CrossCheck
  | [], out => .done out
  | addr :: rest, out =>
      .ask (blockCall addr height) fun reply => crossCheck height blockhash rest (out.count blockhash reply)

section
variable [Crypto]

/-- `cmd_verify`; a malformed proof is not shown to any node. -/
def verifyWith (content : List Char) (all : String) : Client.Prog Call (Int × String) CrossCheck :=
  match cmdVerify content with
  | .malformed => .done { pass := false }
  | .badHeader => .done { pass := false }
  | .checked hash height root pow =>
      crossCheck (readProof content).height (readProof content).blockhash ((items all).map readSpec)
        { pass := hash && height && root && pow }

/-! ### The question to a node -/

/-- What `/block` answers for a height. -/
def App.blockAt (a : App) (height : UInt64) : HttpResp :=
  match a.chain.blocks[height.toNat]? with
  | none => err404 "block not found"
  | some b => ⟨200, "application/json", blockJson b⟩

omit [Crypto] in
theorem blockCall_sendable (addr : Addr) (height : UInt64) (hhost : Inet addr.1) : (blockCall addr height).Sendable := by
  have hpath : Word (blockPath height) := Word.append ⟨by decide, by decide, by decide, by decide⟩ (word_toString height)
  have hlen : (blockPath height).length ≤ 1000 := by
    have hshort : (toString height).toList.length ≤ 20 := by
      rw [toList_toString_uint64]
      exact length_digits64 height
    have hfront : "/block?height=".toList.length = 14 := by decide
    rw [← String.length_toList, blockPath, String.toList_append, List.length_append]
    omega
  exact sendable_get hhost hpath hlen

theorem handle_blockCall {c : RpcConfig} {r : Readings} {a : App} (height : UInt64) (part : List Char) :
    a.handleRpc c r (readTarget "GET".toList (blockPath height).toList part) = (a, [], a.blockAt height) := by
  have hpath : blockPath height = target "/block" [("height", toString height)] := by
    apply String.toList_inj.mp
    rw [blockPath, target, String.toList_append, String.toList_ofList]
    simp
  rw [hpath, readTarget_one (by decide) ⟨by decide, by decide, by decide, by decide⟩ (verbatim_toString height),
    handleRpc_block rfl]
  dsimp only
  rw [ExtTreeMap.getElem?_insert_self, App.block, App.blockFor, strtoull_toString]
  rfl

omit [Crypto] in
theorem length_intercalate_le {sep : Char} {n : Nat} {parts : List (List Char)} (h : ∀ part ∈ parts, part.length ≤ n) :
    (List.intercalate [sep] parts).length ≤ parts.length * (n + 1) := by
  induction parts with
  | nil => simp
  | cons part rest ih =>
      obtain ⟨hpart, hrest⟩ := List.forall_mem_cons.mp h
      have hih := ih hrest
      rw [List.length_cons, Nat.succ_mul]
      cases rest with
      | nil =>
          rw [List.intercalate_singleton]
          omega
      | cons next rest =>
          rw [List.intercalate_cons_cons, List.length_append, List.length_append, List.length_singleton]
          omega

/-- The text of a block that fits is short enough to be read. -/
theorem block_answerable {b : Block} (hb : b.txs.length ≤ maxBlockTxs) : Answerable ⟨200, "application/json", blockJson b⟩ := by
  apply answerable_json
  have hids : (String.intercalate "," (b.txids.map fun id => "\"" ++ hexs id.toList ++ "\"")).toList.length ≤
      maxBlockTxs * 67 := by
    have hcount : (b.txids.map fun id => "\"" ++ hexs id.toList ++ "\"").length ≤ maxBlockTxs := by
      simpa [Block.txids] using hb
    rw [String.toList_intercalate]
    refine (length_intercalate_le ?_).trans (Nat.mul_le_mul_right 67 (by simpa using hcount))
    intro part hpart
    obtain ⟨text, htext, rfl⟩ := List.mem_map.mp hpart
    obtain ⟨id, -, rfl⟩ := List.mem_map.mp htext
    simp only [String.toList_append, List.length_append, length_hexs, Vector.length_toList]
    simp
  have hhex : ∀ v : H256, (hexs v.toList).toList.length = 64 := by
    intro v
    rw [length_hexs, Vector.length_toList]
  have hheight := length_digits64 b.h.height
  have htime := length_digits64 b.h.time
  have hnonce := length_digits64 b.h.nonce
  have hbits := length_digits32 b.h.bits
  have hntx : (Nat.toDigits 10 b.txs.length).length ≤ 20 :=
    (Nat.length_toDigits_le_iff (by decide) (by decide)).mpr (Nat.lt_of_le_of_lt hb (by decide))
  have hmax : maxBlockTxs = 5000 := rfl
  rw [← String.length_toList, (block_shows b).text]
  generalize (String.intercalate "," (b.txids.map fun id => "\"" ++ hexs id.toList ++ "\"")).toList = ids at hids ⊢
  simp only [blockFields, jsonText, Text.fields, Text.named, Text.Value.text, List.map_cons, List.map_nil, List.length_cons,
    List.length_append, hhex]
  simp
  omega

theorem blockAt_answerable {p : Params} {a : App} {t : Clock} (hnode : NodeRun p a t) (height : UInt64) :
    Answerable (a.blockAt height) := by
  unfold App.blockAt
  cases hb : a.chain.blocks[height.toNat]? with
  | none =>
      apply @answerable_json 404 (err404 "block not found").body
      decide
  | some b => exact block_answerable (hnode.valid.sound.valid.fits b (List.mem_of_getElem? hb)).count

/-- What is read from the answer of a node that has a block at the height is the hash of the block, or nothing. -/
theorem hash_of_part {b : Block} {answer : String} (h : answer.toList <+: (blockJson b).toList) :
    extractJsonStr answer "hash" = "" ∨ extractJsonStr answer "hash" = hexs b.h.hash.toList := by
  have hmem : ("hash", .quoted (hexs b.h.hash.toList).toList) ∈ blockFields b := by simp [blockFields]
  have hread := (block_shows b).str_part (by decide) hmem h
  rwa [String.ofList_toList] at hread

omit [Crypto] in
theorem hash_hexs_injective {n : Nat} {v v' : Vector UInt8 n} (h : hexs v.toList = hexs v'.toList) : v = v' := by
  have hread := unhexN_hexs v
  rw [h, unhexN_hexs] at hread
  exact (Option.some.inj hread).symm

section
variable {p : Params} {c : Addr → RpcConfig} {w w' : Hosts} {addr : Addr} {height : UInt64} {x : Int × String}

/-- **A node that seems to have the block has it**, wherever the connection breaks. -/
theorem Exchange.block (h : Exchange c w (blockCall addr height) x w') (hw : w.Running p) {blockhash : H256}
    (hcode : x.1 = 200) (hhash : extractJsonStr x.2 "hash" = hexs blockhash.toList) :
    ∃ b, (w addr).1.chain.blocks[height.toNat]? = some b ∧ b.h.hash = blockhash := by
  obtain ⟨r, t, part, -, -, -, hshown, hbody⟩ := h.answered (blockCall_sendable addr height)
    (fun r part => handle_blockCall height part) (fun _ _ => blockAt_answerable (hw addr) height) (by rw [hcode]; decide)
  rw [hcode] at hshown
  have hok := shownCode_eq_ok.mp hshown.symm
  change ((w addr).1.blockAt height).status = 200 at hok
  change x.2.toList <+: ((w addr).1.blockAt height).body.toList at hbody
  unfold App.blockAt at hok hbody
  cases hb : (w addr).1.chain.blocks[height.toNat]? with
  | none =>
      rw [hb] at hok
      cases hok
  | some b =>
      rw [hb] at hbody
      refine ⟨b, rfl, ?_⟩
      rcases hash_of_part hbody with hempty | hsame
      · rw [hempty] at hhash
        exact absurd (congrArg String.toList hhash.symm) (hexs_ne_nil (by
          intro hnil
          have hlen := congrArg List.length hnil
          rw [Vector.length_toList] at hlen
          cases hlen))
      · exact hash_hexs_injective (hsame.symm.trans hhash)

theorem Intact.block (h : Intact c w (blockCall addr height) x w') (hw : w.Running p) (hhost : Inet addr.1) :
    ∃ t, (w addr).2 ≤ t ∧ w' = Function.update w addr ((w addr).1, t) ∧
      x = ((shownCode ((w addr).1.blockAt height).status : Int), ((w addr).1.blockAt height).body) := by
  obtain ⟨r, t, hr, hw', hx⟩ := h.answered (blockCall_sendable addr height hhost) (fun r => handle_blockCall height _)
    (fun _ => blockAt_answerable (hw addr) height)
  exact ⟨t, hr.le, hw', hx⟩

/-- Such a call can be made. -/
theorem Intact.block_can (c : Addr → RpcConfig) (height : UInt64) (hw : w.Running p) (hhost : Inet addr.1) :
    Intact c w (blockCall addr height)
      ((shownCode ((w addr).1.blockAt height).status : Int), ((w addr).1.blockAt height).body) w := by
  have hcall : Intact c w (blockCall addr height)
      ((shownCode ((w addr).1.blockAt height).status : Int), ((w addr).1.blockAt height).body)
      (Function.update w addr (w addr)) :=
    Intact.of_handle hhost (blockCall_sendable addr height hhost) (standing_between (w addr).2) (handle_blockCall height _)
      (blockAt_answerable (hw addr) height)
  rwa [Function.update_eq_self] at hcall

/-! ### The loop over the nodes -/

section
omit [Crypto]
variable {blockhash : H256} {out : CrossCheck} {reply : Int × String}

theorem CrossCheck.count_silent (hcode : reply.1 ≠ 200) :
    out.count blockhash reply = { out with total := out.total + 1 } := if_pos hcode

theorem CrossCheck.count_agrees (hcode : reply.1 = 200) (hhash : extractJsonStr reply.2 "hash" = hexs blockhash.toList) :
    out.count blockhash reply = { out with total := out.total + 1, agree := out.agree + 1 } :=
  (if_neg (not_not.mpr hcode)).trans (if_pos hhash)

theorem CrossCheck.count_differs (hcode : reply.1 = 200) (hhash : extractJsonStr reply.2 "hash" ≠ hexs blockhash.toList) :
    out.count blockhash reply = { out with total := out.total + 1, pass := false } :=
  (if_neg (not_not.mpr hcode)).trans (if_neg hhash)

end

variable {blockhash : H256} {addrs : List Addr} {out res : CrossCheck}

/-- Every node that counts as agreeing had the block when it was asked. -/
theorem crossCheck_sound (hw : w.Running p)
    (hrun : Client.Runs HostStep (Exchange c) (crossCheck height blockhash addrs out) w res w') :
    (res.pass = true → out.pass = true) ∧ res.total = out.total + addrs.length ∧
      ∃ agreed : List Addr, agreed.Sublist addrs ∧ res.agree = out.agree + agreed.length ∧
        ∀ addr ∈ agreed, ∃ w₁, Hosts.Leads c w w₁ ∧ Hosts.Leads c w₁ w' ∧
          ∃ b, (w₁ addr).1.chain.blocks[height.toNat]? = some b ∧ b.h.hash = blockhash := by
  induction addrs generalizing out w with
  | nil =>
      obtain ⟨rfl, -⟩ := hrun.done_inv
      exact ⟨id, rfl, [], List.Sublist.refl _, rfl, fun addr haddr => (by cases haddr)⟩
  | cons addr rest ih =>
      obtain ⟨w₁, reply, w₂, hidle, hask, hrun⟩ := hrun.ask_inv
      have hlead : Hosts.Leads c w w₂ := Hosts.Leads.call hidle hask
      have hw₁ : w₁.Running p := (Hosts.Leads.of_steps (c := c) hidle).running hw
      obtain ⟨hpass, htotal, agreed, hsub, hagree, hhad⟩ := ih (hlead.running hw) hrun
      have hlater : ∀ other ∈ agreed, ∃ w₁, Hosts.Leads c w w₁ ∧ Hosts.Leads c w₁ w' ∧
          ∃ b, (w₁ other).1.chain.blocks[height.toNat]? = some b ∧ b.h.hash = blockhash := by
        intro other hother
        obtain ⟨w₃, hfront, hback, hblock⟩ := hhad other hother
        exact ⟨w₃, hlead.trans hfront, hback, hblock⟩
      by_cases hcode : reply.1 = 200
      swap
      · rw [CrossCheck.count_silent hcode] at hpass htotal hagree
        exact ⟨hpass, by rw [htotal, List.length_cons, Nat.add_assoc, Nat.add_comm 1], agreed, hsub.cons addr, hagree, hlater⟩
      by_cases hhash : extractJsonStr reply.2 "hash" = hexs blockhash.toList
      · rw [CrossCheck.count_agrees hcode hhash] at hpass htotal hagree
        refine ⟨hpass, by rw [htotal, List.length_cons, Nat.add_assoc, Nat.add_comm 1], addr :: agreed, hsub.cons_cons addr,
          by rw [hagree, List.length_cons, Nat.add_assoc, Nat.add_comm 1], List.forall_mem_cons.mpr ⟨?_, hlater⟩⟩
        exact ⟨w₁, Hosts.Leads.of_steps hidle, (Hosts.Leads.call .refl hask).trans (Hosts.Leads.of_runs hrun),
          hask.block hw₁ hcode hhash⟩
      · rw [CrossCheck.count_differs hcode hhash] at hpass htotal hagree
        exact ⟨fun h => absurd (hpass h) Bool.false_ne_true,
          by rw [htotal, List.length_cons, Nat.add_assoc, Nat.add_comm 1], agreed, hsub.cons addr, hagree, hlater⟩

/-- The answer of a node that is asked without a break, as it is counted. -/
theorem count_blockAt (a : App) (out : CrossCheck) :
    out.count blockhash ((shownCode (a.blockAt height).status : Int), (a.blockAt height).body) =
      { pass := out.pass && (a.chain.blocks[height.toNat]?).all fun b => b.h.hash == blockhash,
        agree := out.agree + ((a.chain.blocks[height.toNat]?).any fun b => b.h.hash == blockhash).toNat,
        total := out.total + 1 } := by
  unfold App.blockAt
  cases hb : a.chain.blocks[height.toNat]? with
  | none =>
      have hcode : ((shownCode 404 : Nat) : Int) ≠ 200 := by decide
      refine (CrossCheck.count_silent hcode).trans ?_
      simp
  | some b =>
      have hcode : ((shownCode 200 : Nat) : Int) = 200 := by decide
      have hmem : ("hash", .quoted (hexs b.h.hash.toList).toList) ∈ blockFields b := by simp [blockFields]
      have hread : extractJsonStr (blockJson b) "hash" = hexs b.h.hash.toList := by
        rw [(block_shows b).str (by decide) hmem, String.ofList_toList]
      by_cases hsame : b.h.hash = blockhash
      · refine (CrossCheck.count_agrees hcode (by rw [hread, hsame])).trans ?_
        simp [hsame]
      · refine (CrossCheck.count_differs hcode ?_).trans ?_
        · rw [hread]
          exact fun heq => hsame (hash_hexs_injective heq)
        · simp [hsame]

/-- What the loop comes to when nothing breaks off and nothing happens in between. -/
theorem crossCheck_quiet (hw : w.Running p) (hhosts : ∀ addr ∈ addrs, Inet addr.1)
    (hrun : Client.Runs (fun _ _ => False) (Intact c) (crossCheck height blockhash addrs out) w res w') :
    (res.pass = true ↔ out.pass = true ∧
      ∀ addr ∈ addrs, ∀ b, (w addr).1.chain.blocks[height.toNat]? = some b → b.h.hash = blockhash) ∧
    res.total = out.total + addrs.length ∧
    res.agree = out.agree + addrs.countP fun addr =>
      ((w addr).1.chain.blocks[height.toNat]?).any fun b => b.h.hash == blockhash := by
  induction addrs generalizing out w with
  | nil =>
      obtain ⟨rfl, -⟩ := hrun.done_inv
      simp
  | cons addr rest ih =>
      obtain ⟨hhost, hrest⟩ := List.forall_mem_cons.mp hhosts
      obtain ⟨w₁, reply, w₂, hidle, hask, hrun⟩ := hrun.ask_inv
      obtain rfl := quiet hidle
      have hw₂ := hask.exchange.running hw
      obtain ⟨t, -, rfl, rfl⟩ := hask.block hw hhost
      have hsame : ∀ other, (Function.update w addr ((w addr).1, t) other).1 = (w other).1 := by
        intro other
        by_cases heq : other = addr
        · rw [heq, Function.update_self]
        · rw [Function.update_of_ne heq]
      obtain ⟨hpass, htotal, hagree⟩ := ih hw₂ hrest hrun
      simp only [hsame] at hpass htotal hagree
      rw [count_blockAt] at hpass htotal hagree
      refine ⟨?_, by rw [htotal, List.length_cons, Nat.add_assoc, Nat.add_comm 1], ?_⟩
      · rw [hpass, List.forall_mem_cons, ← and_assoc]
        refine and_congr_left fun _ => ?_
        rw [Bool.and_eq_true]
        refine and_congr_right fun _ => ?_
        cases hb : (w addr).1.chain.blocks[height.toNat]? <;> simp
      · rw [hagree, List.countP_cons, Nat.add_assoc]
        congr 1
        cases (w addr).1.chain.blocks[height.toNat]?.any fun b => b.h.hash == blockhash <;> simp [Nat.add_comm]

/-! ### The verdict -/

variable {content : List Char} {all : String}

theorem verdict_of_passes (h : Passes content) : verifyWith content all =
    crossCheck (readProof content).height (readProof content).blockhash ((items all).map readSpec) { pass := true } := by
  unfold verifyWith
  rw [h]
  rfl

/-- What the checks do not pass is not saved by the nodes. -/
theorem passes_of_verified (hw : w.Running p)
    (hrun : Client.Runs HostStep (Exchange c) (verifyWith content all) w res w') (hpass : res.pass = true) :
    Passes content := by
  unfold verifyWith at hrun
  unfold Passes
  cases hverdict : cmdVerify content with
  | malformed =>
      rw [hverdict] at hrun
      rw [hrun.done_inv.1] at hpass
      cases hpass
  | badHeader =>
      rw [hverdict] at hrun
      rw [hrun.done_inv.1] at hpass
      cases hpass
  | checked hash height root pow =>
      rw [hverdict] at hrun
      have hall := (crossCheck_sound hw hrun).1 hpass
      simp only [Bool.and_eq_true] at hall
      obtain ⟨⟨⟨rfl, rfl⟩, rfl⟩, rfl⟩ := hall
      rfl

/-- What a proof that passes says about a block with its hash. -/
theorem Passes.block {a : App} {t : Clock} (hnode : NodeRun p a t) (h : Passes content) {b : Block}
    (hb : a.chain.blocks[(readProof content).height.toNat]? = some b) (hhash : b.h.hash = (readProof content).blockhash) :
    ((readProof content).headerRaw = b.h.serialize ∧ ((readProof content).height ≠ 0 →
      ((readProof content).txid ∈ b.txids ↔ (siblings content).length = Nat.clog 2 b.txs.length))) ∨
    Collision ((readProof content).headerRaw :: b.h.serialize :: inclusionHashed b content) := by
  rcases collisionFree_or_collision ((readProof content).headerRaw :: b.h.serialize :: inclusionHashed b content)
    with hfree | hcol
  swap
  · exact Or.inr hcol
  have hheader : (readProof content).headerRaw = b.h.serialize := by
    refine hfree _ List.mem_cons_self _ (List.mem_cons_of_mem _ List.mem_cons_self) ?_
    calc sha256d (readProof content).headerRaw
        = (readProof content).blockhash := h.hash
      _ = sha256d b.h.serialize := hhash.symm
  refine Or.inl ⟨hheader, fun hheight => ?_⟩
  have hpos : (readProof content).height.toNat ≠ 0 := fun hzero => hheight (UInt64.toNat_inj.mp hzero)
  obtain ⟨i, hi⟩ := Nat.exists_eq_succ_of_ne_zero hpos
  rw [hi] at hb
  have hnext := hnode.valid.sound.valid.nextBlock_succ hb
  refine hnext.txid_mem_iff h hheader (hfree.mono ?_)
  exact List.subset_cons_of_subset _ (List.subset_cons_self _ _)

/-- **A valid verdict is about the chains of the nodes.** Whatever happens to the nodes and wherever a connection breaks:
the text passes the checks, and every node that is counted as agreeing had, when it was asked, a block at the stated
height with the stated hash. Its header is the one in the text, and the transaction of the text is one of its transactions
exactly when the path is as long as the tree of the block is deep; or strings that have been hashed collide. -/
theorem verified_on_chain (hw : w.Running p)
    (hrun : Client.Runs HostStep (Exchange c) (verifyWith content all) w res w') (hpass : res.pass = true) :
    Passes content ∧ res.total = (items all).length ∧
    ∃ agreed : List Addr, agreed.Sublist ((items all).map readSpec) ∧ res.agree = agreed.length ∧
      ∀ addr ∈ agreed, ∃ w₁, Hosts.Leads c w w₁ ∧ Hosts.Leads c w₁ w' ∧
        ∃ b, (w₁ addr).1.chain.blocks[(readProof content).height.toNat]? = some b ∧
          b.h.hash = (readProof content).blockhash ∧
          (((readProof content).headerRaw = b.h.serialize ∧ ((readProof content).height ≠ 0 →
            ((readProof content).txid ∈ b.txids ↔ (siblings content).length = Nat.clog 2 b.txs.length))) ∨
          Collision ((readProof content).headerRaw :: b.h.serialize :: inclusionHashed b content)) := by
  have hpasses := passes_of_verified hw hrun hpass
  rw [verdict_of_passes hpasses] at hrun
  obtain ⟨-, htotal, agreed, hsub, hagree, hhad⟩ := crossCheck_sound hw hrun
  rw [Nat.zero_add] at hagree
  refine ⟨hpasses, by rw [htotal, Nat.zero_add, List.length_map], agreed, hsub, hagree, fun addr haddr => ?_⟩
  obtain ⟨w₁, hfront, hback, b, hb, hhash⟩ := hhad addr haddr
  exact ⟨w₁, hfront, hback, b, hb, hhash, hpasses.block (hfront.running hw addr) hb hhash⟩

/-- **When nothing breaks off and nothing happens in between**, the verdict is valid exactly when the checks pass and no
node that is asked has another block at the height; the nodes that have the block are counted. -/
theorem verdict_exact (hw : w.Running p) (hhosts : ∀ addr ∈ (items all).map readSpec, Inet addr.1)
    (hrun : Client.Runs (fun _ _ => False) (Intact c) (verifyWith content all) w res w') :
    (res.pass = true ↔ Passes content ∧ ∀ addr ∈ (items all).map readSpec, ∀ b,
      (w addr).1.chain.blocks[(readProof content).height.toNat]? = some b → b.h.hash = (readProof content).blockhash) ∧
    (Passes content → res.total = (items all).length ∧
      res.agree = ((items all).map readSpec).countP fun addr =>
        ((w addr).1.chain.blocks[(readProof content).height.toNat]?).any fun b =>
          b.h.hash == (readProof content).blockhash) := by
  by_cases hpasses : Passes content
  · rw [verdict_of_passes hpasses] at hrun
    obtain ⟨hpass, htotal, hagree⟩ := crossCheck_quiet hw hhosts hrun
    refine ⟨hpass.trans ?_, fun _ => ⟨?_, ?_⟩⟩
    · rw [and_iff_right hpasses, and_iff_right rfl]
    · rw [htotal, Nat.zero_add, List.length_map]
    · rw [hagree, Nat.zero_add]
  · refine ⟨iff_of_false (fun hpass => hpasses ?_) fun h => hpasses h.1, fun h => absurd h hpasses⟩
    exact passes_of_verified hw (runs_of_quiet hrun) hpass

end

end

/-! ### A block with two transactions -/

theorem items_two : (items "8501,8502").map readSpec = [("127.0.0.1", 8501), ("127.0.0.1", 8502)] := by decide

/-- A proof is shown to two nodes, of which one has the block and the other no block at its height. -/
theorem two_verified [Crypto] {p : Params} {w : Hosts} (c : Addr → RpcConfig) (hw : w.Running p) {content : List Char}
    (hpasses : Passes content) {height : UInt64} (hheight : (readProof content).height = height) {b : Block}
    (hhash : (readProof content).blockhash = b.h.hash)
    (hhas : (w ("127.0.0.1", 8501)).1.chain.blocks[height.toNat]? = some b)
    (hnot : (w ("127.0.0.1", 8502)).1.chain.blocks[height.toNat]? = none) :
    Client.Runs (fun _ _ => False) (Intact c) (verifyWith content "8501,8502") w
      { pass := true, agree := 1, total := 2 } w := by
  rw [verdict_of_passes hpasses, items_two, hheight, hhash]
  refine .ask (Intact.block_can c height hw inet_localhost) ?_
  rw [count_blockAt, hhas]
  refine .ask (Intact.block_can c height hw inet_localhost) ?_
  rw [count_blockAt, hnot]
  simp only [Option.all_some, Option.any_some, Option.all_none, Option.any_none, beq_self_eq_true]
  exact .done

section
local instance verifyCrypto : Crypto := ownCrypto

theorem pairBlock_at : (pairChain ownKey doubleSign).blocks[0 + 1]? = some (pairBlock ownKey doubleSign) := rfl

/-- A database with the block. -/
def pairDb : Db := ({} : Db).run ((pairChain ownKey doubleSign).blocks.flatMap dbInsert)

theorem pairDb_raws : pairDb.rawsByHeight = (pairChain ownKey doubleSign).blocks.map Block.serialize := rfl

theorem pairChain_timely : Chain.AllTimely Chain.easyClock (pairChain ownKey doubleSign).blocks := by
  rw [pairChain, Chain.grow_blocks]
  exact (Chain.coinbases_timely (zeros 20) 0).snoc fun _ => Chain.candidate_timely.mpr (by decide)

/-- One node has the block, the others have not heard of it. -/
theorem pair_hosts : ∃ w : Hosts, w.Running Chain.easyParams ∧
    (w ("127.0.0.1", 8501)).1.chain.blocks[(1 : UInt64).toNat]? = some (pairBlock ownKey doubleSign) ∧
    (w ("127.0.0.1", 8502)).1.chain.blocks[(1 : UInt64).toNat]? = none := by
  obtain ⟨hsound, hne⟩ := pairChain_own.sound
  obtain ⟨c, hinit, hblocks, -⟩ := Chain.init_all pairDb_raws hsound.valid hne (fun _ => pairChain_timely) hsound.valid.fits
  have hnode : NodeRun Chain.easyParams (App.start Chain.easyParams c (zeros 20) false 0) Chain.easyClock :=
    .start (zeros 20) false 0 (fun _ => Clock.le_refl _) hinit
  refine ⟨fun addr => if addr.2 = 8501 then (App.start Chain.easyParams c (zeros 20) false 0, Chain.easyClock)
    else (easyNode, Chain.easyClock), fun addr => ?_, ?_, ?_⟩
  · dsimp only
    split
    · exact hnode
    · exact easyNode_run
  · dsimp only
    rw [if_pos rfl]
    show c.blocks[1]? = some (pairBlock ownKey doubleSign)
    rw [hblocks]
    exact pairBlock_at
  · dsimp only
    rw [if_neg (by decide)]
    rfl

/-- The proof of its transfer. -/
def pairText : List Char := (proofOf (idleTransfer ownKey doubleSign).txid (pairBlock ownKey doubleSign) 1).toList

theorem passes_pairText : Passes pairText := by
  have hnext := pairChain_own.sound.1.valid.nextBlock_succ pairBlock_at
  exact passes_proofOf hnext.merkle hnext.pow (by decide) rfl

theorem readProof_pairText : (readProof pairText).height = 1 ∧
    (readProof pairText).blockhash = (pairBlock ownKey doubleSign).h.hash := by
  rw [pairText, proofOf, readProof_proofText _ _ _ _ (BlockHeader.length_serialize _)]
  exact ⟨rfl, rfl⟩

theorem pair_verified {w : Hosts} (hw : w.Running Chain.easyParams)
    (hhas : (w ("127.0.0.1", 8501)).1.chain.blocks[(1 : UInt64).toNat]? = some (pairBlock ownKey doubleSign))
    (hnot : (w ("127.0.0.1", 8502)).1.chain.blocks[(1 : UInt64).toNat]? = none) (c : Addr → RpcConfig) :
    Client.Runs (fun _ _ => False) (Intact c) (verifyWith pairText "8501,8502") w
      { pass := true, agree := 1, total := 2 } w :=
  two_verified c hw passes_pairText readProof_pairText.1 readProof_pairText.2 hhas hnot

/-- The node that is counted had the block, which has the transfer. -/
theorem verified_on_chain_pair : Passes pairText ∧ (readProof pairText).height = 1 ∧ ∃ w : Hosts,
    ∃ agreed : List Addr, agreed.Sublist ((items "8501,8502").map readSpec) ∧ 1 = agreed.length ∧
      ∀ addr ∈ agreed, ∃ w₁, Hosts.Leads (fun _ => {}) w w₁ ∧ Hosts.Leads (fun _ => {}) w₁ w ∧
        ∃ b, (w₁ addr).1.chain.blocks[(readProof pairText).height.toNat]? = some b ∧
          b.h.hash = (readProof pairText).blockhash ∧
          (((readProof pairText).headerRaw = b.h.serialize ∧ ((readProof pairText).height ≠ 0 →
            ((readProof pairText).txid ∈ b.txids ↔ (siblings pairText).length = Nat.clog 2 b.txs.length))) ∨
          Collision ((readProof pairText).headerRaw :: b.h.serialize :: inclusionHashed b pairText)) := by
  obtain ⟨w, hw, hhas, hnot⟩ := pair_hosts
  obtain ⟨hpasses, -, hagreed⟩ := verified_on_chain hw (runs_of_quiet (pair_verified hw hhas hnot fun _ => {})) rfl
  exact ⟨hpasses, readProof_pairText.1, w, hagreed⟩

/-- Of two nodes one agrees, and the other has no block at the height. -/
theorem verdict_exact_pair : Passes pairText ∧ ∃ w : Hosts, w.Running Chain.easyParams ∧
    (∀ addr ∈ (items "8501,8502").map readSpec, ∀ b,
      (w addr).1.chain.blocks[(readProof pairText).height.toNat]? = some b →
        b.h.hash = (readProof pairText).blockhash) ∧
    2 = (items "8501,8502").length ∧ 1 = ((items "8501,8502").map readSpec).countP fun addr =>
      ((w addr).1.chain.blocks[(readProof pairText).height.toNat]?).any fun b =>
        b.h.hash == (readProof pairText).blockhash := by
  obtain ⟨w, hw, hhas, hnot⟩ := pair_hosts
  have hhosts : ∀ addr ∈ (items "8501,8502").map readSpec, Inet addr.1 := by
    rw [items_two]
    exact List.forall_mem_cons.mpr ⟨inet_localhost, List.forall_mem_singleton.mpr inet_localhost⟩
  obtain ⟨hverdict, hcount⟩ := verdict_exact hw hhosts (pair_verified hw hhas hnot fun _ => {})
  obtain ⟨hpasses, hagree⟩ := hverdict.mp rfl
  exact ⟨hpasses, w, hw, hagree, hcount hpasses⟩

end

end Chainlite
