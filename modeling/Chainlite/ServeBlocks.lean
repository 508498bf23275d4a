import Chainlite.NetFraming
import Chainlite.NodeRun
import Chainlite.SecurityCommitment

/-! Serving blocks over the wire. The sender bounds a BLOCKS reply by its number of blocks, the receiver
bounds a frame by its number of bytes. The reply reads back as the blocks that were asked for, but only a
reply within the bound on bytes gets as far as being read. -/

open Std

namespace Chainlite

section
variable [Crypto] {p : Params}

/-! ### The payload reads back -/

/-- The most bytes that a block within the limits can have. -/
def maxBlockBytes : Nat := 104 + maxBlockTxs * (171 + maxPayload)

omit [Crypto] in
theorem Block.Fits.length_le {b : Block} (hb : b.Fits) : b.serialize.length ≤ maxBlockBytes := by
  have hsum : (b.txs.map fun t => 171 + t.payload.length).sum ≤ b.txs.length * (171 + maxPayload) := by
    have := List.sum_le_card_nsmul (b.txs.map fun t => 171 + t.payload.length) (171 + maxPayload) ?_
    · simpa using this
    · intro x hx
      obtain ⟨t, ht, rfl⟩ := List.mem_map.mp hx
      exact Nat.add_le_add_left (hb.payloads t ht) 171
  rw [b.length_serialize, maxBlockBytes]
  exact Nat.add_le_add_left (hsum.trans (Nat.mul_le_mul_right _ hb.count)) 104

omit [Crypto] in
theorem readBlock_reads {b : Block} (hb : b.Fits) :
    Wire.Reads App.readBlock (Writer.u32 (UInt32.ofNat b.serialize.length) ++ b.serialize) b := by
  have hlen : (UInt32.ofNat b.serialize.length).toNat = b.serialize.length :=
    UInt32.toNat_ofNat_of_lt' (Nat.lt_of_le_of_lt hb.length_le (by decide))
  refine (Reader.u32_reads _).bind ?_
  rw [hlen]
  refine (Reader.blob_reads _).bind_last ?_
  rw [Block.parse_serialize hb]
  exact Wire.Reads.pure b

omit [Crypto] in
/-- A BLOCKS payload reads back as its blocks. -/
theorem readBlocks_reads {bs : List Block} (hfits : ∀ b ∈ bs, b.Fits) (hlen : bs.length ≤ maxReplyBlocks) :
    Wire.Reads App.readBlocks (App.blocksPayload bs) (some bs) := by
  have hcount : (UInt32.ofNat bs.length).toNat = bs.length :=
    UInt32.toNat_ofNat_of_lt' (Nat.lt_of_le_of_lt hlen (by decide))
  refine (Reader.u32_reads _).bind ?_
  rw [hcount, if_neg (Nat.not_lt.mpr hlen)]
  exact (Wire.many_reads bs fun b hb => readBlock_reads (hfits b hb)).map some

omit [Crypto] in
theorem length_blocksPayload (bs : List Block) :
    (App.blocksPayload bs).length = 4 + (bs.map fun b => 4 + b.serialize.length).sum := by
  simp [App.blocksPayload, List.length_flatMap]

omit [Crypto] in
theorem readGetBlocks_reads (start : UInt64) (cnt : UInt32) :
    Wire.Reads App.readGetBlocks (Writer.u64 start ++ Writer.u32 cnt) (start, cnt) :=
  (Reader.u64_reads _).bind ((Reader.u32_reads _).map _)

omit [Crypto] in
/-- What a request is answered with. -/
theorem onGetBlocks_eq (a : App) (peer : Int) (start : UInt64) (cnt : UInt32) :
    a.onGetBlocks peer (Writer.u64 start ++ Writer.u32 cnt) =
      (a, [.sendTo peer mBlocks (App.blocksPayload (App.servedBlocks a.chain start cnt))]) := by
  have hread := readGetBlocks_reads start cnt []
  rw [List.append_nil] at hread
  rw [App.onGetBlocks, hread]

theorem Chain.ValidBlocks.fits_served {c : Chain} (h : Chain.ValidBlocks p c.blocks) (start : UInt64) (cnt : UInt32) :
    ∀ b ∈ App.servedBlocks c start cnt, b.Fits := by
  intro b hb
  exact h.fits b (List.mem_of_mem_drop (List.mem_of_mem_take hb))

omit [Crypto] in
theorem length_servedBlocks_le (c : Chain) (start : UInt64) (cnt : UInt32) :
    (App.servedBlocks c start cnt).length ≤ batchSize := by
  rw [App.servedBlocks, List.length_take]
  omega

/-! ### The frame -/

omit [Crypto] in
/-- What `parse_frames` makes of a frame with a message for the node: too big a one costs the link. -/
theorem parseFrames_frameInto (net : P2P) (id : Int) {q : Peer} {type : UInt8} {payload : Bytes}
    (hlive : q.dead = false) (hlen : payload.length < 2 ^ 32) (hhello : type ≠ mHello) (htip : type ≠ mTip) :
    parseFrames net id { q with inbuf := frameInto [] type payload } =
      if maxFrame < payload.length then ({ q with inbuf := frameInto [] type payload, dead := true }, [])
      else ({ q with inbuf := [] }, [.msg id type payload]) := by
  have hframe := nextFrame_frameInto type hlen
  by_cases hbig : maxFrame < payload.length
  · rw [if_pos hbig] at hframe ⊢
    exact parseFrames_tooBig net id hframe
  · rw [if_neg hbig] at hframe ⊢
    have halive : ¬q.dead = true := by rw [hlive]; decide
    rw [parseFrames_whole net id hframe, onFrame, if_neg hhello, if_neg htip]
    refine (if_neg halive).trans ?_
    rw [parseFrames_incomplete net id rfl]
    rfl

/-! ### A request and its reply -/

/-- The reply of the node `a` to a request for `cnt` blocks from `start` on reaches the node that asked, over
the link `q`: it is not too big, the link stays up, and the blocks asked for are read from it. -/
def ServedOver (a : App) (peer : Int) (start : UInt64) (cnt : UInt32) (net : P2P) (id : Int) (q : Peer) : Prop :=
  ∃ reply, (a.onGetBlocks peer (Writer.u64 start ++ Writer.u32 cnt)).2 = [.sendTo peer mBlocks reply] ∧
    (parseFrames net id { q with inbuf := frameInto q.inbuf mBlocks reply }).1.dead = false ∧
    (parseFrames net id { q with inbuf := frameInto q.inbuf mBlocks reply }).2 = [.msg id mBlocks reply] ∧
    App.readBlocks reply = .ok (some ((a.chain.blocks.drop start.toNat).take (min cnt.toNat 200)), [])

/-- The bytes of the reply: the count, and each block with its length. -/
def replyBytes (bs : List Block) : Nat := 4 + (bs.map fun b => 4 + b.serialize.length).sum

omit [Crypto] in
theorem replyBytes_le {bs : List Block} (hfits : ∀ b ∈ bs, b.Fits) :
    replyBytes bs ≤ 4 + bs.length * (4 + maxBlockBytes) := by
  have := List.sum_le_card_nsmul (bs.map fun b => 4 + b.serialize.length) (4 + maxBlockBytes) ?_
  · rw [replyBytes]
    simpa using this
  · intro x hx
    obtain ⟨b, hb, rfl⟩ := List.mem_map.mp hx
    exact Nat.add_le_add_left (hfits b hb).length_le 4

theorem servedOver_iff {a : App} (hsound : Chain.Sound p a.chain) (peer : Int) (start : UInt64) (cnt : UInt32)
    (net : P2P) (id : Int) {q : Peer} (hlive : q.dead = false) (hempty : q.inbuf = []) :
    ServedOver a peer start cnt net id q ↔
      replyBytes ((a.chain.blocks.drop start.toNat).take (min cnt.toNat 200)) ≤ maxFrame := by
  set window := (a.chain.blocks.drop start.toNat).take (min cnt.toNat 200)
  have hfits : ∀ b ∈ window, b.Fits := hsound.valid.fits_served start cnt
  have hcount : window.length ≤ batchSize := length_servedBlocks_le a.chain start cnt
  have hbytes : (App.blocksPayload window).length = replyBytes window := length_blocksPayload window
  have hlen : (App.blocksPayload window).length < 2 ^ 32 := by
    rw [hbytes]
    refine Nat.lt_of_le_of_lt ((replyBytes_le hfits).trans ?_) (show 4 + batchSize * (4 + maxBlockBytes) < 2 ^ 32 by decide)
    exact Nat.add_le_add_left (Nat.mul_le_mul_right _ hcount) 4
  have hparse := parseFrames_frameInto net id hlive hlen (show mBlocks ≠ mHello by decide) (show mBlocks ≠ mTip by decide)
  have hserved : App.servedBlocks a.chain start cnt = window := rfl
  rw [ServedOver, onGetBlocks_eq, hempty, hserved, ← hbytes]
  constructor
  · rintro ⟨reply, hreply, hdead, -, -⟩
    obtain rfl : App.blocksPayload window = reply := by simpa using hreply
    by_contra hbig
    rw [hparse, if_pos (Nat.not_le.mp hbig)] at hdead
    cases hdead
  · intro hfit
    have hread := readBlocks_reads hfits (hcount.trans (by decide)) []
    rw [List.append_nil] at hread
    refine ⟨_, rfl, ?_, ?_, hread⟩
    · rw [hparse, if_neg (Nat.not_lt.mpr hfit)]
      exact hlive
    · rw [hparse, if_neg (Nat.not_lt.mpr hfit)]

/-- **When a reply gets through**: for every reachable chain and every request, exactly when the window of
blocks asked for, with its lengths and its count, is at most a frame. -/
theorem blocks_served_iff {a : App} (h : Chain.Reachable p a.chain) (peer : Int) (start : UInt64) (cnt : UInt32)
    (net : P2P) (id : Int) {q : Peer} (hlive : q.dead = false) (hempty : q.inbuf = []) :
    ServedOver a peer start cnt net id q ↔
      replyBytes ((a.chain.blocks.drop start.toNat).take (min cnt.toNat 200)) ≤ maxFrame :=
  servedOver_iff h.sound.1 peer start cnt net id hlive hempty

/-! ### Blocks full of records

Whoever holds a key that can sign may fill blocks with the largest records there are. -/

/-- A record of the largest size, signed. -/
def bigRecord (key : Pub64) (sign : H256 → Sig64) (nonce : UInt64) : Tx :=
  let t : Tx := { type := txRecord, netId := Chain.easyParams.netId, fromKey := key, nonce := nonce,
                  payload := List.replicate maxPayload 0 }
  { t with sig := sign t.signHash }

def bigRecords (key : Pub64) (sign : H256 → Sig64) : Nat → Nat → List Tx
  | _, 0 => []
  | k, n + 1 => bigRecord key sign (UInt64.ofNat k) :: bigRecords key sign (k + 1) n

/-- The genesis block and `n` blocks with a coinbase and as many records as there can be. -/
def recordChain (key : Pub64) (sign : H256 → Sig64) : Nat → Chain
  | 0 => Chain.coinbases (zeros 20) 0
  | n + 1 =>
      let c := recordChain key sign n
      c.grow (c.candidate Chain.easyParams (zeros 20) (bigRecords key sign (4999 * n) 4999)
        Chain.easyParams.genesisTime 0)

variable {key : Pub64} {sign : H256 → Sig64}

theorem bigRecord_valid (hkey : isZero key = false) (hsign : ∀ hash, sigVerify key hash (sign hash) = true)
    {st : State} (height : UInt64) {nonce : UInt64} (hnonce : (st.acct (addrOf key)).nonce = nonce) :
    TxValid st Chain.easyParams height false (bigRecord key sign nonce) := by
  refine TxValid.record ⟨rfl, hkey, hsign _⟩ rfl hnonce.symm rfl ?_ ?_
  · exact List.ne_nil_of_length_pos (by simp only [bigRecord, List.length_replicate]; decide)
  · simp only [bigRecord, List.length_replicate, Nat.le_refl]

theorem bigRecords_settle (hkey : isZero key = false) (hsign : ∀ hash, sigVerify key hash (sign hash) = true)
    {st : State} (height : UInt64) {k : Nat} (n : Nat) (hnonce : (st.acct (addrOf key)).nonce = UInt64.ofNat k) :
    Settles Chain.easyParams height st (bigRecords key sign k n) ∧
      ((st.effects (bigRecords key sign k n)).acct (addrOf key)).nonce = UInt64.ofNat (k + n) := by
  induction n generalizing st k with
  | zero => exact ⟨trivial, hnonce⟩
  | succ n ih =>
      have hvalid := bigRecord_valid hkey hsign height hnonce
      have hnext : ((st.effect (bigRecord key sign (UInt64.ofNat k))).acct (addrOf key)).nonce =
          UInt64.ofNat (k + 1) := by
        have hsender : addrOf key = (bigRecord key sign (UInt64.ofNat k)).sender := rfl
        rw [(hvalid.nonce_effect hvalid.ne_coinbase).2, if_pos hsender, hnonce, UInt64.ofNat_add]
        rfl
      obtain ⟨hsettles, hlast⟩ := ih hnext
      refine ⟨⟨hvalid, hsettles⟩, ?_⟩
      rw [show k + (n + 1) = k + 1 + n by omega]
      exact hlast

theorem length_bigRecords (k n : Nat) : (bigRecords key sign k n).length = n := by
  induction n generalizing k with
  | zero => rfl
  | succ n ih => rw [bigRecords, List.length_cons, ih]

/-- Records are accepted, block after block. -/
theorem recordChain_reachable (hkey : isZero key = false) (hsign : ∀ hash, sigVerify key hash (sign hash) = true)
    (n : Nat) : Chain.Reachable Chain.easyParams (recordChain key sign n) ∧
      ((recordChain key sign n).st.acct (addrOf key)).nonce = UInt64.ofNat (4999 * n) := by
  induction n with
  | zero =>
      refine ⟨Chain.coinbases_reachable (zeros 20) 0, ?_⟩
      show (((Chain.fresh Chain.easyParams).grow (makeGenesis Chain.easyParams)).st.acct (addrOf key)).nonce = 0
      rw [Chain.grow_st]
      exact congrArg Account.nonce (State.acct_empty _)
  | succ n ih =>
      obtain ⟨hreachable, hnonce⟩ := ih
      obtain ⟨hsound, hne⟩ := hreachable.sound
      have hcredit : (((recordChain key sign n).st.credit (zeros 20) Chain.easyParams.reward).acct
          (addrOf key)).nonce = UInt64.ofNat (4999 * n) := by rw [State.nonce_credit, hnonce]
      have hsettles := fun height => bigRecords_settle hkey hsign height 4999 hcredit
      have hlength : (bigRecords key sign (4999 * n) 4999).length < maxBlockTxs := by
        rw [length_bigRecords]
        decide
      constructor
      · exact hreachable.connect (Chain.connect_candidate hsound hne hlength (hsettles _).1)
      · rw [recordChain, Chain.grow_st, Chain.candidate]
        dsimp only
        rw [State.effects_cons, Chain.effect_coinbaseTx, (hsettles 0).2, Nat.mul_succ]

theorem bytes_bigRecords (k n : Nat) :
    ((bigRecords key sign k n).map fun t => 171 + t.payload.length).sum = n * 1195 := by
  induction n generalizing k with
  | zero => rfl
  | succ n ih =>
      have hrecord : (bigRecord key sign (UInt64.ofNat k)).payload.length = 1024 := List.length_replicate
      rw [bigRecords, List.map_cons, List.sum_cons, ih, hrecord]
      omega

/-- Every block of records takes almost six million bytes. -/
theorem bytes_recordChain (n : Nat) :
    ((recordChain key sign n).blocks.map fun b => 4 + b.serialize.length).sum = 108 + n * 5974084 := by
  induction n with
  | zero =>
      have hblocks : (recordChain key sign 0).blocks = [makeGenesis Chain.easyParams] := Chain.grow_blocks _ _
      rw [hblocks, List.map_singleton, List.sum_singleton, Block.length_serialize]
      rfl
  | succ n ih =>
      rw [recordChain, Chain.grow_blocks, List.map_append, List.sum_append, ih, List.map_singleton,
        List.sum_singleton, Block.length_serialize, Chain.candidate]
      dsimp only
      rw [List.map_cons, List.sum_cons, bytes_bigRecords]
      simp only [coinbaseTx, List.length_nil]
      omega

theorem length_recordChain (n : Nat) : (recordChain key sign n).blocks.length = n + 1 := by
  induction n with
  | zero => rfl
  | succ n ih => rw [recordChain, Chain.grow_blocks, List.length_append, ih, List.length_singleton]

/-- Two blocks of records are too much for one frame. -/
theorem recordChain_not_served (hkey : isZero key = false)
    (hsign : ∀ hash, sigVerify key hash (sign hash) = true) (peer : Int) (net : P2P) (id : Int) :
    ¬ServedOver { params := Chain.easyParams, chain := recordChain key sign 2 } peer 0 200 net id {} := by
  rw [servedOver_iff (recordChain_reachable hkey hsign 2).1.sound.1 peer 0 200 net id rfl rfl]
  have hall : (recordChain key sign 2).blocks.length ≤ min (200 : UInt32).toNat 200 := by
    rw [length_recordChain]
    decide
  show ¬replyBytes (((recordChain key sign 2).blocks.drop 0).take _) ≤ maxFrame
  rw [List.drop_zero, List.take_of_length_le hall, replyBytes, bytes_recordChain]
  decide

end

section
local instance recordCrypto : Crypto := Sha.crypto fun _ hash sig => sig == doubleSign hash

/-- A request for all blocks of a chain with two blocks of records, over a fresh link. -/
theorem blocks_served_not_records :
    Chain.Reachable Chain.easyParams (recordChain ownKey doubleSign 2) ∧
      ¬ServedOver { params := Chain.easyParams, chain := recordChain ownKey doubleSign 2 } 1 0 200 {} 1 {} := by
  have hkey : isZero ownKey = false := by decide
  have hsign : ∀ hash, sigVerify ownKey hash (doubleSign hash) = true := fun hash => beq_self_eq_true _
  exact ⟨(recordChain_reachable hkey hsign 2).1, recordChain_not_served hkey hsign 1 {} 1⟩

/-- The genesis block alone is served. -/
theorem blocks_served_genesis :
    ServedOver { params := Chain.easyParams, chain := Chain.coinbases (zeros 20) 0 } 1 0 200 {} 1 {} :=
  (blocks_served_iff (Chain.coinbases_reachable (zeros 20) 0) 1 0 200 {} 1 rfl rfl).mpr (by decide)

end

end Chainlite
