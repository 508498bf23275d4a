import Chainlite.MiningCollect
import Chainlite.NetPipe
import Chainlite.NodePool
import Chainlite.ServeBlocks
import Chainlite.StorageRecovery

/-! Where what a node holds comes from. Given which transactions and which blocks have a known origin, everything
that a node keeps (its pool, its chain and the rows of its database, the candidate of a session, the bodies handed out
to miners) is made of these, and so is every message it sends. One event keeps this, when the message it brings was
made of these too and what the event adds is given an origin. -/

open Std

namespace Chainlite

/-- The transactions and the blocks with a known origin. -/
structure Origin where
  tx : Tx → Prop
  block : Block → Prop
  fits : ∀ b, block b → b.Fits
  body : ∀ b, block b → ∀ t ∈ b.txs, t.type ≠ txCoinbase → tx t

namespace Origin

/-- More is known. -/
structure Le (o o' : Origin) : Prop where
  tx : ∀ t, o.tx t → o'.tx t
  block : ∀ b, o.block b → o'.block b

theorem Le.refl (o : Origin) : o.Le o := ⟨fun _ h => h, fun _ h => h⟩

/-- A body for a miner: apart from the coinbase its transactions are known. -/
def Body (o : Origin) (txs : List Tx) : Prop := ∀ t ∈ txs, t.type ≠ txCoinbase → o.tx t

/-- The blobs of the table are known blocks. -/
def Disk (o : Origin) (db : Db) : Prop := ∀ raw ∈ db.rawsByHeight, ∃ b, o.block b ∧ raw = b.serialize

structure Chain (o : Origin) (c : Chainlite.Chain) : Prop where
  blocks : ∀ b ∈ c.blocks, o.block b
  disk : ∀ db, c.db = some db → o.Disk db

structure Node (o : Origin) (a : App) : Prop where
  chain : o.Chain a.chain
  pool : ∀ (k : PoolKey) (t : Tx), a.pool.m[k]? = some t → o.tx t
  cand : ∀ b ∈ a.cand, o.block b
  cache : ∀ (root : H256) (txs : List Tx), a.workCache[root]? = some txs → o.Body txs
  job : ∀ seq b, a.job = some (seq, b) → o.Body b.txs

/-- A message with a transaction or with blocks has known ones. -/
structure Message (o : Origin) (m : UInt8 × Bytes) : Prop where
  tx : m.1 = mTx → ∃ t, t.Fits ∧ o.tx t ∧ m.2 = t.serialize
  block : m.1 = mBlock → ∃ b, o.block b ∧ m.2 = b.serialize
  blocks : m.1 = mBlocks → ∃ bs, bs.length ≤ maxReplyBlocks ∧ (∀ b ∈ bs, o.block b) ∧ m.2 = App.blocksPayload bs

/-- What a handler returns: the node and the messages it sends. -/
structure Result (o : Origin) (out : App × List NetCall) : Prop where
  node : o.Node out.1
  calls : ∀ call ∈ out.2, o.Message call.message

variable {o o' : Origin}

/-! ### More origins -/

theorem Body.mono {txs : List Tx} (h : o.Body txs) (hle : o.Le o') : o'.Body txs :=
  fun t ht htype => hle.tx t (h t ht htype)

theorem Disk.mono {db : Db} (h : o.Disk db) (hle : o.Le o') : o'.Disk db := by
  intro raw hraw
  obtain ⟨b, hb, heq⟩ := h raw hraw
  exact ⟨b, hle.block b hb, heq⟩

theorem Chain.mono {c : Chainlite.Chain} (h : o.Chain c) (hle : o.Le o') : o'.Chain c :=
  ⟨fun b hb => hle.block b (h.blocks b hb), fun db hdb => (h.disk db hdb).mono hle⟩

theorem Node.mono {a : App} (h : o.Node a) (hle : o.Le o') : o'.Node a :=
  ⟨h.chain.mono hle, fun k t ht => hle.tx t (h.pool k t ht), fun b hb => hle.block b (h.cand b hb),
    fun root txs htxs => (h.cache root txs htxs).mono hle, fun seq b hjob => (h.job seq b hjob).mono hle⟩

theorem Message.mono {m : UInt8 × Bytes} (h : o.Message m) (hle : o.Le o') : o'.Message m where
  tx htype := by
    obtain ⟨t, hfits, ht, heq⟩ := h.tx htype
    exact ⟨t, hfits, hle.tx t ht, heq⟩
  block htype := by
    obtain ⟨b, hb, heq⟩ := h.block htype
    exact ⟨b, hle.block b hb, heq⟩
  blocks htype := by
    obtain ⟨bs, hlen, hbs, heq⟩ := h.blocks htype
    exact ⟨bs, hlen, fun b hb => hle.block b (hbs b hb), heq⟩

/-! ### The database -/

/-- A row that is inserted is one of a known block. -/
def Stmt (o : Origin) : Sql → Prop
  | .insertBlock _ row => ∃ b, o.block b ∧ row.raw = b.serialize
  | _ => True

theorem mem_rawsByHeight {db : Db} {raw : Bytes} :
    raw ∈ db.rawsByHeight ↔ ∃ (key : Int64) (row : BlockRow), db.blocks[key]? = some row ∧ row.raw = raw := by
  rw [Db.rawsByHeight, List.mem_map]
  constructor
  · rintro ⟨⟨key, row⟩, hrow, heq⟩
    exact ⟨key, row, ExtTreeMap.mem_toList_iff_getElem?_eq_some.mp hrow, heq⟩
  · rintro ⟨key, row, hrow, heq⟩
    exact ⟨(key, row), ExtTreeMap.mem_toList_iff_getElem?_eq_some.mpr hrow, heq⟩

theorem Disk.exec {db : Db} (h : o.Disk db) {stmt : Sql} (hstmt : o.Stmt stmt) : o.Disk (db.exec stmt) := by
  cases stmt with
  | beginImmediate => exact h
  | commit => exact h
  | insertTx row => exact h
  | deleteTxsFrom height => exact h
  | insertBlock height row =>
      intro raw hraw
      obtain ⟨key, row', hrow, rfl⟩ := mem_rawsByHeight.mp hraw
      rw [Db.exec, OrderedMap.getElem?_insert_eq] at hrow
      split at hrow
      · cases hrow
        exact hstmt
      · exact h _ (mem_rawsByHeight.mpr ⟨key, row', hrow, rfl⟩)
  | deleteBlocksFrom height =>
      intro raw hraw
      obtain ⟨key, row, hrow, rfl⟩ := mem_rawsByHeight.mp hraw
      rw [Db.exec, ExtTreeMap.getElem?_filter, Option.pfilter_eq_some_iff] at hrow
      obtain ⟨hold, -⟩ := hrow
      exact h _ (mem_rawsByHeight.mpr ⟨key, row, hold, rfl⟩)

theorem Disk.run {db : Db} (h : o.Disk db) {stmts : List Sql} (hstmts : ∀ stmt ∈ stmts, o.Stmt stmt) :
    o.Disk (db.run stmts) := by
  induction stmts generalizing db with
  | nil => exact h
  | cons stmt rest ih =>
      exact ih (h.exec (hstmts stmt List.mem_cons_self)) fun s hs => hstmts s (List.mem_cons_of_mem _ hs)

theorem stmt_dbTruncateFrom (h : UInt64) : ∀ stmt ∈ dbTruncateFrom h, o.Stmt stmt := by
  intro stmt hstmt
  rcases List.mem_cons.mp hstmt with rfl | hstmt
  · exact trivial
  · rw [List.mem_singleton.mp hstmt]
    exact trivial

variable [Crypto]

theorem stmt_dbInsert {b : Block} (hb : o.block b) : ∀ stmt ∈ dbInsert b, o.Stmt stmt := by
  intro stmt hstmt
  rcases List.mem_cons.mp hstmt with rfl | hstmt
  · exact ⟨b, hb, rfl⟩
  · obtain ⟨entry, -, rfl⟩ := List.mem_map.mp hstmt
    exact trivial

omit [Crypto] in
/-- Executing statements or not, when the rows they insert are known. -/
theorem disk_persist {c : Chainlite.Chain} (h : ∀ db, c.db = some db → o.Disk db) {stmts : List Sql}
    (hstmts : ∀ stmt ∈ stmts, o.Stmt stmt) : ∀ db, (c.persist stmts).db = some db → o.Disk db := by
  intro db hdb
  unfold Chainlite.Chain.persist at hdb
  split at hdb
  · obtain ⟨db', hdb', rfl⟩ := Option.map_eq_some_iff.mp hdb
    exact (h db' hdb').run hstmts
  · exact h db hdb

/-! ### The chain -/

theorem Chain.connectBlock {c c' : Chainlite.Chain} (h : o.Chain c) {now : Clock} {b : Block} (hb : o.block b)
    (hc : c.connectBlock now b = .ok c') : o.Chain c' := by
  obtain ⟨-, -, rfl⟩ := Chain.connectBlock_ok_iff.mp hc
  refine ⟨?_, ?_⟩
  · rw [Chain.grow_blocks]
    intro b' hb'
    rcases List.mem_append.mp hb' with hb' | hb'
    · exact h.blocks b' hb'
    · rw [List.mem_singleton.mp hb']
      exact hb
  · exact disk_persist (c := { c with
      st := c.st.effects b.txs, txidx := Chain.indexTxs c.txidx b, blocks := c.blocks ++ [b],
      hashes := c.hashes ++ [b.h.hash], work := _ }) h.disk (stmt_dbInsert hb)

theorem Chain.connectAll {c c' : Chainlite.Chain} (h : o.Chain c) {now : Nat → Clock} {k n : Nat} {bs : List Block}
    {err : Option (Block × ConnectError)} (hbs : ∀ b ∈ bs, o.block b)
    (hc : Chainlite.Chain.connectAll now k c bs = (c', n, err)) : o.Chain c' := by
  induction bs generalizing c k with
  | nil =>
      cases hc
      exact h
  | cons b rest ih =>
      rw [Chainlite.Chain.connectAll] at hc
      cases hb : c.connectBlock (now k) b with
      | error e =>
          rw [hb] at hc
          cases hc
          exact h
      | ok c₁ =>
          rw [hb] at hc
          exact ih (h.connectBlock (hbs b List.mem_cons_self) hb) (fun b' hb' => hbs b' (List.mem_cons_of_mem _ hb')) hc

theorem Chain.tryReplace {p : Params} {c c' : Chainlite.Chain} (h : o.Chain c) (hparams : c.params = p)
    {now : Nat → Clock} {cand : List Block} {fork : Nat} (hcand : ∀ b ∈ cand, o.block b)
    (hr : c.tryReplace now cand = .ok (c', fork)) : o.Chain c' := by
  obtain ⟨-, hblocks, -, -⟩ := Chain.Sound.tryReplace hparams hr
  refine ⟨hblocks ▸ hcand, ?_⟩
  unfold Chainlite.Chain.tryReplace at hr
  obtain ⟨-, hr⟩ := guard_ok_iff.mp hr
  rcases htmp : Chainlite.Chain.connectAll now 0 { params := c.params, persisting := false } cand with
    ⟨tmp, n, _ | ⟨b, err⟩⟩
  · simp only [htmp] at hr
    obtain ⟨-, hr⟩ := guard_ok_iff.mp hr
    injection hr with hr
    obtain ⟨rfl, rfl⟩ := Prod.mk.inj hr
    rw [Chain.persist_blocks] at hblocks
    refine disk_persist (c := { c with
      blocks := tmp.blocks, hashes := tmp.hashes, st := tmp.st, txidx := tmp.txidx, work := tmp.work })
      h.disk fun stmt hstmt => ?_
    rw [List.append_assoc, List.append_assoc, List.mem_append, List.mem_append, List.mem_append] at hstmt
    rcases hstmt with hbegin | hcut | hrows | hcommit
    · rw [List.mem_singleton.mp hbegin]
      exact trivial
    · exact stmt_dbTruncateFrom _ stmt hcut
    · obtain ⟨b, hb, hstmt⟩ := List.mem_flatMap.mp hrows
      exact stmt_dbInsert (hcand b (hblocks ▸ List.mem_of_mem_drop hb)) stmt hstmt
    · rw [List.mem_singleton.mp hcommit]
      exact trivial
  · simp [htmp] at hr

omit [Crypto] in
theorem fits_of_parses {raws : List Bytes} {bs : List Block} (h : Chain.Parses raws bs) : ∀ b ∈ bs, b.Fits := by
  induction raws generalizing bs with
  | nil =>
      rw [Chain.parses_nil_iff.mp h]
      nofun
  | cons raw raws ih =>
      obtain ⟨b, rest, hparse, hrest, rfl⟩ := Chain.parses_cons_iff.mp h
      intro b' hb'
      rcases List.mem_cons.mp hb' with rfl | hb'
      · exact (Block.parse_eq_some_iff.mp hparse).1
      · exact ih hrest b' hb'

/-- A chain loaded from a database of known blocks. -/
theorem Chain.init {p : Params} {c : Chainlite.Chain} {now : Nat → Clock} {db : Db} (hgenesis : o.block (makeGenesis p))
    (h : o.Disk db) (hinit : (Chain.fresh p).init now (some db) = .ok c) : o.Chain c := by
  obtain ⟨c', good, bs, hinit', hgood, hblocks, -, hdb⟩ := Chain.init_spec p now db
  rw [hinit'] at hinit
  injection hinit with hinit
  subst hinit
  have hbs : ∀ b ∈ bs, o.block b := by
    intro b hb
    have hraw : b.serialize ∈ good := by
      rw [hgood.parses.eq]
      exact List.mem_map_of_mem hb
    obtain ⟨b', hb', heq⟩ := h _ (hgood.first.subset hraw)
    have hfits := fits_of_parses hgood.parses b hb
    have hsame : some b = some b' := by
      rw [← Block.parse_serialize hfits, heq, Block.parse_serialize (o.fits b' hb')]
    exact Option.some.inj hsame ▸ hb'
  refine ⟨?_, ?_⟩
  · rw [hblocks]
    split
    · intro b hb
      rw [List.mem_singleton.mp hb]
      exact hgenesis
    · exact hbs
  · intro db' hdb'
    rw [hdb] at hdb'
    obtain rfl := Option.some.inj hdb'
    refine h.run fun stmt hstmt => ?_
    rw [Chain.initSql, List.mem_append] at hstmt
    rcases hstmt with hcut | hinsert
    · split at hcut
      · rw [List.append_assoc, List.mem_append, List.mem_append] at hcut
        rcases hcut with hbegin | hcut | hcommit
        · rw [List.mem_singleton.mp hbegin]
          exact trivial
        · exact stmt_dbTruncateFrom _ stmt hcut
        · rw [List.mem_singleton.mp hcommit]
          exact trivial
      · cases hcut
    · split at hinsert
      · exact stmt_dbInsert hgenesis stmt hinsert
      · cases hinsert

/-! ### What handlers leave -/

section
omit [Crypto]

/-- A message without a transaction or a block. -/
theorem Message.plain {type : UInt8} (htx : type ≠ mTx) (hblock : type ≠ mBlock) (hblocks : type ≠ mBlocks)
    (payload : Bytes) : o.Message (type, payload) :=
  ⟨fun h => absurd h htx, fun h => absurd h hblock, fun h => absurd h hblocks⟩

theorem Message.tip (payload : Bytes) : o.Message (mTip, payload) := .plain (by decide) (by decide) (by decide) payload

theorem Message.ofTx {t : Tx} (hfits : t.Fits) (h : o.tx t) : o.Message (mTx, t.serialize) :=
  ⟨fun _ => ⟨t, hfits, h, rfl⟩, fun hne => absurd hne (show mTx ≠ mBlock by decide),
    fun hne => absurd hne (show mTx ≠ mBlocks by decide)⟩

theorem Message.ofBlock {b : Block} (h : o.block b) : o.Message (mBlock, b.serialize) :=
  ⟨fun hne => absurd hne (show mBlock ≠ mTx by decide), fun _ => ⟨b, h, rfl⟩,
    fun hne => absurd hne (show mBlock ≠ mBlocks by decide)⟩

theorem Message.ofBlocks {bs : List Block} (hlen : bs.length ≤ maxReplyBlocks) (h : ∀ b ∈ bs, o.block b) :
    o.Message (mBlocks, App.blocksPayload bs) :=
  ⟨fun hne => absurd hne (show mBlocks ≠ mTx by decide), fun hne => absurd hne (show mBlocks ≠ mBlock by decide),
    fun _ => ⟨bs, hlen, h, rfl⟩⟩

theorem Result.quiet {a : App} (h : o.Node a) : o.Result (a, []) := ⟨h, nofun⟩

theorem Result.one {a : App} {call : NetCall} (h : o.Node a) (hcall : o.Message call.message) : o.Result (a, [call]) :=
  ⟨h, fun _ hmem => List.mem_singleton.mp hmem ▸ hcall⟩

theorem Node.resetSync {a : App} (h : o.Node a) : o.Node a.resetSync :=
  ⟨h.chain, h.pool, fun b hb => (by cases hb), h.cache, h.job⟩

theorem Result.requestBlocks {a : App} (h : o.Node a) (ms : UInt64) (peer : Int) (start : UInt64) :
    o.Result (App.requestBlocks ms a peer start) :=
  .one ⟨h.chain, h.pool, h.cand, h.cache, h.job⟩
    (.plain (show mGetBlocks ≠ mTx by decide) (show mGetBlocks ≠ mBlock by decide)
      (show mGetBlocks ≠ mBlocks by decide) _)

theorem Result.maybeSync {a : App} (h : o.Node a) (ms : UInt64) (peer : Int) : o.Result (a.maybeSync ms peer) := by
  rcases App.maybeSync_cases ms a peer with hsame | ⟨-, -, hstarted⟩
  · rw [hsame]
    exact .quiet h
  · rw [hstarted]
    refine Result.requestBlocks (a := { a with
      syncPeer := peer, syncMode := .extend, syncExtendGot := 0, cand := [] }) ?_ _ _ _
    exact ⟨h.chain, h.pool, fun b hb => (by cases hb), h.cache, h.job⟩

end

/-- Purging only drops entries. -/
theorem of_mem_purge {pool : Mempool} {st : State} {k : PoolKey} {t : Tx} (h : (pool.purge st).m[k]? = some t) :
    pool.m[k]? = some t := by
  change (pool.m.toList.foldl (Mempool.purgeEntry st) pool).m[k]? = some t at h
  generalize pool.m.toList = entries at h
  induction entries generalizing pool with
  | nil => exact h
  | cons entry rest ih =>
      have hrest := ih h
      rw [Mempool.purgeEntry] at hrest
      split at hrest
      · exact ((OrderedMap.getElem?_erase_eq_some pool.m entry.1 k t).mp hrest).2
      · exact hrest

/-- A changed chain, with what `post_chain_change` does. -/
theorem Node.changed {a : App} (h : o.Node a) {c : Chainlite.Chain} (hc : o.Chain c) :
    o.Node (App.postChainChange { a with chain := c }) where
  chain := hc
  pool k t ht := h.pool k t (of_mem_purge ht)
  cand := h.cand
  cache root txs htxs := by simp [App.postChainChange] at htxs
  job := h.job

/-- What is collected for a block is pending. -/
theorem pending_of_mem_collect {p : Params} {height : UInt64} {pool : Mempool} {base : State} {t : Tx}
    (h : t ∈ pool.collect base p height) : ∃ k : PoolKey, pool.m[k]? = some t := by
  have hmem : ∀ (fuel : Nat) (tmp : State) (out : List Tx), t ∈ Mempool.collectFrom p height maxCollected pool.m.toList fuel tmp out →
      t ∈ out ∨ ∃ k, (k, t) ∈ pool.m.toList := by
    intro fuel
    induction fuel with
    | zero => exact fun _ _ hout => Or.inl hout
    | succ fuel ih =>
        intro tmp out hout
        rw [Mempool.collectFrom] at hout
        split at hout
        · rcases hpass : Mempool.collectPass p height maxCollected pool.m.toList tmp out false with ⟨tmp₁, out₁, _ | _⟩
          · rw [hpass] at hout
            exact Mempool.collectPass_mem hpass hout
          · rw [hpass] at hout
            rcases ih tmp₁ out₁ hout with hout₁ | hentry
            · exact Mempool.collectPass_mem hpass hout₁
            · exact Or.inr hentry
        · exact Or.inl hout
  rcases hmem _ _ _ h with hnil | ⟨k, hk⟩
  · cases hnil
  · exact ⟨k, ExtTreeMap.mem_toList_iff_getElem?_eq_some.mp hk⟩

theorem body_template {a : App} (h : o.Node a) (payto : Addr20) (time nonce : UInt64) :
    o.Body (a.chain.template a.params a.pool payto time nonce).txs := by
  intro t ht htype
  rcases List.mem_cons.mp ht with rfl | ht
  · exact absurd rfl htype
  · obtain ⟨k, hk⟩ := pending_of_mem_collect ht
    exact h.pool k t hk

theorem fits_of_connectBlock {p : Params} {c c' : Chainlite.Chain} {now : Clock} {b : Block} (hsound : Chain.Sound p c)
    (h : c.connectBlock now b = .ok c') : b.Fits := by
  obtain ⟨hsound', hblocks⟩ := hsound.connectBlock h
  exact hsound'.valid.fits b (by rw [hblocks]; simp)

/-! ### Sync replies -/

section
variable {p : Params} {r : Readings} {a : App} {v : List Block}

theorem Result.extendBlocks (h : o.Node a) (hv : ∀ b ∈ v, o.block b) (peer : Int) :
    o.Result (a.extendBlocks r peer v) := by
  unfold App.extendBlocks
  rcases hall : Chainlite.Chain.connectAll r.now 0 a.chain v with ⟨c, n, err⟩
  have hkept : o.Node (if 0 < n then App.postChainChange { a with chain := c } else a) := by
    split
    · exact h.changed (h.chain.connectAll hv hall)
    · exact h
  dsimp only
  generalize (if 0 < n then App.postChainChange { a with chain := c } else a) = a₁ at hkept ⊢
  split
  · exact Result.requestBlocks (a := { a₁ with syncMode := .full, cand := [] })
      ⟨hkept.chain, hkept.pool, fun b hb => (by cases hb), hkept.cache, hkept.job⟩ _ _ _
  · have hgot : o.Node { a₁ with syncExtendGot := a₁.syncExtendGot + UInt64.ofNat n } :=
      ⟨hkept.chain, hkept.pool, hkept.cand, hkept.cache, hkept.job⟩
    split
    · exact .one hgot.resetSync (.tip _)
    · split
      · exact Result.requestBlocks hgot _ _ _
      · exact .quiet hgot.resetSync

theorem Result.collectBlocks (h : o.Node a) (hparams : a.chain.params = p) (hv : ∀ b ∈ v, o.block b) (peer : Int) :
    o.Result (a.collectBlocks r peer v) := by
  have hcand : ∀ b ∈ a.cand ++ v, o.block b := by
    intro b hb
    rcases List.mem_append.mp hb with hb | hb
    · exact h.cand b hb
    · exact hv b hb
  have hmore : o.Node { a with cand := a.cand ++ v } := ⟨h.chain, h.pool, hcand, h.cache, h.job⟩
  unfold App.collectBlocks
  dsimp only
  split
  · exact .quiet hmore.resetSync
  · split
    · exact Result.requestBlocks hmore _ _ _
    · cases hr : a.chain.tryReplace r.now (a.cand ++ v) with
      | error e => exact .quiet hmore.resetSync
      | ok res =>
          have hreplaced : o.Chain res.1 := h.chain.tryReplace hparams hcand (hr.trans rfl)
          exact .one (hmore.changed hreplaced).resetSync (.tip _)

theorem Result.handleBlocks (h : o.Node a) (hparams : a.chain.params = p) (hv : ∀ b ∈ v, o.block b) (peer : Int) :
    o.Result (a.handleBlocks r peer v) := by
  have hheard : o.Node { a with syncLastMs := r.ms 0 } := ⟨h.chain, h.pool, h.cand, h.cache, h.job⟩
  unfold App.handleBlocks
  split
  · exact .quiet h
  · dsimp only
    split
    · exact .quiet hheard
    · exact Result.extendBlocks hheard hv peer
    · exact Result.collectBlocks hheard hparams hv peer

/-! ### Messages -/

omit [Crypto] in
theorem Result.onGetBlocks (h : o.Node a) (peer : Int) (payload : Bytes) : o.Result (a.onGetBlocks peer payload) := by
  unfold App.onGetBlocks
  split
  · exact .quiet h
  · rename_i start cnt rest hread
    refine .one h (.ofBlocks ?_ fun b hb => ?_)
    · exact (length_servedBlocks_le a.chain start cnt).trans (by decide)
    · exact h.chain.blocks b (List.mem_of_mem_drop (List.mem_of_mem_take hb))

theorem Result.onBlocks (h : o.Node a) (hparams : a.chain.params = p) (peer : Int) {payload : Bytes}
    (hmsg : o.Message (mBlocks, payload)) : o.Result (a.onBlocks r peer payload) := by
  obtain ⟨bs, hlen, hbs, rfl⟩ := hmsg.blocks rfl
  have hread := readBlocks_reads (fun b hb => o.fits b (hbs b hb)) hlen []
  rw [List.append_nil] at hread
  rw [App.onBlocks, hread]
  exact Result.handleBlocks h hparams hbs peer

/-- A transaction that is taken is pending from then on. -/
theorem Node.pooled (h : o.Node a) {t : Tx} {pool : Mempool} (ht : o.tx t)
    (hadd : a.pool.add t a.chain.st a.params = .ok pool) : o.Node { a with pool := pool } := by
  obtain ⟨-, -, -, -, -, rfl⟩ := Mempool.add_ok hadd
  refine ⟨h.chain, fun k u hu => ?_, h.cand, h.cache, h.job⟩
  rw [OrderedMap.getElem?_insert_eq] at hu
  split at hu
  · cases hu
    exact ht
  · exact h.pool k u hu

theorem Result.onTx (h : o.Node a) (peer : Int) {payload : Bytes} (hmsg : o.Message (mTx, payload)) :
    o.Result (a.onTx peer payload) := by
  obtain ⟨t, hfits, ht, rfl⟩ := hmsg.tx rfl
  rw [App.onTx, Tx.parse_eq_iff.mpr ⟨hfits, rfl⟩]
  dsimp only
  split
  · exact .quiet h
  · split
    · rename_i hadd
      exact .one (h.pooled ht hadd) (.ofTx hfits ht)
    · exact .quiet h

theorem Result.connected (h : o.Node a) {b : Block} {c : Chainlite.Chain} {now : Clock} (hb : o.block b)
    (hconnect : a.chain.connectBlock now b = .ok c) (except : Int) :
    o.Result (App.postChainChange { a with chain := c },
      [(App.postChainChange { a with chain := c }).announceTip except, .broadcast mBlock b.serialize except]) := by
  refine ⟨h.changed (h.chain.connectBlock hb hconnect), fun call hcall => ?_⟩
  rcases List.mem_cons.mp hcall with rfl | hcall
  · exact .tip _
  · rw [List.mem_singleton.mp hcall]
    exact .ofBlock hb

theorem Result.onBlock (h : o.Node a) (peer : Int) {payload : Bytes} (hmsg : o.Message (mBlock, payload)) :
    o.Result (a.onBlock r peer payload) := by
  obtain ⟨b, hb, rfl⟩ := hmsg.block rfl
  rw [App.onBlock, Block.parse_serialize (o.fits b hb)]
  dsimp only
  split
  · exact .quiet h
  · split
    · rename_i hconnect
      exact Result.connected h hb hconnect peer
    · split
      · exact Result.maybeSync h _ peer
      · exact .quiet h

theorem Result.onMsg (h : o.Node a) (hparams : a.chain.params = p) (peer : Int) {type : UInt8} {payload : Bytes}
    (hmsg : o.Message (type, payload)) : o.Result (a.onMsg r peer type payload) := by
  unfold App.onMsg
  split_ifs with htip hget hblocks htx hblock
  · exact Result.maybeSync h _ peer
  · exact Result.onGetBlocks h peer payload
  · subst hblocks
    exact Result.onBlocks h hparams peer hmsg
  · subst htx
    exact Result.onTx h peer hmsg
  · subst hblock
    exact Result.onBlock h peer hmsg
  · exact .quiet h

end

end Origin

/-! ### One event -/

variable [Crypto]

/-- A transaction that `/submit` takes. -/
def App.Submits (a : App) (ev : Event) (t : Tx) : Prop :=
  ∃ body, ev = .submit body ∧ t.Fits ∧ unhex body = some t.serialize ∧ (a.submit body).2.2.status = 200

/-- A block that the miner of the node, or an external one, adds to its chain. -/
def App.Mines (r : Readings) (a : App) (ev : Event) (b : Block) : Prop :=
  ((∃ nonce, ev = .minerCommit nonce) ∨ ∃ body, ev = .submitWork body) ∧
    a.chain.connectBlock (r.now 0) b = .ok (a.step r ev).chain

/-- An event after which `o'` is known: the message it brings was made of what is known, and what is submitted or
mined becomes known. -/
structure Origin.Leads (o : Origin) (r : Readings) (a : App) (ev : Event) (o' : Origin) : Prop where
  le : o.Le o'
  heard : ∀ peer type payload, ev = .msg peer type payload → o.Message (type, payload)
  submits : ∀ t, a.Submits ev t → o'.tx t
  mines : ∀ b, a.Mines r ev b → b.Fits → o.Body b.txs → o'.block b

namespace Origin

variable {o o' : Origin} {p : Params} {r : Readings} {a : App}

theorem Result.submit (h : o.Node a) {body : String} (hleads : o.Leads r a (.submit body) o') :
    o'.Result ((a.submit body).1, (a.submit body).2.1) := by
  have hkept := h.mono hleads.le
  have hsubmits : ∀ t : Tx, t.Fits → unhex body = some t.serialize → (a.submit body).2.2.status = 200 → o'.tx t :=
    fun t hfits hraw hstatus => hleads.submits t ⟨body, rfl, hfits, hraw, hstatus⟩
  unfold App.submit at hsubmits ⊢
  split
  · exact .quiet hkept
  · rename_i raw hraw
    rw [hraw] at hsubmits
    dsimp only at hsubmits
    split
    · exact .quiet hkept
    · rename_i t rest hparse
      rw [hparse] at hsubmits
      dsimp only at hsubmits
      split
      · exact .quiet hkept
      · rename_i hrest
        obtain ⟨hfits, hser⟩ := Tx.parse_ok hparse
        rw [not_not.mp hrest, List.append_nil] at hser
        split
        · exact .quiet hkept
        · rename_i hdup
          split
          · exact .quiet hkept
          · rename_i pool hadd
            rw [if_neg hrest, if_neg hdup, hadd] at hsubmits
            have ht : o'.tx t := hsubmits t hfits (congrArg some hser) rfl
            subst hser
            exact .one (hkept.pooled ht hadd) (.ofTx hfits ht)

theorem Result.submitWork (h : o.Node a) (hsound : Chain.Sound p a.chain) {body : String}
    (hleads : o.Leads r a (.submitWork body) o') :
    o'.Result ((a.submitWork r body).1, (a.submitWork r body).2.1) := by
  have hkept := h.mono hleads.le
  have hmines : ∀ b c, a.chain.connectBlock (r.now 0) b = .ok c → (a.submitWork r body).1.chain = c →
      o.Body b.txs → o'.block b := by
    intro b c hconnect hchain hbody
    have hstep : (a.step r (.submitWork body)).chain = c := hchain
    exact hleads.mines b ⟨Or.inr ⟨body, rfl⟩, hstep ▸ hconnect⟩ (fits_of_connectBlock hsound hconnect) hbody
  unfold App.submitWork at hmines ⊢
  split
  · exact .quiet hkept
  · rename_i raw hraw
    rw [hraw] at hmines
    dsimp only at hmines
    split
    · exact .quiet hkept
    · rename_i hsize
      rw [if_neg hsize] at hmines
      split
      · exact .quiet hkept
      · rename_i header rest hparse
        rw [hparse] at hmines
        dsimp only at hmines
        split
        · exact .quiet hkept
        · rename_i txs hcached
          rw [hcached] at hmines
          dsimp only at hmines
          split
          · exact .quiet hkept
          · rename_i c hconnect
            rw [hconnect] at hmines
            exact Result.connected hkept (hmines _ c hconnect rfl (h.cache _ _ hcached)) hconnect (-1)

theorem Result.workFor (h : o.Node a) (payto : Addr20) : o.Result ((a.workFor r payto).1, []) := by
  refine .quiet ⟨h.chain, h.pool, h.cand, fun root txs htxs => ?_, h.job⟩
  rw [App.workFor, OrderedMap.getElem?_insert_eq] at htxs
  split at htxs
  · cases htxs
    exact body_template h payto _ _
  · split at htxs
    · simp at htxs
    · exact h.cache root txs htxs

theorem Result.work (h : o.Node a) (addr : Option String) : o.Result ((a.work r addr).1, []) := by
  unfold App.work
  split
  · exact Result.workFor h _
  · split
    · exact .quiet h
    · exact Result.workFor h _

theorem Result.minerSnapshot (h : o.Node a) : o.Result (a.minerSnapshot r, []) := by
  refine .quiet ?_
  unfold App.minerSnapshot
  split
  · exact h
  · dsimp only
    split
    · refine ⟨h.chain, h.pool, h.cand, h.cache, fun seq b hjob => ?_⟩
      obtain ⟨-, rfl⟩ := Prod.mk.inj (Option.some.inj hjob)
      exact body_template h _ _ _
    · exact ⟨h.chain, h.pool, h.cand, h.cache, fun seq b hjob => by cases hjob⟩

theorem Result.minerCommit (h : o.Node a) (hsound : Chain.Sound p a.chain) {nonce : UInt64}
    (hleads : o.Leads r a (.minerCommit nonce) o') : o'.Result (a.minerCommit r nonce) := by
  have hkept := h.mono hleads.le
  have hmines : ∀ b c, a.chain.connectBlock (r.now 0) b = .ok c → (a.minerCommit r nonce).1.chain = c →
      o.Body b.txs → o'.block b := by
    intro b c hconnect hchain hbody
    have hstep : (a.step r (.minerCommit nonce)).chain = c := hchain
    exact hleads.mines b ⟨Or.inl ⟨nonce, rfl⟩, hstep ▸ hconnect⟩ (fits_of_connectBlock hsound hconnect) hbody
  have hidle : o'.Node { a with job := none } :=
    ⟨hkept.chain, hkept.pool, hkept.cand, hkept.cache, fun seq b hjob => by cases hjob⟩
  unfold App.minerCommit at hmines ⊢
  split
  · exact .quiet hkept
  · rename_i seq cand hjob
    rw [hjob] at hmines
    dsimp only at hmines ⊢
    split
    · exact .quiet hidle
    · rename_i hseq
      rw [if_neg hseq] at hmines
      split
      · rename_i c hconnect
        rw [hconnect] at hmines
        exact Result.connected hidle (hmines _ c hconnect rfl (h.job seq cand hjob)) hconnect (-1)
      · exact .quiet hidle

/-- **One event** at a node whose contents have an origin: the same holds of the node after it, and of the messages
it sends. -/
theorem Result.handle (h : o.Node a) (hsound : Chain.Sound p a.chain) (ev : Event) (hleads : o.Leads r a ev o') :
    o'.Result (a.handle r ev) := by
  have hkept := h.mono hleads.le
  cases ev with
  | net p2p => exact .quiet ⟨hkept.chain, hkept.pool, hkept.cand, hkept.cache, hkept.job⟩
  | ready peer => exact .one hkept (.tip _)
  | gone peer =>
      refine .quiet ?_
      split
      · exact hkept.resetSync
      · exact hkept
  | msg peer type payload => exact Result.onMsg hkept hsound.params peer ((hleads.heard _ _ _ rfl).mono hleads.le)
  | keepalive => exact .one hkept (.tip _)
  | timeout =>
      refine .quiet ?_
      unfold App.checkTimeout
      split
      · exact hkept.resetSync
      · exact hkept
  | submit body => exact Result.submit h hleads
  | work addr => exact Result.work hkept addr
  | submitWork body => exact Result.submitWork h hsound hleads
  | minerSnapshot => exact Result.minerSnapshot hkept
  | minerCommit nonce => exact Result.minerCommit h hsound hleads

end Origin

end Chainlite
