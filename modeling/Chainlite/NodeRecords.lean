import Chainlite.NodeFlood
import Chainlite.ProofText
import Chainlite.SecurityCommitment

/-! The notes feed of `/records`. The pool is scanned in the order of its keys and the chain from its tip down, with one
counter for both, so the response is the start of one list: the pending notes, then the confirmed ones. The chain gives
the notes of a sender from the last nonce down, and the nonces in the pool are ahead of it; but the pool itself gives
them from the first nonce up. -/

open Std

namespace Chainlite

/-- One element of the list `records`. -/
structure Note where
  tx : Tx
  status : String
  height : UInt64
  time : UInt64
  confirmations : UInt64

/-- `limit`, at most 500, which zero stands for as well; 50 unless it is given. -/
def recordsLimit (limit : Option String) : UInt64 :=
  let limit := match limit with
    | some s => strtoull s.toList
    | none => 50
  if limit = 0 ∨ 500 < limit then 500 else limit

/-- `addr`, or `none` when it cannot be read. -/
def recordsOnly (addr : Option String) : Option (Option Addr20) :=
  match addr with
  | none => some none
  | some s => (unhexN 20 s).map some

section
variable [Crypto] {p : Params}

/-- The transactions that are listed: records, and only those of the sender asked for. -/
def listed (only : Option Addr20) (t : Tx) : Bool :=
  t.type == txRecord && only.all fun a => t.sender == a

/-- The loop over transactions with the counter `n`, which is the number of notes in `out`. -/
def emitAll (limit : UInt64) (only : Option Addr20) (note : Tx → Note) : List Tx → List Note → List Note
  | [], out => out
  | t :: rest, out =>
      if limit.toNat ≤ out.length then out
      else emitAll limit only note rest (if listed only t then out ++ [note t] else out)

def pendingNote (t : Tx) : Note := { tx := t, status := "pending", height := 0, time := 0, confirmations := 0 }

def confirmedNote (tip : UInt64) (h : BlockHeader) (t : Tx) : Note :=
  { tx := t, status := "confirmed", height := h.height, time := h.time, confirmations := tip - h.height + 1 }

/-- The loop over the blocks, each from its last transaction down. -/
def emitBlocks (limit : UInt64) (only : Option Addr20) (tip : UInt64) : List Block → List Note → List Note
  | [], out => out
  | b :: rest, out =>
      if limit.toNat ≤ out.length then out
      else emitBlocks limit only tip rest (emitAll limit only (confirmedNote tip b.h) b.txs.reverse out)

def Note.json (note : Note) : String :=
  "\x7b\"txid\":\"" ++ hexs note.tx.txid.toList ++ "\",\"status\":\"" ++ note.status ++ "\",\"height\":" ++
    toString note.height ++ ",\"time\":" ++ toString note.time ++ ",\"confirmations\":" ++
    toString note.confirmations ++ ",\"from\":\"" ++ hexs note.tx.sender.toList ++ "\",\"payload_hex\":\"" ++
    hexs note.tx.payload ++ "\"\x7d"

namespace App

/-- The notes of the response. -/
def notes (a : App) (limit : UInt64) (only : Option Addr20) : List Note :=
  emitBlocks limit only a.chain.height a.chain.blocks.reverse
    (emitAll limit only pendingNote (a.pool.m.toList.map Prod.snd) [])

/-- `GET /records?limit=..&addr=..`. -/
def records (a : App) (limit addr : Option String) : HttpResp :=
  match recordsOnly addr with
  | none => err400 "bad addr"
  | some only => ⟨200, "application/json", "\x7b\"records\":[" ++
      String.intercalate "," ((a.notes (recordsLimit limit) only).map Note.json) ++ "]\x7d"⟩

/-- The pending notes that pass the filter, in the order of the pool. -/
def pendingTxs (a : App) (only : Option Addr20) : List Tx := (a.pool.m.toList.map Prod.snd).filter (listed only)

/-- The confirmed ones, from the last down. -/
def confirmedTxs (a : App) (only : Option Addr20) : List Tx := (a.chain.txs.filter (listed only)).reverse

end App

/-! ### One list -/

omit [Crypto] in
theorem take_append_take {α : Type} (l more : List α) (n : Nat) : (l.take n ++ more).take n = (l ++ more).take n := by
  rw [List.take_append, List.take_take, Nat.min_self, List.take_append, List.length_take]
  by_cases h : l.length ≤ n
  · rw [Nat.min_eq_right h]
  · rw [Nat.min_eq_left (by omega), Nat.sub_self, show n - l.length = 0 by omega]

/-- A loop over transactions takes those that are listed, as far as the limit goes. -/
theorem emitAll_eq {limit : UInt64} {only : Option Addr20} {note : Tx → Note} {txs : List Tx} {out : List Note}
    (hout : out.length ≤ limit.toNat) :
    emitAll limit only note txs out = (out ++ (txs.filter (listed only)).map note).take limit.toNat := by
  induction txs generalizing out with
  | nil => rw [emitAll, List.filter_nil, List.map_nil, List.append_nil, List.take_of_length_le hout]
  | cons t rest ih =>
      rw [emitAll]
      split
      · rename_i hfull
        have hlen : out.length = limit.toNat := Nat.le_antisymm hout hfull
        rw [← hlen, List.take_left]
      · rename_i hroom
        by_cases ht : listed only t = true
        · have hmore : (out ++ [note t]).length ≤ limit.toNat := by
            rw [List.length_append, List.length_singleton]
            omega
          rw [if_pos ht, ih hmore, ← List.append_cons, List.filter_cons_of_pos ht, List.map_cons]
        · rw [if_neg ht, List.filter_cons_of_neg ht, ih hout]

theorem emitBlocks_eq {limit : UInt64} {only : Option Addr20} {tip : UInt64} {bs : List Block} {out : List Note}
    (hout : out.length ≤ limit.toNat) :
    emitBlocks limit only tip bs out =
      (out ++ bs.flatMap fun b => (b.txs.reverse.filter (listed only)).map (confirmedNote tip b.h)).take limit.toNat := by
  induction bs generalizing out with
  | nil => rw [emitBlocks, List.flatMap_nil, List.append_nil, List.take_of_length_le hout]
  | cons b rest ih =>
      rw [emitBlocks]
      split
      · rename_i hfull
        have hlen : out.length = limit.toNat := Nat.le_antisymm hout hfull
        rw [← hlen, List.take_left]
      · rw [emitAll_eq hout, ih (List.length_take_le _ _), take_append_take, List.append_assoc, List.flatMap_cons]

/-- **The response is the start of one list**: the pending notes, then the confirmed ones. -/
theorem App.notes_tx (a : App) (limit : UInt64) (only : Option Addr20) :
    (a.notes limit only).map Note.tx = (a.pendingTxs only ++ a.confirmedTxs only).take limit.toNat := by
  have hpending : (((a.pool.m.toList.map Prod.snd).filter (listed only)).map pendingNote).map Note.tx =
      a.pendingTxs only := by
    rw [List.map_map]
    exact List.map_id _
  have hconfirmed : (a.chain.blocks.reverse.flatMap fun b =>
      (b.txs.reverse.filter (listed only)).map (confirmedNote a.chain.height b.h)).map Note.tx = a.confirmedTxs only := by
    rw [List.map_flatMap, App.confirmedTxs, Chain.txs, List.filter_flatMap, List.reverse_flatMap]
    apply congrArg (List.flatMap · _)
    funext b
    rw [List.map_map, Function.comp_apply, ← List.filter_reverse]
    exact List.map_id _
  rw [App.notes, emitAll_eq (Nat.zero_le _), emitBlocks_eq (List.length_take_le _ _), take_append_take,
    List.nil_append, List.map_take, List.map_append, hpending, hconfirmed]

theorem NodeRun.params_eq {a : App} {now : Clock} (h : NodeRun p a now) : a.params = p := h.valid.params

/-! ### The order of the nonces -/

/-- Of two notes of one sender the first has the higher nonce. -/
def NewestFirst (txs : List Tx) : Prop := txs.Pairwise fun t u => t.sender = u.sender → u.nonce < t.nonce

omit [Crypto] in
theorem poolCmp_lt {k k' : PoolKey} (h : poolCmp k k' = .lt) (hfst : k.1 = k'.1) : k.2 < k'.2 := by
  have hsame : compareOn Prod.fst k k' = .eq := by rw [compareOn, hfst]; exact ReflCmp.compare_self
  have hsnd : compare k.2 k'.2 = .lt := by
    rw [poolCmp, compareLex, hsame] at h
    exact h
  exact Std.compare_eq_lt.mp hsnd

/-- The pool gives the notes of a sender from the first nonce up. -/
theorem pendingTxs_ascending {a : App} (hwf : a.pool.Wf p) (only : Option Addr20) :
    (a.pendingTxs only).Pairwise fun t u => t.sender = u.sender → t.nonce < u.nonce := by
  refine List.Pairwise.filter _ (List.pairwise_map.mpr ?_)
  refine List.Pairwise.imp_of_mem ?_ ExtTreeMap.ordered_keys_toList
  rintro ⟨k, t⟩ ⟨k', t'⟩ hmem hmem' hlt hsender
  obtain ⟨rfl, -⟩ := hwf.entry k t (ExtTreeMap.mem_toList_iff_getElem?_eq_some.mp hmem)
  obtain ⟨rfl, -⟩ := hwf.entry k' t' (ExtTreeMap.mem_toList_iff_getElem?_eq_some.mp hmem')
  exact poolCmp_lt hlt hsender

theorem record_of_listed {only : Option Addr20} {t : Tx} (h : listed only t = true) : t.type = txRecord := by
  rw [listed, Bool.and_eq_true] at h
  exact beq_iff_eq.mp h.1

/-- The chain gives the notes of a sender from the last nonce down. -/
theorem confirmedTxs_newestFirst {a : App} (hsound : Chain.Sound p a.chain) (hlen : a.chain.txs.length < 2 ^ 64)
    (only : Option Addr20) : NewestFirst (a.confirmedTxs only) := by
  rw [NewestFirst, App.confirmedTxs, List.pairwise_reverse, List.pairwise_iff_forall_sublist]
  intro t u hsub hsender
  have hrecord : ∀ v ∈ [t, u], v.type ≠ txCoinbase := by
    intro v hv
    rw [record_of_listed (List.mem_filter.mp (hsub.subset hv)).2]
    decide
  have hpair : (noncesOf [t, u] t.sender).Sublist (noncesOf a.chain.txs t.sender) :=
    ((hsub.trans List.filter_sublist).filter _).map _
  have hnonces : noncesOf [t, u] t.sender = [t.nonce.toNat, u.nonce.toNat] := by
    simp [noncesOf, hrecord, hsender]
  rw [hnonces, hsound.counted hlen] at hpair
  have hlt := List.pairwise_lt_range.sublist hpair
  exact UInt64.lt_iff_toNat_lt.mpr (by simpa using hlt)

/-- The nonces in the pool are ahead of the chain. -/
theorem confirmed_nonce_lt_pending {a : App} (hwf : a.pool.Wf p) (hahead : Mempool.Ahead a.chain.st a.pool)
    (hsound : Chain.Sound p a.chain) (hlen : a.chain.txs.length < 2 ^ 64) {only : Option Addr20} {t u : Tx}
    (ht : t ∈ a.pendingTxs only) (hu : u ∈ a.confirmedTxs only) (hsender : t.sender = u.sender) : u.nonce < t.nonce := by
  obtain ⟨hmem, hlisted⟩ := List.mem_filter.mp (List.mem_reverse.mp hu)
  have hrecord : u.type ≠ txCoinbase := by
    rw [record_of_listed hlisted]
    decide
  obtain ⟨⟨k, t'⟩, hentry, rfl⟩ := List.mem_map.mp (List.mem_filter.mp ht).1
  have hget := ExtTreeMap.mem_toList_iff_getElem?_eq_some.mp hentry
  obtain ⟨rfl, -⟩ := hwf.entry k t' hget
  have hbehind := hsound.confirmed_nonce_lt hlen hmem hrecord
  have hnext : (a.chain.st.acct t'.sender).nonce ≤ t'.nonce := hahead _ _ hget
  rw [← hsender] at hbehind
  exact lt_of_lt_of_le hbehind hnext

theorem Mempool.WellShaped.fits {t : Tx} (h : WellShaped t p) : t.Fits := by
  rcases h.shape with ⟨-, hpayload⟩ | ⟨-, -, -, hsize⟩
  · rw [Tx.Fits, hpayload]
    exact Nat.zero_le _
  · exact hsize

/-- A listed note was checked when it came in, so it is within the limits of the parser. -/
theorem fits_of_listed {a : App} (hwf : a.pool.Wf p) (hsound : Chain.Sound p a.chain) {only : Option Addr20} {t : Tx}
    (ht : t ∈ a.pendingTxs only ++ a.confirmedTxs only) : t.Fits := by
  rcases List.mem_append.mp ht with ht | ht
  · obtain ⟨⟨k, t'⟩, hentry, rfl⟩ := List.mem_map.mp (List.mem_filter.mp ht).1
    obtain ⟨-, hshape⟩ := hwf.entry k t' (ExtTreeMap.mem_toList_iff_getElem?_eq_some.mp hentry)
    exact hshape.fits
  · obtain ⟨b, hb, hmem⟩ := List.mem_flatMap.mp (List.mem_filter.mp (List.mem_reverse.mp ht)).1
    exact (hsound.valid.fits b hb).payloads t hmem

/-- No two listed notes are the same transaction. -/
theorem listed_distinct {a : App} (hwf : a.pool.Wf p) (hahead : Mempool.Ahead a.chain.st a.pool)
    (hsound : Chain.Sound p a.chain) (hlen : a.chain.txs.length < 2 ^ 64) (only : Option Addr20) :
    (a.pendingTxs only ++ a.confirmedTxs only).Pairwise (· ≠ ·) := by
  refine List.pairwise_append.mpr ⟨(pendingTxs_ascending hwf only).imp ?_,
    (confirmedTxs_newestFirst hsound hlen only).imp ?_, fun t ht u hu => ?_⟩
  · rintro t u hlt rfl
    exact absurd (hlt rfl) (UInt64.lt_irrefl _)
  · rintro t u hlt rfl
    exact absurd (hlt rfl) (UInt64.lt_irrefl _)
  · rintro rfl
    exact absurd (confirmed_nonce_lt_pending hwf hahead hsound hlen ht hu rfl) (UInt64.lt_irrefl _)

/-- Distinct transactions have distinct ids, or there is a collision. -/
theorem nodup_txids {txs : List Tx} (hfits : ∀ t ∈ txs, t.Fits) (hdistinct : txs.Pairwise (· ≠ ·)) :
    (txs.map Tx.txid).Nodup ∨ Collision (txs.map Tx.serialize) := by
  refine (collisionFree_or_collision (txs.map Tx.serialize)).imp (fun hfree => ?_) id
  refine List.pairwise_map.mpr (List.Pairwise.imp_of_mem ?_ hdistinct)
  intro t u ht hu hne hid
  have hbytes := hfree _ (List.mem_map_of_mem ht) _ (List.mem_map_of_mem hu) hid
  exact hne (Tx.serialize_injective (hfits t ht) (hfits u hu) hbytes)

/-- What the feed promises of the notes of a response: no transaction id comes twice, unless two of the transactions
listed collide, and the notes of a sender come newest first. -/
structure FeedInOrder (notes : List Note) : Prop where
  once : (notes.map fun note => note.tx.txid).Nodup ∨ Collision (notes.map fun note => note.tx.serialize)
  newestFirst : NewestFirst (notes.map Note.tx)

theorem NodeRun.feedInOrder_iff {a : App} {now : Clock} (h : NodeRun p a now) (hlen : a.chain.txs.length < 2 ^ 64)
    (limit : UInt64) (only : Option Addr20) :
    FeedInOrder (a.notes limit only) ↔
      ((a.pendingTxs only).take limit.toNat).Pairwise fun t u => t.sender ≠ u.sender := by
  obtain ⟨hwf, hahead⟩ := h.poolWf
  have hwf : a.pool.Wf p := hwf
  have hahead : Mempool.Ahead a.chain.st a.pool := hahead
  have hsound : Chain.Sound p a.chain := h.valid.sound
  have htxs := a.notes_tx limit only
  have hsplit := htxs
  rw [List.take_append] at hsplit
  constructor
  · intro hfeed
    have hnewest := hfeed.newestFirst
    rw [hsplit] at hnewest
    refine ((List.pairwise_append.mp hnewest).1.and (pendingTxs_ascending hwf only).take).imp ?_
    intro t u hboth hsender
    exact absurd (hboth.1 hsender) (UInt64.lt_asymm (hboth.2 hsender))
  · intro hsenders
    constructor
    · have hfits : ∀ t ∈ (a.notes limit only).map Note.tx, t.Fits := by
        intro t ht
        rw [htxs] at ht
        exact fits_of_listed hwf hsound (List.mem_of_mem_take ht)
      have hdistinct := (listed_distinct hwf hahead hsound hlen only).take (i := limit.toNat)
      rw [← htxs] at hdistinct
      have honce := nodup_txids hfits hdistinct
      rwa [List.map_map, List.map_map] at honce
    · rw [hsplit]
      refine List.pairwise_append.mpr ⟨hsenders.imp fun hne hsame => absurd hsame hne,
        (confirmedTxs_newestFirst hsound hlen only).take, fun t ht u hu hsender => ?_⟩
      exact confirmed_nonce_lt_pending hwf hahead hsound hlen (List.mem_of_mem_take ht) (List.mem_of_mem_take hu) hsender

/-- **When the notes feed is newest first**: for every reached node, every limit and filter, exactly when no sender has
two among the pending notes of the response. -/
theorem records_newest_first_iff {a : App} {now : Clock} (h : NodeRun p a now) (hlen : a.chain.txs.length < 2 ^ 64)
    (limit addr : Option String) (only : Option Addr20) (honly : recordsOnly addr = some only) :
    a.records limit addr = ⟨200, "application/json", "\x7b\"records\":[" ++
      String.intercalate "," ((a.notes (recordsLimit limit) only).map Note.json) ++ "]\x7d"⟩ ∧
    (FeedInOrder (a.notes (recordsLimit limit) only) ↔
      ((a.pendingTxs only).take (recordsLimit limit).toNat).Pairwise fun t u => t.sender ≠ u.sender) := by
  refine ⟨?_, h.feedInOrder_iff hlen (recordsLimit limit) only⟩
  rw [App.records, honly]

end

section
local instance recordsCrypto : Crypto := Sha.crypto fun _ _ _ => true

/-- A note of one sender. -/
def noteTx (nonce : UInt64) : Tx :=
  { type := txRecord, netId := Chain.easyParams.netId, fromKey := Vector.replicate 64 1, nonce := nonce, payload := [7] }

/-- The pool with a note added. -/
def Mempool.withNote (pool : Mempool) (nonce : UInt64) : Mempool :=
  { m := pool.m.insert ((noteTx 0).sender, nonce) (noteTx nonce), ids := pool.ids.insert (noteTx nonce).txid }

theorem add_noteTx {pool : Mempool} {nonce : UInt64} (hnonce : nonce ≤ 16) (hroom : pool.m.size < maxPoolTxs)
    (hid : pool.has (noteTx nonce).txid = false) (hkey : ((noteTx 0).sender, nonce) ∉ pool.m) :
    pool.add (noteTx nonce) ∅ Chain.easyParams = .ok (pool.withNote nonce) := by
  have hsigned : (noteTx nonce).Signed Chain.easyParams := ⟨rfl, show isZero (Vector.replicate 64 1) = false by decide, rfl⟩
  have hfresh : (State.acct ∅ (noteTx nonce).sender).nonce = 0 := by rw [State.acct_empty]
  obtain ⟨pool', hadd⟩ : ∃ pool', pool.add (noteTx nonce) ∅ Chain.easyParams = .ok pool' :=
    (Mempool.add_succeeds_iff hroom hid hkey).mpr ⟨show txRecord ≠ txCoinbase by decide, hsigned,
      by rw [hfresh]; exact UInt64.not_lt.mpr UInt64.zero_le, by rw [hfresh]; exact UInt64.not_lt.mpr hnonce, rfl⟩
  obtain ⟨-, -, -, -, -, rfl⟩ := Mempool.add_ok hadd
  exact hadd

/-- The nonce is part of what is hashed. -/
theorem noteTx_txid_ne : (noteTx 1).txid ≠ (noteTx 0).txid := by
  have hfirst : (noteTx 1).txid.toList.head? ≠ (noteTx 0).txid.toList.head? := by decide +kernel
  exact fun h => hfirst (by rw [h])

/-- A node to which a sender has sent a note, and one to which it has sent two. -/
def oneNote : App := easyNode.step easyReadings (.msg 1 mTx (noteTx 0).serialize)

def twoNotes : App := oneNote.step easyReadings (.msg 1 mTx (noteTx 1).serialize)

theorem oneNote_run : NodeRun Chain.easyParams oneNote Chain.easyClock := easyNode_run.step easyReadings_between _

theorem twoNotes_run : NodeRun Chain.easyParams twoNotes Chain.easyClock := oneNote_run.step easyReadings_between _

theorem step_tx_pool (r : Readings) (a : App) (peer : Int) (payload : Bytes) :
    (a.step r (.msg peer mTx payload)).pool = (a.onTx peer payload).1.pool := by
  change (a.handle r (.msg peer mTx payload)).1.pool = _
  rw [App.handle_tx]

theorem step_noteTx {a : App} {nonce : UInt64} (hst : a.chain.st = ∅) (htxidx : a.chain.txidx = ∅)
    (hparams : a.params = Chain.easyParams) (hnonce : nonce ≤ 16) (hroom : a.pool.m.size < maxPoolTxs)
    (hid : a.pool.has (noteTx nonce).txid = false) (hkey : ((noteTx 0).sender, nonce) ∉ a.pool.m) :
    (a.step easyReadings (.msg 1 mTx (noteTx nonce).serialize)).pool = a.pool.withNote nonce := by
  have hadd : a.pool.add (noteTx nonce) a.chain.st a.params = .ok (a.pool.withNote nonce) := by
    rw [hst, hparams]
    exact add_noteTx hnonce hroom hid hkey
  have hfits : (noteTx nonce).Fits := show 1 ≤ maxPayload by decide
  have hnew := App.onTx_new 1 hfits (by rw [htxidx, hid]; simp) hadd
  rw [step_tx_pool, hnew]

theorem oneNote_chain : oneNote.chain = easyNode.chain := App.step_tx_chain _ _ _ _

theorem twoNotes_chain : twoNotes.chain = easyNode.chain := (App.step_tx_chain _ _ _ _).trans oneNote_chain

theorem oneNote_pool : oneNote.pool = Mempool.withNote {} 0 := by
  have hempty : easyNode.pool = {} := rfl
  rw [oneNote, step_noteTx rfl rfl rfl (by decide) (by rw [hempty]; decide) (by rw [hempty]; simp [Mempool.has])
    (by rw [hempty]; simp), hempty]

/-- Both notes are in the pool. -/
theorem twoNotes_pool : twoNotes.pool = (Mempool.withNote {} 0).withNote 1 := by
  have hid : (Mempool.withNote {} 0).has (noteTx 1).txid = false := by
    have hnot : (noteTx 1).txid ∉ (Mempool.withNote {} 0).ids := by
      rw [Mempool.withNote, ExtTreeSet.mem_insert, LawfulEqCmp.compare_eq_iff_eq]
      rintro (heq | hmem)
      · exact noteTx_txid_ne heq.symm
      · simp at hmem
    exact Bool.eq_false_iff.mpr fun h => hnot (ExtTreeSet.contains_iff_mem.mp h)
  have hkey : ((noteTx 0).sender, (1 : UInt64)) ∉ (Mempool.withNote {} 0).m := by
    rw [Mempool.withNote, ExtTreeMap.mem_insert, LawfulEqCmp.compare_eq_iff_eq]
    rintro (heq | hmem)
    · exact absurd (Prod.mk.inj heq).2 (by decide)
    · simp at hmem
  have hroom : (Mempool.withNote {} 0).m.size < maxPoolTxs := by
    have hle : (Mempool.withNote {} 0).m.size ≤ 0 + 1 := ExtTreeMap.size_insert_le
    exact Nat.lt_of_le_of_lt hle (by decide)
  rw [← oneNote_pool] at hid hkey hroom ⊢
  exact step_noteTx (by rw [oneNote_chain]; rfl) (by rw [oneNote_chain]; rfl) oneNote_run.params_eq (by decide) hroom
    hid hkey

theorem mem_pendingTxs {a : App} {k : PoolKey} {t : Tx} (h : a.pool.m[k]? = some t) (hrecord : t.type = txRecord) :
    t ∈ a.pendingTxs none := by
  refine List.mem_filter.mpr ⟨List.mem_map.mpr ⟨(k, t), ExtTreeMap.mem_toList_iff_getElem?_eq_some.mpr h, rfl⟩, ?_⟩
  simp [listed, hrecord]

theorem twoNotes_pending : (twoNotes.pendingTxs none).length ≤ 2 ∧ noteTx 0 ∈ twoNotes.pendingTxs none ∧
    noteTx 1 ∈ twoNotes.pendingTxs none := by
  have hget (k : PoolKey) : twoNotes.pool.m[k]? = if ((noteTx 0).sender, 1) = k then some (noteTx 1)
      else if ((noteTx 0).sender, 0) = k then some (noteTx 0) else none := by
    rw [twoNotes_pool, Mempool.withNote, OrderedMap.getElem?_insert_eq, Mempool.withNote, OrderedMap.getElem?_insert_eq]
    simp
  refine ⟨?_, ?_, ?_⟩
  · have hsize : twoNotes.pool.m.size ≤ 0 + 1 + 1 := by
      rw [twoNotes_pool]
      exact ExtTreeMap.size_insert_le.trans (Nat.succ_le_succ ExtTreeMap.size_insert_le)
    refine (List.length_filter_le _ _).trans ?_
    rwa [List.length_map, ExtTreeMap.length_toList]
  · exact mem_pendingTxs (k := ((noteTx 0).sender, 0)) (by
      rw [hget, if_neg fun h => absurd (Prod.mk.inj h).2 (by decide), if_pos rfl]) rfl
  · exact mem_pendingTxs (k := ((noteTx 0).sender, 1)) (by rw [hget, if_pos rfl]) rfl

/-- A single pending note is in order. -/
theorem records_newest_first_one_note : FeedInOrder (oneNote.notes 50 none) := by
  have hempty : oneNote.chain.txs.length < 2 ^ 64 := by
    have htxs : easyNode.chain.txs = [] := rfl
    rw [oneNote_chain, htxs]
    exact Nat.two_pow_pos 64
  have hlen : (oneNote.pendingTxs none).length ≤ 1 := by
    have hsize : oneNote.pool.m.size ≤ 0 + 1 := by
      rw [oneNote_pool]
      exact ExtTreeMap.size_insert_le
    refine (List.length_filter_le _ _).trans ?_
    rwa [List.length_map, ExtTreeMap.length_toList]
  refine (records_newest_first_iff oneNote_run hempty none none none rfl).2.mpr ?_
  refine List.pairwise_iff_getElem.mpr fun i j hi hj hij => ?_
  have hshort := (List.length_take_le' (recordsLimit none).toNat (oneNote.pendingTxs none)).trans hlen
  omega

/-- The first note comes before the second. -/
theorem records_oldest_first :
    ¬∀ (p : Params) (a : App) (now : Clock), NodeRun p a now → a.chain.txs.length < 2 ^ 64 →
      ∀ (limit addr : Option String) (only : Option Addr20), recordsOnly addr = some only →
        FeedInOrder (a.notes (recordsLimit limit) only) := by
  intro h
  have hempty : twoNotes.chain.txs.length < 2 ^ 64 := by
    have htxs : easyNode.chain.txs = [] := rfl
    rw [twoNotes_chain, htxs]
    exact Nat.two_pow_pos 64
  have hfeed := h Chain.easyParams twoNotes Chain.easyClock twoNotes_run hempty none none none rfl
  rw [twoNotes_run.feedInOrder_iff hempty] at hfeed
  obtain ⟨hlen, hfirst, hsecond⟩ := twoNotes_pending
  rw [List.take_of_length_le (hlen.trans (by decide))] at hfeed
  have hne : noteTx 0 ≠ noteTx 1 := fun heq => absurd (congrArg Tx.nonce heq) (by decide)
  have hsymm : Std.Symm fun t u : Tx => t.sender ≠ u.sender := ⟨fun _ _ => Ne.symm⟩
  exact hfeed.forall hfirst hsecond hne rfl

end

end Chainlite
