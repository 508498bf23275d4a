import Chainlite.BaseHashTree
import Chainlite.Sha256

/-! Transactions, block headers and blocks, with their wire format and their hashes, and the
Merkle root over the transactions of a block. Everything a block accepted by a node can hold reads
back from its bytes, so the bytes that are hashed determine the value. -/

namespace Chainlite

/-- Consensus parameters. -/
structure Params where
  netId : UInt32 := 0x4C495445
  bits : UInt32 := 20
  reward : UInt64 := 50
  genesisTime : UInt64 := 1753000000
  deriving DecidableEq, Repr

def clVersion : UInt32 := 1
def maxPayload : Nat := 1024
def maxBlockTxs : Nat := 5000
def maxTimeSkew : UInt64 := 7200

def txCoinbase : UInt8 := 0
def txTransfer : UInt8 := 1
def txRecord : UInt8 := 2

structure Tx where
  type : UInt8 := txTransfer
  netId : UInt32 := 0
  /-- Sender public key, zeros for a coinbase. -/
  fromKey : Pub64 := zeros 64
  toAddr : Addr20 := zeros 20
  amount : UInt64 := 0
  /-- The sender's transaction counter; for a coinbase the block height. -/
  nonce : UInt64 := 0
  payload : Bytes := []
  sig : Sig64 := zeros 64
  deriving DecidableEq

namespace Tx

open Writer Wire
open Reader (Read blob u8_reads u16_reads u32_reads u64_reads arr_reads blob_reads)

def ser (t : Tx) (withSig : Bool) : Bytes :=
  u8 t.type ++ u32 t.netId ++ arr t.fromKey ++ arr t.toAddr ++ u64 t.amount ++ u64 t.nonce ++
    u16 (UInt16.ofNat t.payload.length) ++ t.payload ++ if withSig then arr t.sig else []

def serialize (t : Tx) : Bytes := t.ser true

section
variable [Crypto]

def signHash (t : Tx) : H256 := sha256d (t.ser false)
def txid (t : Tx) : H256 := sha256d (t.ser true)

end

def parse : Read Tx := do
  let type ← Reader.u8
  let netId ← Reader.u32
  let fromKey ← Reader.arr 64
  let toAddr ← Reader.arr 20
  let amount ← Reader.u64
  let nonce ← Reader.u64
  let pl ← Reader.u16
  if maxPayload < pl.toNat then fail .payloadTooBig
  else do
    let payload ← blob pl.toNat
    let sig ← Reader.arr 64
    return { type, netId, fromKey, toAddr, amount, nonce, payload, sig }

/-- The payload is within the limit that the parser enforces. -/
def Fits (t : Tx) : Prop := t.payload.length ≤ maxPayload

theorem parse_reads {t : Tx} (ht : t.Fits) : Reads parse t.serialize t := by
  have hlen : (UInt16.ofNat t.payload.length).toNat = t.payload.length := by
    rw [UInt16.toNat_ofNat']
    exact Nat.mod_eq_of_lt (Nat.lt_of_le_of_lt ht (by decide))
  have hout : t.serialize = u8 t.type ++ (u32 t.netId ++ (arr t.fromKey ++ (arr t.toAddr ++
      (u64 t.amount ++ (u64 t.nonce ++ (u16 (UInt16.ofNat t.payload.length) ++
      (t.payload ++ arr t.sig))))))) := by
    simp [serialize, ser]
  rw [hout]
  refine (u8_reads _).bind ((u32_reads _).bind ((arr_reads _).bind ((arr_reads _).bind
    ((u64_reads _).bind ((u64_reads _).bind ((u16_reads _).bind ?_))))))
  rw [hlen, if_neg (Nat.not_lt.mpr ht)]
  exact (blob_reads _).bind ((arr_reads _).map _)

theorem serialize_injective {t u : Tx} (ht : t.Fits) (hu : u.Fits)
    (h : t.serialize = u.serialize) : t = u :=
  (parse_reads ht).injective (h ▸ parse_reads hu)

theorem length_serialize (t : Tx) : t.serialize.length = 171 + t.payload.length := by
  simp [serialize, ser]
  omega

end Tx

/-! ### Headers -/

structure BlockHeader where
  version : UInt32 := clVersion
  netId : UInt32 := 0
  prev : H256 := zeros 32
  merkle : H256 := zeros 32
  height : UInt64 := 0
  time : UInt64 := 0
  bits : UInt32 := 0
  nonce : UInt64 := 0
  deriving DecidableEq

def headerSize : Nat := 100
def nonceOffset : Nat := 92

namespace BlockHeader

open Writer Wire
open Reader (Read blob u8_reads u16_reads u32_reads u64_reads arr_reads blob_reads)

def serialize (h : BlockHeader) : Bytes :=
  u32 h.version ++ u32 h.netId ++ arr h.prev ++ arr h.merkle ++ u64 h.height ++ u64 h.time ++
    u32 h.bits ++ u64 h.nonce

def hash [Crypto] (h : BlockHeader) : H256 := sha256d h.serialize

def parse : Read BlockHeader := do
  let version ← Reader.u32
  let netId ← Reader.u32
  let prev ← Reader.arr 32
  let merkle ← Reader.arr 32
  let height ← Reader.u64
  let time ← Reader.u64
  let bits ← Reader.u32
  let nonce ← Reader.u64
  return { version, netId, prev, merkle, height, time, bits, nonce }

theorem parse_reads (h : BlockHeader) : Reads parse h.serialize h := by
  have hout : h.serialize = u32 h.version ++ (u32 h.netId ++ (arr h.prev ++ (arr h.merkle ++
      (u64 h.height ++ (u64 h.time ++ (u32 h.bits ++ u64 h.nonce)))))) := by
    simp [serialize]
  rw [hout]
  exact (u32_reads _).bind ((u32_reads _).bind ((arr_reads _).bind ((arr_reads _).bind
    ((u64_reads _).bind ((u64_reads _).bind ((u32_reads _).bind ((u64_reads _).map _)))))))

theorem serialize_injective {g h : BlockHeader} (heq : g.serialize = h.serialize) : g = h :=
  (parse_reads g).injective (heq ▸ parse_reads h)

theorem length_serialize (h : BlockHeader) : h.serialize.length = headerSize := by
  simp [serialize, headerSize]

end BlockHeader

/-! ### Blocks -/

structure Block where
  h : BlockHeader := {}
  txs : List Tx := []
  deriving DecidableEq

namespace Block

open Writer Wire
open Reader (Read blob u8_reads u16_reads u32_reads u64_reads arr_reads blob_reads)

def serialize (b : Block) : Bytes :=
  b.h.serialize ++ u32 (UInt32.ofNat b.txs.length) ++ b.txs.flatMap Tx.serialize

/-- The reader inside `parse`: header, count, then the transactions. -/
def parseBody : Read (Option Block) := do
  let h ← BlockHeader.parse
  let n ← Reader.u32
  if maxBlockTxs < n.toNat then return none
  else do
    let txs ← many Tx.parse n.toNat
    return some { h, txs }

/-- The whole input is one block, or nothing. -/
def parse (raw : Bytes) : Option Block :=
  match parseBody raw with
  | .ok (some b, []) => some b
  | _ => none

/-- The limits the parser enforces on a block. -/
structure Fits (b : Block) : Prop where
  count : b.txs.length ≤ maxBlockTxs
  payloads : ∀ t ∈ b.txs, t.Fits

theorem parseBody_reads {b : Block} (hb : b.Fits) : Reads parseBody b.serialize (some b) := by
  have hlen : (UInt32.ofNat b.txs.length).toNat = b.txs.length := by
    rw [UInt32.toNat_ofNat']
    exact Nat.mod_eq_of_lt (Nat.lt_of_le_of_lt hb.count (by decide))
  rw [serialize, List.append_assoc]
  refine (BlockHeader.parse_reads _).bind ((u32_reads _).bind ?_)
  rw [hlen, if_neg (Nat.not_lt.mpr hb.count)]
  exact (many_reads _ fun t ht => Tx.parse_reads (hb.payloads t ht)).map _

/-- A block within the limits reads back from its bytes. -/
theorem parse_serialize {b : Block} (hb : b.Fits) : parse b.serialize = some b := by
  have h := parseBody_reads hb []
  rw [List.append_nil] at h
  rw [parse, h]

theorem length_serialize (b : Block) :
    b.serialize.length = 104 + (b.txs.map fun t => 171 + t.payload.length).sum := by
  rw [serialize, List.length_append, List.length_append, BlockHeader.length_serialize, length_u32,
    List.length_flatMap]
  simp only [Tx.length_serialize, headerSize]

end Block

/-! ### Merkle root -/

/-- The 64 bytes hashed for the parent of two nodes. -/
def parentBuffer (l r : H256) : Bytes := l.toList ++ r.toList

theorem length_parentBuffer (l r : H256) : (parentBuffer l r).length = 64 := by
  simp [parentBuffer]

theorem parentBuffer_injective {l r l' r' : H256} (h : parentBuffer l r = parentBuffer l' r') :
    l = l' ∧ r = r' := by
  obtain ⟨hl, hr⟩ := List.append_inj h (by simp)
  exact ⟨Vector.toList_inj.mp hl, Vector.toList_inj.mp hr⟩

variable [Crypto]

def merkleParent (l r : H256) : H256 := sha256d (parentBuffer l r)

/-- The root over a level of hashes; an odd level repeats its last node, no leaf gives zeros. -/
def merkleRoot (level : List H256) : H256 := HashTree.root merkleParent (zeros 32) level

/-- The buffers hashed by `merkleRoot`. -/
def merkleBuffers (level : List H256) : List Bytes :=
  (HashTree.nodes merkleParent level).map fun pair => parentBuffer pair.1 pair.2

def Block.txids (b : Block) : List H256 := b.txs.map Tx.txid

/-- Every byte string hashed for a block: its header, its transactions and its Merkle nodes. -/
def Block.hashed (b : Block) : List Bytes :=
  b.h.serialize :: b.txs.map Tx.serialize ++ merkleBuffers b.txids

end Chainlite
