import Chainlite.BaseScript
import Chainlite.BlockCodec
import Chainlite.Sha256Standard

/-! Transactions built in the browser. `viewer.html` writes the fields with its own loops over numbers and over integers
of any size; what it signs and sends are the bytes that the node writes for the same fields. -/

namespace Chainlite

namespace Viewer

open Script (band shr ushr element bytesLoop)

/-- `o.set(a, p)`. -/
def setAt (o : Bytes) (a : Bytes) (p : Nat) : Bytes := o.take p ++ a ++ o.drop (p + a.length)

/-- The byte arrays one after another, each set at its place in an array of their total length. -/
def cat (arrs : List Bytes) : Bytes :=
  let n := arrs.foldl (fun n a => n + a.length) 0
  (arrs.foldl (fun s a => (setAt s.1 a s.2, s.2 + a.length)) (List.replicate n 0, 0)).1

def u16le (n : Int) : Bytes := [element (band n 0xff), element (band (shr n 8) 0xff)]

def u32le (n : Int) : Bytes := bytesLoop (fun v => band v 0xff) (fun v => ushr v 8) 4 (ushr n 0)

/-- The loop over a `BigInt`. -/
def u64le (n : Int) : Bytes := bytesLoop (fun v => Int.land v 0xff) (fun v => v >>> 8) 8 n

def buildTxNoSig (type netid : Int) (from64 to20 : Bytes) (amount nonce : Int) (payload : Bytes) : Bytes :=
  cat [[element type], u32le netid, from64, to20, u64le amount, u64le nonce, u16le payload.length, payload]

/-- `crypto.subtle.digest("SHA-256", b)`. -/
def sha256 (b : Bytes) : Bytes := Sha.digest b

def sha256d (b : Bytes) : Bytes := sha256 (sha256 b)

/-- What `signNoSig` has signed: the browser hashes the message `M = sha256(noSig)` once more. -/
def signedDigest (noSig : Bytes) : Bytes := sha256 (sha256 noSig)

/-! ### The bytes -/

theorem u16le_eq {n : Nat} (h : n < 2 ^ 16) : u16le n = Writer.u16 (UInt16.ofNat n) := by
  have hhigh : shr n 8 = (n >>> 8 : Nat) := Script.shr_natCast (by omega) 8
  have htwo : Wire.leBytes 2 n = [UInt8.ofNat n, UInt8.ofNat (n >>> 8)] := rfl
  rw [u16le, hhigh, Script.element_band, Script.element_band, Writer.u16, UInt16.toNat_ofNat_of_lt' h, htwo]

theorem u32le_eq {n : Nat} (h : n < 2 ^ 32) : u32le n = Writer.u32 (UInt32.ofNat n) := by
  rw [u32le, Script.ushr_natCast h, Nat.shiftRight_zero, Writer.u32, UInt32.toNat_ofNat_of_lt' h]
  exact Script.bytesLoop_eq (fun n _ => Script.element_band n) (fun n hn => Script.ushr_natCast hn 8) h 4

theorem u64le_eq {n : Nat} (h : n < 2 ^ 64) : u64le n = Writer.u64 (UInt64.ofNat n) := by
  rw [u64le, Writer.u64, UInt64.toNat_ofNat_of_lt' h]
  exact Script.bytesLoop_eq (fun n _ => Script.element_land n) (fun n _ => rfl) h 8

theorem foldl_length (arrs : List Bytes) (n : Nat) :
    arrs.foldl (fun n a => n + a.length) n = n + arrs.flatten.length := by
  induction arrs generalizing n with
  | nil => rfl
  | cons a arrs ih => rw [List.foldl_cons, ih, List.flatten_cons, List.length_append, Nat.add_assoc]

/-- Each array lands behind those before it. -/
theorem foldl_setAt (arrs : List Bytes) (front : Bytes) :
    (arrs.foldl (fun s a => (setAt s.1 a s.2, s.2 + a.length))
      (front ++ List.replicate arrs.flatten.length 0, front.length)).1 = front ++ arrs.flatten := by
  induction arrs generalizing front with
  | nil => rfl
  | cons a arrs ih =>
      have hset : setAt (front ++ List.replicate (a :: arrs).flatten.length 0) a front.length =
          front ++ a ++ List.replicate arrs.flatten.length 0 := by
        rw [setAt, List.take_left, List.flatten_cons, List.length_append, List.replicate_add, ← List.append_assoc,
          List.drop_left' (by simp)]
      rw [List.foldl_cons, hset, ← List.length_append, ih, List.flatten_cons, List.append_assoc]

theorem cat_eq (arrs : List Bytes) : cat arrs = arrs.flatten := by
  have hlen : arrs.foldl (fun n a => n + a.length) 0 = arrs.flatten.length := by rw [foldl_length, Nat.zero_add]
  have hset := foldl_setAt arrs []
  rw [cat, hlen]
  exact hset

/-- **The unsigned bytes are those of the node.** -/
theorem buildTxNoSig_eq (t : Tx) (hpayload : t.payload.length < 2 ^ 16) :
    buildTxNoSig t.type.toNat t.netId.toNat t.fromKey.toList t.toAddr.toList t.amount.toNat t.nonce.toNat t.payload =
      t.ser false := by
  rw [buildTxNoSig, cat_eq, Script.element_natCast, u32le_eq t.netId.toNat_lt, u64le_eq t.amount.toNat_lt,
    u64le_eq t.nonce.toNat_lt, u16le_eq hpayload, UInt8.ofNat_toNat, UInt32.ofNat_toNat, UInt64.ofNat_toNat,
    UInt64.ofNat_toNat]
  simp [Tx.ser, Writer.u8, Writer.arr]

/-- The browser's double hash is the node's. -/
theorem sha256d_eq {b : Bytes} (h : b.length < 2 ^ 61) : sha256d b = (Sha.sha256d b).toList := by
  have hinner : (Sha.sha256 b).toList.length < 2 ^ 61 := by rw [Vector.length_toList]; decide
  rw [sha256d, sha256, sha256, ← Sha.sha256_eq_digest h, ← Sha.sha256_eq_digest hinner, Sha.sha256d]

theorem ser_true (t : Tx) : t.ser true = t.ser false ++ t.sig.toList := by
  simp [Tx.ser, Writer.arr]

end Viewer

/-- **Browser and node encode transactions identically.** For fields within the range of the browser's numbers the
unsigned bytes are those of the node, they parse with the signature as exactly these fields, and the id and the digest
that is signed are the node's. -/
theorem viewer_encodes_as_node (verify : Pub64 → H256 → Sig64 → Bool) (type : UInt8) (netid : Nat) (from64 : Pub64)
    (to20 : Addr20) (amount nonce : Nat) (payload : Bytes) (sig : Sig64) (hnetid : netid < 2 ^ 32)
    (hamount : amount < 2 ^ 53) (hnonce : nonce < 2 ^ 53) (hpayload : payload.length ≤ 1024) :
    letI := Sha.crypto verify
    let noSig := Viewer.buildTxNoSig type.toNat netid from64.toList to20.toList amount nonce payload
    let full := Viewer.cat [noSig, sig.toList]
    ∃ t : Tx, t.type = type ∧ t.netId.toNat = netid ∧ t.fromKey = from64 ∧ t.toAddr = to20 ∧ t.amount.toNat = amount ∧
      t.nonce.toNat = nonce ∧ t.payload = payload ∧ t.sig = sig ∧ noSig = t.ser false ∧
      Tx.parse full = .ok (t, []) ∧ Viewer.sha256d full = t.txid.toList ∧
      Viewer.signedDigest noSig = t.signHash.toList := by
  let _ := Sha.crypto verify
  set t : Tx := { type := type, netId := UInt32.ofNat netid, fromKey := from64, toAddr := to20,
                  amount := UInt64.ofNat amount, nonce := UInt64.ofNat nonce, payload := payload, sig := sig } with ht
  have hnetid' : t.netId.toNat = netid := UInt32.toNat_ofNat_of_lt' hnetid
  have hamount' : t.amount.toNat = amount := UInt64.toNat_ofNat_of_lt' (hamount.trans (by decide))
  have hnonce' : t.nonce.toNat = nonce := UInt64.toNat_ofNat_of_lt' (hnonce.trans (by decide))
  have hfits : t.Fits := hpayload
  have hbytes := Viewer.buildTxNoSig_eq t (Nat.lt_of_le_of_lt hpayload (by decide))
  rw [hnetid', hamount', hnonce'] at hbytes
  have hfull : Viewer.cat [t.ser false, sig.toList] = t.serialize := by
    rw [Viewer.cat_eq, Tx.serialize, Viewer.ser_true]
    simp [ht]
  have hlong : t.serialize.length < 2 ^ 61 := by
    rw [t.length_serialize]
    exact Nat.lt_of_le_of_lt (Nat.add_le_add_left hpayload 171) (by decide)
  have hshort : (t.ser false).length < 2 ^ 61 := by
    refine Nat.lt_of_le_of_lt ?_ hlong
    rw [Tx.serialize, Viewer.ser_true, List.length_append]
    exact Nat.le_add_right _ _
  refine ⟨t, rfl, hnetid', rfl, rfl, hamount', hnonce', rfl, rfl, hbytes, ?_, ?_, ?_⟩
  · rw [hbytes, hfull]
    exact Tx.parse_eq_iff.mpr ⟨hfits, rfl⟩
  · rw [hbytes, hfull, Viewer.sha256d_eq hlong]
    rfl
  · rw [hbytes]
    exact Viewer.sha256d_eq hshort

/-- A transfer of 5 coins with the nonce 3. -/
theorem viewer_encodes_as_node_transfer :
    letI := Sha.crypto fun _ _ _ => false
    let noSig := Viewer.buildTxNoSig (1 : UInt8).toNat (7 : Nat) (zeros 64).toList (zeros 20).toList (5 : Nat) (3 : Nat) []
    ∃ t : Tx, t.amount.toNat = 5 ∧ noSig = t.ser false ∧
      Tx.parse (Viewer.cat [noSig, (zeros 64).toList]) = .ok (t, []) := by
  obtain ⟨t, -, -, -, -, hamount, -, -, -, hbytes, hparse, -⟩ := viewer_encodes_as_node (fun _ _ _ => false) 1 7 (zeros 64)
    (zeros 20) 5 3 [] (zeros 64) (by decide) (by decide) (by decide) (by decide)
  exact ⟨t, hamount, hbytes, hparse⟩

end Chainlite
