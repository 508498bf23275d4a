import Chainlite.RpcCalls

/-! The wallet of `clctl`: the key file, and `send` and `record`, which ask a node for its network id and for the nonce of
the account, sign the transaction and submit it. The signature comes from the operating system, as a parameter. -/

open Std

namespace Chainlite

/-! ### Keys -/

structure KeyPair where
  pub : Pub64 := zeros 64
  /-- The private blob: a header of 8 bytes, the two halves of `pub`, and the secret. -/
  blob : Bytes := []
  deriving DecidableEq

def blobSize : Nat := 104

def KeyPair.valid (kp : KeyPair) : Bool := kp.blob.length == blobSize

/-- The pair that a blob stands for. -/
def KeyPair.ofBlob (blob : Bytes) : KeyPair := { pub := Reader.toArr 64 (blob.drop 8), blob := blob }

/-- `kp_generate`, for the blob that the operating system exports. -/
def kpGenerate (exported : Option Bytes) : Option KeyPair :=
  match exported with
  | none => none
  | some blob => if blob.length ≠ blobSize then none else some (.ofBlob blob)

def keyMagic : List Char := "chainlite-key-v1\n".toList

/-- What `kp_save` writes. -/
def kpText (kp : KeyPair) : List Char := keyMagic ++ (hexs kp.blob).toList ++ ['\n']

def keyBuffer : Nat := 511

/-- `kp_load`, for what the file holds. -/
def kpRead (content : List Char) : Option KeyPair :=
  let s := content.take keyBuffer
  if keyMagic.isPrefixOf s then
    match unhexChars ((s.drop 17).rdropWhile fun c => c == '\n' || c == '\r' || c == ' ') with
    | none => none
    | some blob => if blob.length ≠ blobSize then none else some (.ofBlob blob)
  else none

/-- `kp_load_or_create`: the pair, and the file after it. `writable` says whether the file can be written. -/
def kpLoadOrCreate (exported : Option Bytes) (writable : Bool) (file : Option (List Char)) :
    Option KeyPair × Option (List Char) :=
  match file.bind kpRead with
  | some kp => (some kp, file)
  | none =>
      match kpGenerate exported with
      | none => (none, file)
      | some kp => if writable then (some kp, some (kpText kp)) else (none, file)

/-- A pair as it is exported and read. -/
def KeyPair.WellFormed (kp : KeyPair) : Prop := kp.blob.length = blobSize ∧ kp = .ofBlob kp.blob

theorem kpGenerate_wellFormed {exported : Option Bytes} {kp : KeyPair} (h : kpGenerate exported = some kp) :
    kp.WellFormed := by
  unfold kpGenerate at h
  split at h
  · cases h
  · split at h
    · cases h
    · rename_i hlen
      obtain rfl := Option.some.inj h
      exact ⟨not_not.mp hlen, rfl⟩

theorem kpRead_wellFormed {content : List Char} {kp : KeyPair} (h : kpRead content = some kp) : kp.WellFormed := by
  unfold kpRead at h
  dsimp only at h
  split at h
  · split at h
    · cases h
    · split at h
      · cases h
      · rename_i hlen
        obtain rfl := Option.some.inj h
        exact ⟨not_not.mp hlen, rfl⟩
  · cases h

/-- The characters that are cut off at the end are no digits. -/
theorem rdropWhile_hexs (bytes : Bytes) :
    ((hexs bytes).toList ++ ['\n']).rdropWhile (fun c => c == '\n' || c == '\r' || c == ' ') = (hexs bytes).toList := by
  rw [List.rdropWhile_concat_pos _ _ _ (by decide), List.rdropWhile_eq_self_iff]
  intro hne
  obtain ⟨hnewline, hreturn, hblank⟩ := plain_of_mem_hexs (List.getLast_mem hne)
  simp [hnewline, hreturn, hblank]

/-- **The key file round-trips.** -/
theorem kpRead_kpText {kp : KeyPair} (h : kp.WellFormed) : kpRead (kpText kp) = some kp := by
  have hmagic : keyMagic.length = 17 := by decide
  have hdigits : (hexs kp.blob).toList.length = 208 := by
    rw [length_hexs, h.1]
    rfl
  have htake : (kpText kp).take keyBuffer = kpText kp := by
    refine List.take_of_length_le ?_
    have hbuffer : keyBuffer = 511 := rfl
    simp only [kpText, List.length_append, hmagic, hdigits, List.length_singleton]
    omega
  have hprefix : keyMagic.isPrefixOf (kpText kp) = true := by
    rw [List.isPrefixOf_iff_prefix, kpText, List.append_assoc]
    exact List.prefix_append _ _
  have hdrop : (kpText kp).drop 17 = (hexs kp.blob).toList ++ ['\n'] := by
    rw [kpText, List.append_assoc, ← hmagic, List.drop_left]
  have hread : unhexChars (hexs kp.blob).toList = some kp.blob := unhex_hexs kp.blob
  unfold kpRead
  dsimp only
  rw [htake, if_pos hprefix, hdrop, rdropWhile_hexs, hread]
  dsimp only
  rw [if_neg (not_not.mpr h.1), ← h.2]

/-- **A key that has been loaded or created is there again**, whatever a later start could export or write. -/
theorem kpLoadOrCreate_again {exported : Option Bytes} {writable : Bool} {file file' : Option (List Char)} {kp : KeyPair}
    (h : kpLoadOrCreate exported writable file = (some kp, file')) :
    kp.valid = true ∧ ∀ exported' writable', kpLoadOrCreate exported' writable' file' = (some kp, file') := by
  have hread : kp.WellFormed ∧ file'.bind kpRead = some kp := by
    unfold kpLoadOrCreate at h
    split at h
    · rename_i hfile
      cases h
      obtain ⟨content, -, hcontent⟩ := Option.bind_eq_some_iff.mp hfile
      exact ⟨kpRead_wellFormed hcontent, hfile⟩
    · split at h
      · cases h
      · rename_i hgenerate
        split at h
        · cases h
          have hwell := kpGenerate_wellFormed hgenerate
          exact ⟨hwell, kpRead_kpText hwell⟩
        · cases h
  obtain ⟨hwell, hfile⟩ := hread
  refine ⟨beq_iff_eq.mpr hwell.1, fun exported' writable' => ?_⟩
  rw [kpLoadOrCreate, hfile]

/-- `kp_sign`, where `cng` signs with a blob. -/
def kpSign (cng : Bytes → H256 → Option Sig64) (kp : KeyPair) (digest : H256) : Option Sig64 :=
  if kp.valid then cng kp.blob digest else none

/-! ### Sending -/

section
variable [Crypto]

/-- The transaction that `build_and_submit` signs. -/
def buildTx (kp : KeyPair) (type : UInt8) (toAddr : Addr20) (amount : UInt64) (payload : Bytes) (netId : UInt32)
    (nonce : UInt64) : Tx :=
  { type := type, netId := netId, fromKey := kp.pub, toAddr := toAddr, amount := amount, nonce := nonce, payload := payload }

/-- `build_and_submit`. -/
def buildAndSubmit (cng : Bytes → H256 → Option Sig64) (host : String) (port : UInt16) (kp : KeyPair) (type : UInt8)
    (toAddr : Addr20) (amount : UInt64) (payload : Bytes) : Client.Prog Call (Int × String) Bool :=
  .ask (statusCall host port) fun st =>
    if st.1 ≠ 200 then .done false
    else
      let netId := UInt32.ofInt (extractJsonInt st.2 "net_id" 0)
      .ask (balanceCall host port (addrOf kp.pub)) fun bal =>
        if bal.1 ≠ 200 then .done false
        else
          let nonce := UInt64.ofInt (extractJsonInt bal.2 "nonce" 0)
          let t := buildTx kp type toAddr amount payload netId nonce
          match kpSign cng kp t.signHash with
          | none => .done false
          | some sig =>
              .ask (submitCall host port (hexs { t with sig := sig }.serialize)) fun resp => .done (resp.1 = 200)

end

end Chainlite
