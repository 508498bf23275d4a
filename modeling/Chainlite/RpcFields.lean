import Chainlite.RpcExchange
import Chainlite.RpcHandler

/-! The fields of the answers. The clients do not parse JSON: they search for the name of a field in quotes. In what the
node writes, the first place is the field, whatever the hashes and the numbers are, so they read what was written. -/

open Std

namespace Chainlite

/-! ### Objects -/

/-- A name of a field. -/
def Name (key : String) : Prop := '"' ∉ key.toList ∧ ':' ∉ key.toList ∧ ',' ∉ key.toList

instance (key : String) : Decidable (Name key) := inferInstanceAs (Decidable (_ ∧ _))

/-- The text of an object with these fields, up to what follows the last. -/
def jsonText (fs : List (String × Text.Value Char)) (rest : List Char) : List Char :=
  Text.fields '"' ':' '{' ',' (fs.map fun f => (f.1.toList, f.2)) rest

/-- A field whose name and value have no quotes in them. -/
def Tidy (f : String × Text.Value Char) : Prop := '"' ∉ f.1.toList ∧ '"' ∉ f.2.inner

theorem after_jsonText {key : String} (hkey : Name key) {before more : List (String × Text.Value Char)}
    (htidy : ∀ f ∈ before, Tidy f) (hother : key ∉ before.map Prod.fst) (value : Text.Value Char) (rest : List Char) :
    Text.after (Text.named '"' ':' key.toList) (jsonText (before ++ (key, value) :: more) rest) =
      some (value.text '"' ++ Text.fields '"' ':' ',' ',' (more.map fun f => (f.1.toList, f.2)) rest) := by
  have hbefore : ∀ f ∈ before.map fun f => (f.1.toList, f.2), '"' ∉ f.1 ∧ f.1 ≠ key.toList ∧ '"' ∉ f.2.inner := by
    intro g hg
    obtain ⟨f, hf, rfl⟩ := List.mem_map.mp hg
    obtain ⟨hname, hvalue⟩ := htidy f hf
    exact ⟨hname, fun heq => hother (List.mem_map.mpr ⟨f, hf, String.toList_inj.mp heq⟩), hvalue⟩
  rw [jsonText, List.map_append, List.map_cons]
  exact Text.after_fields hkey.1 hkey.2.1 (by decide) (by decide) (by decide) hkey.2.2 (by decide) hbefore value rest

theorem head_fields {more : List (List Char × Text.Value Char)} {rest : List Char}
    (hrest : ∀ c ∈ rest.head?, c.isDigit = false) :
    ∀ c ∈ (Text.fields '"' ':' ',' ',' more rest).head?, c.isDigit = false := by
  cases more with
  | nil => exact hrest
  | cons f more =>
      intro c hc
      obtain rfl : ',' = c := Option.some.inj hc
      decide

theorem decimal_append_le (front more : List Char) : decimal front ≤ decimal (front ++ more) := by
  have hshift := @Nat.ofDigitChars_eq_ofDigitChars_zero more (Nat.ofDigitChars 10 front 0)
  have hpow : 1 ≤ 10 ^ more.length := Nat.one_le_pow _ _ (by decide)
  calc Nat.ofDigitChars 10 front 0 ≤ 10 ^ more.length * Nat.ofDigitChars 10 front 0 := Nat.le_mul_of_pos_left _ hpow
    _ ≤ Nat.ofDigitChars 10 (front ++ more) 0 := by
        rw [Nat.ofDigitChars_append, hshift]
        exact Nat.le_add_right _ _

/-- Of a number that breaks off, a smaller one is read. -/
theorem atoN_part_le {w n : Nat} {part rest : List Char} (hrest : ∀ c ∈ rest.head?, c.isDigit = false)
    (hpart : part <+: Nat.toDigits 10 n ++ rest) : 0 ≤ atoN w part ∧ atoN w part ≤ n := by
  have hpow : (1 : Int) ≤ 2 ^ (w - 1) := one_le_pow₀ (by decide)
  have hvalue : decimal (Nat.toDigits 10 n) = n := Nat.ofDigitChars_ten_toDigits
  rcases Nat.le_total part.length (Nat.toDigits 10 n).length with hle | hge
  · obtain ⟨more, hmore⟩ := List.prefix_of_prefix_length_le hpart (List.prefix_append _ _) hle
    have hdigits : ∀ c ∈ part, c.isDigit = true :=
      fun c hc => isDigit_of_mem_toDigits (hmore ▸ List.mem_append_left _ hc)
    have hsmall : decimal part ≤ n := by
      rw [← hvalue, ← hmore]
      exact decimal_append_le part more
    by_cases hne : part = []
    · subst hne
      have hzero : atoN w [] = min (2 ^ (w - 1) - 1) 0 := rfl
      omega
    · have hread : atoN w (part ++ []) = min (2 ^ (w - 1) - 1) (decimal part : Int) :=
        atoN_digits hne hdigits fun c hc => (by cases hc)
      rw [List.append_nil] at hread
      omega
  · obtain ⟨more, hmore⟩ := List.prefix_of_prefix_length_le (List.prefix_append _ _) hpart hge
    have hstop : ∀ c ∈ more.head?, c.isDigit = false := by
      rw [← hmore] at hpart
      obtain ⟨tail, htail⟩ := (List.prefix_append_right_inj _).mp hpart
      intro c hc
      cases more with
      | nil => cases hc
      | cons x more =>
          refine hrest c ?_
          rw [← htail]
          exact hc
    have hread := atoN_digits (w := w) Nat.toDigits_ne_nil (fun c => isDigit_of_mem_toDigits (n := n)) hstop
    rw [hvalue, hmore] at hread
    omega

/-- A text that shows these fields: each has a name of its own. -/
structure Shows (body : String) (fs : List (String × Text.Value Char)) (rest : List Char) : Prop where
  text : body.toList = jsonText fs rest
  tidy : ∀ f ∈ fs, Tidy f
  names : (fs.map Prod.fst).Nodup
  stop : ∀ c ∈ rest.head?, c.isDigit = false

section
variable {body key : String} {fs : List (String × Text.Value Char)} {rest : List Char}

/-- What stands behind the first place of a name is the value of its field. -/
theorem Shows.after (h : Shows body fs rest) (hkey : Name key) {value : Text.Value Char} (hmem : (key, value) ∈ fs) :
    ∃ more, Text.after (Text.named '"' ':' key.toList) body.toList =
      some (value.text '"' ++ Text.fields '"' ':' ',' ',' more rest) := by
  obtain ⟨before, more, rfl⟩ := List.append_of_mem hmem
  have hnames := h.names
  rw [List.map_append, List.map_cons, List.nodup_append] at hnames
  have hother : key ∉ before.map Prod.fst := fun hin => hnames.2.2 key hin key List.mem_cons_self rfl
  rw [h.text]
  exact ⟨_, after_jsonText hkey (fun f hf => h.tidy f (List.mem_append_left _ hf)) hother value rest⟩

/-- **A number is read back.** -/
theorem Shows.int (h : Shows body fs rest) (hkey : Name key) {n : Nat} (hmem : (key, .bare (Nat.toDigits 10 n)) ∈ fs)
    (hn : n < 2 ^ 63) (dflt : Int) : extractJsonInt body key dflt = n := by
  obtain ⟨more, hafter⟩ := h.after hkey hmem
  unfold extractJsonInt
  rw [hafter]
  exact atoN_toDigits (by exact_mod_cast hn) (head_fields h.stop)

/-- **A text is read back.** -/
theorem Shows.str (h : Shows body fs rest) (hkey : Name key) {v : List Char} (hmem : (key, .quoted v) ∈ fs) :
    extractJsonStr body key = String.ofList v := by
  obtain ⟨more, hafter⟩ := h.after hkey hmem
  rw [Text.Value.text, List.cons_append] at hafter
  have hquote : '"' ∉ v := (h.tidy _ hmem).2
  unfold extractJsonStr
  rw [Text.after_extend hafter, List.append_assoc, List.singleton_append]
  dsimp only
  rw [Text.cutFirst_append hquote]

/-- **Of an answer that breaks off**, a smaller number is read, or none. -/
theorem Shows.int_part_le (h : Shows body fs rest) (hkey : Name key) {n : Nat}
    (hmem : (key, .bare (Nat.toDigits 10 n)) ∈ fs) {part : String} (hpart : part.toList <+: body.toList) :
    0 ≤ extractJsonInt part key 0 ∧ extractJsonInt part key 0 ≤ n := by
  unfold extractJsonInt
  cases hafter : Text.after (Text.named '"' ':' key.toList) part.toList with
  | none => exact ⟨le_rfl, Int.natCast_nonneg n⟩
  | some got =>
      obtain ⟨whole, hwhole, hgot⟩ := Text.after_of_part hpart hafter
      obtain ⟨more, hfound⟩ := h.after hkey hmem
      rw [hfound] at hwhole
      obtain rfl := Option.some.inj hwhole
      exact atoN_part_le (head_fields h.stop) hgot

/-- **Of an answer that breaks off**, the whole text is read, or none. -/
theorem Shows.str_part (h : Shows body fs rest) (hkey : Name key) {value : List Char}
    (hmem : (key, .quoted value) ∈ fs) {part : String} (hpart : part.toList <+: body.toList) :
    extractJsonStr part key = "" ∨ extractJsonStr part key = String.ofList value := by
  obtain ⟨more, hfound⟩ := h.after hkey hmem
  rw [Text.Value.text, List.cons_append] at hfound
  have hwhole := Text.after_extend hfound
  rw [List.append_assoc, List.singleton_append] at hwhole
  unfold extractJsonStr
  cases hafter : Text.after (Text.named '"' ':' key.toList ++ ['"']) part.toList with
  | none => exact Or.inl rfl
  | some got =>
      obtain ⟨got', hgot', hprefix⟩ := Text.after_of_part hpart hafter
      rw [hwhole] at hgot'
      obtain rfl := Option.some.inj hgot'
      dsimp only
      rcases hcut : Text.cutFirst '"' got with - | ⟨front, back⟩
      · exact Or.inl rfl
      · right
        obtain ⟨rfl, hfront⟩ := Text.cutFirst_eq_some hcut
        obtain ⟨tail, htail⟩ := hprefix
        have hquote : '"' ∉ value := (h.tidy _ hmem).2
        have hsame := congrArg (Text.cutFirst '"') htail
        rw [List.append_assoc, List.cons_append, Text.cutFirst_append hfront, Text.cutFirst_append hquote] at hsame
        injection hsame with hsame
        injection hsame with hsame
        exact congrArg String.ofList hsame

end

/-! ### Values -/

theorem quote_not_mem_digits (n : Nat) : '"' ∉ Nat.toDigits 10 n :=
  not_mem_of_isDigit (fun c => isDigit_of_mem_toDigits) (by decide)

/-- A character that is no hexadecimal digit is not in hexadecimal text. -/
theorem not_mem_hexs {c : Char} (hc : ∀ n < 16, hexDigit n ≠ c) (bytes : Bytes) : c ∉ (hexs bytes).toList := by
  rw [hexs, String.toList_ofList]
  intro hmem
  obtain ⟨byte, -, hmem⟩ := List.mem_flatMap.mp hmem
  rcases List.mem_cons.mp hmem with heq | hmem
  · exact hc _ (high_digit_lt byte) heq.symm
  · exact hc _ (low_digit_lt byte) (List.mem_singleton.mp hmem).symm

theorem ofInt64_natCast (n : Nat) : UInt64.ofInt n = UInt64.ofNat n := by
  rw [UInt64.ofInt, ← UInt64.toNat_inj, UInt64.toNat_ofNat', UInt64.toNat_ofNat']
  omega

theorem ofInt32_natCast (n : Nat) : UInt32.ofInt n = UInt32.ofNat n := by
  rw [UInt32.ofInt, ← UInt32.toNat_inj, UInt32.toNat_ofNat', UInt32.toNat_ofNat']
  omega

theorem quote_not_mem_hexs (bytes : Bytes) : '"' ∉ (hexs bytes).toList := not_mem_hexs (by decide) bytes

/-! ### The answers -/

def statusFields (a : App) : List (String × Text.Value Char) :=
  [("height", .bare (Nat.toDigits 10 a.chain.height.toNat)), ("tip", .quoted (hexs a.chain.tipHash.toList).toList),
    ("work", .bare (Nat.toDigits 10 a.chain.work.toNat)), ("peers", .bare (Nat.toDigits 10 a.p2p.readyCount)),
    ("mempool", .bare (Nat.toDigits 10 a.pool.size)), ("mining", .bare (if a.mineOn then "true" else "false").toList),
    ("miner_addr", .quoted (hexs a.minerAddr.toList).toList), ("net_id", .bare (Nat.toDigits 10 a.params.netId.toNat)),
    ("bits", .bare (Nat.toDigits 10 a.params.bits.toNat)), ("reward", .bare (Nat.toDigits 10 a.params.reward.toNat))]

theorem status_shows (a : App) : Shows a.status.body (statusFields a) ['}'] where
  text := by
    unfold App.status statusFields
    simp only [String.toList_append, toList_toString_uint64, toList_toString_uint32, toList_toString_nat]
    simp [jsonText, Text.fields, Text.named, Text.Value.text]
  tidy := by
    have hmining : '"' ∉ (if a.mineOn then "true" else "false").toList := by split <;> decide
    simp [statusFields, Tidy, Text.Value.inner, quote_not_mem_digits, quote_not_mem_hexs, hmining]
  names := by simp [statusFields]
  stop := by simp

def balanceFields (addr : Addr20) (acct : Account) : List (String × Text.Value Char) :=
  [("addr", .quoted (hexs addr.toList).toList), ("balance", .bare (Nat.toDigits 10 acct.balance.toNat)),
    ("nonce", .bare (Nat.toDigits 10 acct.nonce.toNat))]

theorem balance_shows (addr : Addr20) (acct : Account) :
    Shows (App.balanceJson addr acct) (balanceFields addr acct) ['}'] where
  text := by
    unfold App.balanceJson balanceFields
    simp only [String.toList_append, toList_toString_uint64]
    simp [jsonText, Text.fields, Text.named, Text.Value.text]
  tidy := by
    simp [balanceFields, Tidy, Text.Value.inner, quote_not_mem_digits, quote_not_mem_hexs]
  names := by simp [balanceFields]
  stop := by simp

/-- The text of `/work` for the template `b` on the tip `tip`. -/
def workJson (b : Block) (tip : H256) : String :=
  "\x7b\"header\":\"" ++ hexs b.h.serialize ++ "\",\"bits\":" ++ toString b.h.bits ++ ",\"height\":" ++
    toString b.h.height ++ ",\"tip\":\"" ++ hexs tip.toList ++ "\",\"ntx\":" ++ toString b.txs.length ++ "\x7d"

def workFields (b : Block) (tip : H256) : List (String × Text.Value Char) :=
  [("header", .quoted (hexs b.h.serialize).toList), ("bits", .bare (Nat.toDigits 10 b.h.bits.toNat)),
    ("height", .bare (Nat.toDigits 10 b.h.height.toNat)), ("tip", .quoted (hexs tip.toList).toList),
    ("ntx", .bare (Nat.toDigits 10 b.txs.length))]

theorem work_shows (b : Block) (tip : H256) : Shows (workJson b tip) (workFields b tip) ['}'] where
  text := by
    unfold workJson workFields
    simp only [String.toList_append, toList_toString_uint64, toList_toString_uint32, toList_toString_nat]
    simp [jsonText, Text.fields, Text.named, Text.Value.text]
  tidy := by
    simp [workFields, Tidy, Text.Value.inner, quote_not_mem_digits, quote_not_mem_hexs]
  names := by simp [workFields]
  stop := by simp

section
variable [Crypto]

theorem App.workFor_resp (r : Readings) (a : App) (payto : Addr20) :
    (a.workFor r payto).2 = ⟨200, "application/json", workJson (a.workBlock r payto) a.chain.tipHash⟩ := rfl

def blockFields (b : Block) : List (String × Text.Value Char) :=
  [("height", .bare (Nat.toDigits 10 b.h.height.toNat)), ("hash", .quoted (hexs b.h.hash.toList).toList),
    ("prev", .quoted (hexs b.h.prev.toList).toList), ("merkle", .quoted (hexs b.h.merkle.toList).toList),
    ("time", .bare (Nat.toDigits 10 b.h.time.toNat)), ("bits", .bare (Nat.toDigits 10 b.h.bits.toNat)),
    ("nonce", .bare (Nat.toDigits 10 b.h.nonce.toNat)), ("ntx", .bare (Nat.toDigits 10 b.txs.length))]

/-- The list of ids comes last. -/
theorem block_shows (b : Block) : Shows (blockJson b) (blockFields b) (",\"txids\":[".toList ++
    (String.intercalate "," (b.txids.map fun id => "\"" ++ hexs id.toList ++ "\"")).toList ++ "]\x7d".toList) where
  text := by
    unfold blockJson blockFields
    simp only [String.toList_append, toList_toString_uint64, toList_toString_uint32, toList_toString_nat]
    simp [jsonText, Text.fields, Text.named, Text.Value.text]
  tidy := by
    simp [blockFields, Tidy, Text.Value.inner, quote_not_mem_digits, quote_not_mem_hexs]
  names := by simp [blockFields]
  stop := by simp

end

/-! ### What the wallet reads -/

/-- The network id is read from the status. -/
theorem status_netId (a : App) : UInt32.ofInt (extractJsonInt a.status.body "net_id" 0) = a.params.netId := by
  have hmem : ("net_id", .bare (Nat.toDigits 10 a.params.netId.toNat)) ∈ statusFields a := by simp [statusFields]
  rw [(status_shows a).int (by decide) hmem (Nat.lt_trans a.params.netId.toNat_lt (by decide)), ofInt32_natCast,
    UInt32.ofNat_toNat]

theorem nonce_mem_balanceFields (addr : Addr20) (acct : Account) :
    ("nonce", .bare (Nat.toDigits 10 acct.nonce.toNat)) ∈ balanceFields addr acct := by
  simp [balanceFields]

/-- The nonce is read from an answer to `/balance`. -/
theorem balance_nonce {addr : Addr20} {acct : Account} (h : acct.nonce.toNat < 2 ^ 63) :
    UInt64.ofInt (extractJsonInt (App.balanceJson addr acct) "nonce" 0) = acct.nonce := by
  rw [(balance_shows addr acct).int (by decide) (nonce_mem_balanceFields addr acct) h, ofInt64_natCast,
    UInt64.ofNat_toNat]

/-- Of an answer that breaks off, at most that nonce is read. -/
theorem balance_nonce_le {addr : Addr20} {acct : Account} {answer : String}
    (h : answer.toList <+: (App.balanceJson addr acct).toList) :
    UInt64.ofInt (extractJsonInt answer "nonce" 0) ≤ acct.nonce := by
  obtain ⟨hnonneg, hle⟩ := (balance_shows addr acct).int_part_le (by decide) (nonce_mem_balanceFields addr acct) h
  obtain ⟨n, hn⟩ := Int.eq_ofNat_of_zero_le hnonneg
  rw [hn] at hle ⊢
  have hlt := acct.nonce.toNat_lt
  rw [ofInt64_natCast, UInt64.le_iff_toNat_le, UInt64.toNat_ofNat', Nat.mod_eq_of_lt (by omega)]
  omega

end Chainlite
