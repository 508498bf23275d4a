import Chainlite.ProofFields
import Chainlite.ViewerVerify

/-! The lines of a proof in the browser. Its reader looks for the same words as `clctl` on the same lines, but it trims a
line on both sides and keeps whatever stands behind the word; of each value it keeps the last. -/

namespace Chainlite

open Script (trim splitLines splitBlanks parseInt)

/-! ### The browser's reader by kinds -/

namespace LineKind

/-- The kinds that the browser knows, in the order in which it tries them. -/
def viewed : List LineKind := [txid, height, index, blockhash, header, sibling]

theorem mem_viewed {kind : LineKind} (h : kind ∈ known) : kind ∈ viewed := by
  revert kind
  decide

theorem needed_subset {kind : LineKind} (h : kind ∈ needed) : kind ∈ known := by
  revert kind
  decide

/-- No line begins with two words. -/
theorem isPrefixOf_word_ne {kind kind' : LineKind} (hkind : kind ∈ viewed) (hne : kind ≠ kind') (body : List Char) :
    kind.word.isPrefixOf (kind'.word ++ body) = false := by
  cases kind with
  | title => exact absurd hkind (by decide)
  | last => exact absurd hkind (by decide)
  | txid => cases kind' <;> first | rfl | exact absurd rfl hne
  | height => cases kind' <;> first | rfl | exact absurd rfl hne
  | index => cases kind' <;> first | rfl | exact absurd rfl hne
  | blockhash => cases kind' <;> first | rfl | exact absurd rfl hne
  | header => cases kind' <;> first | rfl | exact absurd rfl hne
  | sibling => cases kind' <;> first | rfl | exact absurd rfl hne

end LineKind

namespace Viewer

/-- The kind of a trimmed line, with what stands behind the word. -/
def viewOf (ln : List Char) : Option (LineKind × List Char) :=
  (LineKind.viewed.find? fun kind => kind.word.isPrefixOf ln).map fun kind => (kind, ln.drop kind.word.length)

theorem viewOf_word {kind : LineKind} (hkind : kind ∈ LineKind.viewed) (body : List Char) :
    viewOf (kind.word ++ body) = some (kind, body) := by
  cases kind with
  | title => exact absurd hkind (by decide)
  | last => exact absurd hkind (by decide)
  | txid => rfl
  | height => rfl
  | index => rfl
  | blockhash => rfl
  | header => rfl
  | sibling => rfl

theorem of_viewOf {ln body : List Char} {kind : LineKind} (h : viewOf ln = some (kind, body)) :
    kind ∈ LineKind.viewed ∧ ln = kind.word ++ body := by
  obtain ⟨kind', hfind, heq⟩ := Option.map_eq_some_iff.mp h
  obtain ⟨rfl, rfl⟩ := Prod.mk.inj heq
  refine ⟨List.mem_of_find?_eq_some hfind, ?_⟩
  have hword := List.find?_some hfind
  obtain ⟨rest, rfl⟩ := List.isPrefixOf_iff_prefix.mp hword
  rw [List.drop_left]

/-- The sibling on a line. -/
def stepOf (body : List Char) : Bool × Option (List Char) :=
  let p := splitBlanks (LineKind.sibling.word ++ body)
  (p[1]? == some ['L'], p[2]?)

def put (f : ProofForm) (view : LineKind × List Char) : ProofForm :=
  match view.1 with
  | .txid => { f with txid := some view.2 }
  | .height => { f with height := parseInt false view.2 }
  | .index => { f with index := parseInt false view.2 }
  | .blockhash => { f with blockhash := some view.2 }
  | .header => { f with header := some view.2 }
  | .sibling => { f with steps := f.steps ++ [stepOf view.2] }
  | .title | .last => f

/-- The reader keeps what the line holds. -/
theorem readLn_eq (f : ProofForm) (ln : List Char) : readLn f ln = (viewOf ln).elim f (put f) := by
  cases hview : viewOf ln with
  | some view =>
      obtain ⟨kind, body⟩ := view
      obtain ⟨hkind, rfl⟩ := of_viewOf hview
      cases kind with
      | title => exact absurd hkind (by decide)
      | last => exact absurd hkind (by decide)
      | txid => rfl
      | height => rfl
      | index => rfl
      | blockhash => rfl
      | header => rfl
      | sibling => rfl
  | none =>
      have hnone := List.find?_eq_none.mp (Option.map_eq_none_iff.mp hview)
      have htxid : ¬"txid ".toList.isPrefixOf ln = true := hnone .txid (by decide)
      have hheight : ¬"height ".toList.isPrefixOf ln = true := hnone .height (by decide)
      have hindex : ¬"index ".toList.isPrefixOf ln = true := hnone .index (by decide)
      have hhash : ¬"blockhash ".toList.isPrefixOf ln = true := hnone .blockhash (by decide)
      have hheader : ¬"header ".toList.isPrefixOf ln = true := hnone .header (by decide)
      have hsibling : ¬"sibling ".toList.isPrefixOf ln = true := hnone .sibling (by decide)
      unfold readLn
      rw [if_neg htxid, if_neg hheight, if_neg hindex, if_neg hhash, if_neg hheader, if_neg hsibling]
      rfl

/-- What a line of a text holds. -/
def view (line : List Char) : Option (LineKind × List Char) := viewOf (trim line)

/-- What the lines of a text hold, in their order. -/
def views (text : List Char) : List (LineKind × List Char) := (lines text).filterMap view

/-- The browser's lines are those of `clctl`, but for a carriage return at their ends, and an empty one may follow. -/
theorem splitLines_eq (text : List Char) : ∃ ls extra, splitLines text = ls ++ extra ∧ (∀ l ∈ extra, l = []) ∧
    List.Forall₂ (fun line l => line = l ∨ line = l ++ ['\r']) (lines text) ls := by
  induction text using Script.splitLines.induct with
  | case1 => exact ⟨[], [[]], rfl, by simp, List.Forall₂.nil⟩
  | case2 rest ih =>
      obtain ⟨ls, extra, heq, hextra, hall⟩ := ih
      refine ⟨[] :: ls, extra, by rw [splitLines, heq]; rfl, hextra, ?_⟩
      exact List.Forall₂.cons (Or.inr rfl) hall
  | case3 rest _ ih =>
      obtain ⟨ls, extra, heq, hextra, hall⟩ := ih
      have hsplit : splitLines ('\n' :: rest) = [] :: splitLines rest := by simp [splitLines]
      refine ⟨[] :: ls, extra, by rw [hsplit, heq]; rfl, hextra, ?_⟩
      exact List.Forall₂.cons (Or.inl rfl) hall
  | case4 c rest hcr hc hnil ih =>
      obtain ⟨ls, extra, heq, -, hall⟩ := ih
      have hsplit : splitLines (c :: rest) = [[c]] := by simp [splitLines, hc, hnil]
      obtain rfl : ls = [] := (List.append_eq_nil_iff.mp (heq.symm.trans hnil)).1
      have hlines : lines (c :: rest) = [[c]] := by simp [lines, hc, List.forall₂_nil_right_iff.mp hall]
      refine ⟨[[c]], [], hsplit, by simp, ?_⟩
      rw [hlines]
      exact List.Forall₂.cons (Or.inl rfl) List.Forall₂.nil
  | case5 c rest hcr hc line more hmore ih =>
      obtain ⟨ls, extra, heq, hextra, hall⟩ := ih
      have hsplit : splitLines (c :: rest) = (c :: line) :: more := by simp [splitLines, hc, hmore]
      rw [hmore] at heq
      cases ls with
      | nil =>
          obtain rfl : line :: more = extra := heq
          obtain rfl : line = [] := hextra line List.mem_cons_self
          have hlines : lines (c :: rest) = [[c]] := by simp [lines, hc, List.forall₂_nil_right_iff.mp hall]
          refine ⟨[[c]], more, hsplit, fun l hl => hextra l (List.mem_cons_of_mem _ hl), ?_⟩
          rw [hlines]
          exact List.Forall₂.cons (Or.inl rfl) List.Forall₂.nil
      | cons l ls =>
          obtain ⟨rfl, rfl⟩ := List.cons.inj heq
          obtain ⟨l', more', hl', hall', hlines⟩ := List.forall₂_cons_right_iff.mp hall
          have hlines' : lines (c :: rest) = (c :: l') :: more' := by simp [lines, hc, hlines]
          refine ⟨(c :: line) :: ls, extra, hsplit, hextra, ?_⟩
          rw [hlines']
          exact List.Forall₂.cons (hl'.imp (congrArg (c :: ·)) (congrArg (c :: ·))) hall'

/-- **The browser puts together what the lines hold.** -/
theorem readForm_eq (text : List Char) : readForm text = (views text).foldl put {} := by
  obtain ⟨ls, extra, heq, hextra, hall⟩ := splitLines_eq text
  have htrim : ls.map trim = (lines text).map trim := by
    clear heq
    generalize lines text = ls' at hall
    induction hall with
    | nil => rfl
    | cons h _ ih =>
        rcases h with rfl | rfl
        · rw [List.map_cons, List.map_cons, ih]
        · rw [List.map_cons, List.map_cons, ih, Script.trim_append _ fun c hc => by rw [List.mem_singleton.mp hc]; rfl]
  have hempty : ∀ (es : List (List Char)) (f : ProofForm), (∀ l ∈ es, l = []) → (es.map trim).foldl readLn f = f := by
    intro es
    induction es with
    | nil => exact fun f _ => rfl
    | cons l es ih =>
        intro f hes
        obtain ⟨hl, hes⟩ := List.forall_mem_cons.mp hes
        rw [hl]
        exact ih f hes
  have hfold : ∀ (ls : List (List Char)) (f : ProofForm),
      (ls.map trim).foldl readLn f = (ls.filterMap view).foldl put f := by
    intro ls
    induction ls with
    | nil => exact fun f => rfl
    | cons line ls ih =>
        intro f
        rw [List.map_cons, List.foldl_cons, readLn_eq, ih, List.filterMap_cons, view]
        cases viewOf (trim line) <;> rfl
  rw [readForm, heq, List.map_append, List.foldl_append, hempty extra _ hextra, htrim, hfold]
  rfl

/-- The value of the kind that the loop has found. -/
def ProofForm.value (f : ProofForm) : LineKind → Option (List Char)
  | .txid => f.txid
  | .blockhash => f.blockhash
  | .header => f.header
  | _ => none

theorem value_put {f : ProofForm} {view : LineKind × List Char} {kind : LineKind} (h : (put f view).value kind ≠ none) :
    f.value kind ≠ none ∨ view.1 = kind := by
  obtain ⟨kind', body⟩ := view
  cases kind' <;> cases kind <;> first | exact Or.inl h | exact Or.inr rfl

theorem value_foldl {vs : List (LineKind × List Char)} {f : ProofForm} {kind : LineKind}
    (h : (vs.foldl put f).value kind ≠ none) : f.value kind ≠ none ∨ ∃ view ∈ vs, view.1 = kind := by
  induction vs generalizing f with
  | nil => exact Or.inl h
  | cons view vs ih =>
      rcases ih h with hput | ⟨view', hview', hkind⟩
      · exact (value_put hput).imp_right fun hkind => ⟨view, List.mem_cons_self, hkind⟩
      · exact Or.inr ⟨view', List.mem_cons_of_mem _ hview', hkind⟩

theorem steps_readForm (text : List Char) : (readForm text).steps =
    ((views text).filter fun v => v.1 = .sibling).map fun v => stepOf v.2 := by
  have hfold : ∀ (vs : List (LineKind × List Char)) (f : ProofForm),
      (vs.foldl put f).steps = f.steps ++ (vs.filter fun v => v.1 = .sibling).map fun v => stepOf v.2 := by
    intro vs
    induction vs with
    | nil => exact fun f => (List.append_nil _).symm
    | cons view vs ih =>
        intro f
        obtain ⟨kind, body⟩ := view
        rw [List.foldl_cons, ih]
        cases kind <;> simp [put]
  rw [readForm_eq]
  exact hfold _ _

end Viewer

/-! ### The last of each kind -/

/-- Where entries of other kinds do not matter and the last one of a kind counts, it has been put. -/
theorem put_last {σ ε κ : Type} [DecidableEq κ] {put : σ → ε → σ} (kind : ε → κ) {k : κ}
    (hagain : ∀ x F, kind F = k → ∀ G, kind G = k → put (put x G) F = put x F)
    (hother : ∀ x F, kind F = k → ∀ G, kind G ≠ k → put (put x G) F = put (put x F) G) {entries : List ε} {F : ε}
    (h : (entries.filter fun G => kind G = k).getLast? = some F) (x : σ) :
    put (entries.foldl put x) F = entries.foldl put x := by
  have hF : kind F = k := of_decide_eq_true (List.mem_filter.mp (List.mem_of_getLast? h)).2
  induction entries using List.reverseRecOn with
  | nil => cases h
  | append_singleton entries G ih =>
      rw [List.foldl_append, List.foldl_cons, List.foldl_nil]
      rw [List.filter_append] at h
      by_cases hG : kind G = k
      · have hlast : [G].filter (fun G => kind G = k) = [G] := List.filter_eq_self.mpr (by simpa using hG)
        rw [hlast, List.getLast?_concat] at h
        obtain rfl := Option.some.inj h
        exact hagain _ G hG G hG
      · have hnone : [G].filter (fun G => kind G = k) = [] := List.filter_eq_nil_iff.mpr (by simpa using hG)
        rw [hnone, List.append_nil] at h
        rw [hother _ F hF G hG, ih h]

/-- The last of what a list gives is given by the last one that could. -/
theorem getLast?_filterMap_of_last {α β : Type} {p : α → Option β} (seen : α → Bool)
    (hseen : ∀ a b, p a = some b → seen a = true) {ls : List α} {a : α} {b : β}
    (hlast : (ls.filter seen).getLast? = some a) (hp : p a = some b) : (ls.filterMap p).getLast? = some b := by
  induction ls using List.reverseRecOn with
  | nil => cases hlast
  | append_singleton ls x ih =>
      rw [List.filter_append] at hlast
      rw [List.filterMap_append]
      by_cases hx : seen x = true
      · have hone : [x].filter seen = [x] := List.filter_eq_self.mpr (by simpa using hx)
        rw [hone, List.getLast?_concat] at hlast
        obtain rfl := Option.some.inj hlast
        have hone : [x].filterMap p = [b] := by rw [List.filterMap_cons, hp]; rfl
        rw [hone, List.getLast?_concat]
      · have hnone : [x].filter seen = [] := List.filter_eq_nil_iff.mpr (by simpa using hx)
        have hpx : p x = none := by
          cases hpx : p x with
          | none => rfl
          | some b => exact absurd (hseen x b hpx) hx
        have hnone' : [x].filterMap p = [] := by rw [List.filterMap_cons, hpx]; rfl
        rw [hnone, List.append_nil] at hlast
        rw [hnone', List.append_nil]
        exact ih hlast

/-- Where the last line of a kind gives an entry, that entry has been put. -/
theorem put_last_line {σ α ε κ : Type} [DecidableEq κ] {put : σ → ε → σ} (kind : ε → κ) {k : κ} (seen : α → Bool)
    (hagain : ∀ x F, kind F = k → ∀ G, kind G = k → put (put x G) F = put x F)
    (hother : ∀ x F, kind F = k → ∀ G, kind G ≠ k → put (put x G) F = put (put x F) G) {p : α → Option ε}
    (hseen : ∀ a F, p a = some F → kind F = k → seen a = true) {ls : List α} {a : α} {F : ε}
    (hlast : (ls.filter seen).getLast? = some a) (hp : p a = some F) (hF : kind F = k) (x : σ) :
    put ((ls.filterMap p).foldl put x) F = (ls.filterMap p).foldl put x := by
  apply put_last kind hagain hother
  rw [List.filter_filterMap]
  refine getLast?_filterMap_of_last seen (fun b G hG => ?_) hlast ?_
  · obtain ⟨hG, hk⟩ := Option.filter_eq_some_iff.mp hG
    exact hseen b G hG (of_decide_eq_true hk)
  · rw [hp]
    exact Option.filter_eq_some_iff.mpr ⟨rfl, decide_eq_true hF⟩

end Chainlite
