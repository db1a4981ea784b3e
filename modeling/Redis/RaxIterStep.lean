import Redis.RaxInsert
import Redis.RaxIter

/-! # Steps of an iterator

A position in a tree divides the entries: those before the node, its own, and the rest. A step forward
finds the first entry of the rest, a step backward the last entry before. The same is shown for the
steps that `raxSeek` starts inside a node (`noup`), between two of its edges. -/

namespace Redis
open List Option
variable {V : Type} {root : RaxNode V}
variable {p : RaxPos V} {n child : RaxNode V} {ts : List (RaxFrame V)} {hdr : RaxHdr V}
variable {es : List (UInt8 × RaxNode V)} {scan : Option Nat} {L : List (List UInt8 × Option V)} {cs : List UInt8}

/-- The position is a place in the tree, with its key. -/
structure RaxPos.At (p : RaxPos V) (root : RaxNode V) : Prop where
  place : RaxPlace root p.node p.stack
  key : p.key = raxPath p.stack

open RaxPos

def RaxPos.own (p : RaxPos V) : List (List UInt8 × Option V) := p.node.hdr.entry.map (raxUnder (raxPath p.stack))

/-- The entries after the node: those below it and those after its subtree. -/
def RaxPos.rest (p : RaxPos V) : List (List UInt8 × Option V) :=
  p.node.subEntries.map (raxUnder (raxPath p.stack)) ++ raxAfter p.stack

theorem RaxPos.At.entries (h : p.At root) (hroot : root.WF) : root.entries = raxBefore p.stack ++ p.own ++ p.rest := by
  obtain ⟨hplug, hfs, -⟩ := h.place.spec hroot
  rw [← hplug, entries_plug hfs, entries_eq, map_append, own, rest]
  simp only [append_assoc]

theorem RaxPos.own_of_iskey (h : p.At root) (hk : p.node.hdr.iskey = true) :
    p.own = [(p.key, raxGetData p.node.hdr)] := by
  rw [own, RaxHdr.entry, if_pos hk, h.key]
  simp [raxUnder]

theorem RaxPos.own_of_not_iskey (hk : p.node.hdr.iskey = false) : p.own = [] := by
  rw [own, RaxHdr.entry, hk]
  rfl

theorem raxPlace_depth (h : RaxPlace root n ts) (hroot : root.WF) : ts.length + n.count ≤ root.count := by
  induction h with
  | head => simp
  | @edge hdr es ts j e hplace hget ih =>
    have hf := RaxFrame.WF.of_normal (hplace.spec hroot).2.2.1 (List.getElem?_eq_some_iff.1 hget).1
    have hcount := count_setChild hf e.2
    rw [setChild_self hget, RaxFrame.count] at hcount
    rw [length_cons]
    dsimp only at hcount
    omega
  | chain hplace ih =>
    rw [RaxNode.count] at ih
    rw [length_cons]
    omega

/-! ### Links -/

section
variable {hdr : RaxHdr V} {es : List (UInt8 × RaxNode V)} {cs : List UInt8} {child : RaxNode V}
  {ts : List (RaxFrame V)} {j : Nat} {e : UInt8 × RaxNode V}

theorem raxPath_edge (h : es[j]? = some e) : raxPath (⟨.normal hdr es, j⟩ :: ts) = raxPath ts ++ [e.1] := by
  rw [raxPath, RaxFrame.path]
  dsimp only
  rw [h]
  rfl

theorem raxBefore_edge : raxBefore (⟨.normal hdr es, j⟩ :: ts) =
    raxBefore ts ++ (hdr.entry ++ raxEdgeEntries (es.take j)).map (raxUnder (raxPath ts)) := rfl

theorem raxAfter_edge : raxAfter (⟨.normal hdr es, j⟩ :: ts) =
    (raxEdgeEntries (es.drop (j + 1))).map (raxUnder (raxPath ts)) ++ raxAfter ts := rfl

theorem raxPath_chain : raxPath (⟨.compr hdr cs child, j⟩ :: ts) = raxPath ts ++ cs := rfl

theorem raxBefore_chain : raxBefore (⟨.compr hdr cs child, j⟩ :: ts) =
    raxBefore ts ++ hdr.entry.map (raxUnder (raxPath ts)) := rfl

theorem raxAfter_chain : raxAfter (⟨.compr hdr cs child, j⟩ :: ts) = raxAfter ts := rfl

theorem raxKeyAt_append {n : RaxNode V} (h : cs.length = if n.iscompr then n.size else 1) (key : List UInt8) :
    raxKeyAt n (key ++ cs) = key := by
  rw [raxKeyAt, raxIteratorDelChars, ← h, length_append, Nat.add_sub_cancel, take_left]

theorem rest_enter (h : es[j]? = some e) (key : List UInt8) :
    let q : RaxPos V := ⟨e.2, ⟨.normal hdr es, j⟩ :: ts, key⟩
    (raxEdgeEntries (es.drop j)).map (raxUnder (raxPath ts)) ++ raxAfter ts = q.own ++ q.rest := by
  obtain ⟨hj, rfl⟩ := List.getElem?_eq_some_iff.1 h
  dsimp only [own, rest]
  rw [raxPath_edge h, raxAfter_edge, drop_eq_getElem_cons hj, raxEdgeEntries_cons, entries_eq]
  simp only [map_append, map_raxUnder_map, append_assoc]

theorem raxEnter_eq (h : es[j]? = some e) (key : List UInt8) :
    raxEnter (.normal hdr es) ts key j = some ⟨e.2, ⟨.normal hdr es, j⟩ :: ts, key ++ [e.1]⟩ := by
  rw [raxEnter, h]
  rfl

end

/-! ### Scanning the edges of a node -/

section
variable {es : List (UInt8 × RaxNode V)} {c : UInt8} {least : Nat}
variable {e : UInt8 × RaxNode V}

theorem scan_eq {l : List (UInt8 × RaxNode V)} {p : UInt8 × RaxNode V → Bool}
    (hleast : least = 0 ∨ ∃ e ∈ l, e.1 = c) (hle : least ≤ 1)
    (hp : ∀ e, p e = true → e.1 ≠ c) :
    (if l.length > least then l.findIdx? p else none) = if l.findIdx p < l.length then some (l.findIdx p) else none := by
  rw [findIdx?_eq_guard_findIdx_lt]
  by_cases hi : l.findIdx p < l.length
  · -- with one edge only, `c` itself, there is no other
    have hlen : l.length > least := by
      rcases hleast with rfl | ⟨e, he, rfl⟩
      · exact Nat.zero_lt_of_lt hi
      · refine Nat.lt_of_le_of_ne (by omega) fun hlen => ?_
        obtain ⟨a, rfl⟩ := length_eq_one_iff.1 (show l.length = 1 by omega)
        exact hp _ findIdx_getElem (by rw [mem_singleton.1 (getElem_mem hi), mem_singleton.1 he])
    simp [Option.guard, hi, hlen]
  · simp [Option.guard, hi]

theorem raxScanNext_spec (hdr : RaxHdr V) (hsort : es.Pairwise fun a b => a.1 < b.1) (hleast : least = 0 ∨ ∃ e ∈ es, e.1 = c)
    (hle : least ≤ 1) : ∃ i ≤ es.length, (∀ e ∈ es.take i, ¬ c < e.1) ∧ (∀ e ∈ es.drop i, c < e.1) ∧
      raxScanNext (.normal hdr es) c least = if i < es.length then some i else none := by
  obtain ⟨htake, hdrop⟩ := findIdx_split (p := fun e => decide (c < e.1)) hsort fun a b hab h =>
    decide_eq_true (UInt8.lt_trans (of_decide_eq_true h) hab)
  exact ⟨_, findIdx_le_length, fun e he => of_decide_eq_false (htake e he),
    fun e he => of_decide_eq_true (hdrop e he),
    scan_eq hleast hle fun e he => (UInt8.ne_of_lt (of_decide_eq_true he)).symm⟩

theorem raxScanPrev_spec (hdr : RaxHdr V) (hsort : es.Pairwise fun a b => a.1 < b.1) (hleast : least = 0 ∨ ∃ e ∈ es, e.1 = c)
    (hle : least ≤ 1) : ∃ i ≤ es.length, (∀ e ∈ es.take i, e.1 < c) ∧ (∀ e ∈ es.drop i, ¬ e.1 < c) ∧
      raxScanPrev (.normal hdr es) c least = if i = 0 then none else some (i - 1) := by
  obtain ⟨htake, hdrop⟩ := findIdx_split (p := fun e => decide (e.1 < c)) (pairwise_reverse.2 hsort) fun a b hab h =>
    decide_eq_true (UInt8.lt_trans hab (of_decide_eq_true h))
  have hscan := scan_eq (l := es.reverse) (p := fun e => decide (e.1 < c)) (by simpa using hleast) hle
    fun e he => UInt8.ne_of_lt (of_decide_eq_true he)
  rw [take_reverse] at htake
  rw [drop_reverse] at hdrop
  refine ⟨_, Nat.sub_le .., fun e he => of_decide_eq_true (hdrop e (mem_reverse.2 he)),
    fun e he => of_decide_eq_false (htake e (mem_reverse.2 he)), ?_⟩
  have hmap := congrArg (Option.map fun j => es.length - 1 - j) hscan
  rw [apply_ite (Option.map _), apply_ite (Option.map _), length_reverse, map_none, map_some] at hmap
  refine hmap.trans ?_
  split
  · rw [if_neg (by omega)]
    congr 1
    omega
  · rw [if_pos (by omega)]

section
variable {j i : Nat} (hsort : es.Pairwise fun a b => a.1 < b.1) (hget : es[j]? = some e) (hi : i ≤ es.length)
include hsort hget hi

theorem edge_position (htake : ∀ a ∈ es.take i, ¬ e.1 < a.1) (hdrop : ∀ a ∈ es.drop i, e.1 < a.1) : i = j + 1 := by
  obtain ⟨hj, rfl⟩ := List.getElem?_eq_some_iff.1 hget
  rcases Nat.lt_trichotomy i (j + 1) with h | h | h
  · have hmem : es[j] ∈ es.drop i := mem_drop_iff_getElem.2 ⟨j - i, by omega, by
      congr 1
      omega⟩
    exact absurd (hdrop _ hmem) (UInt8.lt_irrefl _)
  · exact h
  · have hj1 : j + 1 < es.length := by omega
    have hmem : es[j + 1] ∈ es.take i := mem_take_iff_getElem.2 ⟨j + 1, by omega, rfl⟩
    exact absurd (pairwise_iff_getElem.1 hsort j (j + 1) hj hj1 (Nat.lt_succ_self j)) (htake _ hmem)

theorem edge_position_prev (htake : ∀ a ∈ es.take i, a.1 < e.1) (hdrop : ∀ a ∈ es.drop i, ¬ a.1 < e.1) : i = j := by
  obtain ⟨hj, rfl⟩ := List.getElem?_eq_some_iff.1 hget
  rcases Nat.lt_trichotomy i j with h | h | h
  · have hmem : es[i] ∈ es.drop i := mem_drop_iff_getElem.2 ⟨0, by omega, rfl⟩
    exact absurd (pairwise_iff_getElem.1 hsort i j (by omega) hj h) (hdrop _ hmem)
  · exact h
  · have hmem : es[j] ∈ es.take i := mem_take_iff_getElem.2 ⟨j, by omega, rfl⟩
    exact absurd (htake _ hmem) (UInt8.lt_irrefl _)

end

end

/-! ### Forward -/

/-- A child that has been entered, with the entries `L` from it on; `stop` holds if there is none. -/
def RaxEntered (root : RaxNode V) (L : List (List UInt8 × Option V)) (stop : Prop) : Option (RaxPos V) → Prop
  | none => stop
  | some q => q.At root ∧ q.stack ≠ [] ∧ L = q.own ++ q.rest

/-- The key that a step forward finds: the first of the entries `L`. -/
def RaxFirst (root : RaxNode V) (L : List (List UInt8 × Option V)) : Option (RaxPos V) → Prop
  | none => L = []
  | some q => q.At root ∧ q.node.hdr.iskey = true ∧ L = (q.key, raxGetData q.node.hdr) :: q.rest

theorem raxVisitNext_edge {i : Nat} (hplace : RaxPlace root (.normal hdr es) ts)
    (hscan : scan = if i < es.length then some i else none) :
    RaxEntered root ((raxEdgeEntries (es.drop i)).map (raxUnder (raxPath ts)) ++ raxAfter ts) (es.drop i = [])
      (scan.bind (raxEnter (.normal hdr es) ts (raxPath ts))) := by
  rw [hscan]
  by_cases hlt : i < es.length
  · have hget : es[i]? = some es[i] := getElem?_eq_getElem hlt
    rw [if_pos hlt, bind_some, raxEnter_eq hget]
    exact ⟨⟨hplace.edge hget, (raxPath_edge hget).symm⟩, cons_ne_nil _ _, rest_enter hget _⟩
  · rw [if_neg hlt]
    exact drop_eq_nil_of_le (Nat.le_of_not_lt hlt)

theorem RaxPlace.sorted (h : RaxPlace root (.normal hdr es) ts) (hroot : root.WF) :
    es.Pairwise fun a b => a.1 < b.1 := by
  cases (h.spec hroot).2.2.1 with
  | normal hsort => exact hsort

theorem raxNextUp_spec (hroot : root.WF) (h : RaxPlace root n ts) :
    RaxEntered root (raxAfter ts) (raxAfter ts = []) (raxNextUp ts (raxPath ts)) := by
  induction h with
  | head => rfl
  | @edge hdr es ts j e hplace hget ih =>
    have hkey : raxKeyAt (.normal hdr es) (raxPath ts ++ [e.1]) = raxPath ts := raxKeyAt_append rfl _
    have hsort := hplace.sorted hroot
    obtain ⟨i, hi, htake, hdrop, hscan⟩ := raxScanNext_spec hdr hsort
      (.inr ⟨e, mem_of_getElem? hget, rfl⟩) (Nat.le_refl 1)
    obtain rfl := edge_position hsort hget hi htake hdrop
    have hvisit := raxVisitNext_edge hplace hscan
    rw [raxNextUp, raxPath_edge hget, raxAfter_edge]
    rw [hkey, getLastD_concat]
    revert hvisit
    cases (raxScanNext (.normal hdr es) e.1 1).bind (raxEnter (.normal hdr es) ts (raxPath ts)) with
    | none =>
      intro hnil
      rw [hnil]
      exact ih
    | some q => exact fun h => h
  | @chain hdr cs child ts hplace ih =>
    have hkey : raxKeyAt (.compr hdr cs child) (raxPath ts ++ cs) = raxPath ts := raxKeyAt_append rfl _
    rw [raxNextUp, raxPath_chain]
    rw [hkey]
    exact ih

theorem raxFirstChild_spec (h : p.At root) :
    (raxFirstChild p.node = none ∧ p.node.subEntries = [] ∧ (p.node.Live → p.node.hdr.iskey = true)) ∨
      ∃ cs child, raxFirstChild p.node = some (cs, child) ∧ child.count < p.node.count ∧
        let q : RaxPos V := ⟨child, ⟨p.node, 0⟩ :: p.stack, p.key ++ cs⟩
        q.At root ∧ p.rest = q.own ++ q.rest := by
  obtain ⟨n, ts, key⟩ := p
  obtain ⟨hplace, hkey⟩ := h
  dsimp only at hplace hkey ⊢
  subst hkey
  cases n with
  | normal hdr es =>
    rcases es with - | ⟨e, es⟩
    · exact .inl ⟨rfl, rfl, fun h => h⟩
    obtain ⟨c, child⟩ := e
    have hget : ((c, child) :: es)[0]? = some (c, child) := rfl
    refine .inr ⟨[c], child, rfl, ?_, ⟨hplace.edge hget, (raxPath_edge hget).symm⟩, rest_enter hget _⟩
    rw [RaxNode.count, raxEdgeCount]
    omega
  | compr hdr cs child =>
    refine .inr ⟨cs, child, rfl, ?_, ⟨hplace.chain, rfl⟩, ?_⟩
    · rw [RaxNode.count]
      omega
    · dsimp only [own, rest]
      rw [raxPath_chain, raxAfter_chain, RaxNode.subEntries, entries_eq child]
      simp only [map_append, map_raxUnder_map, append_assoc]

theorem raxFirstChild_ne_none (h : p.At root) (hlive : p.node.Live) (hk : p.node.hdr.iskey = false) :
    raxFirstChild p.node ≠ none := by
  rcases raxFirstChild_spec h with ⟨-, -, hkey⟩ | ⟨_, _, hsome, -⟩
  · rw [hkey hlive] at hk
    cases hk
  · exact fun h0 => some_ne_none _ (hsome.symm.trans h0)

theorem raxNextLoop_down (hroot : root.WF) :
    ∀ (fuel : Nat) (p : RaxPos V), p.At root → p.node.count ≤ fuel → raxFirstChild p.node ≠ none →
      ∃ q, raxNextLoop fuel p false = some (some q) ∧ RaxFirst root p.rest (some q) := by
  intro fuel
  induction fuel with
  | zero =>
    intro p _ hfuel
    cases hp : p.node <;> rw [hp, RaxNode.count] at hfuel <;> omega
  | succ fuel ih =>
    intro p hp hfuel hchild
    rcases raxFirstChild_spec hp with ⟨hnone, -⟩ | ⟨cs, child, hsome, hcount, hat, hrest⟩
    · exact absurd hnone hchild
    rw [hrest]
    unfold raxNextLoop
    rw [if_neg Bool.false_ne_true, hsome]
    dsimp only
    cases hk : child.hdr.iskey with
    | true =>
      refine ⟨_, if_pos rfl, hat, hk, ?_⟩
      rw [own_of_iskey hat hk]
      rfl
    | false =>
      have hlive := (hat.place.spec hroot).2.2.2 (cons_ne_nil _ _)
      obtain ⟨q, heq, hfirst⟩ := ih _ hat (by dsimp only; omega) (raxFirstChild_ne_none hat hlive hk)
      refine ⟨q, ?_, ?_⟩
      · rw [if_neg Bool.false_ne_true, heq]
      · rw [own_of_not_iskey hk]
        exact hfirst

theorem raxNextLoop_up (hroot : root.WF) {noup : Bool} (hchild : noup = true ∨ raxFirstChild p.node = none)
    (hup : RaxEntered root L (L = []) (raxNextUpFrom p noup)) :
    ∃ res, raxNextLoop (root.count + 1) p noup = some res ∧ RaxFirst root L res := by
  unfold raxNextLoop
  have hnone : (if noup then none else raxFirstChild p.node) = none := by
    rcases hchild with rfl | h
    · rfl
    · rw [h, ite_self]
  rw [hnone]
  rcases hq : raxNextUpFrom p noup with - | q
  · rw [hq] at hup
    exact ⟨none, rfl, hup⟩
  rw [hq] at hup
  obtain ⟨hat, hne, hL⟩ := hup
  dsimp only
  cases hk : q.node.hdr.iskey with
  | true =>
    refine ⟨some q, if_pos rfl, hat, hk, ?_⟩
    rw [hL, own_of_iskey hat hk]
    rfl
  | false =>
    have hlive := (hat.place.spec hroot).2.2.2 hne
    have hdepth := raxPlace_depth hat.place hroot
    obtain ⟨q', heq, hfirst⟩ := raxNextLoop_down hroot root.count q hat (by omega)
      (raxFirstChild_ne_none hat hlive hk)
    refine ⟨some q', ?_, ?_⟩
    · rw [if_neg Bool.false_ne_true, heq]
    · rw [hL, own_of_not_iskey hk]
      exact hfirst

theorem raxNextLoop_spec (hroot : root.WF) (hp : p.At root) :
    ∃ res, raxNextLoop (root.count + 1) p false = some res ∧ RaxFirst root p.rest res := by
  have hdepth := raxPlace_depth hp.place hroot
  rcases raxFirstChild_spec hp with ⟨hnone, hsub, -⟩ | ⟨cs, child, hsome, -⟩
  · refine raxNextLoop_up hroot (.inr hnone) ?_
    rw [raxNextUpFrom, hp.key, rest, hsub]
    exact raxNextUp_spec hroot hp.place
  · obtain ⟨q, heq, hfirst⟩ := raxNextLoop_down hroot (root.count + 1) p hp (by omega)
      fun h0 => some_ne_none _ (hsome.symm.trans h0)
    exact ⟨some q, heq, hfirst⟩

theorem raxNextLoop_edge (hroot : root.WF) (hplace : RaxPlace root (.normal hdr es) ts) (c : UInt8) :
    ∃ i, (∀ e ∈ es.take i, ¬ c < e.1) ∧ (∀ e ∈ es.drop i, c < e.1) ∧
      ∃ res, raxNextLoop (root.count + 1) ⟨.normal hdr es, ts, raxPath ts ++ [c]⟩ true = some res ∧
        RaxFirst root ((raxEdgeEntries (es.drop i)).map (raxUnder (raxPath ts)) ++ raxAfter ts) res := by
  have hsort := hplace.sorted hroot
  have hkey : raxKeyAt (.normal hdr es) (raxPath ts ++ [c]) = raxPath ts := raxKeyAt_append rfl _
  obtain ⟨i, -, htake, hdrop, hscan⟩ := raxScanNext_spec hdr hsort (.inl rfl) (Nat.zero_le 1)
  have hvisit := raxVisitNext_edge hplace hscan
  refine ⟨i, htake, hdrop, raxNextLoop_up hroot (.inl rfl) ?_⟩
  rw [raxNextUpFrom]
  rw [hkey, getLastD_concat]
  revert hvisit
  cases (raxScanNext (.normal hdr es) c 0).bind (raxEnter (.normal hdr es) ts (raxPath ts)) with
  | none =>
    intro hnil
    rw [hnil]
    exact raxNextUp_spec hroot hplace
  | some q => exact fun h => h

theorem raxNextLoop_chain (hroot : root.WF) (hplace : RaxPlace root (.compr hdr cs child) ts) :
    ∃ res, raxNextLoop (root.count + 1) ⟨.compr hdr cs child, ts, raxPath ts ++ cs⟩ true = some res ∧
      RaxFirst root (raxAfter ts) res := by
  have hkey : raxKeyAt (.compr hdr cs child) (raxPath ts ++ cs) = raxPath ts := raxKeyAt_append rfl _
  refine raxNextLoop_up hroot (.inl rfl) ?_
  rw [raxNextUpFrom]
  rw [hkey]
  exact raxNextUp_spec hroot hplace

/-! ### Backward -/

/-- The key that a step backward finds: the last of the entries `L`. -/
def RaxLast (root : RaxNode V) (L : List (List UInt8 × Option V)) : Option (RaxPos V) → Prop
  | none => L = []
  | some q => q.At root ∧ q.node.hdr.iskey = true ∧ L = raxBefore q.stack ++ [(q.key, raxGetData q.node.hdr)]

/-- `q` is at the end of the subtree of `n`. -/
structure RaxGreatest (root n : RaxNode V) (ts : List (RaxFrame V)) (q : RaxPos V) : Prop where
  at_root : q.At root
  entries : raxBefore ts ++ n.entries.map (raxUnder (raxPath ts)) = raxBefore q.stack ++ q.own
  after : raxAfter q.stack = raxAfter ts
  sub : q.node.subEntries = []
  iskey : n.Live → q.node.hdr.iskey = true

theorem raxSeekLastChild_eq (n : RaxNode V) (es : List (UInt8 × RaxNode V)) (e : UInt8 × RaxNode V) (j : Nat)
    (ts : List (RaxFrame V)) (key : List UInt8) :
    raxSeekLastChild n (es ++ [e]) j ts key = raxSeekGreatest e.2 (⟨n, j + es.length⟩ :: ts) (key ++ [e.1]) := by
  induction es generalizing j with
  | nil => rfl
  | cons a es ih =>
    obtain ⟨a', es', hcons⟩ := exists_cons_of_ne_nil (append_ne_nil_of_right_ne_nil es (cons_ne_nil e []))
    have hrec : raxSeekLastChild n (es ++ [e]) (j + 1) ts key =
        raxSeekGreatest e.2 (⟨n, j + (es.length + 1)⟩ :: ts) (key ++ [e.1]) := by
      rw [ih, add_assoc, add_comm 1]
    rw [cons_append, hcons]
    rw [hcons] at hrec
    exact hrec

theorem raxSeekGreatest_spec (hn : n.WF) :
    ∀ {ts : List (RaxFrame V)}, RaxPlace root n ts → RaxGreatest root n ts (raxSeekGreatest n ts (raxPath ts)) := by
  induction hn with
  | @normal hdr es _ _ hlive ih =>
    intro ts hplace
    rcases eq_nil_or_concat' es with rfl | ⟨es, e, rfl⟩
    · refine ⟨⟨hplace, rfl⟩, ?_, rfl, rfl, fun h => h⟩
      rw [entries_normal, raxEdgeEntries, append_nil]
      rfl
    · have hmem : e ∈ es ++ [e] := mem_append_right _ (mem_singleton_self _)
      have hget : (es ++ [e])[es.length]? = some e := getElem?_concat_length
      have hg := ih e hmem (hplace.edge hget)
      rw [raxPath_edge hget] at hg
      have hgr : raxSeekGreatest (.normal hdr (es ++ [e])) ts (raxPath ts) =
          raxSeekGreatest e.2 (⟨.normal hdr (es ++ [e]), es.length⟩ :: ts) (raxPath ts ++ [e.1]) := by
        rw [raxSeekGreatest, raxSeekLastChild_eq, zero_add]
      rw [hgr]
      refine ⟨hg.at_root, ?_, ?_, hg.sub, fun _ => hg.iskey (hlive e hmem)⟩
      · rw [← hg.entries, raxPath_edge hget, raxBefore_edge, take_left, entries_normal, raxEdgeEntries_append]
        rw [raxEdgeEntries_cons, raxEdgeEntries]
        simp only [map_append, map_raxUnder_map, append_assoc, append_nil]
      · rw [hg.after, raxAfter_edge, drop_eq_nil_of_le (by simp)]
        rfl
  | @compr hdr cs child _ _ hlive ih =>
    intro ts hplace
    have hg := ih hplace.chain
    rw [raxPath_chain] at hg
    rw [raxSeekGreatest]
    refine ⟨hg.at_root, ?_, by rw [hg.after, raxAfter_chain], hg.sub, fun _ => hg.iskey hlive⟩
    rw [← hg.entries, raxBefore_chain, raxPath_chain, entries_compr]
    simp only [map_append, map_raxUnder_map, append_assoc]

/-- A round ends at the last of the entries `L`, which may be the node itself. -/
structure RaxPrevAt (root n : RaxNode V) (ts : List (RaxFrame V)) (L : List (List UInt8 × Option V)) (q : RaxPos V) :
    Prop where
  at_root : q.At root
  entries : L = raxBefore q.stack ++ q.own
  iskey : q.node.hdr.iskey = true ∨ q = ⟨n, ts, raxPath ts⟩

theorem raxPrevVisit_edge (hroot : root.WF) {i : Nat} (hplace : RaxPlace root (.normal hdr es) ts)
    (hi : i ≤ es.length) (hscan : scan = if i = 0 then none else some (i - 1)) : RaxPrevAt root (.normal hdr es) ts
      (raxBefore ts ++ (hdr.entry ++ raxEdgeEntries (es.take i)).map (raxUnder (raxPath ts)))
      (raxPrevVisit (.normal hdr es) ts (raxPath ts) scan) := by
  rw [hscan]
  by_cases h0 : i = 0
  · subst h0
    refine ⟨⟨hplace, rfl⟩, ?_, .inr rfl⟩
    rw [take_zero, raxEdgeEntries, append_nil]
    rfl
  · have hlt : i - 1 < es.length := by omega
    have hget : es[i - 1]? = some es[i - 1] := getElem?_eq_getElem hlt
    have hplace' := hplace.edge hget
    obtain ⟨-, -, hwf, hlive⟩ := hplace'.spec hroot
    have hg := raxSeekGreatest_spec hwf hplace'
    rw [raxPath_edge hget] at hg
    rw [if_neg h0, raxPrevVisit, bind_some, raxEnter_eq hget]
    refine ⟨hg.at_root, ?_, .inl (hg.iskey (hlive (cons_ne_nil _ _)))⟩
    have htake : es.take i = es.take (i - 1) ++ [es[i - 1]] := by
      rw [← toList_some, ← hget, ← take_add_one, Nat.sub_add_cancel (Nat.pos_of_ne_zero h0)]
    rw [← hg.entries, raxPath_edge hget, raxBefore_edge, htake, raxEdgeEntries_append]
    generalize es[i - 1] = e
    rw [raxEdgeEntries_cons, raxEdgeEntries]
    simp only [map_append, map_raxUnder_map, append_assoc, append_nil]

theorem raxPrevVisit_chain (hplace : RaxPlace root (.compr hdr cs child) ts) :
    RaxPrevAt root (.compr hdr cs child) ts (raxBefore ts ++ hdr.entry.map (raxUnder (raxPath ts)))
      (raxPrevVisit (.compr hdr cs child) ts (raxPath ts) none) :=
  ⟨⟨hplace, rfl⟩, rfl, .inr rfl⟩

theorem raxPrevLoop_round {fuel : Nat} {noup : Bool}
    (hpop : (if noup then some (p.node, p.stack) else p.stack.head?.map fun f => (f.node, p.stack.tail)) = some (n, ts))
    (hkey : raxKeyAt n p.key = raxPath ts)
    (hvisit : RaxPrevAt root n ts L (raxPrevVisit n ts (raxPath ts) (raxScanPrev n (p.key.getLastD 0) (if noup then 0 else 1))))
    (ih : ∃ res, raxPrevLoop fuel ⟨n, ts, raxPath ts⟩ false = some res ∧ RaxLast root (raxBefore ts) res) :
    ∃ res, raxPrevLoop (fuel + 1) p noup = some res ∧ RaxLast root L res := by
  unfold raxPrevLoop
  rw [hpop]
  dsimp only
  rw [hkey]
  generalize raxPrevVisit n ts (raxPath ts) _ = q at hvisit
  cases hk : q.node.hdr.iskey with
  | true =>
    refine ⟨some q, if_pos rfl, hvisit.at_root, hk, ?_⟩
    rw [hvisit.entries, own_of_iskey hvisit.at_root hk]
  | false =>
    obtain rfl := hvisit.iskey.resolve_left (hk ▸ Bool.false_ne_true)
    obtain ⟨res, heq, hlast⟩ := ih
    refine ⟨res, ?_, ?_⟩
    · exact heq
    · rw [hvisit.entries, own_of_not_iskey hk, append_nil]
      exact hlast

theorem raxPrevLoop_spec (hroot : root.WF) (h : RaxPlace root n ts) : ∀ fuel, ts.length < fuel →
      ∃ res, raxPrevLoop fuel ⟨n, ts, raxPath ts⟩ false = some res ∧ RaxLast root (raxBefore ts) res := by
  induction h with
  | head =>
    intro fuel hfuel
    cases fuel with
    | zero => exact absurd hfuel (Nat.not_lt_zero _)
    | succ fuel => exact ⟨none, rfl, rfl⟩
  | @edge hdr es ts j e hplace hget ih =>
    intro fuel hfuel
    rcases fuel with - | fuel
    · exact absurd hfuel (Nat.not_lt_zero _)
    have hsort := hplace.sorted hroot
    obtain ⟨i, hi, htake, hdrop, hscan⟩ := raxScanPrev_spec hdr hsort
      (.inr ⟨e, mem_of_getElem? hget, rfl⟩) (Nat.le_refl 1)
    obtain rfl := edge_position_prev hsort hget hi htake hdrop
    rw [raxPath_edge hget]
    refine raxPrevLoop_round rfl (raxKeyAt_append rfl _) ?_ (ih fuel (Nat.lt_of_succ_lt_succ hfuel))
    rw [getLastD_concat]
    exact raxPrevVisit_edge hroot hplace hi hscan
  | @chain hdr cs child ts hplace ih =>
    intro fuel hfuel
    cases fuel with
    | zero => exact absurd hfuel (Nat.not_lt_zero _)
    | succ fuel =>
      exact raxPrevLoop_round rfl (raxKeyAt_append rfl _) (raxPrevVisit_chain hplace)
        (ih fuel (Nat.lt_of_succ_lt_succ hfuel))

theorem raxPrevLoop_edge (hroot : root.WF) (hplace : RaxPlace root (.normal hdr es) ts) (c : UInt8) :
    ∃ i, (∀ e ∈ es.take i, e.1 < c) ∧ (∀ e ∈ es.drop i, ¬ e.1 < c) ∧
      ∃ res, raxPrevLoop (root.count + 1) ⟨.normal hdr es, ts, raxPath ts ++ [c]⟩ true = some res ∧
        RaxLast root (raxBefore ts ++ (hdr.entry ++ raxEdgeEntries (es.take i)).map (raxUnder (raxPath ts))) res := by
  have hsort := hplace.sorted hroot
  have hdepth := raxPlace_depth hplace hroot
  rw [RaxNode.count] at hdepth
  obtain ⟨i, hi, htake, hdrop, hscan⟩ := raxScanPrev_spec hdr hsort (.inl rfl) (Nat.zero_le 1)
  refine ⟨i, htake, hdrop, raxPrevLoop_round rfl (raxKeyAt_append rfl _) ?_
    (raxPrevLoop_spec hroot hplace root.count (by omega))⟩
  rw [getLastD_concat]
  exact raxPrevVisit_edge hroot hplace hi hscan

theorem raxPrevLoop_chain (hroot : root.WF) (hplace : RaxPlace root (.compr hdr cs child) ts) :
    ∃ res, raxPrevLoop (root.count + 1) ⟨.compr hdr cs child, ts, raxPath ts ++ cs⟩ true = some res ∧
      RaxLast root (raxBefore ts ++ hdr.entry.map (raxUnder (raxPath ts))) res := by
  have hdepth := raxPlace_depth hplace hroot
  rw [RaxNode.count] at hdepth
  exact raxPrevLoop_round rfl (raxKeyAt_append rfl _) (raxPrevVisit_chain hplace)
    (raxPrevLoop_spec hroot hplace root.count (by omega))

end Redis
