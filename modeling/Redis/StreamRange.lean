import Redis.StreamWalk

/-! # Ranges of a stream

For a tree whose live IDs are in order, `streamReplyWithRange` returns the live entries between two IDs, in the
order asked for and up to the number asked for. -/

namespace Redis
open List StreamNode

variable {nodes : List StreamNode}

def Item.emitted (it : Item) : Emitted := (it.id, it.argv)

def liveItems (nodes : List StreamNode) : List Item := nodes.flatMap StreamNode.live

/-- The IDs of the live items grow through the tree, and each item is between the key of its node and that of the
next one. -/
structure OrderedNodes (nodes : List StreamNode) : Prop where
  live : ∀ n ∈ nodes, n.live ≠ []
  key : ∀ n ∈ nodes, ∀ it ∈ n.live, n.key ≤ it.id
  sorted : ∀ n ∈ nodes, n.live.Pairwise fun a b => a.id < b.id
  nodes : nodes.Pairwise fun a b => a.key < b.key ∧ ∀ it ∈ a.live, it.id < b.key

theorem OrderedNodes.liveItems (h : OrderedNodes nodes) : (liveItems nodes).Pairwise fun a b => a.id < b.id := by
  rw [Redis.liveItems, pairwise_flatMap]
  refine ⟨h.sorted, h.nodes.imp_of_mem fun {a b} _ hb hab x hx y hy => ?_⟩
  exact Nat.lt_of_lt_of_le (hab.2 x hx) (h.key b hb y hy)

theorem OrderedNodes.cut (hord : OrderedNodes nodes) (key : StreamID) :
    ∃ A B, nodes = A ++ B ∧ (∀ n ∈ A, n.key ≤ key) ∧ (∀ n ∈ B, key < n.key) ∧
      ((nodes.map entry).filter fun n => decide (n.1 ≤ key)) = A.map entry ∧
      ((nodes.map entry).filter fun n => decide (key < n.1)) = B.map entry := by
  have hnot : ∀ n : StreamNode, (!decide (n.key ≤ key)) = decide (key < n.key) := fun n => by
    rw [← decide_not]
    exact decide_eq_decide.2 Nat.not_le
  have hsplit := filter_append_filter_of_pairwise (p := fun n : StreamNode => decide (n.key ≤ key)) hord.nodes
    fun a b hab hb => decide_eq_true (Nat.le_trans (Nat.le_of_lt hab.1) (of_decide_eq_true hb))
  simp only [hnot] at hsplit
  refine ⟨_, _, hsplit.symm, ?_, ?_, filter_map .., filter_map ..⟩
  all_goals exact fun n hn => of_decide_eq_true (mem_filter.1 hn).2

namespace StreamWalk
variable {w : StreamWalk} {nodes : List StreamNode} {n : StreamNode} {ri : List StreamNode} {si : StreamIterator}
  {pre post : List Item} {it : Item} {todo : List Item}

/-! ### The loop -/

def emits (w : StreamWalk) (todo : List Item) : List Item :=
  (todo.filter fun it => !w.skips it).takeWhile fun it => !w.ends it

theorem emits_of_skips (h : ∀ it ∈ todo, w.skips it = true) : w.emits todo = [] := by
  rw [emits, filter_eq_nil_iff.2 (by simpa using h), takeWhile_nil]

theorem emits_cons {skipped : List Item} (h : ∀ it ∈ skipped, w.skips it = true) (hit : w.skips it = false) :
    w.emits (skipped ++ it :: todo) = if w.ends it then [] else it :: w.emits todo := by
  rw [emits, filter_append, filter_eq_nil_iff.2 (by simpa using h), nil_append,
    filter_cons_of_pos (by simp [hit]), takeWhile_cons]
  cases w.ends it <;> rfl

/-- The iterator stands before the items `todo`. -/
def Stands (w : StreamWalk) (nodes : List StreamNode) (todo : List Item) (si : StreamIterator) : Prop :=
  (∃ ri, Outside w nodes ri si ∧ w.rest ri = todo) ∨
    ∃ n ri pre it post, Behind w nodes n ri pre it post si ∧ w.ahead pre post ++ w.rest ri = todo

theorem streamIteratorGetID_spec (hwf : ∀ n ∈ nodes, n.WF) (h : Stands w nodes todo si) :
    ∃ r, streamIteratorGetID (si.ri.length + 2) si = some r ∧ GetOk w nodes todo r := by
  rcases h with ⟨ri, hout, rfl⟩ | ⟨n, ri, pre, it, post, hb, rfl⟩
  · refine streamIteratorGetID_outside hwf hout ?_
    rw [hout.tree, length_map]
    omega
  · refine streamIteratorGetID_behind hwf hb ?_
    rw [hb.tree, length_map]
    omega

/-- The items that are sent when `sent` have been before, of at most `count` unless it is zero. -/
def upTo (count sent : Nat) (l : List Item) : List Item := if count = 0 then l else l.take (count - sent)

theorem upTo_nil (count sent : Nat) : upTo count sent [] = [] := by
  unfold upTo
  split <;> simp

theorem upTo_cons {count sent : Nat} (h : count = 0 ∨ sent < count) (l : List Item) :
    upTo count sent (it :: l) = it :: if count ≠ 0 ∧ sent + 1 = count then [] else upTo count (sent + 1) l := by
  unfold upTo
  rcases h with rfl | h
  · simp
  obtain ⟨k, rfl⟩ := Nat.exists_eq_add_of_lt h
  have hne : sent + k + 1 ≠ 0 := by omega
  rw [if_neg hne, show sent + k + 1 - sent = k + 1 by omega, take_succ_cons]
  split
  next hk => rw [show k = 0 by omega, take_zero]
  · rw [show sent + k + 1 - (sent + 1) = k by omega]

theorem streamRangeLoop_spec {σ : Type} (f : StreamID → σ → Except Crash σ) (count : Nat) (hwf : ∀ n ∈ nodes, n.WF)
    {fuel : Nat} {st : σ} {out : List Emitted} (h : Stands w nodes todo si) (hfuel : todo.length < fuel)
    (hcount : count = 0 ∨ out.length < count) : streamRangeLoop f count fuel si st out =
      ((upTo count out.length (w.emits todo)).foldlM (fun st it => f it.id st) st).bind fun st =>
        .ok (st, out ++ (upTo count out.length (w.emits todo)).map Item.emitted) := by
  induction fuel generalizing si st out todo with
  | zero => omega
  | succ fuel ih =>
    obtain ⟨⟨si', r⟩, hget, hok⟩ := streamIteratorGetID_spec hwf h
    rw [streamRangeLoop, hget]
    cases hok with
    | finished hall =>
      rw [emits_of_skips hall, upTo_nil]
      simp [ofEntries, bind, Except.bind, pure, Except.pure]
    | stop hall h1 h2 =>
      rw [emits_cons hall h1, if_pos h2, upTo_nil]
      simp [ofEntries, bind, Except.bind, pure, Except.pure]
    | @item skipped pre post it si' n ri hall h1 h2 hload =>
      obtain ⟨si'', hemit, hbehind⟩ := streamEmitFields_spec (hwf n hload.mem) hload
      rw [emits_cons hall h1, if_neg (by simp [h2]), upTo_cons hcount, foldlM_cons]
      simp only [ofEntries, bind, Except.bind, Int.toNat_natCast, hemit]
      rcases f it.id st with e | st'
      · rfl
      have hlen : (out ++ [it.emitted]).length = out.length + 1 := by simp
      rw [length_append, length_cons] at hfuel
      dsimp only
      rw [show (it.id, it.argv) = it.emitted from rfl, hlen]
      split
      · simp [pure, Except.pure]
      next hmore =>
        rw [ih (.inr ⟨n, ri, pre, it, post, hbehind, rfl⟩) (by omega) (by rw [hlen]; omega)]
        simp [Except.bind]

/-! ### The start of a walk -/

def inRange (w : StreamWalk) (it : Item) : Bool := decide (w.start ≤ it.id) && decide (it.id ≤ w.stop)

theorem emits_order {all : List Item} (hall : (all.filter fun it => !it.deleted).Pairwise fun a b => a.id < b.id) :
    w.emits (w.order all) = w.order ((all.filter fun it => !it.deleted).filter w.inRange) := by
  have hnot : ∀ a b : StreamID, (!decide (a < b)) = decide (b ≤ a) := fun a b => by
    rw [← decide_not]
    exact decide_eq_decide.2 Nat.not_lt
  unfold emits order skips ends inRange
  cases w.rev with
  | false =>
    have hskip : (all.filter fun it => !(it.deleted || decide (it.id < w.start))) =
        (all.filter fun it => !it.deleted).filter fun it => decide (w.start ≤ it.id) := by
      rw [filter_filter]
      refine filter_congr fun it _ => ?_
      rw [Bool.not_or, hnot, Bool.and_comm]
    simp only [if_neg Bool.false_ne_true, hskip, hnot]
    rw [takeWhile_eq_filter_of_pairwise (hall.filter _) fun a b hab hb => ?_, filter_filter]
    · exact filter_congr fun it _ => Bool.and_comm _ _
    · exact decide_eq_true (Nat.le_trans (Nat.le_of_lt hab) (of_decide_eq_true hb))
  | true =>
    have hskip : (all.filter fun it => !(it.deleted || decide (w.stop < it.id))) =
        (all.filter fun it => !it.deleted).filter fun it => decide (it.id ≤ w.stop) := by
      rw [filter_filter]
      refine filter_congr fun it _ => ?_
      rw [Bool.not_or, hnot, Bool.and_comm]
    simp only [if_true, filter_reverse, hskip, hnot]
    rw [takeWhile_eq_filter_of_pairwise (pairwise_reverse.2 (hall.filter _)) fun a b hab hb => ?_, filter_reverse,
      filter_filter]
    exact decide_eq_true (Nat.le_trans (of_decide_eq_true hb) (Nat.le_of_lt hab))

theorem filter_live_flatMap (nodes : List StreamNode) :
    ((nodes.flatMap items).filter fun it => !it.deleted) = liveItems nodes := by
  rw [filter_flatMap]
  rfl

/-- The nodes `A` and `B` of the tree, of which the walk visits those that can have items in range. -/
theorem emits_rest {A B : List StreamNode} (hord : OrderedNodes (A ++ B))
    (hout : ∀ n ∈ (if w.rev then B else A), ∀ it ∈ n.live, w.inRange it = false) :
    w.emits (w.rest (if w.rev then A.reverse else B)) = w.order ((liveItems (A ++ B)).filter w.inRange) := by
  have hnone : ∀ C : List StreamNode, (∀ n ∈ C, ∀ it ∈ n.live, w.inRange it = false) →
      (liveItems C).filter w.inRange = [] := by
    intro C hC
    refine filter_eq_nil_iff.2 fun it hit => ?_
    obtain ⟨n, hn, hit⟩ := mem_flatMap.1 hit
    simp [hC n hn it hit]
  have hlive : liveItems (A ++ B) = liveItems A ++ liveItems B := flatMap_append
  have hsorted := hord.liveItems
  rw [hlive] at hsorted ⊢
  rw [filter_append]
  cases hrev : w.rev with
  | false =>
    rw [hrev] at hout
    have hrest : w.rest B = w.order (B.flatMap items) := by simp [rest, order, hrev]
    rw [if_neg (by simp), hrest, emits_order, filter_live_flatMap, hnone A hout, nil_append]
    rw [filter_live_flatMap]
    exact (pairwise_append.1 hsorted).2.1
  | true =>
    rw [hrev] at hout
    have hrest : w.rest A.reverse = w.order (A.flatMap items) := by
      simp [rest, order, hrev, reverse_flatMap, Function.comp_def]
    rw [if_pos rfl, hrest, emits_order, filter_live_flatMap, hnone B hout, append_nil]
    rw [filter_live_flatMap]
    exact (pairwise_append.1 hsorted).1

theorem streamIteratorStart_spec {s : Stream} (htree : s.rax = nodes.map entry) (hord : OrderedNodes nodes)
    (start end_ : Option StreamID) (rev : Bool) : ∃ A B, nodes = A ++ B ∧
      Outside ⟨rev, start.getD .zero, end_.getD .max⟩ nodes (if rev then A.reverse else B)
        (streamIteratorStart s start end_ rev) ∧
      ∀ n ∈ (if rev then B else A), ∀ it ∈ n.live, inRange ⟨rev, start.getD .zero, end_.getD .max⟩ it = false := by
  have hall : ∀ ri : List StreamNode, (∀ n ∈ ri, n ∈ nodes) → ∀ si : StreamIterator,
      si = ⟨ri.map entry, .zero, 0, none, none, 0, rev, start.getD .zero, end_.getD .max, none, none, none⟩ →
      Outside ⟨rev, start.getD .zero, end_.getD .max⟩ nodes ri si := by
    rintro ri hri si rfl
    exact ⟨⟨rfl, rfl, rfl, rfl, hri⟩, .inl rfl⟩
  cases rev with
  | false =>
    cases hstart : start.filter (· ≠ .zero) with
    | none =>
      refine ⟨[], nodes, rfl, hall _ (fun n hn => hn) _ ?_, by simp⟩
      rw [streamIteratorStart, htree]
      simp only [Bool.not_false, if_true, hstart]
    | some key =>
      obtain ⟨A, B, rfl, hA, hB, hfA, hfB⟩ := hord.cut key
      rw [← htree] at hfA hfB
      obtain rfl : start = some key := (Option.filter_eq_some_iff.1 hstart).1
      rcases eq_nil_or_concat A with rfl | ⟨A, n, rfl⟩
      · refine ⟨[], B, rfl, hall _ (fun n hn => hn) _ ?_, by simp⟩
        rw [streamIteratorStart]
        simp only [Bool.not_false, if_true, hstart, hfA, map_nil, getLast?_nil]
        rw [htree]
      · rw [concat_eq_append] at *
        have hnodes : A ++ [n] ++ B = A ++ n :: B := by simp
        refine ⟨A, n :: B, hnodes, hall _ (fun m hm => hnodes ▸ mem_append_right _ hm) _ ?_, fun m hm it hit => ?_⟩
        · rw [streamIteratorStart]
          simp only [Bool.not_false, if_true, hstart, hfA, hfB, map_append, map_cons, map_nil,
            getLast?_concat]
        have hlt : it.id < n.key := by
          have hpair := hord.nodes
          rw [hnodes] at hpair
          exact ((pairwise_append.1 hpair).2.2 m hm n (.head _)).2 it hit
        have hle := hA n (by simp)
        have hout : ¬key ≤ it.id := Nat.not_le.2 (Nat.lt_of_lt_of_le hlt hle)
        simp [inRange, hout]
  | true =>
    cases hend : end_.filter (· ≠ .zero) with
    | none =>
      refine ⟨nodes, [], by simp, hall _ (fun n hn => by simpa using hn) _ ?_, by simp⟩
      rw [streamIteratorStart, htree]
      simp only [Bool.not_true, Bool.false_eq_true, if_false, if_true, hend, map_reverse]
    | some key =>
      obtain ⟨A, B, rfl, hA, hB, hfA, hfB⟩ := hord.cut key
      rw [← htree] at hfA hfB
      obtain rfl : end_ = some key := (Option.filter_eq_some_iff.1 hend).1
      by_cases hnil : A = []
      · subst hnil
        refine ⟨B, [], by simp, hall _ (fun n hn => by simpa using hn) _ ?_, by simp⟩
        rw [streamIteratorStart]
        simp only [Bool.not_true, Bool.false_eq_true, if_false, if_true, hend, hfA, map_nil, map_reverse]
        rw [htree, nil_append]
      · refine ⟨A, B, rfl, hall _ (fun n hn => mem_append_left _ (mem_reverse.1 hn)) _ ?_, fun m hm it hit => ?_⟩
        · rw [streamIteratorStart]
          simp only [Bool.not_true, Bool.false_eq_true, if_false, hend, hfA, map_eq_nil_iff, hnil, map_reverse]
        · have hkey := hord.key m (mem_append_right _ hm) it hit
          have hout : ¬it.id ≤ key := Nat.not_le.2 (Nat.lt_of_lt_of_le (hB m hm) hkey)
          simp [inRange, hout]

end StreamWalk

/-! ### The reply -/

/-- The live items between two IDs, in one of the two orders. -/
def itemsBetween (nodes : List StreamNode) (start end_ : Option StreamID) (rev : Bool) : List Item :=
  let w : StreamWalk := ⟨rev, start.getD .zero, end_.getD .max⟩
  w.order ((liveItems nodes).filter w.inRange)

theorem length_rest_le {A B : List StreamNode} (w : StreamWalk) (h : nodes = A ++ B) :
    (w.rest (if w.rev then A.reverse else B)).length ≤ (nodes.flatMap items).length := by
  have hrest : ∀ ri : List StreamNode, (w.rest ri).length = (ri.flatMap items).length := by
    intro ri
    rw [StreamWalk.rest, length_flatMap]
    unfold StreamWalk.order
    split <;> simp
  rw [hrest, h, flatMap_append, length_append]
  split
  · simp [length_flatMap]
  · omega

theorem streamReplyWithRange_spec {σ : Type} (f : StreamID → σ → Except Crash σ) {s : Stream}
    (htree : s.rax = nodes.map entry) (hwf : ∀ n ∈ nodes, n.WF) (hord : OrderedNodes nodes)
    (start end_ : Option StreamID) (count : Nat) (rev : Bool) (st : σ) :
    streamReplyWithRange f s start end_ count rev st =
      ((StreamWalk.upTo count 0 (itemsBetween nodes start end_ rev)).foldlM (fun st it => f it.id st) st).bind fun st =>
        .ok (st, (StreamWalk.upTo count 0 (itemsBetween nodes start end_ rev)).map Item.emitted) := by
  obtain ⟨A, B, rfl, hout, hno⟩ := StreamWalk.streamIteratorStart_spec htree hord start end_ rev
  have hbound : ((A ++ B).flatMap items).length ≤ streamEntryBound s := by
    rw [streamEntryBound, htree, length_flatMap]
    generalize A ++ B = l
    induction l with
    | nil => exact le_rfl
    | cons n l ih => exact Nat.add_le_add (by have := n.length_items_le; show n.items.length ≤ n.encode.length; omega) ih
  have hle := length_rest_le ⟨rev, start.getD .zero, end_.getD .max⟩ (A := A) (B := B) rfl
  dsimp only at hle
  have hemits := StreamWalk.emits_rest (w := ⟨rev, start.getD .zero, end_.getD .max⟩) hord hno
  rw [streamReplyWithRange, StreamWalk.streamRangeLoop_spec f count hwf (.inl ⟨_, hout, rfl⟩) (by omega) (by simp; omega)]
  rw [hemits]
  rfl

end Redis
