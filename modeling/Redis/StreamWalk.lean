import Redis.StreamGroups
import Redis.StreamNodes

/-! # Walking over a stream

`streamIteratorGetID` goes from item to item, forwards or backwards, through one node after the other. Between
two calls the iterator stands in a gap between items, and the items it has yet to see are those on one side of
the gap together with those of the nodes that the iterator of the tree has yet to return. -/

namespace Redis
open List Option StreamNode LpSeq

structure StreamWalk where
  rev : Bool
  start : StreamID
  stop : StreamID

namespace StreamWalk

def skips (w : StreamWalk) (it : Item) : Bool :=
  it.deleted || (if w.rev then decide (w.stop < it.id) else decide (it.id < w.start))

def ends (w : StreamWalk) (it : Item) : Bool := if w.rev then decide (it.id < w.start) else decide (w.stop < it.id)

def order (w : StreamWalk) (items : List Item) : List Item := if w.rev then items.reverse else items

def ahead (w : StreamWalk) (pre post : List Item) : List Item := if w.rev then pre.reverse else post

def rest (w : StreamWalk) (ri : List StreamNode) : List Item := ri.flatMap fun n => w.order n.items

variable (w : StreamWalk) (nodes : List StreamNode)

/-- The iterator of the tree is at nodes of the stream. -/
structure Ready (ri : List StreamNode) (si : StreamIterator) : Prop where
  rev : si.rev = w.rev
  startKey : si.startKey = w.start
  endKey : si.endKey = w.stop
  tree : si.ri = ri.map StreamNode.entry
  sub : ∀ n ∈ ri, n ∈ nodes

structure In (n : StreamNode) (ri : List StreamNode) (si : StreamIterator) : Prop extends Ready w nodes ri si where
  mem : n ∈ nodes
  lp : si.lp = some n.encode
  key : si.key = n.key
  masterFieldsCount : si.masterFieldsCount = n.fields.length
  masterFieldsStart : si.masterFieldsStart = n.encode.cursor (n.fields ++ n.gap [] n.items)

structure Outside (ri : List StreamNode) (si : StreamIterator) : Prop extends Ready w nodes ri si where
  lp : si.lp = none ∨ si.lpEle = none

/-- The iterator is at the fields and values of an item. -/
structure Loaded (n : StreamNode) (ri : List StreamNode) (pre : List Item) (it : Item) (post : List Item)
    (si : StreamIterator) : Prop extends In w nodes n ri si where
  items : n.items = pre ++ it :: post
  lpEle : si.lpEle = n.encode.cursor (it.pairs ++ n.gap (pre ++ [it]) post)
  lpFlags : si.lpFlags = n.encode.cursor (it.encode n.key ++ n.elements post)
  entryFlags : si.entryFlags = it.flags
  masterFieldsPtr : it.same = true → si.masterFieldsPtr = n.encode.cursor (n.fields ++ n.gap [] n.items)

/-- The iterator is behind an item whose fields and values were read. -/
structure Behind (n : StreamNode) (ri : List StreamNode) (pre : List Item) (it : Item) (post : List Item)
    (si : StreamIterator) : Prop extends In w nodes n ri si where
  items : n.items = pre ++ it :: post
  lpEle : si.lpEle = n.encode.cursor (n.gap (pre ++ [it]) post)

/-- The scan of a node found the first item of `todo` that is not passed over. -/
inductive ScanOk (n : StreamNode) (ri : List StreamNode) : List Item → StreamIterator × StreamScan → Prop
  | ended {todo : List Item} {si : StreamIterator} : (∀ it ∈ todo, w.skips it = true) → Outside w nodes ri si →
      ScanOk n ri todo (si, .ended)
  | stop {skipped todo : List Item} {it : Item} {si : StreamIterator} : (∀ it ∈ skipped, w.skips it = true) →
      w.skips it = false → w.ends it = true → ScanOk n ri (skipped ++ it :: todo) (si, .stop)
  | item {skipped pre post : List Item} {it : Item} {si : StreamIterator} : (∀ it ∈ skipped, w.skips it = true) →
      w.skips it = false → w.ends it = false → Loaded w nodes n ri pre it post si →
      ScanOk n ri (skipped ++ it :: w.ahead pre post) (si, .item it.id it.argv.length)

inductive GetOk : List Item → StreamIterator × Option (StreamID × Int) → Prop
  | finished {todo : List Item} {si : StreamIterator} : (∀ it ∈ todo, w.skips it = true) → GetOk todo (si, none)
  | stop {skipped todo : List Item} {it : Item} {si : StreamIterator} : (∀ it ∈ skipped, w.skips it = true) →
      w.skips it = false → w.ends it = true → GetOk (skipped ++ it :: todo) (si, none)
  | item {skipped pre post : List Item} {it : Item} {si : StreamIterator} {n : StreamNode} {ri : List StreamNode} :
      (∀ it ∈ skipped, w.skips it = true) → w.skips it = false → w.ends it = false →
      Loaded w nodes n ri pre it post si →
      GetOk (skipped ++ it :: (w.ahead pre post ++ w.rest ri)) (si, some (it.id, it.argv.length))

end StreamWalk

/-! ### One listpack -/

section items
variable {n : StreamNode} {pre post : List Item} {it : Item}

theorem StreamNode.content_suffix (h : n.items = pre ++ it :: post) :
    it.content ++ n.gap (pre ++ [it]) post <:+ n.encode := by
  have hsuf := gap_suffix h
  rw [gap_cons] at hsuf
  exact (suffix_append [_, _, _, _] _).trans hsuf

theorem StreamNode.pairs_suffix (h : n.items = pre ++ it :: post) : it.pairs ++ n.gap (pre ++ [it]) post <:+ n.encode := by
  have hsuf := content_suffix h
  unfold Item.content at hsuf
  split at hsuf
  · exact hsuf
  · exact (suffix_cons ..).trans hsuf

theorem StreamNode.getInteger_mark (hwf : n.WF) (h : n.items = pre ++ it :: post) :
    n.encode.getInteger (n.encode.cursor (n.gap (pre ++ [it]) post)) = some ((3 + it.content.length : Nat) : Int) := by
  have hlen := hwf.length_content (show it ∈ n.items by simp [h])
  have hsuf : n.gap (pre ++ [it]) post <:+ n.encode := gap_suffix (by simp [h])
  rw [gap, mark_concat] at hsuf ⊢
  exact getInteger_cursor (by omega) (by omega) hsuf

theorem readNumfields (hwf : n.WF) (h : n.items = pre ++ it :: post) {mc : Int} (hmc : mc = n.fields.length) :
    (if it.same then some (mc, n.encode.cursor (it.content ++ n.gap (pre ++ [it]) post)) else
      (n.encode.getInteger (n.encode.cursor (it.content ++ n.gap (pre ++ [it]) post))).bind fun k =>
        (n.encode.next (n.encode.cursor (it.content ++ n.gap (pre ++ [it]) post))).bind fun p => some (k, p)) =
    some ((it.argv.length : Int), n.encode.cursor (it.pairs ++ n.gap (pre ++ [it]) post)) := by
  subst hmc
  have hmem : it ∈ n.items := by simp [h]
  have hargv := hwf.length_argv hmem
  have hsuf := content_suffix h
  unfold Item.content at hsuf ⊢
  split
  next hsame => rw [← hwf.fields it hmem hsame, length_map]
  next hsame =>
    rw [if_neg hsame, cons_append] at hsuf
    rw [cons_append, getInteger_cursor (by omega) (by omega) hsuf, next_cursor hsuf]
    rfl

theorem leaveItem (h : n.items = pre ++ it :: post) (rev : Bool) :
    (if !rev then n.encode.nextTimes (if it.same then (it.argv.length : Int) else it.argv.length * 2).toNat
        (n.encode.cursor (it.pairs ++ n.gap (pre ++ [it]) post))
      else prevTimes (if it.same then 4 else 5) (n.encode.cursor (it.pairs ++ n.gap (pre ++ [it]) post))) =
    some (n.encode.cursor (if rev then n.gap pre (it :: post) else n.gap (pre ++ [it]) post)) := by
  cases rev with
  | false =>
    have hlen : (if it.same then (it.argv.length : Int) else it.argv.length * 2).toNat = it.pairs.length := by
      rw [Item.length_pairs]
      split <;> omega
    rw [Bool.not_false, hlen]
    exact nextTimes_cursor (pairs_suffix h)
  | true =>
    -- the elements before the pairs, back to the gap before the item
    have hback : ∃ l : LpSeq, l.length = (if it.same then 4 else 5) ∧
        n.gap pre (it :: post) = l ++ (it.pairs ++ n.gap (pre ++ [it]) post) := by
      rw [gap_cons, Item.content]
      split
      · exact ⟨[_, _, _, _], rfl, rfl⟩
      · exact ⟨[_, _, _, _, _], rfl, rfl⟩
    obtain ⟨l, hlen, hl⟩ := hback
    rw [← hlen, hl]
    refine prevTimes_cursor (hl ▸ gap_suffix h) ?_
    simp [gap]

end items

namespace StreamWalk
variable {w : StreamWalk} {nodes : List StreamNode} {n : StreamNode} {ri : List StreamNode} {si : StreamIterator}
  {pre post : List Item} {it : Item}
variable {todo : List Item} {fuel : Nat}

theorem ScanOk.skip {r : StreamIterator × StreamScan} (h : ScanOk w nodes n ri todo r) (hit : w.skips it = true) :
    ScanOk w nodes n ri (it :: todo) r := by
  cases h with
  | ended hall hout => exact .ended (forall_mem_cons.2 ⟨hit, hall⟩) hout
  | stop hall h1 h2 => exact .stop (forall_mem_cons.2 ⟨hit, hall⟩) h1 h2
  | item hall h1 h2 hl => exact .item (forall_mem_cons.2 ⟨hit, hall⟩) h1 h2 hl

theorem GetOk.skipAll {l : List Item} {r : StreamIterator × Option (StreamID × Int)} (h : GetOk w nodes todo r)
    (hl : ∀ it ∈ l, w.skips it = true) : GetOk w nodes (l ++ todo) r := by
  cases h with
  | finished hall => exact .finished (forall_mem_append.2 ⟨hl, hall⟩)
  | stop hall h1 h2 =>
    rw [← append_assoc]
    exact .stop (forall_mem_append.2 ⟨hl, hall⟩) h1 h2
  | item hall h1 h2 hload =>
    rw [← append_assoc]
    exact .item (forall_mem_append.2 ⟨hl, hall⟩) h1 h2 hload

theorem In.move (h : In w nodes n ri si) (p f : Option Nat) (e : Int) (m : Option Nat) :
    In w nodes n ri { si with lpEle := p, lpFlags := f, entryFlags := e, masterFieldsPtr := m } :=
  ⟨⟨h.rev, h.startKey, h.endKey, h.tree, h.sub⟩, h.mem, h.lp, h.key, h.masterFieldsCount, h.masterFieldsStart⟩

-- the loop goes to the flags of the item beside the gap
theorem streamScanNode_moves (hin : In w nodes n ri si) (hwf : n.WF) (hitems : n.items = pre ++ it :: post)
    (hele : si.lpEle = n.encode.cursor (if w.rev then n.gap (pre ++ [it]) post else n.gap pre (it :: post))) :
    (if !si.rev then do
      let p ← n.encode.next si.lpEle
      some ({ si with lpEle := p }, p.isSome)
    else do
      let lpCount ← n.encode.getInteger si.lpEle
      if lpCount = 0 then some ({ si with lp := none, lpEle := none }, false)
      else do
        let p ← prevTimes lpCount.toNat si.lpEle
        some ({ si with lpEle := p }, true)) =
    some ({ si with lpEle := n.encode.cursor (it.encode n.key ++ n.elements post) }, true) := by
  have hcons := n.encode_append_elements pre post it
  cases hrev : w.rev with
  | false =>
    rw [hrev] at hele
    have hnext : n.encode.next si.lpEle = some (n.encode.cursor (it.encode n.key ++ n.elements post)) :=
      hele ▸ next_cursor (gap_suffix hitems)
    rw [hin.rev, hrev]
    simp only [Bool.not_false, if_true, hnext, some_bind]
    rw [hcons, cursor_cons]
    simp
  | true =>
    rw [hrev, if_pos rfl] at hele
    have hcount := getInteger_mark hwf hitems
    rw [← hele] at hcount
    have hback : prevTimes (3 + it.content.length) si.lpEle =
        some (n.encode.cursor (it.encode n.key ++ n.elements post)) := by
      have hall : it.encode n.key ++ n.elements post <:+ n.encode :=
        (suffix_cons ..).trans (gap_suffix hitems)
      have hl : (lltoa it.flags :: lltoa (asInt64 (it.id.ms - n.key.ms)) ::
          lltoa (asInt64 (it.id.seq - n.key.seq)) :: it.content).length = 3 + it.content.length := by
        simp
        omega
      rw [hcons] at hall ⊢
      rw [← hl, hele]
      exact prevTimes_cursor hall (by simp [gap])
    rw [hin.rev, hrev]
    simp only [Bool.not_true, Bool.false_eq_true, if_false, hcount, some_bind,
      Int.toNat_natCast, hback]
    rw [if_neg (by omega)]

theorem streamScanNode_item (hin : In w nodes n ri si) (hwf : n.WF) (hitems : n.items = pre ++ it :: post)
    (hele : si.lpEle = n.encode.cursor (if w.rev then n.gap (pre ++ [it]) post else n.gap pre (it :: post)))
    (fuel : Nat) : streamScanNode n.encode (fuel + 1) si =
      let at_ := { si with
        lpFlags := n.encode.cursor (it.encode n.key ++ n.elements post)
        lpEle := n.encode.cursor (it.pairs ++ n.gap (pre ++ [it]) post) }
      if w.skips it then
        streamScanNode n.encode fuel
          { at_ with lpEle := n.encode.cursor (if w.rev then n.gap pre (it :: post) else n.gap (pre ++ [it]) post) }
      else if w.ends it then some (at_, .stop)
      else
        some ({ at_ with
          entryFlags := it.flags
          masterFieldsPtr := if it.same then si.masterFieldsStart else si.masterFieldsPtr },
          .item it.id it.argv.length) := by
  have hsuf := gap_suffix hitems
  rw [gap_cons] at hsuf
  have h1 := (suffix_cons ..).trans hsuf
  have h2 := (suffix_cons ..).trans h1
  have h3 := (suffix_cons ..).trans h2
  have hgap := n.encode_append_elements pre post it
  have hms := asInt64_range (it.id.ms - n.key.ms)
  have hseq := asInt64_range (it.id.seq - n.key.seq)
  have hfl := it.flags_le
  have hid : (⟨addInt64 si.key.ms (asInt64 (it.id.ms - n.key.ms)), addInt64 si.key.seq (asInt64 (it.id.seq - n.key.seq))⟩ :
      StreamID) = it.id := by
    rw [hin.key, addInt64_asInt64, addInt64_asInt64]
  have hinside : ((if (!w.rev) = true then decide (w.start ≤ it.id) else decide (it.id ≤ w.stop)) && !it.deleted) =
      !w.skips it := by
    have hle : ∀ a b : StreamID, decide (a ≤ b) = !decide (b < a) := fun a b => by
      rw [← decide_not]
      exact decide_eq_decide.2 Nat.not_lt.symm
    rw [skips]
    cases w.rev <;> simp [hle, Bool.and_comm]
  have hbeyond : (if (!w.rev) = true then decide (w.stop < it.id) else decide (it.id < w.start)) = w.ends it := by
    rw [ends]
    cases w.rev <;> simp
  rw [streamScanNode, streamScanNode_moves hin hwf hitems hele]
  dsimp only [bind_eq_bind, bind_some]
  rw [Bool.not_true, if_neg Bool.false_ne_true, hgap, getInteger_cursor (by omega) (by omega) h1, bind_some,
    next_cursor h1, bind_some, getInteger_cursor hms.1 hms.2 h2, bind_some,
    next_cursor h2, bind_some, getInteger_cursor hseq.1 hseq.2 h3, bind_some,
    next_cursor h3, bind_some, hid, Item.hasFlag_same, Item.hasFlag_deleted,
    readNumfields hwf hitems hin.masterFieldsCount, bind_some]
  rw [hin.rev, hin.startKey, hin.endKey, hinside, hbeyond, leaveItem hitems]
  cases w.skips it <;> rfl

theorem streamScanNode_end (hin : In w nodes n ri si) (hitems : n.items = pre ++ post) (hend : w.ahead pre post = [])
    (hele : si.lpEle = n.encode.cursor (n.gap pre post)) (fuel : Nat) :
    ∃ si', streamScanNode n.encode (fuel + 1) si = some (si', .ended) ∧ Outside w nodes ri si' := by
  unfold ahead at hend
  cases hrev : w.rev with
  | false =>
    rw [hrev] at hend
    subst hend
    have hnext : n.encode.next si.lpEle = some none := hele ▸ next_cursor (gap_suffix hitems)
    refine ⟨{ si with lpEle := none }, ?_, ⟨⟨hin.rev, hin.startKey, hin.endKey, hin.tree, hin.sub⟩, .inr rfl⟩⟩
    rw [streamScanNode, hin.rev, hrev, hnext]
    rfl
  | true =>
    rw [hrev, if_pos rfl, reverse_eq_nil_iff] at hend
    subst hend
    have hcount : n.encode.getInteger si.lpEle = some 0 :=
      hele ▸ getInteger_cursor (by decide) (by decide) (gap_suffix hitems)
    refine ⟨{ si with lp := none, lpEle := none }, ?_, ⟨⟨hin.rev, hin.startKey, hin.endKey, hin.tree, hin.sub⟩, .inl rfl⟩⟩
    rw [streamScanNode, hin.rev, hrev, hcount]
    rfl

theorem streamScanNode_spec (hwf : n.WF) (htodo : w.ahead pre post = todo) (hin : In w nodes n ri si)
    (hitems : n.items = pre ++ post) (hele : si.lpEle = n.encode.cursor (n.gap pre post)) (hfuel : todo.length < fuel) :
    ∃ r, streamScanNode n.encode fuel si = some r ∧ ScanOk w nodes n ri todo r := by
  induction todo generalizing pre post si fuel with
  | nil =>
    obtain ⟨fuel, rfl⟩ := Nat.exists_eq_add_one.2 hfuel
    obtain ⟨si', hscan, hout⟩ := streamScanNode_end hin hitems htodo hele fuel
    exact ⟨_, hscan, .ended (by simp) hout⟩
  | cons it todo ih =>
    obtain ⟨fuel, rfl⟩ := Nat.exists_eq_add_one.2 (Nat.zero_lt_of_lt hfuel)
    rw [length_cons] at hfuel
    -- the item beside the gap
    obtain ⟨pre', post', hitems', hgap, hrest⟩ : ∃ pre' post', n.items = pre' ++ it :: post' ∧
        n.gap pre post = (if w.rev then n.gap (pre' ++ [it]) post' else n.gap pre' (it :: post')) ∧
        w.ahead pre' post' = todo := by
      unfold ahead at htodo ⊢
      cases hrev : w.rev with
      | false =>
        rw [hrev] at htodo
        subst htodo
        exact ⟨pre, todo, hitems, by simp, by simp⟩
      | true =>
        rw [hrev, if_pos rfl, reverse_eq_cons_iff] at htodo
        subst htodo
        exact ⟨todo.reverse, post, by simp [hitems], by simp, by simp⟩
    rw [hgap] at hele
    rw [streamScanNode_item hin hwf hitems' hele]
    split
    next hskip =>
      -- the item is passed over: the gap behind it, seen in the direction of the walk
      have hnext : ∃ r, streamScanNode n.encode fuel { si with
          lpFlags := n.encode.cursor (it.encode n.key ++ n.elements post')
          lpEle := n.encode.cursor (if w.rev then n.gap pre' (it :: post') else n.gap (pre' ++ [it]) post') } = some r ∧
          ScanOk w nodes n ri todo r := by
        cases hrev : w.rev with
        | false =>
          have hahead : w.ahead (pre' ++ [it]) post' = todo := by simpa [ahead, hrev] using hrest
          exact ih hahead (hin.move _ _ _ _) (by simp [hitems']) rfl (by omega)
        | true =>
          have hahead : w.ahead pre' (it :: post') = todo := by simpa [ahead, hrev] using hrest
          exact ih hahead (hin.move _ _ _ _) hitems' rfl (by omega)
      obtain ⟨r, hr, hok⟩ := hnext
      exact ⟨r, hr, hok.skip hskip⟩
    next hskip =>
      rw [Bool.not_eq_true] at hskip
      split
      next hends => exact ⟨_, rfl, (nil_append _) ▸ .stop (forall_mem_nil _) hskip hends⟩
      next hends =>
        rw [Bool.not_eq_true] at hends
        refine ⟨_, rfl, hrest ▸ .item (forall_mem_nil _) hskip hends ?_⟩
        refine ⟨hin.move _ _ _ _, hitems', rfl, rfl, rfl, fun hsame => ?_⟩
        rw [hsame]
        exact hin.masterFieldsStart

/-- The iterator is in a gap with the items `todo` before it. -/
def AtGap (w : StreamWalk) (nodes : List StreamNode) (n : StreamNode) (ri : List StreamNode) (todo : List Item)
    (si : StreamIterator) : Prop :=
  ∃ pre post, In w nodes n ri si ∧ n.items = pre ++ post ∧ si.lpEle = n.encode.cursor (n.gap pre post) ∧
    w.ahead pre post = todo

/-! ### From node to node -/

theorem streamEnterNode_spec (hwf : n.WF) (hr : Ready w nodes (n :: ri) si) :
    ∃ si', streamEnterNode si n.key n.encode (ri.map entry) = some si' ∧ AtGap w nodes n ri (w.order n.items) si' := by
  have hf := hwf.length_fields
  have h0 : (lltoa n.live.length :: lltoa n.dead.length :: lltoa n.fields.length :: (n.fields ++ n.gap [] n.items)) <:+
      n.encode := suffix_rfl
  have h1 := (suffix_cons ..).trans h0
  have h2 := (suffix_cons ..).trans h1
  have h3 := (suffix_cons ..).trans h2
  have hfirst : n.encode.first = n.encode.cursor
      (lltoa n.live.length :: lltoa n.dead.length :: lltoa n.fields.length :: (n.fields ++ n.gap [] n.items)) :=
    first_eq_cursor
  have hq : (if !si.rev then n.encode.nextTimes (n.fields.length : Int).toNat
        (n.encode.cursor (n.fields ++ n.gap [] n.items)) else some n.encode.last) =
      some (n.encode.cursor (if w.rev then n.gap n.items [] else n.gap [] n.items)) := by
    rw [hr.rev]
    cases w.rev with
    | false =>
      exact nextTimes_cursor h3
    | true =>
      exact congrArg some (last_eq_cursor (gap_suffix (append_nil _).symm))
  refine ⟨{ si with
    ri := ri.map entry, key := n.key, lp := some n.encode, masterFieldsCount := n.fields.length
    lpEle := n.encode.cursor (if w.rev then n.gap n.items [] else n.gap [] n.items)
    masterFieldsStart := n.encode.cursor (n.fields ++ n.gap [] n.items) }, ?_, ?_⟩
  · unfold streamEnterNode
    rw [hfirst]
    simp only [next_cursor h0, next_cursor h1, next_cursor h2, some_bind,
      getInteger_cursor (show -2 ^ 63 ≤ (n.fields.length : Int) by omega) (by omega) h2, hq]
  · have hin : ∀ p, In w nodes n ri { si with
        ri := ri.map entry, key := n.key, lp := some n.encode, masterFieldsCount := n.fields.length
        lpEle := p, masterFieldsStart := n.encode.cursor (n.fields ++ n.gap [] n.items) } := fun p =>
      ⟨⟨hr.rev, hr.startKey, hr.endKey, rfl, fun m hm => hr.sub m (.tail _ hm)⟩,
        hr.sub n (.head _), rfl, rfl, rfl, rfl⟩
    unfold order
    cases hrev : w.rev with
    | false => exact ⟨[], n.items, hin _, rfl, rfl, by simp [ahead, hrev]⟩
    | true => exact ⟨n.items, [], hin _, by simp, rfl, by simp [ahead, hrev]⟩

theorem streamAdvance_behind (hwf : n.WF) (h : Behind w nodes n ri pre it post si) :
    ∃ si', streamAdvance si = some (some si') ∧ AtGap w nodes n ri (w.ahead pre post) si' := by
  have hsome : (si.lp.isNone || si.lpEle.isNone) = false := by
    rw [h.lp, h.lpEle]
    rfl
  unfold streamAdvance
  rw [hsome, if_neg (by simp), h.rev]
  rcases hrev : w.rev with - | -
  · refine ⟨si, if_neg (by simp), pre ++ [it], post, h.toIn, by simp [h.items], h.lpEle, ?_⟩
    simp [ahead, hrev]
  have hback : prevTimes (3 + it.content.length + 1) si.lpEle = some (n.encode.cursor (n.gap pre (it :: post))) := by
    have hall := gap_suffix h.items
    have hl : (mark pre :: lltoa it.flags :: lltoa (asInt64 (it.id.ms - n.key.ms)) ::
        lltoa (asInt64 (it.id.seq - n.key.seq)) :: it.content).length = 3 + it.content.length + 1 := by
      simp
      omega
    rw [gap_cons] at hall ⊢
    rw [← hl, h.lpEle]
    exact prevTimes_cursor hall (by simp [gap])
  refine ⟨{ si with lpEle := n.encode.cursor (n.gap pre (it :: post)) }, ?_, pre, it :: post,
    h.toIn.move _ _ _ _, h.items, rfl, by simp [ahead, hrev]⟩
  have hcount := getInteger_mark hwf h.items
  rw [← h.lpEle] at hcount
  simp only [if_true, h.lp, hcount, some_bind, Int.toNat_natCast, hback, h.rev, hrev]

theorem streamIteratorGetID_of_gap (hwf : n.WF) {si' : StreamIterator} (hadv : streamAdvance si = some (some si'))
    (hgap : AtGap w nodes n ri todo si')
    (hrest : ∀ si, Outside w nodes ri si → ∃ r, streamIteratorGetID fuel si = some r ∧ GetOk w nodes (w.rest ri) r) :
    ∃ r, streamIteratorGetID (fuel + 1) si = some r ∧ GetOk w nodes (todo ++ w.rest ri) r := by
  obtain ⟨pre, post, hin, hitems, hele, rfl⟩ := hgap
  have hfuel : (w.ahead pre post).length < n.encode.length + 1 := by
    have := n.length_items_le
    rw [hitems, length_append] at this
    unfold ahead
    split
    · rw [length_reverse]
      omega
    · omega
  obtain ⟨⟨si₂, r⟩, hscan, hok⟩ := streamScanNode_spec hwf rfl hin hitems hele hfuel
  rw [streamIteratorGetID]
  simp only [hadv, some_bind, hin.lp, hscan]
  generalize w.ahead pre post = todo at hok
  cases hok with
  | ended hall hout =>
    obtain ⟨r, hr, hget⟩ := hrest _ hout
    exact ⟨r, hr, hget.skipAll hall⟩
  | stop hall h1 h2 =>
    refine ⟨_, rfl, ?_⟩
    rw [append_assoc]
    exact .stop hall h1 h2
  | item hall h1 h2 hload =>
    refine ⟨_, rfl, ?_⟩
    rw [append_assoc]
    exact .item hall h1 h2 hload

theorem Outside.isNone (h : Outside w nodes ri si) : (si.lp.isNone || si.lpEle.isNone) = true := by
  rcases h.lp with h | h <;> simp [h]

theorem streamIteratorGetID_outside (hwf : ∀ n ∈ nodes, n.WF) (h : Outside w nodes ri si) (hfuel : ri.length < fuel) :
    ∃ r, streamIteratorGetID fuel si = some r ∧ GetOk w nodes (w.rest ri) r := by
  induction ri generalizing si fuel with
  | nil =>
    obtain ⟨fuel, rfl⟩ := Nat.exists_eq_add_one.2 hfuel
    refine ⟨(si, none), ?_, .finished (by simp [rest])⟩
    rw [streamIteratorGetID, streamAdvance, if_pos h.isNone, h.tree]
    rfl
  | cons n ri ih =>
    obtain ⟨fuel, rfl⟩ := Nat.exists_eq_add_one.2 (Nat.zero_lt_of_lt hfuel)
    rw [length_cons] at hfuel
    have hn := hwf n (h.sub n (.head _))
    obtain ⟨si', henter, hgap⟩ := streamEnterNode_spec hn h.toReady
    refine streamIteratorGetID_of_gap hn ?_ hgap fun si hout => ih hout (by omega)
    rw [streamAdvance, if_pos h.isNone, h.tree]
    exact congrArg (Option.map some) henter

theorem streamIteratorGetID_behind (hwf : ∀ n ∈ nodes, n.WF) (h : Behind w nodes n ri pre it post si)
    (hfuel : ri.length + 1 < fuel) :
    ∃ r, streamIteratorGetID fuel si = some r ∧ GetOk w nodes (w.ahead pre post ++ w.rest ri) r := by
  obtain ⟨fuel, rfl⟩ := Nat.exists_eq_add_one.2 (Nat.zero_lt_of_lt hfuel)
  have hn := hwf n h.mem
  obtain ⟨si', hadv, hgap⟩ := streamAdvance_behind hn h
  refine streamIteratorGetID_of_gap hn hadv hgap fun si hout => ?_
  exact streamIteratorGetID_outside hwf hout (by omega)

/-! ### Fields and values -/

/-- The fields of `l` that are left to read, in the master entry if they are shared and before the values if not. -/
theorem streamEmitFields_aux {lp G M : LpSeq} (same : Bool) (l : Argv) (hlp : si.lp = some lp)
    (hflags : hasFlag si.entryFlags itemFlagSamefields = same)
    (hele : si.lpEle = lp.cursor ((if same then l.map Prod.snd else l.flatMap fun fv => [fv.1, fv.2]) ++ G))
    (hsuf : (if same then l.map Prod.snd else l.flatMap fun fv => [fv.1, fv.2]) ++ G <:+ lp)
    (hptr : same = true → si.masterFieldsPtr = lp.cursor (l.map Prod.fst ++ M) ∧ l.map Prod.fst ++ M <:+ lp) :
    ∃ m, streamEmitFields l.length si = some ({ si with lpEle := lp.cursor G, masterFieldsPtr := m }, l) := by
  induction l generalizing si with
  | nil =>
    refine ⟨si.masterFieldsPtr, ?_⟩
    have hG : si.lpEle = lp.cursor G := by simpa using hele
    rw [← hG]
    rfl
  | cons fv l ih =>
    have hget : ∃ m, streamIteratorGetField si = some ({ si with
        lpEle := lp.cursor ((if same then l.map Prod.snd else l.flatMap fun fv => [fv.1, fv.2]) ++ G)
        masterFieldsPtr := m }, fv.1, fv.2) ∧
        (same = true → m = lp.cursor (l.map Prod.fst ++ M)) := by
      unfold streamIteratorGetField
      rw [hflags]
      cases same with
      | false =>
        have h1 : fv.1 :: fv.2 :: (l.flatMap (fun fv => [fv.1, fv.2]) ++ G) <:+ lp := hsuf
        have h2 := (suffix_cons ..).trans h1
        have hele' : si.lpEle = lp.cursor (fv.1 :: fv.2 :: (l.flatMap (fun fv => [fv.1, fv.2]) ++ G)) := hele
        simp [hlp, hele', get_cursor h1, next_cursor h1, get_cursor h2, next_cursor h2]
      | true =>
        obtain ⟨hm, hms⟩ := hptr rfl
        have h1 : fv.2 :: (l.map Prod.snd ++ G) <:+ lp := hsuf
        have hele' : si.lpEle = lp.cursor (fv.2 :: (l.map Prod.snd ++ G)) := hele
        have h2 : fv.1 :: (l.map Prod.fst ++ M) <:+ lp := hms
        have hm' : si.masterFieldsPtr = lp.cursor (fv.1 :: (l.map Prod.fst ++ M)) := hm
        simp [hlp, hele', hm', get_cursor h1, next_cursor h1, get_cursor h2, next_cursor h2]
    obtain ⟨m, hfield, hm⟩ := hget
    have hsuf' : (if same then l.map Prod.snd else l.flatMap fun fv => [fv.1, fv.2]) ++ G <:+ lp := by
      cases same with
      | false => exact (suffix_append [_, _] _).trans hsuf
      | true => exact (suffix_cons ..).trans hsuf
    have hptr' (hsame : same = true) : m = lp.cursor (l.map Prod.fst ++ M) ∧ l.map Prod.fst ++ M <:+ lp :=
      ⟨hm hsame, (suffix_cons ..).trans (hptr hsame).2⟩
    obtain ⟨si', hsi'⟩ : ∃ si' : StreamIterator, si' = { si with
        lpEle := lp.cursor ((if same then l.map Prod.snd else l.flatMap fun fv => [fv.1, fv.2]) ++ G)
        masterFieldsPtr := m } := ⟨_, rfl⟩
    obtain ⟨m', hrest⟩ := @ih si' (hsi' ▸ hlp) (hsi' ▸ hflags) (hsi' ▸ rfl) hsuf' (hsi' ▸ hptr')
    rw [hsi'] at hrest
    refine ⟨m', ?_⟩
    rw [length_cons, streamEmitFields]
    simp [hfield, hrest]

theorem streamEmitFields_spec (hwf : n.WF) (h : Loaded w nodes n ri pre it post si) :
    ∃ si', streamEmitFields it.argv.length si = some (si', it.argv) ∧ Behind w nodes n ri pre it post si' := by
  have hflags : hasFlag si.entryFlags itemFlagSamefields = it.same := by rw [h.entryFlags, Item.hasFlag_same]
  obtain ⟨m, hemit⟩ := streamEmitFields_aux it.same it.argv h.lp hflags h.lpEle
    (pairs_suffix h.items) fun hsame => by
      rw [hwf.fields it (by simp [h.items]) hsame]
      exact ⟨h.masterFieldsPtr hsame, suffix_append [_, _, _] _⟩
  exact ⟨_, hemit, h.toIn.move _ _ _ _, h.items, rfl⟩

end StreamWalk

end Redis
