import Redis.StreamAppend
import Redis.StreamRange

/-! # Changing a stream

`Holds nodes s` says that the tree of `s` is the list of nodes, in order, and that `length` counts its live entries.
Each function that changes a stream is given by what it does to the nodes. -/

namespace Redis
open List Option StreamWalk StreamNode

/-- The tree of the stream, with its entries in order up to `last_id`. -/
structure Holds (nodes : List StreamNode) (s : Stream) : Prop where
  tree : s.rax = nodes.map StreamNode.entry
  wf : ∀ n ∈ nodes, n.WF
  order : OrderedNodes nodes
  last : ∀ it ∈ liveItems nodes, it.id ≤ s.lastId
  length : s.length.toNat = (liveItems nodes).length

theorem holds_new : Holds [] streamNew :=
  ⟨rfl, by simp, ⟨by simp, by simp, by simp, .nil⟩, by simp [liveItems], rfl⟩

theorem StreamID.lt_irrefl (a : StreamID) : ¬a < a := Nat.lt_irrefl a.toNat

/-! ### The tree as a list -/

section rax
variable {A B : StreamRax} {key : StreamID} {lp lp' : LpSeq}

theorem raxPut_append (h : ∀ e ∈ A, e.1 < key) : raxPut (A ++ B) key lp = A ++ raxPut B key lp := by
  induction A with
  | nil => rfl
  | cons e A ih =>
    obtain ⟨he, hA⟩ := forall_mem_cons.1 h
    have hlt : ¬key < e.1 := Nat.not_lt.2 (Nat.le_of_lt he)
    have hne : e.1 ≠ key := fun heq => Nat.lt_irrefl _ (heq ▸ he)
    rw [cons_append, raxPut, if_neg hlt, if_neg hne, ih hA, cons_append]

theorem raxPut_mid (h : ∀ e ∈ A, e.1 < key) : raxPut (A ++ (key, lp') :: B) key lp = A ++ (key, lp) :: B := by
  rw [raxPut_append h, raxPut, if_neg (StreamID.lt_irrefl key), if_pos rfl]

theorem raxDel_mid (hA : ∀ e ∈ A, e.1 ≠ key) (hB : ∀ e ∈ B, e.1 ≠ key) : raxDel (A ++ (key, lp) :: B) key = A ++ B := by
  have hkeep : ∀ l : StreamRax, (∀ e ∈ l, e.1 ≠ key) → l.filter (fun n => decide (n.1 ≠ key)) = l := fun l hl =>
    filter_eq_self.2 fun e he => decide_eq_true (hl e he)
  rw [raxDel, filter_append, filter_cons_of_neg (by simp), hkeep A hA, hkeep B hB]

end rax

section order
variable {A B : List StreamNode} {n : StreamNode}

theorem liveItems_append (A B : List StreamNode) : liveItems (A ++ B) = liveItems A ++ liveItems B := flatMap_append

theorem liveItems_cons (n : StreamNode) (B : List StreamNode) : liveItems (n :: B) = n.live ++ liveItems B := rfl

/-- What it takes to put a node between two parts of a tree in order. -/
structure Fitting (A B : List StreamNode) (n : StreamNode) : Prop where
  live : n.live ≠ []
  key : ∀ it ∈ n.live, n.key ≤ it.id
  sorted : n.live.Pairwise fun a b => a.id < b.id
  before : ∀ m ∈ A, m.key < n.key ∧ ∀ it ∈ m.live, it.id < n.key
  behind : ∀ m ∈ B, n.key < m.key ∧ ∀ it ∈ n.live, it.id < m.key

theorem orderedNodes_mid : OrderedNodes (A ++ n :: B) ↔ OrderedNodes (A ++ B) ∧ Fitting A B n := by
  constructor
  · rintro ⟨h1, h2, h3, h4⟩
    have hsub : ∀ m ∈ A ++ B, m ∈ A ++ n :: B := fun m hm =>
      ((sublist_cons_self n B).append_left A).subset hm
    have hn : n ∈ A ++ n :: B := mem_append_right _ (.head _)
    obtain ⟨hA, hnB, hcross⟩ := pairwise_append.1 h4
    obtain ⟨hn', hB⟩ := pairwise_cons.1 hnB
    refine ⟨⟨fun m hm => h1 m (hsub m hm), fun m hm => h2 m (hsub m hm), fun m hm => h3 m (hsub m hm), ?_⟩,
      ⟨h1 n hn, h2 n hn, h3 n hn, fun m hm => hcross m hm n (.head _), hn'⟩⟩
    exact pairwise_append.2 ⟨hA, hB, fun a ha b hb => hcross a ha b (.tail _ hb)⟩
  · rintro ⟨⟨h1, h2, h3, h4⟩, hf⟩
    have hcase : ∀ {P : StreamNode → Prop}, (∀ m ∈ A ++ B, P m) → P n → ∀ m ∈ A ++ n :: B, P m := by
      intro P hP hn m hm
      rcases mem_append.1 hm with hm | hm
      · exact hP m (mem_append_left _ hm)
      · rcases mem_cons.1 hm with rfl | hm
        · exact hn
        · exact hP m (mem_append_right _ hm)
    obtain ⟨hA, hB, hcross⟩ := pairwise_append.1 h4
    refine ⟨hcase h1 hf.live, hcase h2 hf.key, hcase h3 hf.sorted, ?_⟩
    refine pairwise_append.2 ⟨hA, pairwise_cons.2 ⟨hf.behind, hB⟩, fun a ha b hb => ?_⟩
    rcases mem_cons.1 hb with rfl | hb
    · exact hf.before a ha
    · exact hcross a ha b hb

end order

/-! ### Appending -/

section append
variable {limits : StreamLimits} {nodes : List StreamNode} {s : Stream} {id : StreamID} {argv : Argv}

theorem Holds.key_le (h : Holds nodes s) {n : StreamNode} (hn : n ∈ nodes) : n.key ≤ s.lastId := by
  obtain ⟨it, hit⟩ := exists_mem_of_ne_nil _ (h.order.live n hn)
  have hlast := h.last it (mem_flatMap.2 ⟨n, hn, hit⟩)
  exact Nat.le_trans (h.order.key n hn it hit) hlast

theorem Holds.fresh (h : Holds nodes s) (hid : s.lastId < id) (argv : Argv) : Fitting nodes [] (fresh id argv) := by
  refine ⟨by simp [StreamNode.fresh, live], ?_, ?_, fun m hm => ⟨?_, fun it hit => ?_⟩, by simp⟩
  · intro it hit
    obtain rfl := mem_singleton.1 hit
    exact Nat.le_refl _
  · exact pairwise_singleton ..
  · exact Nat.lt_of_le_of_lt (h.key_le hm) hid
  · exact Nat.lt_of_le_of_lt (h.last it (mem_flatMap.2 ⟨m, hm, hit⟩)) hid

theorem Holds.append (h : Holds nodes s) (hid : s.lastId < id) (hlen : s.length.toNat + 1 < 2 ^ 64)
    (hfit : (target limits nodes.getLast? id argv).encode.bytes ≤ uint32Max) :
    ∃ nodes' it, Holds nodes' ⟨raxPut s.rax (target limits nodes.getLast? id argv).key
        (target limits nodes.getLast? id argv).encode, s.length + 1, id⟩ ∧
      liveItems nodes' = liveItems nodes ++ [it] ∧ it.emitted = (id, argv) := by
  have hlength : (s.length + 1).toNat = (liveItems nodes).length + 1 := by
    rw [UInt64.toNat_add, h.length]
    exact Nat.mod_eq_of_lt (by rw [← h.length]; exact hlen)
  -- what holds for whatever takes the place of the last node
  have hkeep : ∀ (rax : StreamRax) (nodes' : List StreamNode) (it : Item), liveItems nodes' = liveItems nodes ++ [it] →
      it.emitted = (id, argv) → rax = nodes'.map entry → (∀ m ∈ nodes', m.WF) → OrderedNodes nodes' →
      ∃ nodes' it, Holds nodes' ⟨rax, s.length + 1, id⟩ ∧ liveItems nodes' = liveItems nodes ++ [it] ∧
        it.emitted = (id, argv) := by
    intro rax nodes' it hlive hit htree hwf hord
    refine ⟨nodes', it, ⟨htree, hwf, hord, ?_, ?_⟩, hlive, hit⟩
    · rw [hlive]
      refine forall_mem_append.2 ⟨fun x hx => Nat.le_of_lt (Nat.lt_of_le_of_lt (h.last x hx) hid), ?_⟩
      intro x hx
      obtain rfl := mem_singleton.1 hx
      exact Nat.le_of_eq (congrArg (fun e => e.1.toNat) hit)
    · rw [hlive, length_append]
      exact hlength
  -- a node of its own
  have hnew : (StreamNode.fresh id argv).encode.bytes ≤ uint32Max →
      ∃ nodes' it, Holds nodes' ⟨raxPut s.rax (StreamNode.fresh id argv).key (StreamNode.fresh id argv).encode,
        s.length + 1, id⟩ ∧ liveItems nodes' = liveItems nodes ++ [it] ∧ it.emitted = (id, argv) := by
    intro hfit
    have hlive : liveItems (nodes ++ [StreamNode.fresh id argv]) = liveItems nodes ++ [⟨false, true, id, argv⟩] := by
      rw [liveItems_append]
      rfl
    refine hkeep _ _ _ hlive rfl ?_ ?_ ?_
    · have hlt : ∀ e ∈ nodes.map entry, e.1 < id :=
        forall_mem_map.2 fun n hn => Nat.lt_of_le_of_lt (h.key_le hn) hid
      rw [h.tree, map_append, ← append_nil (nodes.map entry)]
      exact (raxPut_append hlt).trans (by rw [append_nil]; rfl)
    · refine forall_mem_append.2 ⟨h.wf, ?_⟩
      simpa using fresh_wf hfit
    · refine orderedNodes_mid.2 ⟨?_, h.fresh hid argv⟩
      rw [append_nil]
      exact h.order
  rcases eq_nil_or_concat nodes with rfl | ⟨A, n, hA⟩
  · exact hnew hfit
  rw [concat_eq_append] at hA
  subst hA
  rw [getLast?_concat] at hfit ⊢
  by_cases hfull : n.full limits
  · have htarget : target limits (some n) id argv = StreamNode.fresh id argv := if_pos hfull
    rw [htarget] at hfit ⊢
    exact hnew hfit
  have htarget : target limits (some n) id argv = n.push id argv := if_neg hfull
  rw [htarget] at hfit ⊢
  obtain ⟨it, hit⟩ : ∃ it : Item, it = ⟨false, decide (argv.map Prod.fst = n.fields), id, argv⟩ := ⟨_, rfl⟩
  have hpush : (n.push id argv).live = n.live ++ [it] := hit ▸ n.live_push id argv
  have hlive : liveItems (A ++ [n.push id argv]) = liveItems (A ++ [n]) ++ [it] := by
    rw [liveItems_append, liveItems_append, liveItems_cons, hpush]
    simp [liveItems]
  have hitid : it.id = id := by rw [hit]
  have hn : ∀ x ∈ n.live, x ∈ liveItems (A ++ [n]) := fun x hx => by
    rw [liveItems_append, liveItems_cons]
    simp [hx]
  refine hkeep _ _ it hlive (by rw [hit]; rfl) ?_ ?_ ?_
  · have hlt : ∀ e ∈ A.map entry, e.1 < n.key :=
      forall_mem_map.2 fun m hm => ((orderedNodes_mid.1 h.order).2.before m hm).1
    rw [h.tree, map_append, map_append]
    exact raxPut_mid hlt
  · refine forall_mem_append.2 ⟨fun m hm => h.wf m (mem_append_left _ hm), ?_⟩
    simpa using push_wf (h.wf n (by simp)) hfit
  · obtain ⟨hrest, hf⟩ := orderedNodes_mid.1 h.order
    refine orderedNodes_mid.2 ⟨hrest, ⟨by simp [hpush], ?_, ?_, hf.before, by simp⟩⟩
    · rw [hpush]
      refine forall_mem_append.2 ⟨hf.key, ?_⟩
      intro x hx
      obtain rfl := mem_singleton.1 hx
      rw [hitid]
      exact Nat.le_of_lt (Nat.lt_of_le_of_lt (h.key_le (n := n) (by simp)) hid)
    · rw [hpush]
      refine pairwise_append.2 ⟨hf.sorted, pairwise_singleton .., fun x hx y hy => ?_⟩
      obtain rfl := mem_singleton.1 hy
      rw [hitid]
      exact Nat.lt_of_le_of_lt (h.last x (hn x hx)) hid

end append

/-! ### Deleting -/

theorem lpElementBytes_lltoa {v : Int} (h1 : -2 ^ 63 ≤ v) (h2 : v < 2 ^ 63) : lpElementBytes (lltoa v) =
    if 0 ≤ v ∧ v ≤ 127 then 2 else if -4096 ≤ v ∧ v ≤ 4095 then 3 else if -32768 ≤ v ∧ v ≤ 32767 then 4
    else if -8388608 ≤ v ∧ v ≤ 8388607 then 5 else if -2147483648 ≤ v ∧ v ≤ 2147483647 then 6 else 10 := by
  have henc : lpElement (lltoa v) = lpEncodeInt v := by rw [lpElement, lpStringToInt64_lltoa h1 h2]
  have hlen : (lpEncodeInt v).length = if 0 ≤ v ∧ v ≤ 127 then 1 else if -4096 ≤ v ∧ v ≤ 4095 then 2
      else if -32768 ≤ v ∧ v ≤ 32767 then 3 else if -8388608 ≤ v ∧ v ≤ 8388607 then 4
      else if -2147483648 ≤ v ∧ v ≤ 2147483647 then 5 else 9 := by
    unfold lpEncodeInt
    split_ifs <;> simp [leBytes_length]
  rw [lpElementBytes, henc, hlen]
  split_ifs <;> rfl

theorem lpElementBytes_mono {a b : Nat} (hab : a ≤ b) (hb : b < 2 ^ 63) :
    lpElementBytes (lltoa a) ≤ lpElementBytes (lltoa b) := by
  rw [lpElementBytes_lltoa (by omega) (by omega), lpElementBytes_lltoa (by omega) (by omega)]
  split_ifs <;> omega

theorem Item.lpElementBytes_flags (it : Item) : lpElementBytes (lltoa it.flags) = 2 := by
  have := it.flags_le
  rw [lpElementBytes_lltoa (by omega) (by omega), if_pos (by omega)]

def Item.kill (it : Item) : Item := { it with deleted := true }

theorem Item.flags_kill {it : Item} (h : it.deleted = false) : it.kill.flags = it.flags + itemFlagDeleted := by
  unfold flags kill
  rw [h]
  simp
  omega

namespace StreamNode
variable {n : StreamNode} {pre post : List Item} {it : Item}

def killed (n : StreamNode) (pre : List Item) (it : Item) (post : List Item) : StreamNode :=
  { n with items := pre ++ it.kill :: post }

/-- The listpack of a node around the flags of one item, for given counts. -/
def around (n : StreamNode) (pre : List Item) (it : Item) (post : List Item) (live dead flags : Int) : LpSeq :=
  lltoa live :: lltoa dead :: (lltoa n.fields.length :: (n.fields ++ lltoa 0 :: n.elements pre) ++ lltoa flags ::
    (lltoa (asInt64 (it.id.ms - n.key.ms)) :: lltoa (asInt64 (it.id.seq - n.key.seq)) ::
      (it.content ++ n.gap (pre ++ [it]) post)))

theorem around_bytes (n : StreamNode) (pre : List Item) (it : Item) (post : List Item) :
    ∃ K, ∀ live dead flags : Int, (n.around pre it post live dead flags).bytes =
      lpElementBytes (lltoa live) + lpElementBytes (lltoa dead) + lpElementBytes (lltoa flags) + K := by
  refine ⟨7 + ((lltoa n.fields.length :: (n.fields ++ lltoa 0 :: n.elements pre)).map lpElementBytes).sum +
    ((lltoa (asInt64 (it.id.ms - n.key.ms)) :: lltoa (asInt64 (it.id.seq - n.key.seq)) ::
      (it.content ++ n.gap (pre ++ [it]) post)).map lpElementBytes).sum, fun live dead flags => ?_⟩
  simp [around, LpSeq.bytes]
  omega

def flagsAt (n : StreamNode) (pre : List Item) : Nat :=
  (lltoa 0 :: lltoa 0 :: (lltoa n.fields.length :: (n.fields ++ lltoa 0 :: n.elements pre))).length

section around
variable {live dead flags : Int}

theorem around_getFlags (h : 0 ≤ flags ∧ flags < 2 ^ 63) :
    (n.around pre it post live dead flags).getInteger (some (n.flagsAt pre)) = some flags := by
  have hcur : (n.around pre it post live dead flags).cursor (lltoa flags :: (lltoa (asInt64 (it.id.ms - n.key.ms)) ::
      lltoa (asInt64 (it.id.seq - n.key.seq)) :: (it.content ++ n.gap (pre ++ [it]) post))) = some (n.flagsAt pre) :=
    LpSeq.cursor_mid (_ :: _ :: _) _ _
  rw [← hcur]
  exact LpSeq.getInteger_cursor (by omega) h.2 (suffix_append (_ :: _ :: _) _)

theorem around_setFlags (v : Int) : (n.around pre it post live dead flags).replaceInteger (some (n.flagsAt pre)) v =
    if (n.around pre it post live dead v).bytes ≤ uint32Max then some (n.around pre it post live dead v) else none :=
  LpSeq.replaceInteger_ite (_ :: _ :: _) _ _ _

theorem around_setLive (v : Int) : (n.around pre it post live dead flags).replaceInteger (some 0) v =
    if (n.around pre it post v dead flags).bytes ≤ uint32Max then some (n.around pre it post v dead flags) else none :=
  LpSeq.replaceInteger_ite [] _ _ _

theorem around_setDead (v : Int) : (n.around pre it post live dead flags).replaceInteger (some 1) v =
    if (n.around pre it post live v flags).bytes ≤ uint32Max then some (n.around pre it post live v flags) else none :=
  LpSeq.replaceInteger_ite [_] _ _ _

theorem around_getLive (h : 0 ≤ live ∧ live < 2 ^ 63) :
    (n.around pre it post live dead flags).getInteger (some 0) = some live :=
  lpStringToInt64_lltoa (by omega) h.2

theorem around_getDead (h : 0 ≤ dead ∧ dead < 2 ^ 63) :
    (n.around pre it post live dead flags).getInteger (some 1) = some dead :=
  lpStringToInt64_lltoa (by omega) h.2

theorem around_first : (n.around pre it post live dead flags).first = some 0 := rfl

theorem around_next : (n.around pre it post live dead flags).next (some 0) = some (some 1) := by
  simp [LpSeq.next, around]

end around

theorem encode_around (h : n.items = pre ++ it :: post) :
    n.encode = n.around pre it post n.live.length n.dead.length it.flags := by
  rw [encode, around, h, elements, flatMap_append, flatMap_cons, Item.encode_eq, gap, mark_concat]
  simp [elements]

theorem live_killed (h : n.items = pre ++ it :: post) (hit : it.deleted = false) :
    n.live = pre.filter (fun it => !it.deleted) ++ it :: post.filter (fun it => !it.deleted) ∧
      (n.killed pre it post).live = pre.filter (fun it => !it.deleted) ++ post.filter (fun it => !it.deleted) := by
  constructor
  · rw [live, h, filter_append, filter_cons_of_pos (by simp [hit])]
  · rw [live, killed, filter_append, filter_cons_of_neg (by simp [Item.kill])]

theorem dead_killed (h : n.items = pre ++ it :: post) (hit : it.deleted = false) :
    (n.killed pre it post).dead.length = n.dead.length + 1 := by
  have h1 : n.dead = pre.filter (fun it => it.deleted) ++ post.filter (fun it => it.deleted) := by
    rw [dead, h, filter_append, filter_cons_of_neg (by simp [hit])]
  have h2 : (n.killed pre it post).dead =
      pre.filter (fun it => it.deleted) ++ it.kill :: post.filter (fun it => it.deleted) := by
    rw [dead, killed, filter_append, filter_cons_of_pos (by simp [Item.kill])]
  rw [h1, h2]
  simp
  omega

theorem killed_wf (hn : n.WF) (h : n.items = pre ++ it :: post)
    (hfit : (n.killed pre it post).encode.bytes ≤ uint32Max) : (n.killed pre it post).WF := by
  refine ⟨fun x hx hsame => ?_, hfit⟩
  rcases mem_append.1 hx with hx | hx
  · exact hn.fields x (by simp [h, hx]) hsame
  · rcases mem_cons.1 hx with rfl | hx
    · exact hn.fields it (by simp [h]) hsame
    · exact hn.fields x (by simp [h, hx]) hsame

theorem encode_killed (h : n.items = pre ++ it :: post) (hit : it.deleted = false) : (n.killed pre it post).encode =
      n.around pre it post ((n.live.length - 1 : Nat) : Int) (n.dead.length + 1 : Nat) (it.flags + itemFlagDeleted : Nat) := by
  have hlive : (n.killed pre it post).live.length = n.live.length - 1 := by
    obtain ⟨h1, h2⟩ := live_killed h hit
    rw [h1, h2]
    simp
  rw [@encode_around (n.killed pre it post) pre post it.kill rfl, hlive, dead_killed h hit, Item.flags_kill hit,
    around, around, gap, gap, mark_concat, mark_concat]
  rfl

end StreamNode

section delete
variable {nodes A B : List StreamNode} {s : Stream} {w : StreamWalk} {n : StreamNode} {ri : List StreamNode}
  {pre post : List Item} {it : Item} {si : StreamIterator}

theorem streamIteratorRemoveEntry_eq (hwf : n.WF) (hload : StreamWalk.Loaded w nodes n ri pre it post si)
    (hit : it.deleted = false) (hfit : (n.killed pre it post).encode.bytes ≤ uint32Max) :
    streamIteratorRemoveEntry s si = some { s with
      rax := if n.live.length = 1 then raxDel s.rax n.key else raxPut s.rax n.key (n.killed pre it post).encode
      length := s.length - 1 } := by
  have hlive := hwf.length_live
  have hdead := hwf.length_dead
  have hfl := it.flags_le
  have hpos : 0 < n.live.length := by
    rw [(live_killed hload.items hit).1, length_append, length_cons]
    omega
  obtain ⟨K, hK⟩ := n.around_bytes pre it post
  have henc := encode_around hload.items
  have hkill := encode_killed hload.items hit
  have hb1 : lpElementBytes (lltoa (it.flags + itemFlagDeleted : Nat)) = 2 := by
    rw [lpElementBytes_lltoa (by omega) (by simp [itemFlagDeleted]; omega), if_pos (by simp [itemFlagDeleted]; omega)]
  have hb2 := it.lpElementBytes_flags
  have hb3 := lpElementBytes_mono (a := n.dead.length) (b := n.dead.length + 1) (by omega) (by omega)
  have hsize := hwf.size
  rw [henc, hK] at hsize
  rw [hkill, hK] at hfit
  -- the flags
  have hele : si.lpFlags = some (n.flagsAt pre) := by
    rw [hload.lpFlags, n.encode_append_elements pre, henc]
    exact LpSeq.cursor_mid (_ :: _ :: _) _ _
  have hflags : n.encode.getInteger si.lpFlags = some (it.flags : Int) := by
    rw [hele, henc]
    exact n.around_getFlags (by omega)
  have hset : n.encode.replaceInteger si.lpFlags ((it.flags : Int) + itemFlagDeleted) =
      some (n.around pre it post n.live.length n.dead.length (it.flags + itemFlagDeleted : Nat)) := by
    rw [hele, henc]
    refine (n.around_setFlags ..).trans (if_pos ?_)
    rw [hK, ← Int.natCast_add]
    omega
  have hhas : hasFlag (it.flags : Int) itemFlagDeleted = false := it.hasFlag_deleted.trans hit
  unfold streamIteratorRemoveEntry
  simp only [hload.lp, some_bind, hflags, hhas, Bool.false_eq_true, if_false, hset,
    around_first, hload.key, around_getLive (show 0 ≤ (n.live.length : Int) ∧ _ by omega)]
  by_cases hone : n.live.length = 1
  · rw [if_pos (by omega), if_pos hone]
    rfl
  have hlive' : (n.live.length : Int) - 1 = (n.live.length - 1 : Nat) := by omega
  have hmid : (n.around pre it post (n.live.length - 1 : Nat) n.dead.length (it.flags + itemFlagDeleted : Nat)).bytes ≤
      uint32Max := by
    rw [hK]
    omega
  have hend : (n.around pre it post (n.live.length - 1 : Nat) (n.dead.length + 1 : Nat)
      (it.flags + itemFlagDeleted : Nat)).bytes ≤ uint32Max := by
    rw [hK]
    exact hfit
  rw [if_neg (by omega), if_neg hone, around_setLive, hlive', if_pos hmid, some_bind,
    around_next, some_bind, around_getDead (by omega), some_bind,
    around_setDead, ← Int.natCast_succ, if_pos hend, hkill]
  rfl

theorem StreamID.toNat_inj {a b : StreamID} (h : a.toNat = b.toNat) : a = b := by
  have h1 := a.seq.toNat_lt
  have h2 := b.seq.toNat_lt
  unfold StreamID.toNat at h
  obtain ⟨ms', seq'⟩ := b
  dsimp only at h h1 h2
  rw [StreamID.mk.injEq]
  exact ⟨UInt64.toNat_inj.1 (by omega), UInt64.toNat_inj.1 (by omega)⟩

theorem killed_bytes_le (hwf : n.WF) (hitems : n.items = pre ++ it :: post) (hit : it.deleted = false) :
    (n.killed pre it post).encode.bytes ≤ n.encode.bytes + 4 := by
  have hlive := hwf.length_live
  have hdead := hwf.length_dead
  obtain ⟨K, hK⟩ := n.around_bytes pre it post
  have h1 := lpElementBytes_mono (a := n.live.length - 1) (b := n.live.length) (by omega) (by omega)
  have h2 : lpElementBytes (lltoa (it.flags + itemFlagDeleted : Nat)) = lpElementBytes (lltoa it.flags) := by
    rw [← Item.flags_kill hit, Item.lpElementBytes_flags, Item.lpElementBytes_flags]
  have h3 : lpElementBytes (lltoa (n.dead.length + 1 : Nat)) ≤ 6 := by
    rw [lpElementBytes_lltoa (by omega) (by omega)]
    split_ifs <;> omega
  have h4 := LpSeq.two_le_lpElementBytes (lltoa n.dead.length)
  rw [encode_killed hitems hit, encode_around hitems, hK, hK]
  omega

theorem OrderedNodes.replace {n' : StreamNode} (h : OrderedNodes (A ++ n :: B)) (hkey : n'.key = n.key)
    (hsub : n'.live.Sublist n.live) (hne : n'.live ≠ []) : OrderedNodes (A ++ n' :: B) := by
  obtain ⟨hrest, hf⟩ := orderedNodes_mid.1 h
  refine orderedNodes_mid.2 ⟨hrest, ⟨hne, fun it hit => ?_, hf.sorted.sublist hsub, fun m hm => ?_, fun m hm => ?_⟩⟩
  · rw [hkey]
    exact hf.key it (hsub.subset hit)
  · rw [hkey]
    exact hf.before m hm
  · rw [hkey]
    exact ⟨(hf.behind m hm).1, fun it hit => (hf.behind m hm).2 it (hsub.subset hit)⟩

theorem filter_id_ne {L M : List Item} (h : (L ++ it :: M).Pairwise fun a b => a.id < b.id) :
    (L ++ it :: M).filter (fun x => decide (x.id ≠ it.id)) = L ++ M := by
  obtain ⟨-, hM, hcross⟩ := pairwise_append.1 h
  have hne : ∀ x ∈ L ++ M, x.id ≠ it.id := by
    intro x hx heq
    rcases mem_append.1 hx with hx | hx
    · have hlt := hcross x hx it (.head _)
      rw [heq] at hlt
      exact StreamID.lt_irrefl _ hlt
    · have hlt := (pairwise_cons.1 hM).1 x hx
      rw [heq] at hlt
      exact StreamID.lt_irrefl _ hlt
  rw [filter_append, filter_cons_of_neg (by simp), ← filter_append]
  exact filter_eq_self.2 fun x hx => decide_eq_true (hne x hx)

theorem Holds.removeEntry (h : Holds nodes s) (hload : StreamWalk.Loaded w nodes n ri pre it post si)
    (hdel : it.deleted = false) (hroom : n.encode.bytes + 4 ≤ uint32Max) :
    ∃ s' nodes', streamIteratorRemoveEntry s si = some s' ∧ Holds nodes' s' ∧ s'.lastId = s.lastId ∧
      (∀ e ∈ s'.rax, ∃ e₀ ∈ s.rax, e.2.bytes ≤ e₀.2.bytes + 4) ∧
      liveItems nodes' = (liveItems nodes).filter fun x => decide (x.id ≠ it.id) := by
  have hwf := h.wf n hload.mem
  have hkilledBytes := killed_bytes_le hwf hload.items hdel
  have hfit := Nat.le_trans hkilledBytes hroom
  have hremove := streamIteratorRemoveEntry_eq (s := s) hwf hload hdel hfit
  obtain ⟨s', hs'⟩ : ∃ s', s' = { s with
      rax := if n.live.length = 1 then raxDel s.rax n.key else raxPut s.rax n.key (n.killed pre it post).encode
      length := s.length - 1 } := ⟨_, rfl⟩
  rw [← hs'] at hremove
  suffices hholds : ∃ nodes', Holds nodes' s' ∧
      liveItems nodes' = (liveItems nodes).filter fun x => decide (x.id ≠ it.id) by
    obtain ⟨nodes', h1, h2⟩ := hholds
    refine ⟨s', nodes', hremove, h1, by rw [hs'], fun e he => ?_, h2⟩
    rw [hs'] at he
    split at he
    · exact ⟨e, (mem_filter.1 he).1, Nat.le_add_right ..⟩
    · rcases mem_raxPut he with he | rfl
      · exact ⟨e, he, Nat.le_add_right ..⟩
      · exact ⟨n.entry, h.tree ▸ mem_map_of_mem hload.mem, hkilledBytes⟩
  obtain ⟨A, B, rfl⟩ := append_of_mem hload.mem
  obtain ⟨hlive, hkilled⟩ := live_killed hload.items hdel
  generalize pre.filter (fun it => !it.deleted) = P, post.filter (fun it => !it.deleted) = Q at hlive hkilled
  have hsplit : liveItems (A ++ n :: B) = (liveItems A ++ P) ++ it :: (Q ++ liveItems B) := by
    rw [liveItems_append, liveItems_cons, hlive]
    simp
  have hsorted := h.order.liveItems
  rw [hsplit] at hsorted
  have hrest : (liveItems (A ++ n :: B)).filter (fun x => decide (x.id ≠ it.id)) = (liveItems A ++ P) ++ (Q ++ liveItems B) := by
    rw [hsplit]
    exact filter_id_ne hsorted
  -- what holds for whatever is left of the tree
  have hkeep : ∀ nodes' : List StreamNode, s'.rax = nodes'.map entry → (∀ m ∈ nodes', m.WF) →
      OrderedNodes nodes' → liveItems nodes' = (liveItems A ++ P) ++ (Q ++ liveItems B) → Holds nodes' s' := by
    intro nodes' htree hwf' hord hl
    refine ⟨htree, hwf', hord, fun x hx => ?_, ?_⟩
    · rw [hs']
      refine h.last x ?_
      rw [hl, ← hrest] at hx
      exact (mem_filter.1 hx).1
    · have hlen := h.length
      rw [hsplit] at hlen
      rw [hs', hl]
      rw [UInt64.toNat_sub_of_le _ _ (UInt64.le_iff_toNat_le.2 (by rw [hlen]; simp; omega)), hlen]
      simp
      omega
  have hbefore : ∀ e ∈ A.map entry, e.1 < n.key :=
    forall_mem_map.2 fun m hm => ((orderedNodes_mid.1 h.order).2.before m hm).1
  have hbehind : ∀ e ∈ B.map entry, n.key < e.1 :=
    forall_mem_map.2 fun m hm => ((orderedNodes_mid.1 h.order).2.behind m hm).1
  rw [hrest]
  by_cases hone : n.live.length = 1
  · have hnil : P = [] ∧ Q = [] := by
      rw [hlive] at hone
      simp at hone
      exact ⟨length_eq_zero_iff.1 (by omega), length_eq_zero_iff.1 (by omega)⟩
    obtain ⟨rfl, rfl⟩ := hnil
    have hl : liveItems (A ++ B) = (liveItems A ++ []) ++ ([] ++ liveItems B) := by
      rw [liveItems_append, append_nil, nil_append]
    refine ⟨A ++ B, hkeep _ ?_ (fun m hm => h.wf m ?_) (orderedNodes_mid.1 h.order).1 hl, hl⟩
    · rw [hs', if_pos hone, h.tree, map_append, map_append]
      refine raxDel_mid (fun e he heq => ?_) fun e he heq => ?_
      · exact StreamID.lt_irrefl _ (heq ▸ hbefore e he)
      · exact StreamID.lt_irrefl _ (heq ▸ hbehind e he)
    · exact ((sublist_cons_self n B).append_left A).subset hm
  · have hl : liveItems (A ++ n.killed pre it post :: B) = (liveItems A ++ P) ++ (Q ++ liveItems B) := by
      rw [liveItems_append, liveItems_cons, hkilled]
      simp
    refine ⟨A ++ n.killed pre it post :: B, hkeep _ ?_ ?_ ?_ hl, hl⟩
    · rw [hs', if_neg hone, h.tree, map_append, map_append]
      exact raxPut_mid hbefore
    · refine forall_mem_append.2 ⟨fun m hm => h.wf m (mem_append_left _ hm), forall_mem_cons.2 ⟨?_, ?_⟩⟩
      · exact killed_wf hwf hload.items hfit
      · exact fun m hm => h.wf m (mem_append_right _ (.tail _ hm))
    · refine h.order.replace rfl ?_ ?_
      · rw [hkilled, hlive]
        exact (Sublist.refl P).append (sublist_cons_self ..)
      · intro hnil
        simp_all

theorem Holds.find (h : Holds nodes s) (id : StreamID) :
    ∃ si r, streamIteratorGetID (s.rax.length + 1) (streamIteratorStart s (some id) (some id) false) = some (si, r) ∧
      (r = none ∧ (∀ it ∈ liveItems nodes, it.id ≠ id) ∨
        ∃ n ri pre it post k, r = some (it.id, k) ∧ StreamWalk.Loaded ⟨false, id, id⟩ nodes n ri pre it post si ∧
          it.deleted = false ∧ it ∈ liveItems nodes ∧ it.id = id) := by
  obtain ⟨A, B, hAB, hout, hno⟩ := streamIteratorStart_spec h.tree h.order (some id) (some id) false
  change StreamWalk.Outside ⟨false, id, id⟩ nodes B _ at hout
  have hfuel : B.length < s.rax.length + 1 := by
    rw [h.tree, hAB, length_map, length_append]
    omega
  obtain ⟨⟨si, r⟩, hget, hok⟩ := streamIteratorGetID_outside h.wf hout hfuel
  have hemits := emits_rest (w := ⟨false, id, id⟩) (hAB ▸ h.order) hno
  rw [← hAB] at hemits
  have hrange : ∀ it : Item, inRange ⟨false, id, id⟩ it = decide (it.id = id) := by
    intro it
    rw [inRange, ← Bool.decide_and]
    refine decide_eq_decide.2 ⟨fun hle => StreamID.toNat_inj (Nat.le_antisymm hle.2 hle.1), ?_⟩
    rintro rfl
    exact ⟨Nat.le_refl _, Nat.le_refl _⟩
  have hfilter : emits ⟨false, id, id⟩ (rest ⟨false, id, id⟩ B) =
      (liveItems nodes).filter fun it => decide (it.id = id) := by
    rw [← filter_congr fun it _ => hrange it]
    exact hemits
  have habsent : emits ⟨false, id, id⟩ (rest ⟨false, id, id⟩ B) = [] →
      ∀ it ∈ liveItems nodes, it.id ≠ id := fun hnil => by
    rw [hfilter] at hnil
    simpa using hnil
  refine ⟨si, r, hget, ?_⟩
  generalize rest ⟨false, id, id⟩ B = todo at hok hfilter habsent
  cases hok with
  | finished hall => exact .inl ⟨rfl, habsent (emits_of_skips hall)⟩
  | stop hall h1 h2 => exact .inl ⟨rfl, habsent (by rw [emits_cons hall h1, if_pos h2])⟩
  | @item skipped pre post it si n ri hall h1 h2 hload =>
    rw [emits_cons hall h1, if_neg (by simp [h2])] at hfilter
    have hit : it ∈ (liveItems nodes).filter fun it => decide (it.id = id) := hfilter ▸ mem_cons_self ..
    obtain ⟨hitlive, hitid⟩ := mem_filter.1 hit
    exact .inr ⟨n, ri, pre, it, post, _, rfl, hload, (Bool.or_eq_false_iff.1 h1).1, hitlive, of_decide_eq_true hitid⟩

theorem Holds.delete (h : Holds nodes s) (id : StreamID) (hroom : ∀ n ∈ nodes, n.encode.bytes + 4 ≤ uint32Max) :
    ∃ s' nodes', streamDeleteItem s id = some (s', decide (∃ it ∈ liveItems nodes, it.id = id)) ∧ Holds nodes' s' ∧
      s'.lastId = s.lastId ∧ (∀ e ∈ s'.rax, ∃ e₀ ∈ s.rax, e.2.bytes ≤ e₀.2.bytes + 4) ∧
      liveItems nodes' = (liveItems nodes).filter fun it => decide (it.id ≠ id) := by
  obtain ⟨si, r, hget, ⟨rfl, habsent⟩ | ⟨n, ri, pre, it, post, k, rfl, hload, hdel, hit, rfl⟩⟩ := h.find id
  · have hfalse : decide (∃ it ∈ liveItems nodes, it.id = id) = false :=
      decide_eq_false (not_exists.2 fun it hit => habsent it hit.1 hit.2)
    refine ⟨s, nodes, ?_, h, rfl, fun e he => ⟨e, he, Nat.le_add_right ..⟩,
      (filter_eq_self.2 fun it hit => decide_eq_true (habsent it hit)).symm⟩
    rw [streamDeleteItem, hget, hfalse]
    rfl
  · have htrue : decide (∃ x ∈ liveItems nodes, x.id = it.id) = true := decide_eq_true ⟨it, hit, rfl⟩
    obtain ⟨s', nodes', hremove, hholds, hlast, hgrow, hlive⟩ := h.removeEntry hload hdel (hroom n hload.mem)
    refine ⟨s', nodes', ?_, hholds, hlast, hgrow, hlive⟩
    rw [streamDeleteItem, hget, htrue]
    simp [hremove]

end delete

end Redis
