import Redis.StreamEdit

/-! # Trimming a stream

`streamTrimByLength` drops whole nodes from the head of the tree and, unless it may stop short, marks the entries of
one more node. -/

namespace Redis
open List Option StreamNode LpSeq

variable {length : UInt64} {nodes : List StreamNode}

/-- The first `k` live items, deleted. -/
def killFirst : Nat → List Item → List Item
  | 0, l => l
  | _ + 1, [] => []
  | k + 1, it :: l => if it.deleted then it :: killFirst (k + 1) l else it.kill :: killFirst k l

theorem live_killFirst (k : Nat) (l : List Item) :
    (killFirst k l).filter (fun it => !it.deleted) = (l.filter fun it => !it.deleted).drop k := by
  induction l generalizing k with
  | nil => cases k <;> simp [killFirst]
  | cons it l ih =>
    rcases k with - | k
    · rw [killFirst, drop_zero]
    rw [killFirst]
    cases hit : it.deleted with
    | true => simp [hit, ih]
    | false => simp [hit, Item.kill, ih]

theorem dead_killFirst (k : Nat) (l : List Item) (hk : k ≤ (l.filter fun it => !it.deleted).length) :
    ((killFirst k l).filter fun it => it.deleted).length = (l.filter fun it => it.deleted).length + k := by
  induction l generalizing k with
  | nil =>
    obtain rfl : k = 0 := by simpa using hk
    rfl
  | cons it l ih =>
    rcases k with - | k
    · rfl
    rw [killFirst]
    cases hit : it.deleted with
    | true =>
      rw [filter_cons_of_neg (by simp [hit])] at hk
      simp [hit, ih _ hk]
      omega
    | false =>
      rw [filter_cons_of_pos (by simp [hit]), length_cons] at hk
      simp [hit, Item.kill, ih k (by omega)]
      omega

theorem mem_killFirst {k : Nat} {l : List Item} {x : Item} (h : x ∈ killFirst k l) :
    x ∈ l ∨ ∃ it ∈ l, x = it.kill := by
  induction l generalizing k with
  | nil => cases k <;> simp [killFirst] at h
  | cons it l ih =>
    rcases k with - | k
    · exact .inl h
    rw [killFirst] at h
    split at h
    · rcases mem_cons.1 h with rfl | h
      · exact .inl (.head _)
      · rcases ih h with h | ⟨y, hy, he⟩
        · exact .inl (.tail _ h)
        · exact .inr ⟨y, mem_cons_of_mem _ hy, he⟩
    · rcases mem_cons.1 h with rfl | h
      · exact .inr ⟨it, mem_cons_self .., rfl⟩
      · rcases ih h with h | ⟨y, hy, he⟩
        · exact .inl (.tail _ h)
        · exact .inr ⟨y, mem_cons_of_mem _ hy, he⟩

/-! ### The entries of one node -/

section entries
variable {n : StreamNode} {it : Item} {post : List Item} {P : LpSeq}

theorem elements_eq (n : StreamNode) (it : Item) (post : List Item) :
    n.elements (it :: post) = lltoa it.flags :: lltoa (asInt64 (it.id.ms - n.key.ms)) ::
      lltoa (asInt64 (it.id.seq - n.key.seq)) :: (it.content ++ it.mark :: n.elements post) := by
  rw [elements_cons, n.encode_append_elements [], gap, mark_concat]

theorem elements_kill_bytes (P : LpSeq) (n : StreamNode) (it : Item) (post : List Item) :
    bytes (P ++ n.elements (it.kill :: post)) = bytes (P ++ n.elements (it :: post)) := by
  simp only [elements_eq, bytes_append, map_cons, sum_cons, Item.lpElementBytes_flags]
  rfl

theorem append_elements (P : LpSeq) (n : StreamNode) (it : Item) (l : List Item) :
    P ++ n.elements (it :: l) = (P ++ it.encode n.key) ++ n.elements l := by
  rw [elements_cons, append_assoc]

theorem skipEntry (P : LpSeq) (n : StreamNode) (it : Item) (post : List Item) {mc : Int}
    (hsame : it.same = true → mc = it.argv.length)
    (hargv : it.argv.length < 2 ^ 31) {lp : LpSeq} (hlp : lp = P ++ n.elements (it :: post)) :
    ∃ q toSkip q', lp.nextTimes 3 (some P.length) = some q ∧
      (if it.same then some mc else (lp.getInteger q).map fun n => 1 + n * 2) = some toSkip ∧
      lp.nextTimes toSkip.toNat q = some q' ∧ lp.next q' = some (lp.cursor (n.elements post)) := by
  rw [elements_eq] at hlp
  have hsuf : (lltoa it.flags :: lltoa (asInt64 (it.id.ms - n.key.ms)) :: lltoa (asInt64 (it.id.seq - n.key.seq)) ::
      (it.content ++ it.mark :: n.elements post)) <:+ lp := hlp ▸ suffix_append ..
  have hcontent : it.content ++ it.mark :: n.elements post <:+ lp := (suffix_append [_, _, _] _).trans hsuf
  have hstart : some P.length = lp.cursor (lltoa it.flags :: lltoa (asInt64 (it.id.ms - n.key.ms)) ::
      lltoa (asInt64 (it.id.seq - n.key.seq)) :: (it.content ++ it.mark :: n.elements post)) := by
    rw [hlp]
    exact (cursor_mid P _ _).symm
  have hthree : lp.nextTimes 3 (some P.length) = some (lp.cursor (it.content ++ it.mark :: n.elements post)) := by
    rw [hstart]
    exact @LpSeq.nextTimes_cursor _ _ [_, _, _] hsuf
  have hskip : (if it.same then some mc else
      (lp.getInteger (lp.cursor (it.content ++ it.mark :: n.elements post))).map fun n => 1 + n * 2) =
      some (it.content.length : Int) := by
    have hlen := it.length_pairs
    unfold Item.content at hcontent ⊢
    split
    next hs => rw [hsame hs, hlen, if_pos hs]
    next hs =>
      rw [if_neg hs] at hcontent hlen
      rw [cons_append] at hcontent ⊢
      rw [getInteger_cursor (by omega) (by omega) hcontent, map_some, length_cons]
      congr 1
      omega
  refine ⟨_, _, _, hthree, hskip, ?_, next_cursor ((suffix_append ..).trans hcontent)⟩
  exact nextTimes_cursor hcontent

theorem streamTrimEntries_spec (n : StreamNode) {mc : Int} {maxlen length : UInt64} {k : Nat} (hk : 0 < k)
    (hpost : ∀ it ∈ post, (it.same = true → mc = it.argv.length) ∧ it.argv.length < 2 ^ 31)
    (hlive : k ≤ (post.filter fun it => !it.deleted).length) (hlen : length.toNat = maxlen.toNat + k)
    (hsize : bytes (P ++ n.elements post) ≤ uint32Max) {fuel : Nat} (hfuel : post.length < fuel) :
    streamTrimEntries mc maxlen fuel (P ++ n.elements post) ((P ++ n.elements post).cursor (n.elements post)) length =
      some (P ++ n.elements (killFirst k post), maxlen) := by
  induction post generalizing P k length fuel with
  | nil =>
    rw [filter_nil, length_nil] at hlive
    omega
  | cons it post ih =>
    obtain ⟨fuel, rfl⟩ := Nat.exists_eq_add_one.2 (Nat.zero_lt_of_lt hfuel)
    obtain ⟨⟨hsame, hargv⟩, hpost⟩ := forall_mem_cons.1 hpost
    rw [length_cons] at hfuel
    obtain ⟨k, rfl⟩ := Nat.exists_eq_add_one.2 hk
    have hfl := it.flags_le
    have hcur : (P ++ n.elements (it :: post)).cursor (n.elements (it :: post)) = some P.length := by
      exact cursor_mid P _ _
    have hflags : (P ++ n.elements (it :: post)).getInteger (some P.length) = some (it.flags : Int) := by
      rw [← hcur]
      exact getInteger_cursor (by omega) (by omega) (suffix_append ..)
    rw [hcur, streamTrimEntries, killFirst]
    simp only [hflags, bind_eq_bind, bind_some, Item.hasFlag_deleted, Item.hasFlag_same]
    -- the rest of the loop, behind an item that is deleted now
    have hgo : ∀ (x : Item) (k : Nat) (length : UInt64), x.same = it.same → x.argv = it.argv →
        0 < k → k ≤ (post.filter fun it => !it.deleted).length → length.toNat = maxlen.toNat + k →
        bytes (P ++ n.elements (x :: post)) ≤ uint32Max →
        ((nextTimes (P ++ n.elements (x :: post)) 3 (some P.length)).bind fun q =>
          (if it.same then some mc else (getInteger (P ++ n.elements (x :: post)) q).map fun n => 1 + n * 2).bind
          fun toSkip => (nextTimes (P ++ n.elements (x :: post)) toSkip.toNat q).bind fun q =>
          (next (P ++ n.elements (x :: post)) q).bind fun q =>
            streamTrimEntries mc maxlen fuel (P ++ n.elements (x :: post)) q length) =
          some (P ++ n.elements (x :: killFirst k post), maxlen) := by
      intro x k length hs ha hk hle hlen hsize
      have hx : x.same = true → mc = x.argv.length := fun h => by
        rw [ha]
        exact hsame (hs ▸ h)
      obtain ⟨q, toSkip, q', h1, h2, h3, h4⟩ := skipEntry P n x post hx (ha ▸ hargv) rfl
      rw [hs] at h2
      rw [h1, bind_some, h2, bind_some, h3, bind_some, h4]
      rw [append_elements] at hsize ⊢
      rw [append_elements]
      exact ih hk hpost hle hlen hsize (by omega)
    cases hit : it.deleted with
    | true =>
      rw [filter_cons_of_neg (by simp [hit])] at hlive
      exact hgo it (k + 1) length rfl rfl hk hlive hlen hsize
    | false =>
      rw [filter_cons_of_pos (by simp [hit]), length_cons] at hlive
      have hset : replaceInteger (P ++ n.elements (it :: post)) (some P.length) ((it.flags : Int) + itemFlagDeleted) =
          some (P ++ n.elements (it.kill :: post)) := by
        have hb := elements_kill_bytes P n it post
        rw [elements_eq, elements_eq, Item.flags_kill hit] at hb ⊢
        rw [elements_eq] at hsize
        exact (replaceInteger_ite P _ _ _).trans (if_pos (hb ▸ hsize))
      have hsub : (length - 1).toNat = maxlen.toNat + k := by
        rw [UInt64.toNat_sub_of_le _ _ (UInt64.le_iff_toNat_le.2 (by simp; omega)), hlen]
        simp
      simp only [Bool.not_false, if_true, hset, bind_some, Bool.true_and, decide_eq_true_eq, Bool.false_eq_true,
        if_false]
      split
      next hdone =>
        rw [UInt64.le_iff_toNat_le] at hdone
        obtain rfl : k = 0 := by omega
        rw [killFirst, UInt64.toNat_inj.1 hsub]
      next hmore =>
        rw [UInt64.le_iff_toNat_le] at hmore
        exact hgo it.kill k (length - 1) rfl rfl (by omega) (by omega) hsub (elements_kill_bytes P n it post ▸ hsize)

end entries

/-- The node without its first `k` live entries. -/
def StreamNode.trimmed (n : StreamNode) (k : Nat) : StreamNode := { n with items := killFirst k n.items }

def StreamNode.counted (n : StreamNode) (live dead : Int) : LpSeq :=
  lltoa live :: lltoa dead :: (lltoa n.fields.length :: (n.fields ++ lltoa 0 :: n.elements n.items))

section node
variable {n : StreamNode} {k : Nat}

theorem elements_killFirst_bytes (P : LpSeq) (n : StreamNode) (k : Nat) (l : List Item) :
    bytes (P ++ n.elements (killFirst k l)) = bytes (P ++ n.elements l) := by
  induction l generalizing P k with
  | nil => cases k <;> rfl
  | cons it l ih =>
    rcases k with - | k
    · rfl
    rw [killFirst]
    split
    · rw [append_elements, append_elements, ih]
    · rw [append_elements, ih, ← append_elements, elements_kill_bytes]

theorem encode_trimmed (hk : k ≤ n.live.length) :
    (n.trimmed k).encode = (lltoa ((n.live.length - k : Nat) : Int) :: lltoa (n.dead.length + k : Nat) ::
      (lltoa n.fields.length :: (n.fields ++ [lltoa 0]))) ++ n.elements (killFirst k n.items) := by
  have hlive : (n.trimmed k).live.length = n.live.length - k := by
    rw [live, trimmed, live_killFirst, length_drop]
    rfl
  have hdead : (n.trimmed k).dead.length = n.dead.length + k := dead_killFirst k n.items hk
  rw [encode, hlive, hdead]
  simp [trimmed, elements]

theorem counted_eq (n : StreamNode) (a b : Int) : n.counted a b =
    (lltoa a :: lltoa b :: (lltoa n.fields.length :: (n.fields ++ [lltoa 0]))) ++ n.elements n.items := by
  simp [counted]

theorem trimmed_bytes_le (hwf : n.WF) (hk : k ≤ n.live.length) :
    (n.counted (n.live.length - k : Nat) n.dead.length).bytes ≤ n.encode.bytes ∧
      (n.counted (n.live.length - k : Nat) (n.dead.length + k : Nat)).bytes ≤ n.encode.bytes + 4 ∧
      (n.trimmed k).encode.bytes = (n.counted (n.live.length - k : Nat) (n.dead.length + k : Nat)).bytes := by
  have hlive := hwf.length_live
  have hdead := hwf.length_dead
  have h1 := lpElementBytes_mono (a := n.live.length - k) (b := n.live.length) (by omega) (by omega)
  have h3 : lpElementBytes (lltoa (n.dead.length + k : Nat)) ≤ 6 := by
    rw [lpElementBytes_lltoa (by omega) (by omega)]
    split_ifs <;> omega
  have h4 := two_le_lpElementBytes (lltoa n.dead.length)
  refine ⟨?_, ?_, ?_⟩
  · simp [counted, encode, bytes]
    omega
  · simp only [counted, encode, bytes, map_cons, sum_cons]
    omega
  · rw [encode_trimmed hk, counted_eq, elements_killFirst_bytes]

theorem StreamNode.WF.trimmed (hwf : n.WF) (hk : k ≤ n.live.length) (hroom : n.encode.bytes + 4 ≤ uint32Max) :
    (n.trimmed k).WF := by
  obtain ⟨-, hb2, hb3⟩ := trimmed_bytes_le hwf hk
  refine ⟨fun x hx hsame => ?_, by omega⟩
  rcases mem_killFirst hx with hx | ⟨it, hit, rfl⟩
  · exact hwf.fields x hx hsame
  · exact hwf.fields it hit hsame

theorem streamSkipMaster_counted (hwf : n.WF) (a b : Int) :
    streamSkipMaster (n.counted a b) (some 1) =
      some ((n.counted a b).cursor (n.elements n.items), (n.fields.length : Int)) := by
  have hfields := hwf.length_fields
  have h1 : lltoa b :: (lltoa n.fields.length :: (n.fields ++ lltoa 0 :: n.elements n.items)) <:+ n.counted a b :=
    suffix_cons ..
  have h2 := (suffix_cons ..).trans h1
  have h3 := (suffix_cons ..).trans h2
  have hstart : some 1 = (n.counted a b).cursor (lltoa b :: (lltoa n.fields.length ::
      (n.fields ++ lltoa 0 :: n.elements n.items))) := (cursor_mid [lltoa a] _ _).symm
  rw [hstart, streamSkipMaster]
  simp only [next_cursor h1, next_cursor h2, nextTimes_cursor h3, Int.toNat_natCast,
    getInteger_cursor (show -2 ^ 63 ≤ (n.fields.length : Int) by omega) (by omega) h2,
    next_cursor ((suffix_append ..).trans h3), some_bind]

end node

/-! ### The nodes -/

theorem streamTrimNode_part {n : StreamNode} {k : Nat} {maxlen : UInt64} (hwf : n.WF)
    (hroom : n.encode.bytes + 4 ≤ uint32Max) (hk : 0 < k) (hlt : k < n.live.length)
    (hlen : length.toNat = maxlen.toNat + k) (rax : StreamRax) : (do
      let p := n.encode.first
      let lp ← n.encode.replaceInteger p ((n.live.length : Int) - (k : Int))
      let p ← lp.next p
      let markedDeleted ← lp.getInteger p
      let lp ← lp.replaceInteger p (markedDeleted + (k : Int))
      let (p, masterFieldsCount) ← streamSkipMaster lp p
      let (lp, length) ← streamTrimEntries masterFieldsCount maxlen lp.length lp p length
      some ((n.key, lp) :: rax, length)) = some ((n.trimmed k).entry :: rax, maxlen) := by
  have hdead := hwf.length_dead
  obtain ⟨hb1, hb2, hb3⟩ := trimmed_bytes_le hwf hlt.le
  have hlive : (n.live.length : Int) - (k : Int) = (n.live.length - k : Nat) := by omega
  have hcount : n.encode.replaceInteger n.encode.first ((n.live.length : Int) - (k : Int)) =
      some (n.counted (n.live.length - k : Nat) n.dead.length) := by
    rw [hlive]
    exact (replaceInteger_ite [] _ _ _).trans (if_pos (le_trans hb1 hwf.size))
  have hnext : (n.counted (n.live.length - k : Nat) n.dead.length).next n.encode.first = some (some 1) := by
    simp [LpSeq.next, counted, LpSeq.first, encode]
  have hget : (n.counted (n.live.length - k : Nat) n.dead.length).getInteger (some 1) = some (n.dead.length : Int) :=
    lpStringToInt64_lltoa (by omega) (by omega)
  have hset : (n.counted (n.live.length - k : Nat) n.dead.length).replaceInteger (some 1) ((n.dead.length : Int) + (k : Int)) =
      some (n.counted (n.live.length - k : Nat) (n.dead.length + k : Nat)) :=
    (replaceInteger_ite [_] _ _ _).trans (if_pos (le_trans hb2 hroom))
  have hfuel : n.items.length < (n.counted (n.live.length - k : Nat) (n.dead.length + k : Nat)).length := by
    have hle := n.length_items_le
    have hsame : (n.counted (n.live.length - k : Nat) (n.dead.length + k : Nat)).length = n.encode.length := rfl
    have hpos : 0 < n.encode.length := by simp [encode]
    omega
  have hitems : ∀ it ∈ n.items, (it.same = true → (n.fields.length : Int) = it.argv.length) ∧ it.argv.length < 2 ^ 31 :=
    fun it hit => ⟨fun hs => by rw [← hwf.fields it hit hs, length_map], hwf.length_argv hit⟩
  have hentries := streamTrimEntries_spec (P := lltoa ((n.live.length - k : Nat) : Int) :: lltoa (n.dead.length + k : Nat) ::
      (lltoa n.fields.length :: (n.fields ++ [lltoa 0]))) n hk hitems hlt.le hlen
    (by rw [← counted_eq]; omega) hfuel
  rw [← counted_eq] at hentries
  simp only [hcount, some_bind, hnext, hget, hset, streamSkipMaster_counted hwf, hentries,
    entry, encode_trimmed hlt.le]
  rfl

theorem streamTrimNodes_spec (maxlen : UInt64) (approx : Bool) (hwf : ∀ n ∈ nodes, n.WF) (hord : OrderedNodes nodes)
    (hroom : ∀ n ∈ nodes, n.encode.bytes + 4 ≤ uint32Max) (hlen : length.toNat = (liveItems nodes).length) :
    ∃ nodes' length' k, streamTrimNodes maxlen approx (nodes.map entry) length =
        some (nodes'.map entry, length') ∧
      (∀ n ∈ nodes', n.WF) ∧ OrderedNodes nodes' ∧ liveItems nodes' = (liveItems nodes).drop k ∧
      length'.toNat = (liveItems nodes').length ∧ k ≤ length.toNat - maxlen.toNat ∧
      (approx = false → k = length.toNat - maxlen.toNat) := by
  induction nodes generalizing length with
  | nil =>
    rw [show (liveItems []).length = 0 from rfl] at hlen
    exact ⟨[], length, 0, rfl, by simp, hord, rfl, hlen, Nat.zero_le _, fun _ => by omega⟩
  | cons n nodes ih =>
    obtain ⟨hn, hwf'⟩ := forall_mem_cons.1 hwf
    obtain ⟨hnroom, hroom'⟩ := forall_mem_cons.1 hroom
    have hord' : OrderedNodes nodes := (orderedNodes_mid (A := []).1 hord).1
    have hlive := hn.length_live
    have hlen' := hlen
    rw [liveItems_cons, length_append] at hlen'
    rw [map_cons, entry, streamTrimNodes]
    by_cases hle : length ≤ maxlen
    · rw [if_pos hle]
      rw [UInt64.le_iff_toNat_le] at hle
      exact ⟨n :: nodes, length, 0, rfl, hwf, hord, rfl, hlen, Nat.zero_le _, fun _ => by omega⟩
    rw [if_neg hle, hn.getInteger_first]
    rw [UInt64.le_iff_toNat_le] at hle
    have hsub : (addInt64 length (-(n.live.length : Int))).toNat = length.toNat - n.live.length := by
      have hlt := length.toNat_lt
      rw [addInt64, UInt64.toNat_add, UInt64.toNat_ofNat']
      omega
    simp only [some_bind]
    by_cases hwhole : addInt64 length (-(n.live.length : Int)) ≥ maxlen
    · rw [if_pos hwhole]
      rw [ge_iff_le, UInt64.le_iff_toNat_le] at hwhole
      obtain ⟨nodes', length', k, h1, h2, h3, h4, h5, h6, h7⟩ := ih hwf' hord' hroom' (hsub.trans (by omega))
      refine ⟨nodes', length', n.live.length + k, h1, h2, h3, ?_, h5, by omega, fun ha => ?_⟩
      · rw [h4, liveItems_cons, ← drop_drop, drop_left]
      · have := h7 ha
        omega
    rw [if_neg hwhole]
    rw [ge_iff_le, UInt64.le_iff_toNat_le] at hwhole
    by_cases happrox : approx = true
    · rw [if_pos happrox]
      exact ⟨n :: nodes, length, 0, rfl, hwf, hord, rfl, hlen, Nat.zero_le _, fun ha => by rw [happrox] at ha; cases ha⟩
    rw [if_neg happrox]
    obtain ⟨k, hk⟩ : ∃ k, k = length.toNat - maxlen.toNat := ⟨_, rfl⟩
    have hdel : asInt64 (length - maxlen) = (k : Int) := by
      have htoNat := UInt64.toNat_sub_of_le length maxlen (UInt64.le_iff_toNat_le.2 (by omega))
      rw [asInt64, htoNat, if_pos (by omega), hk]
    have hkeep : length.toNat = maxlen.toNat + k := by omega
    have hpart := streamTrimNode_part hn hnroom (by omega) (by omega) hkeep
      (nodes.map entry)
    rw [hdel, if_pos (by omega)]
    have hnlive : (n.trimmed k).live = n.live.drop k := live_killFirst k n.items
    refine ⟨n.trimmed k :: nodes, maxlen, k, hpart, ?_, ?_, ?_, ?_, by omega, fun _ => hk⟩
    · exact forall_mem_cons.2 ⟨hn.trimmed (by omega) hnroom, hwf'⟩
    · refine hord.replace (A := []) rfl ?_ ?_
      · rw [hnlive]
        exact drop_sublist ..
      · rw [hnlive]
        simp
        omega
    · rw [liveItems_cons, liveItems_cons, hnlive, drop_append_of_le_length (by omega)]
    · rw [liveItems_cons, hnlive, length_append, length_drop]
      omega

theorem Holds.trim {s : Stream} (h : Holds nodes s) (maxlen : UInt64) (approx : Bool)
    (hroom : ∀ n ∈ nodes, n.encode.bytes + 4 ≤ uint32Max) :
    ∃ s' nodes' k, streamTrimByLength s maxlen approx = some s' ∧ Holds nodes' s' ∧ s'.lastId = s.lastId ∧
      liveItems nodes' = (liveItems nodes).drop k ∧ k ≤ s.length.toNat - maxlen.toNat ∧
      (approx = false → k = s.length.toNat - maxlen.toNat) := by
  obtain ⟨nodes', length', k, htrim, hwf, hord, hlive, hlen, hk, hexact⟩ :=
    streamTrimNodes_spec maxlen approx h.wf h.order hroom h.length
  refine ⟨{ s with rax := nodes'.map entry, length := length' }, nodes', k, ?_, ?_, rfl, hlive, hk, hexact⟩
  · rw [streamTrimByLength, h.tree, htrim]
    rfl
  · refine ⟨rfl, hwf, hord, fun it hit => h.last it ?_, hlen⟩
    rw [hlive] at hit
    exact mem_of_mem_drop hit

end Redis
