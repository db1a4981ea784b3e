import Redis.QuicklistRange

/-! # Insertion beside an element

Where the node of the element has room, an insertion goes by the place in the ziplist. A full node is
split at the offset of the entry. An entry found from the tail has a negative offset, which the split
also takes for a number of elements. The merges after a split keep all elements. -/

namespace Redis
open List Option

/-! ### Merging -/

section merge
variable {lzf : Ziplist → Nat} {q : Quicklist} {A B L R : List (Nat × QuicklistNode)} {a b i : Nat}
  {x y : QuicklistNode} {c : Nat × QuicklistNode}

@[simp] theorem Quicklist.peek_none (q : Quicklist) : q.peek none = some none := rfl

theorem Quicklist.Is.peek (h : q.Is (A ++ (i, x) :: B)) : q.peek (some i) = some (some x) := by
  show (q.mem i).map _ = _
  rw [h.mem]
  rfl

theorem Quicklist.Is.compress (lzf : Ziplist → Nat) (h : q.Is (A ++ (i, x) :: B)) :
    Returns (fun q' => ∃ ns', q.Next q' ns' ∧ Recoding (A ++ (i, x) :: B) ns') (quicklistCompress lzf q (some i)) := by
  obtain ⟨m, ns', hm, hr, hrec, -⟩ := quicklistCompress_spec lzf h.rep getElem?_of_split (by rw [h.len]; omega)
  exact .of_eq hm ⟨ns', ⟨hr, by rw [Quicklist.withMem_len, h.len, hrec.length_eq], rfl, rfl⟩, hrec⟩

@[simp] theorem QuicklistNode.decompressNode_zl (n : QuicklistNode) : n.decompressNode.zl = n.zl := by
  unfold decompressNode
  split <;> rfl

/-- The end of a merge: the node that is not kept goes. -/
theorem Quicklist.Is.mergeFinish (lzf : Ziplist → Nat) {A₁ B₁ : List (Nat × QuicklistNode)} {z : QuicklistNode}
    (h : q.Is (A₁ ++ (i, x) :: B₁)) (hAB : A₁ ++ B₁ = A ++ (a, z) :: B) :
    Returns (fun r => r.2 = a ∧ ∃ ns', q.Next r.1 ns' ∧ Recoding (A ++ (a, z) :: B) ns') (do
      let q ← quicklistDelNode lzf q i
      let q ← quicklistCompress lzf q (some a)
      some (q, a)) := by
  refine .bind (.of_spec (h.delNode lzf)) fun q₁ ⟨ns₁, h₁, hrec₁, _⟩ => ?_
  rw [hAB] at hrec₁
  have hsplit := hrec₁
  obtain ⟨A', z', B', rfl, -, -, -⟩ := hsplit.split
  exact (h₁.is.compress lzf).bind fun q₂ ⟨ns₂, h₂, hrec₂⟩ => .ret ⟨rfl, ns₂, h₁.trans h₂, hrec₁.trans hrec₂⟩

theorem Quicklist.Is.zlMerge (lzf : Ziplist → Nat) (h : q.Is (A ++ (a, x) :: (b, y) :: B)) :
    Returns (fun r => ∃ z ns', q.Next r.1 ns' ∧ z.zl.toList = x.zl.toList ++ y.zl.toList ∧
      Recoding (A ++ (r.2, z) :: B) ns') (quicklistZiplistMerge lzf q a b) := by
  refine .bind (.of_spec (h.modify _)) fun q₁ h₁ => ?_
  rw [append_snoc] at h₁
  refine .bind (.of_spec (h₁.is.modify _)) fun q₂ h₂ => ?_
  have hb := h₂.is.mem
  rw [← append_snoc] at h₂
  simp only [h₂.is.mem, hb, some_bind, QuicklistNode.decompressNode_zl]
  refine .bind .self fun ⟨zl, first⟩ hz => ?_
  have hzl := ziplistMerge_toList hz
  cases first with
  | true =>
    refine .bind (.of_spec (h₂.is.modify _)) fun q₃ h₃ => ?_
    rw [append_snoc] at h₃
    refine .bind (.of_spec (h₃.is.modify _)) fun q₄ h₄ => ?_
    refine (h₄.is.mergeFinish lzf (append_snoc A _ B).symm).mono fun r ⟨hr, ns', h', hrec⟩ => ?_
    exact ⟨_, ns', (((h₁.trans h₂).trans h₃).trans h₄).trans h', hzl, hr ▸ hrec⟩
  | false =>
    rw [append_snoc] at h₂
    refine .bind (.of_spec (h₂.is.modify _)) fun q₃ h₃ => ?_
    rw [← append_snoc] at h₃
    refine .bind (.of_spec (h₃.is.modify _)) fun q₄ h₄ => ?_
    refine (h₄.is.mergeFinish lzf rfl).mono fun r ⟨hr, ns', h', hrec⟩ => ?_
    exact ⟨_, ns', (((h₁.trans h₂).trans h₃).trans h₄).trans h', hzl, hr ▸ hrec⟩

theorem quicklistTryMerge_none {a b : Option Nat} (h : a = none ∨ b = none) :
    Returns (· = (q, none)) (quicklistTryMerge lzf q a b) := by
  rcases h with rfl | rfl
  · rw [quicklistTryMerge, Quicklist.peek_none, some_bind]
    exact .any fun n => .ret rfl
  · refine .any fun n => ?_
    rw [Quicklist.peek_none]
    cases n <;> exact .ret rfl

theorem Quicklist.Is.prevOf (h : q.Is (L ++ c :: R)) : q.prevOf (some c.1) = some (lastPtr none L) := by
  show (q.mem c.1).map _ = _
  rw [h.mem]
  rfl

theorem Quicklist.Is.nextOf (h : q.Is (L ++ c :: R)) : q.nextOf (some c.1) = some (headPtr R none) := by
  show (q.mem c.1).map _ = _
  rw [h.mem]
  rfl

/-- `q'` has the nodes `ns'`, with the elements of `ns`. -/
def Quicklist.Merged (q q' : Quicklist) (ns ns' : List (Nat × QuicklistNode)) : Prop :=
  q.Next q' ns' ∧ nodeElements ns' = nodeElements ns

theorem Quicklist.Merged.trans {q₁ q₂ : Quicklist} {ns ns₁ ns₂ : List (Nat × QuicklistNode)} (h : q.Merged q₁ ns ns₁)
    (h' : q₁.Merged q₂ ns₁ ns₂) : q.Merged q₂ ns ns₂ := ⟨h.1.trans h'.1, h'.2.trans h.2⟩

/-- The merge of the last node of `A` with the first one of `B`. -/
theorem Quicklist.Is.tryMerge (lzf : Ziplist → Nat) (h : q.Is (A ++ B)) :
    Returns (fun r => ∃ ns', q.Merged r.1 (A ++ B) ns' ∧ (r.2 = none ∧ ns' = A ++ B ∨
      ∃ A₁ a b B₁ n, A = A₁ ++ [a] ∧ B = b :: B₁ ∧ r.2 = some n.1 ∧ Recoding (A₁ ++ n :: B₁) ns'))
      (quicklistTryMerge lzf q (lastPtr none A) (headPtr B none)) := by
  by_cases hn : lastPtr none A = none ∨ headPtr B none = none
  · refine (quicklistTryMerge_none hn).mono fun r hr => ?_
    subst hr
    exact ⟨_, ⟨h, rfl⟩, .inl ⟨rfl, rfl⟩⟩
  rcases eq_nil_or_concat' A with rfl | ⟨A, ⟨a, x⟩, rfl⟩
  · exact absurd (.inl rfl) hn
  rcases B with - | ⟨⟨b, y⟩, B⟩
  · exact absurd (.inr rfl) hn
  have hb := h.peek
  rw [← append_snoc] at h ⊢
  simp only [lastPtr_concat, headPtr_cons, quicklistTryMerge, h.peek, hb, some_bind]
  split
  · refine (h.zlMerge lzf).bind fun r ⟨z, ns', h', hz, hrec⟩ => ?_
    refine .ret ⟨ns', ⟨h', ?_⟩, .inr ⟨A, _, _, B, (r.2, z), rfl, rfl, rfl, hrec⟩⟩
    rw [hrec.elements]
    simp [hz]
  · exact .ret ⟨_, ⟨h, rfl⟩, .inl ⟨rfl, rfl⟩⟩

section
variable (lzf : Ziplist → Nat) (h : q.Is (L ++ c :: R))
include h

theorem Quicklist.Is.mergeBefore : ∃ p, q.prevOf (lastPtr none L) = some p ∧
    Returns (fun r => ∃ L' x' R', q.Merged r.1 (L ++ c :: R) (L' ++ (c.1, x') :: R') ∧
      R'.map Prod.fst = R.map Prod.fst) (quicklistTryMerge lzf q p (lastPtr none L)) := by
  rcases eq_nil_or_concat' L with rfl | ⟨L, b, rfl⟩
  · refine ⟨none, rfl, (quicklistTryMerge_none (.inl rfl)).mono fun r hr => ?_⟩
    exact hr ▸ ⟨[], c.2, R, ⟨h, rfl⟩, rfl⟩
  rw [lastPtr_concat]
  rw [← append_snoc] at h ⊢
  refine ⟨_, h.prevOf, (h.tryMerge lzf).mono fun r ⟨ns', h', hc⟩ => ?_⟩
  rcases hc with ⟨-, rfl⟩ | ⟨A₁, a, b', B₁, n, rfl, hB, -, hrec⟩
  · exact ⟨L ++ [b], c.2, R, by rwa [← append_snoc], rfl⟩
  cases hB
  rw [append_snoc] at hrec
  obtain ⟨L', x', R', rfl, -, -, hR⟩ := hrec.split
  exact ⟨L', x', R', h', hR.ids⟩

theorem Quicklist.Is.mergeAfter : Returns (fun r => ∃ L' x' R', q.Merged r.1 (L ++ c :: R) (L' ++ (c.1, x') :: R'))
    (quicklistTryMerge lzf q (headPtr R none) (headPtr R.tail none)) := by
  rcases R with - | ⟨a, R⟩
  · refine (quicklistTryMerge_none (.inl rfl)).mono fun r hr => ?_
    exact hr ▸ ⟨L, c.2, [], h, rfl⟩
  have he : L ++ c :: a :: R = (L ++ [c] ++ [a]) ++ R := by simp
  have hm := Quicklist.Is.tryMerge lzf (he ▸ h)
  rw [lastPtr_concat, ← he] at hm
  refine hm.mono fun r ⟨ns', h', hc⟩ => ?_
  rcases hc with ⟨-, rfl⟩ | ⟨A₁, a', b, B₁, n, hA, rfl, -, hrec⟩
  · exact ⟨L, c.2, a :: R, h'⟩
  obtain ⟨rfl, -⟩ := append_inj' hA rfl
  rw [← append_snoc] at hrec
  obtain ⟨L', x', R', rfl, -, -, -⟩ := hrec.split
  exact ⟨L', x', R', h'⟩

theorem Quicklist.Is.mergeCenter : Returns (fun r => ∃ L' x' R',
    q.Merged r.1 (L ++ c :: R) (L' ++ (r.2.getD c.1, x') :: R')) (quicklistTryMerge lzf q (lastPtr none L) (some c.1)) := by
  refine (h.tryMerge lzf).mono fun r ⟨ns', h', hc⟩ => ?_
  rcases hc with ⟨hr, rfl⟩ | ⟨A₁, a, b, B₁, n, rfl, hB, hr, hrec⟩
  · rw [hr]
    exact ⟨L, c.2, R, h'⟩
  · rw [hr]
    obtain ⟨L', x', R', rfl, -, -, -⟩ := hrec.split
    exact ⟨L', x', R', h'⟩

/-- The merges around a node keep the elements of the list. -/
theorem Quicklist.Is.mergeNodes : Returns (fun q' => ∃ ns', q.Merged q' (L ++ c :: R) ns')
    (quicklistMergeNodes lzf q c.1) := by
  obtain ⟨p, hp, hbefore⟩ := h.mergeBefore lzf
  simp only [quicklistMergeNodes, h.prevOf, hp, h.nextOf, some_bind]
  refine .bind (P := (· = headPtr R.tail none)) ?_ fun n hn => ?_
  · rcases R with - | ⟨a, R⟩
    · exact .ret rfl
    · rw [append_snoc] at h
      exact .of_eq h.nextOf rfl
  subst hn
  refine hbefore.bind fun r₁ ⟨L₁, x₁, R₁, h₁, hR₁⟩ => ?_
  -- the pointers to the nodes after the center were read before the first merge
  have hhead : headPtr R₁ none = headPtr R none := headPtr_congr hR₁
  have htail : headPtr R₁.tail none = headPtr R.tail none :=
    headPtr_congr (by rw [map_tail, map_tail, hR₁])
  have hafter := h₁.1.is.mergeAfter lzf
  rw [hhead, htail] at hafter
  refine hafter.bind fun r₂ ⟨L₂, x₂, R₂, h₂⟩ => ?_
  simp only [h₂.1.is.prevOf, some_bind]
  refine (h₂.1.is.mergeCenter lzf).bind fun r₃ ⟨L₃, x₃, R₃, h₃⟩ => ?_
  simp only [h₃.1.is.nextOf, some_bind]
  have h₃' := h₃.1.is
  rw [append_snoc] at h₃'
  have hlast := h₃'.tryMerge lzf
  rw [lastPtr_concat, ← append_snoc] at hlast
  exact hlast.bind fun r₄ ⟨ns₄, h₄, _⟩ => .ret ⟨ns₄, ((h₁.trans h₂).trans h₃).trans h₄⟩

end
end merge

/-! ### Splitting a full node -/

section full
variable {q : Quicklist} {A B : List (Nat × QuicklistNode)} {i p : Nat} {x : QuicklistNode} {offset : Int}
  {v : List UInt8} {zl : Ziplist}

theorem ziplistPush_tail (zl₀ : Ziplist) (h : ziplistPush zl₀ v .tail = some zl) : zl.toList = zl₀.toList ++ [v] := by
  have hv := ziplistInsert_values (i := zl₀.entries.length) (s := v) h
  rw [← Ziplist.values_length, take_length, drop_length] at hv
  unfold Ziplist.toList
  rw [hv, map_append, map_singleton, zipEncode_bytes]

/-- The elements of a node after `v` came in front of element `p`, if the node was split at `offset`. -/
def splitBefore (l : List (List UInt8)) (p : Nat) (offset : Int) (v : List UInt8) : List (List UInt8) :=
  l.take p ++ v :: if 0 ≤ offset then l.drop p else []

/-- A negative offset takes all elements from the old node. -/
theorem quicklistSplitNode_before {n rest new : QuicklistNode} (hp : offset = p ∨ offset = (p : Int) - n.zl.entries.length)
    (hin : p < n.zl.entries.length) (hm : n.zl.entries.length < 2 ^ 16)
    (h : quicklistSplitNode n offset false = some (rest, new)) :
    new.zl.toList = n.zl.toList.take p ∧ rest.zl.toList = if 0 ≤ offset then n.zl.toList.drop p else [] := by
  obtain ⟨zl, hz, h⟩ := bind_eq_some_iff.1 h
  obtain ⟨zl', hz', heq⟩ := bind_eq_some_iff.1 h
  cases heq
  simp only [Bool.false_eq_true, if_false] at hz hz'
  have h0 : ziplistIndex n.zl 0 = some 0 := ziplistIndex_place (p := 0) (.inl rfl) (by omega)
  unfold ziplistDeleteRange at hz hz'
  rw [h0] at hz
  rw [ziplistIndex_place hp hin] at hz'
  have hv := ziplistDeleteAt_values hz
  have hv' := ziplistDeleteAt_values hz'
  have hlen : n.zl.values.length = n.zl.entries.length := Ziplist.values_length
  have hall : toUInt32 (-1) = 2 ^ 32 - 1 := rfl
  refine ⟨?_, ?_⟩
  · show zl'.toList = _
    unfold Ziplist.toList
    rw [hv', hall, drop_eq_nil_of_le (by omega), append_nil, map_take]
  · show zl.toList = _
    unfold Ziplist.toList
    rw [hv, take_zero, nil_append, Nat.zero_add, ← map_drop]
    split
    next hpos =>
      obtain rfl : offset = p := by omega
      have hnum : toUInt32 (p : Int) = p := by
        unfold toUInt32
        omega
      rw [hnum]
    next hneg =>
      rw [drop_eq_nil_of_le, map_nil]
      unfold toUInt32
      omega

theorem Quicklist.Is.insertSplit (lzf : Ziplist → Nat) (h : q.Is (A ++ (i, x) :: B))
    (hp : offset = p ∨ offset = (p : Int) - x.zl.entries.length) (hin : p < x.zl.entries.length)
    (hm : x.zl.entries.length < 2 ^ 16) :
    Returns (fun q' => ∃ ns', q.Next q' ns' ∧
      nodeElements ns' = nodeElements A ++ splitBefore x.zl.toList p offset (ziplistArg v) ++ nodeElements B)
      (quicklistInsertSplit lzf q i offset v false) := by
  refine .bind (.of_spec (h.modify _)) fun q₁ h₁ => ?_
  simp only [h₁.is.mem, some_bind]
  refine .bind .self fun ⟨rest, new⟩ hs => .bind .self fun zl hz => .bind (.of_spec (h₁.is.modify _)) fun q₂ h₂ => ?_
  rw [← x.decompressNodeForUse_zl] at hp hin hm
  obtain ⟨hnew, hrest⟩ := quicklistSplitNode_before hp hin hm hs
  rw [x.decompressNodeForUse_zl] at hnew hrest
  refine (h₂.is.insertNode lzf _ false).bind fun q₃ ⟨ns₃, h₃, hrec, _⟩ => ?_
  have hsplit : Recoding (A ++ [(q₂.fresh, (new.setZl zl).incr)] ++ (i, rest) :: B) ns₃ := by rwa [← append_snoc]
  obtain ⟨L, x', R, rfl, -, -, -⟩ := hsplit.split
  refine (h₃.is.mergeNodes lzf).mono fun q₄ ⟨ns₄, h₄, he⟩ => ⟨ns₄, ((h₁.trans h₂).trans h₃).trans h₄, ?_⟩
  have hzl : ((new.setZl zl).incr).zl.toList = x.zl.toList.take p ++ [ziplistArg v] := by
    rw [← hnew]
    exact ziplistPush_tail _ hz
  rw [he, hrec.elements, nodesInserted, nodeElements_append, nodeElements_cons, nodeElements_cons, hzl, hrest, splitBefore]
  simp

/-! ### Insertion -/

theorem Quicklist.Is.insertInto (lzf : Ziplist → Nat) (h : q.Is (A ++ (i, x) :: B)) (insert : Ziplist → Option Ziplist)
    (hz : insert x.zl = some zl) :
    ∃ q', quicklistInsertInto lzf q i insert = some q' ∧ ∃ y, q.Next q' (A ++ (i, y) :: B) ∧ y.zl = zl := by
  obtain ⟨q₁, hq₁, h₁, -⟩ := h.modify QuicklistNode.decompressNodeForUse
  obtain ⟨q₂, hq₂, h₂, -⟩ := h₁.is.modify fun n => (n.setZl zl).incr
  obtain ⟨q₃, hq₃, h₃, -⟩ := h₂.is.recompressOnly lzf
  unfold quicklistInsertInto
  simp only [hq₁, h₁.is.mem, QuicklistNode.decompressNodeForUse_zl, hz, hq₂, hq₃, some_bind]
  refine ⟨q₃, rfl, _, (h₁.trans h₂).trans h₃, ?_⟩
  exact (QuicklistNode.recompressed_recoded lzf _).zl

/-- An insertion in front of element `p` of a full node. -/
theorem Quicklist.Is.insertBefore_full (lzf : Ziplist → Nat) (h : q.Is (A ++ (i, x) :: B))
    (hcap : ∀ a ∈ A, zlCap a.2.zl.values + v.length + 14 < 2 ^ 32) {e : QuicklistEntry} (hn : e.node = some i)
    (hp : e.offset = p ∨ e.offset = (p : Int) - x.zl.entries.length) (hin : p < x.zl.entries.length)
    (hm : x.zl.entries.length < 2 ^ 16) (hfull : quicklistNodeAllowInsert (some x) q.fill v.length = false) :
    Returns (fun q' => nodeElements q'.nodes =
      nodeElements A ++ splitBefore x.zl.toList p e.offset (ziplistArg v) ++ nodeElements B)
      (quicklistInsertBefore lzf q e v) := by
  simp only [quicklistInsertBefore, quicklistInsert, hn, h.mem, some_bind, hfull, Bool.not_false, Bool.not_true,
    Bool.false_and, Bool.and_false, Bool.false_eq_true, if_false, Bool.true_and, Bool.and_true, Bool.false_or]
  refine .any fun nextNode => .any fun prevNode => .bind (P := fun q' => ∃ ns', q.Next q' ns' ∧ nodeElements ns' =
    nodeElements A ++ splitBefore x.zl.toList p e.offset (ziplistArg v) ++ nodeElements B) ?_
    fun q' ⟨ns', h', he⟩ => .ret ?_
  · by_cases hbeside : e.offset = 0 ∧ (lastPtr none A).isSome
    · -- in front of the node: the one before it takes the value if it has room
      obtain ⟨h0, hprev⟩ := hbeside
      obtain rfl : p = 0 := by omega
      rcases eq_nil_or_concat' A with rfl | ⟨A, ⟨j, y⟩, rfl⟩
      · cases hprev
      simp only [h0, decide_true, lastPtr_concat, isSome_some, Bool.true_and, some_bind]
      split
      · have hj := h
        rw [← append_snoc] at hj
        have hy := hcap (j, y) (by simp)
        have harg : (ziplistArg v).length ≤ v.length := length_take_le' ..
        obtain ⟨zl, hz⟩ := ziplistInsert_isSome y.zl y.zl.entries.length (ziplistArg v) (by dsimp only at hy; omega)
        obtain ⟨q', hq', z, h', hzl⟩ := hj.insertInto lzf (fun zl => ziplistPush zl (ziplistArg v) .tail) hz
        refine .of_eq hq' ⟨_, h', ?_⟩
        rw [nodeElements_append, nodeElements_cons, nodeElements_cons, hzl, ziplistPush_tail _ hz]
        simp [splitBefore]
      · rw [if_pos (by simp_all)]
        refine .bind .self fun zl hz => (h.insertNode lzf _ false).mono fun q' ⟨ns', h', hrec, _⟩ => ⟨ns', h', ?_⟩
        have hzl : (((quicklistCreateNode zl).setZl zl).incr).zl.toList = [ziplistArg v] :=
          ziplistPush_tail ziplistNew hz
        rw [hrec.elements, nodesInserted, nodeElements_append, nodeElements_cons, nodeElements_cons, hzl]
        simp [splitBefore]
    · rw [if_neg (by simp_all), if_neg (by simp_all)]
      exact h.insertSplit lzf hp hin hm
  · rw [(h'.setCount _).is.nodes, he]

end full

section place
variable {q : Quicklist} {ns A B : List (Nat × QuicklistNode)} {i p : Nat} {x : QuicklistNode} {v : List UInt8}

theorem split_unique {a a' : Nat × QuicklistNode} {A' B' : List (Nat × QuicklistNode)} {k : Nat}
    (h : A ++ a :: B = A' ++ a' :: B') (h1 : countSum A ≤ k) (h2 : k < countSum A + a.2.count)
    (h1' : countSum A' ≤ k) (h2' : k < countSum A' + a'.2.count) : A = A' ∧ a = a' ∧ B = B' := by
  induction A generalizing A' k with
  | nil =>
    rcases A' with - | ⟨b, A'⟩
    · exact ⟨rfl, cons.inj h⟩
    rw [← (cons.inj h).1, countSum_cons] at h1'
    simp only [countSum_nil] at h2
    omega
  | cons b A ih =>
    cases A' with
    | nil =>
      rw [(cons.inj h).1, countSum_cons] at h1
      simp only [countSum_nil] at h2'
      omega
    | cons b' A' =>
      obtain ⟨rfl, htl⟩ := cons.inj h
      simp only [countSum_cons] at h1 h2 h1' h2'
      obtain ⟨rfl, hab⟩ := ih (k := k - b.2.count) htl (by omega) (by omega) (by omega) (by omega)
      exact ⟨rfl, hab⟩

theorem Quicklist.Is.peek_next (h : q.Is (A ++ (i, x) :: B)) : ∃ n, q.peek (headPtr B none) = some n := by
  rcases B with - | ⟨b, B⟩
  · exact ⟨none, rfl⟩
  · rw [append_snoc] at h
    exact ⟨some b.2, h.peek⟩

theorem Quicklist.Is.peek_prev (h : q.Is (A ++ (i, x) :: B)) : ∃ n, q.peek (lastPtr none A) = some n := by
  rcases eq_nil_or_concat' A with rfl | ⟨A, b, rfl⟩
  · exact ⟨none, rfl⟩
  · rw [← append_snoc] at h
    rw [lastPtr_concat]
    exact ⟨some b.2, h.peek⟩

/-- Where the node has room, an insertion returns. -/
theorem Quicklist.Is.insert_room (lzf : Ziplist → Nat) (h : q.Is (A ++ (i, x) :: B)) {e : QuicklistEntry}
    (hroom : quicklistNodeAllowInsert (some x) q.fill v.length = true)
    (hcap : zlCap x.zl.values + v.length + 14 < 2 ^ 32) (hn : e.node = some i) (hzi : e.zi = some p) (after : Bool) :
    ∃ q', quicklistInsert lzf q e v after = some q' := by
  obtain ⟨nextNode, hnext⟩ := h.peek_next
  obtain ⟨prevNode, hprev⟩ := h.peek_prev
  have harg : (ziplistArg v).length ≤ v.length := length_take_le' ..
  have hins : ∀ j, ∃ zl, ziplistInsert x.zl j (ziplistArg v) = some zl := fun j => ziplistInsert_isSome x.zl j _ (by omega)
  have hinto : ∀ insert : Ziplist → Option Ziplist, (∃ zl, insert x.zl = some zl) → ∃ q',
      (quicklistInsertInto lzf q i insert >>= fun q => some { q with count := q.count + 1 }) = some q' := by
    rintro insert ⟨zl, hz⟩
    obtain ⟨q', hq', -⟩ := h.insertInto lzf insert hz
    rw [hq']
    exact ⟨_, rfl⟩
  unfold quicklistInsert
  simp only [hn, h.mem, hnext, hprev, hroom, hzi, some_bind]
  cases after with
  | false =>
    rw [if_neg (by decide), if_pos (by rfl)]
    exact hinto _ (hins p)
  | true =>
    rw [if_pos (by rfl)]
    refine hinto _ ?_
    split
    · exact hins x.zl.entries.length
    · exact hins _

theorem quicklistInsert_room (lzf : Ziplist → Nat) {e e' : QuicklistEntry} {after : Bool} {c : DCell QuicklistNode}
    (hc : q.mem i = some c) (hroom : quicklistNodeAllowInsert (some c.data) q.fill v.length = true)
    (he : e.node = some i) (he' : e'.node = some i) (hz : e'.zi = e.zi) :
    quicklistInsert lzf q e' v after = quicklistInsert lzf q e v after := by
  unfold quicklistInsert
  cases after <;> simp [he, he', hc, hroom, hz]

/-- The entry is element `p` of the node at address `i`, with an offset. -/
structure QuicklistEntry.At (e : QuicklistEntry) (i p : Nat) (offset : Int) : Prop where
  node : e.node = some i
  zi : e.zi = some p
  offset : e.offset = offset

theorem Quicklist.Counted.index_both (h : q.Counted ns) {k : Nat} (hk : k < q.count) :
    ∃ A i x B q₁ e e' p, ns = A ++ (i, x) :: B ∧ q.Next q₁ (A ++ (i, x.decompressNodeForUse) :: B) ∧
      quicklistIndex q k = some (q₁, e, true) ∧ quicklistIndex q ((k : Int) - q.count) = some (q₁, e', true) ∧
      nodeAt ns k = some (p, x) ∧ p < x.zl.entries.length ∧ e.At i p p ∧ e'.At i p ((p : Int) - x.zl.entries.length) := by
  have hcount := h.count
  have hneg : ¬ (0 : Int) ≤ (k : Int) - q.count := by omega
  rcases h.is.index (k : Int) with ⟨-, hd⟩ | ⟨A, i, x, B, q₁, rfl, h₁, -, hi, hle, hlt, hq₁⟩
  · simp only [indexDist, Int.natCast_nonneg, if_true, Int.toNat_natCast] at hd
    omega
  rcases h.is.index ((k : Int) - q.count) with ⟨-, hd⟩ | ⟨A', i', x', B', q₂, hns, -, -, hi', hle', hlt', hq₂⟩
  · simp only [indexDist, hneg, if_false] at hd
    omega
  simp only [indexDist, indexSkip, hneg, if_false] at hle' hlt'
  simp only [indexDist, indexSkip, Int.natCast_nonneg, if_true, Int.toNat_natCast] at hle hlt
  have hsum := congrArg countSum hns
  simp only [countSum_append, countSum_cons] at hsum hcount
  obtain ⟨rfl, hax, rfl⟩ := split_unique (k := k) hns hle hlt (by omega) (by dsimp only; omega)
  cases hax
  obtain rfl : q₁ = q₂ := some.inj (hq₁.symm.trans hq₂)
  have hx : x.count = x.zl.entries.length := (h.nodes (i, x) (by simp)).1
  have hoff : indexOffset (k : Int) A B = (k - countSum A : Nat) := by
    simp only [indexOffset, Int.natCast_nonneg, if_true]
    omega
  have hoff' : indexOffset ((k : Int) - q.count) A B = ((k - countSum A : Nat) : Int) - x.zl.entries.length := by
    simp only [indexOffset, hneg, if_false]
    omega
  have hin : k - countSum A < x.zl.entries.length := by omega
  exact ⟨A, i, x, B, q₁, _, _, _, rfl, h₁, hi, hi', nodeAt_split hle hlt, hin,
    ⟨rfl, ziplistIndex_place (.inl hoff) hin, hoff⟩, ⟨rfl, ziplistIndex_place (.inr hoff') hin, hoff'⟩⟩

/-- Two operations return lists with the same elements and the same count. -/
def SameElements (r r' : Option Quicklist) : Prop :=
  ∃ q q', r = some q ∧ r' = some q' ∧ nodeElements q.nodes = nodeElements q'.nodes ∧ q.count = q'.count

/-- An element is found from both ends, and the insertions beside it do the same either way if and only if its node
has room. -/
theorem quicklistInsert_from_tail (lzf : Ziplist → Nat) (h : q.Counted ns) {k : Nat} (hk : k < q.count) (v : List UInt8)
    (hcap : ∀ a ∈ ns, zlCap a.2.zl.values + v.length + 14 < 2 ^ 32) :
    ∃ q₁ e e', quicklistIndex q k = some (q₁, e, true) ∧ quicklistIndex q ((k : Int) - q.count) = some (q₁, e', true) ∧
      (SameElements (quicklistInsertBefore lzf q₁ e' v) (quicklistInsertBefore lzf q₁ e v) ∧
        SameElements (quicklistInsertAfter lzf q₁ e' v) (quicklistInsertAfter lzf q₁ e v) ↔
        ∀ t ∈ nodeAt q.nodes k, quicklistNodeAllowInsert (some t.2) q.fill v.length = true) := by
  obtain ⟨A, i, x, B, q₁, e, e', p, rfl, h₁, hi, hi', hat, hin, he, he'⟩ := h.index_both hk
  have hx16 : x.zl.entries.length < 2 ^ 16 := by
    obtain ⟨hx, hlt⟩ : Counts x.zl x.count := h.nodes (i, x) (by simp)
    omega
  have hallow : quicklistNodeAllowInsert (some x.decompressNodeForUse) q₁.fill v.length =
      quicklistNodeAllowInsert (some x) q.fill v.length := by
    rw [h₁.fill]
    unfold QuicklistNode.decompressNodeForUse
    split <;> rfl
  have hcapx := hcap (i, x) (by simp)
  rw [← x.decompressNodeForUse_zl] at hin hx16 he' hcapx
  refine ⟨q₁, e, e', hi, hi', ?_⟩
  rw [h.is.nodes, hat]
  simp only [mem_def, some.injEq, forall_eq']
  rw [← hallow]
  by_cases hroom : quicklistNodeAllowInsert (some x.decompressNodeForUse) q₁.fill v.length = true
  · have hsame : ∀ after, SameElements (quicklistInsert lzf q₁ e' v after) (quicklistInsert lzf q₁ e v after) := by
      intro after
      obtain ⟨q', hq'⟩ := h₁.is.insert_room lzf hroom hcapx he.node he.zi after
      rw [quicklistInsert_room lzf h₁.is.mem hroom he.node he'.node (he'.zi.trans he.zi.symm)]
      exact ⟨q', q', hq', hq', rfl, rfl⟩
    exact iff_of_true ⟨hsame false, hsame true⟩ hroom
  · -- through the entry from the tail the elements behind the place are lost
    refine iff_of_false ?_ hroom
    rintro ⟨⟨q₂, q₃, hq₂, hq₃, hsame, -⟩, -⟩
    rw [Bool.not_eq_true] at hroom
    have hcapA := (forall_mem_append.1 hcap).1
    have h₂ := h₁.is.insertBefore_full lzf hcapA he'.node (.inr he'.offset) hin hx16 hroom q₂ hq₂
    have h₃ := h₁.is.insertBefore_full lzf hcapA he.node (.inl he.offset) hin hx16 hroom q₃ hq₃
    rw [h₂, h₃, he.offset, he'.offset, splitBefore, splitBefore, if_pos (Int.natCast_nonneg p), if_neg (by omega)] at hsame
    have hlen := congrArg length hsame
    simp only [length_append, length_cons, length_nil, length_drop, Ziplist.toList_length] at hlen
    omega

theorem quicklistInsert_from_tail_last :
    ∃ q rs, (quicklistMachine (fun _ => 0) 4 0).run fiveElements (quicklistNew 4 0) = some (q, rs) ∧
      ∃ q₁ e e', quicklistIndex q (4 : Nat) = some (q₁, e, true) ∧
      quicklistIndex q (((4 : Nat) : Int) - q.count) = some (q₁, e', true) ∧
      SameElements (quicklistInsertBefore (fun _ => 0) q₁ e' [120]) (quicklistInsertBefore (fun _ => 0) q₁ e [120]) ∧
      SameElements (quicklistInsertAfter (fun _ => 0) q₁ e' [120]) (quicklistInsertAfter (fun _ => 0) q₁ e [120]) := by
  obtain ⟨q, rs, hrun, h, hcap, -, hk, hroom⟩ := fiveElements_counted
  obtain ⟨q₁, e, e', hi, hi', hsame⟩ := quicklistInsert_from_tail (fun _ => 0) h hk [120] hcap
  exact ⟨q, rs, hrun, q₁, e, e', hi, hi', hsame.2 hroom⟩

/-- In front of the second element of a full node, found from the tail: the rest of the node is lost. -/
theorem quicklistInsert_from_tail_loses :
    (∃ q rs, (quicklistMachine (fun _ => 0) 4 0).run (fiveElements ++ [.insert 1 [120] false]) (quicklistNew 4 0) =
      some (q, rs) ∧ nodeElements q.nodes = [[97], [120], [98], [99], [100], [101]]) ∧
    ∃ q rs, (quicklistMachine (fun _ => 0) 4 0).run (fiveElements ++ [.insert (-4) [120] false]) (quicklistNew 4 0) =
      some (q, rs) ∧ nodeElements q.nodes = [[97], [120], [101]] := by
  refine ⟨⟨_, _, rfl, ?_⟩, _, _, rfl, ?_⟩
  all_goals decide

end place

end Redis
