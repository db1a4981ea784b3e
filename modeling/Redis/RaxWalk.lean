import Redis.RaxSeek

/-! # Walking a radix tree, and keys of more than one node

What an iterator still has to report, as a list; the keys with a common prefix are a first part of it.
The last section follows a key that is longer than a node can be through an insertion and a removal. -/

namespace Redis
open List
variable {V : Type}

/-! ### Walking forward -/

def RaxIterator.Yields (r : Rax V) (it : RaxIterator V) (ks : List (List UInt8)) : Prop :=
  ks.Pairwise (· < ·) ∧ ((it.Shows r.head .eof ∧ ks = []) ∨
    (∃ k ∈ r.keys, it.Shows r.head (.seeked k) ∧ ∀ x, x ∈ ks ↔ x ∈ r.keys ∧ k ≤ x) ∨
    ∃ k, it.Shows r.head (.on k) ∧ ∀ x, x ∈ ks ↔ x ∈ r.keys ∧ k < x)

section
variable {r : Rax V} {it : RaxIterator V} {ks : List (List UInt8)}

theorem raxIteratorNextStep_of_step {it' : RaxIterator V} {rep : RaxIterReply}
    (h : (raxIterMachine r).step .next it = some (it', rep)) :
    raxIteratorNextStep r it false = some it' ∧ rep = it'.reply := by
  obtain ⟨it₁, h₁, he⟩ := Option.map_eq_some_iff.1 h
  cases he
  exact ⟨h₁, rfl⟩

theorem eof_of_reply (h : it.reply = .eof) : it.eof = true := by
  by_contra he
  rw [RaxIterator.reply, if_neg he] at h
  cases h

theorem key_of_reply {k : List UInt8} (h : it.reply = .key k) : it.eof = false ∧ it.key = k := by
  unfold RaxIterator.reply at h
  split at h
  · cases h
  next he => exact ⟨by simpa using he, RaxIterReply.key.inj h⟩

theorem sorted_from {keys : Set (List UInt8)} {k : List UInt8} (hk : k ∈ keys) (hs : ks.Pairwise (· < ·))
    (hks : ∀ x, x ∈ ks ↔ x ∈ keys ∧ k ≤ x) : ∃ ks', ks = k :: ks' ∧ ∀ x, x ∈ ks' ↔ x ∈ keys ∧ k < x := by
  have hmem : k ∈ ks := (hks k).2 ⟨hk, List.le_refl k⟩
  rcases ks with _ | ⟨a, ks⟩
  · cases hmem
  rw [pairwise_cons] at hs
  obtain rfl : a = k := by
    rcases mem_cons.1 hmem with rfl | hm
    · rfl
    · exact absurd ((hks a).1 (.head _)).2 (List.not_le.2 (hs.1 k hm))
  refine ⟨ks, rfl, fun x => ⟨fun hx => ?_, fun ⟨hx, hlt⟩ => ?_⟩⟩
  · exact ⟨((hks x).1 (.tail _ hx)).1, hs.1 x hx⟩
  · rcases mem_cons.1 ((hks x).2 ⟨hx, List.le_of_lt hlt⟩) with rfl | hm
    · exact absurd hlt (List.lt_irrefl x)
    · exact hm

theorem raxNext_yields (h : r.Inv) (hy : it.Yields r ks) :
    ∃ it', raxIteratorNextStep r it false = some it' ∧ ((ks = [] ∧ it'.eof = true) ∨
      ∃ k ks', ks = k :: ks' ∧ it'.eof = false ∧ it'.key = k ∧ it'.Yields r ks') := by
  obtain ⟨hs, ⟨hit, rfl⟩ | ⟨k, hk, hit, hks⟩ | ⟨k, hit, hks⟩⟩ := hy
  · obtain ⟨it', rep, c, hstep, hspec, -⟩ := raxIterMachine_simulates h .next it _ hit trivial
    obtain ⟨hnext, rfl⟩ := raxIteratorNextStep_of_step hstep
    exact ⟨it', hnext, .inl ⟨rfl, eof_of_reply hspec.1⟩⟩
  · obtain ⟨it', rep, c, hstep, ⟨hrep, rfl⟩, hit'⟩ := raxIterMachine_simulates h .next it _ hit trivial
    obtain ⟨hnext, rfl⟩ := raxIteratorNextStep_of_step hstep
    obtain ⟨ks', rfl, hks'⟩ := sorted_from hk hs hks
    obtain ⟨heof, hkey⟩ := key_of_reply hrep
    exact ⟨it', hnext, .inr ⟨k, ks', rfl, heof, hkey, (pairwise_cons.1 hs).2, .inr (.inr ⟨k, hit', hks'⟩)⟩⟩
  · obtain ⟨it', rep, c, hstep, hspec, hit'⟩ := raxIterMachine_simulates h .next it _ hit trivial
    obtain ⟨hnext, rfl⟩ := raxIteratorNextStep_of_step hstep
    refine ⟨it', hnext, ?_⟩
    rcases hspec with ⟨k', hleast, hrep, rfl⟩ | ⟨hempty, hrep, rfl⟩
    · right
      obtain ⟨heof, hkey⟩ := key_of_reply hrep
      obtain ⟨ks', rfl, hks'⟩ : ∃ ks', ks = k' :: ks' ∧ ∀ x, x ∈ ks' ↔ x ∈ r.keys ∧ k' < x := by
        refine sorted_from hleast.1.1 hs fun x => (hks x).trans ⟨fun hx => ?_, fun hx => ?_⟩
        · exact ⟨hx.1, hleast.2 hx⟩
        · exact ⟨hx.1, Std.lt_of_lt_of_le hleast.1.2 hx.2⟩
      exact ⟨k', ks', rfl, heof, hkey, (pairwise_cons.1 hs).2, .inr (.inr ⟨k', hit', hks'⟩)⟩
    · left
      refine ⟨eq_nil_iff_forall_not_mem.2 fun x hx => ?_, eof_of_reply hrep⟩
      have hx' : x ∈ ({k' ∈ r.keys | k < k'} : Set (List UInt8)) := (hks x).1 hx
      rw [hempty] at hx'
      exact hx'

theorem raxSeek_yields (h : r.Inv) (it : RaxIterator V) (ele : List UInt8) :
    ∃ it' ks, raxSeek r it .ge ele = some it' ∧ it'.Yields r ks ∧ ∀ x, x ∈ ks ↔ x ∈ r.keys ∧ ele ≤ x := by
  obtain ⟨it', heq, hjust, hden⟩ := raxSeek_spec h it .ge ele
  obtain ⟨ks, hs, hks⟩ := exists_sorted_keys h.wf (ele ≤ ·)
  refine ⟨it', ks, heq, ⟨hs, ?_⟩, hks⟩
  rcases hden with ⟨hp, hempty⟩ | ⟨q, hp, hat, hkey, hd⟩
  · left
    refine ⟨eof_of_pos hp, eq_nil_iff_forall_not_mem.2 fun x hx => ?_⟩
    have hx' : x ∈ RaxSeekOp.candidates r.keys ele .ge := (hks x).1 hx
    rw [hempty] at hx'
    exact hx'
  · obtain ⟨heof, rfl⟩ := pos_eq_some hp
    have hleast : IsLeast {k ∈ r.keys | ele ≤ k} it'.key := hd
    refine .inr (.inl ⟨it'.key, hleast.1.1, ⟨heof, hjust, hat, hkey, rfl⟩, fun x => (hks x).trans ?_⟩)
    exact ⟨fun hx => ⟨hx.1, hleast.2 hx⟩, fun hx => ⟨hx.1, List.le_trans hleast.1.2 hx.2⟩⟩

end

/-! ### Prefixes -/

theorem lt_of_not_initial {p x : List UInt8} (t : List UInt8) (hp : p ≤ x) (hx : ¬ p <+: x) : p ++ t < x := by
  induction p generalizing x with
  | nil => exact absurd nil_prefix hx
  | cons a p ih =>
    rcases x with _ | ⟨b, x⟩
    · exact absurd hp (List.not_le.2 (nil_lt_cons a p))
    rcases cons_le_cons_iff.1 hp with hab | ⟨rfl, hpx⟩
    · exact cons_lt_cons_iff.2 (.inl hab)
    · refine cons_lt_cons_iff.2 (.inr ⟨rfl, ih hpx fun h => hx ?_⟩)
      exact (prefix_cons_inj a).2 h

theorem takeWhile_prefix {p : List UInt8} {ks : List (List UInt8)} (hs : ks.Pairwise (· < ·)) (hp : ∀ x ∈ ks, p ≤ x) :
    ks.takeWhile (fun x => decide (p <+: x)) = ks.filter fun x => decide (p <+: x) := by
  induction ks with
  | nil => rfl
  | cons a ks ih =>
    rw [pairwise_cons] at hs
    by_cases ha : p <+: a
    · rw [takeWhile_cons_of_pos (by simpa using ha), filter_cons_of_pos (by simpa using ha),
        ih hs.2 fun x hx => hp x (.tail _ hx)]
    rw [takeWhile_cons_of_neg (by simpa using ha), filter_cons_of_neg (by simpa using ha)]
    refine (filter_eq_nil_iff.2 fun x hx => ?_).symm
    rw [decide_eq_true_eq]
    rintro ⟨t, rfl⟩
    exact List.lt_asymm (hs.1 _ hx) (lt_of_not_initial t (hp a (.head _)) ha)

/-! ### Keys that do not fit in a node -/

theorem raxMatch_self_append (pre t : List UInt8) : raxMatch pre (pre ++ t) = pre.length := by
  induction pre with
  | nil => cases t <;> rfl
  | cons a pre ih => simp [raxMatch, ih]

theorem raxMatch_branch {x y : UInt8} (hxy : x ≠ y) (pre s t : List UInt8) :
    raxMatch (pre ++ x :: s) (pre ++ y :: t) = pre.length := by
  induction pre with
  | nil => simp [raxMatch, hxy]
  | cons a pre ih => simp [raxMatch, ih]

section
variable {pre mid post : List UInt8} {x y : UInt8}

theorem raxInsertLoop_compress {s : List UInt8} (hs : 1 < s.length) (fuel : Nat) (ts : List (RaxFrame V)) (n : Nat) :
    raxInsertLoop (fuel + 1) raxNewLeaf s ts n = raxInsertLoop fuel raxNewLeaf (s.drop (min s.length raxNodeMaxSize))
        (⟨.compr raxHdrNew (s.take (min s.length raxNodeMaxSize)) raxNewLeaf, 0⟩ :: ts) (n + 1) := by
  rcases s with _ | ⟨c, s⟩
  · cases hs
  rw [raxInsertLoop, if_pos ⟨rfl, hs⟩]
  rfl

theorem raxChain_compr {cs : List UInt8} (hcs : 1 < cs.length) (hdr : RaxHdr V) (n : RaxNode V) :
    raxChain hdr cs n = .compr hdr cs n := by
  rcases cs with _ | ⟨a, _ | ⟨b, cs⟩⟩
  · cases hcs
  · exact absurd hcs (lt_irrefl 1)
  · rfl

def twoNodes (cs post : List UInt8) : RaxNode Unit :=
  .compr raxHdrNew cs (.compr raxHdrNew post (.normal ⟨true, true, none⟩ []))

theorem raxInsert_long (cs post : List UInt8) (hcs : cs.length = raxNodeMaxSize) (hpost : 1 < post.length)
    (hmax : post.length ≤ raxNodeMaxSize) :
    raxInsert raxNew (cs ++ post) none = some (⟨twoNodes cs post, 1, 3⟩, true, none) := by
  have hlen : (cs ++ post).length = cs.length + post.length := length_append
  have hwalk : raxLowWalk (raxNew : Rax Unit) (cs ++ post) = ⟨cs ++ post, raxNewLeaf, 0, []⟩ := by
    obtain ⟨c, s, hs⟩ := exists_cons_of_length_pos (l := cs ++ post) (by omega)
    rw [hs]
    rfl
  have hloop : raxInsertLoop (cs ++ post).length (raxNewLeaf : RaxNode Unit) (cs ++ post) [] 1 =
      some (raxNewLeaf, [⟨.compr raxHdrNew post raxNewLeaf, 0⟩, ⟨.compr raxHdrNew cs raxNewLeaf, 0⟩], 3) := by
    have hmin : min (cs ++ post).length raxNodeMaxSize = raxNodeMaxSize := min_eq_right (by omega)
    obtain ⟨fuel, hf⟩ : ∃ fuel, (cs ++ post).length = fuel + 1 + 1 := ⟨cs.length + post.length - 2, by omega⟩
    rw [hf, raxInsertLoop_compress (by omega), hmin, take_left' hcs, drop_left' hcs,
      raxInsertLoop_compress hpost, min_eq_left hmax]
    simp [raxInsertLoop]
  have hne : cs ++ post ≠ [] := ne_nil_of_length_pos (by omega)
  unfold raxInsert raxGenericInsert
  simp only [hwalk]
  rw [if_neg (fun h => hne h.1)]
  rw [raxInsertRest, show (raxNew : Rax Unit).numnodes = 1 from rfl, hloop]
  rfl

/-- The tree with a key that branches off in the first node. -/
def branched (pre mid post : List UInt8) (x y : UInt8) : RaxNode Unit :=
  .compr raxHdrNew pre (.normal raxHdrNew [(x, twoNodes mid post), (y, .normal ⟨true, true, none⟩ [])])

theorem raxInsert_branch (hxy : x < y) (hpre : 1 < pre.length) (hmid : 1 < mid.length) :
    raxInsert ⟨twoNodes (pre ++ x :: mid) post, 1, 3⟩ (pre ++ [y]) none =
      some (⟨branched pre mid post x y, 2, 6⟩, true, none) := by
  have hmatch := raxMatch_branch (UInt8.ne_of_lt hxy) pre mid []
  have hwalk : raxLowWalk ⟨twoNodes (pre ++ x :: mid) post, 1, 3⟩ (pre ++ [y]) =
      ⟨[y], twoNodes (pre ++ x :: mid) post, pre.length, []⟩ := by
    rw [raxLowWalk, twoNodes, length_append, length_singleton]
    obtain ⟨c, s, hs⟩ := exists_cons_of_length_pos (l := pre ++ [y]) (by simp)
    rw [hs, raxLowWalkLoop, ← hs]
    · simp [hmatch]
    · simp
  have hget : (pre ++ x :: mid)[pre.length]? = some x := by simp
  have hdrop : (pre ++ x :: mid).drop (pre.length + 1) = mid := by simp
  have hlen : (pre ++ x :: mid).length - pre.length - 1 = mid.length := by simp
  have hsplit : raxSplit (raxHdrNew : RaxHdr Unit) (pre ++ x :: mid)
      (.compr raxHdrNew post (.normal ⟨true, true, none⟩ [])) pre.length [] 3 =
        some (.normal raxHdrNew [(x, twoNodes mid post)],
          [⟨.compr raxHdrNew pre (.normal raxHdrNew [(x, twoNodes mid post)]), 0⟩], 5) := by
    have h0 : pre.length ≠ 0 := by omega
    have hm : mid.length ≠ 0 := by omega
    simp only [raxSplit, hget, hlen, hdrop, if_neg hm, raxChain_compr hmid, raxChain_compr hpre, take_left, h0,
      false_and, if_false]
    rfl
  unfold raxInsert raxGenericInsert
  simp only [hwalk]
  simp only [twoNodes, ne_eq, cons_ne_nil, not_false_eq_true, if_true, hsplit]
  have hfind : ∀ n : RaxNode Unit, [(x, n)].findIdx? (fun e => decide (y < e.1)) = none := by
    simp [findIdx?_cons, UInt8.not_lt.2 (UInt8.le_of_lt hxy)]
  simp only [raxInsertRest, raxInsertLoop, RaxNode.size, length_singleton, lt_irrefl, and_false,
    if_false, raxAddChild, hfind]
  rfl

theorem raxLowWalk_branched (hxy : x < y) (hpre : 1 < pre.length) :
    raxLowWalk ⟨branched pre mid post x y, 2, 6⟩ (pre ++ [y]) = ⟨[], .normal ⟨true, true, none⟩ [], 0,
        [⟨.normal raxHdrNew [(x, twoNodes mid post), (y, .normal ⟨true, true, none⟩ [])], 1⟩,
          ⟨branched pre mid post x y, 0⟩]⟩ := by
  rw [raxLowWalk, branched, length_append, length_singleton]
  obtain ⟨c, s, hs⟩ := exists_cons_of_length_pos (l := pre ++ [y]) (by simp)
  rw [hs, raxLowWalkLoop, ← hs]
  · obtain ⟨n, hn⟩ : ∃ n, pre.length = n + 1 := ⟨pre.length - 1, by omega⟩
    simp [raxMatch_self_append, hn, raxLowWalkLoop, findIdx?_cons, UInt8.ne_of_lt hxy]
  · simp

/-- The first pass stops before the last node of the chain, the second one does not. -/
theorem raxScan_overrun (hlen : pre.length + 1 + mid.length = raxNodeMaxSize) (hpost : 0 < post.length) :
    let start : RaxNode Unit := .compr raxHdrNew pre (.normal raxHdrNew [(x, twoNodes mid post)])
    raxScanSize start 1 pre.length = some (3, raxNodeMaxSize) ∧
      raxCollect start = some (pre ++ x :: (mid ++ post), .normal ⟨true, true, none⟩ [], 4) := by
  have hends : ∀ (cs : List UInt8) (n : RaxNode Unit), (RaxNode.compr raxHdrNew cs n).endsChain = false := fun _ _ => rfl
  have hends' : ∀ n : RaxNode Unit, (RaxNode.normal raxHdrNew [(x, n)]).endsChain = false := fun _ => rfl
  have hleaf : (RaxNode.normal (⟨true, true, none⟩ : RaxHdr Unit) []).endsChain = true := rfl
  have h1 : ¬ raxNodeMaxSize < pre.length + 1 := by omega
  have h2 : raxNodeMaxSize < raxNodeMaxSize + post.length := by omega
  constructor
  · simp [raxScanSize, twoNodes, hends, hends', RaxNode.size, h1, h2, hlen]
  · simp [raxCollect, twoNodes, hends, hends', hleaf]

theorem raxRemove_overrun (hxy : x < y) (hpre : 1 < pre.length) (hlen : pre.length + 1 + mid.length = raxNodeMaxSize)
    (hpost : 0 < post.length) : raxRemove ⟨branched pre mid post x y, 2, 6⟩ (pre ++ [y]) = none := by
  obtain ⟨hscan, hcollect⟩ := raxScan_overrun (x := x) hlen hpost
  have hne : (pre ++ x :: (mid ++ post)).length ≠ raxNodeMaxSize := by
    rw [length_append, length_cons, length_append]
    omega
  have hrec : raxRecompress (.normal raxHdrNew [(x, twoNodes mid post)])
      [⟨branched pre mid post x y, 0⟩] 5 = none := by
    have hstart : raxCompressStart (.normal raxHdrNew [(x, twoNodes mid post)]) [⟨branched pre mid post x y, 0⟩] =
        (.compr raxHdrNew pre (.normal raxHdrNew [(x, twoNodes mid post)]), []) := rfl
    unfold raxRecompress
    rw [hstart]
    simp only [RaxNode.size, hscan, hcollect, hne, ne_eq, not_false_eq_true, if_true]
    rfl
  unfold raxRemove
  simp only [raxLowWalk_branched hxy hpre]
  exact congrArg (Option.map _) hrec

end

/-! ### The two passes of the recompression -/

section passes
variable {n : RaxNode V} {cs : List UInt8} {next : RaxNode V} {k : Nat}

/-- The characters of the first `k` nodes of a chain, and the node behind them. -/
def raxFirst : Nat → RaxNode V → List UInt8 × RaxNode V
  | k + 1, .compr _ cs child => (raxFirst k child).map (cs ++ ·) id
  | k + 1, .normal _ [(c, child)] => (raxFirst k child).map (c :: ·) id
  | _, n => ([], n)

/-- Where there is more than one node to join, the second pass takes the nodes and characters that the first one
has counted. -/
def RaxNode.PassesAgree (start : RaxNode V) : Prop :=
  ∃ nodes comprsize, raxScanSize start 1 start.size = some (nodes, comprsize) ∧
    (1 < nodes → ∃ cs next, cs.length = comprsize ∧ raxCollect start = some (cs, next, nodes) ∧
      raxFirst nodes start = (cs, next))

def RaxNode.onlyChild : RaxNode V → Option (RaxNode V)
  | .compr _ _ child => some child
  | .normal _ [(_, child)] => some child
  | .normal _ _ => none

/-- The string of a chain, up to a node with a key, with several children or with none. -/
def RaxNode.chain : RaxNode V → List UInt8
  | .compr _ cs child => if child.endsChain then cs else cs ++ child.chain
  | .normal _ [(c, child)] => if child.endsChain then [c] else c :: child.chain
  | .normal _ _ => []

/-- The string of the chain fits in a node, or not even the first two nodes of the chain do. -/
def RaxNode.ChainFits (start : RaxNode V) : Prop :=
  start.chain.length ≤ raxNodeMaxSize ∨ ∀ child ∈ start.onlyChild, start.size + child.size > raxNodeMaxSize

theorem raxCollect_spec (h : raxCollect n = some (cs, next, k)) : n.chain = cs ∧ raxFirst k n = (cs, next) := by
  fun_induction raxCollect n generalizing cs next k with
  | case1 hdr =>
    cases h
    exact ⟨rfl, rfl⟩
  | case2 hdr ds child hend | case4 hdr c child hend =>
    cases h
    simp [RaxNode.chain, raxFirst, hend]
  | case3 hdr ds child hend ih | case5 hdr c child hend ih =>
    obtain ⟨⟨es, m, k⟩, hc, he⟩ := Option.map_eq_some_iff.1 h
    cases he
    obtain ⟨hchain, hfirst⟩ := ih hc
    rw [RaxNode.chain, if_neg hend, hchain, raxFirst, hfirst]
    exact ⟨rfl, rfl⟩
  | case6 => cases h

theorem raxScanSize_le {nodes comprsize a b : Nat} (h : raxScanSize n nodes comprsize = some (a, b))
    (hle : comprsize ≤ raxNodeMaxSize) : nodes ≤ a ∧ b ≤ raxNodeMaxSize := by
  fun_induction raxScanSize n nodes comprsize with
  | case1 | case2 | case4 =>
    cases h
    exact ⟨le_rfl, hle⟩
  | case3 nodes comprsize hdr ds child hstop ih | case5 nodes comprsize hdr c child hstop ih =>
    obtain ⟨hnodes, hb⟩ := ih h (by omega)
    exact ⟨by omega, hb⟩
  | case6 => cases h

theorem length_chain {child : RaxNode V} (h : n.onlyChild = some child) :
    n.chain.length = n.size + if child.endsChain then 0 else child.chain.length := by
  unfold RaxNode.onlyChild at h
  split at h
  · cases h
    rw [RaxNode.chain, RaxNode.size]
    split <;> simp
  · cases h
    rw [RaxNode.chain, RaxNode.size]
    split <;> simp [Nat.add_comm]
  · cases h

theorem raxScanSize_of_child {child : RaxNode V} (h : n.onlyChild = some child) (nodes comprsize : Nat) :
    raxScanSize n nodes comprsize =
      if child.endsChain ∨ comprsize + child.size > raxNodeMaxSize then some (nodes, comprsize)
      else raxScanSize child (nodes + 1) (comprsize + child.size) := by
  unfold RaxNode.onlyChild at h
  split at h
  · cases h
    rw [raxScanSize]
  · cases h
    rw [raxScanSize]
  · cases h

theorem passesAgree_iff {start : RaxNode V} (hwf : start.WF) (hend : start.endsChain = false) :
    start.PassesAgree ↔ start.ChainFits := by
  obtain ⟨cs, next, k, hch⟩ := raxChainFrom_of_wf hwf hend
  obtain ⟨hchain, hfirst⟩ := raxCollect_spec hch.collect
  obtain ⟨child, hchild⟩ : ∃ child, start.onlyChild = some child := by
    obtain ⟨-, ⟨_, _, child, rfl⟩ | ⟨_, _, child, rfl⟩⟩ := exists_of_not_endsChain hend
    · exact ⟨child, rfl⟩
    · exact ⟨child, rfl⟩
  constructor
  · rintro ⟨nodes, comprsize, hscan, hagree⟩
    by_contra hno
    rw [RaxNode.ChainFits, not_or, Nat.not_le, hchain] at hno
    obtain ⟨hlong, hno⟩ := hno
    have hfit : start.size + child.size ≤ raxNodeMaxSize := by
      by_contra hbig
      exact hno fun c hc => by
        cases hchild.symm.trans hc
        omega
    have hlen := length_chain hchild
    have hgoes : ¬(child.endsChain = true ∨ start.size + child.size > raxNodeMaxSize) := by
      rintro (hlast | hbig)
      · rw [if_pos hlast, hchain] at hlen
        omega
      · omega
    -- the first pass goes on to the second node and then stops too early
    rw [raxScanSize_of_child hchild, if_neg hgoes] at hscan
    obtain ⟨hnodes, hle⟩ := raxScanSize_le hscan hfit
    obtain ⟨cs', next', hsame, hcollect, -⟩ := hagree (by omega)
    rw [hch.collect] at hcollect
    cases hcollect
    omega
  · rintro (hfit | hbig)
    · have hsize := hch.length
      have hpos := hch.pos
      refine ⟨k, cs.length, ?_, fun _ => ⟨cs, next, rfl, hch.collect, hfirst⟩⟩
      rw [hchain] at hfit
      rw [hch.scan 1 start.size (by omega), Nat.add_sub_cancel_left, Nat.add_sub_cancel_left]
    · refine ⟨1, start.size, ?_, fun h => absurd h (lt_irrefl 1)⟩
      rw [raxScanSize_of_child hchild, if_pos (.inr (hbig child hchild))]

end passes

/-- A removal joins the nodes that its first pass has counted, if the chain fits in a node, and in no other case. -/
theorem raxRemove_passes_agree {r : Rax V} {s : List UInt8} {start : RaxNode V} (h : raxMachine.Reachable r)
    (hs : raxRemoveStart r s = some start) : start.PassesAgree ↔ start.ChainFits := by
  have hI := rax_reachable_inv h
  obtain ⟨-, -, hstart⟩ := raxRemove_spec hI.wf hI.numnodes s
  obtain ⟨hwf, hend⟩ := hstart start hs
  exact passesAgree_iff hwf hend

theorem raxRemove_passes_agree_two :
    let r : Rax Unit := ⟨.normal raxHdrNew [(97, .normal raxHdrNew
      [(98, .normal ⟨true, true, none⟩ []), (99, .normal ⟨true, true, none⟩ [])])], 2, 4⟩
    ∃ start, raxRemoveStart r [97, 99] = some start ∧ start.PassesAgree := by
  intro r
  have hrun : raxMachine.run [.insert [97, 98] none, .insert [97, 99] none] raxNew = some (r, _) := rfl
  have hs : raxRemoveStart r [97, 99] = some _ := rfl
  exact ⟨_, hs, (raxRemove_passes_agree (Machine.Reachable.init.of_run hrun) hs).2 (.inl (by decide))⟩

/-- A key of two nodes: removing a key that branches off its first one copies two bytes too many. -/
theorem raxRemove_passes_differ : ∃ (r : Rax Unit) (s : List UInt8) (start : RaxNode Unit) (cs : List UInt8)
    (next : RaxNode Unit), raxMachine.Reachable r ∧ raxRemoveStart r s = some start ∧
      raxScanSize start 1 start.size = some (3, raxNodeMaxSize) ∧ raxCollect start = some (cs, next, 4) ∧
      cs.length = raxNodeMaxSize + 2 := by
  obtain ⟨pre, hpre⟩ : ∃ pre : List UInt8, pre.length = 2 := ⟨[97, 97], rfl⟩
  obtain ⟨mid, hmid⟩ : ∃ mid : List UInt8, mid.length = raxNodeMaxSize - 3 := ⟨replicate _ 0, length_replicate⟩
  have hmax : raxNodeMaxSize = 2 ^ 29 - 1 := rfl
  have hxy : (120 : UInt8) < 121 := by decide
  have hlen : pre.length + 1 + mid.length = raxNodeMaxSize := by omega
  have h₁ := raxInsert_long (pre ++ 120 :: mid) [0, 0] (by rw [length_append, length_cons]; omega) (by decide) (by decide)
  obtain ⟨hscan, hcollect⟩ := raxScan_overrun (x := 120) hlen (by decide : 0 < [(0 : UInt8), 0].length)
  have h₂ : raxInsert ⟨twoNodes (pre ++ 120 :: mid) [0, 0], 1, 3⟩ (pre ++ [121]) none = some _ :=
    raxInsert_branch hxy (by omega) (by omega)
  have hins : ∀ {r r' : Rax Unit} {s : List UInt8}, raxInsert r s none = some (r', true, none) →
      raxMachine.step (.insert s none) r = some (r', .changed true none) := fun h => congrArg (Option.map _) h
  refine ⟨_, pre ++ [121], _, _, _, (Machine.Reachable.init.step (hins h₁)).step (hins h₂), ?_, hscan, hcollect, ?_⟩
  · unfold raxRemoveStart
    simp only [raxLowWalk_branched hxy (by omega : 1 < pre.length)]
    rfl
  · rw [length_append, length_cons, length_append, length_cons, length_singleton]
    omega

end Redis
