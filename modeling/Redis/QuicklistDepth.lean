import Redis.QuicklistOps

/-! # The compress depth of a quicklist

No node among the first and the last `compress` ones is compressed, in every run of pushes, pops and
insertions and deletions of nodes. `__quicklistDelNode` breaks this where it leaves exactly
`2 * compress` nodes: the two pointers of `__quicklistCompress` have passed each other by then, and
with a depth of at least two it compresses the nodes they point to. -/

namespace Redis
open List Option

/-- Calls that do not go through `quicklistDecompressNodeForUse`; nodes are counted from the head. -/
inductive DepthOp
  | push (where_ : ListEnd) (v : List UInt8)
  | pop (where_ : ListEnd)
  | insertNode (k : Nat) (zl : Ziplist) (after : Bool)
  | delNode (k : Nat)

/-- The node that `quicklistAppendZiplist` makes of a ziplist. -/
def ziplistNode (zl : Ziplist) : QuicklistNode :=
  { (quicklistCreateNode zl).setZl zl with count := nodeCountAdd 0 (ziplistLen zl) }

def depthStep (lzf : Ziplist → Nat) : DepthOp → Quicklist → Option (Quicklist × Unit)
  | .push where_ v, q => (quicklistPush lzf q v where_).map fun r => (r.1, ())
  | .pop where_, q => (quicklistPop lzf q where_).map fun r => (r.1, ())
  | .insertNode k zl after, q =>
    if q.len = 0 then (quicklistInsertNode lzf q none (ziplistNode zl) after).map fun q => (q, ())
    else q.nodes[k]?.bind fun a => (quicklistInsertNode lzf q (some a.1) (ziplistNode zl) after).map fun q => (q, ())
  | .delNode k, q => q.nodes[k]?.bind fun a => (quicklistDelNode lzf q a.1).map fun q => (q, ())

def depthMachine (lzf : Ziplist → Nat) (fill compress : Int) : Machine DepthOp Quicklist Unit where
  init := quicklistNew fill compress
  step := depthStep lzf

/-- The call deletes no node when that would leave `2 * compress` of them, unless the depth is one. -/
def DepthOp.LeavesApart : DepthOp → Quicklist → Prop
  | .pop where_, q => 2 ≤ q.compress → q.len = 2 * q.compress + 1 →
    ∀ c ∈ q.deref (if where_ = .head then q.head else q.tail), nodeCountAdd c.data.count (-1) ≠ 0
  | .delNode _, q => 2 ≤ q.compress → q.len ≠ 2 * q.compress + 1
  | _, _ => True

instance (op : DepthOp) (q : Quicklist) : Decidable (op.LeavesApart q) := by
  cases op <;> unfold DepthOp.LeavesApart <;> infer_instance

section depth
variable {c i j : Nat} {x y : QuicklistNode} {a b : Nat × QuicklistNode} {A B ns ns' : List (Nat × QuicklistNode)}

theorem RawOutside.all (h : RawOutside c ns) (hlen : ns.length ≤ c * 2) : ∀ a ∈ ns, a.2.encoding ≠ .lzf := by
  intro a ha
  obtain ⟨k, hk⟩ := mem_iff_getElem?.1 ha
  exact h k a (by omega) hk

theorem RawOutside.of_all (h : ∀ a ∈ ns, a.2.encoding ≠ .lzf) : RawOutside c ns :=
  fun _ a _ ha => h a (mem_of_getElem? ha)

theorem RawOutside.store (h : RawOutside c (A ++ (i, x) :: B)) (he : y.encoding = x.encoding) :
    RawOutside c (A ++ (j, y) :: B) := by
  intro k a hk ha
  have hlen : (A ++ (j, y) :: B).length = (A ++ (i, x) :: B).length := by simp
  rw [hlen] at hk
  by_cases hkA : k = A.length
  · subst hkA
    rw [getElem?_of_split] at ha
    cases ha
    rw [he]
    exact h _ (i, x) hk getElem?_of_split
  · rw [getElem?_split_ne hkA] at ha
    exact h k a hk ha

def Unmarked (ns : List (Nat × QuicklistNode)) : Prop := ∀ a ∈ ns, a.2.recompress = false

theorem Unmarked.recoding (h : Unmarked ns) (hrec : Recoding ns ns') : Unmarked ns' := by
  intro b hb
  obtain ⟨j, hj⟩ := mem_iff_getElem?.1 hb
  obtain ⟨a, ha, hab⟩ := hrec.get hj
  cases hm : b.2.recompress with
  | false => rfl
  | true => exact absurd (hab.flag hm) (by simp [h a (mem_of_getElem? ha)])

theorem Unmarked.mono (h : Unmarked ns) (hs : ∀ a ∈ ns', a ∈ ns) : Unmarked ns' :=
  fun a ha => h a (hs a ha)

/-- The nodes that the calls of a run leave: none is marked, and none within the depth is compressed. -/
structure DepthKept (c : Nat) (ns : List (Nat × QuicklistNode)) : Prop where
  unmarked : Unmarked ns
  raw : RawOutside c ns

theorem raw_ne_lzf : QlEncoding.raw ≠ .lzf := nofun

theorem DepthKept.singleton (he : x.encoding ≠ .lzf) (hr : x.recompress = false) : DepthKept c [(i, x)] :=
  ⟨by simpa [Unmarked] using hr, .of_all (by simpa using he)⟩

theorem DepthKept.store (h : DepthKept c (A ++ (i, x) :: B)) (he : y.encoding = x.encoding)
    (hr : y.recompress = x.recompress) : DepthKept c (A ++ (j, y) :: B) := by
  refine ⟨fun a ha => ?_, h.raw.store he⟩
  simp only [mem_append, mem_cons] at ha
  rcases ha with ha | rfl | ha
  · exact h.unmarked a (by simp [ha])
  · exact hr.trans (h.unmarked (i, x) (by simp))
  · exact h.unmarked a (by simp [ha])

theorem mem_nodesInserted {after : Bool} {n : Nat × QuicklistNode} (h : n ∈ nodesInserted A a b B after) :
    n = b ∨ n ∈ A ++ a :: B := by
  cases after <;> simp only [nodesInserted, mem_append, mem_cons] at h ⊢ <;> tauto

theorem DepthKept.insert {lzf : Ziplist → Nat} {q : Quicklist} {after : Bool} (h : DepthKept q.compress (A ++ a :: B))
    (hlen : q.len = (A ++ a :: B).length) (hb : b.2.encoding ≠ .lzf) (hr : b.2.recompress = false)
    (hi : NodeInserted lzf q A a b B after ns') : DepthKept q.compress ns' := by
  obtain ⟨hrec, hs⟩ := hi
  have hu : Unmarked (nodesInserted A a b B after) := by
    intro n hn
    rcases mem_nodesInserted hn with rfl | hn
    · exact hr
    · exact h.unmarked n hn
  refine ⟨hu.recoding hrec, ?_⟩
  obtain ⟨n, hn, ⟨hm, -⟩ | ⟨-, hs⟩⟩ := hs
  · rw [hu n (mem_of_getElem? hn)] at hm
    cases hm
  rcases hs with ⟨rfl, h0 | hshort⟩ | ⟨-, -, hle, -, hraw⟩
  · intro k n hk hn
    have := (List.getElem?_eq_some_iff.1 hn).1
    omega
  · refine .of_all fun n hn => ?_
    rcases mem_nodesInserted hn with rfl | hn
    · exact hb
    · exact h.raw.all (by omega) n hn
  · refine hraw (.inl ?_)
    rw [(nodesInserted_perm ..).length_eq, length_cons]
    omega

theorem DepthKept.delete {q : Quicklist} (h : DepthKept q.compress (A ++ a :: B))
    (hlen : q.len = (A ++ a :: B).length) (hg : 2 ≤ q.compress → q.len ≠ 2 * q.compress + 1)
    (hd : NodeDeleted q A B ns') : DepthKept q.compress ns' := by
  obtain ⟨hrec, hs⟩ := hd
  have hsub : ∀ n ∈ A ++ B, n ∈ A ++ a :: B := fun n hn =>
    ((sublist_cons_self a B).append_left A).subset hn
  refine ⟨(h.unmarked.mono hsub).recoding hrec, ?_⟩
  rcases hs with ⟨rfl, h0 | hshort⟩ | ⟨-, -, hle, -, hraw⟩
  · intro k n hk hn
    have := (List.getElem?_eq_some_iff.1 hn).1
    omega
  · exact .of_all fun n hn => h.raw.all (by omega) n (hsub n hn)
  · refine hraw ?_
    simp only [length_append, length_cons] at hlen ⊢
    omega

end depth

/-- `q'` has nodes of the depth of `q` and its options. -/
abbrev Quicklist.KeptIn (q q' : Quicklist) : Prop := ∃ ns', q.Next q' ns' ∧ DepthKept q.compress ns'

section run
variable {lzf : Ziplist → Nat} {q : Quicklist} {ns : List (Nat × QuicklistNode)}
variable {a : Nat × QuicklistNode}

theorem quicklistPush_depth {v : List UInt8} {w : ListEnd} (h : q.Is ns) (hd : DepthKept q.compress ns) :
    Returns (fun r => q.KeptIn r.1) (quicklistPush lzf q v w) := by
  refine (h.push_nodes lzf).mono fun r ⟨A', j, y, B', h₁, hpush⟩ => ⟨_, h₁, DepthKept.store (i := j) (x := y) ?_ rfl rfl⟩
  cases hpush with
  | first zl => exact .singleton raw_ne_lzf rfl
  | into zl => exact hd.store rfl rfl
  | beside zl he hi => exact hd.insert h.len raw_ne_lzf rfl hi

theorem quicklistPop_depth {w : ListEnd} (h : q.Is ns) (hd : DepthKept q.compress ns)
    (hg : (DepthOp.pop w).LeavesApart q) : Returns (fun r => q.KeptIn r.1) (quicklistPop lzf q w) := by
  refine (h.pop_nodes lzf).mono fun r hr => ?_
  rcases hr with hq | ⟨A, i, x, B, p, gone, rfl, he, hdel⟩
  · exact ⟨ns, hq ▸ h, hd⟩
  obtain ⟨ns', h', ⟨-, hlast, hdeleted⟩ | ⟨-, zl, n, rfl⟩⟩ := h.delIndex_nodes lzf _ hdel
  · refine ⟨ns', h', hd.delete h.len (fun hc hlen => ?_) hdeleted⟩
    have hend := hg hc hlen
    rw [h.rep.endPtr he] at hend
    exact hend _ h.deref hlast
  · exact ⟨_, h', hd.store rfl rfl⟩

theorem depthStep_kept {op : DepthOp} (h : q.Is ns) (hd : DepthKept q.compress ns) (hg : op.LeavesApart q) :
    Returns (fun r => q.KeptIn r.1) (depthStep lzf op q) := by
  cases op with
  | push w v => exact (quicklistPush_depth h hd).map fun r hr => hr
  | pop w => exact (quicklistPop_depth h hd hg).map fun r hr => hr
  | insertNode k zl after =>
    rw [depthStep, h.nodes]
    split
    next hl =>
      obtain rfl : ns = [] := length_eq_zero_iff.1 (h.len.symm.trans hl)
      exact (h.insertNode_nil lzf _ after).map fun q₁ h₁ => ⟨_, h₁, .singleton raw_ne_lzf rfl⟩
    · refine .bind .self fun a ha => ?_
      obtain ⟨A, B, rfl⟩ := append_of_mem (mem_of_getElem? ha)
      exact (h.insertNode lzf _ after).map fun q₁ ⟨ns', h', hi⟩ => ⟨ns', h', hd.insert h.len raw_ne_lzf rfl hi⟩
  | delNode k =>
    rw [depthStep, h.nodes]
    refine .bind .self fun a ha => ?_
    obtain ⟨A, B, rfl⟩ := append_of_mem (mem_of_getElem? ha)
    exact (Returns.of_spec (h.delNode lzf)).map fun q₁ ⟨ns', h', hd'⟩ => ⟨ns', h', hd.delete h.len hg hd'⟩

end run

/-- In every run that never deletes a node down to `2 * compress` of them, the first and the last
`compress` nodes are stored raw. -/
theorem quicklist_depth_raw (lzf : Ziplist → Nat) (fill compress : Int) (ops : List DepthOp)
    (hg : (depthMachine lzf fill compress).Guarded DepthOp.LeavesApart ops (quicklistNew fill compress))
    {q : Quicklist} {rs : List Unit}
    (hr : (depthMachine lzf fill compress).run ops (quicklistNew fill compress) = some (q, rs)) :
    q.compress = (quicklistNew fill compress).compress ∧ RawOutside q.compress q.nodes := by
  have hinv := hg.inv (I := fun q => q.compress = (quicklistNew fill compress).compress ∧
      ∃ ns, q.Is ns ∧ DepthKept q.compress ns)
    ⟨rfl, [], quicklistNew_is fill compress, by simp [Unmarked], .of_all (by simp)⟩ ?_ hr
  · obtain ⟨hc, ns, h, hd⟩ := hinv
    rw [h.nodes]
    exact ⟨hc, hd.raw⟩
  · rintro op q q' r ⟨hc, ns, h, hd⟩ hg hs
    obtain ⟨ns', h', hd'⟩ := depthStep_kept h hd hg _ hs
    exact ⟨h'.compress.trans hc, ns', h'.is, h'.compress ▸ hd'⟩

/-- `n` nodes of one element each. -/
def pushNodes (n : Nat) : List DepthOp := List.replicate n (.push .tail (List.replicate 40 97))

theorem quicklist_depth_raw_six :
    ∃ q rs, (depthMachine (fun _ => 20) 1 2).run (pushNodes 6 ++ [.delNode 2]) (quicklistNew 1 2) = some (q, rs) ∧
      q.compress = (quicklistNew 1 2).compress ∧ RawOutside q.compress q.nodes :=
  ⟨_, _, rfl, quicklist_depth_raw (fun _ => 20) 1 2 (pushNodes 6 ++ [.delNode 2])
    (Machine.guarded_of_check (by decide)) rfl⟩

/-- Of five nodes one is deleted: the second and the third of the four that are left are compressed. -/
theorem quicklist_depth_compressed :
    ∃ q rs, (depthMachine (fun _ => 20) 1 2).run (pushNodes 5 ++ [.delNode 2]) (quicklistNew 1 2) = some (q, rs) ∧
      q.compress = 2 ∧ q.nodes.map (fun a => a.2.encoding) = [.raw, .lzf, .lzf, .raw] := by
  refine ⟨_, _, rfl, rfl, ?_⟩
  decide

end Redis
