import Redis.QuicklistDepth

/-! # The size of the nodes of a quicklist

The field `sz` of a node repeats the length of its ziplist. Every function that stores a ziplist sets it
too, but for `_quicklistInsert` when it makes the first node of a list. -/

namespace Redis
open Option

/-! ### Nodes in memory -/

def QuicklistNode.Sized (n : QuicklistNode) : Prop := n.sz = ziplistBlobLen n.zl

/-- The nodes in memory are sized, the one at `bad` apart. -/
def SizedBut (bad : Option Nat) (m : DMem QuicklistNode) : Prop :=
  ∀ i c, m i = some c → some i ≠ bad → c.data.Sized

def Quicklist.Sized (bad : Option Nat) (q : Quicklist) : Prop := SizedBut bad q.mem

section memory
variable {bad p o : Option Nat} {i j : Nat} {m : DMem QuicklistNode} {c : DCell QuicklistNode} {n : QuicklistNode}
variable {lzf : Ziplist → Nat} {q : Quicklist} {v : List UInt8} {w : ListEnd} {k : Nat} {idx : Int} {after : Bool}

namespace SizedBut

theorem set (h : ∀ k c, m k = some c → k ≠ i → some k ≠ bad → c.data.Sized) {x : Option (DCell QuicklistNode)}
    (hx : ∀ c, x = some c → some i ≠ bad → c.data.Sized) : SizedBut bad (m.set i x) := by
  intro k c hk hbad
  by_cases hki : k = i
  · subst hki
    rw [DMem.set_same] at hk
    exact hx c hk hbad
  · rw [DMem.set_ne _ _ hki] at hk
    exact h k c hk hki hbad

theorem free (h : SizedBut (some i) m) : SizedBut none (m.set i none) :=
  set (fun k c hk hki _ => h k c hk fun hk => hki (Option.some.inj hk)) nofun

theorem weaken (h : SizedBut none m) (bad : Option Nat) : SizedBut bad m := fun k c hk _ => h k c hk nofun

section
variable (h : SizedBut bad m)
include h

theorem modify {f : DCell QuicklistNode → DCell QuicklistNode}
    (hf : p ≠ bad → ∀ c, c.data.Sized → (f c).data.Sized) : Returns (SizedBut bad) (m.modify p f) := by
  rcases p with - | a
  · exact .fault
  intro m' hm'
  obtain ⟨c, hc, rfl⟩ := map_eq_some_iff.1 hm'
  refine set (fun k c hk _ => h k c hk) fun c' hc' hbad => ?_
  cases hc'
  exact hf hbad c (h a c hc hbad)

theorem setPrev (p o : Option Nat) : Returns (SizedBut bad) (m.setPrev p o) :=
  h.modify fun _ _ hc => hc

theorem setNext (p o : Option Nat) : Returns (SizedBut bad) (m.setNext p o) :=
  h.modify fun _ _ hc => hc

theorem linkAfter : Returns (SizedBut bad) (m.linkAfter p j) := by
  refine (h.setPrev _ _).bind fun m h => ?_
  cases p with
  | none => exact .ret h
  | some o =>
    refine .any fun c => (h.setNext _ _).bind fun m h => ?_
    exact .bind (.ite (.ret h) (h.setPrev _ _)) fun m h => h.setNext _ _

theorem linkBefore : Returns (SizedBut bad) (m.linkBefore p j) := by
  refine (h.setNext _ _).bind fun m h => ?_
  cases p with
  | none => exact .ret h
  | some o =>
    refine .any fun c => (h.setPrev _ _).bind fun m h => ?_
    exact .bind (.ite (.ret h) (h.setNext _ _)) fun m h => h.setPrev _ _

theorem unlink : Returns (SizedBut bad) (m.unlink c) :=
  .bind (P := SizedBut bad) (.ite (.ret h) (h.setPrev _ _)) fun _ h =>
    .ite (.ret h) (h.setNext _ _)

end

end SizedBut

/-! ### Compression -/

theorem sized_compressNode (lzf : Ziplist → Nat) (h : n.Sized) : (n.compressNode lzf).Sized := by
  unfold QuicklistNode.compressNode
  repeat' split
  all_goals exact h

theorem sized_decompressNode (h : n.Sized) : n.decompressNode.Sized := by
  unfold QuicklistNode.decompressNode
  split <;> exact h

theorem sized_decompressNodeForUse (h : n.Sized) : n.decompressNodeForUse.Sized := by
  unfold QuicklistNode.decompressNodeForUse
  split <;> exact h

namespace Quicklist.Sized

section
variable (h : q.Sized bad)
include h

theorem modify {f : QuicklistNode → QuicklistNode} (hf : p ≠ bad → ∀ n, n.Sized → (f n).Sized) :
    Returns (Sized bad) (q.modify p f) :=
  (SizedBut.modify h fun hp c => hf hp c.data).map fun _ hm => hm

theorem use (p : Option Nat) : Returns (Sized bad) (q.modify p QuicklistNode.decompressNodeForUse) :=
  h.modify fun _ _ => sized_decompressNodeForUse

theorem compressNode : Returns (Sized bad) (quicklistCompressNode lzf q p) := by
  cases p with
  | none => exact .ret h
  | some i => exact h.modify fun _ _ => sized_compressNode lzf

theorem decompressNode : Returns (Sized bad) (quicklistDecompressNode q p) := by
  cases p with
  | none => exact .ret h
  | some i => exact h.modify fun _ _ => sized_decompressNode

theorem compressLoop {node : Option Nat} {depth : Nat} {forward reverse : Option Nat} {inDepth : Bool} :
    Returns (fun r => r.1.Sized bad) (quicklistCompressLoop node depth q forward reverse inDepth) := by
  induction depth generalizing q forward reverse inDepth with
  | zero => exact .ret h
  | succ depth ih =>
    refine h.decompressNode.bind fun q h => h.decompressNode.bind fun q h => ?_
    exact .ite (.ret h) (.any fun cf => .any fun cr => ih h)

theorem compressDepth : Returns (Sized bad) (quicklistCompressDepth lzf q p) := by
  refine .ite (.ret h) (h.compressLoop.bind fun r h => ?_)
  obtain ⟨q, reached⟩ := r
  rcases reached with - | ⟨forward, reverse, inDepth⟩
  · exact .ret h
  · refine .bind (.ite (.ret h) (compressNode h)) fun q h => ?_
    exact .ite (h.compressNode.bind fun q h => h.compressNode) (.ret h)

theorem compress : Returns (Sized bad) (quicklistCompress lzf q p) :=
  .any fun _ => .ite h.compressNode h.compressDepth

theorem recompressOnly : Returns (Sized bad) (quicklistRecompressOnly lzf q p) :=
  .any fun _ => .ite h.compressNode (.ret h)

/-! ### Nodes come and go -/

theorem insertNode (hn : n.Sized) : Returns (Sized bad) (quicklistInsertNode lzf q p n after) := by
  have hset : SizedBut bad (q.mem.set q.fresh (some ⟨none, none, n⟩)) := SizedBut.set (fun k c hk _ => h k c hk) fun c hc _ => by
    cases hc
    exact hn
  refine .bind (.ite hset.linkAfter hset.linkBefore) fun m hm =>
    .bind ?_ fun q h => .ret h
  have hq : ∀ q : Quicklist, q.mem = m → q.Sized bad := fun q hq => by rwa [Sized, hq]
  refine .ite (.ret (hq _ ?_)) (compress (hq _ ?_))
  all_goals repeat' split
  all_goals rfl

end

/-- The node that goes need not be sized. -/
theorem delNode (h : q.Sized (some i)) : Returns (Sized none) (quicklistDelNode lzf q i) :=
  .any fun _ => (SizedBut.unlink h).bind fun m hm =>
    .bind (P := Sized (some i)) (compressDepth (q := { q with mem := m, tail := _, head := _ }) hm)
      fun _ h => .ret (SizedBut.free h)

/-! ### The calls -/

section
variable (h : q.Sized none)
include h

theorem push {v : ZlValue} : Returns (fun r => r.1.Sized none) (quicklistPushValue lzf q k v w) := by
  refine .any fun n => .bind ?_ fun q h =>
    .bind (modify h fun _ _ hn => hn) fun q h => .ret h
  split
  · exact .any fun c => .any fun zl => h.modify fun _ _ _ => rfl
  · exact .any fun zl => h.insertNode (by rfl)

theorem delIndex : Returns (fun r => r.1.Sized none) (quicklistDelIndex lzf q i k) := by
  refine .any fun c => .any fun zl => ?_
  dsimp only
  split
  · exact .bind (modify (h.weaken (some i)) fun hne => absurd rfl hne) fun q h =>
      h.delNode.bind fun q h => .ret h
  · exact .bind (h.modify fun _ _ _ => rfl) fun q h => .ret h

theorem pop : Returns (fun r => r.1.Sized none) (quicklistPop lzf q w) := by
  unfold quicklistPop
  split
  · exact .ret h
  split
  · exact .ret h
  refine .any fun c => ?_
  split
  · exact .ret h
  · exact .any fun v => h.delIndex.bind fun r h => .ret h

theorem index :
    Returns (fun r => r.1.Sized none ∧ r.1.len = q.len ∧ (r.2.2 = true → r.2.1.node ≠ none)) (quicklistIndex q idx) := by
  refine .ite (.ret ⟨h, rfl, nofun⟩) (.any fun r => ?_)
  obtain ⟨node, accum⟩ := r
  rcases node with - | i
  · exact .ret ⟨h, rfl, nofun⟩
  have huse : Returns (fun q' => q'.Sized none ∧ q'.len = q.len)
      (q.modify (some i) QuicklistNode.decompressNodeForUse) :=
    (SizedBut.modify h fun _ _ => sized_decompressNodeForUse).map fun _ hm => ⟨hm, rfl⟩
  exact huse.bind fun q h => .any fun c => .ret ⟨h.1, h.2, fun _ => nofun⟩

theorem replaceAtIndex : Returns (fun r => r.1.Sized none) (quicklistReplaceAtIndex lzf q idx v) := by
  refine h.index.bind fun r h => ?_
  dsimp only
  split
  · exact .any fun zi => .any fun c => .any fun zl => .any fun zl =>
      .bind (h.1.modify fun _ _ _ => rfl) fun q h =>
        h.compress.bind fun q h => .ret h
  · exact .ret h.1

theorem tryMerge : Returns (fun r => r.1.Sized none) (quicklistTryMerge lzf q p o) := by
  refine .any fun na => .any fun nb => ?_
  split
  · refine .any fun i => .any fun j => .bind ?_ fun r h => .ret h
    refine h.decompressNode.bind fun q h => h.decompressNode.bind fun q h => .any fun ca => .any fun cb =>
      .any fun r => ?_
    exact .bind (h.modify fun _ _ _ => rfl) fun q h =>
      .bind (h.modify fun _ _ hn => hn) fun q h =>
        (delNode (h.weaken _)).bind fun q h => h.compress.bind fun q h => .ret h
  · exact .ret h

theorem mergeNodes : Returns (Sized none) (quicklistMergeNodes lzf q i) :=
  .any fun _ => .any fun _ => .any fun _ => .any fun _ => h.tryMerge.bind fun _ h =>
    h.tryMerge.bind fun _ h => .any fun _ => h.tryMerge.bind fun _ h => .any fun _ =>
      h.tryMerge.bind fun _ h => .ret h

theorem insertInto {insert : Ziplist → Option Ziplist} : Returns (Sized none) (quicklistInsertInto lzf q i insert) :=
  (h.use _).bind fun _ h => .any fun _ => .any fun _ =>
    .bind (h.modify fun _ _ _ => rfl) fun _ h => h.recompressOnly

theorem insertSplit {offset : Int} : Returns (Sized none) (quicklistInsertSplit lzf q i offset v after) := by
  refine (h.use _).bind fun q h => .any fun c =>
    .bind (P := fun r => r.1.Sized) ?_ fun r hr => .any fun zl => ?_
  · exact .any fun zl => .any fun zl' => .ret rfl
  · exact .bind (h.modify fun _ _ _ => hr) fun q h =>
      .bind (h.insertNode (by rfl)) fun q h => h.mergeNodes

theorem insert {e : QuicklistEntry} (he : e.node ≠ none) : Returns (Sized none) (quicklistInsert lzf q e v after) := by
  unfold quicklistInsert
  split
  next hnone => exact absurd hnone he
  refine .any fun c => .any fun nextNode => .any fun prevNode =>
    .bind ?_ fun q h => .ret h
  repeat' split
  · exact .any fun zi => h.insertInto
  · exact .any fun zi => h.insertInto
  · exact .any fun j => h.insertInto
  · exact .any fun j => h.insertInto
  · exact .any fun zl => h.insertNode (by rfl)
  · exact h.insertSplit

theorem delRangeLoop {fuel : Nat} {offset : Int} {extent : Nat} :
    Returns (Sized none) (quicklistDelRangeLoop lzf fuel q p offset extent) := by
  induction fuel generalizing q p offset extent with
  | zero =>
    cases extent with
    | zero => exact .ret h
    | succ extent => exact .fault
  | succ fuel ih =>
    rcases extent with - | extent
    · exact .ret h
    refine .any fun i => .any fun c => .bind ?_ fun q h => ih h
    unfold quicklistDelRangeNode
    split
    · exact delNode (h.weaken _)
    refine (h.use _).bind fun q h => .any fun c => .any fun zl =>
      .bind (h.modify fun _ _ _ => rfl) fun q h => ?_
    split
    · exact delNode (SizedBut.weaken h _)
    · exact recompressOnly h

theorem delRange {start count : Int} : Returns (fun r => r.1.Sized none) (quicklistDelRange lzf q start count) := by
  unfold quicklistDelRange
  split
  · exact .ret h
  refine h.index.bind fun r h => ?_
  dsimp only
  split
  · exact (delRangeLoop h.1).bind fun q h => .ret h
  · exact .ret h.1

theorem next {fuel : Nat} {it : QuicklistIter} : Returns (fun r => r.1.Sized none) (quicklistNext lzf fuel q it) := by
  induction fuel generalizing q it with
  | zero => exact .fault
  | succ fuel ih =>
    rw [quicklistNext]
    split
    · exact .ret h
    refine .bind (P := Sized none) ?_ fun q h => .any fun c => ?_
    · split
      · exact h.use _
      · exact .ret h
    dsimp only
    split
    · exact .any fun v => .ret h
    · exact h.compress.bind fun q h => .any fun c => ih h

theorem walk {dels : List Bool} {it : QuicklistIter} :
    Returns (fun r => r.1.Sized none) (quicklistWalk lzf dels q it) := by
  induction dels generalizing q it with
  | nil => exact .ret h
  | cons del dels ih =>
    refine h.next.bind fun r h => ?_
    obtain ⟨q, it, e⟩ := r
    rcases e with - | e
    · exact .ret h
    refine .any fun v => .bind ?_ fun r h =>
      (ih h).bind fun r h => .ret h
    split
    · exact .any fun i => .any fun zi => .any fun c => h.delIndex.bind fun r h => .ret h
    · exact .ret h

end

theorem dupLoop {orig : Quicklist} (ho : orig.Sized none) {fuel : Nat} (h : q.Sized none) :
    Returns (Sized none) (quicklistDupLoop lzf orig fuel q p) := by
  induction fuel generalizing q p with
  | zero =>
    cases p with
    | none => exact .ret h
    | some i => exact .fault
  | succ fuel ih =>
    cases p with
    | none => exact .ret h
    | some i =>
      refine .bind (fun c hc => ho i c hc nofun) fun c hc => ?_
      exact .bind (insertNode h (by exact hc)) fun q h => ih h

theorem rotate (h : q.Sized none) {stale : List UInt8} : Returns (Sized none) (quicklistRotate lzf q stale) := by
  unfold quicklistRotate
  split
  · exact .ret h
  · exact .any fun c => .any fun k => .any fun v => h.push.bind fun r h => .any fun i => .any fun c => .any fun k =>
      h.delIndex.bind fun r h => .ret h

end Quicklist.Sized

end memory

/-! ### Runs -/

/-- The calls of the API, with the ways in that take a whole ziplist or options. -/
inductive SizedOp
  | call (op : QuicklistOp)
  | appendZiplist (zl : Ziplist)
  | setOptions (fill compress : Int)

def sizedStep (lzf : Ziplist → Nat) : SizedOp → Quicklist → Option (Quicklist × QuicklistReply)
  | .call op, q => quicklistStep lzf op q
  | .appendZiplist zl, q =>
    (quicklistInsertNode lzf q q.tail (ziplistNode zl) true).map fun q =>
      ({ q with count := q.count + (ziplistNode zl).count }, .done)
  | .setOptions fill compress, q => some (quicklistSetCompressDepth (quicklistSetFill q fill) compress, .done)

def sizedMachine (lzf : Ziplist → Nat) (fill compress : Int) : Machine SizedOp Quicklist QuicklistReply where
  init := quicklistNew fill compress
  step := sizedStep lzf

/-- An insertion has a node to go to. -/
def SizedOp.HasNode : SizedOp → Quicklist → Prop
  | .call (.insert ..), q => q.len ≠ 0
  | _, _ => True

instance (op : SizedOp) (q : Quicklist) : Decidable (op.HasNode q) := by
  unfold SizedOp.HasNode
  split <;> infer_instance

theorem quicklistStep_sized {lzf : Ziplist → Nat} {q : Quicklist} (h : q.Sized none) {op : QuicklistOp}
    (hop : (SizedOp.call op).HasNode q) : Returns (fun r => r.1.Sized none) (quicklistStep lzf op q) := by
  cases op with
  | push w v => exact h.push.bind fun r h => .ret h
  | pop w => exact h.pop.bind fun r h => .ret h
  | index idx => exact h.index.bind fun r h => .ret h.1
  | replaceAtIndex idx v => exact h.replaceAtIndex.bind fun r h => .ret h
  | insert idx v after =>
    refine h.index.bind fun r ⟨h, hlen, hfound⟩ => ?_
    obtain ⟨q', e, found⟩ := r
    have hlen : q'.len ≠ 0 := fun h0 => hop (hlen.symm.trans h0)
    simp only [decide_eq_false hlen, Bool.or_false]
    split
    next hf =>
      exact .bind (.ite (h.insert (hfound hf)) (h.insert (hfound hf)))
        fun q h => .ret h
    · exact .ret h
  | delRange start count => exact h.delRange.bind fun r h => .ret h
  | walk direction start dels release =>
    refine .bind (P := fun r => r.1.Sized none) ?_ fun r h => ?_
    · rcases start with - | k
      · exact .ret h
      refine h.index.bind fun r h => ?_
      dsimp only
      split <;> exact .ret h.1
    · obtain ⟨q, it⟩ := r
      rcases it with - | it
      · exact .ret h
      refine (Quicklist.Sized.walk h).bind fun r h => .bind ?_ fun q h => .ret h
      unfold quicklistReleaseIterator
      repeat' split
      · exact .ret h
      · exact h.compress
      · exact .ret h
  | rotate stale => exact h.rotate.bind fun r h => .ret h
  | dup => exact (h.dupLoop (q := quicklistNew q.fill q.compress) nofun).bind fun r h => .ret h

theorem sizedStep_sized {lzf : Ziplist → Nat} {q : Quicklist} (h : q.Sized none) {op : SizedOp} (hop : op.HasNode q) :
    Returns (fun r => r.1.Sized none) (sizedStep lzf op q) := by
  cases op with
  | call op => exact quicklistStep_sized h hop
  | appendZiplist zl => exact (h.insertNode (by rfl)).map fun _ h => h
  | setOptions fill compress => exact .ret h

/-- A whole ziplist, a value pushed behind it and one inserted before that. -/
def ziplistAndTwo : List SizedOp :=
  [.setOptions 2 1, .appendZiplist ziplistNew, .call (.push .tail [97]), .call (.insert 0 [98] false)]

theorem quicklistNodeAllowInsert_mono {node : Option QuicklistNode} {f f' : Int} {sz : Nat} (hf : 0 < f) (hle : f ≤ f')
    (h : quicklistNodeAllowInsert node f sz = true) : quicklistNodeAllowInsert node f' sz = true := by
  have hno : ∀ {g : Int} (sz : Nat), 0 < g → quicklistNodeSizeMeetsOptimizationRequirement sz g = false :=
    fun _ hg => if_pos (Int.le_of_lt hg)
  cases node with
  | none => exact h
  | some n =>
    simp only [quicklistNodeAllowInsert, quicklistAllow, hno _ hf, hno _ (hf.trans_le hle)] at h ⊢
    grind

/-- The fill and the depth are stored as they are clamped, and a larger positive fill takes every push that a
smaller one takes, iff they are below `FILL_MAX` and `COMPRESS_MAX`. -/
theorem quicklistSetOptions_clamped (q : Quicklist) (fill compress : Int) :
    ((quicklistSetFill q fill).fill = max (-5) (min fill (2 ^ 15)) ∧
      (quicklistSetCompressDepth q compress).compress = max 0 (min compress (2 ^ 16)) ∧
      ∀ node (f : Int) sz, 0 < f → f ≤ fill → quicklistNodeAllowInsert node (quicklistSetFill q f).fill sz = true →
        quicklistNodeAllowInsert node (quicklistSetFill q fill).fill sz = true) ↔
      fill < 2 ^ 15 ∧ compress < 2 ^ 16 := by
  have hset : ∀ f : Int, (quicklistSetFill q f).fill = max (-5) (min f (2 ^ 15)) ↔ f < 2 ^ 15 := by
    intro f
    unfold quicklistSetFill
    dsimp only
    omega
  have hdepth : (quicklistSetCompressDepth q compress).compress = max 0 (min compress (2 ^ 16)) ↔ compress < 2 ^ 16 := by
    unfold quicklistSetCompressDepth
    dsimp only
    omega
  rw [hset, hdepth]
  refine ⟨fun h => ⟨h.1, h.2.1⟩, fun ⟨hfill, hcompress⟩ => ⟨hfill, hcompress, fun node f sz hf hle => ?_⟩⟩
  rw [(hset f).2 (by omega), (hset fill).2 hfill]
  exact quicklistNodeAllowInsert_mono (by omega) (by omega)

/-- At the limits themselves the fields are too narrow. -/
theorem quicklistSetOptions_wraps :
    (quicklistSetFill quicklistCreate (2 ^ 15)).fill = -2 ^ 15 ∧
      (quicklistSetCompressDepth quicklistCreate (2 ^ 16)).compress = 0 ∧
      quicklistNodeAllowInsert (some (quicklistCreateNode ziplistNew)) (quicklistSetFill quicklistCreate 1).fill 1 = true ∧
      quicklistNodeAllowInsert (some (quicklistCreateNode ziplistNew))
        (quicklistSetFill quicklistCreate (2 ^ 15)).fill 1 = false := by
  decide

end Redis
