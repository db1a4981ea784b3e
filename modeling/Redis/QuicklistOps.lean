import Mathlib.Data.List.Induction
import Redis.QuicklistLinks

/-! # Specifications of the quicklist operations

The operations in terms of the list of nodes. `q.Next q' ns` says that `q'` consists of the nodes
`ns` and has the options of `q`. Where an operation depends on a ziplist function, its
specification is relative to the result of that function. -/

namespace Redis
open List Option

/-- `q'` has the nodes `ns` and the options of `q`. -/
structure Quicklist.Next (q q' : Quicklist) (ns : List (Nat × QuicklistNode)) : Prop where
  rep : q'.Rep ns
  len : q'.len = ns.length
  fill : q'.fill = q.fill
  compress : q'.compress = q.compress

/-- `q` has the nodes `ns`. -/
abbrev Quicklist.Is (q : Quicklist) (ns : List (Nat × QuicklistNode)) : Prop := q.Next q ns

section basic
variable {q q₁ q₂ : Quicklist} {ns ns₁ ns₂ A B : List (Nat × QuicklistNode)} {i k : Nat} {x y : QuicklistNode}

theorem Quicklist.Next.is (h : q.Next q₁ ns) : q₁.Is ns := ⟨h.rep, h.len, rfl, rfl⟩

theorem Quicklist.Next.trans (h : q.Next q₁ ns₁) (h' : q₁.Next q₂ ns₂) : q.Next q₂ ns₂ :=
  ⟨h'.rep, h'.len, h'.fill.trans h.fill, h'.compress.trans h.compress⟩

theorem Quicklist.Next.setCount (h : q.Next q₁ ns) (n : Nat) : q.Next { q₁ with count := n } ns :=
  ⟨h.rep.congr rfl rfl rfl rfl, h.len, h.fill, h.compress⟩

theorem Quicklist.Is.mem (h : q.Is (A ++ (i, x) :: B)) :
    q.mem i = some ⟨lastPtr none A, headPtr B none, x⟩ := (Linked.middle.1 h.rep.links).2.1

theorem Quicklist.Is.deref (h : q.Is (A ++ (i, x) :: B)) :
    q.deref (some i) = some ⟨lastPtr none A, headPtr B none, x⟩ := h.mem

theorem modify_append (f : QuicklistNode → QuicklistNode) :
    (A ++ (i, x) :: B).modify A.length (onNode f) = A ++ (i, f x) :: B := by
  induction A with
  | nil => rfl
  | cons a A ih => exact congrArg (a :: ·) ih

theorem append_snoc {α : Type} (A : List α) (a : α) (B : List α) : A ++ a :: B = (A ++ [a]) ++ B := by simp

theorem Quicklist.Is.modify (h : q.Is (A ++ (i, x) :: B)) (f : QuicklistNode → QuicklistNode) :
    ∃ q', q.modify (some i) f = some q' ∧ q.Next q' (A ++ (i, f x) :: B) ∧ q'.count = q.count := by
  obtain ⟨m, hm, hr⟩ := h.rep.modify getElem?_of_split f
  rw [modify_append] at hr
  exact ⟨q.withMem m, hm, ⟨hr, by rw [Quicklist.withMem_len, h.len]; simp, rfl, rfl⟩, rfl⟩

section
variable (lzf : Ziplist → Nat)

theorem Quicklist.Is.recompressOnly (h : q.Is (A ++ (i, x) :: B)) :
    ∃ q', quicklistRecompressOnly lzf q (some i) = some q' ∧
      q.Next q' (A ++ (i, if x.recompress then x.compressNode lzf else x) :: B) ∧ q'.count = q.count := by
  unfold quicklistRecompressOnly
  simp only [h.deref, some_bind]
  split
  · exact h.modify _
  · exact ⟨q, rfl, h, rfl⟩

/-- The nodes after `b` was put beside `a` and the list was compressed around `a`. -/
def NodeInserted (lzf : Ziplist → Nat) (q : Quicklist) (A : List (Nat × QuicklistNode)) (a b : Nat × QuicklistNode)
    (B : List (Nat × QuicklistNode)) (after : Bool) (ns' : List (Nat × QuicklistNode)) : Prop :=
  Recoding (nodesInserted A a b B after) ns' ∧
    CompressStep lzf q.compress q.len (oldPos A after) (nodesInserted A a b B after) ns'

theorem Quicklist.Is.insertNode (h : q.Is (A ++ (i, x) :: B)) (y : QuicklistNode) (after : Bool) :
    Returns (fun q' => ∃ ns', q.Next q' ns' ∧ NodeInserted lzf q A (i, x) (q.fresh, y) B after ns')
      (quicklistInsertNode lzf q (some i) y after) := by
  obtain ⟨m, hd, tl, ns', hm, hr, hrec, hstep⟩ := quicklistInsertNode_spec lzf h.rep h.len y after
  refine .of_eq hm ⟨ns', ⟨hr, ?_, rfl, rfl⟩, hrec, hstep⟩
  rw [hrec.length_eq, (nodesInserted_perm ..).length_eq]
  exact congrArg (· + 1) h.len

theorem Quicklist.Is.insertNode_nil (h : q.Is []) (y : QuicklistNode) (after : Bool) :
    Returns (q.Next · [(q.fresh, y)]) (quicklistInsertNode lzf q none y after) := by
  have hl : q.len = 0 := h.len
  obtain ⟨m, hm, hr⟩ := quicklistInsertNode_nil lzf hl y after
  exact .of_eq hm ⟨hr, by simp [hl], rfl, rfl⟩

/-- The nodes after the one between `A` and `B` was deleted. -/
def NodeDeleted (q : Quicklist) (A B ns' : List (Nat × QuicklistNode)) : Prop :=
  Recoding (A ++ B) ns' ∧ DepthStep q.compress q.len (A ++ B) ns'

theorem Quicklist.Is.delNode (h : q.Is (A ++ (i, x) :: B)) :
    ∃ q', quicklistDelNode lzf q i = some q' ∧ (∃ ns', q.Next q' ns' ∧ NodeDeleted q A B ns') ∧
      q'.count = ulongSub q.count x.count := by
  obtain ⟨m, hd, tl, ns', hm, hr, hrec, hstep⟩ := quicklistDelNode_spec lzf h.rep h.len
  refine ⟨_, hm, ⟨ns', ⟨hr, ?_, rfl, rfl⟩, hrec, hstep⟩, rfl⟩
  have := h.len
  rw [hrec.length_eq]
  simp only [length_append, length_cons] at this ⊢
  omega

end

/-- The same after the node has changed. -/
theorem NodeDeleted.of_next {ns' : List (Nat × QuicklistNode)} (h : q.Is (A ++ (i, x) :: B))
    (h₁ : q.Next q₁ (A ++ (i, y) :: B)) (hd : NodeDeleted q₁ A B ns') : NodeDeleted q A B ns' := by
  have hlen : q₁.len = q.len := by rw [h₁.len, h.len]; simp
  rwa [NodeDeleted, h₁.compress, hlen] at hd

theorem Recoding.append_left {C : List (Nat × QuicklistNode)} (h : Recoding (A ++ B) C) :
    ∃ A' B', C = A' ++ B' ∧ Recoding A A' ∧ Recoding B B' := by
  induction A generalizing C with
  | nil => exact ⟨[], C, rfl, .nil, h⟩
  | cons a A ih =>
    cases h with
    | @cons _ b _ _ hab h =>
      obtain ⟨A', B', rfl, hA, hB⟩ := ih h
      exact ⟨b :: A', B', rfl, .cons hab hA, hB⟩

theorem quicklistNew_is (fill compress : Int) : (quicklistNew fill compress).Is [] :=
  ⟨⟨rfl, rfl, trivial, nodup_nil, by simp⟩, rfl, rfl, rfl⟩

/-! ### The nodes in order -/

def Quicklist.nodesFrom (q : Quicklist) : Nat → Option Nat → List (Nat × QuicklistNode)
  | 0, _ => []
  | _ + 1, none => []
  | fuel + 1, some i => ((q.mem i).map fun c => (i, c.data) :: q.nodesFrom fuel c.next).getD []

/-- The nodes of a quicklist from its head on, with their addresses. -/
def Quicklist.nodes (q : Quicklist) : List (Nat × QuicklistNode) := q.nodesFrom q.len q.head

theorem Quicklist.Is.nodesFrom (h : q.Is (A ++ B)) : q.nodesFrom B.length (headPtr B none) = B := by
  induction B generalizing A with
  | nil => rfl
  | cons a B ih =>
    have hB := ih (by rwa [append_snoc] at h)
    simp [Quicklist.nodesFrom, h.mem, hB]

theorem Quicklist.Is.nodes (h : q.Is ns) : q.nodes = ns := by
  unfold Quicklist.nodes
  rw [h.len, h.rep.head]
  exact Quicklist.Is.nodesFrom (A := []) h

end basic

/-! ### Deleting one element -/

section delete
variable (lzf : Ziplist → Nat) {q : Quicklist} {A B : List (Nat × QuicklistNode)} {i p : Nat} {x : QuicklistNode}

theorem Quicklist.Is.delIndex_nodes (h : q.Is (A ++ (i, x) :: B)) :
    Returns (fun r => ∃ ns', q.Next r.1 ns' ∧ (r.2 = true ∧ nodeCountAdd x.count (-1) = 0 ∧ NodeDeleted q A B ns' ∨
      r.2 = false ∧ ∃ zl n, ns' = A ++ (i, { x.setZl zl with count := n }) :: B)) (quicklistDelIndex lzf q i p) := by
  simp only [quicklistDelIndex, h.mem, some_bind]
  refine .any fun zl => ?_
  split
  next hc =>
    exact .bind (.of_spec (h.modify _)) fun q₁ h₁ => .bind (.of_spec (h₁.is.delNode lzf)) fun q₂ ⟨ns', h₂, hd⟩ =>
      .ret ⟨ns', (h₁.trans h₂).setCount _, .inl ⟨rfl, hc, hd.of_next h h₁⟩⟩
  · exact .bind (.of_spec (h.modify _)) fun q₁ h₁ => .ret ⟨_, h₁.setCount _, .inr ⟨rfl, zl, _, rfl⟩⟩

end delete

/-! ### Pushing -/

section push
variable (lzf : Ziplist → Nat) {q : Quicklist} {A B : List (Nat × QuicklistNode)} {i : Nat} {x : QuicklistNode}
  {k : Nat} {v : ZlValue} {w : ListEnd}
variable {ns : List (Nat × QuicklistNode)}

/-- The node between `A` and `B` is the one at the end `w`. -/
def AtEnd (A B : List (Nat × QuicklistNode)) : ListEnd → Prop
  | .head => A = []
  | .tail => B = []

theorem Quicklist.Rep.endPtr (h : q.Rep (A ++ (i, x) :: B)) (he : AtEnd A B w) :
    (if w = .head then q.head else q.tail) = some i := by
  cases w with
  | head =>
    obtain rfl : A = [] := he
    exact h.head
  | tail =>
    obtain rfl : B = [] := he
    rw [h.tail]
    exact lastPtr_concat

theorem Quicklist.Rep.endPtr_nil (h : q.Rep []) (w : ListEnd) : (if w = .head then q.head else q.tail) = none := by
  split
  · exact h.head
  · exact h.tail

theorem exists_atEnd (h : ns ≠ []) (w : ListEnd) : ∃ A a B, ns = A ++ a :: B ∧ AtEnd A B w := by
  cases w with
  | head =>
    obtain ⟨a, B, rfl⟩ := exists_cons_of_ne_nil h
    exact ⟨[], a, B, rfl, rfl⟩
  | tail =>
    rcases eq_nil_or_concat' ns with rfl | ⟨A, a, rfl⟩
    · exact absurd rfl h
    · exact ⟨A, a, [], rfl, rfl⟩

theorem nodesInserted_atEnd (a b : Nat × QuicklistNode) (he : AtEnd A B w) :
    ∃ L R, nodesInserted A a b B (decide (w = .tail)) = L ++ b :: R ∧ AtEnd L R w := by
  cases w with
  | head =>
    obtain rfl : A = [] := he
    exact ⟨[], a :: B, rfl, rfl⟩
  | tail =>
    obtain rfl : B = [] := he
    exact ⟨A ++ [a], [], by simp [nodesInserted], rfl⟩

theorem AtEnd.recoding {A' B' : List (Nat × QuicklistNode)} (he : AtEnd A B w) (hA : Recoding A A')
    (hB : Recoding B B') : AtEnd A' B' w := by
  cases w with
  | head =>
    obtain rfl : A = [] := he
    exact eq_nil_of_length_eq_zero hA.length_eq
  | tail =>
    obtain rfl : B = [] := he
    exact eq_nil_of_length_eq_zero hB.length_eq

def pushedNode (zl : Ziplist) : QuicklistNode := (quicklistCreateNode zl).setZl zl

/-- Where a push puts its element: in the first node, in the node at that end or in a node beside it. -/
inductive Pushed (lzf : Ziplist → Nat) (q : Quicklist) (w : ListEnd) : List (Nat × QuicklistNode) →
    List (Nat × QuicklistNode) → Nat × QuicklistNode → List (Nat × QuicklistNode) → Prop
  | first (zl : Ziplist) : Pushed lzf q w [] [] (q.fresh, pushedNode zl) []
  | into {L j y R} (zl : Ziplist) : Pushed lzf q w (L ++ (j, y) :: R) L (j, y.setZl zl) R
  | beside {L a R L' b R'} (zl : Ziplist) : AtEnd L R w →
      NodeInserted lzf q L a (q.fresh, pushedNode zl) R (decide (w = .tail)) (L' ++ b :: R') →
      Pushed lzf q w (L ++ a :: R) L' b R'

theorem Quicklist.Is.push_nodes (h : q.Is ns) :
    Returns (fun r => ∃ A' j y B', q.Next r.1 (A' ++ (j, y.incr) :: B') ∧ Pushed lzf q w ns A' (j, y) B')
      (quicklistPushValue lzf q k v w) := by
  refine .any fun n => .bind (P := fun q₁ => ∃ A' j y B', q.Next q₁ (A' ++ (j, y) :: B') ∧ AtEnd A' B' w ∧
    Pushed lzf q w ns A' (j, y) B') ?_ fun q₁ ⟨A', j, y, B', h₁, he, hp⟩ => ?_
  · dsimp only
    by_cases hn : ns = []
    · subst hn
      rw [h.rep.endPtr_nil w]
      refine .ite .fault (.any fun zl => (h.insertNode_nil lzf _ _).mono fun q₁ h₁ => ?_)
      exact ⟨[], _, _, [], h₁, by cases w <;> rfl, .first zl⟩
    · obtain ⟨A, ⟨i, x⟩, B, rfl, he⟩ := exists_atEnd hn w
      rw [h.rep.endPtr he]
      refine .ite (.any fun c => .any fun zl => ?_) (.any fun zl => (h.insertNode lzf _ _).mono fun q₁ ⟨ns', h₁, hi⟩ => ?_)
      · exact (Returns.of_spec (h.modify _)).mono fun q₁ h₁ => ⟨A, i, _, B, h₁, he, .into zl⟩
      obtain ⟨L, R, hLR, heLR⟩ := nodesInserted_atEnd (i, x) (q.fresh, pushedNode zl) he
      have hsplit : Recoding (L ++ _ :: R) ns' := hLR ▸ hi.1
      obtain ⟨A', y, B', rfl, hA, -, hB⟩ := hsplit.split
      exact ⟨A', _, y, B', h₁, heLR.recoding hA hB, .beside zl he hi⟩
  · have h₁' := h₁.setCount (q₁.count + 1)
    dsimp only
    rw [h₁.rep.endPtr he]
    exact .bind (.of_spec (h₁'.is.modify _)) fun q₂ h₂ => .ret ⟨A', j, y, B', h₁'.trans h₂, hp⟩

theorem Quicklist.Is.pop_nodes (h : q.Is ns) :
    Returns (fun r => r.1 = q ∨ ∃ A i x B p gone, ns = A ++ (i, x) :: B ∧ AtEnd A B w ∧
      quicklistDelIndex lzf q i p = some (r.1, gone)) (quicklistPop lzf q w) := by
  refine .ite (.ret (.inl rfl)) ?_
  by_cases hn : ns = []
  · subst hn
    rw [h.rep.endPtr_nil w]
    exact .ret (.inl rfl)
  obtain ⟨A, ⟨i, x⟩, B, rfl, he⟩ := exists_atEnd hn w
  rw [h.rep.endPtr he]
  refine .any fun c => ?_
  split
  · exact .ret (.inl rfl)
  · exact .any fun v => .bind .self fun r hdel => .ret (.inr ⟨A, i, x, B, _, r.2, rfl, he, hdel⟩)

end push

/-! ### Insertion into a node -/

section insertInto
variable (lzf : Ziplist → Nat) {q : Quicklist} {A B : List (Nat × QuicklistNode)} {i : Nat} {x : QuicklistNode}
  {zl : Ziplist} {insert : Ziplist → Option Ziplist}

def QuicklistNode.recompressed (lzf : Ziplist → Nat) (n : QuicklistNode) : QuicklistNode :=
  if n.recompress then n.compressNode lzf else n

theorem QuicklistNode.recompressed_recoded (n : QuicklistNode) : n.Recoded (n.recompressed lzf) := by
  unfold recompressed
  split
  · exact compressNode_recoded lzf n
  · exact .refl n

@[simp] theorem QuicklistNode.decompressNodeForUse_zl (n : QuicklistNode) : n.decompressNodeForUse.zl = n.zl := by
  unfold decompressNodeForUse
  split <;> rfl

@[simp] theorem QuicklistNode.decompressNodeForUse_count (n : QuicklistNode) :
    n.decompressNodeForUse.count = n.count := by
  unfold decompressNodeForUse
  split <;> rfl

/-- What is left of a node after the deletion of `del` elements. -/
def QuicklistNode.shortened (x : QuicklistNode) (zl : Ziplist) (del : Nat) : QuicklistNode :=
  { x.decompressNodeForUse.setZl zl with count := nodeCountAdd x.count (-(del : Int)) }

theorem Quicklist.Is.delRangeNode {del : Nat} {offset : Int} (h : q.Is (A ++ (i, x) :: B))
    (hz : ziplistDeleteRange x.zl offset (toUInt32 del) = some zl) :
    ∃ q', quicklistDelRangeNode lzf q i (del, false) offset = some q' ∧ (∃ ns', q.Next q' ns' ∧
      (nodeCountAdd x.count (-(del : Int)) = 0 ∧ NodeDeleted q A B ns' ∨
        nodeCountAdd x.count (-(del : Int)) ≠ 0 ∧ ns' = A ++ (i, (x.shortened zl del).recompressed lzf) :: B)) ∧
      q'.count = ulongSub q.count del := by
  obtain ⟨q₁, hq₁, h₁, hc₁⟩ := h.modify QuicklistNode.decompressNodeForUse
  obtain ⟨q₂, hq₂, h₂, hc₂⟩ := h₁.is.modify fun n => { n.setZl zl with count := nodeCountAdd x.count (-(del : Int)) }
  have h₃ := (h₁.trans h₂).setCount (ulongSub q₂.count del)
  unfold quicklistDelRangeNode
  simp only [Bool.false_eq_true, if_false, hq₁, h₁.is.mem, QuicklistNode.decompressNodeForUse_zl,
    QuicklistNode.decompressNodeForUse_count, hz, hq₂, some_bind]
  split
  next h0 =>
    obtain ⟨q₄, hq₄, ⟨ns₄, h₄, hd⟩, hc₄⟩ := h₃.is.delNode lzf
    refine ⟨q₄, hq₄, ⟨ns₄, h₃.trans h₄, .inl ⟨h0, hd.of_next h h₃⟩⟩, hc₄.trans ?_⟩
    rw [h0, hc₂, hc₁]
    rfl
  next h0 =>
    obtain ⟨q₄, hq₄, h₄, hc₄⟩ := h₃.is.recompressOnly lzf
    refine ⟨q₄, hq₄, ⟨_, h₃.trans h₄, .inr ⟨h0, rfl⟩⟩, hc₄.trans ?_⟩
    rw [hc₂, hc₁]

end insertInto

/-! ### Finding an element -/

section index
variable {q : Quicklist} {A B ns : List (Nat × QuicklistNode)} {forward : Bool}

def countSum (ns : List (Nat × QuicklistNode)) : Nat := (ns.map fun a => a.2.count).sum

@[simp] theorem countSum_nil : countSum [] = 0 := rfl

@[simp] theorem countSum_cons (a : Nat × QuicklistNode) : countSum (a :: ns) = a.2.count + countSum ns := rfl

@[simp] theorem countSum_reverse : countSum ns.reverse = countSum ns := by
  unfold countSum
  rw [map_reverse, sum_reverse]

/-- The nodes met by following one of the links from `p`. -/
def Quicklist.Chain (q : Quicklist) (forward : Bool) : Option Nat → List (Nat × QuicklistNode) → Prop
  | p, [] => p = none
  | p, a :: ds => p = some a.1 ∧ ∃ c, q.mem a.1 = some c ∧ c.data = a.2 ∧
      q.Chain forward (if forward then c.next else c.prev) ds

theorem Quicklist.Is.chain_forward (h : q.Is (A ++ B)) : q.Chain true (headPtr B none) B := by
  induction B generalizing A with
  | nil => rfl
  | cons a B ih => exact ⟨rfl, _, h.mem, rfl, ih (by rwa [append_snoc] at h)⟩

theorem Quicklist.Is.chain_backward (h : q.Is (A ++ B)) : q.Chain false (lastPtr none A) A.reverse := by
  induction A using List.reverseRecOn generalizing B with
  | nil => rfl
  | append_singleton A a ih =>
    rw [reverse_append, lastPtr_concat]
    rw [← append_snoc] at h
    exact ⟨rfl, _, h.mem, rfl, ih h⟩

theorem quicklistSeek_spec (q : Quicklist) (forward : Bool) (index : Nat) :
    ∀ (ds : List (Nat × QuicklistNode)) (fuel : Nat) (p : Option Nat) (accum : Nat), q.Chain forward p ds →
      ds.length < fuel → accum ≤ index →
      (quicklistSeek q forward index fuel p accum = some (none, accum + countSum ds) ∧ accum + countSum ds ≤ index) ∨
      ∃ D₁ a D₂, ds = D₁ ++ a :: D₂ ∧
        quicklistSeek q forward index fuel p accum = some (some a.1, accum + countSum D₁) ∧
        accum + countSum D₁ ≤ index ∧ index < accum + countSum D₁ + a.2.count := by
  intro ds
  induction ds with
  | nil =>
    intro fuel p accum hp hf hacc
    obtain ⟨fuel, rfl⟩ : ∃ f, fuel = f + 1 := ⟨fuel - 1, by simp at hf; omega⟩
    obtain rfl : p = none := hp
    exact .inl ⟨rfl, hacc⟩
  | cons a ds ih =>
    intro fuel p accum hp hf hacc
    obtain ⟨fuel, rfl⟩ : ∃ f, fuel = f + 1 := ⟨fuel - 1, by simp at hf; omega⟩
    obtain ⟨rfl, c, hc, hd, hchain⟩ := hp
    unfold quicklistSeek
    simp only [hc, some_bind, hd]
    split
    · exact .inr ⟨[], a, ds, rfl, rfl, hacc, by simpa using ‹_›⟩
    next hlt =>
      simp only [length_cons] at hf
      rcases ih fuel _ (accum + a.2.count) hchain (by omega) (by omega) with ⟨hs, hle⟩ | ⟨D₁, b, D₂, rfl, hs, h1, h2⟩
      · left
        rw [countSum_cons, ← add_assoc]
        exact ⟨hs, hle⟩
      · refine .inr ⟨a :: D₁, b, D₂, rfl, ?_, ?_, ?_⟩
        · rw [countSum_cons, ← add_assoc]; exact hs
        · rw [countSum_cons]; omega
        · rw [countSum_cons]; omega

def indexDist (idx : Int) : Nat := if 0 ≤ idx then idx.toNat else (-idx - 1).toNat

/-- The offset of element `idx` in the node between `A` and `B`. -/
def indexOffset (idx : Int) (A B : List (Nat × QuicklistNode)) : Int :=
  if 0 ≤ idx then idx - countSum A else idx + countSum B

/-- The elements between the end that `idx` is counted from and the node. -/
def indexSkip (idx : Int) (A B : List (Nat × QuicklistNode)) : Nat := if 0 ≤ idx then countSum A else countSum B

theorem Quicklist.Is.index (h : q.Is ns) (idx : Int) : (quicklistIndex q idx = some (q, initEntry, false) ∧
        (q.count ≤ indexDist idx ∨ countSum ns ≤ indexDist idx)) ∨
      ∃ A i x B q', ns = A ++ (i, x) :: B ∧
        q.Next q' (A ++ (i, x.decompressNodeForUse) :: B) ∧ q'.count = q.count ∧
        quicklistIndex q idx = some (q', ⟨some i, ziplistIndex x.zl (indexOffset idx A B), indexOffset idx A B,
          (ziplistIndex x.zl (indexOffset idx A B)).bind (ziplistGet x.zl)⟩, true) ∧
        indexSkip idx A B ≤ indexDist idx ∧ indexDist idx < indexSkip idx A B + x.count ∧
        q.modify (some i) QuicklistNode.decompressNodeForUse = some q' := by
  unfold quicklistIndex
  have hdist : (if decide (0 ≤ idx) = true then idx.toNat else (-idx - 1).toNat) = indexDist idx := by
    unfold indexDist; by_cases h0 : 0 ≤ idx <;> simp [h0]
  simp only [hdist]
  split
  · exact .inl ⟨rfl, .inl ‹_›⟩
  next hlt =>
    have hfuel : ns.length < q.len + 1 := by rw [h.len]; omega
    -- the nodes in the direction of the walk
    obtain ⟨ds, p, hp, hchain, hds, hsum, hback⟩ : ∃ ds p, (if decide (0 ≤ idx) = true then q.head else q.tail) = p ∧
        q.Chain (decide (0 ≤ idx)) p ds ∧ ds.length = ns.length ∧ countSum ds = countSum ns ∧
        ∀ D₁ a D₂, ds = D₁ ++ a :: D₂ → ∃ A B, ns = A ++ a :: B ∧ indexSkip idx A B = countSum D₁ ∧
          indexOffset idx A B = if decide (0 ≤ idx) = true then (indexDist idx : Int) - countSum D₁
            else -(indexDist idx : Int) - 1 + countSum D₁ := by
      unfold indexSkip indexOffset indexDist
      by_cases h0 : 0 ≤ idx
      · simp only [h0, decide_true, if_true]
        refine ⟨ns, q.head, rfl, h.rep.head ▸ Quicklist.Is.chain_forward (A := []) h, rfl, rfl, ?_⟩
        rintro D₁ a D₂ rfl
        exact ⟨D₁, D₂, rfl, rfl, by omega⟩
      · simp only [h0, decide_false, Bool.false_eq_true, if_false]
        refine ⟨ns.reverse, q.tail, rfl, ?_, length_reverse, countSum_reverse, fun D₁ a D₂ hd => ?_⟩
        · rw [h.rep.tail]
          exact Quicklist.Is.chain_backward (by rwa [append_nil])
        · refine ⟨D₂.reverse, D₁.reverse, ?_, countSum_reverse, by rw [countSum_reverse]; omega⟩
          rw [← reverse_reverse ns, hd]
          simp
    simp only [hp]
    rcases quicklistSeek_spec q (decide (0 ≤ idx)) (indexDist idx) ds (q.len + 1) p 0 hchain (by omega)
        (Nat.zero_le _) with ⟨hs, hle⟩ | ⟨D₁, ⟨i, x⟩, D₂, hd, hs, hle, hlt'⟩
    · left
      simp only [hs, some_bind]
      exact ⟨trivial, .inr (by omega)⟩
    right
    dsimp only at hlt'
    obtain ⟨A, B, rfl, hskip, hoff⟩ := hback _ _ _ hd
    obtain ⟨q', hq', h', hc'⟩ := h.modify QuicklistNode.decompressNodeForUse
    refine ⟨A, i, x, B, q', rfl, h', hc', ?_, by omega, by omega, hq'⟩
    simp only [hs, some_bind, hq', h'.is.mem, Nat.zero_add, ← hoff,
      QuicklistNode.decompressNodeForUse_zl]

end index

end Redis
