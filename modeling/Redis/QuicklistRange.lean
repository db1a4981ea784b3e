import Redis.QuicklistOps
import Redis.ZiplistOps

/-! # Positions in a quicklist

The elements of a quicklist are those of its nodes, one node after the other. An element can be looked
up from either end, with an offset that is counted from the same end of its node, and a range of
elements may end some nodes further on. A deletion reads the offset only in the first node, and there
it compares the length of the range with the whole node. -/

namespace Redis
open List Option

section counted
variable {q q' : Quicklist} {ns ns' A B : List (Nat × QuicklistNode)} {i : Nat} {x : QuicklistNode}
variable {lzf : Ziplist → Nat} {offset : Int} {extent p : Nat}

def nodeElements (ns : List (Nat × QuicklistNode)) : List (List UInt8) := ns.flatMap fun a => a.2.zl.toList

/-- A count of a node, which has 16 bits, is the number of elements. -/
def Counts (zl : Ziplist) (n : Nat) : Prop := n = zl.entries.length ∧ n < 2 ^ 16

instance (zl : Ziplist) (n : Nat) : Decidable (Counts zl n) := inferInstanceAs (Decidable (_ ∧ _))

/-- The counts of the list and of its nodes are right. -/
structure Quicklist.Counted (q : Quicklist) (ns : List (Nat × QuicklistNode)) : Prop where
  is : q.Is ns
  count : q.count = countSum ns
  nodes : ∀ a ∈ ns, Counts a.2.zl a.2.count

@[simp] theorem countSum_append : countSum (A ++ B) = countSum A + countSum B := by
  unfold countSum
  rw [map_append, sum_append]

@[simp] theorem nodeElements_nil : nodeElements [] = [] := rfl

@[simp] theorem nodeElements_append : nodeElements (A ++ B) = nodeElements A ++ nodeElements B := flatMap_append

@[simp] theorem nodeElements_cons : nodeElements ((i, x) :: B) = x.zl.toList ++ nodeElements B := flatMap_cons

theorem nodeElements_length (h : ∀ a ∈ ns, Counts a.2.zl a.2.count) : (nodeElements ns).length = countSum ns := by
  induction ns with
  | nil => rfl
  | cons a ns ih =>
    obtain ⟨ha, hns⟩ := forall_mem_cons.1 h
    rw [nodeElements_cons, length_append, ih hns, Ziplist.toList_length, countSum_cons, ha.1]

theorem Recoding.elements (h : Recoding ns ns') : nodeElements ns' = nodeElements ns := by
  induction h with
  | nil => rfl
  | cons hab _ ih => rw [nodeElements_cons, nodeElements_cons, ih, hab.2.zl]

theorem Recoding.countSum (h : Recoding ns ns') : Redis.countSum ns' = Redis.countSum ns := by
  induction h with
  | nil => rfl
  | cons hab _ ih => rw [countSum_cons, countSum_cons, ih, hab.2.count]

/-- A property of ziplists and counts is kept by a recoding. -/
theorem Recoding.forall_mem {P : Ziplist → Nat → Prop} (h : Recoding ns ns') (hP : ∀ a ∈ ns, P a.2.zl a.2.count) :
    ∀ a ∈ ns', P a.2.zl a.2.count := by
  intro b hb
  obtain ⟨k, hk⟩ := mem_iff_getElem?.1 hb
  obtain ⟨a, ha, hab⟩ := h.get hk
  rw [hab.zl, hab.count]
  exact hP a (mem_of_getElem? ha)

/-! ### The place of an element -/

/-- The node that holds element `k`, and the place of the element in it. -/
def nodeAt : List (Nat × QuicklistNode) → Nat → Option (Nat × QuicklistNode)
  | [], _ => none
  | a :: ns, k => if k < a.2.count then some (k, a.2) else nodeAt ns (k - a.2.count)

theorem nodeAt_split {k : Nat} (h1 : countSum A ≤ k) (h2 : k < countSum A + x.count) :
    nodeAt (A ++ (i, x) :: B) k = some (k - countSum A, x) := by
  induction A generalizing k with
  | nil => rw [nil_append, nodeAt, if_pos (by simpa using h2), countSum_nil, Nat.sub_zero]
  | cons a A ih =>
    rw [countSum_cons] at h1 h2 ⊢
    rw [cons_append, nodeAt, if_neg (by omega), ih (by omega) (by omega), Nat.sub_sub]

theorem nodeAt_lt {k : Nat} (h : nodeAt ns k = some (p, x)) : p < x.count ∧ k < countSum ns := by
  induction ns generalizing k with
  | nil => cases h
  | cons a ns ih =>
    rw [nodeAt] at h
    rw [countSum_cons]
    split at h
    next hlt =>
      cases h
      exact ⟨hlt, by omega⟩
    · obtain ⟨hp, hk⟩ := ih h
      exact ⟨hp, by omega⟩

/-- An offset from either end of a node. -/
theorem ziplistIndex_place {zl : Ziplist} (hp : offset = p ∨ offset = (p : Int) - zl.entries.length)
    (h : p < zl.entries.length) : ziplistIndex zl offset = some p := by
  unfold ziplistIndex
  rcases hp with rfl | rfl
  · rw [if_neg (by omega), if_pos (by omega)]
    rfl
  · rw [if_pos (by omega), if_pos (by omega)]
    congr 1
    omega

/-! ### Deleting a range -/

theorem quicklistDelCount_eq {m : Nat} (hp : offset = p ∨ offset = (p : Int) - m ∧ p < m) (hpm : p ≤ m)
    (hok : 0 < offset → m ≤ extent ∨ offset + extent ≤ m) :
    quicklistDelCount offset extent m = (min extent (m - p), decide (offset = 0 ∧ m ≤ extent)) := by
  unfold quicklistDelCount
  split
  next hall =>
    obtain ⟨rfl, hle⟩ := hall
    simp only [hle, and_self, decide_true, Prod.mk.injEq, and_true]
    omega
  next hall =>
    have hno : decide (offset = 0 ∧ m ≤ extent) = false := decide_eq_false hall
    rw [hno]
    repeat' split
    all_goals
      simp only [Prod.mk.injEq, and_true]
      omega

/-- A node that loses `del` elements from `p` on: the ziplist loses those that there are. -/
theorem Quicklist.Counted.shorten (lzf : Ziplist → Nat) (h : q.Counted (A ++ (i, x) :: B))
    (hp : offset = p ∨ offset = (p : Int) - x.count ∧ p < x.count) (hpx : p < x.count) (hcap : zlCap x.zl.values < 2 ^ 32)
    {del : Nat} (hdel : del ≤ x.count) :
    ∃ q' zl y, quicklistDelRangeNode lzf q i (del, false) offset = some q' ∧ q'.count = q.count - del ∧
      zl.values = x.zl.values.take p ++ x.zl.values.drop (p + del) ∧ y.zl = zl ∧ y.count = x.count - del ∧
      (del = x.count ∧ (∃ ns', q'.Is ns' ∧ Recoding (A ++ B) ns') ∨ del < x.count ∧ q'.Is (A ++ (i, y) :: B)) := by
  obtain ⟨hx, hx16⟩ : Counts x.zl x.count := h.nodes (i, x) (by simp)
  have hcount := h.count
  simp only [countSum_append, countSum_cons] at hcount
  have hzi : ziplistIndex x.zl offset = some p := ziplistIndex_place (by omega) (by omega)
  have hnum : toUInt32 del = del := by
    unfold toUInt32
    omega
  obtain ⟨zl, hzl⟩ := ziplistDeleteAt_isSome x.zl p del hcap
  have hz : ziplistDeleteRange x.zl offset (toUInt32 del) = some zl := by
    unfold ziplistDeleteRange
    rw [hzi, hnum]
    exact hzl
  have hleft : nodeCountAdd x.count (-(del : Int)) = x.count - del := by
    unfold nodeCountAdd
    omega
  have hr := (x.shortened zl del).recompressed_recoded lzf
  obtain ⟨q', hq', ⟨ns', h', hns'⟩, hc'⟩ := h.is.delRangeNode lzf hz
  refine ⟨q', zl, (x.shortened zl del).recompressed lzf, hq', hc'.trans (if_pos (by omega)), ziplistDeleteAt_values hzl,
    hr.zl, hr.count.trans hleft, ?_⟩
  rw [hleft] at hns'
  rcases hns' with ⟨h0, hd⟩ | ⟨h0, rfl⟩
  · exact .inl ⟨by omega, ns', h'.is, hd.1⟩
  · exact .inr ⟨by omega, h'.is⟩

section
variable (lzf : Ziplist → Nat) (h : q.Counted (A ++ (i, x) :: B))
  (hp : offset = p ∨ offset = (p : Int) - x.count ∧ p < x.count) (hpm : p ≤ x.count) (hin : offset = 0 ∨ p < x.count)
  (hok : 0 < offset → x.count ≤ extent ∨ offset + extent ≤ x.count) (hcap : zlCap x.zl.values < 2 ^ 32)
include h hp hpm hin hok hcap

/-- One node of the loop: the elements from `p` on go, as far as the range and the node reach. -/
theorem Quicklist.Counted.delRangeNode :
    ∃ q' A' M B', quicklistDelRangeNode lzf q i (quicklistDelCount offset extent x.count) offset = some q' ∧
      q'.Counted (A' ++ M ++ B') ∧ Recoding A A' ∧ Recoding B B' ∧
      nodeElements M = x.zl.toList.take p ++ x.zl.toList.drop (p + min extent (x.count - p)) := by
  obtain ⟨hx, hx16⟩ : Counts x.zl x.count := h.nodes (i, x) (by simp)
  have hA : ∀ a ∈ A, Counts a.2.zl a.2.count := fun a ha => h.nodes a (by simp [ha])
  have hB : ∀ a ∈ B, Counts a.2.zl a.2.count := fun a ha => h.nodes a (by simp [ha])
  have hcount := h.count
  simp only [countSum_append, countSum_cons] at hcount
  rw [quicklistDelCount_eq hp hpm hok]
  generalize hdel : min extent (x.count - p) = del
  -- a node that is gone leaves nothing
  have hgone : ∀ {q' : Quicklist} {ns'}, q'.Is ns' → Recoding (A ++ B) ns' → q'.count = q.count - x.count → p = 0 →
      del = x.count →
      ∃ A' M B', q'.Counted (A' ++ M ++ B') ∧ Recoding A A' ∧ Recoding B B' ∧
        nodeElements M = x.zl.toList.take p ++ x.zl.toList.drop (p + del) := by
    intro q' ns' h' hrec hc hp0 hall
    obtain ⟨A', B', rfl, hA', hB'⟩ := hrec.append_left
    refine ⟨A', [], B', ⟨by rwa [append_nil], ?_, ?_⟩, hA', hB', ?_⟩
    · rw [append_nil, countSum_append, hA'.countSum, hB'.countSum]
      omega
    · rw [append_nil]
      exact forall_mem_append.2 ⟨hA'.forall_mem hA, hB'.forall_mem hB⟩
    · rw [hp0, hall, take_zero, drop_eq_nil_of_le (by rw [Ziplist.toList_length]; omega)]
      rfl
  by_cases hall : offset = 0 ∧ x.count ≤ extent
  · obtain ⟨q', hq', ⟨ns', h', hd⟩, hc'⟩ := h.is.delNode lzf
    rw [decide_eq_true hall]
    obtain ⟨A', M, B', hC⟩ := hgone h'.is hd.1 (hc'.trans (if_pos (by omega))) (by omega) (by omega)
    exact ⟨q', A', M, B', hq', hC⟩
  · have hpx : p < x.count := by omega
    rw [decide_eq_false hall]
    obtain ⟨q', zl, y, hq', hc', hvalues, hzl', hcnt, h'⟩ := h.shorten lzf hp hpx hcap (show del ≤ x.count by omega)
    rcases h' with ⟨hall', ns', h', hrec⟩ | ⟨hleft, h'⟩
    · obtain ⟨A', M, B', hC⟩ := hgone h' hrec (hc'.trans (by omega)) (by omega) hall'
      exact ⟨q', A', M, B', hq', hC⟩
    have hlen := congrArg length hvalues
    simp only [Ziplist.values_length, length_append, length_take, length_drop] at hlen
    refine ⟨q', A, [(i, y)], B, hq', ⟨by simpa using h', ?_, ?_⟩, .refl A, .refl B, ?_⟩
    · simp only [countSum_append, countSum_cons, countSum_nil, hcnt]
      omega
    · simp only [forall_mem_append, forall_mem_singleton]
      refine ⟨⟨hA, ?_⟩, hB⟩
      rw [hcnt, hzl']
      exact ⟨by omega, by omega⟩
    · rw [nodeElements_cons, hzl']
      show zl.toList ++ [] = _
      unfold Ziplist.toList
      rw [append_nil, hvalues, map_append, map_take, map_drop]

theorem Quicklist.Counted.delRange_step (hpos : 0 < extent) (fuel : Nat) :
    ∃ q₁ A' M B', quicklistDelRangeLoop lzf (fuel + 1) q (some i) offset extent =
        quicklistDelRangeLoop lzf fuel q₁ (headPtr B' none) 0 (extent - min extent (x.count - p)) ∧
      q₁.Counted (A' ++ M ++ B') ∧ Recoding A A' ∧ Recoding B B' ∧
      nodeElements M = x.zl.toList.take p ++ x.zl.toList.drop (p + min extent (x.count - p)) := by
  obtain ⟨q₁, A', M, B', hq₁, h₁, hA, hB, hM⟩ := h.delRangeNode lzf hp hpm hin hok hcap
  refine ⟨q₁, A', M, B', ?_, h₁, hA, hB, hM⟩
  obtain ⟨e, rfl⟩ := Nat.exists_eq_add_one.2 hpos
  have hdel := quicklistDelCount_eq hp hpm hok
  rw [hdel] at hq₁
  rw [headPtr_congr hB.ids]
  simp only [quicklistDelRangeLoop, h.is.mem, some_bind, hdel, hq₁]

end

theorem drop_node_append {α : Type} (X Y : List α) (extent : Nat) (hp : p ≤ X.length) :
    X.drop (p + min extent (X.length - p)) ++ Y.drop (extent - min extent (X.length - p)) =
      (X ++ Y).drop (p + extent) := by
  rw [drop_append]
  rcases le_total extent (X.length - p) with hle | hle
  · rw [min_eq_left hle, Nat.sub_self, Nat.sub_eq_zero_of_le (by omega)]
  have hX : X.drop (p + extent) = [] := drop_eq_nil_of_le (by omega)
  rw [min_eq_right hle, Nat.add_sub_cancel' hp, drop_length, hX]
  congr 2
  omega

theorem quicklistDelRangeLoop_counted (lzf : Ziplist → Nat) :
    ∀ (fuel extent : Nat) {q : Quicklist} {A B : List (Nat × QuicklistNode)}, q.Counted (A ++ B) →
      (∀ a ∈ B, zlCap a.2.zl.values < 2 ^ 32) → extent ≤ countSum B → B.length ≤ fuel →
      ∃ q' ns', quicklistDelRangeLoop lzf fuel q (headPtr B none) 0 extent = some q' ∧ q'.Counted ns' ∧
        nodeElements ns' = nodeElements A ++ (nodeElements B).drop extent := by
  intro fuel
  induction fuel with
  | zero =>
    intro extent q A B h _ hle hf
    obtain rfl : B = [] := length_eq_zero_iff.1 (Nat.le_zero.1 hf)
    obtain rfl : extent = 0 := Nat.le_zero.1 hle
    exact ⟨q, _, rfl, h, by simp⟩
  | succ fuel ih =>
    intro extent q A B h hcap hle hf
    rcases Nat.eq_zero_or_pos extent with rfl | hpos
    · exact ⟨q, _, rfl, h, by simp⟩
    rcases B with - | ⟨⟨i, x⟩, B⟩
    · exact absurd hle (Nat.not_le_of_gt hpos)
    obtain ⟨hx, hcapB⟩ := forall_mem_cons.1 hcap
    obtain ⟨hxc, -⟩ : Counts x.zl x.count := h.nodes (i, x) (by simp)
    obtain ⟨q₁, A', M, B', hq₁, h₁, hA, hB, hM⟩ := h.delRange_step lzf
      (show (0 : Int) = _ ∨ _ from .inl rfl) (Nat.zero_le _) (.inl rfl) (by simp) hx hpos fuel
    have hcap₁ := hB.forall_mem (P := fun zl _ => zlCap zl.values < 2 ^ 32) hcapB
    simp only [countSum_cons, length_cons] at hle hf
    obtain ⟨q', ns', hq', h', he'⟩ := ih (extent - min extent (x.count - 0)) h₁ hcap₁
      (by rw [hB.countSum]; omega) (by rw [hB.length_eq]; omega)
    refine ⟨q', ns', hq₁.trans hq', h', ?_⟩
    rw [he', nodeElements_append, hA.elements, hB.elements, hM, hxc, ← x.zl.toList_length, append_assoc,
      append_assoc, drop_node_append _ _ _ (Nat.zero_le _), Nat.zero_add]
    rfl

/-- A range that starts inside a node and is shorter than the node, but ends behind it: the node is charged for
elements that it does not lose. -/
theorem Quicklist.Counted.delRange_short (lzf : Ziplist → Nat) (h : q.Counted (A ++ (i, x) :: B))
    (hcap : zlCap x.zl.values < 2 ^ 32) (hp : 0 < p) (hpx : p < x.count) (hlt : extent < x.count)
    (hgt : x.count < p + extent) (fuel : Nat) :
    ∃ q' ns', quicklistDelRangeLoop lzf (fuel + 1) q (some i) p extent = some q' ∧ q'.Is ns' ∧
      ∃ a ∈ ns', ¬Counts a.2.zl a.2.count := by
  obtain ⟨hx, -⟩ : Counts x.zl x.count := h.nodes (i, x) (by simp)
  obtain ⟨q', zl, y, hq', -, hvalues, hzl, hcnt, h'⟩ :=
    h.shorten lzf (show (p : Int) = p ∨ _ from .inl rfl) hpx hcap hlt.le
  rcases h' with ⟨hall, -⟩ | ⟨-, h'⟩
  · omega
  refine ⟨q', _, ?_, h', (i, y), by simp, ?_⟩
  · have hdel : quicklistDelCount p extent x.count = (extent, false) := by
      unfold quicklistDelCount
      rw [if_neg (by omega), if_neg (by omega), if_neg (by omega)]
    obtain ⟨e, rfl⟩ := Nat.exists_eq_add_one.2 (show 0 < extent by omega)
    simp only [quicklistDelRangeLoop, h.is.mem, some_bind, hdel, hq', Nat.sub_self]
  · have hlen := congrArg length hvalues
    simp only [Ziplist.values_length, length_append, length_take, length_drop] at hlen
    rintro ⟨hcount, -⟩
    rw [hzl, hcnt] at hcount
    omega

/-- A range that starts in the node between `A` and `B`. -/
theorem Quicklist.Counted.delRange_from (lzf : Ziplist → Nat) (h : q.Counted (A ++ (i, x) :: B))
    (hcap : ∀ a ∈ (i, x) :: B, zlCap a.2.zl.values < 2 ^ 32)
    (hp : offset = p ∨ offset = (p : Int) - x.count ∧ p < x.count) (hpx : p < x.count)
    (hok : 0 < offset → x.count ≤ extent ∨ offset + extent ≤ x.count) (hpos : 0 < extent)
    (hle : countSum A + p + extent ≤ q.count) :
    ∃ q' ns', quicklistDelRangeLoop lzf (q.len + 1) q (some i) offset extent = some q' ∧ q'.Counted ns' ∧
      nodeElements ns' = (nodeElements (A ++ (i, x) :: B)).take (countSum A + p) ++
        (nodeElements (A ++ (i, x) :: B)).drop (countSum A + (p + extent)) := by
  obtain ⟨hxcap, hcapB⟩ := forall_mem_cons.1 hcap
  obtain ⟨hx, -⟩ : Counts x.zl x.count := h.nodes (i, x) (by simp)
  have hcount := h.count
  simp only [countSum_append, countSum_cons] at hcount
  obtain ⟨q₂, A', M, B', hq₂, h₂, hA, hB, hM⟩ := h.delRange_step lzf hp hpx.le (.inr hpx) hok hxcap hpos q.len
  have hcap₂ := hB.forall_mem (P := fun zl _ => zlCap zl.values < 2 ^ 32) hcapB
  obtain ⟨q', ns', hq', h', he'⟩ := quicklistDelRangeLoop_counted lzf q.len (extent - min extent (x.count - p)) h₂ hcap₂
    (by rw [hB.countSum]; omega) (by rw [hB.length_eq, h.is.len]; simp; omega)
  have hA' : (nodeElements A).length = countSum A := nodeElements_length fun a ha => h.nodes a (mem_append_left _ ha)
  refine ⟨q', ns', hq₂.trans hq', h', ?_⟩
  rw [nodeElements_append, ← hA', take_length_add_append, drop_length_add_append, nodeElements_cons,
    take_append_of_le_length (by rw [Ziplist.toList_length]; omega), he', nodeElements_append, hA.elements, hB.elements, hM,
    hx, ← x.zl.toList_length, append_assoc, append_assoc, drop_node_append _ _ _ (by rw [Ziplist.toList_length]; omega),
    append_assoc]

/-- The elements without `count` of them from `start` on, which is counted from the end if it is negative. -/
def withoutRange (start count : Int) (l : List (List UInt8)) : List (List UInt8) :=
  let s := if start < 0 then l.length + start else start
  l.take s.toNat ++ l.drop (max s.toNat (s + count).toNat)

/-- A negative start is not in front of the list, unless the range is too or the list is empty; and a range that
starts inside a node, found from the head, ends in this node or is as long as the node. -/
def Quicklist.RangeOk (q : Quicklist) (start count : Int) : Prop :=
  (start < 0 → q.count = 0 ∨ -(q.count : Int) ≤ start ∨ q.count + start + count ≤ 0) ∧
    (0 ≤ start → ∀ t ∈ nodeAt q.nodes start.toNat, 0 < t.1 →
      (t.2.count : Int) ≤ min count (q.count - start) ∨ t.1 + min count (q.count - start) ≤ t.2.count)

theorem withoutRange_eq_self {start count : Int} {l : List (List UInt8)} (h : count ≤ 0 ∨ l.length ≤ start) :
    withoutRange start count l = l := by
  unfold withoutRange
  dsimp only
  generalize hs : (if start < 0 then (l.length : Int) + start else start) = s
  have hcase : (s + count).toNat ≤ s.toNat ∨ l.length ≤ s.toNat := by split at hs <;> omega
  rcases hcase with hle | hle
  · rw [max_eq_left hle, take_append_drop]
  · rw [take_of_length_le hle, drop_eq_nil_of_le (by omega), append_nil]

theorem withoutRange_before_iff {start count : Int} {l : List (List UInt8)} (h : start < -(l.length : Int)) :
    withoutRange start count l = l ↔ l.length = 0 ∨ l.length + start + count ≤ 0 := by
  unfold withoutRange
  dsimp only
  rw [if_pos (by omega), Int.toNat_of_nonpos (by omega), take_zero, nil_append, Nat.zero_max]
  constructor
  · intro heq
    have hlen := congrArg length heq
    rw [length_drop] at hlen
    omega
  · rintro (h0 | hle)
    · rw [length_eq_zero_iff.1 h0, drop_nil]
    · rw [Int.toNat_of_nonpos hle, drop_zero]

/-- The range starts at element `p` of the node `x` between `A` and `B`. -/
structure RangeStart (q : Quicklist) (start : Int) (A : List (Nat × QuicklistNode)) (x : QuicklistNode)
    (B : List (Nat × QuicklistNode)) (p : Nat) : Prop where
  place : indexOffset start A B = p ∨ indexOffset start A B = (p : Int) - x.count ∧ p < x.count
  inside : p < x.count
  pos : (if start < 0 then (q.count : Int) + start else start) = (countSum A + p : Nat)
  forward : 0 ≤ start → indexOffset start A B = p
  backward : start < 0 → indexOffset start A B < 0
  within : countSum A + x.count ≤ q.count

section start
variable {start count : Int}

theorem Quicklist.Counted.rangeStart (h : q.Counted (A ++ (i, x) :: B)) (hle : indexSkip start A B ≤ indexDist start)
    (hlt : indexDist start < indexSkip start A B + x.count) : ∃ p, RangeStart q start A x B p := by
  have hcount := h.count
  simp only [countSum_append, countSum_cons] at hcount
  unfold indexSkip indexDist at hle hlt
  by_cases hs : 0 ≤ start
  · have hoff : indexOffset start A B = start - countSum A := if_pos hs
    simp only [hs, if_true] at hle hlt
    refine ⟨(start - countSum A).toNat, .inl ?_, ?_, ?_, fun _ => ?_, ?_, ?_⟩
    · omega
    · omega
    · rw [if_neg (by omega)]
      omega
    all_goals omega
  · have hoff : indexOffset start A B = start + countSum B := if_neg hs
    simp only [hs, if_false] at hle hlt
    refine ⟨(start + countSum B + x.count).toNat, .inr ⟨?_, ?_⟩, ?_, ?_, fun h => absurd h hs, ?_, ?_⟩
    · omega
    · omega
    · omega
    · rw [if_pos (by omega)]
      omega
    all_goals omega

/-- The range ends at its length or at the end of the list. -/
theorem RangeStart.delExtent (hr : RangeStart q start A x B p) (hpos : 0 < count) :
    quicklistDelExtent q start count = min count.toNat (q.count - (countSum A + p)) := by
  have hin := hr.inside
  have hwithin := hr.within
  have hstart := hr.pos
  have hsub : 0 ≤ start → ulongSub q.count start.toNat = q.count - start.toNat := by
    intro hs
    rw [if_neg (by omega)] at hstart
    exact if_pos (by omega)
  unfold quicklistDelExtent
  by_cases hs : 0 ≤ start
  · rw [if_neg (by omega)] at hstart
    rw [hsub hs]
    repeat' split
    all_goals omega
  · rw [if_pos (by omega)] at hstart
    repeat' split
    all_goals omega

theorem RangeStart.rangeOk_iff (hr : RangeStart q start A x B p) (hns : q.nodes = A ++ (i, x) :: B) (hpos : 0 < count) :
    q.RangeOk start count ↔ (0 < indexOffset start A B → x.count ≤ quicklistDelExtent q start count ∨
      indexOffset start A B + quicklistDelExtent q start count ≤ x.count) := by
  have hin := hr.inside
  have hwithin := hr.within
  have hstart := hr.pos
  rw [hr.delExtent hpos, Quicklist.RangeOk, hns]
  by_cases hs : 0 ≤ start
  · rw [if_neg (by omega)] at hstart
    rw [nodeAt_split (by omega) (by omega), hr.forward hs]
    simp only [mem_def, some.injEq, forall_eq', hs, true_imp_iff, Int.not_lt.2 hs, false_imp_iff, true_and]
    rw [show start.toNat - countSum A = p by omega]
    omega
  · have hneg := hr.backward (by omega)
    rw [if_pos (by omega)] at hstart
    exact iff_of_true ⟨fun _ => by omega, fun h0 => absurd h0 hs⟩ fun h0 => by omega

theorem RangeStart.without (hr : RangeStart q start A x B p) (hpos : 0 < count) {l : List (List UInt8)}
    (hlen : l.length = q.count) :
    withoutRange start count l = l.take (countSum A + p) ++
      l.drop (countSum A + (p + quicklistDelExtent q start count)) := by
  have hstart := hr.pos
  rw [hr.delExtent hpos]
  unfold withoutRange
  dsimp only
  rw [hlen, hstart, Int.toNat_natCast]
  congr 1
  rcases le_total count.toNat (q.count - (countSum A + p)) with hle | hle
  · congr 1
    omega
  · have hin := hr.inside
    have hwithin := hr.within
    rw [drop_eq_nil_of_le (by omega), drop_eq_nil_of_le (by omega)]

end start

/-- The node of the first element is decompressed, and all counts stay. -/
theorem Quicklist.Counted.forUse (h : q.Counted (A ++ (i, x) :: B)) (h' : q.Next q' (A ++ (i, x.decompressNodeForUse) :: B))
    (hc : q'.count = q.count) : q'.Counted (A ++ (i, x.decompressNodeForUse) :: B) := by
  have hcount := h.count
  refine ⟨h'.is, ?_, fun a ha => ?_⟩
  · simpa [hc] using hcount
  rw [mem_append, mem_cons] at ha
  rcases ha with ha | rfl | ha
  · exact h.nodes a (by simp [ha])
  · rw [QuicklistNode.decompressNodeForUse_zl, QuicklistNode.decompressNodeForUse_count]
    exact h.nodes (i, x) (by simp)
  · exact h.nodes a (by simp [ha])

/-- The range is deleted right if and only if it is of this kind: exactly its elements are gone, and all counts are
right. -/
theorem quicklistDelRange_removes (lzf : Ziplist → Nat) (h : q.Counted ns)
    (hcap : ∀ a ∈ ns, zlCap a.2.zl.values < 2 ^ 32) (start count : Int) :
    (∃ q' r ns', quicklistDelRange lzf q start count = some (q', r) ∧ q'.Counted ns' ∧
      nodeElements ns' = withoutRange start count (nodeElements ns)) ↔ q.RangeOk start count := by
  have hlen := (nodeElements_length h.nodes).trans h.count.symm
  have hcount := h.count
  have hnodes := h.is.nodes
  unfold quicklistDelRange
  by_cases hpos : count ≤ 0
  · rw [if_pos hpos]
    refine iff_of_true ⟨q, false, ns, rfl, h, (withoutRange_eq_self (.inl hpos)).symm⟩ ⟨by omega, ?_⟩
    rintro - ⟨p, x⟩ hat -
    have := nodeAt_lt hat
    dsimp only
    omega
  rw [if_neg hpos]
  replace hpos := Int.not_le.1 hpos
  rcases h.is.index start with ⟨hi, hd⟩ | ⟨A, i, x, B, q₁, rfl, h₁, hc₁, hi, hle, hlt, -⟩
  · -- nothing is found, and nothing is deleted
    have hself : (∃ q' r ns', some (q, false) = some (q', r) ∧ q'.Counted ns' ∧
        nodeElements ns' = withoutRange start count (nodeElements ns)) ↔
          withoutRange start count (nodeElements ns) = nodeElements ns := by
      constructor
      · rintro ⟨q', r, ns', heq, h', he⟩
        cases heq
        rw [← he, ← h'.is.nodes, hnodes]
      · exact fun he => ⟨q, false, ns, rfl, h, he.symm⟩
    simp only [hi, some_bind, Bool.false_eq_true, if_false]
    rw [hself]
    unfold indexDist at hd
    by_cases hs : 0 ≤ start
    · rw [if_pos hs] at hd
      refine iff_of_true (withoutRange_eq_self (.inr (by omega))) ⟨by omega, ?_⟩
      rintro - ⟨p, x⟩ hat -
      rw [hnodes] at hat
      have := nodeAt_lt hat
      omega
    · rw [if_neg hs] at hd
      rw [withoutRange_before_iff (by omega)]
      constructor
      · exact fun hout => ⟨fun _ => by omega, fun h0 => absurd h0 hs⟩
      · exact fun hout => by have := hout.1 (by omega); omega
  · obtain ⟨p, hr⟩ := h.rangeStart hle hlt
    have hwithin := hr.within
    have hin := hr.inside
    have hextent := hr.delExtent hpos
    have hfirst := h.forUse h₁ hc₁
    simp only [hi, some_bind, if_true]
    rw [hr.rangeOk_iff hnodes hpos, hr.without hpos hlen]
    generalize quicklistDelExtent q start count = E at *
    have hcapU : ∀ a ∈ (i, x.decompressNodeForUse) :: B, zlCap a.2.zl.values < 2 ^ 32 := by
      rw [forall_mem_cons, QuicklistNode.decompressNodeForUse_zl]
      exact forall_mem_cons.1 (forall_mem_append.1 hcap).2
    have helems : nodeElements (A ++ (i, x.decompressNodeForUse) :: B) = nodeElements (A ++ (i, x) :: B) := by
      simp [QuicklistNode.decompressNodeForUse_zl]
    have hin' : p < x.decompressNodeForUse.count := by rwa [x.decompressNodeForUse_count]
    by_cases hok : 0 < indexOffset start A B → x.count ≤ E ∨ indexOffset start A B + E ≤ x.count
    · refine iff_of_true ?_ hok
      have hplace := hr.place
      rw [← x.decompressNodeForUse_count] at hplace hok
      obtain ⟨q', ns', hq', h', he'⟩ := hfirst.delRange_from lzf hcapU hplace hin' hok (by omega) (by omega)
      simp only [hq', some_bind]
      exact ⟨q', true, ns', rfl, h', he'.trans (by rw [helems])⟩
    · refine iff_of_false ?_ hok
      rintro ⟨q', r, ns', heq, h', -⟩
      have hoff : indexOffset start A B = p := by
        refine hr.forward ?_
        by_contra hs
        have := hr.backward (by omega)
        exact hok fun h0 => by omega
      rw [hoff] at hok heq
      obtain ⟨q₂, ns₂, hq₂, h₂, a, ha, hwrong⟩ := hfirst.delRange_short (p := p) lzf (hcapU _ (.head _)) (by omega)
        hin' (show E < _ by rw [x.decompressNodeForUse_count]; omega)
        (by rw [x.decompressNodeForUse_count]; omega) q₁.len
      rw [hq₂] at heq
      cases heq
      rw [← h'.is.nodes, h₂.nodes] at h'
      exact hwrong (h'.nodes a ha)

end counted

/-! ### Runs -/

/-- Five elements, in nodes of four. -/
def fiveElements : List QuicklistOp := [[97], [98], [99], [100], [101]].map (.push .tail)

theorem fiveElements_counted :
    ∃ q rs, (quicklistMachine (fun _ => 0) 4 0).run fiveElements (quicklistNew 4 0) = some (q, rs) ∧
      q.Counted q.nodes ∧ (∀ a ∈ q.nodes, zlCap a.2.zl.values + 15 < 2 ^ 32) ∧ q.RangeOk (-3) 3 ∧ 4 < q.count ∧
      ∀ t ∈ nodeAt q.nodes 4, quicklistNodeAllowInsert (some t.2) q.fill 1 = true := by
  refine ⟨_, _, rfl, ⟨⟨⟨?_, ?_, ⟨?_, ?_, trivial⟩, ?_, ?_⟩, rfl, rfl, rfl⟩, rfl, ?_⟩, ?_,
    ⟨fun _ => .inr (.inl ?_), fun h => absurd h ?_⟩, ?_, ?_⟩
  · rfl
  · rfl
  · rfl
  · rfl
  all_goals decide

theorem quicklistDelRange_removes_last :
    ∃ q rs, (quicklistMachine (fun _ => 0) 4 0).run fiveElements (quicklistNew 4 0) = some (q, rs) ∧
      ∃ q' r ns', quicklistDelRange (fun _ => 0) q (-3) 3 = some (q', r) ∧ q'.Counted ns' ∧
      nodeElements ns' = withoutRange (-3) 3 (nodeElements q.nodes) := by
  obtain ⟨q, rs, hrun, h, hcap, hok, -⟩ := fiveElements_counted
  exact ⟨q, rs, hrun, (quicklistDelRange_removes (fun _ => 0) h (fun a ha => by have := hcap a ha; omega) (-3) 3).2 hok⟩

/-- Three elements from the third on: the last one stays, and it is not counted. Two elements from the
place before the first on: the first one stays. -/
theorem quicklistDelRange_leaves :
    (∃ q rs, (quicklistMachine (fun _ => 0) 4 0).run (fiveElements ++ [.delRange 2 3]) (quicklistNew 4 0) =
      some (q, rs) ∧ q.count = 2 ∧ nodeElements q.nodes = [[97], [98], [101]]) ∧
    ∃ q rs, (quicklistMachine (fun _ => 0) 4 0).run (fiveElements ++ [.delRange (-6) 2]) (quicklistNew 4 0) =
      some (q, rs) ∧ nodeElements q.nodes = [[97], [98], [99], [100], [101]] := by
  refine ⟨⟨_, _, rfl, rfl, ?_⟩, _, _, rfl, ?_⟩
  all_goals decide

end Redis
