import Redis.Lib.Lists
import Redis.Quicklist

/-! # The nodes of a quicklist as a list

`Rep q ns` reads the addressed nodes `ns` off the memory of `q`. Every primitive of `quicklist.c` is
specified by what it does to `ns`: a store changes one node, `__quicklistInsertNode` and
`__quicklistDelNode` add and drop one, and `__quicklistCompress` changes encodings only. -/

namespace Redis
open List Option QuicklistNode

variable {q : Quicklist} {ns : List (Nat × QuicklistNode)} {k : Nat}

def Quicklist.withMem (q : Quicklist) (m : DMem QuicklistNode) : Quicklist := { q with mem := m }

namespace Quicklist
variable (q : Quicklist) (m m' : DMem QuicklistNode)

@[simp] theorem withMem_mem : (q.withMem m).mem = m := rfl

@[simp] theorem withMem_head : (q.withMem m).head = q.head := rfl

@[simp] theorem withMem_tail : (q.withMem m).tail = q.tail := rfl

@[simp] theorem withMem_len : (q.withMem m).len = q.len := rfl

@[simp] theorem withMem_compress : (q.withMem m).compress = q.compress := rfl

@[simp] theorem withMem_withMem : (q.withMem m).withMem m' = q.withMem m' := rfl

end Quicklist

/-- `q` consists of the nodes `ns`, linked in this order. -/
structure Quicklist.Rep (q : Quicklist) (ns : List (Nat × QuicklistNode)) : Prop where
  head : q.head = headPtr ns none
  tail : q.tail = lastPtr none ns
  links : Linked q.mem none ns none
  nodup : (ns.map Prod.fst).Nodup
  fresh : ∀ i ∈ ns.map Prod.fst, i < q.fresh

theorem Quicklist.Rep.congr {q' : Quicklist} (h : q.Rep ns) (hm : q'.mem = q.mem) (hh : q'.head = q.head)
    (ht : q'.tail = q.tail) (hf : q'.fresh = q.fresh) : q'.Rep ns :=
  ⟨hh ▸ h.head, ht ▸ h.tail, hm ▸ h.links, h.nodup, hf ▸ h.fresh⟩

def onNode (f : QuicklistNode → QuicklistNode) (a : Nat × QuicklistNode) : Nat × QuicklistNode := (a.1, f a.2)

def ptrAt (ns : List (Nat × QuicklistNode)) (k : Nat) : Option Nat := (ns[k]?).map Prod.fst

/-- A recoding changes nothing of a node but its encoding; `recompress` may be cleared with it. -/
structure QuicklistNode.Recoded (n n' : QuicklistNode) : Prop where
  zl : n'.zl = n.zl
  sz : n'.sz = n.sz
  count : n'.count = n.count
  flag : n'.recompress = true → n.recompress = true
  lzf : (n.encoding = .lzf → n.recompress = false) → n'.encoding = .lzf → n'.recompress = false

def Recoding (ns ns' : List (Nat × QuicklistNode)) : Prop :=
  List.Forall₂ (fun a b => b.1 = a.1 ∧ a.2.Recoded b.2) ns ns'

variable (lzf : Ziplist → Nat)

namespace QuicklistNode
variable {n n' n'' : QuicklistNode}

theorem Recoded.refl (n : QuicklistNode) : n.Recoded n := ⟨rfl, rfl, rfl, id, id⟩

theorem Recoded.trans (h : n.Recoded n') (h' : n'.Recoded n'') : n.Recoded n'' :=
  ⟨h'.zl.trans h.zl, h'.sz.trans h.sz, h'.count.trans h.count, fun hf => h.flag (h'.flag hf),
    fun hn => h'.lzf (h.lzf hn)⟩

theorem decompressNode_recoded (n : QuicklistNode) : n.Recoded n.decompressNode := by
  unfold decompressNode
  split
  · exact ⟨rfl, rfl, rfl, id, fun _ h => absurd h (by simp)⟩
  · exact .refl n

theorem compressNode_recoded (n : QuicklistNode) : n.Recoded (n.compressNode lzf) := by
  unfold compressNode
  split
  · split
    · exact .refl n
    · split
      · exact .refl n
      · exact ⟨rfl, rfl, rfl, fun h => absurd h (by simp), fun _ _ => rfl⟩
  · exact .refl n

theorem decompressNode_raw (n : QuicklistNode) : n.decompressNode.encoding ≠ .lzf := by
  unfold decompressNode
  split
  · simp
  · assumption

end QuicklistNode

section recoding
variable {ns ns' ns'' : List (Nat × QuicklistNode)}

theorem Recoding.refl (ns : List (Nat × QuicklistNode)) : Recoding ns ns :=
  forall₂_same.2 fun _ _ => ⟨rfl, .refl _⟩

theorem Recoding.trans (h : Recoding ns ns') (h' : Recoding ns' ns'') : Recoding ns ns'' := by
  induction h generalizing ns'' with
  | nil => cases h'; exact .nil
  | cons hab _ ih =>
    cases h' with
    | cons hbc h' => exact .cons ⟨hbc.1.trans hab.1, hab.2.trans hbc.2⟩ (ih h')

theorem Recoding.ids (h : Recoding ns ns') : ns'.map Prod.fst = ns.map Prod.fst := by
  induction h with
  | nil => rfl
  | cons hab _ ih => rw [map_cons, map_cons, hab.1, ih]

theorem Recoding.length_eq (h : Recoding ns ns') : ns'.length = ns.length := (Forall₂.length_eq h).symm

theorem Recoding.modify {f : QuicklistNode → QuicklistNode} (hf : ∀ n : QuicklistNode, n.Recoded (f n)) (k : Nat) :
    Recoding ns (ns.modify k (onNode f)) := by
  induction ns generalizing k with
  | nil => rw [modify_nil]; exact .nil
  | cons a ns ih =>
    cases k with
    | zero => exact .cons ⟨rfl, hf _⟩ (Recoding.refl ns)
    | succ k => exact .cons ⟨rfl, .refl _⟩ (ih k)

theorem Recoding.get (h : Recoding ns ns') {k : Nat} {b : Nat × QuicklistNode} (hb : ns'[k]? = some b) :
    ∃ a, ns[k]? = some a ∧ a.2.Recoded b.2 := by
  induction h generalizing k with
  | nil => cases hb
  | cons hab _ ih =>
    cases k with
    | zero => cases hb; exact ⟨_, rfl, hab.2⟩
    | succ k => exact ih hb

theorem Recoding.split {A B : List (Nat × QuicklistNode)} {a : Nat × QuicklistNode} (h : Recoding (A ++ a :: B) ns') :
    ∃ A' b B', ns' = A' ++ (a.1, b) :: B' ∧ Recoding A A' ∧ a.2.Recoded b ∧ Recoding B B' := by
  induction A generalizing ns' with
  | nil =>
    cases h with
    | @cons _ b _ B' hab hB =>
      obtain ⟨i, b⟩ := b
      obtain ⟨rfl, hab⟩ := hab
      exact ⟨[], b, B', rfl, .nil, hab, hB⟩
  | cons c A ih =>
    cases h with
    | @cons _ d _ _ hcd h =>
      obtain ⟨A', b, B', rfl, hA, hab, hB⟩ := ih h
      exact ⟨d :: A', b, B', rfl, .cons hcd hA, hab, hB⟩

end recoding

/-! ### Reading and storing -/

theorem headPtr_eq_ptrAt (ns : List (Nat × QuicklistNode)) : headPtr ns none = ptrAt ns 0 := by
  cases ns <;> rfl

theorem lastPtr_eq_ptrAt (ns : List (Nat × QuicklistNode)) : lastPtr none ns = ptrAt ns (ns.length - 1) := by
  rcases eq_nil_or_concat' ns with rfl | ⟨L, a, rfl⟩
  · rfl
  · simp [ptrAt]

theorem ptrAt_modify (ns : List (Nat × QuicklistNode)) (k j : Nat) (f : QuicklistNode → QuicklistNode) :
    ptrAt (ns.modify k (onNode f)) j = ptrAt ns j := by
  unfold ptrAt
  rw [getElem?_modify]
  cases ns[j]? with
  | none => rfl
  | some a => by_cases h : k = j <;> simp [h, onNode]

namespace Quicklist.Rep
variable {q : Quicklist} {ns : List (Nat × QuicklistNode)} {i k : Nat} {x : QuicklistNode}

section
variable (h : q.Rep ns)
include h

theorem cell (hk : ns[k]? = some (i, x)) :
    q.mem i = some ⟨if k = 0 then none else ptrAt ns (k - 1), ptrAt ns (k + 1), x⟩ := by
  obtain ⟨A, B, rfl, rfl, -, -⟩ := exists_split_of_getElem? hk
  have hm := (Linked.middle.1 h.links).2.1
  rw [hm, lastPtr_eq_ptrAt, headPtr_eq_ptrAt]
  have h1 : ptrAt A (A.length - 1) = if A.length = 0 then none else ptrAt (A ++ (i, x) :: B) (A.length - 1) := by
    unfold ptrAt
    rcases A with - | ⟨a, A⟩
    · rfl
    · rw [if_neg (by simp), getElem?_append_left (by simp)]
  have h2 : ptrAt B 0 = ptrAt (A ++ (i, x) :: B) (A.length + 1) := by
    unfold ptrAt
    rw [getElem?_append_right (by omega)]
    simp
  rw [h1, h2]

theorem deref_ptrAt (hk : k < ns.length) : ∃ c, q.deref (ptrAt ns k) = some c ∧ c.next = ptrAt ns (k + 1) ∧
      (0 < k → c.prev = ptrAt ns (k - 1)) := by
  have hx : ns[k]? = some ns[k] := getElem?_eq_getElem hk
  unfold ptrAt
  rw [hx]
  exact ⟨_, h.cell hx, rfl, fun h0 => if_neg (by omega)⟩

theorem modify (hk : ns[k]? = some (i, x)) (f : QuicklistNode → QuicklistNode) :
    ∃ m, q.modify (some i) f = some (q.withMem m) ∧ (q.withMem m).Rep (ns.modify k (onNode f)) := by
  obtain ⟨A, B, rfl, rfl, -, hmod⟩ := exists_split_of_getElem? hk
  have hm := (Linked.middle.1 h.links).2.1
  refine ⟨q.mem.set i (some ⟨lastPtr none A, headPtr B none, f x⟩), ?_, ?_⟩
  · unfold Quicklist.modify
    rw [DMem.modify_some _ hm]
    rfl
  · have hids : ((A ++ onNode f (i, x) :: B).map Prod.fst) = (A ++ (i, x) :: B).map Prod.fst := by simp [onNode]
    rw [hmod]
    refine ⟨?_, ?_, h.links.set_data h.nodup, hids ▸ h.nodup, hids ▸ h.fresh⟩
    · exact h.head.trans (headPtr_congr hids.symm)
    · exact h.tail.trans (lastPtr_congr hids.symm)

theorem ptrAt_inj {j : Nat} (hk : k < ns.length) (he : ptrAt ns k = ptrAt ns j) : k = j := by
  have hk' : k < (ns.map Prod.fst).length := by simpa using hk
  exact (getElem?_inj hk' h.nodup).1 (by simpa [ptrAt] using he)

theorem modifyAt (k : Nat) {f : QuicklistNode → QuicklistNode} {g : Option Nat → Option Quicklist}
    (hnone : g none = some q) (hsome : ∀ i, g (some i) = q.modify (some i) f) :
    ∃ m, g (ptrAt ns k) = some (q.withMem m) ∧ (q.withMem m).Rep (ns.modify k (onNode f)) := by
  unfold ptrAt
  cases hk : ns[k]? with
  | none => exact ⟨q.mem, hnone, by rwa [modify_eq_self (getElem?_eq_none_iff.1 hk)]⟩
  | some a =>
    obtain ⟨m, hm, hr⟩ := h.modify hk f
    exact ⟨m, (hsome a.1).trans hm, hr⟩

theorem decompressNode (k : Nat) : ∃ m, quicklistDecompressNode q (ptrAt ns k) = some (q.withMem m) ∧
      (q.withMem m).Rep (ns.modify k (onNode decompressNode)) :=
  h.modifyAt k rfl fun _ => rfl

end

theorem compressNode (lzf : Ziplist → Nat) (h : q.Rep ns) (k : Nat) :
    ∃ m, quicklistCompressNode lzf q (ptrAt ns k) = some (q.withMem m) ∧
      (q.withMem m).Rep (ns.modify k (onNode (compressNode lzf))) :=
  h.modifyAt k rfl fun _ => rfl

end Quicklist.Rep

/-! ### The compression depth -/

/-- The nodes less than `k` away from an end are not compressed. -/
def RawOutside (k : Nat) (ns : List (Nat × QuicklistNode)) : Prop :=
  ∀ j a, (j < k ∨ ns.length ≤ j + k) → ns[j]? = some a → a.2.encoding ≠ .lzf

/-- `node` is not less than `k` away from an end. -/
def AwayFromEnds (k : Nat) (ns : List (Nat × QuicklistNode)) (node : Option Nat) : Prop :=
  ∀ j, j < ns.length → (j < k ∨ ns.length ≤ j + k) → ptrAt ns j ≠ node

theorem getElem?_modify_decompress {j : Nat} {b : Nat × QuicklistNode}
    (h : (ns.modify k (onNode decompressNode))[j]? = some b) (hb : b.2.encoding = .lzf) : j ≠ k ∧ ns[j]? = some b := by
  rw [getElem?_modify] at h
  rcases ha : ns[j]? with - | a
  · rw [ha] at h; cases h
  rw [ha] at h
  by_cases hjk : k = j
  · simp only [hjk, if_true, Option.map_eq_map, map_some, Option.some.injEq] at h
    subst h
    exact absurd hb a.2.decompressNode_raw
  · simp only [hjk, if_false, Option.map_eq_map, map_some, Option.some.injEq] at h
    exact ⟨fun he => hjk he.symm, congrArg some h⟩

theorem RawOutside.decompress (h : RawOutside k ns) :
    RawOutside (k + 1) ((ns.modify k (onNode decompressNode)).modify (ns.length - 1 - k) (onNode decompressNode)) := by
  intro j b hj hb he
  obtain ⟨h1, hb⟩ := getElem?_modify_decompress hb he
  obtain ⟨h2, hb⟩ := getElem?_modify_decompress hb he
  simp only [length_modify] at hj
  exact h j b (by omega) hb he

/-- How the loop of `__quicklistCompress` ends. -/
def CompressLoopEnd (node : Option Nat) (c : Nat) (ns : List (Nat × QuicklistNode)) :
    Option (Option Nat × Option Nat × Bool) → Prop
  | none => ns.length < 2 * c ∧ ∀ a ∈ ns, a.2.encoding ≠ .lzf
  | some (forward, reverse, inDepth) =>
    2 * c ≤ ns.length ∧ forward = ptrAt ns c ∧ reverse = ptrAt ns (ns.length - 1 - c) ∧ RawOutside c ns ∧
      (inDepth = false → AwayFromEnds c ns node)

theorem quicklistCompressLoop_spec (node : Option Nat) (c : Nat) :
    ∀ (d k : Nat) (q : Quicklist) (ns : List (Nat × QuicklistNode)) (inDepth : Bool), q.Rep ns →
      k + d = c → 2 * c ≤ ns.length + 1 → 2 * k ≤ ns.length → RawOutside k ns →
      (inDepth = false → AwayFromEnds k ns node) → ∃ m ns' res,
        quicklistCompressLoop node d q (ptrAt ns k) (ptrAt ns (ns.length - 1 - k)) inDepth = some (q.withMem m, res) ∧
        (q.withMem m).Rep ns' ∧ Recoding ns ns' ∧ CompressLoopEnd node c ns' res := by
  intro d
  induction d with
  | zero =>
    intro k q ns inDepth h hk hc hl hraw haway
    obtain rfl : k = c := hk
    exact ⟨q.mem, ns, _, rfl, h, .refl ns, hl, rfl, rfl, hraw, haway⟩
  | succ d ih =>
    intro k q ns inDepth h hk hc hl hraw haway
    unfold quicklistCompressLoop
    obtain ⟨m₁, hm₁, h₁⟩ := h.decompressNode k
    obtain ⟨m₂, hm₂, h₂⟩ := h₁.decompressNode (ns.length - 1 - k)
    rw [ptrAt_modify] at hm₂
    have hrec : Recoding ns ((ns.modify k (onNode decompressNode)).modify (ns.length - 1 - k)
        (onNode decompressNode)) :=
      (Recoding.modify decompressNode_recoded k).trans
        (Recoding.modify decompressNode_recoded (ns.length - 1 - k))
    have hlen := hrec.length_eq
    have hptr : ∀ j, ptrAt ((ns.modify k (onNode decompressNode)).modify (ns.length - 1 - k)
        (onNode decompressNode)) j = ptrAt ns j := fun j => by rw [ptrAt_modify, ptrAt_modify]
    have hraw' := hraw.decompress
    generalize (ns.modify k (onNode decompressNode)).modify (ns.length - 1 - k)
      (onNode decompressNode) = ns' at h₂ hrec hlen hptr hraw'
    simp only [hm₁, hm₂, some_bind]
    split
    · -- the pointers meet in the middle of a list of `2 * c - 1` nodes
      rename_i heq
      have := h.ptrAt_inj (by omega) heq
      refine ⟨m₂, ns', none, rfl, h₂, hrec, by omega, fun a ha => ?_⟩
      obtain ⟨j, hj⟩ := mem_iff_getElem?.1 ha
      exact hraw' j a (by omega) hj
    next hne =>
      have hne' : k ≠ ns.length - 1 - k := fun he => hne (congrArg (ptrAt ns) he)
      obtain ⟨cf, hcf, hnext, -⟩ := h₂.deref_ptrAt (k := k) (by omega)
      obtain ⟨cr, hcr, -, hprev⟩ := h₂.deref_ptrAt (k := ns.length - 1 - k) (by omega)
      rw [hptr] at hcf hcr
      have hprev : cr.prev = ptrAt ns' (ns'.length - 1 - (k + 1)) := by
        rw [hprev (by omega), hlen]; congr 1
      obtain ⟨m, ns'', res, hl', hr', hrec', hend⟩ :=
        ih (k + 1) _ ns' (inDepth || decide (ptrAt ns k = node) || decide (ptrAt ns (ns.length - 1 - k) = node))
          h₂ (by omega) (by omega) (by omega) hraw' (by
            intro hd j hj hjk
            simp only [Bool.or_eq_false_iff, decide_eq_false_iff_not] at hd
            rw [hptr]
            rw [hlen] at hj hjk
            rcases lt_or_ge j k with hlt | hge
            · exact haway hd.1.1 j hj (.inl hlt)
            rcases Nat.eq_or_lt_of_le hge with rfl | hgt
            · exact hd.1.2
            rcases lt_or_ge j (ns.length - k) with hlt | hge'
            · obtain rfl : j = ns.length - 1 - k := by omega
              exact hd.2
            · exact haway hd.1.1 j hj (.inr (by omega)))
      refine ⟨m, ns'', res, ?_, hr', hrec.trans hrec', hend⟩
      rw [hcf, some_bind, hcr, some_bind, hnext, hprev]
      exact hl'

theorem RawOutside.mono {l : Nat} (h : RawOutside l ns) (hk : k ≤ l) :
    RawOutside k ns := fun j a hj ha => h j a (by omega) ha

theorem RawOutside.modify {r : Nat} (h : RawOutside r ns) (f : QuicklistNode → QuicklistNode)
    (hk : k < ns.length → r ≤ k ∧ k + r < ns.length) : RawOutside r (ns.modify k (onNode f)) := by
  intro j b hj hb
  rw [length_modify] at hj
  rw [getElem?_modify] at hb
  rcases ha : ns[j]? with - | a
  · rw [ha] at hb; cases hb
  have hlt := (List.getElem?_eq_some_iff.1 ha).1
  have hjk : k ≠ j := by rintro rfl; have := hk hlt; omega
  rw [ha] at hb
  simp only [hjk, if_false, Option.map_eq_map, map_some, Option.some.injEq] at hb
  exact hb ▸ h j a hj ha

/-- What `__quicklistCompress` does to the nodes of a list whose field `len` holds `len`: if it does
anything, the ends of the list are not compressed afterwards, nor is any node of a list that is
shorter than twice the depth. The nodes within the depth are not compressed either, unless there are
exactly twice as many: then the two pointers have passed each other. -/
def DepthStep (c len : Nat) (ns ns' : List (Nat × QuicklistNode)) : Prop :=
  ns' = ns ∧ (c = 0 ∨ len < c * 2) ∨
    RawOutside 1 ns' ∧ 0 < c ∧ c * 2 ≤ len ∧ (ns.length < c * 2 → ∀ a ∈ ns', a.2.encoding ≠ .lzf) ∧
      (ns.length ≠ c * 2 ∨ c < 2 → RawOutside c ns')

theorem quicklistCompressDepth_spec (h : q.Rep ns) (k : Nat) (hlen : q.len ≤ ns.length + 1) :
    ∃ m ns', quicklistCompressDepth lzf q (ptrAt ns k) = some (q.withMem m) ∧ (q.withMem m).Rep ns' ∧
      Recoding ns ns' ∧ DepthStep q.compress q.len ns ns' := by
  unfold quicklistCompressDepth
  split
  next hoff => exact ⟨q.mem, ns, rfl, h, .refl ns, .inl ⟨rfl, hoff⟩⟩
  next hon =>
    obtain ⟨m, ns', res, hloop, hr, hrec, hend⟩ := quicklistCompressLoop_spec (ptrAt ns k) q.compress q.compress 0
      q ns false h (by omega) (by omega) (by omega) (fun j a hj ha => by
        have := (List.getElem?_eq_some_iff.1 ha).1; omega) fun _ j hj hj' => by omega
    have hlen' := hrec.length_eq
    have hids : ∀ j, ptrAt ns' j = ptrAt ns j := fun j => by
      unfold ptrAt
      rw [← getElem?_map, ← getElem?_map, hrec.ids]
    rw [h.head, h.tail, headPtr_eq_ptrAt, lastPtr_eq_ptrAt]
    rw [Nat.sub_zero] at hloop
    simp only [hloop, some_bind]
    rcases res with - | ⟨forward, reverse, inDepth⟩
    · have hall : ∀ k, RawOutside k ns' := fun k j a _ ha => hend.2 a (mem_of_getElem? ha)
      exact ⟨m, ns', rfl, hr, hrec, .inr ⟨hall 1, by omega, by omega, fun _ => hend.2, fun _ => hall _⟩⟩
    obtain ⟨hl2, rfl, rfl, hraw, haway⟩ := hend
    -- the node itself is compressed unless the loop met it
    obtain ⟨m₁, ns₁, hm₁, hr₁, hrec₁, hraw₁⟩ : ∃ m₁ ns₁,
        (if inDepth = true then some (q.withMem m) else quicklistCompressNode lzf (q.withMem m) (ptrAt ns k)) =
          some (q.withMem m₁) ∧ (q.withMem m₁).Rep ns₁ ∧ Recoding ns' ns₁ ∧ RawOutside q.compress ns₁ := by
      cases inDepth with
      | true => exact ⟨m, ns', rfl, hr, .refl ns', hraw⟩
      | false =>
        obtain ⟨m₁, hm₁, hr₁⟩ := hr.compressNode lzf k
        rw [hids] at hm₁
        refine ⟨m₁, _, hm₁, hr₁, Recoding.modify (compressNode_recoded lzf) k, ?_⟩
        refine hraw.modify _ fun hk => ?_
        have hin : ¬ (k < q.compress ∨ ns'.length ≤ k + q.compress) := fun hc => haway rfl k hk hc (hids k)
        omega
    have hlen₁ := hrec₁.length_eq
    have hids₁ : ∀ j, ptrAt ns₁ j = ptrAt ns' j := fun j => by
      unfold ptrAt
      rw [← getElem?_map, ← getElem?_map, hrec₁.ids]
    simp only [hm₁, some_bind, Quicklist.withMem_compress]
    by_cases h2 : 2 ≤ q.compress
    · simp only [h2, if_true]
      obtain ⟨m₂, hm₂, hr₂⟩ := hr₁.compressNode lzf q.compress
      obtain ⟨m₃, hm₃, hr₃⟩ := hr₂.compressNode lzf (ns'.length - 1 - q.compress)
      rw [ptrAt_modify, hids₁] at hm₃
      rw [hids₁] at hm₂
      rw [hm₂]
      refine ⟨m₃, _, hm₃, hr₃, (hrec.trans hrec₁).trans ((Recoding.modify
        (compressNode_recoded lzf) _).trans (Recoding.modify
        (compressNode_recoded lzf) _)), .inr ⟨?_, by omega, by omega, fun hl => by omega, fun hl => ?_⟩⟩
      · refine RawOutside.modify ((hraw₁.mono (by omega)).modify _ fun _ => by omega) _ fun _ => ?_
        rw [length_modify]
        omega
      · refine RawOutside.modify (hraw₁.modify _ fun _ => by omega) _ fun _ => ?_
        rw [length_modify]
        omega
    · simp only [h2, if_false]
      exact ⟨m₁, ns₁, rfl, hr₁, hrec.trans hrec₁, .inr ⟨hraw₁.mono (by omega), by omega, by omega, fun hl => by omega,
        fun _ => hraw₁⟩⟩

/-- What `quicklistCompress` does on the node at position `k`. -/
def CompressStep (c len k : Nat) (ns ns' : List (Nat × QuicklistNode)) : Prop :=
  ∃ a, ns[k]? = some a ∧
    (a.2.recompress = true ∧ ns' = ns.modify k (onNode (QuicklistNode.compressNode lzf)) ∨
      a.2.recompress = false ∧ DepthStep c len ns ns')

theorem quicklistCompress_spec {a : Nat × QuicklistNode} (h : q.Rep ns) (hk : ns[k]? = some a)
    (hlen : q.len ≤ ns.length + 1) :
    ∃ m ns', quicklistCompress lzf q (some a.1) = some (q.withMem m) ∧ (q.withMem m).Rep ns' ∧
      Recoding ns ns' ∧ CompressStep lzf q.compress q.len k ns ns' := by
  have hp : ptrAt ns k = some a.1 := by unfold ptrAt; rw [hk]; rfl
  have hc : q.deref (some a.1) = _ := h.cell hk
  unfold quicklistCompress
  rw [hc]
  simp only [some_bind]
  cases hflag : a.2.recompress with
  | true =>
    obtain ⟨m, hm, hr⟩ := h.compressNode lzf k
    rw [hp] at hm
    exact ⟨m, _, hm, hr, Recoding.modify (compressNode_recoded lzf) k, a, hk, .inl ⟨hflag, rfl⟩⟩
  | false =>
    obtain ⟨m, ns', hm, hr, hrec, hstep⟩ := quicklistCompressDepth_spec lzf h k hlen
    rw [hp] at hm
    exact ⟨m, ns', hm, hr, hrec, a, hk, .inr ⟨hflag, hstep⟩⟩

/-! ### New and deleted nodes -/

section nodes
variable {q : Quicklist} {A B : List (Nat × QuicklistNode)} {i : Nat} {x y : QuicklistNode}

theorem Quicklist.Rep.fresh_notMem {ns : List (Nat × QuicklistNode)} (h : q.Rep ns) :
    q.fresh ∉ ns.map Prod.fst := fun hm => lt_irrefl _ (h.fresh _ hm)

/-- The nodes with `b` put after or before `a`. -/
def nodesInserted (A : List (Nat × QuicklistNode)) (a b : Nat × QuicklistNode) (B : List (Nat × QuicklistNode)) :
    Bool → List (Nat × QuicklistNode)
  | true => A ++ a :: b :: B
  | false => A ++ b :: a :: B

def oldPos (A : List (Nat × QuicklistNode)) (after : Bool) : Nat := A.length + if after then 0 else 1

section
variable (A : List (Nat × QuicklistNode)) (a b : Nat × QuicklistNode) (B : List (Nat × QuicklistNode)) (after : Bool)

theorem getElem?_oldPos : (nodesInserted A a b B after)[oldPos A after]? = some a := by
  cases after <;> simp [nodesInserted, oldPos]

theorem nodesInserted_perm : (nodesInserted A a b B after).Perm (b :: (A ++ a :: B)) := by
  cases after
  · exact perm_middle
  · exact (Perm.append_left A (Perm.swap b a B)).trans perm_middle

end

theorem Quicklist.Rep.link (h : q.Rep (A ++ (i, x) :: B)) (y : QuicklistNode) (after : Bool) :
    ∃ m, (if after then (q.mem.set q.fresh (some ⟨none, none, y⟩)).linkAfter (some i) q.fresh
          else (q.mem.set q.fresh (some ⟨none, none, y⟩)).linkBefore (some i) q.fresh) = some m ∧
      Quicklist.Rep { q with
        mem := m
        fresh := q.fresh + 1
        tail := if after && decide (q.tail = some i) then some q.fresh else q.tail
        head := if !after && decide (q.head = some i) then some q.fresh else q.head }
        (nodesInserted A (i, x) (q.fresh, y) B after) := by
  have hnew := h.fresh_notMem
  have hlinks := h.links.set_frame (c := some ⟨none, none, y⟩) hnew
  have hids := (nodesInserted_perm A (i, x) (q.fresh, y) B after).map Prod.fst
  have hnodup : ((nodesInserted A (i, x) (q.fresh, y) B after).map Prod.fst).Nodup :=
    hids.nodup_iff.2 (nodup_cons.2 ⟨hnew, h.nodup⟩)
  have hfresh : ∀ a ∈ (nodesInserted A (i, x) (q.fresh, y) B after).map Prod.fst, a < q.fresh + 1 := by
    intro a ha
    rcases mem_cons.1 (hids.mem_iff.1 ha) with rfl | ha
    · exact Nat.lt_succ_self _
    · exact Nat.lt_succ_of_lt (h.fresh a ha)
  have hd := h.nodup
  simp only [map_append, map_cons, nodup_append, nodup_cons, mem_cons] at hd
  have htail := h.tail
  have hhead := h.head
  cases after with
  | true =>
    obtain ⟨m, hm, hl⟩ := hlinks.linkAfter h.nodup (DMem.set_same ..) hnew
    refine ⟨m, hm, ?_, ?_, hl, hnodup, hfresh⟩
    · simpa [nodesInserted] using hhead
    by_cases hB : B = []
    · subst hB
      simp [nodesInserted, htail]
    · obtain ⟨b, hb, hlast⟩ := exists_lastPtr hB
      have hbi : b ≠ i := fun he => hd.2.1.1 (he ▸ hb)
      simp [nodesInserted, htail, hlast, hbi]
  | false =>
    obtain ⟨m, hm, hl⟩ := hlinks.linkBefore h.nodup (DMem.set_same ..) hnew
    refine ⟨m, hm, ?_, ?_, hl, hnodup, hfresh⟩
    · by_cases hA : A = []
      · subst hA
        simp [nodesInserted, hhead]
      · obtain ⟨a, ha, hfirst⟩ := exists_headPtr hA
        have hai : a ≠ i := hd.2.2 a ha i (.inl rfl)
        simp [nodesInserted, hhead, hfirst, hai]
    · simpa [nodesInserted] using htail

theorem quicklistInsertNode_spec (h : q.Rep (A ++ (i, x) :: B))
    (hlen : q.len = (A ++ (i, x) :: B).length) (y : QuicklistNode) (after : Bool) : ∃ m hd tl ns',
      quicklistInsertNode lzf q (some i) y after =
        some ⟨m, q.fresh + 1, hd, tl, q.count, q.len + 1, q.fill, q.compress⟩ ∧
      Quicklist.Rep ⟨m, q.fresh + 1, hd, tl, q.count, q.len + 1, q.fill, q.compress⟩ ns' ∧
      Recoding (nodesInserted A (i, x) (q.fresh, y) B after) ns' ∧
      CompressStep lzf q.compress q.len (oldPos A after) (nodesInserted A (i, x) (q.fresh, y) B after) ns' := by
  obtain ⟨m, hm, hr⟩ := h.link y after
  have hlen' := (nodesInserted_perm A (i, x) (q.fresh, y) B after).length_eq
  have h0 : q.len ≠ 0 := by rw [hlen]; simp
  obtain ⟨m', ns', hc, hr', hrec, hstep⟩ := quicklistCompress_spec lzf hr
    (getElem?_oldPos A (i, x) (q.fresh, y) B after) (by simp only [hlen', hlen, length_cons]; omega)
  refine ⟨m', _, _, ns', ?_, hr'.congr rfl rfl rfl rfl, hrec, hstep⟩
  unfold quicklistInsertNode
  simp only [hm, some_bind, h0, if_false, hc, reduceCtorEq]
  rfl

theorem quicklistInsertNode_nil (hlen : q.len = 0) (y : QuicklistNode) (after : Bool) :
    ∃ m, quicklistInsertNode lzf q none y after =
        some ⟨m, q.fresh + 1, some q.fresh, some q.fresh, q.count, q.len + 1, q.fill, q.compress⟩ ∧
      Quicklist.Rep ⟨m, q.fresh + 1, some q.fresh, some q.fresh, q.count, q.len + 1, q.fill, q.compress⟩
        [(q.fresh, y)] := by
  have hcell := DMem.set_same q.mem q.fresh (some ⟨none, none, y⟩)
  have hlink : (if after = true then (q.mem.set q.fresh (some ⟨none, none, y⟩)).linkAfter none q.fresh
      else (q.mem.set q.fresh (some ⟨none, none, y⟩)).linkBefore none q.fresh) =
        some ((q.mem.set q.fresh (some ⟨none, none, y⟩)).set q.fresh (some ⟨none, none, y⟩)) := by
    cases after
    · rw [DMem.linkBefore, DMem.setNext, DMem.modify_some _ hcell]; rfl
    · rw [DMem.linkAfter, DMem.setPrev, DMem.modify_some _ hcell]; rfl
  refine ⟨(q.mem.set q.fresh (some ⟨none, none, y⟩)).set q.fresh (some ⟨none, none, y⟩), ?_, rfl, rfl,
    ⟨DMem.set_same .., trivial⟩, by simp, by simp⟩
  unfold quicklistInsertNode
  simp [hlink, hlen]

theorem quicklistDelNode_spec (h : q.Rep (A ++ (i, x) :: B)) (hlen : q.len = (A ++ (i, x) :: B).length) : ∃ m hd tl ns',
      quicklistDelNode lzf q i = some ⟨m, q.fresh, hd, tl, ulongSub q.count x.count, q.len - 1, q.fill, q.compress⟩ ∧
      Quicklist.Rep ⟨m, q.fresh, hd, tl, ulongSub q.count x.count, q.len - 1, q.fill, q.compress⟩ ns' ∧
      Recoding (A ++ B) ns' ∧ DepthStep q.compress q.len (A ++ B) ns' := by
  obtain ⟨m, hm, hl⟩ := h.links.unlink h.nodup
  have hi := (Linked.middle.1 h.links).2.1
  have hd := h.nodup
  simp only [map_append, map_cons, nodup_append, nodup_cons, mem_cons] at hd
  obtain ⟨hdA, ⟨hiB, hdB⟩, hAB⟩ := hd
  have hiA : i ∉ A.map Prod.fst := fun ha => hAB i ha i (.inl rfl) rfl
  have htail := h.tail
  have hhead := h.head
  have hr : Quicklist.Rep { q with
      mem := m
      tail := if q.tail = some i then lastPtr none A else q.tail
      head := if q.head = some i then headPtr B none else q.head } (A ++ B) := by
    refine ⟨?_, ?_, hl, ?_, fun a ha => h.fresh a ?_⟩
    · by_cases hA : A = []
      · subst hA; simp [hhead]
      · obtain ⟨a, ha, hfirst⟩ := exists_headPtr hA
        have hai : a ≠ i := hAB a ha i (.inl rfl)
        simp [hhead, hfirst, hai]
    · by_cases hB : B = []
      · subst hB; simp [htail]
      · obtain ⟨b, hb, hlast⟩ := exists_lastPtr hB
        have hbi : b ≠ i := fun he => hiB (he ▸ hb)
        simp [htail, hlast, hbi]
    · simp only [map_append, nodup_append]
      exact ⟨hdA, hdB, fun a ha b hb => hAB a ha b (.inr hb)⟩
    · simp only [map_append, map_cons, mem_append, mem_cons] at ha ⊢
      rcases ha with ha | ha
      · exact .inl ha
      · exact .inr (.inr ha)
  have hlen' : q.len ≤ (A ++ B).length + 1 := by rw [hlen]; simp; omega
  obtain ⟨m', ns', hc, hr', hrec, hstep⟩ := quicklistCompressDepth_spec lzf hr (A ++ B).length hlen'
  have hnone : ptrAt (A ++ B) (A ++ B).length = none := by unfold ptrAt; simp
  rw [hnone] at hc
  refine ⟨m'.set i none, _, _, ns', ?_, ⟨hr'.head, hr'.tail, hr'.links.set_frame ?_, hr'.nodup, hr'.fresh⟩, hrec,
    hstep⟩
  · unfold quicklistDelNode
    simp only [hi, hm, some_bind, hc]
    rfl
  · rw [hrec.ids]
    simp only [map_append, mem_append, not_or]
    exact ⟨hiA, hiB⟩

end nodes

end Redis
