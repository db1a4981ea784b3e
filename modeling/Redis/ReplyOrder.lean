import Redis.ClientReply

/-! # Replies leave in the order they were given

The abstract state is the reply as it was given, in which a place kept for a header is a hole with the
address of its node, and the bytes that went to the socket. -/

namespace Redis
open List Option

inductive ReplyItem
  | byte (b : UInt8)
  | hole (node : Nat)
  deriving DecidableEq

namespace ReplyItem

/-- The reply with the header in the place that was kept for it. -/
def fill (node : Nat) (header : List UInt8) : List ReplyItem → List ReplyItem
  | [] => []
  | .byte b :: l => .byte b :: fill node header l
  | .hole n :: l => (if n = node then header.map .byte else [.hole n]) ++ fill node header l

variable {node : Nat} {header : List UInt8}

theorem fill_append (l l' : List ReplyItem) :
    fill node header (l ++ l') = fill node header l ++ fill node header l' := by
  induction l with
  | nil => rfl
  | cons x l ih => cases x <;> simp [fill, ih]

@[simp] theorem fill_bytes (d : List UInt8) : fill node header (d.map .byte) = d.map .byte := by
  induction d with
  | nil => rfl
  | cons b d ih => simp [fill, ih]

theorem fill_of_not_mem {l : List ReplyItem} (h : .hole node ∉ l) : fill node header l = l := by
  induction l with
  | nil => rfl
  | cons x l ih =>
    obtain ⟨hx, hl⟩ := not_or.1 (mt mem_cons.2 h)
    cases x with
    | byte b => simp [fill, ih hl]
    | hole n => simp [fill, ih hl, show n ≠ node from fun he => hx (by rw [he])]

end ReplyItem

open ReplyItem

/-- The reply given to a client and the bytes it got. -/
structure ReplyLog where
  given : List ReplyItem
  sent : List UInt8

/-- What a call does to the reply. A write only moves bytes to the socket. -/
def replySpec : Spec ReplyOp ReplyLog ReplyResult
  | .add s _, a, r, b => r = .done ∧ b = { a with given := a.given ++ s.map .byte }
  | .defer, a, r, b => ∃ n, r = .node n ∧ .hole n ∉ a.given ∧ b = { a with given := a.given ++ [.hole n] }
  | .setDeferred node length _, a, r, b =>
    r = .done ∧ b = { a with given := fill node (multiBulkHeader length) a.given }
  | .write _, a, r, b => ∃ d, r = .sent d ∧ b = { a with sent := a.sent ++ d }

/-- What the server takes care of: a length is set once, and before the next write. -/
def ReplyOp.Allowed : ReplyOp → ReplyClient → Prop
  | .setDeferred node _ _, c => ∃ x ∈ c.reply, x.1 = node ∧ x.2.isNone
  | .write _, c => ∀ x ∈ c.reply, x.2.isSome
  | _, _ => True

instance (op : ReplyOp) (c : ReplyClient) : Decidable (op.Allowed c) :=
  match op with
  | .setDeferred node _ _ => inferInstanceAs (Decidable (∃ x ∈ c.reply, x.1 = node ∧ x.2.isNone))
  | .write _ => inferInstanceAs (Decidable (∀ x ∈ c.reply, x.2.isSome))
  | .add _ _ => inferInstanceAs (Decidable True)
  | .defer => inferInstanceAs (Decidable True)

/-! ### What a client has buffered -/

namespace ReplyNode

def items : ReplyNode → List ReplyItem
  | (i, none) => [.hole i]
  | (_, some b) => b.data.map .byte

def size (x : ReplyNode) : Nat := (x.2.map ReplyBlock.size).getD 0

def used (x : ReplyNode) : Nat := (x.2.map fun b => b.data.length).getD 0

end ReplyNode

def blockSizes (l : List ReplyNode) : Nat := (l.map ReplyNode.size).sum

def firstUsed (l : List ReplyNode) : Nat := (l.head?.map ReplyNode.used).getD 0

namespace ReplyClient

variable (c : ReplyClient)

def contents : List ReplyItem := c.buf.map .byte ++ c.reply.flatMap ReplyNode.items

def pending : List ReplyItem := c.contents.drop c.sentlen

def front : Nat := if c.buf = [] then firstUsed c.reply else c.buf.length

structure WF (c : ReplyClient) : Prop where
  sent : c.sentlen = 0 ∨ c.sentlen < c.front
  blocks : ∀ x ∈ c.reply, ∀ b ∈ x.2, b.data ≠ []
  bytes : c.replyBytes = blockSizes c.reply
  nodup : (c.reply.map Prod.fst).Nodup
  fresh : ∀ x ∈ c.reply, x.1 < c.fresh

end ReplyClient

theorem firstUsed_append (l l' : List ReplyNode) : firstUsed l ≤ firstUsed (l ++ l') := by
  cases l with
  | nil => exact Nat.zero_le _
  | cons x l => exact le_rfl

theorem ReplyNode.items_take (x : ReplyNode) : ∃ d : List UInt8, d.length = x.used ∧ d.map .byte <+: x.items := by
  obtain ⟨i, b⟩ := x
  cases b with
  | none => exact ⟨[], rfl, nil_prefix⟩
  | some b => exact ⟨b.data, rfl, prefix_rfl⟩

namespace ReplyClient
variable {c : ReplyClient}
variable {c' : ReplyClient} {l : List ReplyItem}

theorem front_bytes : ∃ d : List UInt8, d.length = c.front ∧ d.map .byte <+: c.contents := by
  unfold front contents
  split
  next h =>
    rw [h]
    rcases c.reply with _ | ⟨x, l⟩
    · exact ⟨[], rfl, nil_prefix⟩
    · obtain ⟨d, hd, hp⟩ := x.items_take
      exact ⟨d, hd, hp.trans (prefix_append _ _)⟩
  · exact ⟨c.buf, rfl, prefix_append _ _⟩

theorem WF.sent_le (h : c.WF) : c.sentlen ≤ c.front := h.sent.elim (fun h => h ▸ Nat.zero_le _) Nat.le_of_lt

theorem WF.contents_eq (h : c.WF) : ∃ d : List UInt8, d.length = c.sentlen ∧ c.contents = d.map .byte ++ c.pending := by
  obtain ⟨d, hd, t, ht⟩ := c.front_bytes
  have hle : c.sentlen ≤ d.length := hd ▸ h.sent_le
  refine ⟨d.take c.sentlen, by rw [length_take]; omega, ?_⟩
  rw [map_take]
  have htake : c.contents.take c.sentlen = (d.map byte).take c.sentlen := by
    rw [← ht, take_append_of_le_length (by simpa using hle)]
  rw [← htake]
  exact (take_append_drop _ _).symm

theorem WF.pending_eq {d : List UInt8} (hs : c'.sentlen = c.sentlen) (hd : d.length = c.sentlen)
    (hc : c'.contents = d.map .byte ++ l) : c'.pending = l := by
  rw [pending, hc, hs, ← hd]
  simp

/-! ### Appending -/

/-- What a call does to a client that it gives the items `l` to append. -/
structure Appends (c c' : ReplyClient) (l : List ReplyItem) : Prop where
  wf : c'.WF
  sentlen : c'.sentlen = c.sentlen
  contents : c'.contents = c.contents ++ l

theorem Appends.pending (ha : c.Appends c' l) (h : c.WF) : c'.pending = c.pending ++ l := by
  obtain ⟨d, hd, hc⟩ := h.contents_eq
  refine WF.pending_eq ha.sentlen hd ?_
  rw [ha.contents, hc, append_assoc]

theorem Appends.trans {c₁ c₂ : ReplyClient} {l' : List ReplyItem} (h : c.Appends c₁ l) (h' : c₁.Appends c₂ l') :
    c.Appends c₂ (l ++ l') :=
  ⟨h'.wf, h'.sentlen.trans h.sentlen, by rw [h'.contents, h.contents, append_assoc]⟩

theorem WF.addNode (h : c.WF) {b : Option ReplyBlock} (hb : ∀ x ∈ b, x.data ≠ []) :
    c.Appends { c.addNode b with replyBytes := c.replyBytes + ReplyNode.size (c.fresh, b) }
      (ReplyNode.items (c.fresh, b)) := by
  refine ⟨⟨?_, ?_, ?_, ?_, ?_⟩, rfl, ?_⟩
  · refine h.sent.imp_right fun hs => lt_of_lt_of_le hs ?_
    unfold front ReplyClient.addNode
    split
    · exact firstUsed_append _ _
    · exact le_rfl
  · intro x hx
    rcases mem_append.1 hx with hx | hx
    · exact h.blocks x hx
    · rw [mem_singleton.1 hx]
      exact hb
  · show c.replyBytes + _ = blockSizes (c.reply ++ _)
    rw [h.bytes]
    simp [blockSizes]
  · show ((c.reply ++ _).map Prod.fst).Nodup
    rw [map_append, nodup_append]
    refine ⟨h.nodup, by simp, fun i hi j hj => ?_⟩
    obtain ⟨x, hx, rfl⟩ := mem_map.1 hi
    rw [mem_singleton.1 hj]
    exact (h.fresh x hx).ne
  · intro x hx
    rcases mem_append.1 hx with hx | hx
    · exact Nat.lt_succ_of_lt (h.fresh x hx)
    · rw [mem_singleton.1 hx]
      exact Nat.lt_succ_self _
  · simp [ReplyClient.contents, ReplyClient.addNode]

theorem WF.setLast {l : List ReplyNode} {i : Nat} {b b' : ReplyBlock} {d : List UInt8} (h : c.WF)
    (hl : c.reply = l ++ [(i, some b)]) (hs : b'.size = b.size) (hd : b'.data = b.data ++ d) :
    c.Appends { c with reply := l ++ [(i, some b')] } (d.map .byte) := by
  have hne : b.data ≠ [] := h.blocks (i, some b) (by rw [hl]; simp) b rfl
  refine ⟨⟨?_, ?_, ?_, ?_, ?_⟩, rfl, ?_⟩
  · refine h.sent.imp_right fun hlt => lt_of_lt_of_le hlt ?_
    unfold front
    split
    · rw [hl]
      rcases l with _ | ⟨x, l⟩
      · simp [firstUsed, ReplyNode.used, hd]
      · exact le_rfl
    · exact le_rfl
  · intro x hx
    rcases mem_append.1 hx with hx | hx
    · exact h.blocks x (by rw [hl]; exact mem_append_left _ hx)
    rw [mem_singleton.1 hx]
    rintro _ ⟨⟩
    rw [hd]
    exact append_ne_nil_of_left_ne_nil hne _
  · rw [h.bytes, hl]
    simp [blockSizes, ReplyNode.size, hs]
  · have := h.nodup
    rw [hl] at this
    simpa using this
  · intro x hx
    rcases mem_append.1 hx with hx | hx
    · exact h.fresh x (by rw [hl]; exact mem_append_left _ hx)
    · rw [mem_singleton.1 hx]
      exact h.fresh (i, some b) (by rw [hl]; simp)
  · simp [ReplyClient.contents, hl, ReplyNode.items, hd]

theorem WF.refl_appends (h : c.WF) : c.Appends c [] := ⟨h, rfl, (append_nil _).symm⟩

theorem fillTail_spec (h : c.WF) (s : List UInt8) :
    ∃ d, d ++ (fillTail c s).2 = s ∧ c.Appends (fillTail c s).1 (d.map .byte) := by
  unfold fillTail
  split
  next i tail hlast =>
    obtain ⟨l, hl⟩ := getLast?_eq_some_iff.1 hlast
    refine ⟨s.take (tail.copy s.length), take_append_drop _ _, ?_⟩
    rw [hl, dropLast_concat]
    exact h.setLast hl rfl rfl
  · exact ⟨[], rfl, h.refl_appends⟩

theorem addTail_spec (h : c.WF) {s : List UInt8} (hs : s ≠ []) (slack : Nat) :
    c.Appends (addTail c s slack) (s.map .byte) :=
  h.addNode fun _ hx => mem_some.1 hx ▸ hs

theorem addReplyStringToList_spec (h : c.WF) (s : List UInt8) (slack : Nat) :
    c.Appends (addReplyStringToList c s slack) (s.map .byte) := by
  obtain ⟨d, hd, ha⟩ := fillTail_spec h s
  unfold addReplyStringToList
  dsimp only
  split
  next hz =>
    have hnil : (fillTail c s).2 = [] := length_eq_zero_iff.1 hz
    rw [hnil, append_nil] at hd
    exact hd ▸ ha
  next hz =>
    have := ha.trans (addTail_spec ha.wf (fun he : (fillTail c s).2 = [] => hz (by rw [he]; rfl)) slack)
    rwa [← map_append, hd] at this

theorem addReplyString_spec (h : c.WF) (s : List UInt8) (slack : Nat) :
    c.Appends (addReplyString c s slack) (s.map .byte) := by
  unfold addReplyString
  split
  next c' hc' =>
    unfold addReplyToBuffer at hc'
    split at hc'
    · cases hc'
    have hnil : c.reply = [] := length_eq_zero_iff.1 (by omega)
    split at hc'
    · cases hc'
    obtain rfl := some.inj hc'
    refine ⟨⟨?_, h.blocks, h.bytes, h.nodup, h.fresh⟩, rfl, by simp [ReplyClient.contents, hnil]⟩
    refine h.sent.imp_right fun hlt => lt_of_lt_of_le hlt ?_
    unfold front
    rw [hnil]
    split
    · exact Nat.zero_le _
    next hb =>
      rw [if_neg (append_ne_nil_of_left_ne_nil hb _), length_append]
      exact Nat.le_add_right _ _
  · exact addReplyStringToList_spec h s slack

theorem addDeferred_spec (h : c.WF) : c.Appends (addDeferredMultiBulkLength c).1 [.hole c.fresh] :=
  h.addNode (b := none) (fun _ hx => absurd hx (by simp))

/-! ### Filling a placeholder -/

end ReplyClient

section fillNode
variable {node slack : Nat} {header : List UInt8} {l : List ReplyNode}

structure Fills (node : Nat) (header : List UInt8) (l : List ReplyNode) (r : List ReplyNode × Nat) : Prop where
  items : r.1.flatMap ReplyNode.items = fill node header (l.flatMap ReplyNode.items)
  sizes : blockSizes r.1 = blockSizes l + r.2
  nodes : (r.1.map Prod.fst).Sublist (l.map Prod.fst)
  blocks : (∀ x ∈ l, ∀ b ∈ x.2, b.data ≠ []) → ∀ x ∈ r.1, ∀ b ∈ x.2, b.data ≠ []
  first : firstUsed l ≤ firstUsed r.1

theorem hole_mem_items {x : ReplyNode} (h : .hole node ∈ x.items) : x.1 = node := by
  obtain ⟨i, b⟩ := x
  cases b with
  | none => simpa [ReplyNode.items, eq_comm] using h
  | some b => simp [ReplyNode.items] at h

theorem not_hole_mem (h : node ∉ l.map Prod.fst) : .hole node ∉ l.flatMap ReplyNode.items := by
  intro hm
  obtain ⟨x, hx, hn⟩ := mem_flatMap.1 hm
  exact h (mem_map.2 ⟨x, hx, hole_mem_items hn⟩)

theorem Fills.alloc (hh : header ≠ []) (hn : node ∉ l.map Prod.fst) : Fills node header ((node, none) :: l)
      ((node, some (.alloc header header.length slack le_rfl)) :: l, header.length + slack) where
  items := by
    rw [flatMap_cons, flatMap_cons, fill_append, fill_of_not_mem (not_hole_mem hn)]
    simp [ReplyNode.items, fill, ReplyBlock.alloc]
  sizes := by
    simp [blockSizes, ReplyNode.size, ReplyBlock.alloc]
    omega
  nodes := Sublist.refl _
  blocks := by
    rintro hb x (_ | ⟨_, hx⟩)
    · rintro _ ⟨⟩
      exact hh
    · exact hb x (.tail _ hx)
  first := Nat.zero_le _

theorem Fills.glue {j : Nat} {next : ReplyBlock} (hh : header ≠ []) (hn : node ∉ ((j, some next) :: l).map Prod.fst)
    (hfit : next.size - next.data.length ≥ header.length) :
    Fills node header ((node, none) :: (j, some next) :: l) ((j, some (next.glue header hfit)) :: l, 0) where
  items := by
    rw [flatMap_cons, flatMap_cons, fill_append, fill_of_not_mem (not_hole_mem hn)]
    simp [ReplyNode.items, fill, ReplyBlock.glue]
  sizes := by simp [blockSizes, ReplyNode.size, ReplyBlock.glue]
  nodes := by simp
  blocks := by
    rintro hb x (_ | ⟨_, hx⟩)
    · rintro _ ⟨⟩
      exact append_ne_nil_of_left_ne_nil hh _
    · exact hb x (mem_cons_of_mem _ (.tail _ hx))
  first := Nat.zero_le _

theorem fillPlaceholder_spec (hh : header ≠ []) (hn : node ∉ l.map Prod.fst) :
    Fills node header ((node, none) :: l) (fillPlaceholder node header slack l) := by
  unfold fillPlaceholder
  split
  · split
    next h => exact .glue hh hn h.1
    · exact .alloc hh hn
  · exact .alloc hh hn

theorem Fills.cons {x : ReplyNode} {r : List ReplyNode × Nat} (h : Fills node header l r) (hx : x.1 ≠ node) :
    Fills node header (x :: l) (x :: r.1, r.2) where
  items := by
    rw [flatMap_cons, flatMap_cons, fill_append, ← h.items,
      fill_of_not_mem fun hm => hx (hole_mem_items hm)]
  sizes := by
    have := h.sizes
    simp only [blockSizes, map_cons, sum_cons] at this ⊢
    omega
  nodes := h.nodes.cons_cons _
  blocks := by
    rintro hb y (_ | ⟨_, hy⟩)
    · exact hb x (.head _)
    · exact h.blocks (fun z hz => hb z (.tail _ hz)) y hy
  first := le_rfl

theorem fillNode_spec (slack : Nat) (hh : header ≠ []) (hnodup : (l.map Prod.fst).Nodup)
    (hl : ∃ x ∈ l, x.1 = node ∧ x.2.isNone) : ∃ r, fillNode node header slack l = some r ∧ Fills node header l r := by
  induction l with
  | nil => simp at hl
  | cons y l ih =>
    obtain ⟨i, b⟩ := y
    obtain ⟨hi, hnodup⟩ := nodup_cons.1 hnodup
    obtain ⟨x, hx, hxn, hnone⟩ := hl
    by_cases he : i = node
    · subst he
      obtain rfl : x = (i, b) := by
        rcases mem_cons.1 hx with rfl | hx
        · rfl
        · exact absurd (mem_map.2 ⟨x, hx, hxn⟩) hi
      obtain rfl : b = none := isNone_iff_eq_none.1 hnone
      exact ⟨fillPlaceholder i header slack l, by simp [fillNode], fillPlaceholder_spec hh hi⟩
    · have hx' : x ∈ l := by
        rcases mem_cons.1 hx with rfl | hx
        · exact absurd hxn he
        · exact hx
      obtain ⟨r, hr, hf⟩ := ih hnodup ⟨x, hx', hxn, hnone⟩
      exact ⟨_, by rw [fillNode, if_neg he, hr]; rfl, hf.cons he⟩

end fillNode

namespace ReplyClient
variable {c : ReplyClient}

theorem setDeferred_spec (h : c.WF) {node : Nat} (length : Int) (slack : Nat)
    (hn : ∃ x ∈ c.reply, x.1 = node ∧ x.2.isNone) :
    ∃ c', setDeferredMultiBulkLength c node length slack = some c' ∧ c'.WF ∧
      c'.pending = fill node (multiBulkHeader length) c.pending := by
  have hh : multiBulkHeader length ≠ [] := cons_ne_nil _ _
  obtain ⟨r, hr, hf⟩ := fillNode_spec slack hh h.nodup hn
  refine ⟨_, by rw [setDeferredMultiBulkLength, hr]; rfl, ⟨?_, hf.blocks h.blocks, ?_, ?_, ?_⟩, ?_⟩
  · refine h.sent.imp_right fun hlt => lt_of_lt_of_le hlt ?_
    unfold front
    split
    · exact hf.first
    · exact le_rfl
  · rw [hf.sizes, h.bytes]
  · exact h.nodup.sublist hf.nodes
  · intro x hx
    obtain ⟨y, hy, he⟩ := mem_map.1 (hf.nodes.subset (mem_map_of_mem hx))
    exact he ▸ h.fresh y hy
  · obtain ⟨d, hd, hc⟩ := h.contents_eq
    refine WF.pending_eq rfl hd ?_
    have hfill := congrArg (fill node (multiBulkHeader length)) hc
    rw [contents, fill_append, fill_append, fill_bytes, fill_bytes, ← hf.items] at hfill
    exact hfill

/-! ### Writing -/

/-- What a write does that sends the bytes `d`. -/
structure Sends (c c' : ReplyClient) (d : List UInt8) : Prop where
  wf : c'.WF
  filled : ∀ x ∈ c'.reply, x.2.isSome
  pending : c.pending = d.map .byte ++ c'.pending

theorem Sends.refl (h : c.WF) (hf : ∀ x ∈ c.reply, x.2.isSome) : c.Sends c [] := ⟨h, hf, rfl⟩

theorem Sends.trans {c₁ c₂ : ReplyClient} {d d' : List UInt8} (h : c.Sends c₁ d) (h' : c₁.Sends c₂ d') :
    c.Sends c₂ (d ++ d') :=
  ⟨h'.wf, h'.filled, by rw [h.pending, h'.pending, map_append, append_assoc]⟩

theorem drop_sent {l d : List UInt8} {t : WriteTurn} {n : Nat} (rest : List ReplyItem) (hn : n ≤ l.length)
    (hd : t.take (l.drop n) = some d) : n + d.length ≤ l.length ∧ (l.map byte ++ rest).drop n =
        d.map byte ++ (l.map byte ++ rest).drop (n + d.length) := by
  obtain ⟨k, -, hk⟩ := map_eq_some_iff.1 hd
  obtain ⟨u, hu⟩ : d <+: l.drop n := hk ▸ take_prefix _ _
  have hlen := congrArg length hu
  rw [length_append, length_drop] at hlen
  have hdrop : (l.map byte ++ rest).drop n = d.map .byte ++ (u.map .byte ++ rest) := by
    rw [drop_append_of_le_length (by simpa using hn), ← map_drop, ← hu, map_append, append_assoc]
  refine ⟨by omega, ?_⟩
  rw [← drop_drop, hdrop, drop_left' (length_map _)]

theorem writeOnce_buf (h : c.WF) (hf : ∀ x ∈ c.reply, x.2.isSome) (hb : 0 < c.buf.length) (t : WriteTurn) :
    writeOnce t c = some none ∨ ∃ c' d, writeOnce t c = some (some (c', d)) ∧ c.Sends c' d := by
  have hne : c.buf ≠ [] := ne_nil_of_length_pos hb
  have hfront : c.front = c.buf.length := if_neg hne
  unfold writeOnce
  rw [if_pos hb]
  split
  · exact .inl rfl
  rename_i d hd
  obtain ⟨hle, hdrop⟩ := drop_sent (c.reply.flatMap ReplyNode.items) (hfront ▸ h.sent_le) hd
  right
  split
  next hall =>
    refine ⟨_, d, rfl, ⟨.inl rfl, h.blocks, h.bytes, h.nodup, h.fresh⟩, hf, hdrop.trans ?_⟩
    rw [hall, drop_left' (length_map _)]
    rfl
  next hpart =>
    refine ⟨_, d, rfl, ⟨.inr ?_, h.blocks, h.bytes, h.nodup, h.fresh⟩, hf, hdrop⟩
    exact (lt_of_le_of_ne hle hpart).trans_eq hfront.symm

theorem writeOnce_block (h : c.WF) (hf : ∀ x ∈ c.reply, x.2.isSome) (hb : c.buf = []) {i : Nat} {o : ReplyBlock}
    {l : List ReplyNode} (hr : c.reply = (i, some o) :: l) (t : WriteTurn) :
    writeOnce t c = some none ∨ ∃ c' d, writeOnce t c = some (some (c', d)) ∧ c.Sends c' d := by
  have hfront : c.front = o.data.length := by
    rw [front, if_pos hb, hr]
    rfl
  have hcont : c.contents = o.data.map .byte ++ l.flatMap ReplyNode.items := by
    rw [contents, hb, hr]
    rfl
  have hbytes : c.replyBytes - o.size = blockSizes l := by
    rw [h.bytes, hr]
    simp [blockSizes, ReplyNode.size]
  unfold writeOnce
  rw [if_neg (by rw [hb]; exact lt_irrefl 0)]
  split
  swap
  next hno => exact (hno i o l hr).elim
  rename_i o' _ heq
  obtain rfl : o = o' := by
    rw [hr] at heq
    cases heq
    rfl
  split
  · exact .inl rfl
  rename_i d hd
  obtain ⟨hle, hdrop⟩ := drop_sent (l.flatMap ReplyNode.items) (hfront ▸ h.sent_le) hd
  right
  split
  next hall =>
    have hassert : ¬ (l.length = 0 ∧ c.replyBytes - o.size ≠ 0) := by
      rintro ⟨hl, hne⟩
      rw [hbytes, length_eq_zero_iff.1 hl] at hne
      exact hne rfl
    have hsub : l.Sublist c.reply := hr ▸ sublist_cons_self _ _
    refine ⟨{ c with reply := l, replyBytes := c.replyBytes - o.size, sentlen := 0 }, d, ?_,
      ⟨.inl rfl, ?_, hbytes, ?_, ?_⟩, ?_, ?_⟩
    · simp only [dropFirstBlock, hr, tail_cons, if_neg hassert, map_some]
    · exact fun x hx => h.blocks x (hsub.subset hx)
    · exact h.nodup.sublist (hsub.map _)
    · exact fun x hx => h.fresh x (hsub.subset hx)
    · exact fun x hx => hf x (hsub.subset hx)
    · rw [pending, hcont, hdrop, hall]
      simp [pending, contents, hb]
  next hpart =>
    refine ⟨_, d, rfl, ⟨.inr ?_, h.blocks, h.bytes, h.nodup, h.fresh⟩, hf, ?_⟩
    · exact (lt_of_le_of_ne hle hpart).trans_eq hfront.symm
    · rw [pending, hcont, hdrop, ← hcont]
      rfl

theorem pending_cases (hf : ∀ x ∈ c.reply, x.2.isSome) (hp : clientHasPendingReplies c = true) :
    0 < c.buf.length ∨ c.buf = [] ∧ ∃ i o l, c.reply = (i, some o) :: l := by
  rw [clientHasPendingReplies, Bool.or_eq_true, decide_eq_true_eq, decide_eq_true_eq] at hp
  rcases Nat.eq_zero_or_pos c.buf.length with hb | hb
  · right
    refine ⟨length_eq_zero_iff.1 hb, ?_⟩
    obtain ⟨⟨i, o⟩, l, hr⟩ := exists_cons_of_length_pos (hp.resolve_left (by omega))
    obtain ⟨o, rfl⟩ := isSome_iff_exists.1 (hf (i, o) (by rw [hr]; simp))
    exact ⟨i, o, l, hr⟩
  · exact .inl hb

theorem writeOnce_spec (h : c.WF) (hf : ∀ x ∈ c.reply, x.2.isSome) (hp : clientHasPendingReplies c = true)
    (t : WriteTurn) : writeOnce t c = some none ∨ ∃ c' d, writeOnce t c = some (some (c', d)) ∧ c.Sends c' d := by
  rcases pending_cases hf hp with hb | ⟨hb, i, o, l, hr⟩
  · exact writeOnce_buf h hf hb t
  · exact writeOnce_block h hf hb hr t

theorem WF.emptyFirstBlock (h : c.WF) : emptyFirstBlock c = none := by
  unfold Redis.emptyFirstBlock
  split
  next i o l _ hr =>
    exact if_neg fun he => h.blocks (i, some o) (by rw [hr]; simp) o rfl (length_eq_zero_iff.1 he)
  · rfl

theorem writeLoop_spec {fuel : Nat} {turns : List WriteTurn} (hfuel : turns.length < fuel) (h : c.WF)
    (hf : ∀ x ∈ c.reply, x.2.isSome) (totwritten : Nat) :
    ∃ c' d, writeLoop fuel turns c totwritten = some (c', d) ∧ c.Sends c' d := by
  induction fuel generalizing c turns totwritten with
  | zero => omega
  | succ fuel ih =>
    unfold writeLoop
    split
    · exact ⟨c, [], rfl, .refl h hf⟩
    rename_i hp
    rw [h.emptyFirstBlock]
    rcases turns with _ | ⟨t, turns⟩
    · exact ⟨c, [], rfl, .refl h hf⟩
    rcases writeOnce_spec h hf (by simpa using hp) t with hw | ⟨c₁, d, hw, hs⟩
    · exact ⟨c, [], by simp [hw], .refl h hf⟩
    simp only [hw, some_bind]
    split
    · exact ⟨c₁, d, rfl, hs⟩
    · obtain ⟨c₂, d', hl, hs'⟩ := ih (Nat.lt_of_succ_lt_succ hfuel) hs.wf hs.filled (totwritten + d.length)
      exact ⟨c₂, d ++ d', by simp [hl], hs.trans hs'⟩

theorem WF.sentlen_of_idle (h : c.WF) (hp : clientHasPendingReplies c = false) : c.sentlen = 0 := by
  rw [clientHasPendingReplies, Bool.or_eq_false_iff, decide_eq_false_iff_not, decide_eq_false_iff_not] at hp
  have hb : c.buf = [] := length_eq_zero_iff.1 (by omega)
  have hr : c.reply = [] := length_eq_zero_iff.1 (by omega)
  have := h.sent_le
  rw [front, if_pos hb, hr] at this
  exact Nat.le_zero.1 this

theorem writeToClient_spec (h : c.WF) (hf : ∀ x ∈ c.reply, x.2.isSome) (turns : List WriteTurn) :
    ∃ c' d, writeToClient c turns = some (c', d) ∧ c.Sends c' d := by
  obtain ⟨c', d, hl, hs⟩ := writeLoop_spec (by omega : turns.length < turns.length + c.reply.length + 1) h hf 0
  refine ⟨c', d, ?_, hs⟩
  simp only [writeToClient, hl, some_bind]
  split
  next hp => rw [← hs.wf.sentlen_of_idle (by simpa using hp)]
  · rfl

end ReplyClient

/-! ### Whole runs -/

/-- What was sent, followed by what is buffered, is the reply that was given. -/
structure ReplyRel (c : ReplyClient) (a : ReplyLog) : Prop where
  wf : c.WF
  order : a.sent.map .byte ++ c.pending = a.given

theorem createClient_wf : createClient.WF :=
  ⟨.inl rfl, by simp [createClient], rfl, by simp [createClient], by simp [createClient]⟩

theorem hole_fresh {c : ReplyClient} {a : ReplyLog} (h : ReplyRel c a) : .hole c.fresh ∉ a.given := by
  intro hm
  rw [← h.order] at hm
  have hc : hole c.fresh ∈ c.contents := by
    rcases mem_append.1 hm with hm | hm
    · simp at hm
    · exact mem_of_mem_drop hm
  rcases mem_append.1 hc with hc | hc
  · simp at hc
  · obtain ⟨x, hx, hn⟩ := mem_flatMap.1 hc
    exact (h.wf.fresh x hx).ne (hole_mem_items hn)

theorem replyMachine_simulates : replyMachine.Simulates replySpec ReplyOp.Allowed ReplyRel := by
  intro op c a h hg
  cases op with
  | add s slack =>
    have hs := ReplyClient.addReplyString_spec h.wf s slack
    refine ⟨_, _, _, rfl, ⟨rfl, rfl⟩, hs.wf, ?_⟩
    rw [hs.pending h.wf, ← h.order, append_assoc]
  | defer =>
    have hs := ReplyClient.addDeferred_spec h.wf
    refine ⟨_, _, _, rfl, ⟨c.fresh, rfl, hole_fresh h, rfl⟩, hs.wf, ?_⟩
    rw [hs.pending h.wf, ← h.order, append_assoc]
  | setDeferred node length slack =>
    obtain ⟨c', hc', hwf, hp⟩ := ReplyClient.setDeferred_spec h.wf length slack hg
    refine ⟨c', _, _, ?_, ⟨rfl, rfl⟩, hwf, ?_⟩
    · show (setDeferredMultiBulkLength c node length slack).map (·, ReplyResult.done) = _
      rw [hc']
      rfl
    · rw [hp, ← h.order, fill_append, fill_bytes]
  | write turns =>
    obtain ⟨c', d, hc', hs⟩ := ReplyClient.writeToClient_spec h.wf hg turns
    refine ⟨c', _, _, ?_, ⟨d, rfl, rfl⟩, hs.wf, ?_⟩
    · show (writeToClient c turns).map (fun r => (r.1, ReplyResult.sent r.2)) = _
      rw [hc']
      rfl
    · rw [← h.order, hs.pending, map_append, append_assoc]

/-- In every run in which each length is set once and before the next write, no call faults, what was sent
followed by what is buffered is the reply in the order it was given, with each header in the place kept for
it, and `reply_bytes` is the sum of the sizes of the blocks. -/
theorem replies_in_order (ops : List ReplyOp) (h : replyMachine.Guarded ReplyOp.Allowed ops createClient) :
    ∃ c rs a, replyMachine.run ops createClient = some (c, rs) ∧ replySpec.Run ops ⟨[], []⟩ rs a ∧
      a.sent.map .byte ++ c.pending = a.given ∧ c.replyBytes = blockSizes c.reply := by
  obtain ⟨c, rs, a, hrun, hspec, hrel⟩ := replyMachine_simulates.run (a := ⟨[], []⟩) ⟨createClient_wf, rfl⟩ h
  exact ⟨c, rs, a, hrun, hspec, hrel.order, hrel.wf.bytes⟩

/-- Nested lengths that are set from the inside out, the second one put in front of the next block, and a
write that stops inside the first header. -/
theorem replies_in_order_nested :
    ∃ c rs a, replyMachine.run [.add [43, 13, 10] 0, .defer, .defer, .add [58, 49] 0, .setDeferred 1 1 0,
        .setDeferred 0 1 5, .write [⟨some 2, true⟩, ⟨some 1, true⟩]] createClient = some (c, rs) ∧
      replySpec.Run [.add [43, 13, 10] 0, .defer, .defer, .add [58, 49] 0, .setDeferred 1 1 0,
        .setDeferred 0 1 5, .write [⟨some 2, true⟩, ⟨some 1, true⟩]] ⟨[], []⟩ rs a ∧
      a.sent.map .byte ++ c.pending = a.given ∧ c.replyBytes = blockSizes c.reply :=
  replies_in_order _ (Machine.guarded_of_check (by decide))

end Redis
