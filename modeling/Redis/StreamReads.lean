import Redis.StreamCommands

/-! # Reading what is new

`XREAD` and `XREADGROUP` with `>` return the entries above an ID as the range that starts at the next one. The next ID
is made by adding one to the sequence number alone. -/

namespace Redis
open List

/-- The part of `xreadCommand` that serves a stream to a client without a group: the entries above `gt`, none if the
client is not served. -/
def xreadStream (s : Stream) (gt : StreamID) (count : Nat) : Except Crash (Option (List Emitted)) :=
  if s.length ≠ 0 ∧ streamCompareID s.lastId gt > 0 then do
    let start := { gt with seq := gt.seq + 1 }
    let (_, out) ← streamReplyWithRange (fun _ u => .ok u) s (some start) none count false ()
    .ok (some out)
  else .ok none

def atMost (count : Nat) (l : List Emitted) : List Emitted := if count = 0 then l else l.take count

def StreamMap.above (m : StreamMap) (gt : StreamID) : List Emitted := m.entries.filter fun e => decide (gt < e.1)

def GroupReply.emitted : GroupReply → List Emitted
  | .items l => l.filterMap fun it =>
    match it with
    | .entry e => some e
    | _ => none
  | _ => []

def GroupCmd.Fits (gs : GroupedStream) : GroupCmd → Prop
  | .entries cmd => cmd.Fits gs.stream
  | _ => True

/-! ### Along a run -/

namespace GroupedStream
variable {gs gs' : GroupedStream} {limits : StreamLimits}
variable {r : GroupedStream × GroupReply × List Propagated}

theorem withGroup_stream {group : List UInt8} {missing : GroupReply}
    {f : StreamCG → Except Crash (StreamCG × GroupReply × List Propagated)} (h : gs.withGroup group missing f = .ok r) :
    r.1.stream = gs.stream := by
  unfold withGroup at h
  cases hl : gs.cgroups.lookup group with
  | none =>
    rw [hl] at h
    cases h
    rfl
  | some cg =>
    rw [hl] at h
    dsimp only at h
    rcases hf : f cg with e | v
    · rw [hf] at h
      cases h
    rw [hf] at h
    cases h
    rfl

theorem exec_stream {cmd : GroupCmd} (h : gs.exec limits cmd = .ok r) :
    r.1.stream = gs.stream ∨ ∃ c r', cmd = .entries c ∧ streamCmdStep limits c gs.stream = some (r.1.stream, r') := by
  cases cmd with
  | entries c =>
    rw [exec] at h
    rcases hs : streamCmdStep limits c gs.stream with - | v
    · rw [hs] at h
      cases h
    rw [hs] at h
    cases h
    exact .inr ⟨c, v.2, rfl, hs⟩
  | create group id | destroy group =>
    rw [exec] at h
    split at h
    · cases h
      exact .inl rfl
    · cases h
      exact .inl rfl
  | setid group id | delconsumer group consumer now => exact .inl (withGroup_stream h)
  | xreadgroup group consumer count noack id now | xack group ids => exact .inl (withGroup_stream h)
  | xclaim group consumer minidle ids opts now => exact .inl (withGroup_stream h)

def Ordered (gs : GroupedStream) : Prop := gs.Inv ∧ ∃ m : StreamMap, m.Is gs.stream

theorem Ordered.step {cmd : GroupCmd} {r : GroupReply × List Propagated} (h : gs.Ordered) (hfits : cmd.Fits gs)
    (hs : (machine limits).step cmd gs = some (gs', r)) : gs'.Ordered := by
  obtain ⟨hI, m, hm⟩ := h
  have hexec : gs.exec limits cmd = .ok (gs', r) := by
    change (gs.exec limits cmd).toOption = _ at hs
    rcases he : gs.exec limits cmd with e | v
    · rw [he] at hs
      cases hs
    rw [he] at hs
    cases hs
    rfl
  refine ⟨(exec_safe hI limits cmd).of_toOption hs, ?_⟩
  rcases exec_stream hexec with heq | ⟨c, r', rfl, hstep⟩
  · exact ⟨m, heq ▸ hm⟩
  obtain ⟨s', r'', m', hstep', -, his⟩ := streamCmdStep_simulates limits c gs.stream m hm hfits
  change streamCmdStep limits c gs.stream = _ at hstep'
  rw [hstep'] at hstep
  cases hstep
  exact ⟨m', his⟩

theorem Ordered.run {cmds : List GroupCmd} {rs : List (GroupReply × List Propagated)}
    (hfits : (machine limits).Guarded (fun cmd gs => cmd.Fits gs) cmds (machine limits).init)
    (hrun : (machine limits).run cmds (machine limits).init = some (gs, rs)) : gs.Ordered := by
  refine hfits.inv ⟨fun _ _ hl => ?_, ⟨.zero, []⟩, rfl, [], holds_new, rfl⟩
    (fun hI hG hs => hI.step hG hs) hrun
  cases hl

end GroupedStream

/-! ### The next ID -/

section next
variable {s : Stream} {m : StreamMap} {gt : StreamID}

/-- The read goes wrong at an entry of the same millisecond as `gt`, whose sequence number is the greatest. -/
def StreamID.Again (gt id : StreamID) : Prop := gt.seq = UInt64.ofNat (2 ^ 64 - 1) ∧ id.ms = gt.ms

theorem again_toNat {id : StreamID} : gt.Again id ↔ gt.seq.toNat = 2 ^ 64 - 1 ∧ id.ms.toNat = gt.ms.toNat := by
  rw [StreamID.Again, ← UInt64.toNat_inj, ← UInt64.toNat_inj]
  exact Iff.rfl

theorem next_le_iff {id : StreamID} (h : ¬gt.Again id) : ({ gt with seq := gt.seq + 1 } : StreamID) ≤ id ↔ gt < id := by
  have hlt := gt.seq.toNat_lt
  have hlt' := id.seq.toNat_lt
  rw [again_toNat] at h
  show gt.ms.toNat * 2 ^ 64 + (gt.seq + 1).toNat ≤ id.ms.toNat * 2 ^ 64 + id.seq.toNat ↔
    gt.ms.toNat * 2 ^ 64 + gt.seq.toNat < id.ms.toNat * 2 ^ 64 + id.seq.toNat
  rw [UInt64.toNat_add, show (1 : UInt64).toNat = 1 from rfl]
  omega

theorem Again.next_le {id : StreamID} (h : gt.Again id) : ({ gt with seq := gt.seq + 1 } : StreamID) ≤ id ∧ id ≤ gt := by
  have hlt := id.seq.toNat_lt
  rw [again_toNat] at h
  show gt.ms.toNat * 2 ^ 64 + (gt.seq + 1).toNat ≤ id.ms.toNat * 2 ^ 64 + id.seq.toNat ∧
    id.ms.toNat * 2 ^ 64 + id.seq.toNat ≤ gt.ms.toNat * 2 ^ 64 + gt.seq.toNat
  rw [UInt64.toNat_add, show (1 : UInt64).toNat = 1 from rfl]
  omega

theorem StreamID.le_max (id : StreamID) : id ≤ .max := by
  have hmax : StreamID.max.toNat = 2 ^ 128 - 1 := by decide
  have hlt := id.toNat_lt
  show id.toNat ≤ StreamID.max.toNat
  omega

theorem mem_of_atMost {count : Nat} {l : List Emitted} {e : Emitted} (h : e ∈ atMost count l) : e ∈ l := by
  unfold atMost at h
  split at h
  · exact h
  · exact mem_of_mem_take h

theorem atMost_cons (count : Nat) (a : Emitted) (l : List Emitted) : ∃ l', atMost count (a :: l) = a :: l' := by
  unfold atMost
  cases count with
  | zero => exact ⟨l, rfl⟩
  | succ n => exact ⟨l.take n, rfl⟩

theorem between_next_iff (h : m.entries.Pairwise fun a b => a.1 < b.1) (count : Nat) :
    atMost count (m.between (some { gt with seq := gt.seq + 1 }) none false) = atMost count (m.above gt) ↔
      ∀ e ∈ m.entries, ¬gt.Again e.1 := by
  refine ⟨fun heq e he hagain => ?_, fun hno => congrArg (atMost count) ?_⟩
  · -- the first entry of the range is not above `gt`
    obtain ⟨hnext, hle⟩ := Again.next_le hagain
    have hmem : e ∈ m.between (some { gt with seq := gt.seq + 1 }) none false :=
      mem_filter.2 ⟨he, by simp [hnext, e.1.le_max]⟩
    have hsort : (m.between (some { gt with seq := gt.seq + 1 }) none false).Pairwise fun a b => a.1 < b.1 :=
      h.sublist filter_sublist
    obtain ⟨a, l, hl⟩ := exists_cons_of_ne_nil (ne_nil_of_mem hmem)
    rw [hl] at hmem hsort heq
    obtain ⟨l', hl'⟩ := atMost_cons count a l
    have habove : a ∈ m.above gt := mem_of_atMost (heq ▸ hl' ▸ mem_cons_self)
    have hlt : gt < a.1 := of_decide_eq_true (mem_filter.1 habove).2
    rcases mem_cons.1 hmem with rfl | hmem
    · exact absurd (Nat.lt_of_lt_of_le hlt hle) (Nat.lt_irrefl _)
    · exact absurd (Nat.lt_of_lt_of_le (Nat.lt_trans hlt (rel_of_pairwise_cons hsort hmem)) hle) (Nat.lt_irrefl _)
  · unfold StreamMap.between StreamMap.above
    refine filter_congr fun e he => ?_
    have hiff := next_le_iff (hno e he)
    have hmax := e.1.le_max
    simp [hiff, hmax]

theorem StreamMap.Is.rangeFold {σ τ : Type} {f : StreamID → σ → Except Crash σ} {P : σ → Prop} {view : σ → τ}
    {step : τ → StreamID → τ} (h : m.Is s)
    (hf : ∀ id st, P st → ∃ st', f id st = .ok st' ∧ P st' ∧ view st' = step (view st) id) (st : σ) (hst : P st)
    (start end_ : Option StreamID) (count : Nat) (rev : Bool) :
    ∃ st', streamReplyWithRange f s start end_ count rev st = .ok (st', atMost count (m.between start end_ rev)) ∧ P st' ∧
      view st' = ((atMost count (m.between start end_ rev)).map Prod.fst).foldl step (view st) := by
  obtain ⟨-, nodes, hholds, hentries⟩ := h
  have hfold : ∀ (l : List Item) (st : σ), P st → ∃ st', l.foldlM (fun st it => f it.id st) st = .ok st' ∧ P st' ∧
      view st' = ((l.map Item.emitted).map Prod.fst).foldl step (view st) := by
    intro l
    induction l with
    | nil => exact fun st hst => ⟨st, rfl, hst, rfl⟩
    | cons it l ih =>
      intro st hst
      obtain ⟨st₁, h₁, hst₁, hview₁⟩ := hf it.id st hst
      obtain ⟨st₂, h₂, hst₂, hview₂⟩ := ih st₁ hst₁
      refine ⟨st₂, by rw [foldlM_cons, h₁]; exact h₂, hst₂, ?_⟩
      rw [hview₂, hview₁]
      rfl
  have hout : (StreamWalk.upTo count 0 (itemsBetween nodes start end_ rev)).map Item.emitted =
      atMost count (m.between start end_ rev) := by
    rw [← Holds.itemsBetween hentries]
    unfold StreamWalk.upTo atMost
    rw [Nat.sub_zero]
    split
    · rfl
    · rw [← map_take]
  obtain ⟨st', hst', hP, hview⟩ := hfold (StreamWalk.upTo count 0 (itemsBetween nodes start end_ rev)) st hst
  rw [hout] at hview
  refine ⟨st', ?_, hP, hview⟩
  rw [streamReplyWithRange_spec _ hholds.tree hholds.wf hholds.order, hst', ← hout]
  rfl

theorem StreamMap.Is.rangeWith {σ : Type} {f : StreamID → σ → Except Crash σ} (h : m.Is s)
    (hf : ∀ id st, ∃ st', f id st = .ok st') (st : σ) (start end_ : Option StreamID) (count : Nat) (rev : Bool) :
    ∃ st', streamReplyWithRange f s start end_ count rev st = .ok (st', atMost count (m.between start end_ rev)) := by
  have hf' : ∀ id st, True → ∃ st', f id st = .ok st' ∧ True ∧ () = () := fun id st _ => by
    obtain ⟨st', h₁⟩ := hf id st
    exact ⟨st', h₁, trivial, rfl⟩
  obtain ⟨st', hrange, -⟩ :=
    @StreamMap.Is.rangeFold _ _ σ Unit f _ (fun _ => ()) (fun _ _ => ()) h hf' st trivial start end_ count rev
  exact ⟨st', hrange⟩

theorem StreamMap.Is.length_ne_zero (h : m.Is s) {e : Emitted} (he : e ∈ m.entries) : s.length ≠ 0 := by
  obtain ⟨-, nodes, hholds, hentries⟩ := h
  intro hzero
  have hlen := hholds.length
  rw [hzero] at hlen
  rw [← hentries, length_eq_zero_iff.1 hlen.symm] at he
  cases he

theorem StreamMap.Is.above_eq_nil (h : m.Is s) (hno : ¬(s.length ≠ 0 ∧ streamCompareID s.lastId gt > 0)) : m.above gt = [] := by
  refine filter_eq_nil_iff.2 fun e he => ?_
  have hpos := h.length_ne_zero he
  obtain ⟨-, nodes, hholds, hentries⟩ := h
  rw [← hentries] at he
  obtain ⟨it, hit, rfl⟩ := mem_map.1 he
  have hle := hholds.last it hit
  have hnot : ¬gt < s.lastId := fun hlt => hno ⟨hpos, streamCompareID_pos.2 hlt⟩
  have hgt : ¬gt < it.id := fun hlt => hnot (Nat.lt_of_lt_of_le hlt hle)
  exact mt of_decide_eq_true hgt

/-- No entry is read again: the stream has nothing above `gt`, or no entry at which the read goes wrong. -/
def StreamMap.Fresh (m : StreamMap) (s : Stream) (gt : StreamID) : Prop :=
  gt < s.lastId → ∀ e ∈ m.entries, ¬gt.Again e.1

theorem StreamMap.Is.fresh_of_not_served (h : m.Is s) (hno : ¬(s.length ≠ 0 ∧ streamCompareID s.lastId gt > 0)) :
    m.Fresh s gt :=
  fun hlt _ he _ => hno ⟨h.length_ne_zero he, streamCompareID_pos.2 hlt⟩

theorem StreamMap.Is.fresh_iff (h : m.Is s) (hserve : streamCompareID s.lastId gt > 0) (count : Nat) :
    atMost count (m.between (some { gt with seq := gt.seq + 1 }) none false) = atMost count (m.above gt) ↔ m.Fresh s gt := by
  rw [between_next_iff h.sorted, StreamMap.Fresh, imp_iff_right (streamCompareID_pos.1 hserve)]

theorem xreadStream_spec (h : m.Is s) (count : Nat) :
    (∃ out, xreadStream s gt count = .ok out ∧ out.getD [] = atMost count (m.above gt)) ↔ m.Fresh s gt := by
  unfold xreadStream
  by_cases hserve : s.length ≠ 0 ∧ streamCompareID s.lastId gt > 0
  · obtain ⟨u, hrange⟩ := h.rangeWith (fun _ u => ⟨u, rfl⟩) () (some { gt with seq := gt.seq + 1 }) none count false
    rw [if_pos hserve, ← h.fresh_iff hserve.2 count]
    dsimp only
    rw [hrange, ok_bind]
    simp
  · rw [if_neg hserve, h.above_eq_nil hserve]
    refine iff_of_true ⟨none, rfl, ?_⟩ (h.fresh_of_not_served hserve)
    unfold atMost
    split <;> simp

theorem emitted_entries (l : List Emitted) : GroupReply.emitted (.items (l.map .entry)) = l := by
  rw [GroupReply.emitted, filterMap_map]
  exact filterMap_some ..

def GroupMap.read (noack : Bool) (consumer : List UInt8) (now : Int) (ids : List StreamID) (g : GroupMap) : ReadMap :=
  ids.foldl (readEntry noack consumer now) ⟨g, false, []⟩

theorem xreadgroup_new_spec (h : m.Is s) {cg : StreamCG} (hI : cg.Inv) (consumer : List UInt8) (count : Nat) (noack : Bool)
    (now : Int) : ∃ cg' r ids, xreadgroupCommand s cg consumer count noack .max now =
        .ok (cg', r, (cg.map.read noack consumer now ids).propagated) ∧ cg'.Inv ∧
      cg'.map = (cg.map.read noack consumer now ids).map ∧ (∀ id ∈ ids, ∃ e ∈ m.entries, e.1 = id) ∧
      (r.emitted = atMost count (m.above cg.lastId) ↔ m.Fresh s cg.lastId) := by
  unfold xreadgroupCommand
  rw [if_neg (by simp)]
  by_cases hserve : s.length ≠ 0 ∧ streamCompareID s.lastId cg.lastId > 0
  · obtain ⟨cg₁, b, hlook, hs, hb, hmap, -⟩ := StreamCG.streamLookupConsumer_serves hI consumer now
    obtain ⟨g, hrange, hP, hview⟩ := h.rangeFold (fun id g hg => StreamCG.groupEntry_spec noack hg.1 hg.2 id now)
      (⟨cg₁, false, []⟩ : GroupRead) ⟨hs, hb⟩ (some { cg.lastId with seq := cg.lastId.seq + 1 }) none count false
    rw [show GroupRead.view ⟨cg₁, false, []⟩ = ⟨cg.map, false, []⟩ by rw [GroupRead.view, hmap]] at hview
    rw [if_pos hserve, hlook, ok_bind]
    dsimp only
    rw [deref_bind, hrange, ok_bind]
    obtain ⟨out, hout⟩ : ∃ out, out = atMost count (m.between (some { cg.lastId with seq := cg.lastId.seq + 1 }) none false) :=
      ⟨_, rfl⟩
    rw [← hout] at hview ⊢
    refine ⟨g.cg, .items (out.map .entry), out.map Prod.fst, ?_, hP.1.1, congrArg ReadMap.map hview, fun id hid => ?_,
      ?_⟩
    · rw [show g.propagated = _ from congrArg ReadMap.propagated hview]
      rfl
    · obtain ⟨e, he, rfl⟩ := mem_map.1 hid
      exact ⟨e, (mem_filter.1 (mem_of_atMost (hout ▸ he))).1, rfl⟩
    · rw [emitted_entries, hout, h.fresh_iff hserve.2]
  · rw [if_neg hserve, h.above_eq_nil hserve]
    refine ⟨cg, .null, [], rfl, hI, rfl, fun id hid => absurd hid not_mem_nil,
      iff_of_true ?_ (h.fresh_of_not_served hserve)⟩
    unfold atMost
    split <;> simp [GroupReply.emitted]

end next

/-- After every run whose commands find room, a read above an ID returns the entries above it, in order and up to the
number asked for, to a client and to a group, iff no entry of the same millisecond is read again. -/
theorem xread_returns_above (limits : StreamLimits) (cmds : List GroupCmd) (gs : GroupedStream)
    (rs : List (GroupReply × List Propagated))
    (hfits : (GroupedStream.machine limits).Guarded (fun cmd gs => cmd.Fits gs) cmds (GroupedStream.machine limits).init)
    (hrun : (GroupedStream.machine limits).run cmds (GroupedStream.machine limits).init = some (gs, rs)) :
    ∃ m : StreamMap, streamReplyWithRange (fun _ u => .ok u) gs.stream none none 0 false () = .ok ((), m.entries) ∧
      (m.entries.Pairwise fun a b => a.1 < b.1) ∧
      (∀ (gt : StreamID) (count : Nat),
        (∃ out, xreadStream gs.stream gt count = .ok out ∧ out.getD [] = atMost count (m.above gt)) ↔
          m.Fresh gs.stream gt) ∧
      ∀ group cg, gs.cgroups.lookup group = some cg → ∀ consumer count noack now,
        (∃ cg' reply p, xreadgroupCommand gs.stream cg consumer count noack .max now = .ok (cg', reply, p) ∧
          reply.emitted = atMost count (m.above cg.lastId)) ↔ m.Fresh gs.stream cg.lastId := by
  obtain ⟨hI, m, hm⟩ := GroupedStream.Ordered.run hfits hrun
  have hall : m.between none none false = m.entries := by
    refine filter_eq_self.2 fun e _ => ?_
    have hzero : StreamID.zero ≤ e.1 := Nat.zero_le _
    simp [hzero, e.1.le_max]
  refine ⟨m, by rw [hm.range, hall], hm.sorted, fun gt count => xreadStream_spec hm count, ?_⟩
  intro group cg hcg consumer count noack now
  obtain ⟨cg', r, ids, hres, -, -, -, hr⟩ := xreadgroup_new_spec hm (hI group cg hcg) consumer count noack now
  rw [hres, ← hr]
  simp

instance GroupCmd.decidableFits (gs : GroupedStream) (cmd : GroupCmd) : Decidable (cmd.Fits gs) :=
  match cmd with
  | .entries cmd => inferInstanceAs (Decidable (cmd.Fits gs.stream))
  | .create .. | .setid .. | .destroy .. | .delconsumer .. | .xreadgroup .. | .xack .. | .xclaim .. =>
    inferInstanceAs (Decidable True)

/-- Two entries of different milliseconds, and a group that has seen the first one. -/
def twoMilliseconds : List GroupCmd :=
  [.entries (.xadd (some ⟨5, 3⟩) [([102], [118])] 0 none), .entries (.xadd (some ⟨6, 0⟩) [([102], [119])] 0 none),
    .create [103] (some ⟨5, 3⟩)]

theorem xread_returns_above_two :
    (GroupedStream.machine ⟨4096, 100⟩).Guarded (fun cmd gs => cmd.Fits gs) twoMilliseconds ⟨streamNew, ∅⟩ ∧
    ∃ gs rs, (GroupedStream.machine ⟨4096, 100⟩).run twoMilliseconds ⟨streamNew, ∅⟩ = some (gs, rs) ∧
      ∃ m : StreamMap, streamReplyWithRange (fun _ u => .ok u) gs.stream none none 0 false () = .ok ((), m.entries) ∧
        ((∃ out, xreadStream gs.stream ⟨5, 3⟩ 0 = .ok out ∧ out.getD [] = m.above ⟨5, 3⟩) ↔
          m.Fresh gs.stream ⟨5, 3⟩) := by
  have hfits : (GroupedStream.machine ⟨4096, 100⟩).Guarded (fun cmd gs => cmd.Fits gs) twoMilliseconds ⟨streamNew, ∅⟩ :=
    Machine.guarded_of_check (by decide)
  refine ⟨hfits, _, _, rfl, ?_⟩
  obtain ⟨m, hall, -, hread, -⟩ := xread_returns_above ⟨4096, 100⟩ twoMilliseconds _ _ hfits rfl
  exact ⟨m, hall, hread ⟨5, 3⟩ 0⟩

/-- Behind the last sequence number of a millisecond the read starts over at the first one. -/
theorem xread_returns_below :
    ∃ gs rs, (GroupedStream.machine ⟨4096, 100⟩).run twoMilliseconds ⟨streamNew, ∅⟩ = some (gs, rs) ∧
      xreadStream gs.stream ⟨5, UInt64.ofNat (2 ^ 64 - 1)⟩ 0 =
        .ok (some [(⟨5, 3⟩, [([102], [118])]), (⟨6, 0⟩, [([102], [119])])]) :=
  ⟨_, _, rfl, rfl⟩

end Redis
