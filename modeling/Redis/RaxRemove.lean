import Redis.RaxInsert

/-! # Removing from a radix tree

Clearing the key flag of a node takes its entry out; what follows (`raxCleanup`) frees the nodes that
no longer lead anywhere and joins chains, and keeps the entries. The second scan of a recompression has
no bound of its own: it agrees with the first one because the joined string starts a key, and keys are
no longer than `RAX_NODE_MAX_SIZE`. -/

namespace Redis
open List Option RaxFrame
variable {V : Type}
variable {n : RaxNode V} {ts : List (RaxFrame V)}

/-! ### Chains -/

theorem endsChain_iff : n.endsChain = true ↔ n.hdr.iskey = true ∨ (n.iscompr = false ∧ n.size ≠ 1) := by
  rw [RaxNode.endsChain, Bool.or_eq_true, Bool.and_eq_true, decide_eq_true_iff, Bool.not_eq_true']

theorem exists_of_not_endsChain (h : n.endsChain = false) :
    n.hdr.iskey = false ∧ ((∃ hdr c child, n = .normal hdr [(c, child)]) ∨ ∃ hdr cs child, n = .compr hdr cs child) := by
  rw [← Bool.not_eq_true, endsChain_iff, not_or, Bool.not_eq_true, not_and, not_not] at h
  refine ⟨h.1, ?_⟩
  cases n with
  | normal hdr es =>
    have hlen : es.length = 1 := h.2 rfl
    obtain ⟨⟨c, child⟩, rfl⟩ := length_eq_one_iff.1 hlen
    exact .inl ⟨hdr, c, child, rfl⟩
  | compr hdr cs child => exact .inr ⟨hdr, cs, child, rfl⟩

theorem live_of_not_endsChain (h : n.endsChain = false) : n.Live := by
  obtain ⟨-, ⟨hdr, c, child, rfl⟩ | ⟨hdr, cs, child, rfl⟩⟩ := exists_of_not_endsChain h
  · trivial
  · trivial

theorem size_of_not_endsChain (hwf : n.WF) (h : n.endsChain = false) : 1 ≤ n.size := by
  obtain ⟨-, ⟨hdr, c, child, rfl⟩ | ⟨hdr, cs, child, rfl⟩⟩ := exists_of_not_endsChain h
  · exact le_rfl
  · cases hwf with
    | compr hlen => exact Nat.le_of_succ_le hlen

theorem entry_of_not_iskey {hdr : RaxHdr V} (h : hdr.iskey = false) : hdr.entry = [] := by
  rw [RaxHdr.entry, h, if_neg Bool.false_ne_true]

theorem RaxFrame.alone {f : RaxFrame V} (hf : f.WF) (h : f.node.endsChain = false) :
    f.before = [] ∧ f.after = [] ∧ f.count = 1 := by
  obtain ⟨hk, ⟨hdr, c, child, heq⟩ | ⟨hdr, cs, child, heq⟩⟩ := exists_of_not_endsChain h
  · have hj := (hf.normal hdr _ heq).1
    have hidx : f.idx = 0 := Nat.lt_one_iff.1 hj
    rw [heq] at hk
    rw [before, after, count, heq, hidx]
    have hentry : hdr.entry = [] := entry_of_not_iskey hk
    simp [hentry, raxEdgeEntries, raxEdgeCount]
  · rw [heq] at hk
    rw [before, after, count, heq]
    exact ⟨entry_of_not_iskey hk, rfl, rfl⟩

theorem endsChain_setChild (n : RaxNode V) (j : Nat) (m : RaxNode V) : (n.setChild j m).endsChain = n.endsChain := by
  cases n with
  | normal hdr es =>
    rw [Bool.eq_iff_iff, endsChain_iff, endsChain_iff, RaxNode.setChild]
    simp [RaxNode.hdr, RaxNode.iscompr, RaxNode.size]
  | compr => rfl

/-! ### Unlinking -/

theorem raxUnlink_spec (f : RaxFrame V) (fs : List (RaxFrame V)) (m : Nat) (hfs : ∀ g ∈ f :: fs, g.WF)
    (hm : raxOutside (f :: fs) < m) : ∃ f' fs' m', raxUnlink f fs m = (f', fs', m') ∧ (∀ g ∈ f' :: fs', g.WF) ∧
      raxBefore (f' :: fs') = raxBefore (f :: fs) ∧ raxAfter (f' :: fs') = raxAfter (f :: fs) ∧
      raxOutside (f' :: fs') + m = raxOutside (f :: fs) + m' + 1 ∧ (fs' = [] ∨ f'.node.endsChain = true) := by
  induction fs generalizing f m with
  | nil => exact ⟨f, [], m - 1, rfl, hfs, rfl, rfl, by omega, .inl rfl⟩
  | cons g gs ih =>
    unfold raxUnlink
    by_cases hend : f.node.endsChain = true
    · rw [if_pos hend]
      exact ⟨f, g :: gs, m - 1, rfl, hfs, rfl, rfl, by omega, .inr hend⟩
    rw [if_neg hend]
    obtain ⟨hb, ha, hc⟩ := alone (hfs f (.head _)) (Bool.not_eq_true _ ▸ hend)
    have hout : raxOutside (f :: g :: gs) = raxOutside (g :: gs) + 1 := by rw [raxOutside, hc]
    obtain ⟨f', fs', m', heq, hwf, hb', ha', hc', hstop⟩ :=
      ih g (m - 1) (fun g hg => hfs g (.tail _ hg)) (by omega)
    refine ⟨f', fs', m', heq, hwf, ?_, ?_, by omega, hstop⟩
    · rw [hb', raxBefore.eq_2 f, hb]
      simp [raxBefore]
    · rw [ha', raxAfter.eq_2 f, ha]
      simp [raxAfter]

theorem raxRemoveChild_spec {f : RaxFrame V} (hf : f.WF) :
    let n := raxRemoveChild f.node f.idx
    n.entries = f.before ++ f.after ∧ n.count = f.count ∧ n.WF ∧ (f.node.endsChain = true → n.Live) := by
  cases hnode : f.node with
  | normal hdr es =>
    obtain ⟨hj, hsort, hrest⟩ := hf.normal hdr es hnode
    have herase : es.eraseIdx f.idx = es.take f.idx ++ es.drop (f.idx + 1) := eraseIdx_eq_take_drop_succ ..
    have hmem : ∀ e ∈ es.eraseIdx f.idx, e.2.WF ∧ e.2.Live := by
      rw [herase]
      exact hrest
    refine ⟨?_, ?_, ?_, ?_⟩
    · rw [raxRemoveChild, entries_normal, herase, raxEdgeEntries_append, RaxFrame.before, RaxFrame.after, hnode]
      rw [append_assoc]
    · rw [raxRemoveChild, RaxNode.count, herase, raxEdgeCount_append, RaxFrame.count, hnode]
    · exact .normal (hsort.sublist (eraseIdx_sublist ..)) (fun e he => (hmem e he).1) fun e he => (hmem e he).2
    intro hend
    rw [raxRemoveChild]
    cases hk : hdr.iskey with
    | true => exact live_of_iskey hk
    | false =>
      -- two children or more, so that one stays
      have hlen : (es.eraseIdx f.idx).length = es.length - 1 := length_eraseIdx_of_lt hj
      have hsize : es.length ≠ 1 := ((endsChain_iff.1 hend).resolve_left (hk ▸ Bool.false_ne_true)).2
      cases herase' : es.eraseIdx f.idx with
      | nil =>
        rw [herase', length_nil] at hlen
        omega
      | cons => trivial
  | compr hdr cs child =>
    have hentry : (if hdr.iskey then raxSetData ⟨hdr.iskey, false, hdr.data⟩ (raxGetData hdr)
        else (⟨hdr.iskey, false, hdr.data⟩ : RaxHdr V)).entry = hdr.entry := by
      obtain ⟨k, nl, v⟩ := hdr
      cases k <;> cases nl <;> cases v <;> rfl
    refine ⟨?_, ?_, ?_, ?_⟩
    · rw [raxRemoveChild, entries_normal, raxEdgeEntries, RaxFrame.before, RaxFrame.after, hnode]
      rw [hentry]
    · rw [raxRemoveChild, RaxNode.count, raxEdgeCount, RaxFrame.count, hnode]
    · exact .normal .nil (fun e he => absurd he not_mem_nil) fun e he => absurd he not_mem_nil
    intro hend
    have hk : hdr.iskey = true := (endsChain_iff.1 hend).resolve_right fun h => by cases h.1
    rw [raxRemoveChild, if_pos hk]
    exact iskey_raxSetData _ _

/-! ### Recompression -/

theorem raxCompressStart_spec (h : RaxNode V) (ts : List (RaxFrame V)) (hts : ∀ f ∈ ts, f.WF) (hwf : h.WF)
    (hlive : h.Live) (hend : h.endsChain = false) :
    ∃ start us, raxCompressStart h ts = (start, us) ∧ raxPlug us start = raxPlug ts h ∧ (∀ f ∈ us, f.WF) ∧
      start.WF ∧ start.endsChain = false := by
  induction ts generalizing h with
  | nil => exact ⟨h, [], rfl, rfl, hts, hwf, hend⟩
  | cons f fs ih =>
    have hf := hts f (.head _)
    unfold raxCompressStart
    by_cases hstop : f.node.endsChain = true
    · rw [if_pos hstop]
      exact ⟨h, f :: fs, rfl, rfl, hts, hwf, hend⟩
    rw [if_neg hstop]
    have hstop' : (f.node.setChild f.idx h).endsChain = false := by
      rw [endsChain_setChild]
      exact Bool.not_eq_true _ ▸ hstop
    exact ih _ (fun g hg => hts g (.tail _ hg)) (wf_setChild hf hwf hlive) (live_setChild hf h) hstop'

/-- The chain from a node on: its string, the node at its end and its length. The two scans agree on
it if the string fits in a node. -/
structure RaxChainFrom (n : RaxNode V) (cs : List UInt8) (next : RaxNode V) (k : Nat) : Prop where
  collect : raxCollect n = some (cs, next, k)
  scan : ∀ nodes comprsize, comprsize + cs.length ≤ raxNodeMaxSize + n.size →
    raxScanSize n nodes comprsize = some (nodes + k - 1, comprsize + cs.length - n.size)
  scan_le : ∀ nodes comprsize a b, raxScanSize n nodes comprsize = some (a, b) → a + 1 ≤ nodes + k
  entries : n.entries = next.entries.map (raxUnder cs)
  wf : next.WF
  live : next.Live
  count : n.count = k + next.count
  pos : 1 ≤ k
  length : n.size + k ≤ cs.length + 1

theorem raxChainFrom_cons {child : RaxNode V} (ds : List UInt8)
    (hcollect : raxCollect n = if child.endsChain then some (ds, child, 1)
      else (raxCollect child).map fun (cs, m, k) => (ds ++ cs, m, k + 1))
    (hscan : ∀ nodes comprsize, raxScanSize n nodes comprsize =
      if child.endsChain ∨ comprsize + child.size > raxNodeMaxSize then some (nodes, comprsize)
      else raxScanSize child (nodes + 1) (comprsize + child.size))
    (hent : n.entries = child.entries.map (raxUnder ds)) (hsize : n.size = ds.length)
    (hcount : n.count = 1 + child.count) (hwf : child.WF) (hlive : child.Live)
    (ih : child.endsChain = false → ∃ cs next k, RaxChainFrom child cs next k) :
    ∃ cs next k, RaxChainFrom n cs next k := by
  cases hend : child.endsChain with
  | true =>
    refine ⟨ds, child, 1, ?_, ?_, ?_, hent, hwf, hlive, hcount, le_rfl, by omega⟩
    · rw [hcollect, if_pos hend]
    · intro nodes comprsize _
      rw [hscan, if_pos (.inl hend), hsize]
      simp
    · intro nodes comprsize a b h
      rw [hscan, if_pos (.inl hend)] at h
      cases h
      exact le_rfl
  | false =>
    obtain ⟨cs, next, k, hch⟩ := ih hend
    have hlen := hch.length
    have hpos := hch.pos
    have hone := size_of_not_endsChain hwf hend
    refine ⟨ds ++ cs, next, k + 1, ?_, ?_, ?_, ?_, hch.wf, hch.live, ?_, Nat.le_add_left .., ?_⟩
    · rw [hcollect, hend, if_neg Bool.false_ne_true, hch.collect, map_some]
    · intro nodes comprsize hfit
      rw [length_append] at hfit ⊢
      have hnot : ¬ (child.endsChain = true ∨ comprsize + child.size > raxNodeMaxSize) := by
        rw [hend]
        rintro (h | h)
        · cases h
        · omega
      rw [hscan, if_neg hnot, hch.scan (nodes + 1) (comprsize + child.size) (by omega)]
      congr 2 <;> omega
    · intro nodes comprsize a b h
      rw [hscan] at h
      split at h
      · cases h
        omega
      · have := hch.scan_le _ _ _ _ h
        omega
    · rw [hent, hch.entries, map_raxUnder_map]
    · rw [hcount, hch.count]
      omega
    · rw [length_append]
      omega

theorem raxChainFrom_of_wf (h : n.WF) (hend : n.endsChain = false) : ∃ cs next k, RaxChainFrom n cs next k := by
  induction h with
  | @normal hdr es _ hwf hlive ih =>
    obtain ⟨hk, ⟨_, c, child, heq⟩ | ⟨_, _, _, heq⟩⟩ := exists_of_not_endsChain hend
    · cases heq
      have hmem : (c, child) ∈ [(c, child)] := mem_singleton_self _
      refine raxChainFrom_cons [c] ?_ (fun nodes comprsize => ?_) ?_ rfl ?_ (hwf _ hmem) (hlive _ hmem)
        (ih _ hmem)
      · rfl
      · rw [raxScanSize]
      · rw [entries_eq, entry_of_not_iskey hk]
        simp [RaxNode.subEntries, raxEdgeEntries]
      · rw [RaxNode.count, raxEdgeCount, raxEdgeCount, add_zero]
    · cases heq
  | @compr hdr cs child hlen hwf hlive ih =>
    obtain ⟨hk, -⟩ := exists_of_not_endsChain hend
    refine raxChainFrom_cons cs ?_ (fun nodes comprsize => ?_) ?_ rfl ?_ hwf hlive ih
    · rw [raxCollect]
    · rw [raxScanSize]
    · rw [entries_eq, entry_of_not_iskey hk]
      rfl
    · rw [RaxNode.count]

/-- A rearrangement of the tree `n`, with its number of nodes: it keeps the entries, and it goes
through if the keys fit in a node. -/
structure RaxKept (n : RaxNode V) (res : Option (RaxNode V × Nat)) : Prop where
  kept : ∀ head m, res = some (head, m) → head.entries = n.entries ∧ head.WF ∧ head.count = m
  isSome : (∀ e ∈ n.entries, e.1.length ≤ raxNodeMaxSize) → res.isSome = true

theorem RaxKept.of_some {head : RaxNode V} {m : Nat} (hent : head.entries = n.entries) (hwf : head.WF)
    (hm : head.count = m) : RaxKept n (some (head, m)) := by
  refine ⟨fun head' m' heq => ?_, fun _ => rfl⟩
  cases heq
  exact ⟨hent, hwf, hm⟩

/-- A rearrangement with the start of its recompression. -/
def RaxTidied (n : RaxNode V) (res : Option (RaxNode V × Nat)) (start : Option (RaxNode V)) : Prop :=
  RaxKept n res ∧ ∀ s ∈ start, s.WF ∧ s.endsChain = false

theorem RaxTidied.of_some {head : RaxNode V} {m : Nat} (hent : head.entries = n.entries) (hwf : head.WF)
    (hm : head.count = m) : RaxTidied n (some (head, m)) none :=
  ⟨.of_some hent hwf hm, fun s hs => absurd hs (not_mem_none s)⟩

theorem raxRecompress_tidied {h : RaxNode V} {m : Nat} (hts : ∀ f ∈ ts, f.WF) (hwf : h.WF) (hend : h.endsChain = false)
    (hm : (raxPlug ts h).count = m) :
    RaxTidied (raxPlug ts h) (raxRecompress h ts m) (some (raxCompressStart h ts).1) := by
  obtain ⟨start, us, hstart, hplug, hus, hswf, hsend⟩ :=
    raxCompressStart_spec h ts hts hwf (live_of_not_endsChain hend) hend
  obtain ⟨cs, next, k, hch⟩ := raxChainFrom_of_wf hswf hsend
  have hlen := hch.length
  have hsize := size_of_not_endsChain hswf hsend
  rw [← hplug] at hm ⊢
  -- the string of the chain starts a key
  have hfit : (∀ e ∈ (raxPlug us start).entries, e.1.length ≤ raxNodeMaxSize) → cs.length ≤ raxNodeMaxSize := by
    intro hkeys
    obtain ⟨e, he⟩ := exists_mem_of_ne_nil _ (hch.wf.entries_ne_nil hch.live)
    have hmem : raxUnder (raxPath us) (raxUnder cs e) ∈ (raxPlug us start).entries := by
      rw [entries_plug hus, hch.entries]
      exact mem_append_left _ (mem_append_right _
        (mem_map_of_mem (mem_map_of_mem he)))
    have := hkeys _ hmem
    simp only [raxUnder, length_append] at this
    omega
  have hscan : (∀ e ∈ (raxPlug us start).entries, e.1.length ≤ raxNodeMaxSize) →
      raxScanSize start 1 start.size = some (k, cs.length) := fun hkeys => by
    have := hfit hkeys
    rw [hch.scan 1 start.size (by omega), Nat.add_sub_cancel_left, Nat.add_sub_cancel_left]
  unfold raxRecompress
  rw [hstart]
  refine ⟨?_, fun s hs => ?_⟩
  swap
  · cases hs
    exact ⟨hswf, hsend⟩
  dsimp only
  cases heq : raxScanSize start 1 start.size with
  | none =>
    refine ⟨fun _ _ h => absurd h.symm (some_ne_none _), fun hkeys => ?_⟩
    rw [hscan hkeys] at heq
    cases heq
  | some ab =>
    obtain ⟨nodes, comprsize⟩ := ab
    have hle := hch.scan_le _ _ _ _ heq
    dsimp only
    by_cases hnodes : nodes > 1
    · rw [if_pos hnodes, hch.collect]
      dsimp only
      by_cases hsame : cs.length ≠ comprsize
      · rw [if_pos hsame]
        refine ⟨fun _ _ h => absurd h.symm (some_ne_none _), fun hkeys => ?_⟩
        rw [hscan hkeys] at heq
        cases heq
        exact absurd rfl hsame
      · rw [if_neg hsame]
        refine .of_some ?_ (wf_plug hus (.compr (by omega) hch.wf hch.live) fun _ => trivial) ?_
        · rw [entries_plug hus, entries_plug hus, hch.entries]
          rfl
        · rw [count_plug hus, RaxNode.count]
          rw [count_plug hus, hch.count] at hm
          omega
    · rw [if_neg hnodes]
      exact .of_some rfl (wf_plug hus hswf fun _ => live_of_not_endsChain hsend) hm

/-! ### Cleaning up after a removal -/

theorem raxCleanup_tidied {h : RaxNode V} {m : Nat} (hts : ∀ f ∈ ts, f.WF) (hwf : h.WF) (hk : h.hdr.iskey = false)
    (hm : (raxPlug ts h).count = m) : RaxTidied (raxPlug ts h) (raxCleanup h ts m) (raxCleanupStart h ts m) := by
  unfold raxCleanup raxCleanupStart
  by_cases hsize : h.size = 0
  · rw [if_pos hsize, if_pos hsize]
    -- a childless node: nothing is below it
    obtain ⟨hdr, rfl⟩ : ∃ hdr, h = .normal hdr [] := by
      cases hwf with
      | normal => exact ⟨_, by rw [length_eq_zero_iff.1 hsize]⟩
      | compr hlen =>
        change length _ = 0 at hsize
        omega
    have hent : (RaxNode.normal hdr []).entries = [] := by
      rw [entries_eq, entry_of_not_iskey hk]
      rfl
    rcases ts with - | ⟨f, fs⟩
    · exact .of_some rfl hwf hm
    rw [count_plug hts, RaxNode.count, raxEdgeCount] at hm
    obtain ⟨f', fs', m', heq, hfs', hb, ha, hcount, hstop⟩ := raxUnlink_spec f fs m hts (by omega)
    have hf' := hfs' f' (.head _)
    have hgs : ∀ g ∈ fs', g.WF := fun g hg => hfs' g (.tail _ hg)
    obtain ⟨hnent, hncount, hnwf, hnlive⟩ := raxRemoveChild_spec hf'
    dsimp only
    rw [heq]
    generalize raxRemoveChild f'.node f'.idx = new at *
    have hplug : (raxPlug fs' new).entries = (raxPlug (f :: fs) (.normal hdr [])).entries := by
      rw [entries_plug hgs, entries_plug hts, hent, hnent, map_nil, append_nil, ← hb, ← ha, raxBefore,
        raxAfter, map_append, append_assoc, append_assoc, append_assoc]
    have hpcount : (raxPlug fs' new).count = m' := by
      rw [count_plug hgs]
      rw [raxOutside] at hcount
      omega
    by_cases hnew : new.size = 1 ∧ new.hdr.iskey = false
    · rw [if_pos hnew, if_pos hnew]
      have hend : new.endsChain = false := by
        rw [← Bool.not_eq_true, endsChain_iff]
        rintro (h | h)
        · rw [hnew.2] at h
          cases h
        · exact h.2 hnew.1
      obtain ⟨⟨hkept, hsome⟩, hstart⟩ := raxRecompress_tidied hgs hnwf hend hpcount
      rw [hplug] at hsome
      exact ⟨⟨fun head m heq => hplug ▸ hkept head m heq, hsome⟩, hstart⟩
    · rw [if_neg hnew, if_neg hnew]
      exact .of_some hplug (wf_plug hgs hnwf fun hne => hnlive (hstop.resolve_left hne)) hpcount
  · rw [if_neg hsize, if_neg hsize]
    by_cases hone : h.size = 1
    · rw [if_pos hone, if_pos hone]
      have hend : h.endsChain = false := by
        rw [← Bool.not_eq_true, endsChain_iff]
        rintro (h' | h')
        · rw [hk] at h'
          cases h'
        · exact h'.2 hone
      exact raxRecompress_tidied hts hwf hend hm
    · rw [if_neg hone, if_neg hone]
      refine .of_some rfl (wf_plug hts hwf fun _ => ?_) hm
      cases hwf with
      | @normal hdr es =>
        cases es with
        | nil => exact absurd rfl hsize
        | cons => trivial
      | compr => trivial

/-- `n'` is `n` without the key `t`. -/
structure RaxDrop (n : RaxNode V) (t : List UInt8) (n' : RaxNode V) : Prop where
  wf : n'.WF
  mem : ∀ k v, (k, v) ∈ n'.entries ↔ k ≠ t ∧ (k, v) ∈ n.entries

inductive RaxRemoved (r : Rax V) (s : List UInt8) : Rax V → Option (Option V) → Prop
  | absent : (∀ v, (s, v) ∉ r.head.entries) → RaxRemoved r s r none
  | removed {r' : Rax V} {v : Option V} : (s, v) ∈ r.head.entries → r'.numele = r.numele - 1 →
      r'.numnodes = r'.head.count → RaxDrop r.head s r'.head → RaxRemoved r s r' (some v)

theorem raxRemove_spec {r : Rax V} (h : r.head.WF) (hcount : r.numnodes = r.head.count) (s : List UInt8) :
    (∀ r' old, raxRemove r s = some (r', old) → RaxRemoved r s r' old) ∧
      ((∀ e ∈ r.head.entries, e.1 ≠ s → e.1.length ≤ raxNodeMaxSize) → (raxRemove r s).isSome = true) ∧
      ∀ start ∈ raxRemoveStart r s, start.WF ∧ start.endsChain = false := by
  have hw := raxLowWalk_spec h s
  unfold raxRemove raxRemoveStart
  generalize raxLowWalk r s = w at hw
  obtain ⟨rest, n, j, ts⟩ := w
  obtain ⟨hplace, t, rfl, hstop⟩ := hw
  obtain ⟨hroot, hfs, hwf, -⟩ := hplace.spec h
  dsimp only at hroot hfs hwf hstop ⊢
  have habs : (∀ v, (t, v) ∉ n.entries) → ∀ r' old, some (r, none) = some (r', old) →
      RaxRemoved r (raxPath ts ++ t) r' old := by
    rintro hnone r' old heq
    cases heq
    exact .absent fun v hv => hnone v (by rwa [← hroot, mem_entries_plug hfs] at hv)
  rcases hstop.node_or_absent with ⟨rfl, rfl, rfl⟩ | ⟨hout, hnone⟩
  · cases hk : n.hdr.iskey with
    | false =>
      rw [if_pos (.inr (.inr rfl)), if_pos (.inr (.inr rfl))]
      refine ⟨habs fun v hv => ?_, fun _ => rfl, fun s hs => absurd hs (not_mem_none s)⟩
      rw [mem_entries_nil hwf, hk] at hv
      exact Bool.false_ne_true hv.1
    | true =>
      rw [if_neg (by simp), if_neg (by simp)]
      have hcleared : ∀ k v, (k, v) ∈ (n.withHdr { n.hdr with iskey := false }).entries ↔
          k ≠ [] ∧ (k, v) ∈ n.entries := by
        intro k v
        rw [entries_eq, hdr_withHdr, subEntries_withHdr, entry_of_not_iskey rfl, nil_append, entries_eq n,
          mem_append, mem_entry]
        constructor
        · exact fun hv => ⟨hwf.ne_nil_of_mem_subEntries hv, .inr hv⟩
        · rintro ⟨hne, ⟨-, h0, -⟩ | hv⟩
          · exact absurd h0 hne
          · exact hv
      have hdrop : ∀ k v, (k, v) ∈ (raxPlug ts (n.withHdr { n.hdr with iskey := false })).entries ↔
          k ≠ raxPath ts ++ [] ∧ (k, v) ∈ r.head.entries := by
        intro k v
        rw [← hroot]
        by_cases hp : raxPath ts <+: k
        · obtain ⟨k, rfl⟩ := hp
          rw [mem_entries_plug hfs, mem_entries_plug hfs, hcleared, ne_eq, ne_eq, append_right_inj]
        · have hne : k ≠ raxPath ts ++ [] := fun heq => hp ⟨[], heq.symm⟩
          rw [mem_entries_plug_ne hfs n hp]
          simp only [ne_eq, hne, not_false_eq_true, true_and]
      obtain ⟨⟨hkept, hsome⟩, hstart⟩ := raxCleanup_tidied (m := r.numnodes) hfs
        (wf_withHdr hwf { n.hdr with iskey := false }) (by rw [hdr_withHdr])
        (by rw [hcount, ← hroot, count_plug hfs, count_plug hfs, count_withHdr])
      refine ⟨?_, fun hkeys => ?_, hstart⟩
      · intro r' old heq
        obtain ⟨⟨head, m'⟩, hclean, heq⟩ := map_eq_some_iff.1 heq
        cases heq
        obtain ⟨hent, hwf', hcount'⟩ := hkept head m' hclean
        refine .removed ?_ rfl hcount'.symm ⟨hwf', fun k v => ?_⟩
        · rw [← hroot, mem_entries_plug hfs, mem_entries_nil hwf]
          exact ⟨hk, rfl⟩
        · rw [← hdrop, ← hent]
      · have hfit : ∀ e ∈ (raxPlug ts (n.withHdr { n.hdr with iskey := false })).entries, e.1.length ≤ raxNodeMaxSize :=
          fun e he => ((hdrop e.1 e.2).1 he).elim fun hne he => hkeys e he hne
        rw [isSome_map]
        exact hsome hfit
  · have hcond : rest ≠ [] ∨ (n.iscompr = true ∧ j ≠ 0) ∨ n.hdr.iskey = false := by
      rcases hout with h | h
      · exact .inl h
      · exact .inr (.inl h)
    rw [if_pos hcond, if_pos hcond]
    exact ⟨habs hnone, fun _ => rfl, fun s hs => absurd hs (not_mem_none s)⟩

end Redis
