import Redis.RaxTree

/-! # Walking down a radix tree and inserting

`raxLowWalk_spec` says where the walk for a key stops: `RaxStop` lists the ways. Insertion is local to
the node it stops at: `RaxPut` relates a subtree to the one with a key stored in it, and is carried
through the links above by `RaxPut.plug`. -/

namespace Redis
open List Option RaxNode
variable {V : Type}
variable {s t : List UInt8} {r : Rax V} {n n' : RaxNode V} {v d : Option V} {hdr : RaxHdr V}
variable {es : List (UInt8 × RaxNode V)} {c : UInt8}

/-! ### The walk -/

/-- How the walk stops at a node, with `t` the part of the key below it, `rest` the characters not
walked and `j` the split position. -/
inductive RaxStop : RaxNode V → List UInt8 → List UInt8 → Nat → Prop
  | exact (n : RaxNode V) : RaxStop n [] [] 0
  | inside (hdr : RaxHdr V) (cs : List UInt8) (child : RaxNode V) (j : Nat) : 0 < j → j < cs.length →
      RaxStop (.compr hdr cs child) (cs.take j) [] j
  | split (hdr : RaxHdr V) (cs : List UInt8) (child : RaxNode V) (j : Nat) (d c : UInt8) (s : List UInt8) :
      cs[j]? = some d → d ≠ c → RaxStop (.compr hdr cs child) (cs.take j ++ c :: s) (c :: s) j
  | miss (hdr : RaxHdr V) (es : List (UInt8 × RaxNode V)) (c : UInt8) (s : List UInt8) :
      (∀ e ∈ es, e.1 ≠ c) → RaxStop (.normal hdr es) (c :: s) (c :: s) 0

/-- The walk has stopped, on its way down `root` for the key `s`. -/
structure RaxWalk.Stops (w : RaxWalk V) (root : RaxNode V) (s : List UInt8) : Prop where
  place : RaxPlace root w.node w.stack
  stop : ∃ t, s = raxPath w.stack ++ t ∧ RaxStop w.node t w.rest w.splitpos

theorem raxMatch_spec (cs s : List UInt8) : (raxMatch cs s = cs.length ∧ s = cs ++ s.drop (raxMatch cs s)) ∨
      (raxMatch cs s < cs.length ∧ s.drop (raxMatch cs s) = [] ∧ s = cs.take (raxMatch cs s)) ∨
      ∃ d c s', cs[raxMatch cs s]? = some d ∧ d ≠ c ∧ s.drop (raxMatch cs s) = c :: s' ∧
        s = cs.take (raxMatch cs s) ++ c :: s' := by
  induction cs generalizing s with
  | nil => exact .inl ⟨rfl, rfl⟩
  | cons v vs ih =>
    rcases s with - | ⟨c, s⟩
    · exact .inr (.inl ⟨Nat.succ_pos _, rfl, rfl⟩)
    rw [raxMatch]
    by_cases hvc : v = c
    · subst hvc
      rw [if_pos rfl]
      rcases ih s with ⟨hj, hs⟩ | ⟨hj, hd, hs⟩ | ⟨d, c, s', hget, hdc, hd, hs⟩
      · refine .inl ⟨by rw [hj, length_cons], ?_⟩
        rw [drop_succ_cons, cons_append, ← hs]
      · refine .inr (.inl ⟨Nat.succ_lt_succ hj, hd, ?_⟩)
        rw [take_succ_cons, ← hs]
      · refine .inr (.inr ⟨d, c, s', hget, hdc, hd, ?_⟩)
        rw [take_succ_cons, cons_append, ← hs]
    · rw [if_neg hvc]
      exact .inr (.inr ⟨v, c, s, rfl, hvc, rfl, rfl⟩)

theorem raxLowWalkLoop_stops {root : RaxNode V} (hroot : root.WF) :
    ∀ (fuel : Nat) (h : RaxNode V) (t : List UInt8) (ts : List (RaxFrame V)), t.length ≤ fuel →
      RaxPlace root h ts → s = raxPath ts ++ t → (raxLowWalkLoop fuel h t ts).Stops root s := by
  intro fuel
  induction fuel with
  | zero =>
    intro h t ts ht hplace hs
    obtain rfl := length_eq_zero_iff.1 (Nat.le_zero.1 ht)
    exact ⟨hplace, [], hs, .exact h⟩
  | succ fuel ih =>
    intro h t ts ht hplace hs
    rcases t with - | ⟨c, t⟩
    · exact ⟨hplace, [], hs, .exact h⟩
    cases h with
    | compr hdr cs child =>
      unfold raxLowWalkLoop
      rcases raxMatch_spec cs (c :: t) with ⟨hj, ht'⟩ | ⟨hj, hd, ht'⟩ | ⟨d, c', s', hget, hdc, hd, ht'⟩
      · rw [if_neg (not_not_intro hj)]
        refine ih child _ _ ?_ hplace.chain ?_
        · cases (hplace.spec hroot).2.2.1 with
          | compr hlen =>
            rw [length_drop]
            omega
        · rw [raxPath, RaxFrame.path, hs, append_assoc, ← ht']
      · rw [if_pos (Nat.ne_of_lt hj), hd]
        refine ⟨hplace, c :: t, hs, ?_⟩
        have hpos : 0 < raxMatch cs (c :: t) := by
          refine Nat.pos_of_ne_zero fun h0 => ?_
          rw [h0] at hd
          cases hd
        have hstop := RaxStop.inside hdr cs child _ hpos hj
        rwa [← ht'] at hstop
      · have hjl : raxMatch cs (c :: t) < cs.length := (List.getElem?_eq_some_iff.1 hget).1
        rw [if_pos (Nat.ne_of_lt hjl), hd]
        refine ⟨hplace, c :: t, hs, ?_⟩
        have hstop := RaxStop.split hdr cs child _ d c' s' hget hdc
        rwa [← ht'] at hstop
    | normal hdr es =>
      rw [raxLowWalkLoop]
      split
      next hnone =>
        rw [findIdx?_eq_none_iff] at hnone
        refine ⟨hplace, c :: t, hs, .miss hdr es c t fun e he heq => ?_⟩
        have := hnone e he
        simp [heq] at this
      next j hsome =>
        rw [findIdx?_eq_some_iff_getElem] at hsome
        obtain ⟨hj, hc, -⟩ := hsome
        have hget : es[j]? = some es[j] := getElem?_eq_getElem hj
        rw [hget]
        refine ih _ _ _ (Nat.le_of_succ_le_succ ht) (hplace.edge hget) ?_
        rw [raxPath, RaxFrame.path]
        dsimp only
        rw [hget, hs, append_assoc]
        simp [of_decide_eq_true hc]

theorem raxLowWalk_spec (h : r.head.WF) (s : List UInt8) : (raxLowWalk r s).Stops r.head s :=
  raxLowWalkLoop_stops h s.length r.head s [] le_rfl .head rfl

/-! ### Looking up -/

theorem mem_entries_nil (h : n.WF) : ([], v) ∈ n.entries ↔ n.hdr.iskey = true ∧ v = raxGetData n.hdr := by
  have hsub : ([], v) ∉ n.subEntries := fun hv => h.ne_nil_of_mem_subEntries hv rfl
  simp [entries_eq, mem_entry, hsub]

theorem mem_entries_compr {cs k : List UInt8} (hk : k ≠ []) :
    (k, v) ∈ (compr hdr cs n).entries ↔ ∃ t, k = cs ++ t ∧ (t, v) ∈ n.entries := by
  rw [entries_compr, mem_append, mem_entry, List.mem_map]
  constructor
  · rintro (⟨-, h0, -⟩ | ⟨⟨t, w⟩, ht, heq⟩)
    · exact absurd h0 hk
    · simp only [raxUnder, Prod.mk.injEq] at heq
      exact ⟨t, heq.1.symm, heq.2 ▸ ht⟩
  · rintro ⟨t, rfl, ht⟩
    exact .inr ⟨(t, v), ht, rfl⟩

theorem RaxStop.node_or_absent {rest : List UInt8} {j : Nat} (h : RaxStop n t rest j) : (t = [] ∧ rest = [] ∧ j = 0) ∨
      ((rest ≠ [] ∨ (n.iscompr = true ∧ j ≠ 0)) ∧ ∀ v, (t, v) ∉ n.entries) := by
  cases h with
  | exact => exact .inl ⟨rfl, rfl, rfl⟩
  | inside hdr cs child j hj hlen =>
    refine .inr ⟨.inr ⟨rfl, Nat.ne_of_gt hj⟩, fun v hv => ?_⟩
    have hne : cs.take j ≠ [] := ne_nil_of_length_pos (by rw [length_take]; omega)
    obtain ⟨t', ht, -⟩ := (mem_entries_compr hne).1 hv
    have := congrArg length ht
    simp only [length_take, length_append] at this
    omega
  | split hdr cs child j d c s hget hdc =>
    refine .inr ⟨.inl (cons_ne_nil _ _), fun v hv => ?_⟩
    obtain ⟨t', ht, -⟩ := (mem_entries_compr (by simp)).1 hv
    obtain ⟨hj, hd⟩ := List.getElem?_eq_some_iff.1 hget
    have := congrArg (fun l => l[j]?) ht
    simp only [getElem?_append_left hj, hget] at this
    rw [getElem?_append_right (by rw [length_take]; omega), length_take,
      min_eq_left hj.le, Nat.sub_self] at this
    simp only [getElem?_cons_zero, some.injEq] at this
    exact hdc this.symm
  | miss hdr es c s hmiss =>
    refine .inr ⟨.inl (cons_ne_nil _ _), fun v hv => ?_⟩
    rw [entries_normal, mem_append, mem_entry, mem_raxEdgeEntries] at hv
    rcases hv with ⟨-, h0, -⟩ | ⟨e, he, t', heq, -⟩
    · cases h0
    · exact hmiss e he (cons.inj heq).1.symm

theorem raxFind_spec (h : r.head.WF) : raxFind r s = some v ↔ (s, v) ∈ r.head.entries := by
  have hw := raxLowWalk_spec h s
  rw [raxFind]
  generalize raxLowWalk r s = w at hw
  obtain ⟨hplace, t, rfl, hstop⟩ := hw
  obtain ⟨hroot, hfs, hwf, -⟩ := hplace.spec h
  rw [← hroot, mem_entries_plug hfs]
  rcases hstop.node_or_absent with ⟨rfl, hrest, hj⟩ | ⟨hout, habs⟩
  · rw [mem_entries_nil hwf]
    cases w.node.hdr.iskey
    · simp
    · simp [hrest, hj, @eq_comm _ v]
  · rcases hout with hrest | hj
    · simp [hrest, habs]
    · simp [hj, habs]

/-! ### Storing a key below a node -/

/-- `n'` is `n` with the value `d` stored at the key `t`. -/
structure RaxPut (n : RaxNode V) (t : List UInt8) (d : Option V) (n' : RaxNode V) : Prop where
  wf : n'.WF
  live : n'.Live
  mem : ∀ k v, (k, v) ∈ n'.entries ↔ (k = t ∧ v = d) ∨ (k ≠ t ∧ (k, v) ∈ n.entries)

theorem RaxPut.plug (h : RaxPut n t d n') {fs : List (RaxFrame V)} (hfs : ∀ f ∈ fs, f.WF) :
    RaxPut (raxPlug fs n) (raxPath fs ++ t) d (raxPlug fs n') := by
  refine ⟨wf_plug hfs h.wf fun _ => h.live, live_plug hfs h.live, fun k v => ?_⟩
  by_cases hk : raxPath fs <+: k
  · obtain ⟨k, rfl⟩ := hk
    rw [mem_entries_plug hfs, mem_entries_plug hfs, h.mem]
    simp
  · have hne : k ≠ raxPath fs ++ t := fun heq => hk ⟨t, heq.symm⟩
    rw [mem_entries_plug_ne hfs n hk]
    simp [hne]

theorem entry_raxSetData (hdr : RaxHdr V) (d : Option V) : (raxSetData hdr d).entry = [([], d)] := by
  cases d <;> rfl

theorem RaxPut.congr {m : RaxNode V} (h : RaxPut n t d n') (heq : n.entries = m.entries) : RaxPut m t d n' :=
  ⟨h.wf, h.live, heq ▸ h.mem⟩

theorem RaxPut.of_insert {A B : List (List UInt8 × Option V)} (hwf : n'.WF) (hlive : n'.Live)
    (hn : n.entries = A ++ B) (hn' : n'.entries = A ++ (t, d) :: B) (habs : ∀ v, (t, v) ∉ n.entries) :
    RaxPut n t d n' := by
  refine ⟨hwf, hlive, fun k v => ?_⟩
  have hiff : (k, v) ∈ n'.entries ↔ (k = t ∧ v = d) ∨ (k, v) ∈ n.entries := by
    simp only [hn, hn', mem_append, mem_cons, Prod.mk.injEq]
    exact or_left_comm
  rw [hiff]
  constructor
  · rintro (h | h)
    · exact .inl h
    · exact .inr ⟨fun heq => habs v (heq ▸ h), h⟩
  · rintro (h | ⟨-, h⟩)
    · exact .inl h
    · exact .inr h

/-! ### Node headers and chains -/

theorem hdr_withHdr (n : RaxNode V) (hdr : RaxHdr V) : (n.withHdr hdr).hdr = hdr := by
  cases n <;> rfl

theorem subEntries_withHdr (n : RaxNode V) (hdr : RaxHdr V) : (n.withHdr hdr).subEntries = n.subEntries := by
  cases n <;> rfl

theorem count_withHdr (n : RaxNode V) (hdr : RaxHdr V) : (n.withHdr hdr).count = n.count := by
  cases n <;> simp [RaxNode.withHdr, RaxNode.count]

theorem wf_withHdr (h : n.WF) (hdr : RaxHdr V) : (n.withHdr hdr).WF := by
  cases h with
  | normal hsort hwf hlive => exact .normal hsort hwf hlive
  | compr hlen hwf hlive => exact .compr hlen hwf hlive

theorem live_of_iskey (h : n.hdr.iskey = true) : n.Live := by
  cases n with
  | normal hdr es =>
    cases es with
    | nil => exact h
    | cons => trivial
  | compr => trivial

theorem iskey_raxSetData (hdr : RaxHdr V) (d : Option V) : (raxSetData hdr d).iskey = true := by
  cases d <;> rfl

theorem RaxPut.here (h : n.WF) (d : Option V) : RaxPut n [] d (n.withHdr (raxSetData n.hdr d)) := by
  have hlive : (n.withHdr (raxSetData n.hdr d)).Live :=
    live_of_iskey (by rw [hdr_withHdr, iskey_raxSetData])
  refine ⟨wf_withHdr h _, hlive, fun k v => ?_⟩
  rw [entries_eq, hdr_withHdr, subEntries_withHdr, entry_raxSetData, entries_eq n, mem_append, mem_append,
    mem_entry, mem_singleton, Prod.mk.injEq]
  constructor
  · rintro (h' | h')
    · exact .inl h'
    · exact .inr ⟨h.ne_nil_of_mem_subEntries h', .inr h'⟩
  · rintro (h' | ⟨hne, ⟨-, h0, -⟩ | h'⟩)
    · exact .inl h'
    · exact absurd h0 hne
    · exact .inr h'

theorem entry_copy {hdr' : RaxHdr V} (h : hdr'.iskey = false) :
    (if hdr.iskey then raxSetData hdr' (raxGetData hdr) else hdr').entry = hdr.entry := by
  split
  next hk => rw [entry_raxSetData, RaxHdr.entry, if_pos hk]
  next hk => simp [RaxHdr.entry, h, hk]

section
variable {hdr : RaxHdr V} {cs : List UInt8} {n : RaxNode V}

theorem entries_raxChain (hcs : cs ≠ []) : (raxChain hdr cs n).entries = hdr.entry ++ n.entries.map (raxUnder cs) := by
  unfold raxChain
  split
  · rw [entries_normal, raxEdgeEntries_cons, raxEdgeEntries, append_nil]
  · rw [entries_compr]

theorem count_raxChain : (raxChain hdr cs n).count = 1 + n.count := by
  unfold raxChain
  split
  · rw [RaxNode.count, raxEdgeCount, raxEdgeCount, add_zero]
  · rw [RaxNode.count]

theorem wf_raxChain (hcs : cs ≠ []) (hn : n.WF) (hl : n.Live) : (raxChain hdr cs n).WF := by
  unfold raxChain
  split
  · refine .normal (pairwise_singleton ..) ?_ ?_
    · intro e he
      rw [mem_singleton.1 he]
      exact hn
    · intro e he
      rw [mem_singleton.1 he]
      exact hl
  next hne =>
    refine .compr ?_ hn hl
    rcases cs with _ | ⟨a, _ | ⟨b, cs⟩⟩
    · exact absurd rfl hcs
    · exact absurd rfl (hne a)
    · exact Nat.le_add_left ..

theorem live_raxChain : (raxChain hdr cs n).Live := by
  unfold raxChain
  split <;> trivial

theorem raxChain_frame (hdr : RaxHdr V) (hcs : cs ≠ []) (hn : n.WF) (hl : n.Live) :
    let f : RaxFrame V := ⟨raxChain hdr cs n, 0⟩
    f.WF ∧ f.path = cs ∧ f.before = hdr.entry ∧ f.after = [] ∧ f.count = 1 := by
  have hwf : (raxChain hdr cs n).WF := wf_raxChain hcs hn hl
  unfold raxChain at hwf ⊢
  split
  · refine ⟨.of_normal hwf Nat.one_pos, rfl, ?_, rfl, rfl⟩
    simp [RaxFrame.before, raxEdgeEntries]
  next hne =>
    rcases cs with - | ⟨a, cs⟩
    · exact absurd rfl hcs
    cases cs with
    | nil => exact absurd rfl (hne a)
    | cons b cs => exact ⟨.of_compr 0 (Nat.le_add_left ..), rfl, rfl, rfl, rfl⟩

end

/-! ### The ways to insert -/

section
variable {hdr : RaxHdr V} {cs : List UInt8} {next : RaxNode V} {j : Nat}

theorem raxCut_put (h : (compr hdr cs next).WF) (hj : 0 < j) (hlen : j < cs.length) (d : Option V) :
    RaxPut (.compr hdr cs next) (cs.take j) d (raxCut hdr cs next j d) ∧
      (raxCut hdr cs next j d).count = (compr hdr cs next).count + 1 := by
  cases h with
  | compr _ hwf hlive =>
    have htake : cs.take j ≠ [] := ne_nil_of_length_pos (by rw [length_take]; omega)
    have hdrop : cs.drop j ≠ [] := ne_nil_of_length_pos (by rw [length_drop]; omega)
    have habs := (RaxStop.inside hdr cs next j hj hlen).node_or_absent.resolve_left
      fun h => Nat.ne_of_gt hj h.2.2
    refine ⟨.of_insert
      (wf_raxChain htake (wf_raxChain hdrop hwf hlive) live_raxChain) live_raxChain entries_compr ?_ habs.2, ?_⟩
    · rw [raxCut, entries_raxChain htake, entries_raxChain hdrop, entry_raxSetData, map_append,
        map_raxUnder_map, entry_copy rfl]
      simp [raxUnder]
    · rw [raxCut, count_raxChain, count_raxChain, RaxNode.count]
      omega

/-- The headers of the trimmed node and of the split node hold the key between them. -/
theorem entry_trim :
    (if hdr.iskey = true ∧ hdr.isnull = false then raxSetData ⟨hdr.iskey, hdr.isnull, none⟩ (raxGetData hdr)
      else (⟨hdr.iskey, hdr.isnull, none⟩ : RaxHdr V)).entry = hdr.entry := by
  obtain ⟨k, nl, v⟩ := hdr
  cases k <;> cases nl <;> cases v <;> rfl

theorem raxSplit_post (hwf : next.WF) (hlive : next.Live) (hj : j < cs.length) :
    let post := if cs.length - j - 1 = 0 then next else raxChain raxHdrNew (cs.drop (j + 1)) next
    post.WF ∧ post.Live ∧ post.entries = next.entries.map (raxUnder (cs.drop (j + 1))) ∧
      post.count = next.count + if cs.length - j - 1 = 0 then 0 else 1 := by
  by_cases hpost : cs.length - j - 1 = 0
  · have hnil : cs.drop (j + 1) = [] := drop_eq_nil_of_le (by omega)
    simp only [if_pos hpost, hnil, map_raxUnder_nil]
    exact ⟨hwf, hlive, trivial, rfl⟩
  · have hne : cs.drop (j + 1) ≠ [] := ne_nil_of_length_pos (by rw [length_drop]; omega)
    simp only [if_neg hpost]
    exact ⟨wf_raxChain hne hwf hlive, live_raxChain, entries_raxChain hne, by rw [count_raxChain, add_comm]⟩

/-- Splitting a compressed node at a mismatch: the same entries, with a place where the mismatching
character branches. -/
theorem raxSplit_spec (h : (compr hdr cs next).WF) {c : UInt8} (hget : cs[j]? = some c)
    (ts : List (RaxFrame V)) (m : Nat) :
    ∃ gs hdr' post m', raxSplit hdr cs next j ts m = some (.normal hdr' [(c, post)], gs ++ ts, m') ∧
      (∀ g ∈ gs, g.WF) ∧ raxPath gs = cs.take j ∧ (normal hdr' [(c, post)]).WF ∧
      (raxPlug gs (.normal hdr' [(c, post)])).entries = (compr hdr cs next).entries ∧
      raxOutside gs + (normal hdr' [(c, post)]).count + m = (compr hdr cs next).count + m' := by
  cases h with
  | compr hlen hwf hlive =>
    obtain ⟨hj, rfl⟩ := List.getElem?_eq_some_iff.1 hget
    obtain ⟨hpwf, hplive, hpent, hpcount⟩ := raxSplit_post hwf hlive hj
    unfold raxSplit
    rw [hget]
    dsimp only
    generalize (if cs.length - j - 1 = 0 then next else raxChain raxHdrNew (cs.drop (j + 1)) next) = post at *
    -- the split node is a chain of the one character
    have hswf : ∀ hdr' : RaxHdr V, (raxChain hdr' [cs[j]] post).WF := fun hdr' =>
      wf_raxChain (cons_ne_nil _ _) hpwf hplive
    have hsent : ∀ hdr' : RaxHdr V, (normal hdr' [(cs[j], post)]).entries =
        hdr'.entry ++ next.entries.map (raxUnder (cs.drop j)) := by
      intro hdr'
      rw [entries_normal, raxEdgeEntries_cons, raxEdgeEntries, append_nil, hpent, map_raxUnder_map,
        singleton_append, ← drop_eq_getElem_cons hj]
    have hscount : ∀ hdr' : RaxHdr V, (normal hdr' [(cs[j], post)]).count = 1 + post.count := fun hdr' =>
      (count_raxChain : (raxChain hdr' [cs[j]] post).count = _)
    by_cases hj0 : j = 0
    · subst hj0
      refine ⟨[], _, post, _, rfl, fun g hg => absurd hg not_mem_nil, rfl, hswf _, ?_, ?_⟩
      · rw [raxPlug, hsent, entries_compr, drop_zero]
        simp [entry_copy (rfl : (raxHdrNew : RaxHdr V).iskey = false)]
      · rw [hscount, hpcount, RaxNode.count, raxOutside]
        split <;> omega
    · have htake : cs.take j ≠ [] := ne_nil_of_length_pos (by rw [length_take]; omega)
      simp only [hj0, false_and, if_false]
      obtain ⟨hf, hpath, hbefore, hafter, hcount⟩ := raxChain_frame (n := .normal raxHdrNew [(cs[j], post)])
        (if hdr.iskey = true ∧ hdr.isnull = false then
          raxSetData ⟨hdr.iskey, hdr.isnull, none⟩ (raxGetData hdr) else ⟨hdr.iskey, hdr.isnull, none⟩) htake (hswf _) trivial
      rw [entry_trim] at hbefore
      generalize (RaxFrame.mk (raxChain _ _ _) _ : RaxFrame V) = f at *
      have hfs : ∀ g ∈ [f], g.WF := fun g hg => mem_singleton.1 hg ▸ hf
      refine ⟨[f], raxHdrNew, post, _, rfl, hfs, ?_, hswf _, ?_, ?_⟩
      · rw [raxPath, raxPath, hpath, nil_append]
      · rw [entries_plug hfs, hsent, entries_compr, map_append, raxPath, raxPath, nil_append,
          map_raxUnder_map, hpath]
        simp [raxBefore, raxAfter, raxPath, hbefore, hafter, RaxHdr.entry, raxHdrNew]
      · rw [hscount, hpcount, RaxNode.count, raxOutside, raxOutside]
        split <;> omega

end

theorem raxAddChild_pos (hsort : es.Pairwise fun a b => a.1 < b.1) (hmiss : ∀ e ∈ es, e.1 ≠ c) :
    let pos := (es.findIdx? fun e => decide (c < e.1)).getD es.length
    pos ≤ es.length ∧ (∀ e ∈ es.take pos, e.1 < c) ∧ ∀ e ∈ es.drop pos, c < e.1 := by
  obtain ⟨htake, hdrop⟩ := findIdx_split (p := fun e => decide (c < e.1)) hsort fun a b hab h =>
    decide_eq_true (UInt8.lt_trans (of_decide_eq_true h) hab)
  rw [← findIdx_eq_getD_findIdx?]
  refine ⟨findIdx_le_length, fun e he => ?_, fun e he => of_decide_eq_true (hdrop e he)⟩
  exact UInt8.lt_of_le_of_ne (UInt8.not_lt.1 (of_decide_eq_false (htake e he))) (hmiss e (mem_of_mem_take he))

/-- A link that `raxGenericInsert` makes from the node `h` to a new leaf. -/
structure RaxNewLink (f : RaxFrame V) (h : RaxNode V) (s : List UInt8) : Prop where
  wf : f.WF
  path : f.path = s
  entries : f.before ++ f.after = h.entries
  count : f.count = h.count

theorem raxAddChild_spec (h : (normal hdr es).WF) (hmiss : ∀ e ∈ es, e.1 ≠ c) :
    ∃ newh pos, raxAddChild (.normal hdr es) c = some (newh, pos) ∧ RaxNewLink ⟨newh, pos⟩ (.normal hdr es) [c] := by
  refine ⟨_, _, rfl, ?_⟩
  cases h with
  | normal hsort hwf hlive =>
    obtain ⟨hpos, hlt, hgt⟩ := raxAddChild_pos hsort hmiss
    generalize (es.findIdx? fun e => decide (c < e.1)).getD es.length = pos at *
    have hlen : (es.take pos).length = pos := by rw [length_take, min_eq_left hpos]
    have hins : es.insertIdx pos (c, raxNewLeaf) = es.take pos ++ (c, raxNewLeaf) :: es.drop pos :=
      insertIdx_eq_take_drop _ _ hpos
    have htake : (es.take pos ++ (c, raxNewLeaf) :: es.drop pos).take pos = es.take pos := take_left' hlen
    have hdrop : (es.take pos ++ (c, raxNewLeaf) :: es.drop pos).drop (pos + 1) = es.drop pos := by
      rw [drop_append, hlen]
      simp
    have hpath : (es.take pos ++ (c, raxNewLeaf) :: es.drop pos)[pos]? = some (c, (raxNewLeaf : RaxNode V)) := by
      rw [getElem?_append_right hlen.le, hlen, Nat.sub_self]
      rfl
    rw [hins]
    refine ⟨⟨?_, ?_⟩, ?_, ?_, ?_⟩
    · rintro hdr' es' heq
      cases heq
      refine ⟨?_, ?_, ?_⟩
      · simp only [length_append, length_cons, hlen]
        omega
      · rw [← take_append_drop pos es, pairwise_append] at hsort
        rw [pairwise_append, pairwise_cons]
        refine ⟨hsort.1, ⟨fun e he => hgt e he, hsort.2.1⟩, fun a ha b hb => ?_⟩
        rcases mem_cons.1 hb with rfl | hb
        · exact hlt a ha
        · exact hsort.2.2 a ha b hb
      · rw [htake, hdrop, take_append_drop]
        exact fun e he => ⟨hwf e he, hlive e he⟩
    · rintro hdr' cs' n' heq
      cases heq
    · rw [RaxFrame.path]
      dsimp only
      rw [hpath]
      rfl
    · rw [RaxFrame.before, RaxFrame.after]
      dsimp only
      rw [htake, hdrop, append_assoc, ← raxEdgeEntries_append, take_append_drop, entries_normal]
    · rw [RaxFrame.count]
      dsimp only
      rw [htake, hdrop, ← raxEdgeCount_append, take_append_drop, RaxNode.count]

theorem raxCompressNode_spec (hdr : RaxHdr V) (hs : 2 ≤ s.length) :
    ∃ newh, raxCompressNode (.normal hdr []) s = some newh ∧ RaxNewLink ⟨newh, 0⟩ (.normal hdr []) s := by
  refine ⟨_, rfl, .of_compr 0 hs, rfl, ?_, ?_⟩
  · rw [RaxFrame.before, RaxFrame.after, entries_normal, raxEdgeEntries]
    dsimp only
    split
    next hk => rw [entry_raxSetData, RaxHdr.entry, if_pos hk]
    · rfl
  · rw [RaxFrame.count, RaxNode.count, raxEdgeCount]

/-- The links the insertion loop makes below `h`: they spell the rest of the key and add nothing but
the last leaf. -/
theorem raxInsertLoop_spec :
    ∀ (fuel : Nat) (hdr : RaxHdr V) (es : List (UInt8 × RaxNode V)) (s : List UInt8) (ts : List (RaxFrame V))
      (m : Nat), s.length ≤ fuel → s ≠ [] → (normal hdr es).WF → (∀ c t, s = c :: t → ∀ e ∈ es, e.1 ≠ c) →
      ∃ gs m', raxInsertLoop fuel (.normal hdr es) s ts m = some (raxNewLeaf, gs ++ ts, m') ∧
        (∀ g ∈ gs, g.WF) ∧ raxPath gs = s ∧ raxBefore gs ++ raxAfter gs = (normal hdr es).entries ∧
        raxOutside gs + 1 + m = (normal hdr es).count + m' := by
  intro fuel
  induction fuel with
  | zero =>
    intro hdr es s ts m hlen hs
    exact absurd (length_eq_zero_iff.1 (Nat.le_zero.1 hlen)) hs
  | succ fuel ih =>
    intro hdr es s ts m hlen hs hwf hmiss
    rcases s with - | ⟨c, s⟩
    · exact absurd rfl hs
    -- one link, then the rest below the leaf it leads to
    have hstep : ∀ (f : RaxFrame V) (s₁ s₂ : List UInt8), c :: s = s₁ ++ s₂ → s₁ ≠ [] →
        RaxNewLink f (.normal hdr es) s₁ →
        ∃ gs m', raxInsertLoop fuel raxNewLeaf s₂ (f :: ts) (m + 1) = some (raxNewLeaf, gs ++ ts, m') ∧
          (∀ g ∈ gs, g.WF) ∧ raxPath gs = c :: s ∧
          raxBefore gs ++ raxAfter gs = (normal hdr es).entries ∧
          raxOutside gs + 1 + m = (normal hdr es).count + m' := by
      intro f s₁ s₂ heq hs₁ hf
      by_cases hs₂ : s₂ = []
      · subst hs₂
        refine ⟨[f], m + 1, ?_, ?_, ?_, ?_, ?_⟩
        · unfold raxInsertLoop
          rfl
        · exact fun g hg => mem_singleton.1 hg ▸ hf.wf
        · rw [heq, raxPath, raxPath, hf.path, nil_append, append_nil]
        · simp [raxBefore, raxAfter, raxPath, hf.entries]
        · rw [raxOutside, raxOutside, hf.count]
          omega
      · have hlen₂ : s₂.length ≤ fuel := by
          have := congrArg length heq
          have := length_pos_of_ne_nil hs₁
          simp only [length_cons, length_append] at *
          omega
        obtain ⟨gs, m', hloop, hgs, hpath, hent, hcount⟩ :=
          ih raxHdrNew [] s₂ (f :: ts) (m + 1) hlen₂ hs₂
            (.normal .nil (fun e he => absurd he not_mem_nil) fun e he => absurd he not_mem_nil)
            fun c t _ e he => absurd he not_mem_nil
        obtain ⟨hb, ha⟩ : raxBefore gs = [] ∧ raxAfter gs = [] :=
          append_eq_nil_iff.1 (hent.trans rfl)
        refine ⟨gs ++ [f], m', ?_, ?_, ?_, ?_, ?_⟩
        · rw [append_assoc]
          exact hloop
        · intro g hg
          rcases mem_append.1 hg with hg | hg
          · exact hgs g hg
          · exact mem_singleton.1 hg ▸ hf.wf
        · rw [raxPath_append, raxPath, raxPath, hpath, hf.path, heq, nil_append]
        · rw [raxBefore_append, raxAfter_append, hb, ha]
          simp [raxBefore, raxAfter, raxPath, hf.entries]
        · rw [raxOutside_append, raxOutside, raxOutside, hf.count]
          rw [RaxNode.count, raxEdgeCount] at hcount
          omega
    unfold raxInsertLoop
    dsimp only
    split
    next hsize =>
      obtain ⟨hsize, hgt⟩ := hsize
      obtain rfl : es = [] := length_eq_zero_iff.1 hsize
      have hcompr : 2 ≤ ((c :: s).take (min (c :: s).length raxNodeMaxSize)).length := by
        rw [length_take, raxNodeMaxSize]
        omega
      obtain ⟨newh, heq, hf⟩ := raxCompressNode_spec hdr hcompr
      rw [heq]
      exact hstep _ _ _ (take_append_drop _ _).symm (ne_nil_of_length_pos (by omega)) hf
    · obtain ⟨newh, pos, heq, hf⟩ := raxAddChild_spec hwf (hmiss c s rfl)
      rw [heq]
      exact hstep _ _ _ rfl (cons_ne_nil _ _) hf

theorem raxInsertRest_spec (ts : List (RaxFrame V)) (d : Option V) (hwf : (normal hdr es).WF)
    (hmiss : ∀ e ∈ es, e.1 ≠ c) :
    ∃ n' m', raxInsertRest r (.normal hdr es) (c :: s) ts d = some ⟨raxPlug ts n', r.numele + 1, m'⟩ ∧
      RaxPut (.normal hdr es) (c :: s) d n' ∧ n'.count + r.numnodes = (normal hdr es).count + m' := by
  obtain ⟨gs, m', hloop, hgs, hpath, hent, hcount⟩ :=
    raxInsertLoop_spec (c :: s).length hdr es (c :: s) ts r.numnodes le_rfl (cons_ne_nil _ _) hwf
      fun c' t heq => by
        cases heq
        exact hmiss
  have habs := (RaxStop.miss hdr es c s hmiss).node_or_absent.resolve_left fun h => cons_ne_nil _ _ h.1
  have hleaf : (normal (raxSetData raxHdrNew d) []).WF :=
    .normal .nil (fun e he => absurd he not_mem_nil) fun e he => absurd he not_mem_nil
  have hlive : (normal (raxSetData raxHdrNew d) []).Live := iskey_raxSetData raxHdrNew d
  refine ⟨raxPlug gs (.normal (raxSetData raxHdrNew d) []), m', ?_, ?_, ?_⟩
  · rw [raxInsertRest, hloop]
    dsimp only
    rw [raxPlug_append]
    rfl
  · refine .of_insert (wf_plug hgs hleaf fun _ => hlive) (live_plug hgs hlive) hent.symm ?_ habs.2
    rw [entries_plug hgs, entries_normal, raxEdgeEntries, entry_raxSetData, hpath]
    simp [raxUnder]
  · rw [count_plug hgs, RaxNode.count, raxEdgeCount]
    omega

theorem RaxPut.self (h : n.WF) (hk : n.hdr.iskey = true) : RaxPut n [] (raxGetData n.hdr) n := by
  refine ⟨h, live_of_iskey hk, fun k v => ?_⟩
  by_cases hk0 : k = []
  · subst hk0
    simp [mem_entries_nil h, hk]
  · simp [hk0]

/-- What an insertion has done: the key was there, with its old value, or it is new. -/
inductive RaxInserted (r : Rax V) (s : List UInt8) (d : Option V) (overwrite : Bool) :
    Rax V → Bool → Option (Option V) → Prop
  | old {r' : Rax V} {v : Option V} : (s, v) ∈ r.head.entries → r'.numele = r.numele →
      RaxPut r.head s (if overwrite then d else v) r'.head → RaxInserted r s d overwrite r' false (some v)
  | new {r' : Rax V} : (∀ v, (s, v) ∉ r.head.entries) → r'.numele = r.numele + 1 →
      RaxPut r.head s d r'.head → RaxInserted r s d overwrite r' true none

theorem raxGenericInsert_spec (h : r.head.WF) (hcount : r.numnodes = r.head.count) (s : List UInt8) (d : Option V)
    (overwrite : Bool) : ∃ r' b old, raxGenericInsert r s d overwrite = some (r', b, old) ∧
      RaxInserted r s d overwrite r' b old ∧ r'.numnodes = r'.head.count := by
  have hw := raxLowWalk_spec h s
  unfold raxGenericInsert
  generalize raxLowWalk r s = w at hw
  obtain ⟨rest, n, j, ts⟩ := w
  obtain ⟨head, numele, numnodes⟩ := r
  obtain ⟨hplace, t, rfl, hstop⟩ := hw
  obtain ⟨hroot, hfs, hwf, -⟩ := hplace.spec h
  dsimp only at hroot hfs hwf hstop hcount ⊢
  subst hroot
  rw [count_plug hfs] at hcount
  -- a put at the node is a put in the tree, and only its nodes are new
  have hput : ∀ {d n'}, RaxPut n t d n' → RaxPut (raxPlug ts n) (raxPath ts ++ t) d (raxPlug ts n') :=
    fun h => h.plug hfs
  have habs : (∀ v, (t, v) ∉ n.entries) → ∀ v, (raxPath ts ++ t, v) ∉ (raxPlug ts n).entries :=
    fun h v hv => h v ((mem_entries_plug hfs).1 hv)
  have hout := hstop.node_or_absent
  cases hstop with
  | exact =>
    rw [if_pos ⟨rfl, .inr rfl⟩]
    cases hk : n.hdr.iskey with
    | true =>
      have hold : (raxPath ts ++ [], raxGetData n.hdr) ∈ (raxPlug ts n).entries :=
        (mem_entries_plug hfs).2 ((mem_entries_nil hwf).2 ⟨hk, rfl⟩)
      refine ⟨_, _, _, rfl, .old hold rfl ?_, ?_⟩
      · cases overwrite with
        | true => exact hput (.here hwf d)
        | false => exact hput (.self hwf hk)
      · rw [count_plug hfs, hcount]
        cases overwrite
        · rfl
        · rw [if_pos rfl, count_withHdr]
    | false =>
      refine ⟨_, _, _, rfl, .new (habs fun v hv => ?_) rfl (hput (.here hwf d)), ?_⟩
      · rw [mem_entries_nil hwf, hk] at hv
        exact Bool.false_ne_true hv.1
      · rw [count_plug hfs, hcount, count_withHdr]
  | inside hdr cs child j hj hlen =>
    have hj0 : ¬ (([] : List UInt8) = [] ∧ ((compr hdr cs child).iscompr = false ∨ j = 0)) := by
      rintro ⟨-, h | h⟩
      · cases h
      · omega
    obtain ⟨hp, hc⟩ := raxCut_put hwf hj hlen d
    rw [if_neg hj0]
    dsimp only
    refine ⟨_, _, _, rfl, .new (habs (hout.resolve_left fun h => ?_).2) rfl (hput hp), ?_⟩
    · exact Nat.ne_of_gt hj h.2.2
    · rw [count_plug hfs, hcount, hc, add_assoc]
  | split hdr cs child j d' c s hget hdc =>
    dsimp only
    obtain ⟨gs, hdr', post, m, hsplit, hgs, hpath, hswf, hent, hcnt⟩ := raxSplit_spec hwf hget ts numnodes
    rw [hsplit]
    dsimp only
    obtain ⟨n', m', hrest, hp, hcnt'⟩ := raxInsertRest_spec
      (gs ++ ts) d hswf (by
        intro e he
        rw [mem_singleton.1 he]
        exact hdc)
    rw [hrest, raxPlug_append]
    have hp' : RaxPut (.compr hdr cs child) (cs.take j ++ c :: s) d (raxPlug gs n') :=
      hpath ▸ (hp.plug hgs).congr hent
    refine ⟨_, _, _, rfl, .new (habs (hout.resolve_left fun h => ?_).2) rfl (hput hp'), ?_⟩
    · exact cons_ne_nil _ _ h.2.1
    · dsimp only at hcnt' ⊢
      rw [count_plug hfs, count_plug hgs]
      omega
  | miss hdr es c s hmiss =>
    obtain ⟨n', m', hrest, hp, hcnt'⟩ := raxInsertRest_spec
      ts d hwf hmiss
    rw [hrest]
    refine ⟨_, _, _, rfl, .new (habs (hout.resolve_left fun h => ?_).2) rfl (hput hp), ?_⟩
    · exact cons_ne_nil _ _ h.1
    · dsimp only at hcnt' ⊢
      rw [count_plug hfs]
      omega

end Redis
