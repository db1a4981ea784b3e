import Redis.BlockedWrites

/-! # No lost wake-up

`no_lost_wakeup` puts together the commands, which keep `Awake`, and the call of `handleClientsBlockedOnKeys`
that follows each of them. The exception is SORT with STORE over a value of another type, which puts a list
under a key without a signal. A list that is its own target must not expire while it is served. -/

namespace Redis.Blocking
open List Function

section
variable {s s' : Server} {k : Key} {c : Nat} {clock : Nat → Int}

/-! ### Clients -/

/-- What has to hold of a client and the lists when they change for this client only. -/
theorem Index.setClient (h : Index s) {cl : Client} (hcl : s'.clients = update s.clients c cl)
    (hother : ∀ k c', c' ≠ c → (c' ∈ s'.clientsOn k ↔ c' ∈ s.clientsOn k))
    (hself : ∀ k, c ∈ s'.clientsOn k ↔ cl.blocked = true ∧ cl.db = k.1 ∧ k.2 ∈ cl.keys)
    (hnodup : ∀ k, (s'.clientsOn k).Nodup) (hentries : ∀ k, s'.blockingKeys.lookup k ≠ some []) (hkeys : cl.keys.Nodup)
    (hblocked : cl.blocked = true ↔ cl.keys ≠ [])
    (hcount : s'.blockedClients + (s.clients c).blocked.toNat = s.blockedClients + cl.blocked.toNat) : Index s' := by
  have hall : ∀ c', c' = c ∧ s'.clients c' = cl ∨ c' ≠ c ∧ s'.clients c' = s.clients c' := by
    intro c'
    rcases eq_or_ne c' c with rfl | hne
    · exact .inl ⟨rfl, by rw [hcl, update_self]⟩
    · exact .inr ⟨hne, by rw [hcl, update_of_ne hne]⟩
  refine ⟨fun k c' => ?_, hnodup, hentries, fun c' => ?_, fun c' => ?_, ?_⟩
  · rcases hall c' with ⟨rfl, heq⟩ | ⟨hne, heq⟩
    · rw [heq]
      exact hself k
    · rw [heq, hother k c' hne]
      exact h.waits k c'
  · rcases hall c' with ⟨-, heq⟩ | ⟨-, heq⟩
    · rwa [heq]
    · rw [heq]
      exact h.keysNodup c'
  · rcases hall c' with ⟨-, heq⟩ | ⟨-, heq⟩
    · rwa [heq]
    · rw [heq]
      exact h.keys c'
  · obtain ⟨B, hB, hmem⟩ := h.counted
    refine ⟨if cl.blocked then insert c B else B.erase c, ?_, fun c' => ?_⟩
    · rw [apply_ite Finset.card, Finset.card_insert_eq_ite, Finset.card_erase_eq_ite]
      cases hb : cl.blocked <;> cases hb' : (s.clients c).blocked <;> simp [hmem, hb, hb'] at hcount ⊢ <;> omega
    rcases hall c' with ⟨rfl, heq⟩ | ⟨hne, heq⟩
    · rw [heq]
      split <;> simp [*]
    · rw [heq, ← hmem c']
      split <;> simp [hne]

theorem Ok.setClients {b : AList fun _ : Key => List Nat} {cl : Nat → Client} {n : Nat} (h : Ok s)
    (hi : Index { s with blockingKeys := b, clients := cl, blockedClients := n })
    (hq : ∀ k, (b.lookup k).getD [] ≠ [] → s.contents k ≠ [] → s.clientsOn k ≠ []) :
    Ok { s with blockingKeys := b, clients := cl, blockedClients := n } :=
  ⟨⟨hi, ⟨h.consistent.ready.ready, h.consistent.ready.nodup⟩, h.consistent.nonempty⟩,
    fun k hk hc => h.awake k (hq k hk hc) hc⟩

theorem unblockClient_ok (h : Ok s) (hc : (s.clients c).blocked = true) : ∃ s', unblockClient c s = .ok s' ∧ Ok s' := by
  have hi := h.consistent.index
  obtain ⟨s', hs', hl, hframe⟩ := unblockClient_spec hi hc
  have hindex : Index s' := by
    refine hi.setClient hl.clients (fun k c' hne => ?_) (fun k => ?_) (fun k => ?_) hl.entries nodup_nil (by simp) ?_
    · rw [hl.queues k]
      exact mem_erase_of_ne hne
    · rw [hl.queues k, (hi.nodup k).mem_erase_iff]
      simp
    · rw [hl.queues k]
      exact (hi.nodup k).erase c
    obtain ⟨B, hB, hmem⟩ := hi.counted
    have hpos := Finset.card_pos.2 ⟨c, (hmem c).2 hc⟩
    rw [hl.blockedClients, hc]
    simp
    omega
  refine ⟨s', hs', ?_⟩
  rw [hframe] at hindex ⊢
  refine h.setClients hindex fun k hk _ hnil => hk ?_
  have hq := hl.queues k
  rwa [hnil] at hq

theorem blockForKey_loop (names : List Nat) : ∀ {s : Server}, (∀ k, s.blockingKeys.lookup k ≠ some []) →
    (s.clients c).keys.Nodup → ∃ ks b,
      names.foldl (blockForKey c) s = { s with
        clients := update s.clients c { s.clients c with keys := ks }, blockingKeys := b } ∧
      ks.Nodup ∧ (∀ name, name ∈ ks ↔ name ∈ (s.clients c).keys ∨ name ∈ names) ∧ (∀ k, b.lookup k ≠ some []) ∧
      ∀ k, (b.lookup k).getD [] = s.clientsOn k ++
        if k.1 = (s.clients c).db ∧ k.2 ∉ (s.clients c).keys ∧ k.2 ∈ names then [c] else [] := by
  induction names with
  | nil =>
    intro s hentries hnodup
    refine ⟨(s.clients c).keys, s.blockingKeys, ?_, hnodup, fun name => ?_, hentries, fun k => ?_⟩
    · rw [update_eq_self]
      rfl
    · exact ⟨.inl, fun h => h.resolve_right not_mem_nil⟩
    · rw [if_neg fun h => not_mem_nil h.2.2, append_nil]
      rfl
  | cons name names ih =>
    intro s hentries hnodup
    rw [foldl_cons]
    by_cases hname : name ∈ (s.clients c).keys
    · have hskip : blockForKey c s name = s := by
        unfold blockForKey
        rw [if_pos (contains_iff_mem.2 hname)]
      rw [hskip]
      obtain ⟨ks, b, hb, h₁, h₂, h₃, h₄⟩ := ih hentries hnodup
      refine ⟨ks, b, hb, h₁, fun n => ?_, h₃, fun k => ?_⟩
      · rw [h₂ n, mem_cons]
        constructor
        · exact fun h => h.imp_right .inr
        rintro (h | rfl | h)
        · exact .inl h
        · exact .inl hname
        · exact .inr h
      · rw [h₄ k]
        congr 2
        simp only [mem_cons, eq_iff_iff]
        refine and_congr_right fun _ => and_congr_right fun hn => ⟨.inr, fun h => h.resolve_left ?_⟩
        rintro rfl
        exact hn hname
    · obtain ⟨db, hdb⟩ : ∃ db, db = (s.clients c).db := ⟨_, rfl⟩
      obtain ⟨s₁, hs₁⟩ : ∃ s₁ : Server, s₁ = { s with
        clients := update s.clients c { s.clients c with keys := (s.clients c).keys ++ [name] }
        blockingKeys := s.blockingKeys.insert (db, name) (s.clientsOn (db, name) ++ [c]) } := ⟨_, rfl⟩
      have hadd : blockForKey c s name = s₁ := by
        unfold blockForKey
        rw [if_neg fun h => hname (contains_iff_mem.1 h), hs₁, hdb]
      have hc₁ : s₁.clients c = { s.clients c with keys := (s.clients c).keys ++ [name] } := by
        rw [hs₁]
        exact update_self ..
      have hq₁ : ∀ k, s₁.clientsOn k = s.clientsOn k ++ if k = (db, name) then [c] else [] := by
        intro k
        rw [hs₁, Server.clientsOn]
        split
        next hk =>
          rw [hk, AList.lookup_insert]
          rfl
        next hk =>
          rw [AList.lookup_insert_ne hk, append_nil]
          rfl
      rw [hadd]
      obtain ⟨ks, b, hb, h₁, h₂, h₃, h₄⟩ := ih (s := s₁)
        (by
          intro k
          rw [hs₁]
          rcases eq_or_ne k (db, name) with rfl | hk
          · rw [AList.lookup_insert]
            exact fun heq => append_ne_nil_of_right_ne_nil _ (cons_ne_nil _ _) (Option.some.inj heq)
          · rw [AList.lookup_insert_ne hk]
            exact hentries k)
        (by
          rw [hc₁]
          refine nodup_append.2 ⟨hnodup, nodup_singleton _, fun a ha b hb hab => hname ?_⟩
          rw [← mem_singleton.1 hb, ← hab]
          exact ha)
      refine ⟨ks, b, ?_, h₁, fun n => ?_, h₃, fun k => ?_⟩
      · rw [hb, hc₁, hs₁]
        rw [update_idem]
      · rw [h₂ n, hc₁, mem_append, mem_singleton, mem_cons, or_assoc]
      · rw [h₄ k, hq₁ k, hc₁, ← hdb]
        obtain ⟨d, n⟩ := k
        by_cases hd : d = db <;> by_cases hn : n = name <;> simp [hd, hn, hname]

theorem blockForKeys_ok (h : Ok s) {names : List Nat} {target : Option Nat} {head : Bool}
    (hc : (s.clients c).blocked = false) (hne : names ≠ [])
    (hempty : ∀ name ∈ names, s.contents ((s.clients c).db, name) = []) : Ok (blockForKeys c names target head s) := by
  have hi := h.consistent.index
  have hkeys : (s.clients c).keys = [] := by
    by_contra hk
    exact Bool.false_ne_true (hc ▸ (hi.keys c).2 hk)
  obtain ⟨s₁, hs₁⟩ : ∃ s₁ : Server, s₁ = { s with
    clients := update s.clients c { s.clients c with target := target, head := head } } := ⟨_, rfl⟩
  have hc₁ : s₁.clients c = { s.clients c with target := target, head := head } := by
    rw [hs₁]
    exact update_self ..
  obtain ⟨ks, b, hb, h₁, h₂, h₃, h₄⟩ := blockForKey_loop names (s := s₁) (by rw [hs₁]; exact hi.entries)
    (by rw [hc₁]; exact hi.keysNodup c)
  have hblock : blockForKeys c names target head s = { s with
      blockingKeys := b
      clients := update s.clients c { s.clients c with target := target, head := head, keys := ks, blocked := true }
      blockedClients := s.blockedClients + 1 } := by
    unfold blockForKeys
    rw [← hs₁, hb, hc₁, hs₁]
    dsimp only
    rw [update_idem, update_self, update_idem]
  have hmem : ∀ name, name ∈ ks ↔ name ∈ names := by
    intro name
    rw [h₂ name, hc₁, hkeys]
    exact or_iff_right not_mem_nil
  have hq : ∀ k, (b.lookup k).getD [] =
      s.clientsOn k ++ if k.1 = (s.clients c).db ∧ k.2 ∈ names then [c] else [] := by
    intro k
    have hk := h₄ k
    rw [hc₁, hkeys] at hk
    simp only [not_mem_nil, not_false_eq_true, true_and] at hk
    rw [hk, hs₁]
    rfl
  have hnot : ∀ k, c ∉ s.clientsOn k := fun k hm => Bool.false_ne_true (hc ▸ ((hi.waits k c).1 hm).1)
  rw [hblock]
  refine h.setClients (hi.setClient rfl (fun k c' hne => ?_) (fun k => ?_) (fun k => ?_) h₃ h₁ ?_ ?_) fun k hk hcont hnil => ?_
  · rw [Server.clientsOn, hq k]
    split <;> simp [hne]
  · rw [Server.clientsOn, hq k, mem_append, or_iff_right (hnot k)]
    show _ ↔ true = true ∧ (s.clients c).db = k.1 ∧ k.2 ∈ ks
    rw [hmem, eq_comm (a := (s.clients c).db)]
    split <;> simp [*]
  · rw [Server.clientsOn, hq k]
    split
    · exact nodup_append_comm.2 (nodup_cons.2 ⟨hnot k, hi.nodup k⟩)
    · rw [append_nil]
      exact hi.nodup k
  · obtain ⟨name, hname⟩ := exists_mem_of_ne_nil names hne
    exact ⟨fun _ => ne_nil_of_mem ((hmem name).2 hname), fun _ => rfl⟩
  · rw [hc]
    rfl
  · rw [hq k, hnil] at hk
    split at hk
    next hin => exact hcont (by rw [← hempty k.2 hin.2, ← hin.1])
    · exact hk rfl

theorem lookupKeyWrite_frame {o : Option Value} (h : lookupKeyWrite clock k s = (s', o)) :
    s'.clients = s.clients ∧ ∀ k', s.contents k' = [] → s'.contents k' = [] := by
  unfold lookupKeyWrite at h
  split at h
  · cases h
    refine ⟨rfl, fun k' hnil => ?_⟩
    show Value.elems (update s.dict k none k') = []
    rcases eq_or_ne k' k with rfl | hne
    · rw [update_self]
      rfl
    · rwa [update_of_ne hne]
  · cases h
    exact ⟨rfl, fun _ hnil => hnil⟩

theorem blockingPopLoop_ok {head multi : Bool} {all : List Nat} (hall : all ≠ []) (names : List Nat) :
    ∀ {s : Server}, Ok s → (s.clients c).blocked = false →
      (∀ name ∈ all, name ∈ names ∨ s.contents ((s.clients c).db, name) = []) →
      Ok (blockingPopLoop clock c head multi all names s) := by
  induction names with
  | nil =>
    intro s h hc hnames
    rw [blockingPopLoop]
    split
    · exact h
    · exact blockForKeys_ok h hc hall fun name hn => (hnames name hn).resolve_left not_mem_nil
  | cons name names ih =>
    intro s h hc hnames
    obtain ⟨s₁, hs₁, h₁, -⟩ := lookupKeyWrite_ok h clock ((s.clients c).db, name)
    obtain ⟨hcl, hcont⟩ := lookupKeyWrite_frame hs₁
    have hnext : s₁.contents ((s.clients c).db, name) = [] → Ok (blockingPopLoop clock c head multi all names s₁) := by
      intro hnil
      refine ih h₁ (by rw [hcl, hc]) fun name' hn => ?_
      rw [hcl]
      rcases hnames name' hn with hm | hm
      · rcases mem_cons.1 hm with rfl | hm
        · exact .inr hnil
        · exact .inl hm
      · exact .inr (hcont _ hm)
    rw [blockingPopLoop, hs₁]
    rcases hd : s₁.dict ((s.clients c).db, name) with - | v
    · exact hnext (by rw [Server.contents, hd]; rfl)
    cases v with
    | plain kind => exact h₁
    | list xs =>
      cases xs with
      | nil => exact hnext (contents_of_dict hd)
      | cons x xs => exact popFrom_ok h₁ head hd

theorem brpoplpushCommand_ok (h : Ok s) (hc : (s.clients c).blocked = false) (src dst : Nat) (multi : Bool)
    (hself : src = dst → s.SteadyAt clock ((s.clients c).db, src) (s.ticks + 3)) :
    ∃ s', brpoplpushCommand clock c src dst multi s = .ok s' ∧ Ok s' := by
  obtain ⟨s₁, hs₁, h₁, hfound⟩ := lookupKeyWrite_ok h clock ((s.clients c).db, src)
  obtain ⟨hcl, -⟩ := lookupKeyWrite_frame hs₁
  unfold brpoplpushCommand
  dsimp only
  rw [hs₁]
  cases hd : s₁.dict ((s.clients c).db, src) with
  | none =>
    refine ⟨_, rfl, ?_⟩
    split
    · exact h₁
    refine blockForKeys_ok h₁ (by rw [hcl, hc]) (cons_ne_nil _ _) fun name hn => ?_
    rw [mem_singleton.1 hn, hcl, Server.contents, hd]
    rfl
  | some v =>
    cases v with
    | plain kind => exact ⟨_, rfl, h₁⟩
    | list xs =>
      cases xs with
      | nil => exact absurd hd (h₁.consistent.nonempty _)
      | cons x xs =>
        refine rpoplpushCommand_ok h₁ _ _ fun heq e he j hj i hij hi => ?_
        obtain ⟨-, rfl⟩ := hfound.found hd
        exact hself (Prod.mk.inj heq).2 e he j hj i hij (Nat.le_of_succ_le hi)

theorem select_ok (h : Ok s) (hc : (s.clients c).blocked = false) (db : Nat) :
    Ok { s with clients := update s.clients c { s.clients c with db := db } } := by
  have hi := h.consistent.index
  refine h.setClients (hi.setClient rfl (fun _ _ _ => .rfl) (fun k => ?_) hi.nodup hi.entries (hi.keysNodup c) (hi.keys c) rfl)
    fun _ hk _ => hk
  show c ∈ s.clientsOn k ↔ (s.clients c).blocked = true ∧ _
  rw [hi.waits k c, hc]
  simp

/-! ### Runs -/

/-- A value of another type under a key for which clients wait. -/
def Server.waitsOnPlain (s : Server) (k : Key) : Bool :=
  match s.dict k with
  | some (.plain _) => !(s.clientsOn k).isEmpty
  | _ => false

/-- SORT with STORE does not replace a value of another type under a key for which clients wait, and a list that is
moved to itself does not get to its expire time in between. -/
def Cmd.Safe (clock : Nat → Int) (s : Server) : Cmd → Prop
  | .sortStore k vs => vs ≠ [] → s.waitsOnPlain k = false
  | .rpoplpush src dst => src = dst → s.SteadyAt clock src (s.ticks + 2)
  | .brpoplpush c src dst => src = dst → s.SteadyAt clock ((s.clients c).db, src) (s.ticks + 3)
  | _ => True

theorem sortStore_ok (h : Ok s) {vs : List Elem} (hg : vs ≠ [] → s.waitsOnPlain k = false) :
    ∃ s', sortStore clock k vs s = .ok s' ∧ Ok s' := by
  unfold sortStore
  split
  · exact ⟨_, rfl, h.delete k⟩
  next hvs =>
    refine setKey_ok h (fun heq => hvs (Value.list.inj heq)) fun hk _ => ?_
    have hfree := hg hvs
    rw [Server.waitsOnPlain] at hfree
    rcases hd : s.dict k with - | v
    · exact absurd hd hk
    cases v with
    | list xs =>
      rw [contents_of_dict hd]
      exact .inl (contents_ne_nil h hd)
    | plain kind =>
      rw [hd] at hfree
      exact .inr (by simpa using hfree)

theorem Cmd.run_ok (h : Ok s) (multi : Bool) (cmd : Cmd) (hg : cmd.Safe clock s) :
    ∃ s', cmd.run clock multi s = .ok s' ∧ Ok s' := by
  cases cmd with
  | push k vs head => exact pushGenericCommand_ok h vs head
  | pop k head => exact ⟨_, rfl, popGenericCommand_ok h head⟩
  | rpoplpush src dst => exact rpoplpushCommand_ok h src dst hg
  | rename db src dst nx => exact renameGenericCommand_ok h _ _ nx
  | move src db => exact moveCommand_ok h src db
  | expire k when => exact ⟨_, rfl, expireGenericCommand_ok h when⟩
  | swapdb id1 id2 rank => exact ⟨_, rfl, dbSwapDatabases_ok h id1 id2 rank⟩
  | sortStore k vs => exact sortStore_ok h hg
  | set k kind => exact setKey_ok h nofun fun _ hel => absurd rfl hel
  | del k => exact ⟨_, rfl, h.delete k⟩
  | select c db =>
    refine ⟨_, rfl, ?_⟩
    split
    · exact h
    · exact select_ok h (Bool.eq_false_iff.2 ‹_›) db
  | blockingPop c names head =>
    refine ⟨_, rfl, ?_⟩
    split
    · exact h
    next hno =>
      rw [not_or] at hno
      exact blockingPopLoop_ok hno.2 names h (Bool.eq_false_iff.2 hno.1) fun name hn => .inl hn
  | brpoplpush c src dst =>
    rw [Cmd.run]
    split
    · exact ⟨_, rfl, h⟩
    · exact brpoplpushCommand_ok h (Bool.eq_false_iff.2 ‹_›) src dst multi hg
  | unblock c =>
    rw [Cmd.run]
    split
    · exact unblockClient_ok h ‹_›
    · exact ⟨_, rfl, h⟩

/-- The condition, for each command of a transaction when its turn comes. -/
def SafeAll (clock : Nat → Int) : List Cmd → Server → Prop
  | [], _ => True
  | cmd :: cmds, s => cmd.Safe clock s ∧
    match cmd.run clock true s with
    | .ok s' => SafeAll clock cmds s'
    | .error _ => True

/-- With the condition of `handleClientsBlockedOnKeys` on the state that it finds. -/
def Op.Safe (clock : Nat → Int) (op : Op) (s : Server) : Prop :=
  (match op with
    | .command cmd => cmd.Safe clock s
    | .exec cmds => SafeAll clock cmds s) ∧
  match op.run clock s with
  | .ok s' => SelfTargetsSteady clock s'
  | .error _ => True

theorem exec_ok (cmds : List Cmd) : ∀ {s : Server}, Ok s → SafeAll clock cmds s →
    ∃ s', cmds.foldlM (fun s cmd => cmd.run clock true s) s = .ok s' ∧ Ok s' := by
  induction cmds with
  | nil => exact fun {s} h _ => ⟨s, rfl, h⟩
  | cons cmd cmds ih =>
    intro s h hg
    obtain ⟨s₁, hs₁, h₁⟩ : ∃ s', cmd.run clock true s = .ok s' ∧ Ok s' := cmd.run_ok h true hg.1
    have hrest := hg.2
    rw [hs₁] at hrest
    obtain ⟨s₂, hs₂, h₂⟩ := ih h₁ hrest
    refine ⟨s₂, ?_, h₂⟩
    rw [foldlM_cons, hs₁]
    exact hs₂

theorem Op.run_ok (h : Ok s) (op : Op) (hg : op.Safe clock s) : ∃ s', op.run clock s = .ok s' ∧ Ok s' := by
  cases op with
  | command cmd => exact cmd.run_ok h false hg.1
  | exec cmds => exact exec_ok cmds h hg.1

theorem handleClientsBlockedOnKeys_ok (h : Ok s) (hsteady : SelfTargetsSteady clock s) :
    ∃ s', handleClientsBlockedOnKeys clock (s.blockedClients + 2) s = .ok s' ∧ Ok s' ∧ s'.readyKeys = [] := by
  obtain ⟨s', evs, hs', hinv, hnil⟩ := handle_inv h.consistent.index hsteady (Inv.init h.consistent) le_rfl
  refine ⟨s', hs', ⟨hinv.consistent h.consistent.index, fun k hq hc => ?_⟩, hnil⟩
  have := hinv.awake h.awake k nofun hq hc
  rwa [append_nil] at this

theorem step_ok (h : Ok s) (op : Op) (hg : op.Safe clock s) :
    ∃ s', step clock op s = .ok s' ∧ Ok s' ∧ s'.readyKeys = [] := by
  obtain ⟨s₁, hs₁, h₁⟩ := op.run_ok h hg
  have hsteady := hg.2
  rw [hs₁] at hsteady
  obtain ⟨s₂, hs₂, h₂⟩ := handleClientsBlockedOnKeys_ok h₁ hsteady
  refine ⟨s₂, ?_, h₂⟩
  rw [step, hs₁]
  exact hs₂

end

theorem init_ok : Ok Server.init := by
  refine ⟨⟨⟨fun k c => ?_, fun _ => nodup_nil, fun k => ?_, fun _ => nodup_nil, fun c => ?_, ∅, rfl, fun c => ?_⟩,
    ⟨fun k => ?_, nodup_nil⟩, fun _ => nofun⟩, fun k hk => ?_⟩
  · exact ⟨fun hm => absurd hm not_mem_nil, fun hm => absurd hm.1 Bool.false_ne_true⟩
  · exact nofun
  · exact ⟨fun hf => absurd hf Bool.false_ne_true, fun hf => absurd rfl hf⟩
  · exact ⟨fun hm => absurd hm (Finset.notMem_empty c), fun hf => absurd hf Bool.false_ne_true⟩
  · exact ⟨fun hf => absurd hf Bool.false_ne_true, fun hm => absurd hm not_mem_nil⟩
  · exact absurd rfl hk

/-- After each command, no client is blocked on a key that holds a list with elements. -/
theorem no_lost_wakeup (clock : Nat → Int) (ops : List Op)
    (h : (machine clock).Guarded (Op.Safe clock) ops Server.init) :
    ∃ s rs, (machine clock).run ops Server.init = some (s, rs) ∧
      ∀ c name, (s.clients c).blocked = true → name ∈ (s.clients c).keys →
        ∀ x xs, s.dict ((s.clients c).db, name) ≠ some (.list (x :: xs)) := by
  obtain ⟨s, rs, hrun, hok, hnil⟩ := h.total (I := fun s => Ok s ∧ s.readyKeys = []) ⟨init_ok, rfl⟩ fun {op s} hI hop => by
    obtain ⟨s₁, hs₁, h₁⟩ := step_ok hI.1 op hop
    refine ⟨s₁, (), ?_, h₁⟩
    show (step clock op s).toOption.map _ = _
    rw [hs₁]
    rfl
  refine ⟨s, rs, hrun, fun c name hc hname x xs hd => ?_⟩
  have hin : c ∈ s.clientsOn ((s.clients c).db, name) := (hok.consistent.index.waits _ _).2 ⟨hc, rfl, hname⟩
  have hmem := hok.awake _ (ne_nil_of_mem hin) (by rw [contents_of_dict hd]; exact cons_ne_nil _ _)
  rw [hnil] at hmem
  exact not_mem_nil hmem

instance (clock : Nat → Int) (s : Server) (k : Key) (n : Nat) : Decidable (s.SteadyAt clock k n) :=
  inferInstanceAs (Decidable (∀ e ∈ s.expires k, ∀ j < n, ∀ i < j, s.ticks ≤ i →
    Keyspace.isExpired false (clock i) e = false → Keyspace.isExpired false (clock j) e = false))

instance (clock : Nat → Int) (s : Server) : Decidable (SelfTargetsSteady clock s) :=
  inferInstanceAs (Decidable (∀ k ∈ s.blockingKeys.keys, ∀ c ∈ s.clientsOn k, (s.clients c).target = some k.2 →
    s.SteadyAt clock k s.endTick))

instance (clock : Nat → Int) (s : Server) (cmd : Cmd) : Decidable (cmd.Safe clock s) :=
  match cmd with
  | .rpoplpush _ _ | .sortStore _ _ | .brpoplpush _ _ _ => inferInstanceAs (Decidable (_ → _))
  | .push _ _ _ | .pop _ _ | .rename _ _ _ _ | .move _ _ | .expire _ _ | .swapdb _ _ _ | .set _ _ | .del _
  | .select _ _ | .blockingPop _ _ _ | .unblock _ => isTrue trivial

instance (clock : Nat → Int) : ∀ (cmds : List Cmd) (s : Server), Decidable (SafeAll clock cmds s)
  | [], _ => isTrue trivial
  | cmd :: cmds, s =>
    match hrun : cmd.run clock true s with
    | .ok s' => @decidable_of_iff _ (cmd.Safe clock s ∧ SafeAll clock cmds s') (by rw [SafeAll, hrun])
        (@instDecidableAnd _ _ _ (instDecidableSafeAll clock cmds s'))
    | .error _ => decidable_of_iff (cmd.Safe clock s ∧ True) (by rw [SafeAll, hrun])

instance (clock : Nat → Int) (op : Op) (s : Server) : Decidable (op.Safe clock s) :=
  @instDecidableAnd _ _
    (match op with
      | .command _ => inferInstanceAs (Decidable (Cmd.Safe _ _ _))
      | .exec _ => inferInstanceAs (Decidable (SafeAll _ _ _)))
    (match op.run clock s with
      | .ok _ => inferInstanceAs (Decidable (SelfTargetsSteady _ _))
      | .error _ => isTrue trivial)

/-- Key 4 has an expire time when it is renamed to key 1, for which client 0 waits. -/
theorem no_lost_wakeup_sort :
    ∃ s rs, (machine fun _ => 0).run [.command (.blockingPop 0 [1, 2] true), .command (.brpoplpush 1 2 2),
        .command (.sortStore (0, 2) [[97], [98]]),
        .exec [.push (0, 4) [[99]] true, .expire (0, 4) 5, .rename 0 4 1 false]] Server.init = some (s, rs) ∧
      ∀ c name, (s.clients c).blocked = true → name ∈ (s.clients c).keys →
        ∀ x xs, s.dict ((s.clients c).db, name) ≠ some (.list (x :: xs)) :=
  no_lost_wakeup (fun _ => 0) _ (Machine.guarded_of_check (by decide))

/-- Client 0 waits for key 1, which then gets a string. SORT with STORE overwrites the string with a list, and
the client goes on waiting. -/
theorem lost_wakeup_sort :
    ((machine fun _ => 0).run [.command (.blockingPop 0 [1] true), .command (.set (0, 1) .other),
        .command (.sortStore (0, 1) [[97]])] Server.init).map
      (fun p => ((p.1.clients 0).blocked, (p.1.clients 0).keys, p.1.dict (0, 1))) =
      some (true, [1], some (.list [[97]])) := by
  rfl

end Redis.Blocking
