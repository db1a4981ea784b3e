import Redis.BlockedServe

/-! # The loops of handleClientsBlockedOnKeys

One client is served by one step of `Inv`; from it the loop over the clients of a key, over the ready keys and
over the rounds. A round makes new keys ready only when it has served a client. -/

namespace Redis.Blocking
open List Function AList

section
variable {s₀ s s' : Server} {evs : List Event} {pending : List Key} {k : Key} {c : Nat}
variable {clock : Nat → Int}

/-- When a reading of the clock finds that the key has not expired, no later one before the `n`-th finds that it
has. -/
def Server.SteadyAt (clock : Nat → Int) (s : Server) (k : Key) (n : Nat) : Prop :=
  ∀ e ∈ s.expires k, ∀ j < n, ∀ i < j, s.ticks ≤ i → Keyspace.isExpired false (clock i) e = false →
    Keyspace.isExpired false (clock j) e = false

theorem Server.SteadyAt.next {clock : Nat → Int} {s : Server} {k : Key} (h : s.SteadyAt clock k (s.ticks + 2))
    (hs : s.keyIsExpired clock k = false) : s.tick.keyIsExpired clock k = false := by
  have hsame : s.tick.expires k = s.expires k := rfl
  rw [Server.keyIsExpired] at hs ⊢
  rw [hsame]
  cases he : s.expires k with
  | none => rfl
  | some e =>
    rw [he] at hs
    exact h e he (s.ticks + 1) (by omega) s.ticks (by omega) le_rfl hs

/-- No key that is the target of its own waiting client gets to its expire time during the call. -/
def SelfTargetsSteady (clock : Nat → Int) (s₀ : Server) : Prop :=
  ∀ k ∈ s₀.blockingKeys.keys, ∀ c ∈ s₀.clientsOn k, (s₀.clients c).target = some k.2 →
    s₀.SteadyAt clock k s₀.endTick

/-- The key had not expired at the `i`-th reading of the clock. -/
def Live (clock : Nat → Int) (i : Nat) (k : Key) (s : Server) : Prop :=
  ∀ e, s.expires k = some e → Keyspace.isExpired false (clock i) e = false

theorem moveToTail_length (l r : List Nat) : moveToTail l.length (l ++ r) = r ++ l := by
  induction l generalizing r with
  | nil =>
    cases r <;> simp [moveToTail]
  | cons c l ih =>
    rw [length_cons, cons_append, moveToTail, append_assoc, ih, append_assoc]
    rfl

theorem Inv.start (h : Inv s₀ evs (k :: pending) none s) :
    Inv s₀ evs pending (some k) { s with ready := update s.ready k false } := by
  have hperm : Perm (s.readyKeys ++ k :: pending) (k :: (s.readyKeys ++ pending)) := perm_middle
  obtain ⟨hk, hnodup⟩ := nodup_cons.1 (hperm.nodup_iff.1 h.ready.nodup)
  refine ⟨h.log, h.lists, h.queues, h.entries, h.unserved, h.gone, h.once, h.fifo, h.count, h.expires,
    ⟨(forall_update_iff _ fun k' b => b = true ↔ k' ∈ s.readyKeys ++ pending).2 ⟨?_, fun k' hne => ?_⟩, hnodup⟩,
    fun k' _ => h.nonempty k' nofun, fun hawake k' hk' hq hc => ?_, h.ticks.1,
    (Nat.le_succ _).trans h.ticks.2⟩
  · exact iff_of_false nofun hk
  · rw [h.ready.ready k', hperm.mem_iff, mem_cons]
    exact or_iff_right hne
  · have hm := hperm.mem_iff.1 (h.awake hawake k' nofun hq hc)
    exact (mem_cons.1 hm).resolve_left fun heq => hk' (congrArg some heq.symm)

theorem Inv.finish (h : Inv s₀ evs pending (some k) s) (hne : s.dict k ≠ some (.list []))
    (hend : s.contents k = [] ∨ s.clientsOn k = []) : Inv s₀ evs pending none s := by
  have hcur : ∀ {k'}, k' ≠ k → some k ≠ some k' := fun hne heq => hne (Option.some.inj heq).symm
  refine ⟨h.log, h.lists, h.queues, h.entries, h.unserved, h.gone, h.once, h.fifo, h.count, h.expires, h.ready,
    fun k' _ => ?_, fun hawake k' _ hq hc => ?_, h.ticks⟩
  · rcases eq_or_ne k' k with rfl | hne'
    · exact hne
    · exact h.nonempty k' (hcur hne')
  · rcases eq_or_ne k' k with rfl | hne'
    · exact absurd (hend.resolve_left hc) hq
    · exact h.awake hawake k' (hcur hne') hq hc

theorem Inv.deleteEmpty (h : Inv s₀ evs pending (some k) s) (hk : s.dict k = some (.list [])) :
    Inv s₀ evs pending none (dbDelete k s) := by
  have hcont : (dbDelete k s).contents = s.contents := by
    have : (dbDelete k s).contents = update s.contents k [] := contents_update
    rw [this]
    exact update_eq_self_iff.2 (contents_of_dict hk).symm
  have hdict : (dbDelete k s).dict k = none := update_self ..
  refine Inv.finish (k := k) ⟨h.log, hcont ▸ h.lists, h.queues, h.entries, h.unserved, h.gone, h.once, h.fifo, h.count,
    (forall_update_iff _ fun k' e => e = s₀.expires k' ∨ e = none).2 ⟨.inr rfl, fun k' _ => h.expires k'⟩,
    ⟨h.ready.ready, h.ready.nodup⟩,
    (forall_update_iff _ fun k' v => some k ≠ some k' → v ≠ some (Value.list [])).2
      ⟨fun _ => nofun, fun k' _ => h.nonempty k'⟩,
    fun hawake k' hk' hq hc => ?_, h.ticks⟩ ?_ ?_
  · rw [hcont] at hc
    exact h.awake hawake k' hk' hq hc
  · rw [hdict]
    exact nofun
  · rw [Server.contents, hdict]
    exact .inl rfl

/-- New ready keys come only when a client was served. -/
def Fewer (s s' : Server) : Prop :=
  s'.blockedClients < s.blockedClients ∨ s'.blockedClients = s.blockedClients ∧ s'.readyKeys = s.readyKeys

theorem Fewer.trans {s'' : Server} (h : Fewer s s') (h' : Fewer s' s'') : Fewer s s'' := by
  rcases h with h | ⟨hb, hr⟩ <;> rcases h' with h' | ⟨hb', hr'⟩
  · exact .inl (h'.trans h)
  · exact .inl (hb' ▸ h)
  · exact .inl (hb ▸ h')
  · exact .inr ⟨hb'.trans hb, hr'.trans hr⟩

theorem Inv.init (h : Consistent s) : Inv s [] [] none s := by
  refine ⟨(append_nil _).symm, rfl, fun k => ?_, h.index.entries, fun _ _ => rfl, nofun, nodup_nil, ?_, rfl,
    fun _ => .inl rfl, h.ready, fun k _ => h.nonempty k, fun hawake k _ hq hc => ?_, le_rfl, le_rfl⟩
  · rw [filter_eq_self.2]
    exact fun _ _ => rfl
  · intro A k c v head outcome B heq
    exact absurd heq.symm (append_ne_nil_of_right_ne_nil _ (cons_ne_nil _ _))
  · rw [append_nil]
    exact hawake k hq hc

theorem Inv.consistent (h : Inv s₀ evs [] none s) (h₀ : Index s₀) : Consistent s :=
  ⟨h.index h₀, h.ready, fun k => h.nonempty k nofun⟩

/-- A client was served from the key, whose list is still there: `cs` wait for it now. -/
def Next (clock : Nat → Int) (i : Nat) (k : Key) (cs : List Nat) (s s' : Server) : Prop :=
  (∃ xs, s'.dict k = some (.list xs)) ∧ s'.clientsOn k = cs ∧ Live clock i k s' ∧
    s'.blockedClients < s.blockedClients ∧ s.ticks ≤ s'.ticks

theorem Popped.next {t s₂ : Server} {evs' : List Event} {rest : List Elem} {cs : List Nat} {i : Nat}
    (hp : Popped c k rest t s₂) (h : Inv s₀ evs pending (some k) s) (hq : s.clientsOn k = c :: cs)
    (hlive : Live clock i k t) (hqt : t.clientsOn = s.clientsOn) (h' : Inv s₀ (evs ++ evs') pending (some k) s')
    (hserved : served evs' ≠ []) (hqs : s'.clientsOn = s₂.clientsOn) (hes : s'.expires = s₂.expires)
    (hts : s'.ticks = s₂.ticks) (ht : t.ticks = s.ticks) (hd : ∃ xs, s'.dict k = some (.list xs)) :
    Next clock i k cs s s' := by
  refine ⟨hd, ?_, fun e he => ?_, ?_, by rw [hts, ← ht]; exact hp.ticks.1⟩
  · rw [hqs, hp.queues k, hqt, hq, erase_cons_head]
  · rw [hes, hp.expires] at he
    exact hlive e he
  have hcount := h'.count
  rw [served_append, length_append, ← h.count] at hcount
  have := length_pos_of_ne_nil hserved
  omega

theorem Popped.pushed_next {t s₃ : Server} {es : List Event} {xs rest : List Elem} {v : Elem} {cs : List Nat} {i : Nat}
    {dst : Key} (hp : Popped c k rest t s₃) (h₀ : Index s₀) (h : Inv s₀ evs pending (some k) s)
    (ht : Inv s₀ (evs ++ es) pending (some k) t) (hq : s.clientsOn k = c :: cs) (hqt : t.clientsOn = s.clientsOn)
    (hk : t.dict k = some (.list xs)) (hpop : listTypePop (s.clients c).head xs = some (v, rest))
    (hlive : Live clock i k t) (htt : t.ticks = s.ticks) (hplain : ∀ kind, s₃.dict dst ≠ some (.plain kind)) :
    ∃ s' evs', (rpoplpushHandlePush dst v s₃).map
        (fun s' => s'.record (.served k c v (s.clients c).head (.pushed dst))) = .ok s' ∧
      Inv s₀ (evs ++ evs') pending (some k) s' ∧ Next clock i k cs s s' := by
  obtain ⟨s₄, hs₄, hq₄, he₄, ht₄, hd₄, hinv⟩ := hp.pushed h₀ ht (hqt ▸ hq) hk hpop hplain
  rw [append_assoc] at hinv
  rw [hs₄]
  refine ⟨_, _, rfl, hinv, hp.next h hq hlive hqt hinv ?_ hq₄ he₄ ht₄ htt ?_⟩
  · rw [served_append]
    exact append_ne_nil_of_right_ne_nil _ nofun
  show ∃ xs, s₄.dict k = _
  rw [hd₄]
  rcases eq_or_ne k dst with rfl | hne
  · exact ⟨_, update_self ..⟩
  · rw [update_of_ne hne, hp.dict, update_self]
    exact ⟨rest, rfl⟩

variable (h₀ : Index s₀) (hsteady : SelfTargetsSteady clock s₀)
include h₀ hsteady

/-- A list that is its own target was alive at reading `i`, and it still is when the target is looked up. -/
theorem selfTarget_alive {i : Nat} {s₂ : Server} {rest : List Elem} (h : Inv s₀ evs pending (some k) s)
    (hp : Popped c k rest s s₂) (hmem : c ∈ s.clientsOn k) (htarget : (s.clients c).target = some k.2)
    (hlive : Live clock i k s) (hi : s₀.ticks ≤ i) (his : i < s.ticks) : s₂.keyIsExpired clock k = false := by
  have hindex := h.index h₀
  have hwaits := (hindex.waits k c).1 hmem
  have hsame : s.clients c = s₀.clients c := h.unserved c (h.mem_clientsOn.1 hmem).2
  rw [Server.keyIsExpired, hp.expires]
  rcases he : s.expires k with - | e
  · rfl
  have he₀ : s₀.expires k = some e :=
    (h.expires k).elim (fun heq => heq ▸ he) fun hnone => absurd (hnone ▸ he) nofun
  have hmem₀ : c ∈ s₀.clientsOn k := (h₀.waits k c).2 (hsame ▸ hwaits)
  have hlast : s₂.ticks < s₀.endTick := by
    have hpos := hindex.blockedClients_pos hwaits.1
    have hend := h.ticks.2
    have := hp.ticks.2
    unfold Server.endTick at hend ⊢
    omega
  exact hsteady k (mem_keys_of_mem_clientsOn hmem₀) c hmem₀ (hsame ▸ htarget) e he₀ s₂.ticks hlast i
    (his.trans_le hp.ticks.1) hi (hlive e he)

theorem serveClient_inv {i : Nat} {cs : List Nat}
    {xs rest : List Elem} {v : Elem} (h : Inv s₀ evs pending (some k) s) (hq : s.clientsOn k = c :: cs)
    (hk : s.dict k = some (.list xs)) (hpop : listTypePop (s.clients c).head xs = some (v, rest))
    (hlive : Live clock i k s) (hi : s₀.ticks ≤ i) (his : i < s.ticks) :
    ∃ s₂ s' evs', unblockClient c (s.setValue k (.list rest)) = .ok s₂ ∧
      serveClientBlockedOnList clock k c (s.clients c).target v (s.clients c).head s₂ = .ok s' ∧
      Inv s₀ (evs ++ evs') pending (some k) s' ∧ Next clock i k cs s s' := by
  have hindex := h.index h₀
  have hmem : c ∈ s.clientsOn k := by rw [hq]; exact mem_cons_self
  obtain ⟨hblocked, hdb, -⟩ := (hindex.waits k c).1 hmem
  have hindex' : Index (s.setValue k (.list rest)) :=
    ⟨hindex.waits, hindex.nodup, hindex.entries, hindex.keysNodup, hindex.keys, hindex.counted⟩
  obtain ⟨s₂, hs₂, hleaves, hframe⟩ := unblockClient_spec hindex' hblocked
  have hp : Popped c k rest s s₂ := by
    rw [hframe] at hleaves ⊢
    exact ⟨⟨hleaves.queues, hleaves.entries, hleaves.clients, hleaves.blockedClients⟩, rfl, rfl, rfl, rfl, rfl,
      le_rfl, Nat.le_succ _⟩
  cases htarget : (s.clients c).target with
  | none =>
    have hinv := hp.delivered h₀ h hq hk hpop
    refine ⟨s₂, _, _, hs₂, rfl, hinv, hp.next h hq hlive rfl hinv nofun rfl rfl rfl rfl ⟨rest, ?_⟩⟩
    show s₂.dict k = _
    rw [hp.dict, update_self]
  | some name =>
    have hdst : ((s₂.clients c).db, name) = (k.1, name) := by
      rw [hp.clients, update_self]
      exact congrArg (·, name) hdb
    obtain ⟨dst, hdst'⟩ : ∃ dst : Key, dst = (k.1, name) := ⟨_, rfl⟩
    rw [← hdst'] at hdst
    have hself : dst = k → s₂.keyIsExpired clock dst = false := by
      rintro rfl
      exact selfTarget_alive h₀ hsteady h hp hmem (by rw [htarget, hdst']) hlive hi his
    have hticks : s.ticks ≤ s₂.tick.ticks ∧ s₂.tick.ticks ≤ s.ticks + 1 := by
      have heq : s₂.ticks = s.ticks := by rw [hframe]; rfl
      show s.ticks ≤ s₂.ticks + 1 ∧ s₂.ticks + 1 ≤ s.ticks + 1
      omega
    refine ⟨s₂, ?_⟩
    unfold serveClientBlockedOnList
    dsimp only
    rw [hdst]
    unfold lookupKeyWrite
    by_cases hexp : s₂.keyIsExpired clock dst = true
    · have hne : dst ≠ k := fun heq => absurd (hself heq ▸ hexp) (by decide)
      have hcont : s₂.contents dst = s.contents dst := by
        rw [hp.contents, update_of_ne hne]
      have ht := h.expire dst
      rw [if_pos hexp, hcont]
      have hp' : Popped c k rest ((dbDelete dst s).record (.expired dst (s.contents dst)))
          ((dbDelete dst s₂.tick).record (.expired dst (s.contents dst))) := by
        refine ⟨⟨hp.queues, hp.entries, hp.clients, hp.blockedClients⟩, ?_, ?_, hp.ready, hp.readyKeys, ?_,
          hticks⟩
        · show update s₂.dict dst none = update (update s.dict dst none) k _
          rw [hp.dict, update_comm hne]
        · show update s₂.expires dst none = update s.expires dst none
          rw [hp.expires]
        · show s₂.log ++ _ = s.log ++ _
          rw [hp.log]
      have hk₃ : ((dbDelete dst s₂.tick).record (.expired dst (s.contents dst))).dict k = some (.list rest) := by
        rw [hp'.dict, update_self]
      obtain ⟨s', evs', hs', hrest⟩ := hp'.pushed_next h₀ h ht hq rfl
        (by show update s.dict dst none k = _
            rw [update_of_ne (Ne.symm hne), hk])
        hpop
        (by intro e he
            have he' : update s.expires dst none k = some e := he
            rw [update_of_ne (Ne.symm hne)] at he'
            exact hlive e he')
        rfl
        (by intro kind heq
            have heq' : update s₂.dict dst none dst = some (.plain kind) := heq
            rw [update_self] at heq'
            exact nomatch heq')
      refine ⟨s', evs', hs₂, ?_, hrest⟩
      rw [hk₃]
      exact hs'
    · rw [if_neg hexp]
      have hp' : Popped c k rest s s₂.tick :=
        ⟨⟨hp.queues, hp.entries, hp.clients, hp.blockedClients⟩, hp.dict, hp.expires, hp.ready, hp.readyKeys, hp.log,
          hticks⟩
      have hk₃ : s₂.tick.dict k = some (.list rest) := by rw [hp'.dict, update_self]
      rw [hk₃]
      dsimp only
      by_cases hplain : ∃ kind, s₂.dict dst = some (.plain kind)
      · obtain ⟨kind, hkind⟩ := hplain
        have hinv := hp'.putBack h₀ h hq hk hpop
        exact ⟨_, _, hs₂, by rw [hkind], hinv, hp'.next h hq hlive rfl hinv nofun rfl rfl rfl rfl ⟨_, update_self ..⟩⟩
      have ht : Inv s₀ (evs ++ []) pending (some k) s := by rwa [append_nil]
      obtain ⟨s', evs', hs', hrest⟩ :=
        hp'.pushed_next h₀ h ht hq rfl hk hpop hlive rfl fun kind heq => hplain ⟨kind, heq⟩
      refine ⟨s', evs', hs₂, ?_, hrest⟩
      split
      next kind hkind => exact absurd ⟨kind, hkind⟩ hplain
      · exact hs'

theorem serveClients_inv {i n : Nat} :
    ∀ {s : Server} {evs : List Event} {xs : List Elem}, Inv s₀ evs pending (some k) s →
      s.dict k = some (.list xs) → (s.clientsOn k).length = n → Live clock i k s → s₀.ticks ≤ i → i < s.ticks →
      ∃ s' evs' xs', serveClients clock k n s = .ok s' ∧ Inv s₀ (evs ++ evs') pending (some k) s' ∧
        s'.dict k = some (.list xs') ∧ (xs' = [] ∨ s'.clientsOn k = []) ∧
        (s'.blockedClients < s.blockedClients ∨ s' = s) := by
  induction n with
  | zero =>
    intro s evs xs h hk hn hlive _ _
    exact ⟨s, [], xs, rfl, by rwa [append_nil], hk, .inr (length_eq_zero_iff.1 hn), .inr rfl⟩
  | succ n ih =>
    intro s evs xs h hk hn hlive hi his
    obtain ⟨c, cs, hq⟩ := exists_cons_of_length_eq_add_one hn
    unfold serveClients
    rw [hq, hk]
    dsimp only
    rcases hpop : listTypePop (s.clients c).head xs with - | p
    · exact ⟨s, [], xs, rfl, by rwa [append_nil], hk, .inl (listTypePop_none hpop), .inr rfl⟩
    obtain ⟨v, rest⟩ := p
    obtain ⟨s₂, s', evs', hs₂, hs', hinv, ⟨xs', hk'⟩, hq', hlive', hlt, hts⟩ :=
      serveClient_inv h₀ hsteady h hq hk hpop hlive hi his
    rw [hq] at hn
    obtain ⟨s'', evs'', xs'', hs'', hinv', hk'', hend, hfewer⟩ :=
      ih hinv hk' (by rw [hq']; exact Nat.succ.inj hn) hlive' hi (his.trans_le hts)
    refine ⟨s'', evs' ++ evs'', xs'', ?_, ?_, hk'', hend, .inl ?_⟩
    · dsimp only
      rw [hs₂]
      show (serveClientBlockedOnList clock k c (s.clients c).target v (s.clients c).head s₂ >>= serveClients clock k n) = _
      rw [hs']
      exact hs''
    · rwa [← append_assoc]
    · rcases hfewer with hlt' | rfl
      · exact hlt'.trans hlt
      · exact hlt

theorem serveKey_inv (h : Inv s₀ evs (k :: pending) none s) :
    ∃ s' evs', serveKey clock k s = .ok s' ∧ Inv s₀ (evs ++ evs') pending none s' ∧ Fewer s s' := by
  have hstart := h.start
  have hroom := h.ticks.2
  rw [length_cons] at hroom
  obtain ⟨s₁, hs₁⟩ : ∃ s₁ : Server, s₁ = { s with ready := update s.ready k false } := ⟨_, rfl⟩
  have hsame : s₁.blockedClients = s.blockedClients ∧ s₁.readyKeys = s.readyKeys := by rw [hs₁]; exact ⟨rfl, rfl⟩
  have hnonempty : s₁.dict k ≠ some (.list []) := by rw [hs₁]; exact h.nonempty k (Option.some_ne_none k).symm
  have hend : s₁.endTick = s.endTick := by rw [hs₁]; rfl
  unfold serveKey
  rw [← hs₁] at hstart ⊢
  have htick := hstart.tick (by omega)
  unfold lookupKeyWrite
  by_cases hexp : s₁.keyIsExpired clock k = true
  · rw [if_pos hexp]
    have hdict : ((dbDelete k s₁.tick).record (.expired k (s₁.contents k))).dict k = none := update_self ..
    refine ⟨_, _, rfl, (htick.expire k).finish ?_ (.inl ?_), .inr hsame⟩
    · exact hdict ▸ (Option.some_ne_none _).symm
    · show Value.elems (((dbDelete k s₁.tick).record (.expired k (s₁.contents k))).dict k) = []
      rw [hdict]
      rfl
  · rw [if_neg hexp]
    have hquiet : s₁.contents k = [] → Inv s₀ (evs ++ []) pending none s₁.tick := by
      intro hnil
      rw [append_nil]
      exact htick.finish hnonempty (.inl hnil)
    rcases hk : s₁.dict k with - | val
    · exact ⟨_, [], rfl, hquiet (by rw [Server.contents, hk]; rfl), .inr hsame⟩
    cases val with
    | plain kind =>
      have hinv := hquiet (by rw [Server.contents, hk]; rfl)
      cases kind with
      | zset card =>
        dsimp only
        split
        · exact ⟨_, [], rfl, hinv, .inr hsame⟩
        next hde =>
          rw [not_or] at hde
          have hlookup : s₁.blockingKeys.lookup k = some (s₁.clientsOn k) := by
            cases hl : s₁.blockingKeys.lookup k with
            | none => exact absurd hl hde.2
            | some l => rw [clientsOn_of_lookup hl]
          have hmove : moveToTail (s₁.clientsOn k).length (s₁.clientsOn k) = s₁.clientsOn k := by
            simpa using moveToTail_length (s₁.clientsOn k) []
          have hb : ∀ k', (s₁.blockingKeys.insert k (s₁.clientsOn k)).lookup k' = s₁.blockingKeys.lookup k' := by
            intro k'
            rcases eq_or_ne k' k with rfl | hne
            · rw [lookup_insert, hlookup]
            · rw [lookup_insert_ne hne]
          have hq : ∀ k', Server.clientsOn
              { s₁.tick with blockingKeys := s₁.blockingKeys.insert k (s₁.clientsOn k) } k' = s₁.clientsOn k' := by
            intro k'
            rw [Server.clientsOn, hb]
            rfl
          refine ⟨_, [], rfl, ?_, .inr hsame⟩
          show Inv s₀ (evs ++ []) pending none
            { s₁.tick with
              blockingKeys := s₁.blockingKeys.insert k (moveToTail (s₁.clientsOn k).length (s₁.clientsOn k)) }
          rw [hmove]
          refine ⟨hinv.log, hinv.lists, fun k' => ?_, fun k' => ?_, hinv.unserved, hinv.gone, hinv.once, hinv.fifo,
            hinv.count, hinv.expires, ⟨hinv.ready.ready, hinv.ready.nodup⟩, hinv.nonempty, fun hawake k' hk' hq' => ?_,
            hinv.ticks⟩
          · rw [hq k']
            exact hinv.queues k'
          · rw [hb]
            exact hinv.entries k'
          · rw [hq k'] at hq'
            exact hinv.awake hawake k' hk' hq'
      | stream | other => exact ⟨_, [], rfl, hinv, .inr hsame⟩
    | list xs =>
      have hlive : Live clock s₁.ticks k s₁.tick := by
        intro e he
        rw [Server.keyIsExpired, show s₁.expires k = some e from he] at hexp
        exact Bool.eq_false_of_not_eq_true hexp
      obtain ⟨s', evs', xs', hs', hinv, hk', hend, hfewer⟩ :=
        serveClients_inv h₀ hsteady htick hk rfl hlive hstart.ticks.1 (Nat.lt_succ_self _)
      have hfew : ∀ s'' : Server, s''.blockedClients = s'.blockedClients → s''.readyKeys = s'.readyKeys →
          Fewer s s'' := by
        intro s'' hb hr
        rcases hfewer with hlt | rfl
        · exact .inl (hb ▸ hsame.1 ▸ hlt)
        · exact .inr ⟨hb.trans hsame.1, hr.trans hsame.2⟩
      dsimp only
      have hbind : ∀ f : Server → Except Fault Server, (Except.ok s' >>= f) = f s' := fun _ => rfl
      rw [hs', hbind, hk']
      rcases xs' with - | ⟨x, xs'⟩
      · exact ⟨_, evs', rfl, hinv.deleteEmpty hk', hfew _ rfl rfl⟩
      refine ⟨_, evs', rfl, hinv.finish ?_ (hend.imp_left fun hf => absurd hf (cons_ne_nil _ _)), hfew _ rfl rfl⟩
      rw [hk']
      simp

theorem serveKeys_inv : ∀ (ks : List Key) {evs : List Event} {s : Server}, Inv s₀ evs ks none s →
      ∃ s' evs', serveKeys clock ks s = .ok s' ∧ Inv s₀ (evs ++ evs') [] none s' ∧ Fewer s s'
  | [], evs, s, h => ⟨s, [], rfl, by rwa [append_nil], .inr ⟨rfl, rfl⟩⟩
  | k :: ks, evs, s, h => by
    obtain ⟨s₁, evs₁, hs₁, h₁, hf₁⟩ := serveKey_inv h₀ hsteady h
    obtain ⟨s₂, evs₂, hs₂, h₂, hf₂⟩ := serveKeys_inv ks h₁
    refine ⟨s₂, evs₁ ++ evs₂, ?_, by rwa [← append_assoc], hf₁.trans hf₂⟩
    rw [serveKeys, foldlM_cons, hs₁]
    exact hs₂

theorem handle_inv {n : Nat} : ∀ {evs : List Event} {s : Server}, Inv s₀ evs [] none s → s.blockedClients + 2 ≤ n →
      ∃ s' evs', handleClientsBlockedOnKeys clock n s = .ok s' ∧ Inv s₀ (evs ++ evs') [] none s' ∧
        s'.readyKeys = [] := by
  induction n with
  | zero => intro evs s _ hn; omega
  | succ n ih =>
    intro evs s h hn
    unfold handleClientsBlockedOnKeys
    split
    next hnil => exact ⟨s, [], rfl, by rwa [append_nil], hnil⟩
    · -- the ready keys of this round are taken out of the list
      have hround : Inv s₀ evs s.readyKeys none { s with readyKeys := [] } := by
        have happ : s.readyKeys ++ [] = [] ++ s.readyKeys := append_nil _
        refine ⟨h.log, h.lists, h.queues, h.entries, h.unserved, h.gone, h.once, h.fifo, h.count, h.expires,
          ⟨fun k' => ?_, ?_⟩, h.nonempty, fun hawake k' hk' hq hc => ?_, h.ticks.1, ?_⟩
        · exact happ ▸ h.ready.ready k'
        · exact happ ▸ h.ready.nodup
        · exact happ ▸ h.awake hawake k' hk' hq hc
        · have hle := h.ticks.2
          unfold Server.endTick at hle ⊢
          simp only [length_nil] at hle ⊢
          omega
      obtain ⟨s₁, evs₁, hs₁, h₁, hf⟩ := serveKeys_inv h₀ hsteady _ hround
      rw [hs₁]
      show ∃ s' evs', handleClientsBlockedOnKeys clock n s₁ = .ok s' ∧ _
      rcases hf with hlt | ⟨-, hnil⟩
      · have hlt' : s₁.blockedClients < s.blockedClients := hlt
        obtain ⟨s₂, evs₂, hs₂, h₂, hnil⟩ := ih h₁ (by omega)
        exact ⟨s₂, evs₁ ++ evs₂, hs₂, by rwa [← append_assoc], hnil⟩
      · refine ⟨s₁, evs₁, ?_, h₁, hnil⟩
        obtain ⟨m, rfl⟩ : ∃ m, n = m + 1 := ⟨n - 1, by omega⟩
        rw [handleClientsBlockedOnKeys, if_pos (show s₁.readyKeys = [] from hnil)]

end

/-- `handleClientsBlockedOnKeys` ends. Each element it pops goes to one client, to the target or back; a key
serves its clients in the order in which they blocked; no list is left empty; and the lists of blocked clients
agree with the clients. -/
theorem handleClientsBlockedOnKeys_serves (clock : Nat → Int) (s : Server) (n : Nat) (h : Consistent s)
    (hsteady : SelfTargetsSteady clock s) (hn : s.blockedClients + 2 ≤ n) :
    ∃ s' evs, handleClientsBlockedOnKeys clock n s = .ok s' ∧ s'.log = s.log ++ evs ∧ s'.readyKeys = [] ∧
      replay evs s.contents = some s'.contents ∧
      (∀ K : Finset Key, (∀ ev ∈ evs, ∀ k ∈ ev.keys, k ∈ K) →
        ∑ k ∈ K, (s.contents k : Multiset Elem) =
          ∑ k ∈ K, (s'.contents k : Multiset Elem) + (evs.map Event.taken).sum) ∧
      (served evs).Nodup ∧ Fifo s evs ∧ (∀ k, s'.dict k ≠ some (.list [])) ∧
      ∀ k, (s'.clientsOn k).Nodup ∧ ∀ c, c ∈ s'.clientsOn k ↔
        (s'.clients c).blocked = true ∧ (s'.clients c).db = k.1 ∧ k.2 ∈ (s'.clients c).keys := by
  obtain ⟨s', evs, hs', hinv, hnil⟩ := handle_inv h.index hsteady (Inv.init h) hn
  have hindex := hinv.index h.index
  exact ⟨s', evs, hs', hinv.log, hnil, hinv.lists, fun K hK => replay_sum hinv.lists hK, hinv.once, hinv.fifo,
    fun k => hinv.nonempty k nofun, fun k => ⟨hindex.nodup k, hindex.waits k⟩⟩

/-- Client 0 waits in BRPOPLPUSH for key 1, with the same key as target. The key holds one element, and
expires at time 5. -/
def selfTarget : Server :=
  { Server.init with
    dict := Function.update (fun _ => none) (0, 1) (some (.list [[97]]))
    expires := Function.update (fun _ => none) (0, 1) (some 5)
    blockingKeys := AList.insert (0, 1) [0] ∅
    ready := Function.update (fun _ => false) (0, 1) true
    readyKeys := [(0, 1)]
    clients := Function.update Server.init.clients 0 ⟨0, true, [1], some 1, false⟩
    blockedClients := 1 }

theorem selfTarget_clientsOn (k : Key) : selfTarget.clientsOn k = if k = (0, 1) then [0] else [] := by
  show ((insert (0, 1) [0] (∅ : AList fun _ : Key => List Nat)).lookup k).getD [] = _
  split
  next hk =>
    rw [hk]
    rfl
  next hk =>
    rw [lookup_insert_ne hk]
    rfl

theorem selfTarget_client (c : Nat) :
    selfTarget.clients c = if c = 0 then ⟨0, true, [1], some 1, false⟩ else ⟨0, false, [], none, false⟩ := by
  show update Server.init.clients 0 _ c = _
  split
  next hc => rw [hc, update_self]
  next hc =>
    rw [update_of_ne hc]
    rfl

theorem selfTarget_consistent : Consistent selfTarget := by
  refine ⟨⟨fun k c => ?_, fun k => ?_, fun k => ?_, fun c => ?_, fun c => ?_, {0}, rfl, fun c => ?_⟩,
    ⟨(forall_update_iff _ fun k b => b = true ↔ k ∈ [((0, 1) : Key)]).2 ⟨by simp, fun k hk => by simpa using hk⟩, by decide⟩,
    (forall_update_iff _ fun _ v => v ≠ some (Value.list [])).2 ⟨by decide, fun _ _ => nofun⟩⟩
  · rw [selfTarget_clientsOn, selfTarget_client]
    obtain ⟨d, name⟩ := k
    by_cases hc : c = 0 <;> by_cases hk : (d, name) = ((0, 1) : Key)
    · obtain ⟨rfl, rfl⟩ := Prod.mk.inj hk
      simp [hc]
    · simp only [hc, if_neg hk]
      refine ⟨fun hm => absurd hm not_mem_nil, fun hm => absurd ?_ hk⟩
      exact Prod.ext hm.2.1.symm (mem_singleton.1 hm.2.2)
    · simp [hc]
    · simp [hc]
  · rw [selfTarget_clientsOn]
    split
    · exact nodup_singleton _
    · exact nodup_nil
  · show (insert (0, 1) [0] (∅ : AList fun _ : Key => List Nat)).lookup k ≠ some []
    rcases eq_or_ne k (0, 1) with rfl | hk
    · exact nofun
    · rw [lookup_insert_ne hk]
      exact nofun
  · rw [selfTarget_client]
    split
    · exact nodup_singleton _
    · exact nodup_nil
  · rw [selfTarget_client]
    split <;> simp
  · rw [selfTarget_client]
    split <;> simp_all

theorem handleClientsBlockedOnKeys_serves_selfTarget :
    ∃ s' evs, handleClientsBlockedOnKeys (fun _ => 5) 3 selfTarget = .ok s' ∧ s'.log = selfTarget.log ++ evs ∧
      s'.readyKeys = [] ∧ replay evs selfTarget.contents = some s'.contents ∧
      (∀ K : Finset Key, (∀ ev ∈ evs, ∀ k ∈ ev.keys, k ∈ K) →
        ∑ k ∈ K, (selfTarget.contents k : Multiset Elem) =
          ∑ k ∈ K, (s'.contents k : Multiset Elem) + (evs.map Event.taken).sum) ∧
      (served evs).Nodup ∧ Fifo selfTarget evs ∧ (∀ k, s'.dict k ≠ some (.list [])) ∧
      ∀ k, (s'.clientsOn k).Nodup ∧ ∀ c, c ∈ s'.clientsOn k ↔
        (s'.clients c).blocked = true ∧ (s'.clients c).db = k.1 ∧ k.2 ∈ (s'.clients c).keys :=
  handleClientsBlockedOnKeys_serves (fun _ => 5) selfTarget 3 selfTarget_consistent
    (fun _ _ _ _ _ _ _ _ _ _ _ _ h => h) (by decide)

/-- The clock passes the expire time between the two lookups of the key: the second one frees the list that is
being served. -/
theorem handleClientsBlockedOnKeys_freed : Consistent selfTarget ∧
    handleClientsBlockedOnKeys (fun i => if i = 0 then 5 else 6) 3 selfTarget = .error .freed :=
  ⟨selfTarget_consistent, rfl⟩

end Redis.Blocking
