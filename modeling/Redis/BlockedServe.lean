import Mathlib.Algebra.BigOperators.Group.Finset.Basic
import Mathlib.Data.Multiset.AddSub
import Mathlib.Tactic.Abel
import Redis.Blocking

/-! # Serving the clients blocked on lists

`Inv` compares a state inside `handleClientsBlockedOnKeys` with the state before the call, by the events in
between: the lists are what the events leave of the old ones, and the clients blocked on a key are those of
before that were not served. -/

namespace Redis.Blocking
open List Function AList

variable {head : Bool} {xs rest : List Elem} {m m' : Key → List Elem} {K : Finset Key} {evs : List Event}

/-! ### What the events say -/

/-- The lists after an event, which has to fit the lists before it. -/
def Event.apply (m : Key → List Elem) : Event → Option (Key → List Elem)
  | .expired k xs => if m k = xs then some (Function.update m k []) else none
  | .served k _ v head outcome =>
    match listTypePop head (m k) with
    | none => none
    | some (v', rest) =>
      if v' = v then
        match outcome with
        | .delivered => some (Function.update m k rest)
        | .pushed dst =>
          let m := Function.update m k rest
          some (Function.update m dst (v :: m dst))
        | .putBack => some m
      else none

open Event

def replay (evs : List Event) (m : Key → List Elem) : Option (Key → List Elem) := evs.foldlM Event.apply m

def Event.client? : Event → Option Nat
  | .expired _ _ => none
  | .served _ c _ _ _ => some c

def served (evs : List Event) : List Nat := evs.filterMap Event.client?

def Event.taken : Event → Multiset Elem
  | .expired _ xs => xs
  | .served _ _ v _ .delivered => {v}
  | .served _ _ _ _ _ => 0

def Event.keys : Event → List Key
  | .expired k _ => [k]
  | .served k _ _ _ (.pushed dst) => [k, dst]
  | .served k _ _ _ _ => [k]

/-- Whoever is served from a key comes after only such clients of this key as have been served. -/
def Fifo (s₀ : Server) (evs : List Event) : Prop :=
  ∀ A k c v head outcome B, evs = A ++ .served k c v head outcome :: B →
    ∃ before after, s₀.clientsOn k = before ++ c :: after ∧ ∀ c' ∈ before, c' ∈ served A

variable {v : Elem}

theorem listTypePush_pop (h : listTypePop head xs = some (v, rest)) : listTypePush head v rest = xs := by
  cases head with
  | true =>
    cases xs with
    | nil => exact nomatch h
    | cons x xs =>
      obtain ⟨rfl, rfl⟩ := Prod.mk.inj (Option.some.inj h)
      rfl
  | false =>
    obtain ⟨x, hx, hxr⟩ := Option.map_eq_some_iff.1 h
    obtain ⟨rfl, rfl⟩ := Prod.mk.inj hxr
    exact dropLast_append_getLast? x hx

theorem listTypePop_perm (h : listTypePop head xs = some (v, rest)) :
    (xs : Multiset Elem) = v ::ₘ (rest : Multiset Elem) := by
  rw [← listTypePush_pop h, Multiset.cons_coe, Multiset.coe_eq_coe]
  cases head with
  | true => exact .refl _
  | false => exact perm_append_singleton v rest

theorem listTypePop_none (h : listTypePop head xs = none) : xs = [] := by
  cases head with
  | true =>
    cases xs with
    | nil => rfl
    | cons x xs => exact nomatch h
  | false => exact getLast?_eq_none_iff.1 (Option.map_eq_none_iff.1 h)

theorem sum_update {k : Key} (hk : k ∈ K) (xs : List Elem) :
    ∑ k' ∈ K, ((update m k xs k' : List Elem) : Multiset Elem) + (m k : Multiset Elem) =
      ∑ k' ∈ K, (m k' : Multiset Elem) + (xs : Multiset Elem) := by
  rw [← Finset.add_sum_erase K _ hk, ← Finset.add_sum_erase K (fun k' => (m k' : Multiset Elem)) hk,
    update_self]
  have hrest : ∑ k' ∈ K.erase k, ((update m k xs k' : List Elem) : Multiset Elem) =
      ∑ k' ∈ K.erase k, (m k' : Multiset Elem) :=
    Finset.sum_congr rfl fun k' hk' => by rw [update_of_ne (Finset.ne_of_mem_erase hk')]
  rw [hrest]
  abel

theorem sum_pop {k : Key} (hk : k ∈ K) (h : listTypePop head (m k) = some (v, rest)) :
    ∑ k' ∈ K, (m k' : Multiset Elem) = ∑ k' ∈ K, ((update m k rest k' : List Elem) : Multiset Elem) + {v} := by
  have hsum := sum_update (m := m) hk rest
  rw [listTypePop_perm h, ← Multiset.singleton_add, ← add_assoc] at hsum
  exact (add_right_cancel hsum).symm

theorem Event.apply_sum {ev : Event} (h : ev.apply m = some m') (hK : ∀ k ∈ ev.keys, k ∈ K) :
    ∑ k ∈ K, (m k : Multiset Elem) = ∑ k ∈ K, (m' k : Multiset Elem) + ev.taken := by
  cases ev with
  | expired k xs =>
    rw [apply] at h
    split at h
    next hxs =>
      rw [← Option.some.inj h]
      have hsum := sum_update (m := m) (hK k mem_cons_self) []
      rw [hxs, Multiset.coe_nil, add_zero] at hsum
      exact hsum.symm
    · exact nomatch h
  | served k c v head outcome =>
    rw [apply] at h
    split at h
    · exact nomatch h
    rename_i v' rest hpop
    split at h
    next hv =>
      rw [hv] at hpop
      have hsum := sum_pop (hK k (by cases outcome <;> exact mem_cons_self)) hpop
      cases outcome with
      | delivered =>
        rw [← Option.some.inj h]
        exact hsum
      | pushed dst =>
        rw [← Option.some.inj h]
        have hsum' := sum_update (m := update m k rest)
          (hK dst (.tail _ mem_cons_self)) (v :: update m k rest dst)
        rw [← Multiset.cons_coe, ← Multiset.singleton_add, ← add_assoc] at hsum'
        rw [show taken (.served k c v head (.pushed dst)) = 0 from rfl, add_zero, hsum]
        exact (add_right_cancel hsum').symm
      | putBack =>
        rw [← Option.some.inj h]
        exact (add_zero _).symm
    · exact nomatch h

theorem replay_append {evs' : List Event} (h : replay evs m = some m') : replay (evs ++ evs') m = replay evs' m' := by
  rw [replay, foldlM_append, ← replay, h]
  rfl

theorem replay_sum (h : replay evs m = some m') (hK : ∀ ev ∈ evs, ∀ k ∈ ev.keys, k ∈ K) :
    ∑ k ∈ K, (m k : Multiset Elem) = ∑ k ∈ K, (m' k : Multiset Elem) + (evs.map taken).sum := by
  induction evs generalizing m with
  | nil =>
    rw [← Option.some.inj h]
    exact (add_zero _).symm
  | cons ev evs ih =>
    obtain ⟨m₁, h₁, h₂⟩ := Option.bind_eq_some_iff.1 h
    obtain ⟨hev, hrest⟩ := forall_mem_cons.1 hK
    rw [apply_sum h₁ hev, ih h₂ hrest, map_cons, sum_cons]
    abel

/-! ### Consistent states -/

/-- `db->blocking_keys` and `bpop.keys` agree. -/
structure Index (s : Server) : Prop where
  waits : ∀ k c, c ∈ s.clientsOn k ↔
    (s.clients c).blocked = true ∧ (s.clients c).db = k.1 ∧ k.2 ∈ (s.clients c).keys
  nodup : ∀ k, (s.clientsOn k).Nodup
  entries : ∀ k, s.blockingKeys.lookup k ≠ some []
  keysNodup : ∀ c, (s.clients c).keys.Nodup
  keys : ∀ c, (s.clients c).blocked = true ↔ (s.clients c).keys ≠ []
  counted : ∃ B : Finset Nat, B.card = s.blockedClients ∧ ∀ c, c ∈ B ↔ (s.clients c).blocked = true

/-- `db->ready_keys` marks the keys that are still to be served. -/
structure ReadyOk (pending : List Key) (s : Server) : Prop where
  ready : ∀ k, s.ready k = true ↔ k ∈ s.readyKeys ++ pending
  nodup : (s.readyKeys ++ pending).Nodup

structure Consistent (s : Server) : Prop where
  index : Index s
  ready : ReadyOk [] s
  nonempty : ∀ k, s.dict k ≠ some (.list [])

/-- No client waits for a list that has elements, unless the key is to be served. -/
def Awake (s : Server) : Prop := ∀ k, s.clientsOn k ≠ [] → s.contents k ≠ [] → k ∈ s.readyKeys

/-- The readings of the clock in the call come before this one: it makes one for each ready key, and for each client
that it serves one of the target and one of the target as a new ready key. -/
def Server.endTick (s : Server) : Nat := s.ticks + s.readyKeys.length + 2 * s.blockedClients

/-- The state `s` inside the call, with the ready keys that are left of this round and the key that is
being served. -/
structure Inv (s₀ : Server) (evs : List Event) (pending : List Key) (cur : Option Key) (s : Server) : Prop where
  log : s.log = s₀.log ++ evs
  lists : replay evs s₀.contents = some s.contents
  queues : ∀ k, s.clientsOn k = (s₀.clientsOn k).filter fun c => !(served evs).contains c
  entries : ∀ k, s.blockingKeys.lookup k ≠ some []
  unserved : ∀ c, c ∉ served evs → s.clients c = s₀.clients c
  gone : ∀ c ∈ served evs, (s.clients c).blocked = false ∧ (s.clients c).keys = [] ∧ (s₀.clients c).blocked = true
  once : (served evs).Nodup
  fifo : Fifo s₀ evs
  count : s.blockedClients + (served evs).length = s₀.blockedClients
  expires : ∀ k, s.expires k = s₀.expires k ∨ s.expires k = none
  ready : ReadyOk pending s
  nonempty : ∀ k, cur ≠ some k → s.dict k ≠ some (.list [])
  awake : Awake s₀ → ∀ k, cur ≠ some k → s.clientsOn k ≠ [] → s.contents k ≠ [] → k ∈ s.readyKeys ++ pending
  ticks : s₀.ticks ≤ s.ticks ∧ s.endTick + pending.length ≤ s₀.endTick

section
variable {s₀ s s' : Server} {evs : List Event} {pending : List Key} {cur : Option Key} {k : Key} {c : Nat}
variable {outcome : Outcome}

theorem Inv.mem_clientsOn (h : Inv s₀ evs pending cur s) : c ∈ s.clientsOn k ↔ c ∈ s₀.clientsOn k ∧ c ∉ served evs := by
  rw [h.queues k, mem_filter, Bool.not_eq_true', ← Bool.not_eq_true, contains_iff_mem]

theorem Inv.index (h : Inv s₀ evs pending cur s) (h₀ : Index s₀) : Index s := by
  have hcase : ∀ c, s.clients c = s₀.clients c ∧ c ∉ served evs ∨
      c ∈ served evs ∧ (s.clients c).blocked = false ∧ (s.clients c).keys = [] := by
    intro c
    by_cases hc : c ∈ served evs
    · exact .inr ⟨hc, (h.gone c hc).1, (h.gone c hc).2.1⟩
    · exact .inl ⟨h.unserved c hc, hc⟩
  refine ⟨fun k c => ?_, fun k => ?_, h.entries, fun c => ?_, fun c => ?_, ?_⟩
  · rw [h.mem_clientsOn, h₀.waits]
    rcases hcase c with ⟨heq, hc⟩ | ⟨hc, hb, -⟩
    · rw [heq]
      exact and_iff_left hc
    · rw [hb]
      exact ⟨fun hm => absurd hc hm.2, fun hm => absurd hm.1 (by decide)⟩
  · rw [h.queues k]
    exact (h₀.nodup k).filter _
  · rcases hcase c with ⟨heq, -⟩ | ⟨-, -, hk⟩
    · rw [heq]
      exact h₀.keysNodup c
    · rw [hk]
      exact nodup_nil
  · rcases hcase c with ⟨heq, -⟩ | ⟨-, hb, hk⟩
    · rw [heq]
      exact h₀.keys c
    · rw [hb, hk]
      exact ⟨fun hf => absurd hf (by decide), fun hf => absurd rfl hf⟩
  · obtain ⟨B, hcard, hB⟩ := h₀.counted
    have hsub : (served evs).toFinset ⊆ B := by
      intro c hc
      exact (hB c).2 (h.gone c (mem_toFinset.1 hc)).2.2
    refine ⟨B \ (served evs).toFinset, ?_, fun c => ?_⟩
    · rw [Finset.card_sdiff_of_subset hsub, hcard, toFinset_card_of_nodup h.once, ← h.count]
      exact Nat.add_sub_cancel ..
    rw [Finset.mem_sdiff, mem_toFinset, hB c]
    rcases hcase c with ⟨heq, hc⟩ | ⟨hc, hb, -⟩
    · rw [heq]
      exact and_iff_left hc
    · rw [hb]
      exact ⟨fun hm => absurd hc hm.2, fun hf => absurd hf (by decide)⟩

/-! ### One client leaves -/

structure Leaves (c : Nat) (s s' : Server) : Prop where
  queues : ∀ k, s'.clientsOn k = (s.clientsOn k).erase c
  entries : ∀ k, s'.blockingKeys.lookup k ≠ some []
  clients : s'.clients = Function.update s.clients c { s.clients c with blocked := false, keys := [], target := none }
  blockedClients : s'.blockedClients = s.blockedClients - 1

/-- The rest of the state is as before, but for the list at `k`. -/
structure Popped (c : Nat) (k : Key) (rest : List Elem) (s s' : Server) : Prop extends Leaves c s s' where
  dict : s'.dict = Function.update s.dict k (some (.list rest))
  expires : s'.expires = s.expires
  ready : s'.ready = s.ready
  readyKeys : s'.readyKeys = s.readyKeys
  log : s'.log = s.log
  ticks : s.ticks ≤ s'.ticks ∧ s'.ticks ≤ s.ticks + 1

theorem clientsOn_of_lookup {l : List Nat} (h : s.blockingKeys.lookup k = some l) : s.clientsOn k = l := by
  rw [Server.clientsOn, h]
  rfl

theorem lookup_of_mem_clientsOn (h : c ∈ s.clientsOn k) : s.blockingKeys.lookup k = some (s.clientsOn k) := by
  cases hl : s.blockingKeys.lookup k with
  | none =>
    rw [Server.clientsOn, hl] at h
    exact absurd h not_mem_nil
  | some l => rw [clientsOn_of_lookup hl]

theorem mem_keys_of_mem_clientsOn (h : c ∈ s.clientsOn k) : k ∈ s.blockingKeys.keys :=
  AList.mem_keys.1 (AList.lookup_isSome.1 (lookup_of_mem_clientsOn h ▸ rfl))

theorem removeWaiter_spec (hentries : ∀ k, s.blockingKeys.lookup k ≠ some []) (hc : c ∈ s.clientsOn k) :
    ∃ b, removeWaiter c s k = .ok { s with blockingKeys := b } ∧ (∀ k, b.lookup k ≠ some []) ∧
      (b.lookup k).getD [] = (s.clientsOn k).erase c ∧ ∀ k', k' ≠ k → b.lookup k' = s.blockingKeys.lookup k' := by
  have hl := lookup_of_mem_clientsOn hc
  unfold removeWaiter
  rw [hl]
  dsimp only
  rw [if_pos (contains_iff_mem.2 hc)]
  refine ⟨_, rfl, fun k' => ?_, ?_, fun k' hk' => ?_⟩
  · rcases eq_or_ne k' k with rfl | hne
    · split
      · rw [lookup_erase]
        exact nofun
      next hne =>
        rw [lookup_insert]
        exact fun h => hne (Option.some.inj h)
    · split
      · rw [lookup_erase_ne hne]
        exact hentries k'
      · rw [lookup_insert_ne hne]
        exact hentries k'
  · split
    next hnil =>
      rw [lookup_erase, hnil]
      rfl
    · rw [lookup_insert]
      rfl
  · split
    · exact lookup_erase_ne hk'
    · exact lookup_insert_ne hk'

theorem removeWaiters_spec (db : Nat) :
    ∀ (names : List Nat) (s : Server), (∀ k, s.blockingKeys.lookup k ≠ some []) → names.Nodup →
      (∀ name ∈ names, c ∈ s.clientsOn (db, name)) → ∃ b,
        names.foldlM (fun s name => removeWaiter c s (db, name)) s = .ok { s with blockingKeys := b } ∧
        (∀ k, b.lookup k ≠ some []) ∧ (∀ name ∈ names, (b.lookup (db, name)).getD [] = (s.clientsOn (db, name)).erase c) ∧
        ∀ k, (k.1 ≠ db ∨ k.2 ∉ names) → b.lookup k = s.blockingKeys.lookup k
  | [], s, hentries, _, _ => ⟨s.blockingKeys, rfl, hentries, nofun, fun _ _ => rfl⟩
  | name :: names, s, hentries, hnodup, hmem => by
    obtain ⟨hc, hmem⟩ := forall_mem_cons.1 hmem
    obtain ⟨hname, hnodup⟩ := nodup_cons.1 hnodup
    obtain ⟨b, hb, hb₁, hb₂, hb₃⟩ := removeWaiter_spec hentries hc
    have hsame : ∀ name' ∈ names, b.lookup (db, name') = s.blockingKeys.lookup (db, name') := by
      intro name' hn
      refine hb₃ _ fun heq => hname ?_
      rw [← (Prod.mk.inj heq).2]
      exact hn
    obtain ⟨b', hb', h₁, h₂, h₃⟩ := removeWaiters_spec db names { s with blockingKeys := b } hb₁ hnodup (by
      intro name' hn
      rw [Server.clientsOn, hsame name' hn]
      exact hmem name' hn)
    refine ⟨b', ?_, h₁, forall_mem_cons.2 ⟨?_, fun name' hn => ?_⟩, fun k hk => ?_⟩
    · rw [foldlM_cons, hb]
      exact hb'
    · rw [h₃ _ (.inr hname)]
      exact hb₂
    · rw [h₂ name' hn, Server.clientsOn, hsame name' hn]
      rfl
    have hk' : k.1 ≠ db ∨ k.2 ∉ names := hk.imp_right fun hn hm => hn (.tail _ hm)
    rw [h₃ k hk']
    refine hb₃ k fun heq => ?_
    rw [heq] at hk
    exact hk.elim (fun hf => hf rfl) fun hf => hf mem_cons_self

theorem unblockClient_spec (h : Index s) (hc : (s.clients c).blocked = true) :
    ∃ s', unblockClient c s = .ok s' ∧ Leaves c s s' ∧ s' = { s with
      blockingKeys := s'.blockingKeys, clients := s'.clients, blockedClients := s'.blockedClients } := by
  have hmem : ∀ name ∈ (s.clients c).keys, c ∈ s.clientsOn ((s.clients c).db, name) :=
    fun name hn => (h.waits _ _).2 ⟨hc, rfl, hn⟩
  obtain ⟨b, hb, h₁, h₂, h₃⟩ := removeWaiters_spec (s.clients c).db _ s h.entries (h.keysNodup c) hmem
  have hun : unblockClient c s = .ok { s with
      blockingKeys := b
      clients := update s.clients c { s.clients c with blocked := false, keys := [], target := none }
      blockedClients := s.blockedClients - 1 } := by
    unfold unblockClient
    rw [if_neg ((h.keys c).1 hc), hb]
    rfl
  refine ⟨_, hun, ⟨fun k => ?_, h₁, rfl, rfl⟩, rfl⟩
  show (b.lookup k).getD [] = _
  by_cases hk : k.1 = (s.clients c).db ∧ k.2 ∈ (s.clients c).keys
  · have := h₂ k.2 hk.2
    rwa [← hk.1] at this
  · have hnot : c ∉ s.clientsOn k := fun hm => hk ⟨((h.waits k c).1 hm).2.1.symm, ((h.waits k c).1 hm).2.2⟩
    rw [erase_of_not_mem hnot, h₃ k (by tauto)]
    rfl

/-! ### Ready keys -/

theorem signalKeyAsReady_eq (k : Key) (s : Server) :
    signalKeyAsReady k s = { s with readyKeys := (signalKeyAsReady k s).readyKeys, ready := (signalKeyAsReady k s).ready } := by
  unfold signalKeyAsReady
  split <;> rfl

theorem subset_signalKeyAsReady (k : Key) (s : Server) : s.readyKeys ⊆ (signalKeyAsReady k s).readyKeys := by
  unfold signalKeyAsReady
  split
  · exact fun _ h => h
  · exact subset_append_left _ _

theorem length_signalKeyAsReady (k : Key) (s : Server) :
    (signalKeyAsReady k s).readyKeys.length ≤ s.readyKeys.length + 1 := by
  unfold signalKeyAsReady
  split
  · exact Nat.le_succ _
  · exact (length_append ..).le

theorem ReadyOk.signal (h : ReadyOk pending s) (k : Key) : ReadyOk pending (signalKeyAsReady k s) := by
  unfold signalKeyAsReady
  split
  · exact h
  next hnot =>
    rw [not_or] at hnot
    have hk : k ∉ s.readyKeys ++ pending := fun hm => hnot.2 ((h.ready k).2 hm)
    have hperm : Perm (s.readyKeys ++ [k] ++ pending) (k :: (s.readyKeys ++ pending)) := by
      rw [append_assoc]
      exact perm_middle
    refine ⟨(forall_update_iff _ fun k' b => b = true ↔ k' ∈ s.readyKeys ++ [k] ++ pending).2 ⟨?_, fun k' hne => ?_⟩,
      hperm.nodup_iff.2 (nodup_cons.2 ⟨hk, h.nodup⟩)⟩
    · exact iff_of_true rfl (hperm.mem_iff.2 mem_cons_self)
    · rw [hperm.mem_iff, mem_cons, h.ready k']
      exact (or_iff_right hne).symm

theorem ReadyOk.mem_signal (h : ReadyOk pending s) (hk : s.clientsOn k ≠ []) :
    k ∈ (signalKeyAsReady k s).readyKeys ++ pending := by
  unfold signalKeyAsReady
  split
  next hor =>
    rcases hor with hnone | hready
    · rw [Server.clientsOn, hnone] at hk
      exact absurd rfl hk
    · exact (h.ready k).1 hready
  · exact mem_append_left _ (mem_append_right _ mem_cons_self)

/-! ### One client is served -/

theorem served_append (evs evs' : List Event) : served (evs ++ evs') = served evs ++ served evs' :=
  filterMap_append ..

theorem Inv.tick (h : Inv s₀ evs pending cur s) (hlt : s.endTick + pending.length < s₀.endTick) :
    Inv s₀ evs pending cur s.tick := by
  refine ⟨h.log, h.lists, h.queues, h.entries, h.unserved, h.gone, h.once, h.fifo, h.count, h.expires,
    ⟨h.ready.ready, h.ready.nodup⟩, h.nonempty, h.awake, h.ticks.1.trans (Nat.le_succ _), ?_⟩
  have htick : s.tick.endTick = s.endTick + 1 := by
    unfold Server.endTick Server.tick
    dsimp only
    omega
  omega

theorem contents_update {d : Key → Option Value} {v : Option Value} :
    (fun k' => Value.elems (update d k v k')) = update (fun k' => Value.elems (d k')) k (Value.elems v) := by
  funext k'
  rcases eq_or_ne k' k with rfl | hne
  · rw [update_self, update_self]
  · rw [update_of_ne hne, update_of_ne hne]

theorem Fifo.expired (h : Fifo s₀ evs) (xs : List Elem) : Fifo s₀ (evs ++ [.expired k xs]) := by
  intro A k' c v head outcome B heq
  rcases eq_nil_or_concat' B with rfl | ⟨B', b, rfl⟩
  · have := append_inj_right' heq rfl
    exact absurd (cons.inj this).1 Event.noConfusion
  · rw [← cons_append, ← append_assoc] at heq
    exact h A k' c v head outcome B' (append_inj_left' heq rfl)

theorem Inv.expire (h : Inv s₀ evs pending cur s) (k : Key) :
    Inv s₀ (evs ++ [.expired k (s.contents k)]) pending cur ((dbDelete k s).record (.expired k (s.contents k))) := by
  have hcont : ((dbDelete k s).record (.expired k (s.contents k))).contents = update s.contents k [] :=
    contents_update
  have hserved : served (evs ++ [.expired k (s.contents k)]) = served evs := by
    rw [served_append]
    exact append_nil _
  refine ⟨?_, ?_, hserved.symm ▸ h.queues, h.entries, hserved.symm ▸ h.unserved, hserved.symm ▸ h.gone,
    hserved.symm ▸ h.once, h.fifo.expired _, hserved.symm ▸ h.count,
    (forall_update_iff _ fun k' e => e = s₀.expires k' ∨ e = none).2 ⟨.inr rfl, fun k' _ => h.expires k'⟩,
    ⟨h.ready.ready, h.ready.nodup⟩,
    (forall_update_iff _ fun k' v => cur ≠ some k' → v ≠ some (Value.list [])).2
      ⟨fun _ => nofun, fun k' _ => h.nonempty k'⟩,
    fun hawake k' hk' hq hc => ?_, h.ticks⟩
  · show s.log ++ [_] = _
    rw [h.log, append_assoc]
  · rw [replay_append h.lists, hcont, replay, foldlM_cons, apply, if_pos rfl]
    rfl
  rw [hcont] at hc
  rcases eq_or_ne k' k with rfl | hne
  · rw [update_self] at hc
    exact absurd rfl hc
  · rw [update_of_ne hne] at hc
    exact h.awake hawake k' hk' hq hc

theorem served_concat (evs : List Event) (k : Key) (c : Nat) (v : Elem) (head : Bool) (outcome : Outcome) :
    served (evs ++ [.served k c v head outcome]) = served evs ++ [c] :=
  served_append ..

theorem Fifo.serve (h : Fifo s₀ evs) {head : Bool}
    (hc : ∃ before after, s₀.clientsOn k = before ++ c :: after ∧ ∀ c' ∈ before, c' ∈ served evs) :
    Fifo s₀ (evs ++ [.served k c v head outcome]) := by
  intro A k' c' v' head' outcome' B heq
  rcases eq_nil_or_concat' B with rfl | ⟨B', b, rfl⟩
  · obtain ⟨rfl, hlast⟩ := append_inj' heq rfl
    obtain ⟨rfl, rfl, -⟩ := served.inj (cons.inj hlast).1
    exact hc
  · rw [← cons_append, ← append_assoc] at heq
    exact h A k' c' v' head' outcome' B' (append_inj_left' heq rfl)

theorem Index.blockedClients_pos (h : Index s) (hc : (s.clients c).blocked = true) : 0 < s.blockedClients := by
  obtain ⟨B, hB, hBmem⟩ := h.counted
  rw [← hB]
  exact Finset.card_pos.2 ⟨c, (hBmem c).2 hc⟩

theorem Inv.serve {cs : List Nat} {head : Bool} (h₀ : Index s₀) (h : Inv s₀ evs pending (some k) s)
    (hq : s.clientsOn k = c :: cs) (hl : Leaves c s s') (hlog : s'.log = s.log ++ [.served k c v head outcome])
    (hcont : apply s.contents (.served k c v head outcome) = some s'.contents) (hexp : s'.expires = s.expires)
    (hready : ReadyOk pending s') (hsub : s.readyKeys ⊆ s'.readyKeys)
    (hkeys : s'.readyKeys.length ≤ s.readyKeys.length + 1) (hticks : s.ticks ≤ s'.ticks ∧ s'.ticks ≤ s.ticks + 1)
    (hne : ∀ k', k' ≠ k → s'.dict k' ≠ some (.list []))
    (hnew : ∀ k', k' ≠ k → s'.clientsOn k' ≠ [] → s'.contents k' ≠ [] → s.contents k' ≠ [] ∨ k' ∈ s'.readyKeys ++ pending) :
    Inv s₀ (evs ++ [.served k c v head outcome]) pending (some k) s' := by
  have hindex := h.index h₀
  have hmem : c ∈ s.clientsOn k := by rw [hq]; exact mem_cons_self
  have hnot : c ∉ served evs := (h.mem_clientsOn.1 hmem).2
  have hblocked : (s.clients c).blocked = true := ((hindex.waits k c).1 hmem).1
  have hother : ∀ c', c' ≠ c → s'.clients c' = s.clients c' := by
    intro c' hc'
    rw [hl.clients, update_of_ne hc']
  have hpos := hindex.blockedClients_pos hblocked
  refine ⟨?_, ?_, fun k' => ?_, hl.entries, fun c' hc' => ?_, fun c' hc' => ?_, ?_, h.fifo.serve ?_, ?_, fun k' => ?_,
    hready, fun k' hk' => hne k' fun heq => hk' (congrArg some heq.symm), fun hawake k' hk' hq' hc' => ?_,
    h.ticks.1.trans hticks.1, ?_⟩
  · rw [hlog, h.log, append_assoc]
  · rw [replay_append h.lists, replay, foldlM_cons, hcont]
    rfl
  · rw [hl.queues k', (hindex.nodup k').erase_eq_filter, h.queues k', filter_filter]
    congr 1
    funext c'
    rw [served_concat]
    by_cases hc' : c' = c <;> simp [hc']
  · rw [served_concat, mem_append, mem_singleton, not_or] at hc'
    rw [hother c' hc'.2]
    exact h.unserved c' hc'.1
  · rw [served_concat, mem_append, mem_singleton] at hc'
    rcases eq_or_ne c' c with rfl | hne'
    · rw [hl.clients, update_self]
      exact ⟨rfl, rfl, h.unserved c' hnot ▸ hblocked⟩
    · rw [hother c' hne']
      exact h.gone c' (hc'.resolve_right hne')
  · rw [served_concat]
    refine nodup_append.2 ⟨h.once, nodup_singleton _, fun a ha b hb hab => hnot ?_⟩
    rw [← mem_singleton.1 hb, ← hab]
    exact ha
  · have hfilter := hq
    rw [h.queues k] at hfilter
    obtain ⟨before, after, hsplit, hbefore, -⟩ := filter_eq_cons_iff.1 hfilter
    refine ⟨before, after, hsplit, fun c' hc' => ?_⟩
    have := hbefore c' hc'
    rwa [Bool.not_eq_true, Bool.not_eq_false', contains_iff_mem] at this
  · rw [served_concat, length_append, length_singleton, hl.blockedClients, ← h.count]
    omega
  · rw [hexp]
    exact h.expires k'
  · have hne' : k' ≠ k := fun heq => hk' (congrArg some heq.symm)
    have hqs : s.clientsOn k' ≠ [] := by
      intro hnil
      rw [hl.queues k', hnil] at hq'
      exact hq' rfl
    rcases hnew k' hne' hq' hc' with hc'' | hin
    · rcases mem_append.1 (h.awake hawake k' hk' hqs hc'') with hm | hm
      · exact mem_append_left _ (hsub hm)
      · exact mem_append_right _ hm
    · exact hin
  · have hend := h.ticks.2
    have hone := hl.blockedClients
    unfold Server.endTick at hend ⊢
    omega

section popped
variable {cs : List Nat} {xs rest : List Elem} {v : Elem} {head : Bool} {t s₃ : Server}

theorem Popped.contents (hp : Popped c k rest t s₃) : s₃.contents = update t.contents k rest := by
  have : s₃.contents = fun k' => Value.elems (s₃.dict k') := rfl
  rw [this, hp.dict, contents_update]
  rfl

theorem Popped.readyOk (hp : Popped c k rest t s₃) (h : ReadyOk pending t) : ReadyOk pending s₃ := by
  refine ⟨fun k' => ?_, ?_⟩
  · rw [hp.ready, hp.readyKeys]
    exact h.ready k'
  · rw [hp.readyKeys]
    exact h.nodup

theorem contents_of_dict (h : t.dict k = some (.list xs)) : t.contents k = xs := by
  rw [Server.contents, h]
  rfl

theorem Popped.serve (hp : Popped c k rest t s₃) (h₀ : Index s₀) (h : Inv s₀ evs pending (some k) t)
    (hq : t.clientsOn k = c :: cs) {d : Key → Option Value} (hd : ∀ k', k' ≠ k → d k' = t.dict k')
    (happly : apply t.contents (.served k c v head outcome) = some fun k' => Value.elems (d k')) :
    Inv s₀ (evs ++ [.served k c v head outcome]) pending (some k)
      (Server.record { s₃ with dict := d } (.served k c v head outcome)) := by
  refine h.serve h₀ hq ⟨hp.queues, hp.entries, hp.clients, hp.blockedClients⟩ (congrArg (· ++ _) hp.log) happly hp.expires
    ⟨(hp.readyOk h.ready).ready, (hp.readyOk h.ready).nodup⟩ (fun _ hm => hp.readyKeys.symm ▸ hm) ?_ hp.ticks
    (fun k' hk' => ?_) fun k' hk' _ hc' => .inl ?_
  · exact hp.readyKeys ▸ Nat.le_succ _
  · show d k' ≠ _
    rw [hd k' hk']
    exact h.nonempty k' fun heq => hk' (Option.some.inj heq).symm
  · rw [Server.contents, ← hd k' hk']
    exact hc'

variable (hp : Popped c k rest t s₃) (h₀ : Index s₀) (h : Inv s₀ evs pending (some k) t)
  (hq : t.clientsOn k = c :: cs) (hk : t.dict k = some (.list xs)) (hpop : listTypePop head xs = some (v, rest))
include hp h₀ h hq hk hpop

theorem Popped.delivered :
    Inv s₀ (evs ++ [.served k c v head .delivered]) pending (some k) (s₃.record (.served k c v head .delivered)) := by
  refine hp.serve h₀ h hq (fun k' hk' => by rw [hp.dict, update_of_ne hk']) ?_
  rw [apply, contents_of_dict hk, hpop]
  dsimp only
  rw [if_pos rfl]
  exact congrArg some hp.contents.symm

theorem Popped.putBack : Inv s₀ (evs ++ [.served k c v head .putBack]) pending (some k)
      ((s₃.setValue k (.list (listTypePush head v rest))).record (.served k c v head .putBack)) := by
  have hdict : update s₃.dict k (some (.list (listTypePush head v rest))) = t.dict := by
    rw [hp.dict, update_idem, listTypePush_pop hpop, ← hk, update_eq_self]
  rw [Server.setValue, hdict]
  refine hp.serve h₀ h hq (fun _ _ => rfl) ?_
  rw [apply, contents_of_dict hk, hpop]
  dsimp only
  rw [if_pos rfl]
  rfl

theorem Popped.pushed {dst : Key} (hdst : ∀ kind, s₃.dict dst ≠ some (.plain kind)) :
    ∃ s₄, rpoplpushHandlePush dst v s₃ = .ok s₄ ∧ s₄.clientsOn = s₃.clientsOn ∧ s₄.expires = s₃.expires ∧
      s₄.ticks = s₃.ticks ∧ s₄.dict = update s₃.dict dst (some (.list (v :: s₃.contents dst))) ∧
      Inv s₀ (evs ++ [.served k c v head (.pushed dst)]) pending (some k)
        (s₄.record (.served k c v head (.pushed dst))) := by
  have hne : ∀ k', k' ≠ k → t.dict k' ≠ some (.list []) :=
    fun k' hk' => h.nonempty k' fun heq => hk' (Option.some.inj heq).symm
  -- whatever else the push does, it puts the element at the head of the list
  have key : ∀ s₄ : Server, Leaves c t s₄ → s₄.log = t.log → s₄.expires = t.expires →
      s₄.dict = update s₃.dict dst (some (.list (v :: s₃.contents dst))) →
      ReadyOk pending s₄ → t.readyKeys ⊆ s₄.readyKeys → s₄.readyKeys.length ≤ t.readyKeys.length + 1 →
      s₄.ticks = s₃.ticks → (dst ≠ k → s₄.clientsOn dst ≠ [] → t.contents dst ≠ [] ∨ dst ∈ s₄.readyKeys ++ pending) →
      Inv s₀ (evs ++ [.served k c v head (.pushed dst)]) pending (some k)
        (s₄.record (.served k c v head (.pushed dst))) := by
    intro s₄ hl hlog hexp hdict hready hsub hkeys hticks hnew
    have hcont : s₄.contents = update s₃.contents dst (v :: s₃.contents dst) := by
      have : s₄.contents = fun k' => Value.elems (s₄.dict k') := rfl
      rw [this, hdict, contents_update]
      rfl
    refine h.serve h₀ hq ⟨hl.queues, hl.entries, hl.clients, hl.blockedClients⟩ ?_ ?_ hexp
      ⟨hready.ready, hready.nodup⟩ hsub hkeys (hticks ▸ hp.ticks) (fun k' hk' => ?_) fun k' hk' hq' hc' => ?_
    · show s₄.log ++ _ = _
      rw [hlog]
    · rw [apply, contents_of_dict hk, hpop]
      dsimp only
      rw [if_pos rfl, ← hp.contents]
      exact congrArg some hcont.symm
    · show s₄.dict k' ≠ _
      rw [hdict]
      rcases eq_or_ne k' dst with rfl | hd
      · rw [update_self]
        intro heq
        exact nomatch heq
      · rw [update_of_ne hd, hp.dict, update_of_ne hk']
        exact hne k' hk'
    · rcases eq_or_ne k' dst with rfl | hd
      · exact hnew hk' hq'
      · have : s₄.contents k' ≠ [] := hc'
        rw [hcont, update_of_ne hd, hp.contents, update_of_ne hk'] at this
        exact .inl this
  unfold rpoplpushHandlePush
  cases hd : s₃.dict dst with
  | none =>
    have hcontents : s₃.contents dst = [] := by
      rw [Server.contents, hd]
      rfl
    obtain ⟨σ, hσ⟩ : ∃ σ, σ = signalKeyAsReady dst (s₃.setValue dst (.list [])) := ⟨_, rfl⟩
    have hreadyOk : ReadyOk pending (s₃.setValue dst (.list [])) :=
      ⟨(hp.readyOk h.ready).ready, (hp.readyOk h.ready).nodup⟩
    have hsig := signalKeyAsReady_eq dst (s₃.setValue dst (.list []))
    have hok := hreadyOk.signal dst
    have hsub := subset_signalKeyAsReady dst (s₃.setValue dst (.list []))
    have hmem := hreadyOk.mem_signal (k := dst)
    have hkeys := length_signalKeyAsReady dst (s₃.setValue dst (.list []))
    rw [← hσ] at hsig hok hsub hmem hkeys
    have hpush : (dbAdd dst (.list []) s₃).map (fun s => s.setValue dst (.list [v])) = .ok { s₃ with
        dict := update s₃.dict dst (some (.list [v])), readyKeys := σ.readyKeys, ready := σ.ready } := by
      rw [dbAdd, if_pos hd, if_pos (by rfl), ← hσ, hsig]
      show Except.ok { s₃ with
        dict := update (update s₃.dict dst _) dst _, readyKeys := _, ready := _ } = _
      rw [update_idem]
    refine ⟨_, hpush, rfl, rfl, rfl, by rw [hcontents], key _ ⟨hp.queues, hp.entries, hp.clients, hp.blockedClients⟩
      hp.log hp.expires (by rw [hcontents]) ⟨hok.ready, hok.nodup⟩ (fun k' hm => hsub (hp.readyKeys.symm ▸ hm))
      (hp.readyKeys ▸ hkeys) rfl fun _ hq' => .inr (hmem hq')⟩
  | some val =>
    cases val with
    | plain kind => exact absurd hd (hdst kind)
    | list ys =>
      have hcontents : s₃.contents dst = ys := contents_of_dict hd
      refine ⟨_, rfl, rfl, rfl, rfl, ?_, key _ ⟨hp.queues, hp.entries, hp.clients, hp.blockedClients⟩ hp.log hp.expires ?_
        ⟨(hp.readyOk h.ready).ready, (hp.readyOk h.ready).nodup⟩ (fun _ hm => hp.readyKeys.symm ▸ hm)
        (hp.readyKeys ▸ Nat.le_succ _) rfl fun hdk _ => .inl ?_⟩
      · rw [hcontents]
        rfl
      · rw [hcontents]
        rfl
      rw [hp.dict, update_of_ne hdk] at hd
      rw [contents_of_dict hd]
      rintro rfl
      exact hne dst hdk hd

end popped

end

end Redis.Blocking
