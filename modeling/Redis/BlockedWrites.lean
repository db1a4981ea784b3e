import Redis.BlockedLoops

/-! # Writes and ready keys

Between commands every key with blocked clients and a list that has elements is among the ready keys
(`Awake`). The commands keep this, since a new list under a key comes from `dbAdd`, which signals the key, or
from a swap of databases, after which the keys with blocked clients are looked up. `dbOverwrite` does not
signal: `setKey_ok` needs that no client waits for the key. -/

namespace Redis.Blocking
open List Function

/-- The state between two commands. -/
structure Ok (s : Server) : Prop where
  consistent : Consistent s
  awake : Awake s

section
variable {s s' : Server} {k : Key} {c : Nat} {clock : Nat → Int}

/-! ### Writes to the keyspace -/

/-- `s'` has the clients of `s`, and its ready keys or more. -/
structure Keeps (s s' : Server) : Prop where
  blocking : s'.blockingKeys = s.blockingKeys
  clients : s'.clients = s.clients
  count : s'.blockedClients = s.blockedClients
  ready : ReadyOk [] s'
  sub : s.readyKeys ⊆ s'.readyKeys

theorem Keeps.setValue (h : Keeps s s') (k : Key) (v : Value) : Keeps s (s'.setValue k v) :=
  ⟨h.blocking, h.clients, h.count, ⟨h.ready.ready, h.ready.nodup⟩, h.sub⟩

theorem Keeps.delete (h : Keeps s s') (k : Key) : Keeps s (dbDelete k s') :=
  ⟨h.blocking, h.clients, h.count, ⟨h.ready.ready, h.ready.nodup⟩, h.sub⟩

theorem Keeps.signal (h : Keeps s s') (k : Key) : Keeps s (signalKeyAsReady k s') := by
  have hready := h.ready.signal k
  have hsub := subset_signalKeyAsReady k s'
  rw [signalKeyAsReady_eq] at hready hsub ⊢
  exact ⟨h.blocking, h.clients, h.count, hready, fun _ hm => hsub (h.sub hm)⟩

theorem Keeps.mem_signal (h : Keeps s s') (hk : s.clientsOn k ≠ []) : k ∈ (signalKeyAsReady k s').readyKeys := by
  rw [Server.clientsOn, ← h.blocking] at hk
  have := h.ready.mem_signal hk
  rwa [append_nil] at this

/-- The key is looked up as it is, or is deleted since it has expired. -/
def LookedUp (clock : Nat → Int) (k : Key) (s s' : Server) : Prop :=
  s.keyIsExpired clock k = false ∧ s' = s.tick ∨
    s.keyIsExpired clock k = true ∧ s' = (dbDelete k s.tick).record (.expired k (s.contents k))

theorem LookedUp.found (h : LookedUp clock k s s') {v : Value} (hv : s'.dict k = some v) :
    s.keyIsExpired clock k = false ∧ s' = s.tick := by
  refine h.resolve_right ?_
  rintro ⟨-, rfl⟩
  have hnone : ((dbDelete k s.tick).record (.expired k (s.contents k))).dict k = none := update_self ..
  rw [hnone] at hv
  cases hv

section
variable (h : Ok s)
include h

theorem Ok.keeps : Keeps s s := ⟨rfl, rfl, rfl, h.consistent.ready, fun _ hm => hm⟩

theorem Ok.write (hs : Keeps s s') (hne : ∀ k, s'.dict k ≠ some (.list []))
    (hnew : ∀ k, s.clientsOn k ≠ [] → s'.contents k ≠ [] → s.contents k ≠ [] ∨ k ∈ s'.readyKeys) : Ok s' := by
  have hq : s'.clientsOn = s.clientsOn := by
    funext k
    rw [Server.clientsOn, hs.blocking]
    rfl
  have hi := h.consistent.index
  refine ⟨⟨⟨?_, ?_, ?_, ?_, ?_, ?_⟩, hs.ready, hne⟩, fun k hk hc => ?_⟩
  · rw [hq, hs.clients]
    exact hi.waits
  · rw [hq]
    exact hi.nodup
  · rw [hs.blocking]
    exact hi.entries
  · rw [hs.clients]
    exact hi.keysNodup
  · rw [hs.clients]
    exact hi.keys
  · rw [hs.clients, hs.count]
    exact hi.counted
  rw [hq] at hk
  rcases hnew k hk hc with hold | hin
  · exact hs.sub (h.awake k hk hold)
  · exact hin

theorem Ok.writeAt {v : Option Value} (hs : Keeps s s') (hdict : s'.dict = update s.dict k v) (hv : v ≠ some (.list []))
    (hnew : s.clientsOn k ≠ [] → Value.elems v ≠ [] → s.contents k ≠ [] ∨ k ∈ s'.readyKeys) : Ok s' := by
  refine h.write hs (fun k' => ?_) fun k' hk' hc => ?_
  · rw [hdict]
    rcases eq_or_ne k' k with rfl | hne
    · rwa [update_self]
    · rw [update_of_ne hne]
      exact h.consistent.nonempty k'
  · rw [Server.contents, hdict] at hc
    rcases eq_or_ne k' k with rfl | hne
    · rw [update_self] at hc
      exact hnew hk' hc
    · rw [update_of_ne hne] at hc
      exact .inl hc

/-- The expire times, the clock and the log are not part of it. -/
theorem Ok.of_eq (hd : s'.dict = s.dict) (hb : s'.blockingKeys = s.blockingKeys) (hc : s'.clients = s.clients)
    (hn : s'.blockedClients = s.blockedClients) (hr : s'.ready = s.ready) (hk : s'.readyKeys = s.readyKeys) : Ok s' := by
  refine h.write ⟨hb, hc, hn, ⟨?_, ?_⟩, ?_⟩ ?_ fun k _ hne => .inl ?_
  · rw [hr, hk]
    exact h.consistent.ready.ready
  · rw [hk]
    exact h.consistent.ready.nodup
  · rw [hk]
    exact fun _ hm => hm
  · rw [hd]
    exact h.consistent.nonempty
  · rwa [Server.contents, hd] at hne

theorem Ok.tick : Ok s.tick := h.of_eq rfl rfl rfl rfl rfl rfl

theorem Ok.record (ev : Event) : Ok (s.record ev) := h.of_eq rfl rfl rfl rfl rfl rfl

theorem Ok.setExpire (k : Key) (e : Option Int) : Ok (s.setExpire k e) := h.of_eq rfl rfl rfl rfl rfl rfl

variable {v : Value}

theorem Ok.setValue (hv : v ≠ .list [])
    (hnew : Value.elems (some v) ≠ [] → s.contents k ≠ [] ∨ s.clientsOn k = []) : Ok (s.setValue k v) :=
  h.writeAt (h.keeps.setValue k v) rfl (fun heq => hv (Option.some.inj heq))
    fun hk hc => .inl ((hnew hc).resolve_right hk)

theorem Ok.delete (k : Key) : Ok (dbDelete k s) :=
  h.writeAt (h.keeps.delete k) rfl nofun fun _ hc => absurd rfl hc

theorem lookupKeyWrite_ok (clock : Nat → Int) (k : Key) :
    ∃ s', lookupKeyWrite clock k s = (s', s'.dict k) ∧ Ok s' ∧ LookedUp clock k s s' := by
  rw [lookupKeyWrite]
  split
  next hexp =>
    have hnone : ((dbDelete k s.tick).record (.expired k (s.contents k))).dict k = none := update_self ..
    exact ⟨_, by rw [hnone], (h.tick.delete k).record _, .inr ⟨hexp, rfl⟩⟩
  next hexp => exact ⟨s.tick, rfl, h.tick, .inl ⟨Bool.eq_false_iff.2 hexp, rfl⟩⟩

theorem Ok.signalled {v' : Value} (hv : v' ≠ .list []) :
    Ok ((signalKeyAsReady k (s.setValue k v)).setValue k v') := by
  have hs := h.keeps.setValue k v
  refine h.writeAt ((hs.signal k).setValue k v') ?_ (fun heq => hv (Option.some.inj heq))
    fun hk _ => .inr (hs.mem_signal hk)
  rw [signalKeyAsReady_eq]
  exact update_idem ..

variable {xs : List Elem}

theorem dbAdd_list (hk : s.dict k = none) (hxs : xs ≠ []) :
    ∃ s', dbAdd k (.list []) s = .ok s' ∧ Ok (s'.setValue k (.list xs)) :=
  ⟨_, if_pos hk, h.signalled fun heq => hxs (Value.list.inj heq)⟩

theorem dbAdd_ok (hk : s.dict k = none) (hv : v ≠ .list []) :
    ∃ s', dbAdd k v s = .ok s' ∧ Ok s' ∧ s'.dict k = some v := by
  have hput : (s.setValue k v).dict k = some v := update_self ..
  refine ⟨_, if_pos hk, ?_⟩
  split
  · refine ⟨?_, by rwa [signalKeyAsReady_eq]⟩
    have hs := h.signalled (k := k) (v := v) hv
    have hsame : (signalKeyAsReady k (s.setValue k v)).setValue k v = signalKeyAsReady k (s.setValue k v) := by
      rw [signalKeyAsReady_eq]
      show { s with dict := update (update s.dict k _) k _, readyKeys := _, ready := _ } = _
      rw [update_idem]
      rfl
    rwa [hsame] at hs
  next hsig =>
    refine ⟨h.setValue hv fun hel => absurd ?_ hel, hput⟩
    cases v with
    | list xs => exact absurd rfl hsig
    | plain kind => rfl

/-! ### Commands on keys -/

theorem contents_ne_nil (hk : s.dict k = some (.list xs)) : xs ≠ [] := by
  rintro rfl
  exact h.consistent.nonempty k hk

theorem setList_ok {ys : List Elem} (hk : s.dict k = some (.list xs)) (hys : ys ≠ []) :
    Ok (s.setValue k (.list ys)) := by
  refine h.setValue (fun heq => hys (Value.list.inj heq)) fun _ => .inl ?_
  rw [contents_of_dict hk]
  exact contents_ne_nil h hk

end

theorem pushAll_ne_nil (head : Bool) {vs : List Elem} (h : xs ≠ [] ∨ vs ≠ []) :
    vs.foldl (fun xs v => listTypePush head v xs) xs ≠ [] := by
  induction vs generalizing xs with
  | nil => exact h.resolve_right (fun hf => hf rfl)
  | cons v vs ih =>
    cases head <;> simp [listTypePush]

section
variable (h : Ok s)
include h

theorem pushGenericCommand_ok (vs : List Elem) (head : Bool) :
    ∃ s', pushGenericCommand clock k vs head s = .ok s' ∧ Ok s' := by
  obtain ⟨s₁, hs₁, h₁, -⟩ := lookupKeyWrite_ok h clock k
  unfold pushGenericCommand
  rw [hs₁]
  cases hk : s₁.dict k with
  | none =>
    dsimp only
    split
    · exact ⟨_, rfl, h₁⟩
    next hvs =>
      obtain ⟨s', hs', hok⟩ := dbAdd_list h₁ hk (pushAll_ne_nil head (.inr hvs))
      rw [hs']
      exact ⟨_, rfl, hok⟩
  | some v =>
    cases v with
    | plain kind => exact ⟨_, rfl, h₁⟩
    | list xs => exact ⟨_, rfl, setList_ok h₁ hk (pushAll_ne_nil head (.inl (contents_ne_nil h₁ hk)))⟩

theorem popFrom_ok (head : Bool) (hk : s.dict k = some (.list xs)) : Ok (popFrom k head xs s) := by
  unfold popFrom
  split
  · exact h
  · split
    · exact h.delete k
    next hrest => exact setList_ok h hk hrest

theorem popGenericCommand_ok (head : Bool) : Ok (popGenericCommand clock k head s) := by
  obtain ⟨s₁, hs₁, h₁, -⟩ := lookupKeyWrite_ok h clock k
  unfold popGenericCommand
  rw [hs₁]
  dsimp only
  split
  next hk => exact popFrom_ok h₁ head hk
  · exact h₁

theorem Ok.move {src dst : Key} {v : Elem} {rest ys : List Elem} (hne : dst ≠ src)
    (hsrc : s.dict src = some (.list xs)) (hs : Keeps s s')
    (hdict : s'.dict = update (update s.dict src (some (.list rest))) dst (some (.list (v :: ys))))
    (hdst : s.clientsOn dst ≠ [] → s.contents dst ≠ [] ∨ dst ∈ s'.readyKeys) :
    Ok (if s'.dict src = some (.list []) then dbDelete src s' else s') := by
  have hother : ∀ k, k ≠ src → k ≠ dst → s'.dict k = s.dict k := by
    intro k hk hk'
    rw [hdict, update_of_ne hk', update_of_ne hk]
  have hdst' : s'.dict dst = some (.list (v :: ys)) := by rw [hdict, update_self]
  have hnew : ∀ k, k ≠ src → s.clientsOn k ≠ [] → s'.contents k ≠ [] → s.contents k ≠ [] ∨ k ∈ s'.readyKeys := by
    intro k hk hq hc
    rcases eq_or_ne k dst with rfl | hk'
    · exact hdst hq
    · rw [Server.contents, hother k hk hk'] at hc
      exact .inl hc
  have hempty : ∀ k, k ≠ src → s'.dict k ≠ some (.list []) := by
    intro k hk
    rcases eq_or_ne k dst with rfl | hk'
    · rw [hdst']
      simp
    · rw [hother k hk hk']
      exact h.consistent.nonempty k
  split
  · refine h.write (hs.delete src) (fun k => ?_) fun k hq hc => ?_
    · show update s'.dict src none k ≠ _
      rcases eq_or_ne k src with rfl | hk
      · simp
      · rw [update_of_ne hk]
        exact hempty k hk
    · have hc' : Value.elems (update s'.dict src none k) ≠ [] := hc
      rcases eq_or_ne k src with rfl | hk
      · rw [update_self] at hc'
        exact absurd rfl hc'
      · rw [update_of_ne hk] at hc'
        exact hnew k hk hq hc'
  next hrest =>
    refine h.write hs (fun k => ?_) fun k hq hc => ?_
    · rcases eq_or_ne k src with rfl | hk
      · exact hrest
      · exact hempty k hk
    · rcases eq_or_ne k src with rfl | hk
      · rw [contents_of_dict hsrc]
        exact .inl (contents_ne_nil h hsrc)
      · exact hnew k hk hq hc

theorem rpoplpushHandlePush_ok {src dst : Key} (v : Elem) (rest : List Elem)
    (hsrc : s.dict src = some (.list xs)) (hdst : ∀ kind, s.dict dst ≠ some (.plain kind)) :
    ∃ s', rpoplpushHandlePush dst v (s.setValue src (.list rest)) = .ok s' ∧
      Ok (if s'.dict src = some (.list []) then dbDelete src s' else s') := by
  unfold rpoplpushHandlePush
  rcases eq_or_ne dst src with rfl | hne
  · -- the element goes from the tail to the head of the same list
    have hd : (s.setValue dst (.list rest)).dict dst = some (.list rest) := update_self ..
    rw [hd]
    have hset : (s.setValue dst (.list rest)).setValue dst (.list (v :: rest)) = s.setValue dst (.list (v :: rest)) := by
      show { s with dict := update (update s.dict dst _) dst _ } = _
      rw [update_idem]
      rfl
    refine ⟨_, rfl, ?_⟩
    rw [hset, if_neg]
    · exact setList_ok h hsrc (cons_ne_nil _ _)
    · show update s.dict dst _ dst ≠ _
      simp
  · have hd : (s.setValue src (.list rest)).dict dst = s.dict dst := update_of_ne hne ..
    have hs := h.keeps.setValue src (.list rest)
    rw [hd]
    cases hdict : s.dict dst with
    | none =>
      have hs' := hs.setValue dst (.list [])
      have hadd : dbAdd dst (.list []) (s.setValue src (.list rest)) =
          .ok (signalKeyAsReady dst ((s.setValue src (.list rest)).setValue dst (.list []))) := if_pos (hd.trans hdict)
      have hput : ((signalKeyAsReady dst ((s.setValue src (.list rest)).setValue dst (.list []))).setValue dst (.list [v])).dict =
          update (update s.dict src (some (.list rest))) dst (some (.list [v])) := by
        rw [signalKeyAsReady_eq]
        exact update_idem ..
      rw [hadd]
      exact ⟨_, rfl, h.move hne hsrc ((hs'.signal dst).setValue dst _) hput fun hq => .inr (hs'.mem_signal hq)⟩
    | some w =>
      cases w with
      | plain kind => exact absurd hdict (hdst kind)
      | list ys =>
        refine ⟨_, rfl, h.move hne hsrc (hs.setValue dst _) rfl fun _ => .inl ?_⟩
        rw [contents_of_dict hdict]
        exact contents_ne_nil h hdict

/-- A list that was looked up is not freed by the lookup of another key, or of itself when the clock does not get to
its expire time in between. -/
theorem rpoplpushCommand_ok (src dst : Key) (hself : src = dst → s.SteadyAt clock src (s.ticks + 2)) :
    ∃ s', rpoplpushCommand clock src dst s = .ok s' ∧ Ok s' := by
  obtain ⟨s₁, hs₁, h₁, hfound⟩ := lookupKeyWrite_ok h clock src
  unfold rpoplpushCommand
  rw [hs₁]
  rcases hsrc : s₁.dict src with - | v
  · exact ⟨_, rfl, h₁⟩
  cases v with
  | plain kind => exact ⟨_, rfl, h₁⟩
  | list xs =>
    obtain ⟨halive, rfl⟩ := hfound.found hsrc
    obtain ⟨s₂, hs₂, h₂, hother⟩ := lookupKeyWrite_ok h₁ clock dst
    have hkept : s₂.dict src = some (.list xs) := by
      rcases hother with ⟨-, rfl⟩ | ⟨hexp, rfl⟩
      · exact hsrc
      rcases eq_or_ne src dst with rfl | hne
      · rw [(hself rfl).next halive] at hexp
        exact absurd hexp Bool.false_ne_true
      · exact (update_of_ne hne ..).trans hsrc
    dsimp only
    rw [hs₂, hkept]
    have hpush : (∀ kind, s₂.dict dst ≠ some (.plain kind)) → ∃ s', moveTail src dst xs s₂ = .ok s' ∧ Ok s' := by
      intro hplain
      unfold moveTail
      split
      · exact ⟨_, rfl, h₂⟩
      next v rest _ =>
        obtain ⟨s', hs', hok⟩ := rpoplpushHandlePush_ok h₂ v rest hkept hplain
        rw [hs']
        exact ⟨_, rfl, hok⟩
    cases hd : s₂.dict dst with
    | none =>
      refine hpush fun kind heq => ?_
      rw [hd] at heq
      simp at heq
    | some w =>
      cases w with
      | plain kind => exact ⟨_, rfl, h₂⟩
      | list ys =>
        refine hpush fun kind heq => ?_
        rw [hd] at heq
        simp at heq

omit h in
theorem keyOps_sound (clock : Nat → Int) :
    (keyOps clock).Sound Ok (fun s k => s.dict k) fun _ v => v ≠ .list [] where
  lookup k h := by
    obtain ⟨s', hs', h', -⟩ := lookupKeyWrite_ok h clock k
    exact ⟨s', congrArg Except.ok hs', h'⟩
  add h hk hv := dbAdd_ok h hk hv
  delete k h := ⟨_, rfl, h.delete k, update_self ..⟩
  getExpire k _ := ⟨_, rfl⟩
  setExpire when h _ := ⟨_, rfl, h.setExpire _ (some when)⟩
  signal _ h := h

theorem renameGenericCommand_ok (src dst : Key) (nx : Bool) :
    ∃ s', renameGenericCommand clock src dst nx s = .ok s' ∧ Ok s' := by
  obtain ⟨s', r, hs', h'⟩ := (keyOps_sound clock).renameGenericCommand (keyOps_sound clock) h
    (fun s o hs ho (heq : o = .list []) => hs.consistent.nonempty src (heq ▸ ho)) nx
  exact ⟨s', congrArg (Except.map Prod.fst) hs', h'⟩

theorem moveCommand_ok (src : Key) (db : Nat) : ∃ s', moveCommand clock src db s = .ok s' ∧ Ok s' := by
  unfold moveCommand
  dsimp only
  split
  · exact ⟨_, rfl, h⟩
  obtain ⟨s', r, hs', h'⟩ := (keyOps_sound clock).moveCommand (keyOps_sound clock) h
    fun s o hs ho (heq : o = .list []) => hs.consistent.nonempty src (heq ▸ ho)
  exact ⟨s', congrArg (Except.map Prod.fst) hs', h'⟩

theorem expireGenericCommand_ok (when : Int) : Ok (expireGenericCommand clock k when s) := by
  obtain ⟨s₁, hs₁, h₁, -⟩ := lookupKeyWrite_ok h clock k
  unfold expireGenericCommand
  rw [hs₁]
  dsimp only
  split
  · exact h₁
  split
  · exact h₁.tick.delete k
  · exact h₁.tick.setExpire k _

theorem setKey_ok (hv : v ≠ .list [])
    (hnew : s.dict k ≠ none → Value.elems (some v) ≠ [] → s.contents k ≠ [] ∨ s.clientsOn k = []) :
    ∃ s', setKey clock k v s = .ok s' ∧ Ok s' := by
  obtain ⟨s₁, hs₁, h₁, hfound⟩ := lookupKeyWrite_ok h clock k
  obtain ⟨s₂, hs₂, h₂⟩ : ∃ s₂, (if (s₁.dict k).isNone then (keyOps clock).dbAdd s₁ k v else (keyOps clock).dbOverwrite s₁ k v) =
      .ok s₂ ∧ Ok s₂ := by
    rcases hd : s₁.dict k with - | w
    · obtain ⟨s₂, hs₂, h₂, -⟩ := dbAdd_ok h₁ hd hv
      exact ⟨s₂, hs₂, h₂⟩
    · obtain ⟨-, rfl⟩ := hfound.found hd
      exact ⟨_, rfl, h₁.setValue hv (hnew (Option.ne_none_iff_exists'.2 ⟨w, hd⟩))⟩
  exact ⟨_, SetOps.setKey_eq (congrArg Except.ok hs₁) hs₂ rfl, h₂.setExpire k none⟩

end

/-! ### SWAPDB -/

structure Scanned (s s' : Server) : Prop where
  frame : s' = { s with readyKeys := s'.readyKeys, ready := s'.ready }
  ready : ReadyOk [] s → ReadyOk [] s'
  sub : s.readyKeys ⊆ s'.readyKeys

theorem Scanned.refl (s : Server) : Scanned s s := ⟨rfl, fun h => h, fun _ hm => hm⟩

theorem Scanned.trans {s'' : Server} (h : Scanned s s') (h' : Scanned s' s'') : Scanned s s'' := by
  refine ⟨?_, fun hr => h'.ready (h.ready hr), fun _ hm => h'.sub (h.sub hm)⟩
  have := h'.frame
  rw [h.frame] at this
  exact this

theorem Scanned.signal (k : Key) (s : Server) : Scanned s (signalKeyAsReady k s) :=
  ⟨signalKeyAsReady_eq k s, fun h => h.signal k, subset_signalKeyAsReady k s⟩

theorem scan_spec (ks : List Key) : ∀ {s : Server},
    Scanned s (ks.foldl (fun s k => if Value.scanned (s.dict k) then signalKeyAsReady k s else s) s) ∧
      (ReadyOk [] s → ∀ k ∈ ks, s.clientsOn k ≠ [] → s.contents k ≠ [] →
        k ∈ (ks.foldl (fun s k => if Value.scanned (s.dict k) then signalKeyAsReady k s else s) s).readyKeys) := by
  induction ks with
  | nil => exact fun {s} => ⟨.refl s, fun _ k hk => absurd hk not_mem_nil⟩
  | cons k₀ ks ih =>
    intro s
    rw [foldl_cons]
    obtain ⟨s₁, hs₁⟩ : ∃ s₁, s₁ = if Value.scanned (s.dict k₀) then signalKeyAsReady k₀ s else s := ⟨_, rfl⟩
    have hscan : Scanned s s₁ := by
      rw [hs₁]
      split
      · exact .signal k₀ s
      · exact .refl s
    rw [← hs₁]
    obtain ⟨hrest, hin⟩ := ih
    refine ⟨hscan.trans hrest, fun hr k hk hq hc => ?_⟩
    have hsame : s₁.clientsOn k = s.clientsOn k ∧ s₁.contents k = s.contents k := by
      rw [hscan.frame]
      exact ⟨rfl, rfl⟩
    rcases mem_cons.1 hk with rfl | hk
    · refine hrest.sub ?_
      have hlist : Value.scanned (s.dict k) = true := by
        unfold Server.contents at hc
        rcases hd : s.dict k with - | v
        · rw [hd] at hc
          exact absurd rfl hc
        cases v with
        | list xs => rfl
        | plain kind =>
          rw [hd] at hc
          exact absurd rfl hc
      rw [hs₁, if_pos hlist]
      have := hr.mem_signal hq
      rwa [append_nil] at this
    · exact hin (hscan.ready hr) k hk (hsame.1 ▸ hq) (hsame.2 ▸ hc)

theorem scanDatabaseForReadyLists_spec (rank : Nat → Nat) (db : Nat) (s : Server) :
    Scanned s (scanDatabaseForReadyLists rank db s) ∧
      (ReadyOk [] s → ∀ k, k.1 = db → s.clientsOn k ≠ [] → s.contents k ≠ [] →
        k ∈ (scanDatabaseForReadyLists rank db s).readyKeys) := by
  obtain ⟨hscan, hin⟩ := scan_spec ((s.blockingKeys.keys.filter fun k => decide (k.1 = db)).insertionSort
    fun k k' => rank k.2 ≤ rank k'.2)
  refine ⟨hscan, fun hr k hk hq hc => hin hr k ?_ hq hc⟩
  refine (perm_insertionSort _ _).mem_iff.2 (mem_filter.2 ⟨?_, decide_eq_true hk⟩)
  obtain ⟨c, cs, hcs⟩ := exists_cons_of_ne_nil hq
  exact mem_keys_of_mem_clientsOn (hcs ▸ mem_cons_self : c ∈ s.clientsOn k)

theorem dbSwapDatabases_ok (h : Ok s) (id1 id2 : Nat) (rank : Nat → Nat) : Ok (dbSwapDatabases id1 id2 rank s) := by
  unfold dbSwapDatabases
  split
  · exact h
  obtain ⟨s₁, hs₁⟩ : ∃ s₁ : Server, s₁ = { s with
    dict := fun k => s.dict (swapKey id1 id2 k), expires := fun k => s.expires (swapKey id1 id2 k) } := ⟨_, rfl⟩
  rw [← hs₁]
  have hready : ReadyOk [] s₁ := by
    rw [hs₁]
    exact ⟨h.consistent.ready.ready, h.consistent.ready.nodup⟩
  obtain ⟨hscan₁, hin₁⟩ := scanDatabaseForReadyLists_spec rank id1 s₁
  obtain ⟨hscan₂, hin₂⟩ := scanDatabaseForReadyLists_spec rank id2 (scanDatabaseForReadyLists rank id1 s₁)
  obtain ⟨s₂, hs₂⟩ : ∃ s₂, s₂ = scanDatabaseForReadyLists rank id1 s₁ := ⟨_, rfl⟩
  obtain ⟨s₃, hs₃⟩ : ∃ s₃, s₃ = scanDatabaseForReadyLists rank id2 s₂ := ⟨_, rfl⟩
  rw [← hs₂] at hscan₁ hin₁ hscan₂ hin₂ ⊢
  rw [← hs₃] at hscan₂ hin₂ ⊢
  have hscan := hscan₁.trans hscan₂
  have hdict : s₃.dict = fun k => s.dict (swapKey id1 id2 k) := by rw [hscan.frame, hs₁]
  have hq₂ : s₂.clientsOn = s.clientsOn ∧ s₂.contents = s₃.contents := by
    rw [hscan₂.frame, hscan₁.frame, hs₁]
    exact ⟨rfl, rfl⟩
  have hq₁ : s₁.clientsOn = s.clientsOn ∧ s₁.contents = s₃.contents := by
    rw [hscan.frame, hs₁]
    exact ⟨rfl, rfl⟩
  refine h.write ⟨by rw [hscan.frame, hs₁], by rw [hscan.frame, hs₁], by rw [hscan.frame, hs₁],
    hscan.ready hready, ?_⟩ (fun k => ?_) fun k hq hc => ?_
  · intro k hm
    refine hscan.sub ?_
    rw [hs₁]
    exact hm
  · rw [hdict]
    exact h.consistent.nonempty _
  · by_cases h1 : k.1 = id1
    · exact .inr (hscan₂.sub (hin₁ hready k h1 (hq₁.1 ▸ hq) (hq₁.2 ▸ hc)))
    by_cases h2 : k.1 = id2
    · exact .inr (hin₂ (hscan₁.ready hready) k h2 (hq₂.1 ▸ hq) (hq₂.2 ▸ hc))
    have hswap : swapKey id1 id2 k = k := by rw [swapKey, if_neg h1, if_neg h2]
    have hc' : Value.elems (s₃.dict k) ≠ [] := hc
    rw [hdict] at hc'
    exact .inl (hswap ▸ hc')

end

end Redis.Blocking
