import Redis.DictMap
import Redis.Keyspace

/-! # Expire times belong to keys

A call changes the entries of a few keys and leaves all others alone, so everything is stated on the
pair of entries that a key has in the two dictionaries. -/

namespace Redis.Keyspace
open Function Option AList

variable {K V : Type} [DecidableEq K] {s s' : Server K V} {j : Nat} {k : K}
variable {e : Nat × V}

/-! ### Entries -/

def Server.cell (s : Server K V) (j : Nat) (k : K) : Option (Nat × V) × Option (Nat × Int) :=
  ((s.db j).dict.lookup k, (s.db j).expires.lookup k)

def CellOk (c : Option (Nat × V) × Option (Nat × Int)) : Prop :=
  ∀ p t, c.2 = some (p, t) → ∃ v, c.1 = some (p, v)

theorem cellOk_none (o : Option (Nat × V)) : CellOk (o, none) := by
  intro p t h
  cases h

structure Server.Inv (s : Server K V) : Prop where
  cell : ∀ j k, CellOk (s.cell j k)
  timely : ∀ e ∈ s.expired, ∃ t, e.time = some t ∧ t < e.now

/-- The entries of one key are replaced by `c`. -/
def Put (s s' : Server K V) (j : Nat) (k : K) (c : Option (Nat × V) × Option (Nat × Int)) : Prop :=
  ∀ j' k', s'.cell j' k' = if j' = j ∧ k' = k then c else s.cell j' k'

variable {c : Option (Nat × V) × Option (Nat × Int)}

theorem Put.at (h : Put s s' j k c) : s'.cell j k = c := by rw [h, if_pos ⟨rfl, rfl⟩]

theorem Put.other (h : Put s s' j k c) {j' : Nat} {k' : K} (hne : ¬(j' = j ∧ k' = k)) :
    s'.cell j' k' = s.cell j' k' := by rw [h, if_neg hne]

theorem Put.inv (h : Put s s' j k c) (hs : s.Inv) (hc : CellOk c) (he : s'.expired = s.expired) : s'.Inv := by
  refine ⟨fun j' k' => ?_, he ▸ hs.timely⟩
  rw [h]
  split
  · exact hc
  · exact hs.cell j' k'

theorem lookupKey_eq (s : Server K V) (j : Nat) (k : K) : lookupKey s j k = (s.cell j k).1.map Prod.snd := rfl

theorem time_eq (s : Server K V) (j : Nat) (k : K) : s.time j k = (s.cell j k).2.map Prod.snd := rfl

theorem mem_dict_iff : k ∈ (s.db j).dict ↔ (s.cell j k).1.isSome = true := lookup_isSome.symm

theorem put_setDb {d : RedisDb K V} (hk : (d.dict.lookup k, d.expires.lookup k) = c)
    (hne : ∀ k', k' ≠ k → d.dict.lookup k' = (s.db j).dict.lookup k' ∧ d.expires.lookup k' = (s.db j).expires.lookup k') :
    Put s (s.setDb j d) j k c := by
  intro j' k'
  show ((update s.db j d j').dict.lookup k', (update s.db j d j').expires.lookup k') = _
  rw [update_apply]
  by_cases hj : j' = j
  · subst hj
    rw [if_pos rfl]
    by_cases hk' : k' = k
    · subst hk'
      rw [if_pos ⟨rfl, rfl⟩]
      exact hk
    · rw [if_neg fun h => hk' h.2, (hne k' hk').1, (hne k' hk').2]
      rfl
  · rw [if_neg hj, if_neg fun h => hj h.1]
    rfl

theorem dbAdd_put (h : (s.cell j k).1 = none) (v : V) :
    ∃ s', dbAdd s j k v = some s' ∧ Put s s' j k (some (s.nextSds, v), (s.cell j k).2) ∧ s'.expired = s.expired := by
  have hmem : k ∉ (s.db j).dict := lookup_eq_none.1 h
  have hadd : dbAdd s j k v = some _ := if_neg hmem
  have hput : Put s (s.setDb j { s.db j with dict := (s.db j).dict.insert k (s.nextSds, v) }) j k
      (some (s.nextSds, v), (s.cell j k).2) :=
    put_setDb (by rw [lookup_insert]; rfl) fun k' hk' => ⟨lookup_insert_ne hk', rfl⟩
  exact ⟨_, hadd, hput, rfl⟩

theorem dbOverwrite_put (h : (s.cell j k).1 = some e) (v : V) :
    ∃ s', dbOverwrite s j k v = some s' ∧ Put s s' j k (some (e.1, v), (s.cell j k).2) ∧ s'.expired = s.expired := by
  have hover : dbOverwrite s j k v = some _ := congrArg (Option.map _) h
  refine ⟨_, hover, put_setDb ?_ fun k' hk' => ⟨AList.lookup_insert_ne hk', rfl⟩, rfl⟩
  rw [lookup_insert]
  rfl

theorem dbSyncDelete_put (s : Server K V) (j : Nat) (k : K) :
    Put s (dbSyncDelete s j k).1 j k (none, none) ∧ (dbSyncDelete s j k).1.expired = s.expired := by
  refine ⟨put_setDb ?_ fun k' hk' => ⟨lookup_erase_ne hk', ?_⟩, rfl⟩
  · rw [lookup_erase]
    split
    · rw [lookup_erase]
    next hlen =>
      have hnil : (s.db j).expires.entries = [] := List.length_eq_zero_iff.1 (by omega)
      rw [lookup, hnil]
      rfl
  · split
    · exact lookup_erase_ne hk'
    · rfl

theorem dbDelete_eq (env : Env) (s : Server K V) (j : Nat) (k : K) : dbDelete env s j k = dbSyncDelete s j k := by
  unfold dbDelete dbAsyncDelete
  split <;> rfl

theorem setExpire_put (h : (s.cell j k).1 = some e) (when : Int) : ∃ s', setExpire s j k when = some s' ∧
      Put s s' j k (some e, some ((((s.cell j k).2.map Prod.fst).getD e.1, when))) ∧ s'.expired = s.expired := by
  have hset : setExpire s j k when = some _ := congrArg (Option.map _) h
  refine ⟨_, hset, put_setDb ?_ fun k' hk' => ⟨rfl, AList.lookup_insert_ne hk'⟩, rfl⟩
  rw [lookup_insert]
  exact Prod.ext h rfl

theorem removeExpire_put (h : (s.cell j k).1 = some e) :
    ∃ s' b, removeExpire s j k = some (s', b) ∧ Put s s' j k (some e, none) ∧ s'.expired = s.expired := by
  have hmem : k ∈ (s.db j).dict := by
    rw [mem_dict_iff, h]
    rfl
  have hrem : removeExpire s j k = some (_, _) := if_pos hmem
  refine ⟨_, _, hrem, put_setDb ?_ fun k' hk' => ⟨rfl, lookup_erase_ne hk'⟩, rfl⟩
  rw [lookup_erase]
  exact Prod.ext h rfl

/-! ### Access -/

theorem getExpire_eq (hs : s.Inv) (j : Nat) (k : K) : getExpire s j k = some ((s.time j k).getD (-1)) := by
  unfold getExpire
  rw [time_eq]
  rcases hc : (s.cell j k).2 with - | e
  · rfl
  obtain ⟨v, hv⟩ := hs.cell j k e.1 e.2 hc
  have hmem : k ∈ (s.db j).dict := by rw [mem_dict_iff, hv]; rfl
  exact if_pos hmem

structure Expired (now : Int) (s s' : Server K V) (j : Nat) (k : K) : Prop where
  put : Put s s' j k (none, none)
  time : ∃ t, s.time j k = some t ∧ t < now
  log : s'.expired = s.expired ++ [⟨j, k, s.time j k, now⟩]

theorem Expired.inv {now : Int} (h : Expired now s s' j k) (hs : s.Inv) : s'.Inv := by
  refine ⟨fun j' k' => ?_, fun e he => ?_⟩
  · rw [h.put]
    split
    · exact cellOk_none none
    · exact hs.cell j' k'
  · rw [h.log, List.mem_append, List.mem_singleton] at he
    rcases he with he | rfl
    · exact hs.timely e he
    · exact h.time

theorem deleteExpired_spec (env : Env) {now t : Int} (ht : s.time j k = some t) (hlt : t < now) :
    Expired now s (deleteExpired env now s j k).1 j k := by
  have heq : (deleteExpired env now s j k).1 =
      (dbSyncDelete { s with expired := s.expired ++ [⟨j, k, s.time j k, now⟩] } j k).1 := by
    unfold deleteExpired dbAsyncDelete
    split <;> rfl
  rw [heq]
  obtain ⟨hput, hexp⟩ := dbSyncDelete_put { s with expired := s.expired ++ [⟨j, k, s.time j k, now⟩] } j k
  exact ⟨hput, ⟨t, ht, hlt⟩, hexp⟩

section
variable (hs : s.Inv)
include hs

theorem expireIfNeeded_spec (env : Env) (j : Nat) (k : K) :
    ∃ s' b, expireIfNeeded env s j k = some (s', b) ∧ s'.Inv ∧ (s' = s ∨ Put s s' j k (none, none)) := by
  unfold expireIfNeeded keyIsExpired isExpired
  rw [getExpire_eq hs]
  simp only [map_some, some_bind]
  split
  · exact ⟨s, false, rfl, hs, .inl rfl⟩
  next h =>
    simp only [Bool.not_eq_true', Bool.not_eq_false, Bool.and_eq_true, Bool.not_eq_true', decide_eq_false_iff_not,
      decide_eq_true_eq] at h
    obtain ⟨⟨hneg, -⟩, hlt⟩ := h
    rcases ht : s.time j k with _ | t
    · rw [ht] at hneg
      exact absurd hneg (by decide)
    · rw [ht] at hlt
      have hexp := deleteExpired_spec env ht hlt
      exact ⟨_, _, rfl, hexp.inv hs, .inr hexp.put⟩

theorem lookupKeyWrite_spec (env : Env) (j : Nat) (k : K) :
    ∃ s', lookupKeyWrite env s j k = some (s', lookupKey s' j k) ∧ s'.Inv ∧
      ∀ o, lookupKey s' j k = some o → s' = s := by
  obtain ⟨s', b, heq, hs', hor⟩ := expireIfNeeded_spec hs env j k
  refine ⟨s', by rw [lookupKeyWrite, heq]; rfl, hs', fun o ho => ?_⟩
  rcases hor with rfl | hput
  · rfl
  · rw [lookupKey_eq, hput.at] at ho
    cases ho

theorem lookupKeyRead_spec (env : Env) (j : Nat) (k : K) : ∃ s' o, lookupKeyRead env s j k = some (s', o) ∧ s'.Inv := by
  obtain ⟨s', b, heq, hs', -⟩ := expireIfNeeded_spec hs env j k
  unfold lookupKeyRead
  rw [heq]
  cases b with
  | false | true => exact ⟨s', _, rfl, hs'⟩

/-! ### Changes -/

theorem dbAdd_spec (h : (s.cell j k).1 = none) (v : V) :
    ∃ s', dbAdd s j k v = some s' ∧ s'.Inv ∧ Put s s' j k (some (s.nextSds, v), none) := by
  obtain ⟨s', hadd, hput, hexp⟩ := dbAdd_put h v
  have hnone : (s.cell j k).2 = none := by
    rcases hc : (s.cell j k).2 with - | e
    · rfl
    obtain ⟨w, hw⟩ := hs.cell j k e.1 e.2 hc
    rw [h] at hw
    cases hw
  rw [hnone] at hput
  exact ⟨s', hadd, hput.inv hs (cellOk_none _) hexp, hput⟩

theorem dbOverwrite_spec (h : (s.cell j k).1 = some e) (v : V) :
    ∃ s', dbOverwrite s j k v = some s' ∧ s'.Inv ∧ (s'.cell j k).1 = some (e.1, v) := by
  obtain ⟨s', hover, hput, hexp⟩ := dbOverwrite_put h v
  refine ⟨s', hover, hput.inv hs ?_ hexp, by rw [hput.at]⟩
  intro p t ht
  obtain ⟨w, hw⟩ := hs.cell j k p t ht
  rw [h, some.injEq] at hw
  exact ⟨v, by rw [hw]⟩

theorem setExpire_spec (h : (s.cell j k).1 = some e) (when : Int) :
    ∃ s', setExpire s j k when = some s' ∧ s'.Inv ∧ Put s s' j k (some e, some (e.1, when)) := by
  obtain ⟨s', hset, hput, hexp⟩ := setExpire_put h when
  -- An old entry shares the string of the key already.
  have hsds : ((s.cell j k).2.map Prod.fst).getD e.1 = e.1 := by
    rcases hc : (s.cell j k).2 with - | x
    · rfl
    obtain ⟨w, hw⟩ := hs.cell j k x.1 x.2 hc
    rw [h, some.injEq] at hw
    rw [hw]
    rfl
  rw [hsds] at hput
  refine ⟨s', hset, hput.inv hs ?_ hexp, hput⟩
  intro p t ht
  cases ht
  exact ⟨e.2, rfl⟩

theorem dbSyncDelete_inv (j : Nat) (k : K) : (dbSyncDelete s j k).1.Inv :=
  (dbSyncDelete_put s j k).1.inv hs (cellOk_none none) (dbSyncDelete_put s j k).2

end

theorem lookupKey_eq_none_iff : lookupKey s j k = none ↔ (s.cell j k).1 = none := by
  rw [lookupKey_eq, map_eq_none_iff]

section
variable (hs : s.Inv)
include hs

theorem setKey_spec (env : Env) (j : Nat) (k : K) (v : V) :
    ∃ s', setKey env s j k v = some s' ∧ s'.Inv ∧ s'.time j k = none := by
  obtain ⟨s₁, h₁, hs₁, -⟩ := lookupKeyWrite_spec hs env j k
  obtain ⟨s₂, e, h₂, hs₂, he⟩ : ∃ s₂ e, (if (lookupKey s₁ j k).isNone then dbAdd s₁ j k v else dbOverwrite s₁ j k v) =
      some s₂ ∧ s₂.Inv ∧ (s₂.cell j k).1 = some e := by
    cases hc : (s₁.cell j k).1 with
    | none =>
      obtain ⟨s₂, h₂, hs₂, hput⟩ := dbAdd_spec hs₁ hc v
      rw [lookupKey_eq_none_iff.2 hc]
      exact ⟨s₂, _, h₂, hs₂, by rw [hput.at]⟩
    | some e =>
      obtain ⟨s₂, h₂, hs₂, he⟩ := dbOverwrite_spec hs₁ hc v
      rw [lookupKey_eq, hc]
      exact ⟨s₂, _, h₂, hs₂, he⟩
  obtain ⟨s₃, b, h₃, hput, hexp⟩ := removeExpire_put he
  refine ⟨s₃, ?_, hput.inv hs₂ (cellOk_none _) hexp, by rw [time_eq, hput.at]; rfl⟩
  exact SetOps.setKey_eq h₁ h₂ (congrArg (Option.map Prod.fst) h₃)

/-- The expire time that goes with a key: `-1` stands for none. -/
def carried (t : Option Int) : Option Int := if t = some (-1) then none else t

theorem moveKey_spec (env : Env) {src dst : Nat × K} (hne : src ≠ dst) (hdst : (s.cell dst.1 dst.2).1 = none)
    (o : V) (t : Option Int) :
    ∃ s', (keyOps env).moveKey s src dst o (t.getD (-1)) = some s' ∧ s'.Inv ∧ s'.time dst.1 dst.2 = carried t := by
  have hother : ¬(dst.1 = src.1 ∧ dst.2 = src.2) := fun h => hne (Prod.ext h.1.symm h.2.symm)
  obtain ⟨s₁, h₁, hs₁, hput₁⟩ := dbAdd_spec hs hdst o
  obtain ⟨s₂, h₂, hs₂, ht₂⟩ : ∃ s₂, (if t.getD (-1) ≠ -1 then setExpire s₁ dst.1 dst.2 (t.getD (-1)) else some s₁) =
      some s₂ ∧ s₂.Inv ∧ s₂.time dst.1 dst.2 = carried t := by
    have hcell : s₁.cell dst.1 dst.2 = (some (s.nextSds, o), none) := hput₁.at
    have hnone : s₁.time dst.1 dst.2 = none := by rw [time_eq, hcell]; rfl
    rcases t with - | t
    · exact ⟨s₁, rfl, hs₁, hnone⟩
    rw [getD_some]
    by_cases h1 : t = -1
    · subst h1
      exact ⟨s₁, rfl, hs₁, hnone⟩
    obtain ⟨s₂, h₂, hs₂, hput₂⟩ := setExpire_spec hs₁ (congrArg Prod.fst hcell) t
    refine ⟨s₂, by rw [if_pos h1, h₂], hs₂, ?_⟩
    rw [time_eq, hput₂.at, carried, if_neg (by simpa using h1)]
    rfl
  refine ⟨(dbDelete env s₂ src.1 src.2).1, ?_, ?_, ?_⟩
  · exact KeyOps.moveKey_eq h₁ h₂ rfl
  · rw [dbDelete_eq]
    exact dbSyncDelete_inv hs₂ src.1 src.2
  · rw [dbDelete_eq, time_eq, (dbSyncDelete_put s₂ src.1 src.2).1.other hother, ← time_eq, ht₂]

/-! ### Commands -/

theorem renameGenericCommand_spec (env env' : Env) (j : Nat) (src dst : K) (nx : Bool) :
    ∃ s' r, renameGenericCommand env env' s j src dst nx = some (s', r) ∧ s'.Inv ∧
      (r = .ok ∨ r = .one → s'.time j dst = if src = dst then s.time j src else carried (s.time j src)) := by
  obtain ⟨s₁, h₁, hs₁, hfound⟩ := lookupKeyWrite_spec hs env j src
  have hsrc : (keyOps env).lookupKeyWrite s (j, src) = pure (s₁, lookupKey s₁ j src) := h₁
  simp only [renameGenericCommand, KeyOps.renameGenericCommand, hsrc, pure_bind]
  rcases ho : lookupKey s₁ j src with - | o
  · refine ⟨s₁, .noKey, rfl, hs₁, ?_⟩
    rintro (h | h) <;> cases h
  obtain rfl := hfound o ho
  by_cases hsame : src = dst
  · subst hsame
    refine ⟨s₁, _, if_pos rfl, hs₁, fun _ => ?_⟩
    rw [if_pos rfl]
  obtain ⟨s₂, h₂, hs₂, -⟩ := lookupKeyWrite_spec hs₁ env' j dst
  have hne : (j, src) ≠ (j, dst) := fun h => hsame (Prod.mk.inj h).2
  have hexp : (keyOps env).getExpire s₁ (j, src) = pure ((s₁.time j src).getD (-1)) := getExpire_eq hs₁ j src
  have hlook : (keyOps env').lookupKeyWrite s₁ (j, dst) = pure (s₂, lookupKey s₂ j dst) := h₂
  simp only [if_neg hne, hexp, hlook, pure_bind]
  by_cases hnx : ((lookupKey s₂ j dst).isSome && nx) = true
  · refine ⟨s₂, .zero, if_pos hnx, hs₂, ?_⟩
    rintro (h | h) <;> cases h
  -- The destination is gone before the key is added.
  obtain ⟨s₃, h₃, hs₃, hdst⟩ : ∃ s₃, (if (lookupKey s₂ j dst).isSome then (keyOps env').dbDelete s₂ (j, dst) else pure s₂) =
      pure s₃ ∧ s₃.Inv ∧ (s₃.cell j dst).1 = none := by
    by_cases hold : (lookupKey s₂ j dst).isSome = true
    · refine ⟨(dbSyncDelete s₂ j dst).1, ?_, dbSyncDelete_inv hs₂ j dst, ?_⟩
      · rw [if_pos hold, ← dbDelete_eq env']
        rfl
      · rw [(dbSyncDelete_put s₂ j dst).1.at]
    · exact ⟨s₂, if_neg hold, hs₂, lookupKey_eq_none_iff.1 (by simpa using hold)⟩
  obtain ⟨s₄, h₄, hs₄, ht⟩ := moveKey_spec hs₃ env' hne hdst o (s₁.time j src)
  refine ⟨s₄, if nx then .one else .ok, ?_, hs₄, fun _ => ?_⟩
  · rw [if_neg hnx, h₃, pure_bind, h₄]
    rfl
  · rw [if_neg hsame, ht]

theorem moveCommand_spec (dbnum : Nat) (env env' : Env) (j : Nat) (k : K) (dbid : Int) :
    ∃ s' r, moveCommand dbnum env env' s j k dbid = some (s', r) ∧ s'.Inv ∧
      (r = .one → s'.time dbid.toNat k = carried (s.time j k)) := by
  unfold moveCommand
  split
  · exact ⟨s, .outOfRange, rfl, hs, by simp⟩
  split
  · exact ⟨s, .sameObject, rfl, hs, by simp⟩
  rename_i hdb
  obtain ⟨s₁, h₁, hs₁, hfound⟩ := lookupKeyWrite_spec hs env j k
  have hsrc : (keyOps env).lookupKeyWrite s (j, k) = pure (s₁, lookupKey s₁ j k) := h₁
  simp only [KeyOps.moveCommand, hsrc, pure_bind]
  rcases ho : lookupKey s₁ j k with - | o
  · exact ⟨s₁, .zero, rfl, hs₁, by simp⟩
  obtain rfl := hfound o ho
  obtain ⟨s₂, h₂, hs₂, -⟩ := lookupKeyWrite_spec hs₁ env' dbid.toNat k
  have hexp : (keyOps env).getExpire s₁ (j, k) = pure ((s₁.time j k).getD (-1)) := getExpire_eq hs₁ j k
  have hlook : (keyOps env').lookupKeyWrite s₁ (dbid.toNat, k) = pure (s₂, lookupKey s₂ dbid.toNat k) := h₂
  simp only [hexp, hlook, pure_bind]
  by_cases hold : (lookupKey s₂ dbid.toNat k).isSome = true
  · exact ⟨s₂, .zero, if_pos hold, hs₂, by simp⟩
  have hdst : (s₂.cell dbid.toNat k).1 = none := lookupKey_eq_none_iff.1 (by simpa using hold)
  have hne : (j, k) ≠ (dbid.toNat, k) := fun h => hdb (Prod.mk.inj h).1
  obtain ⟨s₃, h₃, hs₃, ht⟩ := moveKey_spec hs₂ env' hne hdst o (s₁.time j k)
  refine ⟨s₃, .one, ?_, hs₃, fun _ => ht⟩
  rw [if_neg hold, h₃]
  rfl

theorem dbSwapDatabases_inv (dbnum : Nat) (id1 id2 : Int) : (dbSwapDatabases dbnum s id1 id2).1.Inv := by
  unfold dbSwapDatabases
  split
  · exact hs
  split
  · exact hs
  refine ⟨fun j k => ?_, hs.timely⟩
  have hdb : ∃ i, ((s.setDb id1.toNat (s.db id2.toNat)).setDb id2.toNat (s.db id1.toNat)).db j = s.db i := by
    show ∃ i, update (update s.db _ _) _ _ j = s.db i
    rw [update_apply, update_apply]
    split
    · exact ⟨_, rfl⟩
    · split <;> exact ⟨_, rfl⟩
  obtain ⟨i, hi⟩ := hdb
  rw [Server.cell, hi]
  exact hs.cell i k

theorem emptyDb_inv (j : Nat) : (emptyDb s j).Inv := by
  refine ⟨fun j' k => ?_, hs.timely⟩
  show CellOk ((update s.db j ⟨∅, ∅⟩ j').dict.lookup k, (update s.db j ⟨∅, ∅⟩ j').expires.lookup k)
  rw [update_apply]
  split
  · exact cellOk_none _
  · exact hs.cell j' k

theorem emptyAll_inv (dbnum : Nat) : (emptyAll dbnum s).Inv := by
  unfold emptyAll
  induction List.range dbnum generalizing s with
  | nil => exact hs
  | cons j js ih => exact ih (emptyDb_inv hs j)

theorem activeExpireCycle_inv (env : Env) (j : Nat) (picks : List Nat) : (activeExpireCycle env j picks s).Inv := by
  induction picks generalizing s with
  | nil => exact hs
  | cons pick picks ih =>
    rw [activeExpireCycle]
    split
    · exact hs
    next de hde =>
      refine ih ?_
      rw [activeExpireCycleTryExpire]
      split
      next hlt =>
        have hlookup : (s.db j).expires.lookup de.1 = some de.2 :=
          mem_lookup_iff.2 (List.mem_of_getElem? hde)
        have ht : s.time j de.1 = some de.2.2 := by rw [Server.time, hlookup]; rfl
        exact (deleteExpired_spec env ht hlt).inv hs
      · exact hs

end

/-! ### The dictionaries are those of `dict.c` -/

/-- A dictionary as the map of `mapSpec`. -/
def slots {β : Type} (d : AList fun _ : K => β) (k : K) : Option (Option β) := (d.lookup k).map some

theorem slots_insert {β : Type} {d : AList fun _ : K => β} (v : β) :
    slots (d.insert k v) = update (slots d) k (some (some v)) := by
  funext k'
  rcases eq_or_ne k' k with rfl | hne
  · rw [slots, lookup_insert, update_self, map_some]
  · rw [slots, lookup_insert_ne hne, update_of_ne hne, slots]

theorem mapSpec_delete {β : Type} (d : AList fun _ : K => β) (k : K) :
    mapSpec (.delete k) (slots d) (.status (if k ∈ d then .ok else .err)) (slots (d.erase k)) := by
  refine ⟨congrArg _ ?_, ?_⟩
  · by_cases hk : k ∈ d
    · obtain ⟨v, hv⟩ := isSome_iff_exists.1 (lookup_isSome.2 hk)
      rw [if_pos hk, if_neg (by simp [slots, hv])]
    · rw [if_neg hk, if_pos (by rw [slots, lookup_eq_none.2 hk, map_none])]
  · funext k'
    rcases eq_or_ne k' k with rfl | hne
    · rw [slots, lookup_erase, update_self, map_none]
    · rw [slots, lookup_erase_ne hne, update_of_ne hne, slots]

/-- The calls of `dbAdd`, `dbSyncDelete`, `setExpire` and `removeExpire` on the two hash tables do to these maps what
`dict_refines_map` says of them. -/
theorem primitives_mapSpec (s : Server K V) (j : Nat) (k : K) :
    (∀ v s', dbAdd s j k v = some s' →
      mapSpec (.add k (s.nextSds, v)) (slots (s.db j).dict) (.status .ok) (slots (s'.db j).dict)) ∧
    mapSpec (.delete k) (slots (s.db j).dict) (.status (if (dbSyncDelete s j k).2 then .ok else .err))
      (slots ((dbSyncDelete s j k).1.db j).dict) ∧
    (∀ when s', setExpire s j k when = some s' → ∃ sds, mapSpec (.addOrFind k (some (sds, when)))
      (slots (s.db j).expires) (.entry (some ⟨k, (s.db j).expires.lookup k⟩)) (slots (s'.db j).expires)) ∧
    ∀ s' b, removeExpire s j k = some (s', b) →
      mapSpec (.delete k) (slots (s.db j).expires) (.status (if b then .ok else .err)) (slots (s'.db j).expires) := by
  have hdb : ∀ d, (s.setDb j d).db j = d := fun d => update_self ..
  refine ⟨fun v s' h => ?_, ?_, fun when s' h => ?_, fun s' b h => ?_⟩
  · unfold dbAdd at h
    split at h
    · cases h
    next hk =>
      cases h
      rw [mapSpec, if_pos (by rw [slots, lookup_eq_none.2 hk, map_none])]
      exact ⟨rfl, by rw [hdb, slots_insert]⟩
  · simpa [dbSyncDelete, hdb] using mapSpec_delete (s.db j).dict k
  · obtain ⟨kde, -, rfl⟩ := map_eq_some_iff.1 h
    refine ⟨(((s.db j).expires.lookup k).map Prod.fst).getD kde.1, ?_, ?_⟩
    · rw [slots]
      cases (s.db j).expires.lookup k <;> rfl
    · rw [hdb, slots_insert]
      rfl
  · unfold removeExpire at h
    split at h
    · cases h
      simpa [hdb] using mapSpec_delete (s.db j).expires k
    · cases h

/-! ### Runs -/

/-- A key that a call is made for exists or does not, as the call requires. -/
def Op.Allowed (s : Server K V) : Op K V → Prop
  | .dbAdd j key _ => key ∉ (s.db j).dict
  | .dbOverwrite j key _ | .setExpire j key _ | .removeExpire j key => key ∈ (s.db j).dict
  | _ => True

theorem exists_cell (h : k ∈ (s.db j).dict) : ∃ e, (s.cell j k).1 = some e :=
  isSome_iff_exists.1 (mem_dict_iff.1 h)

theorem cell_eq_none (h : k ∉ (s.db j).dict) : (s.cell j k).1 = none := by
  rw [mem_dict_iff] at h
  simpa using h

theorem step_allowed (hs : s.Inv) (dbnum : Nat) {op : Op K V} (h : op.Allowed s) :
    ∃ s' r, step dbnum op s = some (s', r) ∧ s'.Inv := by
  cases op with
  | dbAdd j key val =>
    obtain ⟨s', heq, hs', -⟩ := dbAdd_spec hs (cell_eq_none h) val
    exact ⟨s', _, congrArg (Option.map _) heq, hs'⟩
  | dbOverwrite j key val =>
    obtain ⟨e, he⟩ := exists_cell h
    obtain ⟨s', heq, hs', -⟩ := dbOverwrite_spec hs he val
    exact ⟨s', _, congrArg (Option.map _) heq, hs'⟩
  | setKey env j key val =>
    obtain ⟨s', heq, hs', -⟩ := setKey_spec hs env j key val
    exact ⟨s', _, congrArg (Option.map _) heq, hs'⟩
  | setExpire j key when =>
    obtain ⟨e, he⟩ := exists_cell h
    obtain ⟨s', heq, hs', -⟩ := setExpire_spec hs he when
    exact ⟨s', _, congrArg (Option.map _) heq, hs'⟩
  | removeExpire j key =>
    obtain ⟨e, he⟩ := exists_cell h
    obtain ⟨s', b, heq, hput, hexp⟩ := removeExpire_put he
    exact ⟨s', _, congrArg (Option.map _) heq, hput.inv hs (cellOk_none _) hexp⟩
  | dbSyncDelete j key | dbAsyncDelete j key => exact ⟨_, _, rfl, dbSyncDelete_inv hs j key⟩
  | lookupKeyRead env j key =>
    obtain ⟨s', o, heq, hs'⟩ := lookupKeyRead_spec hs env j key
    exact ⟨s', _, congrArg (Option.map _) heq, hs'⟩
  | lookupKeyWrite env j key =>
    obtain ⟨s', heq, hs', -⟩ := lookupKeyWrite_spec hs env j key
    exact ⟨s', _, congrArg (Option.map _) heq, hs'⟩
  | rename env env' j src dst nx =>
    obtain ⟨s', r, heq, hs', -⟩ := renameGenericCommand_spec hs env env' j src dst nx
    exact ⟨s', .key r, congrArg (Option.map _) heq, hs'⟩
  | move env env' j key dbid =>
    obtain ⟨s', r, heq, hs', -⟩ := moveCommand_spec hs dbnum env env' j key dbid
    exact ⟨s', .key r, congrArg (Option.map _) heq, hs'⟩
  | swapdb id1 id2 => exact ⟨_, _, rfl, dbSwapDatabases_inv hs dbnum id1 id2⟩
  | flushdb j => exact ⟨_, _, rfl, emptyDb_inv hs j⟩
  | flushall => exact ⟨_, _, rfl, emptyAll_inv hs dbnum⟩
  | activeExpireCycle env j picks => exact ⟨_, _, rfl, activeExpireCycle_inv hs env j picks⟩

theorem allowed_of_step {dbnum : Nat} {op : Op K V} {r : Reply V} (h : step dbnum op s = some (s', r)) : op.Allowed s := by
  cases op with
  | dbAdd j key val =>
    intro hmem
    rw [step, dbAdd, if_pos hmem] at h
    cases h
  | dbOverwrite j key val | setExpire j key when =>
    obtain ⟨t, ht, -⟩ := map_eq_some_iff.1 h
    obtain ⟨e, he, -⟩ := map_eq_some_iff.1 ht
    exact mem_dict_iff.2 (by rw [Server.cell, he]; rfl)
  | removeExpire j key =>
    obtain ⟨t, ht, -⟩ := map_eq_some_iff.1 h
    rw [removeExpire] at ht
    split at ht
    · assumption
    · cases ht
  | _ => trivial

theorem reachable_inv {dbnum : Nat} (h : (machine dbnum).Reachable s) : s.Inv := by
  refine h.inv ⟨fun j k => cellOk_none _, fun e he => absurd he (by simp [machine, Server.empty])⟩ ?_
  intro s s' op r hs hstep
  obtain ⟨t, r', ht, hinv⟩ := step_allowed hs dbnum (allowed_of_step hstep)
  have heq : some (t, r') = some (s', r) := ht.symm.trans hstep
  cases heq
  exact hinv

/-- In every reachable state the keys with an expire are keys of the database, and whatever expiry removed was past
its expire time; no call fails an assertion unless it is made for a key that exists, or does not, against
what it requires; `RENAME` and `MOVE` give the destination the expire time of the source, where `-1` is none;
and a new key has no expire. -/
theorem expires_belong_to_keys (dbnum : Nat) {s : Server K V} (h : (machine dbnum).Reachable s) :
    (∀ j k, k ∈ (s.db j).expires → k ∈ (s.db j).dict) ∧
      (∀ e ∈ s.expired, ∃ t, e.time = some t ∧ t < e.now) ∧
      (∀ op : Op K V, op.Allowed s → ∃ s' r, step dbnum op s = some (s', r)) ∧
      (∀ j k, getExpire s j k = some ((s.time j k).getD (-1))) ∧
      (∀ env env' j src dst nx s' r, renameGenericCommand env env' s j src dst nx = some (s', r) →
        r = .ok ∨ r = .one → s'.time j dst = if src = dst then s.time j src else carried (s.time j src)) ∧
      (∀ env env' j k dbid s', moveCommand dbnum env env' s j k dbid = some (s', .one) →
        s'.time dbid.toNat k = carried (s.time j k)) ∧
      (∀ j k v s', dbAdd s j k v = some s' → s'.time j k = none) ∧
      ∀ env j k v s', setKey env s j k v = some s' → s'.time j k = none := by
  have hs := reachable_inv h
  refine ⟨fun j k hk => ?_, hs.timely, fun op hop => ?_, getExpire_eq hs, ?_, ?_, ?_, ?_⟩
  · obtain ⟨e, he⟩ := isSome_iff_exists.1 (AList.lookup_isSome.2 hk)
    obtain ⟨v, hv⟩ := hs.cell j k e.1 e.2 he
    exact mem_dict_iff.2 (by rw [hv]; rfl)
  · obtain ⟨s', r, heq, -⟩ := step_allowed hs dbnum hop
    exact ⟨s', r, heq⟩
  · intro env env' j src dst nx s' r heq
    obtain ⟨t, r', ht, -, htime⟩ := renameGenericCommand_spec hs env env' j src dst nx
    cases ht.symm.trans heq
    exact htime
  · intro env env' j k dbid s' heq
    obtain ⟨t, r', ht, -, htime⟩ := moveCommand_spec hs dbnum env env' j k dbid
    cases ht.symm.trans heq
    exact htime rfl
  · intro j k v s' heq
    have hstep : step dbnum (.dbAdd j k v) s = some (s', .done) := congrArg (Option.map (·, Reply.done)) heq
    have hop : (Op.dbAdd j k v).Allowed s := allowed_of_step hstep
    obtain ⟨t, ht, -, hput⟩ := dbAdd_spec hs (cell_eq_none hop) v
    cases ht.symm.trans heq
    rw [time_eq, hput.at]
    rfl
  · intro env j k v s' heq
    obtain ⟨t, ht, -, htime⟩ := setKey_spec hs env j k v
    cases ht.symm.trans heq
    exact htime

def clock (ms : Int) : Env := ⟨ms, none, false, false, true⟩

/-- A key with an expire is renamed, and expires under its new name. -/
def renamedKeyExpires : List (Op Nat Nat) :=
  [.dbAdd 0 1 7, .setExpire 0 1 100, .rename (clock 50) (clock 60) 0 1 2 false, .lookupKeyRead (clock 101) 0 2]

theorem expires_belong_to_keys_renamed :
    ∃ s : Server Nat Nat, (machine 16).Reachable s ∧ lookupKey s 0 2 = none ∧ s.expired.length = 1 ∧
      ∀ e ∈ s.expired, ∃ t, e.time = some t ∧ t < e.now := by
  obtain ⟨⟨s, rs⟩, hrun⟩ : ∃ r, (machine 16).run renamedKeyExpires (machine 16).init = some r := ⟨_, rfl⟩
  have hout : ((machine 16).run renamedKeyExpires (machine 16).init).map
      (fun r => (lookupKey r.1 0 2, r.1.expired.length)) = some (none, 1) := by decide
  rw [hrun, map_some, some.injEq, Prod.mk.injEq] at hout
  have hreach := Machine.Reachable.init.of_run hrun
  exact ⟨s, hreach, hout.1, hout.2, (expires_belong_to_keys 16 hreach).2.1⟩

/-- An expire time of `-1` is lost by `RENAME`. -/
theorem rename_drops_minus_one :
    ((machine 16 : Machine (Op Nat Nat) _ _).run [.dbAdd 0 1 7, .setExpire 0 1 (-1)] .empty).map
        (fun r => r.1.time 0 1) = some (some (-1)) ∧
      ((machine 16 : Machine (Op Nat Nat) _ _).run [.dbAdd 0 1 7, .setExpire 0 1 (-1),
        .rename (clock 0) (clock 0) 0 1 2 false] .empty).map (fun r => (lookupKey r.1 0 2, r.1.time 0 2)) =
          some (some 7, none) := by
  decide

end Redis.Keyspace
