import Redis.ClusterDb
import Redis.RaxWalk

/-! # The slot index follows the keyspace

`ClusterDb.Indexed` relates the dictionary, the tree of slot keys and the counters. It holds after every
call whose keys fit in a node of the tree, and it is what the two functions that read the index rely on. -/

namespace Redis
open List Function Option AList
variable {V : Type}
variable {slot : HashSlot} {d : AList fun _ : DbKey => V}

/-! ### Slot keys -/

theorem slotKey_injective : Injective slotKey := fun _ _ h => congrArg (drop 2) h

theorem slotKey_length (key : DbKey) : (slotKey key).length = key.length + 2 := by simp [slotKey, slotBytes]

theorem slotBytes_injective : Injective slotBytes := by
  intro a b h
  have hmask : ∀ n : Nat, n &&& 0xff = n % 256 := fun n => Nat.and_two_pow_sub_one_eq_mod n 8
  simp only [slotBytes, cons.injEq, and_true, hmask, ← UInt8.toNat_inj, UInt8.toNat_ofNat'] at h
  exact Fin.ext (by omega)

theorem slotBytes_initial {key : DbKey} : slotBytes slot <+: slotKey key ↔ keyHashSlot key = slot := by
  constructor
  · rintro ⟨t, ht⟩
    exact slotBytes_injective (congrArg (take 2) ht).symm
  · rintro rfl
    exact prefix_append _ _

/-! ### The invariant -/

def ClusterDb.slotKeys (s : ClusterDb V) (slot : HashSlot) : List DbKey :=
  s.dict.keys.filter fun k => decide (keyHashSlot k = slot)

def slotMap (d : AList fun _ : DbKey => V) (x : List UInt8) : Option (Option Unit) :=
  if x ∈ d.keys.map slotKey then some none else none

structure ClusterDb.Indexed (s : ClusterDb V) : Prop where
  tree : s.slotsToKeys.Stores (slotMap s.dict)
  count : ∀ slot, s.slotsKeysCount slot = (s.slotKeys slot).length
  expires : ∀ k ∈ s.expires, k ∈ s.dict

theorem mem_slotMap {k : DbKey} : slotKey k ∈ d.keys.map slotKey ↔ k ∈ d :=
  (List.mem_map_of_injective slotKey_injective).trans AList.mem_keys.symm

theorem slotMap_update {d' : AList fun _ : DbKey => V} {k : DbKey} {o : Option (Option Unit)}
    (hk : slotMap d' (slotKey k) = o) (h : ∀ x, x ≠ k → (x ∈ d' ↔ x ∈ d)) :
    slotMap d' = update (slotMap d) (slotKey k) o := by
  funext x
  by_cases hx : x = slotKey k
  · rw [hx, update_self, hk]
  have : x ∈ d'.keys.map slotKey ↔ x ∈ d.keys.map slotKey := by
    simp only [List.mem_map, ← AList.mem_keys]
    exact exists_congr fun a => and_congr_left fun ha => h a fun he => hx (he ▸ ha.symm)
  rw [update_of_ne hx]
  simp [slotMap, this]

theorem slotMap_insert (d : AList fun _ : DbKey => V) (k : DbKey) (v : V) :
    slotMap (d.insert k v) = update (slotMap d) (slotKey k) (some none) :=
  slotMap_update (if_pos (mem_slotMap.2 ((mem_insert d).2 (.inl rfl)))) fun x hx => by simp [hx]

theorem slotMap_erase (d : AList fun _ : DbKey => V) (k : DbKey) :
    slotMap (d.erase k) = update (slotMap d) (slotKey k) none :=
  slotMap_update (if_neg fun h => (mem_erase.1 (mem_slotMap.1 h)).1 rfl) fun x hx => by simp [hx]

theorem slotMap_congr {d' : AList fun _ : DbKey => V} (h : ∀ k, k ∈ d ↔ k ∈ d') : slotMap d = slotMap d' := by
  funext x
  have : x ∈ d.keys.map slotKey ↔ x ∈ d'.keys.map slotKey := by
    simp [← AList.mem_keys, h]
  simp [slotMap, this]

theorem slotKeys_length_congr {s s' : ClusterDb V} (h : ∀ k, k ∈ s.dict ↔ k ∈ s'.dict) (slot : HashSlot) :
    (s.slotKeys slot).length = (s'.slotKeys slot).length := by
  refine Perm.length_eq (Perm.filter _ ((perm_ext_iff_of_nodup s.dict.keys_nodup s'.dict.keys_nodup).2
    fun k => ?_))
  rw [← AList.mem_keys, ← AList.mem_keys, h]

theorem ClusterDb.Indexed.empty : (ClusterDb.empty : ClusterDb V).Indexed where
  tree := Rax.Stores.new
  count _ := rfl
  expires _ h := absurd h (notMem_empty _)

/-! ### Adding and deleting keys -/

section
variable {s : ClusterDb V} {k : DbKey}

theorem keys_insert_perm (hk : k ∉ s.dict) (v : V) : (s.dict.insert k v).keys.Perm (k :: s.dict.keys) := by
  have hnd : (k :: s.dict.keys).Nodup := nodup_cons.2 ⟨mt AList.mem_keys.2 hk, s.dict.keys_nodup⟩
  refine (perm_ext_iff_of_nodup (s.dict.insert k v).keys_nodup hnd).2 fun x => ?_
  rw [← AList.mem_keys, AList.mem_insert, mem_cons, ← AList.mem_keys]

theorem keys_erase_perm (hk : k ∈ s.dict) : s.dict.keys.Perm (k :: (s.dict.erase k).keys) := by
  have hnd : (k :: (s.dict.erase k).keys).Nodup :=
    nodup_cons.2 ⟨fun hm => (AList.mem_erase.1 (AList.mem_keys.2 hm)).1 rfl, (s.dict.erase k).keys_nodup⟩
  refine (perm_ext_iff_of_nodup s.dict.keys_nodup hnd).2 fun x => ?_
  rw [mem_cons, ← AList.mem_keys, ← AList.mem_keys]
  by_cases hx : x = k <;> simp [hx, hk]

theorem length_filter_slot {l l' : List DbKey} {j : HashSlot} (hp : l'.Perm (k :: l)) (hj : keyHashSlot k = j)
    (slot : HashSlot) : (l'.filter fun x => decide (keyHashSlot x = slot)).length =
      (l.filter fun x => decide (keyHashSlot x = slot)).length + if slot = j then 1 else 0 := by
  rw [(hp.filter _).length_eq, filter_cons, hj]
  by_cases hs : slot = j
  · simp [hs]
  · simp [hs, Ne.symm hs]

theorem dbAdd_spec (h : s.Indexed) (hk : k ∉ s.dict) (hlen : k.length + 2 ≤ raxNodeMaxSize) (v : V) :
    ∃ s', dbAdd s k v = some s' ∧ s'.Indexed ∧ s'.dict = s.dict.insert k v := by
  obtain ⟨r, hr, hst⟩ := raxGenericInsert_stores h.tree (by rw [slotKey_length]; exact hlen) none true
  refine ⟨⟨s.dict.insert k v, s.expires, r, update s.slotsKeysCount (keyHashSlot k)
    (s.slotsKeysCount (keyHashSlot k) + 1)⟩, ?_, ⟨?_, fun slot => ?_, ?_⟩, rfl⟩
  · rw [dbAdd, if_neg hk]
    simp [slotToKeyAdd, slotToKeyUpdateKey, raxInsert, hr]
  · rw [slotMap_insert]
    exact hst
  · have := length_filter_slot (keys_insert_perm hk v) rfl slot
    dsimp only [ClusterDb.slotKeys]
    rw [this, update_apply, h.count, h.count]
    split
    next hs =>
      rw [hs]
      rfl
    · rfl
  · exact fun x hx => (mem_insert _).2 (.inr (h.expires x hx))

theorem erase_of_notMem {β : Type} {d : AList fun _ : DbKey => β} (hk : k ∉ d) : d.erase k = d :=
  AList.ext (kerase_of_notMem_keys (mt AList.mem_keys.2 hk))

theorem dbSyncDelete_spec (h : s.Indexed) (k : DbKey) :
    ∃ s' b, dbSyncDelete s k = some (s', b) ∧ s'.Indexed ∧ s'.dict = s.dict.erase k := by
  have hexp : (if s.expires.entries.length > 0 then { s with expires := s.expires.erase k } else s) =
      { s with expires := s.expires.erase k } := by
    split
    · rfl
    next hz =>
      have hnil : s.expires.entries = [] := length_eq_zero_iff.1 (by omega)
      rw [erase_of_notMem]
      intro hm
      have : k ∈ s.expires.entries.keys := AList.mem_keys.1 hm
      simp [hnil] at this
  unfold dbSyncDelete
  rw [hexp]
  dsimp only
  split
  next hk =>
    obtain ⟨r, hr, hst⟩ := raxRemove_stores h.tree (slotKey k)
    refine ⟨⟨s.dict.erase k, s.expires.erase k, r, update s.slotsKeysCount (keyHashSlot k)
      (s.slotsKeysCount (keyHashSlot k) - 1)⟩, true, ?_, ⟨?_, fun slot => ?_, ?_⟩, rfl⟩
    · simp [slotToKeyDel, slotToKeyUpdateKey, hr]
    · rw [slotMap_erase]
      exact hst
    · have := length_filter_slot (keys_erase_perm hk) rfl slot
      dsimp only [ClusterDb.slotKeys]
      rw [update_apply, h.count, h.count]
      unfold ClusterDb.slotKeys
      split at this
      next hs =>
        rw [if_pos hs, ← hs, this]
        rfl
      next hs =>
        rw [if_neg hs, this]
        rfl
    · exact fun x hx => mem_erase.2 ⟨(mem_erase.1 hx).1, h.expires x (mem_erase.1 hx).2⟩
  next hk =>
    refine ⟨_, false, rfl, ⟨h.tree, h.count, fun x hx => h.expires x (mem_erase.1 hx).2⟩, ?_⟩
    exact (erase_of_notMem hk).symm

theorem dbDelete_spec (env : DbEnv) (h : s.Indexed) (k : DbKey) :
    ∃ s' b, dbDelete env s k = some (s', b) ∧ s'.Indexed ∧ s'.dict = s.dict.erase k := by
  unfold dbDelete dbAsyncDelete
  rw [ite_self]
  exact dbSyncDelete_spec h k

theorem ClusterDb.Indexed.congr {s' : ClusterDb V} (h : s.Indexed) (htree : s'.slotsToKeys = s.slotsToKeys)
    (hcount : s'.slotsKeysCount = s.slotsKeysCount) (hdict : ∀ k, k ∈ s.dict ↔ k ∈ s'.dict)
    (hexp : ∀ k ∈ s'.expires, k ∈ s'.dict) : s'.Indexed where
  tree := by
    rw [htree, ← slotMap_congr hdict]
    exact h.tree
  count slot := by rw [hcount, h.count, slotKeys_length_congr hdict]
  expires := hexp

theorem dbOverwrite_spec (h : s.Indexed) (hk : k ∈ s.dict) (v : V) :
    ∃ s', dbOverwrite s k v = some s' ∧ s'.Indexed := by
  refine ⟨_, if_pos hk, h.congr rfl rfl (fun x => ?_) fun x hx => ?_⟩
  · rw [mem_insert]
    exact ⟨.inr, fun hx => hx.elim (fun he => he ▸ hk) id⟩
  · exact (mem_insert _).2 (.inr (h.expires x hx))

theorem setExpire_spec (h : s.Indexed) (hk : k ∈ s.dict) (when : Int) :
    ∃ s', setExpire s k when = some s' ∧ s'.Indexed := by
  refine ⟨_, if_pos hk, h.congr rfl rfl (fun _ => Iff.rfl) fun x hx => ?_⟩
  rcases (mem_insert _).1 hx with rfl | hx
  · exact hk
  · exact h.expires x hx

/-! ### Expiry and renaming -/

theorem getExpire_spec (h : s.Indexed) (k : DbKey) : ∃ when, getExpire s k = some when := by
  unfold getExpire
  split
  · exact ⟨-1, rfl⟩
  next when hw =>
    have hk : k ∈ s.dict := h.expires k (lookup_isSome.1 (by rw [hw]; rfl))
    exact ⟨when, if_pos hk⟩

section
variable (env : DbEnv) (h : s.Indexed)
include h

theorem deleteExpired_spec (k : DbKey) : ∃ s' b, deleteExpired env s k = some (s', b) ∧ s'.Indexed := by
  obtain ⟨s', b, hs, hi, -⟩ := dbSyncDelete_spec h k
  exact ⟨s', b, by rw [deleteExpired, dbAsyncDelete, ite_self, hs], hi⟩

theorem expireIfNeeded_spec (k : DbKey) : ∃ s' b, expireIfNeeded env s k = some (s', b) ∧ s'.Indexed := by
  obtain ⟨when, hw⟩ := getExpire_spec h k
  unfold expireIfNeeded keyIsExpired
  rw [hw]
  simp only [map_some, some_bind]
  split
  · exact ⟨s, false, rfl, h⟩
  split
  · exact ⟨s, true, rfl, h⟩
  · exact deleteExpired_spec env h k

theorem tryExpire_spec (hk : k ∈ s.expires) :
    ∃ s' b, activeExpireCycleTryExpire env s k = some (s', b) ∧ s'.Indexed := by
  obtain ⟨t, ht⟩ := isSome_iff_exists.1 (lookup_isSome.2 hk)
  unfold activeExpireCycleTryExpire
  rw [ht]
  dsimp only
  split
  · obtain ⟨s', b, hs, hi⟩ := deleteExpired_spec env h k
    exact ⟨s', true, by rw [hs]; rfl, hi⟩
  · exact ⟨s, false, rfl, h⟩

theorem lookupKeyWrite_spec (k : DbKey) : ∃ s', lookupKeyWrite env s k = some (s', s'.dict.lookup k) ∧ s'.Indexed := by
  obtain ⟨s', b, hs, hi⟩ := expireIfNeeded_spec env h k
  exact ⟨s', by simp [lookupKeyWrite, hs], hi⟩

end

theorem ClusterDb.keyOps_sound (env : DbEnv) : (keyOps env : KeyOps Option (ClusterDb V) DbKey V).Sound Indexed
    (fun s k => s.dict.lookup k) fun k _ => k.length + 2 ≤ raxNodeMaxSize where
  lookup k h := lookupKeyWrite_spec env h k
  add h hk hlen := by
    obtain ⟨s', hs, hi, hdict⟩ := dbAdd_spec h (lookup_eq_none.1 hk) hlen _
    exact ⟨s', hs, hi, by rw [hdict, lookup_insert]⟩
  delete k h := by
    obtain ⟨s', b, hs, hi, hdict⟩ := dbDelete_spec env h k
    exact ⟨s', congrArg (Option.map _) hs, hi, by rw [hdict, lookup_erase]⟩
  getExpire k h := getExpire_spec h k
  setExpire when h hk := setExpire_spec h (lookup_isSome.1 (by rw [hk]; rfl)) when
  signal _ h := h

theorem renameGenericCommand_spec (env env' : DbEnv) (h : s.Indexed) (src : DbKey) {dst : DbKey}
    (hlen : dst.length + 2 ≤ raxNodeMaxSize) (nx : Bool) :
    ∃ s' r, renameGenericCommand env env' s src dst nx = some (s', r) ∧ s'.Indexed :=
  (ClusterDb.keyOps_sound env).renameGenericCommand (ClusterDb.keyOps_sound env') h (fun _ _ _ _ => hlen) nx

end

/-! ### The keys of a slot -/

theorem take_two_ne {x : List UInt8} : (x.take 2 != slotBytes slot) = !decide (slotBytes slot <+: x) := by
  have : x.take 2 = slotBytes slot ↔ slotBytes slot <+: x := by
    constructor
    · exact fun h => h ▸ take_prefix 2 x
    · rintro ⟨t, rfl⟩
      rfl
  by_cases h : slotBytes slot <+: x <;> simp [this, h, bne]

theorem getKeysLoop_spec {r : Rax Unit} (h : r.Inv) :
    ∀ (count : Nat) {it : RaxIterator Unit} {ks : List (List UInt8)} {j : Nat}, it.Yields r ks →
      j + min count (ks.takeWhile fun x => decide (slotBytes slot <+: x)).length ≤ intMax →
      getKeysLoop r (slotBytes slot) count it j =
        some (((ks.takeWhile fun x => decide (slotBytes slot <+: x)).take count).map (drop 2)) := by
  intro count
  induction count with
  | zero =>
    simp [getKeysLoop]
  | succ count ih =>
    intro it ks j hy hj
    obtain ⟨it', hnext, ⟨rfl, heof⟩ | ⟨k, ks', rfl, heof, rfl, hy'⟩⟩ := raxNext_yields h hy
    · simp [getKeysLoop, hnext, heof]
    rw [getKeysLoop]
    simp only [hnext, heof, some_bind, Bool.false_or, take_two_ne]
    by_cases hp : slotBytes slot <+: it'.key
    · rw [takeWhile_cons_of_pos (by simpa using hp)] at hj ⊢
      rw [length_cons] at hj
      have hne : j ≠ intMax := by omega
      rw [ih hy' (by omega)]
      simp [hp, hne]
    · simp [hp]

section
variable {s : ClusterDb V} {slot : HashSlot}

theorem ClusterDb.Indexed.mem_tree (h : s.Indexed) {x : List UInt8} :
    x ∈ s.slotsToKeys.keys ↔ ∃ k ∈ s.dict, slotKey k = x := by
  change raxFind s.slotsToKeys x ≠ none ↔ _
  rw [raxFind_stores h.tree, slotMap]
  simp [AList.mem_keys]

theorem mem_slotKeys {k : DbKey} : k ∈ s.slotKeys slot ↔ k ∈ s.dict ∧ keyHashSlot k = slot := by
  simp [ClusterDb.slotKeys, AList.mem_keys]

theorem ClusterDb.Indexed.slotKeys_perm (h : s.Indexed) {ks : List (List UInt8)} (hs : ks.Pairwise (· < ·))
    (hks : ∀ x, x ∈ ks ↔ x ∈ s.slotsToKeys.keys ∧ slotBytes slot ≤ x) :
    ((ks.filter fun x => decide (slotBytes slot <+: x)).map (List.drop 2)).Perm (s.slotKeys slot) := by
  have hmem : ∀ x, x ∈ ks.filter (fun x => decide (slotBytes slot <+: x)) ↔ ∃ k ∈ s.slotKeys slot, slotKey k = x := by
    intro x
    rw [mem_filter, decide_eq_true_eq, hks, h.mem_tree]
    constructor
    · rintro ⟨⟨⟨k, hk, rfl⟩, -⟩, hp⟩
      exact ⟨k, mem_slotKeys.2 ⟨hk, slotBytes_initial.1 hp⟩, rfl⟩
    · rintro ⟨k, hk, rfl⟩
      obtain ⟨hd, rfl⟩ := mem_slotKeys.1 hk
      exact ⟨⟨⟨k, hd, rfl⟩, le_append_left⟩, prefix_append _ _⟩
  have hnd : ks.Nodup := hs.imp fun {a b} (hlt : a < b) (he : a = b) => List.lt_irrefl b (he ▸ hlt)
  have hmap : (ks.filter fun x => decide (slotBytes slot <+: x)).Perm ((s.slotKeys slot).map slotKey) := by
    refine (perm_ext_iff_of_nodup ?_ ?_).2 fun x => by rw [hmem, List.mem_map]
    · exact hnd.filter _
    · exact (s.dict.keys_nodup.filter _).map slotKey_injective
  have := hmap.map (drop 2)
  rwa [List.map_map, show List.drop 2 ∘ slotKey = id from rfl, List.map_id] at this

theorem getKeysInSlot_spec (h : s.Indexed) {count : Nat} (hmax : min count (s.slotKeys slot).length ≤ intMax) :
    ∃ ks, getKeysInSlot s slot count = some ks ∧ ks.length = min count (s.slotKeys slot).length ∧ ks.Nodup ∧
      ∀ k ∈ ks, k ∈ s.dict ∧ keyHashSlot k = slot := by
  obtain ⟨it, ks, hseek, hy, hks⟩ := raxSeek_yields h.tree.toInv (raxStart s.slotsToKeys) (slotBytes slot)
  have hperm := h.slotKeys_perm hy.1 hks
  rw [← takeWhile_prefix hy.1 fun x hx => ((hks x).1 hx).2] at hperm
  have hlen := hperm.length_eq
  rw [length_map] at hlen
  refine ⟨((ks.takeWhile fun x => decide (slotBytes slot <+: x)).take count).map (drop 2), ?_, ?_, ?_,
    fun k hk => ?_⟩
  · unfold getKeysInSlot
    rw [hseek]
    exact getKeysLoop_spec h.tree.toInv count hy (by omega)
  · rw [length_map, length_take, hlen]
  · rw [map_take]
    exact (hperm.nodup_iff.2 (s.dict.keys_nodup.filter _)).sublist (take_sublist _ _)
  · rw [map_take] at hk
    exact mem_slotKeys.1 (hperm.mem_iff.1 (mem_of_mem_take hk))

theorem ClusterDb.Indexed.seek_slot (h : s.Indexed) (hn : s.slotsKeysCount slot ≠ 0) (it : RaxIterator Unit) :
    ∃ it₁ it₂ k, raxSeek s.slotsToKeys it .ge (slotBytes slot) = some it₁ ∧
      raxIteratorNextStep s.slotsToKeys it₁ false = some it₂ ∧ it₂.key = slotKey k ∧ k ∈ s.dict ∧
      keyHashSlot k = slot := by
  obtain ⟨it₁, ks, hseek, hy, hks⟩ := raxSeek_yields h.tree.toInv it (slotBytes slot)
  rw [h.count] at hn
  obtain ⟨k', hk'⟩ := exists_mem_of_length_pos (Nat.pos_of_ne_zero hn)
  obtain ⟨hd', hslot'⟩ := mem_slotKeys.1 hk'
  have hmem : slotKey k' ∈ ks :=
    (hks _).2 ⟨h.mem_tree.2 ⟨k', hd', rfl⟩, by rw [slotKey, hslot']; exact le_append_left⟩
  obtain ⟨it₂, hnext, ⟨rfl, -⟩ | ⟨x, ks', rfl, -, rfl, -⟩⟩ := raxNext_yields h.tree.toInv hy
  · cases hmem
  obtain ⟨hx, hle⟩ := (hks it₂.key).1 (.head _)
  obtain ⟨k, hk, hkey⟩ := h.mem_tree.1 hx
  refine ⟨it₁, it₂, k, hseek, hnext, hkey.symm, hk, ?_⟩
  by_contra hne
  -- a key of another slot would come after those of this slot
  have hlt : slotKey k' < it₂.key := by
    rw [slotKey, hslot']
    exact lt_of_not_initial k' hle fun hp => hne (slotBytes_initial.1 (hkey ▸ hp))
  rcases mem_cons.1 hmem with he | hm
  · exact List.lt_irrefl _ (he ▸ hlt)
  · exact List.lt_asymm hlt ((pairwise_cons.1 hy.1).1 _ hm)

theorem delKeysLoop_spec (env : DbEnv) : ∀ (n : Nat) {s : ClusterDb V} (it : RaxIterator Unit) (j : Nat),
    s.Indexed → s.slotsKeysCount slot = n → j + n ≤ intMax →
    ∃ s', delKeysLoop env slot n s it j = some (s', j + n) ∧ s'.Indexed ∧
      ∀ k, s'.dict.lookup k = if keyHashSlot k = slot then none else s.dict.lookup k := by
  intro n
  induction n with
  | zero =>
    intro s it j h hn _
    refine ⟨s, by rw [delKeysLoop, if_pos hn]; rfl, h, fun k => ?_⟩
    split
    next hk =>
      rw [lookup_eq_none]
      intro hd
      have := length_pos_of_mem (mem_slotKeys.2 ⟨hd, hk⟩)
      rw [← h.count, hn] at this
      exact lt_irrefl 0 this
    · rfl
  | succ n ih =>
    intro s it j h hn hj
    have hne : s.slotsKeysCount slot ≠ 0 := by omega
    obtain ⟨it₁, it₂, k, hseek, hnext, hkey, hk, hslot⟩ := h.seek_slot hne it
    obtain ⟨s₁, b, hdel, h₁, hd₁⟩ := dbDelete_spec env h k
    have hcount : s₁.slotsKeysCount slot = n := by
      have := length_filter_slot (keys_erase_perm hk) hslot slot
      rw [if_pos rfl, ← hd₁] at this
      rw [h.count] at hn
      rw [h₁.count]
      exact Nat.succ.inj (this.symm.trans hn)
    obtain ⟨s', hloop, h', hd'⟩ := ih it₂ (j + 1) h₁ hcount (by omega)
    refine ⟨s', ?_, h', fun x => ?_⟩
    · have hlen : ¬ (it₂.key.length < 2 ∨ j = intMax) := by
        rw [hkey, slotKey_length]
        omega
      have hdrop : it₂.key.drop 2 = k := by rw [hkey]; rfl
      rw [delKeysLoop, if_neg hne]
      simp only [hseek, hnext, some_bind, if_neg hlen, hdrop, hdel, hloop]
      rw [add_assoc, add_comm 1 n]
    · rw [hd', hd₁]
      split
      · rfl
      next hx => rw [lookup_erase_ne fun he => hx (by rw [he, hslot])]

theorem delKeysInSlot_spec (env : DbEnv) (h : s.Indexed) (hmax : (s.slotKeys slot).length ≤ intMax) :
    ∃ s', delKeysInSlot env s slot = some (s', (s.slotKeys slot).length) ∧ s'.Indexed ∧
      ∀ k, s'.dict.lookup k = if keyHashSlot k = slot then none else s.dict.lookup k := by
  obtain ⟨s', hs', h', hd'⟩ := delKeysLoop_spec env _ (raxStart s.slotsToKeys) 0 h rfl
    (by rw [h.count, zero_add]; exact hmax)
  refine ⟨s', ?_, h', hd'⟩
  rw [delKeysInSlot, hs', zero_add, h.count]

end

/-! ### Whole runs -/

/-- The contracts of the calls, and their limits: a slot key fits in one node of the radix tree, and an
`int` can count the keys of a slot. -/
def DbOp.Within : DbOp V → ClusterDb V → Prop
  | .add key _, s => key ∉ s.dict ∧ key.length + 2 ≤ raxNodeMaxSize
  | .overwrite key _, s => key ∈ s.dict
  | .setExpire key _, s => key ∈ s.dict
  | .rename _ _ _ dst _, _ => dst.length + 2 ≤ raxNodeMaxSize
  | .tryExpire _ key, s => key ∈ s.expires
  | .delKeysInSlot _ slot, s => (s.slotKeys slot).length ≤ intMax
  | _, _ => True

instance (op : DbOp V) (s : ClusterDb V) : Decidable (op.Within s) :=
  match op with
  | .add key _ => inferInstanceAs (Decidable (key ∉ s.dict ∧ key.length + 2 ≤ raxNodeMaxSize))
  | .overwrite key _ => inferInstanceAs (Decidable (key ∈ s.dict))
  | .setExpire key _ => inferInstanceAs (Decidable (key ∈ s.dict))
  | .rename _ _ _ dst _ => inferInstanceAs (Decidable (dst.length + 2 ≤ raxNodeMaxSize))
  | .tryExpire _ key => inferInstanceAs (Decidable (key ∈ s.expires))
  | .delKeysInSlot _ slot => inferInstanceAs (Decidable ((s.slotKeys slot).length ≤ intMax))
  | .syncDelete _ | .asyncDelete _ | .expireIfNeeded _ _ | .emptyDb => inferInstanceAs (Decidable True)

theorem dbStep_indexed {s : ClusterDb V} (op : DbOp V) (h : s.Indexed) (hw : op.Within s) :
    ∃ s' r, dbMachine.step op s = some (s', r) ∧ s'.Indexed := by
  cases op with
  | add key val =>
    obtain ⟨s', hs, h', -⟩ := dbAdd_spec h hw.1 hw.2 val
    exact ⟨s', _, congrArg (Option.map _) hs, h'⟩
  | overwrite key val =>
    obtain ⟨s', hs, h'⟩ := dbOverwrite_spec h hw val
    exact ⟨s', _, congrArg (Option.map _) hs, h'⟩
  | syncDelete key | asyncDelete key =>
    obtain ⟨s', b, hs, h', -⟩ := dbSyncDelete_spec h key
    exact ⟨s', _, congrArg (Option.map _) hs, h'⟩
  | setExpire key when =>
    obtain ⟨s', hs, h'⟩ := setExpire_spec h hw when
    exact ⟨s', _, congrArg (Option.map _) hs, h'⟩
  | rename env env' src dst nx =>
    obtain ⟨s', r, hs, h'⟩ := renameGenericCommand_spec env env' h src hw nx
    exact ⟨s', _, congrArg (Option.map _) hs, h'⟩
  | expireIfNeeded env key =>
    obtain ⟨s', b, hs, h'⟩ := expireIfNeeded_spec env h key
    exact ⟨s', _, congrArg (Option.map _) hs, h'⟩
  | tryExpire env key =>
    obtain ⟨s', b, hs, h'⟩ := tryExpire_spec env h hw
    exact ⟨s', _, congrArg (Option.map _) hs, h'⟩
  | emptyDb => exact ⟨(emptyDb s).1, .removed (emptyDb s).2, rfl, ClusterDb.Indexed.empty⟩
  | delKeysInSlot env slot =>
    obtain ⟨s', hs, h', -⟩ := delKeysInSlot_spec env h hw
    exact ⟨s', _, congrArg (Option.map _) hs, h'⟩

/-- In every run within the contracts and limits of the calls, the tree holds the slot keys of the keys
present and the counters count them; the keys of a slot can then be listed and deleted. -/
theorem slot_index_exact (ops : List (DbOp V)) (h : dbMachine.Guarded DbOp.Within ops .empty) :
    ∃ s rs, dbMachine.run ops .empty = some (s, rs) ∧
      (∀ x, raxFind s.slotsToKeys x ≠ none ↔ ∃ k ∈ s.dict, slotKey k = x) ∧
      (∀ slot, s.slotsKeysCount slot = (s.slotKeys slot).length) ∧
      (∀ slot count, min count (s.slotKeys slot).length ≤ intMax →
        ∃ ks, getKeysInSlot s slot count = some ks ∧ ks.length = min count (s.slotKeys slot).length ∧ ks.Nodup ∧
          ∀ k ∈ ks, k ∈ s.dict ∧ keyHashSlot k = slot) ∧
      ∀ env slot, (s.slotKeys slot).length ≤ intMax →
        ∃ s', delKeysInSlot env s slot = some (s', (s.slotKeys slot).length) ∧
          ∀ k, s'.dict.lookup k = if keyHashSlot k = slot then none else s.dict.lookup k := by
  have hsim : dbMachine.Simulates (fun _ (_ : Unit) _ _ => True) DbOp.Within
      (fun (s : ClusterDb V) _ => s.Indexed) := by
    intro op s _ hs hw
    obtain ⟨s', r, hstep, hs'⟩ := dbStep_indexed op hs hw
    exact ⟨s', r, (), hstep, trivial, hs'⟩
  obtain ⟨s, rs, -, hrun, -, hs⟩ := hsim.run (a := ()) ClusterDb.Indexed.empty h
  refine ⟨s, rs, hrun, fun x => hs.mem_tree, hs.count, fun slot count hc => getKeysInSlot_spec hs hc, ?_⟩
  intro env slot hmax
  obtain ⟨s', hdel, -, hd⟩ := delKeysInSlot_spec env hs hmax
  exact ⟨s', hdel, hd⟩

/-- Two keys with one hash tag, a rename inside their slot, and a key that expires. -/
theorem slot_index_exact_rename :
    ∃ (s : ClusterDb Nat) (rs : List DbReply), dbMachine.run [.add [123, 97, 125, 120] 1, .add [98] 2, .setExpire [98] 5,
        .rename ⟨9, false, false, true, false⟩ ⟨9, false, false, true, false⟩ [123, 97, 125, 120] [123, 97, 125, 121] false,
        .expireIfNeeded ⟨9, false, false, true, false⟩ [98]] .empty = some (s, rs) ∧
      (∀ slot, s.slotsKeysCount slot = (s.slotKeys slot).length) ∧
      ∃ ks, getKeysInSlot s (crcSlot (crc16 [97])) 4 = some ks ∧ ∀ k ∈ ks, k ∈ s.dict := by
  obtain ⟨s, rs, hrun, -, hcount, hget, -⟩ := slot_index_exact [.add [123, 97, 125, 120] 1, .add [98] 2,
    .setExpire [98] 5, .rename ⟨9, false, false, true, false⟩ ⟨9, false, false, true, false⟩ [123, 97, 125, 120]
      [123, 97, 125, 121] false, .expireIfNeeded ⟨9, false, false, true, false⟩ [98]]
    (Machine.guarded_of_check (by decide +kernel))
  obtain ⟨ks, hks, -, -, hmem⟩ := hget (crcSlot (crc16 [97])) 4
    (le_trans (min_le_left _ _) (by decide))
  exact ⟨s, rs, hrun, hcount, ks, hks, fun k hk => (hmem k hk).1⟩

/-! ### Keys that do not fit in a node -/

theorem keyHashSlot_tag {t : List UInt8} (ht : t.length < 2 ^ 30) :
    keyHashSlot (123 :: 97 :: 125 :: t) = crcSlot (crc16 [97]) := by
  have hlen : (Int.bmod ((123 :: 97 :: 125 :: t : List UInt8).length : Int) (2 ^ 32)).toNat =
      (123 :: 97 :: 125 :: t : List UInt8).length := by
    rw [Int.bmod_eq_of_le] <;> simp <;> omega
  unfold keyHashSlot
  rw [hlen]
  simp [findIdx_cons]

theorem dbSyncDelete_overrun {k₁ k₂ : DbKey} {r₁ r₂ : Rax Unit} (hne : k₂ ≠ k₁)
    (h₁ : raxInsert raxNew (slotKey k₁) none = some (r₁, true, none))
    (h₂ : raxInsert r₁ (slotKey k₂) none = some (r₂, true, none)) (h₃ : raxRemove r₂ (slotKey k₂) = none) :
    (dbMachine.run [.add k₁ (), .add k₂ ()] .empty).isSome ∧
      dbMachine.run [.add k₁ (), .add k₂ (), .syncDelete k₂] .empty = none := by
  have hk₁ : k₁ ∉ (∅ : AList fun _ : DbKey => Unit) := notMem_empty _
  have hk₂ : k₂ ∉ insert k₁ () (∅ : AList fun _ : DbKey => Unit) := fun hm =>
    ((mem_insert _).1 hm).elim hne (notMem_empty _)
  have hmem : k₂ ∈ insert k₂ () (insert k₁ () (∅ : AList fun _ : DbKey => Unit)) :=
    (mem_insert _).2 (.inl rfl)
  have hexp : (∅ : AList fun _ : DbKey => Int).entries.length = 0 := rfl
  simp only [Machine.run, dbMachine, dbStep, dbAdd, ClusterDb.empty, hk₁, hk₂, if_false, slotToKeyAdd,
    slotToKeyUpdateKey, if_true, h₁, h₂, map_some, isSome_some, dbSyncDelete, hexp, gt_iff_lt,
    lt_irrefl, hmem, slotToKeyDel, Bool.false_eq_true, h₃, map_none, and_self]

/-- A key of 512 MB, the longest string a client can send by default, and a short one in the same slot:
deleting the short one writes outside a node of the radix tree. -/
theorem slot_index_long_key : ∃ k₁ k₂ : DbKey, k₁.length = 2 ^ 29 ∧ k₂.length = 4 ∧
    (dbMachine.run [.add k₁ (), .add k₂ ()] .empty).isSome ∧
      dbMachine.run [.add k₁ (), .add k₂ (), .syncDelete k₂] .empty = none := by
  obtain ⟨mid, hmid⟩ : ∃ mid : List UInt8, mid.length = 2 ^ 29 - 7 := ⟨replicate _ 120, length_replicate⟩
  have hmax : raxNodeMaxSize = 2 ^ 29 - 1 := rfl
  have hslot₁ := keyHashSlot_tag (t := 120 :: (mid ++ [120, 120, 120])) (by simp [hmid])
  have hslot₂ := keyHashSlot_tag (t := [121]) (by decide)
  obtain ⟨pre, hpre⟩ : ∃ pre, pre = slotBytes (crcSlot (crc16 [97])) ++ [123, 97, 125] := ⟨_, rfl⟩
  have hlen : pre.length = 5 := by rw [hpre]; rfl
  have hkey₁ : slotKey (123 :: 97 :: 125 :: 120 :: (mid ++ [120, 120, 120])) =
      pre ++ 120 :: mid ++ [120, 120, 120] := by
    rw [slotKey, hslot₁, hpre]
    simp
  have hkey₂ : slotKey [123, 97, 125, 121] = pre ++ [121] := by
    rw [slotKey, hslot₂, hpre]
    simp
  have hmid' : 1 < mid.length := by omega
  have htwo := raxInsert_long (pre ++ 120 :: mid) [120, 120, 120] (by simp; omega) (by decide)
    (by decide)
  refine ⟨123 :: 97 :: 125 :: 120 :: (mid ++ [120, 120, 120]), [123, 97, 125, 121], by simp [hmid], rfl, ?_⟩
  refine dbSyncDelete_overrun ?_ (by rw [hkey₁]; exact htwo)
    (by rw [hkey₂]; exact raxInsert_branch (by decide) (by omega) hmid') ?_
  · exact fun he => absurd (congrArg length he) (by simp)
  · rw [hkey₂]
    exact raxRemove_overrun (by decide) (by omega) (by omega) (by decide)

end Redis
