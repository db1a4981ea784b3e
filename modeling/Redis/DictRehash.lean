import Redis.DictInv

/-! # Expanding and rehashing only move entries

`Dict.Moved`: the invariant holds afterwards and the entries are a permutation of those before.
`dictExpand`, `dictResize` and `dictRehash` are steps of this kind, and `dictRehash` neither fails
its assertion nor runs off the first table: as long as `used` is not zero some bucket at or after
`rehashidx` is occupied. -/

namespace Redis
open List
open scoped List
variable {K V : Type} {hash : K → BitVec 64}
variable {d : Dict K V}

/-- `d'` holds the entries of `d`, possibly elsewhere. -/
structure Dict.Moved (hash : K → BitVec 64) (d d' : Dict K V) : Prop where
  inv : d'.Inv hash
  perm : d'.entries.Perm d.entries
  iterators : d'.iterators = d.iterators

namespace Dict.Moved
variable {d d₁ d₂ : Dict K V}

theorem refl (h : d.Inv hash) : d.Moved hash d := ⟨h, .refl _, rfl⟩

theorem trans (h₁ : d.Moved hash d₁) (h₂ : d₁.Moved hash d₂) : d.Moved hash d₂ :=
  ⟨h₂.inv, h₂.perm.trans h₁.perm, h₂.iterators.trans h₁.iterators⟩

theorem mem_iff (h : d.Moved hash d₁) {e : DictEntry K V} : e ∈ d₁.entries ↔ e ∈ d.entries :=
  h.perm.mem_iff

end Dict.Moved

/-! ### Expanding -/

theorem dictNextPowerLoop_spec {size b : Nat} (hb : size ≤ 2 ^ b) : ∀ {fuel k}, k ≤ b → b ≤ k + fuel →
    ∃ n ≤ b, dictNextPowerLoop size fuel (2 ^ k) = 2 ^ n ∧ size ≤ 2 ^ n
  | 0, k, hk, hf => ⟨k, hk, rfl, by rwa [show k = b by omega]⟩
  | fuel + 1, k, hk, hf => by
    rw [dictNextPowerLoop]
    split
    next h => exact ⟨k, hk, rfl, h⟩
    next h =>
      have hlt : k < b := Nat.lt_of_le_of_ne hk fun heq => h (heq ▸ hb)
      rw [← pow_succ]
      exact dictNextPowerLoop_spec hb hlt (by omega)

theorem dictNextPower_spec {size : Nat} (h : size ≤ 2 ^ 60) : ∃ n ≤ 60, dictNextPower size = 2 ^ n ∧ size ≤ 2 ^ n := by
  rw [dictNextPower, if_neg (by simp only [longMax]; omega)]
  exact dictNextPowerLoop_spec (k := 2) h (by decide) (by decide)

theorem entries_fresh (n m : Nat) (mask : BitVec 64) :
    (⟨List.replicate n [], m, mask, 0⟩ : Dictht K V).entries = [] := by
  simp [Dictht.entries]

/-- The condition is only on sizes that `dictExpand` accepts. -/
theorem dictExpand_moved (h : d.Inv hash) {size : Nat}
    (hfit : dictIsRehashing d = false → d.ht0.used ≤ size → size ≤ 2 ^ 60) : d.Moved hash (dictExpand d size).1 := by
  rw [dictExpand]
  split
  · exact .refl h
  rename_i hreq
  rw [not_or, Bool.not_eq_true, not_lt] at hreq
  obtain ⟨n, hn, hp, -⟩ := dictNextPower_spec (hfit hreq.1 hreq.2)
  have hreq : d.rehashidx = none := Option.isNone_iff_eq_none.1 (Option.isSome_eq_false_iff.1 hreq.1)
  have hpos : 0 < 2 ^ n := Nat.two_pow_pos n
  simp only [hp]
  split
  · exact .refl h
  split
  next ht =>
    have he : d.ht0.entries = [] := by simp [Dictht.entries, h.wf0.size_eq_zero_iff.1 ht]
    refine ⟨⟨.fresh hn, h.wf1, ?_, h.idle, ?_⟩, ?_, rfl⟩
    · simpa only [Dict.entries, entries_fresh, he] using h.nodup
    · intro r hr; rw [hreq] at hr; cases hr
    · simp only [Dict.entries, entries_fresh, he]; exact .refl _
  next ht =>
    have he : d.ht1.entries = [] := h.ht1_entries_of_idle hreq
    have hs0 : 0 < d.ht0.size := Nat.pos_of_ne_zero ht
    refine ⟨⟨h.wf0, .fresh hn, ?_, ?_, ?_⟩, ?_, rfl⟩
    · simpa only [Dict.entries, entries_fresh, he] using h.nodup
    · intro hr; cases hr
    · intro r hr
      simp only [Option.some.injEq] at hr; subst hr
      exact ⟨hpos, hs0, Nat.zero_le _, fun i hi => absurd hi (Nat.not_lt_zero i)⟩
    · simp only [Dict.entries, entries_fresh, he]; exact .refl _

section
variable (h : d.Inv hash) (c : Bool)
include h

theorem dictResize_moved : d.Moved hash (dictResize c d).1 := by
  rw [dictResize]
  split
  · exact .refl h
  refine dictExpand_moved h fun _ _ => ?_
  have hlt : Int.bmod d.ht0.used (2 ^ 32) < (2 ^ 32 + 1) / 2 := Int.bmod_lt (by decide)
  simp only [dictHtInitialSize]
  omega

variable (hu : d.ht0.used ≤ 2 ^ 59)
include hu

theorem dictExpandIfNeeded_moved : d.Moved hash (dictExpandIfNeeded c d).1 := by
  rw [dictExpandIfNeeded]
  split
  · exact .refl h
  split
  · exact dictExpand_moved h fun _ _ => by decide
  split
  · exact dictExpand_moved h fun _ _ => by omega
  · exact .refl h

/-- Below this number of entries a table that is full can be doubled. -/
theorem dictExpandIfNeeded_ok : (dictExpandIfNeeded c d).2 = .ok ∧ 0 < (dictExpandIfNeeded c d).1.ht0.size := by
  -- a table of another size is allocated
  have hgrow : ∀ {size}, dictIsRehashing d = false → d.ht0.used ≤ size → size ≤ 2 ^ 60 →
      (d.ht0.size = 0 ∨ d.ht0.size < size) → (dictExpand d size).2 = .ok ∧ 0 < (dictExpand d size).1.ht0.size := by
    intro size hidle hle hfit hsz
    obtain ⟨n, -, hp, hge⟩ := dictNextPower_spec hfit
    have hpos := Nat.two_pow_pos n
    rw [dictExpand, if_neg (by rw [hidle]; simp [hle]), hp]
    dsimp only
    rw [if_neg (by omega)]
    split
    · exact ⟨rfl, hpos⟩
    next h0 => exact ⟨rfl, Nat.pos_of_ne_zero h0⟩
  rw [dictExpandIfNeeded]
  split
  next hr =>
    obtain ⟨r, hr⟩ := Option.isSome_iff_exists.1 hr
    exact ⟨rfl, (h.busy r hr).2.1⟩
  rename_i hidle
  rw [Bool.not_eq_true] at hidle
  split
  next h0 =>
    refine hgrow hidle ?_ (by decide) (.inl h0)
    rw [h.wf0.used, Dictht.entries, h.wf0.size_eq_zero_iff.1 h0]
    exact Nat.zero_le _
  next h0 =>
    split
    next hfull => exact hgrow hidle (by omega) (by omega) (.inr (by omega))
    · exact ⟨rfl, Nat.pos_of_ne_zero h0⟩

end

/-! ### Rehashing -/

theorem Dictht.push_spec {t : Dictht K V} (h : t.WF hash) (hs : 0 < t.size) (e : DictEntry K V) :
    ∃ t' chain, t.push (t.bucketOf hash e.key) e = some t' ∧ t'.WF hash ∧
      t'.entries.Perm (e :: t.entries) ∧ t'.size = t.size ∧ t'.table[t.bucketOf hash e.key]? = some (e :: chain) := by
  obtain ⟨chain, hc⟩ := exists_bucket h hs e.key
  obtain ⟨A, B, hE, hset⟩ := entries_setBucket hc
  have hlt : t.bucketOf hash e.key < t.table.length := by rw [h.length]; exact bucketOf_lt h hs e.key
  refine ⟨{ t with table := t.table.set (t.bucketOf hash e.key) (e :: chain), used := t.used + 1 },
    chain, by simp [Dictht.push, hc], ?_, ?_, rfl, ?_⟩
  · refine h.setBucket hc (fun e' he' => ?_) (by simp only [length_cons]; omega)
    rcases mem_cons.1 he' with rfl | he'
    · rfl
    · exact h.place _ _ hc e' he'
  · rw [hset, hE, append_assoc, append_assoc]
    exact perm_middle
  · simp [hlt]

theorem dictRehashChain_spec : ∀ (chain : List (DictEntry K V)) (t : Dictht K V), t.WF hash → 0 < t.size →
    ∃ t', dictRehashChain hash chain t = some t' ∧ t'.WF hash ∧ t'.entries.Perm (chain ++ t.entries) ∧ t'.size = t.size
  | [], t, h, _ => ⟨t, rfl, h, .refl _, rfl⟩
  | de :: rest, t, h, hs => by
    obtain ⟨t₁, -, hp, h₁, hperm, hsz, -⟩ := Dictht.push_spec h hs de
    obtain ⟨t₂, hc, h₂, hperm₂, hsz₂⟩ := dictRehashChain_spec rest t₁ h₁ (by omega)
    refine ⟨t₂, by rw [dictRehashChain, hp]; exact hc, h₂, ?_, hsz₂.trans hsz⟩
    calc t₂.entries
      _ ~ rest ++ t₁.entries := hperm₂
      _ ~ rest ++ de :: t.entries := hperm.append_left rest
      _ ~ de :: (rest ++ t.entries) := perm_middle

theorem dictRehashSkip_spec : ∀ (bs : List (List (DictEntry K V))) (idx ev : Nat), (∃ c ∈ bs, c ≠ []) →
    (∃ k, dictRehashSkip bs idx ev = .budget (idx + k) ∧ k < bs.length ∧ ∀ j < k, bs[j]? = some []) ∨
    (∃ k ev' e es, dictRehashSkip bs idx ev = .found (idx + k) ev' ∧ bs[k]? = some (e :: es) ∧
      ∀ j < k, bs[j]? = some [])
  | [], _, _, h => by simp at h
  | (e :: es) :: bs, idx, ev, _ =>
    .inr ⟨0, ev, e, es, rfl, rfl, fun j hj => absurd hj (Nat.not_lt_zero j)⟩
  | [] :: bs, idx, ev, h => by
    have h' : ∃ c ∈ bs, c ≠ [] := by
      obtain ⟨c, hc, hne⟩ := h
      rcases mem_cons.1 hc with rfl | hc
      · exact absurd rfl hne
      · exact ⟨c, hc, hne⟩
    have hshift : ∀ k, (∀ j < k, bs[j]? = some []) → ∀ j < k + 1, ([] :: bs)[j]? = some [] := by
      intro k hk j hj
      cases j with
      | zero => rfl
      | succ j => exact hk j (by omega)
    rw [dictRehashSkip]
    split
    · refine .inl ⟨1, rfl, ?_, hshift 0 fun j hj => absurd hj (Nat.not_lt_zero j)⟩
      obtain ⟨c, hc, -⟩ := h'
      have := length_pos_of_mem hc
      simp; omega
    · rcases dictRehashSkip_spec bs (idx + 1) (ev - 1) h' with ⟨k, h1, h2, h3⟩ | ⟨k, ev', e, es, h1, h2, h3⟩
      · exact .inl ⟨k + 1, by rw [h1]; congr 1; omega, by simp only [length_cons]; omega, hshift k h3⟩
      · exact .inr ⟨k + 1, ev', e, es, by rw [h1]; congr 1; omega, h2, hshift k h3⟩

theorem Dict.Inv.exists_occupied {r : Nat} (h : d.Inv hash) (hr : d.rehashidx = some r) (hu : d.ht0.used ≠ 0) :
    ∃ c ∈ d.ht0.table.drop r, c ≠ [] := by
  have hne : d.ht0.entries ≠ [] := fun he => hu (by rw [h.wf0.used, he]; rfl)
  obtain ⟨e, he⟩ := exists_mem_of_ne_nil _ hne
  obtain ⟨c, hc, hec⟩ := mem_flatten.1 he
  obtain ⟨i, hi⟩ := mem_iff_getElem?.1 hc
  have hcne : c ≠ [] := ne_nil_of_mem hec
  have hri : r ≤ i := Nat.le_of_not_lt fun hlt => by
    have := (h.busy r hr).2.2.2 i hlt
    rw [hi] at this
    exact hcne (Option.some.inj this)
  refine ⟨c, mem_iff_getElem?.2 ⟨i - r, ?_⟩, hcne⟩
  rw [getElem?_drop, ← hi]; congr 1; omega

theorem dictRehashFinish_moved (h : d.Inv hash) : d.Moved hash (dictRehashFinish d).1 := by
  rw [dictRehashFinish]
  split
  next hu =>
    have he := h.wf0.entries_eq_nil hu
    have hE : d.entries = d.ht1.entries := by simp [Dict.entries, he]
    have hE' : Dict.entries { d with ht0 := d.ht1, ht1 := dictReset, rehashidx := none } = d.ht1.entries := by
      simp [Dict.entries, Dictht.entries, dictReset]
    refine ⟨⟨h.wf1, .reset, ?_, fun _ => rfl, fun r hr => by cases hr⟩, ?_, rfl⟩
    · rw [hE', ← hE]; exact h.nodup
    · rw [hE', hE]
  · exact .refl h

theorem Dict.Inv.moveBucket {idx k : Nat} {chain : List (DictEntry K V)} {t : Dictht K V} (h : d.Inv hash)
    (hr : d.rehashidx = some idx) (hc : d.ht0.table[idx + k]? = some chain)
    (hempty : ∀ j < k, d.ht0.table[idx + j]? = some []) (ht : t.WF hash)
    (hperm : t.entries.Perm (chain ++ d.ht1.entries)) (hsz : t.size = d.ht1.size) : d.Moved hash { d with
      ht0 := { d.ht0 with table := d.ht0.table.set (idx + k) [], used := d.ht0.used - chain.length }
      ht1 := t
      rehashidx := some (idx + k + 1) } := by
  obtain ⟨h1, h0, hle, hlow⟩ := h.busy idx hr
  obtain ⟨A, B, hE, hset⟩ := entries_setBucket hc
  have hlt : idx + k < d.ht0.table.length := (List.getElem?_eq_some_iff.1 hc).1
  have hlen : chain.length ≤ d.ht0.used := by
    rw [h.wf0.used, hE]; simp; omega
  have hP : (A ++ [] ++ B ++ t.entries).Perm d.entries := by
    rw [Dict.entries, hE]
    calc A ++ [] ++ B ++ t.entries
      _ = A ++ (B ++ t.entries) := by simp
      _ ~ A ++ (B ++ (chain ++ d.ht1.entries)) := (hperm.append_left B).append_left A
      _ ~ A ++ (chain ++ (B ++ d.ht1.entries)) := by
        refine List.Perm.append_left A ?_
        rw [← append_assoc, ← append_assoc]
        exact perm_append_comm.append_right _
      _ = A ++ chain ++ B ++ d.ht1.entries := by simp
  refine ⟨⟨?_, ht, ?_, fun hn => absurd hn (Option.some_ne_none _), ?_⟩, ?_, rfl⟩
  · refine h.wf0.setBucket hc (fun e he => by simp at he) ?_
    simp; omega
  · simp only [Dict.entries, hset]
    exact (hP.map DictEntry.key).nodup_iff.2 h.nodup
  · intro r hr'
    simp only [Option.some.injEq] at hr'
    subst hr'
    refine ⟨by simp only [hsz]; exact h1, h0, by rw [← h.wf0.length]; exact hlt, fun i hi => ?_⟩
    simp only [getElem?_set]
    split
    · simp
    next hne =>
      rcases lt_or_ge i idx with hi' | hi'
      · exact hlow i hi'
      · have := hempty (i - idx) (by omega)
        rwa [show idx + (i - idx) = i by omega] at this
  · simp only [Dict.entries, hset]; exact hP

theorem dictRehashLoop_spec : ∀ (n ev idx : Nat) (d : Dict K V), d.Inv hash → d.rehashidx = some idx →
    ∃ d' b, dictRehashLoop hash n ev idx d = some (d', b) ∧ d.Moved hash d'
  | 0, _, _, d, h, _ => ⟨_, _, rfl, dictRehashFinish_moved h⟩
  | n + 1, ev, idx, d, h, hr => by
    rw [dictRehashLoop]
    split
    · exact ⟨_, _, rfl, dictRehashFinish_moved h⟩
    rename_i hu
    have hocc := h.exists_occupied hr hu
    obtain ⟨h1, h0, hle, hlow⟩ := h.busy idx hr
    have hlt : idx < d.ht0.size := by
      obtain ⟨c, hc, -⟩ := hocc
      have := length_pos_of_mem hc
      rw [length_drop, h.wf0.length] at this
      omega
    rw [if_neg (not_le.2 hlt)]
    rcases dictRehashSkip_spec _ idx ev hocc with ⟨k, hk, hklt, hkE⟩ | ⟨k, ev', e, es, hk, hkc, hkE⟩
    · -- the budget of empty buckets is used up
      rw [hk]
      refine ⟨_, _, rfl, ⟨h.wf0, h.wf1, h.nodup, fun hn => absurd hn (Option.some_ne_none _), ?_⟩, .refl _, rfl⟩
      intro r hr'
      simp only [Option.some.injEq] at hr'
      subst hr'
      rw [length_drop, h.wf0.length] at hklt
      refine ⟨h1, h0, show idx + k ≤ d.ht0.size by omega, fun i hi => ?_⟩
      rcases lt_or_ge i idx with hi' | hi'
      · exact hlow i hi'
      · have := hkE (i - idx) (by omega)
        rwa [getElem?_drop, show idx + (i - idx) = i by omega] at this
    · rw [hk]
      have hc : d.ht0.table[idx + k]? = some (e :: es) := by rwa [getElem?_drop] at hkc
      obtain ⟨t, ht, hwf, hperm, hsz⟩ := dictRehashChain_spec (e :: es) d.ht1 h.wf1 h1
      have hmv := h.moveBucket hr hc (fun j hj => by
        have := hkE j hj; rwa [getElem?_drop] at this) hwf hperm hsz
      obtain ⟨d', b, hd', hmv'⟩ := dictRehashLoop_spec n ev' (idx + k + 1) _ hmv.inv rfl
      refine ⟨d', b, ?_, hmv.trans hmv'⟩
      simp only [hc, ht]
      exact hd'

theorem dictRehash_spec (h : d.Inv hash) (n : Nat) :
    ∃ d' b, dictRehash hash d n = some (d', b) ∧ d.Moved hash d' := by
  rw [dictRehash]
  split
  · exact ⟨d, false, rfl, .refl h⟩
  next idx hr => exact dictRehashLoop_spec n (n * 10) idx d h hr

theorem dictRehashStepIf_spec (h : d.Inv hash) :
    ∃ d', dictRehashStepIf hash d = some d' ∧ d.Moved hash d' := by
  rw [dictRehashStepIf]
  split
  · rw [dictRehashStep]
    split
    · obtain ⟨d', b, hd, hmv⟩ := dictRehash_spec h 1
      exact ⟨d', by rw [hd]; rfl, hmv⟩
    · exact ⟨d, rfl, .refl h⟩
  · exact ⟨d, rfl, .refl h⟩

end Redis
