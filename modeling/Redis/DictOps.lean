import Mathlib.Logic.Function.Basic
import Redis.DictRehash

/-! # What the table operations do to the entries

One statement per operation of `dict.c`, in terms of the list of entries: a lookup finds the entry
of its key if there is one, `dictAddRaw` adds a fresh entry exactly when the key is absent,
`dictGenericDelete` takes the entry of its key out. -/

namespace Redis
open List DictEntry
open scoped List
variable {K V : Type} {hash : K → BitVec 64}
variable {pos : Nat} {chain : List (DictEntry K V)} {e : DictEntry K V} {d : Dict K V} {r : EntryRef}

/-! ### One table -/

section
variable {t : Dictht K V} {idx : Nat} (h : t.WF hash) (hc : t.table[idx]? = some chain) (he : chain[pos]? = some e)
include h hc he

theorem Dictht.WF.unlink : (t.unlink idx pos).WF hash ∧ t.entries ~ e :: (t.unlink idx pos).entries ∧
      ∀ i : Nat, t.table[i]? = some [] → (t.unlink idx pos).table[i]? = some [] := by
  obtain ⟨c₁, c₂, hch, hlen, -, -⟩ := exists_split_of_getElem? he
  have herase : chain.eraseIdx pos = c₁ ++ c₂ := by
    rw [hch, ← hlen, eraseIdx_append_of_length_le le_rfl]; simp
  have hu : t.unlink idx pos =
      { t with table := t.table.set idx (c₁ ++ c₂), used := t.used - 1 } := by
    rw [Dictht.unlink, set_eq_modify hc, herase]
  obtain ⟨A, B, hE, hset⟩ := entries_setBucket hc
  have hpos : 0 < t.used := by rw [h.used, hE, hch]; simp only [length_append, length_cons]; omega
  refine ⟨?_, ?_, fun i hi => ?_⟩
  · rw [hu]
    refine h.setBucket hc (fun e' he' => h.place idx chain hc e' ?_) ?_
    · rw [hch]; simp only [mem_append, mem_cons] at he' ⊢; tauto
    · rw [hch]; simp; omega
  · rw [hu, hset, hE, hch]
    calc A ++ (c₁ ++ e :: c₂) ++ B
      _ = (A ++ c₁) ++ e :: (c₂ ++ B) := by simp
      _ ~ e :: ((A ++ c₁) ++ (c₂ ++ B)) := perm_middle
      _ = e :: (A ++ (c₁ ++ c₂) ++ B) := by simp
  · rw [hu]
    have hne : idx ≠ i := by
      rintro rfl
      rw [hc] at hi
      rw [Option.some.inj hi] at he
      simp at he
    simp [hne, hi]

theorem Dictht.WF.setVal (v : V) : (t.setVal idx pos v).WF hash ∧
      (∃ L, t.entries ~ e :: L ∧ (t.setVal idx pos v).entries ~ ⟨e.key, some v⟩ :: L) ∧
      ∀ i : Nat, t.table[i]? = some [] → (t.setVal idx pos v).table[i]? = some [] := by
  obtain ⟨c₁, c₂, hch, -, -, hmod⟩ := exists_split_of_getElem? he
  have hu : t.setVal idx pos v =
      { t with table := t.table.set idx (c₁ ++ ⟨e.key, some v⟩ :: c₂), used := t.used } := by
    rw [Dictht.setVal, set_eq_modify hc, hmod]
  obtain ⟨A, B, hE, hset⟩ := entries_setBucket hc
  have hmid : ∀ x : DictEntry K V, A ++ (c₁ ++ x :: c₂) ++ B ~ x :: (A ++ c₁ ++ (c₂ ++ B)) := by
    intro x
    calc A ++ (c₁ ++ x :: c₂) ++ B
      _ = (A ++ c₁) ++ x :: (c₂ ++ B) := by simp
      _ ~ x :: (A ++ c₁ ++ (c₂ ++ B)) := perm_middle
  refine ⟨?_, ⟨A ++ c₁ ++ (c₂ ++ B), ?_, ?_⟩, fun i hi => ?_⟩
  · rw [hu]
    refine h.setBucket hc (fun e' he' => ?_) (by rw [hch]; simp)
    have hall := h.place idx chain hc
    simp only [mem_append, mem_cons] at he'
    rcases he' with he' | rfl | he'
    · exact hall e' (by rw [hch]; simp [he'])
    · exact hall e (by rw [hch]; simp)
    · exact hall e' (by rw [hch]; simp [he'])
  · rw [hE, hch]; exact hmid e
  · rw [hu, hset]; exact hmid _
  · rw [hu]
    have hne : idx ≠ i := by
      rintro rfl
      rw [hc] at hi
      rw [Option.some.inj hi] at he
      simp at he
    simp [hne, hi]

end

/-! ### Changing one of the two tables -/

namespace Dict.Inv
variable {d : Dict K V} {t : Dictht K V}

theorem withHt0 (h : d.Inv hash) (ht : t.WF hash) (hsz : t.size = d.ht0.size)
    (hnd : ((t.entries ++ d.ht1.entries).map key).Nodup)
    (hempty : ∀ r, d.rehashidx = some r → ∀ i < r, t.table[i]? = some []) :
    ({ d with ht0 := t } : Dict K V).Inv hash :=
  ⟨ht, h.wf1, hnd, h.idle, fun r hr => by
    obtain ⟨h1, h0, hle, -⟩ := h.busy r hr
    simp only [hsz]
    exact ⟨h1, h0, hle, hempty r hr⟩⟩

theorem withHt1 (h : d.Inv hash) (ht : t.WF hash) (hsz : t.size = d.ht1.size)
    (hnd : ((d.ht0.entries ++ t.entries).map key).Nodup) (hr : d.rehashidx ≠ none) :
    ({ d with ht1 := t } : Dict K V).Inv hash :=
  ⟨h.wf0, ht, hnd, fun hn => absurd hn hr, fun r hr' => by
    obtain ⟨h1, h0, hle, hl⟩ := h.busy r hr'
    simp only [hsz]
    exact ⟨h1, h0, hle, hl⟩⟩

theorem rehashing_of_bucket (h : d.Inv hash) {i : Nat} {chain : List (DictEntry K V)}
    (hi : d.ht1.table[i]? = some chain) : d.rehashidx ≠ none := by
  intro hr
  rw [h.idle hr] at hi
  simp [dictReset] at hi

end Dict.Inv

theorem dictDeref_eq_some (h : dictDeref d r = some e) :
    ∃ chain, (if r.second then d.ht1 else d.ht0).table[r.idx]? = some chain ∧ chain[r.pos]? = some e :=
  Option.bind_eq_some_iff.1 h

theorem dictSetVal_spec (h : d.Inv hash) (hr : dictDeref d r = some e) (v : V) : (dictSetVal d r v).Inv hash ∧
      ∃ L, d.entries ~ e :: L ∧ (dictSetVal d r v).entries ~ ⟨e.key, some v⟩ :: L := by
  obtain ⟨chain, hc, he⟩ := dictDeref_eq_some hr
  have hkeys : ∀ {E E' L : List (DictEntry K V)}, (E.map key).Nodup → E ~ e :: L →
      E' ~ ⟨e.key, some v⟩ :: L → (E'.map key).Nodup := by
    intro E E' L hnd hE hE'
    rw [(hE.map key).nodup_iff] at hnd
    rw [(hE'.map key).nodup_iff]
    exact hnd
  rw [dictSetVal]
  split
  next hs =>
    rw [if_pos hs] at hc
    obtain ⟨hwf, ⟨L, hL, hL'⟩, -⟩ := h.wf1.setVal hc he v
    have hE : d.entries ~ e :: (d.ht0.entries ++ L) := (hL.append_left _).trans perm_middle
    have hE' : d.ht0.entries ++ (d.ht1.setVal r.idx r.pos v).entries ~
        ⟨e.key, some v⟩ :: (d.ht0.entries ++ L) := (hL'.append_left _).trans perm_middle
    exact ⟨h.withHt1 hwf rfl (hkeys h.nodup hE hE') (h.rehashing_of_bucket hc), _, hE, hE'⟩
  next hs =>
    rw [if_neg hs] at hc
    obtain ⟨hwf, ⟨L, hL, hL'⟩, hempty⟩ := h.wf0.setVal hc he v
    have hE : d.entries ~ e :: (L ++ d.ht1.entries) := hL.append_right _
    have hE' : (d.ht0.setVal r.idx r.pos v).entries ++ d.ht1.entries ~
        ⟨e.key, some v⟩ :: (L ++ d.ht1.entries) := hL'.append_right _
    refine ⟨h.withHt0 hwf rfl (hkeys h.nodup hE hE') fun ri hri i hi => hempty i ?_, _, hE, hE'⟩
    exact (h.busy ri hri).2.2.2 i hi

theorem dictDeref_mem (hr : dictDeref d r = some e) : e ∈ d.entries := by
  obtain ⟨chain, hc, he⟩ := dictDeref_eq_some hr
  have hmem : e ∈ (if r.second then d.ht1 else d.ht0).entries :=
    mem_flatten.2 ⟨chain, mem_of_getElem? hc, mem_of_getElem? he⟩
  rw [Dict.entries, mem_append]
  split at hmem
  · exact .inr hmem
  · exact .inl hmem

theorem Dict.Inv.size_pos (h : d.Inv hash) (hu : d.entries ≠ []) : 0 < d.ht0.size := by
  cases hr : d.rehashidx with
  | some r => exact (h.busy r hr).2.1
  | none =>
    refine h.wf0.size_pos fun h0 => hu ?_
    rw [Dict.entries, h.wf0.entries_eq_nil h0, h.ht1_entries_of_idle hr]; rfl

theorem Dict.Inv.entries_eq_nil_iff (h : d.Inv hash) : d.entries = [] ↔ d.ht0.used = 0 ∧ d.ht1.used = 0 := by
  rw [h.wf0.used, h.wf1.used, Dict.entries, append_eq_nil_iff, length_eq_zero_iff,
    length_eq_zero_iff]

theorem Dict.Inv.entries_length (h : d.Inv hash) : d.entries.length = dictSize d := by
  rw [Dict.entries, length_append, dictSize, h.wf0.used, h.wf1.used]

/-! ### Lookup -/

variable [DecidableEq K]

theorem findPos_some {key : K} (h : findPos key chain = some pos) : ∃ e, chain[pos]? = some e ∧ e.key = key := by
  obtain ⟨hp, hk, -⟩ := findIdx?_eq_some_iff_getElem.1 h
  exact ⟨chain[pos], getElem?_eq_getElem hp, (of_decide_eq_true hk).symm⟩

theorem findPos_none {key : K} (h : findPos key chain = none) : ∀ e ∈ chain, e.key ≠ key := by
  intro e he hk
  have := findIdx?_eq_none_iff.1 h e he
  simp [hk] at this

theorem dictLookup_spec (h : d.Inv hash) (hs : 0 < d.ht0.size) (key : K) :
    (∃ r e, dictLookup hash d key = some (some r) ∧ dictDeref d r = some e ∧ e.key = key) ∨
    (dictLookup hash d key = some none ∧ ∀ e ∈ d.entries, e.key ≠ key) := by
  have habs : ∀ {t : Dictht K V} {chain : List (DictEntry K V)}, t.WF hash →
      t.table[t.bucketOf hash key]? = some chain → findPos key chain = none →
      ∀ e ∈ t.entries, e.key ≠ key := by
    intro t chain ht hc hf e he hk
    obtain ⟨chain', hc', hec⟩ := ht.mem_bucket he
    rw [hk, hc] at hc'
    exact findPos_none hf e (Option.some.inj hc' ▸ hec) hk
  obtain ⟨c₀, hc₀⟩ := exists_bucket h.wf0 hs key
  rw [dictLookup]
  simp only [hc₀]
  cases hf₀ : findPos key c₀ with
  | some pos =>
    obtain ⟨e, he, hk⟩ := findPos_some hf₀
    exact .inl ⟨_, e, rfl, by simp [dictDeref, hc₀, he], hk⟩
  | none =>
    have h0 := habs h.wf0 hc₀ hf₀
    cases hr : d.rehashidx with
    | none =>
      refine .inr ⟨by simp [dictIsRehashing, hr], fun e he => h0 e ?_⟩
      rw [Dict.entries, h.ht1_entries_of_idle hr, append_nil] at he
      exact he
    | some r =>
      obtain ⟨c₁, hc₁⟩ := exists_bucket h.wf1 (h.busy r hr).1 key
      simp only [dictIsRehashing, hr, Option.isSome_some, Bool.true_eq_false, ↓reduceIte, hc₁]
      cases hf₁ : findPos key c₁ with
      | some pos =>
        obtain ⟨e, he, hk⟩ := findPos_some hf₁
        exact .inl ⟨_, e, rfl, by simp [dictDeref, hc₁, he], hk⟩
      | none =>
        refine .inr ⟨rfl, fun e he => ?_⟩
        rcases mem_append.1 he with he | he
        · exact h0 e he
        · exact habs h.wf1 hc₁ hf₁ e he

theorem dictFind_spec (h : d.Inv hash) (key : K) : ∃ d' r, dictFind hash d key = some (d', r) ∧ d.Moved hash d' ∧
      ((∃ p e, r = some p ∧ dictDeref d' p = some e ∧ e.key = key) ∨ (r = none ∧ ∀ e ∈ d.entries, e.key ≠ key)) := by
  rw [dictFind]
  split
  next hu =>
    have hE : d.entries = [] := h.entries_eq_nil_iff.2 ⟨by omega, by omega⟩
    exact ⟨d, none, rfl, .refl h, .inr ⟨rfl, by simp [hE]⟩⟩
  next hu =>
    obtain ⟨d₁, hd, hmv⟩ := dictRehashStepIf_spec h
    have hne : d₁.entries ≠ [] := fun h0 => hu (by
      have hE : d.entries = [] := (h0 ▸ hmv.perm).symm.eq_nil
      obtain ⟨a, b⟩ := h.entries_eq_nil_iff.1 hE; omega)
    simp only [hd]
    rcases dictLookup_spec hmv.inv (hmv.inv.size_pos hne) key with ⟨r, e, hl, he, hk⟩ | ⟨hl, hno⟩
    · exact ⟨d₁, some r, by rw [hl]; rfl, hmv, .inl ⟨r, e, rfl, he, hk⟩⟩
    · exact ⟨d₁, none, by rw [hl]; rfl, hmv, .inr ⟨rfl, fun e he => hno e (hmv.mem_iff.2 he)⟩⟩

/-! ### Adding -/

/-- What `dictAddRaw` did: returned the existing entry or added a new one. -/
inductive AddRawOut (hash : K → BitVec 64) (d d' : Dict K V) (key : K) :
    Option EntryRef → Option EntryRef → Prop
  | existing (r : EntryRef) (e : DictEntry K V) : dictDeref d' r = some e → e.key = key →
      d.Moved hash d' → AddRawOut hash d d' key none (some r)
  | added (r : EntryRef) : dictDeref d' r = some ⟨key, none⟩ → d'.Inv hash →
      d'.entries ~ ⟨key, none⟩ :: d.entries → (∀ e ∈ d.entries, e.key ≠ key) →
      d'.iterators = d.iterators → AddRawOut hash d d' key (some r) none

theorem dictAddRaw_spec (h : d.Inv hash) (hsize : dictSize d ≤ 2 ^ 59) (c : Bool) (key : K) :
    ∃ d' entry existing, dictAddRaw hash c d key = some (d', entry, existing) ∧
      AddRawOut hash d d' key entry existing := by
  obtain ⟨d₁, hd₁, hmv₁⟩ := dictRehashStepIf_spec h
  have hu : d₁.ht0.used ≤ 2 ^ 59 := by
    rw [← h.entries_length, ← hmv₁.perm.length_eq, hmv₁.inv.entries_length] at hsize
    exact (Nat.le_add_right _ _).trans hsize
  have hmv₂ := dictExpandIfNeeded_moved hmv₁.inv c hu
  obtain ⟨hok, hs⟩ := dictExpandIfNeeded_ok hmv₁.inv c hu
  simp only [dictAddRaw, hd₁, dictKeyIndex]
  cases hex : dictExpandIfNeeded c d₁ with
  | mk d₂ res =>
  rw [hex] at hmv₂ hok hs
  have hmv := hmv₁.trans hmv₂
  cases hok with
  | refl =>
    rcases dictLookup_spec hmv₂.inv hs key with ⟨r, e, hl, he, hk⟩ | ⟨hl, hno⟩
    · simp only [hl]
      exact ⟨d₂, none, some r, rfl, .existing r e he hk hmv⟩
    simp only [hl]
    have hnew : ∀ e ∈ d.entries, e.key ≠ key := fun e he => hno e (hmv.mem_iff.2 he)
    have hnd : ∀ {E : List (DictEntry K V)}, E ~ ⟨key, none⟩ :: d₂.entries → (E.map DictEntry.key).Nodup := by
      intro E hE
      rw [(hE.map DictEntry.key).nodup_iff, map_cons, nodup_cons]
      exact ⟨by simpa using fun e he => hno e he, hmv₂.inv.nodup⟩
    cases hr : d₂.rehashidx with
    | some ri =>
      obtain ⟨h1, -, -, -⟩ := hmv₂.inv.busy ri hr
      obtain ⟨t, chain, hpush, hwf, hperm, hsz, htop⟩ :=
        Dictht.push_spec hmv₂.inv.wf1 h1 ⟨key, none⟩
      have hE : d₂.ht0.entries ++ t.entries ~ ⟨key, none⟩ :: d₂.entries :=
        (hperm.append_left _).trans perm_middle
      refine ⟨{ d₂ with ht1 := t }, some ⟨true, d₂.ht1.bucketOf hash key, 0⟩, none,
        by simp [dictIsRehashing, hr, hpush], .added _ ?_ ?_ ?_ hnew hmv.iterators⟩
      · simp [dictDeref, htop]
      · exact hmv₂.inv.withHt1 hwf hsz (hnd hE) (by rw [hr]; exact Option.some_ne_none _)
      · exact hE.trans (hmv.perm.cons _)
    | none =>
      obtain ⟨t, chain, hpush, hwf, hperm, hsz, htop⟩ := Dictht.push_spec hmv₂.inv.wf0 hs ⟨key, none⟩
      have hE : t.entries ++ d₂.ht1.entries ~ ⟨key, none⟩ :: d₂.entries := hperm.append_right _
      refine ⟨{ d₂ with ht0 := t }, some ⟨false, d₂.ht0.bucketOf hash key, 0⟩, none,
        by simp [dictIsRehashing, hr, hpush], .added _ ?_ ?_ ?_ hnew hmv.iterators⟩
      · simp [dictDeref, htop]
      · exact hmv₂.inv.withHt0 hwf hsz (hnd hE) fun r hr' => by rw [hr] at hr'; cases hr'
      · exact hE.trans (hmv.perm.cons _)

/-! ### Deleting -/

theorem dictGenericDelete_spec (h : d.Inv hash) (key : K) :
    ∃ d' he, dictGenericDelete hash d key = some (d', he) ∧ d'.Inv hash ∧
      ((∃ e, he = some e ∧ e.key = key ∧ d.entries ~ e :: d'.entries) ∨
        (he = none ∧ d'.entries ~ d.entries ∧ ∀ e ∈ d.entries, e.key ≠ key)) := by
  rw [dictGenericDelete]
  split
  next hu =>
    have hE : d.entries = [] := h.entries_eq_nil_iff.2 hu
    exact ⟨d, none, rfl, h, .inr ⟨rfl, .refl _, by simp [hE]⟩⟩
  rename_i hu
  obtain ⟨d₁, hd, hmv⟩ := dictRehashStepIf_spec h
  have hne : d₁.entries ≠ [] := fun h0 => hu (h.entries_eq_nil_iff.1 (h0 ▸ hmv.perm).symm.eq_nil)
  simp only [hd]
  rcases dictLookup_spec hmv.inv (hmv.inv.size_pos hne) key with ⟨r, e, hl, he, hk⟩ | ⟨hl, hno⟩
  · simp only [hl, he]
    obtain ⟨chain, hc, hpos⟩ := dictDeref_eq_some he
    split
    next hs =>
      rw [if_pos hs] at hc
      obtain ⟨hwf, hperm, -⟩ := hmv.inv.wf1.unlink hc hpos
      have hE : d₁.entries ~ e :: (d₁.ht0.entries ++ (d₁.ht1.unlink r.idx r.pos).entries) :=
        (hperm.append_left _).trans perm_middle
      have hnd := (hE.map DictEntry.key).nodup_iff.1 hmv.inv.nodup
      exact ⟨_, _, rfl, hmv.inv.withHt1 hwf rfl (nodup_cons.1 hnd).2 (hmv.inv.rehashing_of_bucket hc),
        .inl ⟨e, rfl, hk, hmv.perm.symm.trans hE⟩⟩
    next hs =>
      rw [if_neg hs] at hc
      obtain ⟨hwf, hperm, hempty⟩ := hmv.inv.wf0.unlink hc hpos
      have hE : d₁.entries ~ e :: ((d₁.ht0.unlink r.idx r.pos).entries ++ d₁.ht1.entries) :=
        hperm.append_right _
      have hnd := (hE.map DictEntry.key).nodup_iff.1 hmv.inv.nodup
      exact ⟨_, _, rfl, hmv.inv.withHt0 hwf rfl (nodup_cons.1 hnd).2
          (fun ri hri i hi => hempty i ((hmv.inv.busy ri hri).2.2.2 i hi)),
        .inl ⟨e, rfl, hk, hmv.perm.symm.trans hE⟩⟩
  · simp only [hl]
    exact ⟨d₁, none, rfl, hmv.inv, .inr ⟨rfl, hmv.perm, fun e he => hno e (hmv.mem_iff.2 he)⟩⟩

end Redis
