import Mathlib.Data.List.Nodup
import Redis.Lib.Lists
import Redis.Dict

/-! # The representation invariant of the hash table

`Dict.Inv`: both tables have power-of-two size (or none at all) and all their buckets, every entry sits in the bucket its
hash selects, `used` counts the chained entries, no key occurs twice in the two tables together,
the second table is empty unless a rehashing runs, and while one runs the buckets below
`rehashidx` are empty. Every operation is, table by table, a change of one bucket
(`Dictht.WF.setBucket`) or the allocation of an empty table (`Dictht.WF.fresh`). -/

namespace Redis
open List
variable {K V : Type} {hash : K → BitVec 64}
variable {t : Dictht K V} {chain : List (DictEntry K V)}

def Dictht.entries (t : Dictht K V) : List (DictEntry K V) := t.table.flatten

def Dict.entries (d : Dict K V) : List (DictEntry K V) := d.ht0.entries ++ d.ht1.entries

structure Dictht.WF (hash : K → BitVec 64) (t : Dictht K V) : Prop where
  length : t.table.length = t.size
  pow : t.size = 0 ∧ t.sizemask = 0 ∨
    ∃ n ≤ 60, t.size = 2 ^ n ∧ t.sizemask = BitVec.ofNat 64 (2 ^ n - 1)
  used : t.used = t.entries.length
  place : ∀ (i : Nat) (chain : List (DictEntry K V)), t.table[i]? = some chain →
    ∀ e ∈ chain, t.bucketOf hash e.key = i

structure Dict.Inv (hash : K → BitVec 64) (d : Dict K V) : Prop where
  wf0 : d.ht0.WF hash
  wf1 : d.ht1.WF hash
  nodup : (d.entries.map DictEntry.key).Nodup
  idle : d.rehashidx = none → d.ht1 = dictReset
  busy : ∀ r, d.rehashidx = some r → 0 < d.ht1.size ∧ 0 < d.ht0.size ∧ r ≤ d.ht0.size ∧
    ∀ i < r, d.ht0.table[i]? = some []

theorem and_sizemask_lt (h : t.WF hash) (hs : 0 < t.size) (x : BitVec 64) : (x &&& t.sizemask).toNat < t.size := by
  rcases h.pow with ⟨h0, -⟩ | ⟨n, hn, hsz, hm⟩
  · omega
  · have hlt : 2 ^ n < 2 ^ 64 := Nat.pow_lt_pow_right (by decide) (by omega)
    rw [hm, BitVec.toNat_and, BitVec.toNat_ofNat]
    exact Nat.and_le_right.trans_lt (by omega)

theorem bucketOf_lt (h : t.WF hash) (hs : 0 < t.size) (key : K) : t.bucketOf hash key < t.size :=
  and_sizemask_lt h hs (hash key)

theorem exists_bucket (h : t.WF hash) (hs : 0 < t.size) (key : K) :
    ∃ chain, t.table[t.bucketOf hash key]? = some chain :=
  ⟨_, getElem?_eq_getElem (by rw [h.length]; exact bucketOf_lt h hs key)⟩

namespace Dictht.WF
variable {t : Dictht K V}

theorem reset : (dictReset : Dictht K V).WF hash :=
  ⟨rfl, .inl ⟨rfl, rfl⟩, rfl, fun i chain hi => by simp [dictReset] at hi⟩

theorem fresh {n : Nat} (hn : n ≤ 60) :
    (⟨List.replicate (2 ^ n * 8 % 2 ^ 64 / 8) [], 2 ^ n, BitVec.ofNat 64 (2 ^ n - 1), 0⟩ : Dictht K V).WF hash := by
  have hle : 2 ^ n ≤ 2 ^ 60 := Nat.pow_le_pow_right (by decide) hn
  have hall : 2 ^ n * 8 % 2 ^ 64 / 8 = 2 ^ n := by omega
  refine ⟨by rw [hall, length_replicate], .inr ⟨n, hn, rfl, rfl⟩, by simp [Dictht.entries], ?_⟩
  intro i chain hi e he
  rw [getElem?_replicate] at hi
  split at hi
  · simp only [Option.some.injEq] at hi; subst hi; simp at he
  · cases hi

theorem setBucket (h : t.WF hash) {i used' : Nat} {chain chain' : List (DictEntry K V)}
    (hi : t.table[i]? = some chain) (hplace : ∀ e ∈ chain', t.bucketOf hash e.key = i)
    (hused : used' + chain.length = t.used + chain'.length) :
    ({ t with table := t.table.set i chain', used := used' } : Dictht K V).WF hash := by
  obtain ⟨A, B, hAB, hA, hset, -⟩ := exists_split_of_getElem? hi
  have hu := h.used
  refine ⟨by simp [h.length], h.pow, ?_, ?_⟩
  · simp only [Dictht.entries, hset chain', flatten_append, flatten_cons,
      length_append]
    simp only [Dictht.entries, hAB, flatten_append, flatten_cons, length_append] at hu
    omega
  · intro j c hj e he
    by_cases hji : j = i
    · subst hji
      have hc : c = chain' := by
        rw [hset, ← hA, getElem?_of_split] at hj
        exact (Option.some.inj hj).symm
      exact hplace e (hc ▸ he)
    · rw [hset, getElem?_split_ne (by rw [hA]; exact hji), ← hAB] at hj
      exact h.place j c hj e he

theorem mem_bucket (h : t.WF hash) {e : DictEntry K V} (he : e ∈ t.entries) :
    ∃ chain, t.table[t.bucketOf hash e.key]? = some chain ∧ e ∈ chain := by
  obtain ⟨chain, hc, hm⟩ := mem_flatten.1 he
  obtain ⟨i, hi⟩ := mem_iff_getElem?.1 hc
  exact ⟨chain, by rw [h.place i chain hi e hm]; exact hi, hm⟩

theorem entries_eq_nil (h : t.WF hash) (hu : t.used = 0) : t.entries = [] :=
  eq_nil_of_length_eq_zero (h.used ▸ hu)

theorem size_pos (h : t.WF hash) (hu : t.used ≠ 0) : 0 < t.size := by
  rcases Nat.eq_zero_or_pos t.size with h0 | h0
  · have : t.table = [] := eq_nil_of_length_eq_zero (h.length.trans h0)
    exact absurd (by rw [h.used, Dictht.entries, this]; rfl) hu
  · exact h0

theorem size_eq_zero_iff (h : t.WF hash) : t.size = 0 ↔ t.table = [] := by
  rw [← h.length, length_eq_zero_iff]

end Dictht.WF

theorem entries_setBucket {i : Nat} (hi : t.table[i]? = some chain) :
    ∃ A B, t.entries = A ++ chain ++ B ∧ ∀ (chain' : List (DictEntry K V)) (used' : Nat),
      ({ t with table := t.table.set i chain', used := used' } : Dictht K V).entries = A ++ chain' ++ B := by
  obtain ⟨A, B, hAB, -, hset, -⟩ := exists_split_of_getElem? hi
  refine ⟨A.flatten, B.flatten, ?_, fun chain' used' => ?_⟩
  · simp [Dictht.entries, hAB]
  · simp [Dictht.entries, hset]

theorem set_eq_modify {t : List (List (DictEntry K V))} {i : Nat} (hi : t[i]? = some chain)
    (f : List (DictEntry K V) → List (DictEntry K V)) : t.modify i f = t.set i (f chain) := by
  obtain ⟨A, B, -, -, hset, hmod⟩ := exists_split_of_getElem? hi
  rw [hset, hmod]

namespace Dict.Inv
variable {d : Dict K V}

theorem create : (dictCreate : Dict K V).Inv hash :=
  ⟨.reset, .reset, by simp [Dict.entries, Dictht.entries, dictCreate, dictReset], fun _ => rfl,
    fun r hr => by cases hr⟩

theorem ht1_entries_of_idle (h : d.Inv hash) (hr : d.rehashidx = none) : d.ht1.entries = [] := by
  rw [h.idle hr]; rfl

end Dict.Inv
end Redis
