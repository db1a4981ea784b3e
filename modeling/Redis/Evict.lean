import Mathlib.Algebra.Order.Ring.Int

/-!
# Freeing memory (`evict.c`)

`freeMemoryIfNeeded` evicts keys until what their deletion has released reaches the amount above the
limit. The readings of the allocator are inputs, since another thread may free memory at any time.
-/

namespace Redis.Evict

/-- `zmalloc_used_memory` and `freeMemoryGetNotCountedMemory` at one moment. -/
structure Memory where
  used : UInt64
  overhead : UInt64

/-- None for `C_OK`, otherwise `*tofree`. -/
def getMaxmemoryState (maxmemory : UInt64) (m : Memory) : Option UInt64 :=
  if maxmemory = 0 ∨ m.used ≤ maxmemory then none
  else
    let used := if m.used > m.overhead then m.used - m.overhead else 0
    if used ≤ maxmemory then none else some (used - maxmemory)

/-- One eviction: the memory used before and after the deletion, and later on. -/
structure Reading where
  before : UInt64
  after : UInt64
  later : Memory

/-- `ignores` is a replica that ignores the limit, `keys` the number of keys that the policy may evict. -/
structure Server where
  ignores : Bool
  clientsPaused : Bool
  maxmemory : UInt64
  lazyEviction : Bool
  keys : Nat
  start : Memory
  reading : Nat → Reading

/-- How the loop ends: with `C_OK` or not, after how many evictions, and whether a later
`getMaxmemoryState` reported memory under the limit. -/
structure Run where
  ok : Bool
  evicted : Nat
  relieved : Bool
  deriving DecidableEq

variable (s : Server)

/-- The loop with `keys` keys left after `i` evictions; there is a key to evict unless none is left. -/
def evictLoop (tofree : UInt64) : Nat → Nat → UInt64 → Bool → Run
  | keys, i, freed, relieved =>
    if freed < tofree then
      match keys with
      | 0 => ⟨false, i, relieved⟩
      | keys + 1 =>
        -- the counter starts at 0 in each turn
        let keysFreed := 0 + 1
        if s.lazyEviction ∧ keysFreed % 16 = 0 ∧ getMaxmemoryState s.maxmemory (s.reading i).later = none then
          evictLoop tofree keys (i + 1) tofree true
        else evictLoop tofree keys (i + 1) (freed + ((s.reading i).before - (s.reading i).after)) relieved
    else ⟨true, i, relieved⟩

/-- Under a policy that allows eviction, if it gets to the loop. -/
def freeMemoryIfNeeded : Option Run :=
  if s.ignores ∨ s.clientsPaused then none
  else (getMaxmemoryState s.maxmemory s.start).map fun tofree => evictLoop s tofree s.keys 0 0 false

/-- The sum of the decreases measured by the first `i` evictions. -/
def released : Nat → Int
  | 0 => 0
  | i + 1 => released i + ((s.reading i).before.toNat - (s.reading i).after.toNat)

/-- The sum stays in the range of the counter. -/
def Measured (n : Nat) : Prop := ∀ i ≤ n, 0 ≤ released s i ∧ released s i < 2 ^ 64

def Run.Frees (tofree : UInt64) (r : Run) : Prop :=
  r.ok = true → (tofree.toNat : Int) ≤ released s r.evicted ∨ r.relieved = true

theorem freed_succ {freed : UInt64} {i : Nat} (hf : (freed.toNat : Int) = released s i)
    (h : 0 ≤ released s (i + 1) ∧ released s (i + 1) < 2 ^ 64) :
    ((freed + ((s.reading i).before - (s.reading i).after)).toNat : Int) = released s (i + 1) := by
  have := (s.reading i).before.toNat_lt
  have := (s.reading i).after.toNat_lt
  rw [released] at h ⊢
  rw [UInt64.toNat_add, UInt64.toNat_sub]
  omega

theorem frees_of_not_lt {tofree freed : UInt64} {i : Nat} (hf : (freed.toNat : Int) = released s i)
    (h : ¬freed < tofree) : Run.Frees s tofree ⟨true, i, false⟩ := by
  rw [UInt64.not_lt, UInt64.le_iff_toNat_le] at h
  exact fun _ => .inl (hf ▸ Int.ofNat_le.2 h)

theorem evictLoop_evicted (tofree freed : UInt64) (keys i : Nat) :
    i ≤ (evictLoop s tofree keys i freed false).evicted ∧ (evictLoop s tofree keys i freed false).evicted ≤ i + keys := by
  induction keys generalizing i freed with
  | zero =>
    rw [evictLoop]
    split <;> exact ⟨Nat.le_refl _, Nat.le_refl _⟩
  | succ keys ih =>
    rw [evictLoop]
    split
    · rw [if_neg (by simp)]
      have := ih (freed + ((s.reading i).before - (s.reading i).after)) (i + 1)
      omega
    · exact ⟨Nat.le_refl _, Nat.le_add_right _ _⟩

theorem evictLoop_frees {tofree freed : UInt64} {keys i : Nat}
    (h : Measured s (evictLoop s tofree keys i freed false).evicted) (hf : (freed.toNat : Int) = released s i) :
    (evictLoop s tofree keys i freed false).Frees s tofree := by
  induction keys generalizing i freed with
  | zero =>
    rw [evictLoop]
    split
    · exact nofun
    next hle => exact frees_of_not_lt s hf hle
  | succ keys ih =>
    rw [evictLoop] at h ⊢
    split at h
    next hlt =>
      rw [if_neg (by simp)] at h
      rw [if_pos hlt, if_neg (by simp)]
      exact ih h (freed_succ s hf (h _ (evictLoop_evicted s tofree _ keys (i + 1)).1))
    next hle =>
      rw [if_neg hle]
      exact frees_of_not_lt s hf hle

/-- The loop evicts no more keys than there are, and if it ends well it has released enough, as long
as the sum of the decreases that it has measured stays in the range of the counter. -/
theorem freeMemoryIfNeeded_frees {r : Run} {tofree : UInt64} (hr : freeMemoryIfNeeded s = some r)
    (ht : getMaxmemoryState s.maxmemory s.start = some tofree) :
    r.evicted ≤ s.keys ∧ (Measured s r.evicted → r.Frees s tofree) := by
  unfold freeMemoryIfNeeded at hr
  split at hr
  · cases hr
  rw [ht] at hr
  cases hr
  have hkeys := (evictLoop_evicted s tofree 0 s.keys 0).2
  rw [Nat.zero_add] at hkeys
  exact ⟨hkeys, fun h => evictLoop_frees s h rfl⟩

/-- A limit of 100 bytes, with 200 in use and three keys. -/
def overLimit (before after : UInt64) : Server :=
  ⟨false, false, 100, true, 3, ⟨200, 0⟩, fun _ => ⟨before, after, ⟨200, 0⟩⟩⟩

/-- Each deletion releases 60 bytes, so two keys go. -/
theorem freeMemoryIfNeeded_frees_two : freeMemoryIfNeeded (overLimit 200 140) = some ⟨true, 2, false⟩ ∧
    Run.Frees (overLimit 200 140) 100 ⟨true, 2, false⟩ :=
  ⟨by decide, (freeMemoryIfNeeded_frees (overLimit 200 140) rfl rfl).2 (by unfold Measured; decide)⟩

/-- The deletion has added a byte: the counter wraps around, and the loop ends with `C_OK`. -/
theorem freeMemoryIfNeeded_wraps : getMaxmemoryState 100 (overLimit 200 201).start = some 100 ∧
    freeMemoryIfNeeded (overLimit 200 201) = some ⟨true, 1, false⟩ ∧ released (overLimit 200 201) 1 = -1 := by
  decide

end Redis.Evict
