import Mathlib.Logic.Basic

/-! # Commands on keys (`db.c`)

`setKey`, RENAME and MOVE are written once, over the primitives of the keyspace. A model of the keyspace gives
the primitives for the part of the state that it is about: the expire times (`Keyspace`), the index of hash
slots (`ClusterDb`), the clients that wait for a key (`Blocking`) or that watch it (`Multi`). -/

namespace Redis

inductive KeyReply
  | ok
  | zero
  | one
  | noKey
  | outOfRange
  | sameObject
  deriving DecidableEq

/-- What RENAME and MOVE call. A failed assertion fails in `m`. -/
structure KeyOps (m : Type → Type) (S K V : Type) where
  lookupKeyWrite : S → K → m (S × Option V)
  dbAdd : S → K → V → m S
  dbDelete : S → K → m S
  getExpire : S → K → m Int
  setExpire : S → K → Int → m S
  signalModifiedKey : S → K → S

/-- With what `setKey` calls. -/
structure SetOps (m : Type → Type) (S K V : Type) extends KeyOps m S K V where
  dbOverwrite : S → K → V → m S
  removeExpire : S → K → m S

variable {m : Type → Type} [Monad m] {S K V : Type}

def SetOps.setKey (ops : SetOps m S K V) (s : S) (key : K) (val : V) : m S := do
  let (s, o) ← ops.lookupKeyWrite s key
  let s ← (if o.isNone then ops.dbAdd s key val else ops.dbOverwrite s key val)
  let s ← ops.removeExpire s key
  pure (ops.signalModifiedKey s key)

theorem SetOps.setKey_eq [LawfulMonad m] {ops : SetOps m S K V} {s s₁ s₂ s₃ : S} {key : K} {val : V} {o : Option V}
    (h₁ : ops.lookupKeyWrite s key = pure (s₁, o))
    (h₂ : (if o.isNone then ops.dbAdd s₁ key val else ops.dbOverwrite s₁ key val) = pure s₂)
    (h₃ : ops.removeExpire s₂ key = pure s₃) : ops.setKey s key val = pure (ops.signalModifiedKey s₃ key) := by
  simp only [SetOps.setKey, h₁, h₂, h₃, pure_bind]

namespace KeyOps
variable (ops ops' : KeyOps m S K V) (s : S) (src dst : K)

/-- The end of RENAME and MOVE: add the key with the expire of the old one, and delete that. -/
def moveKey (o : V) (expire : Int) : m S := do
  let s ← ops.dbAdd s dst o
  let s ← (if expire ≠ -1 then ops.setExpire s dst expire else pure s)
  ops.dbDelete s src

/-- The clock is read once for each of the two keys: `ops'` are the primitives from the second reading on. -/
def renameGenericCommand [DecidableEq K] (nx : Bool) : m (S × KeyReply) := do
  let (s, o) ← ops.lookupKeyWrite s src
  match o with
  | none => pure (s, .noKey)
  | some o =>
    if src = dst then pure (s, if nx then .zero else .ok)
    else do
      let expire ← ops.getExpire s src
      let (s, old) ← ops'.lookupKeyWrite s dst
      if old.isSome && nx then pure (s, .zero)
      else do
        let s ← (if old.isSome then ops'.dbDelete s dst else pure s)
        let s ← ops'.moveKey s src dst o expire
        pure (ops'.signalModifiedKey (ops'.signalModifiedKey s src) dst, if nx then .one else .ok)

/-- Behind the tests of the two databases. -/
def moveCommand : m (S × KeyReply) := do
  let (s, o) ← ops.lookupKeyWrite s src
  match o with
  | none => pure (s, .zero)
  | some o => do
    let expire ← ops.getExpire s src
    let (s, old) ← ops'.lookupKeyWrite s dst
    if old.isSome then pure (s, .zero)
    else do
      let s ← ops'.moveKey s src dst o expire
      pure (s, .one)

/-! ### The primitives keep an invariant -/

/-- `get` is what a lookup finds, and `Fine` what `dbAdd` asks of a key and its value. -/
structure Sound (ops : KeyOps m S K V) (I : S → Prop) (get : S → K → Option V) (Fine : K → V → Prop) : Prop where
  lookup : ∀ {s} k, I s → ∃ s', ops.lookupKeyWrite s k = pure (s', get s' k) ∧ I s'
  add : ∀ {s k v}, I s → get s k = none → Fine k v → ∃ s', ops.dbAdd s k v = pure s' ∧ I s' ∧ get s' k = some v
  delete : ∀ {s} k, I s → ∃ s', ops.dbDelete s k = pure s' ∧ I s' ∧ get s' k = none
  getExpire : ∀ {s} k, I s → ∃ when, ops.getExpire s k = pure when
  setExpire : ∀ {s k v} when, I s → get s k = some v → ∃ s', ops.setExpire s k when = pure s' ∧ I s'
  signal : ∀ {s} k, I s → I (ops.signalModifiedKey s k)

variable [LawfulMonad m] {ops ops' : KeyOps m S K V} {s s₁ s₂ s₃ : S} {src dst : K} {o : V} {expire : Int}

theorem moveKey_eq (h₁ : ops.dbAdd s dst o = pure s₁)
    (h₂ : (if expire ≠ -1 then ops.setExpire s₁ dst expire else pure s₁) = pure s₂) (h₃ : ops.dbDelete s₂ src = pure s₃) :
    ops.moveKey s src dst o expire = pure s₃ := by
  rw [KeyOps.moveKey, h₁, pure_bind, h₂, pure_bind, h₃]

variable {I : S → Prop} {get : S → K → Option V} {Fine : K → V → Prop}

theorem Sound.moveKey (h : ops.Sound I get Fine) (hs : I s) (hdst : get s dst = none) (ho : Fine dst o) (src : K)
    (expire : Int) : ∃ s', ops.moveKey s src dst o expire = pure s' ∧ I s' := by
  obtain ⟨s₁, h₁, hs₁, hget⟩ := h.add hs hdst ho
  obtain ⟨s₂, h₂, hs₂⟩ : ∃ s₂, (if expire ≠ -1 then ops.setExpire s₁ dst expire else pure s₁) = pure s₂ ∧ I s₂ := by
    split
    · exact h.setExpire expire hs₁ hget
    · exact ⟨s₁, rfl, hs₁⟩
  obtain ⟨s₃, h₃, hs₃, -⟩ := h.delete src hs₂
  exact ⟨s₃, moveKey_eq h₁ h₂ h₃, hs₃⟩

section
variable (h : ops.Sound I get Fine) (h' : ops'.Sound I get Fine) (hs : I s)
  (ho : ∀ s o, I s → get s src = some o → Fine dst o)
include h h' hs ho

theorem Sound.renameGenericCommand [DecidableEq K] (nx : Bool) :
    ∃ s' r, ops.renameGenericCommand ops' s src dst nx = pure (s', r) ∧ I s' := by
  obtain ⟨s₁, h₁, hs₁⟩ := h.lookup src hs
  simp only [KeyOps.renameGenericCommand, h₁, pure_bind]
  cases hget : get s₁ src with
  | none => exact ⟨s₁, _, rfl, hs₁⟩
  | some o =>
    by_cases hsame : src = dst
    · exact ⟨s₁, _, if_pos hsame, hs₁⟩
    obtain ⟨expire, he⟩ := h.getExpire src hs₁
    obtain ⟨s₂, h₂, hs₂⟩ := h'.lookup dst hs₁
    simp only [if_neg hsame, he, h₂, pure_bind]
    split
    · exact ⟨s₂, _, rfl, hs₂⟩
    -- The destination is gone before the key is added.
    obtain ⟨s₃, h₃, hs₃, hdst⟩ : ∃ s₃, (if (get s₂ dst).isSome then ops'.dbDelete s₂ dst else pure s₂) = pure s₃ ∧
        I s₃ ∧ get s₃ dst = none := by
      split
      · exact h'.delete dst hs₂
      next hold => exact ⟨s₂, rfl, hs₂, by simpa using hold⟩
    obtain ⟨s₄, h₄, hs₄⟩ := h'.moveKey hs₃ hdst (ho s₁ o hs₁ hget) src expire
    simp only [h₃, h₄, pure_bind]
    exact ⟨_, _, rfl, h'.signal dst (h'.signal src hs₄)⟩

theorem Sound.moveCommand : ∃ s' r, ops.moveCommand ops' s src dst = pure (s', r) ∧ I s' := by
  obtain ⟨s₁, h₁, hs₁⟩ := h.lookup src hs
  simp only [KeyOps.moveCommand, h₁, pure_bind]
  cases hget : get s₁ src with
  | none => exact ⟨s₁, _, rfl, hs₁⟩
  | some o =>
    obtain ⟨expire, he⟩ := h.getExpire src hs₁
    obtain ⟨s₂, h₂, hs₂⟩ := h'.lookup dst hs₁
    simp only [he, h₂, pure_bind]
    split
    · exact ⟨s₂, _, rfl, hs₂⟩
    next hold =>
      obtain ⟨s₃, h₃, hs₃⟩ := h'.moveKey hs₂ (by simpa using hold) (ho s₁ o hs₁ hget) src expire
      simp only [h₃, pure_bind]
      exact ⟨s₃, _, rfl, hs₃⟩

end

end KeyOps

end Redis
