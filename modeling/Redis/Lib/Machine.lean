import Mathlib.Data.List.Basic

/-! # Partial machines and their specifications

A component is a `Machine`: a partial step function, `none` standing for an execution that leaves
the defined behaviour (a failed assertion, an access outside a buffer). A specification is a
relation between an operation, the abstract state before it, the reply and the abstract state
after it. `Machine.Simulates` is the step-wise condition and `Simulates.run` the statement about
whole runs. -/

namespace Redis
open List Option

theorem some_bind {α β : Type} (a : α) (f : α → Option β) : (some a >>= f) = f a := rfl

/-- The result, if there is one, has the property. -/
def Returns {α : Type} (P : α → Prop) (x : Option α) : Prop := ∀ a, x = some a → P a

section returns
variable {α β : Type} {P : α → Prop} {Q : β → Prop} {x : Option α} {f : α → Option β}

theorem Returns.ret {a : α} (h : P a) : Returns P (some a) := by
  rintro b ⟨⟩
  exact h

theorem Returns.fault : Returns P none := nofun

theorem Returns.self : Returns (fun a => x = some a) x := fun _ h => h

theorem Returns.of_eq {a : α} (hx : x = some a) (h : P a) : Returns P x := hx ▸ .ret h

theorem Returns.of_spec {R : α → Prop} (h : ∃ a, x = some a ∧ P a ∧ R a) : Returns P x :=
  let ⟨_, hx, h, _⟩ := h
  .of_eq hx h

theorem Returns.mono {R : α → Prop} (hx : Returns P x) (h : ∀ a, P a → R a) : Returns R x :=
  fun a ha => h a (hx a ha)

theorem Returns.bind (hx : Returns P x) (hf : ∀ a, P a → Returns Q (f a)) : Returns Q (x >>= f) := by
  intro b hb
  obtain ⟨a, ha, hb⟩ := bind_eq_some_iff.1 hb
  exact hf a (hx a ha) b hb

theorem Returns.any (hf : ∀ a, Returns Q (f a)) : Returns Q (x >>= f) :=
  .bind (P := fun _ => True) (fun _ _ => trivial) fun a _ => hf a

theorem Returns.ite {c : Prop} [Decidable c] {y : Option α} (hx : Returns P x) (hy : Returns P y) :
    Returns P (if c then x else y) := by
  split
  exacts [hx, hy]

theorem Returns.map {g : α → β} (hx : Returns P x) (hg : ∀ a, P a → Q (g a)) : Returns Q (x.map g) := by
  intro b hb
  obtain ⟨a, ha, rfl⟩ := map_eq_some_iff.1 hb
  exact hg a (hx a ha)

end returns

variable {Op St Rep Abs : Type}

structure Machine (Op St Rep : Type) where
  init : St
  step : Op → St → Option (St × Rep)

/-- What an operation may do to the abstract state, and with which reply. -/
abbrev Spec (Op Abs Rep : Type) := Op → Abs → Rep → Abs → Prop

inductive Spec.Run (S : Spec Op Abs Rep) : List Op → Abs → List Rep → Abs → Prop
  | nil (a : Abs) : Spec.Run S [] a [] a
  | cons {op : Op} {ops : List Op} {a b c : Abs} {r : Rep} {rs : List Rep} :
      S op a r b → Spec.Run S ops b rs c → Spec.Run S (op :: ops) a (r :: rs) c

namespace Machine
variable {M : Machine Op St Rep} {s s' : St} {op : Op} {ops : List Op}
variable {rs : List Rep} {G : Op → St → Prop} {I : St → Prop}

def run (M : Machine Op St Rep) : List Op → St → Option (St × List Rep)
  | [], s => some (s, [])
  | op :: ops, s =>
    match M.step op s with
    | none => none
    | some (s', r) => (M.run ops s').map fun (t, rs) => (t, r :: rs)

theorem run_append (M : Machine Op St Rep) (ops ops' : List Op) (s : St) :
    M.run (ops ++ ops') s = (M.run ops s).bind fun r => (M.run ops' r.1).map fun r' => (r'.1, r.2 ++ r'.2) := by
  induction ops generalizing s with
  | nil => simp [run]
  | cons op ops ih =>
    simp only [cons_append, run]
    rcases M.step op s with - | r
    · rfl
    dsimp only
    rw [ih]
    cases M.run ops r.1 with
    | none => rfl
    | some r' =>
      simp only [bind_some, map_some, cons_append]
      cases M.run ops' r'.1 <;> rfl

theorem run_concat (h : M.run (ops ++ [op]) s = some (s', rs)) :
    ∃ t rs₁ r, M.run ops s = some (t, rs₁) ∧ M.step op t = some (s', r) ∧ rs = rs₁ ++ [r] := by
  rw [run_append] at h
  obtain ⟨⟨t, rs₁⟩, ht, h⟩ := bind_eq_some_iff.1 h
  obtain ⟨⟨u, rs₂⟩, hu, he⟩ := map_eq_some_iff.1 h
  obtain ⟨rfl, rfl⟩ := he
  rw [run] at hu
  split at hu
  · cases hu
  next v r hs =>
    obtain ⟨rfl, rfl⟩ := hu
    exact ⟨t, rs₁, r, ht, hs, rfl⟩

inductive Reachable (M : Machine Op St Rep) : St → Prop
  | init : Reachable M M.init
  | step {s s' : St} {op : Op} {r : Rep} : Reachable M s → M.step op s = some (s', r) → Reachable M s'

/-- Every operation of the run meets the condition `G` in the state it is applied to. -/
def Guarded (M : Machine Op St Rep) (G : Op → St → Prop) : List Op → St → Prop
  | [], _ => True
  | op :: ops, s => G op s ∧ ∀ s' r, M.step op s = some (s', r) → M.Guarded G ops s'

theorem Guarded.and_mem {P : Op → Prop} (h : M.Guarded G ops s) (hP : ∀ op ∈ ops, P op) :
    M.Guarded (fun op s => P op ∧ G op s) ops s := by
  induction ops generalizing s with
  | nil => trivial
  | cons op ops ih =>
    exact ⟨⟨hP op (.head _), h.1⟩, fun s' r hs =>
      ih (h.2 s' r hs) fun op hop => hP op (.tail _ hop)⟩

theorem Guarded.append {ops' : List Op} (h : M.Guarded G (ops ++ ops') s) :
    M.Guarded G ops s ∧ ∀ t rs, M.run ops s = some (t, rs) → M.Guarded G ops' t := by
  induction ops generalizing s with
  | nil =>
    refine ⟨trivial, fun t rs ht => ?_⟩
    cases ht
    exact h
  | cons op ops ih =>
    refine ⟨⟨h.1, fun s' r hs => (ih (h.2 s' r hs)).1⟩, fun t rs ht => ?_⟩
    rw [run] at ht
    split at ht
    · cases ht
    next s' r hs =>
      obtain ⟨⟨u, rs'⟩, hu, he⟩ := map_eq_some_iff.1 ht
      cases he
      exact (ih (h.2 s' r hs)).2 _ rs' hu

theorem guarded_of_forall_mem : ∀ {ops : List Op}, (∀ op ∈ ops, ∀ s, G op s) → ∀ s : St, M.Guarded G ops s
  | [], _, _ => trivial
  | _ :: _, h, s => ⟨h _ (.head _) s, fun s' _ _ =>
      guarded_of_forall_mem (fun op hop => h op (.tail _ hop)) s'⟩

/-- `Guarded` for one run, as a computation. -/
def check (M : Machine Op St Rep) (G : Op → St → Prop) [∀ op s, Decidable (G op s)] : List Op → St → Bool
  | [], _ => true
  | op :: ops, s =>
    decide (G op s) &&
      match M.step op s with
      | none => true
      | some (s', _) => M.check G ops s'

theorem guarded_of_check [∀ op s, Decidable (G op s)] :
    ∀ {ops : List Op} {s : St}, M.check G ops s = true → M.Guarded G ops s
  | [], _, _ => trivial
  | op :: ops, s, h => by
    rw [check, Bool.and_eq_true, decide_eq_true_eq] at h
    refine ⟨h.1, fun s' r hs => guarded_of_check ?_⟩
    simpa [hs] using h.2

theorem Reachable.inv (hinit : I M.init) (hstep : ∀ {s s' op r}, I s → M.step op s = some (s', r) → I s')
    (h : M.Reachable s) : I s := by
  induction h with
  | init => exact hinit
  | step _ hs ih => exact hstep ih hs

/-- An invariant of the steps that meet `G` holds at the end of every run whose steps all do. -/
theorem Guarded.inv (hg : M.Guarded G ops s) (hI : I s)
    (hstep : ∀ {s s' op r}, I s → G op s → M.step op s = some (s', r) → I s') (hr : M.run ops s = some (s', rs)) :
    I s' := by
  induction ops generalizing s rs with
  | nil => simp only [run, some.injEq, Prod.mk.injEq] at hr; exact hr.1 ▸ hI
  | cons op ops ih =>
    rw [run] at hr
    split at hr
    · cases hr
    next t r hs =>
      obtain ⟨⟨u, rs'⟩, hu, he⟩ := map_eq_some_iff.1 hr
      simp only [Prod.mk.injEq] at he
      exact ih (hg.2 t r hs) (hstep hI hg.1 hs) (he.1 ▸ hu)

theorem Reachable.of_run (h : M.Reachable s) (hr : M.run ops s = some (s', rs)) : M.Reachable s' :=
  (guarded_of_forall_mem (G := fun _ _ => True) (fun _ _ _ => trivial) s).inv h (fun h _ hs => h.step hs) hr

/-- Step-wise simulation: from related states, an operation that meets `G` does not fault, gives a
reply the specification allows and leads to related states. -/
def Simulates (M : Machine Op St Rep) (S : Spec Op Abs Rep) (G : Op → St → Prop) (R : St → Abs → Prop) : Prop :=
  ∀ op s a, R s a → G op s → ∃ s' r b, M.step op s = some (s', r) ∧ S op a r b ∧ R s' b

theorem Simulates.run {S : Spec Op Abs Rep} {R : St → Abs → Prop} (h : M.Simulates S G R) {a : Abs} (hR : R s a)
    (hg : M.Guarded G ops s) : ∃ s' rs b, M.run ops s = some (s', rs) ∧ S.Run ops a rs b ∧ R s' b := by
  induction ops generalizing s a with
  | nil => exact ⟨s, [], a, rfl, .nil a, hR⟩
  | cons op ops ih =>
    obtain ⟨s₁, r, b, hs, hS, hR₁⟩ := h op s a hR hg.1
    obtain ⟨s₂, rs, c, hrun, hSr, hR₂⟩ := ih hR₁ (hg.2 s₁ r hs)
    exact ⟨s₂, r :: rs, c, by simp [Machine.run, hs, hrun], .cons hS hSr, hR₂⟩

/-- Steps that meet `G` keep an invariant of the state and of the replies so far and do not fault, and neither
do runs of such steps. -/
theorem Guarded.total_log {J : St → List Rep → Prop} {l : List Rep} (hg : M.Guarded G ops s) (hJ : J s l)
    (hstep : ∀ {op s l}, J s l → G op s → ∃ s' r, M.step op s = some (s', r) ∧ J s' (l ++ [r])) :
    ∃ s' rs, M.run ops s = some (s', rs) ∧ J s' (l ++ rs) := by
  induction ops generalizing s l with
  | nil => exact ⟨s, [], rfl, by rwa [append_nil]⟩
  | cons op ops ih =>
    obtain ⟨s₁, r, hs, hJ₁⟩ := hstep hJ hg.1
    obtain ⟨s₂, rs, hrun, hJ₂⟩ := ih (hg.2 s₁ r hs) hJ₁
    exact ⟨s₂, r :: rs, by simp [Machine.run, hs, hrun], by rwa [append_assoc] at hJ₂⟩

theorem Guarded.total (hg : M.Guarded G ops s) (hI : I s)
    (hstep : ∀ {op s}, I s → G op s → ∃ s' r, M.step op s = some (s', r) ∧ I s') :
    ∃ s' rs, M.run ops s = some (s', rs) ∧ I s' :=
  hg.total_log (J := fun s _ => I s) (l := []) hI fun hI hG => hstep hI hG

end Machine
end Redis
