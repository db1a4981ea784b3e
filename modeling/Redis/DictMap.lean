import Redis.DictOps

/-! # The hash table is a finite map

`Dict.Holds d m` reads the entries of the two tables as a map `m` from keys to value slots, and
`mapSpec` says what each call does to that map. The calls between two states of the table simulate
`mapSpec` as long as no call asks for a table of `2 ^ 61` buckets. -/

open scoped List

namespace Redis
open List Function Option DictEntry
variable {K V : Type} {hash : K → BitVec 64}

def Dict.Holds (d : Dict K V) (m : K → Option (Option V)) : Prop :=
  ∀ k v, m k = some v ↔ (⟨k, v⟩ : DictEntry K V) ∈ d.entries

def mapSpec [DecidableEq K] : Spec (DictOp K V) (K → Option (Option V)) (DictReply K V)
  | .add key v, m, r, m' =>
    if m key = none then r = .status .ok ∧ m' = Function.update m key (some (some v))
    else r = .status .err ∧ m' = m
  | .replace key v, m, r, m' =>
    r = .flag (m key).isNone ∧ m' = Function.update m key (some (some v))
  | .addOrFind key v, m, r, m' =>
    r = .entry (some ⟨key, (m key).getD none⟩) ∧
      m' = Function.update m key (some (v.or ((m key).getD none)))
  | .delete key, m, r, m' =>
    r = .status (if m key = none then .err else .ok) ∧ m' = Function.update m key none
  | .unlink key, m, r, m' =>
    r = .entry ((m key).map (DictEntry.mk key)) ∧ m' = Function.update m key none
  | .find key, m, r, m' => r = .entry ((m key).map (DictEntry.mk key)) ∧ m' = m
  | .expand _, m, _, m' => m' = m
  | .resize, m, _, m' => m' = m
  | .rehash _, m, _, m' => m' = m
  | .enableResize, m, _, m' => m' = m
  | .disableResize, m, _, m' => m' = m

/-- The call does not ask for a table of `2 ^ 61` buckets. -/
def DictOp.Fits : DictOp K V → DictState K V → Prop
  | .expand size, s => dictIsRehashing s.dict = false → s.dict.ht0.used ≤ size → size ≤ 2 ^ 60
  | .add _ _, s | .replace _ _, s | .addOrFind _ _, s => dictSize s.dict ≤ 2 ^ 59
  | _, _ => True

instance : ∀ (op : DictOp K V) (s : DictState K V), Decidable (op.Fits s)
  | .expand _, _ => inferInstanceAs (Decidable (_ → _ → _))
  | .add _ _, _ | .replace _ _, _ | .addOrFind _ _, _ => inferInstanceAs (Decidable (_ ≤ _))
  | .delete _, _ | .unlink _, _ | .find _, _ | .resize, _ | .rehash _, _ | .enableResize, _ | .disableResize, _ =>
    isTrue trivial

structure DictState.Stores (hash : K → BitVec 64) (s : DictState K V) (m : K → Option (Option V)) :
    Prop where
  inv : s.dict.Inv hash
  holds : s.dict.Holds m

namespace Dict.Holds
variable {d d' : Dict K V} {m : K → Option (Option V)} {key : K}
variable {e : DictEntry K V}

theorem create : (dictCreate : Dict K V).Holds fun _ => none := by
  intro k v
  simp [dictCreate, dictReset, Dict.entries, Dictht.entries]

section
variable (h : d.Holds m)
include h

theorem perm (hp : d'.entries ~ d.entries) : d'.Holds m :=
  fun k v => (h k v).trans hp.mem_iff.symm

theorem moved (hmv : d.Moved hash d') : d'.Holds m := h.perm hmv.perm

theorem eq_some (he : e ∈ d.entries) : m e.key = some e.val :=
  (h e.key e.val).2 he

theorem eq_none (hne : ∀ e ∈ d.entries, e.key ≠ key) : m key = none := by
  cases hm : m key with
  | none => rfl
  | some v => exact absurd rfl (hne _ ((h key v).1 hm))

variable [DecidableEq K]

theorem update (o : Option (Option V)) (hne : ∀ e, e.key ≠ key → (e ∈ d'.entries ↔ e ∈ d.entries))
    (hkey : ∀ v, (⟨key, v⟩ : DictEntry K V) ∈ d'.entries ↔ o = some v) : d'.Holds (update m key o) := by
  intro k v
  by_cases hk : k = key
  · subst hk
    rw [update_self]
    exact (hkey v).symm
  · rw [update_of_ne hk, hne ⟨k, v⟩ hk]
    exact h k v

theorem update_cons (hI : d'.Inv hash) {v : Option V} {L : List (DictEntry K V)}
    (hp : d'.entries ~ ⟨key, v⟩ :: L) (hL : ∀ e, e.key ≠ key → (e ∈ L ↔ e ∈ d.entries)) :
    d'.Holds (Function.update m key (some v)) := by
  refine h.update _ (fun e he => ?_) (fun w => ⟨fun hw => ?_, ?_⟩)
  · rw [hp.mem_iff, mem_cons, ← hL e he]
    exact ⟨fun h => h.resolve_left fun heq => he (heq ▸ rfl), .inr⟩
  · have := inj_on_of_nodup_map hI.nodup hw (hp.mem_iff.2 (.head _)) rfl
    exact congrArg some (congrArg val this).symm
  · rintro ⟨⟩
    exact hp.mem_iff.2 (.head _)

theorem erase (hI : d.Inv hash) (hk : e.key = key) (hp : d.entries ~ e :: d'.entries) :
    d'.Holds (Function.update m key none) := by
  refine h.update _ (fun x hx => ?_) (fun w => ⟨fun hw => ?_, fun hn => absurd hn.symm (some_ne_none _)⟩)
  · rw [hp.mem_iff, mem_cons]
    exact ⟨.inr, fun h => h.resolve_left fun heq => hx (heq ▸ hk)⟩
  · have hnd := (hp.map DictEntry.key).nodup_iff.1 hI.nodup
    rw [map_cons, nodup_cons] at hnd
    exact absurd (List.mem_map.2 ⟨_, hw, hk.symm⟩) hnd.1

end

end Dict.Holds

/-! ### The calls -/

variable [DecidableEq K]
variable {s : DictState K V}

section
variable {d : Dict K V} {m : K → Option (Option V)} {key : K}

section
variable (hI : d.Inv hash) (hm : d.Holds m)
include hI hm

theorem dictSetVal_holds {r : EntryRef} {o : Option V} (hr : dictDeref d r = some ⟨key, o⟩) (v : V) :
    (dictSetVal d r v).Inv hash ∧ (dictSetVal d r v).Holds (Function.update m key (some (some v))) := by
  obtain ⟨hI', L, hp, hp'⟩ := dictSetVal_spec hI hr v
  refine ⟨hI', hm.update_cons hI' hp' fun e he => ?_⟩
  rw [hp.mem_iff, mem_cons]
  exact ⟨.inr, fun h => h.resolve_left fun heq => he (heq ▸ rfl)⟩

theorem dictAddRaw_holds (hs : dictSize d ≤ 2 ^ 59) (c : Bool) (key : K) : ∃ d' r, dictAddRaw hash c d key =
        some (d', if m key = none then (some r, none) else (none, some r)) ∧
      dictDeref d' r = some ⟨key, (m key).getD none⟩ ∧ d'.Inv hash ∧
      d'.Holds (update m key (some ((m key).getD none))) := by
  obtain ⟨d', entry, existing, heq, hout⟩ := dictAddRaw_spec hI hs c key
  cases hout with
  | existing r e hd hk hmv =>
    have hsome : m key = some e.val := hk ▸ hm.eq_some (hmv.mem_iff.1 (dictDeref_mem hd))
    refine ⟨d', r, by simp [heq, hsome], ?_, hmv.inv, ?_⟩
    · rw [hd, hsome, getD_some, ← hk]
    · rw [hsome, update_eq_self_iff.2 hsome.symm]
      exact hm.moved hmv
  | added r hd hI' hp hne _ =>
    have hnone := hm.eq_none hne
    refine ⟨d', r, by simp [heq, hnone], ?_, hI', ?_⟩
    · rw [hd, hnone, getD_none]
    · rw [hnone]
      exact hm.update_cons hI' hp fun e _ => Iff.rfl

theorem dictGenericDelete_holds (key : K) :
    ∃ d', dictGenericDelete hash d key = some (d', (m key).map (mk key)) ∧ d'.Inv hash ∧
      d'.Holds (update m key none) := by
  obtain ⟨d', he, heq, hI', hout⟩ := dictGenericDelete_spec hI key
  refine ⟨d', ?_, hI', ?_⟩
  · rw [heq]
    rcases hout with ⟨e, rfl, rfl, hp⟩ | ⟨rfl, -, hne⟩
    · rw [hm.eq_some (hp.mem_iff.2 (.head _))]
      rfl
    · rw [hm.eq_none hne]
      rfl
  · rcases hout with ⟨e, -, hk, hp⟩ | ⟨-, hp, hne⟩
    · exact hm.erase hI hk hp
    · rw [update_eq_self_iff.2 (hm.eq_none hne).symm]
      exact hm.perm hp

theorem dictFind_holds (key : K) :
    ∃ d' r, dictFind hash d key = some (d', r) ∧ r.bind (dictDeref d') = (m key).map (mk key) ∧
      d'.Inv hash ∧ d'.Holds m := by
  obtain ⟨d', r, heq, hmv, hout⟩ := dictFind_spec hI key
  refine ⟨d', r, heq, ?_, hmv.inv, hm.moved hmv⟩
  rcases hout with ⟨p, e, rfl, hd, rfl⟩ | ⟨rfl, hne⟩
  · rw [hm.eq_some (hmv.mem_iff.1 (dictDeref_mem hd))]
    exact hd
  · rw [hm.eq_none hne]
    rfl

end

end

theorem dictMachine_simulates :
    (dictMachine hash).Simulates (mapSpec (K := K) (V := V)) DictOp.Fits (DictState.Stores hash) := by
  rintro op ⟨d, c⟩ m ⟨hI, hm⟩ hs
  cases op with
  | add key v =>
    obtain ⟨d', r, heq, hd, hI', hm'⟩ := dictAddRaw_holds hI hm hs c key
    cases hk : m key with
    | none =>
      obtain ⟨hI'', hm''⟩ := dictSetVal_holds hI' hm' hd v
      refine ⟨⟨dictSetVal d' r v, c⟩, .status .ok, _, ?_, ?_, hI'', hm''⟩
      · simp [dictMachine, dictStep, dictAdd, heq, hk]
      · simp [mapSpec, hk]
    | some o =>
      rw [hk, update_eq_self_iff.2 hk.symm] at hm'
      refine ⟨⟨d', c⟩, .status .err, m, ?_, ?_, hI', hm'⟩
      · simp [dictMachine, dictStep, dictAdd, heq, hk]
      · simp [mapSpec, hk]
  | replace key v =>
    obtain ⟨d', r, heq, hd, hI', hm'⟩ := dictAddRaw_holds hI hm hs c key
    obtain ⟨hI'', hm''⟩ := dictSetVal_holds hI' hm' hd v
    rw [update_idem] at hm''
    refine ⟨⟨dictSetVal d' r v, c⟩, .flag (m key).isNone, _, ?_, ⟨rfl, rfl⟩, hI'', hm''⟩
    cases hk : m key <;> simp [dictMachine, dictStep, dictReplace, heq, hk]
  | addOrFind key v =>
    obtain ⟨d', r, heq, hd, hI', hm'⟩ := dictAddRaw_holds hI hm hs c key
    have hstep : dictAddOrFind hash c d key = some (d', some r) := by
      cases hk : m key <;> simp [dictAddOrFind, heq, hk]
    rcases v with - | v
    · refine ⟨⟨d', c⟩, .entry (some ⟨key, (m key).getD none⟩), _, ?_, ⟨rfl, rfl⟩, hI', hm'⟩
      simp [dictMachine, dictStep, hstep, hd]
    obtain ⟨hI'', hm''⟩ := dictSetVal_holds hI' hm' hd v
    rw [update_idem] at hm''
    refine ⟨⟨dictSetVal d' r v, c⟩, .entry (some ⟨key, (m key).getD none⟩), _, ?_, ⟨rfl, rfl⟩,
      hI'', hm''⟩
    simp [dictMachine, dictStep, hstep, hd]
  | delete key =>
    obtain ⟨d', heq, hI', hm'⟩ := dictGenericDelete_holds hI hm key
    refine ⟨⟨d', c⟩, .status (if m key = none then .err else .ok), _, ?_, ⟨rfl, rfl⟩, hI', hm'⟩
    cases hk : m key <;> simp [dictMachine, dictStep, dictDelete, heq, hk]
  | unlink key =>
    obtain ⟨d', heq, hI', hm'⟩ := dictGenericDelete_holds hI hm key
    refine ⟨⟨d', c⟩, .entry ((m key).map (mk key)), _, ?_, ⟨rfl, rfl⟩, hI', hm'⟩
    simp [dictMachine, dictStep, dictUnlink, heq]
  | find key =>
    obtain ⟨d', r, heq, hr, hI', hm'⟩ := dictFind_holds hI hm key
    refine ⟨⟨d', c⟩, .entry ((m key).map (mk key)), m, ?_, ⟨rfl, rfl⟩, hI', hm'⟩
    simp [dictMachine, dictStep, heq, hr]
  | expand size =>
    have hmv := dictExpand_moved hI hs
    exact ⟨⟨_, c⟩, _, m, rfl, rfl, hmv.inv, hm.moved hmv⟩
  | resize =>
    have hmv := dictResize_moved hI c
    exact ⟨⟨_, c⟩, _, m, rfl, rfl, hmv.inv, hm.moved hmv⟩
  | rehash n =>
    obtain ⟨d', b, heq, hmv⟩ := dictRehash_spec hI n
    exact ⟨⟨d', c⟩, .flag b, m, by simp [dictMachine, dictStep, heq], rfl, hmv.inv, hm.moved hmv⟩
  | enableResize => exact ⟨⟨d, true⟩, _, m, rfl, rfl, hI, hm⟩
  | disableResize => exact ⟨⟨d, false⟩, _, m, rfl, rfl, hI, hm⟩

/-! ### Whole runs -/

variable {ops : List (DictOp K V)} {rs : List (DictReply K V)}

theorem dictStep_inv {s' : DictState K V} {op : DictOp K V} {r : DictReply K V} (h : ∃ m, s.Stores hash m)
    (hop : op.Fits s) (hs : dictStep hash op s = some (s', r)) : ∃ m, s'.Stores hash m := by
  obtain ⟨m, hm⟩ := h
  obtain ⟨t, r', m', ht, -, hm'⟩ := dictMachine_simulates op s m hm hop
  cases hs.symm.trans ht
  exact ⟨m', hm'⟩

theorem dict_run_inv (hg : (dictMachine hash).Guarded DictOp.Fits ops ⟨dictCreate, true⟩)
    (hr : (dictMachine hash).run ops ⟨dictCreate, true⟩ = some (s, rs)) : ∃ m, s.Stores hash m :=
  hg.inv (I := fun s => ∃ m, s.Stores hash m) ⟨fun _ => none, .create, .create⟩ dictStep_inv hr

/-- A run that does not ask for a table of `2 ^ 61` buckets goes through without a fault and answers as the
finite map does. The representation invariant holds where it ends, `dictRehash` never runs off its table there,
and `dictAddRaw` finds a place for the key. -/
theorem dict_refines_map (hash : K → BitVec 64) (ops : List (DictOp K V))
    (hg : (dictMachine hash).Guarded DictOp.Fits ops ⟨dictCreate, true⟩) :
    ∃ s rs m, (dictMachine hash).run ops ⟨dictCreate, true⟩ = some (s, rs) ∧
      mapSpec.Run ops (fun _ => none) rs m ∧ s.dict.Holds m ∧ s.dict.Inv hash ∧
      (∀ n, (dictRehash hash s.dict n).isSome = true) ∧
      (dictSize s.dict ≤ 2 ^ 59 → ∀ key, ∃ d' r,
        dictAddRaw hash s.canResize s.dict key = some (d', some r, none) ∨
        dictAddRaw hash s.canResize s.dict key = some (d', none, some r)) := by
  obtain ⟨s, rs, m, hrun, hspec, hI, hm⟩ := dictMachine_simulates.run ⟨.create, .create⟩ hg
  refine ⟨s, rs, m, hrun, hspec, hm, hI, fun n => ?_, fun hsize key => ?_⟩
  · obtain ⟨d', b, heq, -⟩ := dictRehash_spec hI n
    simp [heq]
  · obtain ⟨d', entry, existing, heq, hout⟩ := dictAddRaw_spec hI hsize s.canResize key
    cases hout with
    | existing r e hd hk hmv => exact ⟨d', r, .inr heq⟩
    | added r hd hI' hp hne _ => exact ⟨d', r, .inl heq⟩

theorem dict_refines_map_run :
    let ops : List (DictOp Nat Nat) := [.add 1 10, .add 2 20, .expand 9, .find 1, .replace 1 11, .delete 2]
    let M := dictMachine (V := Nat) (BitVec.ofNat 64 : Nat → BitVec 64)
    ∃ s rs m, M.run ops ⟨dictCreate, true⟩ = some (s, rs) ∧ mapSpec.Run ops (fun _ => none) rs m ∧
      s.dict.Holds m ∧ s.dict.Inv (BitVec.ofNat 64) ∧ (∀ n, (dictRehash (BitVec.ofNat 64) s.dict n).isSome = true) ∧
      (dictSize s.dict ≤ 2 ^ 59 → ∀ key, ∃ d' r,
        dictAddRaw (BitVec.ofNat 64) s.canResize s.dict key = some (d', some r, none) ∨
        dictAddRaw (BitVec.ofNat 64) s.canResize s.dict key = some (d', none, some r)) :=
  dict_refines_map (BitVec.ofNat 64) _ (Machine.guarded_of_check (by decide))

/-- The table that `dictExpand` has allocated has no buckets, and the call after it indexes it. -/
theorem dict_expand_wraps : (dictMachine (BitVec.ofNat 64 : Nat → BitVec 64)).run [.expand (2 ^ 61), .add 1 10]
    ⟨dictCreate, true⟩ = (none : Option (DictState Nat Nat × List (DictReply Nat Nat))) := by
  decide

end Redis
