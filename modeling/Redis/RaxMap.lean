import Mathlib.Data.List.Nodup
import Mathlib.Logic.Function.Basic
import Redis.RaxRemove

/-! # The radix tree is a finite map

`raxMapSpec` says what each call does to a map from byte strings to values, `NULL` included. A tree
stores the map of its entries; `raxMachine_simulates` is the step and `rax_refines_map` the statement
about runs from `raxNew`. -/

namespace Redis
open List Option
variable {V : Type}
variable {r : Rax V}

def raxMapSpec : Spec (RaxOp V) (List UInt8 → Option (Option V)) (RaxReply V)
  | .insert s data, m, r, m' => r = .changed (m s).isNone (m s) ∧ m' = Function.update m s (some data)
  | .tryInsert s data, m, r, m' =>
    r = .changed (m s).isNone (m s) ∧ m' = Function.update m s (some ((m s).getD data))
  | .remove s, m, r, m' => r = .changed (m s).isSome (m s) ∧ m' = Function.update m s none
  | .find s, m, r, m' => r = .found (m s) ∧ m' = m

/-- The invariant of the trees that the calls leave, whatever the lengths of the keys. -/
structure Rax.Inv (r : Rax V) : Prop where
  wf : r.head.WF
  numele : r.numele = r.head.entries.length
  numnodes : r.numnodes = r.head.count

structure Rax.Stores (r : Rax V) (m : List UInt8 → Option (Option V)) : Prop extends r.Inv where
  keys : ∀ e ∈ r.head.entries, e.1.length ≤ raxNodeMaxSize
  holds : ∀ k v, m k = some v ↔ (k, v) ∈ r.head.entries

theorem Rax.Inv.new : (raxNew : Rax V).Inv :=
  ⟨.normal .nil (fun _ he => absurd he not_mem_nil) fun _ he => absurd he not_mem_nil, rfl, rfl⟩

theorem Rax.Stores.new : (raxNew : Rax V).Stores fun _ => none := by
  have hent : (raxNewLeaf : RaxNode V).entries = [] := rfl
  refine ⟨.new, fun e he => ?_, fun k v => ?_⟩
  · exact absurd (hent ▸ he) not_mem_nil
  · simp [raxNew, hent]

/-! ### Counting keys -/

section
variable {n n' : RaxNode V} {t : List UInt8} {d v : Option V}

theorem mem_keys {k : List UInt8} : k ∈ n.entries.map Prod.fst ↔ ∃ v, (k, v) ∈ n.entries := by
  simp

theorem RaxPut.length_of_mem (h : RaxPut n t d n') (hn : n.WF) (hv : (t, v) ∈ n.entries) :
    n'.entries.length = n.entries.length := by
  have hp : (n'.entries.map Prod.fst).Perm (n.entries.map Prod.fst) := by
    refine (perm_ext_iff_of_nodup h.wf.nodup hn.nodup).2 fun k => ?_
    rw [mem_keys, mem_keys]
    by_cases hk : k = t
    · subst hk
      exact ⟨fun _ => ⟨v, hv⟩, fun _ => ⟨d, (h.mem k d).2 (.inl ⟨rfl, rfl⟩)⟩⟩
    · simp [h.mem, hk]
  simpa using hp.length_eq

theorem RaxPut.length_of_absent (h : RaxPut n t d n') (hn : n.WF) (habs : ∀ v, (t, v) ∉ n.entries) :
    n'.entries.length = n.entries.length + 1 := by
  have hnd : (t :: n.entries.map Prod.fst).Nodup :=
    nodup_cons.2 ⟨fun ht => (mem_keys.1 ht).elim habs, hn.nodup⟩
  have hp : (n'.entries.map Prod.fst).Perm (t :: n.entries.map Prod.fst) := by
    refine (perm_ext_iff_of_nodup h.wf.nodup hnd).2 fun k => ?_
    rw [mem_cons, mem_keys]
    by_cases hk : k = t
    · subst hk
      exact ⟨fun _ => .inl rfl, fun _ => ⟨d, (h.mem k d).2 (.inl ⟨rfl, rfl⟩)⟩⟩
    · simp [h.mem, hk]
  simpa using hp.length_eq

theorem RaxDrop.length_of_mem (h : RaxDrop n t n') (hn : n.WF) (hv : (t, v) ∈ n.entries) :
    n'.entries.length = n.entries.length - 1 := by
  have hnd : (t :: n'.entries.map Prod.fst).Nodup := by
    refine nodup_cons.2 ⟨fun ht => ?_, h.wf.nodup⟩
    obtain ⟨w, hw⟩ := mem_keys.1 ht
    exact ((h.mem t w).1 hw).1 rfl
  have hp : (n.entries.map Prod.fst).Perm (t :: n'.entries.map Prod.fst) := by
    refine (perm_ext_iff_of_nodup hn.nodup hnd).2 fun k => ?_
    rw [mem_cons, mem_keys]
    by_cases hk : k = t
    · subst hk
      exact ⟨fun _ => .inl rfl, fun _ => ⟨v, hv⟩⟩
    · simp [h.mem, hk]
  have := hp.length_eq
  simp only [length_map, length_cons] at this
  omega

end

/-! ### The calls -/

section
variable {r r' : Rax V} {m : List UInt8 → Option (Option V)} {s : List UInt8} {d : Option V}
variable {old : Option (Option V)}

theorem Rax.Stores.absent_iff (h : r.Stores m) : m s = none ↔ ∀ v, (s, v) ∉ r.head.entries := by
  simp [← h.holds, eq_none_iff_forall_ne_some]

theorem RaxInserted.inv {b overwrite : Bool} (hins : RaxInserted r s d overwrite r' b old) (h : r.Inv)
    (hnodes : r'.numnodes = r'.head.count) : r'.Inv := by
  cases hins with
  | old hmem hele hp => exact ⟨hp.wf, by rw [hele, h.numele, hp.length_of_mem h.wf hmem], hnodes⟩
  | new habs hele hp => exact ⟨hp.wf, by rw [hele, h.numele, hp.length_of_absent h.wf habs], hnodes⟩

theorem RaxRemoved.inv (hrem : RaxRemoved r s r' old) (h : r.Inv) : r'.Inv := by
  cases hrem with
  | absent => exact h
  | removed hmem hele hnodes hd => exact ⟨hd.wf, by rw [hele, h.numele, hd.length_of_mem h.wf hmem], hnodes⟩

theorem Rax.Stores.put (h : r.Stores m) (hp : RaxPut r.head s d r'.head) (hs : s.length ≤ raxNodeMaxSize)
    (hinv : r'.Inv) : r'.Stores (Function.update m s (some d)) := by
  refine ⟨hinv, ?_, fun k v => ?_⟩
  · rintro ⟨k, v⟩ he
    rcases (hp.mem k v).1 he with ⟨rfl, -⟩ | ⟨-, he⟩
    · exact hs
    · exact h.keys _ he
  · rw [hp.mem, ← h.holds]
    by_cases hk : k = s
    · subst hk
      simp [eq_comm]
    · simp [hk]

theorem raxGenericInsert_stores (h : r.Stores m) (hs : s.length ≤ raxNodeMaxSize) (d : Option V) (overwrite : Bool) :
    ∃ r', raxGenericInsert r s d overwrite = some (r', (m s).isNone, m s) ∧
      r'.Stores (Function.update m s (some (if overwrite then d else (m s).getD d))) := by
  obtain ⟨r', b, old, heq, hins, hnodes⟩ := raxGenericInsert_spec h.wf h.numnodes s d overwrite
  have hinv := hins.inv h.toInv hnodes
  cases hins with
  | @old v hmem hele hp =>
    have hms : m s = some v := (h.holds s v).2 hmem
    refine ⟨r', by rw [heq, hms]; rfl, ?_⟩
    rw [hms]
    exact h.put hp hs hinv
  | new habs hele hp =>
    have hms : m s = none := h.absent_iff.2 habs
    refine ⟨r', by rw [heq, hms]; rfl, ?_⟩
    rw [hms, getD_none, ite_self]
    exact h.put hp hs hinv

theorem raxRemove_stores (h : r.Stores m) (s : List UInt8) :
    ∃ r', raxRemove r s = some (r', m s) ∧ r'.Stores (Function.update m s none) := by
  obtain ⟨hspec, hsome, -⟩ := raxRemove_spec h.wf h.numnodes s
  obtain ⟨⟨r', old⟩, heq⟩ := isSome_iff_exists.1 (hsome fun e he _ => h.keys e he)
  have hrem := hspec r' old heq
  have hinv := hrem.inv h.toInv
  cases hrem with
  | absent habs =>
    have hms : m s = none := h.absent_iff.2 habs
    refine ⟨r, by rw [heq, hms], ?_⟩
    rwa [← hms, Function.update_eq_self]
  | @removed r' v hmem hele hnodes hd =>
    refine ⟨r', by rw [heq, (h.holds s v).2 hmem], hinv, ?_, fun k v => ?_⟩
    · exact fun e he => h.keys e ((hd.mem e.1 e.2).1 he).2
    rw [hd.mem, ← h.holds]
    by_cases hk : k = s
    · subst hk
      simp
    · simp [hk]

theorem raxFind_stores (h : r.Stores m) (s : List UInt8) : raxFind r s = m s := by
  refine Option.ext fun v => ?_
  rw [raxFind_spec h.wf, h.holds]

end

theorem raxStep_inv {r' : Rax V} {op : RaxOp V} {rep : RaxReply V} (h : r.Inv) (hs : raxStep op r = some (r', rep)) :
    r'.Inv := by
  cases op with
  | insert s data =>
    obtain ⟨⟨t, b, old⟩, heq, ht⟩ := map_eq_some_iff.1 hs
    cases ht
    obtain ⟨t', b', old', heq', hins, hnodes⟩ := raxGenericInsert_spec h.wf h.numnodes s data true
    cases heq.symm.trans heq'
    exact hins.inv h hnodes
  | tryInsert s data =>
    obtain ⟨⟨t, b, old⟩, heq, ht⟩ := map_eq_some_iff.1 hs
    cases ht
    obtain ⟨t', b', old', heq', hins, hnodes⟩ := raxGenericInsert_spec h.wf h.numnodes s data false
    cases heq.symm.trans heq'
    exact hins.inv h hnodes
  | remove s =>
    obtain ⟨⟨t, old⟩, heq, ht⟩ := map_eq_some_iff.1 hs
    cases ht
    exact ((raxRemove_spec h.wf h.numnodes s).1 _ _ heq).inv h
  | find s =>
    cases hs
    exact h

theorem rax_reachable_inv (h : raxMachine.Reachable r) : r.Inv :=
  h.inv .new fun hI hs => raxStep_inv hI hs

theorem raxMachine_simulates :
    (raxMachine (V := V)).Simulates raxMapSpec (fun op _ => op.key.length ≤ raxNodeMaxSize) Rax.Stores := by
  rintro op r m h hs
  cases op with
  | insert s data =>
    obtain ⟨r', heq, hst⟩ := raxGenericInsert_stores (s := s) h hs data true
    exact ⟨r', _, _, by simp [raxMachine, raxStep, raxInsert, heq], ⟨rfl, rfl⟩, hst⟩
  | tryInsert s data =>
    obtain ⟨r', heq, hst⟩ := raxGenericInsert_stores (s := s) h hs data false
    exact ⟨r', _, _, by simp [raxMachine, raxStep, raxTryInsert, heq], ⟨rfl, rfl⟩, hst⟩
  | remove s =>
    obtain ⟨r', heq, hst⟩ := raxRemove_stores h s
    exact ⟨r', _, _, by simp [raxMachine, raxStep, heq], ⟨rfl, rfl⟩, hst⟩
  | find s => exact ⟨r, _, m, rfl, ⟨by rw [raxFind_stores h], rfl⟩, h⟩

/-! ### Freeing -/

theorem raxRecursiveFree_eq (n : RaxNode V) : ∀ m : Int, raxRecursiveFree n m = m - n.count := by
  induction n using RaxNode.ind with
  | hn hdr es ih =>
    have hedges : ∀ m, raxRecursiveFreeEdges es m = m - raxEdgeCount es := by
      induction es with
      | nil => simp [raxRecursiveFreeEdges, raxEdgeCount]
      | cons e es ihes =>
        intro m
        rw [raxRecursiveFreeEdges, raxEdgeCount, ih _ (.head _),
          ihes fun e he => ih e (.tail _ he)]
        omega
    intro m
    rw [raxRecursiveFree, hedges, RaxNode.count]
    omega
  | hc hdr cs child ih =>
    intro m
    rw [raxRecursiveFree, ih, RaxNode.count]
    omega

theorem raxFreeWithCallback_of_count (h : r.numnodes = r.head.count) : raxFreeWithCallback r = some () := by
  rw [raxFreeWithCallback, raxRecursiveFree_eq, h, Int.sub_self, if_pos rfl]

/-- Every sequence of calls with keys of at most `RAX_NODE_MAX_SIZE` bytes goes through and answers as
the finite map does; the tree it leaves holds each key of the map once, `numele` and `numnodes` count
its keys and nodes, and it can be freed. -/
theorem rax_refines_map (ops : List (RaxOp V)) (h : ∀ op ∈ ops, op.key.length ≤ raxNodeMaxSize) :
    ∃ r rs m, raxMachine.run ops raxNew = some (r, rs) ∧ raxMapSpec.Run ops (fun _ => none) rs m ∧
      (∀ k v, m k = some v ↔ (k, v) ∈ r.head.entries) ∧ (r.head.entries.map Prod.fst).Nodup ∧
      r.numele = r.head.entries.length ∧ r.numnodes = r.head.count ∧ raxFreeWithCallback r = some () := by
  obtain ⟨r, rs, m, hrun, hspec, hst⟩ := raxMachine_simulates.run .new
    (Machine.guarded_of_forall_mem (fun op hop _ => h op hop) raxNew)
  exact ⟨r, rs, m, hrun, hspec, hst.holds, hst.wf.nodup, hst.numele, hst.numnodes,
    raxFreeWithCallback_of_count hst.numnodes⟩

theorem rax_refines_map_split_join :
    let ops : List (RaxOp Nat) := [.insert [97, 98, 99] (some 1), .insert [97, 120] none, .tryInsert [97] (some 2),
      .remove [97, 120], .remove [97], .find [97, 98, 99]]
    (∀ op ∈ ops, op.key.length ≤ raxNodeMaxSize) ∧
      ∃ r rs m, raxMachine.run ops raxNew = some (r, rs) ∧ raxMapSpec.Run ops (fun _ => none) rs m ∧
        r.numele = r.head.entries.length ∧ raxFreeWithCallback r = some () := by
  intro ops
  have hops : ∀ op ∈ ops, op.key.length ≤ raxNodeMaxSize := by decide
  obtain ⟨r, rs, m, hrun, hspec, -, -, hele, -, hfree⟩ := rax_refines_map ops hops
  exact ⟨hops, r, rs, m, hrun, hspec, hele, hfree⟩

end Redis
