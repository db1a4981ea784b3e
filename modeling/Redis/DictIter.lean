import Redis.DictMap

/-! # Walking and filling a hash table (`dict.c`)

An iterator that is not safe leaves the table as it is, so it meets the entries in the order of the
buckets. -/

namespace Redis
open List Option

variable {K V : Type} {hash : K → BitVec 64}
variable {d d' : Dict K V} {b : Nat} {key : K}

/-- `dictIterator`: the table, the index of the next bucket and the entries from `nextEntry` on. -/
structure DictIterator (K V : Type) where
  second : Bool
  index : Nat
  chain : List (DictEntry K V)

open DictIterator

def dictGetIterator : DictIterator K V := ⟨false, 0, []⟩

/-- The loop of `dictNext`; each turn but the last goes on to the next bucket. -/
def dictNextLoop (d : Dict K V) : Nat → DictIterator K V → Option (DictIterator K V × Option (DictEntry K V))
  | 0, _ => none
  | fuel + 1, it =>
    match it.chain with
    | e :: rest => some ({ it with chain := rest }, some e)
    | [] =>
      let ht := if it.second then d.ht1 else d.ht0
      if ht.size ≤ it.index then
        if dictIsRehashing d && !it.second then
          match d.ht1.table[0]? with
          | none => none
          | some chain => dictNextLoop d fuel ⟨true, 1, chain⟩
        else some (it, none)
      else
        match ht.table[it.index]? with
        | none => none
        | some chain => dictNextLoop d fuel { it with index := it.index + 1, chain := chain }

def dictNext (d : Dict K V) (it : DictIterator K V) : Option (DictIterator K V × Option (DictEntry K V)) :=
  dictNextLoop d (d.ht0.size + d.ht1.size + 2) it

/-! ### Walking -/

def DictIterator.ahead (d : Dict K V) (it : DictIterator K V) : List (DictEntry K V) :=
  it.chain ++
    if it.second then (d.ht1.table.drop it.index).flatten
    else (d.ht0.table.drop it.index).flatten ++ if dictIsRehashing d then d.ht1.entries else []

def DictIterator.bucketsAhead (d : Dict K V) (it : DictIterator K V) : Nat :=
  if it.second then d.ht1.size - it.index else d.ht0.size - it.index + (d.ht1.size + 1)

theorem ahead_init (h : d.Inv hash) : (dictGetIterator : DictIterator K V).ahead d = d.entries := by
  show [] ++ ((d.ht0.table.drop 0).flatten ++ _) = d.ht0.entries ++ d.ht1.entries
  cases hr : d.rehashidx with
  | none =>
    rw [h.ht1_entries_of_idle hr]
    simp [dictIsRehashing, hr, Dictht.entries]
  | some r =>
    simp [dictIsRehashing, hr, Dictht.entries]

theorem dictNextLoop_spec (h : d.Inv hash) {fuel : Nat} {it : DictIterator K V} (hf : it.bucketsAhead d < fuel) :
    (it.ahead d = [] ∧ ∃ it', dictNextLoop d fuel it = some (it', none)) ∨
      ∃ e it', dictNextLoop d fuel it = some (it', some e) ∧ it.ahead d = e :: it'.ahead d := by
  induction fuel generalizing it with
  | zero => omega
  | succ fuel ih =>
    obtain ⟨second, index, chain⟩ := it
    rw [dictNextLoop]
    cases chain with
    | cons e rest => exact .inr ⟨e, _, rfl, rfl⟩
    | nil =>
      -- A bucket further: the entries ahead are the same, and there is one bucket less.
      have hload : ∀ it' : DictIterator K V, it'.ahead d = (⟨second, index, []⟩ : DictIterator K V).ahead d →
          it'.bucketsAhead d < fuel → _ := fun it' ha hb => ha ▸ @ih it' hb
      cases second with
      | true =>
        simp only [if_true, Bool.not_true, Bool.and_false, Bool.false_eq_true, if_false]
        by_cases hge : d.ht1.size ≤ index
        · rw [if_pos hge]
          have : d.ht1.table.length ≤ index := h.wf1.length.trans_le hge
          simp [ahead, drop_eq_nil_of_le this]
        have hlt : index < d.ht1.table.length := by rw [h.wf1.length]; omega
        rw [if_neg hge, getElem?_eq_getElem hlt]
        refine hload _ ?_ ?_
        · simp only [ahead, if_true, nil_append]
          rw [drop_eq_getElem_cons hlt, flatten_cons]
        · simp only [bucketsAhead, if_true] at hf ⊢
          omega
      | false =>
        simp only [Bool.false_eq_true, if_false, Bool.not_false, Bool.and_true]
        by_cases hge : d.ht0.size ≤ index
        · have hdrop : d.ht0.table.drop index = [] := drop_eq_nil_of_le (h.wf0.length.trans_le hge)
          rw [if_pos hge]
          cases hr : d.rehashidx with
          | none =>
            have hidle : dictIsRehashing d = false := by simp [dictIsRehashing, hr]
            rw [hidle]
            exact .inl ⟨by simp [ahead, hdrop, hidle], _, rfl⟩
          | some r =>
            have hbusy : dictIsRehashing d = true := by simp [dictIsRehashing, hr]
            have hpos : 0 < d.ht1.table.length := by
              rw [h.wf1.length]
              exact (h.busy r hr).1
            rw [if_pos hbusy, getElem?_eq_getElem hpos]
            refine hload _ ?_ ?_
            · have hcons : d.ht1.table = d.ht1.table[0] :: d.ht1.table.drop 1 := by
                simpa using drop_eq_getElem_cons hpos
              simp only [ahead, Bool.false_eq_true, if_true, if_false, hdrop, hbusy, flatten_nil,
                nil_append, Dictht.entries]
              conv_rhs => rw [hcons, flatten_cons]
            · simp only [bucketsAhead, Bool.false_eq_true, if_true, if_false] at hf ⊢
              omega
        · have hlt : index < d.ht0.table.length := by rw [h.wf0.length]; omega
          rw [if_neg hge, getElem?_eq_getElem hlt]
          refine hload _ ?_ ?_
          · simp only [ahead, Bool.false_eq_true, if_false, nil_append]
            rw [drop_eq_getElem_cons hlt, flatten_cons, append_assoc]
          · simp only [bucketsAhead, Bool.false_eq_true, if_false] at hf ⊢
            omega

theorem dictNext_spec (h : d.Inv hash) (it : DictIterator K V) :
    (it.ahead d = [] ∧ ∃ it', dictNext d it = some (it', none)) ∨
      ∃ e it', dictNext d it = some (it', some e) ∧ it.ahead d = e :: it'.ahead d := by
  refine dictNextLoop_spec h ?_
  unfold bucketsAhead
  split <;> omega

/-! ### Filling -/

variable [DecidableEq K]

theorem dictAdd_fresh {m : K → Option (Option V)} (hI : d.Inv hash) (hm : d.Holds m) (hs : dictSize d ≤ 2 ^ 59) (c : Bool)
    (hkey : m key = none) (v : V) : ∃ d', dictAdd hash c d key v = some (d', .ok) ∧ d'.Inv hash ∧
      d'.Holds (Function.update m key (some (some v))) ∧ d'.entries.length = d.entries.length + 1 := by
  obtain ⟨d₁, entry, existing, hraw, hout⟩ := dictAddRaw_spec hI hs c key
  cases hout with
  | existing r e hd hk hmv =>
    have hsome := hk ▸ hm.eq_some (hmv.mem_iff.1 (dictDeref_mem hd))
    rw [hkey] at hsome
    cases hsome
  | added r hd hI₁ hp hne _ =>
    obtain ⟨-, L, hL, hL'⟩ := dictSetVal_spec hI₁ hd v
    obtain ⟨hI', hm'⟩ := dictSetVal_holds hI₁ (hm.update_cons hI₁ hp fun e _ => Iff.rfl) hd v
    rw [Function.update_idem] at hm'
    refine ⟨dictSetVal d₁ r v, by rw [dictAdd, hraw], hI', hm', ?_⟩
    rw [hL'.length_eq, length_cons, ← length_cons, ← hL.length_eq, hp.length_eq, length_cons]

end Redis
