import Redis.Lib.BitCursor
import Redis.DictMap

/-! # Scanning the hash table (`dictScan`)

The cursor counts the buckets with its bits reversed, so that a table of another size only splits
or joins intervals of the order of `BitCursor.rank`. One call emits every entry whose hash lies, in
that order, between the cursor it is given and the cursor it returns (`dictScan_spec`), whatever
the sizes of the two tables are. A scan that ends has passed over the whole range. -/

namespace Redis
open BitCursor
variable {K V : Type} {hash : K → BitVec 64}

/-- The loop of `rev`: swap neighbouring groups of `s` bits, for half the `s` in each round. -/
def revLoop : Nat → Nat → BitVec 64 → BitVec 64 → BitVec 64
  | 0, _, _, v => v
  | fuel + 1, s, mask, v =>
    let s := s / 2
    if s = 0 then v
    else
      let mask := mask ^^^ (mask <<< s)
      revLoop fuel s mask (((v >>> s) &&& mask) ||| ((v <<< s) &&& ~~~mask))

def rev (v : BitVec 64) : BitVec 64 := revLoop 7 64 (BitVec.allOnes 64) v

def dictScanEmit (t : Dictht K V) (v : BitVec 64) : Option (List (DictEntry K V)) :=
  t.table[(v &&& t.sizemask).toNat]?

/-- Set the unmasked bits and increment the reverse cursor. -/
def dictScanNext (mask v : BitVec 64) : BitVec 64 := rev (rev (v ||| ~~~mask) + 1)

/-- The `do` loop of `dictScan` over the expansions of the cursor in the larger table. -/
def dictScanLoop (m0 : BitVec 64) (t1 : Dictht K V) : Nat → BitVec 64 → Option (List (DictEntry K V) × BitVec 64)
  | 0, _ => none
  | fuel + 1, v =>
    match dictScanEmit t1 v with
    | none => none
    | some chain =>
      let v := dictScanNext t1.sizemask v
      if v &&& (m0 ^^^ t1.sizemask) = 0 then some (chain, v)
      else (dictScanLoop m0 t1 fuel v).map fun (out, v) => (chain ++ out, v)

/-- The entries passed to `fn` and the next cursor. The loop over the larger table ends
before it has visited all of its buckets. -/
def dictScan (d : Dict K V) (v : BitVec 64) : Option (List (DictEntry K V) × BitVec 64) :=
  if dictSize d = 0 then some ([], 0)
  else if dictIsRehashing d = false then
    match dictScanEmit d.ht0 v with
    | none => none
    | some chain => some (chain, dictScanNext d.ht0.sizemask v)
  else
    let t0 := if d.ht0.size > d.ht1.size then d.ht1 else d.ht0
    let t1 := if d.ht0.size > d.ht1.size then d.ht0 else d.ht1
    match dictScanEmit t0 v with
    | none => none
    | some chain => (dictScanLoop t0.sizemask t1 t1.size v).map fun (out, v) => (chain ++ out, v)

/-! ### Reversing the bits -/

/-- A round of `rev` moves bit `i ^^^ s` to bit `i` when the mask selects the lower group of each
pair of groups of `s` bits. -/
theorem getLsbD_swap {s : Nat} {mask : BitVec 64}
    (hmask : ∀ i < 64, if mask.getLsbD i then i ^^^ s = s + i else s ≤ i ∧ i ^^^ s = i - s)
    (v : BitVec 64) {i : Nat} (hi : i < 64) :
    (((v >>> s) &&& mask) ||| ((v <<< s) &&& ~~~mask)).getLsbD i = v.getLsbD (i ^^^ s) := by
  have h := hmask i hi
  simp only [BitVec.getLsbD_or, BitVec.getLsbD_and, BitVec.getLsbD_not, BitVec.getLsbD_ushiftRight,
    BitVec.getLsbD_shiftLeft, hi, decide_true, Bool.true_and]
  cases hm : mask.getLsbD i with
  | true =>
    rw [hm, if_pos rfl] at h
    simp [h]
  | false =>
    rw [hm] at h
    simp [h.2, not_lt.2 h.1]

theorem rev_eq_reverse (v : BitVec 64) : rev v = v.reverse := by
  apply BitVec.eq_of_getLsbD_eq
  intro i hi
  have hx : ∀ j < 64, ∀ s ∈ [1, 2, 4, 8, 16, 32], j ^^^ s < 64 := by decide
  have hall : ∀ j < 64, ((((((j ^^^ 1) ^^^ 2) ^^^ 4) ^^^ 8) ^^^ 16) ^^^ 32) = 63 - j := by decide
  have h1 := hx i hi 1 (by decide)
  have h2 := hx _ h1 2 (by decide)
  have h3 := hx _ h2 4 (by decide)
  have h4 := hx _ h3 8 (by decide)
  have h5 := hx _ h4 16 (by decide)
  simp only [rev, revLoop, Nat.reduceDiv, OfNat.ofNat_ne_zero, one_ne_zero, if_false, if_true]
  rw [getLsbD_swap (by decide) _ hi, getLsbD_swap (by decide) _ h1, getLsbD_swap (by decide) _ h2,
    getLsbD_swap (by decide) _ h3, getLsbD_swap (by decide) _ h4, getLsbD_swap (by decide) _ h5,
    hall i hi, BitVec.getLsbD_reverse, BitVec.getMsbD_eq_getLsbD, decide_eq_true hi, Bool.true_and]

theorem dictScanNext_eq (n : Nat) (v : BitVec 64) : dictScanNext (lowMask 64 n) v = advance n v := by
  rw [dictScanNext, rev_eq_reverse, rev_eq_reverse, advance]

/-! ### One call -/

theorem Dictht.WF.exists_mask {t : Dictht K V} (h : t.WF hash) (hs : 0 < t.size) :
    ∃ n ≤ 60, t.size = 2 ^ n ∧ t.sizemask = lowMask 64 n :=
  h.pow.resolve_left fun h0 => by omega

theorem dictScanEmit_spec {t : Dictht K V} {n : Nat} (h : t.WF hash) (hn : n ≤ 60) (hsz : t.size = 2 ^ n)
    (hm : t.sizemask = lowMask 64 n) (v : BitVec 64) : ∃ chain, dictScanEmit t v = some chain ∧ ∀ e ∈ t.entries,
      rank (hash e.key) / 2 ^ (64 - n) = rank v / 2 ^ (64 - n) → e ∈ chain := by
  have hlt : (v &&& t.sizemask).toNat < t.table.length := by
    rw [h.length]
    exact and_sizemask_lt h (hsz ▸ Nat.two_pow_pos n) v
  obtain ⟨chain, hc⟩ : ∃ chain, dictScanEmit t v = some chain := ⟨_, List.getElem?_eq_getElem hlt⟩
  refine ⟨chain, hc, fun e he hr => ?_⟩
  obtain ⟨chain', hc', hmem⟩ := h.mem_bucket he
  rw [← and_lowMask_eq_iff (by omega), ← hm] at hr
  rw [dictScanEmit, ← hr] at hc
  exact Option.some.inj (hc.symm.trans hc') ▸ hmem

/-- The loop returns the cursor that advancing in the smaller table gives, and emits what the larger
table has in between. The fuel covers the rest of the expansion group the cursor is in. -/
theorem dictScanLoop_spec {t1 : Dictht K V} {n m : Nat} (h : t1.WF hash) (hm : m ≤ 60)
    (hsz : t1.size = 2 ^ m) (hmask : t1.sizemask = lowMask 64 m) (hnm : n ≤ m) :
    ∀ (fuel : Nat) (v : BitVec 64), 2 ^ (m - n) ≤ fuel + rank v / 2 ^ (64 - m) % 2 ^ (m - n) →
      ∃ out, dictScanLoop (lowMask 64 n) t1 fuel v = some (out, advance n v) ∧ ∀ e ∈ t1.entries,
        rank v ≤ rank (hash e.key) → (advance n v = 0 ∨ rank (hash e.key) < rank (advance n v)) → e ∈ out
  | 0, v, hfuel => by
    have := Nat.mod_lt (rank v / 2 ^ (64 - m)) (Nat.two_pow_pos (m - n))
    omega
  | fuel + 1, v, hfuel => by
    obtain ⟨chain, hc, hmem⟩ := dictScanEmit_spec h hm hsz hmask v
    have hdvd : 2 ^ (64 - m) ∣ rank (advance m v) := by
      rw [rank_advance (by omega), Nat.dvd_mod_iff (Nat.pow_dvd_pow 2 (by omega))]
      exact Nat.dvd_mul_left _ _
    have hexit := and_xor_lowMask_eq_zero_iff (by omega) hnm hdvd
    rw [dictScanLoop, hc]
    simp only [hmask, dictScanNext_eq]
    by_cases hend : 2 ^ (64 - n) ∣ rank (advance m v)
    · have hadv := advance_eq_of_dvd (by omega) hnm hend
      rw [if_pos (hexit.2 hend)]
      refine ⟨chain, by rw [hadv], fun e he hle hlt => hmem e he ?_⟩
      rw [← hadv] at hlt
      exact interval_of_advance (by omega) hle hlt
    · obtain ⟨hmod, hadv⟩ := advance_inside (by omega) hnm hend
      rw [if_neg (mt hexit.1 hend)]
      obtain ⟨out, hout, hrest⟩ := dictScanLoop_spec h hm hsz hmask hnm fuel (advance m v) (by omega)
      rw [hadv] at hout hrest
      refine ⟨chain ++ out, by rw [hout]; rfl, fun e he hle hlt => List.mem_append.2 ?_⟩
      by_cases hin : rank (hash e.key) / 2 ^ (64 - m) = rank v / 2 ^ (64 - m)
      · exact .inl (hmem e he hin)
      · refine .inr (hrest e he (Nat.le_of_not_lt fun hb => hin ?_) hlt)
        exact interval_of_advance (by omega) hle (.inr hb)

theorem dictScan_rehashing {t0 t1 : Dictht K V} (h0 : t0.WF hash) (h1 : t1.WF hash) (hs0 : 0 < t0.size)
    (hle : t0.size ≤ t1.size) (v : BitVec 64) : ∃ chain out v', dictScanEmit t0 v = some chain ∧
      dictScanLoop t0.sizemask t1 t1.size v = some (out, v') ∧ ∀ e, e ∈ t0.entries ∨ e ∈ t1.entries →
        rank v ≤ rank (hash e.key) → (v' = 0 ∨ rank (hash e.key) < rank v') → e ∈ chain ++ out := by
  obtain ⟨n, hn, hsz0, hm0⟩ := h0.exists_mask hs0
  obtain ⟨m, hm, hsz1, hm1⟩ := h1.exists_mask (hs0.trans_le hle)
  have hnm : n ≤ m := (Nat.pow_le_pow_iff_right (by decide)).1 (hsz0 ▸ hsz1 ▸ hle)
  obtain ⟨chain, hc, hmem⟩ := dictScanEmit_spec h0 hn hsz0 hm0 v
  have hfuel : 2 ^ (m - n) ≤ t1.size := hsz1 ▸ Nat.pow_le_pow_right (by decide) (by omega)
  obtain ⟨out, hout, hrest⟩ := dictScanLoop_spec h1 hm hsz1 hm1 hnm t1.size v (by omega)
  refine ⟨chain, out, _, hc, hm0 ▸ hout, fun e he hr hlt => List.mem_append.2 ?_⟩
  rcases he with he | he
  · exact .inl (hmem e he (interval_of_advance (by omega) hr hlt))
  · exact .inr (hrest e he hr hlt)

theorem dictScan_spec {d : Dict K V} (h : d.Inv hash) (v : BitVec 64) :
    ∃ out v', dictScan d v = some (out, v') ∧ ∀ e ∈ d.entries, rank v ≤ rank (hash e.key) →
      (v' = 0 ∨ rank (hash e.key) < rank v') → e ∈ out := by
  rw [dictScan]
  split
  next hzero =>
    have hnil : d.entries = [] := h.entries_eq_nil_iff.2 (by simp only [dictSize] at hzero; omega)
    exact ⟨[], 0, rfl, by simp [hnil]⟩
  next hsize =>
    have hpos : 0 < d.ht0.size := h.size_pos fun hnil => hsize (by
      obtain ⟨h0, h1⟩ := h.entries_eq_nil_iff.1 hnil
      simp [dictSize, h0, h1])
    cases hr : d.rehashidx with
    | none =>
      obtain ⟨n, hn, hsz, hm⟩ := h.wf0.exists_mask hpos
      obtain ⟨chain, hc, hmem⟩ := dictScanEmit_spec h.wf0 hn hsz hm v
      refine ⟨chain, advance n v, by simp [dictIsRehashing, hr, hc, hm, dictScanNext_eq], ?_⟩
      intro e he hle hlt
      rw [Dict.entries, h.ht1_entries_of_idle hr, List.append_nil] at he
      exact hmem e he (interval_of_advance (by omega) hle hlt)
    | some r =>
      obtain ⟨hpos1, -⟩ := h.busy r hr
      by_cases hsw : d.ht1.size < d.ht0.size
      · obtain ⟨chain, out, v', hc, hl, hmem⟩ := dictScan_rehashing h.wf1 h.wf0 hpos1 (by omega) v
        refine ⟨chain ++ out, v', by simp [dictIsRehashing, hr, hsw, hc, hl], fun e he => hmem e ?_⟩
        exact (List.mem_append.1 he).symm
      · obtain ⟨chain, out, v', hc, hl, hmem⟩ := dictScan_rehashing h.wf0 h.wf1 hpos (by omega) v
        refine ⟨chain ++ out, v', by simp [dictIsRehashing, hr, hsw, hc, hl], fun e he => hmem e ?_⟩
        exact List.mem_append.1 he

/-! ### Whole scans -/

variable [DecidableEq K]

/-- The rest of a scan at cursor `v`, up to the call that returns `0`, with the entries it emits.
Between two calls the table goes through operations that fit; `P` holds of every table the run is in. -/
inductive ScanRun (hash : K → BitVec 64) (P : Dict K V → Prop) :
    DictState K V → BitVec 64 → List (DictEntry K V) → Prop
  | last {s : DictState K V} {v : BitVec 64} {out : List (DictEntry K V)} :
      P s.dict → dictScan s.dict v = some (out, 0) → ScanRun hash P s v out
  | call {s : DictState K V} {v v' : BitVec 64} {out rest : List (DictEntry K V)} :
      P s.dict → dictScan s.dict v = some (out, v') → v' ≠ 0 → ScanRun hash P s v' rest →
      ScanRun hash P s v (out ++ rest)
  | op {s s' : DictState K V} {op : DictOp K V} {r : DictReply K V} {v : BitVec 64}
      {out : List (DictEntry K V)} :
      P s.dict → op.Fits s → dictStep hash op s = some (s', r) → ScanRun hash P s' v out → ScanRun hash P s v out

def Dict.HasKey (d : Dict K V) (key : K) : Prop := ∃ e ∈ d.entries, e.key = key

theorem ScanRun.emits {key : K} {s : DictState K V} {v : BitVec 64} {out : List (DictEntry K V)}
    (hrun : ScanRun hash (fun d => d.HasKey key) s v out) (hI : ∃ m, s.Stores hash m)
    (hv : rank v ≤ rank (hash key)) : ∃ e ∈ out, e.key = key := by
  induction hrun with
  | last hP hs =>
    obtain ⟨e, he, rfl⟩ := hP
    obtain ⟨m, hI⟩ := hI
    obtain ⟨out', v', hs', hmem⟩ := dictScan_spec hI.inv _
    cases hs.symm.trans hs'
    exact ⟨e, hmem e he hv (.inl rfl), rfl⟩
  | @call s v v' out rest hP hs _ _ ih =>
    obtain ⟨e, he, rfl⟩ := hP
    obtain ⟨out', v'', hs', hmem⟩ := dictScan_spec hI.choose_spec.inv v
    cases hs.symm.trans hs'
    rcases lt_or_ge (rank (hash e.key)) (rank v') with hlt | hge
    · exact ⟨e, List.mem_append_left _ (hmem e he hv (.inr hlt)), rfl⟩
    · obtain ⟨e', he', hk⟩ := ih hI hge
      exact ⟨e', List.mem_append_right _ he', hk⟩
  | op _ hfit hs _ ih => exact ih (dictStep_inv hI hfit hs) hv

/-- In every run that does not ask for a table of `2 ^ 61` buckets, a scan from cursor `0` to cursor `0` passes
every key that stays in the dictionary to the callback, and no call of it faults. -/
theorem dictScan_complete (hash : K → BitVec 64) {ops : List (DictOp K V)} {s : DictState K V}
    {rs : List (DictReply K V)} (hg : (dictMachine hash).Guarded DictOp.Fits ops ⟨dictCreate, true⟩)
    (hs : (dictMachine hash).run ops ⟨dictCreate, true⟩ = some (s, rs)) :
    (∀ v, (dictScan s.dict v).isSome = true) ∧
      ∀ key out, ScanRun hash (fun d => d.HasKey key) s 0 out → ∃ e ∈ out, e.key = key := by
  have hI := dict_run_inv hg hs
  refine ⟨fun v => ?_, fun key out hrun => hrun.emits hI ?_⟩
  · obtain ⟨out, v', hs, -⟩ := dictScan_spec hI.choose_spec.inv v
    simp [hs]
  · rw [rank_eq_zero.2 rfl]
    exact Nat.zero_le _

theorem dictScan_complete_expand :
    ∃ s : DictState Nat Nat, ∃ rs,
      (dictMachine (BitVec.ofNat 64)).run [.add 5 50] ⟨dictCreate, true⟩ = some (s, rs) ∧
      ∃ out, ScanRun (BitVec.ofNat 64) (fun d => d.HasKey 5) s 0 out ∧ ∃ e ∈ out, e.key = 5 := by
  let t : Dictht Nat Nat := ⟨[[], [⟨5, some 50⟩], [], []], 4, 3, 1⟩
  let s : DictState Nat Nat := ⟨⟨t, dictReset, none, 0⟩, true⟩
  let s' : DictState Nat Nat := ⟨⟨t, ⟨List.replicate 8 [], 8, 7, 0⟩, some 0, 0⟩, true⟩
  have hg : (dictMachine (BitVec.ofNat 64)).Guarded DictOp.Fits [.add 5 50] (⟨dictCreate, true⟩ : DictState Nat Nat) :=
    Machine.guarded_of_check (by decide)
  have hs : (dictMachine (BitVec.ofNat 64)).run [.add 5 50] ⟨dictCreate, true⟩ = some (s, [.status .ok]) := by decide
  have hP : s.dict.HasKey 5 := ⟨⟨5, some 50⟩, by decide, rfl⟩
  have hP' : s'.dict.HasKey 5 := ⟨⟨5, some 50⟩, by decide, rfl⟩
  have h1 : dictScan s.dict 0 = some ([], 2) := by decide
  have hfit : (DictOp.expand 8).Fits s := by decide
  have hexp : dictStep (BitVec.ofNat 64) (.expand 8) s = some (s', .status .ok) := by decide
  have h2 : dictScan s'.dict 2 = some ([], 1) := by decide
  have h3 : dictScan s'.dict 1 = some ([⟨5, some 50⟩], 3) := by decide
  have h4 : dictScan s'.dict 3 = some ([], 0) := by decide
  have hrun : ScanRun (BitVec.ofNat 64) (fun d => d.HasKey 5) s 0 _ :=
    .call hP h1 (by decide)
      (.op hP hfit hexp (.call hP' h2 (by decide) (.call hP' h3 (by decide) (.last hP' h4))))
  exact ⟨s, _, hs, _, hrun, (dictScan_complete _ hg hs).2 5 _ hrun⟩

/-- A table of `2 ^ 61` buckets is asked for during the scan: the next call reads a bucket of it, and there is
none. -/
theorem dictScan_expand_wraps : ((dictMachine (BitVec.ofNat 64)).run [.add 5 50, .expand (2 ^ 61)]
    (⟨dictCreate, true⟩ : DictState Nat Nat)).bind (fun r => dictScan r.1.dict 2) = none := by
  decide

end Redis
