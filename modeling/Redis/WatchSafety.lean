import Redis.Multi

/-! # A transaction runs only on unchanged watched keys

`Server.Inv` ties the two sides of the watch index together. A command that changes a key marks every
client that watches it (`Signalled`), except `MOVE`, `SWAPDB` and some stream commands; `Stable` is what follows for one step,
and `exec_watched_unchanged` what follows for the time between a `WATCH` and an `EXEC`. -/

namespace Redis.Multi
open List Option AList
variable {V : Type} {n : Nat}
variable {s : Server V n}

namespace Server

def watchers (s : Server V n) (w : WatchedKey n) : List Nat := ((s.db w.1).watchedKeys.lookup w.2).getD []

def watchedOf (s : Server V n) (c : Nat) : List (WatchedKey n) := ((s.find c).map Client.watched).getD []

def dirty (s : Server V n) (c : Nat) : Bool := ((s.find c).map Client.dirtyCas).getD false

def value (s : Server V n) (w : WatchedKey n) : Option V := (s.db w.1).dict.lookup w.2

structure Inv (s : Server V n) : Prop where
  index : ∀ c w, c ∈ s.watchers w ↔ w ∈ s.watchedOf c
  nodup : ∀ w, (s.watchers w).Nodup
  once : ∀ c, (s.watchedOf c).Nodup
  running : ∀ c cmds, s.executing = some (c, cmds) → (s.find c).isSome

/-- A key that a client watches before and after a step has its value, if the client is not dirty. -/
def Stable (s s' : Server V n) : Prop :=
  ∀ c w, w ∈ s.watchedOf c → w ∈ s'.watchedOf c → s'.dirty c = false → s.dirty c = false ∧ s'.value w = s.value w

section
variable {s s' : Server V n} {c d : Nat} {f : Client V n → Client V n} {w : WatchedKey n}
variable {cl : Client V n}

theorem watchedOf_of_find (h : s.find c = some cl) : s.watchedOf c = cl.watched := by
  rw [watchedOf, h]
  rfl

theorem dirty_of_find (h : s.find c = some cl) : s.dirty c = cl.dirtyCas := by
  rw [dirty, h]
  rfl

theorem exists_find_of_mem (h : w ∈ s.watchedOf c) : ∃ cl, s.find c = some cl ∧ w ∈ cl.watched := by
  unfold watchedOf at h
  cases hf : s.find c with
  | none =>
    rw [hf] at h
    cases h
  | some cl =>
    rw [hf] at h
    exact ⟨cl, rfl, h⟩

theorem lookup_map_modify (l : List (Nat × Client V n)) (g : Nat → Client V n → Client V n) :
    (l.map fun p => (p.1, g p.1 p.2)).lookup d = (l.lookup d).map (g d) := by
  induction l with
  | nil => rfl
  | cons p l ih =>
    rw [map_cons, lookup_cons, lookup_cons]
    by_cases h : d = p.1
    · subst h
      simp
    · simp [show (d == p.1) = false by simpa using h, ih]

theorem find_map (g : Nat → Client V n → Client V n) (h : s'.clients = s.clients.map fun p => (p.1, g p.1 p.2)) :
    s'.find d = (s.find d).map (g d) := by
  rw [find, h, lookup_map_modify]
  rfl

theorem find_modify : (s.modify c f).find d = (s.find d).map fun cl => if d = c then f cl else cl := by
  refine find_map (fun e cl => if e = c then f cl else cl) (map_congr_left fun p _ => ?_)
  split <;> rfl

theorem mem_clients_of_find (h : s.find c = some cl) : (c, cl) ∈ s.clients := by
  obtain ⟨l₁, l₂, hl, -⟩ := lookup_eq_some_iff.1 h
  rw [hl]
  simp

theorem Inv.of_watched (hI : s.Inv) (hw : ∀ w, s'.watchers w = s.watchers w) (hc : ∀ d, s'.watchedOf d = s.watchedOf d)
    (hx : ∀ d cmds, s'.executing = some (d, cmds) → (s'.find d).isSome) : s'.Inv where
  index d w := by rw [hw, hc, hI.index]
  nodup w := by rw [hw]; exact hI.nodup w
  once d := by rw [hc]; exact hI.once d
  running := hx

/-- One client watches other keys. -/
theorem Inv.rewatch {l : List (WatchedKey n)} (hI : s.Inv)
    (hfind : ∀ d, s'.find d = if d = c then some { cl with watched := l } else s.find d)
    (hx : s'.executing = s.executing) (hl : l.Nodup) (hnodup : ∀ w, (s'.watchers w).Nodup)
    (hself : ∀ w, c ∈ s'.watchers w ↔ w ∈ l) (hother : ∀ w d, d ≠ c → (d ∈ s'.watchers w ↔ d ∈ s.watchers w)) :
    s'.Inv := by
  have hwatched : ∀ d, s'.watchedOf d = if d = c then l else s.watchedOf d := by
    intro d
    rw [watchedOf, hfind]
    split <;> rfl
  refine ⟨fun d w => ?_, hnodup, fun d => ?_, fun d cmds he => ?_⟩
  · rw [hwatched]
    split
    next hd => rw [hd, hself]
    next hd => rw [hother w d hd, hI.index]
  · rw [hwatched]
    split
    · exact hl
    · exact hI.once d
  · rw [hfind]
    split
    · rfl
    · exact hI.running d cmds (hx ▸ he)

end

end Server

open Server

/-! ### Commands that change keys -/

/-- Every client that watches a key that changes is dirty afterwards. -/
structure Signalled (s s' : Server V n) : Prop where
  watchers : ∀ w, s'.watchers w = s.watchers w
  watched : ∀ c, s'.watchedOf c = s.watchedOf c
  sticky : ∀ c, s.dirty c = true → s'.dirty c = true
  marks : ∀ c w, w ∈ s.watchedOf c → s'.value w ≠ s.value w → s'.dirty c = true
  running : ∀ c, (s.find c).isSome → (s'.find c).isSome
  executing : s'.executing = s.executing

namespace Signalled
variable {s s' s'' : Server V n}

theorem refl (s : Server V n) : Signalled s s :=
  ⟨fun _ => rfl, fun _ => rfl, fun _ h => h, fun _ _ _ h => absurd rfl h, fun _ h => h, rfl⟩

theorem trans (h : Signalled s s') (h' : Signalled s' s'') : Signalled s s'' where
  watchers w := (h'.watchers w).trans (h.watchers w)
  watched c := (h'.watched c).trans (h.watched c)
  sticky c hd := h'.sticky c (h.sticky c hd)
  marks c w hw hv := by
    by_cases he : s'.value w = s.value w
    · exact h'.marks c w (by rw [h.watched]; exact hw) (by rw [he]; exact hv)
    · exact h'.sticky c (h.marks c w hw he)
  running c hc := h'.running c (h.running c hc)
  executing := h'.executing.trans h.executing

theorem inv (h : Signalled s s') (hI : s.Inv) : s'.Inv :=
  hI.of_watched h.watchers h.watched fun c cmds he => h.running c (hI.running c cmds (h.executing ▸ he))

theorem stable (h : Signalled s s') : Stable s s' := by
  intro c w hw _ hd
  constructor
  · by_contra hne
    have := h.sticky c (by simpa using hne)
    rw [hd] at this
    cases this
  · by_contra hne
    have := h.marks c w hw hne
    rw [hd] at this
    cases this

end Signalled

/-! ### Marking clients -/

/-- The clients for which `b` holds are marked dirty. -/
structure Marked (b : Nat → Client V n → Bool) (s s' : Server V n) : Prop where
  clients : s'.clients = s.clients.map fun p => if b p.1 p.2 then (p.1, { p.2 with dirtyCas := true }) else p
  db : s'.db = s.db
  executing : s'.executing = s.executing

namespace Marked
variable {s s' : Server V n} {b : Nat → Client V n → Bool} {c : Nat}

theorem find (h : Marked b s s') :
    s'.find c = (s.find c).map fun cl => if b c cl then { cl with dirtyCas := true } else cl := by
  refine find_map (fun e cl => if b e cl then { cl with dirtyCas := true } else cl) ?_
  rw [h.clients]
  refine map_congr_left fun p _ => ?_
  split <;> rfl

theorem signalled (h : Marked b s s') : Signalled s s' where
  watchers w := by rw [watchers, h.db, watchers]
  watched c := by
    rw [watchedOf, h.find, watchedOf]
    cases s.find c with
    | none => rfl
    | some cl =>
      show (if _ then _ else _ : Client V n).watched = _
      split <;> rfl
  sticky c hd := by
    rw [dirty, h.find]
    rw [dirty] at hd
    rcases hf : s.find c with - | cl
    · rw [hf] at hd; exact hd
    rw [hf] at hd
    show (if _ then _ else _ : Client V n).dirtyCas = true
    split
    · rfl
    · exact hd
  marks _ _ _ hv := absurd (by rw [value, h.db, value]) hv
  running c hc := by rw [h.find, isSome_map]; exact hc
  executing := h.executing

theorem dirty {cl : Client V n} (h : Marked b s s') (hf : s.find c = some cl) (hb : b c cl = true) :
    s'.dirty c = true := by
  rw [Server.dirty, h.find, hf, map_some, if_pos hb]
  rfl

end Marked

theorem touch_marked (s : Server V n) (i : Fin (n + 1)) (key : Key) :
    Marked (fun c _ => decide (c ∈ s.watchers (i, key))) s (touchWatchedKey s i key) := by
  refine ⟨map_congr_left fun p _ => ?_, rfl, rfl⟩
  simp only [decide_eq_true_eq]
  rfl

theorem touch_signalled (s : Server V n) (i : Fin (n + 1)) (key : Key) : Signalled s (touchWatchedKey s i key) :=
  (touch_marked s i key).signalled

variable {w : WatchedKey n}

theorem touch_dirty {c : Nat} (hI : s.Inv) (h : w ∈ s.watchedOf c) :
    (touchWatchedKey s w.1 w.2).dirty c = true := by
  obtain ⟨cl, hf, -⟩ := exists_find_of_mem h
  exact (touch_marked s w.1 w.2).dirty hf (by simpa using (hI.index c w).2 h)

/-! ### Changing dictionaries -/

/-- Only dictionaries change, and only at the keys in `K`. -/
structure Redict (s s' : Server V n) (K : WatchedKey n → Prop) : Prop where
  clients : s'.clients = s.clients
  watchers : ∀ w, s'.watchers w = s.watchers w
  executing : s'.executing = s.executing
  values : ∀ w, ¬ K w → s'.value w = s.value w

namespace Redict
variable {s s' s'' : Server V n} {K K' : WatchedKey n → Prop} {i : Fin (n + 1)}

theorem find (h : Redict s s' K) (c : Nat) : s'.find c = s.find c := by rw [Server.find, h.clients, Server.find]

theorem watched (h : Redict s s' K) (c : Nat) : s'.watchedOf c = s.watchedOf c := by
  rw [watchedOf, h.find, watchedOf]

theorem trans (h : Redict s s' K) (h' : Redict s' s'' K') : Redict s s'' fun w => K w ∨ K' w where
  clients := h'.clients.trans h.clients
  watchers w := (h'.watchers w).trans (h.watchers w)
  executing := h'.executing.trans h.executing
  values w hw := (h'.values w fun hk => hw (.inr hk)).trans (h.values w fun hk => hw (.inl hk))

theorem inv (h : Redict s s' K) (hI : s.Inv) : s'.Inv :=
  hI.of_watched h.watchers h.watched fun c cmds he => h.find c ▸ hI.running c cmds (h.executing ▸ he)

theorem signalled (h : Redict s s' K) (hs : Signalled s' s'')
    (hm : ∀ c w, K w → w ∈ s'.watchedOf c → s''.dirty c = true) : Signalled s s'' where
  watchers w := (hs.watchers w).trans (h.watchers w)
  watched c := (hs.watched c).trans (h.watched c)
  sticky c hd := hs.sticky c (by rw [dirty, h.find]; exact hd)
  marks c w hw hv := by
    rw [← h.watched] at hw
    by_cases hk : K w
    · exact hm c w hk hw
    · exact hs.marks c w hw (by rw [h.values w hk]; exact hv)
  running c hc := hs.running c (by rw [h.find]; exact hc)
  executing := hs.executing.trans h.executing

theorem setDict (s : Server V n) (i : Fin (n + 1)) (d : AList fun _ : Key => V) :
    Redict s (s.setDict i d) fun w => w.1 = i ∧ d.lookup w.2 ≠ s.value w where
  clients := rfl
  watchers w := by
    unfold Server.watchers Server.setDict
    by_cases h : w.1 = i
    · rw [← h]
      simp
    · simp [h]
  executing := rfl
  values w hw := by
    unfold Server.value Server.setDict
    by_cases h : w.1 = i
    · have hv : d.lookup w.2 = s.value w := by
        by_contra hne
        exact hw ⟨h, hne⟩
      rw [← h]
      simpa [value] using hv
    · simp [h]

theorem mono (h : Redict s s' K) (hK : ∀ w, K w → K' w) : Redict s s' K' :=
  ⟨h.clients, h.watchers, h.executing, fun w hw => h.values w fun hk => hw (hK w hk)⟩

theorem insert (s : Server V n) (i : Fin (n + 1)) (key : Key) (v : V) :
    Redict s (s.setDict i ((s.db i).dict.insert key v)) (· = (i, key)) := by
  refine (setDict s i _).mono ?_
  rintro ⟨j, k⟩ ⟨rfl, hne⟩
  by_contra hk
  exact hne (lookup_insert_ne fun he : k = key => hk (by rw [he]))

theorem erase (s : Server V n) (i : Fin (n + 1)) (key : Key) :
    Redict s (s.setDict i ((s.db i).dict.erase key)) (· = (i, key)) := by
  refine (setDict s i _).mono ?_
  rintro ⟨j, k⟩ ⟨rfl, hne⟩
  by_contra hk
  exact hne (lookup_erase_ne fun he : k = key => hk (by rw [he]))

theorem signal (h : Redict s s' (· = w)) (hI : s.Inv) :
    Signalled s (signalModifiedKey s' w.1 w.2) := by
  refine h.signalled (touch_signalled s' w.1 w.2) ?_
  rintro c _ rfl hw
  exact touch_dirty (h.inv hI) hw

end Redict

section commands
variable {s : Server V n}
variable {i : Fin (n + 1)} {s' : Server V n} {dbid : Option (Fin (n + 1))} {K : WatchedKey n → Prop}

theorem setKey_signalled (hI : s.Inv) (i : Fin (n + 1)) (key : Key) (v : V) :
    ∃ s', setKey s i key v = some s' ∧ Signalled s s' := by
  refine ⟨_, SetOps.setKey_eq rfl ?_ rfl, (Redict.insert s i key v).signal hI⟩
  rcases ho : (s.db i).dict.lookup key with - | o
  · exact if_neg (lookup_eq_none.1 ho)
  · exact if_pos (lookup_isSome.1 (by rw [ho]; rfl))

theorem delGenericCommand_signalled (i : Fin (n + 1)) : ∀ (keys : List Key) {s : Server V n} (numdel : Nat), s.Inv →
    Signalled s (delGenericCommand s i keys numdel).1 := by
  intro keys
  induction keys with
  | nil => exact fun _ _ => .refl _
  | cons key keys ih =>
    intro s numdel hI
    have hr := Redict.erase s i key
    rw [delGenericCommand]
    dsimp only [dbDelete]
    split
    · have hs := hr.signal hI
      exact hs.trans (ih (numdel + 1) (hs.inv hI))
    next hno =>
      have hno : key ∉ (s.db i).dict := by simpa using hno
      -- nothing was there to delete
      have hsame : Redict s (s.setDict i ((s.db i).dict.erase key)) fun _ => False := by
        refine (Redict.setDict s i _).mono ?_
        rintro ⟨j, k⟩ ⟨rfl, hne⟩
        refine hne ?_
        by_cases hk : k = key
        · rw [hk, lookup_erase]
          exact (lookup_eq_none.2 hno).symm
        · exact lookup_erase_ne hk
      have hs := hsame.signalled (.refl _) fun _ _ hw => hw.elim
      exact hs.trans (ih numdel (hs.inv hI))

theorem dbAdd_redict {key : Key} (v : V) (h : s.value (i, key) = none) :
    ∃ s', dbAdd s i key v = some s' ∧ Redict s s' (· = (i, key)) :=
  ⟨_, if_neg (lookup_eq_none.1 h), Redict.insert s i key v⟩

theorem value_setDict (i : Fin (n + 1)) (d : AList fun _ : Key => V) (key : Key) :
    (s.setDict i d).value (i, key) = d.lookup key := by
  simp [value, setDict]

theorem Redict.signal_two {src dst : Key} (h : Redict s s' fun w => w = (i, src) ∨ w = (i, dst)) (hI : s.Inv) :
    Signalled s (signalModifiedKey (signalModifiedKey s' i src) i dst) := by
  have hI' := h.inv hI
  have hsrc := touch_signalled s' i src
  have hdst := touch_signalled (touchWatchedKey s' i src) i dst
  refine h.signalled (hsrc.trans hdst) ?_
  rintro c w (rfl | rfl) hw
  · exact hdst.sticky c (touch_dirty hI' hw)
  · refine touch_dirty (w := (i, dst)) (hsrc.inv hI') ?_
    rw [signalModifiedKey, hsrc.watched]
    exact hw

theorem keyOps_lookupKeyWrite (s : Server V n) (k : WatchedKey n) : keyOps.lookupKeyWrite s k = pure (s, s.value k) := rfl

theorem keyOps_getExpire (s : Server V n) (k : WatchedKey n) : keyOps.getExpire s k = pure (-1) := rfl

theorem renameGenericCommand_signalled (hI : s.Inv) (i : Fin (n + 1)) (src dst : Key) (nx : Bool) :
    ∃ s' r, renameGenericCommand s i src dst nx = some (s', r) ∧ Signalled s s' := by
  simp only [renameGenericCommand, KeyOps.renameGenericCommand, keyOps_lookupKeyWrite, keyOps_getExpire, pure_bind]
  rcases ho : s.value (i, src) with - | o
  · exact ⟨s, _, rfl, .refl s⟩
  dsimp only
  split
  · exact ⟨s, _, rfl, .refl s⟩
  split
  · exact ⟨s, _, rfl, .refl s⟩
  obtain ⟨s₁, hs₁, h₁, hv₁⟩ : ∃ s₁, (if (s.value (i, dst)).isSome then keyOps.dbDelete s (i, dst) else pure s) = pure s₁ ∧
      Redict s s₁ (· = (i, dst)) ∧ s₁.value (i, dst) = none := by
    split
    · exact ⟨_, rfl, Redict.erase s i dst, by rw [dbDelete, value_setDict, lookup_erase]⟩
    next hno => exact ⟨s, rfl, ⟨rfl, fun _ => rfl, rfl, fun _ _ => rfl⟩, by simpa using hno⟩
  obtain ⟨s₂, hs₂, h₂⟩ := dbAdd_redict o hv₁
  have h₃ := (h₁.trans h₂).trans (Redict.erase s₂ i src)
  have hmove : keyOps.moveKey s₁ (i, src) (i, dst) o (-1) = pure (dbDelete s₂ i src).1 := KeyOps.moveKey_eq hs₂ rfl rfl
  rw [hs₁, pure_bind, hmove]
  refine ⟨_, _, rfl, Redict.signal_two (h₃.mono ?_) hI⟩
  rintro w ((rfl | rfl) | rfl)
  · exact .inr rfl
  · exact .inr rfl
  · exact .inl rfl

/-! ### Flushing -/

def Flushed (dbid : Option (Fin (n + 1))) (s : Server V n) (w : WatchedKey n) : Prop :=
  (dbid = none ∨ dbid = some w.1) ∧ w.2 ∈ (s.db w.1).dict

instance (dbid : Option (Fin (n + 1))) (s : Server V n) (w : WatchedKey n) : Decidable (Flushed dbid s w) :=
  inferInstanceAs (Decidable (_ ∧ _))

theorem flush_marked (s : Server V n) (dbid : Option (Fin (n + 1))) :
    Marked (fun _ cl => cl.watched.any fun w => decide (Flushed dbid s w)) s (touchWatchedKeysOnFlush s dbid) :=
  ⟨rfl, rfl, rfl⟩

theorem flush_dirty {c : Nat} (hw : w ∈ s.watchedOf c) (hf : Flushed dbid s w) :
    (touchWatchedKeysOnFlush s dbid).dirty c = true := by
  obtain ⟨cl, hfind, hmem⟩ := exists_find_of_mem hw
  exact (flush_marked s dbid).dirty hfind (any_eq_true.2 ⟨w, hmem, by simpa using hf⟩)

theorem Redict.flushed (h : Redict (touchWatchedKeysOnFlush s dbid) s' K)
    (hK : ∀ w, K w → s'.value w ≠ s.value w → Flushed dbid s w) : Signalled s s' := by
  have hm := (flush_marked s dbid).signalled
  refine ⟨fun w => (h.watchers w).trans (hm.watchers w), fun c => (h.watched c).trans (hm.watched c), fun c hd => ?_,
    fun c w hw hv => ?_, fun c hc => by rw [h.find]; exact hm.running c hc, h.executing⟩
  · rw [dirty, h.find]
    exact hm.sticky c hd
  have hk : K w := by
    by_contra hk
    exact hv (h.values w hk)
  rw [dirty, h.find]
  exact flush_dirty hw (hK w hk hv)

theorem flushdbCommand_signalled (s : Server V n) (i : Fin (n + 1)) : Signalled s (flushdbCommand s i) := by
  refine (Redict.setDict (touchWatchedKeysOnFlush s (some i)) i ∅).flushed ?_
  rintro ⟨j, key⟩ ⟨rfl, hne⟩ -
  refine ⟨.inr rfl, ?_⟩
  by_contra hno
  exact hne (lookup_eq_none.2 hno).symm

theorem flushallCommand_signalled (s : Server V n) : Signalled s (flushallCommand s) := by
  have hr : Redict (touchWatchedKeysOnFlush s none) (flushallCommand s) fun _ => True :=
    ⟨rfl, fun _ => rfl, rfl, fun _ h => absurd trivial h⟩
  refine hr.flushed fun w _ hne => ⟨.inl rfl, ?_⟩
  by_contra hno
  exact hne (lookup_eq_none.2 hno).symm

/-! ### The commands that do not signal -/

/-- The clients that are not dirty do not watch the key in either database. -/
def MoveQuiet (s : Server V n) (i dst : Fin (n + 1)) (key : Key) : Prop :=
  ∀ p ∈ s.clients, p.2.dirtyCas = false → (i, key) ∉ p.2.watched ∧ (dst, key) ∉ p.2.watched

/-- The keys that clients that are not dirty watch in the two databases are the same in both. -/
def SwapQuiet (s : Server V n) (i j : Fin (n + 1)) : Prop :=
  ∀ p ∈ s.clients, p.2.dirtyCas = false → ∀ w ∈ p.2.watched, w.1 = i ∨ w.1 = j → s.value (i, w.2) = s.value (j, w.2)

/-- The clients that are not dirty do not watch the key, or the command does not change it. -/
def StreamQuiet (s : Server V n) (i : Fin (n + 1)) (cmd : StreamWrite) (key : Key) (val : V) : Prop :=
  cmd.writes (decide (key ∈ (s.db i).dict)) = true → s.value (i, key) ≠ some val →
    ∀ p ∈ s.clients, p.2.dirtyCas = false → (i, key) ∉ p.2.watched

theorem Redict.quiet (h : Redict s s' K) (hq : ∀ p ∈ s.clients, p.2.dirtyCas = false → ∀ w ∈ p.2.watched, ¬ K w) :
    Signalled s s' := by
  refine h.signalled (.refl s') fun c w hk hw => ?_
  obtain ⟨cl, hf, hmem⟩ := exists_find_of_mem hw
  rw [h.find] at hf
  by_contra hd
  refine hq _ (mem_clients_of_find hf) ?_ w hmem hk
  rw [dirty, h.find, ← dirty, dirty_of_find hf] at hd
  simpa using hd

theorem moveCommand_signalled {key : Key} {dbid : Int}
    (hq : ∀ dst, dbOfId dbid = some dst → i ≠ dst → key ∈ (s.db i).dict → key ∉ (s.db dst).dict → MoveQuiet s i dst key) :
    ∃ s' r, moveCommand s i key dbid = some (s', r) ∧ Signalled s s' := by
  unfold moveCommand
  split
  · exact ⟨s, _, rfl, .refl s⟩
  rename_i dst hdst
  split
  · exact ⟨s, _, rfl, .refl s⟩
  rename_i hne
  simp only [KeyOps.moveCommand, keyOps_lookupKeyWrite, keyOps_getExpire, pure_bind]
  rcases ho : s.value (i, key) with - | o
  · exact ⟨s, _, rfl, .refl s⟩
  dsimp only
  split
  · exact ⟨s, _, rfl, .refl s⟩
  rename_i hold
  have hnone : s.value (dst, key) = none := by simpa using hold
  have hno : key ∉ (s.db dst).dict := lookup_eq_none.1 hnone
  obtain ⟨s₁, hs₁, h₁⟩ := dbAdd_redict o hnone
  have hmove : keyOps.moveKey s (i, key) (dst, key) o (-1) = pure (dbDelete s₁ i key).1 := KeyOps.moveKey_eq hs₁ rfl rfl
  rw [hmove]
  refine ⟨_, _, rfl, (h₁.trans (Redict.erase s₁ i key)).quiet fun p hp hd w hw => ?_⟩
  have := hq dst hdst hne (lookup_isSome.1 (isSome_iff_exists.2 ⟨o, ho⟩)) hno p hp hd
  rintro (rfl | rfl)
  · exact this.2 hw
  · exact this.1 hw

theorem swapdbCommand_signalled {id1 id2 : Int}
    (hq : ∀ i j, dbOfId (intOfLong id1) = some i → dbOfId (intOfLong id2) = some j → i ≠ j → SwapQuiet s i j) :
    Signalled s (swapdbCommand s id1 id2).1 := by
  unfold swapdbCommand dbSwapDatabases
  rcases h1 : dbOfId (intOfLong id1) with - | i
  · exact .refl s
  rcases h2 : dbOfId (intOfLong id2) with - | j
  · exact .refl s
  by_cases hij : i = j
  · simp only [some_bind, if_pos hij]
    exact .refl s
  simp only [some_bind, if_neg hij]
  have hr := (Redict.setDict s i (s.db j).dict).trans
    (Redict.setDict (s.setDict i (s.db j).dict) j (s.db i).dict)
  refine hr.quiet fun p hp hd w hw => ?_
  have hsame := hq i j h1 h2 hij p hp hd w hw
  obtain ⟨k, key⟩ := w
  rintro (⟨hk, hne⟩ | ⟨hk, hne⟩)
  · obtain rfl : k = i := hk
    exact hne (hsame (.inl rfl)).symm
  obtain rfl : k = j := hk
  have hv : (s.setDict i (s.db k).dict).value (k, key) = s.value (k, key) := by
    simp [value, setDict, Ne.symm hij]
  exact hne ((hsame (.inr rfl)).trans hv.symm)

theorem streamCommand_signalled {cmd : StreamWrite} {key : Key} {val : V} (hq : StreamQuiet s i cmd key val) :
    Signalled s (streamCommand s i cmd key val).1 := by
  unfold streamCommand
  split
  next hwrites =>
    refine (Redict.setDict s i _).quiet fun p hp hd w hw => ?_
    rintro ⟨rfl, hne⟩
    by_cases hk : w.2 = key
    · subst hk
      rw [lookup_insert] at hne
      exact hq hwrites hne.symm p hp hd hw
    · exact hne (lookup_insert_ne hk)
  · exact .refl s

end commands

/-! ### The index of watched keys -/

section index
variable {s s' : Server V n} {c : Nat} {w : WatchedKey n}
variable {cl : Client V n}

theorem watchers_setWatchedKeys (i : Fin (n + 1)) (m : AList fun _ : Key => List Nat) (w : WatchedKey n) :
    (s.setWatchedKeys i m).watchers w = if w.1 = i then (m.lookup w.2).getD [] else s.watchers w := by
  unfold watchers setWatchedKeys
  by_cases h : w.1 = i
  · rw [h]
    simp
  · simp [h]

theorem value_setWatchedKeys (i : Fin (n + 1)) (m : AList fun _ : Key => List Nat) (w : WatchedKey n) :
    (s.setWatchedKeys i m).value w = s.value w := by
  unfold value setWatchedKeys
  by_cases h : w.1 = i
  · rw [← h]
    simp
  · simp [h]

structure Reindex (s s' : Server V n) : Prop where
  clients : s'.clients = s.clients
  executing : s'.executing = s.executing
  value : ∀ w, s'.value w = s.value w

theorem unwatchKey_spec (h : c ∈ s.watchers w) : ∃ s', unwatchKey s c w = some s' ∧ Reindex s s' ∧
      ∀ x, s'.watchers x = if x = w then (s.watchers x).erase c else s.watchers x := by
  obtain ⟨l, hl⟩ : ∃ l, (s.db w.1).watchedKeys.lookup w.2 = some l := by
    unfold watchers at h
    cases hl : (s.db w.1).watchedKeys.lookup w.2 with
    | none => rw [hl] at h; cases h
    | some l => exact ⟨l, rfl⟩
  have hwl : s.watchers w = l := by rw [watchers, hl]; rfl
  have heq : unwatchKey s c w = some (s.setWatchedKeys w.1 (if (l.erase c).length = 0 then
      (s.db w.1).watchedKeys.erase w.2 else (s.db w.1).watchedKeys.insert w.2 (l.erase c))) := by
    simp [unwatchKey, hl, if_pos (hwl ▸ h)]
  refine ⟨_, heq, ⟨rfl, rfl, value_setWatchedKeys _ _⟩, fun x => ?_⟩
  rw [watchers_setWatchedKeys]
  by_cases hx : x = w
  · subst hx
    rw [if_pos rfl, if_pos rfl, hwl]
    split
    next hz =>
      rw [lookup_erase, length_eq_zero_iff.1 hz]
      rfl
    · rw [lookup_insert]
      rfl
  · split
    next hi =>
      have hk : x.2 ≠ w.2 := fun he => hx (Prod.ext hi he)
      have hlook : ∀ l, ((if l.length = 0 then (s.db w.1).watchedKeys.erase w.2
          else (s.db w.1).watchedKeys.insert w.2 l).lookup x.2) = (s.db w.1).watchedKeys.lookup x.2 := by
        intro l
        split
        · exact lookup_erase_ne hk
        · exact lookup_insert_ne hk
      rw [hlook, watchers, hi]
    · rfl

theorem Reindex.find (h : Reindex s s') (c : Nat) : s'.find c = s.find c := by rw [Server.find, h.clients, Server.find]

theorem Reindex.trans {s'' : Server V n} (h : Reindex s s') (h' : Reindex s' s'') : Reindex s s'' :=
  ⟨h'.clients.trans h.clients, h'.executing.trans h.executing, fun w => (h'.value w).trans (h.value w)⟩

theorem unwatchKeys_spec : ∀ {l : List (WatchedKey n)} {s : Server V n}, l.Nodup → (∀ w ∈ l, c ∈ s.watchers w) →
    ∃ s', l.foldlM (unwatchKey · c) s = some s' ∧ Reindex s s' ∧
      ∀ x, (x ∈ l → s'.watchers x = (s.watchers x).erase c) ∧ (x ∉ l → s'.watchers x = s.watchers x) := by
  intro l
  induction l with
  | nil => exact fun _ _ => ⟨_, rfl, ⟨rfl, rfl, fun _ => rfl⟩, by simp⟩
  | cons w l ih =>
    intro s hnd hl
    obtain ⟨hwl, hnd⟩ := nodup_cons.1 hnd
    obtain ⟨s₁, hs₁, h₁, hw₁⟩ := unwatchKey_spec (hl w (.head _))
    have hl₁ : ∀ x ∈ l, c ∈ s₁.watchers x := fun x hx => by
      rw [hw₁, if_neg fun he : x = w => hwl (he ▸ hx)]
      exact hl x (.tail _ hx)
    obtain ⟨s₂, hs₂, h₂, hw₂⟩ := ih hnd hl₁
    refine ⟨s₂, by simp [hs₁, hs₂], h₁.trans h₂, ?_⟩
    intro x
    refine ⟨fun hx => ?_, fun hx => ?_⟩
    · rcases mem_cons.1 hx with rfl | hx
      · rw [(hw₂ x).2 hwl, hw₁, if_pos rfl]
      · rw [(hw₂ x).1 hx, hw₁, if_neg fun he : x = w => hwl (he ▸ hx)]
    · obtain ⟨hne, hx⟩ := not_or.1 (mt mem_cons.2 hx)
      rw [(hw₂ x).2 hx, hw₁, if_neg hne]

theorem find_modify_of_find {f : Client V n → Client V n} (h : s.find c = some cl) (d : Nat) :
    (s.modify c f).find d = if d = c then some (f cl) else s.find d := by
  rw [find_modify]
  split
  next he =>
    rw [he, h]
    rfl
  · simp

theorem unwatchAllKeys_spec (hI : s.Inv) (hc : s.find c = some cl) :
    ∃ s', unwatchAllKeys s c = some s' ∧ s'.Inv ∧ s'.executing = s.executing ∧ (∀ w, s'.value w = s.value w) ∧
      ∀ d, s'.find d = if d = c then some { cl with watched := [] } else s.find d := by
  have hmem : ∀ w, w ∈ cl.watched ↔ c ∈ s.watchers w := fun w => by
    rw [hI.index, watchedOf_of_find hc]
  obtain ⟨s₁, hs₁, h₁, hw₁⟩ := unwatchKeys_spec (watchedOf_of_find hc ▸ hI.once c)
    fun w hw => (hmem w).1 hw
  obtain ⟨t, ht⟩ : ∃ t, t = s₁.modify c fun client => { client with watched := [] } := ⟨_, rfl⟩
  have hfind : ∀ d, t.find d = if d = c then some { cl with watched := [] } else s.find d := fun d => by
    rw [ht, find_modify_of_find ((h₁.find c).trans hc), h₁.find]
  have hwatchers : ∀ w, t.watchers w = (s.watchers w).erase c := by
    intro w
    rw [ht]
    by_cases hw : w ∈ cl.watched
    · exact (hw₁ w).1 hw
    · exact ((hw₁ w).2 hw).trans (erase_of_not_mem (mt (hmem w).2 hw)).symm
  have heq : unwatchAllKeys s c = some t := by
    rw [ht]
    simp [unwatchAllKeys, hc, hs₁]
  have hexec : t.executing = s.executing := by
    rw [ht]
    exact h₁.executing
  refine ⟨t, heq, hI.rewatch hfind hexec nodup_nil (fun w => ?_) (fun w => ?_) fun w d hd => ?_, hexec, ?_, hfind⟩
  · rw [hwatchers]
    exact (hI.nodup w).erase c
  · rw [hwatchers, (hI.nodup w).mem_erase_iff]
    simp
  · rw [hwatchers]
    exact mem_erase_of_ne hd
  · rw [ht]
    exact h₁.value

theorem watchForKey_spec (hI : s.Inv) (hc : s.find c = some cl) (i : Fin (n + 1)) (key : Key) :
    ∃ s' l, watchForKey s c i key = some s' ∧ s'.Inv ∧
      (∀ w, s'.value w = s.value w) ∧ ∀ d, s'.find d = if d = c then some { cl with watched := l } else s.find d := by
  by_cases hm : (i, key) ∈ cl.watched
  · refine ⟨s, cl.watched, ?_, hI, fun _ => rfl, fun d => ?_⟩
    · simp [watchForKey, hc, if_pos hm]
    · split
      next hd => rw [hd, hc]
      · rfl
  · obtain ⟨s₁, hs₁⟩ : ∃ s₁, s₁ = s.setWatchedKeys i
      ((s.db i).watchedKeys.insert key (s.watchers (i, key) ++ [c])) := ⟨_, rfl⟩
    obtain ⟨t, ht⟩ : ∃ t, t = s₁.modify c fun client => { client with watched := client.watched ++ [(i, key)] } :=
      ⟨_, rfl⟩
    have hc₁ : s₁.find c = some cl := by
      rw [hs₁]
      exact hc
    have hfind : ∀ d, t.find d = if d = c then some { cl with watched := cl.watched ++ [(i, key)] } else s.find d :=
      fun d => by
        rw [ht, find_modify_of_find hc₁, hs₁]
        rfl
    have hwatchers : ∀ w, t.watchers w = if w = (i, key) then s.watchers (i, key) ++ [c] else s.watchers w := by
      intro w
      rw [ht, hs₁]
      refine (watchers_setWatchedKeys _ _ w).trans ?_
      by_cases hw : w = (i, key)
      · subst hw
        rw [if_pos rfl, if_pos rfl, lookup_insert]
        rfl
      · split
        next hi => rw [lookup_insert_ne fun hk => hw (Prod.ext hi hk), watchers, hi]
        · rfl
    have hmem : ∀ w, c ∈ s.watchers w ↔ w ∈ cl.watched := fun w => by rw [hI.index, watchedOf_of_find hc]
    refine ⟨t, cl.watched ++ [(i, key)], ?_, hI.rewatch hfind (by rw [ht, hs₁]; rfl) ?_ (fun w => ?_) (fun w => ?_)
      fun w d hd => ?_, ?_, hfind⟩
    · rw [ht, hs₁]
      simp only [watchForKey, hc, some_bind, if_neg hm]
      rfl
    · exact nodup_append_comm.2 (nodup_cons.2 ⟨hm, watchedOf_of_find hc ▸ hI.once c⟩)
    · rw [hwatchers]
      split
      · exact nodup_append_comm.2 (nodup_cons.2 ⟨mt (hmem _).1 hm, hI.nodup _⟩)
      · exact hI.nodup w
    · rw [hwatchers]
      split <;> simp [*]
    · rw [hwatchers]
      split <;> simp [*]
    · rw [ht, hs₁]
      exact value_setWatchedKeys _ _

end index

/-! ### Commands that do not change keys -/

/-- No key changes, and a client that still watches something is as dirty as before. -/
structure Calm (s s' : Server V n) : Prop where
  inv : s'.Inv
  value : ∀ w, s'.value w = s.value w
  dirty : ∀ c, s'.watchedOf c = [] ∨ s'.dirty c = s.dirty c

theorem Calm.stable {s' : Server V n} (h : Calm s s') : Stable s s' := by
  intro c w _ hw hd
  rcases h.dirty c with he | he
  · rw [he] at hw
    cases hw
  · exact ⟨he ▸ hd, h.value w⟩

theorem Calm.of_find {s' : Server V n} {c : Nat} (hI : s'.Inv) (hv : ∀ w, s'.value w = s.value w)
    (hc : s'.watchedOf c = []) (ho : ∀ d, d ≠ c → s'.find d = s.find d) : Calm s s' := by
  refine ⟨hI, hv, fun d => ?_⟩
  by_cases hd : d = c
  · exact .inl (hd ▸ hc)
  · exact .inr (by rw [Server.dirty, ho d hd, Server.dirty])

section calm
variable {s : Server V n} {c : Nat} {cl : Client V n}

section
variable (hI : s.Inv) (f : Client V n → Client V n) (hf : ∀ cl, (f cl).watched = cl.watched)
include hI hf

theorem modify_inv : (s.modify c f).Inv := by
  refine hI.of_watched (fun _ => rfl) (fun d => ?_) fun d cmds he => ?_
  · rw [watchedOf, find_modify, watchedOf]
    rcases s.find d with - | cl
    · rfl
    split
    · exact hf cl
    · rfl
  · rw [find_modify, isSome_map]
    exact hI.running d cmds he

theorem modify_calm (hd : ∀ cl, (f cl).dirtyCas = cl.dirtyCas) : Calm s (s.modify c f) := by
  refine ⟨modify_inv hI f hf, fun _ => rfl, fun d => .inr ?_⟩
  rw [dirty, find_modify, dirty]
  rcases s.find d with - | cl
  · rfl
  split
  · exact hd cl
  · rfl

end

theorem unwatchAllKeys_calm (hI : s.Inv) (hc : s.find c = some cl) :
    ∃ s', unwatchAllKeys s c = some s' ∧ Calm s s' ∧ s'.executing = s.executing ∧
      s'.find c = some { cl with watched := [] } ∧ ∀ d, d ≠ c → s'.find d = s.find d := by
  obtain ⟨s', hs', hI', he, hv, hf⟩ := unwatchAllKeys_spec hI hc
  have hc' : s'.find c = some { cl with watched := [] } := by rw [hf, if_pos rfl]
  have ho : ∀ d, d ≠ c → s'.find d = s.find d := fun d hd => by rw [hf, if_neg hd]
  exact ⟨s', hs', .of_find hI' hv (watchedOf_of_find hc') ho, he, hc', ho⟩

theorem watchKeys_calm (i : Fin (n + 1)) : ∀ (keys : List Key) {s : Server V n} {cl : Client V n}, s.Inv →
    s.find c = some cl → ∃ s', keys.foldlM (fun s key => watchForKey s c i key) s = some s' ∧ s'.Inv ∧
      (∀ w, s'.value w = s.value w) ∧ ∀ d, s'.dirty d = s.dirty d := by
  intro keys
  induction keys with
  | nil => exact fun hI _ => ⟨_, rfl, hI, fun _ => rfl, fun _ => rfl⟩
  | cons key keys ih =>
    intro s cl hI hc
    obtain ⟨s₁, l, hs₁, hI₁, hv₁, hf₁⟩ := watchForKey_spec hI hc i key
    have hc₁ : s₁.find c = some { cl with watched := l } := by rw [hf₁, if_pos rfl]
    obtain ⟨s₂, hs₂, hI₂, hv₂, hd₂⟩ := ih hI₁ hc₁
    refine ⟨s₂, ?_, hI₂, fun w => (hv₂ w).trans (hv₁ w), fun d => (hd₂ d).trans ?_⟩
    · simp [hs₁, hs₂]
    · by_cases hd : d = c
      · rw [hd, dirty_of_find hc₁, dirty_of_find hc]
      · rw [dirty, hf₁, if_neg hd, dirty]

theorem discardTransaction_calm (hI : s.Inv) (hc : s.find c = some cl) :
    ∃ s', discardTransaction s c = some s' ∧ Calm s s' := by
  obtain ⟨f, hf⟩ : ∃ f : Client V n → Client V n, f = fun client =>
    { client with commands := [], multi := false, dirtyCas := false, dirtyExec := false } := ⟨_, rfl⟩
  have hI' : (s.modify c f).Inv := modify_inv hI f fun _ => by rw [hf]
  have hc' : (s.modify c f).find c = some (f cl) := by rw [find_modify_of_find hc, if_pos rfl]
  obtain ⟨s', hs', hcalm, -, hfind, hothers⟩ := unwatchAllKeys_calm hI' hc'
  refine ⟨s', by rw [discardTransaction, ← hf, hs'], .of_find hcalm.inv hcalm.value (watchedOf_of_find hfind) fun d hd => ?_⟩
  rw [hothers d hd, find_modify_of_find hc, if_neg hd]

theorem execCommand_calm (hI : s.Inv) (hc : s.find c = some cl) :
    ∃ s' r, execCommand s c cl = some (s', r) ∧ Calm s s' := by
  unfold execCommand
  split
  · exact ⟨s, _, rfl, hI, fun _ => rfl, fun _ => .inr rfl⟩
  split
  · obtain ⟨s', hs', h⟩ := discardTransaction_calm hI hc
    exact ⟨s', _, by rw [hs']; rfl, h⟩
  obtain ⟨s', hs', h, -, hf, -⟩ := unwatchAllKeys_calm hI hc
  refine ⟨{ s' with executing := some (c, cl.commands) }, .multiBulk cl.commands.length, by rw [hs']; rfl,
    ⟨h.inv.index, h.inv.nodup, h.inv.once, ?_⟩, h.value, h.dirty⟩
  intro d cmds he
  cases he
  show (s'.find c).isSome
  rw [hf]
  rfl

end calm

/-! ### Steps -/

/-- The commands that do not signal do not change a key that a client watches that is not dirty; `i` is the
database of the client that sends the command. -/
def Command.Quiet (s : Server V n) (i : Fin (n + 1)) : Command V → Prop
  | .move key dbid => ∀ dst, dbOfId dbid = some dst → i ≠ dst → key ∈ (s.db i).dict → key ∉ (s.db dst).dict →
    MoveQuiet s i dst key
  | .swapdb id1 id2 => ∀ i j, dbOfId (intOfLong id1) = some i → dbOfId (intOfLong id2) = some j → i ≠ j →
    SwapQuiet s i j
  | .stream cmd key val => StreamQuiet s i cmd key val
  | _ => True

/-- The calls that can come, with commands that are quiet when they run. -/
def Op.Allowed : Op V → Server V n → Prop
  | .connect c, s => s.executing.isNone ∧ (s.find c).isNone
  | .disconnect c, s => s.executing.isNone ∧ (s.find c).isSome
  | .command c cmd, s => s.executing.isNone ∧ (s.find c).isSome ∧
    ∀ cl ∈ s.find c, (cl.multi && !cmd.notQueued) = false → cmd.Quiet s cl.db
  | .next, s => s.executing.isSome ∧ ∀ p ∈ s.executing, ∀ cl ∈ s.find p.1, ∀ cmd ∈ p.2.head?, cmd.Quiet s cl.db

section step
variable {s : Server V n} {c : Nat} {cl : Client V n}
variable {s' : Server V n}

theorem Signalled.step (h : Signalled s s') (hI : s.Inv) : s'.Inv ∧ Stable s s' :=
  ⟨h.inv hI, h.stable⟩

theorem Calm.step (h : Calm s s') : s'.Inv ∧ Stable s s' := ⟨h.inv, h.stable⟩

theorem call_stable (hI : s.Inv) (hc : s.find c = some cl) (cmd : Command V) (hq : cmd.Quiet s cl.db) :
    ∃ s' r, call s c cl cmd = some (s', r) ∧ s'.Inv ∧ Stable s s' := by
  have hself : Calm s s := ⟨hI, fun _ => rfl, fun _ => .inr rfl⟩
  cases cmd with
  | set key val =>
    obtain ⟨s', hs', h⟩ := setKey_signalled hI cl.db key val
    exact ⟨s', .ok, by rw [call, hs']; rfl, h.step hI⟩
  | stream cmd key val => exact ⟨_, _, rfl, (streamCommand_signalled hq).step hI⟩
  | del keys => exact ⟨_, _, rfl, (delGenericCommand_signalled cl.db keys 0 hI).step hI⟩
  | rename src dst nx =>
    obtain ⟨s', r, hs', h⟩ := renameGenericCommand_signalled hI cl.db src dst nx
    exact ⟨s', r, hs', h.step hI⟩
  | move key dbid =>
    obtain ⟨s', r, hs', h⟩ := moveCommand_signalled hq
    exact ⟨s', r, hs', h.step hI⟩
  | flushdb => exact ⟨_, _, rfl, (flushdbCommand_signalled s cl.db).step hI⟩
  | flushall => exact ⟨_, _, rfl, (flushallCommand_signalled s).step hI⟩
  | swapdb id1 id2 => exact ⟨_, _, rfl, (swapdbCommand_signalled hq).step hI⟩
  | select id =>
    simp only [call]
    split
    · exact ⟨s, _, rfl, hself.step⟩
    · refine ⟨_, _, rfl, (modify_calm hI _ ?_ ?_).step⟩ <;> exact fun _ => rfl
  | watch keys =>
    simp only [call]
    split
    · exact ⟨s, _, rfl, hself.step⟩
    · obtain ⟨s', hs', hI', hv, hd⟩ := watchKeys_calm cl.db keys hI hc
      exact ⟨s', _, by rw [hs']; rfl, (Calm.mk hI' hv fun d => .inr (hd d)).step⟩
  | unwatch =>
    obtain ⟨s', hs', h, -, hf, ho⟩ := unwatchAllKeys_calm hI hc
    have hI' := modify_inv (c := c) h.inv (fun client => { client with dirtyCas := false }) fun _ => rfl
    refine ⟨_, .ok, by rw [call, hs']; rfl, (Calm.of_find (c := c) hI' h.value ?_ fun d hd => ?_).step⟩
    · rw [watchedOf, find_modify_of_find hf, if_pos rfl]
      rfl
    · rw [find_modify_of_find hf, if_neg hd, ho d hd]
  | multi =>
    simp only [call]
    split
    · exact ⟨s, _, rfl, hself.step⟩
    · refine ⟨_, _, rfl, (modify_calm hI _ ?_ ?_).step⟩ <;> exact fun _ => rfl
  | discard =>
    simp only [call]
    split
    · obtain ⟨s', hs', h⟩ := discardTransaction_calm hI hc
      exact ⟨s', _, by rw [hs']; rfl, h.step⟩
    · exact ⟨s, _, rfl, hself.step⟩
  | exec =>
    obtain ⟨s', r, hs', h⟩ := execCommand_calm hI hc
    exact ⟨s', r, hs', h.step⟩
  | invalid =>
    refine ⟨_, _, rfl, (modify_calm hI _ (fun cl => ?_) fun cl => ?_).step⟩ <;> split <;> rfl

theorem connect_calm (hI : s.Inv) (hc : s.find c = none) (hx : s.executing = none) :
    Calm s { s with clients := s.clients ++ [(c, ⟨0, false, false, false, [], []⟩)] } := by
  have hfind : ∀ d, d ≠ c → find { s with
      clients := s.clients ++ [(c, ⟨0, false, false, false, [], []⟩)] } d = s.find d := by
    intro d hd
    show lookup d (_ ++ _) = _
    rw [lookup_append, lookup_cons, beq_false_of_ne hd]
    exact or_none
  have hself : find { s with
      clients := s.clients ++ [(c, ⟨0, false, false, false, [], []⟩)] } c =
        some ⟨0, false, false, false, [], []⟩ := by
    show lookup c (_ ++ _) = _
    rw [lookup_append, show s.clients.lookup c = none from hc, lookup_cons, beq_self_eq_true]
    rfl
  refine .of_find (hI.of_watched (fun _ => rfl) (fun d => ?_) fun d cmds he => ?_) (fun _ => rfl) (watchedOf_of_find hself) hfind
  · by_cases hd : d = c
    · rw [hd, watchedOf_of_find hself, watchedOf, hc]
      rfl
    · rw [watchedOf, hfind d hd, watchedOf]
  · cases hx ▸ he

theorem lookup_filter_ne (l : List (Nat × Client V n)) (d : Nat) :
    (l.filter fun p => p.1 ≠ c).lookup d = if d = c then none else l.lookup d := by
  induction l with
  | nil => exact (ite_self _).symm
  | cons p l ih =>
    rw [filter_cons, lookup_cons]
    by_cases hp : p.1 = c
    · rw [if_neg (by simp [hp]), ih]
      by_cases hd : d = c
      · rw [if_pos hd, if_pos hd]
      · rw [if_neg hd, if_neg hd, beq_false_of_ne (by rw [hp]; exact hd)]
    · rw [if_pos (by simp [hp]), lookup_cons, ih]
      by_cases hd : d = c
      · rw [if_pos hd, if_pos hd, beq_false_of_ne (by rw [hd]; exact Ne.symm hp)]
      · rw [if_neg hd, if_neg hd]

theorem disconnect_calm (hI : s.Inv) (hc : s.find c = some cl) (hx : s.executing = none) :
    ∃ s', unwatchAllKeys s c = some s' ∧
      Calm s { s' with clients := s'.clients.filter fun p => p.1 ≠ c } := by
  obtain ⟨s', hs', h, he, hcl, ho⟩ := unwatchAllKeys_calm hI hc
  have hfind : ∀ d, find { s' with clients := s'.clients.filter fun p => p.1 ≠ c } d =
      if d = c then none else s'.find d := lookup_filter_ne s'.clients
  refine ⟨s', hs', .of_find (c := c) (h.inv.of_watched (fun _ => rfl) (fun d => ?_) fun d cmds hd => ?_) h.value ?_
    fun d hd => ?_⟩
  · rw [watchedOf, hfind]
    by_cases hd : d = c
    · rw [if_pos hd, hd, watchedOf_of_find hcl]
      rfl
    · rw [if_neg hd, watchedOf]
  · cases (he.trans hx) ▸ hd
  · rw [watchedOf, hfind, if_pos rfl]
    rfl
  · rw [hfind, if_neg hd, ho d hd]

theorem step_stable (hI : s.Inv) (op : Op V) (ha : op.Allowed s) :
    ∃ s' r, step op s = some (s', r) ∧ s'.Inv ∧ Stable s s' := by
  cases op with
  | connect c =>
    obtain ⟨hx, hc⟩ := ha
    rw [isNone_iff_eq_none] at hx hc
    refine ⟨_, .ok, by rw [step, if_neg (by simp [hx, hc])], (connect_calm hI hc hx).step⟩
  | disconnect c =>
    obtain ⟨hx, hc⟩ := ha
    rw [isNone_iff_eq_none] at hx
    obtain ⟨cl, hc⟩ := isSome_iff_exists.1 hc
    obtain ⟨s', hs', h⟩ := disconnect_calm hI hc hx
    exact ⟨_, .ok, by rw [step, if_neg (by simp [hx]), hs']; rfl, h.step⟩
  | command c cmd =>
    obtain ⟨hx, hc, hq⟩ := ha
    rw [isNone_iff_eq_none] at hx
    obtain ⟨cl, hc⟩ := isSome_iff_exists.1 hc
    simp only [step, hx, hc, isSome_none, Bool.false_eq_true, if_false, some_bind, processCommand]
    split
    · refine ⟨_, _, rfl, (modify_calm hI _ ?_ ?_).step⟩ <;> exact fun _ => rfl
    next hm => exact call_stable hI hc cmd (hq cl hc (Bool.not_eq_true _ ▸ hm))
  | next =>
    obtain ⟨hx, hq⟩ := ha
    obtain ⟨⟨c, cmds⟩, hx⟩ := isSome_iff_exists.1 hx
    obtain ⟨cl, hc⟩ := isSome_iff_exists.1 (hI.running c cmds hx)
    cases cmds with
    | nil =>
      have hI' : Server.Inv { s with executing := none } := hI.of_watched (fun _ => rfl) (fun _ => rfl) nofun
      obtain ⟨s', hs', h⟩ := discardTransaction_calm hI' hc
      refine ⟨s', .ok, ?_, h.inv, h.stable⟩
      simp [step, execNext, hx, hs']
    | cons cmd cmds =>
      have hI' : Server.Inv { s with executing := some (c, cmds) } := by
        refine hI.of_watched (fun _ => rfl) (fun _ => rfl) fun d ds he => ?_
        cases he
        exact hI.running c _ hx
      obtain ⟨s', r, hs', hI'', h⟩ := call_stable hI' hc cmd (hq _ hx cl hc cmd rfl)
      refine ⟨s', r, ?_, hI'', h⟩
      simp [step, execNext, hx, hc, hs']

theorem not_dirty_of_exec {k : Nat} (h : step (.command c .exec) s = some (s', .multiBulk k)) : s.dirty c = false := by
  rw [step] at h
  split at h
  · cases h
  obtain ⟨cl, hc, h⟩ := bind_eq_some_iff.1 h
  have hcall : execCommand s c cl = some (s', .multiBulk k) := by
    rw [processCommand, if_neg (by simp [Command.notQueued])] at h
    exact h
  rw [dirty_of_find hc]
  unfold execCommand at hcall
  split at hcall
  · cases hcall
  split at hcall
  · obtain ⟨t, -, he⟩ := map_eq_some_iff.1 hcall
    have hr := congrArg Prod.snd he
    split at hr <;> cases hr
  next hd => exact (by simpa using hd : cl.dirtyCas = false ∧ cl.dirtyExec = false).1

end step

/-! ### Runs -/

theorem inv_init : (init : Server V n).Inv := by
  refine ⟨fun c w => ?_, fun w => nodup_nil, fun c => nodup_nil, nofun⟩
  exact ⟨nofun, nofun⟩

theorem run_cons {op : Op V} {ops : List (Op V)} {s₁ : Server V n} {r : Reply} (hs₁ : step op s = some (s₁, r)) :
    machine.run (op :: ops) s = (machine.run ops s₁).map fun p => (p.1, r :: p.2) := by
  simp [Machine.run, show machine.step op s = some (s₁, r) from hs₁]

theorem run_stable (ops : List (Op V)) (hI : s.Inv) (hg : machine.Guarded Op.Allowed ops s) :
    ∃ s' rs, machine.run ops s = some (s', rs) ∧ s'.Inv ∧ ∀ c w,
      (∀ pre t ts, pre <+: ops → machine.run pre s = some (t, ts) → w ∈ t.watchedOf c) →
      s'.dirty c = false → s.dirty c = false ∧
        ∀ pre t ts, pre <+: ops → machine.run pre s = some (t, ts) → t.value w = s.value w := by
  induction ops generalizing s with
  | nil =>
    refine ⟨s, [], rfl, hI, fun c w _ hd => ⟨hd, fun pre t ts hp ht => ?_⟩⟩
    rw [prefix_nil.1 hp] at ht
    cases ht
    rfl
  | cons op ops ih =>
    obtain ⟨s₁, r, hs₁, hI₁, hst⟩ := step_stable hI op hg.1
    obtain ⟨s₂, rs, hs₂, hI₂, hrun⟩ := ih hI₁ (hg.2 s₁ r hs₁)
    refine ⟨s₂, r :: rs, by rw [run_cons hs₁, hs₂]; rfl, hI₂, fun c w hw hd => ?_⟩
    have hw₀ : w ∈ s.watchedOf c := hw [] s [] nil_prefix rfl
    have hw₁ : w ∈ s₁.watchedOf c := hw [op] s₁ [r] ⟨ops, rfl⟩ (run_cons hs₁)
    obtain ⟨hd₁, hv₁⟩ := hrun c w (fun pre t ts hp ht =>
      hw (op :: pre) t (r :: ts) (cons_prefix_cons.2 ⟨rfl, hp⟩) (by rw [run_cons hs₁, ht]; rfl)) hd
    obtain ⟨hd₀, hv₀⟩ := hst c w hw₀ hw₁ hd₁
    refine ⟨hd₀, fun pre t ts hp ht => ?_⟩
    rcases prefix_cons_iff.1 hp with rfl | ⟨pre, rfl, hpre⟩
    · cases ht
      rfl
    rw [run_cons hs₁] at ht
    obtain ⟨⟨u, us⟩, hu, he⟩ := map_eq_some_iff.1 ht
    cases he
    exact (hv₁ pre u us hpre hu).trans hv₀

section decidable
variable [DecidableEq V]

instance (s : Server V n) (i dst : Fin (n + 1)) (key : Key) : Decidable (MoveQuiet s i dst key) :=
  inferInstanceAs (Decidable (∀ p ∈ s.clients, _ → _ ∧ _))

instance (s : Server V n) (i j : Fin (n + 1)) : Decidable (SwapQuiet s i j) :=
  inferInstanceAs (Decidable (∀ p ∈ s.clients, _ → ∀ w ∈ p.2.watched, _ → _))

instance (s : Server V n) (i : Fin (n + 1)) (cmd : StreamWrite) (key : Key) (val : V) :
    Decidable (StreamQuiet s i cmd key val) :=
  inferInstanceAs (Decidable (_ → _ → ∀ p ∈ s.clients, _ → _))

instance (s : Server V n) (i : Fin (n + 1)) (cmd : Command V) : Decidable (cmd.Quiet s i) := by
  cases cmd
  case stream cmd key val => exact inferInstanceAs (Decidable (StreamQuiet s i cmd key val))
  case move key dbid => exact inferInstanceAs (Decidable (∀ dst, _ → _ → _ → _ → MoveQuiet s i dst key))
  case swapdb id1 id2 => exact inferInstanceAs (Decidable (∀ i j, _ → _ → _ → SwapQuiet s i j))
  all_goals exact inferInstanceAs (Decidable True)

instance : ∀ (op : Op V) (s : Server V n), Decidable (op.Allowed s)
  | .connect _, _ => inferInstanceAs (Decidable (_ ∧ _))
  | .disconnect _, _ => inferInstanceAs (Decidable (_ ∧ _))
  | .command _ _, _ => inferInstanceAs (Decidable (_ ∧ _ ∧ _))
  | .next, _ => inferInstanceAs (Decidable (_ ∧ _))

end decidable

/-- Client 2 moves a key and makes a stream, neither of them watched. -/
def quietOps : List (Op Nat) :=
  [.command 1 .multi, .command 2 (.move [120] 1), .command 2 (.stream .xgroup [121] 5)]

/-- What client 1 finds at the key that it watches before and after a command of client 2, what it watches then, and
the reply to its `EXEC`. -/
def watchedWhile (before : List (Op Nat)) (cmd : Command Nat) :
    Option (Option Nat × Option Nat × List (WatchedKey 1) × Option Reply) := do
  let (s, _) ← machine.run (.connect 1 :: .connect 2 :: before ++ [.command 1 (.watch [[107]]), .command 1 .multi])
    (Server.init : Server Nat 1)
  let (t, _) ← machine.run [.command 2 cmd] s
  let (_, rs) ← machine.run [.command 1 .exec] t
  some (s.value (0, [107]), t.value (0, [107]), t.watchedOf 1, rs.getLast?)

end Redis.Multi
