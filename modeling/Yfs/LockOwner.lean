import Yfs.LockViewStep

namespace Yfs.Lock

section
variable {κ τ ℓ ω : Type*} [DecidableEq κ] [DecidableEq τ] [DecidableEq ℓ]

/-- `lock_map` says that the client has the lock. -/
def HasLock (st : Option LockSt) : Prop :=
  st = some .free ∨ st = some .locked ∨ st = some .releasing

def ClientView.Owns (v : ClientView τ) : Prop :=
  HasLock v.st ∨ (∃ t again, v.call = some (.acquire t again (.answered .ok))) ∨
    v.call = some (.release .flushing) ∨ v.call = some (.release .sent)

/-- Nobody waits for the lock or holds it. -/
def ClientView.Unused (v : ClientView τ) : Prop := (∀ u, ¬ v.waiting u) ∧ ∀ u, v.held u = false

/-- The five ways a client's data about a lock can look. -/
inductive ClientView.Ok (v : ClientView τ) : Prop
  | idle (hc : v.call = none) (hst : v.st ≠ some .locked ∧ v.st ≠ some .acquiring) (hu : v.Unused)
  | asking (t : τ) (again : Bool) (p : AcqPhase) (hc : v.call = some (.acquire t again p))
      (hst : v.st = some (if again = true then .acquiring else .none))
      (hp : p = .sent ∨ p = .answered .ok ∨ p = .answered .retry) (hu : v.Unused)
  | waiting (t : τ) (hc : v.call = none) (hst : v.st = some .acquiring)
      (hw : ∀ u, v.waiting u ↔ u = t) (hh : ∀ u, v.held u = false)
  | holding (t : τ) (hc : v.call = none) (hst : v.st = some .locked)
      (hw : ∀ u, ¬ v.waiting u) (hh : ∀ u, v.held u = true ↔ u = t)
  | returning (p : RelPhase) (hc : v.call = some (.release p)) (hst : v.st = some .none)
      (hu : v.Unused)

section inversion
variable {v : ClientView τ} (h : v.Ok)
include h
omit [DecidableEq τ]

theorem ClientView.Ok.of_asking (t : τ) (again : Bool) (p : AcqPhase)
    (hc : v.call = some (.acquire t again p)) :
    v.st = some (if again = true then .acquiring else .none) ∧
      (p = .sent ∨ p = .answered .ok ∨ p = .answered .retry) ∧ v.Unused := by
  cases h with
  | asking u b q hc' hst hp hu =>
    cases hc.symm.trans hc'
    exact ⟨hst, hp, hu⟩
  | idle hc' _ _ => exact absurd (hc.symm.trans hc') (by simp)
  | waiting u hc' _ _ _ => exact absurd (hc.symm.trans hc') (by simp)
  | holding u hc' _ _ _ => exact absurd (hc.symm.trans hc') (by simp)
  | returning q hc' _ _ => exact absurd (hc.symm.trans hc') (by simp)

theorem ClientView.Ok.of_returning (p : RelPhase) (hc : v.call = some (.release p)) :
    v.st = some .none ∧ v.Unused := by
  cases h with
  | asking u b q hc' hst hp hu => exact absurd (hc.symm.trans hc') (by simp)
  | idle hc' _ _ => exact absurd (hc.symm.trans hc') (by simp)
  | waiting u hc' _ _ _ => exact absurd (hc.symm.trans hc') (by simp)
  | holding u hc' _ _ _ => exact absurd (hc.symm.trans hc') (by simp)
  | returning q hc' hst hu => exact ⟨hst, hu⟩

theorem ClientView.Ok.of_waiting (t : τ) (hw : v.waiting t) :
    v.call = none ∧ v.st = some .acquiring ∧ (∀ u, v.waiting u ↔ u = t) ∧
    ∀ u, v.held u = false := by
  cases h with
  | idle hc hst hu => exact absurd hw (hu.1 t)
  | asking u b q hc hst hp hu => exact absurd hw (hu.1 t)
  | waiting u hc hst hwait hh =>
    cases (hwait t).mp hw
    exact ⟨hc, hst, hwait, hh⟩
  | holding u hc hst hwait hh => exact absurd hw (hwait t)
  | returning q hc hst hu => exact absurd hw (hu.1 t)

theorem ClientView.Ok.of_held (t : τ) (ht : v.held t = true) :
    v.call = none ∧ v.st = some .locked ∧ (∀ u, ¬ v.waiting u) ∧ ∀ u, v.held u = true ↔ u = t := by
  cases h with
  | idle hc hst hu => exact absurd (ht.symm.trans (hu.2 t)) (by simp)
  | asking u b q hc hst hp hu => exact absurd (ht.symm.trans (hu.2 t)) (by simp)
  | waiting u hc hst hwait hh => exact absurd (ht.symm.trans (hh t)) (by simp)
  | holding u hc hst hwait hh =>
    cases (hh t).mp ht
    exact ⟨hc, hst, hwait, hh⟩
  | returning q hc hst hu => exact absurd (ht.symm.trans (hu.2 t)) (by simp)

theorem ClientView.Ok.unused (hc : v.call = none) (hl : v.st ≠ some .locked)
    (ha : v.st ≠ some .acquiring) : v.Unused := by
  cases h with
  | idle _ _ hu => exact hu
  | asking u b q hc' _ _ _ => exact absurd (hc.symm.trans hc') (by simp)
  | waiting u _ hst _ _ => exact absurd hst ha
  | holding u _ hst _ _ => exact absurd hst hl
  | returning q hc' _ _ => exact absurd (hc.symm.trans hc') (by simp)

theorem ClientView.Ok.of_absent (hst : v.st = none) : v.call = none ∧ v.Unused := by
  cases h with
  | idle hc _ hu => exact ⟨hc, hu⟩
  | asking u b q _ hst' _ _ => exact absurd (hst.symm.trans hst') (by simp)
  | waiting u _ hst' _ _ => exact absurd (hst.symm.trans hst') (by simp)
  | holding u _ hst' _ _ => exact absurd (hst.symm.trans hst') (by simp)
  | returning q _ hst' _ => exact absurd (hst.symm.trans hst') (by simp)

end inversion

theorem held_update (v : ClientView τ) (t u : τ) (h : ∀ u, v.held u = false) :
    Function.update v.held t true u = true ↔ u = t := by
  by_cases hu : u = t
  · simp [hu]
  · simp [hu, h u]

theorem waiting_update_iff (v : ClientView τ) (t u : τ) (h : ∀ u, ¬ v.waiting u) :
    Function.update v.waiting t True u ↔ u = t := by
  by_cases hu : u = t
  · simp [hu]
  · simp [hu, h u]

theorem cstep_ok (v w : ClientView τ) (h : v.Ok) (hs : CStep v w) : w.Ok := by
  cases hs with
  | stay => exact h
  | enter hst =>
    obtain ⟨hc,hu⟩ := h.of_absent hst
    exact .idle hc (by simp) hu
  | call t hst hc =>
    have hu := h.unused hc (by simp [hst]) (by simp [hst])
    exact .asking t false .sent rfl (by simpa using hst) (Or.inl rfl) hu
  | take t hst hc =>
    obtain ⟨hw,hh⟩ := h.unused hc (by simp [hst]) (by simp [hst])
    exact .holding t rfl rfl hw fun u => held_update v t u hh
  | grant t again hc =>
    obtain ⟨_,_,hw,hh⟩ := h.of_asking t again _ hc
    exact .holding t rfl rfl hw fun u => held_update v t u hh
  | park t again hc hr =>
    obtain ⟨_,_,hw,hh⟩ := h.of_asking t again _ hc
    exact .waiting t rfl rfl (fun u => waiting_update_iff v t u hw) hh
  | again t hc hr =>
    obtain ⟨_,_,hu⟩ := h.of_asking t false _ hc
    exact .asking t true .sent rfl rfl (Or.inl rfl) hu
  | failed t again code hc =>
    obtain ⟨_,hp,_⟩ := h.of_asking t again _ hc
    simp at hp
  | wake t hw hc hr =>
    obtain ⟨_,_,hwait,hh⟩ := h.of_waiting t hw
    refine .asking t true .sent rfl rfl (Or.inl rfl) ⟨fun u hu => ?_, hh⟩
    by_cases hut : u = t
    · simp [hut] at hu
    · simp [hut, hwait u] at hu
  | rest t hw hc hr =>
    obtain ⟨_,_,hwait,hh⟩ := h.of_waiting t hw
    exact .waiting t hc rfl hwait hh
  | release t hh hc =>
    obtain ⟨_,_,hw,hheld⟩ := h.of_held t hh
    refine .idle hc (by split_ifs <;> simp) ⟨hw, fun u => ?_⟩
    by_cases hut : u = t
    · simp [hut]
    · simpa [hut] using (hheld u).not.mpr hut
  | releaser hst hr hc =>
    exact .returning .flushing rfl rfl (h.unused hc (by simp [hst]) (by simp [hst]))
  | releaserEnd hc =>
    obtain ⟨hst,hu⟩ := h.of_returning _ hc
    exact .idle rfl (by simp [hst]) hu

/-- No critical section of a client changes whether the client owns the lock. -/
theorem cstep_owns (v w : ClientView τ) (h : v.Ok) (hs : CStep v w) : w.Owns ↔ v.Owns := by
  cases hs with
  | stay => exact Iff.rfl
  | enter hst =>
    obtain ⟨hc,_⟩ := h.of_absent hst
    simp [ClientView.Owns, HasLock, hst, hc]
  | call t hst hc => simp [ClientView.Owns, HasLock, hst, hc]
  | take t hst hc => simp [ClientView.Owns, HasLock, hst]
  | grant t again hc => simp [ClientView.Owns, HasLock, hc]
  | park t again hc hr =>
    obtain ⟨hst,_⟩ := h.of_asking t again _ hc
    cases again <;> simp [ClientView.Owns, HasLock, hc, hst]
  | again t hc hr =>
    obtain ⟨hst,_⟩ := h.of_asking t false _ hc
    simp [ClientView.Owns, HasLock, hc, hst]
  | failed t again code hc =>
    obtain ⟨_,hp,_⟩ := h.of_asking t again _ hc
    simp at hp
  | wake t hw hc hr =>
    obtain ⟨_,hst,_⟩ := h.of_waiting t hw
    simp [ClientView.Owns, HasLock, hc, hst]
  | rest t hw hc hr =>
    obtain ⟨_,hst,_⟩ := h.of_waiting t hw
    simp [ClientView.Owns, HasLock, hst]
  | release t hh hc =>
    obtain ⟨_,hst,_⟩ := h.of_held t hh
    by_cases hr : 0 < v.revoked <;> simp [ClientView.Owns, HasLock, hst, hr]
  | releaser hst hr hc => simp [ClientView.Owns, HasLock, hst]
  | releaserEnd hc =>
    obtain ⟨hst,_⟩ := h.of_returning _ hc
    simp [ClientView.Owns, HasLock, hc, hst]

omit [DecidableEq τ] in
theorem retried_ok (v : ClientView τ) (h : v.Ok) : ClientView.Ok { v with retry := true } := by
  cases h with
  | idle hc hst hu => exact .idle hc hst hu
  | asking t again p hc hst hp hu => exact .asking t again p hc hst hp hu
  | waiting t hc hst hw hh => exact .waiting t hc hst hw hh
  | holding t hc hst hw hh => exact .holding t hc hst hw hh
  | returning p hc hst hu => exact .returning p hc hst hu

omit [DecidableEq τ] in
theorem revoked_ok (v : ClientView τ) (h : v.Ok) (hc : v.call = none) :
    ClientView.Ok { v with
      st := if v.st = some .free then some .releasing else v.st
      revoked := v.revoked+1 } := by
  cases h with
  | idle _ hst hu => exact .idle hc (by split_ifs <;> simp [hst]) hu
  | asking t again p hc' _ _ _ => exact absurd (hc.symm.trans hc') (by simp)
  | waiting t _ hst hw hh => exact .waiting t hc (by simp [hst]) hw hh
  | holding t _ hst hw hh => exact .holding t hc (by simp [hst]) hw hh
  | returning p hc' _ _ => exact absurd (hc.symm.trans hc') (by simp)

/-- The client that the server has recorded for the lock. -/
def holder (e : Option (LockStatus κ)) : Option κ :=
  e.bind fun e => if e.status = .locked then e.lockClient else none

omit [DecidableEq κ] in
theorem holder_eq_some (e : Option (LockStatus κ)) (i : κ) (h : holder e = some i) :
    ∃ e', e = some e' ∧ e'.status = .locked ∧ e'.lockClient = some i := by
  cases e with
  | none => cases h
  | some e =>
    simp only [holder, Option.bind_some, Option.ite_none_right_eq_some] at h
    exact ⟨e, rfl, h.1, h.2⟩

theorem acquireEntry_holder (e : Option (LockStatus κ)) (i : κ) :
    ((acquireEntry e i).ret = .ok ∧ holder e = none ∧
      holder (some (acquireEntry e i).entry) = some i) ∨
    ((acquireEntry e i).ret = .retry ∧ holder (some (acquireEntry e i).entry) = holder e) := by
  cases e with
  | none => simp [acquireEntry, holder]
  | some e =>
    simp only [acquireEntry]
    split_ifs with h1 h2 h3 <;> simp [holder, h1]

theorem releaseEntry_holder (e : LockStatus κ) (i : κ) :
    holder (some (releaseEntry e i).1) = none := by
  unfold releaseEntry
  split <;> simp [holder, openEntry]

def Named (e : Option (LockStatus κ)) : Prop :=
  ∀ e', e = some e' → e'.status = .locked → e'.lockClient ≠ none

theorem acquireEntry_named (e : Option (LockStatus κ)) (i : κ) (h : Named e) :
    Named (some (acquireEntry e i).entry) := by
  intro e' he' hst
  cases he'
  cases e with
  | none => simp [acquireEntry]
  | some e =>
    simp only [acquireEntry] at hst ⊢
    split_ifs at hst ⊢ with h1 h2 h3
    · simp
    · simp
    · exact h e rfl hst
    · exact h e rfl hst

theorem releaseEntry_named (e : LockStatus κ) (i : κ) : Named (some (releaseEntry e i).1) := by
  intro e' he' hst
  cases he'
  unfold releaseEntry at hst
  split at hst <;> cases hst

/-- The owners of a lock are the client the server has recorded. -/
structure View.OwnerOk (v : View κ τ) : Prop where
  client : ∀ i, (v.cl i).Ok
  owner : ∀ i, (v.cl i).Owns ↔ holder v.entry = some i
  named : Named v.entry

omit [DecidableEq τ] in
theorem ownerOk_update (v : View κ τ) (i : κ) (w : ClientView τ) (e : Option (LockStatus κ))
    (h : v.OwnerOk) (hw : w.Ok) (hi : w.Owns ↔ holder e = some i)
    (hne : ∀ j, j ≠ i → (holder e = some j ↔ holder v.entry = some j)) (hn : Named e) (rt : List κ)
    (rv : List (Option κ)) (an : κ → Option Ret) :
    View.OwnerOk ⟨e, rt, rv, Function.update v.cl i w, an⟩ := by
  refine ⟨?_, ?_, hn⟩
  · intro j
    by_cases hj : j = i
    · subst hj
      simpa using hw
    · simpa [hj] using h.client j
  · intro j
    by_cases hj : j = i
    · subst hj
      simpa using hi
    · simpa [hj, hne j hj] using h.owner j

theorem vstep_ownerOk (f : Prop) (v w : View κ τ) (h : v.OwnerOk) (hs : VStep f v w) :
    w.OwnerOk := by
  cases hs with
  | stay => exact h
  | client i c hc =>
    refine ownerOk_update v i c v.entry h (cstep_ok _ c (h.client i) hc) ?_ (fun _ _ => Iff.rfl)
      h.named _ _ _
    exact (cstep_owns _ c (h.client i) hc).trans (h.owner i)
  | flushed i hf hc =>
    obtain ⟨hst,hu⟩ := (h.client i).of_returning _ hc
    refine ownerOk_update v i _ v.entry h ?_ ?_ (fun _ _ => Iff.rfl) h.named _ _ _
    · exact .returning .sent rfl hst hu
    · rw [← h.owner i]
      simp [ClientView.Owns, hc]
  | acquire i t again hc =>
    obtain ⟨hst,_,hu⟩ := (h.client i).of_asking t again _ hc
    have hno : holder v.entry ≠ some i := by
      intro hi
      cases again <;> simpa [ClientView.Owns, HasLock, hst, hc] using (h.owner i).mpr hi
    rcases acquireEntry_holder v.entry i with ⟨hr,he,he'⟩ | ⟨hr,he'⟩
    · refine ownerOk_update v i _ _ h ?_ ?_ ?_ (acquireEntry_named _ i h.named) _ _ _
      · exact .asking t again _ rfl hst (by simp [hr]) hu
      · simp [ClientView.Owns, hr, he']
      · intro j hj
        simp [he, he', Ne.symm hj]
    · refine ownerOk_update v i _ _ h ?_ ?_ ?_ (acquireEntry_named _ i h.named) _ _ _
      · exact .asking t again _ rfl hst (by simp [hr]) hu
      · rw [he']
        cases again <;> simpa [ClientView.Owns, HasLock, hst, hr] using hno
      · intro j hj
        rw [he']
  | release i e hc he hst =>
    obtain ⟨hno,hu⟩ := (h.client i).of_returning _ hc
    have hi : holder v.entry = some i := (h.owner i).mp (by simp [ClientView.Owns, hc])
    refine ownerOk_update v i _ _ h ?_ ?_ ?_ (releaseEntry_named e i) _ _ _
    · exact .returning .answered rfl hno hu
    · simp [releaseEntry_holder, ClientView.Owns, HasLock, hno]
    · intro j hj
      simp [releaseEntry_holder, hi, Ne.symm hj]
  | refused i hc he =>
    -- the server has recorded the client that gives the lock back
    have hi : holder v.entry = some i := (h.owner i).mp (by simp [ClientView.Owns, hc])
    cases hv : v.entry with
    | none => simp [holder, hv] at hi
    | some e => simp [holder, hv, he e hv] at hi
  | revoke i rs hr hc hst =>
    refine ownerOk_update v i _ v.entry h (revoked_ok _ (h.client i) hc) ?_ (fun _ _ => Iff.rfl)
      h.named _ _ _
    rw [← h.owner i]
    by_cases hf : (v.cl i).st = some .free <;> simp [ClientView.Owns, HasLock, hf]
  | retry i rs hr hc =>
    exact ownerOk_update v i _ v.entry h (retried_ok _ (h.client i)) (h.owner i)
      (fun _ _ => Iff.rfl) h.named _ _ _

omit [DecidableEq κ] [DecidableEq τ] in
theorem ownerOk_init (w : ω) (l : ℓ) : ((Sys.init κ τ ℓ w).view l).OwnerOk := by
  refine ⟨?_, ?_, fun e he => ?_⟩
  · intro i
    exact .idle rfl (by simp [Sys.view, Sys.init, Client.view, Client.init])
      ⟨fun u => by simp [Sys.view, Sys.init, Client.view, Client.init], fun u => rfl⟩
  · intro i
    simp [Sys.view, Sys.init, Client.view, Client.init, Client.callOn, ClientView.Owns, HasLock,
      holder, Server.init]
  · cases he

/-- An invariant of single locks, from the ways a view can change. -/
theorem view_invariant (dorelease : κ → ℓ → ω → Option ω) (I : View κ τ → Prop)
    (hstep : ∀ f v w, I v → VStep f v w → I w) (w : ω) (hinit : ∀ l, I ((Sys.init κ τ ℓ w).view l))
    (acts : List (Act κ τ ℓ)) (s : Sys κ τ ℓ ω)
    (hrun : run (step dorelease) (Sys.init κ τ ℓ w) acts = some s) (l : ℓ) : I (s.view l) := by
  have hinv := run_invariant (step dorelease)
    (fun s : Sys κ τ ℓ ω => (∀ i, (s.clients i).CallOk) ∧ ∀ l, I (s.view l))
    (fun s a s' hi hs => ⟨callOk_step dorelease s s' a hi.1 hs,
      fun l => hstep _ _ _ (hi.2 l) (view_step dorelease s s' a l hi.1 hs)⟩)
    _ s acts ⟨fun i => callOk_of_none _ rfl, hinit⟩ hrun
  exact hinv.2 l

/-- At most one client has the lock, the server has recorded it, and at most one
thread of all clients holds it. -/
theorem lock_mutual_exclusion (dorelease : κ → ℓ → ω → Option ω) (w : ω) (acts : List (Act κ τ ℓ))
    (s : Sys κ τ ℓ ω) (hrun : run (step dorelease) (Sys.init κ τ ℓ w) acts = some s) (lid : ℓ) :
    (∀ i j, HasLock ((s.clients i).lockMap lid) → HasLock ((s.clients j).lockMap lid) → i = j) ∧
    (∀ i, HasLock ((s.clients i).lockMap lid) →
      ∃ e, s.server.lockStatusMap lid = some e ∧ e.status = .locked ∧ e.lockClient = some i) ∧
    ∀ i t j u, (s.clients i).held t lid = true → (s.clients j).held u lid = true →
      i = j ∧ t = u := by
  have h : (s.view lid).OwnerOk := view_invariant dorelease View.OwnerOk
    (fun f v w hv hs => vstep_ownerOk f v w hv hs) w (ownerOk_init w) acts s hrun lid
  have howner : ∀ i, HasLock ((s.clients i).lockMap lid) →
      holder (s.server.lockStatusMap lid) = some i := fun i hi => (h.owner i).mp (Or.inl hi)
  have hunique : ∀ i j, HasLock ((s.clients i).lockMap lid) → HasLock ((s.clients j).lockMap lid) →
      i = j := fun i j hi hj => Option.some.inj ((howner i hi).symm.trans (howner j hj))
  refine ⟨hunique, fun i hi => holder_eq_some _ i (howner i hi), ?_⟩
  · intro i t j u ht hu
    obtain ⟨_,hst,_,hthread⟩ := (h.client i).of_held t ht
    obtain ⟨_,hst',_,_⟩ := (h.client j).of_held u hu
    have hij : i = j := hunique i j (Or.inr (Or.inl hst)) (Or.inr (Or.inl hst'))
    subst hij
    exact ⟨rfl, ((hthread u).mp hu).symm⟩

end

/-- The first client takes lock 5, and the second one asks for it, is told to
retry and gets it once the first has been revoked. -/
def handover : List (Act Bool Unit ℕ) :=
  [.acquire false () 5, .acquireLoop false (), .serverAcquire false, .acquireReturn false,
    .acquire true () 5, .acquireLoop true (), .serverAcquire true, .acquireReturn true,
    .revoke, .revokePop, .release false () 5, .releaser false, .dorelease false,
    .serverRelease false, .releaserEnd false, .retry, .retryPop, .wake true (),
    .serverAcquire true, .acquireReturn true]

theorem lock_mutual_exclusion_handover :
    ∃ s, run (step fun _ _ w => some w) (Sys.init Bool Unit ℕ ()) handover = some s ∧
      (s.clients true).held () 5 = true ∧
      ∀ i, HasLock ((s.clients i).lockMap 5) → i = true := by
  have hends : ∃ s, run (step fun _ _ w => some w) (Sys.init Bool Unit ℕ ()) handover = some s ∧
      (s.clients true).held () 5 = true ∧ (s.clients true).lockMap 5 = some .locked := by
    decide
  obtain ⟨s,hrun,hheld,hst⟩ := hends
  obtain ⟨hunique,_⟩ := lock_mutual_exclusion _ () handover s hrun 5
  exact ⟨s, hrun, hheld, fun i hi => hunique i true hi (Or.inr (Or.inl hst))⟩

end Yfs.Lock
