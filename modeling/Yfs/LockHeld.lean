import Yfs.LockOwner

namespace Yfs.Lock

section
variable {κ τ ℓ ω : Type*} [DecidableEq κ] [DecidableEq τ] [DecidableEq ℓ]

/-- The thread and lock for which the step is the return of an `acquire`. -/
def acquired (s : Sys κ τ ℓ ω) : Act κ τ ℓ → Option (κ × τ × ℓ)
  | .acquireLoop i t =>
    match (s.clients i).pc t with
    | .looping lid => if (s.clients i).lockMap lid = some .free then some (i, t, lid) else none
    | _ => none
  | .acquireReturn i =>
    match (s.clients i).call with
    | some (.acquire _ _ _ (.answered .retry)) => none
    | some (.acquire t lid _ (.answered _)) => some (i, t, lid)
    | _ => none
  | _ => none

theorem retryLoop_held (c : Client τ ℓ) (t : τ) (lid : ℓ) : (c.retryLoop t lid).held = c.held := by
  unfold Client.retryLoop
  split_ifs <;> rfl

theorem setHeld_apply (c : Client τ ℓ) (t u : τ) (lid l : ℓ) (b : Bool) :
    (c.setHeld t lid b).held u l = if u = t ∧ l = lid then b else c.held u l := by
  by_cases hu : u = t
  · subst hu
    by_cases hl : l = lid <;> simp [Client.setHeld, hl]
  · simp [Client.setHeld, hu]

theorem returnOk_held (c : Client τ ℓ) (t u : τ) (lid l : ℓ) :
    (c.returnOk t lid).held u l = true ↔ c.held u l = true ∨ (t = u ∧ lid = l) := by
  rw [Client.returnOk, setHeld_apply]
  by_cases h : u = t ∧ l = lid
  · simp [h]
  · have h' : ¬ (t = u ∧ lid = l) := fun hh => h ⟨hh.1.symm, hh.2.symm⟩
    rw [if_neg h]
    simp only [h', or_false]
    rfl

omit [DecidableEq κ] in
theorem acquireLoop_held (s : Sys κ τ ℓ ω) (i : κ) (t : τ) (c : Client τ ℓ)
    (h : (s.clients i).acquireLoop t = some c) (u : τ) (l : ℓ) :
    c.held u l = true ↔
      (s.clients i).held u l = true ∨ acquired s (.acquireLoop i t) = some (i, u, l) := by
  unfold Client.acquireLoop at h
  split at h
  · next lid hpc =>
    split_ifs at h
    split at h <;> cases h
    · next hst => simp [acquired, hpc, hst, Client.callToServer, Client.setCall, Client.setPc]
    · next hst =>
      rw [returnOk_held]
      simp [acquired, hpc, hst, Client.setStatus]
    · next st hnone hfree hst =>
      have hne : st ≠ .free := hfree
      simp [acquired, hpc, hst, hne]
  · cases h

omit [DecidableEq κ] in
theorem acquireReturn_held (s : Sys κ τ ℓ ω) (i : κ) (c : Client τ ℓ)
    (h : (s.clients i).acquireReturn = some c) (u : τ) (l : ℓ) :
    c.held u l = true ↔
      (s.clients i).held u l = true ∨ acquired s (.acquireReturn i) = some (i, u, l) := by
  unfold Client.acquireReturn at h
  split at h
  · next t lid r hc =>
    split at h <;> cases h
    · rw [returnOk_held]
      simp [acquired, hc, Client.setStatus]
    · rw [retryLoop_held]
      simp [acquired, hc]
    · rw [returnOk_held]
      simp [acquired, hc]
  · next t lid r hc =>
    split at h <;> cases h
    · rw [returnOk_held]
      simp [acquired, hc, Client.setStatus, Client.setRetry]
    · rw [retryLoop_held]
      simp [acquired, hc, Client.setRetry]
    · rw [returnOk_held]
      simp [acquired, hc, Client.setRetry]
  · cases h

theorem release_held (c c' : Client τ ℓ) (t : τ) (lid : ℓ) (h : c.release t lid = some c') :
    c.held t lid = true ∧
      ∀ u l, c'.held u l = true ↔ c.held u l = true ∧ ¬ (t = u ∧ lid = l) := by
  unfold Client.release at h
  split_ifs at h with h0 hr <;> push Not at h0 <;> cases h
  all_goals
    refine ⟨eq_true_of_ne_false h0.2.2.1, fun u l => ?_⟩
    change (c.setHeld t lid false).held u l = true ↔ _
    rw [setHeld_apply]
    by_cases hul : u = t ∧ l = lid
    · simp [hul]
    · have hul' : ¬ (t = u ∧ lid = l) := fun hh => hul ⟨hh.1.symm, hh.2.symm⟩
      simp [hul, hul']

theorem acquire_held (c c' : Client τ ℓ) (t : τ) (lid : ℓ) (h : c.acquire t lid = some c') :
    c'.held = c.held := by
  unfold Client.acquire at h
  split_ifs at h
  split at h <;> cases h <;> rfl

theorem wake_held (c c' : Client τ ℓ) (t : τ) (h : c.wake t = some c') : c'.held = c.held := by
  unfold Client.wake at h
  split at h
  · split_ifs at h
    cases h
    exact retryLoop_held _ _ _
  · cases h

section
omit [DecidableEq τ]

theorem revokeHandler_held (c c' : Client τ ℓ) (lid : ℓ) (h : c.revokeHandler lid = some c') :
    c'.held = c.held := by
  unfold Client.revokeHandler at h
  split_ifs at h
  split at h <;> cases h <;> rfl

theorem retryHandler_held (c c' : Client τ ℓ) (lid : ℓ) (h : c.retryHandler lid = some c') :
    c'.held = c.held := by
  unfold Client.retryHandler at h
  split_ifs at h
  cases h
  rfl

theorem releaser_held (c c' : Client τ ℓ) (h : c.releaser = some c') : c'.held = c.held := by
  unfold Client.releaser at h
  split_ifs at h
  split at h <;> cases h <;> rfl

theorem releaserEnd_held (c c' : Client τ ℓ) (h : c.releaserEnd = some c') : c'.held = c.held := by
  unfold Client.releaserEnd at h
  split at h <;> cases h
  rfl

omit [DecidableEq ℓ] in
theorem held_setClient (s : Sys κ τ ℓ ω) (i : κ) (c : Client τ ℓ) (a : Act κ τ ℓ)
    (hi : ∀ u l, c.held u l = true ↔
      ((s.clients i).held u l = true ∧ a ≠ .release i u l) ∨ acquired s a = some (i, u, l))
    (hne : ∀ j, j ≠ i → ∀ u l, a ≠ .release j u l ∧ acquired s a ≠ some (j, u, l))
    (j : κ) (u : τ) (l : ℓ) :
    ((s.setClient i c).clients j).held u l = true ↔
      ((s.clients j).held u l = true ∧ a ≠ .release j u l) ∨ acquired s a = some (j, u, l) := by
  by_cases hj : j = i
  · subst hj
    simpa only [Sys.setClient, Function.update_self] using hi u l
  · obtain ⟨hr,ha⟩ := hne j hj u l
    simp [Sys.setClient, Function.update_of_ne hj, hr, ha]

omit [DecidableEq ℓ] in
theorem held_quiet (s : Sys κ τ ℓ ω) (i : κ) (c : Client τ ℓ) (a : Act κ τ ℓ)
    (hc : c.held = (s.clients i).held) (hr : ∀ j u l, a ≠ .release j u l)
    (ha : acquired s a = none) (j : κ) (u : τ) (l : ℓ) :
    ((s.setClient i c).clients j).held u l = true ↔
      ((s.clients j).held u l = true ∧ a ≠ .release j u l) ∨ acquired s a = some (j, u, l) := by
  refine held_setClient s i c a ?_ ?_ j u l
  · intro u l
    simp [hc, ha, hr]
  · intro j _ u l
    simp [hr, ha]

omit [DecidableEq ℓ] in
theorem held_setCall (s : Sys κ τ ℓ ω) (i : κ) (x : Call τ ℓ) (a : Act κ τ ℓ)
    (hr : ∀ j u l, a ≠ .release j u l) (ha : acquired s a = none) (j : κ) (u : τ) (l : ℓ) :
    ((s.setCall i x).clients j).held u l = true ↔
      ((s.clients j).held u l = true ∧ a ≠ .release j u l) ∨ acquired s a = some (j, u, l) :=
  held_quiet s i ((s.clients i).setCall (some x)) a rfl hr ha j u l

end

/-- Who holds a lock after a step: who held it and does not release it now, and the
thread to which `acquire` returns. -/
theorem held_step (dorelease : κ → ℓ → ω → Option ω) (s s' : Sys κ τ ℓ ω) (a : Act κ τ ℓ)
    (h : step dorelease s a = some s') (j : κ) (u : τ) (l : ℓ) :
    (s'.clients j).held u l = true ↔
      ((s.clients j).held u l = true ∧ a ≠ .release j u l) ∨ acquired s a = some (j, u, l) := by
  cases sysStep_of_step h with
  | acquire i t lid c hc => exact held_quiet s i c _ (acquire_held _ c t lid hc) (by simp) rfl j u l
  | acquireLoop i t c hc =>
    refine held_setClient s i c _ ?_ ?_ j u l
    · simpa using acquireLoop_held s i t c hc
    · intro k hk u l
      refine ⟨by simp, fun hq => hk ?_⟩
      simp only [acquired] at hq
      split at hq
      · split_ifs at hq
        cases hq
        rfl
      · cases hq
  | serverAcquire i t lid again srv r hcall hr =>
    exact held_setCall s i _ (.serverAcquire i) (by simp) rfl j u l
  | acquireReturn i c hc =>
    refine held_setClient s i c _ ?_ ?_ j u l
    · simpa using acquireReturn_held s i c hc
    · intro k hk u l
      refine ⟨by simp, fun hq => hk ?_⟩
      simp only [acquired] at hq
      split at hq <;> cases hq
      rfl
  | wake i t c hc => exact held_quiet s i c _ (wake_held _ c t hc) (by simp) rfl j u l
  | release i t lid c hc =>
    obtain ⟨_,hh⟩ := release_held _ c t lid hc
    refine held_setClient s i c _ ?_ ?_ j u l
    · intro u l
      simp [hh, acquired]
    · intro k hk u l
      simp [acquired, Ne.symm hk]
  | revoke i lid q c hq hc =>
    exact held_quiet s i c .revoke (revokeHandler_held _ c lid hc) (by simp) rfl j u l
  | retry i lid q c hq hc =>
    exact held_quiet s i c .retry (retryHandler_held _ c lid hc) (by simp) rfl j u l
  | revokePop | retryPop => simp [acquired]
  | releaser i c hc => exact held_quiet s i c _ (releaser_held _ c hc) (by simp) rfl j u l
  | dorelease i lid w hcall hw => exact held_setCall s i _ (.dorelease i) (by simp) rfl j u l
  | serverRelease i lid srv r hcall hr =>
    exact held_setCall s i _ (.serverRelease i) (by simp) rfl j u l
  | releaserEnd i c hc => exact held_quiet s i c _ (releaserEnd_held _ c hc) (by simp) rfl j u l

/-- What a lock protects may be kept as long as the client has the lock, and while
it is being flushed. -/
def ClientView.Keeps (v : ClientView τ) : Prop := HasLock v.st ∨ v.call = some (.release .flushing)

omit [DecidableEq τ] in
theorem ClientView.Keeps.owns {v : ClientView τ} (h : v.Keeps) : v.Owns :=
  h.elim Or.inl fun hc => Or.inr (Or.inr (Or.inl hc))

theorem cstep_keeps (v w : ClientView τ) (h : v.Ok) (hs : CStep v w) (hk : v.Keeps) : w.Keeps := by
  cases hs with
  | stay => exact hk
  | enter hst =>
    obtain ⟨hc,_⟩ := h.of_absent hst
    simp [ClientView.Keeps, HasLock, hst, hc] at hk
  | call t hst hc => simp [ClientView.Keeps, HasLock, hst, hc] at hk
  | take t hst hc => exact Or.inl (Or.inr (Or.inl rfl))
  | grant t again hc => exact Or.inl (Or.inr (Or.inl rfl))
  | park t again hc hr =>
    obtain ⟨hst,_⟩ := h.of_asking t again _ hc
    cases again <;> simp [ClientView.Keeps, HasLock, hst, hc] at hk
  | again t hc hr =>
    obtain ⟨hst,_⟩ := h.of_asking t false _ hc
    simp [ClientView.Keeps, HasLock, hst, hc] at hk
  | failed t again code hc =>
    obtain ⟨_,hp,_⟩ := h.of_asking t again _ hc
    simp at hp
  | wake t hw hc hr =>
    obtain ⟨_,hst,_⟩ := h.of_waiting t hw
    simp [ClientView.Keeps, HasLock, hst, hc] at hk
  | rest t hw hc hr =>
    obtain ⟨_,hst,_⟩ := h.of_waiting t hw
    simp [ClientView.Keeps, HasLock, hst, hc] at hk
  | release t hh hc =>
    by_cases hr : 0 < v.revoked
    · exact Or.inl (Or.inr (Or.inr (by simp [hr])))
    · exact Or.inl (Or.inl (by simp [hr]))
  | releaser hst hr hc => exact Or.inr rfl
  | releaserEnd hc =>
    obtain ⟨hst,_⟩ := h.of_returning _ hc
    simp [ClientView.Keeps, HasLock, hst, hc] at hk

/-- Only a flush ends the time for which a client may keep its data. -/
theorem vstep_keeps (v w : View κ τ) (h : v.OwnerOk) (hs : VStep False v w) (j : κ)
    (hk : (v.cl j).Keeps) : (w.cl j).Keeps := by
  have hother : ∀ i c, i ≠ j → (Function.update v.cl i c j).Keeps := by
    intro i c hij
    rwa [Function.update_of_ne (Ne.symm hij)]
  cases hs with
  | stay => exact hk
  | client i c hc =>
    by_cases hij : i = j
    · subst hij
      simpa using cstep_keeps _ c (h.client i) hc hk
    · exact hother i c hij
  | flushed i hf hc => exact hf.elim
  | acquire i t again hc =>
    by_cases hij : i = j
    · subst hij
      obtain ⟨hst,_⟩ := (h.client i).of_asking t again _ hc
      cases again <;> simp [ClientView.Keeps, HasLock, hst, hc] at hk
    · exact hother i _ hij
  | release i e hc he hst =>
    by_cases hij : i = j
    · subst hij
      obtain ⟨hno,_⟩ := (h.client i).of_returning _ hc
      simp [ClientView.Keeps, HasLock, hno, hc] at hk
    · exact hother i _ hij
  | refused i hc he =>
    by_cases hij : i = j
    · subst hij
      obtain ⟨hno,_⟩ := (h.client i).of_returning _ hc
      simp [ClientView.Keeps, HasLock, hno, hc] at hk
    · exact hother i _ hij
  | revoke i rs hr hc hst =>
    by_cases hij : i = j
    · subst hij
      simp only [Function.update_self]
      by_cases hf : (v.cl i).st = some .free
      · exact Or.inl (Or.inr (Or.inr (by simp [hf])))
      · simpa [ClientView.Keeps, hf] using hk
    · exact hother i _ hij
  | retry i rs hr hc =>
    by_cases hij : i = j
    · subst hij
      simpa [ClientView.Keeps] using hk
    · exact hother i _ hij

omit [DecidableEq κ] [DecidableEq τ] in
theorem keeps_unique (v : View κ τ) (h : v.OwnerOk) (i j : κ) (hi : (v.cl i).Keeps)
    (hj : (v.cl j).Keeps) : i = j :=
  Option.some.inj (((h.owner i).mp hi.owns).symm.trans ((h.owner j).mp hj.owns))

omit [DecidableEq κ] [DecidableEq τ] in
/-- A lock that `acquire` is about to return is held by nobody. -/
theorem acquired_unheld (s : Sys κ τ ℓ ω) (a : Act κ τ ℓ) (i : κ) (t : τ) (lid : ℓ)
    (h : (s.view lid).OwnerOk) (ha : acquired s a = some (i, t, lid)) (j : κ) (u : τ) :
    (s.clients j).held u lid = false := by
  by_contra hj
  obtain ⟨hcall,hst,_⟩ := (h.client j).of_held u (eq_true_of_ne_false hj)
  have hown : ((s.view lid).cl j).Owns := Or.inl (Or.inr (Or.inl hst))
  have hsame : ((s.view lid).cl i).Owns → i = j := fun hi =>
    Option.some.inj (((h.owner i).mp hi).symm.trans ((h.owner j).mp hown))
  cases a with
  | acquireLoop k v =>
    simp only [acquired] at ha
    split at ha
    · split_ifs at ha with hfree
      cases ha
      -- the client has the lock FREE, so it is `j`, where the lock is LOCKED
      cases hsame (Or.inl (Or.inl hfree))
      exact absurd (hfree.symm.trans hst) (by simp)
    · cases ha
  | acquireReturn k =>
    simp only [acquired] at ha
    split at ha
    · cases ha
    · next v l again r hr hc =>
      cases ha
      have hv := callOn_acquire (s.clients i) t lid lid again _ hc
      rw [if_pos rfl] at hv
      obtain ⟨_,hp,_⟩ := (h.client i).of_asking t again _ hv
      have hok : r = .ok := by
        cases r with
        | ok => rfl
        | retry => exact absurd rfl hr
        | other code => simp at hp
      cases hsame (Or.inr (Or.inl ⟨t, again, by rw [← hok]; exact hv⟩))
      exact absurd (hcall.symm.trans hv) (by simp)
    · cases ha
  | acquire | serverAcquire | wake | release | revoke | revokePop | retry | retryPop | releaser
  | dorelease | serverRelease | releaserEnd => cases ha

theorem vstep_mono (f g : Prop) (hfg : f → g) (v w : View κ τ) (h : VStep f v w) : VStep g v w := by
  cases h with
  | stay => exact .stay
  | client i c hc => exact .client i c hc
  | flushed i hf hc => exact .flushed i (hfg hf) hc
  | acquire i t again hc => exact .acquire i t again hc
  | release i e hc he hst => exact .release i e hc he hst
  | refused i hc he => exact .refused i hc he
  | revoke i rs hr hc hst => exact .revoke i rs hr hc hst
  | retry i rs hr hc => exact .retry i rs hr hc

theorem world_step (dorelease : κ → ℓ → ω → Option ω) (s s' : Sys κ τ ℓ ω) (a : Act κ τ ℓ)
    (ha : ∀ i, a ≠ .dorelease i) (h : step dorelease s a = some s') : s'.world = s.world := by
  cases sysStep_of_step h with
  | dorelease i => exact absurd rfl (ha i)
  | acquire | acquireLoop | serverAcquire | acquireReturn | wake | release | revoke | revokePop
  | retry | retryPop
  | releaser | serverRelease | releaserEnd => rfl

end
end Yfs.Lock
