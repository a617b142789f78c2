import Yfs.LockClientCond

namespace Yfs.Lock

section
variable {τ ℓ : Type*} [DecidableEq τ] [DecidableEq ℓ]
open LockClientCache

/-- Of the locks in `revoke_list` one at most is RELEASING. -/
def Client.OneReleasing (c : Client τ ℓ) : Prop :=
  ∀ l ∈ c.revokeList, ∀ l' ∈ c.revokeList,
    c.lockMap l = some .releasing → c.lockMap l' = some .releasing → l = l'

instance Client.decidableOneReleasing (c : Client τ ℓ) : Decidable c.OneReleasing :=
  inferInstanceAs (Decidable (∀ l ∈ c.revokeList, ∀ l' ∈ c.revokeList,
    c.lockMap l = some .releasing → c.lockMap l' = some .releasing → l = l'))

/-- The releaser goes through `revoke_list` only when this is so. -/
def RoundsTakeAll (s : LockClientCache τ ℓ) : ClientAct τ ℓ → Prop
  | .releaser _ => s.client.OneReleasing
  | _ => True

instance decidableRoundsTakeAll (s : LockClientCache τ ℓ) : ∀ a, Decidable (RoundsTakeAll s a)
  | .releaser _ => inferInstanceAs (Decidable s.client.OneReleasing)
  | .acquire .. | .acquireLoop _ | .answer _ | .acquireReturn | .wake _ | .release .. | .revoke _
  | .retry _ | .retrySignal .. | .dorelease | .releaseAnswer | .releaserEnd _ | .lockWake _
  | .retryWake _ | .releaserWake => isTrue trivial

/-- Locks that are RELEASING have been revoked, and the releaser is on its way to
them; while it has a lock on its way to the server no other one is RELEASING. -/
structure ReleaserOk (s : LockClientCache τ ℓ) : Prop where
  revoked : ∀ lid, s.client.lockMap lid = some .releasing → lid ∈ s.client.revokeList
  enabled : ∀ lid, s.client.lockMap lid = some .releasing →
    s.client.revokerThreadStatus = true ∧ s.releaserPc ≠ .parked
  alone : ∀ l p, s.client.call = some (.release l p) → ∀ lid, s.client.lockMap lid ≠ some .releasing

/-- A section that has nothing to do with revokes. -/
structure Client.KeepsReleasing (c c' : Client τ ℓ) : Prop where
  revokeList : c'.revokeList = c.revokeList
  status : c'.revokerThreadStatus = c.revokerThreadStatus
  lockMap : ∀ lid, c'.lockMap lid = some .releasing → c.lockMap lid = some .releasing
  call : ∀ l p, c'.call = some (.release l p) → ∃ q, c.call = some (.release l q)

section
omit [DecidableEq τ]

omit [DecidableEq ℓ] in
theorem releaserOk_keeps (s s' : LockClientCache τ ℓ) (h : ReleaserOk s)
    (hc : s.client.KeepsReleasing s'.client) (hpc : s'.releaserPc = s.releaserPc) :
    ReleaserOk s' := by
  refine ⟨?_, ?_, ?_⟩
  · intro lid hst
    rw [hc.revokeList]
    exact h.revoked lid (hc.lockMap lid hst)
  · intro lid hst
    rw [hc.status, hpc]
    exact h.enabled lid (hc.lockMap lid hst)
  · intro l p hcall lid hst
    obtain ⟨q,hq⟩ := hc.call l p hcall
    exact h.alone l q hq lid (hc.lockMap lid hst)

theorem keepsReleasing_setStatus (c : Client τ ℓ) (lid : ℓ) (st : LockSt) (hst : st ≠ .releasing) :
    c.KeepsReleasing (c.setStatus lid st) := by
  refine ⟨rfl, rfl, ?_, fun l p hcall => ⟨p, hcall⟩⟩
  intro l hl
  by_cases he : l = lid
  · subst he
    simp [Client.setStatus, hst] at hl
  · simpa [Client.setStatus, he] using hl

omit [DecidableEq ℓ] in
theorem Client.KeepsReleasing.trans {c₁ c₂ c₃ : Client τ ℓ} (h₁ : c₁.KeepsReleasing c₂)
    (h₂ : c₂.KeepsReleasing c₃) : c₁.KeepsReleasing c₃ := by
  refine ⟨h₂.revokeList.trans h₁.revokeList, h₂.status.trans h₁.status,
    fun lid hst => h₁.lockMap lid (h₂.lockMap lid hst), ?_⟩
  intro l p hcall
  obtain ⟨q,hq⟩ := h₂.call l p hcall
  exact h₁.call l q hq

omit [DecidableEq ℓ] in
theorem keepsReleasing_of_eq (c c' : Client τ ℓ) (hl : c'.revokeList = c.revokeList)
    (hs : c'.revokerThreadStatus = c.revokerThreadStatus) (hm : c'.lockMap = c.lockMap)
    (hc : ∀ l p, c'.call ≠ some (.release l p)) : c.KeepsReleasing c' :=
  ⟨hl, hs, fun _ hst => hm ▸ hst, fun l p hcall => absurd hcall (hc l p)⟩

end

theorem keepsReleasing_acquire (c c' : Client τ ℓ) (t : τ) (lid : ℓ)
    (h : c.acquire t lid = some c') :
    c.KeepsReleasing c' := by
  obtain ⟨hcall,_,⟨_,rfl⟩ | ⟨_,rfl⟩⟩ := acquire_cases c c' t lid h
  · apply (keepsReleasing_setStatus c lid .none (by simp)).trans
    exact keepsReleasing_of_eq _ _ rfl rfl rfl
      (by simp [Client.setPc, Client.setStatus, Client.setRetry, hcall])
  · exact keepsReleasing_of_eq _ _ rfl rfl rfl (by simp [Client.setPc, hcall])

theorem keepsReleasing_acquireLoop (c c' : Client τ ℓ) (t : τ) (h : c.acquireLoop t = some c') :
    c.KeepsReleasing c' := by
  obtain ⟨lid,_,hcall,⟨_,rfl⟩ | ⟨_,rfl⟩ | ⟨_,_,_,rfl⟩⟩ := acquireLoop_cases c c' t h
  · exact keepsReleasing_of_eq _ _ rfl rfl rfl
      (by simp [Client.callToServer, Client.setCall, Client.setPc])
  · apply (keepsReleasing_setStatus c lid .locked (by simp)).trans
    exact keepsReleasing_of_eq _ _ rfl rfl rfl
      (by simp [Client.returnOk, Client.setCall, Client.setPc, Client.setHeld])
  · exact keepsReleasing_of_eq _ _ rfl rfl rfl (by simp [hcall])

theorem keepsReleasing_retryLoop (c : Client τ ℓ) (t : τ) (lid : ℓ) :
    c.KeepsReleasing (c.retryLoop t lid) := by
  unfold Client.retryLoop
  split_ifs
  · apply (keepsReleasing_setStatus c lid .acquiring (by simp)).trans
    exact keepsReleasing_of_eq _ _ rfl rfl rfl (by simp [Client.setCall, Client.setPc])
  · apply (keepsReleasing_setStatus c lid .acquiring (by simp)).trans
    exact keepsReleasing_of_eq _ _ rfl rfl rfl
      (by simp [Client.callToServer, Client.setCall, Client.setPc])

theorem keepsReleasing_acquireReturn (c c' : Client τ ℓ) (h : c.acquireReturn = some c') :
    c.KeepsReleasing c' := by
  obtain ⟨t,lid,again,r,hcall,hcases⟩ := acquireReturn_cases c c' h
  -- the flag that a second call clears does not count
  have hflag : c.KeepsReleasing (if again = true then c.setRetry lid false else c) := by
    cases again <;> exact keepsReleasing_of_eq _ _ rfl rfl rfl (by simp [Client.setRetry, hcall])
  rcases hcases with ⟨_,rfl⟩ | ⟨_,rfl⟩ | ⟨_,rfl⟩
  · apply (keepsReleasing_setStatus c lid .locked (by simp)).trans
    cases again <;> exact keepsReleasing_of_eq _ _ rfl rfl rfl
      (by simp [Client.returnOk, Client.setCall, Client.setPc, Client.setHeld])
  · exact hflag.trans (keepsReleasing_retryLoop _ t lid)
  · apply hflag.trans
    exact keepsReleasing_of_eq _ _ rfl rfl rfl
      (by simp [Client.returnOk, Client.setCall, Client.setPc, Client.setHeld])

omit [DecidableEq τ] in
/-- A lock becomes RELEASING: it is in the list, the flag is up and the releaser has
been signalled. -/
theorem releaserOk_releasing (s : LockClientCache τ ℓ) (c : Client τ ℓ) (lid : ℓ) (h : ReleaserOk s)
    (hcall : c.call = none) (hmem : lid ∈ c.revokeList) (hlist : s.client.revokeList ⊆ c.revokeList)
    (hflag : c.revokerThreadStatus = true)
    (hmap : ∀ l, l ≠ lid → c.lockMap l = s.client.lockMap l) :
    ReleaserOk { s with client := c, releaserPc := signalReleaser s.releaserPc } := by
  have hpc : signalReleaser s.releaserPc ≠ .parked := by
    unfold signalReleaser
    split_ifs with hp
    · simp
    · exact hp
  refine ⟨?_, fun l _ => ⟨hflag, hpc⟩, ?_⟩
  · intro l hst
    by_cases hl : l = lid
    · rw [hl]
      exact hmem
    · rw [show c.lockMap l = s.client.lockMap l from hmap l hl] at hst
      exact hlist (h.revoked l hst)
  · intro l p hc
    exact absurd (hcall.symm.trans hc) (by simp)

theorem releaserOk_release (s s' : LockClientCache τ ℓ) (t : τ) (lid : ℓ) (w : Option τ)
    (h : ReleaserOk s) (hs : s.release t lid w = some s') : ReleaserOk s' := by
  obtain ⟨hcall,_,_,⟨hmem,rfl⟩ | ⟨_,q,_,rfl⟩⟩ := anyRelease_cases s s' t lid w hs
  · apply releaserOk_releasing s _ lid h
    · exact hcall
    · exact hmem
    · exact List.Subset.refl _
    · rfl
    · intro l hl
      exact Function.update_of_ne hl _ _
  · have hheld : s.client.KeepsReleasing (s.client.setHeld t lid false) :=
      keepsReleasing_of_eq _ _ rfl rfl rfl fun l p hp => absurd (hcall.symm.trans hp) (by simp)
    exact releaserOk_keeps s _ h (hheld.trans (keepsReleasing_setStatus _ lid .free (by simp))) rfl

omit [DecidableEq τ] in
theorem releaserOk_revoke (s s' : LockClientCache τ ℓ) (lid : ℓ) (h : ReleaserOk s)
    (hs : s.revokeHandler lid = some s') : ReleaserOk s' := by
  obtain ⟨c,hc,rfl⟩ := Option.map_eq_some_iff.mp hs
  obtain ⟨hcall,⟨hfree,rfl⟩ | ⟨hfree,rfl⟩⟩ := revokeHandler_cases _ c lid hc
  · rw [if_pos hfree]
    apply releaserOk_releasing s _ lid h
    · exact hcall
    · simp
    · simp
    · rfl
    · intro l hl
      exact Function.update_of_ne hl _ _
  · rw [if_neg hfree]
    exact ⟨fun l hst => List.mem_append_left _ (h.revoked l hst), h.enabled, h.alone⟩

theorem releaserOk_round (s s' : LockClientCache τ ℓ) (w : Option τ) (h : ReleaserOk s)
    (hone : s.client.OneReleasing) (hs : s.round w = some s') : ReleaserOk s' := by
  obtain ⟨_,⟨hnone,q,_,rfl⟩ | ⟨lid,hmem,hst,rfl⟩⟩ := round_cases s s' w hs
  · have hno : ∀ lid, s.client.lockMap lid ≠ some .releasing := by
      intro lid hst
      exact hnone lid (h.revoked lid hst) hst
    exact ⟨h.revoked, fun lid hlid => absurd hlid (hno lid), fun _ _ _ => hno⟩
  · have hno : ∀ l, ((s.client.setStatus lid .none).setCall
        (some (.release lid .flushing))).lockMap l ≠ some .releasing := by
      intro l hl
      by_cases he : l = lid
      · subst he
        simp [Client.setStatus, Client.setCall] at hl
      · simp only [Client.setStatus, Client.setCall, Function.update_of_ne he] at hl
        exact he (hone l (h.revoked l hl) lid hmem hl hst)
    exact ⟨fun l hl => absurd hl (hno l), fun l hl => absurd hl (hno l), fun _ _ _ => hno⟩

theorem releaserOk_releaser (s s' : LockClientCache τ ℓ) (w : Option τ) (h : ReleaserOk s)
    (hone : s.client.OneReleasing) (hs : s.releaser w = some s') : ReleaserOk s' := by
  rcases parkOrRound_cases s s' w hs with ⟨hflag,rfl⟩ | hround
  · -- the flag is down, so nothing is RELEASING
    have hno : ∀ lid, s.client.lockMap lid ≠ some .releasing := by
      intro lid hst
      exact absurd (hflag.symm.trans (h.enabled lid hst).1) (by simp)
    exact ⟨h.revoked, fun lid hst => absurd hst (hno lid), h.alone⟩
  · exact releaserOk_round s s' w h hone hround

omit [DecidableEq τ] [DecidableEq ℓ] in
theorem releaserOk_releasePhase (s s' : LockClientCache τ ℓ) (p q : RelPhase) (h : ReleaserOk s)
    (hs : s.releasePhase p q = some s') : ReleaserOk s' := by
  obtain ⟨lid,hcall,rfl⟩ := releasePhase_cases s s' p q hs
  exact ⟨h.revoked, h.enabled, fun _ _ _ => h.alone lid p hcall⟩

theorem releaserOk_releaserEnd (s s' : LockClientCache τ ℓ) (w : Option τ) (h : ReleaserOk s)
    (hs : s.releaserEnd w = some s') : ReleaserOk s' := by
  obtain ⟨lid,q,hcall,_,rfl⟩ := roundEnd_cases s s' w hs
  have hno := h.alone lid .answered hcall
  exact ⟨fun l hl => absurd hl (hno l), fun l hl => absurd hl (hno l), fun _ _ _ => hno⟩

theorem releaserOk_step (s : LockClientCache τ ℓ) (a : ClientAct τ ℓ) (s' : LockClientCache τ ℓ)
    (h : ReleaserOk s) (hone : RoundsTakeAll s a) (hs : s.step a = some s') : ReleaserOk s' := by
  cases a with
  | acquire t lid =>
    obtain ⟨c,hc,rfl⟩ := Option.map_eq_some_iff.mp hs
    exact releaserOk_keeps s _ h (keepsReleasing_acquire _ c t lid hc) rfl
  | acquireLoop t =>
    obtain ⟨c,hc,rfl⟩ := loop_cases s s' t hs
    exact releaserOk_keeps s _ h (keepsReleasing_acquireLoop _ c t hc) rfl
  | answer r =>
    obtain ⟨t,lid,again,_,rfl⟩ := answer_cases s s' r hs
    exact releaserOk_keeps s _ h (keepsReleasing_of_eq _ _ rfl rfl rfl (by simp [Client.setCall]))
      rfl
  | acquireReturn =>
    obtain ⟨t,lid,again,p,c,_,hc,rfl⟩ := return_cases s s' hs
    exact releaserOk_keeps s _ h (keepsReleasing_acquireReturn _ c hc) rfl
  | wake t =>
    obtain ⟨lid,_,_,rfl⟩ := retryWoken_cases s s' t hs
    exact releaserOk_keeps s _ h (keepsReleasing_retryLoop _ t lid) rfl
  | release t lid w => exact releaserOk_release s s' t lid w h hs
  | revoke lid => exact releaserOk_revoke s s' lid h hs
  | retry lid =>
    obtain ⟨c,hc,rfl⟩ := Option.map_eq_some_iff.mp hs
    obtain ⟨hcall,rfl⟩ := retryHandler_cases _ c lid hc
    exact releaserOk_keeps s _ h
      (keepsReleasing_of_eq _ _ rfl rfl rfl (by simp [Client.setRetry, hcall])) rfl
  | retrySignal lid w =>
    obtain ⟨q,_,rfl⟩ := retrySignal_cases s s' lid w hs
    exact ⟨h.revoked, h.enabled, h.alone⟩
  | releaser w => exact releaserOk_releaser s s' w h hone hs
  | dorelease | releaseAnswer => exact releaserOk_releasePhase s s' _ _ h hs
  | releaserEnd w => exact releaserOk_releaserEnd s s' w h hs
  | lockWake t | retryWake t =>
    obtain ⟨q,_,rfl⟩ := Option.map_eq_some_iff.mp hs
    exact ⟨h.revoked, h.enabled, h.alone⟩
  | releaserWake =>
    simp only [step, Option.ite_none_right_eq_some, Option.some.injEq] at hs
    rw [← hs.2]
    exact ⟨h.revoked, fun lid hst => ⟨(h.enabled lid hst).1, by simp⟩, h.alone⟩

omit [DecidableEq τ] [DecidableEq ℓ] in
theorem releaserOk_init : ReleaserOk (LockClientCache.init τ ℓ) :=
  ⟨nofun, nofun, nofun⟩

/-- If one lock at most is RELEASING whenever the releaser goes through `revoke_list`,
then a lock in the list that is RELEASING always finds the flag up and the releaser
awake; so the releaser is never parked with one in the list. -/
theorem releaser_leaves_no_lock (acts : List (ClientAct τ ℓ)) (s : LockClientCache τ ℓ)
    (hrun : run step (.init τ ℓ) acts = some s)
    (hone : RunAll step RoundsTakeAll (.init τ ℓ) acts) :
    (s.releaserPc = .parked → ∀ lid ∈ s.client.revokeList, s.client.lockMap lid ≠ some .releasing) ∧
    ∀ lid ∈ s.client.revokeList, s.client.lockMap lid = some .releasing →
      s.client.revokerThreadStatus = true ∧ s.releaserPc ≠ .parked := by
  have h : ReleaserOk s := run_invariant_of_all step RoundsTakeAll ReleaserOk
    (fun s a s' => releaserOk_step s a s') _ s acts releaserOk_init hone hrun
  constructor
  · intro hparked lid _ hst
    exact (h.enabled lid hst).2 hparked
  · intro lid _ hst
    exact h.enabled lid hst

/-- Nothing less will do: a round that starts with two locks RELEASING ends, with no
help from anybody, in a parked releaser and a lock that is still RELEASING. -/
theorem round_of_two_strands_one (s : LockClientCache τ ℓ) (l l' : ℓ) (hcall : s.client.call = none)
    (hpc : s.releaserPc = .woken ∨ s.releaserPc = .top ∧ s.client.revokerThreadStatus = true)
    (hl : l ∈ s.client.revokeList) (hl' : l' ∈ s.client.revokeList)
    (hst : s.client.lockMap l = some .releasing) (hst' : s.client.lockMap l' = some .releasing)
    (hne : l ≠ l') :
    ∃ w s', run step s
    [.releaser none, .dorelease, .releaseAnswer, .releaserEnd w, .releaser none] = some s' ∧
      s'.releaserPc = .parked ∧ s'.client.revokerThreadStatus = false ∧
      ∃ lid ∈ s'.client.revokeList, s'.client.lockMap lid = some .releasing := by
  have hround : s.releaser none = s.round none := by
    rcases hpc with hw | ⟨ht,hflag⟩
    · simp [releaser, hw]
    · simp [releaser, ht, hcall, hflag]
  -- the lock that the round takes, and another one that it leaves
  obtain ⟨c,hc⟩ : ∃ c, s.client.releaser = some c := by
    simp only [Client.releaser, hcall, Option.isSome_none, Bool.false_eq_true, if_false]
    split <;> exact ⟨_, rfl⟩
  obtain ⟨_,⟨hnone,_⟩ | ⟨lid,hmem,_,rfl⟩⟩ := releaser_cases _ c hc
  · exact absurd hst (hnone l hl)
  obtain ⟨other,hother,hstay,hdiff⟩ :
      ∃ x ∈ s.client.revokeList, s.client.lockMap x = some .releasing ∧ x ≠ lid := by
    by_cases hx : l = lid
    · exact ⟨l', hl', hst', fun he => hne (hx.trans he.symm)⟩
    · exact ⟨l, hl, hst, hx⟩
  have hfirst : s.step (.releaser none) = some { s with
      client := (s.client.setStatus lid .none).setCall (some (.release lid .flushing))
      releaserPc := .round } := by
    rw [step, hround]
    simp [LockClientCache.round, hc, Client.setCall]
  obtain ⟨w,q,hq⟩ := s.lockCheckCond.exists_signal
  refine ⟨w, { s with
    client := { (s.client.setStatus lid .none).setCall none with
      revokeList := s.client.revokeList.erase lid
      revokerThreadStatus := false }
    lockCheckCond := q
    releaserPc := .parked }, ?_, rfl, rfl, other, ?_, ?_⟩
  · rw [run, hfirst, Option.bind_some]
    simp [run, step, releasePhase, releaserEnd, Client.releaserEnd, Client.setCall, hq, releaser,
      Client.setStatus]
  · exact (List.mem_erase_of_ne hdiff).mpr hother
  · simpa [Client.setStatus, Client.setCall, hdiff] using hstay

end

/-- Thread 1 takes locks 5 and 6 and frees them. Both are revoked while the releaser
is on its way from its wait: it gives back lock 5, clears the flag and parks. -/
def twoRevokes : List (ClientAct ℕ ℕ) :=
  [.acquire 1 5, .acquireLoop 1, .answer .ok, .acquireReturn, .release 1 5 none,
    .acquire 1 6, .acquireLoop 1, .answer .ok, .acquireReturn, .release 1 6 none,
    .releaser none, .revoke 5, .revoke 6, .releaser none, .dorelease, .releaseAnswer,
      .releaserEnd none,
    .releaser none]

theorem releaser_parked_with_lock :
    ∃ s, run LockClientCache.step (.init ℕ ℕ) twoRevokes = some s ∧ s.releaserPc = .parked ∧
      s.client.revokerThreadStatus = false ∧ 6 ∈ s.client.revokeList ∧
      s.client.lockMap 6 = some .releasing := by
  refine ⟨_, rfl, rfl, rfl, ?_, rfl⟩
  decide

/-- The same with one revoke, which the releaser has dealt with when it parks. -/
theorem releaser_leaves_no_lock_one_revoke :
    ∃ s, run LockClientCache.step (.init ℕ ℕ) (twoRevokes.eraseIdx 12) = some s ∧
      s.releaserPc = .parked ∧
      ∀ lid ∈ s.client.revokeList, s.client.lockMap lid ≠ some .releasing := by
  have hends : ∃ s, run LockClientCache.step (.init ℕ ℕ) (twoRevokes.eraseIdx 12) = some s ∧
      s.releaserPc = .parked := by
    decide
  obtain ⟨s,hrun,hparked⟩ := hends
  have hall : RunAll LockClientCache.step RoundsTakeAll (.init ℕ ℕ) (twoRevokes.eraseIdx 12) := by
    decide
  exact ⟨s, hrun, hparked, (releaser_leaves_no_lock _ s hrun hall).1 hparked⟩

end Yfs.Lock
