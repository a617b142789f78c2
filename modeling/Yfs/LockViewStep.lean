import Yfs.LockView

namespace Yfs.Lock

section
variable {κ τ ℓ ω : Type*} [DecidableEq κ] [DecidableEq τ] [DecidableEq ℓ]

omit [DecidableEq τ] in
theorem view_update (s : Sys κ τ ℓ ω) (i : κ) (c : Client τ ℓ) (srv : Server κ ℓ)
    (an : κ → ℓ → Option Ret) (w : ω) (l : ℓ) :
    Sys.view ⟨Function.update s.clients i c, srv, an, w⟩ l =
      ⟨srv.lockStatusMap l, entriesFor srv.retryList l, entriesFor srv.revokeList l,
        Function.update (s.view l).cl i (c.view l), fun j => an j l⟩ := by
  have hcl : (fun j => (Function.update s.clients i c j).view l) =
      Function.update (fun j => (s.clients j).view l) i (c.view l) := by
    funext j
    by_cases hj : j = i <;> simp [hj]
  simp only [Sys.view, hcl]

theorem vstep_setClient (f : Prop) (s : Sys κ τ ℓ ω) (i : κ) (c : Client τ ℓ) (l : ℓ)
    (h : CStep ((s.clients i).view l) (c.view l)) :
    VStep f (s.view l) ((s.setClient i c).view l) := by
  rw [Sys.setClient, view_update]
  exact .client i _ h

theorem entriesFor_push {γ : Type*} (q : CallQueue (γ × ℓ)) (a : γ) (lid l : ℓ) :
    entriesFor (q.push (a, lid)) l = entriesFor q l ++ if lid = l then [a] else [] := by
  by_cases hl : lid = l <;> simp [entriesFor, hl]

theorem entriesFor_deliver {γ : Type*} (q q' : CallQueue (γ × ℓ)) (a : γ) (lid l : ℓ)
    (h : q.deliver = some ((a, lid), q')) :
    entriesFor q l = if lid = l then a :: entriesFor q' l else entriesFor q' l := by
  have hp := CallQueue.pending_deliver q q' _ h
  by_cases hl : lid = l <;> simp [entriesFor, hp, hl]

theorem entriesFor_pop {γ : Type*} (q q' : CallQueue (γ × ℓ)) (l : ℓ) (h : q.pop = some q') :
    entriesFor q' l = entriesFor q l := by
  rw [entriesFor, CallQueue.pending_pop q q' h, entriesFor]

theorem count_entriesFor {γ : Type*} [BEq γ] [LawfulBEq γ] (q : CallQueue (γ × ℓ)) (lid : ℓ)
    (a : γ) :
    (entriesFor q lid).count a = q.pending.count (a, lid) := by
  unfold entriesFor
  induction q.pending with
  | nil => rfl
  | cons x xs ih =>
    obtain ⟨b,l⟩ := x
    by_cases hl : l = lid
    · subst hl
      by_cases hb : b = a <;> simp [hb, ih, List.count_cons_of_ne]
    · simp [hl, ih, List.count_cons_of_ne]

theorem answered_update (f : κ → ℓ → Option Ret) (i : κ) (lid l : ℓ) (r : Option Ret) :
    (fun j => Function.update f i (Function.update (f i) lid r) j l) =
      if l = lid then Function.update (fun j => f j l) i r else fun j => f j l := by
  funext j
  by_cases hl : l = lid <;> by_cases hj : j = i <;> simp [hl, hj]

theorem server_acquire_spec (s s' : Server κ ℓ) (lid : ℓ) (i : κ) (r : Ret)
    (h : s.acquire lid i = some (s', r)) :
    r = (acquireEntry (s.lockStatusMap lid) i).ret ∧ s'.retryList = s.retryList ∧
    s'.lockStatusMap = Function.update s.lockStatusMap lid
      (some (acquireEntry (s.lockStatusMap lid) i).entry) ∧
    ∀ l, entriesFor s'.revokeList l = entriesFor s.revokeList l ++
      if lid = l then (acquireEntry (s.lockStatusMap lid) i).revoke.toList else [] := by
  unfold Server.acquire at h
  split_ifs at h
  cases h
  refine ⟨rfl, rfl, rfl, fun l => ?_⟩
  cases (acquireEntry (s.lockStatusMap lid) i).revoke with
  | none => simp
  | some c => simp [entriesFor_push]

theorem server_release_spec (s s' : Server κ ℓ) (lid : ℓ) (i : κ) (r : Option Ret)
    (h : s.release lid i = some (s', r)) :
    (s' = s ∧ ∀ e, s.lockStatusMap lid = some e → e.status ≠ .locked) ∨
    ∃ e, s.lockStatusMap lid = some e ∧ e.status = .locked ∧ s'.revokeList = s.revokeList ∧
      s'.lockStatusMap = Function.update s.lockStatusMap lid (some (releaseEntry e i).1) ∧
      ∀ l, entriesFor s'.retryList l = entriesFor s.retryList l ++
        if lid = l then (releaseEntry e i).2.toList else [] := by
  unfold Server.release at h
  split at h
  · next he =>
    cases h
    exact Or.inl ⟨rfl, fun e h => absurd (he.symm.trans h) (by simp)⟩
  · next e he =>
    split_ifs at h with hst hm <;> cases h
    · refine Or.inr ⟨e, he, hst, rfl, rfl, fun l => ?_⟩
      cases (releaseEntry e i).2 with
      | none => simp
      | some w => simp [entriesFor_push]
    · exact Or.inl ⟨rfl, fun e' h => Option.some.inj (he.symm.trans h) ▸ hst⟩

theorem serverAcquire_vstep (f : Prop) (s : Sys κ τ ℓ ω) (i : κ) (t : τ) (lid l : ℓ) (again : Bool)
    (srv : Server κ ℓ) (r : Ret) (hc : (s.clients i).call = some (.acquire t lid again .sent))
    (h : s.server.acquire lid i = some (srv, r)) :
    VStep f (s.view l) (Sys.view
      { s.setCall i (.acquire t lid again (.answered r)) with
        server := srv
        answered := Function.update s.answered i (Function.update (s.answered i) lid (some r)) }
          l) := by
  have hv := callOn_acquire (s.clients i) t lid l again _ hc
  obtain ⟨hr,hret,hmap,hrev⟩ := server_acquire_spec _ _ _ _ _ h
  simp only [Sys.setCall, Sys.setClient]
  rw [view_update, hret, hmap, hrev, answered_update, view_setCall, callOn_setCall_acquire]
  by_cases hl : l = lid
  · subst hl
    rw [if_pos rfl] at hv
    rw [Function.update_self, if_pos rfl, if_pos rfl, if_pos rfl, hr]
    exact .acquire i t again hv
  · rw [if_neg (Ne.symm hl)] at hv
    rw [Function.update_of_ne hl, if_neg (Ne.symm hl), if_neg hl, if_neg (Ne.symm hl), ← hv,
      List.append_nil]
    exact .client i _ .stay

theorem serverRelease_vstep (f : Prop) (s : Sys κ τ ℓ ω) (i : κ) (lid l : ℓ) (srv : Server κ ℓ)
    (r : Option Ret) (hc : (s.clients i).call = some (.release lid .sent))
    (h : s.server.release lid i = some (srv, r)) :
    VStep f (s.view l)
    (Sys.view { s.setCall i (.release lid .answered) with server := srv } l) := by
  have hv := callOn_release (s.clients i) lid l _ hc
  simp only [Sys.setCall, Sys.setClient]
  rw [view_update, view_setCall, callOn_setCall_release]
  by_cases hl : l = lid
  · subst hl
    rw [if_pos rfl] at hv
    rw [if_pos rfl]
    rcases server_release_spec _ _ _ _ _ h with ⟨hs,he⟩ | ⟨e,he,hst,hrev,hmap,hret⟩
    · rw [hs]
      exact .refused i hv he
    · rw [hrev, hmap, hret, if_pos rfl, Function.update_self]
      exact .release i e hv he hst
  · rw [if_neg (Ne.symm hl)] at hv
    rw [if_neg (Ne.symm hl), ← hv]
    rcases server_release_spec _ _ _ _ _ h with ⟨hs,_⟩ | ⟨e,_,_,hrev,hmap,hret⟩
    · rw [hs]
      exact .client i _ .stay
    · rw [hrev, hmap, hret, if_neg (Ne.symm hl), Function.update_of_ne hl, List.append_nil]
      exact .client i _ .stay

omit [DecidableEq τ] in
theorem revokeHandler_view (c c' : Client τ ℓ) (lid : ℓ) (h : c.revokeHandler lid = some c') :
    (∀ l, (c.view l).call = none) ∧ (c.view lid).st ≠ none ∧ (∀ l, l ≠ lid → c'.view l = c.view l) ∧
    c'.view lid = { c.view lid with
      st := if (c.view lid).st = some .free then some .releasing else (c.view lid).st
      revoked := (c.view lid).revoked+1 } := by
  unfold Client.revokeHandler at h
  split_ifs at h with h0
  refine ⟨fun l => callOn_eq_none c l h0, ?_⟩
  split at h
  · cases h
  · next hst =>
    cases h
    refine ⟨by simp [Client.view, hst], fun l hl => ?_, ?_⟩
    · ext <;> simp [Client.view, Client.setStatus, Client.callOn, hl, Ne.symm hl]
    · ext <;> simp [Client.view, Client.setStatus, Client.callOn, hst]
  · next st hfree hst =>
    cases h
    refine ⟨by simp [Client.view, hst], fun l hl => ?_, ?_⟩
    · ext <;> simp [Client.view, Client.callOn, Ne.symm hl]
    · have hne : st ≠ .free := hfree
      ext <;> simp [Client.view, Client.callOn, hst, hne]

theorem revoke_vstep (f : Prop) (s : Sys κ τ ℓ ω) (i : κ) (lid l : ℓ) (q : CallQueue (Option κ × ℓ))
    (c : Client τ ℓ) (hq : s.server.revokeList.deliver = some ((some i, lid), q))
    (h : (s.clients i).revokeHandler lid = some c) :
    VStep f (s.view l) (Sys.view
      { s.setClient i c with server := { s.server with revokeList := q } } l) := by
  obtain ⟨hc,hst,hne,hv⟩ := revokeHandler_view _ c lid h
  have hrev := entriesFor_deliver _ _ _ _ l hq
  simp only [Sys.setClient]
  rw [view_update]
  by_cases hl : l = lid
  · subst hl
    rw [if_pos rfl] at hrev
    rw [hv]
    exact .revoke i _ hrev (hc l) hst
  · rw [if_neg (Ne.symm hl)] at hrev
    rw [hne l hl]
    dsimp only
    rw [← hrev]
    exact .client i _ .stay

theorem retry_vstep (f : Prop) (s : Sys κ τ ℓ ω) (i : κ) (lid l : ℓ) (q : CallQueue (κ × ℓ))
    (c : Client τ ℓ) (hq : s.server.retryList.deliver = some ((i, lid), q))
    (h : (s.clients i).retryHandler lid = some c) :
    VStep f (s.view l) (Sys.view
      { s.setClient i c with server := { s.server with retryList := q } } l) := by
  unfold Client.retryHandler at h
  split_ifs at h with h0
  cases h
  have hret := entriesFor_deliver _ _ _ _ l hq
  simp only [Sys.setClient]
  rw [view_update, view_setRetry]
  by_cases hl : l = lid
  · subst hl
    rw [if_pos rfl] at hret
    rw [if_pos rfl]
    exact .retry i _ hret (callOn_eq_none _ l h0)
  · rw [if_neg (Ne.symm hl)] at hret
    rw [if_neg hl]
    dsimp only
    rw [← hret]
    exact .client i _ .stay

theorem dorelease_vstep (s : Sys κ τ ℓ ω) (i : κ) (lid l : ℓ) (w : ω)
    (hc : (s.clients i).call = some (.release lid .flushing)) :
    VStep (∃ j, (.dorelease i : Act κ τ ℓ) = .dorelease j) (s.view l)
      (Sys.view { s.setCall i (.release lid .sent) with world := w } l) := by
  have hv := callOn_release (s.clients i) lid l _ hc
  simp only [Sys.setCall, Sys.setClient]
  rw [view_update, view_setCall, callOn_setCall_release]
  by_cases hl : l = lid
  · subst hl
    rw [if_pos rfl] at hv ⊢
    exact .flushed i ⟨i, rfl⟩ hv
  · rw [if_neg (Ne.symm hl)] at hv ⊢
    rw [← hv]
    exact .client i _ .stay

/-- Every step changes the view of every lock in one of the ways of `VStep`. -/
theorem view_step (dorelease : κ → ℓ → ω → Option ω) (s s' : Sys κ τ ℓ ω) (a : Act κ τ ℓ) (l : ℓ)
    (hok : ∀ i, (s.clients i).CallOk) (h : step dorelease s a = some s') :
    VStep (∃ i, a = .dorelease i) (s.view l) (s'.view l) := by
  cases sysStep_of_step h with
  | acquire i t lid c hc => exact vstep_setClient _ s i c l (acquire_cstep _ c t lid l hc)
  | acquireLoop i t c hc => exact vstep_setClient _ s i c l (acquireLoop_cstep _ c t l hc)
  | serverAcquire i t lid again srv r hcall hr =>
    exact serverAcquire_vstep _ s i t lid l again srv r hcall hr
  | acquireReturn i c hc => exact vstep_setClient _ s i c l (acquireReturn_cstep _ c l (hok i) hc)
  | wake i t c hc => exact vstep_setClient _ s i c l (wake_cstep _ c t l hc)
  | release i t lid c hc => exact vstep_setClient _ s i c l (release_cstep _ c t lid l hc)
  | revoke i lid q c hq hc => exact revoke_vstep _ s i lid l q c hq hc
  | revokePop q hq =>
    have hv : entriesFor q l = entriesFor s.server.revokeList l := entriesFor_pop _ q l hq
    simpa only [Sys.view, hv] using VStep.stay (v := s.view l)
  | retry i lid q c hq hc => exact retry_vstep _ s i lid l q c hq hc
  | retryPop q hq =>
    have hv : entriesFor q l = entriesFor s.server.retryList l := entriesFor_pop _ q l hq
    simpa only [Sys.view, hv] using VStep.stay (v := s.view l)
  | releaser i c hc => exact vstep_setClient _ s i c l (releaser_cstep _ c l hc)
  | dorelease i lid w hcall hw => exact dorelease_vstep s i lid l w hcall
  | serverRelease i lid srv r hcall hr => exact serverRelease_vstep _ s i lid l srv r hcall hr
  | releaserEnd i c hc => exact vstep_setClient _ s i c l (releaserEnd_cstep _ c l hc)

omit [DecidableEq τ] [DecidableEq ℓ] in
theorem callOk_of_none (c : Client τ ℓ) (h : c.call = none) : c.CallOk := by
  intro t lid again p hc
  rw [h] at hc
  cases hc

omit [DecidableEq ℓ] in
theorem callOk_callToServer (c : Client τ ℓ) (t : τ) (lid : ℓ) (again : Bool) :
    (c.callToServer t lid again).CallOk := by
  intro u l b p hc
  cases hc
  exact Function.update_self ..

theorem callOk_retryLoop (c : Client τ ℓ) (t : τ) (lid : ℓ) : (c.retryLoop t lid).CallOk := by
  unfold Client.retryLoop
  split_ifs
  · exact callOk_of_none _ rfl
  · exact callOk_callToServer _ t lid true

omit [DecidableEq τ] [DecidableEq ℓ] in
theorem callOk_release (c : Client τ ℓ) (lid : ℓ) (p : RelPhase)
    (h : c.call = some (.release lid p)) :
    c.CallOk := by
  intro t l again q hc
  rw [h] at hc
  cases hc

theorem callOk_acquireLoop (c c' : Client τ ℓ) (t : τ) (h : c.acquireLoop t = some c') :
    c'.CallOk := by
  unfold Client.acquireLoop at h
  split at h
  · split_ifs at h with h0
    split at h <;> cases h
    · exact callOk_callToServer _ _ _ _
    · exact callOk_of_none _ rfl
    · exact callOk_of_none _ (by simpa using h0)
  · cases h

theorem callOk_acquireReturn (c c' : Client τ ℓ) (h : c.acquireReturn = some c') : c'.CallOk := by
  unfold Client.acquireReturn at h
  split at h
  · split at h <;> cases h
    · exact callOk_of_none _ rfl
    · exact callOk_retryLoop _ _ _
    · exact callOk_of_none _ rfl
  · split at h <;> cases h
    · exact callOk_of_none _ rfl
    · exact callOk_retryLoop _ _ _
    · exact callOk_of_none _ rfl
  · cases h

theorem callOk_acquire (c c' : Client τ ℓ) (t : τ) (lid : ℓ) (h : c.acquire t lid = some c') :
    c'.CallOk := by
  unfold Client.acquire at h
  split_ifs at h with h0
  push Not at h0
  have hn : c.call = none := by simpa using h0.1
  split at h <;> cases h
  · exact callOk_of_none _ hn
  · exact callOk_of_none _ hn

theorem callOk_clientRelease (c c' : Client τ ℓ) (t : τ) (lid : ℓ) (h : c.release t lid = some c') :
    c'.CallOk := by
  unfold Client.release at h
  split_ifs at h with h0 hr <;> push Not at h0 <;> cases h
  all_goals
    have hn : c.call = none := by simpa using h0.1
    exact callOk_of_none _ hn

section
omit [DecidableEq τ]

theorem callOk_revokeHandler (c c' : Client τ ℓ) (lid : ℓ) (h : c.revokeHandler lid = some c') :
    c'.CallOk := by
  unfold Client.revokeHandler at h
  split_ifs at h with h0
  have hn : c.call = none := by simpa using h0
  split at h <;> cases h
  · exact callOk_of_none _ hn
  · exact callOk_of_none _ hn

theorem callOk_retryHandler (c c' : Client τ ℓ) (lid : ℓ) (h : c.retryHandler lid = some c') :
    c'.CallOk := by
  unfold Client.retryHandler at h
  split_ifs at h with h0
  have hn : c.call = none := by simpa using h0
  cases h
  exact callOk_of_none _ hn

theorem callOk_releaser (c c' : Client τ ℓ) (h : c.releaser = some c') : c'.CallOk := by
  unfold Client.releaser at h
  split_ifs at h with h0
  split at h <;> cases h
  · exact callOk_of_none _ (by simpa using h0)
  · exact callOk_release _ _ _ rfl

omit [DecidableEq ℓ] in
theorem callOk_setClient (s : Sys κ τ ℓ ω) (i : κ) (c : Client τ ℓ)
    (hok : ∀ i, (s.clients i).CallOk) (hc : c.CallOk) (j : κ) :
    ((s.setClient i c).clients j).CallOk := by
  by_cases hj : j = i
  · subst hj
    simpa only [Sys.setClient, Function.update_self] using hc
  · simpa only [Sys.setClient, Function.update_of_ne hj] using hok j

end

/-- Every critical section leaves the client with at most the call it makes. -/
theorem callOk_step (dorelease : κ → ℓ → ω → Option ω) (s s' : Sys κ τ ℓ ω) (a : Act κ τ ℓ)
    (hok : ∀ i, (s.clients i).CallOk) (h : step dorelease s a = some s') :
    ∀ i, (s'.clients i).CallOk := by
  cases sysStep_of_step h with
  | acquire i t lid c hc => exact callOk_setClient s i c hok (callOk_acquire _ c t lid hc)
  | acquireLoop i t c hc => exact callOk_setClient s i c hok (callOk_acquireLoop _ c t hc)
  | serverAcquire i t lid again srv r hcall hr =>
    refine callOk_setClient s i _ hok ?_
    intro u l b p hu
    cases hu
    exact hok i _ _ _ _ hcall
  | acquireReturn i c hc => exact callOk_setClient s i c hok (callOk_acquireReturn _ c hc)
  | wake i t c hc =>
    refine callOk_setClient s i c hok ?_
    unfold Client.wake at hc
    split at hc
    · split_ifs at hc
      cases hc
      exact callOk_retryLoop _ _ _
    · cases hc
  | release i t lid c hc => exact callOk_setClient s i c hok (callOk_clientRelease _ c t lid hc)
  | revoke i lid q c hq hc => exact callOk_setClient s i c hok (callOk_revokeHandler _ c lid hc)
  | revokePop | retryPop => exact hok
  | retry i lid q c hq hc => exact callOk_setClient s i c hok (callOk_retryHandler _ c lid hc)
  | releaser i c hc => exact callOk_setClient s i c hok (callOk_releaser _ c hc)
  | dorelease i => exact callOk_setClient s i _ hok (callOk_release _ _ _ rfl)
  | serverRelease i => exact callOk_setClient s i _ hok (callOk_release _ _ _ rfl)
  | releaserEnd i c hc =>
    refine callOk_setClient s i c hok ?_
    unfold Client.releaserEnd at hc
    split at hc <;> cases hc
    exact callOk_of_none _ rfl

end
end Yfs.Lock
