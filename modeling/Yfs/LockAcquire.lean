import Yfs.LockClientCond

namespace Yfs.Lock

def Pc.lid {ℓ : Type*} : Pc ℓ → Option ℓ
  | .idle => none
  | .looping lid => some lid
  | .calling lid => some lid
  | .retrying lid => some lid

section
variable {τ ℓ : Type*} [DecidableEq τ] [DecidableEq ℓ]
open LockClientCache

/-- The `acquire` of thread `t` returns in the step, with OK. -/
def AcquireReturns (s s' : LockClientCache τ ℓ) (t : τ) (lid : ℓ) : Prop :=
  (s.client.pc t).lid = some lid ∧ s'.client.pc t = .idle

/-- It returns with a lock that was cached or has just been granted, and that it has set to
LOCKED itself. -/
structure ReturnsLocked (s s' : LockClientCache τ ℓ) (a : ClientAct τ ℓ) (t : τ) (lid : ℓ) :
    Prop where
  locked : s'.client.lockMap lid = some .locked
  before : s.client.lockMap lid ≠ some .locked
  source : (a = .acquireLoop t ∧ s.client.lockMap lid = some .free) ∨
    (a = .acquireReturn ∧ ∃ again, s.client.call = some (.acquire t lid again (.answered .ok)))

/-- The thread parks until a retry comes in, or asks again. -/
structure AsksAgain (s : LockClientCache τ ℓ) (t : τ) (lid : ℓ) : Prop where
  status : s.client.lockMap lid = some .acquiring
  pc : s.client.pc t = .retrying lid ∨ s.client.pc t = .calling lid

/-- The call in progress is one of thread `t` for the lock. -/
def Call.isOf (t : τ) (lid : ℓ) : Call τ ℓ → Bool
  | .acquire t' lid' _ _ => t' = t ∧ lid' = lid
  | .release .. => false

/-- The RPCs of this `acquire` are answered with OK or RETRY. -/
def OkOrRetry (t : τ) (lid : ℓ) (s : LockClientCache τ ℓ) : ClientAct τ ℓ → Prop
  | .answer (.other _) => s.client.call.any (Call.isOf t lid) = false
  | _ => True

instance decidableOkOrRetry (t : τ) (lid : ℓ) (s : LockClientCache τ ℓ) :
    ∀ a, Decidable (OkOrRetry t lid s a)
  | .answer (.other _) => inferInstanceAs (Decidable (s.client.call.any (Call.isOf t lid) = false))
  | .answer .ok | .answer .retry | .acquire .. | .acquireLoop _ | .acquireReturn | .wake _
  | .release .. | .revoke _ | .retry _ | .retrySignal .. | .releaser _ | .dorelease
  | .releaseAnswer | .releaserEnd _ | .lockWake _ | .retryWake _ | .releaserWake => isTrue trivial

/-- A section of `release`, of a handler or of the releaser: it makes no request for a lock,
and a lock that is ACQUIRING stays so unless it is released. -/
structure Client.Aside (a : ClientAct τ ℓ) (c c' : Client τ ℓ) : Prop where
  pc : c'.pc = c.pc
  call : ∀ t lid again p, c'.call = some (.acquire t lid again p) → c' = c
  status : ∀ lid, (∀ t w, a ≠ .release t lid w) → c.lockMap lid = some .acquiring →
    c'.lockMap lid = some .acquiring

omit [DecidableEq τ] [DecidableEq ℓ] in
theorem aside_refl (a : ClientAct τ ℓ) (c : Client τ ℓ) : c.Aside a c :=
  ⟨rfl,fun _ _ _ _ _ => rfl,fun _ _ h => h⟩

omit [DecidableEq τ] in
/-- Without an RPC, and with the status of one lock changed at most. -/
theorem aside_of_status (a : ClientAct τ ℓ) (c c' : Client τ ℓ) (lid : ℓ) (hpc : c'.pc = c.pc)
    (hcall : ∀ t l again p, c'.call ≠ some (.acquire t l again p))
    (hmap : ∀ l, l ≠ lid → c'.lockMap l = c.lockMap l)
    (hlid : c.lockMap lid ≠ some .acquiring ∨ ∃ t w, a = .release t lid w) : c.Aside a c' := by
  refine ⟨hpc,fun t l again p h => absurd h (hcall t l again p),fun l ha hl => ?_⟩
  by_cases he : l = lid
  · subst he
    rcases hlid with hne | ⟨t,w,rfl⟩
    · exact absurd hl hne
    · exact absurd rfl (ha t w)
  · rw [hmap l he, hl]

theorem aside_release (s s' : LockClientCache τ ℓ) (t : τ) (lid : ℓ) (w : Option τ)
    (h : s.release t lid w = some s') : s.client.Aside (.release t lid w) s'.client := by
  obtain ⟨hcall,_,_,hcases⟩ := anyRelease_cases s s' t lid w h
  have hnone : ∀ t' l again p, s.client.call ≠ some (.acquire t' l again p) := by simp [hcall]
  rcases hcases with ⟨_,rfl⟩ | ⟨_,q,_,rfl⟩
  · exact aside_of_status _ _ _ lid rfl hnone (fun l hl => Function.update_of_ne hl _ _)
      (.inr ⟨t,w,rfl⟩)
  · exact aside_of_status _ _ _ lid rfl hnone (fun l hl => Function.update_of_ne hl _ _)
      (.inr ⟨t,w,rfl⟩)

omit [DecidableEq τ] in
theorem aside_revoke (s s' : LockClientCache τ ℓ) (lid : ℓ) (h : s.revokeHandler lid = some s') :
    s.client.Aside (.revoke lid) s'.client := by
  obtain ⟨c,hc,rfl⟩ := Option.map_eq_some_iff.mp h
  obtain ⟨hcall,hcases⟩ := revokeHandler_cases _ c lid hc
  have hnone : ∀ t' l again p, s.client.call ≠ some (.acquire t' l again p) := by simp [hcall]
  rcases hcases with ⟨hfree,rfl⟩ | ⟨_,rfl⟩
  · exact aside_of_status _ _ _ lid rfl hnone (fun l hl => Function.update_of_ne hl _ _)
      (.inl (by simp [hfree]))
  · exact ⟨rfl,fun t l again p hc => absurd hc (hnone t l again p),fun _ _ hl => hl⟩

theorem aside_round (s s' : LockClientCache τ ℓ) (w : Option τ) (h : s.round w = some s') :
    s.client.Aside (.releaser w) s'.client := by
  obtain ⟨hcall,⟨_,q,_,rfl⟩ | ⟨lid,_,hst,rfl⟩⟩ := round_cases s s' w h
  · exact ⟨rfl,fun t l again p hc => absurd (hcall.symm.trans hc) (by simp),fun _ _ hl => hl⟩
  · exact aside_of_status _ _ _ lid rfl (by simp [Client.setCall])
      (fun l hl => Function.update_of_ne hl _ _)
      (.inl (by simp [hst]))

omit [DecidableEq τ] [DecidableEq ℓ] in
theorem aside_releasePhase (s s' : LockClientCache τ ℓ) (a : ClientAct τ ℓ) (p q : RelPhase)
    (h : s.releasePhase p q = some s') : s.client.Aside a s'.client := by
  obtain ⟨lid,_,rfl⟩ := releasePhase_cases s s' p q h
  exact ⟨rfl,fun t l again p hc => absurd hc (by simp [Client.setCall]),fun _ _ hl => hl⟩

/-- A step belongs to a thread in `acquire`, or to none. -/
inductive AcquireStep (c : Client τ ℓ) : ClientAct τ ℓ → Client τ ℓ → Prop
  | start (t : τ) (lid : ℓ) (c' : Client τ ℓ) (h : c.acquire t lid = some c') :
    AcquireStep c (.acquire t lid) c'
  | loop (t : τ) (c' : Client τ ℓ) (h : c.acquireLoop t = some c') :
      AcquireStep c (.acquireLoop t) c'
  | answer (r : Ret) (t : τ) (lid : ℓ) (again : Bool)
      (h : c.call = some (.acquire t lid again .sent)) :
    AcquireStep c (.answer r) (c.setCall (some (.acquire t lid again (.answered r))))
  | goOn (c' : Client τ ℓ) (h : c.acquireReturn = some c') : AcquireStep c .acquireReturn c'
  | wake (t : τ) (lid : ℓ) (hpc : c.pc t = .retrying lid) (hcall : c.call = none) :
    AcquireStep c (.wake t) (c.retryLoop t lid)
  | aside (a : ClientAct τ ℓ) (c' : Client τ ℓ) (h : c.Aside a c') : AcquireStep c a c'

theorem acquireStep_of_step (s s' : LockClientCache τ ℓ) (a : ClientAct τ ℓ)
    (h : s.step a = some s') :
    AcquireStep s.client a s'.client := by
  cases a with
  | acquire t lid =>
    obtain ⟨c,hc,rfl⟩ := Option.map_eq_some_iff.mp h
    exact .start t lid c hc
  | acquireLoop t =>
    obtain ⟨c,hc,rfl⟩ := loop_cases s s' t h
    exact .loop t c hc
  | answer r =>
    obtain ⟨t,lid,again,hc,rfl⟩ := answer_cases s s' r h
    exact .answer r t lid again hc
  | acquireReturn =>
    obtain ⟨_,_,_,_,c,_,hc,rfl⟩ := return_cases s s' h
    exact .goOn c hc
  | wake t =>
    obtain ⟨lid,hpc,hcall,rfl⟩ := retryWoken_cases s s' t h
    exact .wake t lid hpc hcall
  | release t lid w => exact .aside _ _ (aside_release s s' t lid w h)
  | revoke lid => exact .aside _ _ (aside_revoke s s' lid h)
  | retry lid =>
    obtain ⟨c,hc,rfl⟩ := Option.map_eq_some_iff.mp h
    obtain ⟨hcall,rfl⟩ := retryHandler_cases _ c lid hc
    exact .aside _ _ ⟨rfl,fun t l again p hc => absurd (hcall.symm.trans hc) (by simp),
      fun _ _ hl => hl⟩
  | retrySignal lid w =>
    obtain ⟨q,_,rfl⟩ := retrySignal_cases s s' lid w h
    exact .aside _ _ (aside_refl _ _)
  | releaser w =>
    rcases parkOrRound_cases s s' w h with ⟨_,rfl⟩ | hround
    · exact .aside _ _ (aside_refl _ _)
    · exact .aside _ _ (aside_round s s' w hround)
  | dorelease => exact .aside _ _ (aside_releasePhase s s' _ _ _ h)
  | releaseAnswer => exact .aside _ _ (aside_releasePhase s s' _ _ _ h)
  | releaserEnd w =>
    obtain ⟨lid,q,_,_,rfl⟩ := roundEnd_cases s s' w h
    exact .aside _ _ ⟨rfl,nofun,fun _ _ hl => hl⟩
  | lockWake t =>
    obtain ⟨q,_,rfl⟩ := Option.map_eq_some_iff.mp h
    exact .aside _ _ (aside_refl _ _)
  | retryWake t =>
    obtain ⟨q,_,rfl⟩ := Option.map_eq_some_iff.mp h
    exact .aside _ _ (aside_refl _ _)
  | releaserWake =>
    simp only [step, Option.ite_none_right_eq_some, Option.some.injEq] at h
    obtain ⟨_,rfl⟩ := h
    exact .aside _ _ (aside_refl _ _)

/-- A request has just been sent: the thread is in `call_to_server`, and the status of the
lock is the one with which it calls. -/
structure Client.Sends (c : Client τ ℓ) (t : τ) (lid : ℓ) (again : Bool) (p : AcqPhase) : Prop where
  phase : p = .sent
  pc : c.pc t = .calling lid
  status : c.lockMap lid = some (if again = true then .acquiring else .none)

omit [DecidableEq ℓ] in
theorem sends_callToServer (c : Client τ ℓ) (u : τ) (l : ℓ) (b : Bool)
    (hst : c.lockMap l = some (if b = true then .acquiring else .none)) {t : τ} {lid : ℓ}
    {again : Bool} {p : AcqPhase}
    (hp : (c.callToServer u l b).call = some (.acquire t lid again p)) :
    (c.callToServer u l b).Sends t lid again p := by
  cases hp
  exact ⟨rfl,Function.update_self _ _ _,hst⟩

theorem sends_retryLoop (c : Client τ ℓ) (u : τ) (l : ℓ) {t : τ} {lid : ℓ} {again : Bool}
    {p : AcqPhase} (hp : (c.retryLoop u l).call = some (.acquire t lid again p)) :
    (c.retryLoop u l).Sends t lid again p := by
  unfold Client.retryLoop at hp ⊢
  split_ifs at hp ⊢
  · exact nomatch hp
  · exact sends_callToServer _ u l true (by simp [Client.setStatus]) hp

/-- Where the request in progress comes from. -/
theorem call_after {c c' : Client τ ℓ} {a : ClientAct τ ℓ} (h : AcquireStep c a c') {t : τ}
    {lid : ℓ} {again : Bool} {p : AcqPhase} (hp : c'.call = some (.acquire t lid again p)) :
    c' = c ∨ c'.Sends t lid again p ∨ ∃ r, a = .answer r ∧ p = .answered r ∧
      c.call = some (.acquire t lid again .sent) ∧
      c' = c.setCall (some (.acquire t lid again (.answered r))) := by
  cases h with
  | start u l c' h =>
    obtain ⟨hcall,_,⟨_,rfl⟩ | ⟨_,rfl⟩⟩ := acquire_cases c c' u l h
    · exact nomatch hcall.symm.trans hp
    · exact nomatch hcall.symm.trans hp
  | loop u c' h =>
    obtain ⟨l,_,hcall,⟨hst,rfl⟩ | ⟨_,rfl⟩ | ⟨_,_,_,rfl⟩⟩ := acquireLoop_cases c c' u h
    · exact .inr (.inl (sends_callToServer c u l false (by simp [hst]) hp))
    · exact nomatch hp
    · exact .inl rfl
  | answer r u l b h =>
    cases hp
    exact .inr (.inr ⟨r,rfl,rfl,h,rfl⟩)
  | goOn c' h =>
    obtain ⟨u,l,b,r,_,⟨_,rfl⟩ | ⟨_,rfl⟩ | ⟨_,rfl⟩⟩ := acquireReturn_cases c c' h
    · exact nomatch hp
    · exact .inr (.inl (sends_retryLoop _ u l hp))
    · exact nomatch hp
  | wake u l => exact .inr (.inl (sends_retryLoop c u l hp))
  | aside _ c' h => exact .inl (h.call t lid again p hp)

/-- The thread is in `call_to_server`, and the status of the lock is still the one with which
it called. -/
structure Client.InCall (c : Client τ ℓ) : Prop where
  pc : ∀ t lid again p, c.call = some (.acquire t lid again p) → c.pc t = .calling lid
  status : ∀ t lid again p, c.call = some (.acquire t lid again p) →
    c.lockMap lid = some (if again = true then .acquiring else .none)

omit [DecidableEq τ] [DecidableEq ℓ] in
theorem inCall_of_none {c : Client τ ℓ} (h : c.call = none) : c.InCall where
  pc _ _ _ _ hc := nomatch h.symm.trans hc
  status _ _ _ _ hc := nomatch h.symm.trans hc

theorem inCall_step {c c' : Client τ ℓ} {a : ClientAct τ ℓ} (h : AcquireStep c a c')
    (hc : c.InCall) : c'.InCall where
  pc t lid again p hp := by
    rcases call_after h hp with heq | hsends | ⟨r,_,_,hcall,heq⟩
    · rw [heq] at hp ⊢
      exact hc.pc t lid again p hp
    · exact hsends.pc
    · rw [heq]
      exact hc.pc t lid again _ hcall
  status t lid again p hp := by
    rcases call_after h hp with heq | hsends | ⟨r,_,_,hcall,heq⟩
    · rw [heq] at hp ⊢
      exact hc.status t lid again p hp
    · exact hsends.status
    · rw [heq]
      exact hc.status t lid again _ hcall

/-- The RPC of thread `t` for `lid`, if there is one, has not been answered with anything but
OK and RETRY. -/
def Client.NoOther (t : τ) (lid : ℓ) (c : Client τ ℓ) : Prop :=
  ∀ again code, c.call ≠ some (.acquire t lid again (.answered (.other code)))

theorem noOther_step {t : τ} {lid : ℓ} {s s' : LockClientCache τ ℓ} {a : ClientAct τ ℓ}
    (h : s.step a = some s')
    (hok : OkOrRetry t lid s a) (hc : s.client.NoOther t lid) : s'.client.NoOther t lid := by
  intro again code hp
  rcases call_after (acquireStep_of_step s s' a h) hp with heq | hsends | ⟨r,rfl,hr,hcall,_⟩
  · exact hc again code (heq ▸ hp)
  · exact nomatch hsends.phase
  · cases hr
    simp [OkOrRetry, hcall, Call.isOf] at hok

theorem retryLoop_pc (c : Client τ ℓ) (t : τ) (lid : ℓ) :
    (c.retryLoop t lid).pc t = .retrying lid ∨ (c.retryLoop t lid).pc t = .calling lid := by
  unfold Client.retryLoop
  split_ifs
  · exact .inl (Function.update_self _ _ _)
  · exact .inr (Function.update_self _ _ _)

theorem retryLoop_status (c : Client τ ℓ) (t : τ) (lid : ℓ) :
    (c.retryLoop t lid).lockMap lid = some .acquiring := by
  unfold Client.retryLoop
  split_ifs
  · exact Function.update_self _ _ _
  · exact Function.update_self _ _ _

theorem retryLoop_pc_of_ne (c : Client τ ℓ) {t u : τ} (lid : ℓ) (h : u ≠ t) :
    (c.retryLoop t lid).pc u = c.pc u := by
  unfold Client.retryLoop
  split_ifs
  · exact Function.update_of_ne h _ _
  · exact Function.update_of_ne h _ _

/-- Only a step of its own ends the `acquire` of a thread: the lock is FREE, or the server has
answered and not with RETRY. -/
theorem acquire_ends {c c' : Client τ ℓ} {a : ClientAct τ ℓ} {t : τ} (h : AcquireStep c a c')
    (hin : c.pc t ≠ .idle) (hidle : c'.pc t = .idle) :
    (∃ lid, a = .acquireLoop t ∧ c.pc t = .looping lid ∧ c.lockMap lid = some .free ∧
      c'.lockMap lid = some .locked) ∨
    (∃ lid again r, a = .acquireReturn ∧ c.call = some (.acquire t lid again (.answered r)) ∧
      (r = .ok ∧ c'.lockMap lid = some .locked ∨ ∃ code, r = .other code)) := by
  have hmoves : c'.pc t ≠ c.pc t := fun heq => hin (heq.symm.trans hidle)
  cases h with
  | start u l c' h =>
    obtain ⟨_,hpc,hcases⟩ := acquire_cases _ _ u l h
    have hu : t ≠ u := fun he => hin (he ▸ hpc)
    rcases hcases with ⟨_,rfl⟩ | ⟨_,rfl⟩
    · exact absurd (Function.update_of_ne hu _ _) hmoves
    · exact absurd (Function.update_of_ne hu _ _) hmoves
  | loop u c' h =>
    obtain ⟨l,hpc,_,hcases⟩ := acquireLoop_cases _ _ u h
    by_cases hu : t = u
    · subst hu
      rcases hcases with ⟨_,rfl⟩ | ⟨hst,rfl⟩ | ⟨_,_,_,rfl⟩
      · exact nomatch (Function.update_self _ _ _).symm.trans hidle
      · exact .inl ⟨l,rfl,hpc,hst,Function.update_self _ _ _⟩
      · exact absurd hidle hin
    · rcases hcases with ⟨_,rfl⟩ | ⟨_,rfl⟩ | ⟨_,_,_,rfl⟩
      · exact absurd (Function.update_of_ne hu _ _) hmoves
      · exact absurd (Function.update_of_ne hu _ _) hmoves
      · exact absurd hidle hin
  | answer r u l again h => exact absurd hidle hin
  | goOn c' h =>
    obtain ⟨u,l,again,r,hcall,hcases⟩ := acquireReturn_cases _ _ h
    have hflag : (if again = true then c.setRetry l false else c).pc = c.pc := by
      cases again <;> rfl
    by_cases hu : t = u
    · subst hu
      refine .inr ⟨l,again,r,rfl,hcall,?_⟩
      rcases hcases with ⟨rfl,rfl⟩ | ⟨_,rfl⟩ | ⟨hcode,_⟩
      · left
        cases again <;> exact ⟨rfl,Function.update_self _ _ _⟩
      · rcases retryLoop_pc (if again = true then c.setRetry l false else c) t l with hpc | hpc
        · exact nomatch hpc.symm.trans hidle
        · exact nomatch hpc.symm.trans hidle
      · exact .inr hcode
    · rcases hcases with ⟨_,rfl⟩ | ⟨_,rfl⟩ | ⟨_,rfl⟩
      · exact absurd ((Function.update_of_ne hu _ _).trans (by cases again <;> rfl)) hmoves
      · exact absurd ((retryLoop_pc_of_ne _ l hu).trans (congrFun hflag t)) hmoves
      · exact absurd ((Function.update_of_ne hu _ _).trans (congrFun hflag t)) hmoves
  | wake u l =>
    by_cases hu : t = u
    · subst hu
      rcases retryLoop_pc c t l with hpc | hpc
      · exact nomatch hpc.symm.trans hidle
      · exact nomatch hpc.symm.trans hidle
    · exact absurd (retryLoop_pc_of_ne _ l hu) hmoves
  | aside _ c' h => exact absurd (congrFun h.pc t) hmoves

theorem returns_locked {s s' : LockClientCache τ ℓ} {a : ClientAct τ ℓ} {t : τ} {lid : ℓ}
    (h : s.step a = some s')
    (hc : s.client.InCall) (hok : s.client.NoOther t lid) (hret : AcquireReturns s s' t lid) :
    ReturnsLocked s s' a t lid := by
  obtain ⟨hlid,hidle⟩ := hret
  have hin : s.client.pc t ≠ .idle := by
    intro hpc
    rw [hpc] at hlid
    exact nomatch hlid
  rcases acquire_ends (acquireStep_of_step s s' a h) hin hidle with
    ⟨l,rfl,hpc,hfree,hlocked⟩ | ⟨l,again,r,rfl,hcall,hcases⟩
  · rw [hpc] at hlid
    cases hlid
    exact ⟨hlocked,by simp [hfree],.inl ⟨rfl,hfree⟩⟩
  · rw [hc.pc t l again _ hcall] at hlid
    cases hlid
    rcases hcases with ⟨rfl,hlocked⟩ | ⟨code,rfl⟩
    · refine ⟨hlocked,?_,.inr ⟨rfl,again,hcall⟩⟩
      rw [hc.status t lid again _ hcall]
      cases again <;> simp
    · exact absurd hcall (hok again code)

theorem retry_asks_again {s s' : LockClientCache τ ℓ} {t : τ} {lid : ℓ} {again : Bool}
    (h : s.step .acquireReturn = some s')
    (hcall : s.client.call = some (.acquire t lid again (.answered .retry))) :
    AsksAgain s' t lid := by
  obtain ⟨_,_,_,_,c,_,hc,rfl⟩ := return_cases s s' h
  obtain ⟨u,l,b,r,hcall',hcases⟩ := acquireReturn_cases _ c hc
  cases hcall.symm.trans hcall'
  rcases hcases with ⟨hr,_⟩ | ⟨_,rfl⟩ | ⟨⟨code,hr⟩,_⟩
  · exact nomatch hr
  · exact ⟨retryLoop_status _ t lid,retryLoop_pc _ t lid⟩
  · exact nomatch hr

/-- Thread `t` calls `acquire` in any state of the client. As long as the server answers it
with OK or RETRY, it returns with the lock, and goes on asking after a RETRY. -/
theorem acquire_returns_with_lock (s₀ s s' : LockClientCache τ ℓ) (t : τ) (lid : ℓ)
    (as : List (ClientAct τ ℓ))
    (a : ClientAct τ ℓ) (hrun : run step s₀ (.acquire t lid :: as) = some s)
    (hanswers : RunAll step (OkOrRetry t lid) s₀ (.acquire t lid :: as))
    (hstep : s.step a = some s') :
    (AcquireReturns s s' t lid → ReturnsLocked s s' a t lid) ∧
    (∀ again, a = .acquireReturn → s.client.call = some (.acquire t lid again (.answered .retry)) →
      AsksAgain s' t lid) := by
  obtain ⟨s₁,hstart,hrest⟩ := run_cons_some step s₀ s _ as hrun
  have hfirst : s₁.client.call = none := by
    obtain ⟨c,hc,rfl⟩ := Option.map_eq_some_iff.mp hstart
    obtain ⟨hcall,_,⟨_,rfl⟩ | ⟨_,rfl⟩⟩ := acquire_cases _ c t lid hc
    · exact hcall
    · exact hcall
  have hinv : s.client.InCall ∧ s.client.NoOther t lid :=
    run_invariant_of_all step (OkOrRetry t lid) (fun s => s.client.InCall ∧ s.client.NoOther t lid)
      (fun _ _ _ hi hok h => ⟨inCall_step (acquireStep_of_step _ _ _ h) hi.1,
        noOther_step h hok hi.2⟩)
      s₁ s as ⟨inCall_of_none hfirst,fun _ _ hc => nomatch hfirst.symm.trans hc⟩
        (hanswers.2 s₁ hstart) hrest
  refine ⟨returns_locked hstep hinv.1 hinv.2,?_⟩
  rintro again rfl hcall
  exact retry_asks_again hstep hcall

/-- Nobody is on the way to the server for the lock any more. -/
structure Client.Abandoned (lid : ℓ) (c : Client τ ℓ) : Prop where
  status : c.lockMap lid = some .acquiring
  pc : ∀ t, c.pc t ≠ .retrying lid
  call : ∀ t again p, c.call ≠ some (.acquire t lid again p)

theorem abandoned_retryLoop {c : Client τ ℓ} {lid l : ℓ} (t : τ) (h : c.Abandoned lid)
    (hl : lid ≠ l) :
    (c.retryLoop t l).Abandoned lid := by
  have hpc (p : Pc ℓ) (hp : p ≠ .retrying lid) : ∀ u, Function.update c.pc t p u ≠ .retrying lid :=
    (Function.forall_update_iff c.pc fun _ q => q ≠ .retrying lid).mpr ⟨hp,fun u _ => h.pc u⟩
  unfold Client.retryLoop
  split_ifs
  · exact ⟨(Function.update_of_ne hl _ _).trans h.status,
      hpc _ fun he => hl (Pc.retrying.inj he).symm,fun _ _ _ => nofun⟩
  · refine ⟨(Function.update_of_ne hl _ _).trans h.status,hpc _ nofun,?_⟩
    rintro u again p ⟨rfl⟩
    exact hl rfl

/-- It stays so until somebody calls `release` for the lock. -/
theorem abandoned_step {c c' : Client τ ℓ} {a : ClientAct τ ℓ} {lid : ℓ} (h : AcquireStep c a c')
    (ha : ∀ u w, a ≠ .release u lid w) (hc : c.Abandoned lid) : c'.Abandoned lid := by
  have hpc (t : τ) (p : Pc ℓ) (hp : p ≠ .retrying lid) :
      ∀ u, Function.update c.pc t p u ≠ .retrying lid :=
    (Function.forall_update_iff c.pc fun _ q => q ≠ .retrying lid).mpr ⟨hp,fun u _ => hc.pc u⟩
  have hother {l : ℓ} {st : Option LockSt} (hst : c.lockMap l = st) (hne : st ≠ some .acquiring) :
      lid ≠ l := by
    rintro rfl
    exact hne (hst.symm.trans hc.status)
  cases h with
  | start u l c' h =>
    obtain ⟨_,_,⟨hst,rfl⟩ | ⟨_,rfl⟩⟩ := acquire_cases _ _ u l h
    · exact ⟨(Function.update_of_ne (hother hst nofun) _ _).trans hc.status,hpc u _ nofun,hc.call⟩
    · exact ⟨hc.status,hpc u _ nofun,hc.call⟩
  | loop u c' h =>
    obtain ⟨l,_,_,⟨hst,rfl⟩ | ⟨hst,rfl⟩ | ⟨_,_,_,rfl⟩⟩ := acquireLoop_cases _ _ u h
    · refine ⟨hc.status,hpc u _ nofun,?_⟩
      rintro v again p ⟨rfl⟩
      exact hother hst nofun rfl
    · exact ⟨(Function.update_of_ne (hother hst nofun) _ _).trans hc.status,hpc u _ nofun,
        fun _ _ _ => nofun⟩
    · exact hc
  | answer r u l b h =>
    refine ⟨hc.status,hc.pc,?_⟩
    rintro v again p ⟨rfl⟩
    exact hc.call _ _ _ h
  | goOn c' h =>
    obtain ⟨u,l,b,r,hcall,hcases⟩ := acquireReturn_cases _ _ h
    have hl : lid ≠ l := by
      rintro rfl
      exact hc.call _ _ _ hcall
    have hflag : (if b = true then c.setRetry l false else c).Abandoned lid := by
      cases b <;> exact ⟨hc.status,hc.pc,hc.call⟩
    rcases hcases with ⟨_,rfl⟩ | ⟨_,rfl⟩ | ⟨_,rfl⟩
    · refine ⟨?_,?_,fun _ _ _ => nofun⟩
      · cases b <;> exact (Function.update_of_ne hl _ _).trans hc.status
      · cases b <;> exact hpc u _ nofun
    · exact abandoned_retryLoop u hflag hl
    · refine ⟨hflag.status,?_,fun _ _ _ => nofun⟩
      cases b <;> exact hpc u _ nofun
  | wake u l hu =>
    have hl : lid ≠ l := by
      rintro rfl
      exact hc.pc u hu
    exact abandoned_retryLoop u hc hl
  | aside _ c' h =>
    refine ⟨h.status lid ha hc.status,fun t => h.pc ▸ hc.pc t,fun t again p hp => ?_⟩
    rw [h.call t lid again p hp] at hp
    exact hc.call t again p hp

theorem abandoned_no_return {s s' : LockClientCache τ ℓ} {a : ClientAct τ ℓ} {lid : ℓ}
    (h : s.step a = some s') (hin : s.client.InCall) (hc : s.client.Abandoned lid) (t : τ) :
    ¬ AcquireReturns s s' t lid := by
  rintro ⟨hlid,hidle⟩
  have hpc : s.client.pc t ≠ .idle := by
    intro hpc
    rw [hpc] at hlid
    exact nomatch hlid
  rcases acquire_ends (acquireStep_of_step s s' a h) hpc hidle with
    ⟨l,_,hloop,hfree,_⟩ | ⟨l,again,r,_,hcall,_⟩
  · rw [hloop] at hlid
    cases hlid
    exact nomatch hc.status.symm.trans hfree
  · rw [hin.pc t l again _ hcall] at hlid
    cases hlid
    exact hc.call _ _ _ hcall

theorem abandoned_run {s s₁ s₂ : LockClientCache τ ℓ} {lid : ℓ} (hcall : s.client.call = none)
    (hstatus : s.client.lockMap lid = some .acquiring) (hpc : ∀ t, s.client.pc t ≠ .retrying lid)
    {bs : List (ClientAct τ ℓ)} {b : ClientAct τ ℓ}
    (hbs : ∀ a ∈ bs, ∀ u w, a ≠ .release u lid w) (hrun : run step s bs = some s₁)
    (hstep : s₁.step b = some s₂) (t : τ) :
    ¬ AcquireReturns s₁ s₂ t lid := by
  have hinv : s₁.client.InCall ∧ s₁.client.Abandoned lid :=
    run_invariant_of_all step (fun _ a => ∀ u w, a ≠ .release u lid w)
      (fun s => s.client.InCall ∧ s.client.Abandoned lid)
      (fun _ _ _ hi ha h => ⟨inCall_step (acquireStep_of_step _ _ _ h) hi.1,
        abandoned_step (acquireStep_of_step _ _ _ h) ha hi.2⟩)
      s s₁ bs ⟨inCall_of_none hcall,hstatus,hpc,fun _ _ _ hc => nomatch hcall.symm.trans hc⟩
        (runAll_of_mem step _ s bs hbs) hrun
  exact abandoned_no_return hstep hinv.1 hinv.2 t

end

/-- The first request of thread 1 is answered with RETRY, the second one with OK. -/
theorem acquire_returns_with_lock_retry :
    ∃ s s', run LockClientCache.step (.init ℕ ℕ)
    [.acquire 1 7, .acquireLoop 1, .answer .retry, .acquireReturn,
        .retry 7, .retrySignal 7 (some 1), .wake 1, .answer .ok] = some s ∧
      s.step .acquireReturn = some s' ∧ ReturnsLocked s s' .acquireReturn 1 7 := by
  have hanswers : RunAll LockClientCache.step (OkOrRetry 1 7)
    (.init ℕ ℕ) [.acquire 1 7, .acquireLoop 1, .answer .retry,
      .acquireReturn, .retry 7, .retrySignal 7 (some 1), .wake 1, .answer .ok] := by
    decide +kernel
  exact ⟨_,_,rfl,rfl,(acquire_returns_with_lock _ _ _ 1 7 _ _ rfl hanswers rfl).1 ⟨rfl,rfl⟩⟩

/-- The RPC fails with `timeout_failure`. At the first request `acquire` returns OK with the
lock NONE; after a RETRY it returns OK with the lock ACQUIRING, and from then on no `acquire`
of the lock returns unless it is released. -/
theorem acquire_returns_without_lock :
    (∃ s, run LockClientCache.step (.init Bool ℕ) [.acquire true 7, .acquireLoop true,
      .answer (.other (-1)),
        .acquireReturn] = some s ∧
      s.client.pc true = .idle ∧ s.client.held true 7 = true ∧ s.client.lockMap 7 = some .none) ∧
    (∃ s, run LockClientCache.step (.init Bool ℕ) [.acquire true 7, .acquireLoop true,
      .answer .retry, .acquireReturn,
        .retry 7, .retrySignal 7 (some true), .wake true, .answer (.other (-1)), .acquireReturn,
        .acquire false 7, .acquireLoop false] = some s ∧
      s.client.pc true = .idle ∧ s.client.held true 7 = true ∧
      s.client.lockMap 7 = some .acquiring ∧
      s.client.pc false = .looping 7 ∧
      ∀ bs b s₁ s₂, (∀ a ∈ bs, ∀ u w, a ≠ .release u 7 w) →
      run LockClientCache.step s bs = some s₁ →
        s₁.step b = some s₂ → ∀ t, ¬ AcquireReturns s₁ s₂ t 7) := by
  refine ⟨⟨_,rfl,rfl,rfl,rfl⟩,⟨_,rfl,rfl,rfl,rfl,rfl,?_⟩⟩
  intro bs b s₁ s₂ hbs hrun hstep t
  refine abandoned_run rfl rfl ?_ hbs hrun hstep t
  rintro (_ | _)
  · exact nofun
  · exact nofun

end Yfs.Lock
