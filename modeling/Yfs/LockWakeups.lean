import Yfs.LockClientCond
import Yfs.LockView

namespace Yfs.Lock

section
variable {τ ℓ : Type*} [DecidableEq τ] [DecidableEq ℓ]
open LockClientCache

/-- The thread is in `acquire(lid)`, in the outer loop or in the inner one. -/
def Client.LoopingAt (c : Client τ ℓ) (lid : ℓ) (t : τ) : Prop := c.pc t = .looping lid

def Client.RetryingAt (c : Client τ ℓ) (lid : ℓ) (t : τ) : Prop := c.pc t = .retrying lid

instance (c : Client τ ℓ) (lid : ℓ) : DecidablePred (c.LoopingAt lid) :=
  fun t => inferInstanceAs (Decidable (c.pc t = .looping lid))

instance (c : Client τ ℓ) (lid : ℓ) : DecidablePred (c.RetryingAt lid) :=
  fun t => inferInstanceAs (Decidable (c.pc t = .retrying lid))

/-- The lock that the releaser is giving back. -/
def Client.givenBack (c : Client τ ℓ) : Option ℓ :=
  match c.call with
  | some (.release lid _) => some lid
  | _ => none

/-- Every signal for a lock wakes a thread that waits for this lock, if there is one,
and `call_to_server` returns OK or RETRY. -/
def SignalsRight (s : LockClientCache τ ℓ) : ClientAct τ ℓ → Prop
  | .release _ lid w =>
    lid ∈ s.client.revokeList ∨ s.lockCheckCond.WakesRight (s.client.LoopingAt lid) w
  | .releaserEnd w =>
    ∀ lid ∈ s.client.givenBack, s.lockCheckCond.WakesRight (s.client.LoopingAt lid) w
  | .retrySignal lid w => s.retryCheckCond.WakesRight (s.client.RetryingAt lid) w
  | .answer r => r = .ok ∨ r = .retry
  | _ => True

instance decidableSignalsRight (s : LockClientCache τ ℓ) : ∀ a, Decidable (SignalsRight s a)
  | .release _ lid w => inferInstanceAs (Decidable (lid ∈ s.client.revokeList ∨
      s.lockCheckCond.WakesRight (s.client.LoopingAt lid) w))
  | .releaserEnd w => inferInstanceAs (Decidable
      (∀ lid ∈ s.client.givenBack, s.lockCheckCond.WakesRight (s.client.LoopingAt lid) w))
  | .retrySignal lid w =>
    inferInstanceAs (Decidable (s.retryCheckCond.WakesRight (s.client.RetryingAt lid) w))
  | .answer r => inferInstanceAs (Decidable (r = .ok ∨ r = .retry))
  | .acquire .. | .acquireLoop _ | .acquireReturn | .wake _ | .revoke _ | .retry _ | .releaser _
  | .dorelease | .releaseAnswer | .lockWake _ | .retryWake _ | .releaserWake => isTrue trivial

/-- Where threads wait, and what `call_to_server` may have returned. -/
structure PlacesOk (s : LockClientCache τ ℓ) : Prop where
  looping : ∀ t, s.lockCheckCond.Waits t → ∃ lid, s.client.pc t = .looping lid
  retrying : ∀ t, s.retryCheckCond.Waits t → ∃ lid, s.client.pc t = .retrying lid
  calling : ∀ t lid again p, s.client.call = some (.acquire t lid again p) →
    s.client.pc t = .calling lid
  answered : ∀ t lid again r, s.client.call = some (.acquire t lid again (.answered r)) →
    r = .ok ∨ r = .retry
  entry : ∀ t lid, s.client.pc t = .looping lid → s.client.lockMap lid ≠ none

/-- While the lock is at hand and no call about it is under way, one of the threads
that wait for it is awake, if there are any. -/
def LockOk (s : LockClientCache τ ℓ) (lid : ℓ) : Prop :=
  s.client.lockMap lid = some .free ∨ s.client.lockMap lid = some .none →
    s.client.callOn lid = none → s.lockCheckCond.Covered (s.client.LoopingAt lid)

/-- Likewise for a retry that has come in, been signalled and not been used. -/
def RetryOk (s : LockClientCache τ ℓ) (lid : ℓ) : Prop :=
  s.client.retryMap lid = true → lid ∉ s.retrySignals →
    (∀ t p, s.client.callOn lid ≠ some (.acquire t true p)) →
    s.retryCheckCond.Covered (s.client.RetryingAt lid)

structure WakeOk (s : LockClientCache τ ℓ) : Prop where
  places : PlacesOk s
  lock : ∀ lid, LockOk s lid
  retry : ∀ lid, RetryOk s lid

/-- A step of thread `t` that leaves the condition variable alone, or in which the
thread goes on or parks. -/
inductive Moves (q : CondVar τ) (t : τ) : CondVar τ → Prop
  | same : Moves q t q
  | settle (parks : Bool) : Moves q t (q.settle t parks)

omit [DecidableEq ℓ] in
theorem covered_moves (q q' : CondVar τ) (t : τ) (pc pc' : τ → Pc ℓ) (x : Pc ℓ) (hq : Moves q t q')
    (hpc : ∀ u, u ≠ t → pc' u = pc u) (hbefore : pc t ≠ x) (hafter : pc' t ≠ x)
    (h : q.Covered fun u => pc u = x) : q'.Covered fun u => pc' u = x := by
  have hmoved : q'.Covered fun u => pc u = x := by
    cases hq with
    | same => exact h
    | settle parks => exact q.covered_settle t parks _ hbefore h
  apply hmoved.congr
  intro u _
  by_cases hu : u = t
  · subst hu
    simp [hbefore, hafter]
  · rw [hpc u hu]

theorem lockOk_moves (s s' : LockClientCache τ ℓ) (t : τ) (lid : ℓ) (h : LockOk s lid)
    (hq : Moves s.lockCheckCond t s'.lockCheckCond)
    (hpc : ∀ u, u ≠ t → s'.client.pc u = s.client.pc u)
    (hbefore : s.client.pc t ≠ .looping lid) (hafter : s'.client.pc t ≠ .looping lid)
    (hst : s'.client.lockMap lid = s.client.lockMap lid) (hcall : s.client.callOn lid = none) :
    LockOk s' lid := by
  intro hfree _
  rw [hst] at hfree
  exact covered_moves _ _ t _ _ _ hq hpc hbefore hafter (h hfree hcall)

theorem retryOk_moves (s s' : LockClientCache τ ℓ) (t : τ) (lid : ℓ) (h : RetryOk s lid)
    (hq : Moves s.retryCheckCond t s'.retryCheckCond)
    (hpc : ∀ u, u ≠ t → s'.client.pc u = s.client.pc u)
    (hbefore : s.client.pc t ≠ .retrying lid) (hafter : s'.client.pc t ≠ .retrying lid)
    (hretry : s'.client.retryMap lid = true → s.client.retryMap lid = true)
    (hsig : s'.retrySignals = s.retrySignals)
    (hcall : ∀ u p, s.client.callOn lid ≠ some (.acquire u true p)) : RetryOk s' lid := by
  intro hr hno _
  rw [hsig] at hno
  exact covered_moves _ _ t _ _ _ hq hpc hbefore hafter (h (hretry hr) hno hcall)

section
omit [DecidableEq ℓ]

theorem placesOk_moves (s s' : LockClientCache τ ℓ) (t : τ) (h : PlacesOk s)
    (hpc : ∀ u, u ≠ t → s'.client.pc u = s.client.pc u)
    (hlock : ∀ u, s'.lockCheckCond.Waits u → u ≠ t ∧ s.lockCheckCond.Waits u ∨
      u = t ∧ ∃ lid, s'.client.pc t = .looping lid)
    (hretry : ∀ u, s'.retryCheckCond.Waits u → u ≠ t ∧ s.retryCheckCond.Waits u ∨
      u = t ∧ ∃ lid, s'.client.pc t = .retrying lid)
    (hcall : ∀ u lid again p, s'.client.call = some (.acquire u lid again p) →
      u = t ∧ s'.client.pc t = .calling lid ∧ p = .sent)
    (hentry : ∀ lid, s.client.lockMap lid ≠ none → s'.client.lockMap lid ≠ none)
    (ht : ∀ lid, s'.client.pc t = .looping lid → s'.client.lockMap lid ≠ none) : PlacesOk s' := by
  refine ⟨?_, ?_, ?_, ?_, ?_⟩
  · intro u hu
    rcases hlock u hu with ⟨hne,hw⟩ | ⟨rfl,hl⟩
    · rw [hpc u hne]
      exact h.looping u hw
    · exact hl
  · intro u hu
    rcases hretry u hu with ⟨hne,hw⟩ | ⟨rfl,hl⟩
    · rw [hpc u hne]
      exact h.retrying u hw
    · exact hl
  · intro u lid again p hc
    obtain ⟨rfl,hl,_⟩ := hcall u lid again p hc
    exact hl
  · intro u lid again r hc
    obtain ⟨_,_,hp⟩ := hcall u lid again _ hc
    cases hp
  · intro u lid hu
    by_cases hut : u = t
    · exact ht lid (hut ▸ hu)
    · rw [hpc u hut] at hu
      exact hentry lid (h.entry u lid hu)

theorem isLooping_iff (p : Pc ℓ) : isLooping p = true ↔ ∃ lid, p = .looping lid := by
  cases p <;> simp [isLooping]

theorem isRetrying_iff (p : Pc ℓ) : isRetrying p = true ↔ ∃ lid, p = .retrying lid := by
  cases p <;> simp [isRetrying]

omit [DecidableEq τ] in
theorem PlacesOk.not_looping {s : LockClientCache τ ℓ} (h : PlacesOk s) (t u : τ)
    (ht : ∀ lid, s.client.pc t ≠ .looping lid) (hu : s.lockCheckCond.Waits u) : u ≠ t := by
  rintro rfl
  obtain ⟨lid,hl⟩ := h.looping u hu
  exact ht lid hl

omit [DecidableEq τ] in
theorem PlacesOk.not_retrying {s : LockClientCache τ ℓ} (h : PlacesOk s) (t u : τ)
    (ht : ∀ lid, s.client.pc t ≠ .retrying lid) (hu : s.retryCheckCond.Waits u) : u ≠ t := by
  rintro rfl
  obtain ⟨lid,hl⟩ := h.retrying u hu
  exact ht lid hl

end

/-- What a thread in `acquire(lid)` does to the client when it looks at the lock or
returns from `call_to_server`. Afterwards the lock is not at hand, or a call about it
is under way; and a retry that has come in is being used, unless it is none of the
thread's business. -/
structure ThreadStep (c c' : Client τ ℓ) (t : τ) (lid : ℓ) : Prop where
  pc : ∀ u, u ≠ t → c'.pc u = c.pc u
  before : ∀ l, l ≠ lid → c.pc t ≠ .looping l ∧ c.pc t ≠ .retrying l
  after : ∀ l, l ≠ lid → c'.pc t ≠ .looping l ∧ c'.pc t ≠ .retrying l
  others : ∀ l, l ≠ lid → c'.lockMap l = c.lockMap l ∧ c'.retryMap l = c.retryMap l ∧
    c.callOn l = none
  entry : c'.lockMap lid ≠ none
  call : ∀ u l again p, c'.call = some (.acquire u l again p) →
    u = t ∧ c'.pc t = .calling l ∧ p = .sent
  lock : c'.lockMap lid = some .free ∨ c'.lockMap lid = some .none → c'.callOn lid ≠ none
  retry : c'.retryMap lid = true → (∀ u p, c'.callOn lid ≠ some (.acquire u true p)) →
    c.retryMap lid = true ∧ (∀ u p, c.callOn lid ≠ some (.acquire u true p)) ∧
      c.pc t ≠ .retrying lid ∧ c'.pc t ≠ .retrying lid

theorem wakeOk_threadStep (s s' : LockClientCache τ ℓ) (t : τ) (lid : ℓ) (h : WakeOk s)
    (hs : ThreadStep s.client s'.client t lid) (hL : Moves s.lockCheckCond t s'.lockCheckCond)
    (hR : Moves s.retryCheckCond t s'.retryCheckCond)
    (hlock : ∀ u, s'.lockCheckCond.Waits u → u ≠ t ∧ s.lockCheckCond.Waits u ∨
      u = t ∧ ∃ lid, s'.client.pc t = .looping lid)
    (hretry : ∀ u, s'.retryCheckCond.Waits u → u ≠ t ∧ s.retryCheckCond.Waits u ∨
      u = t ∧ ∃ lid, s'.client.pc t = .retrying lid)
    (hsig : s'.retrySignals = s.retrySignals) : WakeOk s' := by
  refine ⟨?_, ?_, ?_⟩
  · apply placesOk_moves s s' t h.places hs.pc hlock hretry hs.call
    · intro l hl
      by_cases he : l = lid
      · exact he ▸ hs.entry
      · rwa [(hs.others l he).1]
    · intro l hl
      by_cases he : l = lid
      · exact he ▸ hs.entry
      · exact absurd hl (hs.after l he).1
  · intro l
    by_cases he : l = lid
    · -- the thread has taken the lock, or is calling for it
      intro hfree hnone
      exact absurd hnone (he ▸ hs.lock (he ▸ hfree))
    · obtain ⟨hst,_,hcall⟩ := hs.others l he
      exact lockOk_moves s s' t l (h.lock l) hL hs.pc (hs.before l he).1 (hs.after l he).1 hst hcall
  · intro l
    by_cases he : l = lid
    · subst he
      intro hr hno hcall
      obtain ⟨hr',hcall',hb,ha⟩ := hs.retry hr hcall
      exact retryOk_moves s s' t l (h.retry l) hR hs.pc hb ha (fun _ => hr') hsig hcall' hr hno
        hcall
    · obtain ⟨_,hr,hcall⟩ := hs.others l he
      exact retryOk_moves s s' t l (h.retry l) hR hs.pc (hs.before l he).2 (hs.after l he).2
        (fun hr' => hr ▸ hr') hsig (by simp [hcall])

theorem threadStep_acquireLoop (c c' : Client τ ℓ) (t : τ) (h : c.acquireLoop t = some c') :
    ∃ lid, c.pc t = .looping lid ∧ ThreadStep c c' t lid := by
  obtain ⟨lid,hpc,hcall,hcases⟩ := acquireLoop_cases c c' t h
  have hnone : ∀ l, c.callOn l = none := fun l => callOn_eq_none c l (by simp [hcall])
  have hbefore : ∀ l, l ≠ lid → c.pc t ≠ .looping l ∧ c.pc t ≠ .retrying l := by
    intro l hl
    simp [hpc, Ne.symm hl]
  refine ⟨lid, hpc, ?_⟩
  rcases hcases with ⟨hst,rfl⟩ | ⟨hst,rfl⟩ | ⟨h0,h1,h2,rfl⟩
  · -- NONE: the thread goes to the server
    have hafter : (c.callToServer t lid false).pc t = .calling lid := Function.update_self ..
    refine ⟨fun u hu => Function.update_of_ne hu _ _, hbefore, ?_, fun l _ => ⟨rfl, rfl, hnone l⟩,
      ?_, ?_, ?_, ?_⟩
    · simp [hafter]
    · simp [Client.callToServer, Client.setCall, Client.setPc, hst]
    · intro u l again p hc
      cases hc
      exact ⟨rfl, hafter, rfl⟩
    · simp [Client.callToServer, Client.setCall, Client.setPc, Client.callOn]
    · intro hr _
      exact ⟨hr, by simp [hnone], by simp [hpc], by simp [hafter]⟩
  · -- FREE: it takes the lock
    have hafter : ((c.setStatus lid .locked).returnOk t lid).pc t = .idle := Function.update_self ..
    refine ⟨fun u hu => Function.update_of_ne hu _ _, hbefore, ?_, ?_, ?_, fun u l again p hc => ?_,
      ?_, ?_⟩
    · simp [hafter]
    · intro l hl
      exact ⟨Function.update_of_ne hl _ _, rfl, hnone l⟩
    · simp [Client.returnOk, Client.setStatus, Client.setCall, Client.setPc, Client.setHeld]
    · cases hc
    · simp [Client.returnOk, Client.setStatus, Client.setCall, Client.setPc, Client.setHeld]
    · intro hr _
      exact ⟨hr, by simp [hnone], by simp [hpc], by simp [hafter]⟩
  · -- in use or on its way: it waits, and the client is as it was
    refine ⟨fun _ _ => rfl, hbefore, hbefore, fun l _ => ⟨rfl, rfl, hnone l⟩, h0, by simp [hcall],
      by simp [h1, h2], ?_⟩
    intro hr _
    exact ⟨hr, by simp [hnone], by simp [hpc], by simp [hpc]⟩

/-- The inner loop uses a retry that has come in, or finds that none has. -/
theorem threadStep_retryLoop (c : Client τ ℓ) (t : τ) (lid : ℓ)
    (hpc : c.pc t = .calling lid ∨ c.pc t = .retrying lid)
    (hcall : ∀ l, l ≠ lid → c.callOn l = none) :
    ThreadStep c (c.retryLoop t lid) t lid := by
  have hbefore : ∀ l, l ≠ lid → c.pc t ≠ .looping l ∧ c.pc t ≠ .retrying l := by
    intro l hl
    rcases hpc with hpc | hpc <;> simp [hpc, Ne.symm hl]
  have hothers : ∀ l, l ≠ lid → (c.setStatus lid .acquiring).lockMap l = c.lockMap l :=
    fun l hl => Function.update_of_ne hl _ _
  have hst : (c.setStatus lid .acquiring).lockMap lid = some .acquiring := Function.update_self ..
  unfold Client.retryLoop
  split_ifs with hr
  · -- no retry has come in, so there is none to be lost
    refine ⟨fun u hu => Function.update_of_ne hu _ _, hbefore, ?_,
      fun l hl => ⟨hothers l hl, rfl, hcall l hl⟩, ?_, nofun, ?_, ?_⟩
    · intro l hl
      simp [Client.setPc, Ne.symm hl]
    · simp [Client.setPc, Client.setCall, hst]
    · simp [Client.setPc, Client.setCall, hst]
    · intro hr'
      exact absurd (hr.symm.trans hr') (by simp)
  · -- the call that is made here uses the retry
    refine ⟨fun u hu => Function.update_of_ne hu _ _, hbefore, ?_,
      fun l hl => ⟨hothers l hl, rfl, hcall l hl⟩, ?_, ?_, ?_, ?_⟩
    · intro l hl
      simp [Client.callToServer, Client.setPc]
    · simp [Client.callToServer, Client.setPc, Client.setCall, hst]
    · intro u l again p hc
      cases hc
      exact ⟨rfl, Function.update_self .., rfl⟩
    · simp [Client.callToServer, Client.setPc, Client.setCall, hst]
    · intro _ hno
      refine absurd ?_ (hno t .sent)
      simp [Client.callToServer, Client.setPc, Client.setCall, Client.callOn]

omit [DecidableEq τ] in
/-- The flag goes down when the call that used the retry has returned. -/
theorem ThreadStep.of_setRetry {c c' : Client τ ℓ} {t : τ} {lid : ℓ}
    (h : ThreadStep (c.setRetry lid false) c' t lid) : ThreadStep c c' t lid := by
  refine ⟨h.pc, h.before, h.after, ?_, h.entry, h.call, h.lock, ?_⟩
  · intro l hl
    obtain ⟨hst,hr,hcall⟩ := h.others l hl
    exact ⟨hst, hr.trans (Function.update_of_ne hl _ _), hcall⟩
  · intro hr hno
    obtain ⟨hr',_⟩ := h.retry hr hno
    simp [Client.setRetry] at hr'

theorem threadStep_granted (c : Client τ ℓ) (t : τ) (lid : ℓ) (again : Bool) (p : AcqPhase)
    (hcall : c.call = some (.acquire t lid again p)) (hpc : c.pc t = .calling lid) :
    ThreadStep c ((if again = true then (c.setStatus lid .locked).setRetry lid false
      else c.setStatus lid .locked).returnOk t lid) t lid := by
  have hnone : ∀ l, l ≠ lid → c.callOn l = none := by
    intro l hl
    simp [Client.callOn, hcall, Ne.symm hl]
  -- the section with the flag cleared, after a second call, or as it was
  have hgranted : ∀ d : Client τ ℓ, d.pc = c.pc →
    d.lockMap = Function.update c.lockMap lid (some .locked) →
      (∀ l, l ≠ lid → d.retryMap l = c.retryMap l) →
      (d.retryMap lid = true → c.retryMap lid = true ∧ again = false) →
      ThreadStep c (d.returnOk t lid) t lid := by
    intro d hd hmap hothers hretry
    have hafter : (d.returnOk t lid).pc t = .idle := Function.update_self ..
    have hst : (d.returnOk t lid).lockMap lid = some .locked := by
      simp [Client.returnOk, Client.setHeld, Client.setPc, Client.setCall, hmap]
    refine ⟨?_, ?_, ?_, ?_, ?_, fun u l a q hc => ?_, ?_, ?_⟩
    · intro u hu
      simp [Client.returnOk, Client.setHeld, Client.setPc, Client.setCall, hd, hu]
    · simp [hpc]
    · simp [hafter]
    · intro l hl
      refine ⟨?_, hothers l hl, hnone l hl⟩
      simp [Client.returnOk, Client.setHeld, Client.setPc, Client.setCall, hmap, hl]
    · simp [hst]
    · cases hc
    · simp [hst]
    · intro hr _
      obtain ⟨hr',hfirst⟩ := hretry hr
      refine ⟨hr', ?_, by simp [hpc], by simp [hafter]⟩
      simp [Client.callOn, hcall, hfirst]
  cases again with
  | false => exact hgranted _ rfl rfl (fun _ _ => rfl) fun hr => ⟨hr, rfl⟩
  | true =>
    refine hgranted _ rfl rfl (fun l hl => Function.update_of_ne hl _ _) fun hr => ?_
    simp [Client.setRetry] at hr

theorem threadStep_acquireReturn (s : LockClientCache τ ℓ) (c' : Client τ ℓ) (h : PlacesOk s)
    (hc : s.client.acquireReturn = some c') :
    ∃ t lid again r, s.client.call = some (.acquire t lid again (.answered r)) ∧
      ThreadStep s.client c' t lid := by
  obtain ⟨t,lid,again,r,hcall,hcases⟩ := acquireReturn_cases _ c' hc
  have hpc := h.calling t lid again _ hcall
  have hnone : ∀ l, l ≠ lid → s.client.callOn l = none := by
    intro l hl
    simp [Client.callOn, hcall, Ne.symm hl]
  refine ⟨t, lid, again, r, hcall, ?_⟩
  rcases hcases with ⟨_,rfl⟩ | ⟨_,rfl⟩ | ⟨⟨code,rfl⟩,_⟩
  · exact threadStep_granted _ t lid again _ hcall hpc
  · cases again with
    | false => exact threadStep_retryLoop _ t lid (Or.inl hpc) hnone
    | true =>
      exact (threadStep_retryLoop (s.client.setRetry lid false) t lid
        (Or.inl hpc) hnone).of_setRetry
  · rcases h.answered t lid again _ hcall with hr | hr <;> cases hr

section
omit [DecidableEq τ]

theorem lockOk_still (s s' : LockClientCache τ ℓ) (lid : ℓ) (h : LockOk s lid)
    (hq : s'.lockCheckCond = s.lockCheckCond)
    (hpc : ∀ u, s.lockCheckCond.Waits u → s'.client.pc u = s.client.pc u)
    (hst : s'.client.lockMap lid = some .free ∨ s'.client.lockMap lid = some .none →
      s.client.lockMap lid = some .free ∨ s.client.lockMap lid = some .none)
    (hcall : s'.client.callOn lid = none → s.client.callOn lid = none) : LockOk s' lid := by
  intro hfree hnone
  rw [hq]
  apply (h (hst hfree) (hcall hnone)).congr
  intro u hu
  simp only [Client.LoopingAt, hpc u hu]

theorem retryOk_still (s s' : LockClientCache τ ℓ) (lid : ℓ) (h : RetryOk s lid)
    (hq : s'.retryCheckCond = s.retryCheckCond)
    (hpc : ∀ u, s.retryCheckCond.Waits u → s'.client.pc u = s.client.pc u)
    (hretry : s'.client.retryMap lid = true → lid ∉ s'.retrySignals →
      s.client.retryMap lid = true ∧ lid ∉ s.retrySignals)
    (hcall : (∀ t p, s'.client.callOn lid ≠ some (.acquire t true p)) →
      ∀ t p, s.client.callOn lid ≠ some (.acquire t true p)) : RetryOk s' lid := by
  intro hr hno hc
  obtain ⟨hr',hno'⟩ := hretry hr hno
  rw [hq]
  apply (h hr' hno' (hcall hc)).congr
  intro u hu
  simp only [Client.RetryingAt, hpc u hu]

omit [DecidableEq ℓ] in
theorem placesOk_still (s s' : LockClientCache τ ℓ) (h : PlacesOk s)
    (hpc : s'.client.pc = s.client.pc)
    (hlock : ∀ u, s'.lockCheckCond.Waits u → s.lockCheckCond.Waits u)
    (hretry : ∀ u, s'.retryCheckCond.Waits u → s.retryCheckCond.Waits u)
    (hcall : s'.client.call = s.client.call ∨
      ∀ t lid again p, s'.client.call ≠ some (.acquire t lid again p))
    (hentry : ∀ lid, s.client.lockMap lid ≠ none → s'.client.lockMap lid ≠ none) : PlacesOk s' := by
  refine ⟨?_, ?_, ?_, ?_, ?_⟩
  · intro u hu
    rw [hpc]
    exact h.looping u (hlock u hu)
  · intro u hu
    rw [hpc]
    exact h.retrying u (hretry u hu)
  · intro t lid again p hc
    rcases hcall with heq | hno
    · rw [hpc]
      exact h.calling t lid again p (heq ▸ hc)
    · exact absurd hc (hno t lid again p)
  · intro t lid again r hc
    rcases hcall with heq | hno
    · exact h.answered t lid again r (heq ▸ hc)
    · exact absurd hc (hno t lid again _)
  · intro t lid ht
    rw [hpc] at ht
    exact hentry lid (h.entry t lid ht)

end

theorem wakeOk_acquire (s : LockClientCache τ ℓ) (c : Client τ ℓ) (t : τ) (lid : ℓ) (h : WakeOk s)
    (hc : s.client.acquire t lid = some c) : WakeOk { s with client := c } := by
  obtain ⟨hcall,hpc,hcases⟩ := acquire_cases _ c t lid hc
  -- the thread comes from outside, so nobody who waits moves
  have hl : ∀ u, s.lockCheckCond.Waits u → u ≠ t :=
    fun u => h.places.not_looping t u (by simp [hpc])
  have hr : ∀ u, s.retryCheckCond.Waits u → u ≠ t :=
    fun u => h.places.not_retrying t u (by simp [hpc])
  have hmoved : c.call = none ∧ c.pc = Function.update s.client.pc t (.looping lid) ∧
      c.lockMap lid ≠ none ∧ ∀ l, l ≠ lid → c.lockMap l = s.client.lockMap l ∧
        c.retryMap l = s.client.retryMap l := by
    rcases hcases with ⟨_,rfl⟩ | ⟨hst,rfl⟩
    · refine ⟨hcall, rfl, by simp [Client.setRetry, Client.setStatus], fun l hne => ⟨?_, ?_⟩⟩
      · exact Function.update_of_ne hne _ _
      · exact Function.update_of_ne hne _ _
    · exact ⟨hcall, rfl, hst, fun _ _ => ⟨rfl, rfl⟩⟩
  obtain ⟨hcall',hpc',hst',hothers⟩ := hmoved
  have hother : ∀ u, u ≠ t → c.pc u = s.client.pc u := by
    intro u hu
    rw [hpc', Function.update_of_ne hu]
  have hnone : ∀ l, s.client.callOn l = none := fun l => callOn_eq_none _ l (by simp [hcall])
  refine ⟨?_, ?_, ?_⟩
  · apply placesOk_moves s _ t h.places hother
    · exact fun u hu => Or.inl ⟨hl u hu, hu⟩
    · exact fun u hu => Or.inl ⟨hr u hu, hu⟩
    · simp [hcall']
    · intro l hne
      by_cases he : l = lid
      · exact he ▸ hst'
      · rwa [(hothers l he).1]
    · intro l hat
      rw [hpc', Function.update_self] at hat
      cases hat
      exact hst'
  · intro l
    rcases hcases with ⟨habsent,rfl⟩ | ⟨_,rfl⟩
    · by_cases he : l = lid
      · -- a new entry: nobody can wait for it
        rintro _ _ ⟨u,hu,hat⟩
        have hne := hl u (Or.inl hu)
        change Function.update _ _ _ u = _ at hat
        rw [Function.update_of_ne hne] at hat
        exact absurd habsent (he ▸ h.places.entry u l hat)
      · apply lockOk_still s _ l (h.lock l)
        · rfl
        · exact fun u hu => hother u (hl u hu)
        · rw [(hothers l he).1]
          exact id
        · exact fun _ => hnone l
    · apply lockOk_still s _ l (h.lock l)
      · rfl
      · exact fun u hu => hother u (hl u hu)
      · exact id
      · exact fun _ => hnone l
  · intro l
    apply retryOk_still s _ l (h.retry l)
    · rfl
    · exact fun u hu => hother u (hr u hu)
    · intro htrue hno
      refine ⟨?_, hno⟩
      rcases hcases with ⟨_,rfl⟩ | ⟨_,rfl⟩
      · by_cases he : l = lid
        · simp [he, Client.setRetry] at htrue
        · rwa [(hothers l he).2] at htrue
      · exact htrue
    · simp [hnone]

theorem wakeOk_acquireLoop (s s' : LockClientCache τ ℓ) (t : τ) (h : WakeOk s)
    (hs : s.acquireLoop t = some s') : WakeOk s' := by
  obtain ⟨c,hc,rfl⟩ := loop_cases s s' t hs
  obtain ⟨lid,hpc,hstep⟩ := threadStep_acquireLoop _ c t hc
  apply wakeOk_threadStep s _ t lid h hstep
  · exact .settle _
  · exact .same
  · intro u hu
    rcases s.lockCheckCond.waits_settle t u _ hu with hold | ⟨hut,hpark⟩
    · exact Or.inl hold
    · exact Or.inr ⟨hut, (isLooping_iff _).mp hpark⟩
  · exact fun u hu => Or.inl ⟨h.places.not_retrying t u (by simp [hpc]) hu, hu⟩
  · rfl

/-- After a pass of the inner loop the thread waits if it is still in it. -/
theorem wakeOk_retried (s : LockClientCache τ ℓ) (c : Client τ ℓ) (t : τ) (lid : ℓ) (h : WakeOk s)
    (hpc : ∀ l, s.client.pc t ≠ .looping l) (hstep : ThreadStep s.client c t lid) :
    WakeOk { s with
    client := c, retryCheckCond := s.retryCheckCond.settle t (isRetrying (c.pc t)) } := by
  apply wakeOk_threadStep s _ t lid h hstep
  · exact .same
  · exact .settle _
  · exact fun u hu => Or.inl ⟨h.places.not_looping t u hpc hu, hu⟩
  · intro u hu
    rcases s.retryCheckCond.waits_settle t u _ hu with hold | ⟨hut,hpark⟩
    · exact Or.inl hold
    · exact Or.inr ⟨hut, (isRetrying_iff _).mp hpark⟩
  · rfl

theorem wakeOk_acquireReturn (s s' : LockClientCache τ ℓ) (h : WakeOk s)
    (hs : s.acquireReturn = some s') : WakeOk s' := by
  obtain ⟨t,lid,again,p,c,hcall,hc,rfl⟩ := return_cases s s' hs
  obtain ⟨u,l,b,r,hcall',hstep⟩ := threadStep_acquireReturn s c h.places hc
  cases hcall.symm.trans hcall'
  exact wakeOk_retried s c t lid h (by simp [h.places.calling t lid again _ hcall]) hstep

theorem wakeOk_wake (s s' : LockClientCache τ ℓ) (t : τ) (h : WakeOk s) (hs : s.wake t = some s') :
    WakeOk s' := by
  obtain ⟨lid,hpc,hcall,rfl⟩ := retryWoken_cases s s' t hs
  apply wakeOk_retried s _ t lid h (by simp [hpc])
  exact threadStep_retryLoop _ t lid (Or.inr hpc) fun l _ => callOn_eq_none _ l (by simp [hcall])

/-- The condition variable as it was, or after a signal. -/
def Signalled (q q' : CondVar τ) : Prop := q' = q ∨ ∃ w, q.signal w = some q'

theorem covered_signalled (q q' : CondVar τ) (p : τ → Prop) (h : Signalled q q')
    (hc : q.Covered p) :
    q'.Covered p := by
  rcases h with rfl | ⟨w,hw⟩
  · exact hc
  · exact q.covered_signal q' w hw p hc

theorem waits_signalled (q q' : CondVar τ) (t : τ) (h : Signalled q q') (ht : q'.Waits t) :
    q.Waits t := by
  rcases h with rfl | ⟨w,hw⟩
  · exact ht
  · exact q.waits_of_signal q' w hw t ht

/-- A step that leaves every lock alone, whoever it signals. -/
theorem wakeOk_signalled (s s' : LockClientCache τ ℓ) (h : WakeOk s)
    (hpc : s'.client.pc = s.client.pc)
    (hmap : s'.client.lockMap = s.client.lockMap) (hretry : s'.client.retryMap = s.client.retryMap)
    (hcall : s'.client.call = s.client.call) (hsig : s'.retrySignals = s.retrySignals)
    (hl : Signalled s.lockCheckCond s'.lockCheckCond)
    (hr : Signalled s.retryCheckCond s'.retryCheckCond) :
    WakeOk s' := by
  have hcallOn : ∀ l, s'.client.callOn l = s.client.callOn l := by
    intro l
    simp only [Client.callOn, hcall]
  refine ⟨?_, ?_, ?_⟩
  · apply placesOk_still s s' h.places hpc
    · exact fun u => waits_signalled _ _ u hl
    · exact fun u => waits_signalled _ _ u hr
    · exact Or.inl hcall
    · exact fun l hne => hmap ▸ hne
  · intro l hfree hnone
    rw [hmap] at hfree
    rw [hcallOn] at hnone
    unfold Client.LoopingAt
    rw [hpc]
    exact covered_signalled _ _ _ hl (h.lock l hfree hnone)
  · intro l htrue hno hnot
    rw [hretry] at htrue
    rw [hsig] at hno
    simp only [hcallOn] at hnot
    unfold Client.RetryingAt
    rw [hpc]
    exact covered_signalled _ _ _ hr (h.retry l htrue hno hnot)

/-- A section, not of a thread in `acquire`, that changes what is known of one lock at
most, with a signal to those who wait for locks. -/
structure LockSection (s s' : LockClientCache τ ℓ) (lid : ℓ) : Prop where
  pc : s'.client.pc = s.client.pc
  retryMap : s'.client.retryMap = s.client.retryMap
  retryCheckCond : s'.retryCheckCond = s.retryCheckCond
  retrySignals : s'.retrySignals = s.retrySignals
  lockCheckCond : Signalled s.lockCheckCond s'.lockCheckCond
  before : ∀ t l again p, s.client.call ≠ some (.acquire t l again p)
  after : ∀ t l again p, s'.client.call ≠ some (.acquire t l again p)
  others : ∀ l, l ≠ lid → s'.client.lockMap l = s.client.lockMap l ∧ s.client.callOn l = none
  entry : s.client.lockMap lid ≠ none → s'.client.lockMap lid ≠ none

theorem LockSection.of_no_call {s s' : LockClientCache τ ℓ} {lid : ℓ} (st : LockSt)
    (hcall : s.client.call = none)
    (hafter : ∀ t l again p, s'.client.call ≠ some (.acquire t l again p))
    (hmap : s'.client.lockMap = Function.update s.client.lockMap lid (some st))
    (hpc : s'.client.pc = s.client.pc) (hretry : s'.client.retryMap = s.client.retryMap)
    (hr : s'.retryCheckCond = s.retryCheckCond) (hsig : s'.retrySignals = s.retrySignals)
    (hl : Signalled s.lockCheckCond s'.lockCheckCond) : LockSection s s' lid := by
  refine ⟨hpc, hretry, hr, hsig, hl, by simp [hcall], hafter, ?_, ?_⟩
  · intro l hne
    rw [hmap]
    exact ⟨Function.update_of_ne hne _ _, callOn_eq_none _ l (by simp [hcall])⟩
  · simp [hmap]

/-- If the lock is at hand afterwards, the signal must be for it. -/
theorem wakeOk_lockSection (s s' : LockClientCache τ ℓ) (lid : ℓ) (h : WakeOk s)
    (hs : LockSection s s' lid) (hlock : LockOk s' lid) : WakeOk s' := by
  -- no retry was in use, so those who wait for one are covered as before
  have hnot : ∀ l t p, s.client.callOn l ≠ some (.acquire t true p) := by
    intro l t p
    unfold Client.callOn
    split
    · simp
    · next t' l' again' p' hc => exact absurd hc (hs.before t' l' again' p')
    · split_ifs <;> simp
  refine ⟨?_, ?_, ?_⟩
  · apply placesOk_still s s' h.places hs.pc
    · exact fun u => waits_signalled _ _ u hs.lockCheckCond
    · exact fun u hu => hs.retryCheckCond ▸ hu
    · exact Or.inr hs.after
    · intro l hl
      by_cases he : l = lid
      · subst he
        exact hs.entry hl
      · rwa [(hs.others l he).1]
  · intro l
    by_cases he : l = lid
    · exact he ▸ hlock
    · obtain ⟨hst,hcall⟩ := hs.others l he
      intro hfree _
      rw [hst] at hfree
      unfold Client.LoopingAt
      rw [hs.pc]
      exact covered_signalled _ _ _ hs.lockCheckCond (h.lock l hfree hcall)
  · intro l
    apply retryOk_still s s' l (h.retry l) hs.retryCheckCond
    · exact fun u _ => by rw [hs.pc]
    · rw [hs.retryMap, hs.retrySignals]
      exact And.intro
    · exact fun _ => hnot l

omit [DecidableEq τ] in
/-- Nothing is at hand while the lock is in use, asked for or on its way back. -/
theorem lockOk_of_releasing (s : LockClientCache τ ℓ) (lid : ℓ)
    (h : s.client.lockMap lid = some .releasing) : LockOk s lid := by
  intro hst
  simp [h] at hst

omit [DecidableEq τ] in
theorem lockOk_of_call (s : LockClientCache τ ℓ) (lid : ℓ) (p : RelPhase)
    (h : s.client.call = some (.release lid p)) : LockOk s lid := by
  intro _ hnone
  simp [Client.callOn, h] at hnone

theorem wakeOk_release (s s' : LockClientCache τ ℓ) (t : τ) (lid : ℓ) (w : Option τ) (h : WakeOk s)
    (hright : SignalsRight s (.release t lid w)) (hs : s.release t lid w = some s') :
    WakeOk s' := by
  obtain ⟨hcall,_,_,hcases⟩ := anyRelease_cases s s' t lid w hs
  have hno : ∀ t l again p, s.client.call ≠ some (.acquire t l again p) := by simp [hcall]
  rcases hcases with ⟨_,rfl⟩ | ⟨hmem,q,hq,rfl⟩
  · apply wakeOk_lockSection s _ lid h
    · exact .of_no_call .releasing hcall hno rfl rfl rfl rfl rfl (Or.inl rfl)
    · exact lockOk_of_releasing _ lid (Function.update_self ..)
  · apply wakeOk_lockSection s _ lid h
    · exact .of_no_call .free hcall hno rfl rfl rfl rfl rfl (Or.inr ⟨w, hq⟩)
    · intro _ _
      exact s.lockCheckCond.covered_of_wakesRight q w hq _ (hright.resolve_left hmem)

theorem wakeOk_revoke (s s' : LockClientCache τ ℓ) (lid : ℓ) (h : WakeOk s)
    (hs : s.revokeHandler lid = some s') : WakeOk s' := by
  obtain ⟨c,hc,rfl⟩ := Option.map_eq_some_iff.mp hs
  obtain ⟨hcall,⟨_,rfl⟩ | ⟨_,rfl⟩⟩ := revokeHandler_cases _ c lid hc
  · have hno : ∀ t l again p, s.client.call ≠ some (.acquire t l again p) := by simp [hcall]
    apply wakeOk_lockSection s _ lid h
    · exact .of_no_call .releasing hcall hno rfl rfl rfl rfl rfl (Or.inl rfl)
    · exact lockOk_of_releasing _ lid (Function.update_self ..)
  · exact wakeOk_signalled s _ h rfl rfl rfl rfl rfl (Or.inl rfl) (Or.inl rfl)

theorem wakeOk_round (s s' : LockClientCache τ ℓ) (w : Option τ) (h : WakeOk s)
    (hs : s.round w = some s') : WakeOk s' := by
  obtain ⟨hcall,⟨_,q,hq,rfl⟩ | ⟨lid,_,_,rfl⟩⟩ := round_cases s s' w hs
  · have hl : Signalled s.lockCheckCond q := Or.inr ⟨w, hq⟩
    exact wakeOk_signalled s
      { s with
        client := { s.client with revokerThreadStatus := false }, lockCheckCond := q,
        releaserPc := .top }
      h rfl rfl rfl rfl rfl hl (Or.inl rfl)
  · apply wakeOk_lockSection s _ lid h
    · exact .of_no_call .none hcall (by simp [Client.setCall]) rfl rfl rfl rfl rfl (Or.inl rfl)
    · exact lockOk_of_call _ lid .flushing rfl

theorem wakeOk_releaser (s s' : LockClientCache τ ℓ) (w : Option τ) (h : WakeOk s)
    (hs : s.releaser w = some s') : WakeOk s' := by
  rcases parkOrRound_cases s s' w hs with ⟨_,rfl⟩ | hround
  · exact wakeOk_signalled s _ h rfl rfl rfl rfl rfl (Or.inl rfl) (Or.inl rfl)
  · exact wakeOk_round s s' w h hround

omit [DecidableEq τ] in
/-- While a lock is given back no other call is under way. -/
theorem callOn_of_release (c : Client τ ℓ) (lid : ℓ) (p : RelPhase)
    (h : c.call = some (.release lid p)) :
    (∀ t l again q, c.call ≠ some (.acquire t l again q)) ∧ ∀ l, l ≠ lid → c.callOn l = none := by
  refine ⟨by simp [h], fun l hl => ?_⟩
  simp [Client.callOn, h, Ne.symm hl]

theorem wakeOk_releasePhase (s s' : LockClientCache τ ℓ) (p q : RelPhase) (h : WakeOk s)
    (hs : s.releasePhase p q = some s') : WakeOk s' := by
  obtain ⟨lid,hcall,rfl⟩ := releasePhase_cases s s' p q hs
  obtain ⟨hno,hnone⟩ := callOn_of_release _ lid p hcall
  apply wakeOk_lockSection s _ lid h
  · exact ⟨rfl, rfl, rfl, rfl, Or.inl rfl, hno, by simp [Client.setCall],
      fun l hl => ⟨rfl, hnone l hl⟩, id⟩
  · exact lockOk_of_call _ lid q rfl

theorem wakeOk_releaserEnd (s s' : LockClientCache τ ℓ) (w : Option τ) (h : WakeOk s)
    (hright : SignalsRight s (.releaserEnd w)) (hs : s.releaserEnd w = some s') : WakeOk s' := by
  obtain ⟨lid,q,hcall,hq,rfl⟩ := roundEnd_cases s s' w hs
  obtain ⟨hno,hnone⟩ := callOn_of_release _ lid _ hcall
  have hwakes := hright lid (by simp [Client.givenBack, hcall])
  apply wakeOk_lockSection s _ lid h
  · exact ⟨rfl, rfl, rfl, rfl, Or.inr ⟨w, hq⟩, hno, by simp, fun l hl => ⟨rfl, hnone l hl⟩, id⟩
  · intro _ _
    exact s.lockCheckCond.covered_of_wakesRight q w hq _ hwakes

omit [DecidableEq τ] in
theorem wakeOk_answer (s s' : LockClientCache τ ℓ) (r : Ret) (h : WakeOk s)
    (hr : r = .ok ∨ r = .retry) (hs : s.answer r = some s') : WakeOk s' := by
  obtain ⟨t,lid,again,hcall,rfl⟩ := answer_cases s s' r hs
  refine ⟨⟨h.places.looping, h.places.retrying, ?_, ?_, h.places.entry⟩, ?_, ?_⟩
  · intro u l b p hc
    cases hc
    exact h.places.calling t lid again _ hcall
  · intro u l b r' hc
    cases hc
    exact hr
  · intro l
    apply lockOk_still s _ l (h.lock l)
    · rfl
    · exact fun _ _ => rfl
    · exact id
    · simp [Client.callOn, Client.setCall, hcall]
  · intro l
    apply retryOk_still s _ l (h.retry l)
    · rfl
    · exact fun _ _ => rfl
    · exact And.intro
    · by_cases hl : lid = l <;> cases again <;> simp [Client.callOn, Client.setCall, hcall, hl]

omit [DecidableEq τ] in
theorem wakeOk_retry (s s' : LockClientCache τ ℓ) (lid : ℓ) (h : WakeOk s)
    (hs : s.retryHandler lid = some s') : WakeOk s' := by
  obtain ⟨c,hc,rfl⟩ := Option.map_eq_some_iff.mp hs
  obtain ⟨_,rfl⟩ := retryHandler_cases _ c lid hc
  refine ⟨⟨h.places.looping, h.places.retrying, h.places.calling, h.places.answered,
    h.places.entry⟩, ?_, ?_⟩
  · intro l
    exact h.lock l
  · intro l
    by_cases hl : l = lid
    · -- the signal is still to come
      intro _ hno
      exact absurd (hl ▸ List.mem_cons_self) hno
    · apply retryOk_still s _ l (h.retry l)
      · rfl
      · exact fun _ _ => rfl
      · intro htrue hno
        rw [show (s.client.setRetry lid true).retryMap l = s.client.retryMap l from
          Function.update_of_ne hl _ _] at htrue
        exact ⟨htrue, fun hmem => hno (List.mem_cons_of_mem _ hmem)⟩
      · exact id

theorem wakeOk_retrySignal (s s' : LockClientCache τ ℓ) (lid : ℓ) (w : Option τ) (h : WakeOk s)
    (hright : SignalsRight s (.retrySignal lid w)) (hs : s.retrySignal lid w = some s') :
    WakeOk s' := by
  obtain ⟨q,hq,rfl⟩ := retrySignal_cases s s' lid w hs
  refine ⟨?_, fun l => h.lock l, ?_⟩
  · apply placesOk_still s _ h.places
    · rfl
    · exact fun _ hu => hu
    · exact fun u => s.retryCheckCond.waits_of_signal q w hq u
    · exact Or.inl rfl
    · exact fun _ hne => hne
  · intro l htrue hno hnot
    by_cases hl : l = lid
    · subst hl
      exact s.retryCheckCond.covered_of_wakesRight q w hq _ hright
    · have hno' : l ∉ s.retrySignals := fun hmem => hno ((List.mem_erase_of_ne hl).mpr hmem)
      exact s.retryCheckCond.covered_signal q w hq _ (h.retry l htrue hno' hnot)

theorem wakeOk_step (s : LockClientCache τ ℓ) (a : ClientAct τ ℓ) (s' : LockClientCache τ ℓ)
    (h : WakeOk s) (hright : SignalsRight s a) (hs : s.step a = some s') : WakeOk s' := by
  cases a with
  | acquire t lid =>
    obtain ⟨c,hc,rfl⟩ := Option.map_eq_some_iff.mp hs
    exact wakeOk_acquire s c t lid h hc
  | acquireLoop t => exact wakeOk_acquireLoop s s' t h hs
  | answer r => exact wakeOk_answer s s' r h hright hs
  | acquireReturn => exact wakeOk_acquireReturn s s' h hs
  | wake t => exact wakeOk_wake s s' t h hs
  | release t lid w => exact wakeOk_release s s' t lid w h hright hs
  | revoke lid => exact wakeOk_revoke s s' lid h hs
  | retry lid => exact wakeOk_retry s s' lid h hs
  | retrySignal lid w => exact wakeOk_retrySignal s s' lid w h hright hs
  | releaser w => exact wakeOk_releaser s s' w h hs
  | dorelease | releaseAnswer => exact wakeOk_releasePhase s s' _ _ h hs
  | releaserEnd w => exact wakeOk_releaserEnd s s' w h hright hs
  | lockWake t =>
    obtain ⟨q,hq,rfl⟩ := Option.map_eq_some_iff.mp hs
    have hl : Signalled s.lockCheckCond q := Or.inr ⟨some t, hq⟩
    exact wakeOk_signalled s { s with lockCheckCond := q } h rfl rfl rfl rfl rfl hl (Or.inl rfl)
  | retryWake t =>
    obtain ⟨q,hq,rfl⟩ := Option.map_eq_some_iff.mp hs
    have hr : Signalled s.retryCheckCond q := Or.inr ⟨some t, hq⟩
    exact wakeOk_signalled s { s with retryCheckCond := q } h rfl rfl rfl rfl rfl (Or.inl rfl) hr
  | releaserWake =>
    simp only [LockClientCache.step, Option.ite_none_right_eq_some, Option.some.injEq] at hs
    rw [← hs.2]
    exact wakeOk_signalled s _ h rfl rfl rfl rfl rfl (Or.inl rfl) (Or.inl rfl)

omit [DecidableEq τ] in
theorem wakeOk_init : WakeOk (LockClientCache.init τ ℓ) := by
  refine ⟨⟨?_, ?_, nofun, nofun, nofun⟩, ?_, ?_⟩
  · rintro t (h | h) <;> cases h
  · rintro t (h | h) <;> cases h
  · rintro lid _ _ ⟨t,ht,_⟩
    cases ht
  · rintro lid _ _ _ ⟨t,ht,_⟩
    cases ht

/-- In a run whose signals all wake the right threads, once `lockMap` is free and
every thread that was woken up has looked, nobody is parked for a lock that is FREE
or NONE; and once every retry has also been signalled, nobody is parked for a retry
that has come in. -/
theorem no_lost_wakeup (acts : List (ClientAct τ ℓ)) (s : LockClientCache τ ℓ)
    (hrun : run LockClientCache.step (.init τ ℓ) acts = some s)
    (hright : RunAll LockClientCache.step SignalsRight (.init τ ℓ) acts)
    (hcall : s.client.call = none) :
    (s.lockCheckCond.woken = [] → ∀ t ∈ s.lockCheckCond.parked, ∀ lid, s.client.pc t =
      .looping lid →
      s.client.lockMap lid ≠ some .free ∧ s.client.lockMap lid ≠ some .none) ∧
    (s.retryCheckCond.woken = [] → s.retrySignals = [] → ∀ t ∈ s.retryCheckCond.parked, ∀ lid,
      s.client.pc t = .retrying lid → s.client.retryMap lid = false) := by
  have h : WakeOk s := run_invariant_of_all LockClientCache.step SignalsRight WakeOk
    (fun s a s' => wakeOk_step s a s') _ s acts wakeOk_init hright hrun
  have hnone : ∀ l, s.client.callOn l = none := fun l => callOn_eq_none _ l (by simp [hcall])
  constructor
  · intro hwoken t ht lid hat
    by_contra hst
    have hfree : s.client.lockMap lid = some .free ∨ s.client.lockMap lid = some .none := by
      rwa [not_and_or, not_not, not_not] at hst
    obtain ⟨u,hu,_⟩ := h.lock lid hfree (hnone lid) ⟨t, ht, hat⟩
    rw [hwoken] at hu
    cases hu
  · intro hwoken hsig t ht lid hat
    by_contra hst
    have htrue : s.client.retryMap lid = true := eq_true_of_ne_false hst
    obtain ⟨u,hu,_⟩ := h.retry lid htrue (by simp [hsig]) (by simp [hnone]) ⟨t, ht, hat⟩
    rw [hwoken] at hu
    cases hu

omit [DecidableEq ℓ] in
/-- A signal cannot go wrong while all parked threads wait for the same. -/
theorem wakesRight_of_same (q q' : CondVar τ) (pc : τ → Pc ℓ) (x : Pc ℓ) (w : Option τ)
    (hsame : ∀ t ∈ q.parked, ∀ u ∈ q.parked, pc t = pc u) (h : q.signal w = some q') :
    q.WakesRight (fun t => pc t = x) w := by
  rintro ⟨u,hu,hpu⟩
  rcases q.signal_cases q' w h with ⟨_,hnil,_⟩ | ⟨t,rfl,ht,_⟩
  · rw [hnil] at hu
    cases hu
  · exact ⟨t, rfl, (hsame t ht u hu).trans hpu⟩

/-- In particular the condition is met as long as the threads that are parked at the
same time wait for one lock, and the server does not fail. -/
theorem signalsRight_of_one_lock (s s' : LockClientCache τ ℓ) (a : ClientAct τ ℓ)
    (hs : s.step a = some s')
    (hlock : ∀ t ∈ s.lockCheckCond.parked, ∀ u ∈ s.lockCheckCond.parked, s.client.pc t =
      s.client.pc u)
    (hretry : ∀ t ∈ s.retryCheckCond.parked, ∀ u ∈ s.retryCheckCond.parked, s.client.pc t =
      s.client.pc u)
    (hanswer : ∀ r, a = .answer r → r = .ok ∨ r = .retry) : SignalsRight s a := by
  cases a with
  | release t lid w =>
    obtain ⟨_,_,_,⟨hmem,_⟩ | ⟨_,q,hq,_⟩⟩ := anyRelease_cases s s' t lid w hs
    · exact Or.inl hmem
    · exact Or.inr (wakesRight_of_same _ q _ _ w hlock hq)
  | releaserEnd w =>
    obtain ⟨_,q,_,hq,_⟩ := roundEnd_cases s s' w hs
    intro lid _
    exact wakesRight_of_same _ q _ _ w hlock hq
  | retrySignal lid w =>
    obtain ⟨q,hq,_⟩ := retrySignal_cases s s' lid w hs
    exact wakesRight_of_same _ q _ _ w hretry hq
  | answer r => exact hanswer r rfl
  | acquire | acquireLoop | acquireReturn | wake | revoke | retry | releaser | dorelease
  | releaseAnswer
  | lockWake | retryWake | releaserWake => trivial

end

/-- Threads 1 and 2 have locks 5 and 6, thread 3 waits for lock 5 and thread 4 for
lock 6. When lock 5 is released, thread 4 is woken up and parks again. -/
def wrongThreadWoken : List (ClientAct ℕ ℕ) :=
  [.acquire 1 5, .acquireLoop 1, .answer .ok, .acquireReturn,
    .acquire 2 6, .acquireLoop 2, .answer .ok, .acquireReturn,
    .acquire 3 5, .acquireLoop 3, .acquire 4 6, .acquireLoop 4,
    .release 1 5 (some 4), .acquireLoop 4]

/-- Likewise for retries: thread 3 waits for lock 5 and thread 4 for lock 6, both
taken by other clients; the retry for lock 5 wakes thread 4. -/
def wrongRetryWoken : List (ClientAct ℕ ℕ) :=
  [.acquire 3 5, .acquireLoop 3, .answer .retry, .acquireReturn,
    .acquire 4 6, .acquireLoop 4, .answer .retry, .acquireReturn,
    .retry 5, .retrySignal 5 (some 4), .wake 4]

theorem wakeup_lost_to_other_lock :
    (∃ s, run LockClientCache.step (.init ℕ ℕ) wrongThreadWoken = some s ∧ s.client.call = none ∧
      s.lockCheckCond.woken = [] ∧ s.retryCheckCond.woken = [] ∧ s.retrySignals = [] ∧
      3 ∈ s.lockCheckCond.parked ∧ s.client.pc 3 = .looping 5 ∧ s.client.lockMap 5 = some .free) ∧
    ∃ s, run LockClientCache.step (.init ℕ ℕ) wrongRetryWoken = some s ∧ s.client.call = none ∧
      s.lockCheckCond.woken = [] ∧ s.retryCheckCond.woken = [] ∧ s.retrySignals = [] ∧
      3 ∈ s.retryCheckCond.parked ∧ s.client.pc 3 = .retrying 5 ∧ s.client.retryMap 5 = true := by
  constructor
  · refine ⟨_, rfl, rfl, rfl, rfl, rfl, ?_, rfl, rfl⟩
    decide
  · refine ⟨_, rfl, rfl, rfl, rfl, rfl, ?_, rfl, rfl⟩
    decide

/-- Without thread 4, the release of lock 5 wakes thread 3 up, which takes it; thread 4
comes for the same lock and is parked while the lock is in use. -/
theorem no_lost_wakeup_one_lock :
    ∃ s, run LockClientCache.step (.init ℕ ℕ)
        (wrongThreadWoken.take 10 ++ [.release 1 5 (some 3), .acquireLoop 3, .acquire 4 5,
          .acquireLoop 4]) =
        some s ∧ 4 ∈ s.lockCheckCond.parked ∧ s.client.lockMap 5 ≠ some .free := by
  let acts := wrongThreadWoken.take 10 ++ [.release 1 5 (some 3), .acquireLoop 3, .acquire 4 5,
    .acquireLoop 4]
  have hends : ∃ s, run LockClientCache.step (.init ℕ ℕ) acts = some s ∧ s.client.call = none ∧
      s.lockCheckCond.woken = [] ∧ 4 ∈ s.lockCheckCond.parked ∧ s.client.pc 4 = .looping 5 := by
    decide
  obtain ⟨s,hrun,hcall,hwoken,hmem,hpc⟩ := hends
  have hall : RunAll LockClientCache.step SignalsRight (.init ℕ ℕ) acts := by decide
  exact ⟨s, hrun, hmem, ((no_lost_wakeup acts s hrun hall hcall).1 hwoken 4 hmem 5 hpc).1⟩

end Yfs.Lock
