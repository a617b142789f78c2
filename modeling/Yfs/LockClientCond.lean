import Yfs.LockClient
import Yfs.CondVar
import Yfs.Run

/-! `lock_client_cache` with its condition variables. The critical sections are those
of `Client`; a thread that such a section leaves waiting is parked and stays so until
it is signalled or wakes up by itself, and signals wake whom they like. Here `release`
may be called by any thread, and the server may answer what it likes. -/
namespace Yfs.Lock

/-- The releaser before its test of `revokerThreadStatus`, parked on `revoke_map_cond`,
out of the wait, or with a lock on its way back to the server. -/
inductive ReleaserPc
  | top
  | parked
  | woken
  | round
  deriving DecidableEq

/-- `retrySignals` are the calls of `retry_handler` that have unlocked `lockMap` and
not signalled yet. -/
structure LockClientCache (τ ℓ : Type*) where
  client : Client τ ℓ
  lockCheckCond : CondVar τ
  retryCheckCond : CondVar τ
  releaserPc : ReleaserPc
  retrySignals : List ℓ

def LockClientCache.init (τ ℓ : Type*) : LockClientCache τ ℓ :=
  ⟨.init τ ℓ, .empty, .empty, .top, []⟩

/-- `w` is the thread that a signal in the step wakes up. -/
inductive ClientAct (τ ℓ : Type*)
  | acquire (t : τ) (lid : ℓ)
  | acquireLoop (t : τ)
  | answer (r : Ret)
  | acquireReturn
  | wake (t : τ)
  | release (t : τ) (lid : ℓ) (w : Option τ)
  | revoke (lid : ℓ)
  | retry (lid : ℓ)
  | retrySignal (lid : ℓ) (w : Option τ)
  | releaser (w : Option τ)
  | dorelease
  | releaseAnswer
  | releaserEnd (w : Option τ)
  | lockWake (t : τ)
  | retryWake (t : τ)
  | releaserWake

section
variable {τ ℓ : Type*} [DecidableEq τ] [DecidableEq ℓ]

namespace LockClientCache

/-- `pthread_cond_signal(&revoke_map_cond)`. -/
def signalReleaser (p : ReleaserPc) : ReleaserPc := if p = .parked then .woken else p

/-- A thread that is still in the loop after looking has to wait. -/
def isLooping : Pc ℓ → Bool
  | .looping _ => true
  | _ => false

def isRetrying : Pc ℓ → Bool
  | .retrying _ => true
  | _ => false

def acquireLoop (s : LockClientCache τ ℓ) (t : τ) : Option (LockClientCache τ ℓ) :=
  if t ∈ s.lockCheckCond.parked then none
  else (s.client.acquireLoop t).map fun c =>
    { s with client := c, lockCheckCond := s.lockCheckCond.settle t (isLooping (c.pc t)) }

/-- The answer to `call_to_server`. -/
def answer (s : LockClientCache τ ℓ) (r : Ret) : Option (LockClientCache τ ℓ) :=
  match s.client.call with
  | some (.acquire t lid again .sent) =>
    some { s with client := s.client.setCall (some (.acquire t lid again (.answered r))) }
  | _ => none

def acquireReturn (s : LockClientCache τ ℓ) : Option (LockClientCache τ ℓ) :=
  match s.client.call with
  | some (.acquire t _ _ _) => s.client.acquireReturn.map fun c =>
    { s with client := c, retryCheckCond := s.retryCheckCond.settle t (isRetrying (c.pc t)) }
  | _ => none

def wake (s : LockClientCache τ ℓ) (t : τ) : Option (LockClientCache τ ℓ) :=
  if t ∈ s.retryCheckCond.woken then (s.client.wake t).map fun c =>
    { s with client := c, retryCheckCond := s.retryCheckCond.settle t (isRetrying (c.pc t)) }
  else none

/-- `release` does not ask whether the thread has acquired the lock. -/
def release (s : LockClientCache τ ℓ) (t : τ) (lid : ℓ) (w : Option τ) :
    Option (LockClientCache τ ℓ) :=
  ((s.client.setHeld t lid true).release t lid).bind fun c =>
    if lid ∈ s.client.revokeList then
      some { s with client := c, releaserPc := signalReleaser s.releaserPc }
    else (s.lockCheckCond.signal w).map fun q => { s with client := c, lockCheckCond := q }

def revokeHandler (s : LockClientCache τ ℓ) (lid : ℓ) : Option (LockClientCache τ ℓ) :=
  (s.client.revokeHandler lid).map fun c =>
    { s with
      client := c
      releaserPc := if s.client.lockMap lid = some .free then signalReleaser s.releaserPc
        else s.releaserPc }

def retryHandler (s : LockClientCache τ ℓ) (lid : ℓ) : Option (LockClientCache τ ℓ) :=
  (s.client.retryHandler lid).map fun c => { s with
    client := c, retrySignals := lid :: s.retrySignals }

/-- `lockMap` is not held here. -/
def retrySignal (s : LockClientCache τ ℓ) (lid : ℓ) (w : Option τ) : Option (LockClientCache τ ℓ) :=
  if lid ∈ s.retrySignals then (s.retryCheckCond.signal w).map fun q =>
    { s with retryCheckCond := q, retrySignals := s.retrySignals.erase lid }
  else none

/-- A round of the releaser, to its RPC or, if it finds nothing, to its end. -/
def round (s : LockClientCache τ ℓ) (w : Option τ) : Option (LockClientCache τ ℓ) :=
  s.client.releaser.bind fun c =>
    if c.call.isSome then some { s with client := c, releaserPc := .round }
    else (s.lockCheckCond.signal w).map fun q =>
      { s with client := c, lockCheckCond := q, releaserPc := .top }

/-- The flag is tested before the wait and not after it. -/
def releaser (s : LockClientCache τ ℓ) (w : Option τ) : Option (LockClientCache τ ℓ) :=
  match s.releaserPc with
  | .top =>
    if s.client.call.isSome then none
    else if s.client.revokerThreadStatus = false then some { s with releaserPc := .parked }
    else s.round w
  | .woken => s.round w
  | _ => none

/-- `dorelease` returns, or the release RPC does. -/
def releasePhase (s : LockClientCache τ ℓ) (p q : RelPhase) : Option (LockClientCache τ ℓ) :=
  match s.client.call with
  | some (.release lid p') =>
    if p' = p then some { s with client := s.client.setCall (some (.release lid q)) } else none
  | _ => none

def releaserEnd (s : LockClientCache τ ℓ) (w : Option τ) : Option (LockClientCache τ ℓ) :=
  s.client.releaserEnd.bind fun c => (s.lockCheckCond.signal w).map fun q =>
    { s with client := c, lockCheckCond := q, releaserPc := .top }

def step (s : LockClientCache τ ℓ) : ClientAct τ ℓ → Option (LockClientCache τ ℓ)
  | .acquire t lid => (s.client.acquire t lid).map fun c => { s with client := c }
  | .acquireLoop t => s.acquireLoop t
  | .answer r => s.answer r
  | .acquireReturn => s.acquireReturn
  | .wake t => s.wake t
  | .release t lid w => s.release t lid w
  | .revoke lid => s.revokeHandler lid
  | .retry lid => s.retryHandler lid
  | .retrySignal lid w => s.retrySignal lid w
  | .releaser w => s.releaser w
  | .dorelease => s.releasePhase .flushing .sent
  | .releaseAnswer => s.releasePhase .sent .answered
  | .releaserEnd w => s.releaserEnd w
  | .lockWake t => (s.lockCheckCond.signal (some t)).map fun q => { s with lockCheckCond := q }
  | .retryWake t => (s.retryCheckCond.signal (some t)).map fun q => { s with retryCheckCond := q }
  | .releaserWake =>
    if s.releaserPc = .parked then some { s with releaserPc := .woken } else none

end LockClientCache

section
variable (c c' : Client τ ℓ)

theorem acquire_cases (t : τ) (lid : ℓ) (h : c.acquire t lid = some c') :
    c.call = none ∧ c.pc t = .idle ∧
    ((c.lockMap lid = none ∧
        c' = ((c.setPc t (.looping lid)).setStatus lid .none).setRetry lid false) ∨
      (c.lockMap lid ≠ none ∧ c' = c.setPc t (.looping lid))) := by
  unfold Client.acquire at h
  split_ifs at h with h0
  push Not at h0
  refine ⟨by simpa using h0.1, h0.2, ?_⟩
  split at h <;> cases h
  · next hst => exact Or.inl ⟨hst, rfl⟩
  · next st hst => exact Or.inr ⟨by simp [hst], rfl⟩

theorem acquireLoop_cases (t : τ) (h : c.acquireLoop t = some c') :
    ∃ lid, c.pc t = .looping lid ∧ c.call = none ∧
    ((c.lockMap lid = some .none ∧ c' = c.callToServer t lid false) ∨
      (c.lockMap lid = some .free ∧ c' = (c.setStatus lid .locked).returnOk t lid) ∨
      (c.lockMap lid ≠ none ∧ c.lockMap lid ≠ some .none ∧ c.lockMap lid ≠ some .free ∧
        c' = c)) := by
  unfold Client.acquireLoop at h
  split at h
  · next lid hpc =>
    split_ifs at h with h0
    refine ⟨lid, hpc, by simpa using h0, ?_⟩
    split at h <;> cases h
    · next hst => exact Or.inl ⟨hst, rfl⟩
    · next hst => exact Or.inr (Or.inl ⟨hst, rfl⟩)
    · next st hnone hfree hst =>
        exact Or.inr (Or.inr ⟨by simp [hst], by simp_all, by simp_all, rfl⟩)
  · cases h

theorem acquireReturn_cases (h : c.acquireReturn = some c') :
    ∃ t lid again r, c.call = some (.acquire t lid again (.answered r)) ∧
    ((r = .ok ∧ c' = (if again = true then (c.setStatus lid .locked).setRetry lid false
        else c.setStatus lid .locked).returnOk t lid) ∨
      (r = .retry ∧ c' = (if again = true then c.setRetry lid false else c).retryLoop t lid) ∨
      ((∃ code, r = .other code) ∧
        c' = (if again = true then c.setRetry lid false else c).returnOk t lid)) := by
  unfold Client.acquireReturn at h
  split at h
  · next t lid r hc =>
    refine ⟨t, lid, false, r, hc, ?_⟩
    split at h <;> cases h <;> simp
  · next t lid r hc =>
    refine ⟨t, lid, true, r, hc, ?_⟩
    split at h <;> cases h <;> simp
  · cases h

theorem wake_cases (t : τ) (h : c.wake t = some c') :
    ∃ lid, c.pc t = .retrying lid ∧ c.call = none ∧ c' = c.retryLoop t lid := by
  unfold Client.wake at h
  split at h
  · next lid hpc =>
    split_ifs at h with h0
    cases h
    exact ⟨lid, hpc, by simpa using h0, rfl⟩
  · cases h

theorem release_cases (t : τ) (lid : ℓ) (h : c.release t lid = some c') :
    c.call = none ∧ c.pc t = .idle ∧ c.lockMap lid ≠ none ∧
    ((lid ∈ c.revokeList ∧
        c' = { (c.setHeld t lid false).setStatus lid .releasing with
          revokerThreadStatus := true }) ∨
      (lid ∉ c.revokeList ∧ c' = (c.setHeld t lid false).setStatus lid .free)) := by
  unfold Client.release at h
  split_ifs at h with h0 hr <;> push Not at h0 <;> obtain ⟨hc,hpc,_,hst⟩ := h0 <;> cases h
  · exact ⟨by simpa using hc, hpc, hst, Or.inl ⟨hr, rfl⟩⟩
  · exact ⟨by simpa using hc, hpc, hst, Or.inr ⟨hr, rfl⟩⟩

section
omit [DecidableEq τ]

theorem revokeHandler_cases (lid : ℓ) (h : c.revokeHandler lid = some c') :
    c.call = none ∧
    ((c.lockMap lid = some .free ∧ c' = { c.setStatus lid .releasing with
        revokerThreadStatus := true
        revokeList := c.revokeList ++ [lid] }) ∨
      (c.lockMap lid ≠ some .free ∧ c' = { c with revokeList := c.revokeList ++ [lid] })) := by
  unfold Client.revokeHandler at h
  split_ifs at h with h0
  refine ⟨by simpa using h0, ?_⟩
  split at h <;> cases h
  · next hst => exact Or.inl ⟨hst, rfl⟩
  · next st hst hne => exact Or.inr ⟨by simp_all, rfl⟩

theorem retryHandler_cases (lid : ℓ) (h : c.retryHandler lid = some c') :
    c.call = none ∧ c' = c.setRetry lid true := by
  unfold Client.retryHandler at h
  split_ifs at h with h0
  cases h
  exact ⟨by simpa using h0, rfl⟩

theorem releaser_cases (h : c.releaser = some c') :
    c.call = none ∧
    (((∀ lid ∈ c.revokeList, c.lockMap lid ≠ some .releasing) ∧
        c' = { c with revokerThreadStatus := false }) ∨
      ∃ lid ∈ c.revokeList, c.lockMap lid = some .releasing ∧
        c' = (c.setStatus lid .none).setCall (some (.release lid .flushing))) := by
  unfold Client.releaser at h
  split_ifs at h with h0
  refine ⟨by simpa using h0, ?_⟩
  split at h <;> cases h
  · next hf => exact Or.inl ⟨by simpa using hf, rfl⟩
  · next lid hf =>
    exact Or.inr ⟨lid, List.mem_of_find?_eq_some hf, by simpa using List.find?_some hf, rfl⟩

theorem releaserEnd_cases (h : c.releaserEnd = some c') :
    ∃ lid, c.call = some (.release lid .answered) ∧
      c' = { c with
      call := none, revokeList := c.revokeList.erase lid, revokerThreadStatus := false } := by
  unfold Client.releaserEnd at h
  split at h
  · next lid hc =>
    cases h
    exact ⟨lid, hc, rfl⟩
  · cases h

end

end

section
variable (s s' : LockClientCache τ ℓ)
open LockClientCache

omit [DecidableEq τ] [DecidableEq ℓ] in
theorem answer_cases (r : Ret) (h : s.answer r = some s') :
    ∃ t lid again, s.client.call = some (.acquire t lid again .sent) ∧
      s' = { s with client := s.client.setCall (some (.acquire t lid again (.answered r))) } := by
  unfold answer at h
  split at h
  · next t lid again hc =>
    cases h
    exact ⟨t, lid, again, hc, rfl⟩
  · cases h

theorem loop_cases (t : τ) (h : s.acquireLoop t = some s') :
    ∃ c, s.client.acquireLoop t = some c ∧
      s' = { s with
      client := c, lockCheckCond := s.lockCheckCond.settle t (isLooping (c.pc t)) } := by
  simp only [LockClientCache.acquireLoop, Option.ite_none_left_eq_some] at h
  obtain ⟨c,hc,rfl⟩ := Option.map_eq_some_iff.mp h.2
  exact ⟨c, hc, rfl⟩

/-- The inner loop, after a call or after a wait: the thread waits if it is still in it. -/
theorem return_cases (h : s.acquireReturn = some s') :
    ∃ t lid again p c, s.client.call = some (.acquire t lid again p) ∧
    s.client.acquireReturn = some c ∧
      s' = { s with
      client := c, retryCheckCond := s.retryCheckCond.settle t (isRetrying (c.pc t)) } := by
  unfold LockClientCache.acquireReturn at h
  split at h
  · next t lid again p hcall =>
    obtain ⟨c,hc,rfl⟩ := Option.map_eq_some_iff.mp h
    exact ⟨t, lid, again, p, c, hcall, hc, rfl⟩
  · cases h

theorem retryWoken_cases (t : τ) (h : s.wake t = some s') :
    ∃ lid, s.client.pc t = .retrying lid ∧ s.client.call = none ∧ s' = { s with
      client := s.client.retryLoop t lid
      retryCheckCond := s.retryCheckCond.settle t
        (isRetrying ((s.client.retryLoop t lid).pc t)) } := by
  simp only [LockClientCache.wake, Option.ite_none_right_eq_some] at h
  obtain ⟨c,hc,rfl⟩ := Option.map_eq_some_iff.mp h.2
  obtain ⟨lid,hpc,hcall,rfl⟩ := wake_cases _ c t hc
  exact ⟨lid, hpc, hcall, rfl⟩

theorem anyRelease_cases (t : τ) (lid : ℓ) (w : Option τ) (h : s.release t lid w = some s') :
    s.client.call = none ∧ s.client.pc t = .idle ∧ s.client.lockMap lid ≠ none ∧
    ((lid ∈ s.client.revokeList ∧ s' = { s with
        client := { (s.client.setHeld t lid false).setStatus lid .releasing with
        revokerThreadStatus := true }
        releaserPc := signalReleaser s.releaserPc }) ∨
      (lid ∉ s.client.revokeList ∧ ∃ q, s.lockCheckCond.signal w = some q ∧ s' = { s with
        client := (s.client.setHeld t lid false).setStatus lid .free
        lockCheckCond := q })) := by
  have hheld : (s.client.setHeld t lid true).setHeld t lid false =
      s.client.setHeld t lid false := by
    simp [Client.setHeld]
  obtain ⟨c,hc,hs⟩ := Option.bind_eq_some_iff.mp h
  obtain ⟨hcall,hpc,hst,hcases⟩ := release_cases _ c t lid hc
  rw [hheld] at hcases
  refine ⟨hcall, hpc, hst, ?_⟩
  rcases hcases with ⟨hmem,rfl⟩ | ⟨hmem,rfl⟩
  · change lid ∈ s.client.revokeList at hmem
    rw [if_pos hmem, Option.some.injEq] at hs
    exact Or.inl ⟨hmem, hs.symm⟩
  · change lid ∉ s.client.revokeList at hmem
    rw [if_neg hmem] at hs
    obtain ⟨q,hq,rfl⟩ := Option.map_eq_some_iff.mp hs
    exact Or.inr ⟨hmem, q, hq, rfl⟩

theorem retrySignal_cases (lid : ℓ) (w : Option τ) (h : s.retrySignal lid w = some s') :
    ∃ q, s.retryCheckCond.signal w = some q ∧
      s' = { s with retryCheckCond := q, retrySignals := s.retrySignals.erase lid } := by
  simp only [retrySignal, Option.ite_none_right_eq_some] at h
  obtain ⟨q,hq,rfl⟩ := Option.map_eq_some_iff.mp h.2
  exact ⟨q, hq, rfl⟩

theorem round_cases (w : Option τ) (h : s.round w = some s') :
    s.client.call = none ∧
    (((∀ lid ∈ s.client.revokeList, s.client.lockMap lid ≠ some .releasing) ∧
        ∃ q, s.lockCheckCond.signal w = some q ∧ s' = { s with
          client := { s.client with revokerThreadStatus := false }
          lockCheckCond := q
          releaserPc := .top }) ∨
      ∃ lid ∈ s.client.revokeList, s.client.lockMap lid = some .releasing ∧ s' = { s with
        client := (s.client.setStatus lid .none).setCall (some (.release lid .flushing))
        releaserPc := .round }) := by
  obtain ⟨c,hc,hs⟩ := Option.bind_eq_some_iff.mp h
  obtain ⟨hcall,⟨hnone,rfl⟩ | ⟨lid,hmem,hst,rfl⟩⟩ := releaser_cases _ c hc
  · rw [if_neg (by simp [hcall])] at hs
    obtain ⟨q,hq,rfl⟩ := Option.map_eq_some_iff.mp hs
    exact ⟨hcall, Or.inl ⟨hnone, q, hq, rfl⟩⟩
  · exact ⟨hcall, Or.inr ⟨lid, hmem, hst, (Option.some.inj hs).symm⟩⟩

/-- The releaser parks when the flag is down, or goes through the list. -/
theorem parkOrRound_cases (w : Option τ) (h : s.releaser w = some s') :
    (s.client.revokerThreadStatus = false ∧ s' = { s with releaserPc := .parked }) ∨
      s.round w = some s' := by
  unfold releaser at h
  split at h
  · split_ifs at h with hcall hflag
    · exact Or.inl ⟨hflag, (Option.some.inj h).symm⟩
    · exact Or.inr h
  · exact Or.inr h
  · cases h

omit [DecidableEq τ] [DecidableEq ℓ] in
theorem releasePhase_cases (p q : RelPhase) (h : s.releasePhase p q = some s') :
    ∃ lid, s.client.call = some (.release lid p) ∧
      s' = { s with client := s.client.setCall (some (.release lid q)) } := by
  unfold releasePhase at h
  split at h
  · next lid p' hcall =>
    split_ifs at h with hp
    cases h
    exact ⟨lid, hp ▸ hcall, rfl⟩
  · cases h

theorem roundEnd_cases (w : Option τ) (h : s.releaserEnd w = some s') :
    ∃ lid q, s.client.call = some (.release lid .answered) ∧ s.lockCheckCond.signal w = some q ∧
      s' = { s with
        client := { s.client with
          call := none
          revokeList := s.client.revokeList.erase lid
          revokerThreadStatus := false }
        lockCheckCond := q
        releaserPc := .top } := by
  obtain ⟨c,hc,hs⟩ := Option.bind_eq_some_iff.mp h
  obtain ⟨q,hq,rfl⟩ := Option.map_eq_some_iff.mp hs
  obtain ⟨lid,hcall,rfl⟩ := releaserEnd_cases _ c hc
  exact ⟨lid, q, hcall, hq, rfl⟩

end
end
end Yfs.Lock
