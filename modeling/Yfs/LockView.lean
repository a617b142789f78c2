import Yfs.LockSystem

namespace Yfs.Lock

inductive CallView (τ : Type*)
  | acquire (t : τ) (again : Bool) (p : AcqPhase)
  | release (p : RelPhase)

/-- A client's data about one lock; `revoked` counts it in `revoke_list`. -/
@[ext] structure ClientView (τ : Type*) where
  st : Option LockSt
  retry : Bool
  revoked : ℕ
  call : Option (CallView τ)
  waiting : τ → Prop
  held : τ → Bool

/-- `retries` and `revokes` are the clients with an undelivered entry for the lock,
in the order of the server's lists. -/
structure View (κ τ : Type*) where
  entry : Option (LockStatus κ)
  retries : List κ
  revokes : List (Option κ)
  cl : κ → ClientView τ
  answered : κ → Option Ret

section
variable {κ τ ℓ ω : Type*} [DecidableEq κ] [DecidableEq τ] [DecidableEq ℓ]

def Client.callOn (c : Client τ ℓ) (lid : ℓ) : Option (CallView τ) :=
  match c.call with
  | none => none
  | some (.acquire t l again p) => if l = lid then some (.acquire t again p) else none
  | some (.release l p) => if l = lid then some (.release p) else none

def Client.view (c : Client τ ℓ) (lid : ℓ) : ClientView τ where
  st := c.lockMap lid
  retry := c.retryMap lid
  revoked := c.revokeList.count lid
  call := c.callOn lid
  waiting t := c.pc t = .retrying lid
  held t := c.held t lid

def entriesFor {γ : Type*} (q : CallQueue (γ × ℓ)) (lid : ℓ) : List γ :=
  (q.pending.filter fun x => x.2 = lid).map Prod.fst

def Sys.view (s : Sys κ τ ℓ ω) (lid : ℓ) : View κ τ where
  entry := s.server.lockStatusMap lid
  retries := entriesFor s.server.retryList lid
  revokes := entriesFor s.server.revokeList lid
  cl i := (s.clients i).view lid
  answered i := s.answered i lid

/-- What a critical section of one client can do to its data about a lock. -/
inductive CStep (v : ClientView τ) : ClientView τ → Prop
  | stay : CStep v v
  | enter (hst : v.st = none) : CStep v { v with st := some .none, retry := false }
  | call (t : τ) (hst : v.st = some .none) (hc : v.call = none) :
      CStep v { v with call := some (.acquire t false .sent) }
  | take (t : τ) (hst : v.st = some .free) (hc : v.call = none) :
      CStep v { v with st := some .locked, call := none, held := Function.update v.held t true }
  | grant (t : τ) (again : Bool) (hc : v.call = some (.acquire t again (.answered .ok))) :
      CStep v { v with
        st := some .locked
        retry := if again = true then false else v.retry
        call := none
        held := Function.update v.held t true }
  | park (t : τ) (again : Bool) (hc : v.call = some (.acquire t again (.answered .retry)))
      (hr : again = true ∨ v.retry = false) :
      CStep v { v with
        st := some .acquiring
        retry := false
        call := none
        waiting := Function.update v.waiting t True }
  | again (t : τ) (hc : v.call = some (.acquire t false (.answered .retry))) (hr : v.retry = true) :
      CStep v { v with st := some .acquiring, call := some (.acquire t true .sent) }
  | failed (t : τ) (again : Bool) (code : ℤ)
      (hc : v.call = some (.acquire t again (.answered (.other code)))) :
      CStep v { v with
        retry := if again = true then false else v.retry
        call := none
        held := Function.update v.held t true }
  | wake (t : τ) (hw : v.waiting t) (hc : v.call = none) (hr : v.retry = true) :
      CStep v { v with
        st := some .acquiring
        call := some (.acquire t true .sent)
        waiting := Function.update v.waiting t False }
  | rest (t : τ) (hw : v.waiting t) (hc : v.call = none) (hr : v.retry = false) :
      CStep v { v with st := some .acquiring }
  | release (t : τ) (hh : v.held t = true) (hc : v.call = none) :
      CStep v { v with
        st := some (if 0 < v.revoked then .releasing else .free)
        held := Function.update v.held t false }
  | releaser (hst : v.st = some .releasing) (hr : 0 < v.revoked) (hc : v.call = none) :
      CStep v { v with st := some .none, call := some (.release .flushing) }
  | releaserEnd (hc : v.call = some (.release .answered)) :
      CStep v { v with call := none, revoked := v.revoked-1 }

/-- What a step of the system can do to the view of a lock. `f` says whether the
step may be a `dorelease`. -/
inductive VStep (f : Prop) (v : View κ τ) : View κ τ → Prop
  | stay : VStep f v v
  | client (i : κ) (w : ClientView τ) (h : CStep (v.cl i) w) :
      VStep f v { v with cl := Function.update v.cl i w }
  | flushed (i : κ) (hf : f) (hc : (v.cl i).call = some (.release .flushing)) :
      VStep f v { v with
        cl := Function.update v.cl i { v.cl i with call := some (.release .sent) } }
  | acquire (i : κ) (t : τ) (again : Bool) (hc : (v.cl i).call = some (.acquire t again .sent)) :
      VStep f v { v with
        entry := some (acquireEntry v.entry i).entry
        revokes := v.revokes ++ (acquireEntry v.entry i).revoke.toList
        cl := Function.update v.cl i { v.cl i with
          call := some (.acquire t again (.answered (acquireEntry v.entry i).ret)) }
        answered := Function.update v.answered i (some (acquireEntry v.entry i).ret) }
  | release (i : κ) (e : LockStatus κ) (hc : (v.cl i).call = some (.release .sent))
      (he : v.entry = some e) (hst : e.status = .locked) :
      VStep f v { v with
        entry := some (releaseEntry e i).1
        retries := v.retries ++ (releaseEntry e i).2.toList
        cl := Function.update v.cl i { v.cl i with call := some (.release .answered) } }
  | refused (i : κ) (hc : (v.cl i).call = some (.release .sent))
      (he : ∀ e, v.entry = some e → e.status ≠ .locked) :
      VStep f v { v with
        cl := Function.update v.cl i { v.cl i with call := some (.release .answered) } }
  | revoke (i : κ) (rs : List (Option κ)) (hr : v.revokes = some i :: rs)
      (hc : (v.cl i).call = none) (hst : (v.cl i).st ≠ none) :
      VStep f v { v with
        revokes := rs
        cl := Function.update v.cl i { v.cl i with
          st := if (v.cl i).st = some .free then some .releasing else (v.cl i).st
          revoked := (v.cl i).revoked+1 } }
  | retry (i : κ) (rs : List κ) (hr : v.retries = i :: rs) (hc : (v.cl i).call = none) :
      VStep f v { v with
        retries := rs
        cl := Function.update v.cl i { v.cl i with retry := true } }

/-- While a thread is in `call_to_server` it is nowhere else. -/
def Client.CallOk (c : Client τ ℓ) : Prop :=
  ∀ t lid again p, c.call = some (.acquire t lid again p) → c.pc t = .calling lid

omit [DecidableEq τ] in
theorem callOn_eq_none (c : Client τ ℓ) (lid : ℓ) (h : ¬ c.call.isSome) : c.callOn lid = none := by
  have hn : c.call = none := by simpa using h
  simp only [Client.callOn, hn]

section simps
variable (c : Client τ ℓ) (lid l : ℓ)

omit [DecidableEq τ] in
@[simp] theorem view_setStatus (st : LockSt) : (c.setStatus lid st).view l =
    { c.view l with st := if l = lid then some st else (c.view l).st } := by
  ext <;> simp [Client.view, Client.setStatus, Client.callOn, Function.update_apply]

omit [DecidableEq τ] in
@[simp] theorem view_setRetry (b : Bool) : (c.setRetry lid b).view l =
    { c.view l with retry := if l = lid then b else (c.view l).retry } := by
  ext <;> simp [Client.view, Client.setRetry, Client.callOn, Function.update_apply]

@[simp] theorem view_setHeld (t : τ) (b : Bool) : (c.setHeld t lid b).view l =
    { c.view l with
    held := if l = lid then Function.update (c.view l).held t b else (c.view l).held } := by
  ext u
  case held =>
    by_cases hl : l = lid <;> by_cases hu : u = t <;> simp [Client.view, Client.setHeld, hl, hu]
  all_goals simp [Client.view, Client.setHeld, Client.callOn]

@[simp] theorem view_setPc (t : τ) (p : Pc ℓ) : (c.setPc t p).view l =
    { c.view l with waiting := Function.update (c.view l).waiting t (p = .retrying l) } := by
  ext u
  case waiting => by_cases hu : u = t <;> simp [Client.view, Client.setPc, hu]
  all_goals simp [Client.view, Client.setPc, Client.callOn]

section
omit [DecidableEq τ]

@[simp] theorem view_setCall (a : Option (Call τ ℓ)) : (c.setCall a).view l =
    { c.view l with call := (c.setCall a).callOn l } := by
  ext <;> simp [Client.view, Client.setCall]

@[simp] theorem callOn_setCall_none : (c.setCall none).callOn l = none := rfl

@[simp] theorem callOn_setCall_acquire (t : τ) (again : Bool) (p : AcqPhase) :
    (c.setCall (some (.acquire t lid again p))).callOn l =
      if lid = l then some (.acquire t again p) else none := rfl

@[simp] theorem callOn_setCall_release (p : RelPhase) :
    (c.setCall (some (.release lid p))).callOn l = if lid = l then some (.release p) else none :=
  rfl

end

end simps

/-- A thread that is not parked for the lock stays so when it goes elsewhere. -/
theorem waiting_update (c : Client τ ℓ) (t : τ) (l : ℓ) (h : c.pc t ≠ .retrying l) :
    Function.update (c.view l).waiting t False = (c.view l).waiting := by
  simp [Client.view, h]

theorem acquire_cstep (c c' : Client τ ℓ) (t : τ) (lid l : ℓ) (h : c.acquire t lid = some c') :
    CStep (c.view l) (c'.view l) := by
  unfold Client.acquire at h
  split_ifs at h with h0
  push Not at h0
  have hw := waiting_update c t l (by simp [h0.2])
  split at h <;> cases h
  · next hst =>
    by_cases hl : l = lid
    · subst hl
      simpa [hw] using CStep.enter (v := c.view l) hst
    · simpa [hw, hl] using CStep.stay (v := c.view l)
  · simpa [hw] using CStep.stay (v := c.view l)

theorem cstep_of_eq (v w : ClientView τ) (h : w = v) : CStep v w := h ▸ .stay

theorem acquireLoop_cstep (c c' : Client τ ℓ) (t : τ) (l : ℓ) (h : c.acquireLoop t = some c') :
    CStep (c.view l) (c'.view l) := by
  unfold Client.acquireLoop at h
  split at h
  · next lid hpc =>
    have hw := waiting_update c t l (by simp [hpc])
    split_ifs at h with h0
    have hc : (c.view l).call = none := callOn_eq_none c l h0
    split at h <;> cases h
    · next hst =>
      by_cases hl : l = lid
      · subst hl
        simpa [hw, Client.callToServer] using CStep.call (v := c.view l) t hst hc
      · apply cstep_of_eq
        ext <;> simp [hw, Client.callToServer, Ne.symm hl, hc]
    · next hst =>
      by_cases hl : l = lid
      · subst hl
        simpa [hw, Client.returnOk] using CStep.take (v := c.view l) t hst hc
      · apply cstep_of_eq
        ext <;> simp [hw, Client.returnOk, hl, hc]
    · exact .stay
  · cases h

/-- A pass of the inner loop by a thread that made the call or was parked. -/
theorem retryLoop_view (c : Client τ ℓ) (t : τ) (lid : ℓ) :
    (c.retryLoop t lid).view lid =
      if c.retryMap lid = false then
        { c.view lid with
          st := some .acquiring
          call := none
          waiting := Function.update (c.view lid).waiting t True }
      else
        { c.view lid with
          st := some .acquiring
          call := some (.acquire t true .sent)
          waiting := Function.update (c.view lid).waiting t False } := by
  unfold Client.retryLoop
  split_ifs <;> simp [Client.callToServer]

theorem retryLoop_view_of_ne (c : Client τ ℓ) (t : τ) (lid l : ℓ) (hl : l ≠ lid)
    (hc : c.callOn l = none) (hpc : c.pc t ≠ .retrying l) :
    (c.retryLoop t lid).view l = c.view l := by
  have hw := waiting_update c t l hpc
  have hv : (c.view l).call = none := hc
  unfold Client.retryLoop
  split_ifs <;> ext <;> simp [Client.callToServer, hw, hl, hv, Ne.symm hl]

theorem wake_cstep (c c' : Client τ ℓ) (t : τ) (l : ℓ) (h : c.wake t = some c') :
    CStep (c.view l) (c'.view l) := by
  unfold Client.wake at h
  split at h
  · next lid hpc =>
    split_ifs at h with h0
    cases h
    have hc : (c.view l).call = none := callOn_eq_none c l h0
    by_cases hl : l = lid
    · subst hl
      have hwait : (c.view l).waiting t := hpc
      rw [retryLoop_view]
      split_ifs with hr
      · have hv : Function.update (c.view l).waiting t True = (c.view l).waiting := by simp [hwait]
        rw [hv, ← hc]
        exact .rest t hwait hc hr
      · exact .wake t hwait hc (eq_true_of_ne_false hr)
    · exact cstep_of_eq _ _ (retryLoop_view_of_ne c t lid l hl hc (by simp [hpc, Ne.symm hl]))
  · cases h

omit [DecidableEq τ] in
theorem callOn_acquire (c : Client τ ℓ) (t : τ) (lid l : ℓ) (again : Bool) (p : AcqPhase)
    (h : c.call = some (.acquire t lid again p)) :
    (c.view l).call = if lid = l then some (.acquire t again p) else none := by
  simp only [Client.view, Client.callOn, h]

omit [DecidableEq τ] in
theorem callOn_release (c : Client τ ℓ) (lid l : ℓ) (p : RelPhase)
    (h : c.call = some (.release lid p)) :
    (c.view l).call = if lid = l then some (.release p) else none := by
  simp only [Client.view, Client.callOn, h]

/-- After OK the thread holds the lock, and the flag is down if it was used. -/
theorem granted_cstep (c : Client τ ℓ) (t : τ) (lid l : ℓ) (again : Bool)
    (hc : c.call = some (.acquire t lid again (.answered .ok))) (hpc : c.pc t = .calling lid) :
    CStep (c.view l) (((if again = true then (c.setStatus lid .locked).setRetry lid false
      else c.setStatus lid .locked).returnOk t lid).view l) := by
  have hw := waiting_update c t l (by simp [hpc])
  have hv := callOn_acquire c t lid l again _ hc
  by_cases hl : l = lid
  · subst hl
    rw [if_pos rfl] at hv
    have hg := CStep.grant t again hv
    cases again <;> simpa [Client.returnOk, hw] using hg
  · apply cstep_of_eq
    rw [if_neg (Ne.symm hl)] at hv
    cases again <;> ext <;> simp [Client.returnOk, hw, hl, hv]

theorem failed_cstep (c : Client τ ℓ) (t : τ) (lid l : ℓ) (again : Bool) (code : ℤ)
    (hc : c.call = some (.acquire t lid again (.answered (.other code))))
    (hpc : c.pc t = .calling lid) :
    CStep (c.view l)
    (((if again = true then c.setRetry lid false else c).returnOk t lid).view l) := by
  have hw := waiting_update c t l (by simp [hpc])
  have hv := callOn_acquire c t lid l again _ hc
  by_cases hl : l = lid
  · subst hl
    rw [if_pos rfl] at hv
    have hg := CStep.failed t again code hv
    cases again <;> simpa [Client.returnOk, hw] using hg
  · apply cstep_of_eq
    rw [if_neg (Ne.symm hl)] at hv
    cases again <;> ext <;> simp [Client.returnOk, hw, hl, hv]

theorem refused_cstep (c : Client τ ℓ) (t : τ) (lid l : ℓ) (again : Bool)
    (hc : c.call = some (.acquire t lid again (.answered .retry))) (hpc : c.pc t = .calling lid) :
    CStep (c.view l)
    (((if again = true then c.setRetry lid false else c).retryLoop t lid).view l) := by
  have hw := waiting_update c t l (by simp [hpc])
  have hv := callOn_acquire c t lid l again _ hc
  by_cases hl : l = lid
  · subst hl
    rw [if_pos rfl] at hv
    rw [retryLoop_view]
    cases again with
    | false =>
      simp only [Bool.false_eq_true, if_false]
      split_ifs with hr
      · have hp := CStep.park t false hv (Or.inr hr)
        rwa [show (false : Bool) = (c.view l).retry from hr.symm] at hp
      · rw [hw]
        exact .again t hv (eq_true_of_ne_false hr)
    | true =>
      have hr : (c.setRetry l false).retryMap l = false := Function.update_self ..
      rw [if_pos rfl, if_pos hr]
      simpa using CStep.park t true hv (Or.inl rfl)
  · apply cstep_of_eq
    rw [if_neg (Ne.symm hl)] at hv
    cases again with
    | false => exact retryLoop_view_of_ne c t lid l hl hv (by simp [hpc])
    | true =>
      have hr :=
        retryLoop_view_of_ne (c.setRetry lid false) t lid l hl hv (by simp [Client.setRetry, hpc])
      simpa [hl] using hr

theorem acquireReturn_cstep (c c' : Client τ ℓ) (l : ℓ) (hok : c.CallOk)
    (h : c.acquireReturn = some c') : CStep (c.view l) (c'.view l) := by
  unfold Client.acquireReturn at h
  split at h
  · next t lid r hc =>
    have hpc := hok _ _ _ _ hc
    split at h <;> cases h
    · exact granted_cstep c t lid l false hc hpc
    · exact refused_cstep c t lid l false hc hpc
    · exact failed_cstep c t lid l false _ hc hpc
  · next t lid r hc =>
    have hpc := hok _ _ _ _ hc
    split at h <;> cases h
    · exact granted_cstep c t lid l true hc hpc
    · exact refused_cstep c t lid l true hc hpc
    · exact failed_cstep c t lid l true _ hc hpc
  · cases h

theorem released_cstep (c : Client τ ℓ) (t : τ) (lid l : ℓ) (hc : (c.view l).call = none)
    (hh : c.held t lid = true) :
    CStep (c.view l) (((c.setHeld t lid false).setStatus lid
      (if 0 < (c.view lid).revoked then .releasing else .free)).view l) := by
  by_cases hl : l = lid
  · subst hl
    simpa using CStep.release (v := c.view l) t hh hc
  · simpa [hl] using CStep.stay (v := c.view l)

theorem release_cstep (c c' : Client τ ℓ) (t : τ) (lid l : ℓ) (h : c.release t lid = some c') :
    CStep (c.view l) (c'.view l) := by
  unfold Client.release at h
  split_ifs at h with h0 hr <;> push Not at h0 <;> obtain ⟨hc,_,hh,_⟩ := h0 <;> cases h
  all_goals
    have hrel := released_cstep c t lid l (callOn_eq_none c l hc) (eq_true_of_ne_false hh)
  · have hpos : 0 < (c.view lid).revoked := List.count_pos_iff.mpr hr
    rwa [if_pos hpos] at hrel
  · have hpos : ¬ 0 < (c.view lid).revoked := fun hp => hr (List.count_pos_iff.mp hp)
    rwa [if_neg hpos] at hrel

theorem releaser_cstep (c c' : Client τ ℓ) (l : ℓ) (h : c.releaser = some c') :
    CStep (c.view l) (c'.view l) := by
  unfold Client.releaser at h
  split_ifs at h with h0
  have hc : (c.view l).call = none := callOn_eq_none c l h0
  split at h <;> cases h
  · exact .stay
  · next lid hf =>
    by_cases hl : l = lid
    · subst hl
      have hst : c.lockMap l = some .releasing := by simpa using List.find?_some hf
      have hr : 0 < c.revokeList.count l := List.count_pos_iff.mpr (List.mem_of_find?_eq_some hf)
      simpa using CStep.releaser (v := c.view l) hst hr hc
    · apply cstep_of_eq
      ext <;> simp [hl, Ne.symm hl, hc]

theorem releaserEnd_cstep (c c' : Client τ ℓ) (l : ℓ) (h : c.releaserEnd = some c') :
    CStep (c.view l) (c'.view l) := by
  unfold Client.releaserEnd at h
  split at h
  · next lid hc =>
    cases h
    have hv := callOn_release c lid l _ hc
    by_cases hl : l = lid
    · subst hl
      rw [if_pos rfl] at hv
      have he := CStep.releaserEnd hv
      simpa [Client.view, Client.callOn] using he
    · apply cstep_of_eq
      rw [if_neg (Ne.symm hl)] at hv
      ext <;> simp [Client.view, Client.callOn, hc, Ne.symm hl, List.count_erase_of_ne hl]
  · cases h

end
end Yfs.Lock
