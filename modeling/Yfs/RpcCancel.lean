import Yfs.CondVar
import Yfs.RpcSystem

namespace Yfs.Rpc

/-- An `rpcc` and its threads. `asleep` are the calls in `pthread_cond_timedwait`, and `returns`
is the history of what calls have returned. -/
structure Cancelling (θ β : Type*) where
  rpcc : Rpcc β
  asleep : ℕ → Bool
  destroyWaitC : CondVar θ
  returns : List (ℕ × ℤ)

/-- `callWakes` is a timeout or a spurious wake-up; `w` is the thread that a signal wakes up. -/
inductive CancelAct (θ β : Type*)
  | call1 (proc : ℕ)
  | gotPdu (h : Reply β)
  | callSleeps (x : ℕ)
  | callWakes (x : ℕ)
  | callEnd (x : ℕ) (w : Option θ)
  | bindRecord
  | cancel (t : θ)
  | cancelWakes (t : θ)

namespace Cancelling
section
variable {θ β : Type*} [DecidableEq θ] (unpackNonce : β → ℕ)

def init (rpcc : Rpcc β) : Cancelling θ β := ⟨rpcc, fun _ => false, .empty, []⟩

/-- The test of the loop at the end of `cancel`. -/
def awaitCalls (s : Cancelling θ β) (t : θ) : Cancelling θ β :=
  { s with
    rpcc := { s.rpcc with destroyWait := s.rpcc.destroyWait || decide (0 < s.rpcc.callsSize) }
    destroyWaitC := s.destroyWaitC.settle t (decide (0 < s.rpcc.callsSize)) }

/-- The end of `call1` for the caller `ca`. -/
def callEnd (s : Cancelling θ β) (x : ℕ) (ca : Caller β) (w : Option θ) : Option (Cancelling θ β) :=
  (if s.rpcc.destroyWait = true then s.destroyWaitC.signal w
    else if w = none then some s.destroyWaitC else none).map fun q =>
      { s with
        rpcc := s.rpcc.leave unpackNonce x ca, destroyWaitC := q,
        returns := s.returns ++ [(x, ca.result)] }

def step (s : Cancelling θ β) : CancelAct θ β → Option (Cancelling θ β)
  | .call1 proc =>
    match s.rpcc.call1 0 proc () with
    | some r => some { s with rpcc := r.1 }
    -- the call fails at once
    | none => some s
  | .gotPdu h =>
    some { s with
      rpcc := s.rpcc.gotPdu h
      asleep := if (s.rpcc.calls h.xid).isSome = true then Function.update s.asleep h.xid false
        else s.asleep }
  | .callSleeps x =>
    match s.rpcc.calls x with
    | some ca =>
      if ca.done = false ∧ s.asleep x = false then some { s with
        asleep := Function.update s.asleep x true } else none
    | none => none
  | .callWakes x =>
    if s.asleep x = true then some { s with asleep := Function.update s.asleep x false } else none
  | .callEnd x w =>
    match s.rpcc.calls x with
    | some ca => if s.asleep x = true then none else s.callEnd unpackNonce x ca w
    | none => none
  | .bindRecord =>
    match s.rpcc.bound with
    | r :: rs => some { s with rpcc := s.rpcc.bindRecord r rs }
    | [] => none
  | .cancel t =>
    if s.destroyWaitC.Waits t then none
    else some (awaitCalls { s with
      rpcc := s.rpcc.cancel
      asleep := fun x => s.asleep x && (s.rpcc.calls x).isNone } t)
  | .cancelWakes t => if s.destroyWaitC.Waits t then some (s.awaitCalls t) else none

/-- `callsSize` is the number of calls in the map. -/
def Sized (c : Rpcc β) : Prop :=
  ∃ l : List ℕ, l.Nodup ∧ l.length = c.callsSize ∧ ∀ x, x ∈ l ↔ (c.calls x).isSome = true

theorem Sized.congr {c c' : Rpcc β} (h : Sized c) (hsize : c'.callsSize = c.callsSize)
    (hcalls : ∀ x, (c'.calls x).isSome = (c.calls x).isSome) : Sized c' := by
  obtain ⟨l,hnodup,hlen,hmem⟩ := h
  exact ⟨l, hnodup, by rw [hlen, hsize], fun x => by rw [hmem, hcalls]⟩

theorem Sized.register {c : Rpcc β} (h : Sized c) (hfree : c.calls c.xid = none) (proc : ℕ) :
    Sized (c.register proc) := by
  obtain ⟨l,hnodup,hlen,hmem⟩ := h
  have hnot : c.xid ∉ l := by
    rw [hmem, hfree]
    exact Bool.false_ne_true
  refine ⟨c.xid :: l, List.nodup_cons.mpr ⟨hnot, hnodup⟩, ?_, fun x => ?_⟩
  · simp [Rpcc.register, hfree, hlen]
  · by_cases hx : x = c.xid
    · simp [Rpcc.register, hx]
    · simp [Rpcc.register, hx, hmem]

theorem Sized.leave {c : Rpcc β} (h : Sized c) {x : ℕ} {ca : Caller β} (hx : c.calls x = some ca) :
    Sized (c.leave unpackNonce x ca) := by
  obtain ⟨l,hnodup,hlen,hmem⟩ := h
  have hin : x ∈ l := (hmem x).mpr (by rw [hx]; rfl)
  refine ⟨l.erase x, hnodup.erase x, ?_, fun y => ?_⟩
  · rw [List.length_erase_of_mem hin, hlen]
    rfl
  · rw [hnodup.mem_erase_iff, hmem]
    by_cases hy : y = x
    · simp [Rpcc.leave, hy]
    · simp [Rpcc.leave, hy]

/-- A reply is for the caller that waits for it and for no other. -/
theorem calls_gotPdu (c : Rpcc β) (h : Reply β) (x : ℕ) :
    (c.gotPdu h).calls x = (c.calls x).map fun ca =>
    if x = h.xid ∧ ca.done = false then { ca with un := some h.body, intret := h.ret, done := true }
    else ca := by
  simp only [Rpcc.gotPdu]
  by_cases hx : x = h.xid
  · subst hx
    cases hca : c.calls h.xid with
    | none => simp [hca]
    | some ca => cases hdone : ca.done <;> simp [hdone, hca]
  · cases hca : c.calls h.xid with
    | none => simp [hx]
    | some ca => cases hdone : ca.done <;> simp [hdone, hx]

theorem isSome_gotPdu (c : Rpcc β) (h : Reply β) (x : ℕ) :
    ((c.gotPdu h).calls x).isSome = (c.calls x).isSome := by
  rw [calls_gotPdu, Option.isSome_map]

theorem Sized.exists_of_pos {c : Rpcc β} (h : Sized c) (hpos : 0 < c.callsSize) :
    ∃ x ca, c.calls x = some ca := by
  obtain ⟨l,-,hlen,hmem⟩ := h
  obtain ⟨x,hx⟩ := List.exists_mem_of_length_pos (hlen ▸ hpos)
  obtain ⟨ca,hca⟩ := Option.isSome_iff_exists.mp ((hmem x).mp hx)
  exact ⟨x, ca, hca⟩

theorem Sized.none_of_zero {c : Rpcc β} (h : Sized c) (hzero : c.callsSize = 0) (x : ℕ) :
    c.calls x = none := by
  obtain ⟨l,-,hlen,hmem⟩ := h
  have hnil : l = [] := List.eq_nil_of_length_eq_zero (hlen.trans hzero)
  have hx := hmem x
  rw [hnil] at hx
  cases hc : c.calls x with
  | none => rfl
  | some ca =>
    rw [hc] at hx
    exact absurd (hx.mpr rfl) List.not_mem_nil

/-- A caller that `cancel` has got hold of. -/
def Failed (ca : Caller β) : Prop := ca.done = true ∧ ca.intret = cancelFailure

structure Ok (s : Cancelling θ β) : Prop where
  sized : Sized s.rpcc
  failed : s.rpcc.destroyWait = true → ∀ x ca, s.rpcc.calls x = some ca → Failed ca
  awake : ∀ x ca, s.rpcc.calls x = some ca → ca.done = true → s.asleep x = false
  waits : ∀ t, s.destroyWaitC.Waits t → s.rpcc.destroyWait = true
  one : ∀ t u, s.destroyWaitC.Waits t → s.destroyWaitC.Waits u → t = u
  parked : s.destroyWaitC.parked ≠ [] → 0 < s.rpcc.callsSize

/-- No xid comes back while its call is registered, and `cancel` is not called while another
`cancel` waits. -/
def Orderly (s : Cancelling θ β) : CancelAct θ β → Prop
  | .call1 _ => s.rpcc.calls s.rpcc.xid = none
  | .cancel _ => ∀ u, ¬ s.destroyWaitC.Waits u
  | _ => True

theorem call1_cases {c : Rpcc β} {proc : ℕ} {r : Rpcc β × Req Unit}
    (h : c.call1 0 proc () = some r) :
    c.destroyWait = false ∧ r.1 = c.register proc := by
  rw [Rpcc.call1] at h
  split_ifs at h with hbind hwait
  cases h
  exact ⟨Bool.eq_false_iff.mpr hwait, rfl⟩

theorem gotPdu_calls {c : Rpcc β} {h : Reply β} {x : ℕ} {ca : Caller β}
    (hx : (c.gotPdu h).calls x = some ca) :
    c.calls x = some ca ∨ x = h.xid ∧ ∃ ca', c.calls x = some ca' ∧ ca'.done = false := by
  rw [calls_gotPdu] at hx
  obtain ⟨ca',hca',rfl⟩ := Option.map_eq_some_iff.mp hx
  split_ifs with hfor
  · exact .inr ⟨hfor.1, ca', hca', hfor.2⟩
  · exact .inl hca'

/-- A reply does not get through to a caller that has failed. -/
theorem failed_gotPdu {c : Rpcc β} (hfailed : ∀ x ca, c.calls x = some ca → Failed ca)
    {h : Reply β} {x : ℕ} {ca : Caller β} (hx : (c.gotPdu h).calls x = some ca) : Failed ca := by
  rcases gotPdu_calls hx with hold | ⟨-,ca',hold,hdone⟩
  · exact hfailed x ca hold
  · exact absurd (hdone.symm.trans (hfailed x ca' hold).1) Bool.false_ne_true

theorem leave_calls {c : Rpcc β} {x y : ℕ} {ca cb : Caller β}
    (hy : (c.leave unpackNonce x ca).calls y = some cb) : c.calls y = some cb := by
  by_cases hyx : y = x
  · simp [Rpcc.leave, hyx] at hy
  · simpa [Rpcc.leave, hyx] using hy

theorem cancel_calls {c : Rpcc β} {x : ℕ} {ca : Caller β} (hx : c.cancel.calls x = some ca) :
    (c.calls x).isSome = true ∧ Failed ca := by
  obtain ⟨ca',hca',rfl⟩ := Option.map_eq_some_iff.mp hx
  exact ⟨by rw [hca']; rfl, rfl, rfl⟩

/-- `cancel` looks at `calls_`, for the first time or again. -/
theorem ok_awaitCalls {s : Cancelling θ β} {t : θ} (hsized : Sized s.rpcc)
    (hfailed : ∀ x ca, s.rpcc.calls x = some ca → Failed ca)
    (hawake : ∀ x ca, s.rpcc.calls x = some ca → ca.done = true → s.asleep x = false)
    (honly : ∀ u, s.destroyWaitC.Waits u → u = t) : Ok (s.awaitCalls t) := by
  have hwaits : ∀ u, (s.awaitCalls t).destroyWaitC.Waits u → u = t ∧ 0 < s.rpcc.callsSize := by
    intro u hu
    rcases CondVar.waits_settle _ t u _ hu with ⟨hne,hold⟩ | ⟨rfl,hpos⟩
    · exact absurd (honly u hold) hne
    · exact ⟨rfl, of_decide_eq_true hpos⟩
  refine ⟨hsized.congr rfl fun _ => rfl, fun _ => hfailed, hawake, fun u hu => ?_,
    fun u v hu hv => ?_, fun hp => ?_⟩
  · simp [awaitCalls, (hwaits u hu).2]
  · rw [(hwaits u hu).1, (hwaits v hv).1]
  · obtain ⟨u,hu⟩ := List.exists_mem_of_ne_nil _ hp
    exact (hwaits u (.inl hu)).2

theorem ok_callEnd {s s' : Cancelling θ β} (h : Ok s) {x : ℕ} {ca : Caller β} {w : Option θ}
    (hx : s.rpcc.calls x = some ca) (hs : s.callEnd unpackNonce x ca w = some s') : Ok s' := by
  obtain ⟨q,hq,rfl⟩ := Option.map_eq_some_iff.mp hs
  -- the last one that waits has been woken up
  have hnobody : q.parked = [] ∧ ∀ u, q.Waits u → s.destroyWaitC.Waits u := by
    split_ifs at hq with hwait hnone
    · exact ⟨CondVar.parked_signal_nil hq h.one, fun u hu => (CondVar.waits_signal_iff hq).mp hu⟩
    · cases hq
      refine ⟨?_, fun _ hu => hu⟩
      by_contra hne
      obtain ⟨u,hu⟩ := List.exists_mem_of_ne_nil _ hne
      exact hwait (h.waits u (.inl hu))
  exact ⟨h.sized.leave unpackNonce hx,
    fun hwait y cb hy => h.failed hwait y cb (leave_calls unpackNonce hy),
    fun y cb hy => h.awake y cb (leave_calls unpackNonce hy),
    fun u hu => h.waits u (hnobody.2 u hu),
    fun u v hu hv => h.one u v (hnobody.2 u hu) (hnobody.2 v hv), fun hp => absurd hnobody.1 hp⟩

omit [DecidableEq θ] in
theorem ok_register {s : Cancelling θ β} (h : Ok s) (proc : ℕ)
    (hfree : s.rpcc.calls s.rpcc.xid = none) (hwait : s.rpcc.destroyWait = false) :
    Ok { s with rpcc := s.rpcc.register proc } := by
  have hnobody (t : θ) : ¬ s.destroyWaitC.Waits t := by
    intro ht
    rw [h.waits t ht] at hwait
    cases hwait
  refine ⟨h.sized.register hfree proc, fun hw => ?_, fun x ca hx hdone => ?_,
    fun t ht => absurd ht (hnobody t), h.one, fun hp => ?_⟩
  · exact absurd (hwait.symm.trans hw) Bool.false_ne_true
  · by_cases hxid : x = s.rpcc.xid
    -- the new call is not done
    · simp only [Rpcc.register, hxid, Function.update_self, Option.some.injEq] at hx
      rw [← hx] at hdone
      cases hdone
    · simp only [Rpcc.register, Function.update_of_ne hxid] at hx
      exact h.awake x ca hx hdone
  · obtain ⟨t,ht⟩ := List.exists_mem_of_ne_nil _ hp
    exact absurd (.inl ht) (hnobody t)

omit [DecidableEq θ] in
/-- Whoever is done after a reply was so before or is the one that it wakes up. -/
theorem awake_gotPdu {s : Cancelling θ β} (h : Ok s) {hd : Reply β} {x : ℕ} {ca : Caller β}
    (hx : (s.rpcc.gotPdu hd).calls x = some ca) (hdone : ca.done = true) :
    (if (s.rpcc.calls hd.xid).isSome = true then Function.update s.asleep hd.xid false
      else s.asleep) x = false := by
  have hsome : (s.rpcc.calls x).isSome = true := by
    rw [← isSome_gotPdu s.rpcc hd x, hx]
    rfl
  by_cases hxid : x = hd.xid
  · subst hxid
    rw [if_pos hsome, Function.update_self]
  · have hold : s.rpcc.calls x = some ca := (gotPdu_calls hx).resolve_right fun hne => hxid hne.1
    have hasleep := h.awake x ca hold hdone
    split_ifs
    · rw [Function.update_of_ne hxid, hasleep]
    · exact hasleep

theorem ok_step {s s' : Cancelling θ β} (h : Ok s) (a : CancelAct θ β) (ha : Orderly s a)
    (hs : s.step unpackNonce a = some s') : Ok s' := by
  cases a with
  | call1 proc =>
    simp only [step] at hs
    cases hcall : s.rpcc.call1 0 proc () with
    | none =>
      rw [hcall] at hs
      cases hs
      exact h
    | some r =>
      rw [hcall] at hs
      cases hs
      obtain ⟨hwait,hr⟩ := call1_cases hcall
      rw [hr]
      exact ok_register h proc ha hwait
  | gotPdu hd =>
    cases hs
    exact ⟨h.sized.congr rfl (isSome_gotPdu s.rpcc hd),
      fun hw _ _ hx => failed_gotPdu (h.failed hw) hx,
      fun _ _ hx hdone => awake_gotPdu h hx hdone, h.waits, h.one, h.parked⟩
  | callSleeps x =>
    simp only [step] at hs
    split at hs
    · next ca hca =>
      split_ifs at hs with hrun
      cases hs
      refine ⟨h.sized, h.failed, fun y cb hy hdone => ?_, h.waits, h.one, h.parked⟩
      have hne : y ≠ x := by
        rintro rfl
        rw [hca] at hy
        cases hy
        exact absurd (hrun.1.symm.trans hdone) Bool.false_ne_true
      simp only [Function.update_of_ne hne]
      exact h.awake y cb hy hdone
    · cases hs
  | callWakes x =>
    simp only [step] at hs
    split_ifs at hs
    cases hs
    refine ⟨h.sized, h.failed, fun y cb hy hdone => ?_, h.waits, h.one, h.parked⟩
    by_cases hyx : y = x
    · simp [hyx]
    · simp only [Function.update_of_ne hyx]
      exact h.awake y cb hy hdone
  | callEnd x w =>
    simp only [step] at hs
    split at hs
    · next ca hca =>
      split_ifs at hs
      exact ok_callEnd unpackNonce h hca hs
    · cases hs
  | bindRecord =>
    simp only [step] at hs
    split at hs
    · cases hs
      exact ⟨h.sized.congr rfl fun _ => rfl, h.failed, h.awake, h.waits, h.one, h.parked⟩
    · cases hs
  | cancel t =>
    simp only [step] at hs
    split_ifs at hs
    cases hs
    refine ok_awaitCalls (h.sized.congr rfl fun x => Option.isSome_map)
      (fun x ca hx => (cancel_calls hx).2) (fun x ca hx _ => ?_) fun u hu => absurd hu (ha u)
    simp [Option.isNone_eq_false_iff.mpr (cancel_calls hx).1]
  | cancelWakes t =>
    simp only [step] at hs
    split_ifs at hs with ht
    cases hs
    exact ok_awaitCalls h.sized (h.failed (h.waits t ht)) h.awake fun u hu => h.one u t hu ht

omit [DecidableEq θ] in
theorem ok_init {c : Rpcc β} (hcalls : ∀ x, c.calls x = none) (hsize : c.callsSize = 0) :
    Ok (init c : Cancelling θ β) where
  sized := ⟨[], List.nodup_nil, hsize.symm, fun x => by simp [init, hcalls]⟩
  failed := fun _ x _ hx => absurd (hcalls x) (Option.ne_none_iff_exists'.mpr ⟨_, hx⟩)
  awake := fun _ _ _ _ => rfl
  waits := fun _ ht => absurd ht (by simp [init, CondVar.empty, CondVar.Waits])
  one := fun _ _ ht => absurd ht (by simp [init, CondVar.empty, CondVar.Waits])
  parked := fun hp => absurd rfl hp

/-- A `cancel` has found calls: they are all made to fail, and no call is registered any more. -/
def AllFailed (s : Cancelling θ β) : Prop :=
  s.rpcc.destroyWait = true ∧ ∀ x ca, s.rpcc.calls x = some ca → Failed ca

/-- From `s` to `s'` calls have only returned `cancel_failure`. -/
def Fails (s s' : Cancelling θ β) : Prop :=
  ∃ new, s'.returns = s.returns ++ new ∧ (∀ r ∈ new, r.2 = cancelFailure) ∧
    ∀ x, (s.rpcc.calls x).isSome = true ↔ (s'.rpcc.calls x).isSome = true ∨ x ∈ new.map Prod.fst

omit [DecidableEq θ] in
theorem Fails.of_calls {s s' : Cancelling θ β} (hreturns : s'.returns = s.returns)
    (hcalls : ∀ x, (s'.rpcc.calls x).isSome = (s.rpcc.calls x).isSome) : Fails s s' :=
  ⟨[], by rw [hreturns, List.append_nil], fun _ hr => absurd hr List.not_mem_nil,
    fun x => by simp [hcalls]⟩

omit [DecidableEq θ] in
theorem Fails.trans {s s' s'' : Cancelling θ β} (h : Fails s s') (h' : Fails s' s'') :
    Fails s s'' := by
  obtain ⟨new,hnew,hfail,hcalls⟩ := h
  obtain ⟨new',hnew',hfail',hcalls'⟩ := h'
  refine ⟨new ++ new', by rw [hnew', hnew, List.append_assoc], fun r hr => ?_, fun x => ?_⟩
  · exact (List.mem_append.mp hr).elim (hfail r) (hfail' r)
  · rw [hcalls, hcalls', List.map_append, List.mem_append]
    tauto

theorem fails_step {s s' : Cancelling θ β} (h : AllFailed s) (a : CancelAct θ β)
    (hs : s.step unpackNonce a = some s') : AllFailed s' ∧ Fails s s' := by
  obtain ⟨hwait,hfailed⟩ := h
  cases a with
  | call1 proc =>
    simp only [step] at hs
    cases hcall : s.rpcc.call1 0 proc () with
    | none =>
      rw [hcall] at hs
      cases hs
      exact ⟨⟨hwait, hfailed⟩, .of_calls rfl fun _ => rfl⟩
    | some r => exact absurd ((call1_cases hcall).1.symm.trans hwait) Bool.false_ne_true
  | gotPdu hd =>
    cases hs
    exact ⟨⟨hwait, fun _ _ hx => failed_gotPdu hfailed hx⟩,
      .of_calls rfl (isSome_gotPdu s.rpcc hd)⟩
  | callSleeps x =>
    simp only [step] at hs
    split at hs
    · split_ifs at hs
      cases hs
      exact ⟨⟨hwait, hfailed⟩, .of_calls rfl fun _ => rfl⟩
    · cases hs
  | callWakes x =>
    simp only [step] at hs
    split_ifs at hs
    cases hs
    exact ⟨⟨hwait, hfailed⟩, .of_calls rfl fun _ => rfl⟩
  | callEnd x w =>
    simp only [step] at hs
    split at hs
    · next ca hca =>
      split_ifs at hs
      obtain ⟨q,-,rfl⟩ := Option.map_eq_some_iff.mp hs
      obtain ⟨hdone,hret⟩ := hfailed x ca hca
      refine ⟨⟨hwait, fun y cb hy => hfailed y cb (leave_calls unpackNonce hy)⟩,
        [(x, ca.result)], rfl, fun r hr => ?_, fun y => ?_⟩
      · rw [List.mem_singleton.mp hr, Caller.result, if_pos hdone, hret]
      · by_cases hyx : y = x
        · simp [hyx, hca]
        · simp [Rpcc.leave, hyx]
    · cases hs
  | bindRecord =>
    simp only [step] at hs
    split at hs
    · cases hs
      exact ⟨⟨hwait, hfailed⟩, .of_calls rfl fun _ => rfl⟩
    · cases hs
  | cancel t =>
    simp only [step] at hs
    split_ifs at hs
    cases hs
    exact ⟨⟨by simp [awaitCalls, Rpcc.cancel, hwait], fun _ _ hx => (cancel_calls hx).2⟩,
      .of_calls rfl fun x => Option.isSome_map⟩
  | cancelWakes t =>
    simp only [step] at hs
    split_ifs at hs
    cases hs
    exact ⟨⟨by simp [awaitCalls, hwait], hfailed⟩, .of_calls rfl fun _ => rfl⟩

/-- If `cancel` finds calls registered, then exactly these fail: each of them is still registered
or has returned `cancel_failure`, also if its reply was there already, and no call is registered
any more. -/
theorem cancel_fails_calls (s s' s'' : Cancelling θ β) (t : θ) (acts : List (CancelAct θ β))
    (hpending : 0 < s.rpcc.callsSize) (hcancel : s.step unpackNonce (.cancel t) = some s')
    (hrun : run (step unpackNonce) s' acts = some s'') : Fails s s'' := by
  have hfirst : AllFailed s' ∧ Fails s s' := by
    simp only [step] at hcancel
    split_ifs at hcancel
    cases hcancel
    exact ⟨⟨by simp [awaitCalls, Rpcc.cancel, hpending], fun _ _ hx => (cancel_calls hx).2⟩,
      .of_calls rfl fun x => Option.isSome_map⟩
  exact (run_invariant (step unpackNonce) (fun r => AllFailed r ∧ Fails s r)
    (fun r a r' hr hs =>
      ⟨(fails_step unpackNonce hr.1 a hs).1, hr.2.trans (fails_step unpackNonce hr.1 a hs).2⟩)
    s' s'' acts hfirst hrun).2

/-- Nobody is left who would wake up `t`. -/
structure Stranded (t : θ) (s : Cancelling θ β) : Prop where
  wait : s.rpcc.destroyWait = true
  size : s.rpcc.callsSize = 0
  calls : ∀ x, s.rpcc.calls x = none
  parked : t ∈ s.destroyWaitC.parked

theorem stranded_step {t : θ} {s s' : Cancelling θ β} (h : Stranded t s) (a : CancelAct θ β)
    (ha : a ≠ .cancelWakes t) (hs : s.step unpackNonce a = some s') : Stranded t s' := by
  have hzero : decide (0 < s.rpcc.callsSize) = false := by simp [h.size]
  have hgone (u : θ) (hu : t ≠ u) : t ∈ (s.destroyWaitC.resume u).parked :=
    (List.mem_erase_of_ne hu).mpr h.parked
  cases a with
  | call1 proc =>
    have hnone : s.rpcc.call1 0 proc () = none := by
      simp [Rpcc.call1, h.wait]
    simp only [step, hnone] at hs
    cases hs
    exact h
  | gotPdu hd =>
    cases hs
    exact ⟨h.wait, h.size, fun x => by rw [calls_gotPdu, h.calls]; rfl, h.parked⟩
  | callSleeps x | callEnd x w =>
    simp only [step, h.calls] at hs
    cases hs
  | callWakes x =>
    simp only [step] at hs
    split_ifs at hs
    cases hs
    exact ⟨h.wait, h.size, h.calls, h.parked⟩
  | bindRecord =>
    simp only [step] at hs
    split at hs
    · cases hs
      exact ⟨h.wait, h.size, h.calls, h.parked⟩
    · cases hs
  | cancel u =>
    simp only [step] at hs
    split_ifs at hs with hu
    cases hs
    have hne : t ≠ u := by
      rintro rfl
      exact hu (.inl h.parked)
    refine ⟨by simp [awaitCalls, Rpcc.cancel, h.wait], h.size,
      fun x => by simp [awaitCalls, Rpcc.cancel, h.calls], ?_⟩
    simp only [awaitCalls, Rpcc.cancel, hzero, CondVar.settle]
    exact hgone u hne
  | cancelWakes u =>
    simp only [step] at hs
    split_ifs at hs with hu
    cases hs
    have hne : t ≠ u := by
      rintro rfl
      exact ha rfl
    refine ⟨by simp [awaitCalls, h.wait], h.size, h.calls, ?_⟩
    simp only [awaitCalls, hzero, CondVar.settle]
    exact hgone u hne

end

/-- `bind`, and a call that has its reply and has not left yet. -/
def boundAndReplied : List (CancelAct Bool Unit) :=
  [.call1 bindProc, .gotPdu ⟨1, 0, ()⟩, .callEnd 1 none, .bindRecord,
    .call1 7, .callSleeps 2, .gotPdu ⟨2, 0, ()⟩]

theorem cancel_fails_calls_reply : ∃ s s' s'',
    run (step fun _ => 0) (init (Rpcc.fresh Unit)) boundAndReplied = some s ∧
    step (fun _ => 0) s (.cancel true) = some s' ∧
    run (step fun _ => 0) s' [.callEnd 2 (some true)] = some s'' ∧
    s''.returns = [(1, 0), (2, cancelFailure)] ∧ Fails s s'' := by
  refine ⟨_, _, _, rfl, rfl, rfl, rfl, ?_⟩
  exact cancel_fails_calls (fun _ => 0) _ _ _ true [.callEnd 2 (some true)] (by decide) rfl rfl

/-- A call leaves while two threads are in `cancel`. The signal is for one of them, and the other
waits for ever. -/
theorem cancel_stranded (acts : List (CancelAct Bool Unit)) (hacts : .cancelWakes false ∉ acts)
    (s : Cancelling Bool Unit) (hrun : run (step fun _ => 0) (init (Rpcc.fresh Unit))
      ([.call1 bindProc, .cancel true, .cancel false,
      .callEnd 1 (some true), .cancelWakes true] ++ acts) = some s) :
      false ∈ s.destroyWaitC.parked := by
  rw [run_append] at hrun
  obtain ⟨s',hs',hrest⟩ := Option.bind_eq_some_iff.mp hrun
  cases hs'
  refine (run_invariant_of_all (step fun _ => 0) (fun _ a => a ≠ .cancelWakes false)
    (Stranded false)
    (fun s a s' h ha hs => stranded_step _ h a ha hs) _ s acts
    ⟨rfl, rfl, fun x => ?_, List.mem_singleton.mpr rfl⟩
    (runAll_of_mem _ (fun a => a ≠ .cancelWakes false) _ acts fun a ha heq => hacts (heq ▸ ha))
    hrest).parked
  by_cases hx : x = 1
  · rw [hx]
    rfl
  · refine (Function.update_of_ne hx _ _).trans ?_
    have hnew : ((Rpcc.fresh Unit).register bindProc).calls x = none := Function.update_of_ne hx _ _
    exact Option.map_eq_none_iff.mpr (Option.map_eq_none_iff.mpr hnew)

end Cancelling
end Yfs.Rpc
