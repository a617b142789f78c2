import Yfs.RpcAtMostOnce

namespace Yfs.Rpc

variable {ι α β : Type*} [DecidableEq ι] (cfg : Config ι β)

/-- What holds as long as no freed buffer is sent: every reply is then the reply
to a request of its receiver, and an `xid_rep` is below what is pending. -/
structure Inv (s : Sys ι α β) : Prop extends AtMostOnce cfg s where
  provenance : Provenance cfg s
  clients : ClientsOk cfg s

omit [DecidableEq ι] in
theorem inv_init : Inv cfg (Sys.init : Sys ι α β) :=
  ⟨atMostOnce_init cfg, provenance_init cfg, clientsOk_init cfg⟩

theorem inv_step (ub : Bool) (s s' : Sys ι α β) (a : Act ι α β) (h : Inv cfg s)
    (hd : NoDangling s a) (hw : NoWrap s a) (hs : step cfg ub s a = some s') : Inv cfg s' :=
  ⟨atMostOnce_step cfg ub s s' a h.toAtMostOnce hw hs,
    provenance_step cfg ub s s' a h.provenance hd hs,
    clientsOk_step cfg ub s s' a h.clients h.provenance hw hs⟩

theorem noDangling_of_step (s s' : Sys ι α β) (a : Act ι α β)
    (hs : step cfg false s a = some s') : NoDangling s a := by
  rintro j n b rfl hj hb
  simp only [step, Sys.sendReply, hj] at hs
  simp [hb] at hs

/-- The step hands a request of a pending call to `checkduplicate_and_update`. -/
def PendingArrival (s : Sys ι α β) (a : Act ι α β) (i : ι) (q : Req α) : Prop :=
  ∃ k, a = .dispatch k ∧ s.Checks cfg k q ∧ q.cltNonce = cfg.nonce i ∧
    (s.clients i).Pending q.xid

/-- No request with this nonce and xid has been classified before. -/
def FirstArrival (s : Sys ι α β) (q : Req α) : Prop :=
  ∀ st, (q.cltNonce, q.xid, st) ∉ s.answers

/-- The step answers FORGOTTEN to no pending request, and NEW to one that
arrives for the first time. -/
def PendingServed (s : Sys ι α β) (a : Act ι α β) : Prop :=
  ∀ i q, PendingArrival cfg s a i q →
    (s.check q).status ≠ .forgotten ∧ (FirstArrival s q → (s.check q).status = .new)

/-- A pending request that arrives for the first time finds the client's window
empty or with a smaller xid in it. -/
def InTime (s : Sys ι α β) (a : Act ι α β) : Prop :=
  ∀ i q, PendingArrival cfg s a i q → FirstArrival s q →
    s.server.replyWindow q.cltNonce = [] ∨ ∃ r ∈ s.server.replyWindow q.cltNonce, r.xid < q.xid

/-- A pending call whose request has been classified is in the window. -/
def PendingRemembered (s : Sys ι α β) : Prop :=
  ∀ i x st, (s.clients i).Pending x → (cfg.nonce i, x, st) ∈ s.answers →
    ∃ r ∈ s.server.replyWindow (cfg.nonce i), r.xid = x

section
omit [DecidableEq ι]

theorem not_forgotten_of_mem (s : Sys ι α β) (q : Req α)
    (h : ∃ r ∈ s.server.replyWindow q.cltNonce, r.xid = q.xid) :
    (s.check q).status ≠ .forgotten := by
  obtain ⟨r,_,_,_,hst⟩ := check_remembered _ q.xid q.xidRep h
  rw [Sys.check, hst]
  split_ifs <;> simp

theorem status_of_not_mem (s : Sys ι α β) (q : Req α)
    (h : ∀ r ∈ s.server.replyWindow q.cltNonce, r.xid ≠ q.xid) :
    (s.check q).status = .new ↔
      s.server.replyWindow q.cltNonce = [] ∨
      ∃ r ∈ s.server.replyWindow q.cltNonce, r.xid < q.xid := by
  by_cases hw : s.server.replyWindow q.cltNonce = []
  · simp only [Sys.check, hw, check_nil_status, true_or]
  · rw [Sys.check, check_unremembered _ _ _ hw h]
    simp only [hw, false_or]
    split_ifs with hall
    · simp only [false_iff, not_exists, not_and, not_lt]
      exact fun r hr => (hall r hr).le
    · push Not at hall
      obtain ⟨r,hr,hle⟩ := hall
      simp only [true_iff]
      exact ⟨r, hr, lt_of_le_of_ne hle (h r hr)⟩

/-- A first arrival is not in the window: everything there has been accepted. -/
theorem first_not_mem (s : Sys ι α β) (h : WindowsOk s) (q : Req α) (hf : FirstArrival s q) :
    ∀ r ∈ s.server.replyWindow q.cltNonce, r.xid ≠ q.xid := by
  intro r hr hx
  have := h.remembered _ r hr
  rw [hx] at this
  exact hf _ this

/-- At one step, being in time is being served: later arrivals are found in the
window, where the client's own `xid_rep` has protected them. -/
theorem inTime_iff_served (s : Sys ι α β) (a : Act ι α β) (h : WindowsOk s)
    (hp : PendingRemembered cfg s) : InTime cfg s a ↔ PendingServed cfg s a := by
  constructor
  · intro ht i q hq
    by_cases hf : FirstArrival s q
    · have hnew := (status_of_not_mem s q (first_not_mem s h q hf)).mpr (ht i q hq hf)
      exact ⟨by rw [hnew]; simp, fun _ => hnew⟩
    · refine ⟨?_, fun hf' => absurd hf' hf⟩
      simp only [FirstArrival, not_forall, not_not] at hf
      obtain ⟨st,hst⟩ := hf
      obtain ⟨k,_,_,hn,hpend⟩ := hq
      apply not_forgotten_of_mem
      rw [hn] at hst ⊢
      exact hp i q.xid st hpend hst
  · intro hs i q hq hf
    exact (status_of_not_mem s q (first_not_mem s h q hf)).mp ((hs i q hq).2 hf)

/-- A request of the same client cannot prune a pending call's entry. -/
theorem pending_not_pruned (s : Sys ι α β) (hc : ClientsOk cfg s) (q : Req α)
    (hq : q ∈ s.requests) (i : ι) (hn : q.cltNonce = cfg.nonce i) (x : ℕ)
    (hx : (s.clients i).Pending x) (r : ReplyT) (hr : r ∈ s.server.replyWindow q.cltNonce)
    (hrx : r.xid = x) : r ∈ (s.check q).window := by
  obtain ⟨j,hj,_,_,_,hpend⟩ := hc.request q hq
  have hji : j = i := cfg.nonce_injective (hj.symm.trans hn)
  subst hji
  refine (mem_check_window _ _ _ r).mpr (Or.inl ?_)
  rcases (mem_kept_or_pruned q.xidRep _ _ r).mp hr with hk | hp
  · exact hk
  · have hle := pruned_xid_le q.xidRep _ _ r hp
    have hlt := hpend x hx
    omega

theorem pendingRemembered_checked (s : Sys ι α β) (hc : ClientsOk cfg s)
    (hp : PendingRemembered cfg s) (k : ℕ) (q : Req α) (hk : s.Checks cfg k q)
    (hserved : PendingServed cfg s (.dispatch k)) : PendingRemembered cfg (s.checked cfg q) := by
  have hq := List.mem_of_getElem? hk.1
  intro i x st hx ha
  change (s.clients i).Pending x at hx
  by_cases hn : cfg.nonce i = q.cltNonce
  · rw [hn, replyWindow_checked]
    rcases List.mem_append.mp ha with ha | ha
    · obtain ⟨r,hr,hrx⟩ := hp i x st hx ha
      exact ⟨r, pending_not_pruned cfg s hc q hq i hn.symm x hx r (hn ▸ hr) hrx, hrx⟩
    · -- the answer just given: NEW has inserted the xid, a duplicate was found
      simp only [List.mem_singleton, Prod.mk.injEq] at ha
      obtain ⟨_,hxq,_⟩ := ha
      subst hxq
      have hnf := (hserved i q ⟨k, rfl, hk, hn.symm, hx⟩).1
      by_cases hmem : ∃ r ∈ s.server.replyWindow q.cltNonce, r.xid = q.xid
      · obtain ⟨r,hr,hrx⟩ := hmem
        exact ⟨r, pending_not_pruned cfg s hc q hq i hn.symm _ hx r hr hrx, hrx⟩
      · push Not at hmem
        have hnew : (s.check q).status = .new :=
          (check_status_of_not_mem hmem q.xidRep).resolve_right hnf
        exact ⟨_, (mem_check_window _ _ _ _).mpr (Or.inr ⟨hnew,rfl⟩), rfl⟩
  · rw [replyWindow_checked_of_ne cfg s q hn]
    rcases List.mem_append.mp ha with ha | ha
    · exact hp i x st hx ha
    · simp only [List.mem_singleton, Prod.mk.injEq] at ha
      exact absurd ha.1 hn

end

/-- A step that leaves the server alone and starts no call below the limit. -/
theorem PendingRemembered.update {s : Sys ι α β} (hp : PendingRemembered cfg s)
    (hw : WindowsOk s) (hc : ClientsOk cfg s) (i : ι) (c : Rpcc β) (t : Sys ι α β)
    (hcl : t.clients = Function.update s.clients i c)
    (hwin : t.server.replyWindow = s.server.replyWindow) (hans : t.answers = s.answers)
    (hpend : ∀ x, c.Pending x → (s.clients i).Pending x ∨ (s.clients i).limit ≤ x) :
    PendingRemembered cfg t := by
  intro j x st hx ha
  rw [hans] at ha
  rw [hwin]
  rw [hcl] at hx
  by_cases hji : j = i
  · subst hji
    rw [Function.update_self] at hx
    rcases hpend x hx with hx | hx
    · exact hp j x st hx ha
    · -- an xid that has been classified was requested, so it is below the limit
      obtain ⟨q,hq,hn,hqx⟩ := hw.requested _ x st ha
      obtain ⟨l,hl,_,hlt,_⟩ := hc.request q hq
      have hlj : l = j := cfg.nonce_injective (hl.symm.trans hn)
      subst hlj
      omega
  · rw [Function.update_of_ne hji] at hx
    exact hp j x st hx ha

theorem packed_mem_xid (s : Rpcs α β) (j n : ℕ) (addr : Addr) (r : Reply β) (m x : ℕ)
    (h : ∃ a ∈ s.replyWindow m, a.xid = x) :
    ∃ a ∈ (s.packed j n addr r).replyWindow m, a.xid = x := by
  rw [← List.mem_map] at h ⊢
  rwa [xids_packed]

theorem pendingRemembered_step (ub : Bool) (s s' : Sys ι α β) (a : Act ι α β)
    (hp : PendingRemembered cfg s) (hw : WindowsOk s) (hc : ClientsOk cfg s) (hwrap : NoWrap s a)
    (hserved : PendingServed cfg s a) (hs : step cfg ub s a = some s') :
    PendingRemembered cfg s' := by
  cases step_cases cfg ub s s' a hs with
  | call1 i proc args =>
    refine hp.update cfg hw hc i _ _ rfl rfl rfl ?_
    intro x hx
    rcases register_pending _ proc x hx with hx | hx
    · exact Or.inl hx
    · rw [(register_limit _ proc (hc.client i).xid_lt (hwrap i proc args rfl)).1, hx]
      exact Or.inr le_rfl
  | gotPdu i k r hk =>
    exact hp.update cfg hw hc i _ _ rfl rfl rfl fun x hx => Or.inl (gotPdu_pending _ r x hx).1
  | callEnd i x ca hx =>
    exact hp.update cfg hw hc i _ _ rfl rfl rfl fun y hy => Or.inl (leave_pending _ _ x ca y hy).1
  | bindRecord i r rs hb => exact hp.update cfg hw hc i _ _ rfl rfl rfl fun x hx => Or.inl hx
  | cancel i =>
    exact hp.update cfg hw hc i _ _ rfl rfl rfl fun x hx => absurd hx (cancel_not_pending _ x)
  | checked k q hk => exact pendingRemembered_checked cfg s hc hp k q hk hserved
  | handlerDone j n x proc args ret body addr hj hret ha =>
    exact fun i y st hy hst => packed_mem_xid s.server j n addr _ _ y (hp i y st hy hst)
  | refused | oldsrv | aborts | unchecked | sendReply => exact hp

/-- In a run whose clients do not wrap their xids, every pending request is
served at every arrival exactly when every first arrival of one is in time. -/
theorem pending_served_iff_in_time (acts : List (Act ι α β))
    (hwrap : RunAll (step cfg false) NoWrap Sys.init acts) :
    RunAll (step cfg false) (PendingServed cfg) Sys.init acts ↔
      RunAll (step cfg false) (InTime cfg) Sys.init acts := by
  have hinit : Inv cfg (Sys.init : Sys ι α β) ∧ PendingRemembered cfg (Sys.init : Sys ι α β) :=
    ⟨inv_init cfg, fun _ _ _ _ ha => absurd ha List.not_mem_nil⟩
  have hstep : ∀ (s : Sys ι α β) (a : Act ι α β) (s' : Sys ι α β),
      Inv cfg s ∧ PendingRemembered cfg s → PendingServed cfg s a ∧ NoWrap s a →
      step cfg false s a = some s' → Inv cfg s' ∧ PendingRemembered cfg s' := by
    intro s a s' ⟨hi,hp⟩ ⟨hsv,hw⟩ hs
    exact ⟨inv_step cfg false s s' a hi (noDangling_of_step cfg s s' a hs) hw hs,
      pendingRemembered_step cfg false s s' a hp hi.windows hi.clients hw hsv hs⟩
  constructor
  · intro h
    refine runAll_of_all _ _ _ _ hstep ?_ _ acts hinit (runAll_and _ _ _ _ acts h hwrap)
    exact fun s a hi hq => (inTime_iff_served cfg s a hi.1.windows hi.2).mpr hq.1
  · intro h
    refine runAll_of_all _ (fun s a => InTime cfg s a ∧ NoWrap s a) _
      (fun s => Inv cfg s ∧ PendingRemembered cfg s) ?_ ?_ _ acts hinit
      (runAll_and _ _ _ _ acts h hwrap)
    · exact fun s a s' hi hq hs =>
        hstep s a s' hi ⟨(inTime_iff_served cfg s a hi.1.windows hi.2).mp hq.1, hq.2⟩ hs
    · exact fun s a hi hq => (inTime_iff_served cfg s a hi.1.windows hi.2).mp hq.1

/-- Dispatch thread `j` takes the request through to its reply. -/
def serveRun (j k : ℕ) : List (Act Bool Unit ℕ) :=
  [.dispatch k, .handlerDone j 0 0 k, .sendReply j]

/-- A client's `bind`, from the call to the stored nonce. -/
def bindRun (i : Bool) (j req rep : ℕ) : List (Act Bool Unit ℕ) :=
  [.call1 i 1 ()] ++ serveRun j req ++ [.gotPdu i rep, .callEnd i 1, .bindRecord i]

/-- Call 1 binds, call 2 is delayed, and calls 3 to 101 fill the window to 100
entries. Call 102 reports `xid_rep = 1`, so its arrival prunes entry 1. -/
def overtaking : List (Act Bool Unit ℕ) :=
  bindRun false 0 0 0 ++ List.replicate 100 (.call1 false 2 ()) ++
    (List.range 99).flatMap (fun k => serveRun 0 (k+2)) ++ [.call1 false 2 (), .dispatch 101]

/-- Request 2 is on the network, its call is pending, and it would be forgotten. -/
def SecondOvertaken (s : Sys Bool Unit ℕ) : Prop :=
  (∃ q ∈ s.requests[1]?, q.xid = 2 ∧ q.cltNonce = 7 ∧ q.proc = 2 ∧ q.srvNonce = 3 ∧
    (s.check q).status = .forgotten) ∧
  (∃ ca ∈ (s.clients false).calls 2, ca.done = false) ∧ s.server.aborted = false ∧
  (step twoClients false s (.dispatch 1)).any (fun t => decide (∀ i, issued twoClients t i < 2^31))

instance (s : Sys Bool Unit ℕ) : Decidable (SecondOvertaken s) := by
  unfold SecondOvertaken
  infer_instance

set_option maxRecDepth 10000 in
theorem overtaking_runs :
    ∃ s, run (step twoClients false) Sys.init overtaking = some s ∧ SecondOvertaken s := by
  decide +kernel

/-- The delayed request of the pending call 2 is answered FORGOTTEN. -/
theorem pending_request_forgotten :
    RunAll (step twoClients false) NoWrap Sys.init (overtaking ++ [.dispatch 1]) ∧
    ¬ RunAll (step twoClients false) (PendingServed twoClients) Sys.init
      (overtaking ++ [.dispatch 1]) := by
  obtain ⟨s,hrun,⟨q,hq,hx,hn,hproc,hsrv,hst⟩,⟨ca,hca,hd⟩,hab,hnext⟩ := overtaking_runs
  obtain ⟨t,ht,hb⟩ := (Option.any_eq_true _ _).mp hnext
  constructor
  · have hrun' : run (step twoClients false) Sys.init (overtaking ++ [.dispatch 1]) = some t := by
      rw [run_append, hrun, Option.bind_some]
      simp only [run, ht, Option.bind_some]
    exact (runAll_noWrap twoClients false _ t _ (xidCount_init twoClients) hrun'
      (of_decide_eq_true hb)).1
  · intro h
    have hserved := runAll_at _ _ _ s overtaking [] (.dispatch 1) h hrun
    have hreg : twoClients.registered q.proc = true := by rw [hproc]; rfl
    refine (hserved false q ⟨1, rfl, ⟨hq, hab, Or.inr hsrv, hreg, by rw [hn]; decide⟩, hn, ?_⟩).1
      hst
    exact hx ▸ ⟨ca, hca, hd⟩

/-- The request has been classified before, or the window is empty. -/
def Early (s : Sys Bool Unit ℕ) : Act Bool Unit ℕ → Prop
  | .dispatch k => ∀ q ∈ s.requests[k]?,
      (∃ x ∈ s.answers, x.1 = q.cltNonce ∧ x.2.1 = q.xid) ∨ s.server.replyWindow q.cltNonce = []
  | _ => True

instance decidableEarly (s : Sys Bool Unit ℕ) : (a : Act Bool Unit ℕ) → Decidable (Early s a)
  | .dispatch k => inferInstanceAs (Decidable (∀ q ∈ s.requests[k]?,
      (∃ x ∈ s.answers, x.1 = q.cltNonce ∧ x.2.1 = q.xid) ∨ s.server.replyWindow q.cltNonce = []))
  | .call1 .. | .gotPdu .. | .callEnd .. | .bindRecord .. | .cancel .. | .handlerDone ..
  | .sendReply .. => isTrue trivial

theorem inTime_of_early {s : Sys Bool Unit ℕ} {a : Act Bool Unit ℕ} (h : Early s a) :
    InTime twoClients s a := by
  rintro i q ⟨k,rfl,hchecks,-,-⟩ hfirst
  refine .inl ((h q hchecks.1).resolve_left ?_)
  rintro ⟨⟨n,x,st⟩,hmem,rfl,rfl⟩
  exact hfirst st hmem

theorem pending_served_iff_in_time_bind :
    RunAll (step twoClients false) (InTime twoClients) Sys.init triplicateBind ∧
      RunAll (step twoClients false) (PendingServed twoClients) Sys.init triplicateBind := by
  have hends : ∃ s, run (step twoClients false) Sys.init triplicateBind = some s ∧
      ∀ i, issued twoClients s i < 2^31 := by
    decide
  obtain ⟨s,hrun,hb⟩ := hends
  have hearly : RunAll (step twoClients false) Early Sys.init triplicateBind := by decide
  have hin : RunAll (step twoClients false) (InTime twoClients) Sys.init triplicateBind :=
    runAll_of_all _ _ _ (fun _ => True) (fun _ _ _ _ _ _ => trivial)
      (fun _ _ _ h => inTime_of_early h) _ _ trivial hearly
  exact ⟨hin, (pending_served_iff_in_time twoClients triplicateBind
    (runAll_noWrap twoClients false _ s _ (xidCount_init twoClients) hrun hb).1).mpr hin⟩

end Yfs.Rpc
