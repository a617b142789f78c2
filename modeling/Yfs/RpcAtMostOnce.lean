import Yfs.RpcOrder
import Mathlib.Data.List.Count
import Mathlib.Data.List.Perm.Basic

/-! At-most-once execution. The two programs meet in one fact: what an arrival
makes the server prune stays below everything that is kept and below the xid that
is accepted with it. While every reply reaches the call it answers this is plain,
since an `xid_rep` does not reach the xid it is sent with. After a freed reply
buffer has been sent to the wrong client an `xid_rep` can be beyond that xid, and
the order of the client's requests has to carry the argument. -/
namespace Yfs.Rpc

variable {ι α β : Type*} [DecidableEq ι] (cfg : Config ι β)

/-- A request that belongs in the middle of the window, below an entry it reports,
has too few entries above it for the scan to erase one of those. -/
def Uncrossed (w : List ReplyT) (xid xidRep : ℕ) : Prop :=
  (∃ a ∈ w, a.xid < xid) → (∃ b ∈ w, xid < b.xid ∧ b.xid ≤ xidRep) →
    w.countP (fun r => xid < r.xid) < slidingWindowSize

theorem Uncrossed.pruned_lt {w : List ReplyT} {xid xidRep : ℕ} (h : Uncrossed w xid xidRep)
    (hw : Ascending w) (hnew : (checkduplicateAndUpdate w xid xidRep).status = .new) :
    ∀ r ∈ prunedBy xidRep w.length w, r.xid < xid := by
  intro r hr
  obtain ⟨hmiss,hmin⟩ := check_new_imp w xid xidRep hnew
  have hrw : r ∈ w := (mem_kept_or_pruned xidRep w.length w r).mpr (Or.inr hr)
  by_contra hle
  have hlt : xid < r.xid := lt_of_le_of_ne (not_lt.mp hle) (hmiss r hrw).symm
  have hlow : ∃ a ∈ w, a.xid < xid := by
    rcases hmin with rfl | ⟨a,ha,hax⟩
    · exact absurd hrw List.not_mem_nil
    · exact ⟨a, ha, lt_of_le_of_ne hax (hmiss a ha)⟩
  have hfew := h hlow ⟨r, hrw, hlt, pruned_xid_le _ _ _ r hr⟩
  -- but the scan erased `r` because the window was full from `r` on
  have hfull := pruned_of_full xidRep w.length w hw r hr
  have hsplit := List.length_eq_countP_add_countP (fun a : ReplyT => a.xid < r.xid) (l := w)
  have habove : w.countP (fun a => ¬ a.xid < r.xid) ≤ w.countP (fun a => xid < a.xid) := by
    apply List.countP_mono_left
    intro a _ ha
    simp only [decide_eq_true_eq] at ha ⊢
    omega
  simp only [decide_eq_true_eq] at hsplit
  omega

/-- The step lemma: an arrival with a larger xid reports at least as much, so if
it leaves a reported entry in place then the window was not full. -/
theorem Uncrossed.check {w : List ReplyT} {xid xidRep : ℕ} (h : Uncrossed w xid xidRep)
    (z zRep : ℕ) (hmono : xid < z → xidRep ≤ zRep) :
    Uncrossed (checkduplicateAndUpdate w z zRep).window xid xidRep := by
  rintro ⟨a,ha,hax⟩ ⟨b,hb,hxb,hbrep⟩
  have hsub := kept_sublist zRep w.length w
  have hle := hsub.countP_le (p := fun r => decide (xid < r.xid))
  rw [mem_check_window] at ha hb
  rw [check_window]
  by_cases hnew : (checkduplicateAndUpdate w z zRep).status = .new
  · rw [if_pos hnew, (insertReply_perm _ _).countP_eq, List.countP_cons]
    by_cases hz : xid < z
    · have hak : a ∈ keptBy zRep w.length w := by
        rcases ha with ha | ⟨_,rfl⟩
        · exact ha
        · exact absurd hax hz.not_gt
      have hreported : a.xid ≤ zRep := by
        have := hmono hz
        omega
      have hroom := kept_length_lt zRep w a hak hreported
      have hcount : (keptBy zRep w.length w).countP (fun r => xid < r.xid) <
          (keptBy zRep w.length w).length :=
        List.countP_lt_length_iff.mpr ⟨a, hak, by simpa using hax.le⟩
      simp only [hz, decide_true, if_true]
      omega
    · have hbw : b ∈ w := by
        rcases hb with hb | ⟨_,rfl⟩
        · exact hsub.subset hb
        · exact absurd hxb hz
      have hlow : ∃ r ∈ w, r.xid < xid := by
        rcases ha with ha | ⟨_,rfl⟩
        · exact ⟨a, hsub.subset ha, hax⟩
        · rcases (check_new_imp w z zRep hnew).2 with rfl | ⟨r,hr,hrz⟩
          · exact absurd hbw List.not_mem_nil
          · exact ⟨r, hr, hrz.trans_lt hax⟩
      have := h hlow ⟨b, hbw, hxb, hbrep⟩
      simp only [hz, decide_false, Bool.false_eq_true, if_false]
      omega
  · rw [if_neg hnew]
    simp only [hnew, false_and, or_false] at ha hb
    have := h ⟨a, hsub.subset ha, hax⟩ ⟨b, hsub.subset hb, hxb, hbrep⟩
    omega

theorem Uncrossed.congr {w w' : List ReplyT} {xid xidRep : ℕ} (h : Uncrossed w xid xidRep)
    (hw : w'.map (·.xid) = w.map (·.xid)) : Uncrossed w' xid xidRep := by
  have hmem : ∀ (v : List ReplyT) (p : ℕ → Prop), (∃ a ∈ v, p a.xid) ↔ ∃ x ∈ v.map (·.xid), p x :=
    fun v p => by simp
  have hcount : ∀ v : List ReplyT, v.countP (fun r => xid < r.xid) =
      (v.map (·.xid)).countP (fun x => xid < x) := fun v => by
    rw [List.countP_map]
    rfl
  unfold Uncrossed at h ⊢
  rw [hmem _ (· < xid), hmem _ (fun x => xid < x ∧ x ≤ xidRep), hcount] at h ⊢
  rwa [hw]

/-- The windows of the server. An accepted xid is still remembered, or the
window has moved past it for good. -/
structure WindowsOk (s : Sys ι α β) : Prop where
  ascending : ∀ n, Ascending (s.server.replyWindow n)
  accepted : ∀ n x, (n, x, .new) ∈ s.answers →
    (∃ r ∈ s.server.replyWindow n, r.xid = x) ∨
    (s.server.replyWindow n ≠ [] ∧ ∀ r ∈ s.server.replyWindow n, x < r.xid)
  remembered : ∀ n, ∀ r ∈ s.server.replyWindow n, (n, r.xid, .new) ∈ s.answers
  requested : ∀ n x st, (n, x, st) ∈ s.answers → ∃ q ∈ s.requests, q.cltNonce = n ∧ q.xid = x
  once : ∀ n x, s.answers.count (n, x, .new) ≤ 1
  uncrossed : ∀ q ∈ s.requests, Uncrossed (s.server.replyWindow q.cltNonce) q.xid q.xidRep

section
omit [DecidableEq ι]

/-- NEW is answered only for an xid that was never accepted before. -/
theorem WindowsOk.fresh {s : Sys ι α β} (h : WindowsOk s) (q : Req α)
    (hnew : (s.check q).status = .new) : (q.cltNonce, q.xid, RpcState.new) ∉ s.answers := by
  intro ha
  obtain ⟨hmiss,hmin⟩ := check_new_imp _ _ _ hnew
  rcases h.accepted _ _ ha with ⟨r,hr,hx⟩ | ⟨hne,hlt⟩
  · exact hmiss r hr hx
  · rcases hmin with he | ⟨r,hr,hle⟩
    · exact hne he
    · exact absurd (hlt r hr) (not_lt.mpr hle)

/-- The step lemma behind at-most-once: an arrival leaves every accepted xid
remembered or below the whole window. -/
theorem accepted_checked (s : Sys ι α β) (h : WindowsOk s) (q : Req α) (hq : q ∈ s.requests)
    (x : ℕ) (hx : (q.cltNonce, x, RpcState.new) ∈ s.answers) :
    (∃ r ∈ (s.check q).window, r.xid = x) ∨
    ((s.check q).window ≠ [] ∧ ∀ r ∈ (s.check q).window, x < r.xid) := by
  rcases h.accepted _ _ hx with ⟨r,hr,hrx⟩ | ⟨hne,hlt⟩
  · rcases (mem_kept_or_pruned q.xidRep _ _ r).mp hr with hk | hp
    · exact Or.inl ⟨r, (mem_check_window _ _ _ r).mpr (Or.inl hk), hrx⟩
    · -- `r` is pruned: it is below what is kept, and below the request's own xid
      refine Or.inr ⟨check_window_ne_nil _ _ _, ?_⟩
      intro a ha
      rcases (mem_check_window _ _ _ a).mp ha with hk | ⟨hnew,he⟩
      · have := pruned_lt_kept q.xidRep _ _ (h.ascending _) r hp a hk
        omega
      · have := (h.uncrossed q hq).pruned_lt (h.ascending _) hnew r hp
        have hax : a.xid = q.xid := by rw [he]
        omega
  · refine Or.inr ⟨check_window_ne_nil _ _ _, ?_⟩
    intro a ha
    rcases (mem_check_window _ _ _ a).mp ha with hk | ⟨hnew,he⟩
    · exact hlt a ((kept_sublist _ _ _).subset hk)
    · rcases (check_new_imp _ _ _ hnew).2 with hnil | ⟨r,hr,hle⟩
      · exact absurd hnil hne
      · have := hlt r hr
        have hax : a.xid = q.xid := by rw [he]
        omega

theorem ascending_checked {s : Sys ι α β} (h : ∀ n, Ascending (s.server.replyWindow n))
    (q : Req α) :
    ∀ n, Ascending ((s.checked cfg q).server.replyWindow n) :=
  (Function.forall_update_iff _ fun _ w => Ascending w).mpr ⟨check_window_ascending _ _ _ (h _),
    fun n _ => h n⟩

theorem windowsOk_checked (s : Sys ι α β) (h : WindowsOk s) (ho : Ordered cfg s) (q : Req α)
    (hq : q ∈ s.requests) : WindowsOk (s.checked cfg q) where
  ascending := ascending_checked cfg h.ascending q
  accepted n x ha := by
    by_cases hn : n = q.cltNonce
    · subst hn
      rw [replyWindow_checked]
      rcases List.mem_append.mp ha with ha | ha
      · exact accepted_checked s h q hq x ha
      · simp only [List.mem_singleton, Prod.mk.injEq, true_and] at ha
        exact Or.inl ⟨_, (mem_check_window _ _ _ _).mpr (Or.inr ⟨ha.2.symm,rfl⟩), ha.1.symm⟩
    · rw [replyWindow_checked_of_ne cfg s q hn]
      rcases List.mem_append.mp ha with ha | ha
      · exact h.accepted n x ha
      · simp only [List.mem_singleton, Prod.mk.injEq] at ha
        exact absurd ha.1 hn
  remembered n r hr := by
    rcases mem_replyWindow_checked cfg s q n r hr with hr | ⟨hn,hst,he⟩
    · exact List.mem_append_left _ (h.remembered n r hr)
    · refine List.mem_append_right _ ?_
      rw [List.mem_singleton, hn, hst, he]
  requested n x st ha := by
    rcases List.mem_append.mp ha with ha | ha
    · exact h.requested n x st ha
    · simp only [List.mem_singleton, Prod.mk.injEq] at ha
      exact ⟨q, hq, ha.1.symm, ha.2.1.symm⟩
  once n x := by
    simp only [Sys.checked, List.count_append, List.count_singleton]
    split_ifs with he
    · simp only [beq_iff_eq, Prod.mk.injEq] at he
      obtain ⟨hn,hx,hst⟩ := he
      have hfresh := h.fresh q hst
      rw [hn, hx] at hfresh
      rw [List.count_eq_zero_of_not_mem hfresh]
    · exact h.once n x
  uncrossed p hp := by
    by_cases hn : p.cltNonce = q.cltNonce
    · rw [hn, replyWindow_checked]
      exact (hn ▸ h.uncrossed p hp).check q.xid q.xidRep (ho.mono p hp q hq hn)
    · rw [replyWindow_checked_of_ne cfg s q hn]
      exact h.uncrossed p hp

end

theorem xids_packed (s : Rpcs α β) (j n : ℕ) (addr : Addr) (r : Reply β) (m : ℕ) :
    ((s.packed j n addr r).replyWindow m).map (·.xid) = (s.replyWindow m).map (·.xid) := by
  by_cases hm : m = n
  · subst hm
    rcases replyWindow_packed_self s j m addr r with hw | hw
    · rw [hw]
    · rw [hw, addReply_xids]
  · rw [replyWindow_packed_of_ne s j addr r hm]

theorem ascending_iff_xids (w : List ReplyT) : Ascending w ↔ (w.map (·.xid)).Pairwise (· < ·) :=
  List.pairwise_map.symm

theorem ascending_packed {s : Rpcs α β} (h : ∀ n, Ascending (s.replyWindow n)) (j n : ℕ)
    (addr : Addr) (r : Reply β) (m : ℕ) : Ascending ((s.packed j n addr r).replyWindow m) := by
  rw [ascending_iff_xids, xids_packed]
  exact (ascending_iff_xids _).mp (h m)

section
omit [DecidableEq ι]

theorem windowsOk_packed (s : Sys ι α β) (h : WindowsOk s) (j n : ℕ) (addr : Addr) (r : Reply β)
    (execs : List (Exec α β)) :
    WindowsOk { s with server := s.server.packed j n addr r, execs := execs } := by
  have hxids := xids_packed s.server j n addr r
  have hmem : ∀ (w : List ReplyT) (x : ℕ), (∃ a ∈ w, a.xid = x) ↔ x ∈ w.map (·.xid) :=
    fun w x => List.mem_map.symm
  have hall : ∀ (w : List ReplyT) (x : ℕ), (∀ a ∈ w, x < a.xid) ↔ ∀ y ∈ w.map (·.xid), x < y :=
    fun w x => by simp
  have hnil : ∀ w : List ReplyT, w ≠ [] ↔ w.map (·.xid) ≠ [] := fun w => by simp
  refine ⟨ascending_packed h.ascending j n addr r, ?_, ?_, h.requested, h.once,
    fun q hq => (h.uncrossed q hq).congr (hxids _)⟩
  · intro m x ha
    have hold := h.accepted m x ha
    rw [hmem, hall, hnil] at hold ⊢
    rwa [hxids]
  · intro m a ha
    obtain ⟨a0,ha0,hx⟩ : ∃ a0 ∈ s.server.replyWindow m, a0.xid = a.xid := by
      rw [hmem, ← hxids]
      exact List.mem_map_of_mem ha
    rw [← hx]
    exact h.remembered m a0 ha0

theorem uncrossed_call1 (s : Sys ι α β) (h : WindowsOk s) (ho : Ordered cfg s) (i : ι) (proc : ℕ)
    (args : α) (h0 : (s.clients i).xid ≠ 0) :
    ∀ q ∈ s.requests ++ [(s.clients i).request (cfg.nonce i) proc args],
      Uncrossed (s.server.replyWindow q.cltNonce) q.xid q.xidRep := by
  intro q hq
  rcases List.mem_append.mp hq with hq | hq
  · exact h.uncrossed q hq
  · rw [List.mem_singleton.mp hq]
    rintro _ ⟨b,hb,hlt,_⟩
    obtain ⟨p,hp,hn,hx⟩ := h.requested _ _ _ (h.remembered _ b hb)
    have hbound := (ho.request_of_nonce cfg p hp i hn).1
    have hl := (register_limit (s.clients i) proc (ho.xid_lt i) h0).1
    simp only [Rpcc.request] at hlt
    omega

theorem windowsOk_init : WindowsOk (Sys.init : Sys ι α β) where
  ascending _ := List.Pairwise.nil
  accepted _ _ ha := absurd ha List.not_mem_nil
  remembered _ _ hr := absurd hr List.not_mem_nil
  requested _ _ _ ha := absurd ha List.not_mem_nil
  once _ _ := Nat.zero_le _
  uncrossed _ hq := absurd hq List.not_mem_nil

end

theorem windowsOk_step (ub : Bool) (s s' : Sys ι α β) (a : Act ι α β) (h : WindowsOk s)
    (ho : Ordered cfg s) (hw : NoWrap s a) (hs : step cfg ub s a = some s') : WindowsOk s' := by
  have hsame : ∀ t : Sys ι α β, t.server.replyWindow = s.server.replyWindow →
      t.answers = s.answers → t.requests = s.requests → WindowsOk t := by
    intro t hw ha hr
    exact ⟨hw ▸ h.ascending, hw ▸ ha ▸ h.accepted, hw ▸ ha ▸ h.remembered, ha ▸ hr ▸ h.requested,
      ha ▸ h.once, hw ▸ hr ▸ h.uncrossed⟩
  cases step_cases cfg ub s s' a hs with
  | refused i proc args => exact h
  | call1 i proc args =>
    refine ⟨h.ascending, h.accepted, h.remembered, ?_, h.once,
      uncrossed_call1 cfg s h ho i proc args (hw i proc args rfl)⟩
    intro n x st hx
    obtain ⟨q,hq,he⟩ := h.requested n x st hx
    exact ⟨q, List.mem_append_left _ hq, he⟩
  | checked k q hk => exact windowsOk_checked cfg s h ho q (List.mem_of_getElem? hk.1)
  | handlerDone j n x proc args ret body addr hj hret ha => exact windowsOk_packed s h j n addr _ _
  | gotPdu | callEnd | bindRecord | cancel | oldsrv | aborts | unchecked | sendReply =>
    exact hsame _ rfl rfl rfl

def Job.key : Job α → Option (ℕ × ℕ)
  | .handling n x _ _ => some (n, x)
  | .sending _ _ => none

def Exec.key (e : Exec α β) : ℕ × ℕ := (e.cltNonce, e.xid)

/-- Handlers running now and handlers that have returned, for one request. -/
def handlerRuns (s : Sys ι α β) (k : ℕ × ℕ) : ℕ :=
  (s.server.jobs.filterMap Job.key).count k + (s.execs.map Exec.key).count k

def ExecsOk (s : Sys ι α β) : Prop :=
  ∀ n x, n ≠ 0 → handlerRuns s (n, x) ≤ s.answers.count (n, x, .new)

theorem count_key_eraseIdx (jobs : List (Job α)) (j : ℕ) (job : Job α) (k : ℕ × ℕ)
    (hj : jobs[j]? = some job) :
    (jobs.filterMap Job.key).count k =
      job.key.toList.count k + ((jobs.eraseIdx j).filterMap Job.key).count k := by
  obtain ⟨hlt,rfl⟩ := List.getElem?_eq_some_iff.mp hj
  have hperm := (List.getElem_cons_eraseIdx_perm hlt).filterMap Job.key
  rw [← hperm.count_eq k, List.filterMap_cons]
  cases jobs[j].key with
  | none => simp
  | some y => simp [List.count_cons, Nat.add_comm]

omit [DecidableEq ι] in
theorem execsOk_checked (s : Sys ι α β) (h : ExecsOk s) (q : Req α) :
    ExecsOk (s.checked cfg q) := by
  intro n x hn
  have hold := h n x hn
  simp only [handlerRuns, Sys.checked, List.filterMap_append, List.count_append] at hold ⊢
  have hjobs : ((statusJobs q (s.check q)).filterMap Job.key).count (n, x) ≤
      [(q.cltNonce, q.xid, (s.check q).status)].count (n, x, RpcState.new) := by
    unfold statusJobs
    split
    · next hst => simp [Job.key, hst, List.count_singleton]
    · simp
    · cases (s.check q).buf with
      | none => exact Nat.zero_le _
      | some b => exact Nat.zero_le _
    · simp
  omega

theorem execsOk_step (ub : Bool) (s s' : Sys ι α β) (a : Act ι α β) (h : ExecsOk s)
    (hs : step cfg ub s a = some s') : ExecsOk s' := by
  cases step_cases cfg ub s s' a hs with
  | refused | call1 | gotPdu | callEnd | bindRecord | cancel | oldsrv | aborts => exact h
  | unchecked k q hk h0 =>
    intro n x hn
    have hold := h n x hn
    simp only [handlerRuns, List.filterMap_append, List.count_append] at hold ⊢
    have hnew : ([Job.handling 0 q.xid q.proc q.args].filterMap Job.key).count (n, x) = 0 := by
      simp [Job.key, hn.symm]
    omega
  | checked k q hk => exact execsOk_checked cfg s h q
  | handlerDone j m y proc args ret body addr hj hret ha =>
    intro n x hn
    have hold := h n x hn
    have hcount := count_key_eraseIdx s.server.jobs j _ (n, x) hj
    simp only [handlerRuns, Rpcs.packed, List.filterMap_append, List.count_append,
      List.map_append] at hold ⊢
    have hnew : ([(Job.sending m s.server.heap.length : Job α)].filterMap Job.key).count (n, x) =
        0 := rfl
    have hexec : ([(⟨m, y, proc, args, handlerRet proc ret, handlerBody cfg proc body⟩ :
        Exec α β)].map Exec.key).count (n, x) =
        (Job.handling m y proc args).key.toList.count (n, x) := rfl
    omega
  | sendReply j m b hj hub =>
    intro n x hn
    have hold := h n x hn
    have hcount := count_key_eraseIdx s.server.jobs j _ (n, x) hj
    simp only [handlerRuns, Rpcs.sent] at hold ⊢
    omega

structure AtMostOnce (s : Sys ι α β) : Prop where
  ordered : Ordered cfg s
  windows : WindowsOk s
  execs : ExecsOk s

omit [DecidableEq ι] in
theorem atMostOnce_init : AtMostOnce cfg (Sys.init : Sys ι α β) :=
  ⟨ordered_init cfg, windowsOk_init, fun _ _ _ => Nat.zero_le _⟩

theorem atMostOnce_step (ub : Bool) (s s' : Sys ι α β) (a : Act ι α β) (h : AtMostOnce cfg s)
    (hw : NoWrap s a) (hs : step cfg ub s a = some s') : AtMostOnce cfg s' :=
  ⟨ordered_step cfg ub s s' a h.ordered hw hs,
    windowsOk_step cfg ub s s' a h.windows h.ordered hw hs,
    execsOk_step cfg ub s s' a h.execs hs⟩

/-- For every client nonce and xid, `checkduplicate_and_update` answers NEW at
most once in the whole run, and the handler runs at most once. With `ub` the run
goes on after the send of a freed buffer. -/
theorem new_answered_at_most_once (ub : Bool) (acts : List (Act ι α β)) (s : Sys ι α β)
    (hrun : run (step cfg ub) Sys.init acts = some s)
    (hcalls : ∀ i, issued cfg s i < 2^31) (i : ι) (x : ℕ) :
    s.answers.count (cfg.nonce i, x, .new) ≤ 1 ∧ handlerRuns s (cfg.nonce i, x) ≤ 1 := by
  have hwrap := (runAll_noWrap cfg ub _ s acts (xidCount_init cfg) hrun hcalls).1
  have hinv : AtMostOnce cfg s := run_invariant_of_all (step cfg ub) NoWrap (AtMostOnce cfg)
    (fun s a s' hi hw hs => atMostOnce_step cfg ub s s' a hi hw hs)
    _ s acts (atMostOnce_init cfg) hwrap hrun
  have hone := hinv.windows.once (cfg.nonce i) x
  exact ⟨hone, (hinv.execs _ x (cfg.nonce_ne_zero i)).trans hone⟩

/-- Two clients with nonces 7 and 8, and a server with nonce 3 that has
registered `bind` and a procedure numbered 2. -/
def twoClients : Config Bool ℕ where
  nonce b := if b = true then 8 else 7
  nonce_injective := by
    intro a b
    cases a <;> cases b <;> simp
  nonce_ne_zero := by decide
  srvNonce := 3
  registered p := p = 1 ∨ p = 2
  bindBody := 3
  unpackNonce := id
  emptyBody := 0

/-- A `bind` request that the network delivers three times. -/
def triplicateBind : List (Act Bool Unit ℕ) :=
  [.call1 false 1 (), .dispatch 0, .dispatch 0, .handlerDone 0 0 0 0, .dispatch 0]

theorem new_answered_at_most_once_bind :
    ∃ s, run (step twoClients false) Sys.init triplicateBind = some s ∧
      s.answers.count (7, 1, .new) ≤ 1 ∧ handlerRuns s (7, 1) ≤ 1 := by
  have hends : ∃ s, run (step twoClients false) Sys.init triplicateBind = some s ∧
      ∀ i, issued twoClients s i < 2^31 := by
    decide
  obtain ⟨s,hrun,hb⟩ := hends
  exact ⟨s, hrun, new_answered_at_most_once twoClients false triplicateBind s hrun hb false 1⟩

end Yfs.Rpc
