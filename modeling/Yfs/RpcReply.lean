import Yfs.RpcPending
import Mathlib.Data.List.ReduceOption

namespace Yfs.Rpc

variable {ι α β : Type*} [DecidableEq ι] (cfg : Config ι β)

/-- Every non-negative return of `call1` is the result of the one execution of
the handler for the request that the caller's client sent under that xid. -/
def ReplyIntegrity (s : Sys ι α β) : Prop :=
  ∀ i x ret un, (i, x, ret, un) ∈ s.returns → 0 ≤ ret →
    ∃ e ∈ s.execs, e.cltNonce = cfg.nonce i ∧ e.xid = x ∧
      Requested s e.cltNonce e.xid e.proc e.args ∧ e.ret = ret ∧ un = some e.body ∧
      ∀ e' ∈ s.execs, e'.key = e.key → e' = e

/-- The request, if the step classifies one, prunes no entry whose buffer a
dispatch thread still has to send. -/
def NoEarlyFree (s : Sys ι α β) (a : Act ι α β) : Prop :=
  ∀ k q, a = .dispatch k → s.Checks cfg k q →
    ∀ r ∈ prunedBy q.xidRep (s.server.replyWindow q.cltNonce).length
      (s.server.replyWindow q.cltNonce),
    ∀ b, r.buf = some b → ∀ n, Job.sending n b ∉ s.server.jobs

/-- Every buffer that is remembered or about to be sent is live, and no two
window entries share one. -/
structure HeapOk (s : Sys ι α β) : Prop where
  freed_lt : ∀ b ∈ s.server.freed, b < s.server.heap.length
  sending : ∀ n b, Job.sending n b ∈ s.server.jobs → b ∉ s.server.freed
  window : ∀ n, ∀ r ∈ s.server.replyWindow n, ∀ b, r.buf = some b → b ∉ s.server.freed
  distinct : ∀ n, ∀ r ∈ s.server.replyWindow n, ∀ n', ∀ r' ∈ s.server.replyWindow n',
    ∀ b, r.buf = some b → r'.buf = some b → n = n' ∧ r.xid = r'.xid

section
omit [DecidableEq ι]

theorem window_buf_lt (s : Sys ι α β) (hp : Provenance cfg s) (n : ℕ) (r : ReplyT)
    (hr : r ∈ s.server.replyWindow n) (b : ℕ) (hb : r.buf = some b) : b < s.server.heap.length := by
  obtain ⟨a,ha,_⟩ := hp.window n r hr b hb
  exact (List.getElem?_eq_some_iff.mp ha).1

theorem mem_freed_checked (s : Sys ι α β) (q : Req α) (b : ℕ)
    (h : b ∈ (s.checked cfg q).server.freed) :
    b ∈ s.server.freed ∨ ∃ r ∈ prunedBy q.xidRep (s.server.replyWindow q.cltNonce).length
      (s.server.replyWindow q.cltNonce), r.buf = some b := by
  rcases List.mem_append.mp h with h | h
  · exact Or.inl h
  · rw [Sys.check, check_freed, List.reduceOption_mem_iff, List.mem_map] at h
    exact Or.inr h

theorem heapOk_checked (s : Sys ι α β) (h : HeapOk s) (hi : Inv cfg s) (k : ℕ) (q : Req α)
    (hk : s.Checks cfg k q) (hfree : NoEarlyFree cfg s (.dispatch k)) :
    HeapOk (s.checked cfg q) := by
  have hmem : ∀ r ∈ prunedBy q.xidRep (s.server.replyWindow q.cltNonce).length
      (s.server.replyWindow q.cltNonce), r ∈ s.server.replyWindow q.cltNonce :=
    fun r hr => (mem_kept_or_pruned _ _ _ r).mpr (Or.inr hr)
  obtain ⟨_,_,_,_,hrep,_⟩ := hi.clients.request q (List.mem_of_getElem? hk.1)
  have hold : ∀ n r b, r ∈ (s.checked cfg q).server.replyWindow n → r.buf = some b →
      r ∈ s.server.replyWindow n := by
    intro n r b hr hrb
    rcases mem_replyWindow_checked cfg s q n r hr with hr | ⟨_,_,he⟩
    · exact hr
    · rw [he] at hrb
      cases hrb
  refine ⟨?_, ?_, ?_, ?_⟩
  · intro b hb
    rcases mem_freed_checked cfg s q b hb with hb | ⟨r,hr,hrb⟩
    · exact h.freed_lt b hb
    · exact window_buf_lt cfg s hi.provenance _ r (hmem r hr) b hrb
  · intro n b hj hb
    rcases List.mem_append.mp hj with hj | hj
    · rcases mem_freed_checked cfg s q b hb with hb | ⟨r,hr,hrb⟩
      · exact h.sending n b hj hb
      · exact hfree k q rfl hk r hr b hrb n hj
    · -- a buffer handed out with DONE belongs to an entry above `xid_rep`
      rcases statusJobs_cases q _ _ hj with ⟨_,he⟩ | ⟨hs,b',hbuf,he⟩
      · cases he
      · cases he
        obtain ⟨r0,hr0,hx0,hb0⟩ := check_done_buf s q b hs hbuf
        rcases mem_freed_checked cfg s q b hb with hb | ⟨r,hr,hrb⟩
        · exact h.window _ r0 hr0 b hb0 hb
        · have hx := (h.distinct _ r0 hr0 _ r (hmem r hr) b hb0 hrb).2
          have hle := pruned_xid_le _ _ _ r hr
          omega
  · intro n r hr b hrb hb
    rcases mem_freed_checked cfg s q b hb with hb | ⟨r',hr',hrb'⟩
    · exact h.window n r (hold n r b hr hrb) b hrb hb
    · -- the entry would be the pruned one, but those that stay are above it
      obtain ⟨rfl,hx⟩ := h.distinct n r (hold n r b hr hrb) _ r' (hmem r' hr') b hrb hrb'
      rw [replyWindow_checked] at hr
      rcases (mem_check_window _ _ _ r).mp hr with hkept | ⟨_,he⟩
      · have hlt := pruned_lt_kept _ _ _ (hi.windows.ascending _) r' hr' r hkept
        omega
      · rw [he] at hrb
        cases hrb
  · intro n r hr n' r' hr' b hrb hrb'
    exact h.distinct n r (hold n r b hr hrb) n' r' (hold n' r' b hr' hrb') b hrb hrb'

theorem heapOk_packed (s : Sys ι α β) (h : HeapOk s) (hp : Provenance cfg s) (j n : ℕ)
    (addr : Addr) (r : Reply β) (execs : List (Exec α β)) :
    HeapOk { s with server := s.server.packed j n addr r, execs := execs } := by
  have hnew : s.server.heap.length ∉ s.server.freed :=
    fun hb => absurd (h.freed_lt _ hb) (lt_irrefl _)
  refine ⟨?_, ?_, ?_, ?_⟩
  · intro b hb
    have := h.freed_lt b hb
    simp only [Rpcs.packed, List.length_append, List.length_singleton]
    omega
  · intro m b hj
    rcases List.mem_append.mp hj with hj | hj
    · exact h.sending m b (List.mem_of_mem_eraseIdx hj)
    · cases List.mem_singleton.mp hj
      exact hnew
  · intro m a ha b hb
    rcases mem_replyWindow_packed s.server j n addr r m a ha with ha | ⟨_,he⟩
    · exact h.window m a ha b hb
    · rw [he] at hb
      cases hb
      exact hnew
  · intro m a ha m' a' ha' b hb hb'
    rcases mem_replyWindow_packed s.server j n addr r m a ha with ha | ⟨hm,he⟩ <;>
      rcases mem_replyWindow_packed s.server j n addr r m' a' ha' with ha' | ⟨hm',he'⟩
    · exact h.distinct m a ha m' a' ha' b hb hb'
    · rw [he'] at hb'
      cases hb'
      exact absurd (window_buf_lt cfg s hp m a ha _ hb) (lt_irrefl _)
    · rw [he] at hb
      cases hb
      exact absurd (window_buf_lt cfg s hp m' a' ha' _ hb') (lt_irrefl _)
    · exact ⟨hm.trans hm'.symm, by rw [he, he']⟩

theorem sending_nonce_ne_zero (s : Sys ι α β) (hi : Inv cfg s) (n b : ℕ)
    (hj : Job.sending n b ∈ s.server.jobs) : n ≠ 0 := by
  obtain ⟨_,_,e,he,hn,_⟩ := hi.provenance.sending n b hj
  obtain ⟨q,hq,hqn,_⟩ := hi.provenance.exec e he
  obtain ⟨i,hni,_⟩ := hi.clients.request q hq
  rw [← hn, ← hqn, hni]
  exact cfg.nonce_ne_zero i

end

theorem heapOk_step (ub : Bool) (s s' : Sys ι α β) (a : Act ι α β) (h : HeapOk s)
    (hi : Inv cfg s) (hf : NoEarlyFree cfg s a) (hs : step cfg ub s a = some s') : HeapOk s' := by
  cases step_cases cfg ub s s' a hs with
  | refused i proc args => exact h
  | call1 | gotPdu | callEnd | bindRecord | cancel | oldsrv | aborts =>
    exact ⟨h.freed_lt, h.sending, h.window, h.distinct⟩
  | unchecked k q hk h0 =>
    refine ⟨h.freed_lt, ?_, h.window, h.distinct⟩
    intro n b hj
    rcases List.mem_append.mp hj with hj | hj
    · exact h.sending n b hj
    · cases List.mem_singleton.mp hj
  | checked k q hk => exact heapOk_checked cfg s h hi k q hk hf
  | handlerDone j n x proc args ret body addr hj hret ha =>
    exact heapOk_packed cfg s h hi.provenance j n addr _ _
  | sendReply j n b hj hub =>
    have hn : n ≠ 0 := sending_nonce_ne_zero cfg s hi n b (List.mem_of_getElem? hj)
    have hfr : (s.server.sent j n b).freed = s.server.freed := if_neg hn
    refine ⟨?_, ?_, ?_, h.distinct⟩
    · simp only [hfr]
      exact h.freed_lt
    · simp only [hfr]
      exact fun m c hm => h.sending m c (List.mem_of_mem_eraseIdx hm)
    · simp only [hfr]
      exact h.window

omit [DecidableEq ι] in
theorem HeapOk.noDangling {s : Sys ι α β} (h : HeapOk s) (a : Act ι α β) : NoDangling s a :=
  fun _ n b _ hj => h.sending n b (List.mem_of_getElem? hj)

theorem eq_of_count_map_le_one {γ δ : Type*} [BEq δ] [LawfulBEq δ] (f : γ → δ) (l : List γ) (k : δ)
    (h : (l.map f).count k ≤ 1) (a b : γ) (ha : a ∈ l) (hb : b ∈ l) (hfa : f a = k)
    (hfb : f b = k) : a = b := by
  induction l with
  | nil => exact absurd ha List.not_mem_nil
  | cons c l ih =>
    have hpos : ∀ d ∈ l, f d = k → 0 < (l.map f).count k := fun d hd hfd =>
      List.count_pos_iff.mpr (hfd ▸ List.mem_map_of_mem hd)
    simp only [List.map_cons, List.count_cons] at h
    rcases List.mem_cons.mp ha with hac | hal <;> rcases List.mem_cons.mp hb with hbc | hbl
    · rw [hac, hbc]
    · have := hpos b hbl hfb
      simp only [← hac, hfa, beq_self_eq_true, if_true] at h
      omega
    · have := hpos a hal hfa
      simp only [← hbc, hfb, beq_self_eq_true, if_true] at h
      omega
    · exact ih ((Nat.le_add_right _ _).trans h) hal hbl

omit [DecidableEq ι] in
theorem replyIntegrity_of_inv (s : Sys ι α β) (h : Inv cfg s) : ReplyIntegrity cfg s := by
  intro i x ret un hr hret
  obtain ⟨body,hun,e,he,hn,hx,hre,hbody⟩ := h.provenance.returned i x ret un hr hret
  refine ⟨e, he, hn, hx, h.provenance.exec e he, hre, by rw [hun, hbody], ?_⟩
  intro e' he' hkey
  have hruns := (h.execs (cfg.nonce i) x (cfg.nonce_ne_zero i)).trans (h.windows.once _ _)
  have hcount : (s.execs.map Exec.key).count (cfg.nonce i, x) ≤ 1 :=
    (Nat.le_add_left _ _).trans hruns
  have hk : e.key = (cfg.nonce i, x) := Prod.ext hn hx
  exact eq_of_count_map_le_one Exec.key s.execs _ hcount e' e he' he (hkey.trans hk) hk

/-- In every run in which no xid wraps and no prune frees a buffer that is still
to be sent, replies reach exactly the callers they were computed for. -/
theorem reply_integrity_of_no_early_free (acts : List (Act ι α β)) (s : Sys ι α β)
    (hcond : RunAll (step cfg true) (fun s a => NoWrap s a ∧ NoEarlyFree cfg s a) Sys.init acts)
    (hrun : run (step cfg true) Sys.init acts = some s) : ReplyIntegrity cfg s := by
  have hinit : Inv cfg (Sys.init : Sys ι α β) ∧ HeapOk (Sys.init : Sys ι α β) :=
    ⟨inv_init cfg, fun _ hb => absurd hb List.not_mem_nil, fun _ _ hj => absurd hj List.not_mem_nil,
      fun _ _ hr => absurd hr List.not_mem_nil, fun _ _ hr => absurd hr List.not_mem_nil⟩
  have hinv : Inv cfg s ∧ HeapOk s := run_invariant_of_all (step cfg true) _
    (fun s => Inv cfg s ∧ HeapOk s)
    (fun s a s' hi hc hs => ⟨inv_step cfg true s s' a hi.1 (hi.2.noDangling a) hc.1 hs,
      heapOk_step cfg true s s' a hi.2 hi.1 hc.2 hs⟩) _ s acts hinit hcond hrun
  exact replyIntegrity_of_inv cfg s hinv.1

/-- Requests are taken up only while no dispatch thread is busy. -/
def OneAtATime (s : Sys ι α β) : Act ι α β → Prop
  | .dispatch _ => s.server.jobs = []
  | _ => True

omit [DecidableEq ι] in
theorem noEarlyFree_of_oneAtATime (s : Sys ι α β) (a : Act ι α β) (h : OneAtATime s a) :
    NoEarlyFree cfg s a := by
  rintro k q rfl _ r _ b _ n hj
  exact absurd (h ▸ hj) List.not_mem_nil

instance (s : Sys Bool Unit ℕ) (a : Act Bool Unit ℕ) : Decidable (OneAtATime s a) := by
  cases a <;> unfold OneAtATime <;> infer_instance

theorem reply_integrity_of_no_early_free_bind :
    ∃ s, run (step twoClients true) Sys.init (bindRun false 0 0 0) = some s ∧
      s.returns = [(false, 1, 0, some 3)] ∧ ReplyIntegrity twoClients s := by
  have hends : ∃ s, run (step twoClients true) Sys.init (bindRun false 0 0 0) = some s ∧
      s.returns = [(false, 1, 0, some 3)] ∧ ∀ i, issued twoClients s i < 2^31 := by
    decide
  obtain ⟨s,hrun,hret,hb⟩ := hends
  have hwrap := (runAll_noWrap twoClients true _ s _ (xidCount_init twoClients) hrun hb).1
  have hfree : RunAll (step twoClients true) (NoEarlyFree twoClients) Sys.init
      (bindRun false 0 0 0) :=
    runAll_of_all _ OneAtATime _ (fun _ => True) (fun _ _ _ _ _ _ => trivial)
      (fun s a _ h => noEarlyFree_of_oneAtATime twoClients s a h) _ _ trivial (by decide)
  exact ⟨s, hrun, hret, reply_integrity_of_no_early_free twoClients _ s
    (runAll_and _ _ _ _ _ hwrap hfree) hrun⟩

/-- The thread that served call 2 stalls before its send, and the call times out.
Call 102 then reports `xid_rep = 2` and frees the buffer; the reply to call 3 of
the other client is packed at the same address before the stalled send. -/
def staleReply : List (Act Bool Unit ℕ) :=
  bindRun false 0 0 0 ++ List.replicate 100 (.call1 false 2 ()) ++
    [.dispatch 1, .handlerDone 0 5 50 1] ++ (List.range 99).flatMap (fun k => serveRun 1 (k+2)) ++
    [.callEnd false 2, .call1 false 2 ()] ++ serveRun 1 101 ++ bindRun true 1 102 101 ++
    [.call1 true 2 (), .call1 true 2 (), .dispatch 104, .handlerDone 1 9 99 1, .sendReply 0,
      .gotPdu false 102, .callEnd false 3]

set_option maxRecDepth 10000 in
theorem staleReply_runs :
    ∃ s, run (step twoClients true) Sys.init staleReply = some s ∧
    (false, 3, 9, some 99) ∈ s.returns ∧
      (∀ e ∈ s.execs, e.cltNonce = 7 → e.xid = 3 → e.ret ≠ 9) ∧
      ∀ i, issued twoClients s i < 2^31 := by
  decide +kernel

/-- Call 3 of the first client returns the result computed for the second one's. -/
theorem reply_of_other_client_returned :
    ∃ s, run (step twoClients true) Sys.init staleReply = some s ∧
      RunAll (step twoClients true) NoWrap Sys.init staleReply ∧ ¬ ReplyIntegrity twoClients s := by
  obtain ⟨s,hrun,hret,hexec,hb⟩ := staleReply_runs
  refine ⟨s, hrun, (runAll_noWrap twoClients true _ s _ (xidCount_init twoClients) hrun hb).1, ?_⟩
  intro h
  obtain ⟨e,he,hn,hx,_,hre,_⟩ := h false 3 9 (some 99) hret (by decide)
  exact hexec e he hn hx hre

end Yfs.Rpc
