import Yfs.RpcSystem

namespace Yfs.Rpc

variable {ι α β : Type*} [DecidableEq ι] (cfg : Config ι β)

def Requested (s : Sys ι α β) (n x proc : ℕ) (args : α) : Prop :=
  ∃ q ∈ s.requests, q.cltNonce = n ∧ q.xid = x ∧ q.proc = proc ∧ q.args = args

def Executed (s : Sys ι α β) (n : ℕ) (r : Reply β) : Prop :=
  ∃ e ∈ s.execs, e.cltNonce = n ∧ e.xid = r.xid ∧ e.ret = r.ret ∧ e.body = r.body

structure Provenance (s : Sys ι α β) : Prop where
  handling : ∀ n x proc args, Job.handling n x proc args ∈ s.server.jobs →
    Requested s n x proc args
  exec : ∀ e ∈ s.execs, Requested s e.cltNonce e.xid e.proc e.args
  sending : ∀ n b, Job.sending n b ∈ s.server.jobs →
    ∃ a, s.server.heap[b]? = some a ∧ Executed s n a.content
  window : ∀ n, ∀ r ∈ s.server.replyWindow n, ∀ b, r.buf = some b →
    ∃ a, s.server.heap[b]? = some a ∧ a.content.xid = r.xid ∧ Executed s n a.content
  reply : ∀ n r, (n, r) ∈ s.replies →
    (∃ q ∈ s.requests, q.cltNonce = n ∧ q.xid = r.xid) ∧ (0 ≤ r.ret → Executed s n r)
  caller : ∀ i x ca, (s.clients i).calls x = some ca → ca.done = true → 0 ≤ ca.intret →
    ∃ body, ca.un = some body ∧ Executed s (cfg.nonce i) ⟨x, ca.intret, body⟩
  returned : ∀ i x ret un, (i, x, ret, un) ∈ s.returns → 0 ≤ ret →
    ∃ body, un = some body ∧ Executed s (cfg.nonce i) ⟨x, ret, body⟩

/-- The buffer that the step sends, if it sends one, has not been freed. -/
def NoDangling (s : Sys ι α β) (a : Act ι α β) : Prop :=
  ∀ j n b, a = .sendReply j → s.server.jobs[j]? = some (.sending n b) → b ∉ s.server.freed

omit [DecidableEq ι] in
theorem Requested.mono {s s' : Sys ι α β} (h : s.requests ⊆ s'.requests)
    {n x proc : ℕ} {args : α} : Requested s n x proc args → Requested s' n x proc args :=
  fun ⟨q,hq,he⟩ => ⟨q, h hq, he⟩

omit [DecidableEq ι] in
theorem Executed.mono {s s' : Sys ι α β} (h : s.execs ⊆ s'.execs)
    {n : ℕ} {r : Reply β} : Executed s n r → Executed s' n r :=
  fun ⟨e,he,hr⟩ => ⟨e, h he, hr⟩

/-- A step that touches only one client keeps the invariant as soon as that
client's answered calls are accounted for. -/
theorem Provenance.of_client {s : Sys ι α β} (h : Provenance cfg s) (i : ι) (c : Rpcc β)
    (requests : List (Req α)) (returns : List (ι × ℕ × ℤ × Option β))
    (hreq : s.requests ⊆ requests)
    (hcall : ∀ x ca, c.calls x = some ca → ca.done = true → 0 ≤ ca.intret →
      ∃ body, ca.un = some body ∧ Executed s (cfg.nonce i) ⟨x, ca.intret, body⟩)
    (hret : ∀ j x ret un, (j, x, ret, un) ∈ returns → 0 ≤ ret →
      ∃ body, un = some body ∧ Executed s (cfg.nonce j) ⟨x, ret, body⟩) :
    Provenance cfg { s with
      clients := Function.update s.clients i c, requests := requests, returns := returns } where
  handling n x proc args hj := (h.handling n x proc args hj).mono hreq
  exec e he := (h.exec e he).mono hreq
  sending := h.sending
  window := h.window
  reply n r hr :=
    have ⟨⟨q,hq,hqn⟩,hex⟩ := h.reply n r hr
    ⟨⟨q, hreq hq, hqn⟩, hex⟩
  caller j x ca := by
    intro hca hd hi
    by_cases hji : j = i
    · subst hji
      simp only [Function.update_self] at hca
      exact hcall x ca hca hd hi
    · simp only [Function.update_of_ne hji] at hca
      exact h.caller j x ca hca hd hi
  returned := hret

theorem gotPdu_caller (c : Rpcc β) (h : Reply β) (x : ℕ) (ca : Caller β)
    (hca : (c.gotPdu h).calls x = some ca) :
    c.calls x = some ca ∨
    (x = h.xid ∧ ca.un = some h.body ∧ ca.intret = h.ret ∧ ca.done = true) := by
  cases h0 : c.calls h.xid with
  | none =>
    simp only [Rpcc.gotPdu, h0] at hca
    exact Or.inl hca
  | some ca0 =>
    simp only [Rpcc.gotPdu, h0] at hca
    split_ifs at hca with hd
    · by_cases hx : x = h.xid
      · subst hx
        simp only [Function.update_self, Option.some.injEq] at hca
        subst hca
        exact Or.inr ⟨rfl,rfl,rfl,rfl⟩
      · rw [Function.update_of_ne hx] at hca
        exact Or.inl hca
    · exact Or.inl hca

theorem statusJobs_cases (h : Req α) (r : CheckResult) (j : Job α) (hj : j ∈ statusJobs h r) :
    (r.status = .new ∧ j = .handling h.cltNonce h.xid h.proc h.args) ∨
    (r.status = .done ∧ ∃ b, r.buf = some b ∧ j = .sending h.cltNonce b) := by
  unfold statusJobs at hj
  split at hj
  · next hs => exact Or.inl ⟨hs, by simpa using hj⟩
  · simp at hj
  · next hs =>
    right
    refine ⟨hs, ?_⟩
    cases hb : r.buf with
    | none => simp [hb] at hj
    | some b => exact ⟨b, rfl, by simpa [hb] using hj⟩
  · simp at hj

section
omit [DecidableEq ι]

theorem check_done_buf (s : Sys ι α β) (h : Req α) (b : ℕ)
    (hs : (s.check h).status = .done) (hb : (s.check h).buf = some b) :
    ∃ r ∈ s.server.replyWindow h.cltNonce, r.xid = h.xid ∧ r.buf = some b := by
  by_cases hrem : ∃ r ∈ s.server.replyWindow h.cltNonce, r.xid = h.xid
  · obtain ⟨r,hr,hx,hbuf,_⟩ := check_remembered _ h.xid h.xidRep hrem
    exact ⟨r, hr, hx, hbuf.symm.trans hb⟩
  · push Not at hrem
    rcases check_status_of_not_mem hrem h.xidRep with hst | hst
    · cases hs.symm.trans hst
    · cases hs.symm.trans hst

theorem mem_replyWindow_checked (s : Sys ι α β) (h : Req α) (n : ℕ) (r : ReplyT)
    (hr : r ∈ (s.checked cfg h).server.replyWindow n) :
    r ∈ s.server.replyWindow n ∨
      (n = h.cltNonce ∧ (s.check h).status = .new ∧ r = ⟨h.xid, false, none⟩) := by
  by_cases hn : n = h.cltNonce
  · subst hn
    rw [replyWindow_checked] at hr
    rcases (mem_check_window _ _ _ r).mp hr with hk | ⟨hs,he⟩
    · exact Or.inl ((kept_sublist _ _ _).subset hk)
    · exact Or.inr ⟨rfl,hs,he⟩
  · rw [replyWindow_checked_of_ne cfg s h hn] at hr
    exact Or.inl hr

theorem provenance_checked (s : Sys ι α β) (h : Provenance cfg s) (k : ℕ) (q : Req α)
    (hk : s.requests[k]? = some q) : Provenance cfg (s.checked cfg q) where
  handling n x proc args hj := by
    rcases List.mem_append.mp hj with hj | hj
    · exact h.handling n x proc args hj
    · rcases statusJobs_cases q _ _ hj with ⟨_,he⟩ | ⟨_,b,_,he⟩
      · cases he
        exact ⟨q, List.mem_of_getElem? hk, rfl, rfl, rfl, rfl⟩
      · cases he
  exec := h.exec
  sending n b hj := by
    rcases List.mem_append.mp hj with hj | hj
    · exact h.sending n b hj
    · rcases statusJobs_cases q _ _ hj with ⟨_,he⟩ | ⟨hs,b',hb,he⟩
      · cases he
      · cases he
        obtain ⟨r,hr,_,hbuf⟩ := check_done_buf s q b hs hb
        obtain ⟨a,ha,_,hex⟩ := h.window _ r hr b hbuf
        exact ⟨a, ha, hex⟩
  window n r hr b hb := by
    rcases mem_replyWindow_checked cfg s q n r hr with hr | ⟨_,_,he⟩
    · exact h.window n r hr b hb
    · rw [he] at hb
      cases hb
  reply n r hr := by
    rcases List.mem_append.mp hr with hr | hr
    · exact h.reply n r hr
    · simp only [statusReplies] at hr
      split_ifs at hr
      · cases List.mem_singleton.mp hr
        exact ⟨⟨q, List.mem_of_getElem? hk, rfl, rfl⟩,
          fun hn => absurd hn (by simp [atmostonceFailure])⟩
      · exact absurd hr List.not_mem_nil
  caller := h.caller
  returned := h.returned

end

theorem heap_append_some (heap : List (Alloc β)) (x : Alloc β) (b : ℕ) (a : Alloc β)
    (h : heap[b]? = some a) : (heap ++ [x])[b]? = some a := by
  rw [List.getElem?_append_left (List.getElem?_eq_some_iff.mp h).1]
  exact h

theorem mem_replyWindow_packed (s : Rpcs α β) (j n : ℕ) (addr : Addr) (r : Reply β) (m : ℕ)
    (a : ReplyT) (ha : a ∈ (s.packed j n addr r).replyWindow m) :
    a ∈ s.replyWindow m ∨ (m = n ∧ a = ⟨r.xid, true, some s.heap.length⟩) := by
  by_cases hm : m = n
  · subst hm
    rcases replyWindow_packed_self s j m addr r with hw | hw
    · rw [hw] at ha
      exact Or.inl ha
    · rw [hw] at ha
      rcases mem_addReply _ _ _ a ha with ⟨ha,_⟩ | he
      · exact Or.inl ha
      · exact Or.inr ⟨rfl,he⟩
  · rw [replyWindow_packed_of_ne s j addr r hm] at ha
    exact Or.inl ha

section
omit [DecidableEq ι]

theorem provenance_packed (s : Sys ι α β) (h : Provenance cfg s) (j n proc : ℕ) (args : α)
    (addr : Addr) (r : Reply β) (hj : s.server.jobs[j]? = some (.handling n r.xid proc args)) :
    Provenance cfg { s with
      server := s.server.packed j n addr r
      execs := s.execs ++ [⟨n, r.xid, proc, args, r.ret, r.body⟩] } := by
  have hsub : s.execs ⊆ s.execs ++ [⟨n, r.xid, proc, args, r.ret, r.body⟩] :=
    List.subset_append_left _ _
  have hnew : ∀ s' : Sys ι α β, s'.execs = s.execs ++ [⟨n, r.xid, proc, args, r.ret, r.body⟩] →
      Executed s' n r := fun s' he =>
    ⟨_, he ▸ List.mem_append_right _ (List.mem_singleton_self _), rfl, rfl, rfl, rfl⟩
  have hlast : (s.server.heap ++ [⟨addr, r⟩])[s.server.heap.length]? = some ⟨addr, r⟩ := by simp
  refine ⟨?_, ?_, ?_, ?_, ?_, ?_, ?_⟩
  · intro n' x p a hm
    rcases List.mem_append.mp hm with hm | hm
    · exact h.handling n' x p a (List.mem_of_mem_eraseIdx hm)
    · cases List.mem_singleton.mp hm
  · intro e he
    rcases List.mem_append.mp he with he | he
    · exact h.exec e he
    · cases List.mem_singleton.mp he
      exact h.handling n r.xid proc args (List.mem_of_getElem? hj)
  · intro n' b hm
    rcases List.mem_append.mp hm with hm | hm
    · obtain ⟨a,ha,hex⟩ := h.sending n' b (List.mem_of_mem_eraseIdx hm)
      exact ⟨a, heap_append_some _ _ b a ha, hex.mono hsub⟩
    · cases List.mem_singleton.mp hm
      exact ⟨_, hlast, hnew _ rfl⟩
  · -- an entry keeps its buffer unless `add_reply` has just given it the new one
    intro n' w hw b hb
    rcases mem_replyWindow_packed s.server j n addr r n' w hw with hw | ⟨rfl,rfl⟩
    · obtain ⟨a,ha,hx,hex⟩ := h.window n' w hw b hb
      exact ⟨a, heap_append_some _ _ b a ha, hx, hex.mono hsub⟩
    · cases hb
      exact ⟨_, hlast, rfl, hnew _ rfl⟩
  · intro n' r' hr
    obtain ⟨hq,hex⟩ := h.reply n' r' hr
    exact ⟨hq, fun hn => (hex hn).mono hsub⟩
  · intro i x ca hca hd hi
    obtain ⟨body,hb,hex⟩ := h.caller i x ca hca hd hi
    exact ⟨body, hb, hex.mono hsub⟩
  · intro i x ret un hr hret
    obtain ⟨body,hb,hex⟩ := h.returned i x ret un hr hret
    exact ⟨body, hb, hex.mono hsub⟩

theorem provenance_sent (s : Sys ι α β) (h : Provenance cfg s) (j n b : ℕ)
    (hj : s.server.jobs[j]? = some (.sending n b)) (hb : b ∉ s.server.freed) :
    Provenance cfg { s with
      server := s.server.sent j n b
      replies := s.replies ++ ((s.server.read b).map fun r => (n, r)).toList } where
  handling n' x p a hm := h.handling n' x p a (List.mem_of_mem_eraseIdx hm)
  exec := h.exec
  sending n' b' hm := h.sending n' b' (List.mem_of_mem_eraseIdx hm)
  window := h.window
  reply n' r hr := by
    rcases List.mem_append.mp hr with hr | hr
    · exact h.reply n' r hr
    · obtain ⟨a,ha,hex⟩ := h.sending n b (List.mem_of_getElem? hj)
      have hread : s.server.read b = some a.content := by
        simp only [Rpcs.read, ha, if_neg hb]
      simp only [hread, Option.map_some, Option.toList_some, List.mem_singleton,
        Prod.mk.injEq] at hr
      obtain ⟨rfl,rfl⟩ := hr
      refine ⟨?_, fun _ => hex⟩
      obtain ⟨e,he,hn,hx,_⟩ := hex
      obtain ⟨q,hq,hqn,hqx,_⟩ := h.exec e he
      exact ⟨q, hq, hqn.trans hn, hqx.trans hx⟩
  caller := h.caller
  returned := h.returned

theorem provenance_init : Provenance cfg (Sys.init : Sys ι α β) where
  handling _ _ _ _ hj := absurd hj List.not_mem_nil
  exec _ he := absurd he List.not_mem_nil
  sending _ _ hj := absurd hj List.not_mem_nil
  window _ _ hr := absurd hr List.not_mem_nil
  reply _ _ hr := absurd hr List.not_mem_nil
  caller _ _ _ hca := by cases hca
  returned _ _ _ _ hr := absurd hr List.not_mem_nil

end

theorem provenance_step (ub : Bool) (s s' : Sys ι α β) (a : Act ι α β) (h : Provenance cfg s)
    (hd : NoDangling s a) (hs : step cfg ub s a = some s') : Provenance cfg s' := by
  cases step_cases cfg ub s s' a hs with
  | refused i proc args => exact h
  | call1 i proc args =>
    refine h.of_client cfg i _ _ _ (List.subset_append_left _ _) ?_ h.returned
    intro x ca hca hdone hi
    by_cases hx : x = (s.clients i).xid
    · subst hx
      simp only [Rpcc.register, Function.update_self, Option.some.injEq] at hca
      rw [← hca] at hdone
      cases hdone
    · simp only [Rpcc.register, Function.update_of_ne hx] at hca
      exact h.caller i x ca hca hdone hi
  | gotPdu i k r hk =>
    refine h.of_client cfg i _ _ _ (List.Subset.refl _) ?_ h.returned
    intro x ca hca hdone hi
    rcases gotPdu_caller _ r x ca hca with hca | ⟨hx,hun,hir,_⟩
    · exact h.caller i x ca hca hdone hi
    · have hex := (h.reply _ r (List.mem_of_getElem? hk)).2 (hir ▸ hi)
      refine ⟨r.body, hun, ?_⟩
      rw [hx, hir]
      exact hex
  | callEnd i x ca hx =>
    refine h.of_client cfg i _ _ _ (List.Subset.refl _) ?_ ?_
    · intro y ca' hca hdone hi
      by_cases hy : y = x
      · subst hy
        simp [Rpcc.leave] at hca
      · simp only [Rpcc.leave, Function.update_of_ne hy] at hca
        exact h.caller i y ca' hca hdone hi
    · intro j y ret un hr hret
      rcases List.mem_append.mp hr with hr | hr
      · exact h.returned j y ret un hr hret
      · simp only [List.mem_singleton, Prod.mk.injEq] at hr
        obtain ⟨rfl,rfl,rfl,rfl⟩ := hr
        simp only [Caller.result] at hret ⊢
        split_ifs at hret ⊢ with hdone
        · exact h.caller j y ca hx hdone hret
        · exact absurd hret (by decide)
  | bindRecord i r rs hb =>
    exact h.of_client cfg i _ _ _ (List.Subset.refl _) (h.caller i) h.returned
  | cancel i =>
    refine h.of_client cfg i _ _ _ (List.Subset.refl _) ?_ h.returned
    intro x ca hca _ hi
    simp only [Rpcc.cancel, Option.map_eq_some_iff] at hca
    obtain ⟨ca0,_,rfl⟩ := hca
    exact absurd hi (by simp [cancelFailure])
  | oldsrv k q hk =>
    refine ⟨h.handling, h.exec, h.sending, h.window, ?_, h.caller, h.returned⟩
    intro n r hr
    rcases List.mem_append.mp hr with hr | hr
    · exact h.reply n r hr
    · cases List.mem_singleton.mp hr
      exact ⟨⟨q, List.mem_of_getElem? hk, rfl, rfl⟩, fun hn => absurd hn (by simp [oldsrvFailure])⟩
  | aborts a => exact ⟨h.handling, h.exec, h.sending, h.window, h.reply, h.caller, h.returned⟩
  | unchecked k q hk h0 =>
    refine ⟨?_, h.exec, ?_, h.window, h.reply, h.caller, h.returned⟩
    · intro n x proc args hj
      rcases List.mem_append.mp hj with hj | hj
      · exact h.handling n x proc args hj
      · cases List.mem_singleton.mp hj
        exact ⟨q, List.mem_of_getElem? hk, h0, rfl, rfl, rfl⟩
    · intro n b hj
      rcases List.mem_append.mp hj with hj | hj
      · exact h.sending n b hj
      · cases List.mem_singleton.mp hj
  | checked k q hk => exact provenance_checked cfg s h k q hk.1
  | handlerDone j n x proc args ret body addr hj hret ha =>
    exact provenance_packed cfg s h j n proc args addr _ hj
  | sendReply j n b hj hub => exact provenance_sent cfg s h j n b hj (hd j n b rfl hj)

end Yfs.Rpc
