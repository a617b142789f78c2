import Yfs.RpcClientOk

namespace Yfs.Rpc

variable {ι α β : Type*} [DecidableEq ι] (cfg : Config ι β)

def Rpcc.front (c : Rpcc β) : ℕ := c.xidRepWindow.headD 0

structure Ordered (s : Sys ι α β) : Prop where
  xid_lt : ∀ i, (s.clients i).xid < uintMod
  window : ∀ i, (s.clients i).xidRepWindow ≠ [] ∧ (s.clients i).xidRepWindow.Pairwise (· ≤ ·)
  request : ∀ q ∈ s.requests, ∃ i, q.cltNonce = cfg.nonce i ∧ q.xid < (s.clients i).limit ∧
    q.xidRep ≤ (s.clients i).front
  mono : ∀ q ∈ s.requests, ∀ q' ∈ s.requests, q.cltNonce = q'.cltNonce → q.xid < q'.xid →
    q.xidRep ≤ q'.xidRep

omit [DecidableEq ι] in
theorem Ordered.request_of_nonce {s : Sys ι α β} (h : Ordered cfg s) (q : Req α)
    (hq : q ∈ s.requests) (i : ι) (hn : q.cltNonce = cfg.nonce i) :
    q.xid < (s.clients i).limit ∧ q.xidRep ≤ (s.clients i).front := by
  obtain ⟨j,hj,hlt⟩ := h.request q hq
  have hji : j = i := cfg.nonce_injective (hj.symm.trans hn)
  exact hji ▸ hlt

theorem Ordered.update {s : Sys ι α β} (h : Ordered cfg s) (i : ι) (c : Rpcc β) (s' : Sys ι α β)
    (hs : s'.clients = Function.update s.clients i c) (hr : s'.requests = s.requests)
    (hx : c.xid = (s.clients i).xid)
    (hw : c.xidRepWindow = (s.clients i).xidRepWindow ∨
      ∃ x, c.xidRepWindow = updateXidRep (s.clients i).xidRepWindow x) : Ordered cfg s' := by
  have hwin : c.xidRepWindow ≠ [] ∧ c.xidRepWindow.Pairwise (· ≤ ·) ∧
      (s.clients i).front ≤ c.front := by
    obtain ⟨hne,hsorted⟩ := h.window i
    unfold Rpcc.front
    rcases hw with hw | ⟨x,hw⟩
    · rw [hw]
      exact ⟨hne, hsorted, le_rfl⟩
    · rw [hw]
      exact updateXidRep_front _ x hne hsorted
  have hclient : ∀ j, (s'.clients j).xid = (s.clients j).xid ∧
      (s'.clients j).xidRepWindow ≠ [] ∧ (s'.clients j).xidRepWindow.Pairwise (· ≤ ·) ∧
      (s.clients j).front ≤ (s'.clients j).front := by
    intro j
    rw [hs]
    by_cases hji : j = i
    · subst hji
      rw [Function.update_self]
      exact ⟨hx, hwin⟩
    · rw [Function.update_of_ne hji]
      exact ⟨rfl, (h.window j).1, (h.window j).2, le_rfl⟩
  refine ⟨fun j => (hclient j).1 ▸ h.xid_lt j, fun j => ⟨(hclient j).2.1, (hclient j).2.2.1⟩, ?_,
    hr ▸ h.mono⟩
  intro q hq
  obtain ⟨j,hn,hlt,hrep⟩ := h.request q (hr ▸ hq)
  refine ⟨j, hn, ?_, hrep.trans (hclient j).2.2.2⟩
  rwa [Rpcc.limit, (hclient j).1]

theorem ordered_call1 (s : Sys ι α β) (h : Ordered cfg s) (i : ι) (proc : ℕ) (args : α)
    (h0 : (s.clients i).xid ≠ 0) :
    Ordered cfg { s with
      clients := Function.update s.clients i ((s.clients i).register proc)
      requests := s.requests ++ [(s.clients i).request (cfg.nonce i) proc args] } := by
  obtain ⟨hl,hl'⟩ := register_limit (s.clients i) proc (h.xid_lt i) h0
  have hclient : ∀ j, (Function.update s.clients i ((s.clients i).register proc) j).xid < uintMod ∧
      (Function.update s.clients i ((s.clients i).register proc) j).xidRepWindow =
        (s.clients j).xidRepWindow ∧
      (s.clients j).limit ≤
        (Function.update s.clients i ((s.clients i).register proc) j).limit := by
    intro j
    by_cases hji : j = i
    · subst hji
      rw [Function.update_self]
      exact ⟨Nat.mod_lt _ (by decide), rfl, by omega⟩
    · rw [Function.update_of_ne hji]
      exact ⟨h.xid_lt j, rfl, le_rfl⟩
  refine ⟨fun j => (hclient j).1, ?_, ?_, ?_⟩
  · intro j
    simp only [(hclient j).2.1]
    exact h.window j
  · intro q hq
    rcases List.mem_append.mp hq with hq | hq
    · obtain ⟨j,hn,hlt,hrep⟩ := h.request q hq
      refine ⟨j, hn, hlt.trans_le (hclient j).2.2, ?_⟩
      rwa [Rpcc.front, (hclient j).2.1]
    · rw [List.mem_singleton.mp hq]
      refine ⟨i, rfl, ?_, ?_⟩
      · simp only [Function.update_self, Rpcc.request]
        omega
      · rw [Rpcc.front, (hclient i).2.1]
        exact le_rfl
  · -- the new request has the largest xid and carries the front as it is now
    intro q hq q' hq' hn hx
    rcases List.mem_append.mp hq with hq | hq <;> rcases List.mem_append.mp hq' with hq' | hq'
    · exact h.mono q hq q' hq' hn hx
    · rw [List.mem_singleton.mp hq'] at hn ⊢
      exact (h.request_of_nonce cfg q hq i hn).2
    · rw [List.mem_singleton.mp hq] at hn hx
      have := (h.request_of_nonce cfg q' hq' i hn.symm).1
      simp only [Rpcc.request] at hx
      omega
    · rw [List.mem_singleton.mp hq, List.mem_singleton.mp hq']

omit [DecidableEq ι] in
theorem ordered_init : Ordered cfg (Sys.init : Sys ι α β) where
  xid_lt _ := fresh_ok.xid_lt
  window _ := ⟨List.cons_ne_nil _ _, List.pairwise_singleton _ _⟩
  request _ hq := absurd hq List.not_mem_nil
  mono _ hq := absurd hq List.not_mem_nil

theorem ordered_step (ub : Bool) (s s' : Sys ι α β) (a : Act ι α β) (h : Ordered cfg s)
    (hw : NoWrap s a) (hs : step cfg ub s a = some s') : Ordered cfg s' := by
  cases step_cases cfg ub s s' a hs with
  | refused i proc args => exact h
  | call1 i proc args => exact ordered_call1 cfg s h i proc args (hw i proc args rfl)
  | gotPdu i k r hk => exact h.update cfg i _ _ rfl rfl rfl (Or.inr ⟨r.xid, rfl⟩)
  | callEnd i x ca hx => exact h.update cfg i _ _ rfl rfl rfl (Or.inr ⟨x, rfl⟩)
  | bindRecord i r rs hb => exact h.update cfg i _ _ rfl rfl rfl (Or.inl rfl)
  | cancel i => exact h.update cfg i _ _ rfl rfl rfl (Or.inl rfl)
  | oldsrv | aborts | unchecked | checked | handlerDone | sendReply =>
    exact ⟨h.xid_lt, h.window, h.request, h.mono⟩

/-- The number of calls client `i` has issued. -/
def issued (s : Sys ι α β) (i : ι) : ℕ := s.requests.countP fun q => q.cltNonce = cfg.nonce i

def XidCount (s : Sys ι α β) : Prop :=
  ∀ i, (s.clients i).xid = (1 + issued cfg s i) % uintMod

theorem issued_append (s : Sys ι α β) (q : Req α) (i j : ι) (hq : q.cltNonce = cfg.nonce j)
    (clients : ι → Rpcc β) :
    issued cfg { s with clients := clients, requests := s.requests ++ [q] } i =
      issued cfg s i + if i = j then 1 else 0 := by
  simp only [issued, List.countP_append, List.countP_singleton, hq]
  by_cases hij : i = j
  · simp [hij]
  · have : cfg.nonce j ≠ cfg.nonce i := fun he => hij (cfg.nonce_injective he).symm
    simp [hij, this]

theorem xidCount_step (ub : Bool) (s s' : Sys ι α β) (a : Act ι α β) (h : XidCount cfg s)
    (hs : step cfg ub s a = some s') : XidCount cfg s' ∧ ∀ i, issued cfg s i ≤ issued cfg s' i := by
  have hclient : ∀ (i : ι) (c : Rpcc β) (t : Sys ι α β), t.clients = Function.update s.clients i c →
      t.requests = s.requests → c.xid = (s.clients i).xid →
      XidCount cfg t ∧ ∀ j, issued cfg s j ≤ issued cfg t j := by
    intro i c t hc hr hx
    have hi : ∀ j, issued cfg t j = issued cfg s j := fun j => by simp only [issued, hr]
    refine ⟨?_, fun j => (hi j).ge⟩
    intro j
    rw [hi, ← h j, hc]
    by_cases hji : j = i
    · subst hji
      rw [Function.update_self, hx]
    · rw [Function.update_of_ne hji]
  have hsame : ∀ t : Sys ι α β, t.clients = s.clients → t.requests = s.requests →
      XidCount cfg t ∧ ∀ j, issued cfg s j ≤ issued cfg t j := by
    intro t hc hr
    have hi : ∀ j, issued cfg t j = issued cfg s j := fun j => by simp only [issued, hr]
    exact ⟨fun j => by rw [hi, hc]; exact h j, fun j => (hi j).ge⟩
  cases step_cases cfg ub s s' a hs with
  | call1 i proc args =>
    have hi : ∀ j, issued cfg _ j = _ := fun j =>
      issued_append cfg s ((s.clients i).request (cfg.nonce i) proc args) j i rfl
        (Function.update s.clients i ((s.clients i).register proc))
    refine ⟨?_, fun j => by rw [hi]; exact Nat.le_add_right _ _⟩
    intro j
    rw [hi]
    by_cases hji : j = i
    · subst hji
      simp only [Function.update_self, Rpcc.register, if_true, h j]
      rw [Nat.mod_add_mod, Nat.add_assoc]
    · simp only [Function.update_of_ne hji, if_neg hji, Nat.add_zero]
      exact h j
  | gotPdu i k r hk => exact hclient i _ _ rfl rfl rfl
  | callEnd i x ca hx => exact hclient i _ _ rfl rfl rfl
  | bindRecord i r rs hb => exact hclient i _ _ rfl rfl rfl
  | cancel i => exact hclient i _ _ rfl rfl rfl
  | refused | oldsrv | aborts | unchecked | checked | handlerDone | sendReply =>
    exact hsame _ rfl rfl

/-- Below 2^31 calls a client's `xid_` never wraps. -/
theorem runAll_noWrap (ub : Bool) (s t : Sys ι α β) (acts : List (Act ι α β))
    (h : XidCount cfg s) (hr : run (step cfg ub) s acts = some t)
    (hb : ∀ i, issued cfg t i < 2^31) :
    RunAll (step cfg ub) NoWrap s acts ∧ ∀ i, issued cfg s i ≤ issued cfg t i := by
  induction acts generalizing s with
  | nil =>
    have hst : s = t := by simpa only [run, Option.some.injEq] using hr
    exact ⟨trivial, fun i => hst ▸ le_rfl⟩
  | cons a as ih =>
    obtain ⟨s',hs,hr'⟩ := run_cons_some _ s t a as hr
    obtain ⟨h',hle⟩ := xidCount_step cfg ub s s' a h hs
    obtain ⟨hall,hle'⟩ := ih s' h' hr'
    refine ⟨⟨?_, ?_⟩, fun i => (hle i).trans (hle' i)⟩
    · intro i proc args _
      have hi := (hle i).trans (hle' i)
      have hbi := hb i
      rw [h i, Nat.mod_eq_of_lt (by simp only [uintMod]; omega)]
      omega
    · intro s'' hs''
      rw [hs, Option.some.injEq] at hs''
      exact hs'' ▸ hall

omit [DecidableEq ι] in
theorem xidCount_init : XidCount cfg (Sys.init : Sys ι α β) := by
  intro i
  simp [Sys.init, Rpcc.fresh, issued, uintMod]

end Yfs.Rpc
