import Yfs.RpcProvenance

namespace Yfs.Rpc

variable {ι α β : Type*} [DecidableEq ι] (cfg : Config ι β)

/-- One above the largest xid used so far, as long as `xid_` has not wrapped. -/
def Rpcc.limit (c : Rpcc β) : ℕ := if c.xid = 0 then uintMod else c.xid

structure Rpcc.Ok (c : Rpcc β) : Prop where
  xid_lt : c.xid < uintMod
  calls_lt : ∀ x ca, c.calls x = some ca → 1 ≤ x ∧ x < c.limit
  window : XidWindowOk (fun x => x < c.limit ∧ ¬ c.Pending x) c.xidRepWindow

/-- The step does not hand out the xid 0, which `xid_` reaches when it wraps. -/
def NoWrap (s : Sys ι α β) (a : Act ι α β) : Prop :=
  ∀ i proc args, a = .call1 i proc args → (s.clients i).xid ≠ 0

theorem Rpcc.limit_le (c : Rpcc β) (h : c.xid < uintMod) : c.limit ≤ uintMod := by
  unfold Rpcc.limit
  split_ifs <;> omega

theorem Rpcc.Ok.not_pending_front {c : Rpcc β} (h : c.Ok) (x : ℕ) (hx : c.Pending x) :
    c.xidRepWindow.headD 0 < x := by
  by_contra hle
  exact (h.window.front x (not_lt.mp hle)).2 hx

theorem Rpcc.Ok.front_lt {c : Rpcc β} (h : c.Ok) : c.xidRepWindow.headD 0 < c.limit :=
  (h.window.front _ le_rfl).1

theorem register_limit (c : Rpcc β) (proc : ℕ) (hlt : c.xid < uintMod) (h0 : c.xid ≠ 0) :
    c.limit = c.xid ∧ (c.register proc).limit = c.xid+1 := by
  have hnext : (c.register proc).xid = (c.xid+1) % uintMod := rfl
  refine ⟨if_neg h0, ?_⟩
  rcases Nat.lt_or_ge (c.xid+1) uintMod with h | h
  · rw [Nat.mod_eq_of_lt h] at hnext
    unfold Rpcc.limit
    split_ifs <;> omega
  · have he : c.xid+1 = uintMod := by omega
    rw [he, Nat.mod_self] at hnext
    rw [Rpcc.limit, if_pos hnext, he]

theorem register_pending (c : Rpcc β) (proc x : ℕ) (h : (c.register proc).Pending x) :
    c.Pending x ∨ x = c.xid := by
  obtain ⟨ca,hca,hd⟩ := h
  by_cases hx : x = c.xid
  · exact Or.inr hx
  · simp only [Rpcc.register, Function.update_of_ne hx] at hca
    exact Or.inl ⟨ca, hca, hd⟩

theorem Rpcc.Ok.register {c : Rpcc β} (h : c.Ok) (proc : ℕ) (h0 : c.xid ≠ 0) :
    (c.register proc).Ok := by
  obtain ⟨hl,hl'⟩ := register_limit c proc h.xid_lt h0
  refine ⟨Nat.mod_lt _ (by decide), ?_, ?_⟩
  · intro x ca hca
    rw [hl']
    by_cases hx : x = c.xid
    · omega
    · simp only [Rpcc.register, Function.update_of_ne hx] at hca
      have := h.calls_lt x ca hca
      omega
  · refine h.window.mono ?_
    rintro x ⟨hx,hp⟩
    rw [hl] at hx
    refine ⟨by rw [hl']; omega, fun hp' => ?_⟩
    rcases register_pending c proc x hp' with hp' | hxe
    · exact hp hp'
    · omega

theorem Rpcc.Ok.report {c c' : Rpcc β} (h : c.Ok) (hxid : c'.xid = c.xid)
    (hcalls : ∀ y ca, c'.calls y = some ca → ∃ ca', c.calls y = some ca')
    (hpend : ∀ y, c'.Pending y → c.Pending y) (x : ℕ) (hx : x < c.limit)
    (hxp : ¬ c'.Pending x) (hw : c'.xidRepWindow = updateXidRep c.xidRepWindow x) : c'.Ok := by
  have hl : c'.limit = c.limit := by simp only [Rpcc.limit, hxid]
  refine ⟨by rw [hxid]; exact h.xid_lt, ?_, ?_⟩
  · intro y ca hca
    obtain ⟨ca',hca'⟩ := hcalls y ca hca
    rw [hl]
    exact h.calls_lt y ca' hca'
  · rw [hw]
    apply updateXidRep_ok
    · exact fun k hk => hk.1.trans_le (c'.limit_le (by rw [hxid]; exact h.xid_lt))
    · exact h.window.mono fun y hy => ⟨hl ▸ hy.1, fun hp => hy.2 (hpend y hp)⟩
    · exact ⟨hl ▸ hx, hxp⟩

theorem gotPdu_pending (c : Rpcc β) (r : Reply β) (x : ℕ) (h : (c.gotPdu r).Pending x) :
    c.Pending x ∧ x ≠ r.xid := by
  obtain ⟨ca,hca,hd⟩ := h
  rcases gotPdu_caller c r x ca hca with hold | ⟨_,_,_,hdone⟩
  · refine ⟨⟨ca,hold,hd⟩, ?_⟩
    intro hx
    subst hx
    simp only [Rpcc.gotPdu, hold, hd] at hca
    simp only [↓reduceIte, Function.update_self, Option.some.injEq] at hca
    rw [← hca] at hd
    cases hd
  · rw [hdone] at hd
    cases hd

theorem Rpcc.Ok.gotPdu {c : Rpcc β} (h : c.Ok) (r : Reply β) (hr : r.xid < c.limit) :
    (c.gotPdu r).Ok := by
  refine h.report rfl ?_ (fun y hy => (gotPdu_pending c r y hy).1) r.xid hr
    (fun hp => (gotPdu_pending c r r.xid hp).2 rfl) rfl
  intro y ca hca
  cases h0 : c.calls r.xid with
  | none =>
    simp only [Rpcc.gotPdu, h0] at hca
    exact ⟨ca, hca⟩
  | some ca0 =>
    by_cases hy : y = r.xid
    · exact ⟨ca0, hy ▸ h0⟩
    · rcases gotPdu_caller c r y ca hca with hca | ⟨hye,_⟩
      · exact ⟨ca, hca⟩
      · exact absurd hye hy

theorem leave_pending (f : β → ℕ) (c : Rpcc β) (x : ℕ) (ca : Caller β) (y : ℕ)
    (h : (c.leave f x ca).Pending y) : c.Pending y ∧ y ≠ x := by
  obtain ⟨ca',hca,hd⟩ := h
  by_cases hy : y = x
  · subst hy
    simp [Rpcc.leave] at hca
  · simp only [Rpcc.leave, Function.update_of_ne hy] at hca
    exact ⟨⟨ca',hca,hd⟩, hy⟩

theorem Rpcc.Ok.leave {c : Rpcc β} (h : c.Ok) (f : β → ℕ) (x : ℕ) (ca : Caller β)
    (hx : c.calls x = some ca) : (c.leave f x ca).Ok := by
  refine h.report rfl ?_ (fun y hy => (leave_pending f c x ca y hy).1) x (h.calls_lt x ca hx).2
    (fun hp => (leave_pending f c x ca x hp).2 rfl) rfl
  intro y ca' hca
  by_cases hy : y = x
  · exact ⟨ca, hy ▸ hx⟩
  · simp only [Rpcc.leave, Function.update_of_ne hy] at hca
    exact ⟨ca', hca⟩

theorem cancel_not_pending (c : Rpcc β) (x : ℕ) : ¬ c.cancel.Pending x := by
  rintro ⟨ca,hca,hd⟩
  simp only [Rpcc.cancel, Option.map_eq_some_iff] at hca
  obtain ⟨ca0,_,rfl⟩ := hca
  cases hd

theorem Rpcc.Ok.cancel {c : Rpcc β} (h : c.Ok) : c.cancel.Ok := by
  refine ⟨h.xid_lt, ?_, h.window.mono fun x hx => ⟨hx.1, cancel_not_pending c x⟩⟩
  intro x ca hca
  simp only [Rpcc.cancel, Option.map_eq_some_iff] at hca
  obtain ⟨ca0,h0,_⟩ := hca
  exact h.calls_lt x ca0 h0

theorem fresh_ok : (Rpcc.fresh β).Ok where
  xid_lt := by simp [Rpcc.fresh, uintMod]
  calls_lt _ _ hca := by cases hca
  window := by
    have hnp : ∀ x, ¬ (Rpcc.fresh β).Pending x := by
      rintro x ⟨ca,hca,_⟩
      cases hca
    refine ⟨by simp [Rpcc.fresh], by simp [Rpcc.fresh], ?_, ?_⟩
    · intro x hx
      have hx0 : x = 0 := by simpa [Rpcc.fresh] using hx
      exact ⟨by simp [hx0, Rpcc.limit, Rpcc.fresh], hnp x⟩
    · intro k hk
      have hk0 : k = 0 := by simpa [Rpcc.fresh] using hk
      exact ⟨by simp [hk0, Rpcc.limit, Rpcc.fresh], hnp k⟩

/-- A request as its client could have packed it. -/
def RequestOk (s : Sys ι α β) (q : Req α) : Prop :=
  ∃ i, q.cltNonce = cfg.nonce i ∧ 1 ≤ q.xid ∧ q.xid < (s.clients i).limit ∧
    q.xidRep < q.xid ∧ ∀ x, (s.clients i).Pending x → q.xidRep < x

structure ClientsOk (s : Sys ι α β) : Prop where
  client : ∀ i, (s.clients i).Ok
  request : ∀ q ∈ s.requests, RequestOk cfg s q
  unique : ∀ q ∈ s.requests, ∀ q' ∈ s.requests, q.cltNonce = q'.cltNonce → q.xid = q'.xid → q = q'

/-- Replacing one client by one whose limit has not gone down and whose new
pending calls lie above the old limit. -/
theorem RequestOk.update {s : Sys ι α β} {q : Req α} (h : RequestOk cfg s q) (i : ι) (c : Rpcc β)
    (s' : Sys ι α β) (hs : s'.clients = Function.update s.clients i c)
    (hl : (s.clients i).limit ≤ c.limit)
    (hp : ∀ x, c.Pending x → (s.clients i).Pending x ∨ (s.clients i).limit ≤ x) :
    RequestOk cfg s' q := by
  obtain ⟨j,hn,h1,hlt,hrep,hpend⟩ := h
  refine ⟨j, hn, h1, ?_, hrep, ?_⟩
  · rw [hs]
    by_cases hji : j = i
    · subst hji
      rw [Function.update_self]
      omega
    · rw [Function.update_of_ne hji]
      exact hlt
  · intro x hx
    rw [hs] at hx
    by_cases hji : j = i
    · subst hji
      rw [Function.update_self] at hx
      rcases hp x hx with hx | hx
      · exact hpend x hx
      · omega
    · rw [Function.update_of_ne hji] at hx
      exact hpend x hx

theorem ClientsOk.update {s : Sys ι α β} (h : ClientsOk cfg s) (i : ι) (c : Rpcc β)
    (s' : Sys ι α β) (hs : s'.clients = Function.update s.clients i c)
    (hr : s'.requests = s.requests) (hc : c.Ok) (hl : (s.clients i).limit ≤ c.limit)
    (hp : ∀ x, c.Pending x → (s.clients i).Pending x ∨ (s.clients i).limit ≤ x) :
    ClientsOk cfg s' where
  client j := by
    rw [hs]
    by_cases hji : j = i
    · subst hji
      rw [Function.update_self]
      exact hc
    · rw [Function.update_of_ne hji]
      exact h.client j
  request q hq := (h.request q (hr ▸ hq)).update cfg i c s' hs hl hp
  unique := hr ▸ h.unique

theorem clientsOk_call1 (s : Sys ι α β) (h : ClientsOk cfg s) (i : ι) (proc : ℕ) (args : α)
    (h0 : (s.clients i).xid ≠ 0) :
    ClientsOk cfg { s with
      clients := Function.update s.clients i ((s.clients i).register proc)
      requests := s.requests ++ [(s.clients i).request (cfg.nonce i) proc args] } := by
  obtain ⟨hl,hl'⟩ := register_limit (s.clients i) proc (h.client i).xid_lt h0
  have hpend : ∀ x, ((s.clients i).register proc).Pending x →
      (s.clients i).Pending x ∨ (s.clients i).limit ≤ x := by
    intro x hx
    rcases register_pending _ proc x hx with hx | hx
    · exact Or.inl hx
    · exact Or.inr (by omega)
  have hfront := (h.client i).front_lt
  have hlast : ∀ q ∈ s.requests, q.cltNonce = cfg.nonce i → q.xid < (s.clients i).xid := by
    intro q hq hn
    obtain ⟨j,hj,_,hlt,_⟩ := h.request q hq
    have hji : j = i := cfg.nonce_injective (hj.symm.trans hn)
    subst hji
    omega
  refine ⟨?_, ?_, ?_⟩
  · intro j
    by_cases hji : j = i
    · subst hji
      simp only [Function.update_self]
      exact (h.client j).register proc h0
    · simp only [Function.update_of_ne hji]
      exact h.client j
  · intro q hq
    rcases List.mem_append.mp hq with hq | hq
    · exact (h.request q hq).update cfg i _ _ rfl (by omega) hpend
    · rw [List.mem_singleton.mp hq]
      refine ⟨i, rfl, Nat.one_le_iff_ne_zero.mpr h0, ?_, hfront.trans_eq hl, ?_⟩
      · simp only [Function.update_self, Rpcc.request]
        omega
      · intro x hx
        simp only [Function.update_self] at hx
        rcases hpend x hx with hx | hx
        · exact (h.client i).not_pending_front x hx
        · exact hfront.trans_le hx
  · intro q hq q' hq' hn hx
    rcases List.mem_append.mp hq with hq | hq <;> rcases List.mem_append.mp hq' with hq' | hq'
    · exact h.unique q hq q' hq' hn hx
    · rw [List.mem_singleton.mp hq'] at hn hx
      have := hlast q hq hn
      simp only [Rpcc.request] at hx
      omega
    · rw [List.mem_singleton.mp hq] at hn hx
      have := hlast q' hq' hn.symm
      simp only [Rpcc.request] at hx
      omega
    · rw [List.mem_singleton.mp hq, List.mem_singleton.mp hq']

omit [DecidableEq ι] in
/-- A reply that is on the network answers an xid its client has used. -/
theorem reply_xid_lt (s : Sys ι α β) (h : ClientsOk cfg s) (hp : Provenance cfg s) (i : ι)
    (r : Reply β) (hr : (cfg.nonce i, r) ∈ s.replies) : r.xid < (s.clients i).limit := by
  obtain ⟨⟨q,hq,hn,hx⟩,_⟩ := hp.reply _ r hr
  obtain ⟨j,hj,_,hlt,_⟩ := h.request q hq
  have hji : j = i := cfg.nonce_injective (hj.symm.trans hn)
  subst hji
  omega

omit [DecidableEq ι] in
theorem clientsOk_init : ClientsOk cfg (Sys.init : Sys ι α β) where
  client _ := fresh_ok
  request _ hq := absurd hq List.not_mem_nil
  unique _ hq := absurd hq List.not_mem_nil

theorem clientsOk_step (ub : Bool) (s s' : Sys ι α β) (a : Act ι α β) (h : ClientsOk cfg s)
    (hp : Provenance cfg s) (hw : NoWrap s a) (hs : step cfg ub s a = some s') :
    ClientsOk cfg s' := by
  cases step_cases cfg ub s s' a hs with
  | refused i proc args => exact h
  | call1 i proc args => exact clientsOk_call1 cfg s h i proc args (hw i proc args rfl)
  | gotPdu i k r hk =>
    have hr := reply_xid_lt cfg s h hp i r (List.mem_of_getElem? hk)
    exact h.update cfg i _ _ rfl rfl ((h.client i).gotPdu r hr) le_rfl
      fun x hx => Or.inl (gotPdu_pending _ r x hx).1
  | callEnd i x ca hx =>
    exact h.update cfg i _ _ rfl rfl ((h.client i).leave _ x ca hx) le_rfl
      fun y hy => Or.inl (leave_pending _ _ x ca y hy).1
  | bindRecord i r rs hb =>
    have hc := h.client i
    exact h.update cfg i _ _ rfl rfl ⟨hc.xid_lt, hc.calls_lt, hc.window⟩ le_rfl
      fun x hx => Or.inl hx
  | cancel i =>
    exact h.update cfg i _ _ rfl rfl (h.client i).cancel le_rfl
      fun x hx => absurd hx (cancel_not_pending _ x)
  | oldsrv | aborts | unchecked | checked | handlerDone | sendReply =>
    exact ⟨h.client, h.request, h.unique⟩

end Yfs.Rpc
