import Yfs.LockOwner

namespace Yfs.Lock

section
variable {κ τ ℓ ω : Type*} [DecidableEq κ] [DecidableEq τ] [DecidableEq ℓ]

/-- The server has handled the acquire that the recorded retry made the client
send; what is left is to reset `retry_map`. -/
def ClientView.actedOn (v : ClientView τ) : Bool :=
  match v.call with
  | some (.acquire _ true (.answered _)) => true
  | _ => false

/-- The retries recorded in `retry_map` and not yet acted on. -/
def ClientView.recorded (v : ClientView τ) : ℕ :=
  if v.retry = true ∧ v.actedOn = false then 1 else 0

/-- The client takes itself to be waiting for a retry. -/
def ClientView.Awaiting (v : ClientView τ) : Prop :=
  (v.st = some .acquiring ∧ ∀ t, v.call ≠ some (.acquire t true (.answered .ok))) ∨
    ∃ t, v.call = some (.acquire t false (.answered .retry))

/-- `retry_map` is set only while the lock is being acquired, and stays set while
the acquire is sent again. -/
structure ClientView.RetryOk (v : ClientView τ) : Prop where
  flag : v.retry = true → v.st = some .acquiring
  resent : ∀ t p, v.call = some (.acquire t true p) → v.retry = true

omit [DecidableEq τ] in
theorem ClientView.RetryOk.retry_false {v : ClientView τ} (h : v.RetryOk)
    (hst : v.st ≠ some .acquiring) : v.retry = false := by
  by_contra hr
  exact hst (h.flag (eq_true_of_ne_false hr))

theorem cstep_retry (v w : ClientView τ) (h : v.Ok) (hr : v.RetryOk) (hs : CStep v w) :
    w.RetryOk ∧ w.recorded = v.recorded ∧ (w.Awaiting ↔ v.Awaiting) := by
  cases hs with
  | stay => exact ⟨hr, rfl, Iff.rfl⟩
  | enter hst =>
    obtain ⟨hc,_⟩ := h.of_absent hst
    have hf := hr.retry_false (by simp [hst])
    exact ⟨⟨by simp, by simp [hc]⟩, by simp [ClientView.recorded, hf],
      by simp [ClientView.Awaiting, hst, hc]⟩
  | call t hst hc =>
    have hf := hr.retry_false (by simp [hst])
    exact ⟨⟨by simp [hf], by simp⟩, by simp [ClientView.recorded, hf],
      by simp [ClientView.Awaiting, hst, hc]⟩
  | take t hst hc =>
    have hf := hr.retry_false (by simp [hst])
    exact ⟨⟨by simp [hf], by simp⟩, by simp [ClientView.recorded, hf],
      by simp [ClientView.Awaiting, hst, hc]⟩
  | grant t again hc =>
    obtain ⟨hst,_⟩ := h.of_asking t again _ hc
    cases again with
    | false =>
      have hf := hr.retry_false (by simp [hst])
      exact ⟨⟨by simp [hf], by simp⟩, by simp [ClientView.recorded, hf],
        by simp [ClientView.Awaiting, hst, hc]⟩
    | true =>
      exact ⟨⟨by simp, by simp⟩, by simp [ClientView.recorded, ClientView.actedOn, hc],
        by simp [ClientView.Awaiting, hc]⟩
  | park t again hc ha =>
    obtain ⟨hst,_⟩ := h.of_asking t again _ hc
    cases again with
    | false =>
      have hf := hr.retry_false (by simp [hst])
      exact ⟨⟨by simp, by simp⟩, by simp [ClientView.recorded, hf],
        by simp [ClientView.Awaiting, hc]⟩
    | true =>
      have hst' : v.st = some .acquiring := hst
      exact ⟨⟨by simp, by simp⟩, by simp [ClientView.recorded, ClientView.actedOn, hc],
        by simp [ClientView.Awaiting, hc, hst']⟩
  | again t hc ha =>
    obtain ⟨hst,_⟩ := h.of_asking t false _ hc
    exact absurd (hst.symm.trans (hr.flag ha)) (by simp)
  | failed t again code hc =>
    obtain ⟨_,hp,_⟩ := h.of_asking t again _ hc
    simp at hp
  | wake t hw hc ha =>
    obtain ⟨_,hst,_⟩ := h.of_waiting t hw
    exact ⟨⟨by simp, by simp [ha]⟩, by simp [ClientView.recorded, ClientView.actedOn, hc],
      by simp [ClientView.Awaiting, hc, hst]⟩
  | rest t hw hc ha =>
    obtain ⟨_,hst,_⟩ := h.of_waiting t hw
    exact ⟨⟨by simp, hr.resent⟩, rfl, by simp [ClientView.Awaiting, hst]⟩
  | release t hh hc =>
    obtain ⟨_,hst,_⟩ := h.of_held t hh
    have hf := hr.retry_false (by simp [hst])
    refine ⟨⟨by simp [hf], by simp [hc]⟩, rfl, ?_⟩
    by_cases hrev : 0 < v.revoked <;> simp [ClientView.Awaiting, hst, hc, hrev]
  | releaser hst hrev hc =>
    have hf := hr.retry_false (by simp [hst])
    exact ⟨⟨by simp [hf], by simp⟩, by simp [ClientView.recorded, hf],
      by simp [ClientView.Awaiting, hst, hc]⟩
  | releaserEnd hc =>
    exact ⟨⟨hr.flag, by simp⟩, by simp [ClientView.recorded, ClientView.actedOn, hc],
      by simp [ClientView.Awaiting, hc]⟩

def waitingOf (e : Option (LockStatus κ)) : List κ := (e.map (·.waitingClient)).getD []

/-- The bookkeeping of one lock: every client told to retry is in one place once,
and clients in `waiting_client` have a revoke or a retry under way for them. -/
structure View.WaitersOk (v : View κ τ) : Prop where
  retry : ∀ i, (v.cl i).RetryOk
  awaiting : ∀ i, v.answered i = some .retry ↔ (v.cl i).Awaiting
  count : ∀ i, (waitingOf v.entry).count i + v.retries.count i + (v.cl i).recorded =
    if v.answered i = some .retry then 1 else 0
  served : ∀ e, v.entry = some e → e.waitingClient ≠ [] →
    (e.status = .locked ∧ e.revokeMap e.lockClient = true) ∨
    (e.status = .opened ∧ ∃ i, 0 < v.retries.count i + (v.cl i).recorded)

theorem acquireEntry_waiting (e : Option (LockStatus κ)) (i : κ) :
    ((acquireEntry e i).ret = .ok ∧ waitingOf (some (acquireEntry e i).entry) = waitingOf e) ∨
    ((acquireEntry e i).ret = .retry ∧
      waitingOf (some (acquireEntry e i).entry) = waitingOf e ++ [i]) := by
  cases e with
  | none => simp [acquireEntry, waitingOf]
  | some e =>
    simp only [acquireEntry]
    split_ifs <;> simp [waitingOf]

/-- Whoever waits after an `acquire`, the lock is LOCKED and being revoked. -/
theorem acquireEntry_served (e : Option (LockStatus κ)) (i : κ)
    (h : (acquireEntry e i).entry.waitingClient ≠ []) :
    (acquireEntry e i).entry.status = .locked ∧
      (acquireEntry e i).entry.revokeMap (acquireEntry e i).entry.lockClient = true := by
  cases e with
  | none => simp [acquireEntry] at h
  | some e =>
    have hlocked : ¬ e.status = .opened → e.status = .locked := by
      cases e.status <;> simp
    simp only [acquireEntry] at h ⊢
    split_ifs at h ⊢ with h1 h2 h3
    · simp
    · simp at h2 h
      exact absurd h2 h
    · simp [hlocked h1]
    · exact ⟨hlocked h1, eq_true_of_ne_false h3⟩

/-- `release` moves the first waiting client over to the retries. -/
theorem releaseEntry_waiting (e : LockStatus κ) (i : κ) :
    e.waitingClient = (releaseEntry e i).2.toList ++ (releaseEntry e i).1.waitingClient ∧
    (releaseEntry e i).1.status = .opened ∧
    ((releaseEntry e i).2 = none → (releaseEntry e i).1.waitingClient = []) := by
  unfold releaseEntry
  split
  · next h => simp [h, openEntry]
  · next w ws h => simp [h, openEntry]

section
omit [DecidableEq τ]

theorem waitersOk_update (v : View κ τ) (i : κ) (w : ClientView τ) (h : v.WaitersOk)
    (hw : w.RetryOk) (hrec : w.recorded = (v.cl i).recorded) (haw : w.Awaiting ↔ (v.cl i).Awaiting)
    (rv : List (Option κ)) :
    View.WaitersOk ⟨v.entry, v.retries, rv, Function.update v.cl i w, v.answered⟩ := by
  have hcount : ∀ j, (Function.update v.cl i w j).recorded = (v.cl j).recorded := by
    intro j
    by_cases hj : j = i
    · subst hj
      rw [Function.update_self, hrec]
    · rw [Function.update_of_ne hj]
  refine ⟨?_, ?_, ?_, ?_⟩
  · intro j
    by_cases hj : j = i
    · subst hj
      simpa using hw
    · simpa [hj] using h.retry j
  · intro j
    by_cases hj : j = i
    · subst hj
      simpa [haw] using h.awaiting j
    · simpa [hj] using h.awaiting j
  · intro j
    simpa only [hcount] using h.count j
  · intro e he hne
    simpa only [hcount] using h.served e he hne

/-- A client whose acquire is on the way is in no place of the server's. -/
theorem asking_nowhere (v : View κ τ) (i : κ) (t : τ) (again : Bool) (ho : v.OwnerOk)
    (h : v.WaitersOk) (hc : (v.cl i).call = some (.acquire t again .sent)) :
    (waitingOf v.entry).count i = 0 ∧ v.retries.count i = 0 := by
  obtain ⟨hst,_⟩ := (ho.client i).of_asking t again _ hc
  have hcount := h.count i
  cases again with
  | false =>
    have hno : ¬ v.answered i = some .retry := by
      rw [h.awaiting i]
      simp [ClientView.Awaiting, hst, hc]
    rw [if_neg hno] at hcount
    omega
  | true =>
    have hst' : (v.cl i).st = some .acquiring := hst
    have hyes : v.answered i = some .retry := by
      rw [h.awaiting i]
      simp [ClientView.Awaiting, hst', hc]
    have hrec : (v.cl i).recorded = 1 := by
      simp [ClientView.recorded, ClientView.actedOn, hc, (h.retry i).resent t _ hc]
    rw [if_pos hyes, hrec] at hcount
    omega

theorem waitersOk_acquire (v : View κ τ) (i : κ) (t : τ) (again : Bool) (ho : v.OwnerOk)
    (h : v.WaitersOk) (hc : (v.cl i).call = some (.acquire t again .sent)) :
    View.WaitersOk ⟨some (acquireEntry v.entry i).entry, v.retries,
      v.revokes ++ (acquireEntry v.entry i).revoke.toList,
      Function.update v.cl i { v.cl i with
        call := some (.acquire t again (.answered (acquireEntry v.entry i).ret)) },
      Function.update v.answered i (some (acquireEntry v.entry i).ret)⟩ := by
  obtain ⟨hst,_⟩ := (ho.client i).of_asking t again _ hc
  obtain ⟨hwait,hret⟩ := asking_nowhere v i t again ho h hc
  have hans := acquireEntry_waiting v.entry i
  refine ⟨?_, ?_, ?_, ?_⟩
  · intro j
    by_cases hj : j = i
    · subst hj
      simp only [Function.update_self]
      refine ⟨(h.retry j).flag, fun u p hu => ?_⟩
      cases hu
      exact (h.retry j).resent t _ hc
    · simpa only [Function.update_of_ne hj] using h.retry j
  · intro j
    by_cases hj : j = i
    · subst hj
      rcases hans with ⟨hr,_⟩ | ⟨hr,_⟩ <;>
        cases again <;> simp [ClientView.Awaiting, hr, hst]
    · simpa only [Function.update_of_ne hj] using h.awaiting j
  · intro j
    by_cases hj : j = i
    · subst hj
      have hrec : ClientView.recorded { v.cl j with
          call := some (.acquire t again (.answered (acquireEntry v.entry j).ret)) } = 0 := by
        cases again with
        | false =>
          have hf := (h.retry j).retry_false (by simp [hst])
          simp [ClientView.recorded, hf]
        | true => simp [ClientView.recorded, ClientView.actedOn]
      simp only [Function.update_self, hrec, hret, Nat.add_zero, Option.some.injEq]
      rcases hans with ⟨hr,hw⟩ | ⟨hr,hw⟩
      · simp [hr, hw, hwait]
      · simp [hr, hw, List.count_append, hwait]
    · have hcount := h.count j
      have hw : (waitingOf (some (acquireEntry v.entry i).entry)).count j =
          (waitingOf v.entry).count j := by
        rcases hans with ⟨_,hw⟩ | ⟨_,hw⟩ <;> rw [hw]
        simp [List.count_append, Ne.symm hj]
      simpa only [Function.update_of_ne hj, hw] using hcount
  · intro e he hne
    cases he
    exact Or.inl (acquireEntry_served v.entry i hne)

theorem waitersOk_release (v : View κ τ) (i : κ) (e : LockStatus κ) (h : v.WaitersOk)
    (hc : (v.cl i).call = some (.release .sent)) (he : v.entry = some e) :
    View.WaitersOk ⟨some (releaseEntry e i).1, v.retries ++ (releaseEntry e i).2.toList, v.revokes,
      Function.update v.cl i { v.cl i with call := some (.release .answered) }, v.answered⟩ := by
  obtain ⟨hwait,hopen,hlast⟩ := releaseEntry_waiting e i
  -- the client's own part first, with the server's data as it was
  have hbase := waitersOk_update v i { v.cl i with call := some (.release .answered) } h
    ⟨(h.retry i).flag, by simp⟩ (by simp [ClientView.recorded, ClientView.actedOn, hc])
    (by simp [ClientView.Awaiting, hc]) v.revokes
  refine ⟨hbase.retry, hbase.awaiting, ?_, ?_⟩
  · intro j
    rw [← hbase.count j]
    have hw : (waitingOf v.entry).count j =
        (releaseEntry e i).2.toList.count j + (releaseEntry e i).1.waitingClient.count j := by
      simp only [waitingOf, he, Option.map_some, Option.getD_some]
      rw [hwait, List.count_append]
    have hw' : waitingOf (some (releaseEntry e i).1) = (releaseEntry e i).1.waitingClient := rfl
    simp only [hw, hw', List.count_append]
    omega
  · intro e' he' hne
    cases he'
    cases hr : (releaseEntry e i).2 with
    | none => exact absurd (hlast hr) hne
    | some w =>
      refine Or.inr ⟨hopen, w, ?_⟩
      simp only [Option.toList_some, List.count_append, List.count_singleton_self]
      omega

theorem waitersOk_retry (v : View κ τ) (i : κ) (rs : List κ) (h : v.WaitersOk)
    (hr : v.retries = i :: rs) (hc : (v.cl i).call = none) :
    View.WaitersOk ⟨v.entry, rs, v.revokes, Function.update v.cl i { v.cl i with retry := true },
      v.answered⟩ := by
  -- the retry that arrives is the only one, so none was recorded before
  have hcount := h.count i
  rw [hr, List.count_cons_self] at hcount
  have hyes : v.answered i = some .retry := by
    by_contra hno
    rw [if_neg hno] at hcount
    omega
  rw [if_pos hyes] at hcount
  have hst : (v.cl i).st = some .acquiring := by
    have haw := (h.awaiting i).mp hyes
    simpa [ClientView.Awaiting, hc] using haw
  have hnew : ClientView.recorded { v.cl i with retry := true } = 1 := by
    simp [ClientView.recorded, ClientView.actedOn, hc]
  have hsum : ∀ j, rs.count j + (Function.update v.cl i { v.cl i with retry := true } j).recorded =
      v.retries.count j + (v.cl j).recorded := by
    intro j
    by_cases hj : j = i
    · subst hj
      rw [Function.update_self, hnew, hr, List.count_cons_self]
      omega
    · rw [Function.update_of_ne hj, hr, List.count_cons_of_ne (Ne.symm hj)]
  refine ⟨?_, ?_, ?_, ?_⟩
  · intro j
    by_cases hj : j = i
    · subst hj
      simpa using (⟨fun _ => hst, by simp [hc]⟩ : ClientView.RetryOk { v.cl j with retry := true })
    · simpa [hj] using h.retry j
  · intro j
    by_cases hj : j = i
    · subst hj
      simpa [ClientView.Awaiting] using h.awaiting j
    · simpa [hj] using h.awaiting j
  · intro j
    rw [Nat.add_assoc, hsum j, ← Nat.add_assoc]
    exact h.count j
  · intro e he hne
    simpa only [hsum] using h.served e he hne

end

theorem vstep_waitersOk (f : Prop) (v w : View κ τ) (ho : v.OwnerOk) (h : v.WaitersOk)
    (hs : VStep f v w) :
    w.WaitersOk := by
  cases hs with
  | stay => exact h
  | client i c hc =>
    obtain ⟨hok,hrec,haw⟩ := cstep_retry _ c (ho.client i) (h.retry i) hc
    exact waitersOk_update v i c h hok hrec haw _
  | flushed i hf hc =>
    refine waitersOk_update v i _ h ?_ ?_ ?_ _
    · exact ⟨(h.retry i).flag, by simp⟩
    · simp [ClientView.recorded, ClientView.actedOn, hc]
    · simp [ClientView.Awaiting, hc]
  | acquire i t again hc => exact waitersOk_acquire v i t again ho h hc
  | release i e hc he hst => exact waitersOk_release v i e h hc he
  | refused i hc he =>
    refine waitersOk_update v i _ h ?_ ?_ ?_ _
    · exact ⟨(h.retry i).flag, by simp⟩
    · simp [ClientView.recorded, ClientView.actedOn, hc]
    · simp [ClientView.Awaiting, hc]
  | revoke i rs hr hc hst =>
    refine waitersOk_update v i _ h ?_ ?_ ?_ _
    · exact ⟨fun hf => by simp [(h.retry i).flag hf], by simp [hc]⟩
    · rfl
    · by_cases hf : (v.cl i).st = some .free <;> simp [ClientView.Awaiting, hf, hc]
  | retry i rs hr hc => exact waitersOk_retry v i rs h hr hc

omit [DecidableEq τ] in
theorem waitersOk_init (w : ω) (l : ℓ) : ((Sys.init κ τ ℓ w).view l).WaitersOk := by
  refine ⟨fun i => ⟨?_, ?_⟩, fun i => ?_, fun i => ?_, fun e he => ?_⟩
  · simp [Sys.view, Sys.init, Client.view, Client.init]
  · simp [Sys.view, Sys.init, Client.view, Client.init, Client.callOn]
  · simp [Sys.view, Sys.init, Client.view, Client.init, Client.callOn, ClientView.Awaiting]
  · simp [Sys.view, Sys.init, Client.view, Client.init, ClientView.recorded, waitingOf, Server.init,
      entriesFor]
  · cases he

/-- The retries for the lock that are recorded at the client and not acted on. -/
def Client.recordedRetries (c : Client τ ℓ) (lid : ℓ) : ℕ :=
  match c.retryMap lid, c.call with
  | true, some (.acquire _ l true (.answered _)) => if l = lid then 0 else 1
  | true, _ => 1
  | false, _ => 0

omit [DecidableEq τ] in
theorem recorded_view (c : Client τ ℓ) (lid : ℓ) :
    (c.view lid).recorded = c.recordedRetries lid := by
  cases hr : c.retryMap lid with
  | false => simp [Client.recordedRetries, ClientView.recorded, Client.view, hr]
  | true =>
    cases hc : c.call with
    | none => simp [Client.recordedRetries, ClientView.recorded, ClientView.actedOn, Client.view,
        Client.callOn, hr, hc]
    | some a =>
      rcases a with ⟨t, l, _ | _, _ | r⟩ | ⟨l, p⟩ <;> by_cases hl : l = lid <;>
        simp [Client.recordedRetries, ClientView.recorded, ClientView.actedOn, Client.view,
          Client.callOn, hr, hc, hl]

/-- In every reachable state a client last told to retry is in one place once, and
a lock with waiting clients is being revoked or has a retry on the way. -/
theorem no_lost_waiter (dorelease : κ → ℓ → ω → Option ω) (w : ω) (acts : List (Act κ τ ℓ))
    (s : Sys κ τ ℓ ω) (hrun : run (step dorelease) (Sys.init κ τ ℓ w) acts = some s) (lid : ℓ) :
    (∀ i, s.answered i lid = some .retry →
      (waitingOf (s.server.lockStatusMap lid)).count i +
        s.server.retryList.pending.count (i, lid) + (s.clients i).recordedRetries lid = 1) ∧
    ∀ e, s.server.lockStatusMap lid = some e → e.waitingClient ≠ [] →
      (e.status = .locked ∧ ∃ i, e.lockClient = some i ∧ e.revokeMap (some i) = true) ∨
      (e.status = .opened ∧ ∃ i,
        0 < s.server.retryList.pending.count (i, lid) + (s.clients i).recordedRetries lid) := by
  have h : (s.view lid).OwnerOk ∧ (s.view lid).WaitersOk := view_invariant dorelease
    (fun v => v.OwnerOk ∧ v.WaitersOk)
    (fun f v w hv hs => ⟨vstep_ownerOk f v w hv.1 hs, vstep_waitersOk f v w hv.1 hv.2 hs⟩)
    w (fun l => ⟨ownerOk_init w l, waitersOk_init w l⟩) acts s hrun lid
  have hplaces : ∀ i, (s.view lid).retries.count i + ((s.view lid).cl i).recorded =
      s.server.retryList.pending.count (i, lid) + (s.clients i).recordedRetries lid := by
    intro i
    simp only [Sys.view, count_entriesFor, recorded_view]
  constructor
  · intro i hi
    have hcount := h.2.count i
    rw [Nat.add_assoc, hplaces, ← Nat.add_assoc] at hcount
    exact hcount.trans (if_pos hi)
  · intro e he hne
    rcases h.2.served e he hne with ⟨hst,hrev⟩ | ⟨hst,i,hi⟩
    · obtain ⟨i,hi⟩ := Option.ne_none_iff_exists'.mp (h.1.named e he hst)
      exact Or.inl ⟨hst, i, hi, hi ▸ hrev⟩
    · exact Or.inr ⟨hst, i, by rwa [hplaces] at hi⟩

end

/-- The second client of `handover` between its RETRY and its second acquire. -/
theorem no_lost_waiter_handover :
    ∃ s, run (step fun _ _ w => some w) (Sys.init Bool Unit ℕ ()) (handover.take 15) = some s ∧
      s.answered true 5 = some .retry ∧
      (waitingOf (s.server.lockStatusMap 5)).count true +
        s.server.retryList.pending.count (true, 5) + (s.clients true).recordedRetries 5 = 1 := by
  have hends : ∃ s, run (step fun _ _ w => some w) (Sys.init Bool Unit ℕ ()) (handover.take 15) =
    some s ∧
      s.answered true 5 = some .retry := by
    decide
  obtain ⟨s,hrun,hans⟩ := hends
  exact ⟨s, hrun, hans, (no_lost_waiter _ () (handover.take 15) s hrun 5).1 true hans⟩

end Yfs.Lock
