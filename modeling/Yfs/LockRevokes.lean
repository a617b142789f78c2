import Yfs.LockOwner

namespace Yfs.Lock

section
variable {κ τ ℓ ω : Type*} [DecidableEq κ] [DecidableEq τ] [DecidableEq ℓ]

/-- What the server does with a lock; the client of a revoke may be `""`. -/
inductive GrantEv (κ : Type*)
  | grant (i : κ)
  | revoke (c : Option κ)
  | release (i : κ)
  deriving DecidableEq

/-- A lock that is granted, revoked at most once, and released by the client it was
granted to. The state is that client and whether the revoke has been queued. -/
def grantStep : Option (κ × Bool) → GrantEv κ → Option (Option (κ × Bool))
  | none, .grant i => some (some (i, false))
  | some (i, false), .revoke c => if c = some i then some (some (i, true)) else none
  | some (i, _), .release j => if j = i then some none else none
  | _, _ => none

/-- The events of lock `lid` at the server. -/
def grantEvents (lid : ℓ) (s : Sys κ τ ℓ ω) : Act κ τ ℓ → List (GrantEv κ)
  | .serverAcquire i =>
    match (s.clients i).call with
    | some (.acquire _ l _ .sent) =>
      if l = lid then
        let r := acquireEntry (s.server.lockStatusMap lid) i
        (if r.ret = .ok then [.grant i] else []) ++ r.revoke.toList.map .revoke
      else []
    | _ => []
  | .serverRelease i =>
    match (s.clients i).call with
    | some (.release l .sent) => if l = lid then [.release i] else []
    | _ => []
  | _ => []

/-- The grant that the server has recorded. -/
def granted (e : Option (LockStatus κ)) : Option (κ × Bool) :=
  (holder e).map fun i => (i, (e.map fun e => e.revokeMap (some i)).getD false)

/-- What `acquire` does with the grant. A free lock is granted, and revoked at once
if others wait; a revoke of one that is held goes to its client, unless it has been
queued before. -/
theorem acquireEntry_granted (e : Option (LockStatus κ)) (i : κ) (hn : Named e) :
    (granted e = none ∧ (acquireEntry e i).ret = .ok ∧
      ∃ b, granted (some (acquireEntry e i).entry) = some (i, b) ∧
        (acquireEntry e i).revoke = if b then some (some i) else none) ∨
    ∃ k b, granted e = some (k, b) ∧ (acquireEntry e i).ret = .retry ∧
      granted (some (acquireEntry e i).entry) = some (k, true) ∧
      (acquireEntry e i).revoke = if b then none else some (some k) := by
  cases e with
  | none => exact Or.inl ⟨rfl, rfl, false, by simp [acquireEntry, granted, holder], rfl⟩
  | some e =>
    cases hst : e.status with
    | opened =>
      have hnone : granted (some e) = none := by simp [granted, holder, hst]
      by_cases hwait : e.waitingClient.length = 0
      · refine Or.inl ⟨hnone, ?_, false, ?_, ?_⟩ <;> simp [acquireEntry, hst, hwait, granted,
          holder]
      · refine Or.inl ⟨hnone, ?_, true, ?_, ?_⟩ <;> simp [acquireEntry, hst, hwait, granted, holder]
    | locked =>
      -- a LOCKED lock has a client, and `revoke_map` is looked up under its name
      obtain ⟨k,hk⟩ := Option.ne_none_iff_exists'.mp (hn e rfl hst)
      refine Or.inr ⟨k, e.revokeMap (some k), by simp [granted, holder, hst, hk], ?_⟩
      cases hrev : e.revokeMap (some k) <;> simp [acquireEntry, hst, hk, hrev, granted, holder]

theorem granted_acquire (e : Option (LockStatus κ)) (i : κ) (hn : Named e) :
    run grantStep (granted e)
      ((if (acquireEntry e i).ret = .ok then [.grant i] else []) ++
        (acquireEntry e i).revoke.toList.map .revoke) =
      some (granted (some (acquireEntry e i).entry)) := by
  rcases acquireEntry_granted e i hn with ⟨hg,hret,b,hg',hrev⟩ | ⟨k,b,hg,hret,hg',hrev⟩
  · rw [hg, hg', hret, hrev]
    cases b <;> simp [run, grantStep]
  · rw [hg, hg', hret, hrev]
    cases b <;> simp [run, grantStep]

theorem granted_release (e : LockStatus κ) (i : κ) (h : holder (some e) = some i) :
    run grantStep (granted (some e)) [.release i] = some (granted (some (releaseEntry e i).1)) := by
  have hafter : granted (some (releaseEntry e i).1) = none := by
    rw [granted, releaseEntry_holder, Option.map_none]
  have hbefore : granted (some e) = some (i, e.revokeMap (some i)) := by
    rw [granted, h]
    rfl
  rw [hafter, hbefore]
  cases e.revokeMap (some i) <;> simp [run, grantStep]

/-- The revokes that the client has been told of and not acted on. The one that is
being acted on leaves `revoke_list` after the server has taken the lock back. -/
def ClientView.outstanding (v : ClientView τ) : ℕ :=
  v.revoked - match v.call with
    | some (.release .answered) => 1
    | _ => 0

/-- A lock is given back only because of a revoke. -/
structure ClientView.RevokeOk (v : ClientView τ) : Prop where
  releasing : v.st = some .releasing → 0 < v.revoked
  returning : ∀ p, v.call = some (.release p) → 0 < v.revoked

/-- No critical section of a client changes which revokes are outstanding. -/
theorem cstep_outstanding (v w : ClientView τ) (h : v.Ok) (hr : v.RevokeOk) (hs : CStep v w) :
    w.RevokeOk ∧ w.outstanding = v.outstanding := by
  cases hs with
  | stay => exact ⟨hr, rfl⟩
  | enter hst => exact ⟨⟨by simp, hr.returning⟩, rfl⟩
  | call t hst hc => exact ⟨⟨hr.releasing, by simp⟩, by simp [ClientView.outstanding, hc]⟩
  | take t hst hc => exact ⟨⟨by simp, by simp⟩, by simp [ClientView.outstanding, hc]⟩
  | grant t again hc => exact ⟨⟨by simp, by simp⟩, by simp [ClientView.outstanding, hc]⟩
  | park t again hc ha => exact ⟨⟨by simp, by simp⟩, by simp [ClientView.outstanding, hc]⟩
  | again t hc ha => exact ⟨⟨by simp, by simp⟩, by simp [ClientView.outstanding, hc]⟩
  | failed t again code hc =>
    obtain ⟨_,hp,_⟩ := h.of_asking t again _ hc
    simp at hp
  | wake t hw hc ha => exact ⟨⟨by simp, by simp⟩, by simp [ClientView.outstanding, hc]⟩
  | rest t hw hc ha => exact ⟨⟨by simp, hr.returning⟩, rfl⟩
  | release t hh hc =>
    have hst : (if 0 < v.revoked then LockSt.releasing else .free) = .releasing →
        0 < v.revoked := by
      intro he
      by_contra hz
      simp [hz] at he
    exact ⟨⟨fun he => hst (Option.some.inj he), hr.returning⟩, rfl⟩
  | releaser hst hrev hc =>
    exact ⟨⟨by simp, fun _ _ => hrev⟩, by simp [ClientView.outstanding, hc]⟩
  | releaserEnd hc =>
    obtain ⟨hst,_⟩ := h.of_returning _ hc
    exact ⟨⟨by simp [hst], by simp⟩, by simp [ClientView.outstanding, hc]⟩

/-- The grant to `i`, if it is the current one, has been revoked. -/
def revokedFrom (e : Option (LockStatus κ)) (i : κ) : ℕ :=
  if granted e = some (i, true) then 1 else 0

/-- A revoke of the current grant is queued or outstanding at the client that has
the lock, and there are no others. -/
structure View.RevokesOk (v : View κ τ) : Prop where
  client : ∀ i, (v.cl i).RevokeOk
  named : none ∉ v.revokes
  count : ∀ i, v.revokes.count (some i) + (v.cl i).outstanding = revokedFrom v.entry i

omit [DecidableEq τ] in
theorem revokesOk_update (v : View κ τ) (i : κ) (w : ClientView τ) (h : v.RevokesOk)
    (hw : w.RevokeOk)
    (ho : w.outstanding = (v.cl i).outstanding) (rt : List κ) (an : κ → Option Ret) :
    View.RevokesOk ⟨v.entry, rt, v.revokes, Function.update v.cl i w, an⟩ := by
  refine ⟨?_, h.named, ?_⟩
  · intro j
    by_cases hj : j = i
    · subst hj
      simpa using hw
    · simpa [hj] using h.client j
  · intro j
    have hcount := h.count j
    by_cases hj : j = i
    · subst hj
      rw [← ho] at hcount
      simpa using hcount
    · simpa [hj] using hcount

/-- What `acquire` queues is the difference that it makes to the grant. -/
theorem revokedFrom_acquire (e : Option (LockStatus κ)) (i j : κ) (hn : Named e) :
    none ∉ (acquireEntry e i).revoke.toList ∧
    revokedFrom (some (acquireEntry e i).entry) j =
      revokedFrom e j + (acquireEntry e i).revoke.toList.count (some j) := by
  rcases acquireEntry_granted e i hn with ⟨hg,_,b,hg',hrev⟩ | ⟨k,b,hg,_,hg',hrev⟩
  · rw [revokedFrom, revokedFrom, hg, hg', hrev]
    cases b <;> simp [List.count_singleton]
  · rw [revokedFrom, revokedFrom, hg, hg', hrev]
    cases b <;> simp [List.count_singleton]

section
omit [DecidableEq τ]

theorem revokesOk_acquire (v : View κ τ) (i : κ) (t : τ) (again : Bool) (ho : v.OwnerOk)
    (h : v.RevokesOk) (hc : (v.cl i).call = some (.acquire t again .sent)) :
    View.RevokesOk ⟨some (acquireEntry v.entry i).entry, v.retries,
      v.revokes ++ (acquireEntry v.entry i).revoke.toList,
      Function.update v.cl i { v.cl i with
        call := some (.acquire t again (.answered (acquireEntry v.entry i).ret)) },
      Function.update v.answered i (some (acquireEntry v.entry i).ret)⟩ := by
  -- the client's own part first, with the server's data as it was
  have hbase := revokesOk_update v i { v.cl i with
      call := some (.acquire t again (.answered (acquireEntry v.entry i).ret)) } h
    ⟨(h.client i).releasing, by simp⟩ (by simp [ClientView.outstanding, hc]) v.retries v.answered
  have hdiff := fun j => revokedFrom_acquire v.entry i j ho.named
  refine ⟨hbase.client, ?_, ?_⟩
  · intro hmem
    rcases List.mem_append.mp hmem with hold | hnew
    · exact h.named hold
    · exact (hdiff i).1 hnew
  · intro j
    have hold := hbase.count j
    have hnew := (hdiff j).2
    simp only [List.count_append] at hold ⊢
    omega

/-- After the release no revoke of the grant is queued or outstanding: the client was
told of it before it gave the lock back. -/
theorem revokesOk_release (v : View κ τ) (i : κ) (e : LockStatus κ) (ho : v.OwnerOk)
    (h : v.RevokesOk) (hc : (v.cl i).call = some (.release .sent)) :
    View.RevokesOk ⟨some (releaseEntry e i).1, v.retries ++ (releaseEntry e i).2.toList, v.revokes,
      Function.update v.cl i { v.cl i with call := some (.release .answered) }, v.answered⟩ := by
  have hi : holder v.entry = some i := (ho.owner i).mp (by simp [ClientView.Owns, hc])
  have hafter : ∀ j, revokedFrom (some (releaseEntry e i).1) j = 0 := by
    intro j
    simp [revokedFrom, granted, releaseEntry_holder]
  refine ⟨?_, h.named, ?_⟩
  · intro j
    by_cases hj : j = i
    · subst hj
      have htold := (h.client j).returning _ hc
      simpa using (⟨(h.client j).releasing, fun _ _ => htold⟩ :
        ClientView.RevokeOk { v.cl j with call := some (.release .answered) })
    · simpa [hj] using h.client j
  · intro j
    rw [hafter j]
    have hcount := h.count j
    by_cases hj : j = i
    · subst hj
      -- the client has been told, so that was all there is: nothing is left in the queue
      have htold := (h.client j).returning _ hc
      have hle : revokedFrom v.entry j ≤ 1 := by
        unfold revokedFrom
        split_ifs <;> omega
      simp only [ClientView.outstanding, hc] at hcount
      simp only [ClientView.outstanding, Function.update_self]
      omega
    · -- another client has no grant to be revoked from
      have hother : revokedFrom v.entry j = 0 := by
        simp [revokedFrom, granted, hi, Ne.symm hj]
      simpa [hj, hother] using hcount

theorem revokesOk_revoke (v : View κ τ) (i : κ) (rs : List (Option κ)) (h : v.RevokesOk)
    (hr : v.revokes = some i :: rs) (hc : (v.cl i).call = none) :
    View.RevokesOk ⟨v.entry, v.retries, rs, Function.update v.cl i { v.cl i with
      st := if (v.cl i).st = some .free then some .releasing else (v.cl i).st
      revoked := (v.cl i).revoked+1 }, v.answered⟩ := by
  refine ⟨?_, ?_, ?_⟩
  · intro j
    by_cases hj : j = i
    · subst hj
      simpa using (⟨fun _ => Nat.succ_pos _, fun _ _ => Nat.succ_pos _⟩ : ClientView.RevokeOk
        { v.cl j with
          st := if (v.cl j).st = some .free then some .releasing else (v.cl j).st
          revoked := (v.cl j).revoked+1 })
    · simpa [hj] using h.client j
  · intro hmem
    exact h.named (hr ▸ List.mem_cons_of_mem _ hmem)
  · intro j
    have hcount := h.count j
    rw [hr] at hcount
    by_cases hj : j = i
    · subst hj
      simp only [ClientView.outstanding, hc, List.count_cons_self] at hcount
      simp only [ClientView.outstanding, hc, Function.update_self]
      omega
    · simpa [hj, Ne.symm hj] using hcount

end

theorem vstep_revokesOk (f : Prop) (v w : View κ τ) (ho : v.OwnerOk) (h : v.RevokesOk)
    (hs : VStep f v w) : w.RevokesOk := by
  cases hs with
  | stay => exact h
  | client i c hc =>
    obtain ⟨hok,hout⟩ := cstep_outstanding _ c (ho.client i) (h.client i) hc
    exact revokesOk_update v i c h hok hout _ _
  | flushed i hf hc =>
    have htold := (h.client i).returning _ hc
    exact revokesOk_update v i { v.cl i with call := some (.release .sent) } h
      ⟨(h.client i).releasing, fun _ _ => htold⟩ (by simp [ClientView.outstanding, hc]) _ _
  | acquire i t again hc => exact revokesOk_acquire v i t again ho h hc
  | release i e hc he hst => exact revokesOk_release v i e ho h hc
  | refused i hc he =>
    have hi : holder v.entry = some i := (ho.owner i).mp (by simp [ClientView.Owns, hc])
    obtain ⟨e,hv,hst,_⟩ := holder_eq_some _ i hi
    exact absurd hst (he e hv)
  | revoke i rs hr hc hst => exact revokesOk_revoke v i rs h hr hc
  | retry i rs hr hc =>
    exact revokesOk_update v i { v.cl i with retry := true } h
      ⟨(h.client i).releasing, (h.client i).returning⟩ rfl _ _

omit [DecidableEq τ] in
theorem revokesOk_init (w : ω) (l : ℓ) : ((Sys.init κ τ ℓ w).view l).RevokesOk := by
  refine ⟨?_, List.not_mem_nil, ?_⟩
  · intro i
    exact ⟨by simp [Sys.view, Sys.init, Client.view, Client.init],
      by simp [Sys.view, Sys.init, Client.view, Client.init, Client.callOn]⟩
  · intro i
    rfl

/-- Every step of the system is what `grantStep` allows. -/
theorem grantStep_of_step (dorelease : κ → ℓ → ω → Option ω) (lid : ℓ) (s s' : Sys κ τ ℓ ω)
    (a : Act κ τ ℓ) (ho : (s.view lid).OwnerOk) (h : step dorelease s a = some s') :
    run grantStep (granted (s.server.lockStatusMap lid)) (grantEvents lid s a) =
      some (granted (s'.server.lockStatusMap lid)) := by
  cases sysStep_of_step h with
  | serverAcquire i t l again srv r hc hsrv =>
    obtain ⟨_,_,hmap,_⟩ := server_acquire_spec _ _ _ _ _ hsrv
    by_cases hl : l = lid
    · subst hl
      have hacq := granted_acquire (s.server.lockStatusMap l) i ho.named
      simpa [grantEvents, hc, hmap] using hacq
    · simp [grantEvents, hc, hl, Ne.symm hl, hmap, run]
  | serverRelease i l srv r hc hsrv =>
    have hspec := server_release_spec _ _ _ _ _ hsrv
    by_cases hl : l = lid
    · subst hl
      have howns : ((s.view l).cl i).Owns := by
        simp [ClientView.Owns, Sys.view, Client.view, Client.callOn, hc]
      have hi : holder (s.server.lockStatusMap l) = some i := (ho.owner i).mp howns
      rcases hspec with ⟨_,hopen⟩ | ⟨e,he,_,_,hmap,_⟩
      · -- the release of a lock that the client has is not refused
        obtain ⟨e,he,hst,_⟩ := holder_eq_some _ i hi
        exact absurd hst (hopen e he)
      · rw [he] at hi ⊢
        simpa [grantEvents, hc, hmap] using granted_release e i hi
    · rcases hspec with ⟨hsame,_⟩ | ⟨e,_,_,_,hmap,_⟩
      · simp [grantEvents, hc, hl, hsame, run]
      · simp [grantEvents, hc, hl, Ne.symm hl, hmap, run]
  | acquire | acquireLoop | acquireReturn | wake | release | revoke | revokePop | retry | retryPop
  | releaser
  | dorelease | releaserEnd => rfl

theorem run_grantEvents (dorelease : κ → ℓ → ω → Option ω) (lid : ℓ) (w : ω)
    (acts : List (Act κ τ ℓ))
    (s : Sys κ τ ℓ ω) (hrun : run (step dorelease) (Sys.init κ τ ℓ w) acts = some s) :
    run grantStep none (trace (step dorelease) (grantEvents lid) (Sys.init κ τ ℓ w) acts) =
      some (granted (s.server.lockStatusMap lid)) := by
  let I : Sys κ τ ℓ ω → Prop := fun s => (∀ i, (s.clients i).CallOk) ∧ (s.view lid).OwnerOk
  have hI : ∀ s a s', I s → step dorelease s a = some s' → I s' := by
    intro s a s' hi hs
    exact ⟨callOk_step dorelease s s' a hi.1 hs,
      vstep_ownerOk _ _ _ hi.2 (view_step dorelease s s' a lid hi.1 hs)⟩
  exact run_trace (step dorelease) (grantEvents lid) grantStep
    (fun s => granted (s.server.lockStatusMap lid)) I hI
    (fun s a s' hi hs => grantStep_of_step dorelease lid s s' a hi.2 hs) _ s acts
    ⟨fun i => callOk_of_none _ rfl, ownerOk_init w lid⟩ hrun

omit [DecidableEq κ] in
theorem granted_eq_some (e : Option (LockStatus κ)) (i : κ) (b : Bool)
    (h : granted e = some (i, b)) :
    ∃ e', e = some e' ∧ e'.status = .locked ∧ e'.lockClient = some i := by
  obtain ⟨j,hj,hij⟩ := Option.map_eq_some_iff.mp h
  cases hij
  exact holder_eq_some e i hj

section
omit [DecidableEq τ]

/-- A revoke that is still queued finds the lock in use or kept at its client. -/
theorem revoke_finds_lock (v : View κ τ) (i : κ) (ho : v.OwnerOk) (h : v.RevokesOk)
    (hmem : some i ∈ v.revokes) :
    granted v.entry = some (i, true) ∧ v.revokes.count (some i) = 1 ∧
    ((v.cl i).call = none → ((v.cl i).st = some .free ∨ (v.cl i).st = some .locked) ∧
      (v.cl i).revoked = 0) := by
  have hpos : 0 < v.revokes.count (some i) := List.count_pos_iff.mpr hmem
  have hcount := h.count i
  unfold revokedFrom at hcount
  split_ifs at hcount with hg
  · refine ⟨hg, by omega, fun hc => ?_⟩
    have hrev : (v.cl i).revoked = 0 := by
      simp only [ClientView.outstanding, hc] at hcount
      omega
    obtain ⟨e,he,hst,hcl⟩ := granted_eq_some _ i true hg
    have howns : (v.cl i).Owns := (ho.owner i).mpr (by simp [he, holder, hst, hcl])
    -- without a call the client owns the lock by its own status
    rcases howns with hhas | ⟨t,again,hans⟩ | hfl | hsent
    · rcases hhas with hfree | hlocked | hrel
      · exact ⟨Or.inl hfree, hrev⟩
      · exact ⟨Or.inr hlocked, hrev⟩
      · exact absurd ((h.client i).releasing hrel) (by omega)
    · exact absurd (hc.symm.trans hans) (by simp)
    · exact absurd (hc.symm.trans hfl) (by simp)
    · exact absurd (hc.symm.trans hsent) (by simp)
  · omega

/-- A client that has been told of a revoke has the lock, or has just given it back. -/
theorem told_has_lock (v : View κ τ) (i : κ) (ho : v.OwnerOk) (h : v.RevokesOk) :
    (v.cl i).revoked ≤ 1 ∧ (0 < (v.cl i).revoked →
      granted v.entry = some (i, true) ∧ v.revokes.count (some i) = 0 ∨
      (v.cl i).call = some (.release .answered)) := by
  have hcount := h.count i
  by_cases hc : (v.cl i).call = some (.release .answered)
  · -- the server has the lock back, so no grant to this client can have been revoked
    obtain ⟨hst,_⟩ := (ho.client i).of_returning _ hc
    have hno : holder v.entry ≠ some i := by
      intro hi
      simpa [ClientView.Owns, HasLock, hst, hc] using (ho.owner i).mpr hi
    have hzero : revokedFrom v.entry i = 0 := by
      simp [revokedFrom, granted, hno]
    simp only [ClientView.outstanding, hc] at hcount
    exact ⟨by omega, fun _ => Or.inr hc⟩
  · have hout : (v.cl i).outstanding = (v.cl i).revoked := by
      unfold ClientView.outstanding
      split
      · next hcall => exact absurd hcall hc
      · rfl
    rw [hout] at hcount
    unfold revokedFrom at hcount
    split_ifs at hcount with hg
    · exact ⟨by omega, fun _ => Or.inl ⟨hg, by omega⟩⟩
    · exact ⟨by omega, fun _ => by omega⟩

theorem call_of_callOn_release (c : Client τ ℓ) (lid : ℓ) (p : RelPhase)
    (h : c.callOn lid = some (.release p)) : c.call = some (.release lid p) := by
  unfold Client.callOn at h
  split at h
  · cases h
  · split_ifs at h
    cases h
  · next l q hc =>
    split_ifs at h with hl
    cases h
    rw [hc, hl]

end

/-- The server's history of a lock is a sequence of grants, each revoked at most
once. A revoke that waits in the server's list is of the current grant, and when its
`revoke_handler` runs the client has the lock, idle or in use, and was not told
before. A lock is in a `revoke_list` once, and only for the current grant or until
the releaser that has just given the lock back has erased it. -/
theorem revoke_belongs_to_grant (dorelease : κ → ℓ → ω → Option ω) (w : ω) (acts : List (Act κ τ ℓ))
    (s : Sys κ τ ℓ ω) (hrun : run (step dorelease) (Sys.init κ τ ℓ w) acts = some s) (lid : ℓ) :
    run grantStep none (trace (step dorelease) (grantEvents lid) (Sys.init κ τ ℓ w) acts) =
      some (granted (s.server.lockStatusMap lid)) ∧
    (∀ c, (c, lid) ∈ s.server.revokeList.pending →
      ∃ i, c = some i ∧ granted (s.server.lockStatusMap lid) = some (i, true) ∧
        s.server.revokeList.pending.count (c, lid) = 1 ∧
        ((s.clients i).call = none →
          ((s.clients i).lockMap lid = some .free ∨ (s.clients i).lockMap lid = some .locked) ∧
          lid ∉ (s.clients i).revokeList)) ∧
    ∀ i, (s.clients i).revokeList.count lid ≤ 1 ∧
      (lid ∈ (s.clients i).revokeList →
        granted (s.server.lockStatusMap lid) = some (i, true) ∧
          (some i, lid) ∉ s.server.revokeList.pending ∨
        (s.clients i).call = some (.release lid .answered)) := by
  have hinv : ∀ l, (s.view l).OwnerOk ∧ (s.view l).RevokesOk :=
    view_invariant dorelease (fun v => v.OwnerOk ∧ v.RevokesOk)
      (fun f v v' hv hs => ⟨vstep_ownerOk f v v' hv.1 hs, vstep_revokesOk f v v' hv.1 hv.2 hs⟩) w
      (fun l => ⟨ownerOk_init w l, revokesOk_init w l⟩) acts s hrun
  obtain ⟨ho,h⟩ := hinv lid
  have hcount : ∀ c, (s.view lid).revokes.count c = s.server.revokeList.pending.count (c, lid) :=
    count_entriesFor _ lid
  refine ⟨run_grantEvents dorelease lid w acts s hrun, ?_, ?_⟩
  · intro c hc
    have hpend : c ∈ (s.view lid).revokes := by
      rw [← List.count_pos_iff, hcount]
      exact List.count_pos_iff.mpr hc
    cases c with
    | none => exact absurd hpend h.named
    | some i =>
      obtain ⟨hg,hone,hfind⟩ := revoke_finds_lock _ i ho h hpend
      rw [hcount] at hone
      refine ⟨i, rfl, hg, hone, fun hnone => ?_⟩
      obtain ⟨hst,hrev⟩ := hfind (callOn_eq_none _ lid (by simp [hnone]))
      exact ⟨hst, List.count_eq_zero.mp hrev⟩
  · intro i
    obtain ⟨hle,htold⟩ := told_has_lock _ i ho h
    refine ⟨hle, fun hmem => ?_⟩
    rcases htold (List.count_pos_iff.mpr hmem) with ⟨hg,hzero⟩ | hcall
    · rw [hcount] at hzero
      exact Or.inl ⟨hg, List.count_eq_zero.mp hzero⟩
    · exact Or.inr (call_of_callOn_release _ lid _ hcall)

end

/-- In the middle of `handover`: the second client waits, and the revoke of the first
one's grant is queued. -/
theorem revoke_belongs_to_grant_handover :
    ∃ s, run (step fun _ _ w => some w) (Sys.init Bool Unit ℕ ()) (handover.take 8) = some s ∧
      (some false, 5) ∈ s.server.revokeList.pending ∧ 5 ∉ (s.clients false).revokeList := by
  have hends : ∃ s, run (step fun _ _ w => some w) (Sys.init Bool Unit ℕ ()) (handover.take 8) =
    some s ∧
      (some false, 5) ∈ s.server.revokeList.pending ∧ (s.clients false).call = none := by
    decide
  obtain ⟨s,hrun,hpend,hcall⟩ := hends
  obtain ⟨_,hqueued,_⟩ := revoke_belongs_to_grant _ () (handover.take 8) s hrun 5
  obtain ⟨i,hi,_,_,hfind⟩ := hqueued _ hpend
  cases hi
  exact ⟨s, hrun, hpend, (hfind hcall).2⟩

end Yfs.Lock
