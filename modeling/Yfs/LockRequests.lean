import Yfs.LockOwner

/-! `lock_server_cache` as the server of all its requests. Handlers run one after the
other; `none` stands for one that never returns. -/
namespace Yfs.Lock

inductive Request (κ ℓ : Type*)
  | acquire (lid : ℓ) (id : κ)
  | release (lid : ℓ) (id : κ)
  | stat (lid : ℓ)
  | attach (id : κ)
  | unattach (id : κ)
  deriving DecidableEq

/-- The server with `client_map`, as the clients it has a connection to, and
`nacquire`, which nothing ever sets. -/
structure LockServerCache (κ ℓ : Type*) where
  locks : Server κ ℓ
  clientMap : κ → Bool
  nacquire : ℤ

def LockServerCache.init (κ ℓ : Type*) (nacquire : ℤ) : LockServerCache κ ℓ :=
  ⟨.init κ ℓ, fun _ => false, nacquire⟩

/-- What a handler returns, and what it stores in its `int &`. In both, `none` is
what was there before. -/
structure Answer where
  ret : Option Ret
  r : Option ℤ
  deriving DecidableEq

open LockServerCache

section
variable {κ ℓ : Type*} [DecidableEq κ] [DecidableEq ℓ]

namespace LockServerCache

def handle (n : LockServerCache κ ℓ) : Request κ ℓ → Option (LockServerCache κ ℓ × Answer)
  | .acquire lid id =>
    (n.locks.acquire lid id).map fun x => ({ n with locks := x.1 }, ⟨some x.2, none⟩)
  | .release lid id =>
    (n.locks.release lid id).map fun x => ({ n with locks := x.1 }, ⟨x.2, none⟩)
  | .stat _ => some (n, ⟨some .ok, some n.nacquire⟩)
  | .attach id =>
    if n.locks.statusMutex = true then none
    else some ({ n with clientMap := Function.update n.clientMap id true }, ⟨some .ok, some 0⟩)
  -- its last statement but one locks `statusMutex` again, where `attach` unlocks it
  | .unattach _ => none

def serve (n : LockServerCache κ ℓ) (q : Request κ ℓ) : Option (LockServerCache κ ℓ) :=
  (n.handle q).map Prod.fst

end LockServerCache

/-- The request is by the client that the server has recorded, if it is a release. -/
def ByHolder (n : LockServerCache κ ℓ) : Request κ ℓ → Prop
  | .release lid id => holder (n.locks.lockStatusMap lid) = some id
  | _ => True

/-- A release by another client, or of a lock that nobody has, changes nothing and is
answered; by another client it is also refused. -/
def ReleaseLaw (n : LockServerCache κ ℓ) : Request κ ℓ → Prop
  | .release lid id =>
    (∀ e, n.locks.lockStatusMap lid = some e → e.status = .locked → e.lockClient ≠ some id →
      ∃ n' a r, n.handle (.release lid id) = some (n', a) ∧ a.ret = some r ∧ r ≠ .ok ∧
        n'.locks.lockStatusMap lid = some e ∧ n'.locks.retryList = n.locks.retryList) ∧
    ((∀ e, n.locks.lockStatusMap lid = some e → e.status = .opened) →
      ∃ a r, n.handle (.release lid id) = some (n, a) ∧ a.ret = some r)
  | _ => True

def Grants (n : LockServerCache κ ℓ) (lid : ℓ) (id : κ) : Prop :=
  ∃ n' a, n.handle (.acquire lid id) = some (n', a) ∧ a.ret = some .ok

/-- Between two grants of a lock there is a release by the client of the first. -/
def Exclusive (n : LockServerCache κ ℓ) (reqs : List (Request κ ℓ)) : Prop :=
  ∀ pre mid post lid c d n₁ n₂, reqs = pre ++ .acquire lid c :: (mid ++ .acquire lid d :: post) →
    run serve n pre = some n₁ → Grants n₁ lid c →
    run serve n₁ (.acquire lid c :: mid) = some n₂ → Grants n₂ lid d → .release lid c ∈ mid

/-- `release` sets `ret` only for a LOCKED lock, and then to OK. -/
theorem answer_release (n n' : LockServerCache κ ℓ) (lid : ℓ) (id : κ) (a : Answer) (r : Ret)
    (h : n.handle (.release lid id) = some (n', a)) (hr : a.ret = some r) :
    r = .ok ∧ ∃ e, n.locks.lockStatusMap lid = some e ∧ e.status = .locked := by
  obtain ⟨⟨s,r'⟩,hs,hn⟩ := Option.map_eq_some_iff.mp h
  cases hn
  unfold Server.release at hs
  split at hs
  · cases hs
    cases hr
  · next e he =>
    split_ifs at hs with hst hm <;> cases hs
    · exact ⟨(Option.some.inj hr).symm, e, he, hst⟩
    · cases hr

/-- `release` looks neither at who asks nor for a status to return without a lock. -/
theorem releaseLaw_iff (n : LockServerCache κ ℓ) (q : Request κ ℓ) : ReleaseLaw n q ↔
    ByHolder n q := by
  cases q with
  | acquire | stat | attach | unattach => exact Iff.rfl
  | release lid id =>
    constructor
    · rintro ⟨hother,hnone⟩
      by_cases hopen : ∀ e, n.locks.lockStatusMap lid = some e → e.status = .opened
      · -- without a grant the law asks for an answer, and there is none
        obtain ⟨a,r,ha,hr⟩ := hnone hopen
        obtain ⟨_,e,he,hst⟩ := answer_release n n lid id a r ha hr
        exact absurd (hst.symm.trans (hopen e he)) (by simp)
      · obtain ⟨e,he,hst⟩ : ∃ e, n.locks.lockStatusMap lid = some e ∧ e.status ≠ .opened := by
          simpa using hopen
        have hlocked : e.status = .locked := by
          cases h : e.status with
          | opened => exact absurd h hst
          | locked => rfl
        by_contra hid
        have hcl : e.lockClient ≠ some id := by simpa [ByHolder, holder, he, hlocked] using hid
        obtain ⟨n',a,r,ha,hr,hok,_⟩ := hother e he hlocked hcl
        exact hok (answer_release n n' lid id a r ha hr).1
    · intro hid
      obtain ⟨e,he,hst,hcl⟩ := holder_eq_some _ id hid
      constructor
      · intro e' he' _ hne
        rw [he] at he'
        cases he'
        exact absurd hcl hne
      · intro hopen
        exact absurd (hst.symm.trans (hopen e he)) (by simp)

/-- A lock is granted when nobody has it, and then the client has it. -/
theorem holder_of_grants (n : LockServerCache κ ℓ) (lid : ℓ) (c : κ) (h : Grants n lid c) :
    holder (n.locks.lockStatusMap lid) = none ∧
    ∀ n', n.serve (.acquire lid c) = some n' → holder (n'.locks.lockStatusMap lid) = some c := by
  obtain ⟨n₁,a,hh,hok⟩ := h
  obtain ⟨⟨s,r⟩,hs,hn⟩ := Option.map_eq_some_iff.mp hh
  obtain ⟨hr,_,hmap,_⟩ := server_acquire_spec _ _ _ _ _ hs
  cases hn
  have hret : r = .ok := Option.some.inj hok
  rcases acquireEntry_holder (n.locks.lockStatusMap lid) c with ⟨_,hbefore,hafter⟩ | ⟨hretry,_⟩
  · refine ⟨hbefore, fun n' hn' => ?_⟩
    rw [serve, hh, Option.map_some, Option.some.injEq] at hn'
    rw [← hn', hmap, Function.update_self]
    exact hafter
  · rw [← hr, hret] at hretry
    cases hretry

/-- A lock stays with its client through every request but that client's release. -/
theorem holder_serve (n n' : LockServerCache κ ℓ) (q : Request κ ℓ) (lid : ℓ) (c : κ)
    (hc : holder (n.locks.lockStatusMap lid) = some c) (hq : ByHolder n q)
    (hne : q ≠ .release lid c)
    (h : n.serve q = some n') : holder (n'.locks.lockStatusMap lid) = some c := by
  obtain ⟨⟨m,a⟩,hm,rfl⟩ := Option.map_eq_some_iff.mp h
  cases q with
  | acquire l d =>
    obtain ⟨⟨s,r⟩,hs,hn⟩ := Option.map_eq_some_iff.mp hm
    obtain ⟨_,_,hmap,_⟩ := server_acquire_spec _ _ _ _ _ hs
    cases hn
    by_cases hl : l = lid
    · subst hl
      rcases acquireEntry_holder (n.locks.lockStatusMap l) d with ⟨_,hfree,_⟩ | ⟨_,hsame⟩
      · exact absurd (hc.symm.trans hfree) (by simp)
      · simpa [hmap, hsame] using hc
    · simpa [hmap, Ne.symm hl] using hc
  | release l d =>
    have hl : l ≠ lid := by
      intro hl
      subst hl
      have hd : d = c := Option.some.inj (hq.symm.trans hc)
      exact hne (by rw [hd])
    obtain ⟨⟨s,r⟩,hs,hn⟩ := Option.map_eq_some_iff.mp hm
    cases hn
    rcases server_release_spec _ _ _ _ _ hs with ⟨hsame,_⟩ | ⟨e,_,_,_,hmap,_⟩
    · simpa [hsame] using hc
    · simpa [hmap, Ne.symm hl] using hc
  | stat l =>
    cases hm
    exact hc
  | attach d =>
    simp only [handle, Option.ite_none_left_eq_some, Option.some.injEq, Prod.mk.injEq] at hm
    obtain ⟨_,rfl,_⟩ := hm
    exact hc
  | unattach d => cases hm

theorem holder_run (n n' : LockServerCache κ ℓ) (reqs : List (Request κ ℓ)) (lid : ℓ) (c : κ)
    (hc : holder (n.locks.lockStatusMap lid) = some c) (hq : RunAll serve ByHolder n reqs)
    (hne : .release lid c ∉ reqs) (h : run serve n reqs = some n') :
    holder (n'.locks.lockStatusMap lid) = some c := by
  have hmem : RunAll serve (fun _ q => q ≠ .release lid c) n reqs :=
    runAll_of_mem serve _ n reqs fun q hq he => hne (he ▸ hq)
  exact run_invariant_of_all serve (fun n q => ByHolder n q ∧ q ≠ .release lid c)
    (fun n => holder (n.locks.lockStatusMap lid) = some c)
    (fun n q n' hn hp hs => holder_serve n n' q lid c hn hp.1 hp.2 hs) n n' reqs hc
    (runAll_and serve _ _ n reqs hq hmem) h

theorem exclusive_of_byHolder (n : LockServerCache κ ℓ) (reqs : List (Request κ ℓ))
    (h : RunAll serve ByHolder n reqs) : Exclusive n reqs := by
  intro pre mid post lid c d n₁ n₂ hreqs hpre hfirst hmid hsecond
  obtain ⟨n',hacq,hrun⟩ := run_cons_some serve n₁ n₂ _ mid hmid
  have hgot := (holder_of_grants n₁ lid c hfirst).2 n' hacq
  have hfree := (holder_of_grants n₂ lid d hsecond).1
  have hall : RunAll serve ByHolder n' mid := by
    rw [hreqs] at h
    have hrest := (runAll_drop serve _ n n₁ pre _ h hpre).2 n' hacq
    exact runAll_take serve _ n' mid _ hrest
  by_contra hno
  -- without a release the first client has the lock until the second grant
  have hkept := holder_run n' n₂ mid lid c hgot hall hno hrun
  exact absurd (hkept.symm.trans hfree) (by simp)

/-- Exactly when every release comes from the client that has the lock does the
server do nothing on behalf of others and give no lock to two clients. -/
theorem release_law_iff_by_holder (n : LockServerCache κ ℓ) (reqs : List (Request κ ℓ)) :
    RunAll serve ReleaseLaw n reqs ∧ Exclusive n reqs ↔ RunAll serve ByHolder n reqs := by
  have hlaw := runAll_congr serve ReleaseLaw ByHolder releaseLaw_iff n reqs
  constructor
  · rintro ⟨h,_⟩
    exact hlaw.mp h
  · intro h
    exact ⟨hlaw.mpr h, exclusive_of_byHolder n reqs h⟩

end

/-- Client 2 waits for lock 5, which client 1 has, and releases it. It is told OK, and
the lock is then granted to it too. An unknown lock is released without an answer. -/
theorem release_by_waiter_grants_twice :
    ∃ n n' : LockServerCache ℕ ℕ, run serve (LockServerCache.init ℕ ℕ 0) [.acquire 5 1,
      .acquire 5 2] = some n ∧
      holder (n.locks.lockStatusMap 5) = some 1 ∧
      (n.handle (.release 5 2)).map Prod.snd = some ⟨some .ok, none⟩ ∧
      n.serve (.release 5 2) = some n' ∧ Grants n' 5 2 ∧
      ¬ Exclusive (.init ℕ ℕ 0) [.acquire 5 1, .acquire 5 2, .release 5 2, .acquire 5 2] ∧
      (n.handle (.release 6 2)).map Prod.snd = some ⟨none, none⟩ := by
  refine ⟨_, _, rfl, rfl, rfl, rfl, ⟨_, _, rfl, rfl⟩, fun h => ?_, rfl⟩
  have hmem := h [] [.acquire 5 2, .release 5 2] [] 5 1 2 _ _ rfl rfl ⟨_, _, rfl, rfl⟩ rfl
    ⟨_, _, rfl, rfl⟩
  exact absurd hmem (by decide)

inductive MutexOp
  | lock
  | unlock
  deriving DecidableEq

/-- A mutex that is locked or not, as its holder uses it. Locking it once more blocks
for ever, and there is nothing to unlock before it is locked. -/
def mutexStep : Bool → MutexOp → Option Bool
  | false, .lock => some true
  | true, .unlock => some false
  | _, _ => none

section
variable {κ ℓ : Type*} [DecidableEq κ] [DecidableEq ℓ]

/-- What the handler does with `statusMutex`, in order. -/
def LockServerCache.mutexOps (n : LockServerCache κ ℓ) : Request κ ℓ → List MutexOp
  | .acquire _ _ => [.lock, .unlock]
  | .release lid _ =>
    match n.locks.lockStatusMap lid with
    | none => []
    | some e =>
      if e.status = .locked then
        if e.waitingClient.length = 0 then [.lock] else [.lock, .unlock]
      else []
  | .stat _ => []
  | .attach _ => [.lock, .unlock]
  | .unattach _ => [.lock, .lock]

/-- A handler returns when its operations on the mutex do, and leaves the mutex as
they do. -/
theorem serve_mutexOps (n : LockServerCache κ ℓ) (q : Request κ ℓ) :
    (n.serve q).map (fun n' => n'.locks.statusMutex) =
      run mutexStep n.locks.statusMutex (n.mutexOps q) := by
  cases q with
  | acquire lid id =>
    cases hm : n.locks.statusMutex <;>
      simp [serve, handle, Server.acquire, mutexOps, run, mutexStep, hm]
  | release lid id =>
    cases he : n.locks.lockStatusMap lid with
    | none => simp [serve, handle, Server.release, mutexOps, run, he]
    | some e =>
      cases hst : e.status with
      | opened => simp [serve, handle, Server.release, mutexOps, run, he, hst]
      | locked =>
        cases hw : e.waitingClient with
        | nil => cases hm : n.locks.statusMutex <;>
            simp [serve, handle, Server.release, releaseEntry, mutexOps, run, mutexStep, he, hst,
              hw, hm]
        | cons w ws => cases hm : n.locks.statusMutex <;>
            simp [serve, handle, Server.release, releaseEntry, mutexOps, run, mutexStep, he, hst,
              hw, hm]
  | stat lid => rfl
  | attach id =>
    cases hm : n.locks.statusMutex <;> simp [serve, handle, mutexOps, run, mutexStep, hm]
  | unattach id =>
    cases hm : n.locks.statusMutex <;> simp [serve, handle, mutexOps, run, mutexStep]

/-- The handler unlocks what it locks and never locks what it has. -/
def Disciplined (n : LockServerCache κ ℓ) (q : Request κ ℓ) : Prop :=
  run mutexStep false (n.mutexOps q) = some false

/-- `unattach`, and `release` of a LOCKED lock that nobody waits for. -/
def Leaky (n : LockServerCache κ ℓ) : Request κ ℓ → Prop
  | .release lid _ => ∃ e, n.locks.lockStatusMap lid = some e ∧ e.status = .locked ∧
    e.waitingClient = []
  | .unattach _ => True
  | _ => False

omit [DecidableEq κ] [DecidableEq ℓ] in
theorem disciplined_iff (n : LockServerCache κ ℓ) (q : Request κ ℓ) : Disciplined n q ↔
    ¬ Leaky n q := by
  cases q with
  | acquire | stat | attach | unattach => simp [Disciplined, Leaky, mutexOps, run, mutexStep]
  | release lid id =>
    cases he : n.locks.lockStatusMap lid with
    | none => simp [Disciplined, Leaky, mutexOps, run, he]
    | some e =>
      cases hst : e.status with
      | opened => simp [Disciplined, Leaky, mutexOps, run, he, hst]
      | locked =>
        cases hw : e.waitingClient <;> simp [Disciplined, Leaky, mutexOps, run, mutexStep, he, hst,
          hw]

/-- A disciplined handler finds the mutex free, returns, and leaves it free. -/
theorem serve_of_disciplined (n : LockServerCache κ ℓ) (q : Request κ ℓ)
    (hm : n.locks.statusMutex = false)
    (h : Disciplined n q) : ∃ n', n.serve q = some n' ∧ n'.locks.statusMutex = false := by
  have hops := serve_mutexOps n q
  rw [hm, h] at hops
  exact Option.map_eq_some_iff.mp hops

/-- The mutex is free before every request of the run and the handler returns it. -/
def MutexLaw (n : LockServerCache κ ℓ) (q : Request κ ℓ) : Prop :=
  n.locks.statusMutex = false ∧ Disciplined n q

theorem mutexLaw_of_not_leaky (n : LockServerCache κ ℓ) (reqs : List (Request κ ℓ))
    (hm : n.locks.statusMutex = false) (h : RunAll serve (fun n q => ¬ Leaky n q) n reqs) :
    RunAll serve MutexLaw n reqs ∧
      ∃ n', run serve n reqs = some n' ∧ n'.locks.statusMutex = false := by
  induction reqs generalizing n with
  | nil => exact ⟨trivial, n, rfl, hm⟩
  | cons q reqs ih =>
    have hq := (disciplined_iff n q).mpr h.1
    obtain ⟨n',hs,hm'⟩ := serve_of_disciplined n q hm hq
    obtain ⟨hall,t,hrun,ht⟩ := ih n' hm' (h.2 n' hs)
    refine ⟨⟨⟨hm, hq⟩, fun m hmq => ?_⟩, t, ?_, ht⟩
    · rw [hs] at hmq
      cases hmq
      exact hall
    · rw [run, hs, Option.bind_some, hrun]

/-- Exactly in the runs without such a request does every handler return
`statusMutex`, so that it is free between requests and every request is served. -/
theorem mutex_discipline_iff_not_leaky (nacquire : ℤ) (reqs : List (Request κ ℓ)) :
    (RunAll serve MutexLaw (.init κ ℓ nacquire) reqs ∧
      ∃ n, run serve (.init κ ℓ nacquire) reqs = some n ∧ n.locks.statusMutex = false) ↔
    RunAll serve (fun n q => ¬ Leaky n q) (.init κ ℓ nacquire) reqs := by
  constructor
  · rintro ⟨h,_⟩
    exact runAll_of_all serve MutexLaw _ (fun _ => True) (fun _ _ _ _ _ _ => trivial)
      (fun n q _ hq => (disciplined_iff n q).mp hq.2) _ reqs trivial h
  · exact mutexLaw_of_not_leaky _ reqs rfl

end

/-- After the only client of lock 5 has released it the server never again serves an
acquire or an attach; and `unattach` does not return even when the mutex is free. -/
theorem mutex_kept_by_release :
    ∃ n n' : LockServerCache ℕ ℕ, run serve (LockServerCache.init ℕ ℕ 0) [.acquire 5 1] = some n ∧
      n.serve (.release 5 1) = some n' ∧ n'.locks.statusMutex = true ∧
      (∀ lid id, n'.serve (.acquire lid id) = none) ∧ (∀ id, n'.serve (.attach id) = none) ∧
      ¬ Disciplined n (.release 5 1) ∧ ¬ Disciplined n (.unattach 1) ∧
      n.locks.statusMutex = false ∧ n.serve (.unattach 1) = none := by
  refine ⟨_, _, rfl, rfl, rfl, ?_, ?_, ?_, ?_, rfl, rfl⟩
  · intro lid id
    rfl
  · intro id
    rfl
  · intro h
    exact (disciplined_iff _ _).mp h ⟨_, rfl, rfl, rfl⟩
  · intro h
    exact (disciplined_iff _ _).mp h trivial

end Yfs.Lock
