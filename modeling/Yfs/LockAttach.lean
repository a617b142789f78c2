import Mathlib.Algebra.GroupWithZero.Nat
import Mathlib.Data.Fintype.Basic
import Yfs.LockQueues

namespace Yfs.Lock

/-- What an entry of `client_map` points to. -/
inductive ClientPtr
  | null
  | rpcc
  deriving DecidableEq

/-- `revokerCl` and `retryerCl` are the variables `cl` of the two threads, from the lookup in
`client_map` to the end of the call. -/
structure AttachServer (κ ℓ : Type*) where
  queues : QueueServer κ ℓ
  clientMap : Option κ → Option ClientPtr
  revokerCl : Option ClientPtr
  retryerCl : Option ClientPtr

def AttachServer.init (κ ℓ : Type*) : AttachServer κ ℓ := ⟨.init κ ℓ, fun _ => none, none, none⟩

inductive AttachAct (κ ℓ : Type*)
  | attach (id : κ)
  | unattach (id : κ)
  | queue (a : QueueAct κ ℓ)
  | revokerLookup
  | retryerLookup

section
variable {κ ℓ : Type*} [DecidableEq κ] [DecidableEq ℓ]

namespace AttachServer

/-- `bind` is called with `statusMutex` held, and its result is not looked at. -/
def attach (s : AttachServer κ ℓ) (id : κ) : Option (AttachServer κ ℓ) :=
  if s.queues.statusMutex = true then none
  else some { s with clientMap := Function.update s.clientMap (some id) (some .rpcc) }

/-- At its end `unattach` locks `statusMutex` once more, and so never returns. -/
def unattach (s : AttachServer κ ℓ) (id : κ) : Option (AttachServer κ ℓ) :=
  if s.queues.statusMutex = true then none
  else some { s with
    queues := { s.queues with statusMutex := true }
    clientMap := Function.update s.clientMap (some id) none }

/-- `client_map[clientHostName]`, which makes a null pointer for a missing client. -/
def lookup (m : Option κ → Option ClientPtr) (c : Option κ) :
    (Option κ → Option ClientPtr) × ClientPtr :=
  match m c with
  | some p => (m, p)
  | none => (Function.update m c (some .null), .null)

/-- From the front entry to `cl->call`. -/
def revokerLookup (s : AttachServer κ ℓ) : Option (AttachServer κ ℓ) :=
  match s.queues.revokeList.pc with
  | .calling (c, _) =>
    let r := lookup s.clientMap c
    if s.revokerCl = none then some { s with clientMap := r.1, revokerCl := some r.2 } else none
  | _ => none

def retryerLookup (s : AttachServer κ ℓ) : Option (AttachServer κ ℓ) :=
  match s.queues.retryList.pc with
  | .calling (id, _) =>
    let r := lookup s.clientMap (some id)
    if s.retryerCl = none then some { s with clientMap := r.1, retryerCl := some r.2 } else none
  | _ => none

/-- An entry is popped after its call, from which a thread with a null pointer does not
return. -/
def queueStep (s : AttachServer κ ℓ) (a : QueueAct κ ℓ) : Option (AttachServer κ ℓ) :=
  (s.queues.step a).bind fun q =>
    match a with
    | .revoker .pop =>
      if s.revokerCl = some .rpcc then some { s with queues := q, revokerCl := none } else none
    | .retryer .pop =>
      if s.retryerCl = some .rpcc then some { s with queues := q, retryerCl := none } else none
    | _ => some { s with queues := q }

def step (s : AttachServer κ ℓ) : AttachAct κ ℓ → Option (AttachServer κ ℓ)
  | .attach id => s.attach id
  | .unattach id => s.unattach id
  | .queue a => s.queueStep a
  | .revokerLookup => s.revokerLookup
  | .retryerLookup => s.retryerLookup

/-- There is an `rpcc` for the client. -/
def Attached (s : AttachServer κ ℓ) (c : Option κ) : Prop := s.clientMap c = some .rpcc

/-- Clients attach before they acquire. -/
def AttachesFirst (s : AttachServer κ ℓ) : AttachAct κ ℓ → Prop
  | .queue (.acquire _ id) => s.Attached (some id)
  | _ => True

/-- They have released their locks, and their calls of `release` have returned, before they
unattach. -/
def ReleasesFirst (s : AttachServer κ ℓ) : AttachAct κ ℓ → Prop
  | .unattach id => (∀ lid, ∀ e ∈ s.queues.lockStatusMap lid, e.status = .locked →
      e.lockClient ≠ some id) ∧
      ∀ r ∈ s.queues.releases, r.2.1 ≠ id
  | _ => True

/-- Neither list has an entry of a client that unattaches. -/
def NoEntryLeft (s : AttachServer κ ℓ) : AttachAct κ ℓ → Prop
  | .unattach id => (∀ x ∈ s.queues.revokeList.items, x.1 ≠ some id) ∧
    ∀ x ∈ s.queues.retryList.items, x.1 ≠ id
  | _ => True

instance (s : AttachServer κ ℓ) (c : Option κ) : Decidable (s.Attached c) :=
  inferInstanceAs (Decidable (s.clientMap c = some .rpcc))

instance decidableAttachesFirst (s : AttachServer κ ℓ) : ∀ a, Decidable (s.AttachesFirst a)
  | .queue (.acquire _ id) => inferInstanceAs (Decidable (s.Attached (some id)))
  | .queue .revokeSignal | .queue (.release ..) | .queue
      (.releaseLocked ..) | .queue .retrySignal | .queue (.revoker _)
  | .queue (.retryer _) | .attach _ | .unattach _ | .revokerLookup | .retryerLookup =>
    isTrue trivial

instance decidableReleasesFirst [Fintype ℓ] (s : AttachServer κ ℓ) :
    ∀ a, Decidable (s.ReleasesFirst a)
  | .unattach id => inferInstanceAs (Decidable
      ((∀ lid, ∀ e ∈ s.queues.lockStatusMap lid, e.status = .locked → e.lockClient ≠ some id) ∧
        ∀ r ∈ s.queues.releases, r.2.1 ≠ id))
  | .queue _ | .attach _ | .revokerLookup | .retryerLookup => isTrue trivial

instance decidableNoEntryLeft (s : AttachServer κ ℓ) : ∀ a, Decidable (s.NoEntryLeft a)
  | .unattach id => inferInstanceAs (Decidable
      ((∀ x ∈ s.queues.revokeList.items, x.1 ≠ some id) ∧ ∀ x ∈ s.queues.retryList.items, x.1 ≠ id))
  | .queue _ | .attach _ | .revokerLookup | .retryerLookup => isTrue trivial

end AttachServer

/-- The clients that an entry of `lock_status_map` leads to. -/
structure LockStatus.Known (L : Option κ → Prop) (e : LockStatus κ) : Prop where
  waiting : ∀ w ∈ e.waitingClient, L (some w)
  owner : e.status = .locked → L e.lockClient

theorem acquireEntry_known (L : Option κ → Prop) (o : Option (LockStatus κ)) (id : κ)
    (ho : ∀ e ∈ o, e.Known L) (hid : L (some id)) : (acquireEntry o id).entry.Known L ∧
    ∀ c ∈ (acquireEntry o id).revoke, L c := by
  cases o with
  | none => exact ⟨⟨nofun,fun _ => hid⟩,nofun⟩
  | some e =>
    obtain ⟨hwaiting,howner⟩ := ho e rfl
    have happend : ∀ w ∈ e.waitingClient ++ [id], L (some w) := by
      intro w hw
      rcases List.mem_append.mp hw with hw | hw
      · exact hwaiting w hw
      · exact List.mem_singleton.mp hw ▸ hid
    simp only [acquireEntry]
    split_ifs with hopen hwait hrevoked
    · exact ⟨⟨hwaiting,fun _ => hid⟩,fun c hc => Option.some.inj hc ▸ hid⟩
    · exact ⟨⟨hwaiting,fun _ => hid⟩,nofun⟩
    · have hlocked : e.status = .locked := by
        cases hst : e.status with
        | opened => exact absurd hst hopen
        | locked => rfl
      exact ⟨⟨happend,howner⟩,fun c hc => Option.some.inj hc ▸ howner hlocked⟩
    · exact ⟨⟨happend,howner⟩,nofun⟩

namespace QueueServer

/-- `statusMutex` is locked for ever: nobody who holds it is going to unlock it. -/
def Frozen (s : QueueServer κ ℓ) : Prop := s.statusMutex = true ∧ s.revokeList.signals = 0

/-- All that the revoker and the retryer may get to see are clients with the property. -/
structure Calls (L : Option κ → Prop) (s : QueueServer κ ℓ) : Prop where
  revokes : s.revokeList.All fun a => L a.1
  retries : s.retryList.All fun a => L (some a.1)
  entries : s.Frozen ∨ ∀ lid e, s.lockStatusMap lid = some e → e.Known L
  one : s.revokeList.signals ≤ 1
  signals : s.statusMutex = false → s.revokeList.signals = 0

omit [DecidableEq κ] [DecidableEq ℓ] in
theorem Calls.unfrozen {L : Option κ → Prop} {s : QueueServer κ ℓ} (h : s.Calls L)
    (hmutex : ¬ s.statusMutex = true) :
    ∀ lid e, s.lockStatusMap lid = some e → e.Known L :=
  h.entries.resolve_left fun hf => hmutex hf.1

theorem calls_acquire {L : Option κ → Prop} {s s' : QueueServer κ ℓ} {lid : ℓ} {id : κ}
    (h : s.Calls L) (hid : L (some id)) (hs : s.acquire lid id = some s') : s'.Calls L := by
  simp only [acquire, Option.ite_none_left_eq_some] at hs
  obtain ⟨hmutex,hs⟩ := hs
  have hentries := h.unfrozen hmutex
  obtain ⟨hknown,hrevoke⟩ := acquireEntry_known L (s.lockStatusMap lid) id (hentries lid) hid
  have hentries' :=
    forall_update_some (a := lid) (P := fun _ (x : LockStatus κ) => x.Known L) hknown hentries
  have hzero := h.signals (by simpa using hmutex)
  split at hs
  · cases hs
    exact ⟨h.revokes,h.retries,.inr hentries',h.one,h.signals⟩
  · next c hc =>
    cases hs
    refine ⟨h.revokes.push (hrevoke c hc),h.retries,.inr hentries',?_,fun hheld => ?_⟩
    · simp [SignalQueue.push, hzero]
    · cases hheld

omit [DecidableEq κ] [DecidableEq ℓ] in
theorem calls_revokeSignal {L : Option κ → Prop} {s s' : QueueServer κ ℓ} (h : s.Calls L)
    (hs : s.revokeSignal = some s') : s'.Calls L := by
  obtain ⟨q,hq,rfl⟩ := Option.map_eq_some_iff.mp hs
  have hsignals : s.revokeList.signals ≠ 0 ∧ q.signals = s.revokeList.signals - 1 := by
    simp only [SignalQueue.signal, Option.ite_none_left_eq_some, Option.some.injEq] at hq
    exact ⟨hq.1,by rw [← hq.2]⟩
  have hone := h.one
  have hzero : q.signals = 0 := by omega
  refine ⟨h.revokes.signal hq,h.retries,.inr ?_,hzero ▸ Nat.zero_le 1,fun _ => hzero⟩
  exact h.entries.resolve_left fun hf => hsignals.1 hf.2

theorem calls_releaseLocked {L : Option κ → Prop} {s s' : QueueServer κ ℓ} {lid : ℓ} {id : κ}
    {waiting : Bool}
    (h : s.Calls L) (hs : s.releaseLocked lid id waiting = some s') : s'.Calls L := by
  simp only [releaseLocked, Option.ite_none_left_eq_some, not_or] at hs
  obtain ⟨⟨hmutex,-⟩,hs⟩ := hs
  have hentries := h.unfrozen hmutex
  split at hs
  · cases hs
  · next e he =>
    obtain ⟨hwaiting,-⟩ := hentries lid e he
    split_ifs at hs
    · cases hs
      refine ⟨h.revokes,h.retries,
        .inr (forall_update_some (P := fun _ (x : LockStatus κ) => x.Known L)
          ⟨hwaiting,fun hlocked => ?_⟩ hentries),
        h.one,fun hheld => ?_⟩
      · cases hlocked
      · cases hheld
    · split at hs
      · cases hs
      · next w ws hw =>
        cases hs
        rw [hw] at hwaiting
        obtain ⟨hfirst,hrest⟩ := List.forall_mem_cons.mp hwaiting
        refine ⟨h.revokes,h.retries.push hfirst,
          .inr (forall_update_some (P := fun _ (x : LockStatus κ) => x.Known L)
            ⟨hrest,fun hlocked => ?_⟩ hentries),
          h.one,h.signals⟩
        cases hlocked

theorem calls_step {L : Option κ → Prop} {s s' : QueueServer κ ℓ} {a : QueueAct κ ℓ} (h : s.Calls L)
    (ha : ∀ lid id, a = .acquire lid id → L (some id)) (hs : s.step a = some s') : s'.Calls L := by
  cases a with
  | acquire lid id => exact calls_acquire h (ha lid id rfl) hs
  | revokeSignal => exact calls_revokeSignal h hs
  | release lid id =>
    simp only [step, release] at hs
    split at hs
    · cases hs
      exact h
    · split_ifs at hs <;> cases hs <;> exact ⟨h.revokes,h.retries,h.entries,h.one,h.signals⟩
  | releaseLocked lid id waiting => exact calls_releaseLocked h hs
  | retrySignal =>
    obtain ⟨q,hq,rfl⟩ := Option.map_eq_some_iff.mp hs
    exact ⟨h.revokes,h.retries.signal hq,h.entries,h.one,h.signals⟩
  | revoker a =>
    obtain ⟨q,hq,rfl⟩ := Option.map_eq_some_iff.mp hs
    have hsignals := SignalQueue.consume_signals hq
    refine ⟨h.revokes.consume hq,h.retries,?_,hsignals ▸ h.one,
      fun hm => hsignals.trans (h.signals hm)⟩
    exact h.entries.imp_left fun hf => ⟨hf.1,hsignals.trans hf.2⟩
  | retryer a =>
    obtain ⟨q,hq,rfl⟩ := Option.map_eq_some_iff.mp hs
    exact ⟨h.revokes,h.retries.consume hq,h.entries,h.one,h.signals⟩

omit [DecidableEq κ] [DecidableEq ℓ] in
theorem Calls.imp {L M : Option κ → Prop} {s : QueueServer κ ℓ} (h : s.Calls L)
    (hLM : ∀ c, L c → M c) : s.Calls M where
  revokes := h.revokes.imp fun _ _ => hLM _
  retries := h.retries.imp fun _ _ => hLM _
  entries := h.entries.imp_right fun he lid e hl =>
    ⟨fun w hw => hLM _ ((he lid e hl).waiting w hw),fun hst => hLM _ ((he lid e hl).owner hst)⟩
  one := h.one
  signals := h.signals

theorem frozen_step {s s' : QueueServer κ ℓ} {a : QueueAct κ ℓ} (h : s.Frozen)
    (hs : s.step a = some s') : s'.Frozen := by
  obtain ⟨hmutex,hzero⟩ := h
  cases a with
  | acquire lid id => simp [step, acquire, hmutex] at hs
  | revokeSignal => simp [step, revokeSignal, SignalQueue.signal, hzero] at hs
  | release lid id =>
    simp only [step, release] at hs
    split at hs
    · cases hs
      exact ⟨hmutex,hzero⟩
    · split_ifs at hs <;> cases hs <;> exact ⟨hmutex,hzero⟩
  | releaseLocked lid id waiting => simp [step, releaseLocked, hmutex] at hs
  | retrySignal =>
    obtain ⟨q,hq,rfl⟩ := Option.map_eq_some_iff.mp hs
    exact ⟨hmutex,hzero⟩
  | revoker a =>
    obtain ⟨q,hq,rfl⟩ := Option.map_eq_some_iff.mp hs
    exact ⟨hmutex,(SignalQueue.consume_signals hq).trans hzero⟩
  | retryer a =>
    obtain ⟨q,hq,rfl⟩ := Option.map_eq_some_iff.mp hs
    exact ⟨hmutex,hzero⟩

end QueueServer

namespace AttachServer

theorem lookup_attached {m : Option κ → Option ClientPtr} {c d : Option κ} (h : m d = some .rpcc) :
    (lookup m c).1 d = some .rpcc := by
  unfold lookup
  split
  · exact h
  · next hnone =>
    have hne : d ≠ c := by
      rintro rfl
      exact nomatch hnone.symm.trans h
    exact (Function.update_of_ne hne _ _).trans h

theorem attached_of_lookup {m : Option κ → Option ClientPtr} {c d : Option κ}
    (h : (lookup m c).1 d = some .rpcc) :
    m d = some .rpcc := by
  unfold lookup at h
  split at h
  · exact h
  · by_cases hne : d = c
    · subst hne
      exact nomatch (Function.update_self _ _ _).symm.trans h
    · exact (Function.update_of_ne hne _ _).symm.trans h

theorem lookup_rpcc {m : Option κ → Option ClientPtr} {c : Option κ} (h : m c = some .rpcc) :
    (lookup m c).2 = .rpcc := by
  rw [lookup, h]

/-- What a step does to the lists and to `client_map`. -/
inductive Step (s : AttachServer κ ℓ) : AttachAct κ ℓ → AttachServer κ ℓ → Prop
  | attach (id : κ) (hmutex : ¬ s.queues.statusMutex = true) :
      Step s (.attach id) { s with clientMap := Function.update s.clientMap (some id) (some .rpcc) }
  | unattach (id : κ) (hmutex : ¬ s.queues.statusMutex = true) :
      Step s (.unattach id) { s with
        queues := { s.queues with statusMutex := true }
        clientMap := Function.update s.clientMap (some id) none }
  | queue (a : QueueAct κ ℓ) (q : QueueServer κ ℓ) (revoker retryer : Option ClientPtr)
      (hq : s.queues.step a = some q)
      (hrevoker : revoker = none ∨ revoker = s.revokerCl)
        (hretryer : retryer = none ∨ retryer = s.retryerCl) :
      Step s (.queue a) { s with queues := q, revokerCl := revoker, retryerCl := retryer }
  | revokerLookup (c : Option κ) (lid : ℓ) (hpc : s.queues.revokeList.pc = .calling (c, lid)) :
      Step s .revokerLookup { s with
        clientMap := (lookup s.clientMap c).1
        revokerCl := some (lookup s.clientMap c).2 }
  | retryerLookup (id : κ) (lid : ℓ) (hpc : s.queues.retryList.pc = .calling (id, lid)) :
      Step s .retryerLookup { s with
        clientMap := (lookup s.clientMap (some id)).1
        retryerCl := some (lookup s.clientMap (some id)).2 }

theorem step_of_step {s s' : AttachServer κ ℓ} {a : AttachAct κ ℓ} (h : s.step a = some s') :
    Step s a s' := by
  cases a with
  | attach id =>
    simp only [step, AttachServer.attach, Option.ite_none_left_eq_some, Option.some.injEq] at h
    obtain ⟨hmutex,rfl⟩ := h
    exact .attach id hmutex
  | unattach id =>
    simp only [step, AttachServer.unattach, Option.ite_none_left_eq_some, Option.some.injEq] at h
    obtain ⟨hmutex,rfl⟩ := h
    exact .unattach id hmutex
  | queue b =>
    obtain ⟨q,hq,h⟩ := Option.bind_eq_some_iff.mp h
    split at h
    · split_ifs at h
      cases h
      exact .queue _ q none s.retryerCl hq (.inl rfl) (.inr rfl)
    · split_ifs at h
      cases h
      exact .queue _ q s.revokerCl none hq (.inr rfl) (.inl rfl)
    · cases h
      exact .queue b q s.revokerCl s.retryerCl hq (.inr rfl) (.inr rfl)
  | revokerLookup =>
    simp only [step, AttachServer.revokerLookup] at h
    split at h
    · next c lid hpc =>
      simp only [Option.ite_none_right_eq_some, Option.some.injEq] at h
      obtain ⟨-,rfl⟩ := h
      exact .revokerLookup c lid hpc
    · cases h
  | retryerLookup =>
    simp only [step, AttachServer.retryerLookup] at h
    split at h
    · next id lid hpc =>
      simp only [Option.ite_none_right_eq_some, Option.some.injEq] at h
      obtain ⟨-,rfl⟩ := h
      exact .retryerLookup id lid hpc
    · cases h

/-- Whoever may be called is attached, and no call has been made on a null pointer. -/
structure CallsAttached (s : AttachServer κ ℓ) : Prop where
  calls : s.queues.Calls s.Attached
  revoker : s.revokerCl ≠ some .null
  retryer : s.retryerCl ≠ some .null

omit [DecidableEq κ] [DecidableEq ℓ] in
theorem callsAttached_init : (AttachServer.init κ ℓ).CallsAttached :=
  ⟨⟨SignalQueue.all_init,SignalQueue.all_init,.inr nofun,Nat.zero_le 1,fun _ => rfl⟩,nofun,nofun⟩

theorem callsAttached_step {s s' : AttachServer κ ℓ} {a : AttachAct κ ℓ} (h : s.CallsAttached)
    (hfirst : s.AttachesFirst a) (hleft : s.NoEntryLeft a) (hs : Step s a s') :
    s'.CallsAttached := by
  cases hs with
  | attach id hmutex =>
    refine ⟨h.calls.imp fun c hc => ?_,h.revoker,h.retryer⟩
    by_cases hid : c = some id
    · exact hid ▸ Function.update_self _ _ _
    · exact (Function.update_of_ne hid _ _).trans hc
  | unattach id hmutex =>
    -- only the entries of other clients are left, and nobody adds to them any more
    have hothers (c : Option κ) (hid : c ≠ some id) (hc : s.Attached c) :
        Function.update s.clientMap (some id) none c = some .rpcc :=
          (Function.update_of_ne hid _ _).trans hc
    refine ⟨⟨?_,?_,.inl ⟨rfl,h.calls.signals (by simpa using hmutex)⟩,h.calls.one,nofun⟩,h.revoker,
      h.retryer⟩
    · exact h.calls.revokes.imp fun x hx => hothers _ (hleft.1 x hx)
    · exact h.calls.retries.imp fun x hx => hothers _ fun he => hleft.2 x hx (Option.some.inj he)
  | queue b q revoker retryer hq hrevoker hretryer =>
    -- `acquire` queues entries of its caller and of clients that are known already
    have hcalls : q.Calls s.Attached := by
      refine QueueServer.calls_step h.calls ?_ hq
      rintro lid id rfl
      exact hfirst
    refine ⟨hcalls,?_,?_⟩
    · rcases hrevoker with rfl | rfl
      · exact nofun
      · exact h.revoker
    · rcases hretryer with rfl | rfl
      · exact nofun
      · exact h.retryer
  | revokerLookup c lid hpc =>
    have hrpcc := lookup_rpcc (h.calls.revokes.calling hpc)
    exact ⟨h.calls.imp fun _ => lookup_attached,by simp [hrpcc],h.retryer⟩
  | retryerLookup id lid hpc =>
    have hrpcc := lookup_rpcc (h.calls.retries.calling hpc)
    exact ⟨h.calls.imp fun _ => lookup_attached,h.revoker,by simp [hrpcc]⟩

/-- The client has no `rpcc`, and cannot attach again. -/
def Gone (s : AttachServer κ ℓ) (id : κ) : Prop := s.queues.Frozen ∧ ¬ s.Attached (some id)

theorem gone_unattach {s s' : AttachServer κ ℓ} {id : κ} (h : s.CallsAttached)
    (hs : Step s (.unattach id) s') : s'.Gone id := by
  cases hs with
  | unattach id hmutex =>
    refine ⟨⟨rfl,h.calls.signals (by simpa using hmutex)⟩,?_⟩
    simp [Attached]

theorem gone_step {s s' : AttachServer κ ℓ} {a : AttachAct κ ℓ} {id : κ} (h : s.Gone id)
    (hs : Step s a s') : s'.Gone id := by
  obtain ⟨hfrozen,hgone⟩ := h
  cases hs with
  | attach id' hmutex => exact absurd hfrozen.1 hmutex
  | unattach id' hmutex => exact absurd hfrozen.1 hmutex
  | queue b q revoker retryer hq => exact ⟨QueueServer.frozen_step hfrozen hq,hgone⟩
  | revokerLookup c lid hpc => exact ⟨hfrozen,fun hc => hgone (attached_of_lookup hc)⟩
  | retryerLookup id' lid hpc => exact ⟨hfrozen,fun hc => hgone (attached_of_lookup hc)⟩

/-- In a run in which clients attach before they acquire and no entry of a client is left in
either list when it unattaches, the threads call attached clients only, and never one that
has unattached. -/
theorem calls_attached_clients (acts : List (AttachAct κ ℓ)) (s : AttachServer κ ℓ)
    (hrun : run step (.init κ ℓ) acts = some s)
    (hfirst : RunAll step AttachesFirst (.init κ ℓ) acts)
    (hleft : RunAll step NoEntryLeft (.init κ ℓ) acts) :
    (∀ c lid, s.queues.revokeList.pc = .calling (c, lid) → s.Attached c) ∧
    (∀ id lid, s.queues.retryList.pc = .calling (id, lid) → s.Attached (some id)) ∧
    s.revokerCl ≠ some .null ∧ s.retryerCl ≠ some .null ∧
    ∀ id, .unattach id ∈ acts → ∀ lid, s.queues.revokeList.pc ≠ .calling (some id, lid) ∧
      s.queues.retryList.pc ≠ .calling (id, lid) := by
  have hinv : s.CallsAttached ∧ ∀ id, .unattach id ∈ [] ++ acts → s.Gone id := by
    refine run_invariant_done step (fun s a => s.AttachesFirst a ∧ s.NoEntryLeft a)
      (fun done s => s.CallsAttached ∧ ∀ id, .unattach id ∈ done → s.Gone id) ?_ []
        (.init κ ℓ) s acts ⟨callsAttached_init,nofun⟩
      (runAll_and step _ _ _ acts hfirst hleft) hrun
    intro done s a s' hi hP hs
    refine ⟨callsAttached_step hi.1 hP.1 hP.2 (step_of_step hs),fun id hid => ?_⟩
    rcases List.mem_append.mp hid with hid | hid
    · exact gone_step (hi.2 id hid) (step_of_step hs)
    · obtain rfl := List.mem_singleton.mp hid
      exact gone_unattach hi.1 (step_of_step hs)
  obtain ⟨⟨hcalls,hrevoker,hretryer⟩,hgone⟩ := hinv
  refine ⟨fun c lid hpc => hcalls.revokes.calling hpc,fun id lid hpc => hcalls.retries.calling hpc,
    hrevoker,hretryer,?_⟩
  intro id hid lid
  exact ⟨fun hpc => (hgone id hid).2 (hcalls.revokes.calling hpc),
    fun hpc => (hgone id hid).2 (hcalls.retries.calling hpc)⟩

end AttachServer

end
open AttachServer

local instance neZero_lockIds : NeZero 8 := ⟨by decide⟩

/-- Clients 1 and 2 attach; client 1 has lock 5, client 2 waits for it, and client 1 gives it
back. -/
def attachedRequests : List (AttachAct ℕ (Fin 8)) :=
  [.attach 1, .attach 2, .queue (.acquire 5 1), .queue (.acquire 5 2), .queue .revokeSignal,
    .queue (.release 5 1), .queue (.releaseLocked 5 1 true), .queue .retrySignal]

/-- Client 1 unattaches after the revoker has called it. -/
def unattachesLate : List (AttachAct ℕ (Fin 8)) :=
  attachedRequests ++ [.queue (.revoker .check), .queue (.revoker .take), .revokerLookup,
    .queue (.revoker .pop), .unattach 1, .queue (.retryer .check), .queue (.retryer .take),
    .retryerLookup]

theorem calls_attached_clients_late :
    ∃ s, run AttachServer.step (.init ℕ (Fin 8)) unattachesLate = some s ∧
      s.queues.retryList.pc = .calling (2, 5) ∧ s.Attached (some 2) ∧ s.retryerCl ≠ some .null := by
  have hends : ∃ s, run AttachServer.step (.init ℕ (Fin 8)) unattachesLate = some s ∧
      s.queues.retryList.pc = .calling (2, 5) := by
    decide +kernel
  obtain ⟨s,hrun,hpc⟩ := hends
  have hcalls :=
    calls_attached_clients unattachesLate s hrun (by decide +kernel) (by decide +kernel)
  exact ⟨s,hrun,hpc,hcalls.2.1 2 5 hpc,hcalls.2.2.2.1⟩

/-- Client 1 unattaches before the revoker has called it. -/
def unattachesEarly : List (AttachAct ℕ (Fin 8)) :=
  attachedRequests ++ [.unattach 1, .queue (.revoker .check), .queue (.revoker .take),
    .revokerLookup]

/-- Although it has released its lock, the revoker takes its entry and finds a null pointer. -/
theorem calls_unattached_client :
    RunAll AttachServer.step AttachesFirst (.init ℕ (Fin 8)) unattachesEarly ∧
    RunAll AttachServer.step ReleasesFirst (.init ℕ (Fin 8)) unattachesEarly ∧
    ∃ s, run AttachServer.step (.init ℕ (Fin 8)) unattachesEarly = some s ∧
      s.queues.revokeList.pc = .calling (some 1, 5) ∧ ¬ s.Attached (some 1) ∧
      s.revokerCl = some .null := by
  decide +kernel

end Yfs.Lock
