import Yfs.LockServer
import Yfs.SignalQueue
import Yfs.Run

/-! The lists between the handlers of `lock_server_cache` and its revoker and retryer
threads. The handlers push under `statusMutex`, the threads look under a mutex of their
own, and `acquire` signals before it unlocks `statusMutex`, `release` after. -/
namespace Yfs.Lock

/-- `statusMutex` is locked while `acquire` has a signal to make, and for ever once
`release` has returned without unlocking it. `releases` are the calls of `release` that
have found their lock LOCKED, with or without waiting clients, and wait for the mutex. -/
structure QueueServer (κ ℓ : Type*) where
  lockStatusMap : ℓ → Option (LockStatus κ)
  revokeList : SignalQueue (Option κ × ℓ)
  retryList : SignalQueue (κ × ℓ)
  statusMutex : Bool
  releases : List (ℓ × κ × Bool)

def QueueServer.init (κ ℓ : Type*) : QueueServer κ ℓ := ⟨fun _ => none, .init, .init, false, []⟩

inductive QueueAct (κ ℓ : Type*)
  | acquire (lid : ℓ) (id : κ)
  | revokeSignal
  | release (lid : ℓ) (id : κ)
  | releaseLocked (lid : ℓ) (id : κ) (waiting : Bool)
  | retrySignal
  | revoker (a : ConsumerAct)
  | retryer (a : ConsumerAct)

section
variable {κ ℓ : Type*} [DecidableEq κ] [DecidableEq ℓ]

namespace QueueServer

def acquire (s : QueueServer κ ℓ) (lid : ℓ) (id : κ) : Option (QueueServer κ ℓ) :=
  let r := acquireEntry (s.lockStatusMap lid) id
  let t := { s with lockStatusMap := Function.update s.lockStatusMap lid (some r.entry) }
  if s.statusMutex = true then none
  else match r.revoke with
    | none => some t
    | some c => some { t with revokeList := s.revokeList.push (c, lid), statusMutex := true }

/-- `revoke_to_send` is set: the signal and the unlock at the end of `acquire`. -/
def revokeSignal (s : QueueServer κ ℓ) : Option (QueueServer κ ℓ) :=
  s.revokeList.signal.map fun q => { s with revokeList := q, statusMutex := false }

/-- `release` looks at the lock before it locks `statusMutex`. -/
def release (s : QueueServer κ ℓ) (lid : ℓ) (id : κ) : Option (QueueServer κ ℓ) :=
  match s.lockStatusMap lid with
  | none => some s
  | some e =>
    if e.status = .locked then
      some { s with releases := (lid, id, decide (e.waitingClient.length ≠ 0)) :: s.releases }
    else some s

/-- The rest of `release`, by what it has seen: the clients that wait may be others by
now, or none. -/
def releaseLocked (s : QueueServer κ ℓ) (lid : ℓ) (id : κ) (waiting : Bool) :
    Option (QueueServer κ ℓ) :=
  if s.statusMutex = true ∨ (lid, id, waiting) ∉ s.releases then none
  else match s.lockStatusMap lid with
    | none => none
    | some e =>
      let rest := s.releases.erase (lid, id, waiting)
      if waiting = false then
        some { s with
          lockStatusMap := Function.update s.lockStatusMap lid (some (openEntry e id))
          statusMutex := true
          releases := rest }
      else match e.waitingClient with
        | [] => none -- `front()` of an empty list of clients
        | w :: ws => some { s with
            lockStatusMap := Function.update s.lockStatusMap lid
              (some { openEntry e id with waitingClient := ws })
            retryList := s.retryList.push (w, lid)
            releases := rest }

def step (s : QueueServer κ ℓ) : QueueAct κ ℓ → Option (QueueServer κ ℓ)
  | .acquire lid id => s.acquire lid id
  | .revokeSignal => s.revokeSignal
  | .release lid id => s.release lid id
  | .releaseLocked lid id waiting => s.releaseLocked lid id waiting
  | .retrySignal => s.retryList.signal.map fun q => { s with retryList := q }
  | .revoker a => (s.revokeList.consume a).map fun q => { s with revokeList := q }
  | .retryer a => (s.retryList.consume a).map fun q => { s with retryList := q }

/-- No wake-up of a parked thread finds its list empty, and no signal comes between a
thread's test of its list and its wait. -/
def InTime (s : QueueServer κ ℓ) : QueueAct κ ℓ → Prop
  | .revokeSignal => s.revokeList.SignalInTime
  | .retrySignal => s.retryList.SignalInTime
  | .revoker a => s.revokeList.ConsumesInTime a
  | .retryer a => s.retryList.ConsumesInTime a
  | _ => True

instance decidableInTime (s : QueueServer κ ℓ) : ∀ a, Decidable (s.InTime a)
  | .revokeSignal => inferInstanceAs (Decidable s.revokeList.SignalInTime)
  | .retrySignal => inferInstanceAs (Decidable s.retryList.SignalInTime)
  | .revoker a => inferInstanceAs (Decidable (s.revokeList.ConsumesInTime a))
  | .retryer a => inferInstanceAs (Decidable (s.retryList.ConsumesInTime a))
  | .acquire .. | .release .. | .releaseLocked .. => isTrue trivial

/-- The lists with their threads are as they should be. -/
def QueuesOk (s : QueueServer κ ℓ) : Prop := s.revokeList.Ok ∧ s.retryList.Ok

theorem queuesOk_step (s : QueueServer κ ℓ) (a : QueueAct κ ℓ) (s' : QueueServer κ ℓ)
    (h : s.QueuesOk) (hin : s.InTime a) (hs : s.step a = some s') : s'.QueuesOk := by
  -- the handlers push, and the conditions are on those who signal and wake up
  cases a with
  | acquire lid id =>
    simp only [step, acquire, Option.ite_none_left_eq_some] at hs
    obtain ⟨_,hs⟩ := hs
    split at hs <;> cases hs
    · exact h
    · exact ⟨SignalQueue.ok_push _ _ h.1, h.2⟩
  | revokeSignal =>
    obtain ⟨q,hq,rfl⟩ := Option.map_eq_some_iff.mp hs
    exact ⟨SignalQueue.ok_signal _ q h.1 hin hq, h.2⟩
  | release lid id =>
    simp only [step, release] at hs
    split at hs
    · cases hs
      exact h
    · split_ifs at hs <;> cases hs <;> exact h
  | releaseLocked lid id waiting =>
    simp only [step, releaseLocked, Option.ite_none_left_eq_some] at hs
    obtain ⟨_,hs⟩ := hs
    split at hs
    · cases hs
    · split_ifs at hs
      · cases hs
        exact h
      · split at hs <;> cases hs
        exact ⟨h.1, SignalQueue.ok_push _ _ h.2⟩
  | retrySignal =>
    obtain ⟨q,hq,rfl⟩ := Option.map_eq_some_iff.mp hs
    exact ⟨h.1, SignalQueue.ok_signal _ q h.2 hin hq⟩
  | revoker a =>
    obtain ⟨q,hq,rfl⟩ := Option.map_eq_some_iff.mp hs
    exact ⟨SignalQueue.ok_consume _ q a h.1 hin hq, h.2⟩
  | retryer a =>
    obtain ⟨q,hq,rfl⟩ := Option.map_eq_some_iff.mp hs
    exact ⟨h.1, SignalQueue.ok_consume _ q a h.2 hin hq⟩

/-- In a run without such wake-ups and signals neither thread takes the front of an
empty list or is parked with an entry in its list and no signal to come. -/
theorem queues_drained_soundly (acts : List (QueueAct κ ℓ)) (s : QueueServer κ ℓ)
    (hrun : run step (.init κ ℓ) acts = some s) (hin : RunAll step InTime (.init κ ℓ) acts) :
    s.revokeList.Sound ∧ s.retryList.Sound := by
  have h : s.QueuesOk := run_invariant_of_all step InTime QueuesOk
    (fun s a s' => queuesOk_step s a s') _ s acts
    ⟨SignalQueue.ok_init, SignalQueue.ok_init⟩ hin hrun
  exact ⟨SignalQueue.sound_of_ok _ h.1, SignalQueue.sound_of_ok _ h.2⟩

end QueueServer
end
open QueueServer

/-- Client 1 has lock 5, client 2 waits for it and client 1 gives it back. -/
def requests : List (QueueAct ℕ ℕ) :=
  [.acquire 5 1, .acquire 5 2, .revokeSignal, .release 5 1, .releaseLocked 5 1 true]

/-- A thread is woken up with nothing to do, without a signal, or by the signal for an
entry that it has dealt with before; and the signal for a revoke is lost between the
revoker's test and its wait. -/
theorem queues_not_drained :
    (∃ s, run QueueServer.step (.init ℕ ℕ) [.revoker .check, .revoker .park, .revoker .wake,
      .revoker .take] = some s ∧
      s.revokeList.pc = .undefined) ∧
    (∃ s, run QueueServer.step (.init ℕ ℕ)
      (requests ++ [.retryer .check, .retryer .take, .retryer .pop,
        .retryer .check, .retryer .park, .retrySignal, .retryer .take]) = some s ∧
      s.retryList.pc = .undefined) ∧
    ∃ s, run QueueServer.step (.init ℕ ℕ) ([.revoker .check] ++ requests ++ [.revoker .park]) =
    some s ∧
      s.revokeList.pc = .parked ∧ s.revokeList.items = [(some 1, 5)] ∧
      s.revokeList.signals = 0 := by
  exact ⟨⟨_, rfl, rfl⟩, ⟨_, rfl, rfl⟩, ⟨_, rfl, rfl, rfl, rfl⟩⟩

/-- Both threads are parked when their signals come. -/
def requestsInTime : List (QueueAct ℕ ℕ) :=
  [.revoker .check, .revoker .park, .retryer .check, .retryer .park] ++ requests ++
    [.retrySignal, .revoker .take, .retryer .take]

theorem queues_drained_soundly_in_time :
    ∃ s, run QueueServer.step (.init ℕ ℕ) requestsInTime = some s ∧
      s.revokeList.pc = .calling (some 1, 5) ∧
      s.retryList.pc = .calling (2, 5) ∧ s.revokeList.Sound ∧ s.retryList.Sound := by
  have hends : ∃ s, run QueueServer.step (.init ℕ ℕ) requestsInTime = some s ∧
      s.revokeList.pc = .calling (some 1, 5) ∧ s.retryList.pc = .calling (2, 5) := by
    decide
  obtain ⟨s,hrun,hrevoke,hretry⟩ := hends
  have hall : RunAll QueueServer.step InTime (.init ℕ ℕ) requestsInTime := by decide
  exact ⟨s, hrun, hrevoke, hretry, queues_drained_soundly requestsInTime s hrun hall⟩

end Yfs.Lock
