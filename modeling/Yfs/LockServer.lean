import Yfs.CallQueue
import Mathlib.Data.Int.Notation
import Mathlib.Logic.Function.Basic

/-! `lock_server_cache`: the handlers `acquire` and `release`. The client id `""`
that stands for no client is `none`. -/
namespace Yfs.Lock

/-- The statuses that the protocol's parties tell apart; `other` is any further
one, a negative result of a failed RPC included. -/
inductive Ret
  | ok
  | retry
  | other (code : ℤ)
  deriving DecidableEq

inductive Status
  | opened
  | locked
  deriving DecidableEq

structure LockStatus (κ : Type*) where
  status : Status
  waitingClient : List κ
  lockClient : Option κ
  revokeMap : Option κ → Bool

/-- `retry_list` and `revoke_list` with the threads that serve them.
`statusMutex` is true when a handler has returned without unlocking it. -/
structure Server (κ ℓ : Type*) where
  lockStatusMap : ℓ → Option (LockStatus κ)
  retryList : CallQueue (κ × ℓ)
  revokeList : CallQueue (Option κ × ℓ)
  statusMutex : Bool

def Server.init (κ ℓ : Type*) : Server κ ℓ := ⟨fun _ => none, .empty, .empty, false⟩

section
variable {κ ℓ : Type*} [DecidableEq κ]

/-- What `acquire` does to the lock: its new entry, the client it queues a
revoke for, and the answer. -/
structure Acquired (κ : Type*) where
  entry : LockStatus κ
  revoke : Option (Option κ)
  ret : Ret

def acquireEntry (e : Option (LockStatus κ)) (id : κ) : Acquired κ :=
  match e with
  | some e =>
    if e.status = .opened then
      -- with others waiting, the lock is revoked as soon as it is granted
      if e.waitingClient.length ≠ 0 then
        ⟨{ e with
            status := .locked
            lockClient := some id
            revokeMap := Function.update e.revokeMap (some id) true }, some (some id), .ok⟩
      else
        ⟨{ e with
            status := .locked
            lockClient := some id
            revokeMap := Function.update e.revokeMap (some id) false }, none, .ok⟩
    -- the owner is asked for the lock once, however many clients wait
    else if e.revokeMap e.lockClient = false then
      ⟨{ e with
          revokeMap := Function.update e.revokeMap e.lockClient true
          waitingClient := e.waitingClient ++ [id] }, some e.lockClient, .retry⟩
    else ⟨{ e with waitingClient := e.waitingClient ++ [id] }, none, .retry⟩
  -- the first `acquire` of the lock
  | none => ⟨⟨.locked, [], some id, Function.update (fun _ => false) (some id) false⟩, none, .ok⟩

/-- What every `release` does to the lock. -/
def openEntry (e : LockStatus κ) (id : κ) : LockStatus κ :=
  { e with
    status := .opened, lockClient := none, revokeMap := Function.update e.revokeMap
      (some id) false }

/-- What `release` does to a LOCKED lock, whoever asks for it: the new entry, and
the waiting client that is to be told to retry. -/
def releaseEntry (e : LockStatus κ) (id : κ) : LockStatus κ × Option κ :=
  match e.waitingClient with
  | [] => (openEntry e id, none)
  -- the lock stays open until the client that is told to retry, or another, asks
  | w :: ws => ({ openEntry e id with waitingClient := ws }, some w)

variable [DecidableEq ℓ]

/-- `none` where the handler blocks on `statusMutex`. -/
def Server.acquire (s : Server κ ℓ) (lid : ℓ) (id : κ) : Option (Server κ ℓ × Ret) :=
  let r := acquireEntry (s.lockStatusMap lid) id
  if s.statusMutex = true then none
  else some (
    { s with
      lockStatusMap := Function.update s.lockStatusMap lid (some r.entry)
      revokeList :=
        match r.revoke with
        | none => s.revokeList
        | some c => s.revokeList.push (c, lid) }, r.ret)

/-- Without a waiting client the handler returns with `statusMutex` locked. An
answer of `none` is the uninitialised `ret`. -/
def Server.release (s : Server κ ℓ) (lid : ℓ) (id : κ) : Option (Server κ ℓ × Option Ret) :=
  match s.lockStatusMap lid with
  | none => some (s, none)
  | some e =>
    if e.status = .locked then
      let r := releaseEntry e id
      if s.statusMutex = true then none
      else some (
        { s with
          lockStatusMap := Function.update s.lockStatusMap lid (some r.1)
          retryList :=
            match r.2 with
            | none => s.retryList
            | some w => s.retryList.push (w, lid)
          statusMutex := r.2.isNone }, some .ok)
    else some (s, none)

end
end Yfs.Lock
