import Yfs.LockServer

/-! `lock_client_cache`: each critical section under `lockMap` as a function of the
client's state. A section that makes an RPC is cut at the call: `call` then says
what the thread inside is waiting for, and no other section of the client can be
entered. A thread parked on a condition variable may wake up at any time. -/
namespace Yfs.Lock

inductive LockSt
  | none
  | free
  | locked
  | acquiring
  | releasing
  deriving DecidableEq

/-- An acquire RPC on its way to the server, or answered. -/
inductive AcqPhase
  | sent
  | answered (r : Ret)
  deriving DecidableEq

/-- The releaser in `dorelease`, with its release RPC on the way, or answered. -/
inductive RelPhase
  | flushing
  | sent
  | answered
  deriving DecidableEq

/-- Why `lockMap` is held: thread `t` is in `call_to_server`, for the second or a
later time in one `acquire` if `again`, or the releaser is giving the lock back. -/
inductive Call (τ ℓ : Type*)
  | acquire (t : τ) (lid : ℓ) (again : Bool) (p : AcqPhase)
  | release (lid : ℓ) (p : RelPhase)
  deriving DecidableEq

/-- Where a thread stands in `acquire`: at the top of `while(1)` or parked on
`lock_check_cond`, inside `call_to_server`, or parked on `retry_check_cond`. -/
inductive Pc (ℓ : Type*)
  | idle
  | looping (lid : ℓ)
  | calling (lid : ℓ)
  | retrying (lid : ℓ)
  deriving DecidableEq

/-- `held t lid`: thread `t` is between a returned `acquire` and its `release`. -/
structure Client (τ ℓ : Type*) where
  lockMap : ℓ → Option LockSt
  retryMap : ℓ → Bool
  revokeList : List ℓ
  revokerThreadStatus : Bool
  call : Option (Call τ ℓ)
  pc : τ → Pc ℓ
  held : τ → ℓ → Bool

def Client.init (τ ℓ : Type*) : Client τ ℓ :=
  ⟨fun _ => none, fun _ => false, [], false, none, fun _ => .idle, fun _ _ => false⟩

namespace Client
variable {τ ℓ : Type*} [DecidableEq τ] [DecidableEq ℓ]

def setStatus (c : Client τ ℓ) (lid : ℓ) (st : LockSt) : Client τ ℓ :=
  { c with lockMap := Function.update c.lockMap lid (some st) }

def setRetry (c : Client τ ℓ) (lid : ℓ) (b : Bool) : Client τ ℓ :=
  { c with retryMap := Function.update c.retryMap lid b }

def setPc (c : Client τ ℓ) (t : τ) (p : Pc ℓ) : Client τ ℓ :=
  { c with pc := Function.update c.pc t p }

def setHeld (c : Client τ ℓ) (t : τ) (lid : ℓ) (b : Bool) : Client τ ℓ :=
  { c with held := Function.update c.held t (Function.update (c.held t) lid b) }

def setCall (c : Client τ ℓ) (a : Option (Call τ ℓ)) : Client τ ℓ := { c with call := a }

/-- `acquire` returns OK to thread `t`. -/
def returnOk (c : Client τ ℓ) (t : τ) (lid : ℓ) : Client τ ℓ :=
  ((c.setCall none).setPc t .idle).setHeld t lid true

def callToServer (c : Client τ ℓ) (t : τ) (lid : ℓ) (again : Bool) : Client τ ℓ :=
  (c.setCall (some (.acquire t lid again .sent))).setPc t (.calling lid)

/-- The first critical section of `acquire`. -/
def acquire (c : Client τ ℓ) (t : τ) (lid : ℓ) : Option (Client τ ℓ) :=
  if c.call.isSome ∨ c.pc t ≠ .idle then none
  else match c.lockMap lid with
    | none => some (((c.setPc t (.looping lid)).setStatus lid .none).setRetry lid false)
    | some _ => some (c.setPc t (.looping lid))

/-- One pass of `while(1)` up to its first wait or RPC. -/
def acquireLoop (c : Client τ ℓ) (t : τ) : Option (Client τ ℓ) :=
  match c.pc t with
  | .looping lid =>
    if c.call.isSome then none
    else match c.lockMap lid with
      | none => none -- `lock_map[lid]` would be a null pointer
      | some .none => some (c.callToServer t lid false)
      | some .free => some ((c.setStatus lid .locked).returnOk t lid)
      -- parked on `lock_check_cond`, to look again after waking up
      | some _ => some c
  | _ => none

/-- One pass of `while(server_lock_status == RETRY)`. -/
def retryLoop (c : Client τ ℓ) (t : τ) (lid : ℓ) : Client τ ℓ :=
  -- no retry has come in yet, so the thread parks; one that came in during the RPC
  -- makes it ask again at once
  if c.retryMap lid = false then
    ((c.setStatus lid .acquiring).setCall none).setPc t (.retrying lid)
  else (c.setStatus lid .acquiring).callToServer t lid true

/-- `acquire` from the return of `call_to_server` to the next wait, RPC or end.
A status that is neither OK nor RETRY ends `acquire` with OK. -/
def acquireReturn (c : Client τ ℓ) : Option (Client τ ℓ) :=
  match c.call with
  | some (.acquire t lid false (.answered r)) =>
    match r with
    | .ok => some ((c.setStatus lid .locked).returnOk t lid)
    | .retry => some (c.retryLoop t lid)
    | .other _ => some (c.returnOk t lid)
  | some (.acquire t lid true (.answered r)) =>
    match r with
    | .ok => some (((c.setStatus lid .locked).setRetry lid false).returnOk t lid)
    | .retry => some ((c.setRetry lid false).retryLoop t lid)
    | .other _ => some ((c.setRetry lid false).returnOk t lid)
  | _ => none

def wake (c : Client τ ℓ) (t : τ) : Option (Client τ ℓ) :=
  match c.pc t with
  | .retrying lid => if c.call.isSome then none else some (c.retryLoop t lid)
  | _ => none

/-- `release`, by a thread that acquired the lock. -/
def release (c : Client τ ℓ) (t : τ) (lid : ℓ) : Option (Client τ ℓ) :=
  if c.call.isSome ∨ c.pc t ≠ .idle ∨ c.held t lid = false ∨ c.lockMap lid = none then none
  -- a lock that was revoked meanwhile is left to the releaser
  else if lid ∈ c.revokeList then
    some { (c.setHeld t lid false).setStatus lid .releasing with revokerThreadStatus := true }
  else some ((c.setHeld t lid false).setStatus lid .free)

def revokeHandler (c : Client τ ℓ) (lid : ℓ) : Option (Client τ ℓ) :=
  if c.call.isSome then none
  else match c.lockMap lid with
    | none => none -- a null pointer again
    -- nobody uses it here, so it goes back at once
    | some .free => some { c.setStatus lid .releasing with
        revokerThreadStatus := true
        revokeList := c.revokeList ++ [lid] }
    | some _ => some { c with revokeList := c.revokeList ++ [lid] }

def retryHandler (c : Client τ ℓ) (lid : ℓ) : Option (Client τ ℓ) :=
  if c.call.isSome then none else some (c.setRetry lid true)

/-- One round of `releaser` up to its RPC: the first lock of `revoke_list` that is
RELEASING becomes NONE. A lock gets into the list only once it has an entry. -/
def releaser (c : Client τ ℓ) : Option (Client τ ℓ) :=
  if c.call.isSome then none
  else match c.revokeList.find? (fun lid => c.lockMap lid = some .releasing) with
    | none => some { c with revokerThreadStatus := false }
    | some lid => some ((c.setStatus lid .none).setCall (some (.release lid .flushing)))

/-- The rest of the round. The erased position is the first with its lock: an
earlier one would have been RELEASING too. -/
def releaserEnd (c : Client τ ℓ) : Option (Client τ ℓ) :=
  match c.call with
  | some (.release lid .answered) => some { c with
      call := none
      revokeList := c.revokeList.erase lid
      revokerThreadStatus := false }
  | _ => none

end Client
end Yfs.Lock
