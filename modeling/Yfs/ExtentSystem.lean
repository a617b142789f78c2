import Yfs.Extent
import Yfs.LockHeld
import Yfs.LockedStore

/-! Any number of clients, each a lock client and an extent cache that is flushed
when a lock is given back, with the lock server and the extent server. A `get` that
misses is cut at its RPCs. -/
namespace Yfs.Extent

/-- Where a thread stands in `extent_client::get`: outside, about to fetch the
content, about to fetch the attributes, or about to fill the cache. -/
inductive GetPc (ε β : Type*)
  | idle
  | missed (eid : ε)
  | fetched (eid : ε) (buf : List β)
  | described (eid : ε) (buf : List β) (attr : Attr)

/-- `events` is the history of completed operations; a thread of the system is a
client with one of its threads. -/
structure World (κ τ ε β : Type*) where
  caches : κ → Client ε β
  server : Server ε β
  getPc : κ → τ → GetPc ε β
  events : List (StoreEv (κ × τ) ε (List β))

abbrev Sys (κ τ ε β : Type*) := Lock.Sys κ τ ε (World κ τ ε β)

inductive Act (κ τ ε β : Type*)
  | lock (a : Lock.Act κ τ ε) (env : Env)
  | get (i : κ) (t : τ) (eid : ε) (env : Env)
  | fetch (i : κ) (t : τ) (env : Env)
  | getattr (i : κ) (t : τ)
  | insert (i : κ) (t : τ)
  | put (i : κ) (t : τ) (eid : ε) (env : Env) (buf : List β)
  | remove (i : κ) (t : τ) (eid : ε)

section
variable {κ τ ε β : Type*} [DecidableEq κ] [DecidableEq τ] [DecidableEq ε]

def init (κ τ : Type*) (s : Server ε β) : Sys κ τ ε β :=
  Lock.Sys.init κ τ ε ⟨fun _ => .empty, s, fun _ _ => .idle, []⟩

namespace World

def setCache (w : World κ τ ε β) (i : κ) (c : Client ε β) : World κ τ ε β :=
  { w with caches := Function.update w.caches i c }

def setGetPc (w : World κ τ ε β) (i : κ) (t : τ) (p : GetPc ε β) : World κ τ ε β :=
  { w with getPc := Function.update w.getPc i (Function.update (w.getPc i) t p) }

def log (w : World κ τ ε β) (evs : List (StoreEv (κ × τ) ε (List β))) : World κ τ ε β :=
  { w with events := w.events ++ evs }

end World

/-- `lock_release_cache_user::dorelease`. -/
def dorelease (env : Env) (i : κ) (lid : ε) (w : World κ τ ε β) : Option (World κ τ ε β) :=
  ((w.caches i).flush w.server env lid).map fun r => { w.setCache i r.1 with server := r.2 }

def GetPc.isIdle : GetPc ε β → Bool
  | .idle => true
  | _ => false

/-- The step is a call of `acquire` or `release` by a thread that is inside `get`. -/
def callsInGet (w : World κ τ ε β) : Lock.Act κ τ ε → Bool
  | .acquire i t _ => !(w.getPc i t).isIdle
  | .release i t _ => !(w.getPc i t).isIdle
  | _ => false

/-- The operation that a step of the lock system completes. -/
def lockEvents (s : Sys κ τ ε β) : Lock.Act κ τ ε → List (StoreEv (κ × τ) ε (List β))
  | .release i t lid => [.release (i, t) lid]
  | a => ((Lock.acquired s a).map fun x => .acquire (x.1, x.2.1) x.2.2).toList

/-- The thread is at liberty to start `get` or `put` on an extent it has locked. -/
def CanUse (s : Sys κ τ ε β) (i : κ) (t : τ) (eid : ε) : Prop :=
  (s.clients i).pc t = .idle ∧ (s.clients i).held t eid = true ∧ (s.world.getPc i t).isIdle = true

instance (s : Sys κ τ ε β) (i : κ) (t : τ) (eid : ε) : Decidable (CanUse s i t eid) := by
  unfold CanUse
  infer_instance

/-- `r` says whether `extent_client::remove` is called at all. -/
def step (r : Bool) (s : Sys κ τ ε β) : Act κ τ ε β → Option (Sys κ τ ε β)
  | .lock a env =>
    if callsInGet s.world a = true then none
    else (Lock.step (dorelease env) s a).map fun s' =>
      { s' with world := s'.world.log (lockEvents s a) }
  | .get i t eid env =>
    if CanUse s i t eid then
      match (s.world.caches i).lookup env eid with
      | some (buf, c) => some { s with world := (s.world.setCache i c).log [.get (i, t) eid buf] }
      | none => some { s with world := s.world.setGetPc i t (.missed eid) }
    else none
  | .fetch i t env =>
    match s.world.getPc i t with
    | .missed eid => (s.world.server.get env eid).map fun r =>
        { s with world := { s.world.setGetPc i t (.fetched eid r.1) with server := r.2 } }
    | _ => none
  | .getattr i t =>
    match s.world.getPc i t with
    | .fetched eid buf => ((s.world.caches i).getattr s.world.server eid).map fun attr =>
        { s with world := s.world.setGetPc i t (.described eid buf attr) }
    | _ => none
  | .insert i t =>
    match s.world.getPc i t with
    | .described eid buf attr => some { s with
        world := ((s.world.setCache i ((s.world.caches i).insert eid buf attr)).setGetPc
          i t .idle).log
          [.get (i, t) eid buf] }
    | _ => none
  | .put i t eid env buf =>
    if CanUse s i t eid then
      some { s with
        world := (s.world.setCache i ((s.world.caches i).put env eid buf)).log
          [.put (i, t) eid buf] }
    else none
  | .remove i t eid =>
    if r = true ∧ CanUse s i t eid then
      some { s with world := s.world.setCache i ((s.world.caches i).remove eid).2 }
    else none

end
end Yfs.Extent
