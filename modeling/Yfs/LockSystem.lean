import Yfs.LockClient
import Yfs.Run

/-! Any number of lock clients with any number of threads, the lock server and its
retryer and revoker threads. Every RPC is delivered exactly once: a call is made,
handled and answered in three steps, and other parties move in between. -/
namespace Yfs.Lock

/-- `answered` records the server's last answer to each client, for the history.
`world` is what `dorelease` works on. -/
structure Sys (κ τ ℓ ω : Type*) where
  clients : κ → Client τ ℓ
  server : Server κ ℓ
  answered : κ → ℓ → Option Ret
  world : ω

inductive Act (κ τ ℓ : Type*)
  | acquire (i : κ) (t : τ) (lid : ℓ)
  | acquireLoop (i : κ) (t : τ)
  | serverAcquire (i : κ)
  | acquireReturn (i : κ)
  | wake (i : κ) (t : τ)
  | release (i : κ) (t : τ) (lid : ℓ)
  | revoke
  | revokePop
  | retry
  | retryPop
  | releaser (i : κ)
  | dorelease (i : κ)
  | serverRelease (i : κ)
  | releaserEnd (i : κ)

def Sys.init (κ τ ℓ : Type*) {ω : Type*} (w : ω) : Sys κ τ ℓ ω :=
  ⟨fun _ => .init τ ℓ, .init κ ℓ, fun _ _ => none, w⟩

section
variable {κ τ ℓ ω : Type*} [DecidableEq κ] [DecidableEq τ] [DecidableEq ℓ]

def Sys.setClient (s : Sys κ τ ℓ ω) (i : κ) (c : Client τ ℓ) : Sys κ τ ℓ ω :=
  { s with clients := Function.update s.clients i c }

def Sys.setCall (s : Sys κ τ ℓ ω) (i : κ) (a : Call τ ℓ) : Sys κ τ ℓ ω :=
  s.setClient i ((s.clients i).setCall (some a))

/-- `dorelease i lid w` is `lu->dorelease(lid)` at client `i`; `none` if it does
not return. -/
def step (dorelease : κ → ℓ → ω → Option ω) (s : Sys κ τ ℓ ω) : Act κ τ ℓ → Option (Sys κ τ ℓ ω)
  | .acquire i t lid => ((s.clients i).acquire t lid).map (s.setClient i)
  | .acquireLoop i t => ((s.clients i).acquireLoop t).map (s.setClient i)
  | .serverAcquire i =>
    match (s.clients i).call with
    | some (.acquire t lid again .sent) =>
      (s.server.acquire lid i).map fun r =>
        { s.setCall i (.acquire t lid again (.answered r.2)) with
          server := r.1
          answered := Function.update s.answered i (Function.update (s.answered i) lid (some r.2)) }
    | _ => none
  | .acquireReturn i => (s.clients i).acquireReturn.map (s.setClient i)
  | .wake i t => ((s.clients i).wake t).map (s.setClient i)
  | .release i t lid => ((s.clients i).release t lid).map (s.setClient i)
  | .revoke =>
    match s.server.revokeList.deliver with
    | some ((some i, lid), q) =>
      ((s.clients i).revokeHandler lid).map fun c =>
        { s.setClient i c with server := { s.server with revokeList := q } }
    | _ => none
  | .revokePop =>
    s.server.revokeList.pop.map fun q => { s with server := { s.server with revokeList := q } }
  | .retry =>
    match s.server.retryList.deliver with
    | some ((i, lid), q) =>
      ((s.clients i).retryHandler lid).map fun c =>
        { s.setClient i c with server := { s.server with retryList := q } }
    | none => none
  | .retryPop =>
    s.server.retryList.pop.map fun q => { s with server := { s.server with retryList := q } }
  | .releaser i => (s.clients i).releaser.map (s.setClient i)
  | .dorelease i =>
    match (s.clients i).call with
    | some (.release lid .flushing) =>
      (dorelease i lid s.world).map fun w => { s.setCall i (.release lid .sent) with world := w }
    | _ => none
  | .serverRelease i =>
    match (s.clients i).call with
    | some (.release lid .sent) =>
      (s.server.release lid i).map fun r =>
        { s.setCall i (.release lid .answered) with server := r.1 }
    | _ => none
  | .releaserEnd i => (s.clients i).releaserEnd.map (s.setClient i)

/-- The cases of a step, with what it finds: a section of one client, an RPC that the server
handles, or one that its threads make. -/
inductive SysStep (dorelease : κ → ℓ → ω → Option ω) (s : Sys κ τ ℓ ω) :
    Act κ τ ℓ → Sys κ τ ℓ ω → Prop
  | acquire (i : κ) (t : τ) (lid : ℓ) (c : Client τ ℓ) (hc : (s.clients i).acquire t lid = some c) :
      SysStep dorelease s (.acquire i t lid) (s.setClient i c)
  | acquireLoop (i : κ) (t : τ) (c : Client τ ℓ) (hc : (s.clients i).acquireLoop t = some c) :
      SysStep dorelease s (.acquireLoop i t) (s.setClient i c)
  | serverAcquire (i : κ) (t : τ) (lid : ℓ) (again : Bool) (srv : Server κ ℓ) (r : Ret)
      (hcall : (s.clients i).call = some (.acquire t lid again .sent))
        (hr : s.server.acquire lid i = some (srv, r)) :
      SysStep dorelease s (.serverAcquire i) { s.setCall i (.acquire t lid again (.answered r)) with
        server := srv
        answered := Function.update s.answered i (Function.update (s.answered i) lid (some r)) }
  | acquireReturn (i : κ) (c : Client τ ℓ) (hc : (s.clients i).acquireReturn = some c) :
      SysStep dorelease s (.acquireReturn i) (s.setClient i c)
  | wake (i : κ) (t : τ) (c : Client τ ℓ) (hc : (s.clients i).wake t = some c) :
      SysStep dorelease s (.wake i t) (s.setClient i c)
  | release (i : κ) (t : τ) (lid : ℓ) (c : Client τ ℓ) (hc : (s.clients i).release t lid = some c) :
      SysStep dorelease s (.release i t lid) (s.setClient i c)
  | revoke (i : κ) (lid : ℓ) (q : CallQueue (Option κ × ℓ)) (c : Client τ ℓ)
      (hq : s.server.revokeList.deliver = some ((some i, lid), q))
        (hc : (s.clients i).revokeHandler lid = some c) :
      SysStep dorelease s .revoke { s.setClient i c with
        server := { s.server with revokeList := q } }
  | revokePop (q : CallQueue (Option κ × ℓ)) (hq : s.server.revokeList.pop = some q) :
      SysStep dorelease s .revokePop { s with server := { s.server with revokeList := q } }
  | retry (i : κ) (lid : ℓ) (q : CallQueue (κ × ℓ)) (c : Client τ ℓ)
      (hq : s.server.retryList.deliver = some ((i, lid), q))
        (hc : (s.clients i).retryHandler lid = some c) :
      SysStep dorelease s .retry { s.setClient i c with server := { s.server with retryList := q } }
  | retryPop (q : CallQueue (κ × ℓ)) (hq : s.server.retryList.pop = some q) :
      SysStep dorelease s .retryPop { s with server := { s.server with retryList := q } }
  | releaser (i : κ) (c : Client τ ℓ) (hc : (s.clients i).releaser = some c) :
      SysStep dorelease s (.releaser i) (s.setClient i c)
  | dorelease (i : κ) (lid : ℓ) (w : ω) (hcall : (s.clients i).call = some (.release lid .flushing))
      (hw : dorelease i lid s.world = some w) :
      SysStep dorelease s (.dorelease i) { s.setCall i (.release lid .sent) with world := w }
  | serverRelease (i : κ) (lid : ℓ) (srv : Server κ ℓ) (r : Option Ret)
      (hcall : (s.clients i).call = some (.release lid .sent))
        (hr : s.server.release lid i = some (srv, r)) :
      SysStep dorelease s (.serverRelease i) { s.setCall i (.release lid .answered) with
        server := srv }
  | releaserEnd (i : κ) (c : Client τ ℓ) (hc : (s.clients i).releaserEnd = some c) :
      SysStep dorelease s (.releaserEnd i) (s.setClient i c)

theorem sysStep_of_step {dorelease : κ → ℓ → ω → Option ω} {s s' : Sys κ τ ℓ ω} {a : Act κ τ ℓ}
    (h : step dorelease s a = some s') : SysStep dorelease s a s' := by
  cases a with
  | acquire i t lid =>
    obtain ⟨c,hc,rfl⟩ := Option.map_eq_some_iff.mp h
    exact .acquire i t lid c hc
  | acquireLoop i t =>
    obtain ⟨c,hc,rfl⟩ := Option.map_eq_some_iff.mp h
    exact .acquireLoop i t c hc
  | serverAcquire i =>
    simp only [step] at h
    split at h
    · next t lid again hcall =>
      obtain ⟨⟨srv,r⟩,hr,rfl⟩ := Option.map_eq_some_iff.mp h
      exact .serverAcquire i t lid again srv r hcall hr
    · cases h
  | acquireReturn i =>
    obtain ⟨c,hc,rfl⟩ := Option.map_eq_some_iff.mp h
    exact .acquireReturn i c hc
  | wake i t =>
    obtain ⟨c,hc,rfl⟩ := Option.map_eq_some_iff.mp h
    exact .wake i t c hc
  | release i t lid =>
    obtain ⟨c,hc,rfl⟩ := Option.map_eq_some_iff.mp h
    exact .release i t lid c hc
  | revoke =>
    simp only [step] at h
    split at h
    · next i lid q hq =>
      obtain ⟨c,hc,rfl⟩ := Option.map_eq_some_iff.mp h
      exact .revoke i lid q c hq hc
    · cases h
  | revokePop =>
    obtain ⟨q,hq,rfl⟩ := Option.map_eq_some_iff.mp h
    exact .revokePop q hq
  | retry =>
    simp only [step] at h
    split at h
    · next i lid q hq =>
      obtain ⟨c,hc,rfl⟩ := Option.map_eq_some_iff.mp h
      exact .retry i lid q c hq hc
    · cases h
  | retryPop =>
    obtain ⟨q,hq,rfl⟩ := Option.map_eq_some_iff.mp h
    exact .retryPop q hq
  | releaser i =>
    obtain ⟨c,hc,rfl⟩ := Option.map_eq_some_iff.mp h
    exact .releaser i c hc
  | dorelease i =>
    simp only [step] at h
    split at h
    · next lid hcall =>
      obtain ⟨w,hw,rfl⟩ := Option.map_eq_some_iff.mp h
      exact .dorelease i lid w hcall hw
    · cases h
  | serverRelease i =>
    simp only [step] at h
    split at h
    · next lid hcall =>
      obtain ⟨⟨srv,r⟩,hr,rfl⟩ := Option.map_eq_some_iff.mp h
      exact .serverRelease i lid srv r hcall hr
    · cases h
  | releaserEnd i =>
    obtain ⟨c,hc,rfl⟩ := Option.map_eq_some_iff.mp h
    exact .releaserEnd i c hc

end
end Yfs.Lock
