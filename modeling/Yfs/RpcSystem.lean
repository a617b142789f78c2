import Yfs.RpcWindow
import Yfs.RpcXidRep
import Mathlib.Logic.Function.Basic

/-! Any number of `rpcc` clients, one `rpcs` instance and the network between
them. A step is one critical section of the source. The network keeps every
request and reply ever sent: it may hand each of them over any number of times,
in any order and at any later time, or never. This covers retransmission on a
new connection and the `dup_req_` of lossy tests, which resend old bytes. -/
namespace Yfs.Rpc

def bindProc : ℕ := 1
def timeoutFailure : ℤ := -1
def atmostonceFailure : ℤ := -4
def oldsrvFailure : ℤ := -5
def cancelFailure : ℤ := -7

/-- A request on the wire: `req_header` and the marshalled arguments. -/
structure Req (α : Type*) where
  xid : ℕ
  proc : ℕ
  cltNonce : ℕ
  srvNonce : ℕ
  xidRep : ℕ
  args : α

/-- A reply on the wire: `reply_header` and the marshalled result. -/
structure Reply (β : Type*) where
  xid : ℕ
  ret : ℤ
  body : β

/-- `rpcc::caller`; `un` is the body that `take_in` handed over. -/
structure Caller (β : Type*) where
  proc : ℕ
  un : Option β
  intret : ℤ
  done : Bool

/-- `rpcc`. The map `calls_` is a function and its `size()`; `bound` holds the
results of `bind` calls that have returned 0 and whose thread has not yet stored
them. -/
structure Rpcc (β : Type*) where
  srvNonce : ℕ
  bindDone : Bool
  xid : ℕ
  destroyWait : Bool
  calls : ℕ → Option (Caller β)
  callsSize : ℕ
  xidRepWindow : List ℕ
  bound : List ℕ

def Rpcc.fresh (β : Type*) : Rpcc β := ⟨0, false, 1, false, fun _ => none, 0, [0], []⟩

/-- A call is pending while its caller is registered and has no reply. -/
def Rpcc.Pending {β : Type*} (c : Rpcc β) (x : ℕ) : Prop :=
  ∃ ca, c.calls x = some ca ∧ ca.done = false

section Client
variable {α β : Type*}

def Rpcc.register (c : Rpcc β) (proc : ℕ) : Rpcc β :=
  { c with
    xid := (c.xid+1) % uintMod
    calls := Function.update c.calls c.xid (some ⟨proc, none, 0, false⟩)
    callsSize := if (c.calls c.xid).isSome then c.callsSize else c.callsSize+1 }

def Rpcc.request (c : Rpcc β) (cltNonce proc : ℕ) (args : α) : Req α :=
  ⟨c.xid, proc, cltNonce, c.srvNonce, c.xidRepWindow.headD 0, args⟩

/-- The first critical section of `rpcc::call1`; `none` where it returns
`bind_failure` or `cancel_failure` at once. -/
def Rpcc.call1 (c : Rpcc β) (cltNonce proc : ℕ) (args : α) : Option (Rpcc β × Req α) :=
  if (proc ≠ bindProc ∧ c.bindDone = false) ∨ (proc = bindProc ∧ c.bindDone = true) then none
  else if c.destroyWait = true then none
  else some (c.register proc, c.request cltNonce proc args)

def Rpcc.gotPdu (c : Rpcc β) (h : Reply β) : Rpcc β :=
  { c with
    xidRepWindow := updateXidRep c.xidRepWindow h.xid
    calls :=
      match c.calls h.xid with
      | none => c.calls
      | some ca =>
        if ca.done = false then
          Function.update c.calls h.xid
            (some { ca with un := some h.body, intret := h.ret, done := true })
        else c.calls }

def Caller.result (ca : Caller β) : ℤ := if ca.done = true then ca.intret else timeoutFailure

/-- The end of `rpcc::call1`, reached with a reply, a cancellation or a
timeout. A successful `bind` goes on to store the server's nonce. -/
def Rpcc.leave (unpackNonce : β → ℕ) (c : Rpcc β) (x : ℕ) (ca : Caller β) : Rpcc β :=
  { c with
    calls := Function.update c.calls x none
    callsSize := c.callsSize-1
    xidRepWindow := updateXidRep c.xidRepWindow x
    bound :=
      if ca.proc = bindProc ∧ ca.result = 0 then c.bound ++ (ca.un.map unpackNonce).toList
      else c.bound }

/-- The critical section at the end of `rpcc::bind`. -/
def Rpcc.bindRecord (c : Rpcc β) (r : ℕ) (rs : List ℕ) : Rpcc β :=
  { c with bindDone := true, srvNonce := r, bound := rs }

/-- `rpcc::cancel`, up to its wait for the callers to leave. -/
def Rpcc.cancel (c : Rpcc β) : Rpcc β :=
  { c with
    calls := fun x => (c.calls x).map fun ca => { ca with done := true, intret := cancelFailure }
    destroyWait := c.destroyWait || decide (0 < c.callsSize) }

end Client

/-- A buffer from `malloc`: where it lies and the reply packed into it. -/
structure Alloc (β : Type*) where
  addr : Addr
  content : Reply β

/-- A `rpcs::dispatch` thread that holds a request (`handling`, inside
`f->fn`) or a reply buffer it is about to pass to `connection::send`. -/
inductive Job (α : Type*)
  | handling (cltNonce xid proc : ℕ) (args : α)
  | sending (cltNonce : ℕ) (buf : ℕ)

/-- `rpcs`. A buffer pointer is the index of its allocation in `heap`; `freed`
lists the pointers passed to `free`. -/
structure Rpcs (α β : Type*) where
  replyWindow : ℕ → List ReplyT
  jobs : List (Job α)
  heap : List (Alloc β)
  freed : List ℕ
  aborted : Bool

/-- An execution of a handler, for the history. -/
structure Exec (α β : Type*) where
  cltNonce : ℕ
  xid : ℕ
  proc : ℕ
  args : α
  ret : ℤ
  body : β

/-- What a deployment fixes: the clients' nonces, the server's nonce, the
registered procedures, and how `bind`'s result is packed and unpacked. -/
structure Config (ι β : Type*) where
  nonce : ι → ℕ
  nonce_injective : Function.Injective nonce
  nonce_ne_zero : ∀ i, nonce i ≠ 0
  srvNonce : ℕ
  registered : ℕ → Bool
  bindBody : β
  unpackNonce : β → ℕ
  emptyBody : β

/-- The state, with three history variables that no step reads: the answers of
`checkduplicate_and_update`, the handler executions, and the returns of `call1`. -/
structure Sys (ι α β : Type*) where
  clients : ι → Rpcc β
  server : Rpcs α β
  requests : List (Req α)
  replies : List (ℕ × Reply β)
  answers : List (ℕ × ℕ × RpcState)
  execs : List (Exec α β)
  returns : List (ι × ℕ × ℤ × Option β)

inductive Act (ι α β : Type*)
  | call1 (i : ι) (proc : ℕ) (args : α)
  | gotPdu (i : ι) (k : ℕ)
  | callEnd (i : ι) (xid : ℕ)
  | bindRecord (i : ι)
  | cancel (i : ι)
  | dispatch (k : ℕ)
  | handlerDone (j : ℕ) (ret : ℤ) (body : β) (addr : Addr)
  | sendReply (j : ℕ)

section System
variable {ι α β : Type*}

def Sys.init : Sys ι α β :=
  ⟨fun _ => Rpcc.fresh β, ⟨fun _ => [], [], [], [], false⟩, [], [], [], [], []⟩

/-- The bytes behind a pointer. A freed one shows whatever reply was packed
last at its address. -/
def Rpcs.read (s : Rpcs α β) (p : ℕ) : Option (Reply β) :=
  match s.heap[p]? with
  | none => none
  | some a =>
    if p ∈ s.freed then (s.heap.reverse.find? fun b => b.addr = a.addr).map (·.content)
    else some a.content

/-- `malloc` may return any address at which no buffer is live. -/
def Rpcs.Available (s : Rpcs α β) (addr : Addr) : Prop :=
  ∀ ap ∈ s.heap.zipIdx, ap.1.addr = addr → ap.2 ∈ s.freed

instance (s : Rpcs α β) (addr : Addr) : Decidable (s.Available addr) :=
  List.decidableBAll (fun ap : Alloc β × ℕ => ap.1.addr = addr → ap.2 ∈ s.freed) s.heap.zipIdx

variable (cfg : Config ι β)

/-- What the switch in `rpcs::dispatch` starts for each status: a handler run, a
second send of the remembered buffer, or nothing. -/
def statusJobs (h : Req α) (r : CheckResult) : List (Job α) :=
  match r.status with
  | .new => [.handling h.cltNonce h.xid h.proc h.args]
  | .inProgress => []
  | .done => (r.buf.map fun b => Job.sending h.cltNonce b).toList
  | .forgotten => []

/-- The failure reply goes out from the thread's own `rep`, a buffer nobody else
knows, so it is sent at once. -/
def statusReplies (h : Req α) (r : CheckResult) : List (ℕ × Reply β) :=
  if r.status = .forgotten then [(h.cltNonce, ⟨h.xid, atmostonceFailure, cfg.emptyBody⟩)] else []

def Sys.check (s : Sys ι α β) (h : Req α) : CheckResult :=
  checkduplicateAndUpdate (s.server.replyWindow h.cltNonce) h.xid h.xidRep

/-- `checkduplicate_and_update` and the switch on its answer. -/
def Sys.checked (s : Sys ι α β) (h : Req α) : Sys ι α β :=
  { s with
    server := { s.server with
      replyWindow := Function.update s.server.replyWindow h.cltNonce (s.check h).window
      freed := s.server.freed ++ (s.check h).freed.reduceOption
      jobs := s.server.jobs ++ statusJobs h (s.check h) }
    answers := s.answers ++ [(h.cltNonce, h.xid, (s.check h).status)]
    replies := s.replies ++ statusReplies cfg h (s.check h) }

theorem replyWindow_checked (s : Sys ι α β) (h : Req α) :
    (s.checked cfg h).server.replyWindow h.cltNonce = (s.check h).window := Function.update_self ..

theorem replyWindow_checked_of_ne (s : Sys ι α β) (h : Req α) {n : ℕ} (hn : n ≠ h.cltNonce) :
    (s.checked cfg h).server.replyWindow n = s.server.replyWindow n := Function.update_of_ne hn ..

/-- The request at position `k` gets as far as `checkduplicate_and_update`. -/
def Sys.Checks (s : Sys ι α β) (k : ℕ) (h : Req α) : Prop :=
  s.requests[k]? = some h ∧ s.server.aborted = false ∧
    (h.srvNonce = 0 ∨ h.srvNonce = cfg.srvNonce) ∧ cfg.registered h.proc = true ∧ h.cltNonce ≠ 0

/-- `rpcs::dispatch` up to the end of a switch branch other than NEW and DONE. -/
def Sys.dispatch (s : Sys ι α β) (k : ℕ) : Option (Sys ι α β) :=
  match s.requests[k]? with
  | none => none
  | some h =>
    if s.server.aborted = true then none
    -- the request is for an earlier instance of the server
    else if h.srvNonce ≠ 0 ∧ h.srvNonce ≠ cfg.srvNonce then
      some { s with replies := s.replies ++ [(h.cltNonce, ⟨h.xid, oldsrvFailure, cfg.emptyBody⟩)] }
    -- `VERIFY(0)` for an unknown procedure
    else if cfg.registered h.proc = false then
      some { s with server := { s.server with aborted := true } }
    -- a client without a nonce does not want at-most-once
    else if h.cltNonce = 0 then
      some { s with server := { s.server with
        jobs := s.server.jobs ++ [.handling 0 h.xid h.proc h.args] } }
    else some (s.checked cfg h)

/-- The handler's results: `rpcbind` answers the server's nonce, any other
handler what it likes. -/
def handlerRet (proc : ℕ) (ret : ℤ) : ℤ := if proc = bindProc then 0 else ret

def handlerBody (proc : ℕ) (body : β) : β := if proc = bindProc then cfg.bindBody else body

/-- The reply `r` is packed into a new buffer, remembered with `add_reply`, and
about to be sent. -/
def Rpcs.packed (s : Rpcs α β) (j n : ℕ) (addr : Addr) (r : Reply β) : Rpcs α β :=
  { s with
    heap := s.heap ++ [⟨addr, r⟩]
    replyWindow :=
      if 0 < n then
        Function.update s.replyWindow n (addReply (s.replyWindow n) r.xid s.heap.length)
      else s.replyWindow
    jobs := s.jobs.eraseIdx j ++ [.sending n s.heap.length] }

theorem replyWindow_packed (s : Rpcs α β) (j : ℕ) {n : ℕ} (hn : 0 < n) (addr : Addr) (r : Reply β) :
    (s.packed j n addr r).replyWindow n = addReply (s.replyWindow n) r.xid s.heap.length := by
  rw [Rpcs.packed, if_pos hn]
  exact Function.update_self ..

theorem replyWindow_packed_of_ne (s : Rpcs α β) (j : ℕ) {n m : ℕ} (addr : Addr) (r : Reply β)
    (hm : m ≠ n) :
    (s.packed j n addr r).replyWindow m = s.replyWindow m := by
  simp only [Rpcs.packed]
  split_ifs
  · exact Function.update_of_ne hm ..
  · rfl

theorem replyWindow_packed_self (s : Rpcs α β) (j n : ℕ) (addr : Addr) (r : Reply β) :
    (s.packed j n addr r).replyWindow n = s.replyWindow n ∨
      (s.packed j n addr r).replyWindow n = addReply (s.replyWindow n) r.xid s.heap.length := by
  by_cases hn : 0 < n
  · exact Or.inr (replyWindow_packed s j hn addr r)
  · rw [Rpcs.packed, if_neg hn]
    exact Or.inl rfl

def Sys.handlerDone (s : Sys ι α β) (j : ℕ) (ret : ℤ) (body : β) (addr : Addr) :
    Option (Sys ι α β) :=
  match s.server.jobs[j]? with
  | some (.handling n x proc args) =>
    if s.server.aborted = true then none
    -- `VERIFY(rh.ret >= 0)`
    else if handlerRet proc ret < 0 then
      some { s with server := { s.server with aborted := true } }
    else if s.server.Available addr then
      some { s with
        server := s.server.packed j n addr ⟨x, handlerRet proc ret, handlerBody cfg proc body⟩
        execs := s.execs ++ [⟨n, x, proc, args, handlerRet proc ret, handlerBody cfg proc body⟩] }
    else none
  | _ => none

/-- The buffer leaves: a buffer outside the window is freed after its send. -/
def Rpcs.sent (s : Rpcs α β) (j n b : ℕ) : Rpcs α β :=
  { s with
    jobs := s.jobs.eraseIdx j
    freed := if n = 0 then s.freed ++ [b] else s.freed }

/-- `c->send(b1, sz1)`. Reading a freed buffer is undefined: with `ub = false`
the run ends there, with `ub = true` it sends what the memory now holds. -/
def Sys.sendReply (ub : Bool) (s : Sys ι α β) (j : ℕ) : Option (Sys ι α β) :=
  match s.server.jobs[j]? with
  | some (.sending n b) =>
    if s.server.aborted = true then none
    else if b ∈ s.server.freed ∧ ub = false then none
    else
      some { s with
        server := s.server.sent j n b
        replies := s.replies ++ ((s.server.read b).map fun r => (n, r)).toList }
  | _ => none

variable [DecidableEq ι]

def step (ub : Bool) (s : Sys ι α β) : Act ι α β → Option (Sys ι α β)
  | .call1 i proc args =>
    match (s.clients i).call1 (cfg.nonce i) proc args with
    | none => some s
    | some (c, r) => some { s with
        clients := Function.update s.clients i c
        requests := s.requests ++ [r] }
  | .gotPdu i k =>
    match s.replies[k]? with
    | none => none
    | some (n, h) =>
      if n = cfg.nonce i then
        some { s with clients := Function.update s.clients i ((s.clients i).gotPdu h) }
      else none
  | .callEnd i x =>
    match (s.clients i).calls x with
    | none => none
    | some ca => some { s with
        clients := Function.update s.clients i ((s.clients i).leave cfg.unpackNonce x ca)
        returns := s.returns ++ [(i, x, ca.result, ca.un)] }
  | .bindRecord i =>
    match (s.clients i).bound with
    | [] => none
    | r :: rs => some { s with
        clients := Function.update s.clients i ((s.clients i).bindRecord r rs) }
  | .cancel i => some { s with clients := Function.update s.clients i (s.clients i).cancel }
  | .dispatch k => s.dispatch cfg k
  | .handlerDone j ret body addr => s.handlerDone cfg j ret body addr
  | .sendReply j => s.sendReply ub j

/-- Every way a step can go, with the state it leads to. -/
inductive Stepped (ub : Bool) (s : Sys ι α β) : Act ι α β → Sys ι α β → Prop
  | refused (i : ι) (proc : ℕ) (args : α) : Stepped ub s (.call1 i proc args) s
  | call1 (i : ι) (proc : ℕ) (args : α) : Stepped ub s (.call1 i proc args)
      { s with
        clients := Function.update s.clients i ((s.clients i).register proc)
        requests := s.requests ++ [(s.clients i).request (cfg.nonce i) proc args] }
  | gotPdu (i : ι) (k : ℕ) (h : Reply β) (hk : s.replies[k]? = some (cfg.nonce i, h)) :
      Stepped ub s (.gotPdu i k)
        { s with clients := Function.update s.clients i ((s.clients i).gotPdu h) }
  | callEnd (i : ι) (x : ℕ) (ca : Caller β) (hx : (s.clients i).calls x = some ca) :
      Stepped ub s (.callEnd i x)
        { s with
          clients := Function.update s.clients i ((s.clients i).leave cfg.unpackNonce x ca)
          returns := s.returns ++ [(i, x, ca.result, ca.un)] }
  | bindRecord (i : ι) (r : ℕ) (rs : List ℕ) (hb : (s.clients i).bound = r :: rs) :
      Stepped ub s (.bindRecord i)
        { s with clients := Function.update s.clients i ((s.clients i).bindRecord r rs) }
  | cancel (i : ι) : Stepped ub s (.cancel i)
      { s with clients := Function.update s.clients i (s.clients i).cancel }
  | oldsrv (k : ℕ) (h : Req α) (hk : s.requests[k]? = some h) : Stepped ub s (.dispatch k)
      { s with replies := s.replies ++ [(h.cltNonce, ⟨h.xid, oldsrvFailure, cfg.emptyBody⟩)] }
  | aborts (a : Act ι α β) : Stepped ub s a { s with server := { s.server with aborted := true } }
  | unchecked (k : ℕ) (h : Req α) (hk : s.requests[k]? = some h) (h0 : h.cltNonce = 0) :
      Stepped ub s (.dispatch k)
        { s with server := { s.server with
            jobs := s.server.jobs ++ [.handling 0 h.xid h.proc h.args] } }
  | checked (k : ℕ) (h : Req α) (hk : s.Checks cfg k h) :
      Stepped ub s (.dispatch k) (s.checked cfg h)
  | handlerDone (j n x proc : ℕ) (args : α) (ret : ℤ) (body : β) (addr : Addr)
      (hj : s.server.jobs[j]? = some (.handling n x proc args))
      (hret : 0 ≤ handlerRet proc ret) (ha : s.server.Available addr) :
      Stepped ub s (.handlerDone j ret body addr)
        { s with
          server := s.server.packed j n addr ⟨x, handlerRet proc ret, handlerBody cfg proc body⟩
          execs := s.execs ++
            [⟨n, x, proc, args, handlerRet proc ret, handlerBody cfg proc body⟩] }
  | sendReply (j n b : ℕ) (hj : s.server.jobs[j]? = some (.sending n b))
      (hub : b ∈ s.server.freed → ub = true) : Stepped ub s (.sendReply j)
        { s with
          server := s.server.sent j n b
          replies := s.replies ++ ((s.server.read b).map fun r => (n, r)).toList }

theorem dispatch_cases (ub : Bool) (s s' : Sys ι α β) (k : ℕ)
    (h : s.dispatch cfg k = some s') : Stepped cfg ub s (.dispatch k) s' := by
  unfold Sys.dispatch at h
  split at h
  · cases h
  · next q hq =>
    split_ifs at h with h1 h2 h3 h4 <;> cases h
    · exact .oldsrv k q hq
    · exact .aborts _
    · exact .unchecked k q hq h4
    · have hn : q.srvNonce = 0 ∨ q.srvNonce = cfg.srvNonce := by
        by_contra hc
        push Not at hc
        exact h2 hc
      exact .checked k q ⟨hq, by simpa using h1, hn, by simpa using h3, h4⟩

theorem handlerDone_cases (ub : Bool) (s s' : Sys ι α β) (j : ℕ) (ret : ℤ) (body : β)
    (addr : Addr) (h : s.handlerDone cfg j ret body addr = some s') :
    Stepped cfg ub s (.handlerDone j ret body addr) s' := by
  unfold Sys.handlerDone at h
  split at h
  · next n x proc args hj =>
    split_ifs at h with h1 h2 h3 <;> cases h
    · exact .aborts _
    · exact .handlerDone j n x proc args ret body addr hj (not_lt.mp h2) h3
  · cases h

theorem sendReply_cases (ub : Bool) (s s' : Sys ι α β) (j : ℕ)
    (h : s.sendReply ub j = some s') : Stepped cfg ub s (.sendReply j) s' := by
  unfold Sys.sendReply at h
  split at h
  · next n b hj =>
    split_ifs at h with h1 h2
    cases h
    refine .sendReply j n b hj ?_
    intro hb
    by_contra hu
    exact h2 ⟨hb, by simpa using hu⟩
  · cases h

theorem step_cases (ub : Bool) (s s' : Sys ι α β) (a : Act ι α β)
    (h : step cfg ub s a = some s') : Stepped cfg ub s a s' := by
  cases a with
  | call1 i proc args =>
    simp only [step, Rpcc.call1] at h
    split_ifs at h with h1 h2 <;> cases h
    · exact .refused i proc args
    · exact .refused i proc args
    · exact .call1 i proc args
  | gotPdu i k =>
    simp only [step] at h
    split at h
    · cases h
    · next n r hk =>
      split_ifs at h with hn
      cases h
      exact .gotPdu i k r (hn ▸ hk)
  | callEnd i x =>
    simp only [step] at h
    split at h
    · cases h
    · next ca hx =>
      cases h
      exact .callEnd i x ca hx
  | bindRecord i =>
    simp only [step] at h
    split at h
    · cases h
    · next r rs hb =>
      cases h
      exact .bindRecord i r rs hb
  | cancel i =>
    cases h
    exact .cancel i
  | dispatch k => exact dispatch_cases cfg ub s s' k h
  | handlerDone j ret body addr => exact handlerDone_cases cfg ub s s' j ret body addr h
  | sendReply j => exact sendReply_cases cfg ub s s' j h

end System

end Yfs.Rpc
