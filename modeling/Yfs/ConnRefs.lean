import Yfs.RefCount
import Yfs.SortedMap
import Yfs.RpcSystem

/-! The connections of one `rpcs` and the references to them: `rpcs::got_pdu` in the
poll thread, `rpcs::dispatch` in the threads of the pool and the listener that owns
the connections. A step is one access to what the threads share, or one critical
section. -/

namespace Yfs.ConnRefs
open Yfs.RefCount (Fault Obj Heap Balanced load incref decref)
open Yfs.Rpc (Req ReplyT RpcState Addr checkduplicateAndUpdate addReply)

abbrev ConnId := ℕ

/-- `create_time_`: `tv_sec` and `tv_usec`. -/
abbrev Time := ℕ × ℕ

def compare (x y : Time) : ℤ :=
  if y.1 < x.1 then 1
  else if x.1 < y.1 then -1
  else if y.2 < x.2 then 1
  else if x.2 < y.2 then -1
  else 0

/-- `djob_t`, with the number of the allocation it comes from. A PDU whose header does
not unmarshall is `none`. -/
structure Djob (α : Type) where
  id : ℕ
  conn : ConnId
  buf : Option (Req α)

inductive PollPc (α : Type)
  | idle
  | test (c : ConnId) (b : Option (Req α))
  | ref (c : ConnId) (b : Option (Req α))
  | add (j : Djob α)
  | retest (j : Djob α) (succ : Bool)
  | undo (j : Djob α)
  | delete (j : Djob α)

/-- `read_cb` calls `got_pdu` with the `m_` of this connection. -/
def PollPc.locked {α : Type} : PollPc α → Option ConnId
  | .idle => none
  | .test c _ | .ref c _ => some c
  | .add j | .retest j _ | .undo j | .delete j => some j.conn

theorem PollPc.idle_of_locked {α : Type} (p : PollPc α) (h : p.locked = none) : p = .idle := by
  cases p with
  | idle => rfl
  | test | ref | add | retest | undo | delete => exact nomatch h

inductive Pc (α : Type)
  | begin (j : Djob α)
  | oldsrv (c : ConnId)
  | save (c : ConnId) (h : Req α)
  | check (c : ConnId) (h : Req α)
  | handler (c : ConnId) (h : Req α)
  | record (c : ConnId) (h : Req α) (b : Addr)
  | latest (c : ConnId) (h : Req α)
  | send (c : ConnId)
  | release (c : ConnId)

/-- The variable `c` of `dispatch`. -/
def Pc.conn {α : Type} : Pc α → ConnId
  | .begin j => j.conn
  | .oldsrv c | .save c _ | .check c _ | .handler c _ | .record c _ _ | .latest c _ | .send c
  | .release c => c

/-- Why the process stops: a pointer to a connection or to a job that must not be used,
or a `VERIFY` of `dispatch` about the request. -/
inductive Halt
  | conn (f : Fault)
  | job
  | unknownProc
  | unmarshalArgs
  | negativeRet
  deriving DecidableEq, Repr

def Halt.OfRequest : Halt → Prop
  | .conn _ | .job => False
  | .unknownProc | .unmarshalArgs | .negativeRet => True

abbrev Conns := SortedMap ℕ (Option ConnId)

/-- One server. `executed` and `discarded` are the jobs that `dispatch` and `got_pdu`
have deleted, `next` is the number of the next one. -/
structure Sys (α τ : Type) where
  heap : Heap ConnId Time
  conns : Conns
  window : ℕ → List ReplyT
  reachable : Bool
  poll : PollPc α
  queue : List (Djob α)
  worker : τ → Option (Pc α)
  next : ℕ
  executed : List ℕ
  discarded : List ℕ

def Sys.init {α τ : Type} : Sys α τ :=
  ⟨fun _ => none, SortedMap.empty, fun _ => [], true, .idle, [], fun _ => none, 0, [], []⟩

/-- `pdu` is the call of `got_pdu`, `poll` its next step; `succ` is the answer of
`addObjJob`, whose queue may be full. `take` is a thread of the pool that takes a job,
`work` its next step, and `handler` the return of the registered function with a reply
in the buffer `b`. `die` is an error of the socket. -/
inductive Act (α τ : Type)
  | accept (c : ConnId) (time : Time)
  | collect (c : ConnId)
  | die (c : ConnId)
  | setReachable (r : Bool)
  | pdu (c : ConnId) (b : Option (Req α))
  | poll (succ : Bool)
  | take (t : τ)
  | work (t : τ)
  | handler (t : τ) (ret : ℤ) (b : Addr)

/-- "save the latest good connection to the client" -/
def saveConn (heap : Heap ConnId Time) (conns : Conns) (n : ℕ) (c : ConnId) :
    Except Fault (Heap ConnId Time × Conns) :=
  match conns.lookup n with
  | none => (incref heap (some c)).map fun heap => (heap, conns.insert (n, some c))
  | some old => do
    let x ← load heap old
    let y ← load heap (some c)
    if compare x.data y.data < 0 then
      let heap ← decref heap old
      let heap ← incref heap (some c)
      return (heap, conns.insert (n, some c))
    else
      return (heap, conns)

/-- "get the latest connection to the client". A missing entry is created as null. -/
def latestConn (heap : Heap ConnId Time) (conns : Conns) (n : ℕ) (c : ConnId) :
    Except Fault (Heap ConnId Time × Conns × Option ConnId) := do
  let x ← load heap (some c)
  if x.dead = true then
    let conns := if (conns.lookup n).isSome then conns else conns.insert (n, none)
    let last := (conns.lookup n).getD none
    if some c ≠ last then
      let heap ← decref heap (some c)
      let heap ← incref heap last
      return (heap, conns, last)
    else
      return (heap, conns, some c)
  else
    return (heap, conns, some c)

def savedIn (conns : Conns) (c : ConnId) : ℕ := conns.entries.countP fun e => e.2 = some c

theorem savedIn_insert (conns : Conns) (n : ℕ) (p : Option ConnId) (d : ConnId) :
    savedIn (conns.insert (n, p)) d +
    ((conns.lookup n).elim 0 fun q => if q = some d then 1 else 0) =
      savedIn conns d + if p = some d then 1 else 0 := by
  have h := SortedMap.countP_insertEntry (fun q => decide (q = some d)) n p conns.entries
  have hnat (q : Option ConnId) : (decide (q = some d)).toNat = if q = some d then 1 else 0 := by
    split_ifs with hq <;> simp [hq]
  simp only [hnat] at h
  exact h

theorem savedIn_pos {conns : Conns} {n : ℕ} {c : ConnId} (h : conns.lookup n = some (some c)) :
    0 < savedIn conns c :=
  List.countP_pos_iff.mpr ⟨_, SortedMap.mem_of_lookupEntry _ _ _ h, by simp⟩

theorem lookup_insert_isSome (conns : Conns) (n m : ℕ) (p : Option ConnId)
    (h : m = n ∨ (conns.lookup m).isSome) : ((conns.insert (n, p)).lookup m).isSome := by
  have hins : (conns.insert (n, p)).lookup m = if m = n then some p else conns.lookup m :=
    SortedMap.lookupEntry_insertEntry n m p conns.entries
  rw [hins]
  split_ifs with hmn
  · rfl
  · exact h.resolve_left hmn

theorem insert_stored {conns : Conns} (n : ℕ) (c : ConnId) (h : ∀ e ∈ conns.entries, e.2 ≠ none) :
    ∀ e ∈ (conns.insert (n, some c)).entries, e.2 ≠ none := by
  intro e he
  rcases SortedMap.mem_insertEntry n (some c) conns.entries e he with rfl | he
  · exact Option.some_ne_none c
  · exact h e he

/-- The entry of a client is replaced: the reference of the entry moves to the newer connection. -/
theorem saveConn_ok {heap : Heap ConnId Time} {conns : Conns} (rest : ConnId → ℕ) (n : ℕ)
    (c : ConnId) (hb : Balanced heap fun d => rest d + savedIn conns d) (hc : 0 < rest c)
    (hst : ∀ e ∈ conns.entries, e.2 ≠ none) :
    ∃ heap' conns', saveConn heap conns n c = .ok (heap', conns') ∧
      Balanced heap' (fun d => rest d + savedIn conns' d) ∧ (∀ e ∈ conns'.entries, e.2 ≠ none) ∧
      (∀ d, (heap d).isSome → (heap' d).isSome) ∧
      ∀ m, m = n ∨ (conns.lookup m).isSome → (conns'.lookup m).isSome := by
  obtain ⟨y,hy,hly⟩ := hb.load_held (c := c) (by omega)
  have hcount (d : ConnId) := savedIn_insert conns n (some c) d
  have hlook (m : ℕ) (hm : m = n ∨ (conns.lookup m).isSome) :=
    lookup_insert_isSome conns n m (some c) hm
  cases hl : conns.lookup n with
  | none =>
    obtain ⟨heap',hinc,hbal,hlive⟩ := hb.incref (c := c)
      (fun d => rest d + savedIn (conns.insert (n, some c)) d) (hy ▸ rfl) (by
        intro d
        have h := hcount d
        simp only [hl, Option.elim_none, Option.some.injEq, eq_comm (a := c)] at h
        omega)
    refine ⟨heap', conns.insert (n, some c), ?_, hbal, insert_stored n c hst, hlive, hlook⟩
    simp only [saveConn, hl, hinc, Except.map]
  | some old =>
    obtain ⟨o,rfl⟩ :=
      Option.ne_none_iff_exists'.mp (hst _ (SortedMap.mem_of_lookupEntry n conns.entries old hl))
    have hpos := savedIn_pos hl
    obtain ⟨x,hx,hlx⟩ := hb.load_held (c := o) (by omega)
    by_cases hcmp : compare x.data y.data < 0
    · -- the map gives up `o` before it takes `c`
      obtain ⟨heap1,hdec,hbal1,hlive1⟩ := hb.decref (c := o)
        (fun d => rest d + (savedIn conns d - if d = o then 1 else 0)) (by
          intro d
          split_ifs with hd
          · rw [hd]
            omega
          · omega)
      obtain ⟨heap2,hinc,hbal2,hlive2⟩ := hbal1.incref (c := c)
        (fun d => rest d + savedIn (conns.insert (n, some c)) d)
        (hlive1 c (hy ▸ rfl)) (by
          intro d
          have h := hcount d
          simp only [hl, Option.elim_some, Option.some.injEq, eq_comm (a := c),
            eq_comm (a := o)] at h
          by_cases hd : d = o
          · subst hd
            simp only [if_true] at h ⊢
            omega
          · simp only [if_neg hd] at h ⊢
            omega)
      refine ⟨heap2, conns.insert (n, some c), ?_, hbal2, insert_stored n c hst,
        fun d hd => hlive2 d (hlive1 d hd), hlook⟩
      simp only [saveConn, hl, hlx, hly, hcmp, hdec, hinc, bind, Except.bind, if_true, pure,
        Except.pure]
    · refine ⟨heap, conns, ?_, hb, hst, fun _ hd => hd, ?_⟩
      · simp only [saveConn, hl, hlx, hly, hcmp, bind, Except.bind, if_false, pure, Except.pure]
      · rintro m (rfl | hm)
        · rw [hl]
          rfl
        · exact hm

/-- A dead connection is replaced by the client's latest one, if it has one. -/
theorem latestConn_ok {heap : Heap ConnId Time} {conns : Conns} (rest : ConnId → ℕ) (n : ℕ)
    (c : ConnId) (hb : Balanced heap fun d => rest d + savedIn conns d + if d = c then 1 else 0)
    (hst : ∀ e ∈ conns.entries, e.2 ≠ none)
    (hn : (∀ x ∈ heap c, x.dead = false) ∨ (conns.lookup n).isSome) :
    ∃ heap' c', latestConn heap conns n c = .ok (heap', conns, some c') ∧
      Balanced heap' (fun d => rest d + savedIn conns d + if d = c' then 1 else 0) ∧
      ∀ d, (heap d).isSome → (heap' d).isSome := by
  obtain ⟨y,hy,hly⟩ := hb.load_held (c := c) (by simp)
  by_cases hdead : y.dead = true
  · have hsome : (conns.lookup n).isSome := by
      refine hn.resolve_left fun h => ?_
      rw [h y hy] at hdead
      exact nomatch hdead
    obtain ⟨old,hl⟩ := Option.isSome_iff_exists.mp hsome
    obtain ⟨o,rfl⟩ :=
      Option.ne_none_iff_exists'.mp (hst _ (SortedMap.mem_of_lookupEntry n conns.entries old hl))
    by_cases hco : c = o
    · subst hco
      refine ⟨heap, c, ?_, hb, fun _ hd => hd⟩
      simp [latestConn, hly, hdead, hl, bind, Except.bind, pure, Except.pure]
    · have hpos := savedIn_pos hl
      obtain ⟨heap1,hdec,hbal1,hlive1⟩ :=
        hb.decref (c := c) (fun d => rest d + savedIn conns d) fun _ => rfl
      obtain ⟨heap2,hinc,hbal2,hlive2⟩ := hbal1.incref (c := o)
        (fun d => rest d + savedIn conns d + if d = o then 1 else 0)
        (by
          obtain ⟨x,hx⟩ := hbal1.exists_of_held (c := o) (by omega)
          exact hx ▸ rfl) fun _ => rfl
      refine ⟨heap2, o, ?_, hbal2, fun d hd => hlive2 d (hlive1 d hd)⟩
      simp [latestConn, hly, hdead, hl, hco, hdec, hinc, bind, Except.bind, pure, Except.pure]
  · refine ⟨heap, c, ?_, hb, fun _ hd => hd⟩
    simp [latestConn, hly, hdead, bind, Except.bind, pure, Except.pure]

section
variable {α τ : Type} [DecidableEq τ]

def Sys.deleted (s : Sys α τ) (j : Djob α) : Prop := j.id ∈ s.executed ∨ j.id ∈ s.discarded

instance (s : Sys α τ) (j : Djob α) : Decidable (s.deleted j) := inferInstanceAs (Decidable (_ ∨ _))

def Sys.goto (s : Sys α τ) (t : τ) (pc : Option (Pc α)) : Sys α τ :=
  { s with worker := Function.update s.worker t pc }

def Sys.gotPdu (s : Sys α τ) (succ : Bool) : Option (Except Halt (Sys α τ)) :=
  match s.poll with
  | .idle => none
  | .test c b => some (.ok { s with poll := if s.reachable = false then .idle else .ref c b })
  | .ref c b =>
    some (((incref s.heap (some c)).mapError .conn).map fun heap =>
      { s with heap, next := s.next + 1, poll := .add ⟨s.next, c, b⟩ })
  | .add j =>
    some (.ok { s with
      queue := if succ = true then s.queue ++ [j] else s.queue, poll := .retest j succ })
  | .retest j succ =>
    some (.ok { s with poll := if succ = false ∨ s.reachable = false then .undo j else .idle })
  | .undo j =>
    some (((decref s.heap (some j.conn)).mapError .conn).map fun heap => { s with
      heap, poll := .delete j })
  | .delete j =>
    some (if s.deleted j then .error .job
      else .ok { s with discarded := s.discarded ++ [j.id], poll := .idle })

/-- `dispatch` up to the first section: the job is deleted and its header is looked at. -/
def Sys.begin (nonce : ℕ) (procs : ℕ → Bool) (s : Sys α τ) (t : τ) (j : Djob α) :
    Except Halt (Sys α τ) :=
  if s.deleted j then .error .job
  else
    let s := { s with executed := s.executed ++ [j.id] }
    match j.buf with
    | none => .ok (s.goto t (some (.release j.conn)))
    | some h =>
      if h.srvNonce ≠ 0 ∧ h.srvNonce ≠ nonce then .ok (s.goto t (some (.oldsrv j.conn)))
      else if procs h.proc = false then
        -- the reference is given back before VERIFY(0)
        ((decref s.heap (some j.conn)).mapError .conn).bind fun _ => .error .unknownProc
      else if h.cltNonce ≠ 0 then .ok (s.goto t (some (.save j.conn h)))
      else .ok (s.goto t (some (.handler j.conn h)))

/-- What follows `checkduplicate_and_update`. -/
def afterCheck (c : ConnId) (h : Req α) : RpcState → Pc α
  | .new => .handler c h
  | .inProgress => .release c
  | .done | .forgotten => .send c

/-- The next step of `dispatch`. `isdead` and `send` need `m_`, which the poll thread has
during `got_pdu`. -/
def Sys.work (nonce : ℕ) (procs : ℕ → Bool) (s : Sys α τ) (t : τ) :
    Pc α → Option (Except Halt (Sys α τ))
  | .begin j => some (s.begin nonce procs t j)
  | .oldsrv c =>
    -- the reply is sent and the function returns
    if s.poll.locked = some c then none
    else some (((load s.heap (some c)).mapError .conn).map fun _ => s.goto t none)
  | .save c h =>
    some (((saveConn s.heap s.conns h.cltNonce c).mapError .conn).map fun r =>
      { s with heap := r.1, conns := r.2 }.goto t (some (.check c h)))
  | .check c h =>
    let r := checkduplicateAndUpdate (s.window h.cltNonce) h.xid h.xidRep
    some (.ok ({ s with window := Function.update s.window h.cltNonce r.window }.goto t
      (some (afterCheck c h r.status))))
  | .handler _ _ => none
  | .record c h b =>
    let w := addReply (s.window h.cltNonce) h.xid b
    some (.ok ({ s with window := Function.update s.window h.cltNonce w }.goto t
      (some (.latest c h))))
  | .latest c h =>
    if s.poll.locked = some c then none
    else some (((latestConn s.heap s.conns h.cltNonce c).mapError .conn).map fun r =>
      { s with heap := r.1, conns := r.2.1 }.goto t (some (.send (r.2.2.getD c))))
  | .send c =>
    if s.poll.locked = some c then none
    else some (((load s.heap (some c)).mapError .conn).map fun _ => s.goto t (some (.release c)))
  | .release c =>
    some (((decref s.heap (some c)).mapError .conn).map fun heap => { s with heap }.goto t none)

def unmarshalArgsFailure : ℤ := -2

/-- The registered function has returned. -/
def Sys.handled (s : Sys α τ) (t : τ) (ret : ℤ) (b : Addr) : Option (Except Halt (Sys α τ)) :=
  match s.worker t with
  | some (.handler c h) =>
    some (if ret = unmarshalArgsFailure then .error .unmarshalArgs
      else if ret < 0 then .error .negativeRet
      else .ok (s.goto t (some (if 0 < h.cltNonce then .record c h b else .latest c h))))
  | _ => none

def Sys.exec (nonce : ℕ) (procs : ℕ → Bool) (s : Sys α τ) : Act α τ → Option (Except Halt (Sys α τ))
  | .accept c time =>
    if s.heap c = none then
      some (.ok { s with heap := Function.update s.heap c (some ⟨1, false, time⟩) })
    else none
  | .collect c =>
    -- the owner gives up dead connections with no other reference
    match s.heap c with
    | none => none
    | some x =>
      if s.poll.locked ≠ some c ∧ x.dead = true ∧ x.refno = 1 then
        some (((decref s.heap (some c)).mapError .conn).map fun heap => { s with heap })
      else none
  | .die c =>
    match s.heap c with
    | none => none
    | some x =>
      if s.poll.locked ≠ some c then
        some (.ok { s with heap := Function.update s.heap c (some { x with dead := true }) })
      else none
  | .setReachable r => some (.ok { s with reachable := r })
  | .pdu c b =>
    match s.poll, s.heap c with
    | .idle, some x => if x.dead = false then some (.ok { s with poll := .test c b }) else none
    | _, _ => none
  | .poll succ => s.gotPdu succ
  | .take t =>
    match s.worker t, s.queue with
    | none, j :: queue => some (.ok ({ s with queue }.goto t (some (.begin j))))
    | _, _ => none
  | .work t => (s.worker t).bind (s.work nonce procs t)
  | .handler t ret b => s.handled t ret b

/-- A process that has stopped takes no further step. -/
def step (nonce : ℕ) (procs : ℕ → Bool) :
    Except Halt (Sys α τ) → Act α τ → Option (Except Halt (Sys α τ))
  | .error _, _ => none
  | .ok s, a => s.exec nonce procs a

def PollPc.refs (p : PollPc α) (c : ConnId) : ℕ :=
  match p with
  | .add j | .retest j false | .undo j => if c = j.conn then 1 else 0
  | _ => 0

def PollPc.waits (p : PollPc α) (id : ℕ) : ℕ :=
  match p with
  | .add j | .retest j false | .undo j | .delete j => if id = j.id then 1 else 0
  | _ => 0

def Pc.refs (c : ConnId) (pc : Option (Pc α)) : ℕ :=
  pc.elim 0 fun pc => if c = pc.conn then 1 else 0

def Pc.waits (id : ℕ) : Option (Pc α) → ℕ
  | some (.begin j) => if id = j.id then 1 else 0
  | _ => 0

variable [Fintype τ]

/-- The queued and running jobs on a connection. -/
def Sys.jobsOn (s : Sys α τ) (c : ConnId) : ℕ :=
  s.queue.countP (fun j => j.conn = c) + ∑ t, Pc.refs c (s.worker t)

/-- The entries of `conns_` that point to a connection. -/
def Sys.saved (s : Sys α τ) (c : ConnId) : ℕ := savedIn s.conns c

def Sys.held (s : Sys α τ) (c : ConnId) : ℕ := s.jobsOn c + s.saved c + s.poll.refs c

/-- How often a job is still to be deleted. -/
def Sys.waiting (s : Sys α τ) (id : ℕ) : ℕ :=
  s.queue.countP (fun j => j.id = id) + ∑ t, Pc.waits id (s.worker t) + s.poll.waits id

/-- After the first section the client has an entry. -/
def Pc.Known (conns : Conns) : Pc α → Prop
  | .oldsrv _ => False
  | .check _ h | .handler _ h | .record _ h _ | .latest _ h =>
    h.cltNonce = 0 ∨ (conns.lookup h.cltNonce).isSome
  | .begin _ | .save _ _ | .send _ | .release _ => True

structure Sys.Ok (s : Sys α τ) : Prop where
  balanced : Balanced s.heap s.held
  stored : ∀ e ∈ s.conns.entries, e.2 ≠ none
  known : ∀ t pc, s.worker t = some pc → pc.Known s.conns
  polled : ∀ c, s.poll.locked = some c → (s.heap c).isSome
  fates : ∀ id, (s.executed ++ s.discarded).count id + s.waiting id = if id < s.next then 1 else 0

/-- The three places where the source gives back too little or too much: a request for
another server instance, a queued job that `got_pdu` discards, and a client without
nonce whose connection has died before the reply. -/
def Sys.Lawful (nonce : ℕ) (s : Sys α τ) : Act α τ → Prop
  | .poll _ =>
    match s.poll with
    | .retest _ true => s.reachable = true
    | _ => True
  | .work t =>
    match s.worker t with
    | some (.begin j) => ∀ h ∈ j.buf, h.srvNonce = 0 ∨ h.srvNonce = nonce
    | some (.latest c h) => h.cltNonce = 0 → ∀ x ∈ s.heap c, x.dead = false
    | _ => True
  | _ => True

def Lawful (nonce : ℕ) (r : Except Halt (Sys α τ)) (a : Act α τ) : Prop :=
  match r with
  | .error _ => True
  | .ok s => s.Lawful nonce a

instance (nonce : ℕ) (s : Sys α τ) : ∀ a, Decidable (s.Lawful nonce a)
  | .poll _ =>
    match h : s.poll with
    | .retest _ true => decidable_of_iff (s.reachable = true) (by simp only [Sys.Lawful, h])
    | .retest _ false | .idle | .test _ _ | .ref _ _ | .add _ | .undo _ | .delete _ =>
      isTrue (by simp only [Sys.Lawful, h])
  | .work t =>
    match h : s.worker t with
    | some (.begin j) =>
      decidable_of_iff (∀ q ∈ j.buf, q.srvNonce = 0 ∨ q.srvNonce = nonce)
        (by simp only [Sys.Lawful, h])
    | some (.latest c q) =>
      decidable_of_iff (q.cltNonce = 0 → ∀ x ∈ s.heap c, x.dead = false)
        (by simp only [Sys.Lawful, h])
    | none | some (.oldsrv _) | some (.save _ _) | some (.check _ _) | some (.handler _ _)
    | some (.record _ _ _) | some (.send _) | some (.release _) =>
      isTrue (by simp only [Sys.Lawful, h])
  | .accept _ _ | .collect _ | .die _ | .setReachable _ | .pdu _ _ | .take _ | .handler _ _ _ =>
    isTrue trivial

instance (nonce : ℕ) : ∀ (r : Except Halt (Sys α τ)) a, Decidable (Lawful nonce r a)
  | .error _, _ => isTrue trivial
  | .ok s, a => inferInstanceAs (Decidable (s.Lawful nonce a))

def Fine : Except Halt (Sys α τ) → Prop
  | .ok s => s.Ok
  | .error h => h.OfRequest

omit [DecidableEq τ] in
theorem held_pos {s : Sys α τ} {t : τ} {pc : Pc α} (hw : s.worker t = some pc) :
    0 < s.held pc.conn := by
  have hle := RefCount.le_sum (Pc.refs pc.conn) s.worker t
  rw [hw] at hle
  have hone : Pc.refs pc.conn (some pc) = 1 := if_pos rfl
  simp only [Sys.held, Sys.jobsOn]
  omega

theorem held_goto (s : Sys α τ) (t : τ) (pc : Option (Pc α)) (c : ConnId) :
    (s.goto t pc).held c + Pc.refs c (s.worker t) = s.held c + Pc.refs c pc := by
  have hsum := RefCount.sum_update (Pc.refs c) s.worker t pc
  simp only [Sys.held, Sys.jobsOn, Sys.goto, Sys.saved]
  omega

theorem held_goto_same {s : Sys α τ} {t : τ} {pc pc' : Pc α} (hw : s.worker t = some pc)
    (hconn : pc'.conn = pc.conn) (c : ConnId) : (s.goto t (some pc')).held c = s.held c := by
  have hgoto := held_goto s t (some pc') c
  have hsame : Pc.refs c (some pc') = Pc.refs c (some pc) := by
    simp only [Pc.refs, Option.elim_some, hconn]
  rw [hsame, ← hw] at hgoto
  exact Nat.add_right_cancel hgoto

theorem waiting_goto (s : Sys α τ) (t : τ) (pc : Option (Pc α)) (id : ℕ) :
    (s.goto t pc).waiting id + Pc.waits id (s.worker t) = s.waiting id + Pc.waits id pc := by
  have hsum := RefCount.sum_update (Pc.waits id) s.worker t pc
  simp only [Sys.waiting, Sys.goto]
  omega

theorem Pc.Known.mono {conns conns' : Conns} {pc : Pc α} (h : pc.Known conns)
    (hc : ∀ n, (conns.lookup n).isSome → (conns'.lookup n).isSome) : pc.Known conns' := by
  cases pc with
  | oldsrv c => exact h
  | begin j | save c r | send c | release c => trivial
  | check c r | handler c r | record c r b | latest c r => exact h.imp_right (hc _)

/-- A step of `dispatch` that deletes no job. -/
theorem Sys.Ok.moved {s : Sys α τ} (hs : s.Ok) (t : τ) (pc : Pc α) (pc' : Option (Pc α))
    (heap : Heap ConnId Time) (conns : Conns) (window : ℕ → List ReplyT) (hw : s.worker t = some pc)
    (hwaits : ∀ id, Pc.waits id (some pc) = Pc.waits id pc')
    (hbal : Balanced heap (({ s with heap, conns, window } : Sys α τ).goto t pc').held)
    (hst : ∀ e ∈ conns.entries, e.2 ≠ none)
    (hconns : ∀ n, (s.conns.lookup n).isSome → (conns.lookup n).isSome)
    (hknown : ∀ p, pc' = some p → p.Known conns)
    (hlive : ∀ c, (s.heap c).isSome → (heap c).isSome) :
    (({ s with heap, conns, window } : Sys α τ).goto t pc').Ok where
  balanced := hbal
  stored := hst
  known := forall_update hknown fun u p hu => (hs.known u p hu).mono hconns
  polled c hc := hlive c (hs.polled c hc)
  fates id := by
    have hgoto := waiting_goto { s with heap, conns, window } t pc' id
    have hbefore := hs.fates id
    rw [← hwaits id, ← hw] at hgoto
    change (s.executed ++ s.discarded).count id + _ = _
    rw [Nat.add_right_cancel hgoto]
    exact hbefore

theorem Sys.Ok.stays {s : Sys α τ} (hs : s.Ok) (t : τ) (pc pc' : Pc α) (window : ℕ → List ReplyT)
    (hw : s.worker t = some pc) (hwaits : ∀ id, Pc.waits id (some pc) = Pc.waits id (some pc'))
    (hconn : pc'.conn = pc.conn) (hknown : pc'.Known s.conns) :
    (({ s with window } : Sys α τ).goto t (some pc')).Ok := by
  have hheld := held_goto_same (s := { s with window }) hw hconn
  exact hs.moved t pc (some pc') s.heap s.conns window hw hwaits (hs.balanced.congr hheld) hs.stored
    (fun _ h => h) (fun p hp => Option.some.inj hp ▸ hknown) fun _ h => h

omit [DecidableEq τ] in
theorem Sys.Ok.not_deleted {s : Sys α τ} (hs : s.Ok) {j : Djob α} (hj : 0 < s.waiting j.id) :
    ¬ s.deleted j := by
  intro hdel
  have hpos : 0 < (s.executed ++ s.discarded).count j.id :=
    List.count_pos_iff.mpr (List.mem_append.mpr hdel)
  have hfate := hs.fates j.id
  split_ifs at hfate <;> omega

omit [DecidableEq τ] in
theorem waiting_begin {s : Sys α τ} {t : τ} {j : Djob α} (hw : s.worker t = some (.begin j)) :
    0 < s.waiting j.id := by
  have hle := RefCount.le_sum (Pc.waits j.id) s.worker t
  rw [hw] at hle
  have hone : Pc.waits j.id (some (.begin j)) = 1 := if_pos rfl
  simp only [Sys.waiting]
  omega

/-- `dispatch` has deleted its job and goes on. -/
theorem Sys.Ok.begun {s : Sys α τ} (hs : s.Ok) (t : τ) (j : Djob α) (pc : Pc α)
    (hw : s.worker t = some (.begin j))
    (hwaits : ∀ id, Pc.waits id (some pc) = 0) (hconn : pc.conn = j.conn)
    (hknown : pc.Known s.conns) :
    (({ s with executed := s.executed ++ [j.id] } : Sys α τ).goto t (some pc)).Ok where
  balanced :=
    hs.balanced.congr (held_goto_same (s := { s with executed := s.executed ++ [j.id] }) hw hconn)
  stored := hs.stored
  known := forall_update_some hknown hs.known
  polled := hs.polled
  fates id := by
    have hgoto := waiting_goto { s with executed := s.executed ++ [j.id] } t (some pc) id
    have hbefore := hs.fates id
    rw [hwaits id] at hgoto
    change ((s.executed ++ [j.id]) ++ s.discarded).count id + _ = if id < s.next then 1 else 0
    change _ + Pc.waits id (s.worker t) = s.waiting id + 0 at hgoto
    rw [hw] at hgoto
    simp only [List.count_append, List.count_singleton, Pc.waits, beq_iff_eq,
      eq_comm (a := j.id)] at hgoto hbefore ⊢
    omega

theorem ok_begin (nonce : ℕ) (procs : ℕ → Bool) {s : Sys α τ} (hs : s.Ok) (t : τ) (j : Djob α)
    (hw : s.worker t = some (.begin j)) (hlaw : ∀ h ∈ j.buf, h.srvNonce = 0 ∨ h.srvNonce = nonce) :
    Fine (s.begin nonce procs t j) := by
  unfold Sys.begin
  rw [if_neg (hs.not_deleted (waiting_begin hw))]
  cases hbuf : j.buf with
  | none => exact hs.begun t j (.release j.conn) hw (fun _ => rfl) rfl trivial
  | some h =>
    have hsrv : ¬ (h.srvNonce ≠ 0 ∧ h.srvNonce ≠ nonce) := by
      have := hlaw h hbuf
      omega
    simp only [if_neg hsrv]
    split_ifs with hproc hclt
    · obtain ⟨heap',hdec,-,-⟩ := hs.balanced.decref (c := j.conn)
        (fun d => s.held d - if d = j.conn then 1 else 0) (by
          intro d
          have hpos := held_pos hw
          split_ifs with hd
          · subst hd
            exact (Nat.sub_add_cancel hpos).symm
          · rfl)
      simp only [hdec, Except.mapError, Except.bind, Fine, Halt.OfRequest]
    · exact hs.begun t j (.save j.conn h) hw (fun _ => rfl) rfl trivial
    · exact hs.begun t j (.handler j.conn h) hw (fun _ => rfl) rfl (.inl (not_not.mp hclt))

/-- References of everything but one thread. -/
def Sys.heldBut (s : Sys α τ) (t : τ) (d : ConnId) : ℕ :=
  s.jobsOn d - Pc.refs d (s.worker t) + s.poll.refs d

omit [DecidableEq τ] in
theorem held_split (s : Sys α τ) (t : τ) (d : ConnId) :
    s.held d = s.heldBut t d + savedIn s.conns d + Pc.refs d (s.worker t) := by
  have hle := RefCount.le_sum (Pc.refs d) s.worker t
  simp only [Sys.held, Sys.heldBut, Sys.jobsOn, Sys.saved]
  omega

theorem held_goto_split (s : Sys α τ) (heap : Heap ConnId Time) (conns : Conns) (t : τ)
    (pc : Option (Pc α)) (d : ConnId) :
    (({ s with heap, conns } : Sys α τ).goto t pc).held d =
      s.heldBut t d + savedIn conns d + Pc.refs d pc := by
  have hle := RefCount.le_sum (Pc.refs d) s.worker t
  have hsum := RefCount.sum_update (Pc.refs d) s.worker t pc
  simp only [Sys.held, Sys.heldBut, Sys.jobsOn, Sys.saved, Sys.goto]
  omega

theorem ok_work (nonce : ℕ) (procs : ℕ → Bool) {s : Sys α τ} (hs : s.Ok) (t : τ) (pc : Pc α)
    (hw : s.worker t = some pc) (hlaw : s.Lawful nonce (.work t)) (r : Except Halt (Sys α τ))
    (h : s.work nonce procs t pc = some r) : Fine r := by
  have hknown := hs.known t pc hw
  have hpos := held_pos hw
  have hsplit (d : ConnId) := held_split s t d
  simp only [hw, Pc.refs, Option.elim_some] at hsplit
  simp only [Sys.Lawful, hw] at hlaw
  cases pc with
  | begin j =>
    obtain rfl := Option.some.inj h
    exact ok_begin nonce procs hs t j hw hlaw
  | oldsrv c => exact hknown.elim
  | save c q =>
    -- the thread has a reference of its own, so `c` is there to be saved
    obtain ⟨heap',conns',hsave,hbal,hst,hlive,hlook⟩ := saveConn_ok
      (fun d => s.heldBut t d + if d = c then 1 else 0) q.cltNonce c
      (hs.balanced.congr fun d => (Nat.add_right_comm _ _ _).trans (hsplit d).symm)
        (by simp) hs.stored
    simp only [Sys.work, hsave, Except.mapError, Except.map, Option.some.injEq] at h
    obtain rfl := h
    refine hs.moved t _ _ heap' conns' s.window hw (fun _ => rfl) (hbal.congr fun d => ?_) hst
      (fun n hn => hlook n (.inr hn)) (fun p hp => ?_) hlive
    · rw [held_goto_split]
      exact Nat.add_right_comm _ _ _
    · obtain rfl := Option.some.inj hp
      exact .inr (hlook _ (.inl rfl))
  | check c q =>
    simp only [Sys.work, Option.some.injEq] at h
    obtain rfl := h
    cases hst : (checkduplicateAndUpdate (s.window q.cltNonce) q.xid q.xidRep).status with
    | new => exact hs.stays t _ (.handler c q) _ hw (fun _ => rfl) rfl hknown
    | inProgress => exact hs.stays t _ (.release c) _ hw (fun _ => rfl) rfl trivial
    | done | forgotten => exact hs.stays t _ (.send c) _ hw (fun _ => rfl) rfl trivial
  | handler c q => exact nomatch h
  | record c q b =>
    obtain rfl := Option.some.inj h
    exact hs.stays t _ (.latest c q) _ hw (fun _ => rfl) rfl hknown
  | latest c q =>
    -- the thread's reference moves from `c` to the latest connection
    obtain ⟨heap',c',hlast,hbal,hlive⟩ := latestConn_ok (s.heldBut t) q.cltNonce c
      (hs.balanced.congr fun d => (hsplit d).symm) hs.stored
      (hknown.imp_left fun hzero => hlaw hzero)
    simp only [Sys.work, hlast, Except.mapError, Except.map] at h
    split_ifs at h
    obtain rfl := Option.some.inj h
    refine hs.moved t _ _ heap' s.conns s.window hw (fun _ => rfl) (hbal.congr fun d => ?_)
      hs.stored
      (fun _ hn => hn) (fun p hp => ?_) hlive
    · rw [held_goto_split]
      rfl
    · obtain rfl := Option.some.inj hp
      trivial
  | send c =>
    obtain ⟨x,-,hload⟩ := hs.balanced.load_held hpos
    simp only [Pc.conn] at hload
    simp only [Sys.work, hload, Except.mapError, Except.map] at h
    split_ifs at h
    obtain rfl := Option.some.inj h
    exact hs.stays t _ (.release c) s.window hw (fun _ => rfl) rfl trivial
  | release c =>
    obtain ⟨heap',hdec,hbal,hlive⟩ := hs.balanced.decref (c := c)
      (fun d => s.heldBut t d + savedIn s.conns d) hsplit
    simp only [Sys.work, hdec, Except.mapError, Except.map, Option.some.injEq] at h
    obtain rfl := h
    refine hs.moved t _ none heap' s.conns s.window hw (fun _ => rfl) (hbal.congr fun d => ?_)
      hs.stored
      (fun _ hn => hn) (fun p hp => nomatch hp) hlive
    rw [held_goto_split]
    rfl

section
omit [DecidableEq τ]

theorem held_of_poll {s : Sys α τ} {p : PollPc α} (hp : s.poll = p) (d : ConnId) :
    s.held d = s.jobsOn d + s.saved d + p.refs d := by rw [Sys.held, hp]

theorem Sys.Ok.polls {s : Sys α τ} (hs : s.Ok) (poll : PollPc α) (queue : List (Djob α))
    (hheld : ∀ d, queue.countP (fun j => j.conn = d) + poll.refs d =
      s.queue.countP (fun j => j.conn = d) + s.poll.refs d)
    (hwaits : ∀ id, queue.countP (fun j => j.id = id) + poll.waits id =
      s.queue.countP (fun j => j.id = id) + s.poll.waits id)
    (hlocked : poll.locked = none ∨ poll.locked = s.poll.locked) :
    ({ s with poll, queue } : Sys α τ).Ok where
  balanced := by
    refine hs.balanced.congr fun d => ?_
    have := hheld d
    simp only [Sys.held, Sys.jobsOn, Sys.saved]
    omega
  stored := hs.stored
  known := hs.known
  polled c hc := by
    rcases hlocked with hl | hl
    · exact absurd (hl.symm.trans hc) (by simp)
    · exact hs.polled c (hl ▸ hc)
  fates id := by
    have hbefore := hs.fates id
    have := hwaits id
    simp only [Sys.waiting] at hbefore ⊢
    omega

theorem ok_gotPdu (nonce : ℕ) {s : Sys α τ} (hs : s.Ok) (succ : Bool)
    (hlaw : s.Lawful nonce (.poll succ))
    (r : Except Halt (Sys α τ)) (h : s.gotPdu succ = some r) : Fine r := by
  unfold Sys.gotPdu at h
  cases hp : s.poll with
  | idle =>
    rw [hp] at h
    exact nomatch h
  | test c b =>
    simp only [hp, Option.some.injEq] at h
    obtain rfl := h
    refine hs.polls _ s.queue (fun d => ?_) (fun id => ?_) ?_
    all_goals cases s.reachable <;> simp [hp, PollPc.refs, PollPc.waits, PollPc.locked]
  | ref c b =>
    have hlive := hs.polled c (by rw [hp]; rfl)
    obtain ⟨heap',hinc,hbal,hlive'⟩ := hs.balanced.incref
      (fun d => s.held d + if d = c then 1 else 0) hlive fun _ => rfl
    simp only [hp, hinc, Except.mapError, Except.map, Option.some.injEq] at h
    obtain rfl := h
    refine ⟨hbal.congr fun d => ?_, hs.stored, hs.known, ?_, fun id => ?_⟩
    · rw [held_of_poll hp d]
      rfl
    · intro d hd
      obtain rfl := Option.some.inj hd
      exact hlive' _ hlive
    · -- the new job is the only one with its number
      have hbefore := hs.fates id
      simp only [Sys.waiting, hp, PollPc.waits] at hbefore ⊢
      by_cases hid : id = s.next
      · rw [if_neg (by omega)] at hbefore
        rw [if_pos hid, if_pos (by omega)]
        omega
      · rw [if_neg hid]
        simp only [show id < s.next + 1 ↔ id < s.next by omega]
        exact hbefore
  | add j =>
    simp only [hp, Option.some.injEq] at h
    obtain rfl := h
    refine hs.polls _ _ (fun d => ?_) (fun id => ?_) (.inr (by rw [hp]; rfl))
    all_goals cases succ <;> simp [hp, PollPc.refs, PollPc.waits, List.countP_append, eq_comm]
  | retest j ok =>
    simp only [hp, Option.some.injEq] at h
    obtain rfl := h
    cases ok with
    | false =>
      refine hs.polls _ s.queue (fun d => ?_) (fun id => ?_) (.inr (by rw [hp]; rfl))
      all_goals simp [hp, PollPc.refs, PollPc.waits]
    | true =>
      -- the job is in the queue, which has its reference now
      simp only [Sys.Lawful, hp] at hlaw
      refine hs.polls _ s.queue (fun d => ?_) (fun id => ?_) (.inl (by simp [hlaw, PollPc.locked]))
      all_goals simp [hp, hlaw, PollPc.refs, PollPc.waits]
  | undo j =>
    obtain ⟨heap',hdec,hbal,hlive⟩ :=
      hs.balanced.decref (fun d => s.jobsOn d + s.saved d) (held_of_poll hp)
    simp only [hp, hdec, Except.mapError, Except.map, Option.some.injEq] at h
    obtain rfl := h
    refine ⟨hbal.congr fun d => rfl, hs.stored, hs.known, fun c hc => hlive c (hs.polled c ?_),
      fun id => ?_⟩
    · rw [hp]
      exact hc
    · have hbefore := hs.fates id
      simp only [Sys.waiting, hp] at hbefore ⊢
      exact hbefore
  | delete j =>
    have hwait : 0 < s.waiting j.id := by
      simp only [Sys.waiting, hp, PollPc.waits, if_true]
      omega
    simp only [hp, if_neg (hs.not_deleted hwait), Option.some.injEq] at h
    obtain rfl := h
    refine ⟨hs.balanced.congr fun d => ?_, hs.stored, hs.known, fun c hc => (nomatch hc),
      fun id => ?_⟩
    · rw [held_of_poll hp d]
      rfl
    · have hbefore := hs.fates id
      simp only [Sys.waiting, hp, PollPc.waits, List.count_append, List.count_singleton, beq_iff_eq,
        eq_comm (a := j.id)] at hbefore ⊢
      omega

/-- The listener and the sockets change no reference but the owner's. -/
theorem Sys.Ok.reheap {s : Sys α τ} (hs : s.Ok) (heap : Heap ConnId Time)
    (hbal : Balanced heap s.held)
    (hlive : ∀ c, s.poll.locked = some c → (s.heap c).isSome → (heap c).isSome) :
    ({ s with heap } : Sys α τ).Ok :=
  ⟨hbal, hs.stored, hs.known, fun c hc => hlive c hc (hs.polled c hc), hs.fates⟩

end

theorem ok_take {s : Sys α τ} (hs : s.Ok) (t : τ) (j : Djob α) (queue : List (Djob α))
    (hw : s.worker t = none)
    (hq : s.queue = j :: queue) : (({ s with queue } : Sys α τ).goto t (some (.begin j))).Ok where
  balanced := by
    refine hs.balanced.congr fun d => ?_
    have hsum := RefCount.sum_update (Pc.refs d) s.worker t (some (.begin j))
    rw [hw, show Pc.refs d (none : Option (Pc α)) = 0 from rfl,
      show Pc.refs d (some (.begin j)) = if d = j.conn then 1 else 0 from rfl] at hsum
    simp only [Sys.held, Sys.jobsOn, Sys.saved, Sys.goto, hq, List.countP_cons, decide_eq_true_eq,
      eq_comm (a := j.conn)]
    omega
  stored := hs.stored
  known := forall_update_some trivial hs.known
  polled := hs.polled
  fates id := by
    have hbefore := hs.fates id
    have hsum := RefCount.sum_update (Pc.waits id) s.worker t (some (.begin j))
    rw [hw, show Pc.waits id (none : Option (Pc α)) = 0 from rfl,
      show Pc.waits id (some (.begin j)) = if id = j.id then 1 else 0 from rfl] at hsum
    change (s.executed ++ s.discarded).count id + _ = if id < s.next then 1 else 0
    simp only [Sys.waiting, Sys.goto, hq, List.countP_cons, decide_eq_true_eq,
      eq_comm (a := j.id)] at hbefore ⊢
    omega

theorem ok_exec (nonce : ℕ) (procs : ℕ → Bool) {s : Sys α τ} (hs : s.Ok) (a : Act α τ)
    (hlaw : s.Lawful nonce a) (r : Except Halt (Sys α τ)) (h : s.exec nonce procs a = some r) :
    Fine r := by
  cases a with
  | accept c time =>
    simp only [Sys.exec] at h
    split_ifs at h with hfree
    obtain rfl := Option.some.inj h
    refine hs.reheap _ (hs.balanced.update c _ ?_ fun _ _ => rfl) fun d _ hd =>
      RefCount.isSome_update _ _ _ _ hd
    rw [hs.balanced.gone c hfree]
    rfl
  | collect c =>
    simp only [Sys.exec] at h
    split at h
    · exact nomatch h
    · rename_i x hx
      split_ifs at h with hcond
      obtain ⟨hdec,hbal⟩ := hs.balanced.decref_last hx hcond.2.2 hcond.2.1
      simp only [hdec, Except.mapError, Except.map, Option.some.injEq] at h
      obtain rfl := h
      -- the poll thread is not inside `got_pdu` with this one
      refine hs.reheap _ hbal fun d hd hlive => ?_
      have hdc : d ≠ c := fun he => hcond.1 (he ▸ hd)
      rwa [Function.update_of_ne hdc]
  | die c =>
    simp only [Sys.exec] at h
    split at h
    · exact nomatch h
    · rename_i x hx
      split_ifs at h with hcond
      obtain rfl := Option.some.inj h
      exact hs.reheap _ (hs.balanced.update c _ (hs.balanced.live c x hx) fun _ _ => rfl)
        fun d _ hd => RefCount.isSome_update _ _ _ _ hd
  | setReachable b =>
    obtain rfl := Option.some.inj h
    exact ⟨hs.balanced, hs.stored, hs.known, hs.polled, hs.fates⟩
  | pdu c b =>
    simp only [Sys.exec] at h
    split at h
    · rename_i x hp hx
      split_ifs at h
      obtain rfl := Option.some.inj h
      refine ⟨hs.balanced.congr fun d => ?_, hs.stored, hs.known, fun d hd => ?_, fun id => ?_⟩
      · rw [held_of_poll hp d]
        rfl
      · obtain rfl := Option.some.inj hd
        exact hx ▸ rfl
      · have hbefore := hs.fates id
        simp only [Sys.waiting, hp] at hbefore ⊢
        exact hbefore
    · exact nomatch h
  | poll succ => exact ok_gotPdu nonce hs succ hlaw r h
  | take t =>
    simp only [Sys.exec] at h
    split at h
    · rename_i j queue hw hq
      obtain rfl := Option.some.inj h
      exact ok_take hs t j queue hw hq
    · exact nomatch h
  | work t =>
    obtain ⟨pc,hw,h⟩ := Option.bind_eq_some_iff.mp h
    exact ok_work nonce procs hs t pc hw hlaw r h
  | handler t ret b =>
    simp only [Sys.exec, Sys.handled] at h
    split at h
    · rename_i c q hw
      have hknown := hs.known t _ hw
      split_ifs at h with hun hneg hclt
      · exact Option.some.inj h ▸ trivial
      · exact Option.some.inj h ▸ trivial
      · exact Option.some.inj h ▸ hs.stays t _ (.record c q b) s.window hw (fun _ => rfl) rfl hknown
      · exact Option.some.inj h ▸ hs.stays t _ (.latest c q) s.window hw (fun _ => rfl) rfl hknown
    · exact nomatch h

omit [DecidableEq τ] in
theorem ok_init : (Sys.init : Sys α τ).Ok where
  balanced := by
    refine ⟨fun _ _ h => (nomatch h), fun c _ => ?_⟩
    simp [Sys.held, Sys.jobsOn, Sys.saved, savedIn, Sys.init, SortedMap.empty, Pc.refs, PollPc.refs]
  stored e he := nomatch he
  known t pc h := nomatch h
  polled c h := nomatch h
  fates id := by simp [Sys.waiting, Sys.init, Pc.waits, PollPc.waits]

/-- Along a lawful run the process stops only for a request that cannot be served. -/
theorem fine_run (nonce : ℕ) (procs : ℕ → Bool) (acts : List (Act α τ)) (r : Except Halt (Sys α τ))
    (hrun : run (step nonce procs) (.ok Sys.init) acts = some r)
    (hlaw : RunAll (step nonce procs) (Lawful nonce) (.ok Sys.init) acts) : Fine r := by
  refine run_invariant_of_all (step nonce procs) (Lawful nonce) Fine ?_ (.ok Sys.init) r acts
    ok_init hlaw hrun
  intro r a r' hfine hlaw hstep
  cases r with
  | error h => exact nomatch hstep
  | ok s => exact ok_exec nonce procs hfine a hlaw r' hstep

/-- In a state in which the poll thread is not inside `got_pdu`: every job waits or has been
deleted once, the counts are exact, and what no job and no entry of `conns_` refers to has
its owner's reference only. -/
structure Sys.Exact (s : Sys α τ) : Prop where
  jobs : ∀ id, id < s.next →
    (s.executed ++ s.discarded).count id + s.queue.countP (fun j => j.id = id) +
    ∑ t, Pc.waits id (s.worker t) = 1
  refs : ∀ c x, s.heap c = some x → x.refno = 1 + s.jobsOn c + s.saved c
  finished : s.queue = [] → (∀ t, s.worker t = none) → ∀ c x, s.heap c = some x →
    (∀ e ∈ s.conns.entries, e.2 ≠ some c) → x.refno = 1

theorem refs_balance (nonce : ℕ) (procs : ℕ → Bool) (acts : List (Act α τ))
    (r : Except Halt (Sys α τ)) (hrun : run (step nonce procs) (.ok Sys.init) acts = some r)
    (hlaw : RunAll (step nonce procs) (Lawful nonce) (.ok Sys.init) acts) :
    (∀ h, r = .error h → h.OfRequest) ∧ ∀ s, r = .ok s → s.poll = .idle → s.Exact := by
  have hfine := fine_run nonce procs acts r hrun hlaw
  refine ⟨fun h hr => by simpa only [hr, Fine] using hfine, fun s hr hpoll => ?_⟩
  have hs : s.Ok := by simpa only [hr, Fine] using hfine
  have hheld (c : ConnId) : s.held c = s.jobsOn c + s.saved c := held_of_poll hpoll c
  have hrefs : ∀ c x, s.heap c = some x → x.refno = 1 + s.jobsOn c + s.saved c := by
    intro c x hx
    rw [hs.balanced.live c x hx, hheld c]
    push_cast
    omega
  refine ⟨fun id hid => ?_, hrefs, fun hqueue hworker c x hx hconns => ?_⟩
  · have hfate := hs.fates id
    rw [if_pos hid, Sys.waiting, hpoll] at hfate
    exact (Nat.add_assoc _ _ _).trans hfate
  · have hjobs : s.jobsOn c = 0 := by simp [Sys.jobsOn, hqueue, hworker, Pc.refs]
    have hsaved : s.saved c = 0 := List.countP_eq_zero.mpr fun e he => by simpa using hconns e he
    rw [hrefs c x hx, hjobs, hsaved]
    rfl

end

def request (cltNonce srvNonce : ℕ) : Req Unit := ⟨1, 1, cltNonce, srvNonce, 0, ()⟩

/-- A PDU goes into the queue and a thread takes it out. -/
def arrives (c : ConnId) (h : Req Unit) (t : Fin 6) : List (Act Unit (Fin 6)) :=
  [.pdu c (some h), .poll true, .poll true, .poll true, .poll true, .take t]

/-- The run of `acts` ends in a state with the property. -/
def endsIn (p : Sys Unit (Fin 6) → Prop) [DecidablePred p] (acts : List (Act Unit (Fin 6))) :
    Bool :=
  (run (step 7 fun _ => true) (.ok Sys.init) acts).any fun
    | .error _ => false
    | .ok s => decide (p s)

theorem exists_of_endsIn {p : Sys Unit (Fin 6) → Prop} [DecidablePred p]
    {acts : List (Act Unit (Fin 6))} (h : endsIn p acts = true) :
    ∃ s, run (step 7 fun _ => true) (.ok Sys.init) acts = some (.ok s) ∧ p s := by
  obtain ⟨r,hrun,hr⟩ := (Option.any_eq_true _ _).mp h
  cases r with
  | error h => exact nomatch hr
  | ok s => exact ⟨s, hrun, of_decide_eq_true hr⟩

/-- A client sends its request again on a new connection, and the old one dies before the
handler returns: the reply goes out on the new one and the old one is collected. -/
def reconnect : List (Act Unit (Fin 6)) :=
  [.accept 0 (1, 0)] ++ arrives 0 (request 5 7) 0 ++
    [.work 0, .work 0, .work 0, .accept 1 (2, 0)] ++ arrives 1 (request 5 7) 1 ++
    [.work 1, .work 1, .work 1, .work 1, .die 0, .handler 0 0 64, .work 0, .work 0, .work 0,
      .work 0, .collect 0]

theorem refs_balance_reconnect : ∃ s : Sys Unit (Fin 6),
    run (step 7 fun _ => true) (.ok Sys.init) reconnect = some (.ok s) ∧ s.heap 0 = none ∧
    (s.heap 1).map (·.refno) = some 2 ∧ s.conns.entries = [(5, some 1)] ∧ s.executed = [0, 1] ∧
    s.Exact := by
  obtain ⟨s,hrun,hpoll,h0,h1,hconns,hexec⟩ := exists_of_endsIn (by decide +kernel : endsIn (fun s =>
    s.poll.locked = none ∧ s.heap 0 = none ∧ (s.heap 1).map (·.refno) = some 2 ∧
    s.conns.entries = [(5, some 1)] ∧ s.executed = [0, 1]) reconnect = true)
  have hexact := (refs_balance 7 (fun _ => true) reconnect (.ok s) hrun (by decide +kernel)).2 s rfl
  exact ⟨s, hrun, h0, h1, hconns, hexec, hexact (s.poll.idle_of_locked hpoll)⟩

def stopsWith (h : Halt) : Except Halt (Sys Unit (Fin 6)) → Bool
  | .error h' => decide (h' = h)
  | .ok _ => false

theorem eq_of_stopsWith {o : Option (Except Halt (Sys Unit (Fin 6)))} {h : Halt}
    (ho : o.any (stopsWith h) = true) : o = some (.error h) := by
  obtain ⟨r,rfl,hr⟩ := (Option.any_eq_true _ _).mp ho
  cases r with
  | error h' => rw [of_decide_eq_true hr]
  | ok s => exact nomatch hr

/-- A request for an older instance of the server. -/
def oldServer : List (Act Unit (Fin 6)) :=
  [.accept 0 (1, 0)] ++ arrives 0 (request 5 6) 0 ++ [.work 0, .work 0]

/-- The server becomes unreachable while `got_pdu` is between its two tests. -/
def unreachable : List (Act Unit (Fin 6)) :=
  [.accept 0 (1, 0), .pdu 0 (some (request 5 7)), .poll true, .poll true, .poll true,
    .setReachable false, .poll true, .poll true, .poll true]

/-- The connection of a client without nonce dies before the reply. -/
def noNonce : List (Act Unit (Fin 6)) :=
  [.accept 0 (1, 0)] ++ arrives 0 (request 0 0) 0 ++ [.work 0, .handler 0 0 64, .die 0, .work 0]

/-- The first run ends with a reference that nobody has, the second with one too few for
the queued job, which is then used after its deletion; the third uses a null connection. -/
theorem refs_unbalanced :
    (∃ s : Sys Unit (Fin 6), run (step 7 fun _ => true) (.ok Sys.init) oldServer = some (.ok s) ∧
      s.poll.locked = none ∧ s.jobsOn 0 = 0 ∧ s.saved 0 = 0 ∧ (s.heap 0).map (·.refno) = some 2) ∧
    (∃ s : Sys Unit (Fin 6), run (step 7 fun _ => true) (.ok Sys.init) unreachable = some (.ok s) ∧
      s.poll.locked = none ∧ s.jobsOn 0 = 1 ∧ s.saved 0 = 0 ∧ (s.heap 0).map (·.refno) = some 1) ∧
    run (step 7 fun _ => true) (.ok Sys.init) (unreachable ++ [.take 0, .work 0]) =
      some (.error .job) ∧
    run (step 7 fun _ => true) (.ok Sys.init) noNonce = some (.error (.conn .null)) := by
  exact ⟨exists_of_endsIn (by decide +kernel), exists_of_endsIn (by decide +kernel),
    eq_of_stopsWith (by decide +kernel), eq_of_stopsWith (by decide +kernel)⟩

end Yfs.ConnRefs
