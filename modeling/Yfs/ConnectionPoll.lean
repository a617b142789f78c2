import Yfs.ConnectionSend
import Yfs.PollMgr

namespace Yfs.Polled

open Yfs.Wire Yfs.Conn Yfs.Poll

/-- In the poll manager a thread is named by the connection whose descriptor it removes, from `send`
or (without a thread) from `closeconn`, which gets there once. `closing` are the connections whose
`closeconn` has not called `block_remove_fd` yet, and `aborted` says that a `VERIFY` of a callback
has failed. -/
structure Sys (γ τ : Type) where
  poll : PollMgr (γ × Option τ) γ
  conn : γ → Option (Connection τ)
  incoming : γ → Stream
  closing : List γ
  aborted : Bool

/-- `readBody` and `writeBody` are the callbacks, from the lock to the return; `head` to `call` are
the other steps of `wait_loop`. -/
inductive SysAct (γ τ : Type)
  | create (c : γ)
  | send (c : γ) (t : τ) (b : Pdu) (r : WriteRes)
  | sendWake (c : γ) (t : τ) (r : WriteRes)
  | completeWake (c : γ) (t : τ)
  | sendRemove (c : γ) (t : τ)
  | sendRemoved (c : γ) (t : τ)
  | closeconn (c : γ)
  | closeRemove (c : γ)
  | closeRemoved (c : γ)
  | arrive (c : γ) (bs : List Byte)
  | head
  | copy
  | ready (trfds twfds : Finset ℕ)
  | interrupted
  | test
  | call
  | readBody (hdr body : ReadRes) (accept : Bool)
  | writeBody (r : WriteRes)

section
variable {γ τ : Type} [DecidableEq γ] [DecidableEq τ]

namespace Sys

def init (γ τ : Type) (pipefd : ℕ) : Sys γ τ :=
  ⟨.init _ _ pipefd, fun _ => none, fun _ => ⟨[], 0⟩, [], false⟩

def setConn (s : Sys γ τ) (c : γ) (x : Connection τ) : Sys γ τ :=
  { s with conn := Function.update s.conn c (some x) }

def setPoll (s : Sys γ τ) (p : PollMgr (γ × Option τ) γ) : Sys γ τ := { s with poll := p }

/-- A step that is the poll manager's alone. -/
def polls (s : Sys γ τ) (a : PollAct (γ × Option τ) γ) : Option (Sys γ τ) :=
  (s.poll.step a).map s.setPoll

def create (fd : γ → ℕ) (s : Sys γ τ) (c : γ) : Option (Sys γ τ) :=
  if (s.conn c).isSome = true then none
  else (s.polls (.addCallback (fd c) .rdonly c)).map fun s =>
    s.setConn c ⟨false, .empty, .empty, fun _ => .idle, [], [], []⟩

/-- `send`, up to its return or to where it lets go of `m_`: a call that has not written all of its
PDU asks for the write callback. -/
def sends (fd : γ → ℕ) (s : Sys γ τ) (c : γ) (t : τ) (a : Act τ) : Option (Sys γ τ) :=
  (s.conn c).bind fun x => (x.act a).bind fun (x', _) =>
    match x'.pc t with
    -- `m_` is held over `add_callback`
    | .completing => (s.polls (.addCallback (fd c) .wronly c)).map fun s => s.setConn c x'
    | _ => some (s.setConn c x')

/-- Without an effect on the poll manager. -/
def acts (s : Sys γ τ) (c : γ) (a : Act τ) : Option (Sys γ τ) :=
  (s.conn c).bind fun x => (x.act a).map fun (x', _) => s.setConn c x'

/-- `send` calls `block_remove_fd` after its `write` has failed. -/
def sendRemove (fd : γ → ℕ) (s : Sys γ τ) (c : γ) (t : τ) : Option (Sys γ τ) :=
  (s.conn c).bind fun x =>
    match x.pc t with
    | .removing => s.polls (.blockRemoveFd (c, some t) (fd c))
    | _ => none

def sendRemoved (fd : γ → ℕ) (s : Sys γ τ) (c : γ) (t : τ) : Option (Sys γ τ) :=
  (s.polls (.removed (c, some t) (fd c))).bind fun s => s.acts c (.removed t)

def closeconn (s : Sys γ τ) (c : γ) : Option (Sys γ τ) :=
  (s.conn c).map fun x =>
    -- here `m_` is released, with the descriptor still watched
    if x.dead = true then s else { s.setConn c { x with dead := true } with
      closing := c :: s.closing }

def closeRemove (fd : γ → ℕ) (s : Sys γ τ) (c : γ) : Option (Sys γ τ) :=
  if c ∈ s.closing then
    (s.polls (.blockRemoveFd (c, none) (fd c))).map fun s => { s with closing := s.closing.erase c }
  else none

/-- `read_cb`: a read that fails takes the descriptor out of the poll manager first. -/
def readBody (fd : γ → ℕ) (s : Sys γ τ) (hdr body : ReadRes) (accept : Bool) : Option (Sys γ τ) :=
  match s.poll.pc with
  | .running .read f c _ => (s.conn c).bind fun x =>
    if fd c ≠ f then some { s with aborted := true }
    else (x.readCb (s.incoming c) hdr body accept).bind fun (x', w) =>
      let p := if x.dead = false ∧ x'.dead = true then s.poll.delCallback (fd c) .rdwr else s.poll
      (p.step .returned).map fun p =>
        { (s.setPoll p).setConn c x' with incoming := Function.update s.incoming c w }
  | _ => none

def writeBody (fd : γ → ℕ) (s : Sys γ τ) (r : WriteRes) : Option (Sys γ τ) :=
  match s.poll.pc with
  | .running .write f c _ => (s.conn c).bind fun x =>
    -- the two `VERIFY`s
    if x.dead = true ∨ fd c ≠ f then some { s with aborted := true }
    else (x.writeCb r).bind fun (x', _) =>
      -- without a PDU the watch is given up; it has outlived the `send` that asked for it
      let p := if x.wpdu.sz = 0 then s.poll.delCallback (fd c) .wronly
        else if x'.dead = true then s.poll.delCallback (fd c) .rdwr
        else s.poll
      (p.step .returned).map fun p => (s.setPoll p).setConn c x'
  | _ => none

def exec (fd : γ → ℕ) (s : Sys γ τ) : SysAct γ τ → Option (Sys γ τ)
  | .create c => s.create fd c
  | .send c t b r => s.sends fd c t (.send t b r)
  | .sendWake c t r => s.sends fd c t (.sendWake t r)
  | .completeWake c t => s.acts c (.completeWake t)
  | .sendRemove c t => s.sendRemove fd c t
  | .sendRemoved c t => s.sendRemoved fd c t
  | .closeconn c => s.closeconn c
  | .closeRemove c => s.closeRemove fd c
  | .closeRemoved c => s.polls (.removed (c, none) (fd c))
  | .arrive c bs => some { s with
      incoming := Function.update s.incoming c { s.incoming c with
        written := (s.incoming c).written ++ bs } }
  | .head => s.polls .head
  | .copy => s.polls .copy
  | .ready r w => s.polls (.ready r w)
  | .interrupted => s.polls .interrupted
  | .test => s.polls .test
  | .call => s.polls .call
  | .readBody hdr body accept => s.readBody fd hdr body accept
  | .writeBody r => s.writeBody fd r

/-- An aborted process takes no further step. -/
def step (fd : γ → ℕ) (s : Sys γ τ) (a : SysAct γ τ) : Option (Sys γ τ) :=
  if s.aborted = true then none else s.exec fd a

end Sys

section
variable {σ : Type} [DecidableEq σ]

def PendingWrite (fd : ℕ) : PollPc γ → Prop
  | .select _ twfds _ => fd ∈ twfds
  | .dispatch todo | .tested _ _ todo | .running _ _ _ todo => (Cb.write, fd) ∈ todo
  | _ => False

/-- The poll thread has decided to call `write_cb`, or has called it. -/
def CallsWrite (fd : ℕ) : PollPc γ → Prop
  | .tested cb fd' _ | .running cb fd' _ _ => cb = .write ∧ fd' = fd
  | _ => False

instance (fd : ℕ) : (pc : PollPc γ) → Decidable (PendingWrite fd pc)
  | .select _ twfds _ => inferInstanceAs (Decidable (fd ∈ twfds))
  | .dispatch todo | .tested _ _ todo | .running _ _ _ todo =>
    inferInstanceAs (Decidable ((Cb.write, fd) ∈ todo))
  | .top | .cleared | .crashed => isFalse id

instance (fd : ℕ) : (pc : PollPc γ) → Decidable (CallsWrite fd pc)
  | .tested cb fd' _ | .running cb fd' _ _ => inferInstanceAs (Decidable (cb = .write ∧ fd' = fd))
  | .top | .cleared | .select _ _ _ | .dispatch _ | .crashed => isFalse id

/-- No `write_cb` is going to be called for the descriptor. -/
structure Calm (p : PollMgr σ γ) (fd : ℕ) : Prop where
  unwatched : fd ∉ p.aio.wfds
  idle : ¬ CallsWrite fd p.pc
  coming : p.callbacks fd = none ∨ ¬ PendingWrite fd p.pc

theorem mem_wfds_unwatchFd {a : SelectAio} {fd fd' : ℕ} {flag : PollFlag}
    (h : fd' ∈ (a.unwatchFd fd flag).1.wfds) : fd' ∈ a.wfds := by
  simp only [SelectAio.unwatchFd] at h
  split_ifs at h
  · exact h
  · exact Finset.mem_of_mem_erase h

section
omit [DecidableEq γ]

theorem wfds_step {p p' : PollMgr σ γ} {a : PollAct σ γ} {fd : ℕ} (hs : PollStep p a p')
    (h : fd ∈ p'.aio.wfds) :
    a.Adds fd ∨ fd ∈ p.aio.wfds := by
  cases hs with
  | add fd' flag ch hfd hcb =>
    simp only [SelectAio.watchFd] at h
    split_ifs at h
    · exact .inr h
    · exact (Finset.mem_insert.mp h).imp_left Eq.symm
  | del fd' flag => exact .inr (mem_wfds_unwatchFd h)
  | remove t fd' ht => exact .inr (mem_wfds_unwatchFd h)
  | ready r w trfds twfds high hpc hr hw hpipe =>
    simp only [SelectAio.readPipe] at h
    split_ifs at h
    · exact .inr h
    · exact .inr h
  | removed | broadcast | pass | copy | interrupted | again | skip | test | crash | call
  | returned => exact .inr h

theorem callbacks_step {p p' : PollMgr σ γ} {a : PollAct σ γ} {fd : ℕ} (hs : PollStep p a p')
    (ha : ¬ a.Adds fd) (h : p.callbacks fd = none) : p'.callbacks fd = none := by
  cases hs with
  | add fd' flag ch hfd hcb => exact (Function.update_of_ne (fun he => ha he.symm) ..).trans h
  | del fd' flag =>
    simp only [PollMgr.delCallback]
    split_ifs
    · by_cases hfd : fd = fd'
      · exact hfd ▸ Function.update_self ..
      · exact (Function.update_of_ne hfd ..).trans h
    · exact h
  | removed t fd' hmem hw =>
    by_cases hfd : fd = fd'
    · exact hfd ▸ Function.update_self ..
    · exact (Function.update_of_ne hfd ..).trans h
  | remove | broadcast | pass | copy | ready | interrupted | again | skip | test | crash | call
  | returned => exact h

theorem pendingWrite_step {p p' : PollMgr σ γ} {a : PollAct σ γ} {fd : ℕ} (hs : PollStep p a p')
    (h : PendingWrite fd p'.pc) :
    PendingWrite fd p.pc ∨ fd ∈ p.aio.wfds := by
  cases hs with
  | add | del | remove | removed => exact .inl h
  | broadcast | pass | interrupted | again | crash => exact nomatch h
  | copy hpc => exact .inr h
  | ready r w trfds twfds high hpc hr hw hpipe =>
    rw [hpc]
    have hmem : fd ∈ p.aio.writable r w high := by simpa [PendingWrite] using h
    have hin := (List.mem_filter.mp hmem).2
    simp only [decide_eq_true_eq] at hin
    exact .inl (hw hin.1)
  | skip cb fd' todo hpc hcb =>
    rw [hpc]
    exact .inl (List.mem_cons_of_mem _ h)
  | test cb fd' todo hpc hcb =>
    rw [hpc]
    exact .inl (List.mem_cons_of_mem _ h)
  | call cb fd' todo ch hpc hcb =>
    rw [hpc]
    exact .inl h
  | returned cb fd' ch todo hpc =>
    rw [hpc]
    exact .inl h

theorem callsWrite_step {p p' : PollMgr σ γ} {a : PollAct σ γ} {fd : ℕ} (hs : PollStep p a p')
    (h : CallsWrite fd p'.pc) :
    CallsWrite fd p.pc ∨ (PendingWrite fd p.pc ∧ p.callbacks fd ≠ none) := by
  cases hs with
  | add | del | remove | removed => exact .inl h
  | broadcast | pass | copy | ready | interrupted | again | skip | crash | returned =>
    exact nomatch h
  | test cb fd' todo hpc hcb =>
    obtain ⟨rfl,rfl⟩ := h
    rw [hpc]
    exact .inr ⟨List.mem_cons_self,hcb⟩
  | call cb fd' todo ch hpc hcb =>
    rw [hpc]
    exact .inl h

theorem Calm.step {p p' : PollMgr σ γ} {a : PollAct σ γ} {fd : ℕ} (h : Calm p fd)
    (hs : PollStep p a p') (ha : ¬ a.Adds fd) :
    Calm p' fd where
  unwatched hw := (wfds_step hs hw).elim ha h.unwatched
  idle hc := (callsWrite_step hs hc).elim h.idle fun hp => h.coming.elim hp.2 fun hno => hno hp.1
  coming := by
    -- what is pending comes from a copy of `wfds_`, in which the descriptor is not
    refine h.coming.imp (callbacks_step hs ha) fun hno hp => ?_
    exact (pendingWrite_step hs hp).elim hno h.unwatched

end

end

/-- The callback of a descriptor is the connection that has it. -/
structure Named {σ : Type} (fd : γ → ℕ) (p : PollMgr σ γ) : Prop where
  callbacks : ∀ f c, p.callbacks f = some c → fd c = f
  running : ∀ cb f c todo, p.pc = .running cb f c todo → fd c = f

/-- No `write_cb` is going to be called for a dead connection. -/
structure Ok (fd : γ → ℕ) (s : Sys γ τ) : Prop where
  calm : ∀ c x, s.conn c = some x → x.dead = true → Calm s.poll (fd c)
  named : Named fd s.poll
  fine : s.aborted = false

/-- The poll thread is not on its way to a `write_cb` of the descriptor. -/
def WriteFree {σ : Type} (p : PollMgr σ γ) (fd : ℕ) : Prop :=
  fd ∉ p.aio.wfds ∧ ¬ CallsWrite fd p.pc ∧ ¬ PendingWrite fd p.pc

instance {σ : Type} (p : PollMgr σ γ) (fd : ℕ) : Decidable (WriteFree p fd) :=
  inferInstanceAs (Decidable (_ ∧ _ ∧ _))

omit [DecidableEq γ] in
theorem WriteFree.calm {σ : Type} {p : PollMgr σ γ} {fd : ℕ} (h : WriteFree p fd) : Calm p fd :=
  ⟨h.1,h.2.1,.inr h.2.2⟩

/-- `closeconn`, and `send` after a `write` that fails, set `dead_` only when the poll thread is not
on its way to `write_cb`. -/
def Cautious (fd : γ → ℕ) (s : Sys γ τ) : SysAct γ τ → Prop
  | .closeconn c => ∀ x ∈ s.conn c, x.dead = false → WriteFree s.poll (fd c)
  | .send c _ _ r | .sendWake c _ r =>
    ∀ x ∈ s.conn c, r = .error → x.dead = false → x.wpdu.buf.isSome = false →
      WriteFree s.poll (fd c)
  | _ => True

instance (fd : γ → ℕ) (s : Sys γ τ) : ∀ a, Decidable (Cautious fd s a)
  | .closeconn c => inferInstanceAs
    (Decidable (∀ x ∈ s.conn c, x.dead = false → WriteFree s.poll (fd c)))
  | .send c _ _ r | .sendWake c _ r => inferInstanceAs (Decidable
      (∀ x ∈ s.conn c, r = .error → x.dead = false → x.wpdu.buf.isSome = false →
        WriteFree s.poll (fd c)))
  | .create _ | .completeWake _ _ | .sendRemove _ _ | .sendRemoved _ _ | .closeRemove
      _ | .closeRemoved _ | .arrive _ _
  | .head | .copy | .ready _ _ | .interrupted | .test | .call | .readBody _ _ _ | .writeBody _ =>
    isTrue trivial

omit [DecidableEq γ] in
theorem Named.step {σ : Type} [DecidableEq σ] {fd : γ → ℕ} {p p' : PollMgr σ γ} {a : PollAct σ γ}
    (h : Named fd p)
    (hs : PollStep p a p') (ha : ∀ f flag c, a = .addCallback f flag c → fd c = f) :
    Named fd p' := by
  cases hs with
  | add f flag ch hfd hcb => exact ⟨forall_update_some (ha f flag ch rfl) h.callbacks,h.running⟩
  | del f flag =>
    refine ⟨?_,h.running⟩
    simp only [PollMgr.delCallback]
    split_ifs
    · exact forall_update nofun h.callbacks
    · exact h.callbacks
  | removed t f hmem hw => exact ⟨forall_update nofun h.callbacks,h.running⟩
  | remove t f ht => exact ⟨h.callbacks,h.running⟩
  | call cb f todo ch hpc hcb =>
    refine ⟨h.callbacks,fun cb' f' c todo' hrun => ?_⟩
    cases hrun
    exact h.callbacks f ch hcb
  | broadcast | pass | copy | ready | interrupted | again | skip | test | crash | returned =>
    exact ⟨h.callbacks,fun _ _ _ _ => nofun⟩

theorem polls_step {s s' : Sys γ τ} {a : PollAct (γ × Option τ) γ} (h : s.polls a = some s') :
    ∃ p, PollStep s.poll a p ∧ s' = s.setPoll p := by
  obtain ⟨p,hp,rfl⟩ := Option.map_eq_some_iff.mp h
  exact ⟨p,pollStep_of_step hp,rfl⟩

/-- Everything but the callbacks of a connection that is not dead. -/
theorem ok_polls {fd : γ → ℕ} {s : Sys γ τ} {a : PollAct (γ × Option τ) γ}
    {p : PollMgr (γ × Option τ) γ} (h : Ok fd s)
    (hs : PollStep s.poll a p) (ha : ∀ f, ¬ a.Adds f) : Ok fd (s.setPoll p) := by
  refine ⟨fun c x hx hd => (h.calm c x hx hd).step hs (ha _),h.named.step hs ?_,h.fine⟩
  rintro f flag c rfl
  exact absurd rfl (ha f)

omit [DecidableEq τ] in
theorem Ok.setConn {fd : γ → ℕ} {s : Sys γ τ} {c : γ} {x : Connection τ} (h : Ok fd s)
    (hx : x.dead = true → Calm s.poll (fd c)) :
    Ok fd (s.setConn c x) :=
  ⟨forall_update_some (P := fun c (x : Connection τ) => x.dead = true → Calm s.poll (fd c)) hx
    h.calm,h.named,h.fine⟩

theorem ok_adds {fd : γ → ℕ} (hfd : Function.Injective fd) {s s' : Sys γ τ} {c : γ}
    {flag : PollFlag} {x : Connection τ} (h : Ok fd s)
    (hs : s.polls (.addCallback (fd c) flag c) = some s') (hx : x.dead = false) :
    Ok fd (s'.setConn c x) := by
  obtain ⟨p,hp,rfl⟩ := polls_step hs
  refine ⟨?_,h.named.step hp ?_,h.fine⟩
  · -- other connections have other descriptors
    refine forall_update_ne (P := fun c (x : Connection τ) => x.dead = true → Calm p (fd c))
      (fun y hy hd => ?_) fun c' y hne hy hd => ?_
    · cases hy
      exact nomatch hx.symm.trans hd
    · exact (h.calm c' y hy hd).step hp fun he => hne (hfd he).symm
  · rintro f flag' c' ⟨⟩
    rfl

/-- The threads of `send` that are not at its start leave `dead_` alone. -/
theorem dead_wake {x x' : Connection τ} {t : τ} {bs : List Byte}
    (h : x.act (.completeWake t) = some (x', bs) ∨ x.act (.removed t) = some (x', bs)) :
    x'.dead = x.dead := by
  rcases h with h | h
  · simp only [Connection.act] at h
    split at h
    · cases h
      unfold Connection.completeWake
      split_ifs
      · rfl
      · rfl
    · cases h
  · simp only [Connection.act] at h
    split at h
    · cases h
      rfl
    · cases h

theorem ok_acts {fd : γ → ℕ} {s s' : Sys γ τ} {c : γ} {a : Act τ} {t : τ} (h : Ok fd s)
    (hs : s.acts c a = some s') (ha : a = .completeWake t ∨ a = .removed t) : Ok fd s' := by
  obtain ⟨x,hx,hs⟩ := Option.bind_eq_some_iff.mp hs
  obtain ⟨⟨x',bs⟩,hact,rfl⟩ := Option.map_eq_some_iff.mp hs
  have hdead : x'.dead = x.dead :=
    dead_wake (t := t) (ha.imp (fun he => he ▸ hact) fun he => he ▸ hact)
  exact h.setConn fun hd => h.calm c x hx (hdead ▸ hd)

theorem ok_sends {fd : γ → ℕ} (hfd : Function.Injective fd) {s s' : Sys γ τ} {c : γ} {t : τ}
    {a : Act τ} {r : WriteRes} (h : Ok fd s) (hs : s.sends fd c t a = some s')
    (ha : ∀ x x' bs, Connection.act x a = some (x', bs) → ∃ b, x.attempt t b r = some (x', bs))
    (hfree : ∀ x ∈ s.conn c, r = .error → x.dead = false → x.wpdu.buf.isSome = false →
      WriteFree s.poll (fd c)) : Ok fd s' := by
  obtain ⟨x,hx,hs⟩ := Option.bind_eq_some_iff.mp hs
  obtain ⟨⟨x',bs⟩,hact,hs⟩ := Option.bind_eq_some_iff.mp hs
  obtain ⟨b,hatt⟩ := ha x x' bs hact
  have hpc (pc : SendPc) (he : x'.pc = Function.update x.pc t pc) : x'.pc t = pc :=
    he ▸ Function.update_self ..
  rcases attempt_cases hatt with ⟨hdead,rfl⟩ | ⟨hlive,rfl⟩ | ⟨hlive,hbuf,hobt⟩
  · simp only [hpc .idle rfl] at hs
    cases hs
    exact h.setConn fun _ => h.calm c x hx hdead
  · simp only [hpc (.waiting b) rfl] at hs
    cases hs
    exact h.setConn fun hd => nomatch hlive.symm.trans hd
  · rcases obtain_cases hobt with ⟨hrem,hdead,-,hr⟩ | ⟨hidle,hdead,-⟩ | ⟨hcomp,hdead,-⟩
    · -- the `write` has failed, and `block_remove_fd` is still to be called
      simp only [hpc .removing hrem] at hs
      cases hs
      exact h.setConn fun _ => (hfree x hx hr hlive hbuf).calm
    · simp only [hpc .idle hidle] at hs
      cases hs
      exact h.setConn fun hd => nomatch hlive.symm.trans (hdead.symm.trans hd)
    · simp only [hpc .completing hcomp] at hs
      obtain ⟨s1,hs1,rfl⟩ := Option.map_eq_some_iff.mp hs
      exact ok_adds hfd h hs1 (hdead.trans hlive)

/-- The end of a callback that has taken its connection out of the poll manager. -/
theorem calm_failed {σ : Type} [DecidableEq σ] {p q : PollMgr σ γ} {f : ℕ}
    (h : (p.delCallback f .rdwr).step .returned = some q) :
    Calm q f := by
  cases pollStep_of_step h with
  | returned cb fd' ch todo hpc =>
    refine ⟨fun hw => not_watched_rdwr p.aio f (.inr hw),id,.inl ?_⟩
    simp [PollMgr.delCallback, SelectAio.unwatchFd]

theorem ok_returned {fd : γ → ℕ} {s : Sys γ τ} {p q : PollMgr (γ × Option τ) γ} {c : γ}
    {x : Connection τ} (h : Ok fd s)
    (hp : p = s.poll ∨ ∃ flag, p = s.poll.delCallback (fd c) flag) (hq : p.step .returned = some q)
    (hx : x.dead = true → Calm q (fd c)) : Ok fd ((s.setPoll q).setConn c x) := by
  have hdel : Ok fd (s.setPoll p) := by
    rcases hp with rfl | ⟨flag,rfl⟩
    · exact h
    · exact ok_polls h (.del (fd c) flag) fun _ => id
  have hret : Ok fd ((s.setPoll p).setPoll q) := ok_polls hdel (pollStep_of_step hq) fun _ => id
  exact hret.setConn hx

theorem ok_readBody {fd : γ → ℕ} {s s' : Sys γ τ} {hdr body : ReadRes} {accept : Bool} (h : Ok fd s)
    (hs : s.readBody fd hdr body accept = some s') : Ok fd s' := by
  unfold Sys.readBody at hs
  split at hs
  · next f c todo hpc =>
    obtain ⟨x,hx,hs⟩ := Option.bind_eq_some_iff.mp hs
    rw [if_neg (not_not.mpr (h.named.running _ _ _ _ hpc))] at hs
    obtain ⟨⟨x',w⟩,hcb,hs⟩ := Option.bind_eq_some_iff.mp hs
    obtain ⟨q,hq,rfl⟩ := Option.map_eq_some_iff.mp hs
    have hok : Ok fd ((s.setPoll q).setConn c x') := by
      by_cases hfails : x.dead = false ∧ x'.dead = true
      · rw [if_pos hfails] at hq
        exact ok_returned h (.inr ⟨_,rfl⟩) hq fun _ => calm_failed hq
      · -- a connection that was dead before is left as it is
        rw [if_neg hfails] at hq
        refine ok_returned h (.inl rfl) hq fun hd => ?_
        have hdead : x.dead = true := by
          by_contra hlive
          exact hfails ⟨Bool.eq_false_iff.mpr hlive,hd⟩
        exact (h.calm c x hx hdead).step (pollStep_of_step hq) id
    exact ⟨hok.calm,hok.named,hok.fine⟩
  · cases hs

theorem ok_writeBody {fd : γ → ℕ} {s s' : Sys γ τ} {r : WriteRes} (h : Ok fd s)
    (hs : s.writeBody fd r = some s') : Ok fd s' := by
  unfold Sys.writeBody at hs
  split at hs
  · next f c todo hpc =>
    obtain ⟨x,hx,hs⟩ := Option.bind_eq_some_iff.mp hs
    have hf := h.named.running _ _ _ _ hpc
    -- `VERIFY(!dead_)`: the poll thread would be in a `write_cb` that nobody can have called
    have hlive : ¬ x.dead = true := by
      intro hd
      apply (h.calm c x hx hd).idle
      rw [hpc]
      exact ⟨rfl,hf.symm⟩
    rw [if_neg (not_or.mpr ⟨hlive,not_not.mpr hf⟩)] at hs
    obtain ⟨⟨x',bs⟩,hcb,hs⟩ := Option.bind_eq_some_iff.mp hs
    obtain ⟨q,hq,rfl⟩ := Option.map_eq_some_iff.mp hs
    by_cases hsz : x.wpdu.sz = 0
    · rw [if_pos hsz] at hq
      rw [(writeCb_cases hcb).2.2.2 hsz]
      exact ok_returned h (.inr ⟨_,rfl⟩) hq fun hd => absurd hd hlive
    · rw [if_neg hsz] at hq
      by_cases hfails : x'.dead = true
      · rw [if_pos hfails] at hq
        exact ok_returned h (.inr ⟨_,rfl⟩) hq fun _ => calm_failed hq
      · rw [if_neg hfails] at hq
        exact ok_returned h (.inl rfl) hq fun hd => absurd hd hfails
  · cases hs

theorem ok_step {fd : γ → ℕ} (hfd : Function.Injective fd) {s s' : Sys γ τ} {a : SysAct γ τ}
    (h : Ok fd s) (ha : Cautious fd s a) (hs : s.step fd a = some s') : Ok fd s' := by
  rw [Sys.step, if_neg (Bool.eq_false_iff.mp h.fine)] at hs
  have hpoll (a : PollAct (γ × Option τ) γ) (s1 : Sys γ τ) (hs : s.polls a = some s1)
      (hadd : ∀ f, ¬ a.Adds f) : Ok fd s1 := by
    obtain ⟨p,hp,rfl⟩ := polls_step hs
    exact ok_polls h hp hadd
  cases a with
  | create c =>
    simp only [Sys.exec, Sys.create, Option.ite_none_left_eq_some] at hs
    obtain ⟨s1,hs1,rfl⟩ := Option.map_eq_some_iff.mp hs.2
    exact ok_adds hfd h hs1 rfl
  | send c t b r =>
    refine ok_sends hfd h hs (fun x x' bs hact => ⟨b,?_⟩) ha
    simp only [Connection.act] at hact
    split at hact
    · exact hact
    · cases hact
  | sendWake c t r =>
    refine ok_sends hfd h hs (fun x x' bs hact => ?_) ha
    simp only [Connection.act] at hact
    split at hact
    · exact ⟨_,hact⟩
    · cases hact
  | completeWake c t => exact ok_acts h hs (.inl rfl)
  | sendRemove c t =>
    simp only [Sys.exec, Sys.sendRemove] at hs
    obtain ⟨x,-,hs⟩ := Option.bind_eq_some_iff.mp hs
    split at hs
    · exact hpoll _ _ hs fun _ => id
    · cases hs
  | sendRemoved c t =>
    obtain ⟨s1,hs1,hs⟩ := Option.bind_eq_some_iff.mp hs
    exact ok_acts (hpoll _ s1 hs1 fun _ => id) hs (.inr rfl)
  | closeconn c =>
    obtain ⟨x,hx,rfl⟩ := Option.map_eq_some_iff.mp hs
    split_ifs with hdead
    · exact h
    · -- `dead_` is set although the descriptor may still be watched
      have hok : Ok fd (s.setConn c { x with dead := true }) :=
        h.setConn fun _ => (ha x hx (Bool.eq_false_iff.mpr hdead)).calm
      exact ⟨hok.calm,hok.named,hok.fine⟩
  | closeRemove c =>
    simp only [Sys.exec, Sys.closeRemove, Option.ite_none_right_eq_some] at hs
    obtain ⟨s1,hs1,rfl⟩ := Option.map_eq_some_iff.mp hs.2
    have hok := hpoll _ s1 hs1 fun _ => id
    exact ⟨hok.calm,hok.named,hok.fine⟩
  | arrive c bs =>
    cases hs
    exact ⟨h.calm,h.named,h.fine⟩
  | closeRemoved | head | copy | ready | interrupted | test | call =>
    exact hpoll _ s' hs fun _ => id
  | readBody hdr body accept => exact ok_readBody h hs
  | writeBody r => exact ok_writeBody h hs

/-- No `write_cb` finds its connection dead, in any interleaving in which `dead_` is set outside of
the callbacks only while the poll thread is not on its way to `write_cb`. -/
theorem write_cb_alive (fd : γ → ℕ) (hfd : Function.Injective fd) (pipefd : ℕ)
    (as : List (SysAct γ τ)) (s : Sys γ τ)
    (hP : RunAll (Sys.step fd) (Cautious fd) (.init γ τ pipefd) as)
    (hr : run (Sys.step fd) (.init γ τ pipefd) as = some s) :
    s.aborted = false ∧
    ∀ f c todo x, s.poll.pc = .running .write f c todo → s.conn c = some x → x.dead = false := by
  have h0 : Ok fd (Sys.init γ τ pipefd) := ⟨nofun,⟨nofun,fun _ _ _ _ => nofun⟩,rfl⟩
  have h : Ok fd s := run_invariant_of_all (Sys.step fd) (Cautious fd) (Ok fd)
    (fun _ _ _ h ha hs => ok_step hfd h ha hs) _ s as h0 hP hr
  refine ⟨h.fine,fun f c todo x hpc hx => Bool.eq_false_iff.mpr fun hd => ?_⟩
  apply (h.calm c x hx hd).idle
  rw [hpc]
  exact ⟨rfl,(h.named.running _ _ _ _ hpc).symm⟩

end

/-- One connection is closed after its partial write has been completed and the watch is gone; the
`write_cb` of the other one is running. -/
theorem write_cb_alive_two :
    ∃ as, ∃ s : Sys Bool ℕ, run (Sys.step fun c => cond c 5 6) (.init Bool ℕ 3) as = some s ∧
    (s.conn true).any (·.dead) = true ∧ s.poll.pc = .running .write 6 false [] ∧
    ∀ x, s.conn false = some x → x.dead = false := by
  let pdu : Pdu := ⟨List.replicate 24 0, by simp [rpcHeaderSz, maxPdu]⟩
  have hends : ∃ s, run (Sys.step fun c => cond c 5 6) (.init Bool ℕ 3) [.create true,
    .create false, .send true 0 pdu (.wrote 4),
      .head, .copy, .ready ∅ {5}, .test, .call, .writeBody (.wrote 20), .completeWake true 0, .test,
        .head, .copy, .ready ∅ {5},
      .test, .call, .writeBody .again, .send false 1 pdu .again, .closeconn true, .closeRemove true,
        .test, .head, .copy,
      .closeRemoved true, .ready ∅ {6}, .test, .call] = some s ∧
      (s.conn true).any (·.dead) = true ∧ s.poll.pc = .running .write 6 false [] := by
        decide +kernel
  obtain ⟨s,hr,hdead,hpc⟩ := hends
  have hfd : Function.Injective fun c : Bool => cond c 5 6 := Bool.injective_iff.mpr (by decide)
  exact ⟨_,s,hr,hdead,hpc,fun x hx => (write_cb_alive _ hfd 3 _ s (by decide +kernel) hr).2 6 false
    [] x hpc hx⟩

/-- `closeconn` sets `dead_` while the poll thread is in `select` with a connection that has been
written to in part. The other way: the write watch outlives its `send`, and the `write` of the
next one fails. -/
theorem closeconn_aborts : ∃ pdu : Pdu,
    (∃ s, run (Sys.step fun _ => 5) (.init Unit ℕ 3) [.create (), .send () 0 pdu (.wrote 4), .head,
      .copy, .closeconn (),
      .ready ∅ {5}, .test, .call] = some s ∧
      s.poll.pc = .running .write 5 () [] ∧ (s.conn ()).any (·.dead) = true ∧
      (s.step (fun _ => 5) (.writeBody .again)).any (·.aborted) = true) ∧
    (∃ s, run (Sys.step fun _ => 5) (.init Unit ℕ 3) [.create (), .send () 0 pdu (.wrote 4), .head,
      .copy, .ready ∅ {5}, .test,
      .call, .writeBody (.wrote 20), .completeWake () 0, .test, .head, .copy, .send () 1 pdu .error,
      .ready ∅ {5}, .test,
      .call] = some s ∧
      s.poll.pc = .running .write 5 () [] ∧ (s.conn ()).any (·.dead) = true ∧
      (s.step (fun _ => 5) (.writeBody .again)).any (·.aborted) = true) := by
  refine ⟨⟨List.replicate 24 0,by simp [rpcHeaderSz, maxPdu]⟩,?_,?_⟩
  · decide +kernel
  · decide +kernel

end Yfs.Polled
