import Yfs.CondVar
import Yfs.ConnectionSend

namespace Yfs.Conn

open Yfs.Wire

/-- `incoming` is what the other end sends. -/
structure Waiters (τ : Type) where
  conn : Connection τ
  incoming : Stream
  waiters : ℕ
  sendWait : CondVar τ
  sendComplete : CondVar τ

/-- `w` is the thread that the signal in the step wakes up; `wakeWait` and `wakeComplete` are
wake-ups without a signal. -/
inductive WaitAct (τ : Type)
  | send (t : τ) (b : Pdu) (r : WriteRes)
  | sendWake (t : τ) (r : WriteRes)
  | completeWake (t : τ)
  | removed (t : τ)
  | writeCb (r : WriteRes) (w : Option τ)
  | readCb (hdr body : ReadRes) (accept : Bool) (w : Option τ)
  | closeconn
  | arrive (bs : List Byte)
  | wakeWait (t : τ)
  | wakeComplete (t : τ)

section
variable {τ : Type} [DecidableEq τ]

namespace Waiters

def init : Waiters τ :=
  ⟨⟨false, .empty, .empty, fun _ => .idle, [], [], []⟩, ⟨[], 0⟩, 0, .empty, .empty⟩

/-- `send` returns: whoever waits for the channel is woken up. -/
def leave (s : Waiters τ) (c : Connection τ) (t : τ) : Waiters τ :=
  { s with
    conn := c
    sendComplete := s.sendComplete.resume t
    sendWait := if 0 < s.waiters then s.sendWait.broadcast else s.sendWait }

/-- `send` has the channel: afterwards it has returned, waits for the rest to be written, or is in
`block_remove_fd`. -/
def obtain (s : Waiters τ) (t : τ) (b : Pdu) (r : WriteRes) : Option (Waiters τ) :=
  (s.conn.obtain t b r).map fun (c, _) =>
    match c.pc t with
    | .completing => { s with conn := c, sendComplete := s.sendComplete.wait t }
    -- the channel is kept until `block_remove_fd` returns
    | .removing => { s with conn := c }
    | _ => s.leave c t

/-- The loop on `send_wait_`, with the caller counted in `waiters_`. -/
def attempt (s : Waiters τ) (t : τ) (b : Pdu) (r : WriteRes) : Option (Waiters τ) :=
  if s.conn.dead = false ∧ s.conn.wpdu.buf.isSome = true then
    some { s with conn := s.conn.setPc t (.waiting b), sendWait := s.sendWait.wait t }
  -- this return wakes nobody up
  else if s.conn.dead = true then
    some { s with
      conn := s.conn.setPc t .idle, waiters := s.waiters - 1, sendWait := s.sendWait.resume t }
  else { s with waiters := s.waiters - 1, sendWait := s.sendWait.resume t }.obtain t b r

def send (s : Waiters τ) (t : τ) (b : Pdu) (r : WriteRes) : Option (Waiters τ) :=
  match s.conn.pc t with
  | .idle => { s with waiters := s.waiters + 1 }.attempt t b r
  | _ => none

def sendWake (s : Waiters τ) (t : τ) (r : WriteRes) : Option (Waiters τ) :=
  match s.conn.pc t with
  | .waiting b => if t ∈ s.sendWait.woken then s.attempt t b r else none
  | _ => none

/-- The loop on `send_complete_`, after a wake-up. -/
def completeWake (s : Waiters τ) (t : τ) : Option (Waiters τ) :=
  match s.conn.pc t with
  | .completing =>
    if t ∈ s.sendComplete.woken then
      if s.conn.dead = false ∧ 0 ≤ s.conn.wpdu.solong ∧ s.conn.wpdu.solong < s.conn.wpdu.sz then
        some { s with sendComplete := s.sendComplete.wait t }
      else some (s.leave (s.conn.finish t) t)
    else none
  | _ => none

/-- `block_remove_fd` has returned. -/
def removed (s : Waiters τ) (t : τ) : Option (Waiters τ) :=
  match s.conn.pc t with
  | .removing => some (s.leave (s.conn.finish t) t)
  | _ => none

/-- There is no signal if nothing is being sent or there is more to write. -/
def writeCb (s : Waiters τ) (r : WriteRes) (w : Option τ) : Option (Waiters τ) :=
  (s.conn.writeCb r).bind fun (c, _) =>
    if s.conn.wpdu.sz = 0 then some { s with conn := c }
    else if c.dead = false ∧ c.wpdu.solong < c.wpdu.sz then some { s with conn := c }
    else (s.sendComplete.signal w).map fun q => { s with conn := c, sendComplete := q }

/-- Only a read that fails signals. -/
def readCb (s : Waiters τ) (hdr body : ReadRes) (accept : Bool) (w : Option τ) :
    Option (Waiters τ) :=
  (s.conn.readCb s.incoming hdr body accept).bind fun (c, inc) =>
    if s.conn.dead = false ∧ c.dead = true then
      (s.sendComplete.signal w).map fun q => { s with
        conn := c, incoming := inc, sendComplete := q }
    else some { s with conn := c, incoming := inc }

def step (s : Waiters τ) : WaitAct τ → Option (Waiters τ)
  | .send t b r => s.send t b r
  | .sendWake t r => s.sendWake t r
  | .completeWake t => s.completeWake t
  | .removed t => s.removed t
  | .writeCb r w => s.writeCb r w
  | .readCb hdr body accept w => s.readCb hdr body accept w
  -- no signal
  | .closeconn => some { s with conn := { s.conn with dead := true } }
  | .arrive bs =>
    some { s with incoming := { s.incoming with written := s.incoming.written ++ bs } }
  | .wakeWait t => (s.sendWait.signal (some t)).map fun q => { s with sendWait := q }
  | .wakeComplete t => (s.sendComplete.signal (some t)).map fun q => { s with sendComplete := q }

end Waiters

variable {s s' : Waiters τ}

theorem send_cases {t : τ} {b : Pdu} {r : WriteRes} (h : s.send t b r = some s') :
    s.conn.pc t = .idle ∧ { s with waiters := s.waiters + 1 }.attempt t b r = some s' := by
  unfold Waiters.send at h
  split at h
  · next hpc => exact ⟨hpc,h⟩
  · cases h

theorem sendWake_cases {t : τ} {r : WriteRes} (h : s.sendWake t r = some s') :
    ∃ b, s.conn.pc t = .waiting b ∧ t ∈ s.sendWait.woken ∧ s.attempt t b r = some s' := by
  unfold Waiters.sendWake at h
  split at h
  · next b hpc => exact ⟨b,hpc,Option.ite_none_right_eq_some.mp h⟩
  · cases h

theorem completeWake_cases {t : τ} (h : s.completeWake t = some s') :
    s.conn.pc t = .completing ∧ t ∈ s.sendComplete.woken ∧
      ((s.conn.dead = false ∧ s' = { s with sendComplete := s.sendComplete.wait t }) ∨
        s' = s.leave (s.conn.finish t) t) := by
  unfold Waiters.completeWake at h
  split at h
  · next hpc =>
    obtain ⟨hw,h⟩ := Option.ite_none_right_eq_some.mp h
    refine ⟨hpc,hw,?_⟩
    split_ifs at h with hmore
    · cases h
      exact .inl ⟨hmore.1,rfl⟩
    · cases h
      exact .inr rfl
  · cases h

theorem removed_cases {t : τ} (h : s.removed t = some s') :
    s.conn.pc t = .removing ∧ s' = s.leave (s.conn.finish t) t := by
  unfold Waiters.removed at h
  split at h
  · next hpc =>
    cases h
    exact ⟨hpc,rfl⟩
  · cases h

/-- Threads wait on the condition variable of the loop that they are in. The channel is `busy` as
long as somebody has it, and nobody is parked for a free channel. -/
structure Queues (pc : τ → SendPc) (busy : Bool) (waiters : ℕ) (sw sc : CondVar τ) : Prop where
  waiting : ∀ t, sw.Waits t ↔ ∃ b, pc t = .waiting b
  completing : ∀ t, sc.Waits t ↔ pc t = .completing
  counted : waiters = sw.size
  owner : busy = true → ∃ t, (pc t).Owns
  alone : ∀ t t', (pc t).Owns → (pc t').Owns → t = t'
  taken : ∀ t, (pc t).Owns → busy = true
  queue : sw.parked ≠ [] → busy = true

section
variable {pc : τ → SendPc} {busy : Bool} {n : ℕ} {sw sc sw' sc' : CondVar τ} {t : τ} {w : Option τ}

theorem owns_update {x : SendPc} {u : τ} (hx : ¬ x.Owns) (h : (Function.update pc t x u).Owns) :
    u ≠ t ∧ (pc u).Owns := by
  by_cases hu : u = t
  · subst hu
    rw [Function.update_self] at h
    exact absurd h hx
  · rw [Function.update_of_ne hu] at h
    exact ⟨hu,h⟩

/-- Who does not own the channel goes to where it does not own it either. -/
theorem Queues.moved (h : Queues pc busy n sw sc) (ht : ¬ (pc t).Owns) {x : SendPc} (hx : ¬ x.Owns)
    (sw' : CondVar τ) (hsw : ∀ u, sw'.Waits u ↔ if u = t then ∃ b, x = .waiting b else sw.Waits u)
    (hqueue : sw'.parked ≠ [] → busy = true) :
    Queues (Function.update pc t x) busy sw'.size sw' sc where
  waiting u := by
    rw [hsw]
    by_cases hu : u = t
    · subst hu
      rw [if_pos rfl, Function.update_self]
    · rw [if_neg hu, Function.update_of_ne hu, h.waiting]
  completing u := by
    by_cases hu : u = t
    · subst hu
      rw [h.completing, Function.update_self]
      exact iff_of_false (fun hc => ht (hc ▸ trivial)) fun hc => hx (hc ▸ trivial)
    · rw [h.completing, Function.update_of_ne hu]
  counted := rfl
  owner hbusy := by
    obtain ⟨u,hu⟩ := h.owner hbusy
    have hne : u ≠ t := fun he => ht (he ▸ hu)
    exact ⟨u,(Function.update_of_ne hne x pc).symm ▸ hu⟩
  alone u v hu hv := h.alone u v (owns_update hx hu).2 (owns_update hx hv).2
  taken u hu := h.taken u (owns_update hx hu).2
  queue := hqueue

theorem Queues.queued (h : Queues pc busy n sw sc) (ht : ¬ (pc t).Owns) (b : Pdu)
    (hbusy : busy = true) :
    Queues (Function.update pc t (.waiting b)) busy ((sw.resume t).size + 1) (sw.wait t) sc := by
  rw [← CondVar.size_wait]
  refine h.moved ht id (sw.wait t) (fun u => ?_) fun _ => hbusy
  rw [CondVar.waits_wait_iff]
  by_cases hu : u = t
  · simp [hu]
  · simp [hu]

theorem Queues.unqueued (h : Queues pc busy n sw sc) (ht : ¬ (pc t).Owns) :
    Queues (Function.update pc t .idle) busy (sw.resume t).size (sw.resume t) sc := by
  refine h.moved ht id (sw.resume t) (fun u => ?_) fun hp => h.queue fun hnil => hp ?_
  · rw [CondVar.waits_resume_iff]
    by_cases hu : u = t
    · simp [hu]
    · simp [hu]
  · exact List.eq_nil_of_subset_nil (hnil ▸ List.erase_subset)

theorem Queues.take (h : Queues pc false n sw sc) (ht : pc t = .idle) {x : SendPc} (hx : x.Owns)
    (sc' : CondVar τ) (hsc : ∀ u, sc'.Waits u ↔ (u = t ∧ x = .completing) ∨ sc.Waits u) :
    Queues (Function.update pc t x) true n sw sc' := by
  have hnobody : ∀ u, ¬ (pc u).Owns := fun u hu => nomatch h.taken u hu
  have honly : ∀ u, (Function.update pc t x u).Owns → u = t := by
    intro u hu
    by_contra hne
    rw [Function.update_of_ne hne] at hu
    exact hnobody u hu
  refine ⟨fun u => ?_,fun u => ?_,h.counted,fun _ => ⟨t,(Function.update_self t x pc).symm ▸ hx⟩,
    fun u v hu hv => (honly u hu).trans (honly v hv).symm,fun _ _ => rfl,fun _ => rfl⟩
  · rw [h.waiting]
    by_cases hu : u = t
    · subst hu
      rw [Function.update_self, ht]
      refine iff_of_false (fun ⟨b,hb⟩ => nomatch hb) ?_
      rintro ⟨b,rfl⟩
      exact hx
    · rw [Function.update_of_ne hu]
  · rw [hsc, h.completing]
    by_cases hu : u = t
    · subst hu
      simp [ht]
    · rw [Function.update_of_ne hu]
      simp [hu]

omit [DecidableEq τ] in
theorem Queues.wake_all (h : Queues pc busy n sw sc) :
    Queues pc busy n (if 0 < n then sw.broadcast else sw) sc := by
  split_ifs
  · refine ⟨fun u => ?_,h.completing,?_,h.owner,h.alone,h.taken,fun hp => absurd rfl hp⟩
    · rw [CondVar.waits_broadcast_iff]
      exact h.waiting u
    · rw [CondVar.size_broadcast]
      exact h.counted
  · exact h

omit [DecidableEq τ] in
theorem Queues.none_parked (h : Queues pc busy n sw sc) :
    (if 0 < n then sw.broadcast else sw).parked = [] := by
  split_ifs with hn
  · rfl
  · have hsize := h.counted
    rw [CondVar.size] at hsize
    exact List.length_eq_zero_iff.mp (by omega)

/-- The one who may have the channel gives it up, with nobody parked for it. -/
theorem Queues.give_up (h : Queues pc busy n sw sc) (hnil : sw.parked = [])
    (ht : ∀ b, pc t ≠ .waiting b) (honly : ∀ u, (pc u).Owns → u = t) :
    Queues (Function.update pc t .idle) false n sw (sc.resume t) where
  waiting u := by
    rw [h.waiting]
    by_cases hu : u = t
    · subst hu
      rw [Function.update_self]
      exact iff_of_false (fun ⟨b,hb⟩ => ht b hb) fun ⟨b,hb⟩ => nomatch hb
    · rw [Function.update_of_ne hu]
  completing u := by
    rw [CondVar.waits_resume_iff, h.completing]
    by_cases hu : u = t
    · subst hu
      simp
    · rw [Function.update_of_ne hu]
      simp [hu]
  counted := h.counted
  owner hb := nomatch hb
  alone u v hu hv := absurd (honly u (owns_update id hu).2) (owns_update id hu).1
  taken u hu := absurd (honly u (owns_update id hu).2) (owns_update id hu).1
  queue hp := absurd hnil hp

theorem Queues.signal_complete (h : Queues pc busy n sw sc) (hs : sc.signal w = some sc') :
    Queues pc busy n sw sc' :=
  ⟨h.waiting,fun u => (CondVar.waits_signal_iff hs).trans (h.completing u),h.counted,h.owner,
    h.alone,h.taken,h.queue⟩

theorem Queues.signal_wait (h : Queues pc busy n sw sc) (hs : sw.signal w = some sw') :
    Queues pc busy n sw' sc := by
  refine ⟨fun u => (CondVar.waits_signal_iff hs).trans (h.waiting u),h.completing,?_,h.owner,
    h.alone,h.taken,fun hp => ?_⟩
  · rw [CondVar.size_signal hs]
    exact h.counted
  · exact h.queue (CondVar.woken_signal hs hp).1

theorem Queues.park_again (h : Queues pc busy n sw sc) (ht : pc t = .completing) :
    Queues pc busy n sw (sc.wait t) := by
  refine ⟨h.waiting,fun u => ?_,h.counted,h.owner,h.alone,h.taken,h.queue⟩
  rw [CondVar.waits_wait_iff, h.completing]
  refine ⟨?_,.inr⟩
  rintro (rfl | hu)
  · exact ht
  · exact hu

end

structure Ok (s : Waiters τ) : Prop where
  queues : Queues s.conn.pc s.conn.wpdu.buf.isSome s.waiters s.sendWait s.sendComplete
  removing : ∀ t, s.conn.pc t = .removing → s.conn.dead = true

/-- On a dead connection nobody is left parked for the rest of its PDU. -/
def Quiet (s : Waiters τ) : Prop := s.conn.dead = true → s.sendComplete.parked = []

omit [DecidableEq τ] in
theorem ok_init : Ok (Waiters.init : Waiters τ) := by
  refine ⟨⟨fun t => ?_,fun t => ?_,rfl,nofun,fun t _ ht => absurd ht id,fun t ht => absurd ht id,
    fun h => absurd rfl h⟩,fun _ => nofun⟩
  · exact iff_of_false (fun h => h.elim nofun nofun) fun ⟨b,hb⟩ => nomatch hb
  · exact iff_of_false (fun h => h.elim nofun nofun) nofun

/-- The end of `send` for somebody who may have the channel, and nobody else has. -/
theorem Queues.leave {s : Waiters τ} {c : Connection τ} {t : τ} {pc : τ → SendPc} {busy : Bool}
    (h : Queues pc busy s.waiters s.sendWait s.sendComplete)
    (hpc : c.pc = Function.update pc t .idle)
    (hbuf : c.wpdu.buf.isSome = false) (ht : ∀ b, pc t ≠ .waiting b)
    (honly : ∀ u, (pc u).Owns → u = t) :
    Queues (s.leave c t).conn.pc (s.leave c t).conn.wpdu.buf.isSome (s.leave c t).waiters
      (s.leave c t).sendWait (s.leave c t).sendComplete := by
  have hgive := h.wake_all.give_up h.none_parked ht honly
  rw [← hpc, ← hbuf] at hgive
  exact hgive

theorem removing_update {pc : τ → SendPc} {dead : Bool} (h : ∀ t, pc t = .removing → dead = true)
    {x : SendPc}
    (hx : x ≠ .removing) (t u : τ) (hu : Function.update pc t x u = .removing) : dead = true := by
  by_cases hut : u = t
  · subst hut
    rw [Function.update_self] at hu
    exact absurd hu hx
  · rw [Function.update_of_ne hut] at hu
    exact h u hu

/-- A call of `send` that takes the channel, once it is in no queue. -/
theorem ok_obtain {t : τ} {b : Pdu} {r : WriteRes}
    (hq : Queues (Function.update s.conn.pc t .idle) false s.waiters s.sendWait s.sendComplete)
    (hrem : ∀ t, s.conn.pc t = .removing → s.conn.dead = true) (hdead : s.conn.dead = false)
    (h : s.obtain t b r = some s') :
    Ok s' ∧ Quiet s' := by
  obtain ⟨⟨c,bs⟩,hc,rfl⟩ := Option.map_eq_some_iff.mp h
  have hidle : Function.update s.conn.pc t .idle t = .idle := Function.update_self ..
  have hnobody : ∀ u, s.sendComplete.Waits u → False := by
    intro u hu
    exact nomatch hq.taken u ((hq.completing u).mp hu ▸ trivial)
  rcases obtain_cases hc with ⟨hpc,hd,hbuf,-⟩ | ⟨hpc,hd,hbuf⟩ | ⟨hpc,hd,hbuf⟩
  · have hat : c.pc t = .removing := hpc ▸ Function.update_self ..
    have htake := hq.take hidle (x := .removing) trivial s.sendComplete fun u => by simp
    rw [Function.update_idem, ← hpc, ← hbuf] at htake
    simp only [hat]
    refine ⟨⟨htake,fun _ _ => hd⟩,fun _ => ?_⟩
    exact List.eq_nil_iff_forall_not_mem.mpr fun u hu => hnobody u (.inl hu)
  · have hat : c.pc t = .idle := hpc ▸ Function.update_self ..
    simp only [hat]
    have hnone : ∀ u, c.pc u = .removing → c.dead = true := by
      rw [hpc, hd]
      exact removing_update hrem (x := .idle) nofun t
    refine ⟨⟨?_,hnone⟩,fun hdd => nomatch (hd.trans hdead).symm.trans hdd⟩
    refine hq.leave ?_ hbuf (fun b' hb => nomatch hidle.symm.trans hb) fun u hu =>
      nomatch hq.taken u hu
    rw [hpc, Function.update_idem]
  · have hat : c.pc t = .completing := hpc ▸ Function.update_self ..
    have htake := hq.take hidle (x := .completing) trivial (s.sendComplete.wait t) fun u => by
      rw [CondVar.waits_wait_iff]
      simp
    rw [Function.update_idem, ← hpc, ← hbuf] at htake
    simp only [hat]
    have hnone : ∀ u, c.pc u = .removing → c.dead = true := by
      rw [hpc, hd]
      exact removing_update hrem (x := .completing) nofun t
    exact ⟨⟨htake,hnone⟩,fun hdd => nomatch (hd.trans hdead).symm.trans hdd⟩

/-- The loop on `send_wait_`, with `n` threads in it besides the caller. -/
theorem ok_attempt {t : τ} {b : Pdu} {r : WriteRes} {n : ℕ}
    (hq : Queues s.conn.pc s.conn.wpdu.buf.isSome n s.sendWait s.sendComplete)
    (hrem : ∀ t, s.conn.pc t = .removing → s.conn.dead = true) (ht : ¬ (s.conn.pc t).Owns)
    (hn : s.waiters = (s.sendWait.resume t).size + 1) (h : s.attempt t b r = some s') :
    Ok s' ∧ (Quiet s → Quiet s') := by
  unfold Waiters.attempt at h
  by_cases hpark : s.conn.dead = false ∧ s.conn.wpdu.buf.isSome = true
  · rw [if_pos hpark] at h
    cases h
    have hqueued := hq.queued ht b hpark.2
    rw [← hn] at hqueued
    exact ⟨⟨hqueued,removing_update hrem (x := .waiting b) nofun t⟩,id⟩
  · rw [if_neg hpark] at h
    have hless : s.waiters - 1 = (s.sendWait.resume t).size := by omega
    have hout := hq.unqueued ht
    rw [← hless] at hout
    by_cases hdead : s.conn.dead = true
    · simp only [if_pos hdead, Option.some.injEq] at h
      subst h
      exact ⟨⟨hout,removing_update hrem (x := .idle) nofun t⟩,id⟩
    · simp only [if_neg hdead] at h
      have hdead := Bool.eq_false_iff.mpr hdead
      have hfree : s.conn.wpdu.buf.isSome = false :=
        Bool.eq_false_iff.mpr fun hb => hpark ⟨hdead,hb⟩
      rw [hfree] at hout
      obtain ⟨hok,hquiet⟩ := ok_obtain (s := { s with
        waiters := s.waiters - 1, sendWait := s.sendWait.resume t }) hout hrem hdead h
      exact ⟨hok,fun _ => hquiet⟩

/-- `closeconn` does not close the connection while a sender is parked for the rest of its PDU. -/
def ClosesIdle (s : Waiters τ) : WaitAct τ → Prop
  | .closeconn => s.conn.dead = true ∨ s.sendComplete.parked = []
  | _ => True

instance (s : Waiters τ) : ∀ a, Decidable (ClosesIdle s a)
  | .closeconn => inferInstanceAs (Decidable (s.conn.dead = true ∨ s.sendComplete.parked = []))
  | .send _ _ _ | .sendWake _ _ | .completeWake _ | .removed _ | .writeCb _ _ | .readCb
      _ _ _ _ | .arrive _ | .wakeWait _
  | .wakeComplete _ => isTrue trivial

theorem ok_send {t : τ} {b : Pdu} {r : WriteRes} (h : Ok s) (hs : s.send t b r = some s') :
    Ok s' ∧ (Quiet s → Quiet s') := by
  obtain ⟨hpc,hs⟩ := send_cases hs
  refine ok_attempt (s := { s with waiters := s.waiters + 1 }) h.queues h.removing (hpc ▸ id) ?_ hs
  have hout : ¬ s.sendWait.Waits t := by
    intro hw
    obtain ⟨b',hb'⟩ := (h.queues.waiting t).mp hw
    exact nomatch hpc.symm.trans hb'
  rw [CondVar.size_resume_of_not hout, ← h.queues.counted]

theorem ok_sendWake {t : τ} {r : WriteRes} (h : Ok s) (hs : s.sendWake t r = some s') :
    Ok s' ∧ (Quiet s → Quiet s') := by
  obtain ⟨b,hpc,hw,hs⟩ := sendWake_cases hs
  refine ok_attempt h.queues h.removing (hpc ▸ id) ?_ hs
  rw [CondVar.size_resume (.inr hw)]
  exact h.queues.counted

theorem ok_leave {s : Waiters τ} {t : τ} (h : Ok s) (ht : (s.conn.pc t).Owns) :
    Ok (s.leave (s.conn.finish t) t) ∧ (Quiet s → Quiet (s.leave (s.conn.finish t) t)) := by
  refine ⟨⟨h.queues.leave rfl rfl (fun b hb => ?_) fun u hu => h.queues.alone u t hu ht,?_⟩,
    fun hquiet hdead => ?_⟩
  · rw [hb] at ht
    exact ht
  · exact removing_update h.removing (x := .idle) nofun t
  · exact List.eq_nil_of_subset_nil (hquiet hdead ▸ List.erase_subset)

theorem ok_completeWake {t : τ} (h : Ok s) (hs : s.completeWake t = some s') :
    Ok s' ∧ (Quiet s → Quiet s') := by
  obtain ⟨hpc,-,⟨hlive,rfl⟩ | rfl⟩ := completeWake_cases hs
  · exact ⟨⟨h.queues.park_again hpc,h.removing⟩,fun _ hdead => nomatch hlive.symm.trans hdead⟩
  · exact ok_leave h (hpc ▸ trivial)

omit [DecidableEq τ] in
theorem Queues.one_completes {pc : τ → SendPc} {busy : Bool} {n : ℕ} {sw sc : CondVar τ}
    (h : Queues pc busy n sw sc) (t u : τ) (ht : sc.Waits t) (hu : sc.Waits u) : t = u :=
  h.alone t u ((h.completing t).mp ht ▸ trivial) ((h.completing u).mp hu ▸ trivial)

theorem ok_writeCb {r : WriteRes} {w : Option τ} (h : Ok s) (hs : s.writeCb r w = some s') :
    Ok s' ∧ Quiet s' := by
  obtain ⟨⟨c,bs⟩,hc,hs⟩ := Option.bind_eq_some_iff.mp hs
  obtain ⟨hdead,hpc,hbuf,hsame⟩ := writeCb_cases hc
  have hqueues := h.queues
  rw [← hpc, ← hbuf] at hqueues
  have hnone : ∀ t, c.pc t ≠ .removing :=
    fun t ht => nomatch hdead.symm.trans (h.removing t (hpc ▸ ht))
  simp only at hs
  split_ifs at hs with hsz hmore
  · cases hs
    refine ⟨⟨hqueues,fun t ht => absurd ht (hnone t)⟩,fun hdd => ?_⟩
    rw [hsame hsz, hdead] at hdd
    exact nomatch hdd
  · cases hs
    exact ⟨⟨hqueues,fun t ht => absurd ht (hnone t)⟩,fun hdd => nomatch hmore.1.symm.trans hdd⟩
  · obtain ⟨q,hq,rfl⟩ := Option.map_eq_some_iff.mp hs
    exact ⟨⟨hqueues.signal_complete hq,fun t ht => absurd ht (hnone t)⟩,
      fun _ => CondVar.parked_signal_nil hq hqueues.one_completes⟩

theorem ok_readCb {hdr body : ReadRes} {accept : Bool} {w : Option τ} (h : Ok s)
    (hs : s.readCb hdr body accept w = some s') : Ok s' ∧ (Quiet s → Quiet s') := by
  obtain ⟨⟨c,inc⟩,hc,hs⟩ := Option.bind_eq_some_iff.mp hs
  obtain ⟨hpc,hwpdu,hsame⟩ := readCb_cases hc
  have hqueues := h.queues
  rw [← hpc, ← hwpdu] at hqueues
  simp only at hs
  split_ifs at hs with hfail
  · obtain ⟨q,hq,rfl⟩ := Option.map_eq_some_iff.mp hs
    exact ⟨⟨hqueues.signal_complete hq,fun _ _ => hfail.2⟩,
      fun _ _ => CondVar.parked_signal_nil hq hqueues.one_completes⟩
  · cases hs
    -- the connection was dead before, or is not
    have hdead : c.dead = s.conn.dead := by
      cases hd : s.conn.dead with
      | true => exact hsame hd ▸ hd
      | false => exact Bool.eq_false_iff.mpr fun hcd => hfail ⟨hd,hcd⟩
    exact ⟨⟨hqueues,fun t ht => hdead.trans (h.removing t (hpc ▸ ht))⟩,
      fun hquiet hdd => hquiet (hdead ▸ hdd)⟩

theorem ok_step {a : WaitAct τ} (h : Ok s) (hs : s.step a = some s') :
    Ok s' ∧ (ClosesIdle s a → Quiet s → Quiet s') := by
  cases a with
  | send t b r => exact (ok_send h hs).imp_right fun hq _ => hq
  | sendWake t r => exact (ok_sendWake h hs).imp_right fun hq _ => hq
  | completeWake t => exact (ok_completeWake h hs).imp_right fun hq _ => hq
  | removed t =>
    obtain ⟨hpc,rfl⟩ := removed_cases hs
    exact (ok_leave h (hpc ▸ trivial)).imp_right fun hq _ => hq
  | writeCb r w => exact (ok_writeCb h hs).imp_right fun hq _ _ => hq
  | readCb hdr body accept w => exact (ok_readCb h hs).imp_right fun hq _ => hq
  | closeconn =>
    cases hs
    exact ⟨⟨h.queues,fun _ _ => rfl⟩,fun hidle hquiet _ => hidle.elim hquiet id⟩
  | arrive bs =>
    cases hs
    exact ⟨⟨h.queues,h.removing⟩,fun _ hquiet => hquiet⟩
  | wakeWait t =>
    obtain ⟨q,hq,rfl⟩ := Option.map_eq_some_iff.mp hs
    exact ⟨⟨h.queues.signal_wait hq,h.removing⟩,fun _ hquiet => hquiet⟩
  | wakeComplete t =>
    obtain ⟨q,hq,rfl⟩ := Option.map_eq_some_iff.mp hs
    exact ⟨⟨h.queues.signal_complete hq,h.removing⟩,
      fun _ _ _ => CondVar.parked_signal_nil hq h.queues.one_completes⟩

/-- Nobody is parked for the rest of a PDU. Who is parked for the channel is behind somebody who
is awake or comes back from `block_remove_fd`, and who wakes up all that are parked when it
returns. -/
structure Unstranded (s : Waiters τ) : Prop where
  complete : s.sendComplete.parked = []
  wait : s.sendWait.parked ≠ [] → ∃ t, s.conn.pc t = .removing ∨ t ∈ s.sendComplete.woken
  wakes : ∀ t s', s.completeWake t = some s' ∨ s.removed t = some s' → s'.sendWait.parked = []

theorem Ok.unstranded {s : Waiters τ} (h : Ok s) (hquiet : Quiet s) (hdead : s.conn.dead = true) :
    Unstranded s := by
  have hnil := hquiet hdead
  refine ⟨hnil,fun hp => ?_,fun t s' hs => ?_⟩
  · obtain ⟨t,ht⟩ := h.queues.owner (h.queues.queue hp)
    refine ⟨t,?_⟩
    cases hpc : s.conn.pc t with
    | idle =>
      rw [hpc] at ht
      exact ht.elim
    | waiting b =>
      rw [hpc] at ht
      exact ht.elim
    | removing => exact .inl rfl
    | completing =>
      have hw := (h.queues.completing t).mpr hpc
      rw [CondVar.Waits, hnil] at hw
      exact .inr (hw.resolve_left List.not_mem_nil)
  · rcases hs with hs | hs
    · obtain ⟨-,-,⟨hlive,-⟩ | rfl⟩ := completeWake_cases hs
      · rw [hdead] at hlive
        cases hlive
      · exact h.queues.none_parked
    · obtain ⟨-,rfl⟩ := removed_cases hs
      exact h.queues.none_parked

/-- In any interleaving in which `closeconn` does not find a sender parked for the rest of its
PDU. -/
theorem no_sender_stranded (as : List (WaitAct τ)) (s : Waiters τ)
    (hP : RunAll Waiters.step ClosesIdle .init as)
    (hr : run Waiters.step .init as = some s) (hdead : s.conn.dead = true) : Unstranded s := by
  have hinv := run_invariant_of_all Waiters.step ClosesIdle (fun s : Waiters τ => Ok s ∧ Quiet s) ?_
    _ s as ⟨ok_init,nofun⟩ hP hr
  · exact hinv.1.unstranded hinv.2 hdead
  · rintro s a s' ⟨hok,hquiet⟩ ha hs
    obtain ⟨hok',hquiet'⟩ := ok_step hok hs
    exact ⟨hok',hquiet' ha hquiet⟩

/-- A wake-up without a signal. -/
def WaitAct.isWake : WaitAct τ → Bool
  | .wakeWait _ | .wakeComplete _ => true
  | _ => false

/-- The connection is dead, `t` is parked for the rest of its PDU and `u` for the channel. -/
structure Stuck (t u : τ) (s : Waiters τ) : Prop where
  ok : Ok s
  dead : s.conn.dead = true
  sender : t ∈ s.sendComplete.parked
  behind : u ∈ s.sendWait.parked

/-- A call of `send` by somebody else returns. -/
theorem Stuck.attempt {t u v : τ} {b : Pdu} {r : WriteRes} {n : ℕ} (h : Stuck t u s) (hv : u ≠ v)
    (hs : { s with waiters := n }.attempt v b r = some s') :
    s'.conn.dead = true ∧ t ∈ s'.sendComplete.parked ∧ u ∈ s'.sendWait.parked := by
  have hpark : ¬ (s.conn.dead = false ∧ s.conn.wpdu.buf.isSome = true) :=
    fun hp => nomatch hp.1.symm.trans h.dead
  simp only [Waiters.attempt, if_neg hpark, if_pos h.dead, Option.some.injEq] at hs
  subst hs
  exact ⟨h.dead,h.sender,(List.mem_erase_of_ne hv).mpr h.behind⟩

omit [DecidableEq τ] in
theorem Stuck.not_woken {s : Waiters τ} {t u : τ} (h : Stuck t u s) : t ∉ s.sendComplete.woken ∧
    u ∉ s.sendWait.woken :=
  ⟨fun ht => (List.nodup_append.mp s.sendComplete.nodup).2.2 t h.sender t ht rfl,
    fun hu => (List.nodup_append.mp s.sendWait.nodup).2.2 u h.behind u hu rfl⟩

omit [DecidableEq τ] in
/-- The sender has the channel and is the only one who would ever give it up. -/
theorem Stuck.owner {s : Waiters τ} {t u v : τ} (h : Stuck t u s) (hv : (s.conn.pc v).Owns) :
    v = t := by
  refine h.ok.queues.alone v t hv ?_
  rw [(h.ok.queues.completing t).mp (.inl h.sender)]
  trivial

theorem stuck_step {t u : τ} {a : WaitAct τ} (h : Stuck t u s) (ha : a.isWake = false)
    (hs : s.step a = some s') : Stuck t u s' := by
  have hok := (ok_step h.ok hs).1
  have hcompleting := (h.ok.queues.completing t).mp (.inl h.sender)
  obtain ⟨htw,huw⟩ := h.not_woken
  cases a with
  | send v b r =>
    obtain ⟨hpc,hs⟩ := send_cases hs
    have hne : u ≠ v := by
      rintro rfl
      obtain ⟨b',hb'⟩ := (h.ok.queues.waiting u).mp (.inl h.behind)
      exact nomatch hpc.symm.trans hb'
    obtain ⟨hdead,hsender,hbehind⟩ := h.attempt hne hs
    exact ⟨hok,hdead,hsender,hbehind⟩
  | sendWake v r =>
    obtain ⟨b,hpc,hw,hs⟩ := sendWake_cases hs
    have hne : u ≠ v := by
      rintro rfl
      exact huw hw
    obtain ⟨hdead,hsender,hbehind⟩ := h.attempt hne hs
    exact ⟨hok,hdead,hsender,hbehind⟩
  | completeWake v =>
    obtain ⟨hpc,hw,-⟩ := completeWake_cases hs
    have hv := h.owner (v := v) (hpc ▸ trivial)
    exact absurd (hv ▸ hw) htw
  | removed v =>
    obtain ⟨hpc,-⟩ := removed_cases hs
    have hv := h.owner (v := v) (hpc ▸ trivial)
    rw [hv, hcompleting] at hpc
    exact nomatch hpc
  | writeCb r w =>
    obtain ⟨⟨c,bs⟩,hc,-⟩ := Option.bind_eq_some_iff.mp hs
    exact nomatch (writeCb_cases hc).1.symm.trans h.dead
  | readCb hdr body accept w =>
    obtain ⟨⟨c,inc⟩,hc,hs⟩ := Option.bind_eq_some_iff.mp hs
    have hsame := (readCb_cases hc).2.2 h.dead
    have hquiet : ¬ (s.conn.dead = false ∧ c.dead = true) :=
      fun hf => nomatch hf.1.symm.trans h.dead
    simp only [if_neg hquiet, Option.some.injEq] at hs
    subst hs
    exact ⟨hok,hsame ▸ h.dead,h.sender,h.behind⟩
  | closeconn =>
    cases hs
    exact ⟨hok,rfl,h.sender,h.behind⟩
  | arrive bs =>
    cases hs
    exact ⟨hok,h.dead,h.sender,h.behind⟩
  | wakeWait v => exact nomatch ha
  | wakeComplete v => exact nomatch ha

theorem stuck_run {t u : τ} {bs : List (WaitAct τ)} (h : Stuck t u s)
    (hbs : ∀ a ∈ bs, a.isWake = false) (hr : run Waiters.step s bs = some s') : Stuck t u s' :=
  run_invariant_of_all Waiters.step (fun _ a => a.isWake = false) (Stuck t u)
    (fun _ _ _ h ha hs => stuck_step h ha hs) s s' bs h
    (runAll_of_mem _ _ s bs hbs) hr

end

/-- Two threads send, the first one cannot write all of its PDU, and the read callback finds the
end of the stream. -/
theorem no_sender_stranded_eof : ∃ as, ∃ s : Waiters Bool, run Waiters.step .init as = some s ∧
    s.conn.dead = true ∧
    s.sendWait.parked = [true] ∧ s.sendComplete.woken = [false] ∧ Unstranded s := by
  let pdu : Pdu := ⟨List.replicate 24 0, by simp [rpcHeaderSz, maxPdu]⟩
  have hends : ∃ s : Waiters Bool, run Waiters.step .init [.send false pdu (.wrote 4),
    .send true pdu .again,
      .readCb (.eof false) (.eof false) true (some false)] = some s ∧ s.conn.dead = true ∧
        s.sendWait.parked = [true] ∧
      s.sendComplete.woken = [false] := by decide +kernel
  obtain ⟨s,hr,hdead,hwait,hwoken⟩ := hends
  exact ⟨_,s,hr,hdead,hwait,hwoken,no_sender_stranded _ s (by decide +kernel) hr hdead⟩

/-- The same two threads, and `closeconn`: both are parked for ever, unless they wake up without
a signal. -/
theorem closeconn_strands : ∃ as, ∃ s : Waiters Bool, run Waiters.step .init as = some s ∧
    s.conn.dead = true ∧
    s.sendComplete.parked = [false] ∧ s.sendWait.parked = [true] ∧
    ∀ bs s', (∀ a ∈ bs, a.isWake = false) → run Waiters.step s bs = some s' →
      false ∈ s'.sendComplete.parked ∧ true ∈ s'.sendWait.parked := by
  let pdu : Pdu := ⟨List.replicate 24 0, by simp [rpcHeaderSz, maxPdu]⟩
  have hends : ∃ s : Waiters Bool, run Waiters.step .init [.send false pdu (.wrote 4),
    .send true pdu .again, .closeconn] = some s ∧
      s.conn.dead = true ∧ s.sendComplete.parked = [false] ∧ s.sendWait.parked = [true] := by
        decide +kernel
  obtain ⟨s,hr,hdead,hcomplete,hwait⟩ := hends
  have hok : Ok s :=
    run_invariant Waiters.step Ok (fun _ _ _ h hs => (ok_step h hs).1) _ s _ ok_init hr
  have hstuck : Stuck false true s :=
    ⟨hok,hdead,hcomplete ▸ List.mem_singleton_self _,hwait ▸ List.mem_singleton_self _⟩
  refine ⟨_,s,hr,hdead,hcomplete,hwait,fun bs s' hbs hr' => ?_⟩
  have hstuck' := stuck_run hstuck hbs hr'
  exact ⟨hstuck'.sender,hstuck'.behind⟩

end Yfs.Conn
