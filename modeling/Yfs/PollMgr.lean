import Mathlib.Data.Finset.Basic
import Yfs.CondVar
import Yfs.Run

namespace Yfs.Poll

inductive PollFlag
  | rdonly
  | wronly
  | rdwr
  deriving DecidableEq

inductive Cb
  | read
  | write
  deriving DecidableEq

/-- `pipefd` is the end of the pipe that is read, and `pipe` the number of bytes in it. -/
structure SelectAio where
  rfds : Finset ℕ
  wfds : Finset ℕ
  highfds : ℕ
  pipefd : ℕ
  pipe : ℕ

namespace SelectAio

def init (pipefd : ℕ) : SelectAio := ⟨{pipefd}, ∅, pipefd, pipefd, 0⟩

def watchFd (a : SelectAio) (fd : ℕ) (flag : PollFlag) : SelectAio where
  rfds := if flag = .wronly then a.rfds else insert fd a.rfds
  wfds := if flag = .rdonly then a.wfds else insert fd a.wfds
  highfds := if a.highfds ≤ fd then fd else a.highfds
  pipefd := a.pipefd
  pipe := a.pipe + 1

/-- The result says that `fd` is not watched at all any more. -/
def unwatchFd (a : SelectAio) (fd : ℕ) (flag : PollFlag) : SelectAio × Bool :=
  let rfds := if flag = .wronly then a.rfds else a.rfds.erase fd
  let wfds := if flag = .rdonly then a.wfds else a.wfds.erase fd
  let gone := fd ∉ rfds ∧ fd ∉ wfds
  ({ a with
    rfds := rfds
    wfds := wfds
    highfds :=
      -- the highest one that is left; the pipe is always watched
      if gone ∧ fd = a.highfds then
        (List.range (a.highfds + 1)).foldl (fun newh i => if i ∈ rfds ∨ i ∈ wfds then i else newh)
          a.pipefd
      else a.highfds
    pipe := if flag = .rdwr then a.pipe + 1 else a.pipe }, gone)

/-- What `wait_ready` makes of the sets that `select` has left: the pipe is emptied by a byte and
not reported. -/
def readable (a : SelectAio) (trfds : Finset ℕ) (high : ℕ) : List ℕ :=
  (List.range (high + 1)).filter fun fd => fd ∈ trfds ∧ fd ≠ a.pipefd

def writable (a : SelectAio) (trfds twfds : Finset ℕ) (high : ℕ) : List ℕ :=
  (List.range (high + 1)).filter fun fd => fd ∈ twfds ∧ ¬ (fd = a.pipefd ∧ fd ∈ trfds)

def readPipe (a : SelectAio) (trfds : Finset ℕ) (high : ℕ) : SelectAio :=
  if a.pipefd ∈ trfds ∧ a.pipefd ≤ high then { a with pipe := a.pipe - 1 } else a

end SelectAio

/-- Where `wait_loop` is: before the section of the loop head, after it, in `select` with its copies
of the sets, at the test of `callbacks_[fd]` for the first of what is left to do, between the
test and the call, in a callback; or it has called a null pointer. -/
inductive PollPc (γ : Type*)
  | top
  | cleared
  | select (trfds twfds : Finset ℕ) (high : ℕ)
  | dispatch (todo : List (Cb × ℕ))
  | tested (cb : Cb) (fd : ℕ) (todo : List (Cb × ℕ))
  | running (cb : Cb) (fd : ℕ) (ch : γ) (todo : List (Cb × ℕ))
  | crashed
  deriving DecidableEq

/-- `removers` are the calls of `block_remove_fd` in progress. -/
structure PollMgr (τ γ : Type*) where
  callbacks : ℕ → Option γ
  aio : SelectAio
  pendingChange : Bool
  changedone : CondVar τ
  removers : List (τ × ℕ)
  pc : PollPc γ

def PollMgr.init (τ γ : Type*) (pipefd : ℕ) : PollMgr τ γ :=
  ⟨fun _ => none, .init pipefd, false, .empty, [], .top⟩

/-- `removed` is the return of a call of `block_remove_fd`. The last seven are those of `wait_loop`;
`ready` is the return of `select` with the sets that it leaves. -/
inductive PollAct (τ γ : Type*)
  | addCallback (fd : ℕ) (flag : PollFlag) (ch : γ)
  | delCallback (fd : ℕ) (flag : PollFlag)
  | blockRemoveFd (t : τ) (fd : ℕ)
  | removed (t : τ) (fd : ℕ)
  | head
  | copy
  | ready (trfds twfds : Finset ℕ)
  | interrupted
  | test
  | call
  | returned

def maxPollFds : ℕ := 128

section
variable {τ γ : Type*} [DecidableEq τ] [DecidableEq γ]

namespace PollMgr

/-- The process aborts if the descriptor is out of range or has another callback. -/
def addCallback (s : PollMgr τ γ) (fd : ℕ) (flag : PollFlag) (ch : γ) : Option (PollMgr τ γ) :=
  if fd < maxPollFds ∧ (s.callbacks fd = none ∨ s.callbacks fd = some ch) then
    some { s with
      aio := s.aio.watchFd fd flag, callbacks := Function.update s.callbacks fd (some ch) }
  else none

def delCallback (s : PollMgr τ γ) (fd : ℕ) (flag : PollFlag) : PollMgr τ γ :=
  let r := s.aio.unwatchFd fd flag
  { s with
    aio := r.1
    callbacks := if r.2 = true then Function.update s.callbacks fd none else s.callbacks }

/-- Up to the wait. -/
def blockRemoveFd (s : PollMgr τ γ) (t : τ) (fd : ℕ) : Option (PollMgr τ γ) :=
  if t ∈ s.removers.map Prod.fst then none
  else some { s with
    aio := (s.aio.unwatchFd fd .rdwr).1
    pendingChange := true
    changedone := s.changedone.wait t
    removers := (t, fd) :: s.removers }

/-- The wait returns only after a broadcast. -/
def removed (s : PollMgr τ γ) (t : τ) (fd : ℕ) : Option (PollMgr τ γ) :=
  if (t, fd) ∈ s.removers ∧ t ∈ s.changedone.woken then
    some { s with
      callbacks := Function.update s.callbacks fd none
      changedone := s.changedone.resume t
      removers := s.removers.erase (t, fd) }
  else none

def head (s : PollMgr τ γ) : PollMgr τ γ :=
  if s.pendingChange = true then { s with
    pendingChange := false, changedone := s.changedone.broadcast, pc := .cleared }
  else { s with pc := .cleared }

def waitLoop (s : PollMgr τ γ) : PollAct τ γ → PollPc γ → Option (PollMgr τ γ)
  | .head, .top => some s.head
  | .copy, .cleared => some { s with pc := .select s.aio.rfds s.aio.wfds s.aio.highfds }
  | .ready r w, .select trfds twfds high =>
    -- `select` reports part of what it was given, and the pipe only if there is a byte to read
    if r ⊆ trfds ∧ w ⊆ twfds ∧ (s.aio.pipefd ∈ r → 0 < s.aio.pipe) then
      some { s with
        aio := s.aio.readPipe r high
        pc := .dispatch ((s.aio.readable r high).map (Cb.read, ·) ++
          (s.aio.writable r w high).map (Cb.write, ·)) }
    else none
  | .interrupted, .select _ _ _ => some { s with pc := .dispatch [] }
  | .test, .dispatch [] => some { s with pc := .top }
  | .test, .dispatch ((cb, fd) :: todo) =>
    -- `m_` is not held, and `callbacks_[fd]` is read again at the call
    some { s with pc := if s.callbacks fd = none then .dispatch todo else .tested cb fd todo }
  | .call, .tested cb fd todo =>
    match s.callbacks fd with
    | none => some { s with pc := .crashed }
    | some ch => some { s with pc := .running cb fd ch todo }
  | .returned, .running _ _ _ todo => some { s with pc := .dispatch todo }
  | _, _ => none

def step (s : PollMgr τ γ) : PollAct τ γ → Option (PollMgr τ γ)
  | .addCallback fd flag ch => s.addCallback fd flag ch
  | .delCallback fd flag => some (s.delCallback fd flag)
  | .blockRemoveFd t fd => s.blockRemoveFd t fd
  | .removed t fd => s.removed t fd
  | a => s.waitLoop a s.pc

end PollMgr

variable {s s' : PollMgr τ γ} {a : PollAct τ γ}

def SelectAio.Watched (a : SelectAio) (fd : ℕ) : Prop := fd ∈ a.rfds ∨ fd ∈ a.wfds

/-- The poll thread has the descriptor in its copies of the sets, or in what it does or is about
to do. -/
def PollPc.Has (fd : ℕ) : PollPc γ → Prop
  | .select trfds twfds _ => fd ∈ trfds ∨ fd ∈ twfds
  | .dispatch todo => fd ∈ todo.map Prod.snd
  | .tested _ fd' todo => fd = fd' ∨ fd ∈ todo.map Prod.snd
  | .running _ fd' _ todo => fd = fd' ∨ fd ∈ todo.map Prod.snd
  | _ => False

structure Clean (s : PollMgr τ γ) (fd : ℕ) : Prop where
  unwatched : ¬ s.aio.Watched fd
  idle : ¬ s.pc.Has fd

def PollAct.Adds (fd : ℕ) : PollAct τ γ → Prop
  | .addCallback fd' _ _ => fd' = fd
  | _ => False

theorem watched_watchFd {a : SelectAio} {fd fd' : ℕ} {flag : PollFlag}
    (h : (a.watchFd fd flag).Watched fd') :
    fd' = fd ∨ a.Watched fd' := by
  rcases h with h | h
  · simp only [SelectAio.watchFd] at h
    split_ifs at h
    · exact .inr (.inl h)
    · exact (Finset.mem_insert.mp h).imp_right .inl
  · simp only [SelectAio.watchFd] at h
    split_ifs at h
    · exact .inr (.inr h)
    · exact (Finset.mem_insert.mp h).imp_right .inr

theorem watched_unwatchFd {a : SelectAio} {fd fd' : ℕ} {flag : PollFlag}
    (h : (a.unwatchFd fd flag).1.Watched fd') :
    a.Watched fd' := by
  rcases h with h | h
  · simp only [SelectAio.unwatchFd] at h
    split_ifs at h
    · exact .inl h
    · exact .inl (Finset.mem_of_mem_erase h)
  · simp only [SelectAio.unwatchFd] at h
    split_ifs at h
    · exact .inr h
    · exact .inr (Finset.mem_of_mem_erase h)

theorem not_watched_rdwr (a : SelectAio) (fd : ℕ) : ¬ (a.unwatchFd fd .rdwr).1.Watched fd := by
  simp [SelectAio.Watched, SelectAio.unwatchFd]

theorem watched_readPipe (a : SelectAio) (r : Finset ℕ) (high fd : ℕ) :
    (a.readPipe r high).Watched fd ↔ a.Watched fd := by
  unfold SelectAio.readPipe
  split_ifs
  · exact Iff.rfl
  · exact Iff.rfl

theorem mem_reported {a : SelectAio} {r w : Finset ℕ} {high fd : ℕ}
    (h : fd ∈ ((a.readable r high).map (Cb.read, ·) ++ (a.writable r w high).map (Cb.write, ·)).map
      Prod.snd) : fd ∈ r ∨ fd ∈ w := by
  rw [List.map_append, List.map_map, List.map_map, List.mem_append] at h
  rcases h with h | h
  · obtain ⟨fd',hmem,rfl⟩ := List.mem_map.mp h
    have hr := (List.mem_filter.mp hmem).2
    simp only [decide_eq_true_eq] at hr
    exact .inl hr.1
  · obtain ⟨fd',hmem,rfl⟩ := List.mem_map.mp h
    have hw := (List.mem_filter.mp hmem).2
    simp only [decide_eq_true_eq] at hw
    exact .inr hw.1

inductive PollStep (s : PollMgr τ γ) : PollAct τ γ → PollMgr τ γ → Prop
  | add (fd : ℕ) (flag : PollFlag) (ch : γ) (hfd : fd < maxPollFds)
    (hcb : s.callbacks fd = none ∨ s.callbacks fd = some ch) :
      PollStep s (.addCallback fd flag ch) { s with
        aio := s.aio.watchFd fd flag
        callbacks := Function.update s.callbacks fd (some ch) }
  | del (fd : ℕ) (flag : PollFlag) : PollStep s (.delCallback fd flag) (s.delCallback fd flag)
  | remove (t : τ) (fd : ℕ) (ht : t ∉ s.removers.map Prod.fst) :
      PollStep s (.blockRemoveFd t fd) { s with
        aio := (s.aio.unwatchFd fd .rdwr).1
        pendingChange := true
        changedone := s.changedone.wait t
        removers := (t, fd) :: s.removers }
  | removed (t : τ) (fd : ℕ) (hmem : (t, fd) ∈ s.removers) (hw : t ∈ s.changedone.woken) :
      PollStep s (.removed t fd) { s with
        callbacks := Function.update s.callbacks fd none
        changedone := s.changedone.resume t
        removers := s.removers.erase (t, fd) }
  | broadcast (hpc : s.pc = .top) (hpending : s.pendingChange = true) :
      PollStep s .head { s with
        pendingChange := false, changedone := s.changedone.broadcast, pc := .cleared }
  | pass (hpc : s.pc = .top) (hpending : s.pendingChange = false) : PollStep s .head { s with
      pc := .cleared }
  | copy (hpc : s.pc = .cleared) :
      PollStep s .copy { s with pc := .select s.aio.rfds s.aio.wfds s.aio.highfds }
  | ready (r w trfds twfds : Finset ℕ) (high : ℕ) (hpc : s.pc = .select trfds twfds high)
      (hr : r ⊆ trfds) (hw : w ⊆ twfds) (hpipe : s.aio.pipefd ∈ r → 0 < s.aio.pipe) :
      PollStep s (.ready r w) { s with
        aio := s.aio.readPipe r high
        pc := .dispatch ((s.aio.readable r high).map (Cb.read, ·) ++
          (s.aio.writable r w high).map (Cb.write, ·)) }
  | interrupted (trfds twfds : Finset ℕ) (high : ℕ) (hpc : s.pc = .select trfds twfds high) :
      PollStep s .interrupted { s with pc := .dispatch [] }
  | again (hpc : s.pc = .dispatch []) : PollStep s .test { s with pc := .top }
  | skip (cb : Cb) (fd : ℕ) (todo : List (Cb × ℕ)) (hpc : s.pc = .dispatch ((cb, fd) :: todo))
      (hcb : s.callbacks fd = none) :
      PollStep s .test { s with pc := .dispatch todo }
  | test (cb : Cb) (fd : ℕ) (todo : List (Cb × ℕ)) (hpc : s.pc = .dispatch ((cb, fd) :: todo))
      (hcb : s.callbacks fd ≠ none) :
      PollStep s .test { s with pc := .tested cb fd todo }
  | crash (cb : Cb) (fd : ℕ) (todo : List (Cb × ℕ)) (hpc : s.pc = .tested cb fd todo)
      (hcb : s.callbacks fd = none) :
      PollStep s .call { s with pc := .crashed }
  | call (cb : Cb) (fd : ℕ) (todo : List (Cb × ℕ)) (ch : γ) (hpc : s.pc = .tested cb fd todo)
      (hcb : s.callbacks fd = some ch) :
      PollStep s .call { s with pc := .running cb fd ch todo }
  | returned (cb : Cb) (fd : ℕ) (ch : γ) (todo : List (Cb × ℕ))
      (hpc : s.pc = .running cb fd ch todo) :
      PollStep s .returned { s with pc := .dispatch todo }

omit [DecidableEq γ] in
theorem pollStep_waitLoop (h : s.waitLoop a s.pc = some s') : PollStep s a s' := by
  unfold PollMgr.waitLoop at h
  split at h
  · next hpc =>
    cases h
    unfold PollMgr.head
    split_ifs with hpending
    · exact .broadcast hpc hpending
    · exact .pass hpc (Bool.eq_false_iff.mpr hpending)
  · next hpc =>
    cases h
    exact .copy hpc
  · next r w trfds twfds high hpc =>
    simp only [Option.ite_none_right_eq_some, Option.some.injEq] at h
    obtain ⟨⟨hr,hw,hpipe⟩,rfl⟩ := h
    exact .ready r w trfds twfds high hpc hr hw hpipe
  · next trfds twfds high hpc =>
    cases h
    exact .interrupted trfds twfds high hpc
  · next hpc =>
    cases h
    exact .again hpc
  · next cb fd todo hpc =>
    cases h
    split_ifs with hcb
    · exact .skip cb fd todo hpc hcb
    · exact .test cb fd todo hpc hcb
  · next cb fd todo hpc =>
    split at h
    · next hcb =>
      cases h
      exact .crash cb fd todo hpc hcb
    · next ch hcb =>
      cases h
      exact .call cb fd todo ch hpc hcb
  · next cb fd ch todo hpc =>
    cases h
    exact .returned cb fd ch todo hpc
  · cases h

theorem pollStep_of_step (h : s.step a = some s') : PollStep s a s' := by
  cases a with
  | addCallback fd flag ch =>
    simp only [PollMgr.step, PollMgr.addCallback, Option.ite_none_right_eq_some,
      Option.some.injEq] at h
    obtain ⟨⟨hfd,hcb⟩,rfl⟩ := h
    exact .add fd flag ch hfd hcb
  | delCallback fd flag =>
    cases h
    exact .del fd flag
  | blockRemoveFd t fd =>
    simp only [PollMgr.step, PollMgr.blockRemoveFd, Option.ite_none_left_eq_some,
      Option.some.injEq] at h
    obtain ⟨ht,rfl⟩ := h
    exact .remove t fd ht
  | removed t fd =>
    simp only [PollMgr.step, PollMgr.removed, Option.ite_none_right_eq_some, Option.some.injEq] at h
    obtain ⟨⟨hmem,hw⟩,rfl⟩ := h
    exact .removed t fd hmem hw
  | head | copy | ready | interrupted | test | call | returned => exact pollStep_waitLoop h

section
omit [DecidableEq γ]

/-- A descriptor gets to be watched by `add_callback` only. -/
theorem watched_step {fd : ℕ} (hs : PollStep s a s') (h : s'.aio.Watched fd) :
    a.Adds fd ∨ s.aio.Watched fd := by
  cases hs with
  | add fd' flag ch hfd hcb => exact (watched_watchFd h).imp_left Eq.symm
  | del fd' flag => exact .inr (watched_unwatchFd h)
  | remove t fd' ht => exact .inr (watched_unwatchFd h)
  | ready r w trfds twfds high hpc hr hw hpipe =>
    exact .inr ((watched_readPipe s.aio r high fd).mp h)
  | removed | broadcast | pass | copy | interrupted | again | skip | test | crash | call
  | returned => exact .inr h

/-- The poll thread has what it had before, or what is watched when it copies the sets; nothing at
the loop head. -/
theorem has_step {fd : ℕ} (hs : PollStep s a s') (h : s'.pc.Has fd) :
    s.pc.Has fd ∨ s.aio.Watched fd := by
  cases hs with
  | add | del | remove | removed => exact .inl h
  | broadcast | pass | interrupted | again | crash => exact nomatch h
  | copy hpc => exact .inr h
  | ready r w trfds twfds high hpc hr hw hpipe =>
    rw [hpc]
    exact .inl ((mem_reported h).imp (@hr fd) (@hw fd))
  | skip cb fd' todo hpc hcb =>
    rw [hpc]
    exact .inl (List.mem_cons_of_mem _ h)
  | test cb fd' todo hpc hcb =>
    rw [hpc]
    exact .inl (List.mem_cons.mpr h)
  | call cb fd' todo ch hpc hcb =>
    rw [hpc]
    exact .inl h
  | returned cb fd' ch todo hpc =>
    rw [hpc]
    exact .inl (.inr h)

theorem Clean.step {fd : ℕ} (h : Clean s fd) (hs : PollStep s a s') (ha : ¬ a.Adds fd) :
    Clean s' fd where
  unwatched hw := (watched_step hs hw).elim ha h.unwatched
  idle hh := (has_step hs hh).elim h.idle h.unwatched

end

theorem Clean.run {as : List (PollAct τ γ)} {fd : ℕ} (h : Clean s fd) (ha : ∀ a ∈ as, ¬ a.Adds fd)
    (hr : run PollMgr.step s as = some s') : Clean s' fd :=
  run_invariant_of_all PollMgr.step (fun _ a => ¬ a.Adds fd) (Clean · fd)
    (fun _ _ _ hc ha hs => hc.step (pollStep_of_step hs) ha) s s' as h (runAll_of_mem _ _ s as ha)
      hr

/-- Every remover waits. As long as one is parked the loop head is going to broadcast. -/
structure Waiters (s : PollMgr τ γ) : Prop where
  threads : (s.removers.map Prod.fst).Nodup
  waits : ∀ t fd, (t, fd) ∈ s.removers → s.changedone.Waits t
  pending : s.changedone.parked ≠ [] → s.pendingChange = true

/-- What a remover removes is not watched, and once it has been woken up the poll thread has no
trace of it. -/
structure Removers (s : PollMgr τ γ) : Prop extends Waiters s where
  unwatched : ∀ t fd, (t, fd) ∈ s.removers → ¬ s.aio.Watched fd
  woken : ∀ t fd, (t, fd) ∈ s.removers → t ∈ s.changedone.woken → Clean s fd

/-- `add_callback` is not called for a descriptor that is being removed. -/
def NoOverlap (s : PollMgr τ γ) : PollAct τ γ → Prop
  | .addCallback fd _ _ => fd ∉ s.removers.map Prod.snd
  | _ => True

instance (s : PollMgr τ γ) : ∀ a, Decidable (NoOverlap s a)
  | .addCallback fd _ _ => inferInstanceAs (Decidable (fd ∉ s.removers.map Prod.snd))
  | .delCallback _ _ | .blockRemoveFd _ _ | .removed _ _ | .head | .copy | .ready
      _ _ | .interrupted | .test | .call
  | .returned => isTrue trivial

section
omit [DecidableEq γ]

omit [DecidableEq τ] in
theorem not_adds {s : PollMgr τ γ} {t : τ} {fd : ℕ} (ha : NoOverlap s a)
    (hmem : (t, fd) ∈ s.removers) :
    ¬ a.Adds fd := by
  cases a with
  | addCallback fd' flag ch =>
    rintro rfl
    exact ha (List.mem_map_of_mem hmem)
  | _ => exact id

omit [DecidableEq τ] in
theorem waiters_init (pipefd : ℕ) : Waiters (PollMgr.init τ γ pipefd) :=
  ⟨List.nodup_nil,nofun,fun h => absurd rfl h⟩

theorem Waiters.other {s : PollMgr τ γ} (h : Waiters s) {t t' : τ} {fd fd' : ℕ}
    (hmem : (t, fd) ∈ s.removers) (hmem' : (t', fd') ∈ s.removers.erase (t, fd)) :
    t' ≠ t ∧ (t', fd') ∈ s.removers := by
  obtain ⟨hne,hin⟩ := (List.Nodup.of_map _ h.threads).mem_erase_iff.mp hmem'
  exact ⟨fun ht => hne (List.inj_on_of_nodup_map h.threads hin hmem ht),hin⟩

theorem waiters_step (h : Waiters s)
    (hs : PollStep s a s') : Waiters s' := by
  cases hs with
  | remove t fd ht =>
    refine ⟨List.nodup_cons.mpr ⟨ht,h.threads⟩,fun t' fd' hmem => ?_,fun _ => rfl⟩
    rcases List.mem_cons.mp hmem with ⟨rfl,rfl⟩ | hmem
    · exact .inl List.mem_cons_self
    · exact (h.waits t' fd' hmem).wait t
  | removed t fd hmem hw =>
    refine ⟨h.threads.sublist (List.erase_sublist.map _),fun t' fd' hmem' => ?_,
      fun hp => h.pending fun hnil => hp ?_⟩
    · obtain ⟨hne,hin⟩ := h.other hmem hmem'
      exact (h.waits t' fd' hin).resume hne
    · exact List.eq_nil_of_subset_nil (hnil ▸ List.erase_subset)
  | broadcast hpc hpending =>
    exact ⟨h.threads,fun t fd hmem => CondVar.waits_broadcast_iff.mpr (h.waits t fd hmem),
      fun hp => absurd rfl hp⟩
  | add | del | pass | copy | ready | interrupted | again | skip | test | crash | call | returned =>
    exact ⟨h.threads,h.waits,h.pending⟩

omit [DecidableEq τ] in
theorem removers_init (pipefd : ℕ) : Removers (PollMgr.init τ γ pipefd) :=
  ⟨waiters_init pipefd,nofun,nofun⟩

theorem Removers.keep (h : Removers s)
    (hs : PollStep s a s') (ha : NoOverlap s a) (hrem : s'.removers = s.removers)
    (hcv : s'.changedone = s.changedone) : Removers s' where
  toWaiters := waiters_step h.toWaiters hs
  unwatched t fd hmem hw :=
    (watched_step hs hw).elim (not_adds ha (hrem ▸ hmem)) (h.unwatched t fd (hrem ▸ hmem))
  woken t fd hmem hw :=
    (h.woken t fd (hrem ▸ hmem) (hcv ▸ hw)).step hs (not_adds ha (hrem ▸ hmem))

theorem removers_remove {t : τ} {fd : ℕ} (h : Removers s)
    (hs : PollStep s (.blockRemoveFd t fd) s') (hs' : s' = { s with
      aio := (s.aio.unwatchFd fd .rdwr).1
      pendingChange := true
      changedone := s.changedone.wait t
      removers := (t, fd) :: s.removers }) : Removers s' := by
  have hold : ∀ t' fd', (t', fd') ∈ s.removers → t' ∈ s'.changedone.woken → Clean s' fd' := by
    intro t' fd' hmem hw
    rw [hs'] at hw
    exact (h.woken t' fd' hmem (CondVar.woken_wait hw).2).step hs id
  rw [hs'] at hold ⊢
  refine ⟨hs' ▸ waiters_step h.toWaiters hs,fun t' fd' hmem => ?_,fun t' fd' hmem hw => ?_⟩
  · rcases List.mem_cons.mp hmem with ⟨rfl,rfl⟩ | hmem
    · exact not_watched_rdwr s.aio fd
    · exact fun hw => h.unwatched t' fd' hmem (watched_unwatchFd hw)
  · rcases List.mem_cons.mp hmem with ⟨rfl,rfl⟩ | hmem
    · exact absurd rfl (CondVar.woken_wait hw).1
    · exact hold t' fd' hmem hw

theorem removers_step (h : Removers s) (ha : NoOverlap s a) (hs : PollStep s a s') :
    Removers s' := by
  have hstep := hs
  cases hs with
  | remove t fd ht => exact removers_remove h hstep rfl
  | removed t fd hmem hw =>
    refine ⟨waiters_step h.toWaiters hstep,fun t' fd' hmem' => ?_,fun t' fd' hmem' hw' => ?_⟩
    · exact h.unwatched t' fd' (h.other hmem hmem').2
    · have hclean := h.woken t' fd' (h.other hmem hmem').2 (List.mem_of_mem_erase hw')
      exact ⟨hclean.unwatched,hclean.idle⟩
  | broadcast hpc hpending =>
    -- the poll thread is between two passes
    exact ⟨waiters_step h.toWaiters hstep,h.unwatched,
      fun t fd hmem _ => ⟨h.unwatched t fd hmem,id⟩⟩
  | add | del | pass | copy | ready | interrupted | again | skip | test | crash | call | returned =>
    exact h.keep hstep ha rfl rfl

end

theorem removers_run {s : PollMgr τ γ} {pipefd : ℕ} {as : List (PollAct τ γ)}
    (hP : RunAll PollMgr.step NoOverlap (.init τ γ pipefd) as)
    (hr : run PollMgr.step (.init τ γ pipefd) as = some s) : Removers s :=
  run_invariant_of_all PollMgr.step NoOverlap Removers
    (fun _ _ _ h ha hs => removers_step h ha (pollStep_of_step hs)) _ s as
    (removers_init pipefd) hP hr

/-- A callback of the descriptor is running. -/
def PollMgr.Running (s : PollMgr τ γ) (fd : ℕ) : Prop := ∃ cb ch todo, s.pc = .running cb fd ch todo

/-- In any interleaving: after `block_remove_fd` has returned no callback of the descriptor is
running, and none is started before `add_callback` is called for it. Meanwhile, no call is
left waiting: at the loop head all of them are woken up. -/
theorem block_remove_fd_done (pipefd : ℕ) (as : List (PollAct τ γ)) (s : PollMgr τ γ)
    (hP : RunAll PollMgr.step NoOverlap (.init τ γ pipefd) as)
    (hr : run PollMgr.step (.init τ γ pipefd) as = some s) :
    (∀ t fd s', s.step (.removed t fd) = some s' → ∀ bs u, run PollMgr.step s' bs = some u →
      (∀ a ∈ bs, ¬ a.Adds fd) →
      ¬ u.Running fd) ∧
    (∀ t fd, (t, fd) ∈ s.removers → ∀ s', s.step .head = some s' →
      (s'.step (.removed t fd)).isSome) := by
  have hrem := removers_run hP hr
  refine ⟨fun t fd s' hs bs u hu hbs => ?_,fun t fd hmem s' hs => ?_⟩
  · -- the descriptor is out of the sets and of the pass, and only `add_callback` brings it back
    have hstep := pollStep_of_step hs
    have hclean : Clean s' fd := by
      cases hstep with
      | removed _ _ hmem hw =>
        have hclean := hrem.woken t fd hmem hw
        exact ⟨hclean.unwatched,hclean.idle⟩
    rintro ⟨cb,ch,todo,hpc⟩
    refine (hclean.run hbs hu).idle ?_
    rw [hpc]
    exact .inl rfl
  · have hwaits := hrem.waits t fd hmem
    cases pollStep_of_step hs with
    | broadcast hpc hpending =>
      have hw : t ∈ s.changedone.broadcast.woken := List.mem_append.mpr hwaits
      simp only [PollMgr.step, PollMgr.removed, if_pos (And.intro hmem hw), Option.isSome_some]
    | pass hpc hpending =>
      -- nothing is pending, so nobody is parked
      have hw : t ∈ s.changedone.woken := by
        refine hwaits.resolve_left fun hp => ?_
        exact nomatch hpending.symm.trans (hrem.pending (List.ne_nil_of_mem hp))
      simp only [PollMgr.step, PollMgr.removed, if_pos (And.intro hmem hw), Option.isSome_some]

end

/-- Two threads remove two descriptors, one of them while its callback is running and the other one
while two of its callbacks are still to come in the same pass. -/
theorem block_remove_fd_done_two :
    ∃ as, ∃ s s' : PollMgr ℕ Bool, run PollMgr.step (.init ℕ Bool 3) as = some s ∧
    s.removers = [(1, 6)] ∧ s.step (.removed 1 6) = some s' ∧
    ∀ bs u, run PollMgr.step s' bs = some u → (∀ a ∈ bs, ¬ a.Adds 6) → ¬ u.Running 6 := by
  have hends : ∃ s, run PollMgr.step (.init ℕ Bool 3) [.addCallback 5 .rdonly true,
    .addCallback 6 .rdonly false,
      .addCallback 6 .wronly false, .head, .copy, .ready {5, 6} {6}, .test, .call,
        .blockRemoveFd 0 5, .blockRemoveFd 1 6,
      .returned, .test, .call, .returned, .test, .call, .returned, .test, .head, .removed 0 5] =
        some s ∧
      s.removers = [(1, 6)] ∧ (s.step (.removed 1 6)).isSome := by decide +kernel
  obtain ⟨s,hr,hrem,hsome⟩ := hends
  obtain ⟨s',hs⟩ := Option.isSome_iff_exists.mp hsome
  exact ⟨_,s,s',hr,hrem,hs,(block_remove_fd_done 3 _ s (by decide +kernel) hr).1 1 6 s' hs⟩

end Yfs.Poll
