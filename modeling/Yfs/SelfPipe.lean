import Yfs.SelectHigh

namespace Yfs.Poll

section
variable {τ γ : Type*} [DecidableEq τ] [DecidableEq γ]

/-- A call about the descriptor. -/
def PollAct.Names (fd : ℕ) : PollAct τ γ → Prop
  | .addCallback fd' _ _ | .delCallback fd' _ | .blockRemoveFd _ fd' => fd' = fd
  | _ => False

/-- A step of `wait_loop`. -/
def PollAct.ofLoop : PollAct τ γ → Bool
  | .addCallback _ _ _ | .delCallback _ _ | .blockRemoveFd _ _ | .removed _ _ => false
  | _ => true

/-- The sets that `select` was called with lack nothing that is watched by now. -/
structure UpToDate (a : SelectAio) (trfds twfds : Finset ℕ) (high : ℕ) : Prop where
  read : a.rfds ⊆ trfds
  write : a.wfds ⊆ twfds
  high : a.highfds ≤ high

/-- The poll thread is not going to sleep, or asleep, over a change that it does not know of. -/
structure Alert (s : PollMgr τ γ) : Prop extends Waiters s where
  high : s.aio.HighOk
  bound : ∀ fd, s.aio.Watched fd → fd ≤ max s.aio.pipefd maxPollFds
  cleared : s.pc = .cleared → s.pendingChange = true → 0 < s.aio.pipe
  select : ∀ trfds twfds high, s.pc = .select trfds twfds high →
    (s.aio.pipefd ∈ trfds ∧ s.aio.pipefd ≤ high) ∧
    (s.pendingChange = true → 0 < s.aio.pipe) ∧
    (s.aio.pipe = 0 → UpToDate s.aio trfds twfds high)

omit [DecidableEq τ] [DecidableEq γ] in
theorem alert_init (pipefd : ℕ) : Alert (PollMgr.init τ γ pipefd) where
  toWaiters := waiters_init pipefd
  high := SelectAio.highOk_init pipefd
  bound := by
    rintro fd (h | h)
    · exact (Finset.mem_singleton.mp h).le.trans (le_max_left _ _)
    · exact absurd h (Finset.notMem_empty _)
  cleared := fun h => by cases h
  select := fun _ _ _ h => by cases h

theorem UpToDate.unwatchFd {a : SelectAio} {trfds twfds : Finset ℕ} {high : ℕ}
    (h : UpToDate a trfds twfds high) (hhigh : a.HighOk) {fd : ℕ} (hfd : fd ≠ a.pipefd)
    (flag : PollFlag) :
    UpToDate (a.unwatchFd fd flag).1 trfds twfds high where
  read := (a.fds_unwatchFd_subset fd flag .read).trans h.read
  write := (a.fds_unwatchFd_subset fd flag .write).trans h.write
  high := by
    -- the new mark is a descriptor that was watched before
    have hwatched := (hhigh.unwatchFd hfd flag).greatest.1
    exact (hhigh.greatest.2 (watched_unwatchFd hwatched)).trans h.high

theorem pipe_unwatchFd_le (a : SelectAio) (fd : ℕ) (flag : PollFlag) :
    a.pipe ≤ (a.unwatchFd fd flag).1.pipe := by
  simp only [SelectAio.unwatchFd]
  split_ifs
  · exact Nat.le_succ _
  · exact le_rfl

section
omit [DecidableEq γ]

theorem pipefd_step {s s' : PollMgr τ γ} {a : PollAct τ γ} (hs : PollStep s a s') :
    s'.aio.pipefd = s.aio.pipefd := by
  cases hs with
  | ready r w trfds twfds high hpc hr hw hpipe =>
    change (s.aio.readPipe r high).pipefd = _
    unfold SelectAio.readPipe
    split_ifs <;> rfl
  | add | del | remove | removed | broadcast | pass | copy | interrupted | again | skip | test
  | crash | call | returned => rfl

/-- `add_callback` refuses descriptors that are out of range. -/
theorem bound_step {s s' : PollMgr τ γ} {a : PollAct τ γ} (hs : PollStep s a s')
    (h : ∀ fd, s.aio.Watched fd → fd ≤ max s.aio.pipefd maxPollFds) (fd : ℕ)
    (hw : s'.aio.Watched fd) : fd ≤ max s'.aio.pipefd maxPollFds := by
  rw [pipefd_step hs]
  rcases watched_step hs hw with hadds | hw
  · cases hs with
    | add fd' flag ch hfd hcb =>
      rw [← show fd' = fd from hadds]
      exact hfd.le.trans (le_max_right _ _)
    | _ => exact hadds.elim
  · exact h fd hw

theorem alert_step {s s' : PollMgr τ γ} (h : Alert s) {a : PollAct τ γ}
    (ha : ¬ a.Names s.aio.pipefd) (hs : PollStep s a s') : Alert s' := by
  have hwaiters := waiters_step h.toWaiters hs
  have hbound := bound_step hs h.bound
  cases hs with
  | add fd flag ch hfd hcb =>
    refine ⟨hwaiters, h.high.watchFd ha flag, hbound, fun _ _ => Nat.succ_pos _,
      fun r w n hpc => ?_⟩
    exact ⟨(h.select r w n hpc).1, fun _ => Nat.succ_pos _,
      fun hzero => absurd hzero (Nat.succ_ne_zero _)⟩
  | del fd flag =>
    have hle := pipe_unwatchFd_le s.aio fd flag
    refine ⟨hwaiters, h.high.unwatchFd ha flag, hbound,
      fun hpc hp => (h.cleared hpc hp).trans_le hle, fun r w n hpc => ?_⟩
    obtain ⟨hpipe,hpending,hsets⟩ := h.select r w n hpc
    refine ⟨hpipe, fun hp => (hpending hp).trans_le hle, fun hzero => ?_⟩
    exact (hsets (Nat.eq_zero_of_le_zero (hle.trans hzero.le))).unwatchFd h.high ha flag
  | remove t fd ht =>
    -- this writes a byte
    refine ⟨hwaiters, h.high.unwatchFd ha .rdwr, hbound, fun _ _ => Nat.succ_pos _,
      fun r w n hpc => ?_⟩
    exact ⟨(h.select r w n hpc).1, fun _ => Nat.succ_pos _,
      fun hzero => absurd hzero (Nat.succ_ne_zero _)⟩
  | removed t fd hmem hw => exact ⟨hwaiters, h.high, hbound, h.cleared, h.select⟩
  | broadcast hpc hpending =>
    exact ⟨hwaiters, h.high, hbound, fun _ hp => (by cases hp), fun r w n hsel => by cases hsel⟩
  | pass hpc hpending =>
    refine ⟨hwaiters, h.high, hbound, fun _ hp => ?_, fun r w n hsel => by cases hsel⟩
    exact absurd (hpending.symm.trans hp) Bool.false_ne_true
  | copy hpc =>
    refine ⟨hwaiters, h.high, hbound, fun hcl => (by cases hcl), fun r w n hsel => ?_⟩
    cases hsel
    exact ⟨⟨h.high.pipe, h.high.greatest.2 (.inl h.high.pipe)⟩, h.cleared hpc,
      fun _ => ⟨subset_rfl, subset_rfl, le_rfl⟩⟩
  | ready r w trfds twfds high hpc hr hw hpipe =>
    exact ⟨hwaiters, h.high.readPipe r high, hbound, fun hcl => (by cases hcl),
      fun r w n hsel => by cases hsel⟩
  | interrupted | again | skip | test | crash | call | returned =>
    exact ⟨hwaiters, h.high, hbound, fun hcl => (by cases hcl), fun r w n hsel => by cases hsel⟩

end

theorem alert_from {s s' : PollMgr τ γ} (h : Alert s) {acts : List (PollAct τ γ)}
    (hacts : ∀ a ∈ acts, ¬ a.Names s.aio.pipefd) (hrun : run PollMgr.step s acts = some s') :
    Alert s' ∧ s'.aio.pipefd = s.aio.pipefd := by
  refine run_invariant_of_all PollMgr.step (fun _ a => ¬ a.Names s.aio.pipefd)
    (fun u => Alert u ∧ u.aio.pipefd = s.aio.pipefd) ?_ s s' acts ⟨h, rfl⟩
    (runAll_of_mem _ _ _ acts hacts) hrun
  rintro u a u' ⟨h,hpipe⟩ ha hs
  have hstep := pollStep_of_step hs
  exact ⟨alert_step h (hpipe ▸ ha) hstep, (pipefd_step hstep).trans hpipe⟩

theorem alert_run (pipefd : ℕ) (acts : List (PollAct τ γ))
    (hacts : ∀ a ∈ acts, ¬ a.Names pipefd) (s : PollMgr τ γ)
    (hrun : run PollMgr.step (.init τ γ pipefd) acts = some s) : Alert s ∧ s.aio.pipefd = pipefd :=
  alert_from (alert_init pipefd) hacts hrun

theorem ready_pipe {s : PollMgr τ γ} {trfds twfds : Finset ℕ} {high : ℕ}
    (hpc : s.pc = .select trfds twfds high) (hmem : s.aio.pipefd ∈ trfds) (hpipe : 0 < s.aio.pipe) :
    s.step (.ready {s.aio.pipefd} ∅) =
      some { s with aio := s.aio.readPipe {s.aio.pipefd} high, pc := .dispatch [] } := by
  have hsub : ({s.aio.pipefd} : Finset ℕ) ⊆ trfds := Finset.singleton_subset_iff.mpr hmem
  have hread : s.aio.readable {s.aio.pipefd} high = [] := by
    rw [SelectAio.readable, List.filter_eq_nil_iff]
    simp
  have hwrite : s.aio.writable {s.aio.pipefd} ∅ high = [] := by
    rw [SelectAio.writable, List.filter_eq_nil_iff]
    simp
  simp only [PollMgr.step, PollMgr.waitLoop, hpc, hread, hwrite, List.map_nil, List.append_nil]
  rw [if_pos ⟨hsub, Finset.empty_subset _, fun _ => hpipe⟩]

/-- The poll thread never sleeps over a change. Unless the sets that it waits with have everything
that is watched and nobody waits in `block_remove_fd` to be woken up, there is a byte in the pipe
and `select` returns. -/
theorem select_not_stale (pipefd : ℕ) (acts : List (PollAct τ γ))
    (hacts : ∀ a ∈ acts, ¬ a.Names pipefd)
    (s : PollMgr τ γ) (hrun : run PollMgr.step (.init τ γ pipefd) acts = some s)
    (trfds twfds : Finset ℕ) (high : ℕ) (hpc : s.pc = .select trfds twfds high) :
    (UpToDate s.aio trfds twfds high ∧ s.changedone.parked = []) ∨
      ∃ s', s.step (.ready {s.aio.pipefd} ∅) = some s' := by
  have h := (alert_run pipefd acts hacts s hrun).1
  obtain ⟨⟨hmem,-⟩,hpending,hsets⟩ := h.select trfds twfds high hpc
  by_cases hzero : s.aio.pipe = 0
  · refine .inl ⟨hsets hzero, ?_⟩
    by_contra hparked
    exact (hpending (h.pending hparked)).ne' hzero
  · exact .inr ⟨_, ready_pipe hpc hmem (Nat.pos_of_ne_zero hzero)⟩

/-- How many steps of the loop are left at most before its head is passed again. `select` may report
every descriptor up to the mark, for reading and for writing, and a callback takes
three steps: the test, the call and the return. -/
def PollPc.stepsLeft (pipefd : ℕ) : PollPc γ → ℕ
  | .top => 1
  | .cleared => 6 * (max pipefd maxPollFds + 1) + 4
  | .select _ _ high => 6 * (high + 1) + 3
  | .dispatch todo => 3 * todo.length + 2
  | .tested _ _ todo => 3 * todo.length + 4
  | .running _ _ _ todo => 3 * todo.length + 3
  | .crashed => 0

theorem length_reported (a : SelectAio) (r w : Finset ℕ) (high : ℕ) :
    ((a.readable r high).map (Cb.read, ·) ++ (a.writable r w high).map (Cb.write, ·)).length ≤
      2 * (high + 1) := by
  have hread : (a.readable r high).length ≤ high + 1 :=
    (List.length_filter_le _ _).trans_eq List.length_range
  have hwrite : (a.writable r w high).length ≤ high + 1 :=
    (List.length_filter_le _ _).trans_eq List.length_range
  rw [List.length_append, List.length_map, List.length_map]
  omega

omit [DecidableEq γ] in
/-- A step of the loop gets closer to the head, whatever `select` reports and the callbacks do, and
the steps of other threads leave the poll thread where it is. -/
theorem stepsLeft_step {s s' : PollMgr τ γ} (h : Alert s) {a : PollAct τ γ} (hs : PollStep s a s')
    (hhead : a ≠ .head) :
    a.ofLoop.toNat + s'.pc.stepsLeft s.aio.pipefd ≤ s.pc.stepsLeft s.aio.pipefd := by
  cases hs with
  | add | del | remove | removed => exact (Nat.zero_add _).le
  | broadcast | pass => exact absurd rfl hhead
  | copy hpc =>
    have hmark := h.bound _ h.high.greatest.1
    rw [hpc]
    simp only [PollAct.ofLoop, PollPc.stepsLeft, Bool.toNat_true]
    omega
  | ready r w trfds twfds high hpc hr hw hpipe =>
    have hlen := length_reported s.aio r w high
    rw [hpc]
    simp only [PollAct.ofLoop, PollPc.stepsLeft, Bool.toNat_true]
    omega
  | interrupted | again | skip | test | crash | call | returned =>
    simp only [*, PollAct.ofLoop, PollPc.stepsLeft, Bool.toNat_true, List.length_cons,
      List.length_nil]
    omega

omit [DecidableEq γ] in
/-- A call of `block_remove_fd` that waits goes on waiting until it returns, and stays awake once it
has been woken up. The head of the loop wakes it up. -/
theorem remover_step {s s' : PollMgr τ γ} (h : Alert s) {a : PollAct τ γ} (hs : PollStep s a s')
    {t : τ} {fd : ℕ} (ht : (t, fd) ∈ s.removers) (ha : a ≠ .removed t fd) :
    (t, fd) ∈ s'.removers ∧ (t ∈ s.changedone.woken ∨ a = .head → t ∈ s'.changedone.woken) := by
  cases hs with
  | remove u fd' hu =>
    have hne : t ≠ u := fun heq => hu (heq ▸ List.mem_map_of_mem ht)
    refine ⟨List.mem_cons_of_mem _ ht, fun hw => ?_⟩
    exact (List.mem_erase_of_ne hne).mpr (hw.resolve_right (by simp))
  | removed u fd' hmem hw =>
    have hne : (t, fd) ≠ (u, fd') := by
      rintro ⟨⟩
      exact ha rfl
    have hin : (t, fd) ∈ s.removers.erase (u, fd') := (List.mem_erase_of_ne hne).mpr ht
    refine ⟨hin, fun hw => ?_⟩
    exact (List.mem_erase_of_ne (h.other hmem hin).1).mpr (hw.resolve_right (by simp))
  | broadcast hpc hpending => exact ⟨ht, fun _ => List.mem_append.mpr (h.waits t fd ht)⟩
  | pass hpc hpending =>
    -- nothing is pending, so nobody is parked
    refine ⟨ht, fun _ => (h.waits t fd ht).resolve_left fun hp => ?_⟩
    exact absurd (hpending.symm.trans (h.pending (List.ne_nil_of_mem hp))) Bool.false_ne_true
  | add | del | copy | ready | interrupted | again | skip | test | crash | call | returned =>
    exact ⟨ht, fun hw => hw.resolve_right (by simp)⟩

theorem remover_run {s s' : PollMgr τ γ} (h : Alert s) {t : τ} {fd : ℕ} (ht : (t, fd) ∈ s.removers)
    {more : List (PollAct τ γ)} (hmore : ∀ a ∈ more, ¬ a.Names s.aio.pipefd ∧ a ≠ .removed t fd)
    (hrun : run PollMgr.step s more = some s') :
    (t, fd) ∈ s'.removers ∧ (t ∈ s.changedone.woken → t ∈ s'.changedone.woken) ∧
    (t ∈ s'.changedone.woken ∨
      more.countP PollAct.ofLoop + s'.pc.stepsLeft s.aio.pipefd ≤ s.pc.stepsLeft s.aio.pipefd) := by
  induction more generalizing s with
  | nil =>
    cases hrun
    exact ⟨ht, id, .inr (Nat.zero_add _).le⟩
  | cons a more ih =>
    obtain ⟨u,hs,hrun⟩ := Option.bind_eq_some_iff.mp hrun
    obtain ⟨⟨hnames,hne⟩,hmore⟩ := List.forall_mem_cons.mp hmore
    have hstep := pollStep_of_step hs
    have hpipe := pipefd_step hstep
    obtain ⟨hmem,hwoken⟩ := remover_step h hstep ht hne
    obtain ⟨hmem',hstays,hleft⟩ := ih (alert_step h hnames hstep) hmem (hpipe ▸ hmore) hrun
    refine ⟨hmem', fun hw => hstays (hwoken (.inl hw)), ?_⟩
    by_cases hhead : a = .head
    · exact .inl (hstays (hwoken (.inr hhead)))
    · have hle := stepsLeft_step h hstep hhead
      refine hleft.imp_right fun hleft => ?_
      rw [hpipe] at hleft
      rw [List.countP_cons]
      cases hof : a.ofLoop <;> simp [hof] at hle ⊢ <;> omega

/-- The poll thread always has a next step, unless it has called a null pointer. -/
theorem exists_loop_step {s : PollMgr τ γ} (hcrash : s.pc ≠ .crashed) :
    ∃ a : PollAct τ γ, a.ofLoop = true ∧ ∃ s', s.step a = some s' := by
  cases hpc : s.pc with
  | top => exact ⟨.head, rfl, by simp [PollMgr.step, PollMgr.waitLoop, hpc]⟩
  | cleared => exact ⟨.copy, rfl, by simp [PollMgr.step, PollMgr.waitLoop, hpc]⟩
  | select trfds twfds high =>
    exact ⟨.interrupted, rfl, by simp [PollMgr.step, PollMgr.waitLoop, hpc]⟩
  | dispatch todo =>
    exact ⟨.test, rfl, by cases todo <;> simp [PollMgr.step, PollMgr.waitLoop, hpc]⟩
  | tested cb fd todo =>
    exact ⟨.call, rfl,
      by cases hcb : s.callbacks fd <;> simp [PollMgr.step, PollMgr.waitLoop, hpc, hcb]⟩
  | running cb fd ch todo => exact ⟨.returned, rfl, by simp [PollMgr.step, PollMgr.waitLoop, hpc]⟩
  | crashed => exact absurd hpc hcrash

/-- A call of `block_remove_fd` gets through, whatever `select` reports, the callbacks do and other
threads call: it is woken up before the poll thread has made the steps that are left of
its pass, and until then the poll thread does not sleep, since `select` has the pipe to report
with whatever else is ready. -/
theorem block_remove_returns (pipefd : ℕ) (acts : List (PollAct τ γ))
    (hacts : ∀ a ∈ acts, ¬ a.Names pipefd) (s : PollMgr τ γ)
    (hrun : run PollMgr.step (.init τ γ pipefd) acts = some s) (t : τ) (fd : ℕ)
    (ht : (t, fd) ∈ s.removers) (more : List (PollAct τ γ))
    (hmore : ∀ a ∈ more, ¬ a.Names pipefd ∧ a ≠ .removed t fd) (s' : PollMgr τ γ)
    (hrun' : run PollMgr.step s more = some s') (hcrash : s'.pc ≠ .crashed) :
    (s.pc.stepsLeft pipefd ≤ more.countP PollAct.ofLoop →
      ∃ s'', s'.step (.removed t fd) = some s'') ∧
    ((∃ s'', s'.step (.removed t fd) = some s'') ∨
      (∃ a : PollAct τ γ, a.ofLoop = true ∧ ∃ s'', s'.step a = some s'') ∧
      ∀ trfds twfds high, s'.pc = .select trfds twfds high → ∀ r ⊆ trfds, ∀ w ⊆ twfds,
        ∃ s'', s'.step (.ready (insert pipefd r) w) = some s'') := by
  obtain ⟨h,hpipe⟩ := alert_run pipefd acts hacts s hrun
  have hmore' : ∀ a ∈ more, ¬ a.Names s.aio.pipefd ∧ a ≠ .removed t fd := hpipe.symm ▸ hmore
  obtain ⟨h',hpipe'⟩ := alert_from h (fun a ha => (hmore' a ha).1) hrun'
  obtain ⟨hmem,-,hleft⟩ := remover_run h ht hmore' hrun'
  have hreturns (hwoken : t ∈ s'.changedone.woken) : ∃ s'', s'.step (.removed t fd) = some s'' :=
    ⟨_, if_pos ⟨hmem, hwoken⟩⟩
  constructor
  · intro hsteps
    refine hreturns (hleft.resolve_right fun hle => ?_)
    have hpos : 0 < s'.pc.stepsLeft s.aio.pipefd := by
      cases hpc : s'.pc with
      | crashed => exact absurd hpc hcrash
      | _ => exact Nat.succ_pos _
    rw [← hpipe] at hsteps
    omega
  · rcases h'.waits t fd hmem with hparked | hwoken
    · refine .inr ⟨exists_loop_step hcrash, fun trfds twfds high hpc r hr w hw => ?_⟩
      obtain ⟨⟨hin,-⟩,hbyte,-⟩ := h'.select trfds twfds high hpc
      have hsub : insert pipefd r ⊆ trfds :=
        Finset.insert_subset (hpipe ▸ hpipe' ▸ hin) hr
      simp only [PollMgr.step, PollMgr.waitLoop, hpc]
      exact ⟨_, if_pos ⟨hsub, hw, fun _ => hbyte (h'.pending (List.ne_nil_of_mem hparked))⟩⟩
    · exact .inl (hreturns hwoken)

end

theorem select_not_stale_add :
    ∃ s, run PollMgr.step (.init Unit Unit 3) [.head, .copy, .addCallback 5 .rdonly ()] = some s ∧
    s.pc = .select {3} ∅ 3 ∧ ∃ s', s.step (.ready {s.aio.pipefd} ∅) = some s' := by
  refine ⟨_, rfl, rfl, ?_⟩
  refine (select_not_stale 3 [.head, .copy, .addCallback 5 .rdonly ()] ?_ _ rfl
    {3} ∅ 3 rfl).resolve_left ?_
  · simp [PollAct.Names]
  · rintro ⟨hup,-⟩
    have hmem : (5 : ℕ) ∈ ({3} : Finset ℕ) := hup.read (Finset.mem_insert_self 5 _)
    simp at hmem

/-- The poll thread sleeps when descriptor 5 is removed. `select` still reports it, its callback is
called, and then the loop goes round with signals that interrupt `select`. -/
theorem block_remove_returns_asleep :
    ∃ s, run PollMgr.step (.init Unit Unit 3)
        [.addCallback 5 .rdonly (), .head, .copy, .blockRemoveFd () 5] = some s ∧
      s.pc = .select {5, 3} ∅ 5 ∧
    ∃ s', run PollMgr.step s ([.ready {5} ∅, .test, .call, .returned, .test, .head] ++
        (List.replicate 9 [.copy, .interrupted, .test, .head]).flatten) = some s' ∧
    ∃ s'', s'.step (.removed () 5) = some s'' := by
  have hends : ∃ s, run PollMgr.step (.init Unit Unit 3)
        [.addCallback 5 .rdonly (), .head, .copy, .blockRemoveFd () 5] = some s ∧
      (s.pc = .select {5, 3} ∅ 5 ∧ ((), 5) ∈ s.removers) ∧
      ∃ s', run PollMgr.step s ([.ready {5} ∅, .test, .call, .returned, .test, .head] ++
        (List.replicate 9 [.copy, .interrupted, .test, .head]).flatten) = some s' ∧
        s'.pc ≠ .crashed := by
    decide +kernel
  obtain ⟨s,hrun,⟨hpc,hmem⟩,s',hrun',hcrash⟩ := hends
  refine ⟨s, hrun, hpc, s', hrun', ?_⟩
  refine (block_remove_returns 3 _ ?_ s hrun () 5 hmem _ ?_ s' hrun' hcrash).1 ?_
  · simp [PollAct.Names]
  · simp [PollAct.Names]
  · rw [hpc]
    decide

end Yfs.Poll
