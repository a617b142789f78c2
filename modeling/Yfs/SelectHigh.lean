import Mathlib.Data.List.Induction
import Mathlib.Order.Bounds.Basic
import Yfs.PollMgr

namespace Yfs.Poll

theorem scan_isGreatest (p : ℕ → Prop) [DecidablePred p] (n d : ℕ) (hd : p d) (hdn : d < n) :
    IsGreatest {i | i < n ∧ p i}
    ((List.range n).foldl (fun newh i => if p i then i else newh) d) := by
  suffices h : ((∀ i < n, ¬ p i) ∨
      IsGreatest {i | i < n ∧ p i} ((List.range n).foldl (fun newh i => if p i then i else newh) d))
        by
    exact h.resolve_left fun hnone => hnone d hdn hd
  clear hdn
  -- as long as nothing was found, the start value is there
  induction n with
  | zero => exact .inl fun i hi => absurd hi (Nat.not_lt_zero i)
  | succ n ih =>
    rw [List.range_succ, List.foldl_append, List.foldl_cons, List.foldl_nil]
    by_cases hn : p n
    · right
      rw [if_pos hn]
      exact ⟨⟨Nat.lt_succ_self n, hn⟩, fun i hi => Nat.le_of_lt_succ hi.1⟩
    · rw [if_neg hn]
      have hsame : ∀ i, i < n + 1 ∧ p i ↔ i < n ∧ p i := by
        intro i
        constructor
        · rintro ⟨hi,hpi⟩
          have hne : i ≠ n := by
            rintro rfl
            exact hn hpi
          exact ⟨by omega, hpi⟩
        · rintro ⟨hi,hpi⟩
          exact ⟨by omega, hpi⟩
      simp only [hsame]
      refine ih.imp_left fun hnone i hi hpi => ?_
      exact hnone i ((hsame i).mp ⟨hi, hpi⟩).1 hpi

/-- The events that a flag is about. -/
def PollFlag.covers : PollFlag → Cb → Bool
  | .rdonly, cb => cb = .read
  | .wronly, cb => cb = .write
  | .rdwr, _ => true

namespace SelectAio

def fds (a : SelectAio) : Cb → Finset ℕ
  | .read => a.rfds
  | .write => a.wfds

theorem watched_iff (a : SelectAio) (fd : ℕ) : a.Watched fd ↔ ∃ cb, fd ∈ a.fds cb := by
  constructor
  · rintro (h | h)
    · exact ⟨.read, h⟩
    · exact ⟨.write, h⟩
  · rintro ⟨cb,h⟩
    cases cb with
    | read => exact .inl h
    | write => exact .inr h

theorem fds_watchFd (a : SelectAio) (fd : ℕ) (flag : PollFlag) (cb : Cb) :
    (a.watchFd fd flag).fds cb = if flag.covers cb = true then insert fd (a.fds cb)
    else a.fds cb := by
  cases flag <;> cases cb <;> rfl

theorem fds_unwatchFd (a : SelectAio) (fd : ℕ) (flag : PollFlag) (cb : Cb) :
    (a.unwatchFd fd flag).1.fds cb = if flag.covers cb = true then (a.fds cb).erase fd
    else a.fds cb := by
  cases flag <;> cases cb <;> rfl

theorem fds_unwatchFd_subset (a : SelectAio) (fd : ℕ) (flag : PollFlag) (cb : Cb) :
    (a.unwatchFd fd flag).1.fds cb ⊆ a.fds cb := by
  rw [fds_unwatchFd]
  split_ifs
  · exact Finset.erase_subset _ _
  · exact subset_rfl

theorem unwatchFd_gone (a : SelectAio) (fd : ℕ) (flag : PollFlag) :
    (a.unwatchFd fd flag).2 = true ↔ ¬ (a.unwatchFd fd flag).1.Watched fd := by
  rw [Watched, not_or]
  exact decide_eq_true_iff

theorem unwatchFd_highfds (a : SelectAio) (fd : ℕ) (flag : PollFlag) :
    (a.unwatchFd fd flag).1.highfds =
      if (fd ∉ (a.unwatchFd fd flag).1.rfds ∧ fd ∉ (a.unwatchFd fd flag).1.wfds) ∧
      fd = a.highfds then
        (List.range (a.highfds + 1)).foldl
          (fun newh i => if i ∈ (a.unwatchFd fd flag).1.rfds ∨ i ∈ (a.unwatchFd fd flag).1.wfds then
            i else newh)
          a.pipefd
      else a.highfds := rfl

theorem watchFd_watched (a : SelectAio) (fd : ℕ) (flag : PollFlag) (fd' : ℕ) :
    (a.watchFd fd flag).Watched fd' ↔ fd' = fd ∨ a.Watched fd' := by
  refine ⟨watched_watchFd, ?_⟩
  rintro (rfl | h)
  · -- a flag is about one of the two at least
    obtain ⟨cb,hcb⟩ : ∃ cb, flag.covers cb = true := by
      cases flag with
      | rdonly => exact ⟨.read, rfl⟩
      | wronly => exact ⟨.write, rfl⟩
      | rdwr => exact ⟨.read, rfl⟩
    rw [watched_iff]
    exact ⟨cb, by rw [fds_watchFd, if_pos hcb]; exact Finset.mem_insert_self _ _⟩
  · rw [watched_iff] at h ⊢
    obtain ⟨cb,hcb⟩ := h
    refine ⟨cb, ?_⟩
    rw [fds_watchFd]
    split_ifs
    · exact Finset.mem_insert_of_mem hcb
    · exact hcb

theorem unwatchFd_watched_ne (a : SelectAio) (fd : ℕ) (flag : PollFlag) {fd' : ℕ} (hne : fd' ≠ fd) :
    (a.unwatchFd fd flag).1.Watched fd' ↔ a.Watched fd' := by
  rw [watched_iff, watched_iff]
  refine exists_congr fun cb => ?_
  rw [fds_unwatchFd]
  split_ifs
  · rw [Finset.mem_erase, and_iff_right hne]
  · rfl

/-- The read end of the pipe is watched for reading only, and the mark is the highest
descriptor that is watched. -/
structure HighOk (a : SelectAio) : Prop where
  pipe : a.pipefd ∈ a.rfds
  pipe_write : a.pipefd ∉ a.wfds
  greatest : IsGreatest {fd | a.Watched fd} a.highfds

theorem highOk_init (pipefd : ℕ) : (init pipefd).HighOk where
  pipe := Finset.mem_singleton_self _
  pipe_write := Finset.notMem_empty _
  greatest := by
    refine ⟨.inl (Finset.mem_singleton_self _), ?_⟩
    rintro fd (h | h)
    · exact (Finset.mem_singleton.mp h).le
    · exact absurd h (Finset.notMem_empty _)

theorem HighOk.watchFd {a : SelectAio} (h : a.HighOk) {fd : ℕ} (hfd : fd ≠ a.pipefd)
    (flag : PollFlag) :
    (a.watchFd fd flag).HighOk where
  pipe := by
    change a.pipefd ∈ (a.watchFd fd flag).fds .read
    rw [fds_watchFd]
    split_ifs
    · exact Finset.mem_insert_of_mem h.pipe
    · exact h.pipe
  pipe_write := by
    change a.pipefd ∉ (a.watchFd fd flag).fds .write
    rw [fds_watchFd]
    split_ifs
    · exact fun hmem => (Finset.mem_insert.mp hmem).elim (Ne.symm hfd) h.pipe_write
    · exact h.pipe_write
  greatest := by
    simp only [watchFd_watched]
    change IsGreatest _ (if a.highfds ≤ fd then fd else a.highfds)
    split_ifs with hle
    · refine ⟨.inl rfl, ?_⟩
      rintro fd' (rfl | hw)
      · exact Nat.le_refl _
      · exact (h.greatest.2 hw).trans hle
    · refine ⟨.inr h.greatest.1, ?_⟩
      rintro fd' (rfl | hw)
      · exact (not_le.mp hle).le
      · exact h.greatest.2 hw

/-- Only when the highest descriptor is not watched any more, the mark is computed again. -/
theorem HighOk.unwatchFd {a : SelectAio} (h : a.HighOk) {fd : ℕ} (hfd : fd ≠ a.pipefd)
    (flag : PollFlag) :
    (a.unwatchFd fd flag).1.HighOk := by
  have hpipe : (a.unwatchFd fd flag).1.pipefd ∈ (a.unwatchFd fd flag).1.rfds := by
    change a.pipefd ∈ (a.unwatchFd fd flag).1.fds .read
    rw [fds_unwatchFd]
    split_ifs
    · exact Finset.mem_erase_of_ne_of_mem (Ne.symm hfd) h.pipe
    · exact h.pipe
  refine ⟨hpipe, ?_, ?_⟩
  · exact fun hmem => h.pipe_write (a.fds_unwatchFd_subset fd flag .write hmem)
  · have hle : ∀ fd', (a.unwatchFd fd flag).1.Watched fd' → fd' ≤ a.highfds :=
      fun fd' hw => h.greatest.2 (watched_unwatchFd hw)
    rw [unwatchFd_highfds]
    split_ifs with hgone
    · have hscan := scan_isGreatest (fun i => i ∈ (a.unwatchFd fd flag).1.rfds ∨
        i ∈ (a.unwatchFd fd flag).1.wfds)
        (a.highfds + 1) a.pipefd (.inl hpipe) (Nat.lt_succ_of_le (h.greatest.2 (.inl h.pipe)))
      exact ⟨hscan.1.2, fun fd' hw => hscan.2 ⟨Nat.lt_succ_of_le (hle fd' hw), hw⟩⟩
    · refine ⟨?_, hle⟩
      -- the highest one is another descriptor, or it is still watched
      by_cases hhigh : fd = a.highfds
      · rw [← hhigh]
        exact not_not.mp fun hnot => hgone ⟨not_or.mp hnot, hhigh⟩
      · exact (unwatchFd_watched_ne a fd flag (Ne.symm hhigh)).mpr h.greatest.1

theorem HighOk.readPipe {a : SelectAio} (h : a.HighOk) (r : Finset ℕ) (high : ℕ) :
    (a.readPipe r high).HighOk := by
  unfold SelectAio.readPipe
  split_ifs
  · exact ⟨h.pipe, h.pipe_write, h.greatest⟩
  · exact h

end SelectAio

inductive FdCall
  | watch (fd : ℕ) (flag : PollFlag)
  | unwatch (fd : ℕ) (flag : PollFlag)
  deriving DecidableEq

def FdCall.fd : FdCall → ℕ
  | watch fd _ => fd
  | unwatch fd _ => fd

def fdCall (a : SelectAio) : FdCall → SelectAio
  | .watch fd flag => a.watchFd fd flag
  | .unwatch fd flag => (a.unwatchFd fd flag).1

def aioAfter (pipefd : ℕ) (calls : List FdCall) : SelectAio := calls.foldl fdCall (.init pipefd)

/-- Whether the last call that is about the event on the descriptor asks for it. -/
def wants (cb : Cb) (fd : ℕ) (calls : List FdCall) : Bool :=
  calls.foldl (fun w c =>
    match c with
    | .watch fd' flag => if fd' = fd ∧ flag.covers cb = true then true else w
    | .unwatch fd' flag => if fd' = fd ∧ flag.covers cb = true then false else w) false

theorem aioAfter_snoc (pipefd : ℕ) (calls : List FdCall) (c : FdCall) :
    aioAfter pipefd (calls ++ [c]) = fdCall (aioAfter pipefd calls) c := by
  rw [aioAfter, List.foldl_append]
  rfl

theorem wants_watch (cb : Cb) (fd : ℕ) (calls : List FdCall) (fd' : ℕ) (flag : PollFlag) :
    wants cb fd (calls ++ [.watch fd' flag]) =
      if fd' = fd ∧ flag.covers cb = true then true else wants cb fd calls := by
  rw [wants, List.foldl_append]
  rfl

theorem wants_unwatch (cb : Cb) (fd : ℕ) (calls : List FdCall) (fd' : ℕ) (flag : PollFlag) :
    wants cb fd (calls ++ [.unwatch fd' flag]) =
      if fd' = fd ∧ flag.covers cb = true then false else wants cb fd calls := by
  rw [wants, List.foldl_append]
  rfl

theorem aioAfter_pipefd (pipefd : ℕ) (calls : List FdCall) :
    (aioAfter pipefd calls).pipefd = pipefd := by
  induction calls using List.reverseRecOn with
  | nil => rfl
  | append_singleton calls c ih =>
    rw [aioAfter_snoc]
    cases c <;> exact ih

theorem aioAfter_highOk {pipefd : ℕ} {calls : List FdCall} (hfd : ∀ c ∈ calls, c.fd ≠ pipefd) :
    (aioAfter pipefd calls).HighOk := by
  induction calls using List.reverseRecOn with
  | nil => exact SelectAio.highOk_init pipefd
  | append_singleton calls c ih =>
    rw [List.forall_mem_append, List.forall_mem_singleton] at hfd
    obtain ⟨hcalls,hc⟩ := hfd
    rw [← aioAfter_pipefd pipefd calls] at hc
    rw [aioAfter_snoc]
    cases c with
    | watch fd flag => exact (ih hcalls).watchFd hc flag
    | unwatch fd flag => exact (ih hcalls).unwatchFd hc flag

/-- The sets are what the calls have asked for. -/
theorem mem_fds_iff {pipefd : ℕ} (calls : List FdCall) {fd : ℕ} (hfd : fd ≠ pipefd) (cb : Cb) :
    fd ∈ (aioAfter pipefd calls).fds cb ↔ wants cb fd calls = true := by
  induction calls using List.reverseRecOn with
  | nil =>
    refine iff_of_false ?_ Bool.false_ne_true
    cases cb with
    | read => exact fun h => hfd (Finset.mem_singleton.mp h)
    | write => exact Finset.notMem_empty _
  | append_singleton calls c ih =>
    rw [aioAfter_snoc]
    cases c with
    | watch fd' flag =>
      rw [fdCall, SelectAio.fds_watchFd, wants_watch]
      by_cases hcb : flag.covers cb = true
      · rw [if_pos hcb, Finset.mem_insert, ih]
        by_cases hfd' : fd' = fd
        · simp [hfd', hcb]
        · simp [hfd', Ne.symm hfd']
      · rw [if_neg hcb, if_neg fun h => hcb h.2]
        exact ih
    | unwatch fd' flag =>
      rw [fdCall, SelectAio.fds_unwatchFd, wants_unwatch]
      by_cases hcb : flag.covers cb = true
      · rw [if_pos hcb, Finset.mem_erase, ih]
        by_cases hfd' : fd' = fd
        · simp [hfd', hcb]
        · simp [hfd', Ne.symm hfd']
      · rw [if_neg hcb, if_neg fun h => hcb h.2]
        exact ih

theorem unwatchFd_result {pipefd : ℕ} (calls : List FdCall) {fd : ℕ} (hfd : fd ≠ pipefd)
    (flag : PollFlag) :
    ((aioAfter pipefd calls).unwatchFd fd flag).2 = true ↔
      ∀ cb, wants cb fd (calls ++ [.unwatch fd flag]) = false := by
  have hafter : ((aioAfter pipefd calls).unwatchFd fd flag).1 = aioAfter pipefd
      (calls ++ [.unwatch fd flag]) :=
    (aioAfter_snoc pipefd calls (.unwatch fd flag)).symm
  rw [SelectAio.unwatchFd_gone, SelectAio.watched_iff, hafter, not_exists]
  refine forall_congr' fun cb => ?_
  rw [mem_fds_iff _ hfd, Bool.not_eq_true]

namespace SelectAio

variable {a : SelectAio} {trfds twfds : Finset ℕ} {high : ℕ}

theorem mem_readable (hhigh : ∀ fd ∈ trfds, fd ≤ high) (fd : ℕ) :
    fd ∈ a.readable trfds high ↔ fd ∈ trfds ∧ fd ≠ a.pipefd := by
  rw [readable, List.mem_filter, decide_eq_true_iff, List.mem_range, and_iff_right_iff_imp]
  exact fun h => Nat.lt_succ_of_le (hhigh fd h.1)

theorem mem_writable (hhigh : ∀ fd ∈ twfds, fd ≤ high) (hpipe : a.pipefd ∉ twfds) (fd : ℕ) :
    fd ∈ a.writable trfds twfds high ↔ fd ∈ twfds := by
  rw [writable, List.mem_filter, decide_eq_true_iff, List.mem_range]
  refine ⟨fun h => h.2.1, fun h => ⟨Nat.lt_succ_of_le (hhigh fd h), h, ?_⟩⟩
  rintro ⟨rfl,_⟩
  exact hpipe h

end SelectAio

/-- The mark is the highest descriptor that is watched, so that all of them are in reach of
`select` and what `select` reports is reported. `unwatch_fd` returns whether the calls so
far ask for nothing any more. -/
theorem highfds_exact (pipefd : ℕ) (calls : List FdCall) (hfd : ∀ c ∈ calls, c.fd ≠ pipefd)
    (a : SelectAio) (ha : a = aioAfter pipefd calls) :
    IsGreatest {fd | fd ∈ a.rfds ∨ fd ∈ a.wfds} a.highfds ∧ pipefd ∈ a.rfds ∧
    (∀ fd, fd ≠ pipefd → (fd ∈ a.rfds ↔ wants .read fd calls = true) ∧
      (fd ∈ a.wfds ↔ wants .write fd calls = true)) ∧
    (∀ trfds ⊆ a.rfds, ∀ twfds ⊆ a.wfds, (∀ fd, fd ∈ trfds ∨ fd ∈ twfds → fd < a.highfds + 1) ∧
      (∀ fd, fd ∈ a.readable trfds a.highfds ↔ fd ∈ trfds ∧ fd ≠ pipefd) ∧
      ∀ fd, fd ∈ a.writable trfds twfds a.highfds ↔ fd ∈ twfds) ∧
    ∀ fd flag, fd ≠ pipefd →
      ((a.unwatchFd fd flag).2 = true ↔ fd ∉ (a.unwatchFd fd flag).1.rfds ∧
        fd ∉ (a.unwatchFd fd flag).1.wfds) ∧
      ((a.unwatchFd fd flag).2 = true ↔ ∀ cb, wants cb fd (calls ++ [.unwatch fd flag]) =
        false) := by
  have hok : a.HighOk := ha ▸ aioAfter_highOk hfd
  have hpipefd : a.pipefd = pipefd := ha ▸ aioAfter_pipefd pipefd calls
  refine ⟨hok.greatest, hpipefd ▸ hok.pipe, ?_, ?_, ?_⟩
  · intro fd hne
    rw [ha]
    exact ⟨mem_fds_iff calls hne .read, mem_fds_iff calls hne .write⟩
  · intro trfds hr twfds hw
    have hle : ∀ fd, fd ∈ trfds ∨ fd ∈ twfds → fd ≤ a.highfds := by
      rintro fd (h | h)
      · exact hok.greatest.2 (.inl (hr h))
      · exact hok.greatest.2 (.inr (hw h))
    refine ⟨fun fd h => Nat.lt_succ_of_le (hle fd h), ?_, ?_⟩
    · rw [← hpipefd]
      exact SelectAio.mem_readable fun fd h => hle fd (.inl h)
    · exact SelectAio.mem_writable (fun fd h => hle fd (.inr h)) fun h => hok.pipe_write (hw h)
  · intro fd flag hne
    refine ⟨?_, ?_⟩
    · rw [SelectAio.unwatchFd_gone, SelectAio.Watched, not_or]
    · rw [ha]
      exact unwatchFd_result calls hne flag

/-- The highest descriptor loses its flags one after the other. -/
theorem highfds_exact_two :
    IsGreatest {fd | fd ∈ (aioAfter 3 [.watch 9 .rdwr, .watch 5 .rdonly, .unwatch 9 .rdonly,
      .unwatch 9 .wronly]).rfds ∨
      fd ∈ (aioAfter 3 [.watch 9 .rdwr, .watch 5 .rdonly, .unwatch 9 .rdonly,
        .unwatch 9 .wronly]).wfds} 5 :=
  (highfds_exact 3 [.watch 9 .rdwr, .watch 5 .rdonly, .unwatch 9 .rdonly, .unwatch 9 .wronly]
    (by decide) _ rfl).1

end Yfs.Poll
