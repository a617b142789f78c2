import Mathlib.Data.Finset.Insert
import Mathlib.Data.Finset.Lattice.Basic
import Yfs.Run
import Yfs.Directory

/-! View changes in the replicated state machine. The config module reports a view with
`commit_change`; the recovery thread joins the view if need be, synchronises and then
lets the node serve. It releases `rsm_mutex` in `join`, in `sync_with_backups`, while it
sleeps and while it waits for `recovery_cond`. -/
namespace Yfs.Rsm

open Dir (Str)

/-- The decided views; a node has recorded some of them. `config::get_view` of any other
is empty. -/
def getView (view : ℕ → List Str) (known : Finset ℕ) (vid : ℕ) : List Str :=
  if vid ∈ known then view vid else []

/-- `set_primary`, from the views `c` of `vid` and `p` of `vid - 1`; `none` where it fails
a `VERIFY`. -/
def setPrimary (primary : Str) (c p : List Str) : Option Str :=
  if c = [] then none
  else if primary ∈ c then some primary
  else if p = [] then none
  else p.find? (· ∈ c)

/-- Where the recovery thread is. It holds `rsm_mutex` at `check` only, where it is at
the inner loop of `recovery`. At `joining` it has called `join` with a node's name. At
`waiting` it is parked, or has been signalled and waits for the mutex. -/
inductive RecoveryPc
  | locking
  | check
  | joining (m : Str)
  | syncing
  | waiting (signalled : Bool)
  deriving DecidableEq

structure Node where
  me : Str
  known : Finset ℕ
  primary : Str
  inviewchange : Bool
  vidCommit : ℕ
  vidInsync : ℕ
  myvsVid : ℕ
  pc : RecoveryPc
  deriving DecidableEq

/-- `pthread_cond_signal(&recovery_cond)`. -/
def RecoveryPc.signal : RecoveryPc → RecoveryPc
  | .waiting _ => .waiting true
  | pc => pc

namespace Node

variable (view : ℕ → List Str)

/-- `cfg->ismember(cfg->myaddr(), vid)`. -/
def ismember (s : Node) (vid : ℕ) : Bool := s.me ∈ getView view s.known vid

def commitChangeWo (s : Node) (vid : ℕ) : Option Node :=
  if vid ≤ s.vidCommit then some s
  else (setPrimary s.primary (getView view s.known vid) (getView view s.known (vid - 1))).map
    fun p =>
    { s with vidCommit := vid, inviewchange := true, primary := p, pc := s.pc.signal }

/-- The node as `rsm::rsm` starts it, with what its log has. `vid_insync` is not
initialised. -/
def boot (first me : Str) (known : Finset ℕ) (vidInsync : ℕ) : Node :=
  ⟨me, known, first, true, 0, vidInsync, 0, .locking⟩

/-- The first node commits the first view itself. -/
def start (first me : Str) (known : Finset ℕ) (vidInsync : ℕ) : Option Node :=
  if first = me then (boot first me known vidInsync).commitChangeWo view 1
  else some (boot first me known vidInsync)

/-- The end of a synchronisation: the node serves in its view, and the thread waits. -/
def serve (s : Node) : Node :=
  { s with myvsVid := s.vidCommit, inviewchange := false, pc := .waiting false }

/-- From the inner loop to where the mutex is next released. `sync_with_primary` does
nothing. -/
def checkMember (s : Node) : Node :=
  if s.ismember view s.vidCommit = true then
    if s.primary = s.me then { s with vidInsync := s.vidCommit, pc := .syncing }
    else serve { s with vidInsync := s.vidCommit }
  else { s with pc := .joining s.primary }

/-- After `sync_with_backups`. -/
def syncDone (s : Node) : Node :=
  if s.vidInsync ≠ s.vidCommit then { s with pc := .check } else s.serve

def amiprimary (s : Node) : Bool := s.primary = s.me && !s.inviewchange

end Node

/-- `record` is the acceptor's, at any time. `joined` has restored a log with these views,
and `vid` is what `cfg->vid()` is by then. -/
inductive Act
  | record (vid : ℕ)
  | commitChange (vid : ℕ)
  | lock
  | check
  | joined (log : Finset ℕ) (vid : ℕ)
  | joinFailed
  | syncDone
  | wake
  deriving DecidableEq

def Node.step (view : ℕ → List Str) (s : Node) : Act → Option Node
  | .record vid => some { s with known := insert vid s.known }
  | .commitChange vid => if s.pc = .check then none else s.commitChangeWo view vid
  | .lock => if s.pc = .locking then some { s with pc := .check } else none
  | .check => if s.pc = .check then some (s.checkMember view) else none
  | .joined log vid =>
    match s.pc with
    | .joining _ => (Node.commitChangeWo view { s with known := s.known ∪ log } vid).map fun s' =>
        { s' with pc := .check }
    | _ => none
  | .joinFailed =>
    match s.pc with
    | .joining _ => some { s with pc := .locking }
    | _ => none
  | .syncDone => if s.pc = .syncing then some s.syncDone else none
  -- with or without a signal
  | .wake =>
    match s.pc with
    | .waiting _ => some { s with pc := .check }
    | _ => none

variable {view : ℕ → List Str} {s s' t : Node} {a : Act}

inductive Node.Step (view : ℕ → List Str) (s : Node) : Act → Node → Prop
  | record (vid : ℕ) : Step view s (.record vid) { s with known := insert vid s.known }
  | commitChange (vid : ℕ) (s' : Node) (h : s.commitChangeWo view vid = some s') :
      Step view s (.commitChange vid) s'
  | lock : Step view s .lock { s with pc := .check }
  | check : Step view s .check (s.checkMember view)
  | joined (log : Finset ℕ) (vid : ℕ) (u : Node)
      (h : Node.commitChangeWo view { s with known := s.known ∪ log } vid = some u) :
      Step view s (.joined log vid) { u with pc := .check }
  | joinFailed : Step view s .joinFailed { s with pc := .locking }
  | syncDone (hpc : s.pc = .syncing) : Step view s .syncDone s.syncDone
  | wake : Step view s .wake { s with pc := .check }

theorem step_inv (h : s.step view a = some s') : s.Step view a s' := by
  cases a with
  | record vid =>
    cases h
    exact .record vid
  | commitChange vid =>
    simp only [Node.step] at h
    split at h
    · cases h
    · exact .commitChange vid s' h
  | lock =>
    simp only [Node.step] at h
    split at h
    · cases h
      exact .lock
    · cases h
  | check =>
    simp only [Node.step] at h
    split at h
    · cases h
      exact .check
    · cases h
  | joined log vid =>
    simp only [Node.step] at h
    split at h
    · obtain ⟨u,hu,rfl⟩ := Option.map_eq_some_iff.mp h
      exact .joined log vid u hu
    · cases h
  | joinFailed =>
    simp only [Node.step] at h
    split at h
    · cases h
      exact .joinFailed
    · cases h
  | syncDone =>
    simp only [Node.step] at h
    split at h
    · next hpc =>
      cases h
      exact .syncDone hpc
    · cases h
  | wake =>
    simp only [Node.step] at h
    split at h
    · cases h
      exact .wake
    · cases h

theorem commitChangeWo_cases {vid : ℕ} (h : s.commitChangeWo view vid = some s') :
    s' = s ∨ s.vidCommit < vid ∧ ∃ p,
      setPrimary s.primary (getView view s.known vid) (getView view s.known (vid - 1)) = some p ∧
      s' = { s with vidCommit := vid, inviewchange := true, primary := p, pc := s.pc.signal } := by
  unfold Node.commitChangeWo at h
  split at h
  · exact Or.inl (Option.some.inj h).symm
  · next hlt =>
    obtain ⟨p,hp,rfl⟩ := Option.map_eq_some_iff.mp h
    exact Or.inr ⟨Nat.lt_of_not_le hlt, p, hp, rfl⟩

/-- Of a node at rest between any two steps. -/
structure Synced (view : ℕ → List Str) (s : Node) : Prop where
  serving : s.inviewchange = false → s.myvsVid = s.vidCommit ∧ s.ismember view s.vidCommit = true
  syncing : s.pc = .syncing → s.ismember view s.vidInsync = true
  parked : s.pc = .waiting false → s.vidInsync = s.vidCommit

theorem mem_getView {known : Finset ℕ} {vid : ℕ} {m : Str} :
    m ∈ getView view known vid ↔ vid ∈ known ∧ m ∈ view vid := by
  unfold getView
  split
  · next hmem => simp [hmem]
  · next hmem => simp [hmem]

theorem ismember_iff {vid : ℕ} : s.ismember view vid = true ↔ vid ∈ s.known ∧ s.me ∈ view vid :=
  decide_eq_true_iff.trans mem_getView

theorem ismember_mono {known : Finset ℕ} {vid : ℕ} (hsub : s.known ⊆ known)
    (h : s.ismember view vid = true) : Node.ismember view { s with known := known } vid = true := by
  obtain ⟨hknown,hmem⟩ := ismember_iff.mp h
  exact ismember_iff.mpr ⟨hsub hknown, hmem⟩

theorem synced_known {known : Finset ℕ} (h : Synced view s) (hsub : s.known ⊆ known) :
    Synced view { s with known := known } := by
  refine ⟨fun hi => ?_, fun hp => ismember_mono hsub (h.syncing hp), h.parked⟩
  obtain ⟨hvid,hmem⟩ := h.serving hi
  exact ⟨hvid, ismember_mono hsub hmem⟩

theorem signal_ne_parked (pc : RecoveryPc) : pc.signal ≠ .waiting false := by
  cases pc <;> simp [RecoveryPc.signal]

theorem signal_eq_syncing {pc : RecoveryPc} (h : pc.signal = .syncing) : pc = .syncing := by
  cases pc <;> simp_all [RecoveryPc.signal]

theorem synced_commitChangeWo
    {vid : ℕ} (h : Synced view s) (hs : s.commitChangeWo view vid = some s') :
    Synced view s' := by
  rcases commitChangeWo_cases hs with rfl | ⟨_,p,_,rfl⟩
  · exact h
  · exact ⟨fun hi => (nomatch hi), fun hp => h.syncing (signal_eq_syncing hp),
      fun hp => absurd hp (signal_ne_parked _)⟩

theorem synced_running {pc : RecoveryPc} (h : Synced view s) (hsync : pc ≠ .syncing)
    (hpark : pc ≠ .waiting false) : Synced view { s with pc := pc } :=
  ⟨h.serving, fun hp => absurd hp hsync, fun hp => absurd hp hpark⟩

/-- A node serves only when it has synchronised as a member of its view. -/
theorem synced_serve (hvid : s.vidInsync = s.vidCommit)
    (hmem : s.ismember view s.vidCommit = true) :
    Synced view s.serve :=
  ⟨fun _ => ⟨rfl, hmem⟩, fun hp => (nomatch hp), fun _ => hvid⟩

theorem synced_checkMember (h : Synced view s) : Synced view (s.checkMember view) := by
  unfold Node.checkMember
  split
  · next hmem =>
    split
    · exact ⟨h.serving, fun _ => hmem, fun hp => nomatch hp⟩
    · exact synced_serve rfl hmem
  · exact synced_running h (fun hp => (nomatch hp)) (fun hp => nomatch hp)

theorem synced_syncDone (h : Synced view s) (hpc : s.pc = .syncing) : Synced view s.syncDone := by
  unfold Node.syncDone
  split
  · exact synced_running h (by decide) (by decide)
  · next hvid =>
    have heq := not_not.mp hvid
    exact synced_serve heq (heq ▸ h.syncing hpc)

theorem synced_step (h : Synced view s) (hs : s.Step view a s') : Synced view s' := by
  cases hs with
  | record vid => exact synced_known h (Finset.subset_insert _ _)
  | commitChange vid _ hc => exact synced_commitChangeWo h hc
  | lock => exact synced_running h (by decide) (by decide)
  | check => exact synced_checkMember h
  | joined log vid u hu =>
    have hlog : Synced view { s with known := s.known ∪ log } :=
      synced_known h Finset.subset_union_left
    exact synced_running (synced_commitChangeWo hlog hu) (by decide) (by decide)
  | joinFailed => exact synced_running h (by decide) (by decide)
  | syncDone hpc => exact synced_syncDone h hpc
  | wake => exact synced_running h (by decide) (by decide)

/-- The view that a step commits to the RSM. -/
def Act.commits : Act → Option ℕ
  | .commitChange vid => some vid
  | .joined _ vid => some vid
  | _ => none

theorem vidCommit_commitChangeWo {vid : ℕ} (h : s.commitChangeWo view vid = some s') :
    s'.vidCommit = max s.vidCommit vid := by
  unfold Node.commitChangeWo at h
  split at h
  · next hle =>
    cases h
    exact (max_eq_left hle).symm
  · next hlt =>
    obtain ⟨p,_,rfl⟩ := Option.map_eq_some_iff.mp h
    exact (max_eq_right (Nat.le_of_not_le hlt)).symm

theorem vidCommit_step (hs : s.Step view a s') :
    s'.vidCommit = max s.vidCommit (a.commits.getD 0) := by
  cases hs with
  | commitChange vid _ hc => exact vidCommit_commitChangeWo hc
  | joined log vid u hu =>
    have hvid := vidCommit_commitChangeWo hu
    exact hvid
  | record vid => exact (Nat.max_zero _).symm
  | lock => exact (Nat.max_zero _).symm
  | joinFailed => exact (Nat.max_zero _).symm
  | wake => exact (Nat.max_zero _).symm
  | check =>
    unfold Node.checkMember
    split
    · split
      · exact (Nat.max_zero _).symm
      · exact (Nat.max_zero _).symm
    · exact (Nat.max_zero _).symm
  | syncDone hpc =>
    unfold Node.syncDone
    split
    · exact (Nat.max_zero _).symm
    · exact (Nat.max_zero _).symm

theorem vidCommit_mono
    (acts : List Act) (s t : Node) (hrun : run (Node.step view) s acts = some t) :
    s.vidCommit ≤ t.vidCommit :=
  run_invariant (Node.step view) (fun u => s.vidCommit ≤ u.vidCommit)
    (fun u a u' hu hs => by
      rw [vidCommit_step (step_inv hs)]
      exact le_max_of_le_left hu) s t acts (Nat.le_refl _) hrun

/-- No view that was committed to the RSM is newer than `vid_commit`. -/
theorem commits_le (acts : List Act) (s t : Node) (hrun : run (Node.step view) s acts = some t)
    (a : Act) (ha : a ∈ acts) (vid : ℕ) (hvid : a.commits = some vid) : vid ≤ t.vidCommit := by
  induction acts generalizing s with
  | nil => cases ha
  | cons b acts ih =>
    obtain ⟨u,hu,hrest⟩ := run_cons_some _ s t b acts hrun
    rcases List.mem_cons.mp ha with rfl | ha
    · have hle := vidCommit_mono acts u t hrest
      rw [vidCommit_step (step_inv hu), hvid, Option.getD_some] at hle
      exact (le_max_right _ _).trans hle
    · exact ih u hrest ha

theorem synced_start {first me : Str} {known : Finset ℕ} {vidInsync : ℕ}
    (h : Node.start view first me known vidInsync = some s) : Synced view s := by
  have hboot : Synced view (Node.boot first me known vidInsync) :=
    ⟨fun hi => (nomatch hi), fun hp => (nomatch hp), fun hp => nomatch hp⟩
  unfold Node.start at h
  split at h
  · exact synced_commitChangeWo hboot h
  · exact Option.some.inj h ▸ hboot

/-- A node serves only in a view that it has synchronised. Whenever `inviewchange` is
false, the node's viewstamp is for the view that was committed last and the node is a
member of it, so it acts as primary for no other view; the view numbers only grow; and
the recovery thread is not left waiting for a view that it has not synchronised. -/
theorem serves_synced_view (first me : Str) (known : Finset ℕ) (vidInsync : ℕ) (s0 s t : Node)
    (acts acts' : List Act) (h0 : Node.start view first me known vidInsync = some s0)
    (hs : run (Node.step view) s0 acts = some s) (ht : run (Node.step view) s acts' = some t) :
    (s.inviewchange = false → s.myvsVid = s.vidCommit ∧ s.ismember view s.vidCommit = true) ∧
    (s.amiprimary = true → s.primary = s.me ∧ s.myvsVid = s.vidCommit ∧
      ∀ a ∈ acts, ∀ vid ∈ a.commits, vid ≤ s.myvsVid) ∧
    s.vidCommit ≤ t.vidCommit ∧
    (s.pc = .waiting false → s.vidInsync = s.vidCommit) := by
  have hsync : Synced view s := run_invariant (Node.step view) (Synced view)
    (fun _ _ _ hu hstep => synced_step hu (step_inv hstep)) s0 s acts (synced_start h0) hs
  refine ⟨hsync.serving, fun hp => ?_, vidCommit_mono acts' s t ht, hsync.parked⟩
  simp only [Node.amiprimary, Bool.and_eq_true, decide_eq_true_eq, Bool.not_eq_true'] at hp
  have hvid := (hsync.serving hp.2).1
  refine ⟨hp.1, hvid, fun a ha vid hv => ?_⟩
  rw [hvid]
  exact commits_le acts s0 s hs a ha vid hv

/-- The views of `a`, of `a` and `b`, and of `b`. -/
def viewsOfTwo (vid : ℕ) : List Str :=
  if vid = 1 then [['a']] else if vid = 2 then [['a'], ['b']] else [['b']]

/-- `b` joins through `a`; then `a` is removed, while `b` waits. -/
theorem serves_synced_view_join : ∃ s0 s t, Node.start viewsOfTwo ['a'] ['b'] ∅ 0 = some s0 ∧
    run (Node.step viewsOfTwo) s0 [.lock, .check, .joined {1, 2} 2, .check] = some s ∧
    run (Node.step viewsOfTwo) s [.record 3, .commitChange 3, .wake, .check, .syncDone] = some t ∧
    s.inviewchange = false ∧ s.myvsVid = 2 ∧ t.amiprimary = true ∧ t.myvsVid = t.vidCommit := by
  have hends : ∃ s, run (Node.step viewsOfTwo) (.boot ['a'] ['b'] ∅ 0)
      [.lock, .check, .joined {1, 2} 2, .check] = some s ∧ s.inviewchange = false ∧
        s.vidCommit = 2 ∧
      ∃ t, run (Node.step viewsOfTwo) s [.record 3, .commitChange 3, .wake, .check, .syncDone] =
        some t ∧
        t.amiprimary = true := by
    decide +kernel
  obtain ⟨s,hs,hserve,hvid,t,ht,htp⟩ := hends
  have hst := serves_synced_view ['a'] ['b'] ∅ 0 _ s t _ _ rfl hs ht
  have hall : run (Node.step viewsOfTwo) (.boot ['a'] ['b'] ∅ 0)
    ([.lock, .check, .joined {1, 2} 2, .check] ++
      [.record 3, .commitChange 3, .wake, .check, .syncDone]) = some t := by
    rw [run_append, hs]
    exact ht
  have htt := serves_synced_view ['a'] ['b'] ∅ 0 _ t t _ [] rfl hall rfl
  exact ⟨_, s, t, rfl, hs, ht, hserve, hvid ▸ (hst.1 hserve).1, htp, (htt.2.1 htp).2.1⟩

end Yfs.Rsm
