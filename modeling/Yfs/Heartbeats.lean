import Mathlib.Data.Char
import Mathlib.Data.List.Lex
import Yfs.RpcSystem
import Yfs.ViewProposals

namespace Yfs.Views

open Dir (Str)
open Rpc (timeoutFailure atmostonceFailure oldsrvFailure)

def paxosOK : ℤ := 0
def paxosERR : ℤ := 1

inductive Heartbeat
  | OK
  | VIEWERR
  | FAILURE
  deriving DecidableEq

/-- `doheartbeat`, from what the call has returned: the result, and whether the handle is
deleted. A node that has been restarted counts as one that answers. -/
def doheartbeat (ret : ℤ) : Heartbeat × Bool :=
  if ret ≠ paxosOK then
    if ret = atmostonceFailure ∨ ret = oldsrvFailure then (.OK, true)
    else if ret < 0 then (.FAILURE, false)
    else (.VIEWERR, false)
  else (.OK, false)

/-- `config::heartbeat`: the status and `r`. It is `none` if the `VERIFY` fails. -/
def heartbeat (myvid : ℕ) (isrunning : Bool) (vid : ℕ) : Option (ℤ × ℕ) :=
  if vid = myvid then some (paxosOK, myvid)
  else if isrunning = true then
    if vid = myvid + 1 ∨ vid + 1 = myvid then some (paxosOK, myvid) else none
  else some (paxosERR, myvid)

/-- The nodes, of which those that are `none` do not answer, what `isrunning` says at each
of them, and all that they have handed to `proposer::run`. -/
structure Cluster (τ : Type) where
  node : Str → Option (Member τ)
  isrunning : Str → Bool
  proposed : List Proposal

/-- A node begins a round, or its next heartbeat returns. The handle of the heartbeat is
`stale` if it was bound to the server that ran at the other node before a restart. -/
inductive Beat
  | round (m : Str)
  | ping (m : Str) (stale : Bool)
  deriving DecidableEq

namespace Cluster

variable {τ : Type} [DecidableEq τ]

/-- The call of `heartbeat` at a node: what it returns, and the node after it. -/
def call (c : Cluster τ) (vid : ℕ) (d : Str) (stale : Bool) : ℤ × Option (Member τ) :=
  match c.node d with
  | none => (timeoutFailure, none)
  | some s =>
    if stale = true then (oldsrvFailure, some s)
    else match heartbeat s.base.cfg.myvid (c.isrunning d) vid with
      | none => (timeoutFailure, none)
      | some (ret, _) => (ret, some s)

def pinged (c : Cluster τ) (m : Str) (s : Member τ) (d : Str) (answer : ℤ × Option (Member τ)) :
    Option (Cluster τ) :=
  (s.step (.ping ((doheartbeat answer.1).1 = .OK))).map fun x => { c with
    node := Function.update (Function.update c.node d answer.2) m (some x.1)
    proposed := c.proposed ++ x.2.toList }

def step (c : Cluster τ) : Beat → Option (Cluster τ)
  | .round m =>
    match c.node m with
    | none => none
    | some s => (s.step .round).map fun x => { c with node := Function.update c.node m (some x.1) }
  | .ping m stale =>
    match c.node m with
    | none => none
    | some s =>
      match s.hb with
      | .pinging _ (d :: _) => c.pinged m s d (c.call s.base.cfg.myvid d stale)
      | _ => none

/-- A node that is in this view. -/
structure InView (vid : ℕ) (view : List Str) (m : Str) (s : Member τ) : Prop where
  me : s.me = m
  myvid : s.base.cfg.myvid = vid
  mems : s.base.cfg.mems = view
  getView : s.getView vid = view

/-- All nodes that answer are in one view, and between two rounds. -/
structure Together (c : Cluster τ) (vid : ℕ) (view : List Str) : Prop where
  inView : ∀ m s, c.node m = some s → InView vid view m s
  asleep : ∀ m s, c.node m = some s → s.hb = .asleep
  proposed : c.proposed = []

end Cluster

theorem smallest_le (me : Str) (cmems : List Str) :
    Member.smallest me cmems ≤ me ∧ ∀ x ∈ cmems, Member.smallest me cmems ≤ x := by
  unfold Member.smallest
  induction cmems generalizing me with
  | nil => exact ⟨le_rfl, fun _ h => absurd h List.not_mem_nil⟩
  | cons y cmems ih =>
    obtain ⟨hle,hrest⟩ := ih (if me > y then y else me)
    rw [List.foldl_cons]
    refine ⟨hle.trans ?_, List.forall_mem_cons.mpr ⟨hle.trans ?_, hrest⟩⟩
    · split
      · exact le_of_lt ‹_›
      · exact le_rfl
    · split
      · exact le_rfl
      · exact not_lt.mp ‹_›

theorem smallest_eq {m m' : Str} {cmems : List Str} (h : m ∈ cmems) (h' : m' ∈ cmems) :
    Member.smallest m cmems = Member.smallest m' cmems := by
  have hle {x x' : Str} (hx' : x' ∈ cmems) :
      Member.smallest x cmems ≤ Member.smallest x' cmems := by
    rcases smallest_mem x' cmems with heq | hmem
    · rw [heq]
      exact (smallest_le x cmems).2 x' hx'
    · exact (smallest_le x cmems).2 _ hmem
  exact le_antisymm (hle h') (hle h)

/-- If some members answer and some do not, then one that does has one that does not among
the nodes that it pings. -/
theorem exists_detector {view : List Str} (dead : Str → Prop) {d m : Str} (hd : d ∈ view)
    (hdead : dead d) (hm : m ∈ view) (hlive : ¬ dead m) :
    ∃ x ∈ view, ¬ dead x ∧ ∃ y ∈ Member.targets x view, dead y := by
  -- either the smallest node answers, and pings all others, or it is what all others ping
  have hsmall : Member.smallest m view ∈ view := by
    rcases smallest_mem m view with heq | hmem
    · rwa [heq]
    · exact hmem
  by_cases hx : dead (Member.smallest m view)
  · have hne : Member.smallest m view ≠ m := fun heq => hlive (heq ▸ hx)
    refine ⟨m, hm, hlive, _, ?_, hx⟩
    rw [Member.targets, if_pos hm, if_neg hne]
    exact List.mem_singleton_self _
  · have hself : Member.smallest (Member.smallest m view) view = Member.smallest m view :=
      smallest_eq hsmall hm
    refine ⟨_, hsmall, hx, d, ?_, hdead⟩
    rw [Member.targets, if_pos hsmall, if_pos hself, List.mem_filter, decide_eq_true_eq]
    exact ⟨hd, fun heq => hx (heq ▸ hdead)⟩

namespace Cluster

variable {τ : Type} [DecidableEq τ] {c c' : Cluster τ} {vid : ℕ} {view : List Str}

omit [DecidableEq τ] in
/-- In one view a heartbeat succeeds if the other node answers, and changes nothing there. -/
theorem call_spec (hin : ∀ m s, c.node m = some s → InView vid view m s) (d : Str) (stale : Bool) :
    (c.call vid d stale).2 = c.node d ∧
    ((doheartbeat (c.call vid d stale).1).1 = .OK ↔ c.node d ≠ none) := by
  unfold call
  cases hd : c.node d with
  | none => simp [doheartbeat, timeoutFailure, paxosOK, atmostonceFailure, oldsrvFailure]
  | some s =>
    have hv : vid = s.base.cfg.myvid := (hin d s hd).myvid.symm
    cases stale with
    | true => simp [doheartbeat, oldsrvFailure, paxosOK]
    | false => simp [heartbeat, hv, doheartbeat]

/-- What a step does: it moves the heartbeater of one node, to ping the targets of the view,
past a node that answers, or to sleep at one that does not. -/
theorem step_cases (hin : ∀ m s, c.node m = some s → InView vid view m s) {a : Beat}
    (h : c.step a = some c') :
    ∃ m s hb p, c.node m = some s ∧
      c' = { c with
      node := Function.update c.node m (some { s with hb := hb }), proposed := c.proposed ++ p } ∧
      ((a = .round m ∧ hb = Member.pinging vid (Member.targets m view) ∧ p = []) ∨
        ∃ stale v d ms, a = .ping m stale ∧ s.hb = .pinging v (d :: ms) ∧
          ((c.node d ≠ none ∧ hb = Member.pinging v ms ∧ p = []) ∨
            (c.node d = none ∧ hb = .asleep ∧ p = if v = vid then [s.removeWo d] else []))) := by
  cases a with
  | round m =>
    simp only [step] at h
    cases hm : c.node m with
    | none => simp [hm] at h
    | some s =>
      obtain ⟨hme,hvid,-,hview⟩ := hin m s hm
      cases hhb : s.hb with
      | pinging v ms => simp [hm, Member.step, hhb] at h
      | asleep =>
        simp only [hm, Member.step, hhb, Option.map_some, Option.some.injEq, hme, hvid, hview] at h
        exact ⟨m, s, _, [], hm, by simp [← h, hme], .inl ⟨rfl, rfl, rfl⟩⟩
  | ping m stale =>
    simp only [step] at h
    cases hm : c.node m with
    | none => simp [hm] at h
    | some s =>
      have hvid := (hin m s hm).myvid
      cases hhb : s.hb with
      | asleep => simp [hm, hhb] at h
      | pinging v ms =>
        cases ms with
        | nil => simp [hm, hhb] at h
        | cons d ms =>
          obtain ⟨hsame,hok⟩ := call_spec hin d stale
          simp only [hm, hhb, pinged, hvid, hsame, Function.update_eq_self] at h
          by_cases hd : c.node d = none
          · have hfail : ¬ (doheartbeat (c.call vid d stale).1).1 = .OK := fun hx => hok.mp hx hd
            simp only [Member.step, hhb, hfail, decide_false, Bool.false_eq_true, if_false, hvid,
              Option.map_some, Option.some.injEq] at h
            refine ⟨m, s, _, _, hm, ?_, .inr ⟨stale, v, d, ms, rfl, hhb, .inr ⟨hd, rfl, rfl⟩⟩⟩
            rw [← h]
            split <;> rfl
          · simp only [Member.step, hhb, hok.mpr hd, decide_true, if_true, Option.map_some,
              Option.some.injEq] at h
            exact ⟨m, s, _, [], hm, by rw [← h]; rfl,
              .inr ⟨stale, v, d, ms, rfl, hhb, .inl ⟨hd, rfl, rfl⟩⟩⟩

/-- A member that answers wants to go on without one that does not. -/
def Removes (dead : Str → Prop) (vid : ℕ) (view : List Str) (p : Proposal) : Prop :=
  ∃ m ∈ view, ¬ dead m ∧ ∃ d ∈ view, dead d ∧ p = ⟨m, vid + 1, view, view.filter (· ≠ d), true⟩

/-- After the steps `done`, of which the nodes in `dead` have no part. A round that has begun
has not passed any of them without a proposal. -/
structure Detects (dead : Str → Prop) (vid : ℕ) (view : List Str) (done : List Beat)
    (c : Cluster τ) : Prop where
  silent : ∀ m, c.node m = none ↔ dead m
  inView : ∀ m s, c.node m = some s → InView vid view m s
  pinging : ∀ m s, c.node m = some s → ∀ v ms, s.hb = .pinging v ms → v = vid ∧ m ∈ view ∧
    ∀ x ∈ ms, x ∈ view
  proposed : ∀ p ∈ c.proposed, Removes dead vid view p
  found : ∀ m s, c.node m = some s → .round m ∈ done → ∀ d ∈ Member.targets m view, dead d →
    c.proposed ≠ [] ∨ ∃ ms, s.hb = .pinging vid ms ∧ d ∈ ms

theorem pinging_eq {vid v : ℕ} {ms ms' : List Str} (h : Member.pinging vid ms = .pinging v ms') :
    v = vid ∧ ms' = ms := by
  cases ms with
  | nil => cases h
  | cons x ms =>
    cases h
    exact ⟨rfl, rfl⟩

theorem pinging_of_mem {d : Str} {ms : List Str} (vid : ℕ) (h : d ∈ ms) :
    Member.pinging vid ms = .pinging vid ms := by
  cases ms with
  | nil => exact absurd h List.not_mem_nil
  | cons x ms => rfl

variable {dead : Str → Prop} {done : List Beat}

omit [DecidableEq τ] in
theorem Detects.moves (h : Detects dead vid view done c) {m : Str} {s : Member τ}
    (hm : c.node m = some s) (hb : HeartbeatPc) (p : List Proposal) (a : Beat)
    (hpinging : ∀ v ms, hb = .pinging v ms → v = vid ∧ m ∈ view ∧ ∀ x ∈ ms, x ∈ view)
    (hproposed : ∀ x ∈ p, Removes dead vid view x)
    (hround : ∀ m', a = .round m' → m' = m)
    (hfound : .round m ∈ done ++ [a] → ∀ d ∈ Member.targets m view, dead d →
      c.proposed ++ p ≠ [] ∨ ∃ ms, hb = .pinging vid ms ∧ d ∈ ms) :
    Detects dead vid view (done ++ [a])
      { c with
      node := Function.update c.node m (some { s with hb := hb }), proposed := c.proposed ++ p }
      where
  silent := (Function.forall_update_iff c.node fun m' x => x = none ↔ dead m').mpr
    ⟨by simp [← h.silent, hm], fun m' _ => h.silent m'⟩
  inView :=
    have hin := h.inView m s hm
    forall_update_some ⟨hin.me, hin.myvid, hin.mems, hin.getView⟩ h.inView
  pinging := forall_update_some hpinging h.pinging
  proposed := fun x hx => (List.mem_append.mp hx).elim (h.proposed x) (hproposed x)
  found := forall_update_ne (fun s' hs' => Option.some.inj hs' ▸ hfound)
    fun m' s' hm' hs' hdone d hd hdead => by
    have hdone' : .round m' ∈ done :=
      (List.mem_append.mp hdone).resolve_right fun hx =>
        hm' (hround m' (List.mem_singleton.mp hx).symm)
    refine (h.found m' s' hs' hdone' d hd hdead).imp_left fun hne => ?_
    exact fun hnil => hne (List.append_eq_nil_iff.mp hnil).1

theorem detects_step {a : Beat} (h : Detects dead vid view done c) (hs : c.step a = some c') :
    Detects dead vid view (done ++ [a]) c' := by
  obtain ⟨m,s,hb,p,hm,rfl,hcase⟩ := step_cases h.inView hs
  rcases hcase with ⟨rfl,rfl,rfl⟩ | ⟨stale,v,d,ms,rfl,hhb,hcase⟩
  · refine h.moves hm _ _ _ (fun v ms hv => ?_) (fun _ hx => absurd hx List.not_mem_nil)
      (fun m' hm' => by cases hm'; rfl) fun _ d hd _ => .inr ⟨_, pinging_of_mem vid hd, hd⟩
    obtain ⟨rfl,rfl⟩ := pinging_eq hv
    cases hms : Member.targets m view with
    | nil => simp [hms, Member.pinging] at hv
    | cons x ms =>
      have hmem := fun y (hy : y ∈ Member.targets m view) => mem_targets hy
      rw [hms] at hmem
      exact ⟨rfl, (hmem x List.mem_cons_self).1, fun y hy => (hmem y hy).2.1⟩
  · obtain ⟨rfl,hmv,hms⟩ := h.pinging m s hm v (d :: ms) hhb
    rw [List.forall_mem_cons] at hms
    have hnot : ∀ m', Beat.ping m stale = .round m' → m' = m := fun m' hx => by cases hx
    have hbegun : Beat.round m ∈ done ++ [.ping m stale] → Beat.round m ∈ done := fun hx => by
      simpa using hx
    rcases hcase with ⟨hlive,rfl,rfl⟩ | ⟨hd,rfl,rfl⟩
    · refine h.moves hm _ _ _ (fun v' ms' hv' => ?_) (fun _ hx => absurd hx List.not_mem_nil) hnot
        fun hx d' hd' hdead' => ?_
      · obtain ⟨rfl,rfl⟩ := pinging_eq hv'
        exact ⟨rfl, hmv, hms.2⟩
      · rw [List.append_nil]
        refine (h.found m s hm (hbegun hx) d' hd' hdead').imp_right fun ⟨ms',heq,hmem⟩ => ?_
        rw [hhb] at heq
        cases heq
        -- the node that has just answered is not the one that is looked for
        have hne : d' ≠ d := fun hx => hlive ((h.silent d).mpr (hx ▸ hdead'))
        have hmem' := (List.mem_cons.mp hmem).resolve_left hne
        exact ⟨ms, pinging_of_mem _ hmem', hmem'⟩
    · obtain ⟨hme,hvid,hmems,-⟩ := h.inView m s hm
      refine h.moves hm _ _ _ (fun v' ms' hv' => by cases hv') (fun x hx => ?_) hnot fun _ d' _ _ =>
        .inl ?_
      · rw [if_pos rfl, List.mem_singleton] at hx
        subst hx
        refine ⟨m, hmv, fun hx => ?_, d, hms.1, (h.silent d).mp hd, ?_⟩
        · rw [(h.silent m).mpr hx] at hm
          cases hm
        · simp only [Member.removeWo, hme, hvid, hmems]
      · simp

omit [DecidableEq τ] in
theorem Together.detects (h : c.Together vid view) :
    Detects (fun m => c.node m = none) vid view [] c where
  silent := fun _ => Iff.rfl
  inView := h.inView
  pinging := fun m s hm v ms hhb => by
    rw [h.asleep m s hm] at hhb
    cases hhb
  proposed := fun p hp => by
    rw [h.proposed] at hp
    cases hp
  found := fun _ _ _ hdone => absurd hdone List.not_mem_nil

/-- While the view does not change, and whatever the order of the heartbeats, a member that
answers is never proposed for removal. If there is one that does not answer, then it, or another
such member, has been proposed by the time when all others have been through a round. -/
theorem heartbeats_find_dead {c c' : Cluster τ} {vid : ℕ} {view : List Str}
    (hc : c.Together vid view) (acts : List Beat) (hr : run step c acts = some c') :
    (∀ p ∈ c'.proposed, Removes (fun m => c.node m = none) vid view p) ∧
      ((∃ d ∈ view, c.node d = none) → (∃ m ∈ view, c.node m ≠ none) →
        (∀ m ∈ view, c.node m ≠ none → .round m ∈ acts) →
        (∀ m ∈ view, ∀ s, c'.node m = some s → s.hb = .asleep) →
          c'.proposed ≠ []) := by
  have h := run_invariant_done step (fun _ _ => True) (Detects (fun m => c.node m = none) vid view)
    (fun done s a s' hi _ hs => detects_step hi hs) [] c c' acts hc.detects
    (runAll_of_mem step (fun _ => True) c acts fun _ _ => trivial) hr
  rw [List.nil_append] at h
  refine ⟨h.proposed, fun ⟨d,hd,hdead⟩ ⟨m,hm,hlive⟩ hround hasleep => ?_⟩
  obtain ⟨x,hx,hxlive,y,hy,hydead⟩ := exists_detector (fun m => c.node m = none) hd hdead hm hlive
  obtain ⟨s,hs⟩ := Option.ne_none_iff_exists'.mp fun hnone => hxlive ((h.silent x).mp hnone)
  refine (h.found x s hs (hround x hx hxlive) y hy hydead).resolve_right fun ⟨ms,hms,_⟩ => ?_
  rw [hasleep x hx s hs] at hms
  cases hms

end Cluster

/-- A node that has recovered the view of these members. -/
def recovered (view : List Str) (m : Str) : Member Unit where
  me := m
  base := .start ⟨[], 1, fun i => if i = 1 then Paxos.value view else [], rfl⟩ true 1
  primary := m
  joins := fun _ => none
  hb := .asleep

/-- Three members, of which the smallest does not answer. -/
def headless : Cluster Unit where
  node := fun m => if m = ['2'] ∨ m = ['3'] then some (recovered [['2'], ['1'], ['3']] m) else none
  isrunning := fun _ => false
  proposed := []

theorem heartbeats_find_dead_headless :
    ∃ c', run Cluster.step headless
    [.round ['3'], .round ['2'], .ping ['3'] false, .ping ['2'] false] = some c' ∧
      c'.proposed ≠ [] := by
  have hc : headless.Together 1 [['2'], ['1'], ['3']] := by
    refine ⟨fun m s hm => ?_, fun m s hm => ?_, rfl⟩
    all_goals
      simp only [headless] at hm
      split at hm <;> cases hm
    · exact ⟨rfl, rfl, rfl, rfl⟩
    · rfl
  have hrun : ∃ c', run Cluster.step headless
      [.round ['3'], .round ['2'], .ping ['3'] false, .ping ['2'] false] = some c' ∧
      ∀ m ∈ [['2'], ['1'], ['3']], ∀ s ∈ c'.node m, s.hb = .asleep := by decide
  obtain ⟨c',hr,hasleep⟩ := hrun
  exact ⟨c', hr, (Cluster.heartbeats_find_dead hc _ hr).2 ⟨['1'], by decide, rfl⟩
    ⟨['2'], by decide, by decide⟩
    (by decide) hasleep⟩

end Yfs.Views
