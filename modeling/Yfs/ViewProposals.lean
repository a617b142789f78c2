import Yfs.PaxosConfig
import Yfs.Rsm

/-! The views that are proposed. A join request is checked in the RSM, under `rsm_mutex`
and against `vid_commit`, and proposed in the config module, under `cfg_mutex` and from
`mems`; the heartbeater proposes to remove a node that does not answer. The acceptor and
the upcalls are those of `Paxos.Node`. -/
namespace Yfs.Views

open Dir (Str)
open Paxos (Acceptor Config members value IsName)

/-- A view that is handed to `proposer::run`. -/
structure Proposal where
  proposer : Str
  inst : ℕ
  current : List Str
  next : List Str
  removal : Bool
  deriving DecidableEq

/-- Where the heartbeater is: asleep, or pinging the first of these nodes, for the view
that it has read. It does not hold `cfg_mutex` there. -/
inductive HeartbeatPc
  | asleep
  | pinging (vid : ℕ) (targets : List Str)
  deriving DecidableEq

/-- `joins` are the handlers of `joinreq` that have released `rsm_mutex`, with the node
that joins and `vid_cache`. -/
structure Member (τ : Type) where
  me : Str
  base : Paxos.Node τ
  primary : Str
  joins : τ → Option (Str × ℕ)
  hb : HeartbeatPc

/-- `restored` is what the recovery thread does to the acceptor with the decisions in a
log, `joined` its call of `commit_change_wo`. -/
inductive Act (τ : Type)
  | base (a : Paxos.Act τ)
  | joinreq (t : τ) (m : Str)
  | add (t : τ)
  | round
  | ping (ok : Bool)
  | restored (log : List (ℕ × Str))
  | joined

/-- A "done" record is read. There is no instance 0. -/
def learn (acc : Acceptor) (x : ℕ × Str) : Acceptor :=
  if h : x.1 = 0 then acc
  else ⟨[], x.1, Function.update acc.values x.1 x.2,
    by rw [Function.update_of_ne (Ne.symm h), acc.values_zero]⟩

namespace Member

variable {τ : Type} [DecidableEq τ]

def getView (s : Member τ) (vid : ℕ) : List Str := members (s.base.acc.values vid)

/-- `set_primary` when `commit_change` is called for a view. -/
def newPrimary (s : Member τ) (vid : ℕ) : Option Str :=
  if vid ≤ s.base.vidCommit then some s.primary
  else Rsm.setPrimary s.primary (s.getView vid) (s.getView (vid - 1))

def joinreq (s : Member τ) (t : τ) (m : Str) : Member τ :=
  if m ∈ s.getView s.base.vidCommit then s
  else if s.me ≠ s.primary then s
  else { s with joins := Function.update s.joins t (some (m, s.base.vidCommit)) }

def add (s : Member τ) (m : Str) (vid : ℕ) : Option Proposal :=
  if vid ≠ s.base.cfg.myvid then none
  else some ⟨s.me, s.base.cfg.myvid + 1, s.base.cfg.mems, s.base.cfg.mems ++ [m], false⟩

def removeWo (s : Member τ) (m : Str) : Proposal :=
  ⟨s.me, s.base.cfg.myvid + 1, s.base.cfg.mems, s.base.cfg.mems.filter (· ≠ m), true⟩

def smallest (me : Str) (cmems : List Str) : Str :=
  cmems.foldl (fun m x => if m > x then x else m) me

/-- The nodes that are pinged in a round: all others by the smallest, and the smallest by
all others. -/
def targets (me : Str) (cmems : List Str) : List Str :=
  if me ∈ cmems then
    if smallest me cmems = me then cmems.filter (· ≠ me) else [smallest me cmems]
  else []

def pinging (vid : ℕ) : List Str → HeartbeatPc
  | [] => .asleep
  | ms => .pinging vid ms

/-- `config::restore`, with `reconstruct`. -/
def restored (s : Member τ) (acc : Acceptor) : Member τ :=
  { s with
    base := { s.base with
      acc := acc
      cfg := if acc.instanceH > 0 then ⟨acc.instanceH, members (acc.values acc.instanceH)⟩
        else s.base.cfg } }

/-- A step of the node, and what it proposes. -/
def step (s : Member τ) : Act τ → Option (Member τ × Option Proposal)
  | .base (.notify t) =>
    match s.base.pc t with
    | .notify vid => (s.newPrimary vid).map fun p =>
      ({ s with base := s.base.commitChange t vid, primary := p }, none)
    | _ => none
  | .base a => (s.base.step a).map fun base => ({ s with base := base }, none)
  | .joinreq t m =>
    match s.joins t with
    | none => some (s.joinreq t m, none)
    | some _ => none
  | .add t =>
    match s.joins t with
    | some (m, vid) => some ({ s with joins := Function.update s.joins t none }, s.add m vid)
    | none => none
  | .round =>
    match s.hb with
    | .asleep => some ({ s with
        hb := pinging s.base.cfg.myvid (targets s.me (s.getView s.base.cfg.myvid)) }, none)
    | _ => none
  | .ping ok =>
    match s.hb with
    | .pinging vid (m :: ms) =>
      if ok = true then some ({ s with hb := pinging vid ms }, none)
      else some ({ s with hb := .asleep }, if vid = s.base.cfg.myvid then some (s.removeWo m)
        else none)
    | _ => none
  | .restored log => some (s.restored (log.foldl learn s.base.acc), none)
  | .joined => (s.newPrimary s.base.cfg.myvid).map fun p =>
    ({ s with
      base := { s.base with vidCommit := max s.base.vidCommit s.base.cfg.myvid }
      primary := p }, none)

/-- The first node starts with the view of itself, which it has committed to its RSM. -/
def firstNode (me : Str) : Member τ where
  me := me
  base := .start ⟨[], 1, fun i => if i = 1 then me else [], rfl⟩ true 1
  primary := me
  joins := fun _ => none
  hb := .asleep

/-- Any other node starts without a view. -/
def otherNode (me first : Str) : Member τ where
  me := me
  base := .start ⟨[], 0, fun _ => [], rfl⟩ true 0
  primary := first
  joins := fun _ => none
  hb := .asleep

end Member

/-- All nodes, and all that has been proposed. -/
structure Sys (τ : Type) where
  node : Str → Member τ
  proposals : List Proposal

variable {τ : Type} [DecidableEq τ]

/-- Every other node `m` is started with node `f m` as the first. -/
def Sys.init (first : Str) (f : Str → Str) : Sys τ :=
  ⟨fun m => if m = first then .firstNode m else .otherNode m (f m), []⟩

def Sys.step (s : Sys τ) (a : Str × Act τ) : Option (Sys τ) :=
  ((s.node a.1).step a.2).map fun r =>
    ⟨Function.update s.node a.1 r.1, s.proposals ++ r.2.toList⟩

/-- `commit_change` of the RSM, as far as `vid_commit` and the primary go. -/
theorem Member.commitChange_eq {s : Member τ} {n : Rsm.Node} {view : ℕ → List Str}
    (hview : ∀ vid, s.getView vid = Rsm.getView view n.known vid)
    (hvid : n.vidCommit = s.base.vidCommit) (hprimary : n.primary = s.primary) (t : τ) (vid : ℕ) :
    (n.commitChangeWo view vid).map (fun n' => (n'.vidCommit, n'.primary)) =
      (s.newPrimary vid).map fun p => ((s.base.commitChange t vid).vidCommit, p) := by
  rw [Rsm.Node.commitChangeWo, Member.newPrimary, Paxos.Node.commitChange, hview, hview, hvid,
    hprimary]
  split_ifs
  · rw [Option.map_some, Option.map_some, hvid, hprimary]
  · rw [Option.map_map]
    rfl

structure GoodView (l : List Str) : Prop where
  nodup : l.Nodup
  nonempty : l ≠ []
  names : ∀ m ∈ l, IsName m

/-- The view differs from the proposer's by one node, which is added at the end or
removed; a node that removes another stays in the view. -/
structure Proposal.Ok (p : Proposal) : Prop where
  view : GoodView p.next
  added : p.removal = false → ∃ m, m ∉ p.current ∧ p.next = p.current ++ [m]
  removed : p.removal = true → (∃ m ∈ p.current, p.next = p.current.erase m) ∧ p.proposer ∈ p.next

/-- A value that stands for a view is that of the first view or has been proposed. -/
def Proposed (first : Str) (ps : List Proposal) (v : Str) : Prop :=
  v = first ∨ ∃ p ∈ ps, v = value p.next

instance (first : Str) (ps : List Proposal) (v : Str) : Decidable (Proposed first ps v) := by
  unfold Proposed
  infer_instance

theorem goodView_of_proposed {first : Str} {ps : List Proposal} (hfirst : IsName first)
    (hps : ∀ p ∈ ps, p.Ok) {v : Str} (h : Proposed first ps v) : GoodView (members v) := by
  rcases h with rfl | ⟨p,hp,rfl⟩
  · rw [Paxos.members_name v hfirst]
    exact ⟨List.nodup_singleton v, List.cons_ne_nil _ _, List.forall_mem_singleton.mpr hfirst⟩
  · have hok := (hps p hp).view
    rwa [Paxos.members_value p.next hok.names]

theorem GoodView.value_ne_nil {v : Str} (h : GoodView (members v)) : v ≠ [] := by
  rintro rfl
  exact h.nonempty rfl

/-- The views that are recorded. -/
structure Recorded (acc : Acceptor) : Prop where
  good : ∀ i, acc.values i ≠ [] → GoodView (members (acc.values i))
  le : ∀ i, acc.values i ≠ [] → i ≤ acc.instanceH
  last : acc.instanceH = 0 ∨ acc.values acc.instanceH ≠ []

/-- Recorded values stay. -/
def Extends (acc acc' : Acceptor) : Prop := ∀ i, acc.values i ≠ [] → acc'.values i = acc.values i

/-- Whatever the threads of the node remember about views is about recorded ones. -/
structure Refers (acc : Acceptor) (s : Member τ) : Prop where
  mems : s.base.cfg.mems = members (acc.values s.base.cfg.myvid)
  myvid : s.base.cfg.myvid = 0 ∨ acc.values s.base.cfg.myvid ≠ []
  upcall : ∀ t i v, s.base.pc t = .upcall i v → acc.values i = v ∧ v ≠ []
  notify : ∀ t vid, s.base.pc t = .notify vid → acc.values vid ≠ []
  commit : (s.base.vidCommit = 0 ∧ s.primary ≠ s.me) ∨ acc.values s.base.vidCommit ≠ []
  joins : ∀ t x, s.joins t = some x →
    IsName x.1 ∧ acc.values x.2 ≠ [] ∧ x.1 ∉ members (acc.values x.2)
  hb : ∀ vid ms, s.hb = .pinging vid ms → acc.values vid ≠ [] ∧ s.me ∈ members (acc.values vid) ∧
    ∀ x ∈ ms, x ∈ members (acc.values vid) ∧ x ≠ s.me

structure Member.Ok (s : Member τ) : Prop where
  recorded : Recorded s.base.acc
  refers : Refers s.base.acc s

variable {s s' : Member τ} {acc acc' : Acceptor}

theorem Extends.ne_nil (h : Extends acc acc') {i : ℕ} (hi : acc.values i ≠ []) :
    acc'.values i ≠ [] := by
  rw [h i hi]
  exact hi

omit [DecidableEq τ] in
theorem Refers.extends (h : Refers acc s) (he : Extends acc acc') : Refers acc' s := by
  refine ⟨?_, h.myvid.imp_right he.ne_nil, fun t i v ht => ?_,
    fun t vid ht => he.ne_nil (h.notify t vid ht), h.commit.imp_right he.ne_nil, fun t x hx => ?_,
    fun vid ms hms => ?_⟩
  · rcases h.myvid with hzero | hne
    · rw [h.mems, hzero, acc.values_zero, acc'.values_zero]
    · rw [h.mems, he _ hne]
  · obtain ⟨hv,hne⟩ := h.upcall t i v ht
    exact ⟨(he i (hv ▸ hne)).trans hv, hne⟩
  · obtain ⟨hname,hne,hnot⟩ := h.joins t x hx
    rw [he _ hne]
    exact ⟨hname, hne, hnot⟩
  · obtain ⟨hne,hrest⟩ := h.hb vid ms hms
    rw [he _ hne]
    exact ⟨hne, hrest⟩

theorem forall_upcall_update {pc : τ → Paxos.CommitPc} {t : τ} {new : Paxos.CommitPc}
    {P : ℕ → Str → Prop}
    (hnew : ∀ i v, new = .upcall i v → P i v) (h : ∀ u i v, pc u = .upcall i v → P i v) :
    ∀ u i v, Function.update pc t new u = .upcall i v → P i v :=
  (Function.forall_update_iff pc fun _ p => ∀ i v, p = .upcall i v → P i v).mpr
    ⟨hnew, fun u _ => h u⟩

theorem forall_notify_update {pc : τ → Paxos.CommitPc} {t : τ} {new : Paxos.CommitPc} {P : ℕ → Prop}
    (hnew : ∀ vid, new = .notify vid → P vid) (h : ∀ u vid, pc u = .notify vid → P vid) :
    ∀ u vid, Function.update pc t new u = .notify vid → P vid :=
  (Function.forall_update_iff pc fun _ p => ∀ vid, p = .notify vid → P vid).mpr
    ⟨hnew, fun u _ => h u⟩

theorem ok_committed (h : s.Ok) {t : τ} {i : ℕ} {v : Str} (hi : s.base.acc.instanceH < i)
    (hv : GoodView (members v)) : Member.Ok { s with base := s.base.committed t i v hi } := by
  have hnew : s.base.acc.values i = [] := by
    by_contra hne
    exact absurd (h.recorded.le i hne) (Nat.not_le.mpr hi)
  have hext : Extends s.base.acc (s.base.acc.record i v hi) := by
    intro j hj
    have hji : j ≠ i := by
      rintro rfl
      exact hj hnew
    exact Function.update_of_ne hji _ _
  have hval : (s.base.acc.record i v hi).values i = v := Function.update_self ..
  refine ⟨⟨fun j hj => ?_, fun j hj => ?_, Or.inr (hval.symm ▸ hv.value_ne_nil)⟩, ?_⟩
  · by_cases hji : j = i
    · subst hji
      exact hval.symm ▸ hv
    · have hold : (s.base.acc.record i v hi).values j = s.base.acc.values j :=
        Function.update_of_ne hji _ _
      exact hold ▸ h.recorded.good j (hold ▸ hj)
  · by_cases hji : j = i
    · exact hji.le
    · have hold : (s.base.acc.record i v hi).values j = s.base.acc.values j :=
        Function.update_of_ne hji _ _
      exact (h.recorded.le j (hold ▸ hj)).trans hi.le
  · have hr := h.refers.extends hext
    refine ⟨hr.mems, hr.myvid, forall_upcall_update ?_ hr.upcall,
      forall_notify_update (fun _ heq => nomatch heq) hr.notify, hr.commit, hr.joins, hr.hb⟩
    intro j w heq
    cases heq
    exact ⟨hval, hv.value_ne_nil⟩

theorem ok_paxosCommit (h : s.Ok) {t : τ} {i : ℕ} {v : Str} (ht : s.base.pc t = .upcall i v) :
    Member.Ok { s with base := s.base.paxosCommit t i v } := by
  have hr := h.refers
  obtain ⟨hval,hne⟩ := hr.upcall t i v ht
  refine ⟨h.recorded, congrArg members hval.symm, Or.inr (hval ▸ hne),
    forall_upcall_update ?_ hr.upcall, forall_notify_update ?_ hr.notify, hr.commit, hr.joins,
    hr.hb⟩
  · intro j w heq
    split at heq <;> cases heq
  · intro vid heq
    split at heq
    · cases heq
      exact hval ▸ hne
    · cases heq

omit [DecidableEq τ] in
theorem refers_commit (h : Refers acc s) {vid : ℕ} {p : Str} (hp : s.newPrimary vid = some p)
    (hvid : vid = 0 ∨ acc.values vid ≠ []) :
    (max s.base.vidCommit vid = 0 ∧ p ≠ s.me) ∨ acc.values (max s.base.vidCommit vid) ≠ [] := by
  unfold Member.newPrimary at hp
  split at hp
  · next hle =>
    cases hp
    rw [max_eq_left hle]
    exact h.commit
  · next hlt =>
    rw [max_eq_right (Nat.le_of_not_le hlt)]
    exact Or.inr (hvid.resolve_left (by omega))

theorem ok_commitChange (h : s.Ok) {t : τ} {vid : ℕ} {p : Str} (ht : s.base.pc t = .notify vid)
    (hp : s.newPrimary vid = some p) :
    Member.Ok { s with base := s.base.commitChange t vid, primary := p } := by
  have hr := h.refers
  have hcommit := refers_commit hr hp (Or.inr (hr.notify t vid ht))
  have hmax : (s.base.commitChange t vid).vidCommit = max s.base.vidCommit vid := by
    simp only [Paxos.Node.commitChange]
    split
    · next hle => exact (max_eq_left hle).symm
    · next hlt => exact (max_eq_right (Nat.le_of_not_le hlt)).symm
  refine ⟨h.recorded, hr.mems, hr.myvid, forall_upcall_update (fun _ _ heq => nomatch heq)
    hr.upcall, forall_notify_update (fun _ heq => nomatch heq) hr.notify, ?_, hr.joins, hr.hb⟩
  change ((s.base.commitChange t vid).vidCommit = 0 ∧ _) ∨ s.base.acc.values _ ≠ []
  rw [hmax]
  exact hcommit

omit [DecidableEq τ] in
theorem ok_joined (h : s.Ok) {p : Str} (hp : s.newPrimary s.base.cfg.myvid = some p) :
    Member.Ok { s with
      base := { s.base with vidCommit := max s.base.vidCommit s.base.cfg.myvid },
        primary := p } := by
  have hr := h.refers
  exact ⟨h.recorded, hr.mems, hr.myvid, hr.upcall, hr.notify, refers_commit hr hp hr.myvid,
    hr.joins, hr.hb⟩

/-- The node is not in the view of `vid_cache`, and there is such a view: without one,
this node is not the primary. -/
theorem ok_joinreq (h : s.Ok) (t : τ) {m : Str} (hm : IsName m) : (s.joinreq t m).Ok := by
  have hr := h.refers
  unfold Member.joinreq
  split
  · exact h
  · next hnot =>
    split
    · exact h
    · next hprimary =>
      refine ⟨h.recorded, hr.mems, hr.myvid, hr.upcall, hr.notify, hr.commit,
        forall_update_some (P := fun _ (x : Str × ℕ) => IsName x.1 ∧ s.base.acc.values x.2 ≠ [] ∧
          x.1 ∉ members (s.base.acc.values x.2)) ⟨hm, ?_, hnot⟩ hr.joins, hr.hb⟩
      exact hr.commit.resolve_left fun hz => hz.2 (not_not.mp hprimary).symm

omit [DecidableEq τ] in
/-- The view that is proposed is made from `mems`, but `vid_cache` says that this is the
view in which the node was looked for. -/
theorem ok_add (h : s.Ok) {t : τ} {m : Str} {vid : ℕ} (ht : s.joins t = some (m, vid))
    {p : Proposal} (hp : s.add m vid = some p) : p.Ok := by
  obtain ⟨hname,hne,hnot⟩ := h.refers.joins t _ ht
  unfold Member.add at hp
  split at hp
  · cases hp
  · next hvid =>
    cases hp
    have hmems : s.base.cfg.mems = members (s.base.acc.values vid) := by
      rw [h.refers.mems, not_not.mp hvid]
    have hview := h.recorded.good vid hne
    rw [← hmems] at hview hnot
    refine ⟨⟨?_, ?_, ?_⟩, fun _ => ⟨m, hnot, rfl⟩, fun hf => nomatch hf⟩
    · exact List.nodup_append.mpr ⟨hview.nodup, List.nodup_singleton m, fun a ha b hb hab =>
        hnot (List.mem_singleton.mp hb ▸ hab ▸ ha)⟩
    · exact List.append_ne_nil_of_left_ne_nil hview.nonempty _
    · intro x hx
      rw [List.mem_append, List.mem_singleton] at hx
      rcases hx with hx | rfl
      · exact hview.names x hx
      · exact hname

theorem ok_joins_none (h : s.Ok) (t : τ) :
    Member.Ok { s with joins := Function.update s.joins t none } := by
  have hr := h.refers
  exact ⟨h.recorded, hr.mems, hr.myvid, hr.upcall, hr.notify, hr.commit,
    forall_update (fun _ hx => nomatch hx) hr.joins, hr.hb⟩

theorem smallest_mem (me : Str) (cmems : List Str) :
    Member.smallest me cmems = me ∨ Member.smallest me cmems ∈ cmems := by
  unfold Member.smallest
  induction cmems generalizing me with
  | nil => exact Or.inl rfl
  | cons x cmems ih =>
    rw [List.foldl_cons]
    rcases ih (if me > x then x else me) with heq | hmem
    · rw [heq]
      split
      · exact Or.inr List.mem_cons_self
      · exact Or.inl rfl
    · exact Or.inr (List.mem_cons_of_mem _ hmem)

theorem mem_targets {me x : Str} {cmems : List Str} (h : x ∈ Member.targets me cmems) :
    me ∈ cmems ∧ x ∈ cmems ∧ x ≠ me := by
  unfold Member.targets at h
  split at h
  · next hme =>
    split at h
    · rw [List.mem_filter, decide_eq_true_eq] at h
      exact ⟨hme, h⟩
    · next hne =>
      rw [List.mem_singleton] at h
      subst h
      exact ⟨hme, (smallest_mem me cmems).resolve_left hne, hne⟩
  · cases h

section
omit [DecidableEq τ]

theorem ok_pinging (h : s.Ok) (vid : ℕ) (ms : List Str)
    (hms : ∀ x ∈ ms, s.me ∈ members (s.base.acc.values vid) ∧ x ∈ members (s.base.acc.values vid) ∧
      x ≠ s.me) :
    Member.Ok { s with hb := Member.pinging vid ms } := by
  have hr := h.refers
  refine ⟨h.recorded, hr.mems, hr.myvid, hr.upcall, hr.notify, hr.commit, hr.joins,
    fun vid' ms' heq => ?_⟩
  cases ms with
  | nil => cases heq
  | cons x ms =>
    cases heq
    obtain ⟨hme,_⟩ := hms x List.mem_cons_self
    refine ⟨?_, hme, fun y hy => (hms y hy).2⟩
    intro hnil
    rw [hnil] at hme
    cases hme

theorem ok_asleep (h : s.Ok) : Member.Ok { s with hb := .asleep } :=
  ok_pinging h 0 [] fun _ hx => nomatch hx

/-- Who is removed is another member of the view, so that the proposer stays in it. -/
theorem ok_removeWo (h : s.Ok) {vid : ℕ} {m : Str} {ms : List Str}
    (hhb : s.hb = .pinging vid (m :: ms)) (hvid : vid = s.base.cfg.myvid) : (s.removeWo m).Ok := by
  obtain ⟨hne,hme,htargets⟩ := h.refers.hb vid _ hhb
  obtain ⟨hmem,hother⟩ := htargets m List.mem_cons_self
  have hview := h.recorded.good vid hne
  rw [hvid, ← h.refers.mems] at hview hme hmem
  have hstay : s.me ∈ s.base.cfg.mems.filter (· ≠ m) :=
    List.mem_filter.mpr ⟨hme, decide_eq_true (Ne.symm hother)⟩
  refine ⟨⟨hview.nodup.filter _, List.ne_nil_of_mem hstay, ?_⟩, fun hf => (nomatch hf),
    fun _ => ⟨⟨m, hmem, ?_⟩, hstay⟩⟩
  · intro x hx
    exact hview.names x (List.mem_of_mem_filter hx)
  · change s.base.cfg.mems.filter (· ≠ m) = s.base.cfg.mems.erase m
    rw [hview.nodup.erase_eq_filter]
    exact List.filter_congr fun x _ => by simp [bne, Bool.beq_eq_decide_eq]

end

/-- The log agrees with what is recorded and goes at least as far. -/
def Restorable (first : Str) (ps : List Proposal) (acc : Acceptor) (log : List (ℕ × Str)) : Prop :=
  (∀ x ∈ log, x.1 ≠ 0 ∧ (acc.values x.1 = [] ∨ acc.values x.1 = x.2) ∧ Proposed first ps x.2) ∧
  ∀ y ∈ log.getLast?, acc.instanceH ≤ y.1 ∧ ∀ x ∈ log, x.1 ≤ y.1

instance (first : Str) (ps : List Proposal) (acc : Acceptor) (log : List (ℕ × Str)) :
    Decidable (Restorable first ps acc log) := by
  unfold Restorable
  infer_instance

theorem learn_values (acc : Acceptor) {x : ℕ × Str} (hx : x.1 ≠ 0) :
    (learn acc x).values = Function.update acc.values x.1 x.2 ∧ (learn acc x).instanceH = x.1 := by
  rw [learn, dif_neg hx]
  exact ⟨rfl, rfl⟩

theorem values_foldl_learn (acc : Acceptor) (log : List (ℕ × Str)) (hlog : ∀ x ∈ log, x.1 ≠ 0)
    (i : ℕ) :
    (log.foldl learn acc).values i = acc.values i ∨
      ∃ x ∈ log, x.1 = i ∧ (log.foldl learn acc).values i = x.2 := by
  induction log using List.reverseRecOn with
  | nil => exact Or.inl rfl
  | append_singleton log x ih =>
    rw [List.foldl_concat]
    obtain ⟨hvalues,_⟩ := learn_values (log.foldl learn acc) (hlog x (by simp))
    rw [hvalues]
    by_cases hi : i = x.1
    · subst hi
      exact Or.inr ⟨x, by simp, rfl, Function.update_self ..⟩
    · rw [Function.update_of_ne hi]
      apply (ih fun y hy => hlog y (List.mem_append_left _ hy)).imp_right
      rintro ⟨y,hy,hval⟩
      exact ⟨y, List.mem_append_left _ hy, hval⟩

theorem last_foldl_learn (acc : Acceptor) (log : List (ℕ × Str)) (x : ℕ × Str) (hx : x.1 ≠ 0) :
    ((log ++ [x]).foldl learn acc).instanceH = x.1 ∧
    ((log ++ [x]).foldl learn acc).values x.1 = x.2 := by
  rw [List.foldl_concat]
  obtain ⟨hvalues,hinst⟩ := learn_values (log.foldl learn acc) hx
  rw [hvalues, hinst]
  exact ⟨rfl, Function.update_self ..⟩

omit [DecidableEq τ] in
theorem ok_restored (h : s.Ok) {first : Str} {ps : List Proposal} (hfirst : IsName first)
    (hps : ∀ p ∈ ps, p.Ok) {log : List (ℕ × Str)} (hlog : Restorable first ps s.base.acc log) :
    (s.restored (log.foldl learn s.base.acc)).Ok := by
  obtain ⟨heach,hlast⟩ := hlog
  have hvalues := values_foldl_learn s.base.acc log fun x hx => (heach x hx).1
  have hgood : ∀ x ∈ log, GoodView (members x.2) := fun x hx =>
    goodView_of_proposed hfirst hps (heach x hx).2.2
  -- the last instance
  have hend : (log = [] ∧ (log.foldl learn s.base.acc).instanceH = s.base.acc.instanceH) ∨
      ∃ y ∈ log, (log.foldl learn s.base.acc).instanceH = y.1 ∧
        (log.foldl learn s.base.acc).values y.1 = y.2 ∧ s.base.acc.instanceH ≤ y.1 ∧
          ∀ x ∈ log, x.1 ≤ y.1 := by
    rcases List.eq_nil_or_concat' log with rfl | ⟨init,y,rfl⟩
    · exact Or.inl ⟨rfl, rfl⟩
    · obtain ⟨hinst,hval⟩ := last_foldl_learn s.base.acc init y (heach y (by simp)).1
      exact Or.inr ⟨y, by simp, hinst, hval, hlast y (by simp)⟩
  have hext : Extends s.base.acc (log.foldl learn s.base.acc) := by
    intro i hi
    rcases hvalues i with heq | ⟨x,hx,rfl,hval⟩
    · exact heq
    · rw [hval]
      exact ((heach x hx).2.1.resolve_left hi).symm
  have hrec : Recorded (log.foldl learn s.base.acc) := by
    refine ⟨fun i hi => ?_, fun i hi => ?_, ?_⟩
    · rcases hvalues i with heq | ⟨x,hx,rfl,hval⟩
      · rw [heq] at hi ⊢
        exact h.recorded.good i hi
      · rw [hval]
        exact hgood x hx
    · rcases hvalues i with heq | ⟨x,hx,rfl,hval⟩
      · rw [heq] at hi
        have hle := h.recorded.le i hi
        rcases hend with ⟨_,hsame⟩ | ⟨y,_,hinst,_,hold,_⟩
        · exact hsame ▸ hle
        · exact hinst ▸ hle.trans hold
      · rcases hend with ⟨rfl,_⟩ | ⟨y,_,hinst,_,_,hall⟩
        · cases hx
        · exact hinst ▸ hall x hx
    · rcases hend with ⟨rfl,_⟩ | ⟨y,hy,hinst,hval,_⟩
      · exact h.recorded.last
      · rw [hinst, hval]
        exact Or.inr (hgood y hy).value_ne_nil
  have hr := h.refers.extends hext
  refine ⟨hrec, ?_, ?_, hr.upcall, hr.notify, hr.commit, hr.joins, hr.hb⟩
  · simp only [Member.restored]
    split
    · rfl
    · exact hr.mems
  · simp only [Member.restored]
    split
    · next hpos => exact hrec.last
    · exact hr.myvid

/-- Only values that have been proposed are committed; nodes have proper names. -/
def Sys.Lawful (first : Str) (s : Sys τ) (a : Str × Act τ) : Prop :=
  match a.2 with
  | .base (.commit _ _ v) => Proposed first s.proposals v
  | .base (.decidereq _ _ v) => Proposed first s.proposals v
  | .joinreq _ m => IsName m
  | .restored log => Restorable first s.proposals (s.node a.1).base.acc log
  | _ => True

instance (first : Str) (s : Sys τ) (a : Str × Act τ) : Decidable (s.Lawful first a) := by
  unfold Sys.Lawful
  split <;> infer_instance

theorem ok_commitWo (h : s.Ok) (t : τ) (i : ℕ) {v : Str} (hv : GoodView (members v)) :
    Member.Ok { s with base := s.base.commitWo t i v } := by
  rcases Paxos.Node.commitWo_cases s.base t i v with hsame | ⟨hi,hnew⟩
  · rw [hsame]
    exact h
  · rw [hnew]
    exact ok_committed h hi hv

theorem ok_none (p : Proposal) (hp : none = some p) : p.Ok := by
  cases hp

/-- A step of a node keeps what it remembers right, and proposes only views that are
well formed. -/
theorem ok_step {first : Str} (hfirst : IsName first) {u : Sys τ} (hps : ∀ p ∈ u.proposals, p.Ok)
    {m : Str} {a : Act τ} (h : (u.node m).Ok) (hlaw : u.Lawful first (m, a)) {o : Option Proposal}
    (hs : (u.node m).step a = some (s', o)) : s'.Ok ∧ ∀ p, o = some p → p.Ok := by
  cases a with
  | base a =>
    cases a with
    | commit t i v =>
      obtain ⟨b,hb,heq⟩ := Option.map_eq_some_iff.mp hs
      cases heq
      simp only [Paxos.Node.step] at hb
      split at hb
      · cases hb
        exact ⟨ok_commitWo h t i (goodView_of_proposed hfirst hps hlaw), ok_none⟩
      · cases hb
    | decidereq t i v =>
      obtain ⟨b,hb,heq⟩ := Option.map_eq_some_iff.mp hs
      cases heq
      simp only [Paxos.Node.step] at hb
      split at hb
      · unfold Paxos.Node.decidereq at hb
        split_ifs at hb with _ hv
        · cases hb
          rw [hv]
          exact ⟨ok_commitWo h t i (goodView_of_proposed hfirst hps hlaw), ok_none⟩
        · cases hb
          exact ⟨h, ok_none⟩
      · cases hb
    | upcall t =>
      obtain ⟨b,hb,heq⟩ := Option.map_eq_some_iff.mp hs
      cases heq
      simp only [Paxos.Node.step] at hb
      split at hb
      · next ht =>
        cases hb
        exact ⟨ok_paxosCommit h ht, ok_none⟩
      · cases hb
    | notify t =>
      simp only [Member.step] at hs
      split at hs
      · next ht =>
        obtain ⟨q,hq,heq⟩ := Option.map_eq_some_iff.mp hs
        cases heq
        exact ⟨ok_commitChange h ht hq, ok_none⟩
      · cases hs
  | joinreq t n =>
    simp only [Member.step] at hs
    split at hs
    · cases hs
      exact ⟨ok_joinreq h t hlaw, ok_none⟩
    · cases hs
  | add t =>
    simp only [Member.step] at hs
    split at hs
    · next ht =>
      cases hs
      exact ⟨ok_joins_none h t, fun p hp => ok_add h ht hp⟩
    · cases hs
  | round =>
    simp only [Member.step] at hs
    split at hs
    · cases hs
      exact ⟨ok_pinging h _ _ fun x hx => mem_targets hx, ok_none⟩
    · cases hs
  | ping ok =>
    simp only [Member.step] at hs
    split at hs
    · next vid x ms hhb =>
      obtain ⟨_,hme,hall⟩ := h.refers.hb vid _ hhb
      split at hs
      · cases hs
        exact ⟨ok_pinging h _ _ fun y hy => ⟨hme, hall y (List.mem_cons_of_mem _ hy)⟩, ok_none⟩
      · cases hs
        refine ⟨ok_asleep h, fun p hp => ?_⟩
        split at hp
        · next hvid =>
          cases hp
          exact ok_removeWo h hhb hvid
        · cases hp
    · cases hs
  | restored log =>
    cases hs
    exact ⟨ok_restored h hfirst hps hlaw, ok_none⟩
  | joined =>
    obtain ⟨q,hq,heq⟩ := Option.map_eq_some_iff.mp hs
    cases heq
    exact ⟨ok_joined h hq, ok_none⟩

omit [DecidableEq τ] in
theorem ok_firstNode {me : Str} (hme : IsName me) : (Member.firstNode me : Member τ).Ok := by
  have hfirst : Proposed me [] me := Or.inl rfl
  have hview := goodView_of_proposed hme (fun _ hp => absurd hp List.not_mem_nil) hfirst
  have hone : ∀ i, (if i = 1 then me else []) ≠ [] → i = 1 := by
    intro i hi
    by_contra hne
    exact hi (if_neg hne)
  refine ⟨⟨fun i hi => ?_, fun i hi => (hone i hi).le, Or.inr hme.1⟩, rfl, Or.inr hme.1, ?_, ?_,
    Or.inr hme.1, ?_, ?_⟩
  · have hi1 := hone i hi
    subst hi1
    exact hview
  · exact fun t i v ht => nomatch ht
  · exact fun t vid ht => nomatch ht
  · exact fun t x hx => nomatch hx
  · exact fun vid ms hms => nomatch hms

omit [DecidableEq τ] in
theorem ok_otherNode {me first : Str} (hne : first ≠ me) :
    (Member.otherNode me first : Member τ).Ok := by
  refine ⟨⟨fun i hi => absurd rfl hi, fun i hi => absurd rfl hi, Or.inl rfl⟩, rfl, Or.inl rfl, ?_,
    ?_, Or.inl ⟨rfl, hne⟩, ?_, ?_⟩
  · exact fun t i v ht => nomatch ht
  · exact fun t vid ht => nomatch ht
  · exact fun t x hx => nomatch hx
  · exact fun vid ms hms => nomatch hms

/-- Every proposed view is well formed: it has no duplicates and is not empty, and it is
the view of the proposer with one node added at the end or with another node removed. -/
theorem proposals_well_formed (first : Str) (f : Str → Str) (hfirst : IsName first)
    (hf : ∀ m, m ≠ first → f m ≠ m) (acts : List (Str × Act τ)) (u : Sys τ)
    (hrun : run Sys.step (Sys.init first f) acts = some u)
    (hlaw : RunAll Sys.step (Sys.Lawful first) (Sys.init first f : Sys τ) acts) :
    ∀ p ∈ u.proposals, p.Ok := by
  have hinit : (∀ m, ((Sys.init first f : Sys τ).node m).Ok) ∧
      ∀ p ∈ (Sys.init first f : Sys τ).proposals, p.Ok := by
    refine ⟨fun m => ?_, fun p hp => nomatch hp⟩
    simp only [Sys.init]
    split
    · next heq => exact ok_firstNode (heq ▸ hfirst)
    · next hne => exact ok_otherNode (hf m hne)
  have hall := run_invariant_of_all Sys.step (Sys.Lawful first)
    (fun v => (∀ m, (v.node m).Ok) ∧ ∀ p ∈ v.proposals, p.Ok) ?_ _ u acts hinit hlaw hrun
  · exact hall.2
  · intro v a v' hv hl hs
    obtain ⟨⟨n,o⟩,hn,rfl⟩ := Option.map_eq_some_iff.mp hs
    obtain ⟨hok,hprop⟩ := ok_step hfirst hv.2 (hv.1 a.1) hl hn
    refine ⟨fun m => ?_, fun p hp => ?_⟩
    · change (Function.update v.node a.1 n m).Ok
      by_cases hm : m = a.1
      · rw [hm, Function.update_self]
        exact hok
      · rw [Function.update_of_ne hm]
        exact hv.1 m
    · rw [List.mem_append, Option.mem_toList] at hp
      exact hp.elim (hv.2 p) (hprop p)

/-- `b` joins `a`; then `a` does not answer the heartbeat of `b`. -/
def joinAndRemove : List (Str × Act Bool) :=
  [(['a'], .joinreq true ['b']), (['a'], .add true),
    (['a'], .base (.commit false 2 ['a', ' ', 'b', ' '])), (['a'], .base (.upcall false)),
    (['a'], .base (.notify false)), (['b'], .restored [(1, ['a']), (2, ['a', ' ', 'b', ' '])]),
    (['b'], .joined), (['b'], .round), (['b'], .ping false)]

theorem proposals_well_formed_join : ∃ u : Sys Bool,
    run Sys.step (Sys.init ['a'] fun _ => ['a']) joinAndRemove = some u ∧
    u.proposals = [⟨['a'], 2, [['a']], [['a'], ['b']], false⟩,
      ⟨['b'], 3, [['a'], ['b']], [['b']], true⟩] ∧
    ∀ p ∈ u.proposals, p.Ok := by
  have hends : ∃ u : Sys Bool, run Sys.step (Sys.init ['a'] fun _ => ['a']) joinAndRemove = some u ∧
      u.proposals = [⟨['a'], 2, [['a']], [['a'], ['b']], false⟩,
        ⟨['b'], 3, [['a'], ['b']], [['b']], true⟩] := by
    decide +kernel
  obtain ⟨u,hrun,hu⟩ := hends
  refine ⟨u, hrun, hu, ?_⟩
  exact proposals_well_formed ['a'] (fun _ => ['a']) (by decide) (fun m hm => Ne.symm hm)
    joinAndRemove u hrun
    (by decide +kernel)

end Yfs.Views
