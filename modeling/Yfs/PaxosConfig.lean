import Mathlib.Data.Fintype.Basic
import Yfs.Run
import Yfs.Directory

/-! The views of the config module. Paxos commits the members of each view as the value
of an instance; the acceptor tells the config module with an upcall, and this tells the
RSM. The thread that commits has released `pxs_mutex` when it makes the upcall, so that
the upcalls of successive instances can run in any order. -/
namespace Yfs.Paxos

open Yfs.Dir (isSpace)

/-- `values[instance]` of an instance that is not in the map is the empty string. There
is no instance 0. -/
structure Acceptor where
  vA : List Char
  instanceH : ℕ
  values : ℕ → List Char
  values_zero : values 0 = []

structure Config where
  myvid : ℕ
  mems : List (List Char)

/-- `ist >> m` until it fails; `m` is the word that is being read. -/
def words (m : List Char) : List Char → List (List Char)
  | [] => if m = [] then [] else [m]
  | c :: s =>
    if isSpace c = true then if m = [] then words [] s else m :: words [] s
    else words (m ++ [c]) s

def members (value : List Char) : List (List Char) := words [] value

def value (m : List (List Char)) : List Char := m.flatMap fun name => name ++ [' ']

/-- A name that is read back as it was written. -/
def IsName (m : List Char) : Prop := m ≠ [] ∧ ∀ c ∈ m, isSpace c = false

instance (m : List Char) : Decidable (IsName m) :=
  -- not the instance that tries all characters
  have := List.decidableBAll (fun c => isSpace c = false) m
  instDecidableAnd

theorem words_append (m w s : List Char) (hw : ∀ c ∈ w, isSpace c = false) :
    words m (w ++ s) = words (m ++ w) s := by
  induction w generalizing m with
  | nil => simp
  | cons c w ih =>
    obtain ⟨hc,hw⟩ := List.forall_mem_cons.mp hw
    rw [List.cons_append, words, hc, if_neg Bool.false_ne_true, ih _ hw, List.append_assoc]
    rfl

/-- The view of one member that a first node starts with is its name alone. -/
theorem members_name (m : List Char) (hm : IsName m) : members m = [m] := by
  have hwords := words_append [] m [] hm.2
  rw [List.append_nil] at hwords
  rw [members, hwords, List.nil_append, words, if_neg hm.1]

theorem members_value (l : List (List Char)) (hl : ∀ m ∈ l, IsName m) : members (value l) = l := by
  induction l with
  | nil => rfl
  | cons m l ih =>
    obtain ⟨hm,hl⟩ := List.forall_mem_cons.mp hl
    have hrest := ih hl
    rw [members] at hrest
    rw [members, value, List.flatMap_cons, List.append_assoc, words_append _ _ _ hm.2,
      List.nil_append, List.singleton_append, words, if_pos (by decide), if_neg hm.1]
    exact congrArg (m :: ·) hrest

/-- Where a thread is in `commit` or `decidereq`: not in it, before its call of
`paxos_commit`, or before its call of `commit_change`. It holds no mutex there. -/
inductive CommitPc
  | idle
  | upcall (inst : ℕ) (value : List Char)
  | notify (vid : ℕ)

/-- The instance of an upcall that is still to be made. -/
def CommitPc.pending : CommitPc → Option ℕ
  | .upcall inst _ => some inst
  | _ => none

/-- `vc` says whether there is an RSM to be told. -/
structure Node (τ : Type) where
  acc : Acceptor
  cfg : Config
  vc : Bool
  vidCommit : ℕ
  pc : τ → CommitPc

def reconstruct (acc : Acceptor) : Config :=
  if acc.instanceH > 0 then ⟨acc.instanceH, members (acc.values acc.instanceH)⟩ else ⟨0, []⟩

def Acceptor.record (a : Acceptor) (inst : ℕ) (value : List Char) (h : a.instanceH < inst) :
    Acceptor where
  vA := []
  instanceH := inst
  values := Function.update a.values inst value
  values_zero := by
    rw [Function.update_of_ne (by omega), a.values_zero]

inductive Act (τ : Type)
  | commit (t : τ) (inst : ℕ) (value : List Char)
  | decidereq (t : τ) (inst : ℕ) (v : List Char)
  | upcall (t : τ)
  | notify (t : τ)
  deriving DecidableEq

namespace Node

variable {τ : Type} [DecidableEq τ]

def start (acc : Acceptor) (vc : Bool) (vidCommit : ℕ) : Node τ :=
  ⟨acc, reconstruct acc, vc, vidCommit, fun _ => .idle⟩

/-- The thread is on its way to `paxos_commit`. -/
def committed (s : Node τ) (t : τ) (inst : ℕ) (value : List Char) (h : s.acc.instanceH < inst) :
    Node τ :=
  { s with acc := s.acc.record inst value h, pc := Function.update s.pc t (.upcall inst value) }

def commitWo (s : Node τ) (t : τ) (inst : ℕ) (value : List Char) : Node τ :=
  if h : s.acc.instanceH < inst then s.committed t inst value h else s

/-- A request that is ahead of the acceptor, or for another value than it has accepted,
fails a `VERIFY`. -/
def decidereq (s : Node τ) (t : τ) (inst : ℕ) (v : List Char) : Option (Node τ) :=
  if inst = (s.acc.instanceH + 1) % 2^32 then
    if s.acc.vA = v then some (s.commitWo t inst s.acc.vA) else none
  else if inst ≤ s.acc.instanceH then some s
  else none

/-- The part of `paxos_commit` for which `cfg_mutex` is held. -/
def paxosCommit (s : Node τ) (t : τ) (inst : ℕ) (value : List Char) : Node τ :=
  { s with
    cfg := ⟨inst, members value⟩
    pc := Function.update s.pc t (if s.vc = true then .notify inst else .idle) }

/-- `rsm::commit_change` takes no view that is older than the one it has. -/
def commitChange (s : Node τ) (t : τ) (vid : ℕ) : Node τ :=
  { s with
    vidCommit := if vid ≤ s.vidCommit then s.vidCommit else vid
    pc := Function.update s.pc t .idle }

def step (s : Node τ) : Act τ → Option (Node τ)
  | .commit t inst value =>
    match s.pc t with
    | .idle => some (s.commitWo t inst value)
    | _ => none
  | .decidereq t inst v =>
    match s.pc t with
    | .idle => s.decidereq t inst v
    | _ => none
  | .upcall t =>
    match s.pc t with
    | .upcall inst value => some (s.paxosCommit t inst value)
    | _ => none
  | .notify t =>
    match s.pc t with
    | .notify vid => some (s.commitChange t vid)
    | _ => none

def AtRest (s : Node τ) : Prop := ∀ t, s.pc t = .idle

/-- The view is that of the last instance that was committed. -/
def Settled (s : Node τ) : Prop :=
  s.cfg.myvid = s.acc.instanceH ∧ s.cfg.mems = members (s.acc.values s.cfg.myvid)

/-- At this step and in the state before it the view keeps up with Paxos. -/
def ViewLaw (s : Node τ) (a : Act τ) : Prop :=
  (∀ s', s.step a = some s' → s.cfg.myvid ≤ s'.cfg.myvid) ∧ (s.AtRest → s.Settled)

/-- An upcall does not overtake that of an earlier instance. -/
def NotOvertaking (s : Node τ) (a : Act τ) : Prop :=
  ∀ t, a = .upcall t → ∀ i ∈ (s.pc t).pending, ∀ t', ∀ i' ∈ (s.pc t').pending, i ≤ i'

instance [Fintype τ] (s : Node τ) (a : Act τ) : Decidable (s.NotOvertaking a) :=
  inferInstanceAs (Decidable
    (∀ t, a = .upcall t → ∀ i ∈ (s.pc t).pending, ∀ t', ∀ i' ∈ (s.pc t').pending, i ≤ i'))

theorem mem_pending {pc : CommitPc} {i : ℕ} : i ∈ pc.pending ↔ ∃ v, pc = .upcall i v := by
  cases pc <;> simp [CommitPc.pending, eq_comm]

theorem commitWo_cases (s : Node τ) (t : τ) (inst : ℕ) (value : List Char) :
    s.commitWo t inst value = s ∨ ∃ h, s.commitWo t inst value = s.committed t inst value h := by
  unfold commitWo
  split_ifs with h
  · exact .inr ⟨h, rfl⟩
  · exact .inl rfl

theorem step_cases {s s' : Node τ} {a : Act τ} (h : s.step a = some s') :
    s' = s ∨
    (∃ t i v, s.pc t = .idle ∧ ∃ hi, s' = s.committed t i v hi) ∨
    (∃ t i v, a = .upcall t ∧ s.pc t = .upcall i v ∧ s' = s.paxosCommit t i v) ∨
    (∃ t vid, s.pc t = .notify vid ∧ s' = s.commitChange t vid) := by
  have hcommit (t : τ) (i : ℕ) (v : List Char) (ht : s.pc t = .idle) (hs : s' = s.commitWo t i v) :
      s' = s ∨ ∃ t i v, s.pc t = .idle ∧ ∃ hi, s' = s.committed t i v hi := by
    rcases commitWo_cases s t i v with hsame | ⟨hi,hnew⟩
    · exact .inl (hs.trans hsame)
    · exact .inr ⟨t, i, v, ht, hi, hs.trans hnew⟩
  cases a with
  | commit t i v =>
    simp only [step] at h
    split at h
    · next ht =>
      exact (hcommit t i v ht (Option.some.inj h).symm).imp id .inl
    · cases h
  | decidereq t i v =>
    simp only [step] at h
    split at h
    · next ht =>
      unfold decidereq at h
      split_ifs at h
      · exact (hcommit t i _ ht (Option.some.inj h).symm).imp id .inl
      · exact .inl (Option.some.inj h).symm
    · cases h
  | upcall t =>
    simp only [step] at h
    split at h
    · next i v ht =>
      exact .inr (.inr (.inl ⟨t, i, v, rfl, ht, (Option.some.inj h).symm⟩))
    · cases h
  | notify t =>
    simp only [step] at h
    split at h
    · next vid ht =>
      exact .inr (.inr (.inr ⟨t, vid, ht, (Option.some.inj h).symm⟩))
    · cases h

/-- The upcalls that are still to be made are those of the instances after the view. -/
structure ViewOk (s : Node τ) : Prop where
  mems : s.cfg.mems = members (s.acc.values s.cfg.myvid)
  pending : ∀ t i v, s.pc t = .upcall i v →
    s.cfg.myvid < i ∧ i ≤ s.acc.instanceH ∧ s.acc.values i = v
  distinct : ∀ t t' i v v', s.pc t = .upcall i v → s.pc t' = .upcall i v' → t = t'
  latest : s.cfg.myvid = s.acc.instanceH ∨ ∃ t v, s.pc t = .upcall s.acc.instanceH v

omit [DecidableEq τ] in
theorem ViewOk.myvid_le {s : Node τ} (h : s.ViewOk) : s.cfg.myvid ≤ s.acc.instanceH := by
  rcases h.latest with heq | ⟨t,v,ht⟩
  · exact Nat.le_of_eq heq
  · exact (h.pending t _ v ht).1.le

omit [DecidableEq τ] in
theorem ViewOk.settled {s : Node τ} (h : s.ViewOk) (hrest : s.AtRest) : s.Settled := by
  refine ⟨?_, h.mems⟩
  rcases h.latest with heq | ⟨t,v,ht⟩
  · exact heq
  · rw [hrest t] at ht
    cases ht

/-- A thread other than the one that moves, or one whose move is not to its upcall. -/
theorem upcall_of_update {pc : τ → CommitPc} {t u : τ} {new : CommitPc} {i : ℕ} {v : List Char}
    (hnew : new ≠ .upcall i v) (h : Function.update pc t new u = .upcall i v) :
    u ≠ t ∧ pc u = .upcall i v := by
  by_cases hut : u = t
  · subst hut
    rw [Function.update_self] at h
    exact absurd h hnew
  · rw [Function.update_of_ne hut] at h
    exact ⟨hut, h⟩

theorem upcall_update {pc : τ → CommitPc} {t u : τ} {new : CommitPc} {i : ℕ} {v : List Char}
    (ht : pc t = .upcall i v) (hu : pc u ≠ .upcall i v) :
    Function.update pc u new t = .upcall i v := by
  have htu : t ≠ u := by
    rintro rfl
    exact hu ht
  rw [Function.update_of_ne htu, ht]

theorem ViewOk.committed {s : Node τ} (h : s.ViewOk) {t : τ} (ht : s.pc t = .idle) {i : ℕ}
    (hi : s.acc.instanceH < i) (v : List Char) : (s.committed t i v hi).ViewOk := by
  have hle := h.myvid_le
  -- the instances of the other upcalls are not above the one before this
  have hold (u : τ) (j : ℕ) (w : List Char) (hu : (s.committed t i v hi).pc u = .upcall j w) :
      (u = t ∧ j = i ∧ w = v) ∨ (u ≠ t ∧ s.pc u = .upcall j w ∧ j < i) := by
    by_cases hut : u = t
    · subst hut
      have heq : CommitPc.upcall i v = .upcall j w := by
        simpa [Node.committed] using hu
      cases heq
      exact .inl ⟨rfl, rfl, rfl⟩
    · have hu' : s.pc u = .upcall j w := by simpa [Node.committed, hut] using hu
      exact .inr ⟨hut, hu', (h.pending u j w hu').2.1.trans_lt hi⟩
  refine ⟨?_, ?_, ?_, ?_⟩
  · change s.cfg.mems = members (Function.update s.acc.values i v s.cfg.myvid)
    rw [Function.update_of_ne (by omega)]
    exact h.mems
  · intro u j w hu
    rcases hold u j w hu with ⟨rfl,rfl,rfl⟩ | ⟨hut,hu',hj⟩
    · exact ⟨hle.trans_lt hi, Nat.le_refl _, Function.update_self ..⟩
    · obtain ⟨h1,_,h3⟩ := h.pending u j w hu'
      refine ⟨h1, hj.le, ?_⟩
      change Function.update s.acc.values i v j = w
      rw [Function.update_of_ne hj.ne, h3]
  · intro u u' j w w' hu hu'
    rcases hold u j w hu with ⟨rfl,rfl,_⟩ | ⟨_,hu1,hj⟩ <;>
      rcases hold u' _ w' hu' with ⟨rfl,hj',_⟩ | ⟨_,hu1',hj'⟩
    · rfl
    · omega
    · omega
    · exact h.distinct u u' j w w' hu1 hu1'
  · refine .inr ⟨t, v, ?_⟩
    change Function.update s.pc t _ t = _
    rw [Function.update_self]
    rfl

/-- The upcall of the earliest instance that is pending. -/
theorem ViewOk.paxosCommit {s : Node τ} (h : s.ViewOk) {t : τ} {i : ℕ} {v : List Char}
    (ht : s.pc t = .upcall i v) (hfirst : ∀ t', ∀ i' ∈ (s.pc t').pending, i ≤ i') :
    (s.paxosCommit t i v).ViewOk := by
  obtain ⟨hlt,hle,hval⟩ := h.pending t i v ht
  have hnew (j : ℕ) (w : List Char) :
      (if s.vc = true then CommitPc.notify i else .idle) ≠ .upcall j w := by
    split_ifs <;> exact CommitPc.noConfusion
  refine ⟨?_, ?_, ?_, ?_⟩
  · change members v = members (s.acc.values i)
    rw [hval]
  · intro u j w hu
    obtain ⟨hut,hu'⟩ := upcall_of_update (hnew j w) hu
    obtain ⟨_,h2,h3⟩ := h.pending u j w hu'
    refine ⟨lt_of_le_of_ne (hfirst u j (mem_pending.mpr ⟨w, hu'⟩)) ?_, h2, h3⟩
    intro hij
    change i = j at hij
    subst hij
    exact hut (h.distinct u t i w v hu' ht)
  · intro u u' j w w' hu hu'
    exact h.distinct u u' j w w' (upcall_of_update (hnew j w) hu).2
      (upcall_of_update (hnew j w') hu').2
  · change i = s.acc.instanceH ∨ ∃ u w, Function.update s.pc t _ u = .upcall s.acc.instanceH w
    by_cases hi : i = s.acc.instanceH
    · exact .inl hi
    · -- the last instance is pending for another thread
      rcases h.latest with heq | ⟨u,w,hu⟩
      · omega
      · refine .inr ⟨u, w, upcall_update hu ?_⟩
        rw [ht]
        intro heq
        cases heq
        exact hi rfl

theorem ViewOk.commitChange {s : Node τ} (h : s.ViewOk) {t : τ} {vid : ℕ}
    (ht : s.pc t = .notify vid) :
    (s.commitChange t vid).ViewOk := by
  have hold (u : τ) (j : ℕ) (w : List Char) (hu : (s.commitChange t vid).pc u = .upcall j w) :
      s.pc u = .upcall j w := (upcall_of_update CommitPc.noConfusion hu).2
  refine ⟨h.mems, fun u j w hu => h.pending u j w (hold u j w hu),
    fun u u' j w w' hu hu' => h.distinct u u' j w w' (hold u j w hu) (hold u' j w' hu'), ?_⟩
  apply h.latest.imp id
  rintro ⟨u,w,hu⟩
  exact ⟨u, w, upcall_update hu (by simp [ht])⟩

theorem ViewOk.step {s s' : Node τ} {a : Act τ} (h : s.ViewOk) (hin : s.NotOvertaking a)
    (hstep : s.step a = some s') : s'.ViewOk ∧ s.cfg.myvid ≤ s'.cfg.myvid := by
  rcases step_cases hstep with rfl | ⟨t,i,v,ht,hi,rfl⟩ | ⟨t,i,v,ha,ht,rfl⟩ | ⟨t,vid,ht,rfl⟩
  · exact ⟨h, Nat.le_refl _⟩
  · exact ⟨h.committed ht hi v, Nat.le_refl _⟩
  · exact ⟨h.paxosCommit ht (hin t ha i (mem_pending.mpr ⟨v, ht⟩)), (h.pending t i v ht).1.le⟩
  · exact ⟨h.commitChange ht, Nat.le_refl _⟩

omit [DecidableEq τ] in
theorem viewOk_start (acc : Acceptor) (vc : Bool) (vidCommit : ℕ) :
    (start acc vc vidCommit : Node τ).ViewOk := by
  have hview : (reconstruct acc).myvid = acc.instanceH ∧
      (reconstruct acc).mems = members (acc.values (reconstruct acc).myvid) := by
    unfold reconstruct
    split_ifs with hpos
    · exact ⟨rfl, rfl⟩
    · refine ⟨show 0 = acc.instanceH by omega, ?_⟩
      change [] = members (acc.values 0)
      rw [acc.values_zero]
      rfl
  refine ⟨hview.2, ?_, ?_, .inl hview.1⟩
  · intro t i v ht
    cases ht
  · intro t t' i v v' ht
    cases ht

/-- An upcall that has been overtaken cannot be made any more without a step back. -/
theorem overtaken_stays {s s' : Node τ} {a : Act τ} {t : τ} {i : ℕ} {v : List Char}
    (h : i < s.cfg.myvid ∧ s.pc t = .upcall i v) (hlaw : s.ViewLaw a) (hstep : s.step a = some s') :
    i < s'.cfg.myvid ∧ s'.pc t = .upcall i v := by
  have hmono := hlaw.1 s' hstep
  refine ⟨h.1.trans_le hmono, ?_⟩
  rcases step_cases hstep with rfl | ⟨u,j,w,hu,hj,rfl⟩ | ⟨u,j,w,_,hu,rfl⟩ | ⟨u,vid,hu,rfl⟩
  · exact h.2
  · exact upcall_update h.2 (by simp [hu])
  · -- the thread's own upcall would take the view back
    apply upcall_update h.2
    intro hu'
    cases hu.symm.trans hu'
    change s.cfg.myvid ≤ i at hmono
    omega
  · exact upcall_update h.2 (by simp [hu])

theorem notOvertaking_of_viewLaw (acts : List (Act τ)) (s last : Node τ)
    (hrun : run step s acts = some last) (hrest : last.AtRest) (hlaw : RunAll step ViewLaw s acts) :
    RunAll step NotOvertaking s acts := by
  induction acts generalizing s with
  | nil => trivial
  | cons a acts ih =>
    obtain ⟨s',hs',hrun'⟩ := run_cons_some step s last a acts hrun
    refine ⟨?_, fun s1 hs1 => ?_⟩
    · rintro t rfl i hi t' i' hi'
      obtain ⟨v,ht⟩ := mem_pending.mp hi
      obtain ⟨v',ht'⟩ := mem_pending.mp hi'
      by_contra hlt
      -- from here on `t'` can never make its upcall
      have hne : s.pc t ≠ .upcall i' v' := by
        rw [ht]
        intro heq
        cases heq
        exact hlt (Nat.le_refl _)
      have hs1 : s' = s.paxosCommit t i v := by
        simp only [step, ht] at hs'
        exact (Option.some.inj hs').symm
      have h0 : i' < s'.cfg.myvid ∧ s'.pc t' = .upcall i' v' := by
        rw [hs1]
        exact ⟨not_le.mp hlt, upcall_update ht' hne⟩
      have hend := run_invariant_of_all step ViewLaw
        (fun s => i' < s.cfg.myvid ∧ s.pc t' = .upcall i' v')
        (fun s a s' h hl hs => overtaken_stays h hl hs) s' last acts h0 (hlaw.2 s' hs') hrun'
      rw [hrest t'] at hend
      cases hend.2
    · have heq : s1 = s' := Option.some.inj (hs1.symm.trans hs')
      rw [heq]
      exact ih s' hrun' (hlaw.2 s' hs')

/-- Where no upcall overtakes that of an earlier instance, `myvid` never decreases, and
whenever no upcall is in progress the view is that of the last instance. Over a run
that ends with no upcall in progress nothing less is enough. -/
theorem view_follows_paxos (acc : Acceptor) (vc : Bool) (vidCommit : ℕ) (acts : List (Act τ))
    (s : Node τ) (hrun : run step (start acc vc vidCommit) acts = some s) :
    (RunAll step NotOvertaking (start acc vc vidCommit) acts →
      RunAll step ViewLaw (start acc vc vidCommit) acts ∧ (s.AtRest → s.Settled)) ∧
    (s.AtRest → RunAll step ViewLaw (start acc vc vidCommit) acts →
      RunAll step NotOvertaking (start acc vc vidCommit) acts) := by
  have hstep : ∀ (s : Node τ) (a : Act τ) (s' : Node τ), s.ViewOk → s.NotOvertaking a →
      s.step a = some s' → s'.ViewOk := fun s a s' h hin hs => (h.step hin hs).1
  have h0 : (start acc vc vidCommit : Node τ).ViewOk := viewOk_start acc vc vidCommit
  refine ⟨fun hin => ⟨?_, ?_⟩, fun hrest => notOvertaking_of_viewLaw acts _ s hrun hrest⟩
  · apply runAll_of_all step NotOvertaking ViewLaw ViewOk hstep _ _ acts h0 hin
    intro s a h hin
    exact ⟨fun s' hs => (h.step hin hs).2, h.settled⟩
  · exact (run_invariant_of_all step NotOvertaking ViewOk hstep _ s acts h0 hin hrun).settled

end Node

/-- A node whose log ends with instance 1. -/
def firstView : Acceptor where
  vA := []
  instanceH := 1
  values := Function.update (fun _ => []) 1 ['a', ' ']
  values_zero := rfl

/-- Two threads commit instances 2 and 3, and make their upcalls in order. -/
def inOrder : List (Act Bool) :=
  [.commit false 2 ['a', ' ', 'b', ' '], .commit true 3 ['b', ' '], .upcall false, .notify false,
   .upcall true, .notify true]

theorem view_follows_paxos_in_order :
    ∃ s, run Node.step (Node.start firstView true 1 : Node Bool) inOrder = some s ∧
      s.AtRest ∧ s.cfg.myvid = 3 ∧ s.Settled := by
  refine ⟨_, rfl, ?_, rfl, ?_⟩
  · intro t
    cases t <;> rfl
  · have hin : RunAll Node.step Node.NotOvertaking (Node.start firstView true 1 : Node Bool)
        inOrder := by
      decide
    apply ((Node.view_follows_paxos firstView true 1 inOrder _ rfl).1 hin).2
    intro t
    cases t <;> rfl

/-- The upcall of instance 3 overtakes that of instance 2. -/
def overtaken : List (Act Bool) :=
  [.commit false 2 ['a', ' ', 'b', ' '], .commit true 3 ['b', ' '], .upcall true, .upcall false,
   .notify true, .notify false]

/-- The view ends at instance 2, with a member that instance 3 has removed; the RSM has
gone on to 3. -/
theorem view_goes_back :
    ∃ s, run Node.step (Node.start firstView true 1 : Node Bool) overtaken = some s ∧
      s.AtRest ∧ s.acc.instanceH = 3 ∧ s.cfg.myvid = 2 ∧ s.vidCommit = 3 ∧
      s.cfg.mems = [['a'], ['b']] ∧ members (s.acc.values s.acc.instanceH) = [['b']] ∧
      ¬ RunAll Node.step Node.ViewLaw (Node.start firstView true 1 : Node Bool) overtaken := by
  refine ⟨_, rfl, ?_, rfl, rfl, rfl, by decide, by decide, ?_⟩
  · intro t
    cases t <;> rfl
  · intro hlaw
    -- the fourth step takes the view from 3 to 2
    have hback := runAll_at Node.step Node.ViewLaw _ _ (overtaken.take 3) _ (.upcall false) hlaw rfl
    have hle := hback.1 _ rfl
    revert hle
    decide

end Yfs.Paxos
