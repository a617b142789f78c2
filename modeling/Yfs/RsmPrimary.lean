import Mathlib.Data.List.Range
import Yfs.Rsm

namespace Yfs.Rsm

open Dir (Str)

/-- One totally ordered history of views. -/
structure History (first : Str) (view : ℕ → List Str) : Prop where
  first : view 1 = [first]
  next : ∀ v, 1 ≤ v → (∃ m, m ∉ view v ∧ view (v + 1) = view v ++ [m]) ∨
    ∃ m ∈ view v, view (v + 1) = (view v).filter (· ≠ m)
  nonempty : ∀ v, 1 ≤ v → view v ≠ []

/-- The primary of each view for a node that has seen them all. -/
def primaryOf (first : Str) (view : ℕ → List Str) : ℕ → Str
  | 0 => first
  | 1 => first
  | v + 2 =>
    if primaryOf first view (v + 1) ∈ view (v + 2) then primaryOf first view (v + 1)
    else ((view (v + 1)).find? (· ∈ view (v + 2))).getD first

variable {first : Str} {view : ℕ → List Str}

theorem primaryOf_mem (h : History first view) (v : ℕ) :
    primaryOf first view (v + 1) ∈ view (v + 1) ∧
      primaryOf first view (v + 2) ∈ view (v + 2) ∧
      primaryOf first view (v + 2) ∈ view (v + 1) := by
  -- one view further, from a primary that is a member
  have hnext : ∀ v, primaryOf first view (v + 1) ∈ view (v + 1) →
      primaryOf first view (v + 2) ∈ view (v + 2) ∧
        primaryOf first view (v + 2) ∈ view (v + 1) := by
    intro v hv
    rw [primaryOf]
    split
    · next hstay => exact ⟨hstay, hv⟩
    · next hgone =>
      rcases h.next (v + 1) (by omega) with ⟨m,_,heq⟩ | ⟨m,_,heq⟩
      · exact absurd (heq ▸ List.mem_append_left _ hv) hgone
      · -- one member has left, and the view is not empty
        obtain ⟨x,hx⟩ := List.exists_mem_of_ne_nil _ (h.nonempty (v + 2) (by omega))
        have hold : x ∈ view (v + 1) := by
          rw [heq] at hx
          exact List.mem_of_mem_filter hx
        cases hfind : (view (v + 1)).find? (· ∈ view (v + 2)) with
        | none => exact absurd hx (by simpa using List.find?_eq_none.mp hfind x hold)
        | some y => exact ⟨by simpa using List.find?_some hfind, List.mem_of_find?_eq_some hfind⟩
  have hmem : primaryOf first view (v + 1) ∈ view (v + 1) := by
    induction v with
    | zero =>
      rw [h.first]
      exact List.mem_singleton_self _
    | succ v ih => exact (hnext v ih).1
  exact ⟨hmem, hnext v hmem⟩

/-- `latest` is the last view that has been decided. `reply` is the log that a join of a
node has been answered with. -/
structure Group where
  latest : ℕ
  node : Str → Option Node
  reply : Str → Option (Finset ℕ)

inductive GroupAct
  | decide
  | start (m first : Str) (vidInsync : ℕ)
  | act (m : Str) (a : Act)
  | joinreq (m : Str) (vid : ℕ)
  deriving DecidableEq

/-- The answer to a join is used, or given up. -/
def Act.answered : Act → Bool
  | .joined _ _ => true
  | .joinFailed => true
  | _ => false

namespace Group

def init : Group := ⟨1, fun _ => none, fun _ => none⟩

/-- What a node finds in its log when it starts. The first node starts the log, and no
other history of views than the group's. -/
def logAtStart (view : ℕ → List Str) (s : Group) (m first : Str) : Option (Finset ℕ) :=
  let known := (s.node m).elim ∅ Node.known
  if known = ∅ ∧ m = first then (if view 1 = [m] then some {1} else none) else some known

/-- What the acceptor and the config module of the node may do. -/
def Allowed (s : Group) (m : Str) (n : Node) : Act → Prop
  | .record vid => 1 ≤ vid ∧ vid ≤ s.latest
  | .commitChange vid => vid ∈ n.known
  | .joined log vid => s.reply m = some log ∧ vid ∈ n.known ∪ log
  | _ => True

instance (s : Group) (m : Str) (n : Node) (a : Act) : Decidable (s.Allowed m n a) := by
  unfold Allowed
  cases a <;> infer_instance

/-- A node is (re)started with any member of the current view. A join is answered by the
node that it was sent to: with the log if the node that joins is a member of its view, or
if it is the primary and has added it; any other answer is BUSY. -/
def step (view : ℕ → List Str) (s : Group) : GroupAct → Option Group
  | .decide => some { s with latest := s.latest + 1 }
  | .start m first vidInsync =>
    if first ∈ view s.latest then
      (s.logAtStart view m first).bind fun known =>
        (Node.start view first m known vidInsync).map fun n =>
          { s with
            node := Function.update s.node m (some n), reply := Function.update s.reply m none }
    else none
  | .act m a => (s.node m).bind fun n =>
    if s.Allowed m n a then (n.step view a).map fun n' =>
      { s with
        node := Function.update s.node m (some n')
        reply := if a.answered = true then Function.update s.reply m none else s.reply }
    else none
  | .joinreq m vid => (s.node m).bind fun n =>
    match n.pc with
    | .joining r => (s.node r).bind fun n' =>
      if n'.pc ≠ .check ∧ m ∈ getView view n'.known vid ∧
        (vid = n'.vidCommit ∨ n'.primary = n'.me) then
        some { s with reply := Function.update s.reply m (some n'.known) }
      else none
    | _ => none

end Group

/-- The node knows the primary of its view. -/
structure Node.Agrees (first : Str) (view : ℕ → List Str) (n : Node) : Prop where
  primary : 1 ≤ n.vidCommit → n.primary = primaryOf first view n.vidCommit
  known : 1 ≤ n.vidCommit → n.vidCommit ∈ n.known

/-- The view follows the one that the node has, or the node happens to know its primary
already. -/
def Node.InOrder (first : Str) (view : ℕ → List Str) (n : Node) (vid : ℕ) : Prop :=
  n.vidCommit < vid → 1 ≤ n.vidCommit ∧ vid = n.vidCommit + 1 ∨ n.primary = primaryOf first view vid

instance (first : Str) (view : ℕ → List Str) (n : Node) (vid : ℕ) :
    Decidable (n.InOrder first view vid) := by
  unfold Node.InOrder
  infer_instance

variable {n n' : Node}

theorem setPrimary_mem {primary p : Str} {c q : List Str} (h : setPrimary primary c q = some p) :
    p ∈ c := by
  unfold setPrimary at h
  split at h
  · cases h
  · split at h
    · next hmem =>
      cases h
      exact hmem
    · split at h
      · cases h
      · simpa using List.find?_some h

theorem setPrimary_stays {primary : Str} {c q : List Str} (h : primary ∈ c) :
    setPrimary primary c q = some primary := by
  unfold setPrimary
  rw [if_neg (List.ne_nil_of_mem h), if_pos h]

theorem setPrimary_next {v : ℕ} {p : Str}
    (h : setPrimary (primaryOf first view (v + 1)) (view (v + 2)) (view (v + 1)) = some p) :
    p = primaryOf first view (v + 2) := by
  rw [primaryOf]
  unfold setPrimary at h
  split at h
  · cases h
  · split at h
    · next hmem =>
      rw [if_pos hmem]
      exact (Option.some.inj h).symm
    · next hmem =>
      split at h
      · cases h
      · rw [if_neg hmem, h]
        rfl

theorem getView_of_mem {known : Finset ℕ} {vid : ℕ} (h : vid ∈ known) :
    getView view known vid = view vid :=
  if_pos h

theorem agrees_commitChangeWo (hist : History first view) {vid : ℕ} (h : n.Agrees first view)
    (hord : n.InOrder first view vid) (hc : n.commitChangeWo view vid = some n') :
    n'.Agrees first view := by
  rcases commitChangeWo_cases hc with rfl | ⟨hlt,p,hp,rfl⟩
  · exact h
  have hmem := setPrimary_mem hp
  have hknown : vid ∈ n.known := (mem_getView.mp hmem).1
  rw [getView_of_mem hknown] at hp
  refine ⟨fun _ => ?_, fun _ => hknown⟩
  change p = primaryOf first view vid
  rcases hord hlt with ⟨h1,rfl⟩ | hjump
  · -- the view before it is known
    obtain ⟨v,hv⟩ := Nat.exists_eq_add_of_le' h1
    rw [h.primary h1, Nat.add_sub_cancel, getView_of_mem (h.known h1), hv] at hp
    rw [hv]
    exact setPrimary_next hp
  · obtain ⟨v,rfl⟩ := Nat.exists_eq_add_of_le' (Nat.one_le_of_lt hlt)
    rw [hjump, setPrimary_stays (primaryOf_mem hist v).1] at hp
    exact (Option.some.inj hp).symm

theorem agrees_of_same (h : n.Agrees first view) (hvid : n'.vidCommit = n.vidCommit)
    (hprimary : n'.primary = n.primary) (hknown : n.known ⊆ n'.known) : n'.Agrees first view := by
  refine ⟨fun h1 => ?_, fun h1 => ?_⟩
  · rw [hprimary, hvid]
    exact h.primary (hvid ▸ h1)
  · rw [hvid]
    exact hknown (h.known (hvid ▸ h1))

theorem checkMember_same (view : ℕ → List Str) (n : Node) :
    (n.checkMember view).vidCommit = n.vidCommit ∧
    (n.checkMember view).primary = n.primary ∧ (n.checkMember view).known = n.known := by
  unfold Node.checkMember
  split
  · split
    · exact ⟨rfl, rfl, rfl⟩
    · exact ⟨rfl, rfl, rfl⟩
  · exact ⟨rfl, rfl, rfl⟩

theorem syncDone_same (n : Node) : n.syncDone.vidCommit = n.vidCommit ∧
    n.syncDone.primary = n.primary ∧ n.syncDone.known = n.known := by
  unfold Node.syncDone
  split
  · exact ⟨rfl, rfl, rfl⟩
  · exact ⟨rfl, rfl, rfl⟩

theorem agrees_step (hist : History first view) {a : Act} (h : n.Agrees first view)
    (hord : ∀ vid ∈ a.commits, n.InOrder first view vid) (hs : n.Step view a n') :
    n'.Agrees first view := by
  cases hs with
  | record vid => exact agrees_of_same h rfl rfl (Finset.subset_insert _ _)
  | commitChange vid _ hc => exact agrees_commitChangeWo hist h (hord vid rfl) hc
  | lock => exact agrees_of_same h rfl rfl (Finset.Subset.refl _)
  | check =>
    obtain ⟨hvid,hprimary,hknown⟩ := checkMember_same view n
    exact agrees_of_same h hvid hprimary (by rw [hknown])
  | joined log vid u hu =>
    have hlog : Node.Agrees first view { n with known := n.known ∪ log } :=
      agrees_of_same h rfl rfl Finset.subset_union_left
    have hu' := agrees_commitChangeWo hist hlog (hord vid rfl) hu
    exact agrees_of_same hu' rfl rfl (Finset.Subset.refl _)
  | joinFailed => exact agrees_of_same h rfl rfl (Finset.Subset.refl _)
  | syncDone _ =>
    obtain ⟨hvid,hprimary,hknown⟩ := syncDone_same n
    exact agrees_of_same h hvid hprimary (by rw [hknown])
  | wake => exact agrees_of_same h rfl rfl (Finset.Subset.refl _)

theorem agrees_start (hist : History first view) {f m : Str} {known : Finset ℕ} {vidInsync : ℕ}
    (h : Node.start view f m known vidInsync = some n) : n.Agrees first view := by
  have hboot : (Node.boot f m known vidInsync).Agrees first view :=
    ⟨fun h1 => absurd h1 (Nat.not_succ_le_zero 0), fun h1 => absurd h1 (Nat.not_succ_le_zero 0)⟩
  unfold Node.start at h
  split at h
  · rcases commitChangeWo_cases h with rfl | ⟨_,p,hp,rfl⟩
    · exact hboot
    · obtain ⟨hknown,hmem⟩ := mem_getView.mp (setPrimary_mem hp)
      rw [hist.first, List.mem_singleton] at hmem
      exact ⟨fun _ => hmem, fun _ => hknown⟩
  · exact Option.some.inj h ▸ hboot

/-- Every view is committed in its turn, or to a node that knows its primary. -/
def Group.InOrder (first : Str) (view : ℕ → List Str) (s : Group) : GroupAct → Prop
  | .act m a => ∀ n ∈ s.node m, ∀ vid ∈ a.commits, n.InOrder first view vid
  | _ => True

instance (first : Str) (view : ℕ → List Str) (s : Group) (a : GroupAct) :
    Decidable (s.InOrder first view a) := by
  unfold Group.InOrder
  cases a <;> infer_instance

theorem group_step (hist : History first view) {s s' : Group} {a : GroupAct}
    (h : ∀ m n, s.node m = some n → n.Agrees first view) (hord : s.InOrder first view a)
    (hs : s.step view a = some s') : ∀ m n, s'.node m = some n → n.Agrees first view := by
  cases a with
  | decide =>
    cases hs
    exact h
  | start m f vidInsync =>
    simp only [Group.step] at hs
    split at hs
    · obtain ⟨known,_,hs⟩ := Option.bind_eq_some_iff.mp hs
      obtain ⟨n,hn,rfl⟩ := Option.map_eq_some_iff.mp hs
      exact forall_update_some (agrees_start hist hn) h
    · cases hs
  | act m a =>
    obtain ⟨n,hn,hs⟩ := Option.bind_eq_some_iff.mp hs
    split at hs
    · obtain ⟨n',hn',rfl⟩ := Option.map_eq_some_iff.mp hs
      exact forall_update_some (agrees_step hist (h m n hn) (hord n hn) (step_inv hn')) h
    · cases hs
  | joinreq m vid =>
    obtain ⟨n,hn,hs⟩ := Option.bind_eq_some_iff.mp hs
    split at hs
    · obtain ⟨n',hn',hs⟩ := Option.bind_eq_some_iff.mp hs
      split at hs
      · cases hs
        exact h
      · cases hs
    · cases hs

/-- Agreement on the primary, when every view is committed in its turn or to a node that
knows its primary: nodes in the same view have the same primary, and it is a member of
that view and of the one before. -/
theorem primary_agreement (hist : History first view) (acts : List GroupAct) (s : Group)
    (hrun : run (Group.step view) .init acts = some s)
    (hord : RunAll (Group.step view) (Group.InOrder first view) .init acts) (m m' : Str)
    (hm : s.node m = some n) (hm' : s.node m' = some n') (hvid : n.vidCommit = n'.vidCommit)
    (hone : 1 ≤ n.vidCommit) :
    n.primary = n'.primary ∧ (2 ≤ n.vidCommit →
      n.primary ∈ view n.vidCommit ∧ n.primary ∈ view (n.vidCommit - 1)) := by
  have hall := run_invariant_of_all (Group.step view) (Group.InOrder first view)
    (fun u => ∀ m n, u.node m = some n → n.Agrees first view)
    (fun u a u' hu hP hs => group_step hist hu hP hs) .init s acts (fun m n hn => nomatch hn) hord
      hrun
  have hn := (hall m n hm).primary hone
  have hn' := (hall m' n' hm').primary (hvid ▸ hone)
  refine ⟨by rw [hn, hn', hvid], fun htwo => ?_⟩
  obtain ⟨v,hv⟩ := Nat.exists_eq_add_of_le' htwo
  obtain ⟨_,hnew,hold⟩ := primaryOf_mem hist v
  rw [hn, hv]
  exact ⟨hnew, hold⟩

/-- Node `i` joins in view `i`. -/
def nameOf (i : ℕ) : Str := List.replicate i 'a'

def growing (vid : ℕ) : List Str := (List.range' 1 vid).map nameOf

theorem growing_history : History (nameOf 1) growing := by
  refine ⟨rfl, fun v _ => Or.inl ⟨nameOf (v + 1), ?_, ?_⟩, fun v hv => ?_⟩
  · intro hmem
    obtain ⟨i,hi,heq⟩ := List.mem_map.mp hmem
    have hlen := congrArg List.length heq
    simp only [nameOf, List.length_replicate] at hlen
    rw [List.mem_range'_1] at hi
    omega
  · rw [growing, List.range'_concat, List.map_append, growing]
    simp [Nat.add_comm]
  · intro hnil
    have hlen := congrArg List.length hnil
    simp [growing] at hlen
    omega

/-- Node `i` is started with node `f` and joins view `vid` through it. -/
def joinActs (i f vid : ℕ) (log : Finset ℕ) : List GroupAct :=
  [.start (nameOf i) (nameOf f) 0, .act (nameOf i) .lock, .act (nameOf i) .check,
    .joinreq (nameOf i) vid, .act (nameOf i) (.joined log vid), .act (nameOf i) .check]

def nextView (i vid : ℕ) : List GroupAct :=
  [.act (nameOf i) (.record vid), .act (nameOf i) (.commitChange vid)]

/-- Node 1 starts, and node 2 joins. -/
def groupOfTwo : List GroupAct :=
  [.start (nameOf 1) (nameOf 1) 0, .decide] ++ nextView 1 2 ++ joinActs 2 1 2 {1, 2}

def vidAndPrimary (s : Group) (i : ℕ) : Option (ℕ × Str) :=
  (s.node (nameOf i)).map fun n => (n.vidCommit, n.primary)

theorem node_of_vidAndPrimary {s : Group} {i vid : ℕ} {p : Str}
    (h : vidAndPrimary s i = some (vid, p)) :
    ∃ n, s.node (nameOf i) = some n ∧ n.vidCommit = vid ∧ n.primary = p := by
  obtain ⟨n,hn,heq⟩ := Option.map_eq_some_iff.mp h
  obtain ⟨rfl,rfl⟩ := Prod.mk.inj heq
  exact ⟨n, hn, rfl, rfl⟩

theorem primary_agreement_two : ∃ s n n', run (Group.step growing) .init groupOfTwo = some s ∧
    s.node (nameOf 1) = some n ∧ s.node (nameOf 2) = some n' ∧ n.vidCommit = 2 ∧
    n.primary = n'.primary ∧ n.primary ∈ growing 2 ∧ n.primary ∈ growing 1 := by
  have hends : ∃ s, run (Group.step growing) .init groupOfTwo = some s ∧
      vidAndPrimary s 1 = some (2, nameOf 1) ∧ vidAndPrimary s 2 = some (2, nameOf 1) := by
    decide +kernel
  obtain ⟨s,hrun,h1,h2⟩ := hends
  obtain ⟨n,hn,hvid,_⟩ := node_of_vidAndPrimary h1
  obtain ⟨n',hn',hvid',_⟩ := node_of_vidAndPrimary h2
  have hagree := primary_agreement growing_history groupOfTwo s hrun (by decide +kernel) (nameOf 1)
    (nameOf 2)
    hn hn' (hvid.trans hvid'.symm) (by omega)
  obtain ⟨hold,hnew⟩ := hagree.2 (by omega)
  rw [hvid] at hold hnew
  exact ⟨s, n, n', hrun, hn, hn', hvid, hagree.1, hold, hnew⟩

/-- Node 3 joins, fails, and is started again with node 2 instead of node 1. -/
def restartedElsewhere : List GroupAct :=
  groupOfTwo ++ .decide :: (nextView 1 3 ++ nextView 2 3 ++ joinActs 3 1 3 {1, 2, 3} ++
    joinActs 3 2 3 {1, 2, 3})

/-- All nodes are in view 3; node 1 is the primary for itself and for node 2, but for
node 3 it is node 2. -/
theorem primaries_differ : ∃ s n n', run (Group.step growing) .init restartedElsewhere = some s ∧
    s.node (nameOf 1) = some n ∧ s.node (nameOf 3) = some n' ∧ n.vidCommit = 3 ∧ n'.vidCommit = 3 ∧
    n.primary = nameOf 1 ∧ n'.primary = nameOf 2 := by
  have hends : ∃ s, run (Group.step growing) .init restartedElsewhere = some s ∧
      vidAndPrimary s 1 = some (3, nameOf 1) ∧ vidAndPrimary s 3 = some (3, nameOf 2) := by
    decide +kernel
  obtain ⟨s,hrun,h1,h3⟩ := hends
  obtain ⟨n,hn,hvid,hp⟩ := node_of_vidAndPrimary h1
  obtain ⟨n',hn',hvid',hp'⟩ := node_of_vidAndPrimary h3
  exact ⟨s, n, n', hrun, hn, hn', hvid, hvid', hp, hp'⟩

end Yfs.Rsm
