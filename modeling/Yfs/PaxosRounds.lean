import Mathlib.Algebra.Group.Nat.Defs
import Yfs.Heartbeats
import Yfs.PaxosLog

/-! The rounds of the proposers. `proposer::run` holds `pxs_mutex` from its first to its last
statement, and `isrunning` takes it, too. The proposal number is made from the acceptor's `n_h`,
which `setn` reads twice and without the acceptor's mutex. `n_h` is what `logread` has left until a
commit sets it to zero. -/
namespace Yfs.Views

open Dir (Str)
open Paxos (PropT)

/-- Where `run` is: `setn` has compared, and will take the acceptor's number or not, or the number
is set and the phases of the round are on. -/
inductive RoundPc
  | compared (acceptors : Bool)
  | proposing
  deriving DecidableEq

/-- A node: `myvid` of its config, `n_h` of its acceptor, and the proposer with the thread that
holds `pxs_mutex`. -/
structure Proposer (τ : Type) where
  me : Str
  myvid : ℕ
  nH : PropT
  stable : Bool
  myN : ℕ
  inside : Option (τ × RoundPc)

/-- `commit` is what `commit_wo` does to `n_h`, and `view` what an upcall does to `myvid`. -/
inductive RoundAct (τ : Type)
  | run (t : τ)
  | setn (t : τ)
  | finish (t : τ)
  | heartbeat (vid : ℕ)
  | commit
  | view (vid : ℕ)

/-- The number of a round, a call of `run` that returns at once, and a heartbeat that is answered or
ends the process. -/
inductive RoundEv
  | number (n : PropT)
  | already
  | answered (myvid vid : ℕ) (ret : ℤ)
  | aborted
  deriving DecidableEq

namespace Proposer

variable {τ : Type} [DecidableEq τ]

def start (me : Str) (myvid : ℕ) (nH : PropT) : Proposer τ := ⟨me, myvid, nH, true, 0, none⟩

/-- The number that `setn` stores. -/
def nextN (s : Proposer τ) (acceptors : Bool) : ℕ :=
  if acceptors = true then (s.nH.n + 1) % 2^32 else (s.myN + 1) % 2^32

/-- `heartbeat` with `isrunning`, which waits for `pxs_mutex` where it is called. -/
def heartbeat (s : Proposer τ) (vid : ℕ) : Option RoundEv :=
  if vid ≠ s.myvid ∧ s.inside ≠ none then none
  else match Views.heartbeat s.myvid (!s.stable) vid with
    | none => some .aborted
    | some (ret, _) => some (.answered s.myvid vid ret)

def step (s : Proposer τ) : RoundAct τ → Option (Proposer τ × List RoundEv)
  | .run t =>
    if s.inside ≠ none then none
    else if s.stable = false then some (s, [.already])
    else some ({ s with
      stable := false
      inside := some (t, .compared (decide ((s.nH.n + 1) % 2^32 > (s.myN + 1) % 2^32))) }, [])
  | .setn t =>
    match s.inside with
    | some (u, .compared acceptors) =>
      if u = t then some ({ s with myN := s.nextN acceptors, inside := some (t, .proposing) },
        [.number ⟨s.nextN acceptors, s.me⟩])
      else none
    | _ => none
  | .finish t =>
    if s.inside = some (t, .proposing) then some ({ s with stable := true, inside := none }, [])
      else none
  | .heartbeat vid => (s.heartbeat vid).map fun ev => (s, [ev])
  | .commit => some ({ s with nH := ⟨0, s.me⟩ }, [])
  | .view vid => some ({ s with myvid := vid }, [])

end Proposer

/-- The nodes, and what has happened at them. -/
structure Rounds (τ : Type) where
  node : Str → Proposer τ
  events : List RoundEv

namespace Rounds

variable {τ : Type} [DecidableEq τ]

def start (myvid : ℕ) (nH : Str → PropT) : Rounds τ := ⟨fun m => .start m myvid (nH m), []⟩

def step (s : Rounds τ) (x : Str × RoundAct τ) : Option (Rounds τ) :=
  ((s.node x.1).step x.2).map fun y => ⟨Function.update s.node x.1 y.1, s.events ++ y.2⟩

def NoWrap (s : Rounds τ) (x : Str × RoundAct τ) : Prop :=
  match x.2 with
  | .run _ | .setn _ => (s.node x.1).nH.n + 1 < 2^32 ∧ (s.node x.1).myN + 1 < 2^32
  | _ => True

def numbers (s : Rounds τ) : List PropT := s.events.filterMap fun
  | .number n => some n
  | _ => none

end Rounds

/-- A heartbeat succeeds for the view of the node only, and no call finds a round that is on. -/
def RoundEv.Plain : RoundEv → Prop
  | .number _ => True
  | .answered myvid vid ret => ret = paxosOK ↔ vid = myvid
  | .already | .aborted => False

section
variable {τ : Type} [DecidableEq τ]

namespace Proposer

/-- Whoever has `pxs_mutex` outside `run` finds the proposer stable. -/
def Stable (s : Proposer τ) : Prop := s.inside = none → s.stable = true

variable {s s' : Proposer τ} {a : RoundAct τ} {evs : List RoundEv}

omit [DecidableEq τ] in
theorem heartbeat_plain (h : s.Stable) {vid : ℕ} {ev : RoundEv} (hev : s.heartbeat vid = some ev) :
    ev.Plain := by
  unfold heartbeat at hev
  split_ifs at hev with hwaits
  by_cases hvid : vid = s.myvid
  · simp only [Views.heartbeat, hvid, if_pos, Option.some.injEq] at hev
    subst hev
    exact Iff.intro (fun _ => rfl) fun _ => rfl
  · -- the mutex is free, so that `isrunning` returns false
    have hstable : s.stable = true := h (not_not.mp fun hinside => hwaits ⟨hvid, hinside⟩)
    simp only [Views.heartbeat, if_neg hvid, hstable, Bool.not_true, Bool.false_eq_true, if_false,
      Option.some.injEq] at hev
    subst hev
    exact Iff.intro (fun hret => absurd hret (by decide)) fun heq => absurd heq hvid

theorem stable_step (h : s.Stable) (hs : s.step a = some (s', evs)) :
    s'.Stable ∧ ∀ ev ∈ evs, ev.Plain := by
  have hnone : ∀ ev ∈ ([] : List RoundEv), ev.Plain := fun ev hev => absurd hev List.not_mem_nil
  cases a with
  | run t =>
    simp only [step] at hs
    split_ifs at hs with hinside hstable
    · rw [h (not_not.mp hinside)] at hstable
      cases hstable
    · cases hs
      exact ⟨fun hx => (by cases hx), hnone⟩
  | setn t =>
    simp only [step] at hs
    split at hs
    · split_ifs at hs
      cases hs
      exact ⟨fun hx => (by cases hx), List.forall_mem_singleton.mpr trivial⟩
    · cases hs
  | finish t =>
    simp only [step] at hs
    split_ifs at hs
    cases hs
    exact ⟨fun _ => rfl, hnone⟩
  | heartbeat vid =>
    obtain ⟨ev,hev,heq⟩ := Option.map_eq_some_iff.mp hs
    cases heq
    exact ⟨h, List.forall_mem_singleton.mpr (heartbeat_plain h hev)⟩
  | commit | view vid =>
    cases hs
    exact ⟨h, hnone⟩

end Proposer

namespace Rounds

theorem step_spec {s s' : Rounds τ} {x : Str × RoundAct τ} (hs : s.step x = some s') :
    ∃ p evs, (s.node x.1).step x.2 = some (p, evs) ∧ s'.node = Function.update s.node x.1 p ∧
      s'.events = s.events ++ evs := by
  obtain ⟨⟨p,evs⟩,hp,rfl⟩ := Option.map_eq_some_iff.mp hs
  exact ⟨p, evs, hp, rfl, rfl⟩

/-- No call ever finds a round that is on: `run` does not return for that reason, and `isrunning`
does not return true. So a heartbeat for another view than the node's own fails whether or not
a new view is being proposed, and the `VERIFY` is not reached. -/
theorem rounds_never_seen (myvid : ℕ) (nH : Str → PropT) (acts : List (Str × RoundAct τ))
    {s : Rounds τ} (hr : run step (start myvid nH) acts = some s) :
    ∀ ev ∈ s.events, ev.Plain := by
  refine (run_invariant step (fun s => (∀ m, (s.node m).Stable) ∧ ∀ ev ∈ s.events, ev.Plain) ?_ _
    s acts ⟨fun _ _ => rfl, fun _ hev => absurd hev List.not_mem_nil⟩ hr).2
  rintro s x s' ⟨hstable,hplain⟩ hs
  obtain ⟨p,evs,hp,hnode,hevents⟩ := step_spec hs
  obtain ⟨hp',hevs⟩ := Proposer.stable_step (hstable x.1) hp
  rw [hnode, hevents]
  exact ⟨(Function.forall_update_iff s.node fun _ q => q.Stable).mpr ⟨hp', fun m _ => hstable m⟩,
    List.forall_mem_append.mpr ⟨hplain, hevs⟩⟩

/-- The acceptor's number counts in the first round only: later ones have passed it. -/
structure Passes (p : Proposer τ) : Prop where
  nH : p.nH.n ≤ p.myN ∨ p.myN = 0
  compared : ∀ t acceptors, p.inside = some (t, .compared acceptors) →
    if acceptors = true then p.myN = 0 else p.nH.n ≤ p.myN

/-- All numbers so far are different, and those of a node are not above its last one. -/
structure Numbered (s : Rounds τ) : Prop where
  me : ∀ m, (s.node m).me = m
  last : ∀ n ∈ s.numbers, n.n ≤ (s.node n.m).myN
  nodup : s.numbers.Nodup
  passes : ∀ m, Passes (s.node m)

section
omit [DecidableEq τ]

theorem numbers_append (node : Str → Proposer τ) (l evs : List RoundEv) :
    (⟨node, l ++ evs⟩ : Rounds τ).numbers =
      (⟨node, l⟩ : Rounds τ).numbers ++ (⟨node, evs⟩ : Rounds τ).numbers :=
  List.filterMap_append

theorem Numbered.next {s : Rounds τ} (h : s.Numbered) {m : Str} {p : Proposer τ}
    {evs : List RoundEv} (hme : p.me = (s.node m).me) (hmyN : p.myN = (s.node m).myN)
    (hevs : ∀ n, RoundEv.number n ∉ evs) (hpasses : Passes p) :
    Numbered ⟨Function.update s.node m p, s.events ++ evs⟩ := by
  have hnumbers : (⟨Function.update s.node m p, s.events ++ evs⟩ : Rounds τ).numbers =
      s.numbers := by
    have hnil : (⟨Function.update s.node m p, evs⟩ : Rounds τ).numbers = [] := by
      refine List.filterMap_eq_nil_iff.mpr fun ev hev => ?_
      cases ev with
      | number n => exact absurd hev (hevs n)
      | _ => rfl
    rw [numbers_append, hnil, List.append_nil]
    rfl
  refine ⟨?_, ?_, by rw [hnumbers]; exact h.nodup, ?_⟩
  · exact (Function.forall_update_iff s.node fun m' q => q.me = m').mpr
      ⟨hme.trans (h.me m), fun m' _ => h.me m'⟩
  · rw [hnumbers]
    intro n hn
    have hlast := h.last n hn
    simp only [Function.update_apply]
    split_ifs with hm
    · rw [hmyN, ← hm]
      exact hlast
    · exact hlast
  · exact (Function.forall_update_iff s.node fun _ q => Passes q).mpr
      ⟨hpasses, fun m' _ => h.passes m'⟩

theorem Numbered.number {s : Rounds τ} (h : s.Numbered) {m : Str} {n : ℕ}
    (hn : (s.node m).myN < n) (hnH : (s.node m).nH.n ≤ n) (t : τ) :
    Numbered ⟨Function.update s.node m { s.node m with myN := n, inside := some (t, .proposing) },
      s.events ++ [.number ⟨n, (s.node m).me⟩]⟩ := by
  have hme := h.me m
  have hnumbers :
      (⟨Function.update s.node m { s.node m with myN := n, inside := some (t, .proposing) },
      s.events ++ [.number ⟨n, (s.node m).me⟩]⟩ : Rounds τ).numbers = s.numbers ++ [⟨n, m⟩] := by
    rw [numbers_append, hme]
    rfl
  refine ⟨?_, ?_, ?_, ?_⟩
  · exact (Function.forall_update_iff s.node fun m' q => q.me = m').mpr ⟨hme, fun m' _ => h.me m'⟩
  · rw [hnumbers]
    refine List.forall_mem_append.mpr ⟨fun x hx => ?_, List.forall_mem_singleton.mpr ?_⟩
    · have hlast := h.last x hx
      simp only [Function.update_apply]
      split_ifs with hm
      · rw [hm] at hlast
        exact hlast.trans hn.le
      · exact hlast
    · simp only [Function.update_self]
      exact le_rfl
  · rw [hnumbers, List.nodup_append']
    refine ⟨h.nodup, List.nodup_singleton _, List.disjoint_singleton.mpr fun hmem => ?_⟩
    exact absurd (h.last _ hmem) (Nat.not_le.mpr hn)
  · exact (Function.forall_update_iff s.node fun _ q => Passes q).mpr
      ⟨⟨.inl hnH, fun t _ ht => (by cases ht)⟩, fun m' _ => h.passes m'⟩

end

theorem numbered_step {s s' : Rounds τ} {x : Str × RoundAct τ} (h : s.Numbered) (hwrap : s.NoWrap x)
    (hs : s.step x = some s') : s'.Numbered := by
  obtain ⟨⟨p,evs⟩,hp,rfl⟩ := Option.map_eq_some_iff.mp hs
  obtain ⟨m,a⟩ := x
  have hnone : ∀ n, RoundEv.number n ∉ ([] : List RoundEv) := fun n hn => absurd hn List.not_mem_nil
  cases a with
  | run t =>
    simp only [Proposer.step] at hp
    split_ifs at hp
    · cases hp
      exact h.next rfl rfl (fun n hn => by simp at hn) (h.passes m)
    · cases hp
      refine h.next rfl rfl hnone ⟨(h.passes m).nH, fun u acceptors hu => ?_⟩
      have hsize : (s.node m).nH.n + 1 < 2^32 ∧ (s.node m).myN + 1 < 2^32 := hwrap
      have hacc := RoundPc.compared.inj (Prod.mk.inj (Option.some.inj hu)).2
      rw [Nat.mod_eq_of_lt hsize.1, Nat.mod_eq_of_lt hsize.2] at hacc
      split_ifs with htrue
      · -- the acceptor's number is greater, so that no round has been
        have hgt := of_decide_eq_true (hacc.trans htrue)
        exact (h.passes m).nH.resolve_left (Nat.not_le.mpr (Nat.lt_of_succ_lt_succ hgt))
      · have hle := of_decide_eq_false (hacc.trans (Bool.eq_false_iff.mpr htrue))
        exact Nat.le_of_succ_le_succ (Nat.not_lt.mp hle)
  | setn t =>
    simp only [Proposer.step] at hp
    split at hp
    · next u acceptors hinside =>
      split_ifs at hp
      cases hp
      have hsize : (s.node m).nH.n + 1 < 2^32 ∧ (s.node m).myN + 1 < 2^32 := hwrap
      have hcompared := (h.passes m).compared u acceptors hinside
      unfold Proposer.nextN
      split_ifs at hcompared ⊢ with hacc
      · -- a commit may have been since, but any number will do
        rw [Nat.mod_eq_of_lt hsize.1]
        have hfirst : (s.node m).myN < (s.node m).nH.n + 1 := by omega
        exact h.number hfirst (Nat.le_succ _) t
      · rw [Nat.mod_eq_of_lt hsize.2]
        exact h.number (Nat.lt_succ_self _) (Nat.le_succ_of_le hcompared) t
    · cases hp
  | finish t =>
    simp only [Proposer.step] at hp
    split_ifs at hp
    cases hp
    exact h.next rfl rfl hnone ⟨(h.passes m).nH, fun u _ hu => by cases hu⟩
  | heartbeat vid =>
    obtain ⟨ev,hev,heq⟩ := Option.map_eq_some_iff.mp hp
    cases heq
    refine h.next rfl rfl (fun n hn => ?_) (h.passes m)
    rw [List.mem_singleton] at hn
    subst hn
    unfold Proposer.heartbeat at hev
    split_ifs at hev
    split at hev <;> cases hev
  | commit =>
    cases hp
    refine h.next rfl rfl hnone ⟨.inl (Nat.zero_le _), fun u acceptors hu => ?_⟩
    have hcompared := (h.passes m).compared u acceptors hu
    split_ifs at hcompared ⊢
    · exact hcompared
    · exact Nat.zero_le _
  | view vid =>
    cases hp
    exact h.next rfl rfl hnone ⟨(h.passes m).nH, (h.passes m).compared⟩

omit [DecidableEq τ] in
theorem numbered_start (myvid : ℕ) (nH : Str → PropT) :
    (start myvid nH : Rounds τ).Numbered where
  me := fun _ => rfl
  last := fun _ hn => absurd hn List.not_mem_nil
  nodup := List.nodup_nil
  passes := fun _ => ⟨.inr rfl, fun _ _ ht => by cases ht⟩

instance decidableNoWrap (s : Rounds τ) : (x : Str × RoundAct τ) → Decidable (s.NoWrap x)
  | (m, .run _) | (m, .setn _) =>
    inferInstanceAs (Decidable ((s.node m).nH.n + 1 < 2^32 ∧ (s.node m).myN + 1 < 2^32))
  | (_, .finish _) | (_, .heartbeat _) | (_, .commit) | (_, .view _) => isTrue trivial

end Rounds
end

/-- Two nodes take their rounds at the same time, the second one with a number from its log and a
commit between the two readings, and a heartbeat for the last view comes in. -/
def twoRounds : List (Str × RoundAct Unit) :=
  [(['1'], .run ()), (['2'], .run ()), (['1'], .setn ()), (['2'], .commit), (['2'], .setn ()),
    (['1'], .finish ()), (['1'], .view 2), (['1'], .heartbeat 1), (['1'], .commit),
    (['1'], .run ()), (['1'], .setn ()), (['2'], .finish ()), (['2'], .run ()), (['2'], .setn ())]

def twoLogs (m : Str) : PropT := if m = ['2'] then ⟨4, ['1']⟩ else ⟨0, m⟩

theorem rounds_never_seen_two :
    ∃ s, run Rounds.step (Rounds.start 1 twoLogs) twoRounds = some s ∧
      RoundEv.answered 2 1 paxosERR ∈ s.events ∧ ∀ ev ∈ s.events, ev.Plain := by
  have hrun : ∃ s, run Rounds.step (Rounds.start 1 twoLogs) twoRounds = some s ∧
      RoundEv.answered 2 1 paxosERR ∈ s.events := by
    decide
  obtain ⟨s,hr,hev⟩ := hrun
  exact ⟨s, hr, hev, Rounds.rounds_never_seen 1 twoLogs twoRounds hr⟩

end Yfs.Views
