import Mathlib.Data.List.Induction
import Mathlib.Data.Set.Function
import Yfs.CondVar
import Yfs.Run

/-! `lock_server` without caches. The handlers run in threads of the server, one at a time
under `statusMutex`, which a thread gives up only in its wait. All of them wait for one
condition variable, and the map has `int` keys. -/
namespace Yfs.PlainLock

abbrev LockId := BitVec 64

/-- The conversion of a lock id to the `int` that it is looked up with. -/
def key (lid : LockId) : BitVec 32 := lid.setWidth 32

inductive Handler
  | acquire
  | release
  deriving DecidableEq

/-- An answer; it is OK or NOENT. -/
structure Answer (τ : Type*) where
  thread : τ
  handler : Handler
  lid : LockId
  ok : Bool
  deriving DecidableEq

/-- `waiting` are the calls of `acquire` in their wait, and `answers` those that were given,
in order. -/
structure LockServer (τ : Type*) where
  threadStatusMap : BitVec 32 → Option ℤ
  statusCheckCond : CondVar τ
  waiting : τ → Option LockId
  answers : List (Answer τ)

/-- `wakeUp` is a return from the wait, with or without a signal. With `release` goes the
thread that the signal wakes. -/
inductive LockAct (τ : Type*)
  | acquire (t : τ) (lid : LockId)
  | wakeUp (t : τ)
  | release (t : τ) (lid : LockId) (w : Option τ)
  deriving DecidableEq

def LockServer.init (τ : Type*) : LockServer τ := ⟨fun _ => none, .empty, fun _ => none, []⟩

section
variable {τ : Type*} [DecidableEq τ]

namespace LockServer

/-- The end of `acquire`. -/
def granted (s : LockServer τ) (t : τ) (lid : LockId) : LockServer τ where
  threadStatusMap := Function.update s.threadStatusMap (key lid) (some 1)
  statusCheckCond := s.statusCheckCond.resume t
  waiting := Function.update s.waiting t none
  answers := s.answers ++ [⟨t, .acquire, lid, true⟩]

/-- The loop of `acquire`, up to the wait or the end. -/
def acquireLoop (s : LockServer τ) (t : τ) (lid : LockId) : LockServer τ :=
  if s.threadStatusMap (key lid) = some 1 then
    { s with
      statusCheckCond := s.statusCheckCond.wait t
      waiting := Function.update s.waiting t (some lid) }
  else s.granted t lid

def acquire (s : LockServer τ) (t : τ) (lid : LockId) : LockServer τ :=
  match s.threadStatusMap (key lid) with
  | some v => if v = 0 then s.granted t lid else s.acquireLoop t lid
  -- the first call for this key
  | none => s.granted t lid

def release (s : LockServer τ) (t : τ) (lid : LockId) (w : Option τ) : Option (LockServer τ) :=
  if s.threadStatusMap (key lid) = some 1 then
    (s.statusCheckCond.signal w).map fun q =>
      { s with
        threadStatusMap := Function.update s.threadStatusMap (key lid) (some 0)
        statusCheckCond := q
        answers := s.answers ++ [⟨t, .release, lid, true⟩] }
  -- NOENT; who has the lock is not asked in either case
  else some { s with answers := s.answers ++ [⟨t, .release, lid, false⟩] }

/-- A thread in the wait makes no other call. -/
def step (s : LockServer τ) : LockAct τ → Option (LockServer τ)
  | .acquire t lid => if s.waiting t = none then some (s.acquire t lid) else none
  | .wakeUp t => (s.waiting t).map fun lid => s.acquireLoop t lid
  | .release t lid w => if s.waiting t = none then s.release t lid w else none

/-- The server has the lock as taken. -/
def Held (s : LockServer τ) (lid : LockId) : Prop := s.threadStatusMap (key lid) = some 1

end LockServer

instance (s : LockServer τ) (lid : LockId) : Decidable (s.Held lid) :=
  inferInstanceAs (Decidable (_ = _))

/-- The lock that an action is about. -/
def LockAct.lid (s : LockServer τ) : LockAct τ → Option LockId
  | .acquire _ lid => some lid
  | .wakeUp t => s.waiting t
  | .release _ lid _ => some lid

/-- Who gets past the test of the loop, or parks, is in the call of `acquire` for `lid`. -/
inductive LockStep (s : LockServer τ) (a : LockAct τ) : LockServer τ → Prop
  | granted (t : τ) (lid : LockId) (hlid : a.lid s = some lid)
    (hcall : s.waiting t = none ∨ s.waiting t = some lid)
      (hfree : ¬ s.Held lid) : LockStep s a (s.granted t lid)
  | parked (t : τ) (lid : LockId) (hlid : a.lid s = some lid)
      (hcall : s.waiting t = none ∨ s.waiting t = some lid) (hheld : s.Held lid) :
      LockStep s a
        { s with
          statusCheckCond := s.statusCheckCond.wait t
          waiting := Function.update s.waiting t (some lid) }
  | released (t : τ) (lid : LockId) (w : Option τ) (q : CondVar τ) (ha : a = .release t lid w)
      (hheld : s.Held lid) (hq : s.statusCheckCond.signal w = some q) :
      LockStep s a { s with
        threadStatusMap := Function.update s.threadStatusMap (key lid) (some 0)
        statusCheckCond := q
        answers := s.answers ++ [⟨t, .release, lid, true⟩] }
  | refused (t : τ) (lid : LockId) (hlid : a.lid s = some lid) :
      LockStep s a { s with answers := s.answers ++ [⟨t, .release, lid, false⟩] }

variable {s s' : LockServer τ} {a : LockAct τ} {lid : LockId}

theorem lockStep_acquireLoop {t : τ} (hlid : a.lid s = some lid)
    (hcall : s.waiting t = none ∨ s.waiting t = some lid) : LockStep s a (s.acquireLoop t lid) := by
  unfold LockServer.acquireLoop
  split_ifs with hheld
  · exact .parked t lid hlid hcall hheld
  · exact .granted t lid hlid hcall hheld

/-- Also the first tests of `acquire` let a call pass exactly if the lock is not held. -/
theorem acquire_eq (s : LockServer τ) (t : τ) (lid : LockId) :
    s.acquire t lid = s.acquireLoop t lid := by
  unfold LockServer.acquire LockServer.acquireLoop
  split
  · next v hv =>
    split_ifs with h0 h1
    · rw [hv, h0] at h1
      cases h1
    · rfl
    · rfl
    · rfl
  · next hv => rw [if_neg (by rw [hv]; exact nofun)]

theorem lockStep_of_step (h : s.step a = some s') : LockStep s a s' := by
  cases a with
  | acquire t lid =>
    simp only [LockServer.step, Option.ite_none_right_eq_some, Option.some.injEq] at h
    obtain ⟨hidle,rfl⟩ := h
    rw [acquire_eq]
    exact lockStep_acquireLoop rfl (.inl hidle)
  | wakeUp t =>
    obtain ⟨lid,hlid,rfl⟩ := Option.map_eq_some_iff.mp h
    exact lockStep_acquireLoop hlid (.inr hlid)
  | release t lid w =>
    simp only [LockServer.step, Option.ite_none_right_eq_some] at h
    obtain ⟨_,h⟩ := h
    unfold LockServer.release at h
    split_ifs at h with hheld
    · obtain ⟨q,hq,rfl⟩ := Option.map_eq_some_iff.mp h
      exact .released t lid w q rfl hheld hq
    · cases h
      exact .refused t lid rfl

/-- The call has taken the lock, or has given it back. -/
def Answer.Takes (r : Answer τ) (lid : LockId) : Prop :=
  r.handler = .acquire ∧ r.lid = lid ∧ r.ok = true

def Answer.Frees (r : Answer τ) (lid : LockId) : Prop :=
  r.handler = .release ∧ r.lid = lid ∧ r.ok = true

instance (r : Answer τ) (lid : LockId) : Decidable (r.Takes lid) :=
  inferInstanceAs (Decidable (_ ∧ _))

instance (r : Answer τ) (lid : LockId) : Decidable (r.Frees lid) :=
  inferInstanceAs (Decidable (_ ∧ _))

/-- Whether the lock is taken after these answers. -/
def takenAfter (lid : LockId) (answers : List (Answer τ)) : Bool :=
  answers.foldl (fun b r => if r.Takes lid then true else if r.Frees lid then false else b) false

omit [DecidableEq τ] in
theorem takenAfter_snoc (lid : LockId) (answers : List (Answer τ)) (r : Answer τ) :
    takenAfter lid (answers ++ [r]) =
      if r.Takes lid then true else if r.Frees lid then false else takenAfter lid answers := by
  rw [takenAfter, List.foldl_append]
  rfl

omit [DecidableEq τ] in
theorem frees_of_not_taken {xs ys : List (Answer τ)} {r : Answer τ} (hr : r.Takes lid)
    (h : takenAfter lid (xs ++ r :: ys) = false) : ∃ r' ∈ ys, r'.Frees lid := by
  induction ys using List.reverseRecOn with
  | nil =>
    rw [takenAfter_snoc, if_pos hr] at h
    cases h
  | append_singleton ys r' ih =>
    rw [← List.cons_append, ← List.append_assoc, takenAfter_snoc] at h
    split_ifs at h with htakes hfrees
    · exact ⟨r', by simp, hfrees⟩
    · obtain ⟨r1,hmem,h1⟩ := ih h
      exact ⟨r1, List.mem_append_left _ hmem, h1⟩

/-- Between two calls that take the lock one gives it back. -/
def Exclusive (answers : List (Answer τ)) : Prop :=
  ∀ lid xs r ys r' zs, answers = xs ++ r :: ys ++ r' :: zs → r.Takes lid → r'.Takes lid →
    ∃ r1 ∈ ys, r1.Frees lid

omit [DecidableEq τ] in
theorem exclusive_snoc {answers : List (Answer τ)} {r : Answer τ} (h : Exclusive answers)
    (hr : ∀ lid, r.Takes lid → takenAfter lid answers = false) : Exclusive (answers ++ [r]) := by
  intro lid xs r1 ys r2 zs heq h1 h2
  -- the second of the two is the new answer, or both are among the old ones
  induction zs using List.reverseRecOn with
  | nil =>
    obtain ⟨hinit,hlast⟩ := List.append_inj' heq rfl
    cases hlast
    have hnot := hr lid h2
    rw [hinit] at hnot
    exact frees_of_not_taken h1 hnot
  | append_singleton zs r3 _ =>
    rw [← List.cons_append, ← List.append_assoc] at heq
    exact h lid xs r1 ys r2 zs (List.append_inj' heq rfl).1 h1 h2

/-- The lock ids in use are `U`. What the server has in its map is what it has answered. -/
structure LockOk (U : Set LockId) (s : LockServer τ) : Prop where
  used : ∀ t lid, s.waiting t = some lid → lid ∈ U
  waits : ∀ t, s.statusCheckCond.Waits t ↔ s.waiting t ≠ none
  held : ∀ lid ∈ U, s.Held lid ↔ takenAfter lid s.answers = true
  exclusive : Exclusive s.answers

omit [DecidableEq τ] in
theorem lockOk_init (U : Set LockId) : LockOk U (LockServer.init τ) where
  used := nofun
  waits t := iff_of_false (fun h => h.elim List.not_mem_nil List.not_mem_nil) (fun h => h rfl)
  held lid _ := iff_of_false nofun Bool.false_ne_true
  exclusive := by
    intro lid xs r ys r' zs heq
    have hlen := congrArg List.length heq
    simp [LockServer.init] at hlen

section
variable {U : Set LockId} (hU : Set.InjOn key U)
include hU

theorem update_key_of_ne {lid lid' : LockId} (hlid : lid ∈ U) (hlid' : lid' ∈ U) (hne : lid' ≠ lid)
    (m : BitVec 32 → Option ℤ) (v : Option ℤ) :
    Function.update m (key lid) v (key lid') = m (key lid') :=
  Function.update_of_ne (fun heq => hne (hU hlid' hlid heq)) v m

theorem held_of_ne {lid lid' : LockId} (hs : LockStep s a s')
    (ha : a.lid s = some lid) (hlid : lid ∈ U) (hlid' : lid' ∈ U) (hne : lid' ≠ lid) :
    s'.Held lid' ↔ s.Held lid' := by
  unfold LockServer.Held
  cases hs with
  | granted t l hl hcall hfree =>
    obtain rfl : lid = l := Option.some.inj (ha.symm.trans hl)
    change Function.update s.threadStatusMap (key lid) (some 1) (key lid') = some 1 ↔ _
    rw [update_key_of_ne hU hlid hlid' hne]
  | parked => rfl
  | released t l w q hrel hheld hq =>
    subst hrel
    obtain rfl : l = lid := Option.some.inj ha
    change Function.update s.threadStatusMap (key l) (some 0) (key lid') = some 1 ↔ _
    rw [update_key_of_ne hU hlid hlid' hne]
  | refused => rfl

end

theorem held_granted (s : LockServer τ) (t : τ) (lid : LockId) : (s.granted t lid).Held lid :=
  Function.update_self ..

section
omit [DecidableEq τ]

theorem takenAfter_of_ne {r : Answer τ} (hne : lid ≠ r.lid) (answers : List (Answer τ)) :
    takenAfter lid (answers ++ [r]) = takenAfter lid answers := by
  rw [takenAfter_snoc, if_neg fun h => hne h.2.1.symm, if_neg fun h => hne h.2.1.symm]

theorem takenAfter_acquired (lid : LockId) (t : τ) (answers : List (Answer τ)) :
    takenAfter lid (answers ++ [⟨t, .acquire, lid, true⟩]) = true :=
  (takenAfter_snoc ..).trans (if_pos ⟨rfl, rfl, rfl⟩)

theorem takenAfter_released (lid : LockId) (t : τ) (answers : List (Answer τ)) :
    takenAfter lid (answers ++ [⟨t, .release, lid, true⟩]) = false := by
  rw [takenAfter_snoc]
  simp [Answer.Takes, Answer.Frees]

theorem takenAfter_refused (lid lid' : LockId) (t : τ) (answers : List (Answer τ)) :
    takenAfter lid (answers ++ [⟨t, .release, lid', false⟩]) = takenAfter lid answers := by
  rw [takenAfter_snoc]
  simp [Answer.Takes, Answer.Frees]

end

theorem waits_step {U : Set LockId} (h : LockOk U s) (hs : LockStep s a s')
    (t : τ) : s'.statusCheckCond.Waits t ↔ s'.waiting t ≠ none := by
  cases hs with
  | granted u lid hlid hcall hfree =>
    change (s.statusCheckCond.resume u).Waits t ↔ Function.update s.waiting u none t ≠ none
    rw [CondVar.waits_resume_iff, h.waits]
    by_cases htu : t = u
    · simp [htu]
    · simp [htu]
  | parked u lid hlid hcall hheld =>
    change (s.statusCheckCond.wait u).Waits t ↔ Function.update s.waiting u (some lid) t ≠ none
    rw [CondVar.waits_wait_iff, h.waits]
    by_cases htu : t = u
    · simp [htu]
    · simp [htu]
  | released u lid w q ha hheld hq => exact (CondVar.waits_signal_iff hq).trans (h.waits t)
  | refused => exact h.waits t

theorem used_step {U : Set LockId} (h : LockOk U s)
    (hs : LockStep s a s') (ha : a.lid s = some lid) (hlid : lid ∈ U) :
    ∀ t l, s'.waiting t = some l → l ∈ U := by
  cases hs with
  | granted u l hl hcall hfree => exact forall_update (fun _ => nofun) h.used
  | parked u l hl hcall hheld =>
    obtain rfl : lid = l := Option.some.inj (ha.symm.trans hl)
    exact forall_update_some hlid h.used
  | released | refused => exact h.used

theorem takenAfter_step_of_ne {lid lid' : LockId} (hs : LockStep s a s')
    (ha : a.lid s = some lid) (hne : lid' ≠ lid) :
    takenAfter lid' s'.answers = takenAfter lid' s.answers := by
  cases hs with
  | granted t l hl hcall hfree =>
    obtain rfl : lid = l := Option.some.inj (ha.symm.trans hl)
    exact takenAfter_of_ne hne s.answers
  | parked => rfl
  | released t l w q hrel hheld hq =>
    subst hrel
    obtain rfl : l = lid := Option.some.inj ha
    exact takenAfter_of_ne hne s.answers
  | refused t l hl =>
    obtain rfl : lid = l := Option.some.inj (ha.symm.trans hl)
    exact takenAfter_of_ne hne s.answers

/-- The answer of a step, if it gives one, agrees with the map. -/
theorem held_step {U : Set LockId} (hU : Set.InjOn key U)
    (h : LockOk U s) (hs : LockStep s a s') (ha : a.lid s = some lid) (hlid : lid ∈ U) :
    ∀ l ∈ U, s'.Held l ↔ takenAfter l s'.answers = true := by
  intro l hl
  by_cases hne : l = lid
  · subst hne
    cases hs with
    | granted t l' hl' hcall hfree =>
      obtain rfl : l = l' := Option.some.inj (ha.symm.trans hl')
      exact iff_of_true (held_granted s t l) (takenAfter_acquired l t s.answers)
    | parked => exact h.held l hl
    | released t l' w q hrel hheld hq =>
      subst hrel
      obtain rfl : l' = l := Option.some.inj ha
      refine iff_of_false ?_ (Bool.eq_false_iff.mp (takenAfter_released l' t s.answers))
      change ¬ Function.update s.threadStatusMap (key l') (some 0) (key l') = some 1
      rw [Function.update_self]
      decide
    | refused t l' hl' =>
      exact (h.held l hl).trans
        (iff_of_eq (congrArg (· = true) (takenAfter_refused l l' t s.answers).symm))
  · rw [held_of_ne hU hs ha hlid hl hne, h.held l hl, takenAfter_step_of_ne hs ha hne]

theorem exclusive_step {U : Set LockId} (h : LockOk U s)
    (hs : LockStep s a s') (ha : a.lid s = some lid) (hlid : lid ∈ U) : Exclusive s'.answers := by
  cases hs with
  | granted t l hl hcall hfree =>
    obtain rfl : lid = l := Option.some.inj (ha.symm.trans hl)
    apply exclusive_snoc h.exclusive
    rintro l ⟨_,rfl,_⟩
    rw [h.held lid hlid] at hfree
    exact Bool.eq_false_iff.mpr hfree
  | parked => exact h.exclusive
  | released t l w q hrel hheld hq =>
    apply exclusive_snoc h.exclusive
    rintro l ⟨hcall,_⟩
    cases hcall
  | refused t l hl =>
    apply exclusive_snoc h.exclusive
    rintro l ⟨hcall,_⟩
    cases hcall

theorem lockOk_step {U : Set LockId} (hU : Set.InjOn key U)
    (h : LockOk U s) (hs : LockStep s a s') (ha : a.lid s = some lid) (hlid : lid ∈ U) :
    LockOk U s' :=
  ⟨used_step h hs ha hlid, waits_step h hs, held_step hU h hs ha hlid, exclusive_step h hs ha hlid⟩

/-- A signal for a lock wakes a call that waits for it, if there is one. -/
def WakesOwn (s : LockServer τ) : LockAct τ → Prop
  | .release _ lid w => s.statusCheckCond.WakesRight (fun t => s.waiting t = some lid) w
  | _ => True

instance (s : LockServer τ) (a : LockAct τ) : Decidable (WakesOwn s a) :=
  match a with
  | .release _ lid w =>
    CondVar.decidableWakesRight s.statusCheckCond (fun t => s.waiting t = some lid) w
  | .acquire _ _ => isTrue trivial
  | .wakeUp _ => isTrue trivial

/-- While a lock is free, not all of the calls that wait for it are asleep. -/
def FreeCovered (U : Set LockId) (s : LockServer τ) : Prop :=
  ∀ lid ∈ U, ¬ s.Held lid → s.statusCheckCond.Covered fun t => s.waiting t = some lid

/-- What the thread of a call for another lock waits for does not matter. -/
theorem covered_update {q : CondVar τ} {waiting : τ → Option LockId} {t : τ} {x : Option LockId}
    (h : q.Covered fun u => waiting u = some lid) (ht : waiting t ≠ some lid) (hx : x ≠ some lid) :
    q.Covered fun u => Function.update waiting t x u = some lid := by
  apply h.congr
  intro u _
  rw [Function.update_apply]
  split_ifs with hu
  · rw [hu]
    exact iff_of_false ht hx
  · rfl

theorem freeCovered_step {U : Set LockId} (hU : Set.InjOn key U)
    (h : FreeCovered U s) (hs : LockStep s a s') (ha : a.lid s = some lid) (hlid : lid ∈ U)
    (hw : WakesOwn s a) :
    FreeCovered U s' := by
  intro l hl hfree
  by_cases hne : l = lid
  · subst hne
    cases hs with
    | granted t l' hl' hcall hfree' =>
      obtain rfl : l = l' := Option.some.inj (ha.symm.trans hl')
      exact absurd (held_granted s t l) hfree
    | parked t l' hl' hcall hheld =>
      obtain rfl : l = l' := Option.some.inj (ha.symm.trans hl')
      exact absurd hheld hfree
    | released t l' w q hrel hheld hq =>
      -- the lock becomes free, and the signal is for one of those who wait for it
      subst hrel
      obtain rfl : l' = l := Option.some.inj ha
      exact CondVar.covered_of_wakesRight _ q w hq _ hw
    | refused => exact h l hl hfree
  · -- another lock was free before, and its waiters are as they were
    rw [held_of_ne hU hs ha hlid hl hne] at hfree
    have hold := h l hl hfree
    have hother : ∀ t, s.waiting t = none ∨ s.waiting t = some lid → s.waiting t ≠ some l := by
      rintro t (ht | ht) heq
      · rw [ht] at heq
        cases heq
      · exact hne (Option.some.inj (heq.symm.trans ht))
    cases hs with
    | granted t l' hl' hcall hfree' =>
      obtain rfl : lid = l' := Option.some.inj (ha.symm.trans hl')
      exact covered_update (CondVar.covered_resume _ t _ (hother t hcall) hold) (hother t hcall)
        nofun
    | parked t l' hl' hcall hheld =>
      obtain rfl : lid = l' := Option.some.inj (ha.symm.trans hl')
      exact covered_update (CondVar.covered_settle _ t true _ (hother t hcall) hold)
        (hother t hcall)
        fun heq => hne (Option.some.inj heq).symm
    | released t l' w q hrel hheld hq => exact CondVar.covered_signal _ q w hq _ hold
    | refused => exact hold

/-- The lock that a call is for is in use. -/
def LockAct.Uses (U : Set LockId) : LockAct τ → Prop
  | .acquire _ lid => lid ∈ U
  | .wakeUp _ => True
  | .release _ lid _ => lid ∈ U

theorem lid_of_uses {U : Set LockId} (h : LockOk U s) (ha : a.Uses U)
    (hs : s.step a = some s') : ∃ lid ∈ U, a.lid s = some lid := by
  cases a with
  | acquire t lid => exact ⟨lid, ha, rfl⟩
  | wakeUp t =>
    obtain ⟨lid,hlid,_⟩ := Option.map_eq_some_iff.mp hs
    exact ⟨lid, h.used t lid hlid, hlid⟩
  | release t lid w => exact ⟨lid, ha, rfl⟩

theorem lockOk_run {U : Set LockId} (hU : Set.InjOn key U) {acts : List (LockAct τ)}
    (hacts : ∀ a ∈ acts, a.Uses U) (hr : run LockServer.step (.init τ) acts = some s) :
    LockOk U s := by
  have hstep : ∀ (s : LockServer τ) a s', LockOk U s → a.Uses U → s.step a = some s' →
      LockOk U s' := by
    intro s a s' h ha hs
    obtain ⟨lid,hlid,heq⟩ := lid_of_uses h ha hs
    exact lockOk_step hU h (lockStep_of_step hs) heq hlid
  exact run_invariant_of_all LockServer.step (fun _ a => a.Uses U) (LockOk U) hstep _ s acts
    (lockOk_init U)
    (runAll_of_mem LockServer.step _ _ acts hacts) hr

theorem freeCovered_run {U : Set LockId} (hU : Set.InjOn key U) {acts : List (LockAct τ)}
    (hacts : ∀ a ∈ acts, a.Uses U) (hw : RunAll LockServer.step WakesOwn (.init τ) acts)
    (hr : run LockServer.step (.init τ) acts = some s) : FreeCovered U s := by
  have hstep : ∀ (s : LockServer τ) a s', LockOk U s ∧ FreeCovered U s → a.Uses U ∧
    WakesOwn s a → s.step a = some s' →
      LockOk U s' ∧ FreeCovered U s' := by
    rintro s a s' ⟨h,hc⟩ ⟨ha,hw⟩ hs
    obtain ⟨lid,hlid,heq⟩ := lid_of_uses h ha hs
    exact ⟨lockOk_step hU h (lockStep_of_step hs) heq hlid,
      freeCovered_step hU hc (lockStep_of_step hs) heq hlid hw⟩
  have hinit : FreeCovered U (LockServer.init τ) := by
    rintro lid _ _ ⟨t,ht,_⟩
    exact absurd ht List.not_mem_nil
  have hall := runAll_and LockServer.step (fun _ a => a.Uses U) WakesOwn _ acts
    (runAll_of_mem LockServer.step _ _ acts hacts) hw
  exact (run_invariant_of_all LockServer.step _ (fun s => LockOk U s ∧ FreeCovered U s) hstep _ s
    acts
    ⟨lockOk_init U, hinit⟩ hall hr).2

theorem acquireLoop_of_free (hfree : ¬ s.Held lid) (t : τ) :
    s.acquireLoop t lid = s.granted t lid := if_neg hfree

/-- Lock ids with different lower halves are kept apart: a lock is taken by one call at a
time, calls for another lock neither take nor free it, and a call for a free lock takes it at
once. If a release does not wake a call for another lock while one for its own lock waits,
then also of the calls that wait for a free lock one is awake and takes it when it runs. -/
theorem lock_ids_apart (U : Set LockId) (hU : Set.InjOn key U) (acts : List (LockAct τ))
    (s : LockServer τ)
    (hacts : ∀ a ∈ acts, a.Uses U) (hr : run LockServer.step (.init τ) acts = some s) :
    Exclusive s.answers ∧ (∀ lid ∈ U, s.Held lid ↔ takenAfter lid s.answers = true) ∧
    (∀ a s' lid, s.step a = some s' → a.lid s = some lid → lid ∈ U → ∀ lid' ∈ U, lid' ≠ lid →
      (s'.Held lid' ↔ s.Held lid')) ∧
    (∀ t, ∀ lid ∈ U, ¬ s.Held lid → s.waiting t = none →
      s.step (.acquire t lid) = some (s.granted t lid)) ∧
    (RunAll LockServer.step WakesOwn (.init τ) acts → ∀ lid ∈ U, ¬ s.Held lid →
      s.statusCheckCond.Covered (fun t => s.waiting t = some lid) ∧
      ∀ t, s.waiting t = some lid → s.step (.wakeUp t) = some (s.granted t lid)) := by
  have h := lockOk_run hU hacts hr
  refine ⟨h.exclusive, h.held, ?_, ?_, ?_⟩
  · intro a s' lid hs ha hlid lid' hlid' hne
    exact held_of_ne hU (lockStep_of_step hs) ha hlid hlid' hne
  · intro t lid hlid hfree hidle
    rw [LockServer.step, if_pos hidle, acquire_eq, acquireLoop_of_free hfree]
  · intro hw lid hlid hfree
    refine ⟨freeCovered_run hU hacts hw hr lid hlid hfree, ?_⟩
    intro t ht
    rw [LockServer.step, ht, Option.map_some, acquireLoop_of_free hfree]

end

/-- Thread 1 has lock 5, thread 2 waits for it and is woken up by the release. -/
theorem lock_ids_apart_handover :
    ∃ s : LockServer ℕ, run LockServer.step (.init ℕ) [.acquire 1 5, .acquire 3 6, .acquire 2 5,
      .release 1 5 (some 2)] =
        some s ∧ Exclusive s.answers ∧ s.step (.wakeUp 2) = some (s.granted 2 5) := by
  have hends : ∃ s : LockServer ℕ, run LockServer.step (.init ℕ)
      [.acquire 1 5, .acquire 3 6, .acquire 2 5, .release 1 5 (some 2)] = some s ∧
        (¬ s.Held 5 ∧ s.waiting 2 = some 5) := by
    decide
  obtain ⟨s,hr,hfree,hwait⟩ := hends
  have hU : Set.InjOn key ({5, 6} : Set LockId) := by
    rintro a (rfl | rfl) b (rfl | rfl) h
    · rfl
    · exact absurd h (by decide)
    · exact absurd h (by decide)
    · rfl
  have hacts : ∀ a ∈ [LockAct.acquire 1 5, .acquire 3 6, .acquire 2 5, .release 1 5 (some 2)],
      a.Uses ({5, 6} : Set LockId) := by
    simp [LockAct.Uses]
  obtain ⟨hexcl,_,_,_,hlast⟩ := lock_ids_apart {5, 6} hU _ s hacts hr
  exact ⟨s, hr, hexcl, (hlast (by decide) 5 (.inl rfl) hfree).2 2 hwait⟩

/-- Lock `2^32 + 1` is taken for lock 1: its release frees lock 1, so that two calls have lock
1, and its first `acquire` waits. And with a wait for another lock 6, a call waits for lock 5
that is free, and nobody is going to wake it up. -/
theorem lock_ids_collide :
    (∃ s : LockServer ℕ, run LockServer.step (.init ℕ) [.acquire 1 1, .release 2 0x100000001 none,
      .acquire 2 1] =
        some s ∧ ¬ Exclusive s.answers) ∧
    (∃ s : LockServer ℕ, run LockServer.step (.init ℕ) [.acquire 1 1, .acquire 2 0x100000001] =
      some s ∧
      takenAfter 0x100000001 s.answers = false ∧ s.waiting 2 = some 0x100000001) ∧
    ∃ s : LockServer ℕ, run LockServer.step (.init ℕ)
        [.acquire 1 5, .acquire 2 6, .acquire 3 5, .acquire 4 6, .release 1 5 (some 4), .wakeUp 4] =
        some s ∧
      ¬ s.Held 5 ∧ s.waiting 3 = some 5 ∧ s.statusCheckCond.woken = [] := by
  refine ⟨⟨_, rfl, ?_⟩, by decide, by decide⟩
  intro h
  obtain ⟨r,hr,hfrees⟩ := h 1 [] ⟨1, .acquire, 1, true⟩ [⟨2, .release, 0x100000001, true⟩]
    ⟨2, .acquire, 1, true⟩ []
    rfl ⟨rfl, rfl, rfl⟩ ⟨rfl, rfl, rfl⟩
  rw [List.mem_singleton.mp hr] at hfrees
  exact absurd hfrees (by decide)

end Yfs.PlainLock
