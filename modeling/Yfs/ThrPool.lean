import Mathlib.Algebra.BigOperators.Group.Multiset.Basic
import Mathlib.Data.List.ReduceOption
import Yfs.Fifo
import Yfs.RefCount
import Yfs.Run

namespace Yfs.Pool

/-- A worker in `takeJob`, in a job, or past `pthread_exit`. -/
inductive Worker (α : Type*)
  | taking
  | running (j : α)
  | exited
  deriving DecidableEq

/-- An entry `none` of `jobq` is a pill, and the producer `none` is the destructor. `adding`
are the calls of `addJob` in progress, `pillsLeft` is set once the destructor has started, and
`joined` counts the workers that it has joined. The last three are the history: what has
entered the queue, who has taken what out of it, and the jobs that have returned. -/
structure ThrPool (n : ℕ) (τ α : Type*) where
  blockadd : Bool
  jobq : Fifo (Option τ) (Fin n) (Option α)
  worker : Fin n → Worker α
  adding : List (τ × α)
  pillsLeft : Option ℕ
  joined : ℕ
  entered : List (Option α)
  taken : List (Fin n × Option α)
  finished : List α

def ThrPool.init (n : ℕ) (τ α : Type*) (blocking : Bool) : ThrPool n τ α :=
  ⟨blocking, .init (100 * n), fun _ => .taking, [], none, 0, [], [], []⟩

/-- `w` is the thread that a signal in the step wakes up; `wakeWorker` and `wakeProducer` are
wake-ups without a signal. -/
inductive PoolAct (n : ℕ) (τ α : Type*)
  | addJob (t : τ) (j : α)
  | enqJob (t : τ) (j : α) (w : Option (Fin n))
  | takeJob (i : Fin n) (w : Option (Option τ))
  | finish (i : Fin n)
  | destroy
  | enqPill (w : Option (Fin n))
  | join
  | wakeWorker (i : Fin n)
  | wakeProducer (p : Option τ)

section
variable {n : ℕ} {τ α : Type*} [DecidableEq τ] [DecidableEq α]

namespace ThrPool

/-- No call is made once the destructor has started. -/
def addJob (s : ThrPool n τ α) (t : τ) (j : α) : Option (ThrPool n τ α) :=
  if s.pillsLeft ≠ none ∨ t ∈ s.adding.map Prod.fst then none
  else some { s with adding := (t, j) :: s.adding }

/-- A pass of `enq` in `addJob`, which returns with the result or waits. -/
def enqJob (s : ThrPool n τ α) (t : τ) (j : α) (w : Option (Fin n)) : Option (ThrPool n τ α) :=
  if (t, j) ∈ s.adding then (s.jobq.enq (some t) (some j) s.blockadd w).map fun r =>
    match r.2 with
    | .done =>
      { s with jobq := r.1, adding := s.adding.erase (t, j), entered := s.entered ++ [some j] }
    -- `addJob` returns false
    | .full => { s with jobq := r.1, adding := s.adding.erase (t, j) }
    | .waits => { s with jobq := r.1 }
  else none

/-- A pass of `deq` in `takeJob`; a worker that gets a pill exits. -/
def takeJob (s : ThrPool n τ α) (i : Fin n) (w : Option (Option τ)) : Option (ThrPool n τ α) :=
  if s.worker i = .taking then (s.jobq.deq i w).map fun r =>
    match r.2 with
    | none => { s with jobq := r.1 }
    | some (some j) => { s with
        jobq := r.1
        worker := Function.update s.worker i (.running j)
        taken := s.taken ++ [(i, some j)] }
    | some none => { s with
        jobq := r.1
        worker := Function.update s.worker i .exited
        taken := s.taken ++ [(i, none)] }
  else none

def finish (s : ThrPool n τ α) (i : Fin n) : Option (ThrPool n τ α) :=
  match s.worker i with
  | .running j => some { s with
      worker := Function.update s.worker i .taking
      finished := s.finished ++ [j] }
  | _ => none

/-- The destructor may be called only when no thread is in `addJob`. -/
def destroy (s : ThrPool n τ α) : Option (ThrPool n τ α) :=
  if s.pillsLeft = none ∧ s.adding = [] then some { s with pillsLeft := some n } else none

/-- A pass of `enq` for the next pill, which always blocks. -/
def enqPill (s : ThrPool n τ α) (w : Option (Fin n)) : Option (ThrPool n τ α) :=
  match s.pillsLeft with
  | some (k + 1) => (s.jobq.enq none none true w).map fun r =>
    match r.2 with
    | .done => { s with jobq := r.1, pillsLeft := some k, entered := s.entered ++ [none] }
    | .full => { s with jobq := r.1, pillsLeft := some k }
    | .waits => { s with jobq := r.1 }
  | _ => none

def join (s : ThrPool n τ α) : Option (ThrPool n τ α) :=
  if h : s.joined < n then
    if s.pillsLeft = some 0 ∧ s.worker ⟨s.joined, h⟩ = .exited then some { s with
      joined := s.joined + 1 } else none
  else none

def step (s : ThrPool n τ α) : PoolAct n τ α → Option (ThrPool n τ α)
  | .addJob t j => s.addJob t j
  | .enqJob t j w => s.enqJob t j w
  | .takeJob i w => s.takeJob i w
  | .finish i => s.finish i
  | .destroy => s.destroy
  | .enqPill w => s.enqPill w
  | .join => s.join
  | .wakeWorker i => (s.jobq.wakeConsumer i).map fun f => { s with jobq := f }
  | .wakeProducer p => (s.jobq.wakeProducer p).map fun f => { s with jobq := f }

def accepted (s : ThrPool n τ α) : List α := s.entered.reduceOption

def pillsTaken (s : ThrPool n τ α) (i : Fin n) : ℕ := s.taken.count (i, none)

def Gone (s : ThrPool n τ α) : Prop := s.pillsLeft = some 0 ∧ s.joined = n

instance (s : ThrPool n τ α) : Decidable s.Gone := inferInstanceAs (Decidable (_ ∧ _))

end ThrPool

variable {s s' : ThrPool n τ α} {a : PoolAct n τ α}

def Worker.job : Worker α → Multiset α
  | .running j => {j}
  | _ => 0

def Worker.pills : Worker α → ℕ
  | .exited => 1
  | _ => 0

/-- A worker with an entry of the queue. -/
def Worker.after : Option α → Worker α
  | some j => .running j
  | none => .exited

inductive PoolStep (s : ThrPool n τ α) : PoolAct n τ α → ThrPool n τ α → Prop
  | call (t : τ) (j : α) (hleft : s.pillsLeft = none) : PoolStep s (.addJob t j) { s with
    adding := (t, j) :: s.adding }
  | accept (t : τ) (j : α) (w : Option (Fin n)) (c : CondVar (Fin n)) (hmem : (t, j) ∈ s.adding)
      (hp : some t ∉ s.jobq.hasSpaceC.parked) (hc : s.jobq.nonEmptyC.signal w = some c) :
      PoolStep s (.enqJob t j w) { s with
        jobq := { s.jobq with
          q := s.jobq.q ++ [some j]
          nonEmptyC := c
          hasSpaceC := s.jobq.hasSpaceC.resume (some t) }
        adding := s.adding.erase (t, j)
        entered := s.entered ++ [some j] }
  | refuse (t : τ) (j : α) (w : Option (Fin n)) (hmem : (t, j) ∈ s.adding) :
      PoolStep s (.enqJob t j w) { s with
        jobq := { s.jobq with hasSpaceC := s.jobq.hasSpaceC.resume (some t) }
        adding := s.adding.erase (t, j) }
  | blockAdd (t : τ) (j : α) (w : Option (Fin n)) (hmem : (t, j) ∈ s.adding) :
      PoolStep s (.enqJob t j w) { s with
        jobq := { s.jobq with hasSpaceC := s.jobq.hasSpaceC.wait (some t) } }
  | park (i : Fin n) (w : Option (Option τ)) (hi : s.worker i = .taking)
      (hp : i ∉ s.jobq.nonEmptyC.parked) (hq : s.jobq.q = []) :
      PoolStep s (.takeJob i w) { s with
        jobq := { s.jobq with nonEmptyC := s.jobq.nonEmptyC.wait i } }
  | take (i : Fin n) (w : Option (Option τ)) (e : Option α) (q : List (Option α))
      (c : CondVar (Option τ))
      (hi : s.worker i = .taking) (hp : i ∉ s.jobq.nonEmptyC.parked) (hq : s.jobq.q = e :: q)
      (hc : s.jobq.hasSpaceC.signal w = some c ∨ c = s.jobq.hasSpaceC) :
      PoolStep s (.takeJob i w) { s with
        jobq := { s.jobq with q := q, nonEmptyC := s.jobq.nonEmptyC.resume i, hasSpaceC := c }
        worker := Function.update s.worker i (.after e)
        taken := s.taken ++ [(i, e)] }
  | finish (i : Fin n) (j : α) (hi : s.worker i = .running j) :
      PoolStep s (.finish i) { s with
        worker := Function.update s.worker i .taking
        finished := s.finished ++ [j] }
  | destroy (hleft : s.pillsLeft = none) (hadd : s.adding = []) : PoolStep s .destroy { s with
      pillsLeft := some n }
  | pill (k : ℕ) (w : Option (Fin n)) (c : CondVar (Fin n)) (hleft : s.pillsLeft = some (k + 1))
      (hp : none ∉ s.jobq.hasSpaceC.parked) (hc : s.jobq.nonEmptyC.signal w = some c) :
      PoolStep s (.enqPill w) { s with
        jobq := { s.jobq with
          q := s.jobq.q ++ [none]
          nonEmptyC := c
          hasSpaceC := s.jobq.hasSpaceC.resume none }
        pillsLeft := some k
        entered := s.entered ++ [none] }
  | blockPill (k : ℕ) (w : Option (Fin n)) (hleft : s.pillsLeft = some (k + 1))
      (hp : none ∉ s.jobq.hasSpaceC.parked) :
      PoolStep s (.enqPill w) { s with
        jobq := { s.jobq with hasSpaceC := s.jobq.hasSpaceC.wait none } }
  | join (h : s.joined < n) (hleft : s.pillsLeft = some 0) (hi : s.worker ⟨s.joined, h⟩ = .exited) :
      PoolStep s .join { s with joined := s.joined + 1 }
  | wakeWorker (i : Fin n) (c : CondVar (Fin n)) (hc : s.jobq.nonEmptyC.signal (some i) = some c) :
      PoolStep s (.wakeWorker i) { s with jobq := { s.jobq with nonEmptyC := c } }
  | wakeProducer (p : Option τ) (c : CondVar (Option τ))
      (hc : s.jobq.hasSpaceC.signal (some p) = some c) :
      PoolStep s (.wakeProducer p) { s with jobq := { s.jobq with hasSpaceC := c } }

theorem poolStep_enqJob {t : τ} {j : α} {w : Option (Fin n)} (h : s.enqJob t j w = some s') :
    PoolStep s (.enqJob t j w) s' := by
  simp only [ThrPool.enqJob, Option.ite_none_right_eq_some] at h
  obtain ⟨hmem,h⟩ := h
  obtain ⟨r,hr,rfl⟩ := Option.map_eq_some_iff.mp h
  obtain ⟨hp,⟨-,c,hc,rfl⟩ | ⟨-,-,rfl⟩ | ⟨-,-,rfl⟩⟩ := Fifo.enq_cases hr
  · exact .accept t j w c hmem hp hc
  · exact .blockAdd t j w hmem
  · exact .refuse t j w hmem

theorem poolStep_takeJob {i : Fin n} {w : Option (Option τ)} (h : s.takeJob i w = some s') :
    PoolStep s (.takeJob i w) s' := by
  simp only [ThrPool.takeJob, Option.ite_none_right_eq_some] at h
  obtain ⟨hi,h⟩ := h
  obtain ⟨r,hr,rfl⟩ := Option.map_eq_some_iff.mp h
  obtain ⟨hp,⟨hq,rfl⟩ | ⟨e,q,c,hq,rfl,hc⟩⟩ := Fifo.deq_cases hr
  · exact .park i w hi hp hq
  · have hsignal : s.jobq.hasSpaceC.signal w = some c ∨ c = s.jobq.hasSpaceC := by
      rcases hc with ⟨-,-,hc⟩ | ⟨-,hc⟩
      · exact .inl hc
      · exact .inr hc
    cases e with
    | none => exact .take i w none q c hi hp hq hsignal
    | some j => exact .take i w (some j) q c hi hp hq hsignal

theorem poolStep_enqPill {w : Option (Fin n)} (h : s.enqPill w = some s') :
    PoolStep s (.enqPill w) s' := by
  unfold ThrPool.enqPill at h
  split at h
  · next k hleft =>
    obtain ⟨r,hr,rfl⟩ := Option.map_eq_some_iff.mp h
    obtain ⟨hp,⟨-,c,hc,rfl⟩ | ⟨-,-,rfl⟩ | ⟨-,hb,-⟩⟩ := Fifo.enq_cases hr
    · exact .pill k w c hleft hp hc
    · exact .blockPill k w hleft hp
    · exact nomatch hb
  · cases h

theorem poolStep_of_step (h : s.step a = some s') : PoolStep s a s' := by
  cases a with
  | addJob t j =>
    simp only [ThrPool.step, ThrPool.addJob, Option.ite_none_left_eq_some, Option.some.injEq,
      not_or, not_not] at h
    obtain ⟨⟨hleft,-⟩,rfl⟩ := h
    exact .call t j hleft
  | enqJob t j w => exact poolStep_enqJob h
  | takeJob i w => exact poolStep_takeJob h
  | finish i =>
    simp only [ThrPool.step, ThrPool.finish] at h
    split at h
    · next j hi =>
      cases h
      exact .finish i j hi
    · cases h
  | destroy =>
    simp only [ThrPool.step, ThrPool.destroy, Option.ite_none_right_eq_some, Option.some.injEq] at h
    obtain ⟨⟨hleft,hadd⟩,rfl⟩ := h
    exact .destroy hleft hadd
  | enqPill w => exact poolStep_enqPill h
  | join =>
    simp only [ThrPool.step, ThrPool.join] at h
    split_ifs at h with hlt hex
    cases h
    exact .join hlt hex.1 hex.2
  | wakeWorker i =>
    obtain ⟨f,hf,rfl⟩ := Option.map_eq_some_iff.mp h
    obtain ⟨c,hc,rfl⟩ := Option.map_eq_some_iff.mp hf
    exact .wakeWorker i c hc
  | wakeProducer p =>
    obtain ⟨f,hf,rfl⟩ := Option.map_eq_some_iff.mp h
    obtain ⟨c,hc,rfl⟩ := Option.map_eq_some_iff.mp hf
    exact .wakeProducer p c hc

/-- The pills that have entered the queue. -/
def ThrPool.pillsIn (s : ThrPool n τ α) : ℕ := s.pillsLeft.elim 0 (n - ·)

/-- Entries leave the queue in the order in which they have entered it; a job that has left it
is running or has returned, and a worker that has taken a pill has exited; jobs enter before
the pills. -/
structure History (s : ThrPool n τ α) : Prop where
  order : s.taken.map Prod.snd ++ s.jobq.q = s.entered
  runs : (s.finished : Multiset α) + ∑ i, (s.worker i).job = (s.taken.map Prod.snd).reduceOption
  exits : ∀ i, s.pillsTaken i = (s.worker i).pills
  pills : s.entered = s.accepted.map some ++ List.replicate s.pillsIn none
  left : ∀ k, s.pillsLeft = some k → k ≤ n
  quiet : s.pillsLeft ≠ none → s.adding = []

omit [DecidableEq τ] in
theorem history_init (b : Bool) : History (ThrPool.init n τ α b) where
  order := rfl
  runs := by simp [ThrPool.init, Worker.job]
  exits i := rfl
  pills := rfl
  left := nofun
  quiet h := absurd rfl h

omit [DecidableEq τ] in
theorem History.take {i : Fin n} {e : Option α} {q : List (Option α)} (h : History s)
    (hi : s.worker i = .taking) (hq : s.jobq.q = e :: q) (c : CondVar (Fin n))
    (c' : CondVar (Option τ)) :
    History { s with
      jobq := { s.jobq with q := q, nonEmptyC := c, hasSpaceC := c' }
      worker := Function.update s.worker i (.after e)
      taken := s.taken ++ [(i, e)] } where
  order := by
    have := h.order
    simp only [hq] at this
    simpa using this
  runs := by
    have hsum := RefCount.sum_update Worker.job s.worker i (.after e)
    have hidle : (Worker.taking : Worker α).job = 0 := rfl
    have hjob : (Worker.after e).job = (([e] : List (Option α)).reduceOption : Multiset α) := by
      cases e <;> rfl
    rw [hi, hidle, add_zero] at hsum
    simp only [List.map_append, List.map_cons, List.map_nil, List.reduceOption_append]
    rw [hsum, ← add_assoc, h.runs, hjob]
    rfl
  exits := by
    intro i'
    have hcount := h.exits i'
    simp only [ThrPool.pillsTaken, List.count_append] at hcount ⊢
    by_cases hne : i' = i
    · subst hne
      rw [hcount, hi, Function.update_self]
      cases e <;> simp [Worker.after, Worker.pills]
    · rw [hcount, Function.update_of_ne hne]
      simp [Ne.symm hne]
  pills := h.pills
  left := h.left
  quiet := h.quiet

theorem History.accept {t : τ} {j : α} (h : History s) (hmem : (t, j) ∈ s.adding)
    (c : CondVar (Fin n)) (c' : CondVar (Option τ)) :
    History { s with
      jobq := { s.jobq with q := s.jobq.q ++ [some j], nonEmptyC := c, hasSpaceC := c' }
      adding := s.adding.erase (t, j)
      entered := s.entered ++ [some j] } where
  order := by
    rw [← h.order, List.append_assoc]
  runs := h.runs
  exits := h.exits
  pills := by
    -- a call in progress: the destructor has not started
    have hnone : s.pillsLeft = none := by
      by_contra hleft
      rw [h.quiet hleft] at hmem
      exact nomatch hmem
    have hpills := h.pills
    simp only [ThrPool.pillsIn, hnone, Option.elim_none, List.replicate_zero, List.append_nil,
      ThrPool.accepted] at hpills ⊢
    rw [List.reduceOption_append, List.map_append, ← hpills]
    rfl
  left := h.left
  quiet hleft := by
    rw [h.quiet hleft]
    rfl

omit [DecidableEq τ] in
theorem History.pill {k : ℕ} (h : History s) (hleft : s.pillsLeft = some (k + 1))
    (c : CondVar (Fin n)) (c' : CondVar (Option τ)) :
    History { s with
      jobq := { s.jobq with q := s.jobq.q ++ [none], nonEmptyC := c, hasSpaceC := c' }
      pillsLeft := some k
      entered := s.entered ++ [none] } where
  order := by
    rw [← h.order, List.append_assoc]
  runs := h.runs
  exits := h.exits
  pills := by
    have hpills := h.pills
    have hk := h.left _ hleft
    have hnext : n - k = n - (k + 1) + 1 := by omega
    simp only [ThrPool.pillsIn, hleft, Option.elim_some, ThrPool.accepted] at hpills ⊢
    rw [List.reduceOption_append, hnext, List.replicate_succ', ← List.append_assoc]
    have hnil : ([none] : List (Option α)).reduceOption = [] := rfl
    rw [hnil, List.append_nil, ← hpills]
  left k' hk' := by
    cases hk'
    exact Nat.le_of_succ_le (h.left _ hleft)
  quiet _ := h.quiet (by simp [hleft])

theorem history_step (h : History s) (hs : PoolStep s a s') : History s' := by
  cases hs with
  | call t j hleft => exact ⟨h.order,h.runs,h.exits,h.pills,h.left,fun hl => absurd hleft hl⟩
  | accept t j w c hmem hp hc => exact h.accept hmem _ _
  | refuse t j w hmem =>
    refine ⟨h.order,h.runs,h.exits,h.pills,h.left,fun hl => ?_⟩
    rw [h.quiet hl]
    rfl
  | take i w e q c hi hp hq hc => exact h.take hi hq _ _
  | finish i j hi =>
    refine ⟨h.order,?_,?_,h.pills,h.left,h.quiet⟩
    · have hsum := RefCount.sum_update Worker.job s.worker i .taking
      have hidle : (Worker.taking : Worker α).job = 0 := rfl
      rw [hi, hidle, add_zero] at hsum
      rw [← h.runs, ← hsum, ← Multiset.coe_add, add_assoc]
      congr 1
      exact add_comm _ _
    · intro i'
      have hcount := h.exits i'
      by_cases hne : i' = i
      · subst hne
        rw [hi] at hcount
        simp only [Function.update_self]
        exact hcount
      · simp only [Function.update_of_ne hne]
        exact hcount
  | destroy hleft hadd =>
    refine ⟨h.order,h.runs,h.exits,?_,?_,fun _ => hadd⟩
    · have hpills := h.pills
      simpa [ThrPool.pillsIn, hleft, ThrPool.accepted] using hpills
    · rintro k ⟨rfl⟩
      exact le_rfl
  | pill k w c hleft hp hc => exact h.pill hleft _ _
  | blockAdd | park | blockPill | join | wakeWorker | wakeProducer =>
    exact ⟨h.order,h.runs,h.exits,h.pills,h.left,h.quiet⟩

/-- Workers wait in `takeJob`, and producers in their calls. -/
structure Waiting (s : ThrPool n τ α) : Prop where
  consumers : ∀ i, s.jobq.nonEmptyC.Waits i → s.worker i = .taking
  producers : ∀ p, s.jobq.hasSpaceC.Waits p →
    (∃ t j, p = some t ∧ (t, j) ∈ s.adding) ∨ (p = none ∧ ∃ k, s.pillsLeft = some (k + 1))

omit [DecidableEq τ] [DecidableEq α] in
theorem waiting_init (b : Bool) : Waiting (ThrPool.init n τ α b) := by
  constructor
  · rintro i (h | h) <;> exact nomatch h
  · rintro p (h | h) <;> exact nomatch h

theorem Waiting.leave (h : Waiting s) (t : τ) (j : α) (p : Option τ)
    (hp : (s.jobq.hasSpaceC.resume (some t)).Waits p) :
    (∃ t' j', p = some t' ∧ (t', j') ∈ s.adding.erase (t, j)) ∨
    (p = none ∧ ∃ k, s.pillsLeft = some (k + 1)) := by
  obtain ⟨hne,hp⟩ := CondVar.waits_resume _ _ p hp
  refine (h.producers p hp).imp_left ?_
  rintro ⟨t',j',rfl,hmem⟩
  refine ⟨t',j',rfl,(List.mem_erase_of_ne ?_).mpr hmem⟩
  rintro ⟨rfl⟩
  exact hne rfl

omit [DecidableEq τ] [DecidableEq α] in
/-- The worker is not parked, so it changes without anybody waiting for it. -/
theorem Waiting.move (h : Waiting s) {i : Fin n} (x : Worker α) (i' : Fin n)
    (hi' : (s.jobq.nonEmptyC.resume i).Waits i') : Function.update s.worker i x i' = .taking := by
  obtain ⟨hne,hi'⟩ := CondVar.waits_resume _ _ i' hi'
  rw [Function.update_of_ne hne]
  exact h.consumers i' hi'

theorem waiting_step (h : Waiting s) (hs : PoolStep s a s') : Waiting s' := by
  cases hs with
  | call t j hleft =>
    refine ⟨h.consumers,fun p hp => (h.producers p hp).imp_left ?_⟩
    rintro ⟨t',j',rfl,hmem⟩
    exact ⟨t',j',rfl,List.mem_cons_of_mem _ hmem⟩
  | accept t j w c hmem hp hc =>
    exact ⟨fun i hi => h.consumers i (CondVar.waits_of_signal _ _ _ hc i hi),h.leave t j⟩
  | refuse t j w hmem => exact ⟨h.consumers,h.leave t j⟩
  | blockAdd t j w hmem =>
    refine ⟨h.consumers,fun p hp => ?_⟩
    rcases CondVar.waits_wait _ _ p hp with rfl | hp
    · exact .inl ⟨t,j,rfl,hmem⟩
    · exact h.producers p hp
  | park i w hi hp hq =>
    refine ⟨fun i' hi' => ?_,h.producers⟩
    rcases CondVar.waits_wait _ _ i' hi' with rfl | hi'
    · exact hi
    · exact h.consumers i' hi'
  | take i w e q c hi hp hq hc =>
    refine ⟨h.move (.after e),fun p hp => h.producers p ?_⟩
    rcases hc with hc | rfl
    · exact CondVar.waits_of_signal _ _ _ hc p hp
    · exact hp
  | finish i j hi =>
    refine ⟨fun i' hi' => ?_,h.producers⟩
    by_cases hne : i' = i
    · exact hne ▸ Function.update_self _ _ _
    · exact (Function.update_of_ne hne _ _).trans (h.consumers i' hi')
  | destroy hleft hadd =>
    refine ⟨h.consumers,fun p hp => ?_⟩
    rcases h.producers p hp with hp | ⟨-,k,hk⟩
    · exact .inl hp
    · exact nomatch hleft.symm.trans hk
  | pill k w c hleft hp hc =>
    refine ⟨fun i hi => h.consumers i (CondVar.waits_of_signal _ _ _ hc i hi),fun p hp' => ?_⟩
    obtain ⟨hne,hp'⟩ := CondVar.waits_resume _ _ p hp'
    rcases h.producers p hp' with hp' | ⟨hnone,-⟩
    · exact .inl hp'
    · exact absurd hnone hne
  | blockPill k w hleft hp =>
    refine ⟨h.consumers,fun p hp' => ?_⟩
    rcases CondVar.waits_wait _ _ p hp' with rfl | hp'
    · exact .inr ⟨rfl,k,hleft⟩
    · exact h.producers p hp'
  | join hlt hleft hi => exact ⟨h.consumers,h.producers⟩
  | wakeWorker i c hc =>
    exact ⟨fun i' hi' => h.consumers i' (CondVar.waits_of_signal _ _ _ hc i' hi'),h.producers⟩
  | wakeProducer p c hc =>
    exact ⟨h.consumers,fun p' hp' => h.producers p' (CondVar.waits_of_signal _ _ _ hc p' hp')⟩

/-- The workers that the destructor has joined have exited. -/
structure Joins (s : ThrPool n τ α) : Prop where
  le : s.joined ≤ n
  exited : ∀ i : Fin n, i.val < s.joined → s.worker i = .exited

omit [DecidableEq τ] [DecidableEq α] in
theorem Joins.move (h : Joins s) {i : Fin n} (hi : s.worker i ≠ .exited) (x : Worker α) (i' : Fin n)
    (hi' : i'.val < s.joined) : Function.update s.worker i x i' = .exited := by
  have hne : i' ≠ i := by
    rintro rfl
    exact hi (h.exited i' hi')
  rw [Function.update_of_ne hne]
  exact h.exited i' hi'

theorem joins_step (h : Joins s) (hs : PoolStep s a s') : Joins s' := by
  cases hs with
  | take i w e q c hi hp hq hc => exact ⟨h.le,h.move (by simp [hi]) _⟩
  | finish i j hi => exact ⟨h.le,h.move (by simp [hi]) _⟩
  | join hlt hleft hi =>
    refine ⟨hlt,fun i hlt' => ?_⟩
    rcases Nat.lt_succ_iff_lt_or_eq.mp hlt' with hlt' | heq
    · exact h.exited i hlt'
    · have hi' : i = ⟨s.joined, hlt⟩ := Fin.ext heq
      exact hi' ▸ hi
  | call | accept | refuse | blockAdd | park | destroy | pill | blockPill | wakeWorker
  | wakeProducer =>
    exact ⟨h.le,h.exited⟩

structure PoolOk (s : ThrPool n τ α) : Prop where
  fifo : s.jobq.Ok
  max : s.jobq.max = 100 * n
  history : History s
  waiting : Waiting s
  joins : Joins s

omit [DecidableEq τ] in
theorem poolOk_init (b : Bool) : PoolOk (ThrPool.init n τ α b) :=
  ⟨Fifo.ok_init _,rfl,history_init b,waiting_init b,Nat.zero_le n,
    fun _ h => absurd h (Nat.not_lt_zero _)⟩

theorem fifo_step (h : s.jobq.Ok) (hs : s.step a = some s') : s'.jobq.Ok := by
  cases a with
  | addJob t j =>
    simp only [ThrPool.step, ThrPool.addJob, Option.ite_none_left_eq_some, Option.some.injEq] at hs
    exact hs.2 ▸ h
  | enqJob t j w =>
    simp only [ThrPool.step, ThrPool.enqJob, Option.ite_none_right_eq_some] at hs
    obtain ⟨⟨f,res⟩,hr,rfl⟩ := Option.map_eq_some_iff.mp hs.2
    cases res <;> exact h.enq hr
  | takeJob i w =>
    simp only [ThrPool.step, ThrPool.takeJob, Option.ite_none_right_eq_some] at hs
    obtain ⟨⟨f,res⟩,hr,rfl⟩ := Option.map_eq_some_iff.mp hs.2
    rcases res with _ | _ | j <;> exact h.deq hr
  | finish i =>
    simp only [ThrPool.step, ThrPool.finish] at hs
    split at hs <;> cases hs
    exact h
  | destroy =>
    simp only [ThrPool.step, ThrPool.destroy, Option.ite_none_right_eq_some,
      Option.some.injEq] at hs
    exact hs.2 ▸ h
  | enqPill w =>
    simp only [ThrPool.step, ThrPool.enqPill] at hs
    split at hs
    · obtain ⟨⟨f,res⟩,hr,rfl⟩ := Option.map_eq_some_iff.mp hs
      cases res <;> exact h.enq hr
    · cases hs
  | join =>
    simp only [ThrPool.step, ThrPool.join] at hs
    split_ifs at hs
    cases hs
    exact h
  | wakeWorker i =>
    obtain ⟨f,hf,rfl⟩ := Option.map_eq_some_iff.mp hs
    exact h.wakeConsumer hf
  | wakeProducer p =>
    obtain ⟨f,hf,rfl⟩ := Option.map_eq_some_iff.mp hs
    exact h.wakeProducer hf

theorem poolOk_step (h : PoolOk s) (hs : s.step a = some s') : PoolOk s' := by
  have hstep := poolStep_of_step hs
  refine ⟨fifo_step h.fifo hs,?_,history_step h.history hstep,waiting_step h.waiting hstep,
    joins_step h.joins hstep⟩
  cases hstep <;> exact h.max

theorem sum_count_fst (l : List (Fin n × Option α)) :
    ∑ i, l.count (i, none) = (l.map Prod.snd).count none := by
  induction l with
  | nil => simp
  | cons x l ih =>
    obtain ⟨i,e⟩ := x
    simp only [List.count_cons, Finset.sum_add_distrib, ih, List.map_cons]
    cases e <;> simp

omit [DecidableEq τ] in
/-- Every pill that has left the queue has ended a worker. -/
theorem History.exits_sum (h : History s) :
    (s.taken.map Prod.snd).count none = ∑ i, (s.worker i).pills := by
  rw [← sum_count_fst]
  exact Finset.sum_congr rfl fun i _ => h.exits i

omit [DecidableEq τ] in
theorem History.pills_count (h : History s) :
    ∑ i, (s.worker i).pills + s.jobq.q.count none = s.pillsIn := by
  have hcount : s.entered.count none = s.pillsIn := by
    have hjobs : (s.accepted.map some).count none = 0 := by simp [List.count_eq_zero]
    rw [h.pills, List.count_append, hjobs, List.count_replicate_self, Nat.zero_add]
  rw [← h.exits_sum, ← List.count_append, h.order, hcount]

omit [DecidableEq α] in
theorem Worker.pills_le (x : Worker α) : x.pills ≤ 1 := by
  cases x <;> simp [Worker.pills]

theorem all_exited_iff (w : Fin n → Worker α) : (∀ i, w i = .exited) ↔ ∑ i, (w i).pills = n := by
  constructor
  · intro h
    simp [h, Worker.pills]
  · intro h i
    by_contra hi
    have hzero : (w i).pills = 0 := by
      cases hw : w i with
      | exited => exact absurd hw hi
      | taking => rfl
      | running j => rfl
    have hlt : ∑ i, (w i).pills < ∑ _i : Fin n, 1 :=
      Finset.sum_lt_sum (fun i _ => (w i).pills_le) ⟨i,Finset.mem_univ i,by omega⟩
    simp [h] at hlt

omit [DecidableEq τ] in
/-- Once all workers have taken their pill there is nothing behind the pills. -/
theorem History.drained (h : History s) (hn : 0 < n) (hexit : ∀ i, s.worker i = .exited) :
    s.jobq.q = [] := by
  have hall := (all_exited_iff s.worker).mp hexit
  have hcount := h.pills_count
  have hsum := h.exits_sum
  have hin : s.pillsIn ≤ n := by
    unfold ThrPool.pillsIn
    cases s.pillsLeft with
    | none => exact Nat.zero_le n
    | some k => exact Nat.sub_le n k
  have hnone : none ∈ s.taken.map Prod.snd := List.count_pos_iff.mp (by omega)
  have horder := h.order.trans h.pills
  rcases List.append_eq_append_iff.mp horder with ⟨r,hr,-⟩ | ⟨r,-,hr⟩
  · -- all that comes before a job is jobs
    have hmem : none ∈ s.accepted.map some := hr ▸ List.mem_append_left r hnone
    simp at hmem
  · have hpills : ∀ e ∈ s.jobq.q, none = e := by
      intro e he
      exact (List.eq_of_mem_replicate (hr ▸ List.mem_append_right r he)).symm
    have hlen := List.count_eq_length.mpr hpills
    exact List.length_eq_zero_iff.mp (by omega)

/-- A wake-up without a signal. -/
def PoolAct.isWake : PoolAct n τ α → Bool
  | .wakeWorker _ | .wakeProducer _ => true
  | _ => false

/-- Every worker has exited or is parked. -/
def Stalled (s : ThrPool n τ α) : Prop := ∀ i, s.worker i = .exited ∨ i ∈ s.jobq.nonEmptyC.parked

/-- A worker that is in a job, or in `takeJob` and not parked, can go on. -/
theorem stalled_of_stuck (hstuck : ∀ a s', s.step a = some s' → a.isWake = true) : Stalled s := by
  intro i
  by_contra hi
  rw [not_or] at hi
  cases hw : s.worker i with
  | exited => exact hi.1 hw
  | running j =>
    have hstep : s.step (.finish i) ≠ none := by simp [ThrPool.step, ThrPool.finish, hw]
    obtain ⟨s',hs⟩ := Option.ne_none_iff_exists'.mp hstep
    exact nomatch hstuck _ s' hs
  | taking =>
    obtain ⟨w,r,hr⟩ := s.jobq.exists_deq hi.2
    have hstep : s.step (.takeJob i w) ≠ none := by simp [ThrPool.step, ThrPool.takeJob, hw, hr]
    obtain ⟨s',hs⟩ := Option.ne_none_iff_exists'.mp hstep
    exact nomatch hstuck _ s' hs

section
omit [DecidableEq τ]

/-- Then the queue is empty, unless all of them have exited. -/
theorem PoolOk.stalled (h : PoolOk s) (hst : Stalled s) :
    (∀ i, s.worker i = .exited) ∨ s.jobq.q = [] := by
  by_cases hparked : s.jobq.nonEmptyC.parked = []
  · left
    intro i
    have hi := hst i
    rw [hparked] at hi
    exact hi.resolve_right nofun
  · right
    -- whoever is woken up is in `takeJob`, and neither parked nor gone
    have hwoken : s.jobq.nonEmptyC.woken = [] := by
      refine List.eq_nil_iff_forall_not_mem.mpr fun i hi => ?_
      have htaking := h.waiting.consumers i (.inr hi)
      rcases hst i with hex | hp
      · exact nomatch htaking.symm.trans hex
      · exact (List.nodup_append.mp s.jobq.nonEmptyC.nodup).2.2 i hp i hi rfl
    have hlen := h.fifo.consumers hparked
    rw [hwoken] at hlen
    exact List.length_eq_zero_iff.mp (Nat.le_zero.mp hlen)

theorem PoolOk.only_destructor (h : PoolOk s) (hstarted : s.pillsLeft ≠ none) (p : Option τ)
    (hp : s.jobq.hasSpaceC.Waits p) : p = none := by
  rcases h.waiting.producers p hp with ⟨t,j,-,hmem⟩ | ⟨hp,-⟩
  · rw [h.history.quiet hstarted] at hmem
    exact nomatch hmem
  · exact hp

/-- The destructor is not parked for ever with all workers stalled. -/
theorem PoolOk.pills_go_on (h : PoolOk s) (hn : 0 < n) (hst : Stalled s) {k : ℕ}
    (hleft : s.pillsLeft = some (k + 1)) : none ∉ s.jobq.hasSpaceC.parked := by
  intro hparked
  have hwoken : s.jobq.hasSpaceC.woken = [] := by
    refine List.eq_nil_iff_forall_not_mem.mpr fun p hp => ?_
    have hnone := h.only_destructor (by simp [hleft]) p (.inr hp)
    exact (List.nodup_append.mp s.jobq.hasSpaceC.nodup).2.2 none hparked p hp hnone.symm
  have hfull := h.fifo.producers (List.ne_nil_of_mem hparked)
  rw [hwoken, h.max, List.length_nil] at hfull
  rcases h.stalled hst with hexit | hq
  · -- fewer than `n` pills have been sent
    have hcount := h.history.pills_count
    have hk := h.history.left _ hleft
    rw [(all_exited_iff s.worker).mp hexit, ThrPool.pillsIn, hleft, Option.elim_some] at hcount
    omega
  · rw [hq, List.length_nil] at hfull
    omega

end

/-- A shutdown that cannot go on is over. -/
theorem PoolOk.gone_of_stuck (h : PoolOk s) (hn : 0 < n) (hstarted : s.pillsLeft ≠ none)
    (hstuck : ∀ a s', s.step a = some s' → a.isWake = true) :
    s.Gone ∧ ∀ i, s.worker i = .exited := by
  have hst := stalled_of_stuck hstuck
  obtain ⟨k,hleft⟩ := Option.ne_none_iff_exists'.mp hstarted
  cases k with
  | succ k =>
    obtain ⟨w,r,hr⟩ := s.jobq.exists_enq none true (h.pills_go_on hn hst hleft)
    have hstep : s.step (.enqPill w) ≠ none := by simp [ThrPool.step, ThrPool.enqPill, hleft, hr]
    obtain ⟨s',hs⟩ := Option.ne_none_iff_exists'.mp hstep
    exact nomatch hstuck _ s' hs
  | zero =>
    have hexit : ∀ i, s.worker i = .exited := by
      rcases h.stalled hst with hexit | hq
      · exact hexit
      · -- all pills have been sent, and none is in the queue
        have hcount := h.history.pills_count
        rw [hq, ThrPool.pillsIn, hleft] at hcount
        exact (all_exited_iff s.worker).mpr (by simpa using hcount)
    refine ⟨⟨hleft,?_⟩,hexit⟩
    by_contra hjoined
    have hlt : s.joined < n := Nat.lt_of_le_of_ne h.joins.le hjoined
    have hstep : s.step .join ≠ none := by simp [ThrPool.step, ThrPool.join, hlt, hleft, hexit]
    obtain ⟨s',hs⟩ := Option.ne_none_iff_exists'.mp hstep
    exact nomatch hstuck _ s' hs

/-- What a worker still has to do, parking included, until it comes back for an entry. -/
def Worker.weight : Worker α → ℕ
  | .running _ => 2
  | .taking => 1
  | .exited => 0

/-- What is left of the shutdown. A parked worker or destructor has no step to make, so waking
one up costs one. -/
def ThrPool.work (s : ThrPool n τ α) : ℕ :=
  5 * s.pillsLeft.getD 0 + 3 * s.jobq.q.length +
    (∑ i, (s.worker i).weight - s.jobq.nonEmptyC.parked.length)
    + (1 - s.jobq.hasSpaceC.parked.length) + (n - s.joined)

omit [DecidableEq τ] [DecidableEq α] in
theorem Waiting.parked_le (h : Waiting s) :
    s.jobq.nonEmptyC.parked.length ≤ ∑ i, (s.worker i).weight := by
  have hnodup := List.Nodup.of_append_left s.jobq.nonEmptyC.nodup
  calc s.jobq.nonEmptyC.parked.length = ∑ i ∈ s.jobq.nonEmptyC.parked.toFinset, 1 := by
        rw [← Finset.card_eq_sum_ones, List.toFinset_card_of_nodup hnodup]
    _ = ∑ i ∈ s.jobq.nonEmptyC.parked.toFinset, (s.worker i).weight := by
        refine Finset.sum_congr rfl fun i hi => ?_
        rw [h.consumers i (.inl (List.mem_toFinset.mp hi))]
        rfl
    _ ≤ ∑ i, (s.worker i).weight := Finset.sum_le_sum_of_subset (Finset.subset_univ _)

omit [DecidableEq τ] in
theorem PoolOk.destructor_parked (h : PoolOk s) (hstarted : s.pillsLeft ≠ none)
    (hp : none ∉ s.jobq.hasSpaceC.parked) : s.jobq.hasSpaceC.parked = [] := by
  refine List.eq_nil_iff_forall_not_mem.mpr fun p hmem => hp ?_
  exact h.only_destructor hstarted p (.inl hmem) ▸ hmem

theorem started_step (hs : PoolStep s a s') (h : s.pillsLeft ≠ none) :
    s'.pillsLeft ≠ none := by
  cases hs with
  | destroy | pill => exact nofun
  | call | accept | refuse | blockAdd | park | take | finish | blockPill | join | wakeWorker
  | wakeProducer => exact h

omit [DecidableEq α] in
theorem weight_after_le (e : Option α) : (Worker.after e).weight ≤ 2 := by
  cases e <;> simp [Worker.after, Worker.weight]

theorem work_wake (hs : PoolStep s a s') (ha : a.isWake = true) :
    s'.work ≤ s.work + 1 := by
  cases hs with
  | wakeWorker i c hc =>
    have := CondVar.parked_signal_le hc
    simp only [ThrPool.work]
    omega
  | wakeProducer p c hc =>
    have := CondVar.parked_signal_le hc
    simp only [ThrPool.work]
    omega
  | call | accept | refuse | blockAdd | park | take | finish | destroy | pill | blockPill | join =>
    exact nomatch ha

theorem work_step (h : PoolOk s) (h' : PoolOk s') (hstarted : s.pillsLeft ≠ none)
    (hs : PoolStep s a s') (ha : a.isWake = false) : s'.work + 1 ≤ s.work := by
  have hadd := h.history.quiet hstarted
  have hle := h.waiting.parked_le
  have hle' := h'.waiting.parked_le
  cases hs with
  | call t j hleft => exact absurd hleft hstarted
  | accept t j w c hmem hp hc => exact nomatch hadd ▸ hmem
  | refuse t j w hmem => exact nomatch hadd ▸ hmem
  | blockAdd t j w hmem => exact nomatch hadd ▸ hmem
  | destroy hleft => exact absurd hleft hstarted
  | park i w hi hp hq =>
    simp only [ThrPool.work, CondVar.parked_wait hp, List.length_cons] at hle' ⊢
    omega
  | take i w e q c hi hp hq hc =>
    have hsum := RefCount.sum_update Worker.weight s.worker i (.after e)
    have htaking : (Worker.taking : Worker α).weight = 1 := rfl
    have hafter := weight_after_le e
    have hspace : s.jobq.hasSpaceC.parked.length ≤ c.parked.length + 1 := by
      rcases hc with hc | rfl
      · exact (CondVar.parked_signal_le hc).2
      · exact Nat.le_succ _
    rw [hi, htaking] at hsum
    simp only [ThrPool.work, CondVar.parked_resume hp, hq, List.length_cons] at hle' ⊢
    omega
  | finish i j hi =>
    have hsum := RefCount.sum_update Worker.weight s.worker i .taking
    have hrunning : (Worker.running j).weight = 2 := rfl
    have htaking : (Worker.taking : Worker α).weight = 1 := rfl
    rw [hi, hrunning, htaking] at hsum
    simp only [ThrPool.work] at hle' ⊢
    omega
  | pill k w c hleft hp hc =>
    have := CondVar.parked_signal_le hc
    simp only [ThrPool.work, CondVar.parked_resume hp, hleft, Option.getD_some, List.length_append,
      List.length_singleton]
    omega
  | blockPill k w hleft hp =>
    simp only [ThrPool.work, CondVar.parked_wait hp, h.destructor_parked hstarted hp,
      List.length_cons, List.length_nil]
    omega
  | join hlt hleft hi =>
    simp only [ThrPool.work]
    omega
  | wakeWorker | wakeProducer => exact nomatch ha

/-- What holds of the pool at any time: the queue keeps to its capacity; jobs leave it in the
order in which they were accepted; every accepted job has returned, is running or is in the queue,
once; who has exited has taken one pill, and the others none; the destructor returns after all
workers have exited, and then there is nothing in the queue and all that was accepted has been
run. -/
structure Sound (s : ThrPool n τ α) : Prop where
  capacity : s.jobq.q.length ≤ 100 * n
  order : (s.taken.map Prod.snd).reduceOption ++ s.jobq.q.reduceOption = s.accepted
  once : (s.finished : Multiset α) + ∑ i, (s.worker i).job + (s.jobq.q.reduceOption : Multiset α) =
    s.accepted
  pills : ∀ i, s.pillsTaken i = (s.worker i).pills
  gone : s.Gone → ∀ i, s.worker i = .exited
  drained : (∀ i, s.worker i = .exited) → s.jobq.q = [] ∧ s.finished.Perm s.accepted

omit [DecidableEq τ] in
theorem PoolOk.sound (h : PoolOk s) (hn : 0 < n) : Sound s := by
  have horder : (s.taken.map Prod.snd).reduceOption ++ s.jobq.q.reduceOption = s.accepted := by
    rw [← List.reduceOption_append, h.history.order]
    rfl
  have honce : (s.finished : Multiset α) + ∑ i, (s.worker i).job + (s.jobq.q.reduceOption :
      Multiset α) = s.accepted := by
    rw [h.history.runs, Multiset.coe_add, horder]
  refine ⟨?_,horder,honce,h.history.exits,fun hgone i => ?_,fun hexit => ?_⟩
  · have hbound := h.fifo.bound
    rw [h.max] at hbound
    exact hbound (by omega)
  · exact h.joins.exited i (hgone.2.symm ▸ i.isLt)
  · have hq := h.history.drained hn hexit
    refine ⟨hq,Multiset.coe_eq_coe.mp ?_⟩
    have hidle : ∑ i, (s.worker i).job = 0 := Finset.sum_eq_zero fun i _ => by rw [hexit i]; rfl
    rw [hq, hidle] at honce
    simpa using honce

theorem PoolOk.reachable {b : Bool} {as : List (PoolAct n τ α)}
    (hr : run ThrPool.step (.init n τ α b) as = some s) : PoolOk s :=
  run_invariant ThrPool.step PoolOk (fun _ _ _ => poolOk_step) _ s as (poolOk_init b) hr

/-- The shutdown takes a bounded number of steps, besides the wake-ups without a signal. -/
theorem PoolOk.shutdown_bound {bs : List (PoolAct n τ α)} (h : PoolOk s)
    (hstarted : s.pillsLeft ≠ none) (hr : run ThrPool.step s bs = some s') :
    bs.countP (fun a => !a.isWake) + s'.work ≤ s.work + bs.countP PoolAct.isWake := by
  refine run_work ThrPool.step (fun s => PoolOk s ∧ s.pillsLeft ≠ none) ThrPool.work PoolAct.isWake
    ?_ ?_ ?_ s s' bs ⟨h,hstarted⟩ hr
  · rintro s a s' ⟨hok,hleft⟩ hs
    exact ⟨poolOk_step hok hs,started_step (poolStep_of_step hs) hleft⟩
  · rintro s a s' - hs ha
    exact work_wake (poolStep_of_step hs) ha
  · rintro s a s' ⟨hok,hleft⟩ hs ha
    exact work_step hok (poolOk_step hok hs) hleft (poolStep_of_step hs) ha

/-- In any interleaving no job is lost, and once the destructor has started it comes to its
end: as long as it has not returned somebody can go on, and there is a bound on their steps. -/
theorem pool_shutdown (hn : 0 < n) (b : Bool) (as : List (PoolAct n τ α)) (s : ThrPool n τ α)
    (hr : run ThrPool.step (.init n τ α b) as = some s) : Sound s ∧
    (s.pillsLeft ≠ none →
      ((∀ a s', s.step a = some s' → a.isWake = true) → s.Gone) ∧
      ∀ bs s', run ThrPool.step s bs = some s' →
        bs.countP (fun a => !a.isWake) ≤ s.work + bs.countP PoolAct.isWake) := by
  have hok := PoolOk.reachable hr
  refine ⟨hok.sound hn,fun hstarted => ⟨fun hstuck => ?_,fun bs s' hr' => ?_⟩⟩
  · exact (hok.gone_of_stuck hn hstarted hstuck).1
  · have := hok.shutdown_bound hstarted hr'
    omega

end

/-- A worker parks, two jobs come, the destructor is called while the first one runs, and both
have been run when it returns. -/
theorem pool_shutdown_two : ∃ as s, run ThrPool.step (.init 2 Bool ℕ true) as = some s ∧ s.Gone ∧
    s.accepted = [7, 8] ∧ s.jobq.q = [] ∧ s.finished.Perm [7, 8] := by
  have hends : ∃ s, run ThrPool.step (.init 2 Bool ℕ true)
      [.takeJob 0 none, .addJob true 7, .addJob false 8, .enqJob true 7 (some 0), .takeJob 1 none,
        .enqJob false 8 none, .destroy, .takeJob 0 none, .enqPill none, .finish 0, .takeJob 0 none,
        .enqPill none, .join, .finish 1, .takeJob 1 none, .join] = some s ∧ s.Gone ∧
          s.accepted = [7, 8] := by decide +kernel
  obtain ⟨s,hr,hgone,hacc⟩ := hends
  have hsound := (pool_shutdown (by decide) true _ s hr).1
  obtain ⟨hq,hperm⟩ := hsound.drained (hsound.gone hgone)
  exact ⟨_,s,hr,hgone,hacc,hq,hacc ▸ hperm⟩

end Yfs.Pool
