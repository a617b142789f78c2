import Yfs.LockedStore

namespace Yfs

/-- `remove` marks a cell in a way that no other operation looks at; `undef` is
undefined behaviour. -/
inductive Prog (ε ν ρ : Type*)
  | ret (r : ρ)
  | acquire (e : ε) (k : Prog ε ν ρ)
  | release (e : ε) (k : Prog ε ν ρ)
  | get (e : ε) (k : ν → Prog ε ν ρ)
  | put (e : ε) (v : ν) (k : Prog ε ν ρ)
  | remove (e : ε) (k : Prog ε ν ρ)
  | undef

/-- The history of a system, as its callers see it. -/
inductive CallEv (θ ω ρ : Type*)
  | called (t : θ) (c : ω)
  | returned (t : θ) (c : ω) (r : ρ)
  deriving DecidableEq

/-- A call in progress, with two history variables: `seen`, for a cell that the thread
holds and has read, what it read first and what is there now; and `reads`, all that it
has read since it was called. -/
structure Running (ε ν ω ρ : Type*) where
  call : ω
  prog : Prog ε ν ρ
  seen : ε → Option (ν × ν)
  reads : List (ε × ν)

structure Threads (θ ε ν ω ρ : Type*) where
  running : θ → Option (Running ε ν ω ρ)
  history : List (CallEv θ ω ρ)

structure LockedSys (θ ε ν ω ρ : Type*) where
  threads : Threads θ ε ν ω ρ
  store : LockedStore θ ε ν

inductive ProgAct (θ ε ν ω : Type*)
  | call (t : θ) (c : ω)
  | op (ev : StoreEv θ ε ν)
  | remove (t : θ)

def StoreEv.thread {θ ε ν : Type*} : StoreEv θ ε ν → θ
  | acquire t _ => t
  | release t _ => t
  | get t _ _ => t
  | put t _ _ => t

def ProgAct.event {θ ε ν ω : Type*} : ProgAct θ ε ν ω → Option (StoreEv θ ε ν)
  | op ev => some ev
  | _ => none

def ProgAct.map {θ ε ν ω ω' : Type*} (f : ω → ω') : ProgAct θ ε ν ω → ProgAct θ ε ν ω'
  | call t c => call t (f c)
  | op ev => op ev
  | remove t => remove t

def Threads.init (θ ε ν ω ρ : Type*) : Threads θ ε ν ω ρ := ⟨fun _ => none, []⟩

section
variable {θ ε ν ω ρ : Type*} [DecidableEq θ] [DecidableEq ε] [DecidableEq ν]

/-- What is left of a program after its next operation. -/
def Prog.next : Prog ε ν ρ → StoreEv θ ε ν → Option (Prog ε ν ρ)
  | .acquire e k, .acquire _ e' => if e' = e then some k else none
  | .release e k, .release _ e' => if e' = e then some k else none
  | .get e k, .get _ e' v => if e' = e then some (k v) else none
  | .put e v k, .put _ e' v' => if e' = e ∧ v' = v then some k else none
  | _, _ => none

def seenAfter (seen : ε → Option (ν × ν)) : StoreEv θ ε ν → ε → Option (ν × ν)
  | .acquire _ _ => seen
  | .release _ e => Function.update seen e none
  | .get _ e v => Function.update seen e (some (((seen e).map Prod.fst).getD v, v))
  | .put _ e v => Function.update seen e ((seen e).map fun x => (x.1, v))

def readsAfter (reads : List (ε × ν)) : StoreEv θ ε ν → List (ε × ν)
  | .get _ e v => reads ++ [(e, v)]
  | _ => reads

namespace Threads

/-- A thread goes on with its program; a call that has no more to do returns. -/
def resume (s : Threads θ ε ν ω ρ) (t : θ) (r : Running ε ν ω ρ) : Option (Threads θ ε ν ω ρ) :=
  match r.prog with
  | .ret res => some ⟨Function.update s.running t none, s.history ++ [.returned t r.call res]⟩
  | .undef => none
  | _ => some { s with running := Function.update s.running t (some r) }

def step (body : ω → Prog ε ν ρ) (s : Threads θ ε ν ω ρ) :
    ProgAct θ ε ν ω → Option (Threads θ ε ν ω ρ)
  | .call t c =>
    match s.running t with
    | none => some ⟨Function.update s.running t (some ⟨c, body c, fun _ => none, []⟩),
        s.history ++ [.called t c]⟩
    | some _ => none
  | .op ev => (s.running ev.thread).bind fun r => (r.prog.next ev).bind fun p =>
      s.resume ev.thread ⟨r.call, p, seenAfter r.seen ev, readsAfter r.reads ev⟩
  | .remove t => (s.running t).bind fun r =>
      match r.prog with
      | .remove _ k => s.resume t ⟨r.call, k, r.seen, r.reads⟩
      | _ => none

end Threads

namespace LockedSys

/-- The operations are those of the store, in the order in which threads do them. -/
def step (body : ω → Prog ε ν ρ) (s : LockedSys θ ε ν ω ρ) (a : ProgAct θ ε ν ω) :
    Option (LockedSys θ ε ν ω ρ) :=
  (s.threads.step body a).bind fun ts =>
    (match a.event with
      | none => some s.store
      | some ev => s.store.step ev).map fun st => ⟨ts, st⟩

end LockedSys

/-- Threads whose operations are a run of the store are a run of both. -/
theorem lockedSys_run (body : ω → Prog ε ν ρ) (acts : List (ProgAct θ ε ν ω))
    (ts ts' : Threads θ ε ν ω ρ) (st st' : LockedStore θ ε ν)
    (hts : run (Threads.step body) ts acts = some ts')
    (hst : run LockedStore.step st (acts.filterMap ProgAct.event) = some st') :
    run (LockedSys.step body) ⟨ts, st⟩ acts = some ⟨ts', st'⟩ := by
  induction acts generalizing ts st with
  | nil =>
    cases hts
    cases hst
    rfl
  | cons a acts ih =>
    obtain ⟨t1,ht1,hrest⟩ := run_cons_some _ ts ts' a acts hts
    cases ha : a.event with
    | none =>
      rw [List.filterMap_cons_none ha] at hst
      have hone : LockedSys.step body ⟨ts, st⟩ a = some ⟨t1, st⟩ := by
        simp [LockedSys.step, ht1, ha]
      rw [run, hone]
      exact ih t1 st hrest hst
    | some ev =>
      rw [List.filterMap_cons_some ha] at hst
      obtain ⟨s1,hs1,hst1⟩ := run_cons_some _ st st' ev _ hst
      have hone : LockedSys.step body ⟨ts, st⟩ a = some ⟨t1, s1⟩ := by
        simp [LockedSys.step, ht1, ha, hs1]
      rw [run, hone]
      exact ih t1 s1 hrest hst1

/-- What a call has to keep to in its writes, its releases on the way and its result,
by what it has seen of the cells that it holds and has read before. -/
structure ProgSpec (ε ν ρ : Type*) where
  putOk : (ε → Option (ν × ν)) → List (ε × ν) → ε → ν → Prop
  relOk : (ε → Option (ν × ν)) → ε → Prop
  retOk : (ε → Option (ν × ν)) → ε → ρ → Prop

/-- The program writes only cells that it has read. -/
def ProgSpec.readFirst (ε ν ρ : Type*) : ProgSpec ε ν ρ where
  putOk _ reads e _ := ∃ v, (e, v) ∈ reads
  relOk _ _ := True
  retOk _ _ _ := True

/-- The program keeps to the specification. A call returns from a `release`; an
`acquire` of a cell that the thread holds itself blocks for ever. -/
def Prog.Sat (Q : ProgSpec ε ν ρ) : (ε → Option (ν × ν)) → List (ε × ν) → Prog ε ν ρ → Prop
  | _, _, .ret _ => False
  | seen, reads, .acquire e k => seen e = none → k.Sat Q seen reads
  | seen, reads, .release e k => (∀ r, k = .ret r → Q.retOk seen e r) ∧
      ((∀ r, k ≠ .ret r) → Q.relOk seen e ∧ k.Sat Q (Function.update seen e none) reads)
  | seen, reads, .get e k => ∀ v, (∀ x, seen e = some x → x.2 = v) →
      (k v).Sat Q (Function.update seen e (some (((seen e).map Prod.fst).getD v, v)))
        (reads ++ [(e, v)])
  | seen, reads, .put e v k => Q.putOk seen reads e v ∧
      k.Sat Q (Function.update seen e ((seen e).map fun x => (x.1, v))) reads
  | seen, reads, .remove _ k => k.Sat Q seen reads
  | _, _, .undef => True

/-- The same program with other results. -/
def Prog.map {ρ' : Type*} (f : ρ → ρ') : Prog ε ν ρ → Prog ε ν ρ'
  | .ret r => .ret (f r)
  | .acquire e k => .acquire e (k.map f)
  | .release e k => .release e (k.map f)
  | .get e k => .get e fun v => (k v).map f
  | .put e v k => .put e v (k.map f)
  | .remove e k => .remove e (k.map f)
  | .undef => .undef

omit [DecidableEq ε] [DecidableEq ν] in
theorem Prog.map_eq_ret {ρ' : Type*} {f : ρ → ρ'} {p : Prog ε ν ρ} {r' : ρ'}
    (h : p.map f = .ret r') :
    ∃ r, p = .ret r ∧ f r = r' := by
  cases p <;> cases h
  exact ⟨_, rfl, rfl⟩

omit [DecidableEq ν] in
theorem Prog.Sat.map {ρ' : Type*} {f : ρ → ρ'} {Q : ProgSpec ε ν ρ} {Q' : ProgSpec ε ν ρ'}
    (hput : ∀ seen reads e v, Q.putOk seen reads e v → Q'.putOk seen reads e v)
    (hrel : ∀ seen e, Q.relOk seen e → Q'.relOk seen e)
    (hret : ∀ seen e r, Q.retOk seen e r → Q'.retOk seen e (f r)) {p : Prog ε ν ρ}
    {seen : ε → Option (ν × ν)} {reads : List (ε × ν)} (h : p.Sat Q seen reads) :
    (p.map f).Sat Q' seen reads := by
  induction p generalizing seen reads with
  | ret r => exact h
  | acquire e k ih => exact fun hseen => ih (h hseen)
  | release e k ih =>
    refine ⟨fun r' hr' => ?_, fun hne => ?_⟩
    · obtain ⟨r,rfl,rfl⟩ := Prog.map_eq_ret hr'
      exact hret _ _ _ (h.1 r rfl)
    · have hk : ∀ r, k ≠ .ret r := by
        rintro r rfl
        exact hne _ rfl
      exact ⟨hrel _ _ (h.2 hk).1, ih (h.2 hk).2⟩
  | get e k ih => exact fun v hv => ih v (h v hv)
  | put e v k ih => exact ⟨hput _ _ _ _ h.1, ih h.2⟩
  | remove e k ih => exact ih h
  | undef => trivial

/-- The program does not write `e`. -/
def Prog.Spares (e : ε) : Prog ε ν ρ → Prop
  | .acquire _ k | .release _ k | .remove _ k => k.Spares e
  | .get _ k => ∀ v, (k v).Spares e
  | .put e' _ k => e' ≠ e ∧ k.Spares e
  | .ret _ | .undef => True

/-- The program writes `e` at most once. -/
def Prog.PutsOnce (e : ε) : Prog ε ν ρ → Prop
  | .acquire _ k | .release _ k | .remove _ k => k.PutsOnce e
  | .get _ k => ∀ v, (k v).PutsOnce e
  | .put e' _ k => (e' = e → k.Spares e) ∧ (e' ≠ e → k.PutsOnce e)
  | .ret _ | .undef => True

/-- The steps of a system of threads, by the operation that is done. -/
inductive ProgStep (body : ω → Prog ε ν ρ) (s : LockedSys θ ε ν ω ρ) :
    ProgAct θ ε ν ω → LockedSys θ ε ν ω ρ → Prop
  | call (t : θ) (c : ω) (hidle : s.threads.running t = none) :
      ProgStep body s (.call t c) ⟨⟨Function.update s.threads.running t
        (some ⟨c, body c, fun _ => none, []⟩), s.threads.history ++ [.called t c]⟩, s.store⟩
  | acquire (t : θ) (r : Running ε ν ω ρ) (e : ε) (k : Prog ε ν ρ)
      (hr : s.threads.running t = some r) (hp : r.prog = .acquire e k)
      (hfree : s.store.holder e = none) :
      ProgStep body s (.op (.acquire t e)) ⟨{ s.threads with
        running := Function.update s.threads.running t (some ⟨r.call, k, r.seen, r.reads⟩) },
        { s.store with holder := Function.update s.store.holder e (some t) }⟩
  | release (t : θ) (r : Running ε ν ω ρ) (e : ε) (k : Prog ε ν ρ)
      (hr : s.threads.running t = some r) (hp : r.prog = .release e k) (hk : ∀ res, k ≠ .ret res)
      (hheld : s.store.holder e = some t) :
      ProgStep body s (.op (.release t e)) ⟨{ s.threads with
        running := Function.update s.threads.running t
          (some ⟨r.call, k, Function.update r.seen e none, r.reads⟩) },
        { s.store with holder := Function.update s.store.holder e none }⟩
  | ret (t : θ) (r : Running ε ν ω ρ) (e : ε) (res : ρ) (hr : s.threads.running t = some r)
      (hp : r.prog = .release e (.ret res)) (hheld : s.store.holder e = some t) :
      ProgStep body s (.op (.release t e)) ⟨⟨Function.update s.threads.running t none,
        s.threads.history ++ [.returned t r.call res]⟩,
        { s.store with holder := Function.update s.store.holder e none }⟩
  | get (t : θ) (r : Running ε ν ω ρ) (e : ε) (k : ν → Prog ε ν ρ) (v : ν)
      (hr : s.threads.running t = some r) (hp : r.prog = .get e k)
      (hheld : s.store.holder e = some t) (hv : s.store.content e = some v) :
      ProgStep body s (.op (.get t e v)) ⟨{ s.threads with
        running := Function.update s.threads.running t (some ⟨r.call, k v,
          Function.update r.seen e (some (((r.seen e).map Prod.fst).getD v, v)),
          r.reads ++ [(e, v)]⟩) }, s.store⟩
  | put (t : θ) (r : Running ε ν ω ρ) (e : ε) (v : ν) (k : Prog ε ν ρ)
      (hr : s.threads.running t = some r) (hp : r.prog = .put e v k)
      (hheld : s.store.holder e = some t) :
      ProgStep body s (.op (.put t e v)) ⟨{ s.threads with
        running := Function.update s.threads.running t (some ⟨r.call, k,
          Function.update r.seen e ((r.seen e).map fun x => (x.1, v)), r.reads⟩) },
        { s.store with content := Function.update s.store.content e (some v) }⟩
  | remove (t : θ) (r : Running ε ν ω ρ) (e : ε) (k : Prog ε ν ρ)
      (hr : s.threads.running t = some r) (hp : r.prog = .remove e k) :
      ProgStep body s (.remove t) ⟨{ s.threads with
        running := Function.update s.threads.running t (some ⟨r.call, k, r.seen, r.reads⟩) },
          s.store⟩

/-- Every call in progress keeps to its specification, and what it has seen of a cell
is still there. -/
def LockedSys.Sound (spec : ω → ProgSpec ε ν ρ) (s : LockedSys θ ε ν ω ρ) : Prop :=
  ∀ t r, s.threads.running t = some r → r.prog.Sat (spec r.call) r.seen r.reads ∧
    ∀ e x, r.seen e = some x → s.store.holder e = some t ∧ s.store.content e = some x.2

omit [DecidableEq ν] in
theorem resume_of_sat (Q : ProgSpec ε ν ρ) (s s' : Threads θ ε ν ω ρ) (t : θ)
    (r : Running ε ν ω ρ) (hsat : r.prog.Sat Q r.seen r.reads) (h : s.resume t r = some s') :
    s' = { s with running := Function.update s.running t (some r) } := by
  unfold Threads.resume at h
  split at h
  · next res hp =>
    rw [hp] at hsat
    exact hsat.elim
  · cases h
  · exact (Option.some.inj h).symm

omit [DecidableEq θ] in
theorem holder_release {holder : ε → Option θ} {t u : θ} {e e' : ε} (hheld : holder e = some t)
    (hu : u ≠ t) (hh : holder e' = some u) : Function.update holder e none e' = some u := by
  have he : e' ≠ e := by
    rintro rfl
    exact hu (Option.some.inj (hh.symm.trans hheld))
  rw [Function.update_of_ne he, hh]

theorem update_of_idle {α β : Type*} [DecidableEq α] {f : α → Option β} {a c : α} {b : β}
    (x : Option β) (ha : f a = none) (hc : f c = some b) : Function.update f a x c = some b := by
  have hne : c ≠ a := by
    rintro rfl
    cases ha.symm.trans hc
  rw [Function.update_of_ne hne, hc]

section inversion
variable {p q : Prog ε ν ρ} {t : θ} {e : ε} {v : ν}
omit [DecidableEq θ]

theorem next_acquire (h : p.next (.acquire t e) = some q) : p = .acquire e q := by
  cases p <;> simp_all [Prog.next]

theorem next_release (h : p.next (.release t e) = some q) : p = .release e q := by
  cases p <;> simp_all [Prog.next]

theorem next_get (h : p.next (.get t e v) = some q) : ∃ k, p = .get e k ∧ k v = q := by
  cases p <;> simp_all [Prog.next]

theorem next_put (h : p.next (.put t e v) = some q) : p = .put e v q := by
  cases p <;> simp_all [Prog.next]

end inversion

section sound
variable {body : ω → Prog ε ν ρ} {spec : ω → ProgSpec ε ν ρ} {s s' : LockedSys θ ε ν ω ρ}
  (h : s.Sound spec)
include h

omit [DecidableEq θ] [DecidableEq ν] in
/-- A thread has seen nothing of a cell that it does not hold. -/
theorem LockedSys.Sound.unseen {t : θ} {r : Running ε ν ω ρ} {e : ε}
    (hr : s.threads.running t = some r) (hne : s.store.holder e ≠ some t) : r.seen e = none := by
  cases hs : r.seen e with
  | none => rfl
  | some x => exact absurd ((h t r hr).2 e x hs).1 hne

omit [DecidableEq θ] [DecidableEq ν] in
theorem LockedSys.Sound.seen_eq {t : θ} {r : Running ε ν ω ρ} {e : ε} {v : ν}
    (hr : s.threads.running t = some r) (hv : s.store.content e = some v) :
    ∀ x, r.seen e = some x → x.2 = v := by
  intro x hx
  exact Option.some.inj (((h t r hr).2 e x hx).2.symm.trans hv)

theorem progStep_of_step (a : ProgAct θ ε ν ω) (hs : LockedSys.step body s a = some s') :
    ProgStep body s a s' := by
  obtain ⟨ts,hts,hmap⟩ := Option.bind_eq_some_iff.mp hs
  obtain ⟨st,hst,rfl⟩ := Option.map_eq_some_iff.mp hmap
  cases a with
  | call t c =>
    cases hst
    simp only [Threads.step] at hts
    split at hts <;> cases hts
    next hidle => exact .call t c hidle
  | remove t =>
    cases hst
    obtain ⟨r,hr,hres⟩ := Option.bind_eq_some_iff.mp hts
    split at hres
    · next e k hp =>
      have hsat := (h t r hr).1
      rw [hp] at hsat
      rw [resume_of_sat (spec r.call) _ _ t ⟨r.call, k, r.seen, r.reads⟩ hsat hres]
      exact .remove t r e k hr hp
    · cases hres
  | op ev =>
    obtain ⟨r,hr,hres⟩ := Option.bind_eq_some_iff.mp hts
    obtain ⟨p,hp,hres⟩ := Option.bind_eq_some_iff.mp hres
    have hsat := (h _ r hr).1
    cases ev with
    | acquire t e =>
      have hprog := next_acquire hp
      simp only [ProgAct.event, LockedStore.step] at hst
      split_ifs at hst with hfree
      cases hst
      rw [hprog] at hsat
      have hk := hsat (h.unseen hr (by simp [hfree]))
      rw [resume_of_sat (spec r.call) _ _ t ⟨r.call, p, r.seen, r.reads⟩ hk hres]
      exact .acquire t r e p hr hprog hfree
    | release t e =>
      have hprog := next_release hp
      simp only [ProgAct.event, LockedStore.step] at hst
      split_ifs at hst with hheld
      cases hst
      rw [hprog] at hsat
      by_cases hret : ∃ res, p = .ret res
      · obtain ⟨res,rfl⟩ := hret
        cases hres
        exact .ret t r e res hr hprog hheld
      · have hne : ∀ res, p ≠ .ret res := fun res hres => hret ⟨res, hres⟩
        rw [resume_of_sat (spec r.call) _ _ t ⟨r.call, p, Function.update r.seen e none, r.reads⟩
          (hsat.2 hne).2 hres]
        exact .release t r e p hr hprog hne hheld
    | get t e v =>
      obtain ⟨k,hprog,rfl⟩ := next_get hp
      simp only [ProgAct.event, LockedStore.step] at hst
      split_ifs at hst with hget
      cases hst
      rw [hprog] at hsat
      rw [resume_of_sat (spec r.call) _ _ t ⟨r.call, k v,
        Function.update r.seen e (some (((r.seen e).map Prod.fst).getD v, v)), r.reads ++ [(e, v)]⟩
        (hsat v (h.seen_eq hr hget.2)) hres]
      exact .get t r e k v hr hprog hget.1 hget.2
    | put t e v =>
      have hprog := next_put hp
      simp only [ProgAct.event, LockedStore.step] at hst
      split_ifs at hst with hheld
      cases hst
      rw [hprog] at hsat
      rw [resume_of_sat (spec r.call) _ _ t ⟨r.call, p,
        Function.update r.seen e ((r.seen e).map fun x => (x.1, v)), r.reads⟩ hsat.2 hres]
      exact .put t r e v p hr hprog hheld

omit [DecidableEq ν] in
/-- One thread goes on, and what the others have seen is left alone. -/
theorem sound_of_frame (t : θ) (o : Option (Running ε ν ω ρ)) (history : List (CallEv θ ω ρ))
    (store : LockedStore θ ε ν)
    (hstore : ∀ u e, u ≠ t → s.store.holder e = some u →
      store.holder e = some u ∧ store.content e = s.store.content e)
    (hself : ∀ r, o = some r → r.prog.Sat (spec r.call) r.seen r.reads ∧
      ∀ e x, r.seen e = some x → store.holder e = some t ∧ store.content e = some x.2) :
    LockedSys.Sound spec ⟨⟨Function.update s.threads.running t o, history⟩, store⟩ := by
  refine forall_update_ne hself fun u r hu hr => ?_
  obtain ⟨hsat,hseen⟩ := h u r hr
  refine ⟨hsat, fun e x hx => ?_⟩
  obtain ⟨hh,hc⟩ := hseen e x hx
  obtain ⟨hh',hc'⟩ := hstore u e hu hh
  exact ⟨hh', hc'.trans hc⟩

omit [DecidableEq ν] in
theorem sound_step (hbody : ∀ c, (body c).Sat (spec c) (fun _ => none) []) (a : ProgAct θ ε ν ω)
    (hs : ProgStep body s a s') : s'.Sound spec := by
  cases hs with
  | call t c hidle =>
    refine sound_of_frame h t _ _ _ (fun u e _ hh => ⟨hh, rfl⟩) ?_
    rintro _ ⟨rfl⟩
    exact ⟨hbody c, fun e x hx => nomatch hx⟩
  | acquire t r e k hr hp hfree =>
    obtain ⟨hsat,hseen⟩ := h t r hr
    rw [hp] at hsat
    have hne : ∀ e' u, s.store.holder e' = some u → e' ≠ e := by
      rintro e' u hh rfl
      exact absurd (hfree.symm.trans hh) (by simp)
    refine sound_of_frame h t _ _ _ ?_ ?_
    · intro u e' _ hh
      exact ⟨by simpa only [Function.update_of_ne (hne e' u hh)] using hh, rfl⟩
    · rintro _ ⟨rfl⟩
      refine ⟨hsat (h.unseen hr (by simp [hfree])), fun e' x hx => ?_⟩
      obtain ⟨hh,hc⟩ := hseen e' x hx
      exact ⟨by simpa only [Function.update_of_ne (hne e' t hh)] using hh, hc⟩
  | release t r e k hr hp hk hheld =>
    obtain ⟨hsat,hseen⟩ := h t r hr
    rw [hp] at hsat
    refine sound_of_frame h t _ _ _ ?_ ?_
    · exact fun u e' hu hh => ⟨holder_release hheld hu hh, rfl⟩
    · rintro _ ⟨rfl⟩
      refine ⟨(hsat.2 hk).2, fun e' x hx => ?_⟩
      -- the thread has forgotten what it saw of the released one
      have he : e' ≠ e := by
        rintro rfl
        simp at hx
      simp only [Function.update_of_ne he] at hx ⊢
      exact hseen e' x hx
  | ret t r e res hr hp hheld =>
    refine sound_of_frame h t _ _ _ ?_ ?_
    · exact fun u e' hu hh => ⟨holder_release hheld hu hh, rfl⟩
    · exact fun _ hr' => nomatch hr'
  | get t r e k v hr hp hheld hv =>
    obtain ⟨hsat,hseen⟩ := h t r hr
    rw [hp] at hsat
    refine sound_of_frame h t _ _ _ (fun u e _ hh => ⟨hh, rfl⟩) ?_
    rintro _ ⟨rfl⟩
    refine ⟨hsat v (h.seen_eq hr hv), fun e' x hx => ?_⟩
    by_cases he : e' = e
    · subst he
      simp only [Function.update_self, Option.some.injEq] at hx
      subst hx
      exact ⟨hheld, hv⟩
    · simp only [Function.update_of_ne he] at hx
      exact hseen e' x hx
  | put t r e v k hr hp hheld =>
    obtain ⟨hsat,hseen⟩ := h t r hr
    rw [hp] at hsat
    refine sound_of_frame h t _ _ _ ?_ ?_
    · -- nobody else has seen what is written to
      intro u e' hu hh
      have he : e' ≠ e := by
        rintro rfl
        exact hu (Option.some.inj (hh.symm.trans hheld))
      exact ⟨hh, Function.update_of_ne he _ _⟩
    · rintro _ ⟨rfl⟩
      refine ⟨hsat.2, fun e' x hx => ?_⟩
      by_cases he : e' = e
      · subst he
        simp only [Function.update_self] at hx ⊢
        obtain ⟨y,_,rfl⟩ := Option.map_eq_some_iff.mp hx
        exact ⟨hheld, rfl⟩
      · simp only [Function.update_of_ne he] at hx ⊢
        exact hseen e' x hx
  | remove t r e k hr hp =>
    obtain ⟨hsat,hseen⟩ := h t r hr
    rw [hp] at hsat
    refine sound_of_frame h t _ _ _ (fun u e _ hh => ⟨hh, rfl⟩) ?_
    rintro _ ⟨rfl⟩
    exact ⟨hsat, hseen⟩

end sound

/-- The rule for whole runs: if every call keeps to its specification, an invariant
needs to be checked for the operations only, with what the thread has seen. -/
theorem lockedSys_invariant {body : ω → Prog ε ν ρ} {spec : ω → ProgSpec ε ν ρ}
    (hbody : ∀ c, (body c).Sat (spec c) (fun _ => none) [])
    (P : LockedSys θ ε ν ω ρ → ProgAct θ ε ν ω → Prop)
    (I : List (ProgAct θ ε ν ω) → LockedSys θ ε ν ω ρ → Prop)
    (hstep : ∀ done s a s', s.Sound spec → I done s → P s a → ProgStep body s a s' →
      I (done ++ [a]) s')
    (store : LockedStore θ ε ν) (hinit : I [] ⟨.init θ ε ν ω ρ, store⟩)
    (acts : List (ProgAct θ ε ν ω)) (s : LockedSys θ ε ν ω ρ)
    (hP : RunAll (LockedSys.step body) P ⟨.init θ ε ν ω ρ, store⟩ acts)
    (hrun : run (LockedSys.step body) ⟨.init θ ε ν ω ρ, store⟩ acts = some s) :
    s.Sound spec ∧ I acts s := by
  have hsound : LockedSys.Sound spec ⟨.init θ ε ν ω ρ, store⟩ := by
    intro t r hr
    cases hr
  refine run_invariant_done (LockedSys.step body) P (fun done s => s.Sound spec ∧ I done s) ?_
    [] _ s acts ⟨hsound, hinit⟩ hP hrun
  rintro done s a s' ⟨hs,hi⟩ hp hstep'
  have hps := progStep_of_step hs a hstep'
  exact ⟨sound_step hs hbody a hps, hstep done s a s' hs hi hp hps⟩

end
end Yfs
