import Yfs.LockedProg

namespace Yfs

section
variable {θ ε ν ω ρ : Type*} [DecidableEq θ] [DecidableEq ε] [DecidableEq ν]

def Prog.isUndef : Prog ε ν ρ → Bool
  | .undef => true
  | _ => false

/-- The result of a program and the content that it leaves, or why there is none. -/
inductive Outcome (ε ν ρ : Type*)
  | ends (r : ρ) (content : ε → Option ν)
  | stuck
  | undef

/-- What becomes of a program that nobody interferes with. A thread that waits for its own
lock waits for ever. -/
def Prog.alone : List ε → (ε → Option ν) → Prog ε ν ρ → Outcome ε ν ρ
  | held, c, .ret r => if held = [] then .ends r c else .stuck
  | held, c, .acquire e k => if e ∈ held then .stuck else k.alone (e :: held) c
  | held, c, .release e k => if e ∈ held then k.alone (held.erase e) c else .stuck
  | held, c, .get e k => if e ∈ held then (c e).elim .stuck fun v => (k v).alone held c else .stuck
  | held, c, .put e v k => if e ∈ held then k.alone held (Function.update c e (some v)) else .stuck
  | _, _, .undef => .undef
  | held, c, .remove _ k => k.alone held c

/-- The cells that such a program marks with `remove`, in this order. -/
def Prog.removes : List ε → (ε → Option ν) → Prog ε ν ρ → List ε
  | held, c, .acquire e k => if e ∈ held then [] else k.removes (e :: held) c
  | held, c, .release e k => if e ∈ held then k.removes (held.erase e) c else []
  | held, c, .get e k => if e ∈ held then (c e).elim [] fun v => (k v).removes held c else []
  | held, c, .put e v k => if e ∈ held then k.removes held (Function.update c e (some v)) else []
  | held, c, .remove e k => e :: k.removes held c
  | _, _, .ret _ | _, _, .undef => []

/-- A thread is about to read a value with which it cannot go on. -/
def LockedSys.faults (s : LockedSys θ ε ν ω ρ) (t : θ) : Bool :=
  match (s.threads.running t).map Running.prog with
  | some (.get e k) =>
    decide (s.store.holder e = some t) && (s.store.content e).any fun v => (k v).isUndef
  | _ => false

def Outcome.leaves : Outcome ε ν ρ → Option (ε → Option ν)
  | .ends _ c => some c
  | _ => none

/-- The calls that have returned, in this order. -/
def returns (h : List (CallEv θ ω ρ)) : List (θ × ω × ρ) :=
  h.filterMap fun
    | .called _ _ => none
    | .returned t c r => some (t, c, r)

omit [DecidableEq θ] in
theorem returns_append (h h' : List (CallEv θ ω ρ)) : returns (h ++ h') = returns h ++ returns h' :=
  List.filterMap_append

/-- The calls are made with these results, one after the other; `R` says what one call
does. -/
inductive SerialRun {σ : Type*} (R : σ → ω → ρ → σ → Prop) (c : σ) : List (θ × ω × ρ) → σ → Prop
  | nil : SerialRun R c [] c
  | snoc {l : List (θ × ω × ρ)} {c1 c2 : σ} {t : θ} {w : ω} {r : ρ} (hl : SerialRun R c l c1)
      (hw : R c1 w r c2) : SerialRun R c (l ++ [(t, w, r)]) c2

omit [DecidableEq θ] in
/-- What one call can be seen to do at another level, all of them can. -/
theorem SerialRun.simulates {σ τ : Type*} {R : σ → ω → ρ → σ → Prop} {R' : τ → ω → ρ → τ → Prop}
    {Rel : σ → τ → Prop}
    (hstep : ∀ c d w r c', Rel c d → R c w r c' → ∃ d', Rel c' d' ∧ R' d w r d') {c c' : σ} {d : τ}
    {l : List (θ × ω × ρ)} (h : SerialRun R c l c') (hrel : Rel c d) :
    ∃ d', Rel c' d' ∧ SerialRun R' d l d' := by
  induction h with
  | nil => exact ⟨d, hrel, .nil⟩
  | snoc hl hw ih =>
    obtain ⟨d1,hrel1,hd1⟩ := ih
    obtain ⟨d2,hrel2,hd2⟩ := hstep _ _ _ _ _ hrel1 hw
    exact ⟨d2, hrel2, hd1.snoc hd2⟩

omit [DecidableEq θ] in
theorem SerialRun.forall_mem {σ : Type*} {R : σ → ω → ρ → σ → Prop} {P : ω → Prop}
    (hR : ∀ c w r c', R c w r c' → P w) {c c' : σ} {l : List (θ × ω × ρ)} (h : SerialRun R c l c') :
    ∀ x ∈ l, P x.2.1 := by
  induction h with
  | nil => exact fun _ hx => nomatch hx
  | snoc hl hw ih =>
    intro x hx
    rcases List.mem_append.mp hx with hx | hx
    · exact ih x hx
    · rw [List.mem_singleton.mp hx]
      exact hR _ _ _ _ hw

/-- A call that nobody interferes with, made where `G` holds. -/
def Alone (body : ω → Prog ε ν ρ) (G : ω → (ε → Option ν) → Prop) (c : ε → Option ν) (w : ω) (r : ρ)
    (c' : ε → Option ν) : Prop :=
  G w c ∧ (body w).alone [] c = .ends r c'

/-- The content after calls that are made one after the other. -/
def serial (body : ω → Prog ε ν ρ) (c : ε → Option ν) (l : List (θ × ω × ρ)) :
    Option (ε → Option ν) :=
  l.foldlM (fun c x => ((body x.2.1).alone [] c).leaves) c

omit [DecidableEq θ] [DecidableEq ν] in
theorem SerialRun.eval {body : ω → Prog ε ν ρ} {G : ω → (ε → Option ν) → Prop} {c c' : ε → Option ν}
    {l : List (θ × ω × ρ)} (h : SerialRun (Alone body G) c l c') : serial body c l = some c' := by
  induction h with
  | nil => rfl
  | snoc hl hw ih =>
    rename_i l c1 c2 t w r
    have hcontent : ((body w).alone [] c1).leaves = some c2 := by rw [hw.2, Outcome.leaves]
    rw [serial] at ih
    simp [serial, List.foldlM_append, ih, hcontent]

/-- A call is made when no other is in progress. -/
def OneAtATime (s : LockedSys θ ε ν ω ρ) : ProgAct θ ε ν ω → Prop
  | .call _ _ => ∀ u, s.threads.running u = none
  | _ => True

/-- The calls that have returned could have been made one after the other, in some
order, with the same results and the same content in the end. -/
def Serialisable (body : ω → Prog ε ν ρ) (content : ε → Option ν) (s : LockedSys θ ε ν ω ρ) :
    Prop :=
  ∃ acts s', run (LockedSys.step body) ⟨.init θ ε ν ω ρ, .init content⟩ acts = some s' ∧
    RunAll (LockedSys.step body) OneAtATime ⟨.init θ ε ν ω ρ, .init content⟩ acts ∧
    (∀ t, s'.threads.running t = none) ∧
    (returns s'.threads.history).Perm (returns s.threads.history) ∧
      s'.store.content = s.store.content

/-- The locks that thread `t` holds are these, and nobody else holds any. -/
def HeldBy (holder : ε → Option θ) (t : θ) (held : List ε) : Prop :=
  held.Nodup ∧ ∀ e, holder e = if e ∈ held then some t else none

section
omit [DecidableEq θ]

theorem HeldBy.nil {holder : ε → Option θ} {t : θ} (h : HeldBy holder t []) (e : ε) :
    holder e = none := by
  simpa using h.2 e

theorem HeldBy.mem {holder : ε → Option θ} {t : θ} {held : List ε} (h : HeldBy holder t held)
    {e : ε} (he : e ∈ held) : holder e = some t := by
  rw [h.2 e, if_pos he]

theorem HeldBy.mem_of_holder {holder : ε → Option θ} {t u : θ} {held : List ε}
    (h : HeldBy holder t held) {e : ε} (he : holder e = some u) : e ∈ held ∧ u = t := by
  rw [h.2 e] at he
  split_ifs at he with hm
  exact ⟨hm,(Option.some.inj he).symm⟩

theorem HeldBy.acquire {holder : ε → Option θ} {t : θ} {held : List ε} (h : HeldBy holder t held)
    {e : ε} (he : e ∉ held) : HeldBy (Function.update holder e (some t)) t (e :: held) := by
  refine ⟨List.nodup_cons.mpr ⟨he,h.1⟩, fun x => ?_⟩
  by_cases hx : x = e
  · subst hx
    simp
  · rw [Function.update_of_ne hx, h.2 x]
    simp [hx]

theorem HeldBy.release {holder : ε → Option θ} {t : θ} {held : List ε} (h : HeldBy holder t held)
    (e : ε) :
    HeldBy (Function.update holder e none) t (held.erase e) := by
  refine ⟨h.1.erase e, fun x => ?_⟩
  by_cases hx : x = e
  · subst hx
    simp [h.1.mem_erase_iff]
  · rw [Function.update_of_ne hx, h.2 x]
    simp [h.1.mem_erase_iff, hx]

theorem HeldBy.release_last {holder : ε → Option θ} {t : θ} {e : ε} (h : HeldBy holder t [e])
    (x : ε) :
    Function.update holder e none x = none := by
  simpa using (h.release e).2 x

end

/-- No call is made on the way. -/
def NoCall : ProgAct θ ε ν ω → Prop
  | .call _ _ => False
  | _ => True

/-- The call of thread `t` can go on to its end, without a call on the way. -/
def Ends (body : ω → Prog ε ν ρ) (t : θ) (ts : Threads θ ε ν ω ρ) (r : Running ε ν ω ρ)
    (store : LockedStore θ ε ν) (res : ρ) (c : ε → Option ν) : Prop :=
  ∃ ts1 acts store', ts.resume t r = some ts1 ∧ (∀ a ∈ acts, NoCall a) ∧
    run (LockedSys.step body) ⟨ts1, store⟩ acts = some ⟨⟨Function.update ts.running t none,
      ts.history ++ [.returned t r.call res]⟩, store'⟩ ∧ store'.content = c ∧
        ∀ e, store'.holder e = none

theorem Ends.cons {body : ω → Prog ε ν ρ} {t : θ} {ts : Threads θ ε ν ω ρ} {r : Running ε ν ω ρ}
    {store store1 : LockedStore θ ε ν} {res : ρ} {c : ε → Option ν} (a : ProgAct θ ε ν ω)
    (r1 : Running ε ν ω ρ) (ha : NoCall a) (hcall : r1.call = r.call)
    (hres : ts.resume t r = some { ts with running := Function.update ts.running t (some r) })
    (hstep : ∀ ts',
      Threads.resume { ts with running := Function.update ts.running t (some r) } t r1 = some ts' →
      LockedSys.step body ⟨{ ts with running := Function.update ts.running t (some r) }, store⟩ a =
        some ⟨ts', store1⟩)
    (h : Ends body t { ts with running := Function.update ts.running t (some r) } r1 store1 res c) :
    Ends body t ts r store res c := by
  obtain ⟨ts1,acts,store',hts1,hno,hrun,hc,hfree⟩ := h
  refine ⟨_, a :: acts, store', hres, List.forall_mem_cons.mpr ⟨ha,hno⟩, ?_, hc, hfree⟩
  rw [run, hstep ts1 hts1, Option.bind_some, hrun, hcall]
  simp only [Function.update_idem]

theorem ends_of_alone (body : ω → Prog ε ν ρ) (p : Prog ε ν ρ) (t : θ) (ts : Threads θ ε ν ω ρ)
    (r : Running ε ν ω ρ) (store : LockedStore θ ε ν) (held : List ε) (res : ρ) (c : ε → Option ν)
    (hp : r.prog = p) (halone : p.alone held store.content = .ends res c)
    (hheld : HeldBy store.holder t held) : Ends body t ts r store res c := by
  induction p generalizing ts r store held with
  | ret r0 =>
    -- it returns with no lock held, so no step is left
    simp only [Prog.alone] at halone
    split_ifs at halone with hnil
    cases halone
    subst hnil
    refine ⟨_, [], store, ?_, List.forall_mem_nil _, rfl, rfl, hheld.nil⟩
    simp only [Threads.resume, hp]
  | acquire e k ih =>
    simp only [Prog.alone] at halone
    split_ifs at halone with he
    have hfree : store.holder e = none := by rw [hheld.2 e, if_neg he]
    refine Ends.cons (.op (.acquire t e)) ⟨r.call, k, r.seen, r.reads⟩ trivial rfl
      (by simp only [Threads.resume, hp]) (fun ts' hts' => ?_)
      (ih _ _ { store with holder := Function.update store.holder e (some t) }
        (e :: held) rfl halone
        (hheld.acquire he))
    simp [LockedSys.step, Threads.step, StoreEv.thread, hp, Prog.next, seenAfter, readsAfter, hts',
      ProgAct.event, LockedStore.step, hfree]
  | release e k ih =>
    simp only [Prog.alone] at halone
    split_ifs at halone with he
    refine Ends.cons (.op (.release t e)) ⟨r.call, k, Function.update r.seen e none, r.reads⟩
      trivial rfl
      (by simp only [Threads.resume, hp]) (fun ts' hts' => ?_)
      (ih _ _ { store with holder := Function.update store.holder e none } (held.erase e) rfl halone
        (hheld.release e))
    simp [LockedSys.step, Threads.step, StoreEv.thread, hp, Prog.next, seenAfter, readsAfter, hts',
      ProgAct.event, LockedStore.step, hheld.mem he]
  | get e k ih =>
    simp only [Prog.alone] at halone
    split_ifs at halone with he
    obtain ⟨v,hv⟩ : ∃ v, store.content e = some v := by
      cases hv : store.content e with
      | none =>
        rw [hv] at halone
        cases halone
      | some v => exact ⟨v,rfl⟩
    rw [hv] at halone
    refine Ends.cons (.op (.get t e v)) ⟨r.call, k v,
      Function.update r.seen e (some (((r.seen e).map Prod.fst).getD v, v)), r.reads ++ [(e, v)]⟩
        trivial rfl
      (by simp only [Threads.resume, hp]) (fun ts' hts' => ?_)
        (ih v _ _ store held rfl halone hheld)
    simp [LockedSys.step, Threads.step, StoreEv.thread, hp, Prog.next, seenAfter, readsAfter, hts',
      ProgAct.event, LockedStore.step, hheld.mem he, hv]
  | put e v k ih =>
    simp only [Prog.alone] at halone
    split_ifs at halone with he
    refine Ends.cons (.op (.put t e v)) ⟨r.call, k,
      Function.update r.seen e ((r.seen e).map fun x => (x.1, v)), r.reads⟩ trivial rfl
      (by simp only [Threads.resume, hp]) (fun ts' hts' => ?_)
      (ih _ _ { store with content := Function.update store.content e (some v) } held rfl halone
        hheld)
    simp [LockedSys.step, Threads.step, StoreEv.thread, hp, Prog.next, seenAfter, readsAfter, hts',
      ProgAct.event, LockedStore.step, hheld.mem he]
  | remove e k ih =>
    refine Ends.cons (.remove t) ⟨r.call, k, r.seen, r.reads⟩ trivial rfl
      (by simp only [Threads.resume, hp]) (fun ts' hts' => ?_) (ih _ _ store held rfl halone hheld)
    simp [LockedSys.step, Threads.step, hp, hts', ProgAct.event]
  | undef => cases halone

/-- A call that is made when nobody else is there. -/
theorem run_of_alone (body : ω → Prog ε ν ρ) (hbody : ∀ w r, body w ≠ .ret r) (t : θ) (w : ω)
    (res : ρ) (s : LockedSys θ ε ν ω ρ) (c : ε → Option ν) (hidle : ∀ u, s.threads.running u = none)
    (hfree : ∀ e, s.store.holder e = none)
    (halone : (body w).alone [] s.store.content = .ends res c) :
    ∃ acts s', (∀ a ∈ acts, NoCall a) ∧ run (LockedSys.step body) s (.call t w :: acts) = some s' ∧
      (∀ u, s'.threads.running u = none) ∧ (∀ e, s'.store.holder e = none) ∧ s'.store.content = c ∧
      s'.threads.history = s.threads.history ++ [.called t w, .returned t w res] := by
  have hheld : HeldBy s.store.holder t [] := ⟨List.nodup_nil,fun e => by simpa using hfree e⟩
  obtain ⟨ts1,acts,store',hts1,hno,hrun,hc,hfree'⟩ := ends_of_alone body (body w) t
    ⟨s.threads.running, s.threads.history ++ [.called t w]⟩ ⟨w, body w, fun _ => none, []⟩ s.store
      [] res c rfl
    halone hheld
  have hcall : LockedSys.step body s (.call t w) = some ⟨ts1, s.store⟩ := by
    simp only [LockedSys.step, Threads.step, hidle t, ProgAct.event, Option.bind_some,
      Option.map_some]
    unfold Threads.resume at hts1
    split at hts1
    · next hret => exact absurd hret (hbody w _)
    · cases hts1
    · exact congrArg (Option.map fun ts => (⟨ts, s.store⟩ : LockedSys θ ε ν ω ρ)) hts1
  refine ⟨acts, _, hno, by rw [run, hcall, Option.bind_some, hrun], ?_, hfree', hc, ?_⟩
  · intro u
    by_cases hu : u = t
    · subst hu
      simp
    · simpa only [Function.update_of_ne hu] using hidle u
  · simp

theorem runAll_noCall (body : ω → Prog ε ν ρ) (s : LockedSys θ ε ν ω ρ)
    (acts : List (ProgAct θ ε ν ω))
    (h : ∀ a ∈ acts, NoCall a) : RunAll (LockedSys.step body) OneAtATime s acts := by
  induction acts generalizing s with
  | nil => trivial
  | cons a acts ih =>
    obtain ⟨ha,hacts⟩ := List.forall_mem_cons.mp h
    refine ⟨?_, fun s' _ => ih s' hacts⟩
    cases a with
    | call t w => exact ha.elim
    | op ev => trivial
    | remove t => trivial

/-- Calls that are made one after the other are a run in which they do not overlap. -/
theorem run_of_serialRun (body : ω → Prog ε ν ρ) (G : ω → (ε → Option ν) → Prop)
    (hbody : ∀ w r, body w ≠ .ret r) (content c : ε → Option ν) (l : List (θ × ω × ρ))
    (h : SerialRun (Alone body G) content l c) :
    ∃ acts s, run (LockedSys.step body) ⟨.init θ ε ν ω ρ, .init content⟩ acts = some s ∧
      RunAll (LockedSys.step body) OneAtATime ⟨.init θ ε ν ω ρ, .init content⟩ acts ∧
      (∀ t, s.threads.running t = none) ∧ (∀ e, s.store.holder e = none) ∧ s.store.content = c ∧
      returns s.threads.history = l := by
  induction h with
  | nil => exact ⟨[], _, rfl, trivial, fun _ => rfl, fun _ => rfl, rfl, rfl⟩
  | snoc hl hw ih =>
    rename_i l c1 c2 t w r
    obtain ⟨acts,s,hrun,hone,hidle,hfree,hc,hret⟩ := ih
    obtain ⟨acts',s',hno,hrun',hidle',hfree',hc',hhist⟩ :=
      run_of_alone body hbody t w r s c2 hidle hfree (hc ▸ hw.2)
    refine ⟨acts ++ (.call t w :: acts'), s', by rw [run_append, hrun, Option.bind_some, hrun'],
      runAll_append _ _ _ _ _ _ hone hrun ⟨hidle,fun s1 _ => runAll_noCall body s1 acts' hno⟩,
        hidle', hfree',
      hc', ?_⟩
    rw [hhist, returns_append, hret]
    rfl

/-- The rest of a tenure of `e`, with the locks `held`, what has been read since the call,
and whether the thread has written in the tenure. The call returns with the release of
`e`, or else it has written nothing and goes on with a program of `S`. -/
def Prog.Inside (e : ε) (S : List (ε × ν) → Prog ε ν ρ → Prop) :
    List ε → List (ε × ν) → Bool → Prog ε ν ρ → Prop
  | _, _, _, .ret _ => False
  | held, reads, dirty, .acquire e' k => e' ∉ held → k.Inside e S (e' :: held) reads dirty
  | held, reads, dirty, .release e' k =>
    (e' = e → held = [e] ∧ ((∃ r, k = .ret r) ∨ (dirty = false ∧ S reads k))) ∧
      (e' ≠ e → k.Inside e S (held.erase e') reads dirty)
  | held, reads, dirty, .get e' k => ∀ v, (k v).Inside e S held (reads ++ [(e', v)]) dirty
  | held, reads, _, .put _ _ k => k.Inside e S held reads true
  | held, reads, dirty, .remove _ k => k.Inside e S held reads dirty
  | _, _, _, .undef => True

/-- The calls do everything in tenures of the lock of `e`; between them, a call `w` that has
read `reads` is at a program of `S w reads`. -/
structure Tenures (body : ω → Prog ε ν ρ) (allowed : ω → Prop) (e : ε)
    (S : ω → List (ε × ν) → Prog ε ν ρ → Prop) : Prop where
  start : ∀ w, allowed w → S w [] (body w)
  tenure : ∀ w reads p, S w reads p → ∃ k, p = .acquire e k ∧ k.Inside e (S w) [e] reads false

/-- Only such calls are made. -/
def Calls (allowed : ω → Prop) (a : ProgAct θ ε ν ω) : Prop :=
  match a with
  | .call _ w => allowed w
  | _ => True

/-- What is left of a call when it takes the lock does to the present content what the
whole call would do, and this is a content to make the call in. -/
def Fresh (body : ω → Prog ε ν ρ) (e : ε) (S : ω → List (ε × ν) → Prog ε ν ρ → Prop)
    (G : ω → (ε → Option ν) → Prop) (s : LockedSys θ ε ν ω ρ) (a : ProgAct θ ε ν ω) : Prop :=
  ∀ t r, a = .op (.acquire t e) → s.threads.running t = some r → S r.call r.reads r.prog →
    G r.call s.store.content ∧
      r.prog.alone [] s.store.content = (body r.call).alone [] s.store.content

/-- A thread that holds `e` is in a tenure that started from `base`, and will do to it what
the whole call would do. -/
def InTenure (body : ω → Prog ε ν ρ) (e : ε) (S : ω → List (ε × ν) → Prog ε ν ρ → Prop)
    (G : ω → (ε → Option ν) → Prop) (base : ε → Option ν) (store : LockedStore θ ε ν) (t : θ)
    (r : Running ε ν ω ρ) : Prop :=
  ∃ held dirty, HeldBy store.holder t held ∧ r.prog.Inside e (S r.call) held r.reads dirty ∧
    (dirty = false → store.content = base) ∧ G r.call base ∧
    r.prog.alone held store.content = (body r.call).alone [] base

/-- The calls that have returned, made one after the other, leave `base`. A tenure starts
from there. -/
structure Serialised (body : ω → Prog ε ν ρ) (e : ε) (S : ω → List (ε × ν) → Prog ε ν ρ → Prop)
    (G : ω → (ε → Option ν) → Prop) (content base : ε → Option ν) (s : LockedSys θ ε ν ω ρ) :
    Prop where
  past : SerialRun (Alone body G) content (returns s.threads.history) base
  idle : s.store.holder e = none → (∀ e', s.store.holder e' = none) ∧ s.store.content = base
  between : ∀ t r, s.threads.running t = some r → s.store.holder e ≠ some t →
    S r.call r.reads r.prog
  inside : ∀ t, s.store.holder e = some t →
    ∃ r, s.threads.running t = some r ∧ InTenure body e S G base s.store t r

section serialised
variable {body : ω → Prog ε ν ρ} {allowed : ω → Prop} {e : ε}
    {S : ω → List (ε × ν) → Prog ε ν ρ → Prop}
  {G : ω → (ε → Option ν) → Prop} {content base : ε → Option ν} {s s' : LockedSys θ ε ν ω ρ}

section
omit [DecidableEq ν]

/-- A thread that does anything but acquire `e` is in its tenure. -/
theorem Serialised.holds (h : Serialised body e S G content base s)
    (hten : Tenures body allowed e S) {t : θ}
    {r : Running ε ν ω ρ} (hr : s.threads.running t = some r) (hp : ∀ k, r.prog ≠ .acquire e k) :
    s.store.holder e = some t ∧ InTenure body e S G base s.store t r := by
  have hheld : s.store.holder e = some t := by
    by_contra hne
    obtain ⟨k,hk,_⟩ := hten.tenure _ _ _ (h.between t r hr hne)
    exact hp k hk
  obtain ⟨r',hr',hin⟩ := h.inside t hheld
  obtain rfl := Option.some.inj (hr.symm.trans hr')
  exact ⟨hheld, hin⟩

omit [DecidableEq θ] in
theorem Serialised.others (h : Serialised body e S G content base s) {t u : θ} {q : Running ε ν ω ρ}
    (hheld : s.store.holder e = some t) (hu : u ≠ t) (hq : s.threads.running u = some q) :
    S q.call q.reads q.prog :=
  h.between u q hq fun he => hu (Option.some.inj (he.symm.trans hheld))

theorem Serialised.enter (h : Serialised body e S G content base s) (t : θ) {r : Running ε ν ω ρ}
    {k : Prog ε ν ρ} (hp : r.prog = .acquire e k) (hfree : s.store.holder e = none)
    (hinside : k.Inside e (S r.call) [e] r.reads false) (hG : G r.call s.store.content)
    (halone : r.prog.alone [] s.store.content = (body r.call).alone [] s.store.content) :
    Serialised body e S G content base
      ⟨{ s.threads with
        running := Function.update s.threads.running t (some ⟨r.call, k, r.seen, r.reads⟩) },
        { s.store with holder := Function.update s.store.holder e (some t) }⟩ := by
  obtain ⟨hall,hbase⟩ := h.idle hfree
  rw [hbase] at hG
  rw [hp, hbase] at halone
  refine ⟨h.past, fun hn => ?_, ?_, fun u hu => ?_⟩
  · simp at hn
  · refine forall_update_some (fun hne => absurd (Function.update_self ..) hne) fun u q hq _ => ?_
    exact h.between u q hq fun he => absurd (hfree.symm.trans he) (by simp)
  · obtain rfl : t = u := by simpa using hu
    refine ⟨_, Function.update_self .., [e], false, ?_, hinside, fun _ => hbase, hG, ?_⟩
    · exact HeldBy.acquire ⟨List.nodup_nil,fun x => by simpa using hall x⟩ List.not_mem_nil
    · rw [← halone, hbase, Prog.alone, if_neg List.not_mem_nil]

theorem Serialised.move (h : Serialised body e S G content base s) {t : θ} (r' : Running ε ν ω ρ)
    (store : LockedStore θ ε ν) (hheld : s.store.holder e = some t)
    (hheld' : store.holder e = some t) (hin : InTenure body e S G base store t r') :
    Serialised body e S G content base
      ⟨{ s.threads with running := Function.update s.threads.running t (some r') }, store⟩ where
  past := h.past
  idle hfree := by
    rw [hheld'] at hfree
    exact nomatch hfree
  between := by
    exact forall_update_ne (fun _ _ hne => absurd hheld' hne) fun u q hu hq _ =>
      h.others hheld hu hq
  inside u hu := by
    obtain rfl : t = u := Option.some.inj (hheld'.symm.trans hu)
    exact ⟨r', Function.update_self .., hin⟩

/-- The tenure ends, with the next one to come or with the return of the call. -/
theorem Serialised.leave (h : Serialised body e S G content base s) {t : θ}
    (hheld : s.store.holder e = some t)
    (o : Option (Running ε ν ω ρ)) (history : List (CallEv θ ω ρ)) (store : LockedStore θ ε ν)
    (hpast : SerialRun (Alone body G) content (returns history) store.content)
    (hfree : ∀ x, store.holder x = none) (hnext : ∀ q, o = some q → S q.call q.reads q.prog) :
    Serialised body e S G content store.content
      ⟨⟨Function.update s.threads.running t o, history⟩, store⟩ where
  past := hpast
  idle _ := ⟨hfree,rfl⟩
  between := forall_update_ne (fun q hq _ => hnext q hq) fun u q hu hq _ => h.others hheld hu hq
  inside u hu := by
    rw [hfree e] at hu
    cases hu

theorem serialised_step (hten : Tenures body allowed e S) (h : Serialised body e S G content base s)
    (a : ProgAct θ ε ν ω) (hcall : Calls allowed a) (hfresh : Fresh body e S G s a)
    (hstep : ProgStep body s a s') :
    ∃ base', Serialised body e S G content base' s' := by
  cases hstep with
  | call t w hidle =>
    refine ⟨base, ?_, h.idle, ?_, ?_⟩
    · rw [returns_append]
      exact (List.append_nil _).symm ▸ h.past
    · exact forall_update_some (fun _ => hten.start w hcall) h.between
    · intro u hu
      obtain ⟨r,hr,hin⟩ := h.inside u hu
      exact ⟨r, update_of_idle _ hidle hr, hin⟩
  | acquire t r e' k hr hp hfree =>
    by_cases hheld : s.store.holder e = some t
    · -- another lock, inside the tenure
      obtain ⟨r',hr',held,dirty,hlocks,hinside,hclean,hG,halone⟩ := h.inside t hheld
      obtain rfl := Option.some.inj (hr.symm.trans hr')
      have hne : e' ∉ held := fun hm => absurd ((hlocks.mem hm).symm.trans hfree) (by simp)
      have hee : e ≠ e' := fun he => absurd (hfree.symm.trans (he ▸ hheld)) (by simp)
      rw [hp] at hinside halone
      rw [Prog.alone, if_neg hne] at halone
      exact ⟨base, h.move ⟨r.call, k, r.seen, r.reads⟩ _ hheld
        ((Function.update_of_ne hee _ _).trans hheld)
        ⟨e' :: held, dirty, hlocks.acquire hne, hinside hne, hclean, hG, halone⟩⟩
    · -- a tenure starts
      have hS := h.between t r hr hheld
      obtain ⟨k',hk',hinside⟩ := hten.tenure _ _ _ hS
      obtain ⟨rfl,rfl⟩ : e' = e ∧ k = k' := by
        rw [hp] at hk'
        cases hk'
        exact ⟨rfl,rfl⟩
      obtain ⟨hG,halone⟩ := hfresh t r rfl hr hS
      exact ⟨base, h.enter t hp hfree hinside hG halone⟩
  | release t r e' k hr hp hk hheld' =>
    obtain ⟨hheld,held,dirty,hlocks,hinside,hclean,hG,halone⟩ := h.holds hten hr (by simp [hp])
    rw [hp] at hinside halone
    rw [Prog.alone, if_pos (hlocks.mem_of_holder hheld').1] at halone
    by_cases he : e' = e
    · -- the tenure ends, and has written nothing
      subst he
      obtain ⟨rfl,hor⟩ := hinside.1 rfl
      obtain ⟨hdirty,hS⟩ := hor.resolve_left fun ⟨res,hres⟩ => hk res hres
      refine ⟨_, h.leave hheld _ _ { s.store with
        holder := Function.update s.store.holder e' none } ?_
        hlocks.release_last fun q hq => Option.some.inj hq ▸ hS⟩
      exact (hclean hdirty).symm ▸ h.past
    · exact ⟨base, h.move ⟨r.call, k, _, r.reads⟩ _ hheld
        ((Function.update_of_ne (Ne.symm he) _ _).trans hheld)
        ⟨held.erase e', dirty, hlocks.release e', hinside.2 he, hclean, hG, halone⟩⟩
  | ret t r e' res hr hp hheld' =>
    obtain ⟨hheld,held,dirty,hlocks,hinside,hclean,hG,halone⟩ := h.holds hten hr (by simp [hp])
    rw [hp] at hinside halone
    by_cases he : e' = e
    · -- the call counts as made here, with all that it has done
      subst he
      obtain ⟨rfl,-⟩ := hinside.1 rfl
      have hend : (body r.call).alone [] base = .ends res s.store.content := by
        rw [← halone]
        simp [Prog.alone]
      refine ⟨_, h.leave hheld none _ { s.store with
        holder := Function.update s.store.holder e' none } ?_
        hlocks.release_last fun _ hq => nomatch hq⟩
      rw [returns_append]
      exact h.past.snoc ⟨hG,hend⟩
    · exact (hinside.2 he).elim
  | get t r e' k v hr hp hheld' hv =>
    obtain ⟨hheld,held,dirty,hlocks,hinside,hclean,hG,halone⟩ := h.holds hten hr (by simp [hp])
    rw [hp] at hinside halone
    rw [Prog.alone, if_pos (hlocks.mem_of_holder hheld').1, hv] at halone
    exact ⟨base, h.move ⟨r.call, k v, _, _⟩ s.store hheld hheld
      ⟨held, dirty, hlocks, hinside v, hclean, hG, halone⟩⟩
  | put t r e' v k hr hp hheld' =>
    obtain ⟨hheld,held,dirty,hlocks,hinside,hclean,hG,halone⟩ := h.holds hten hr (by simp [hp])
    rw [hp] at hinside halone
    rw [Prog.alone, if_pos (hlocks.mem_of_holder hheld').1] at halone
    exact ⟨base, h.move ⟨r.call, k, _, r.reads⟩ _ hheld hheld
      ⟨held, true, hlocks, hinside, fun hf => (nomatch hf), hG, halone⟩⟩
  | remove t r e' k hr hp =>
    obtain ⟨hheld,held,dirty,hlocks,hinside,hclean,hG,halone⟩ := h.holds hten hr (by simp [hp])
    rw [hp] at hinside halone
    exact ⟨base, h.move ⟨r.call, k, r.seen, r.reads⟩ s.store hheld hheld
      ⟨held, dirty, hlocks, hinside, hclean, hG, halone⟩⟩

omit [DecidableEq θ] in
theorem serialised_init (content : ε → Option ν) :
    Serialised body e S G content content
    (⟨.init θ ε ν ω ρ, .init content⟩ : LockedSys θ ε ν ω ρ) :=
  ⟨.nil, fun _ => ⟨fun _ => rfl,rfl⟩, fun _ _ hr => (nomatch hr), fun _ ht => (nomatch ht)⟩

end

theorem serialised_run
    {spec : ω → ProgSpec ε ν ρ} (hsat : ∀ w, (body w).Sat (spec w) (fun _ => none) [])
    (hten : Tenures body allowed e S) (content : ε → Option ν) (acts : List (ProgAct θ ε ν ω))
    (s : LockedSys θ ε ν ω ρ) (hcalls : ∀ a ∈ acts, Calls allowed a)
    (hfresh : RunAll (LockedSys.step body) (Fresh body e S G) ⟨.init θ ε ν ω ρ, .init content⟩ acts)
    (hrun : run (LockedSys.step body) ⟨.init θ ε ν ω ρ, .init content⟩ acts = some s) :
    ∃ base, Serialised body e S G content base s := by
  refine (lockedSys_invariant hsat _ (fun _ s => ∃ base, Serialised body e S G content base s) ?_ _
    ⟨content,serialised_init content⟩ acts s
      (runAll_and _ _ _ _ _ (runAll_of_mem _ (Calls allowed) _ acts hcalls) hfresh) hrun).2
  rintro _ s a s' _ ⟨base,h⟩ ⟨hcall,hf⟩ hstep
  exact serialised_step hten h a hcall hf hstep

omit [DecidableEq θ] [DecidableEq ν] in
/-- If no call is in progress, the content is that of the calls made one after the other. -/
theorem Serialised.serialRun (h : Serialised body e S G content base s)
    (hidle : ∀ t, s.threads.running t = none) :
    SerialRun (Alone body G) content (returns s.threads.history) s.store.content := by
  have hfree : s.store.holder e = none := by
    cases hh : s.store.holder e with
    | none => rfl
    | some t =>
      obtain ⟨r,hr,_⟩ := h.inside t hh
      exact absurd ((hidle t).symm.trans hr) (by simp)
  rw [(h.idle hfree).2]
  exact h.past

omit [DecidableEq ν] in
/-- If the calls are defined when they are made alone, they are defined. -/
theorem Serialised.not_faults (h : Serialised body e S G content base s)
    (hten : Tenures body allowed e S)
    (hdef : ∀ w, G w base → (body w).alone [] base ≠ .undef) (t : θ) : s.faults t = false := by
  rw [← Bool.not_eq_true]
  intro hfault
  unfold LockedSys.faults at hfault
  split at hfault
  · next e' k hget =>
    obtain ⟨r,hr,hp⟩ := Option.map_eq_some_iff.mp hget
    rw [Bool.and_eq_true, decide_eq_true_eq, Option.any_eq_true] at hfault
    obtain ⟨hheld',v,hv,hundef⟩ := hfault
    obtain ⟨-,held,dirty,hlocks,-,-,hG,halone⟩ := h.holds hten hr (by simp [hp])
    have hk : k v = .undef := by
      unfold Prog.isUndef at hundef
      split at hundef
      · assumption
      · exact nomatch hundef
    rw [hp, Prog.alone, if_pos (hlocks.mem_of_holder hheld').1, hv, Option.elim_some, hk,
      Prog.alone] at halone
    exact hdef _ hG halone.symm
  · exact nomatch hfault

/-- The calls that have returned can be made one after the other instead. -/
theorem Serialised.serialisable (h : Serialised body e S G content base s)
    {spec : ω → ProgSpec ε ν ρ} (hsat : ∀ w, (body w).Sat (spec w) (fun _ => none) [])
    (hidle : ∀ t, s.threads.running t = none) :
    Serialisable body content s := by
  have hret : ∀ w r, body w ≠ .ret r := by
    intro w r hw
    have := hsat w
    rw [hw] at this
    exact this
  obtain ⟨acts,s',hrun,hone,hidle',-,hc,hreturns⟩ :=
    run_of_serialRun body G hret content _ _ (h.serialRun hidle)
  exact ⟨acts, s', hrun, hone, hidle', hreturns ▸ List.Perm.refl _, hc⟩

/-- At most one call is in progress, and nothing has changed under it. -/
def Solo (body : ω → Prog ε ν ρ) (e : ε) (s : LockedSys θ ε ν ω ρ) : Prop :=
  ∀ t r, s.threads.running t = some r → (∀ u, u ≠ t → s.threads.running u = none) ∧
    (s.store.holder e ≠ some t → r.prog.alone [] s.store.content = (body r.call).alone []
      s.store.content)

omit [DecidableEq ν] in
theorem Solo.move (h : Solo body e s) {t : θ} {r : Running ε ν ω ρ}
    (hr : s.threads.running t = some r) (r' : Running ε ν ω ρ) (store : LockedStore θ ε ν)
    (hsame : store.holder e ≠ some t →
      r'.prog.alone [] store.content = (body r'.call).alone [] store.content) :
    Solo body e ⟨{ s.threads with running := Function.update s.threads.running t (some r') },
      store⟩ := by
  have hother := (h t r hr).1
  refine forall_update_ne (fun q hq => ?_) fun u q hu hq => absurd ((hother u hu).symm.trans hq)
    (by simp)
  obtain rfl := Option.some.inj hq
  exact ⟨fun u hu => (Function.update_of_ne hu _ _).trans (hother u hu), hsame⟩

omit [DecidableEq ν] in
theorem solo_step (hten : Tenures body allowed e S) (h : Serialised body e S G content base s)
    (hsolo : Solo body e s)
    (a : ProgAct θ ε ν ω) (hone : OneAtATime s a) (hstep : ProgStep body s a s') :
    Solo body e s' := by
  cases hstep with
  | call t w hidle =>
    refine forall_update_ne (fun q hq => ?_) fun u q _ hq => absurd ((hone u).symm.trans hq)
      (by simp)
    obtain rfl := Option.some.inj hq
    exact ⟨fun u hu => (Function.update_of_ne hu _ _).trans (hone u), fun _ => rfl⟩
  | acquire t r e' k hr hp hfree =>
    refine hsolo.move hr _ _ fun hne => ?_
    by_cases he : e = e'
    · subst he
      simp at hne
    · simp only [Function.update_of_ne he] at hne
      obtain ⟨k',hk',_⟩ := hten.tenure _ _ _ (h.between t r hr hne)
      rw [hp] at hk'
      cases hk'
      exact absurd rfl he
  | release t r e' k hr hp hk hheld' =>
    obtain ⟨hheld,held,dirty,hlocks,hinside,hclean,-,halone⟩ := h.holds hten hr (by simp [hp])
    rw [hp] at hinside halone
    refine hsolo.move hr _ _ fun hne => ?_
    by_cases he : e' = e
    · -- between two tenures the content is what it was
      subst he
      obtain ⟨rfl,hor⟩ := hinside.1 rfl
      obtain ⟨hdirty,-⟩ := hor.resolve_left fun ⟨res,hres⟩ => hk res hres
      rw [Prog.alone, if_pos (List.mem_singleton.mpr rfl)] at halone
      rw [← hclean hdirty] at halone
      simpa using halone
    · simp only [Function.update_of_ne (Ne.symm he)] at hne
      exact absurd hheld hne
  | ret t r e' res hr hp hheld' =>
    refine forall_update_ne (fun q hq => nomatch hq) fun u q hu hq => ?_
    exact absurd (((hsolo t r hr).1 u hu).symm.trans hq) (by simp)
  | get t r e' k v hr hp hheld' hv =>
    obtain ⟨hheld,_⟩ := h.holds hten hr (by simp [hp])
    exact hsolo.move hr _ _ fun hne => absurd hheld hne
  | put t r e' v k hr hp hheld' =>
    obtain ⟨hheld,_⟩ := h.holds hten hr (by simp [hp])
    exact hsolo.move hr _ _ fun hne => absurd hheld hne
  | remove t r e' k hr hp =>
    obtain ⟨hheld,_⟩ := h.holds hten hr (by simp [hp])
    exact hsolo.move hr _ _ fun hne => absurd hheld hne

/-- What a run leaves in which calls do not overlap is what its programs leave alone. -/
theorem serialRun_of_oneAtATime {spec : ω → ProgSpec ε ν ρ}
    (hsat : ∀ w, (body w).Sat (spec w) (fun _ => none) []) (hten : Tenures body allowed e S)
    (content : ε → Option ν) (acts : List (ProgAct θ ε ν ω)) (s : LockedSys θ ε ν ω ρ)
    (hcalls : ∀ a ∈ acts, Calls allowed a)
    (hone : RunAll (LockedSys.step body) OneAtATime ⟨.init θ ε ν ω ρ, .init content⟩ acts)
    (hrun : run (LockedSys.step body) ⟨.init θ ε ν ω ρ, .init content⟩ acts = some s)
    (hidle : ∀ t, s.threads.running t = none) :
    SerialRun (Alone body fun _ _ => True) content (returns s.threads.history) s.store.content := by
  have hboth := (lockedSys_invariant hsat _
    (fun _ s => (∃ base, Serialised body e S (fun _ _ => True) content base s) ∧ Solo body e s) ?_ _
    ⟨⟨content,serialised_init content⟩,fun _ _ hr => nomatch hr⟩ acts s
    (runAll_and _ _ _ _ _ (runAll_of_mem _ (Calls allowed) _ acts hcalls) hone) hrun).2
  · obtain ⟨⟨base,h⟩,-⟩ := hboth
    exact h.serialRun hidle
  · rintro _ s a s' _ ⟨⟨base,h⟩,hsolo⟩ ⟨hcall,ha⟩ hstep
    refine ⟨serialised_step hten h a hcall ?_ hstep, solo_step hten h hsolo a ha hstep⟩
    rintro t r rfl hr _
    refine ⟨trivial, (hsolo t r hr).2 fun hheld => ?_⟩
    -- the step shows that the lock is free
    cases hstep with
    | acquire _ _ _ _ _ _ hfree => exact absurd (hfree.symm.trans hheld) (by simp)

end serialised

end
end Yfs
