import Yfs.ExtentSystem

namespace Yfs.Extent

section
variable {κ τ ε β : Type*} [DecidableEq κ] [DecidableEq τ] [DecidableEq ε] [DecidableEq β]
    {r : Bool}

/-- A thread inside `get` holds the lock of an extent that is not cached, and what
it has fetched is what the server has. -/
def Reading (s : Sys κ τ ε β) (i : κ) (t : τ) : GetPc ε β → Prop
  | .idle => True
  | .missed eid => (s.clients i).held t eid = true ∧ (s.world.caches i).cached eid = none
  | .fetched eid buf => (s.clients i).held t eid = true ∧ (s.world.caches i).cached eid = none ∧
      (s.world.server.visible eid).map Prod.fst = some buf
  | .described eid buf attr => (s.clients i).held t eid = true ∧
      (s.world.caches i).cached eid = none ∧ s.world.server.visible eid = some (buf, attr.size)

def GetPc.target : GetPc ε β → Option ε
  | .idle => none
  | .missed eid => some eid
  | .fetched eid _ => some eid
  | .described eid _ _ => some eid

omit [DecidableEq κ] [DecidableEq τ] [DecidableEq ε] [DecidableEq β] in
/-- A thread inside `get` goes on undisturbed if its own extent is left alone. -/
theorem Reading.congr {s s' : Sys κ τ ε β} {i : κ} {t : τ} {p : GetPc ε β} (h : Reading s i t p)
    (hp : ∀ e, p.target = some e → (s.clients i).held t e = true →
      (s'.clients i).held t e = true ∧
      (s'.world.caches i).cached e = (s.world.caches i).cached e ∧
      s'.world.server.visible e = s.world.server.visible e) : Reading s' i t p := by
  cases p with
  | idle => trivial
  | missed eid =>
    obtain ⟨hheld,hc,_⟩ := hp eid rfl h.1
    exact ⟨hheld, hc.trans h.2⟩
  | fetched eid buf =>
    obtain ⟨hheld,hc,hv⟩ := hp eid rfl h.1
    exact ⟨hheld, hc.trans h.2.1, hv ▸ h.2.2⟩
  | described eid buf attr =>
    obtain ⟨hheld,hc,hv⟩ := hp eid rfl h.1
    exact ⟨hheld, hc.trans h.2.1, hv.trans h.2.2⟩

/-- The state of the system and the locked store it stands for. -/
structure Coherent (r : Bool) (s : Sys κ τ ε β) (st : LockedStore (κ × τ) ε (List β)) : Prop where
  calls : ∀ i, (s.clients i).CallOk
  owner : ∀ eid, (s.view eid).OwnerOk
  holder : ∀ eid i t, st.holder eid = some (i, t) ↔ (s.clients i).held t eid = true
  keeps : ∀ i eid, (s.world.caches i).cached eid ≠ none → ((s.view eid).cl i).Keeps
  cache : ∀ i eid, (s.world.caches i).Ok r s.world.server eid
  hit : ∀ i eid x, (s.world.caches i).cached eid = some x → st.content eid = some x.1
  stored : ∀ eid, (∀ i, (s.world.caches i).cached eid = none) →
    st.content eid = (s.world.server.visible eid).map Prod.fst
  reading : ∀ i t, Reading s i t (s.world.getPc i t)

omit [DecidableEq β] [DecidableEq κ] [DecidableEq τ] in
theorem coherent_init (s : Server ε β) :
    Coherent r (init κ τ s) (LockedStore.init fun eid => (s.visible eid).map Prod.fst) := by
  refine ⟨fun i => Lock.callOk_of_none _ rfl, Lock.ownerOk_init _, ?_, ?_, ?_, ?_, ?_, ?_⟩
  · intro eid i t
    simp [LockedStore.init, init, Lock.Sys.init, Lock.Client.init]
  · intro i eid h
    exact absurd rfl h
  · intro i eid d hd
    cases hd
  · intro i eid x hx
    cases hx
  · intro eid _
    rfl
  · intro i t
    trivial

section facts
variable {s : Sys κ τ ε β} {st : LockedStore (κ × τ) ε (List β)} (h : Coherent r s st)
include h

section
omit [DecidableEq β] [DecidableEq τ]

omit [DecidableEq κ] in
theorem Coherent.held_keeps (i : κ) (t : τ) (eid : ε) (hh : (s.clients i).held t eid = true) :
    ((s.view eid).cl i).Keeps := by
  obtain ⟨_,hst,_⟩ := ((h.owner eid).client i).of_held t hh
  exact Or.inl (Or.inr (Or.inl hst))

omit [DecidableEq κ] in
theorem Coherent.others (i j : κ) (eid : ε) (hk : ((s.view eid).cl i).Keeps) (hj : j ≠ i) :
    (s.world.caches j).cached eid = none := by
  by_contra hc
  exact hj (Lock.keeps_unique _ (h.owner eid) j i (h.keeps j eid hc) hk)

/-- What the holder of the lock gets: its cached copy, or else the server's. -/
theorem Coherent.content (i : κ) (eid : ε) (hk : ((s.view eid).cl i).Keeps) :
    st.content eid =
      (((s.world.caches i).cached eid).or (s.world.server.visible eid)).map Prod.fst := by
  cases hc : (s.world.caches i).cached eid with
  | some x => exact h.hit i eid x hc
  | none =>
    rw [Option.none_or]
    apply h.stored
    intro j
    by_cases hj : j = i
    · rw [hj, hc]
    · exact h.others i j eid hk hj

omit [DecidableEq κ] in
theorem Coherent.same_thread (i j : κ) (t u : τ) (eid : ε) (hi : (s.clients i).held t eid = true)
    (hj : (s.clients j).held u eid = true) : j = i ∧ u = t := by
  have hjs := ((h.holder eid j u).mpr hj).symm.trans ((h.holder eid i t).mpr hi)
  cases hjs
  exact ⟨rfl, rfl⟩

end

omit [DecidableEq β] in
/-- A thread that holds the lock leaves the extent in the cache with content `b`,
which is then what the locked store has. -/
theorem Coherent.fill (i : κ) (t : τ) (eid : ε) (c : Client ε β) (b : List β) (n : ℕ)
    (w : World κ τ ε β) (hheld : (s.clients i).held t eid = true)
    (hcached : c.cached = Function.update (s.world.caches i).cached eid (some (b, n)))
    (hok : ∀ e, c.Ok r s.world.server e) (hw : w.caches = Function.update s.world.caches i c)
    (hsrv : w.server = s.world.server) (hidle : w.getPc i t = .idle)
    (hpc : ∀ j u, ¬ (j = i ∧ u = t) → w.getPc j u = s.world.getPc j u) :
    Coherent r { s with world := w } { st with
    content := Function.update st.content eid (some b) } := by
  have hkeeps := h.held_keeps i t eid hheld
  have hother : ∀ j e, ¬ (j = i ∧ e = eid) →
      (w.caches j).cached e = (s.world.caches j).cached e := by
    intro j e hje
    rw [hw]
    by_cases hj : j = i
    · subst hj
      rw [Function.update_self, hcached, Function.update_of_ne fun he => hje ⟨rfl, he⟩]
    · rw [Function.update_of_ne hj]
  have hself : (w.caches i).cached eid = some (b, n) := by
    rw [hw, Function.update_self, hcached, Function.update_self]
  refine ⟨h.calls, h.owner, h.holder, ?_, ?_, ?_, ?_, ?_⟩
  · intro j e hc
    by_cases hje : j = i ∧ e = eid
    · obtain ⟨rfl,rfl⟩ := hje
      exact hkeeps
    · exact h.keeps j e fun hn => hc ((hother j e hje).trans hn)
  · intro j e
    simp only [hw, hsrv]
    by_cases hj : j = i
    · subst hj
      rw [Function.update_self]
      exact hok e
    · rw [Function.update_of_ne hj]
      exact h.cache j e
  · intro j e x hx
    by_cases he : e = eid
    · subst he
      -- only the holder can have the extent cached
      by_cases hj : j = i
      · subst hj
        rw [hself, Option.some.injEq] at hx
        simp [← hx]
      · rw [hother j e fun hh => hj hh.1, h.others i j e hkeeps hj] at hx
        cases hx
    · rw [hother j e fun hh => he hh.2] at hx
      simpa [he] using h.hit j e x hx
  · intro e hall
    by_cases he : e = eid
    · subst he
      exact absurd ((hall i).symm.trans hself) (by simp)
    · have hs := h.stored e fun j => (hother j e fun hh => he hh.2).symm.trans (hall j)
      simpa [he, hsrv] using hs
  · intro j u
    by_cases hju : j = i ∧ u = t
    · obtain ⟨rfl,rfl⟩ := hju
      simp only [hidle]
      trivial
    · have hr := h.reading j u
      simp only [hpc j u hju]
      refine hr.congr fun e _ hu => ⟨hu, hother j e fun hje => ?_, by rw [hsrv]⟩
      obtain ⟨rfl,rfl⟩ := hje
      exact hju ⟨rfl, (h.same_thread _ _ t u e hheld hu).2⟩

omit [DecidableEq κ] [DecidableEq τ] [DecidableEq β] in
theorem Coherent.unseen (w : World κ τ ε β)
    (hcached : ∀ j, (w.caches j).cached = (s.world.caches j).cached)
    (hvis : w.server.visible = s.world.server.visible) (hok : ∀ j e, (w.caches j).Ok r w.server e)
    (hread : ∀ j u, Reading { s with world := w } j u (w.getPc j u)) :
    Coherent r { s with world := w } st := by
  refine ⟨h.calls, h.owner, h.holder, ?_, hok, ?_, ?_, hread⟩
  · intro j e hc
    exact h.keeps j e fun hn => hc ((congrFun (hcached j) e).trans hn)
  · intro j e x hx
    exact h.hit j e x ((congrFun (hcached j) e).symm.trans hx)
  · intro e hall
    have hs := h.stored e fun j => (congrFun (hcached j) e).symm.trans (hall j)
    rw [hs]
    simp only [hvis]

end facts

/-- What a step has to show: the operations it completes are steps of the store. -/
def Simulates (r : Bool) (s' : Sys κ τ ε β) (st : LockedStore (κ × τ) ε (List β))
    (old : List (StoreEv (κ × τ) ε (List β))) : Prop :=
  ∃ evs st', s'.world.events = old ++ evs ∧ run LockedStore.step st evs = some st' ∧
    Coherent r s' st'

section
omit [DecidableEq β]

omit [DecidableEq ε] in
theorem setGetPc_self (w : World κ τ ε β) (i : κ) (t : τ) (p : GetPc ε β) :
    (w.setGetPc i t p).getPc i t = p := by
  simp [World.setGetPc]

omit [DecidableEq ε] in
theorem setGetPc_of_ne (w : World κ τ ε β) (i j : κ) (t u : τ) (p : GetPc ε β)
    (h : ¬ (j = i ∧ u = t)) : (w.setGetPc i t p).getPc j u = w.getPc j u := by
  by_cases hj : j = i
  · subst hj
    have hu : u ≠ t := fun hu => h ⟨rfl, hu⟩
    simp [World.setGetPc, hu]
  · simp [World.setGetPc, hj]

theorem reading_setGetPc (s : Sys κ τ ε β) (st : LockedStore (κ × τ) ε (List β))
    (h : Coherent r s st) (i : κ) (t : τ) (p : GetPc ε β) (w : World κ τ ε β)
    (hw : ∀ j u, ¬ (j = i ∧ u = t) → w.getPc j u = s.world.getPc j u) (hp : w.getPc i t = p)
    (hcached : ∀ j, (w.caches j).cached = (s.world.caches j).cached)
    (hvis : w.server.visible = s.world.server.visible)
    (hself : Reading { s with world := w } i t p) (j : κ) (u : τ) :
    Reading { s with world := w } j u (w.getPc j u) := by
  by_cases hju : j = i ∧ u = t
  · obtain ⟨rfl,rfl⟩ := hju
    rwa [hp]
  · rw [hw j u hju]
    exact (h.reading j u).congr fun e _ hu => ⟨hu, congrFun (hcached j) e, congrFun hvis e⟩

end

theorem simulates_get (s s' : Sys κ τ ε β) (st : LockedStore (κ × τ) ε (List β))
    (h : Coherent r s st)
    (i : κ) (t : τ) (eid : ε) (env : Env) (hs : step r s (.get i t eid env) = some s') :
    Simulates r s' st s.world.events := by
  simp only [step] at hs
  split_ifs at hs with huse
  obtain ⟨_,hheld,hidle⟩ := huse
  split at hs <;> cases hs
  · next buf c hl =>
    obtain ⟨hcached,hbuf⟩ := client_lookup_cached _ _ _ _ _ hl
    have hcontent : st.content eid = some buf := by
      obtain ⟨x,hx,hxb⟩ := Option.map_eq_some_iff.mp hbuf
      rw [h.hit i eid x hx, hxb]
    refine ⟨[.get (i, t) eid buf], st, rfl, ?_, ?_⟩
    · simp [run, LockedStore.step, (h.holder eid i t).mpr hheld, hcontent]
    · have hall : ∀ j, (Function.update s.world.caches i c j).cached =
          (s.world.caches j).cached := by
        intro j
        by_cases hj : j = i
        · subst hj
          rw [Function.update_self, hcached]
        · rw [Function.update_of_ne hj]
      refine h.unseen _ hall rfl ?_ ?_
      · intro j e
        by_cases hj : j = i
        · subst hj
          simp only [World.log, World.setCache, Function.update_self]
          exact client_lookup_ok _ _ _ _ _ _ _ hl (h.cache j e)
        · simp only [World.log, World.setCache, Function.update_of_ne hj]
          exact h.cache j e
      · intro j u
        exact (h.reading j u).congr fun e _ hu => ⟨hu, congrFun (hall j) e, rfl⟩
  · next hl =>
    have hnone : (s.world.caches i).cached eid = none := by
      simp [Client.cached, (client_lookup_none _ _ _).mp hl]
    refine ⟨[], st, (List.append_nil _).symm, rfl, ?_⟩
    refine h.unseen _ (fun _ => rfl) rfl h.cache ?_
    exact reading_setGetPc s st h i t
      (.missed eid) _ (fun j u hju => setGetPc_of_ne _ _ _ _ _ _ hju)
      (setGetPc_self _ _ _ _) (fun _ => rfl) rfl ⟨hheld, hnone⟩

theorem simulates_fetch (s s' : Sys κ τ ε β) (st : LockedStore (κ × τ) ε (List β))
    (h : Coherent r s st) (i : κ) (t : τ) (env : Env) (hs : step r s (.fetch i t env) = some s') :
    Simulates r s' st s.world.events := by
  simp only [step] at hs
  split at hs
  · next eid hpc =>
    obtain ⟨⟨buf,srv⟩,hg,rfl⟩ := Option.map_eq_some_iff.mp hs
    obtain ⟨hvis,hbuf⟩ := server_get_visible _ _ _ _ _ hg
    have hr := h.reading i t
    rw [hpc] at hr
    refine ⟨[], st, (List.append_nil _).symm, rfl, ?_⟩
    refine h.unseen _ (fun _ => rfl) hvis ?_ ?_
    · intro j e d hd
      exact (h.cache j e d hd).congr (congrFun hvis e)
    · refine reading_setGetPc s st h i t (.fetched eid buf) _
        (fun j u hju => setGetPc_of_ne _ _ _ _ _ _ hju) (setGetPc_self _ _ _ _) (fun _ => rfl) hvis
          ?_
      exact ⟨hr.1, hr.2, by simpa only [hvis] using hbuf⟩
  · cases hs

theorem simulates_getattr (s s' : Sys κ τ ε β) (st : LockedStore (κ × τ) ε (List β))
    (h : Coherent r s st) (i : κ) (t : τ) (hs : step r s (.getattr i t) = some s') :
    Simulates r s' st s.world.events := by
  simp only [step] at hs
  split at hs
  · next eid buf hpc =>
    obtain ⟨attr,ha,rfl⟩ := Option.map_eq_some_iff.mp hs
    have hr := h.reading i t
    rw [hpc] at hr
    obtain ⟨hheld,hnone,hbuf⟩ := hr
    have hvis : s.world.server.visible eid = some (buf, attr.size) := by
      have hd : (s.world.caches i).fileDataMap eid = none := by simpa [Client.cached] using hnone
      simp only [Client.getattr, hd, Server.getattr] at ha
      obtain ⟨f,hf,rfl⟩ := Option.map_eq_some_iff.mp ha
      simp only [Server.visible, hf, Option.map_some, Option.some.injEq] at hbuf ⊢
      rw [hbuf]
    refine ⟨[], st, (List.append_nil _).symm, rfl, ?_⟩
    refine h.unseen _ (fun _ => rfl) rfl h.cache ?_
    exact reading_setGetPc s st h i t (.described eid buf attr) _
      (fun j u hju => setGetPc_of_ne _ _ _ _ _ _ hju) (setGetPc_self _ _ _ _) (fun _ => rfl) rfl
      ⟨hheld, hnone, hvis⟩
  · cases hs

theorem simulates_insert (s s' : Sys κ τ ε β) (st : LockedStore (κ × τ) ε (List β))
    (h : Coherent r s st) (i : κ) (t : τ) (hs : step r s (.insert i t) = some s') :
    Simulates r s' st s.world.events := by
  simp only [step] at hs
  split at hs <;> cases hs
  next eid buf attr hpc =>
  have hr := h.reading i t
  rw [hpc] at hr
  obtain ⟨hheld,hnone,hvis⟩ := hr
  have hcontent : st.content eid = some buf := by
    rw [h.content i eid (h.held_keeps i t eid hheld), hnone, Option.none_or, hvis]
    rfl
  refine ⟨[.get (i, t) eid buf], st, rfl, ?_, ?_⟩
  · simp [run, LockedStore.step, (h.holder eid i t).mpr hheld, hcontent]
  · have hfill := h.fill i t eid ((s.world.caches i).insert eid buf attr) buf attr.size
      (((s.world.setCache i ((s.world.caches i).insert eid buf attr)).setGetPc i t .idle).log
        [.get (i, t) eid buf]) hheld (client_insert_cached _ _ _ _)
      (fun e => client_insert_ok _ _ _ _ _ _ hvis (h.cache i e)) rfl rfl (setGetPc_self _ _ _ _)
      (fun j u hju => setGetPc_of_ne _ _ _ _ _ _ hju)
    have hst : ({ st with content := Function.update st.content eid (some buf) } :
        LockedStore (κ × τ) ε (List β)) = st := by
      rw [← hcontent, Function.update_eq_self]
    rwa [hst] at hfill

theorem simulates_put (s s' : Sys κ τ ε β) (st : LockedStore (κ × τ) ε (List β))
    (h : Coherent r s st) (i : κ) (t : τ) (eid : ε) (env : Env) (buf : List β)
    (hs : step r s (.put i t eid env buf) = some s') : Simulates r s' st s.world.events := by
  simp only [step] at hs
  split_ifs at hs with huse
  cases hs
  obtain ⟨_,hheld,hidle⟩ := huse
  have hpc : s.world.getPc i t = .idle := by
    cases hp : s.world.getPc i t with
    | idle => rfl
    | missed e | fetched e b | described e b a => simp [GetPc.isIdle, hp] at hidle
  refine ⟨[.put (i, t) eid buf], { st with content := Function.update st.content eid (some buf) },
    rfl, ?_, ?_⟩
  · simp [run, LockedStore.step, (h.holder eid i t).mpr hheld]
  · exact h.fill i t eid ((s.world.caches i).put env eid buf) buf (sizeOf32 buf) _ hheld
      (client_put_cached _ _ _ _) (fun e => client_put_ok _ _ _ _ _ _ (h.cache i e)) rfl rfl hpc
      (fun _ _ _ => rfl)

/-- The locked store takes the operation that a step of the lock system completes. -/
theorem lockEvents_step (s s' : Sys κ τ ε β) (st : LockedStore (κ × τ) ε (List β))
    (h : Coherent r s st) (d : κ → ε → World κ τ ε β → Option (World κ τ ε β)) (a : Lock.Act κ τ ε)
    (hs : Lock.step d s a = some s') :
    ∃ st', run LockedStore.step st (lockEvents s a) = some st' ∧ st'.content = st.content ∧
      ∀ eid i t, st'.holder eid = some (i, t) ↔ (s'.clients i).held t eid = true := by
  have hheld := Lock.held_step d s s' a hs
  by_cases hrel : ∃ i t lid, a = .release i t lid
  · obtain ⟨i,t,lid,rfl⟩ := hrel
    obtain ⟨c,hc,_⟩ := Option.map_eq_some_iff.mp hs
    have hhold := (h.holder lid i t).mpr (Lock.release_held _ c t lid hc).1
    refine ⟨{ st with holder := Function.update st.holder lid none }, ?_, rfl, fun eid j u => ?_⟩
    · simp [run, lockEvents, LockedStore.step, hhold]
    · rw [hheld j u eid]
      by_cases he : eid = lid
      · subst he
        simp only [Function.update_self, Lock.acquired, reduceCtorEq, false_iff, not_and, or_false,
          not_not]
        intro hju
        obtain ⟨rfl,rfl⟩ := h.same_thread i j t u eid ((h.holder eid i t).mp hhold) hju
        rfl
      · simp [Function.update_of_ne he, h.holder eid j u, Lock.acquired, Ne.symm he]
  · push Not at hrel
    have hev : lockEvents s a = ((Lock.acquired s a).map fun x =>
        (.acquire (x.1, x.2.1) x.2.2 : StoreEv (κ × τ) ε (List β))).toList := by
      cases a with
      | release i t lid => exact absurd rfl (hrel i t lid)
      | _ => rfl
    cases hacq : Lock.acquired s a with
    | none =>
      refine ⟨st, by simp [hev, hacq, run], rfl, fun eid j u => ?_⟩
      rw [hheld j u eid, h.holder eid j u]
      simp [hacq, hrel]
    | some x =>
      obtain ⟨i,t,lid⟩ := x
      have hfree : st.holder lid = none := by
        by_contra hne
        obtain ⟨⟨j,u⟩,hju⟩ := Option.ne_none_iff_exists'.mp hne
        have hf := Lock.acquired_unheld s a i t lid (h.owner lid) hacq j u
        exact absurd (hf.symm.trans ((h.holder lid j u).mp hju)) (by simp)
      refine ⟨{ st with holder := Function.update st.holder lid (some (i, t)) }, ?_, rfl,
        fun eid j u => ?_⟩
      · simp [hev, hacq, run, LockedStore.step, hfree]
      · rw [hheld j u eid, hacq]
        by_cases he : eid = lid
        · subst he
          have hf := Lock.acquired_unheld s a i t eid (h.owner eid) hacq j u
          simp [hf]
        · simp [Function.update_of_ne he, h.holder eid j u, hrel, Ne.symm he]

omit [DecidableEq β] in
/-- A thread inside `get` keeps its lock through every step of the lock system. -/
theorem reading_held (s s' : Sys κ τ ε β) (d : κ → ε → World κ τ ε β → Option (World κ τ ε β))
    (a : Lock.Act κ τ ε) (hcalls : callsInGet s.world a = false) (hs : Lock.step d s a = some s')
    (j : κ) (u : τ) (e : ε) (he : (s.world.getPc j u).target = some e)
    (hu : (s.clients j).held u e = true) : (s'.clients j).held u e = true := by
  rw [Lock.held_step d s s' a hs j u e]
  refine Or.inl ⟨hu, ?_⟩
  rintro rfl
  cases hp : s.world.getPc j u with
  | idle => simp [hp, GetPc.target] at he
  | missed e' | fetched e' b | described e' b x => simp [callsInGet, hp, GetPc.isIdle] at hcalls

theorem simulates_lock (s s' : Sys κ τ ε β) (st : LockedStore (κ × τ) ε (List β))
    (h : Coherent r s st) (a : Lock.Act κ τ ε) (env : Env) (ha : ∀ i, a ≠ .dorelease i)
    (hs : step r s (.lock a env) = some s') : Simulates r s' st s.world.events := by
  simp only [step] at hs
  split_ifs at hs with hcalls
  obtain ⟨s1,h1,rfl⟩ := Option.map_eq_some_iff.mp hs
  obtain ⟨st',hrun,hcontent,hholder⟩ := lockEvents_step s s1 st h _ a h1
  have hworld := Lock.world_step _ s s1 a ha h1
  have hview : ∀ eid, Lock.VStep False (s.view eid) (s1.view eid) := fun eid =>
    Lock.vstep_mono _ _ (fun ⟨i,hi⟩ => ha i hi) _ _ (Lock.view_step _ s s1 a eid h.calls h1)
  refine ⟨lockEvents s a, st', by rw [hworld]; rfl, hrun, ?_⟩
  rw [hworld]
  refine ⟨Lock.callOk_step _ s s1 a h.calls h1, fun eid => Lock.vstep_ownerOk _ _ _ (h.owner eid)
    (hview eid), hholder, ?_, h.cache, ?_, ?_, ?_⟩
  · intro i eid hc
    exact Lock.vstep_keeps _ _ (h.owner eid) (hview eid) i (h.keeps i eid hc)
  · intro i eid x hx
    rw [hcontent]
    exact h.hit i eid x hx
  · intro eid hall
    rw [hcontent]
    exact h.stored eid hall
  · intro j u
    refine (h.reading j u).congr fun e he hu => ⟨?_, rfl, rfl⟩
    exact reading_held s s1 _ a (by simpa using hcalls) h1 j u e he hu

section
omit [DecidableEq β]

theorem cached_update_erase (caches : κ → Client ε β) (i : κ) (lid : ε) (j : κ) (e : ε) :
    (Function.update caches i ((caches i).erase lid) j).cached e =
      if j = i ∧ e = lid then none else (caches j).cached e := by
  by_cases hj : j = i
  · subst hj
    by_cases he : e = lid <;> simp [he]
  · simp [hj]

omit [DecidableEq τ] in
/-- The client that goes on to its release RPC looks the same for every other lock. -/
theorem view_sent_of_ne (s : Sys κ τ ε β) (i : κ) (lid e : ε) (w : World κ τ ε β)
    (hcall : (s.clients i).call = some (.release lid .flushing)) (he : e ≠ lid) :
    (Lock.Sys.view { s.setCall i (.release lid .sent) with world := w } e).cl = (s.view e).cl := by
  have hve := Lock.callOn_release (s.clients i) lid e _ hcall
  rw [if_neg (Ne.symm he)] at hve
  simp only [Lock.Sys.setCall, Lock.Sys.setClient]
  rw [Lock.view_update, Lock.view_setCall, Lock.callOn_setCall_release, if_neg (Ne.symm he), ← hve]
  exact Function.update_eq_self (f := (s.view e).cl) i

omit [DecidableEq τ] in
/-- The flush that precedes the release RPC writes the client's copy back, and from
then on the server has what the locked store has. -/
theorem coherent_flush (s : Sys κ τ ε β) (st : LockedStore (κ × τ) ε (List β)) (h : Coherent r s st)
    (i : κ) (lid : ε) (srv : Server ε β)
    (hcall : (s.clients i).call = some (.release lid .flushing))
    (hvis : srv.visible = Function.update s.world.server.visible lid
      (((s.world.caches i).cached lid).or (s.world.server.visible lid)))
    (s1 : Sys κ τ ε β) (h1 : s1 = { s.setCall i (.release lid .sent) with
      world := { s.world.setCache i ((s.world.caches i).erase lid) with server := srv } })
    (hcalls : ∀ j, (s1.clients j).CallOk) (howner : ∀ eid, (s1.view eid).OwnerOk)
    (hholder : ∀ eid j t, st.holder eid = some (j, t) ↔ (s1.clients j).held t eid = true)
    (hread : ∀ j u e, (s.world.getPc j u).target = some e → (s.clients j).held u e = true →
      (s1.clients j).held u e = true) : Coherent r s1 st := by
  subst h1
  have hv := Lock.callOn_release (s.clients i) lid lid _ hcall
  rw [if_pos rfl] at hv
  have hkeep : ((s.view lid).cl i).Keeps := Or.inr hv
  have hcached := cached_update_erase s.world.caches i lid
  have hlid : ∀ j,
      ((Function.update s.world.caches i ((s.world.caches i).erase lid)) j).cached lid = none := by
    intro j
    rw [hcached]
    split_ifs with hj
    · rfl
    · exact h.others i j lid hkeep fun hji => hj ⟨hji, rfl⟩
  refine ⟨hcalls, howner, hholder, ?_, ?_, ?_, ?_, ?_⟩
  · intro j e hc
    by_cases he : e = lid
    · subst he
      exact absurd (hlid j) hc
    · rw [view_sent_of_ne s i lid e _ hcall he]
      apply h.keeps
      simpa [hcached, World.setCache, he] using hc
  · intro j e
    by_cases he : e = lid
    · subst he
      intro d hd
      have hno := hlid j
      simp only [World.setCache] at hd
      simp [Client.cached, hd] at hno
    · have hve : srv.visible e = s.world.server.visible e := by rw [hvis, Function.update_of_ne he]
      have hold : ∀ j, (s.world.caches j).Ok r srv e := fun j d hd => (h.cache j e d hd).congr hve
      by_cases hj : j = i
      · subst hj
        simp only [World.setCache, Function.update_self]
        exact client_erase_ok _ _ _ _ (hold j)
      · simp only [World.setCache, Function.update_of_ne hj]
        exact hold j
  · intro j e x hx
    by_cases he : e = lid
    · subst he
      exact absurd ((hlid j).symm.trans hx) (by simp)
    · apply h.hit j e x
      simpa [hcached, World.setCache, he] using hx
  · intro e hall
    by_cases he : e = lid
    · subst he
      rw [h.content i e hkeep]
      simp only [hvis, Function.update_self]
    · have hs := h.stored e fun j => by simpa [hcached, World.setCache, he] using hall j
      simpa [hvis, he] using hs
  · intro j u
    refine (h.reading j u).congr fun e he hu => ?_
    -- the lock being given back is held by no thread
    have hne : e ≠ lid := by
      rintro rfl
      obtain ⟨hnc,_⟩ := ((h.owner e).client j).of_held u hu
      cases Lock.keeps_unique _ (h.owner e) j i (h.held_keeps j u e hu) hkeep
      exact absurd (hnc.symm.trans hv) (by simp)
    refine ⟨hread j u e he hu, ?_, ?_⟩
    · simp [hcached, World.setCache, hne]
    · simp [hvis, hne]

end

theorem simulates_dorelease (s s' : Sys κ τ ε β) (st : LockedStore (κ × τ) ε (List β))
    (h : Coherent r s st) (i : κ) (env : Env) (hs : step r s (.lock (.dorelease i) env) = some s') :
    Simulates r s' st s.world.events := by
  simp only [step] at hs
  split_ifs at hs with hcalls
  obtain ⟨s1,h1,rfl⟩ := Option.map_eq_some_iff.mp hs
  obtain ⟨st',hrun,_,hholder⟩ := lockEvents_step s s1 st h _ _ h1
  cases hrun
  have hread := reading_held s s1 _ _ (by simpa using hcalls) h1
  have hok := Lock.callOk_step _ s s1 _ h.calls h1
  have howner : ∀ eid, (s1.view eid).OwnerOk := fun eid =>
    Lock.vstep_ownerOk _ _ _ (h.owner eid) (Lock.view_step _ s s1 _ eid h.calls h1)
  cases Lock.sysStep_of_step h1 with
  | dorelease _ lid w hcall hw =>
    obtain ⟨r,hr,rfl⟩ := Option.map_eq_some_iff.mp hw
    obtain ⟨srv,hf,hvis⟩ := client_flush_spec _ s.world.server env lid (h.cache i lid)
      (client_flush_some _ _ _ _ _ hr)
    cases hf.symm.trans hr
    refine ⟨[], st, rfl, rfl, ?_⟩
    have hc := coherent_flush s st h i lid srv hcall hvis _ rfl hok howner hholder hread
    exact ⟨hc.calls, hc.owner, hc.holder, hc.keeps, hc.cache, hc.hit, hc.stored, hc.reading⟩

/-- `remove` only marks the client's copy, which is handed over as before. -/
theorem simulates_remove (s s' : Sys κ τ ε β) (st : LockedStore (κ × τ) ε (List β))
    (h : Coherent r s st) (i : κ) (t : τ) (eid : ε) (hs : step r s (.remove i t eid) = some s') :
    Simulates r s' st s.world.events := by
  simp only [step] at hs
  split_ifs at hs with huse
  obtain ⟨rfl,_⟩ := huse
  cases hs
  have hall : ∀ j, (Function.update s.world.caches i ((s.world.caches i).remove eid).2 j).cached =
      (s.world.caches j).cached := by
    intro j
    by_cases hj : j = i
    · subst hj
      rw [Function.update_self, client_remove_cached]
    · rw [Function.update_of_ne hj]
  refine ⟨[], st, (List.append_nil _).symm, rfl, h.unseen _ hall rfl ?_ ?_⟩
  · intro j e
    by_cases hj : j = i
    · subst hj
      simp only [World.setCache, Function.update_self]
      exact client_remove_ok _ _ _ _ (h.cache j e)
    · simp only [World.setCache, Function.update_of_ne hj]
      exact h.cache j e
  · intro j u
    exact (h.reading j u).congr fun e _ hu => ⟨hu, congrFun (hall j) e, rfl⟩

/-- Every step of the system is a step of the locked store, or none. -/
theorem simulates_step (s s' : Sys κ τ ε β) (st : LockedStore (κ × τ) ε (List β))
    (h : Coherent r s st) (a : Act κ τ ε β) (hs : step r s a = some s') :
    Simulates r s' st s.world.events := by
  cases a with
  | lock a env =>
    by_cases ha : ∃ i, a = .dorelease i
    · obtain ⟨i,rfl⟩ := ha
      exact simulates_dorelease s s' st h i env hs
    · push Not at ha
      exact simulates_lock s s' st h a env ha hs
  | get i t eid env => exact simulates_get s s' st h i t eid env hs
  | fetch i t env => exact simulates_fetch s s' st h i t env hs
  | getattr i t => exact simulates_getattr s s' st h i t hs
  | insert i t => exact simulates_insert s s' st h i t hs
  | put i t eid env buf => exact simulates_put s s' st h i t eid env buf hs
  | remove i t eid => exact simulates_remove s s' st h i t eid hs

/-- What the extents hold before any client has run. -/
def Server.contents (s : Server ε β) (eid : ε) : Option (List β) := (s.visible eid).map Prod.fst

/-- In any interleaving the completed operations are a run of the locked store. -/
theorem coherent_run (srv : Server ε β) (acts : List (Act κ τ ε β)) (s : Sys κ τ ε β)
    (hrun : run (step r) (init κ τ srv) acts = some s) :
    ∃ st, run LockedStore.step (LockedStore.init srv.contents) s.world.events = some st ∧
      Coherent r s st := by
  refine run_invariant (step r) (fun s => ∃ st,
    run LockedStore.step (LockedStore.init srv.contents) s.world.events = some st ∧ Coherent r s st)
    ?_ _ s acts ⟨_, rfl, coherent_init srv⟩ hrun
  rintro s a s' ⟨st,hst,hc⟩ hs
  obtain ⟨evs,st',hevs,hst',hc'⟩ := simulates_step s s' st hc a hs
  refine ⟨st', ?_, hc'⟩
  rw [hevs, run_append, hst]
  exact hst'

omit [DecidableEq β] in
/-- A `get` that has missed finds an extent that has content, at both of its RPCs. -/
theorem Coherent.get_proceeds {s : Sys κ τ ε β} {st : LockedStore (κ × τ) ε (List β)}
    (h : Coherent r s st) (i : κ) (t : τ) (env : Env) (eid : ε) (hex : st.content eid ≠ none) :
    (s.world.getPc i t = .missed eid → (step r s (.fetch i t env)).isSome = true) ∧
    ∀ buf, s.world.getPc i t = .fetched eid buf → (step r s (.getattr i t)).isSome = true := by
  have hr := h.reading i t
  constructor
  · intro hpc
    rw [hpc] at hr
    obtain ⟨hheld,hc⟩ := hr
    have hcontent := h.content i eid (h.held_keeps i t eid hheld)
    rw [hc, Option.none_or] at hcontent
    cases hd : s.world.server.fileDataMap eid with
    | none =>
      rw [hcontent] at hex
      simp [Server.visible, hd] at hex
    | some d => simp [step, hpc, Server.get, hd]
  · intro buf hpc
    rw [hpc] at hr
    obtain ⟨_,hc,hv⟩ := hr
    have hmiss : (s.world.caches i).fileDataMap eid = none := by simpa [Client.cached] using hc
    obtain ⟨d,hd,_⟩ : ∃ d, s.world.server.fileDataMap eid = some d ∧ d.fileContent = buf := by
      simpa [Server.visible] using hv
    simp [step, hpc, Client.getattr, hmiss, Server.getattr, hd]

/-- For any interleaving of any number of clients that never call `remove`: the
operations completed are a run of the locked store, so tenures of one lock do not
overlap and lie around the reads and writes; every `get` returns what was put last
before it, and does not fail on an extent that has content; a client that caches an
extent owns its lock; and a lock is handed back only after `flush`, which does not
fail either, has dropped the client's copy and left the content at the server. -/
theorem extent_cache_coherence (srv : Server ε β) (acts : List (Act κ τ ε β)) (s : Sys κ τ ε β)
    (hrun : run (step false) (init κ τ srv) acts = some s) :
    (run LockedStore.step (LockedStore.init srv.contents) s.world.events ≠ none) ∧
    (∀ evs u eid buf evs', s.world.events = evs ++ .get u eid buf :: evs' →
      LockedStore.lastPut srv.contents evs eid = some buf) ∧
    (∀ i t env eid, LockedStore.lastPut srv.contents s.world.events eid ≠ none →
      (s.world.getPc i t = .missed eid → (step false s (.fetch i t env)).isSome = true) ∧
      ∀ buf, s.world.getPc i t = .fetched eid buf → (step false s (.getattr i t)).isSome = true) ∧
    (∀ i eid, (s.world.caches i).fileDataMap eid ≠ none →
      ∃ e, s.server.lockStatusMap eid = some e ∧ e.status = .locked ∧ e.lockClient = some i) ∧
    (∀ i eid env, (s.clients i).call = some (.release eid .flushing) →
      (step false s (.lock (.dorelease i) env)).isSome = true) ∧
    ∀ i eid, (s.clients i).call = some (.release eid .sent) →
      (s.world.caches i).fileDataMap eid = none ∧
      s.world.server.contents eid = LockedStore.lastPut srv.contents s.world.events eid := by
  obtain ⟨st,hst,hc⟩ := coherent_run srv acts s hrun
  have hcontent : st.content = LockedStore.lastPut srv.contents s.world.events :=
    LockedStore.content_eq_lastPut _ st _ hst
  have hcached : ∀ i eid, (s.world.caches i).cached eid = none ↔
      (s.world.caches i).fileDataMap eid = none := fun i eid => Option.map_eq_none_iff
  have howns : ∀ i eid, ((s.view eid).cl i).Owns →
      ∃ e, s.server.lockStatusMap eid = some e ∧ e.status = .locked ∧ e.lockClient = some i :=
    fun i eid hi => Lock.holder_eq_some _ i (((hc.owner eid).owner i).mp hi)
  refine ⟨by simp [hst], ?_, ?_, ?_, ?_, ?_⟩
  · intro evs u eid buf evs' hevs
    rw [hevs] at hst
    exact LockedStore.get_eq_lastPut _ st evs evs' u eid buf hst
  · intro i t env eid hex
    exact hc.get_proceeds i t env eid (by rwa [hcontent])
  · intro i eid hi
    exact howns i eid (hc.keeps i eid fun hn => hi ((hcached i eid).mp hn)).owns
  · intro i eid env hcall
    obtain ⟨srv',hf,_⟩ := client_flush_spec _ s.world.server env eid (hc.cache i eid)
      (client_ok_false _ _ _ (hc.cache i eid))
    simp [step, callsInGet, Lock.step, hcall, dorelease, hf]
  · intro i eid hcall
    have hv := Lock.callOn_release (s.clients i) eid eid _ hcall
    rw [if_pos rfl] at hv
    have hi := ((hc.owner eid).owner i).mp (Or.inr (Or.inr (Or.inr hv)))
    have hnone : ∀ j, (s.world.caches j).cached eid = none := by
      intro j
      by_contra hj
      have hk := hc.keeps j eid hj
      -- the owner of the lock is `i`, which has dropped its copy
      have hji := Option.some.inj ((((hc.owner eid).owner j).mp hk.owns).symm.trans hi)
      subst hji
      obtain ⟨hst,_⟩ := ((hc.owner eid).client j).of_returning _ hv
      rcases hk with hk | hk
      · rcases hk with hk | hk | hk <;> exact absurd (hst.symm.trans hk) (by simp)
      · exact absurd (hv.symm.trans hk) (by simp)
    exact ⟨(hcached i eid).mp (hnone i), by rw [← hcontent]; exact (hc.stored eid hnone).symm⟩

end

def fiveExtent : Server ℕ ℕ := ⟨fun eid => if eid = 5 then some ⟨[7], ⟨0, 0, 0, 1⟩⟩ else none⟩

/-- The first client writes extent 5, the second one asks for its lock, gets it once
the first has given it back, and reads. -/
def writeHandoverRead : List (Act Bool Unit ℕ ℕ) :=
  (Lock.handover.take 4).map (.lock · ⟨0, 0⟩) ++ .put false () 5 ⟨0, 0⟩ [9] ::
    (Lock.handover.drop 4).map (.lock · ⟨0, 0⟩) ++
    [.get true () 5 ⟨0, 0⟩, .fetch true () ⟨0, 0⟩, .getattr true (), .insert true ()]

theorem extent_cache_coherence_handover :
    ∃ s, run (step false) (init Bool Unit fiveExtent) writeHandoverRead = some s ∧
      s.world.events = [.acquire (false, ()) 5, .put (false, ()) 5 [9], .release (false, ()) 5,
        .acquire (true, ()) 5] ++ [.get (true, ()) 5 [9]] ∧
      LockedStore.lastPut fiveExtent.contents
        [.acquire (false, ()) 5, .put (false, ()) 5 [9], .release (false, ()) 5,
          .acquire (true, ()) 5] 5 = some [9] ∧
      ∃ e, s.server.lockStatusMap 5 = some e ∧ e.status = .locked ∧ e.lockClient = some true := by
  have hends : ∃ s, run (step false) (init Bool Unit fiveExtent) writeHandoverRead = some s ∧
      s.world.events = [.acquire (false, ()) 5, .put (false, ()) 5 [9], .release (false, ()) 5,
        .acquire (true, ()) 5] ++ [.get (true, ()) 5 [9]] ∧
      ((s.world.caches true).fileDataMap 5).isSome = true := by
    decide +kernel
  obtain ⟨s,hrun,hevs,hcached⟩ := hends
  obtain ⟨_,hget,_,howns,_⟩ := extent_cache_coherence fiveExtent writeHandoverRead s hrun
  refine ⟨s, hrun, hevs, hget _ (true, ()) 5 [9] [] hevs, howns true 5 ?_⟩
  intro hn
  rw [hn] at hcached
  cases hcached

end Yfs.Extent
