import Yfs.ExtentCoherence

namespace Yfs.Extent

section
variable {κ τ ε β : Type*} [DecidableEq κ] [DecidableEq τ] [DecidableEq ε]

def Act.now : Act κ τ ε β → Option ℕ
  | .lock _ env | .get _ _ _ env | .fetch _ _ env | .put _ _ _ env _ => some env.now
  | _ => none

def Act.putTime (eid : ε) : Act κ τ ε β → Option ℕ
  | .put _ _ e env _ => if e = eid then some env.now else none
  | _ => none

def clock (acts : List (Act κ τ ε β)) : List ℕ := acts.filterMap Act.now

def putTimes (acts : List (Act κ τ ε β)) (eid : ε) : List ℕ := acts.filterMap (Act.putTime eid)

def Attr.stamp (a : Attr) : ℕ × ℕ := (a.mtime, a.ctime)

def Server.stamps (s : Server ε β) (eid : ε) : Option (ℕ × ℕ) :=
  (s.fileDataMap eid).map fun d => d.fileAttr.stamp

/-- With each time whether the entry is dirty. -/
def Client.stamps (c : Client ε β) (eid : ε) : Option ((ℕ × ℕ) × Bool) :=
  (c.fileDataMap eid).map fun d => (d.fileAttr.stamp, d.isDirty)

theorem map_update_same {γ δ : Type*} (f : ε → Option γ) {g : γ → δ} {eid : ε} {d d' : γ}
    (hd : f eid = some d) (hg : g d' = g d) :
    (fun e => (Function.update f eid (some d') e).map g) = fun e => (f e).map g := by
  rw [map_update, Option.map_some, hg, ← Option.map_some, ← hd]
  exact Function.update_eq_self eid _

theorem stamps_lookup {c c' : Client ε β} {env : Env} {eid : ε} {buf : List β}
    (h : c.lookup env eid = some (buf, c')) : c'.stamps = c.stamps := by
  unfold Client.lookup at h
  split at h
  · next d hd =>
    cases h
    exact map_update_same c.fileDataMap hd rfl
  · cases h

theorem stamps_remove (c : Client ε β) (eid : ε) : (c.remove eid).2.stamps = c.stamps := by
  unfold Client.remove
  split
  · next d hd =>
    exact map_update_same c.fileDataMap hd rfl
  · rfl

theorem stamps_insert (c : Client ε β) (eid : ε) (buf : List β) (attr : Attr) :
    (c.insert eid buf attr).stamps = Function.update c.stamps eid (some (attr.stamp, false)) :=
  map_update c.fileDataMap _ eid _

theorem stamps_put (c : Client ε β) (env : Env) (eid : ε) (buf : List β) :
    (c.put env eid buf).stamps =
      Function.update c.stamps eid (some ((env.now, env.now), true)) := by
  unfold Client.put
  split <;> exact map_update c.fileDataMap _ eid _

theorem stamps_erase (c : Client ε β) (eid : ε) :
    (c.erase eid).stamps = Function.update c.stamps eid none :=
  map_update c.fileDataMap _ eid _

theorem stamps_server_get {s s' : Server ε β} {env : Env} {eid : ε} {buf : List β}
    (h : s.get env eid = some (buf, s')) : s'.stamps = s.stamps := by
  unfold Server.get at h
  split at h
  · next d hd =>
    cases h
    exact map_update_same s.fileDataMap hd rfl
  · cases h

theorem stamps_server_put (s : Server ε β) (env : Env) (eid : ε) (buf : List β) :
    (s.put env eid buf).stamps = Function.update s.stamps eid (some (env.now, env.now)) := by
  unfold Server.put
  split <;> exact map_update s.fileDataMap _ eid _

theorem stamps_flush {c c' : Client ε β} {s s' : Server ε β} {env : Env} {eid : ε}
    (h : c.flush s env eid = some (c', s')) : c'.stamps = Function.update c.stamps eid none ∧
      (s'.stamps = s.stamps ∧ (∀ x ∈ c.stamps eid, x.2 = false) ∨
        s'.stamps = Function.update s.stamps eid (some (env.now, env.now))) := by
  unfold Client.flush at h
  split at h
  · next hd =>
    cases h
    have hnone : c.stamps eid = none := by rw [Client.stamps, hd, Option.map_none]
    exact ⟨(Function.update_eq_self_iff.mpr hnone.symm).symm,
      .inl ⟨rfl, fun x hx => by rw [hnone] at hx; cases hx⟩⟩
  · next d hd =>
    split_ifs at h with _ hdirty <;> cases h
    · exact ⟨stamps_erase c eid, .inr (stamps_server_put s env eid _)⟩
    · refine ⟨stamps_erase c eid, .inl ⟨rfl, fun x hx => ?_⟩⟩
      rw [Client.stamps, hd] at hx
      cases hx
      exact Bool.not_eq_true _ ▸ hdirty

omit [DecidableEq ε] in
theorem cached_none_iff {c : Client ε β} {eid : ε} : c.cached eid = none ↔ c.stamps eid = none := by
  rw [Client.cached, Client.stamps, Option.map_eq_none_iff, Option.map_eq_none_iff]

/-- The times are readings of the clock, if the extent has been put, and not before any `put` of
it. -/
def Since (done : List (Act κ τ ε β)) (eid : ε) (x : ℕ × ℕ) : Prop :=
  (∀ n ∈ putTimes done eid, n ≤ x.1 ∧ n ≤ x.2) ∧
    (putTimes done eid ≠ [] → x.1 ∈ clock done ∧ x.2 ∈ clock done)

/-- What the caches show, what the server shows of an extent that is not dirty in any of them, and
what is on its way to a cache. -/
structure Timely (done : List (Act κ τ ε β)) (w : World κ τ ε β) : Prop where
  cached : ∀ i eid x, (w.caches i).stamps eid = some x → Since done eid x.1
  stored : ∀ eid x, (∀ i, ∀ y ∈ (w.caches i).stamps eid, y.2 = false) →
    w.server.stamps eid = some x → Since done eid x
  described : ∀ i t eid buf attr, w.getPc i t = .described eid buf attr → Since done eid attr.stamp

variable {done : List (Act κ τ ε β)} {a : Act κ τ ε β} {eid : ε} {x : ℕ × ℕ}

section
omit [DecidableEq κ] [DecidableEq τ]

theorem putTimes_snoc (done : List (Act κ τ ε β)) (a : Act κ τ ε β) (eid : ε) :
    putTimes (done ++ [a]) eid = putTimes done eid ++ (a.putTime eid).toList := by
  rw [putTimes, List.filterMap_append]
  cases h : a.putTime eid <;> simp [putTimes, h]

omit [DecidableEq ε] in
theorem clock_snoc (done : List (Act κ τ ε β)) (a : Act κ τ ε β) :
    clock (done ++ [a]) = clock done ++ a.now.toList := by
  rw [clock, List.filterMap_append]
  cases h : a.now <;> simp [clock, h]

theorem Since.next (h : Since done eid x) (ha : a.putTime eid = none) :
    Since (done ++ [a]) eid x := by
  rw [Since, putTimes_snoc, ha, clock_snoc]
  rw [Option.toList_none, List.append_nil]
  exact ⟨h.1,
    fun hput => ⟨List.mem_append_left _ (h.2 hput).1, List.mem_append_left _ (h.2 hput).2⟩⟩

/-- The clock does not go back. -/
theorem since_now {n : ℕ} (ha : a.now = some n) (hput : ∀ m ∈ a.putTime eid, m = n)
    (hclock : (clock (done ++ [a])).Pairwise (· ≤ ·)) : Since (done ++ [a]) eid (n, n) := by
  have hmem : n ∈ clock (done ++ [a]) := by
    rw [clock_snoc, ha]
    exact List.mem_append_right _ (List.mem_singleton_self n)
  refine ⟨fun m hm => ?_, fun _ => ⟨hmem, hmem⟩⟩
  suffices m ≤ n from ⟨this, this⟩
  rw [putTimes_snoc, List.mem_append, Option.mem_toList] at hm
  rcases hm with hm | hm
  · have hdone : m ∈ clock done := by
      obtain ⟨b,hb,hbm⟩ := List.mem_filterMap.mp hm
      refine List.mem_filterMap.mpr ⟨b, hb, ?_⟩
      cases b with
      | put i t e env buf =>
        rw [Act.putTime] at hbm
        split_ifs at hbm
        exact hbm
      | _ => cases hbm
    rw [clock_snoc, ha, List.pairwise_append] at hclock
    exact hclock.2.2 m hdone n (List.mem_singleton_self n)
  · exact Nat.le_of_eq (hput m hm)

theorem Timely.keep {w w' : World κ τ ε β} (h : Timely done w) (ha : ∀ eid, a.putTime eid = none)
    (hcaches : ∀ i, (w'.caches i).stamps = (w.caches i).stamps)
    (hserver : w'.server.stamps = w.server.stamps)
    (hpc : ∀ i t eid buf attr, w'.getPc i t = .described eid buf attr → Since done eid attr.stamp) :
    Timely (done ++ [a]) w' where
  cached := fun i eid x hx => (h.cached i eid x (hcaches i ▸ hx)).next (ha eid)
  stored := fun eid x hclean hx =>
    (h.stored eid x (fun i y hy => hclean i y (by rwa [hcaches])) (hserver ▸ hx)).next (ha eid)
  described := fun i t eid buf attr hx => (hpc i t eid buf attr hx).next (ha eid)

end

omit [DecidableEq τ] [DecidableEq ε] in
theorem stamps_setCache (w : World κ τ ε β) (i j : κ) (c : Client ε β) :
    ((w.setCache i c).caches j).stamps = if j = i then c.stamps else (w.caches j).stamps := by
  simp only [World.setCache, Function.update_apply]
  split_ifs <;> rfl

theorem Timely.setGetPc {w : World κ τ ε β} (h : Timely done w) {i : κ} {t : τ} {p : GetPc ε β}
    (hp : ∀ eid buf attr, p = .described eid buf attr → Since done eid attr.stamp) (j : κ) (u : τ)
    (eid : ε)
    (buf : List β) (attr : Attr) (hx : (w.setGetPc i t p).getPc j u = .described eid buf attr) :
    Since done eid attr.stamp := by
  by_cases hju : j = i ∧ u = t
  · obtain ⟨rfl,rfl⟩ := hju
    rw [setGetPc_self] at hx
    exact hp eid buf attr hx
  · rw [setGetPc_of_ne _ _ _ _ _ _ hju] at hx
    exact h.described j u eid buf attr hx

variable {r : Bool} {s s' : Sys κ τ ε β} {st : LockedStore (κ × τ) ε (List β)}

omit [DecidableEq τ] in
/-- The holder of the lock finds the times in its cache or at the server. -/
theorem Timely.getattr (hc : Coherent r s st) (h : Timely done s.world) {i : κ} {t : τ} {eid : ε}
    (hheld : (s.clients i).held t eid = true) {attr : Attr}
    (ha : (s.world.caches i).getattr s.world.server eid = some attr) :
    Since done eid attr.stamp := by
  unfold Client.getattr at ha
  split at ha
  · next d hd =>
    cases ha
    exact h.cached i eid _ (by rw [Client.stamps, hd]; rfl)
  · next hd =>
    obtain ⟨f,hf,rfl⟩ := Option.map_eq_some_iff.mp ha
    refine h.stored eid _ (fun j y hy => ?_) (by rw [Server.stamps, hf]; rfl)
    -- nobody has the extent in the cache
    have hnone : (s.world.caches j).stamps eid = none := by
      by_cases hj : j = i
      · rw [hj, Client.stamps, hd, Option.map_none]
      · exact cached_none_iff.mp (hc.others i j eid (hc.held_keeps i t eid hheld) hj)
    rw [hnone] at hy
    cases hy

omit [DecidableEq τ] in
theorem timely_flush (h : Timely done s.world) {i : κ} {lid : ε} {env : Env} {w : World κ τ ε β}
    (hw : dorelease env i lid s.world = some w) (ha : a.now = some env.now)
    (hput : ∀ eid, a.putTime eid = none)
    (hclock : (clock (done ++ [a])).Pairwise (· ≤ ·)) : Timely (done ++ [a]) w := by
  obtain ⟨⟨c,srv⟩,hf,rfl⟩ := Option.map_eq_some_iff.mp hw
  obtain ⟨hc,hsrv⟩ := stamps_flush hf
  have hcaches (j : κ) (eid : ε) (hne : ¬ (j = i ∧ eid = lid)) :
      ((s.world.setCache i c).caches j).stamps eid = (s.world.caches j).stamps eid := by
    rw [stamps_setCache]
    split_ifs with hj
    · rw [hc, hj, Function.update_of_ne fun he => hne ⟨hj, he⟩]
    · rfl
  have hgone : ((s.world.setCache i c).caches i).stamps lid = none := by
    rw [stamps_setCache, if_pos rfl, hc, Function.update_self]
  refine ⟨fun j eid x hx => ?_, fun eid x hclean hx => ?_, fun j u eid buf attr hx => ?_⟩
  · by_cases hje : j = i ∧ eid = lid
    · obtain ⟨rfl,rfl⟩ := hje
      exact absurd (hgone.symm.trans hx) (by simp)
    · exact (h.cached j eid x ((hcaches j eid hje).symm.trans hx)).next (hput eid)
  · change srv.stamps eid = some x at hx
    have hbefore (hown : ∀ y ∈ (s.world.caches i).stamps eid, y.2 = false)
      (hx : s.world.server.stamps eid = some x) :
        Since (done ++ [a]) eid x := by
      refine (h.stored eid x (fun j y hy => ?_) hx).next (hput eid)
      by_cases hj : j = i
      · subst hj
        exact hown y hy
      · exact hclean j y ((hcaches j eid fun hh => hj hh.1).trans hy)
    by_cases he : eid = lid
    · subst he
      rcases hsrv with ⟨hsame,hclean'⟩ | hnew
      · exact hbefore hclean' (hsame ▸ hx)
      · rw [hnew, Function.update_self] at hx
        cases hx
        exact since_now ha (fun m hm => by rw [hput] at hm; cases hm) hclock
    · refine hbefore (fun y hy => hclean i y ((hcaches i eid fun hh => he hh.2).trans hy)) ?_
      rcases hsrv with ⟨hsame,-⟩ | hnew
      · exact hsame ▸ hx
      · rwa [hnew, Function.update_of_ne he] at hx
  · exact (h.described j u eid buf attr hx).next (hput eid)

/-- A thread that holds the lock leaves the extent in the cache with the times `x`. -/
theorem Timely.fill (hc : Coherent r s st) (h : Timely done s.world) {i : κ} {t : τ} {eid : ε}
    (hheld : (s.clients i).held t eid = true) {c : Client ε β} {x : ℕ × ℕ} {b : Bool}
    {w : World κ τ ε β}
    (hcs : c.stamps = Function.update (s.world.caches i).stamps eid (some (x, b)))
    (hx : Since (done ++ [a]) eid x) (hput : ∀ e, e ≠ eid → a.putTime e = none)
    -- a clean entry takes the place of none
    (hb : b = false → (s.world.caches i).stamps eid = none ∧ a.putTime eid = none)
    (hw : w.caches = (s.world.setCache i c).caches) (hsrv : w.server = s.world.server)
    (hidle : w.getPc i t = .idle)
    (hpc : ∀ j u, ¬ (j = i ∧ u = t) → w.getPc j u = s.world.getPc j u) :
    Timely (done ++ [a]) w := by
  have hself : (w.caches i).stamps eid = some (x, b) := by
    rw [hw, stamps_setCache, if_pos rfl, hcs, Function.update_self]
  have hother (j : κ) (e : ε) (hne : ¬ (j = i ∧ e = eid)) :
      (w.caches j).stamps e = (s.world.caches j).stamps e := by
    rw [hw, stamps_setCache]
    split_ifs with hj
    · rw [hcs, hj, Function.update_of_ne fun he => hne ⟨hj, he⟩]
    · rfl
  refine ⟨fun j e y hy => ?_, fun e y hclean hy => ?_, fun j u e buf attr hd => ?_⟩
  · by_cases hje : j = i ∧ e = eid
    · obtain ⟨rfl,rfl⟩ := hje
      cases hself.symm.trans hy
      exact hx
    · rw [hother j e hje] at hy
      by_cases he : e = eid
      · -- only the holder can have the extent cached
        subst he
        have hnone :=
          cached_none_iff.mp (hc.others i j e (hc.held_keeps i t e hheld) fun hj => hje ⟨hj, rfl⟩)
        exact absurd (hnone.symm.trans hy) (by simp)
      · exact (h.cached j e y hy).next (hput e he)
  · rw [hsrv] at hy
    by_cases he : e = eid
    · subst he
      obtain ⟨hnone,hnoput⟩ := hb (hclean i _ hself)
      refine (h.stored e y (fun j z hz => ?_) hy).next hnoput
      by_cases hj : j = i
      · subst hj
        exact absurd (hnone.symm.trans hz) (by simp)
      · exact hclean j z ((hother j e fun hh => hj hh.1).trans hz)
    · exact (h.stored e y (fun j z hz => hclean j z ((hother j e fun hh => he hh.2).trans hz))
        hy).next (hput e he)
  · by_cases hju : j = i ∧ u = t
    · obtain ⟨rfl,rfl⟩ := hju
      exact absurd (hidle.symm.trans hd) (by simp)
    · rw [hpc j u hju] at hd
      by_cases he : e = eid
      · -- no other thread can be inside `get` for the extent
        subst he
        have hreading := hc.reading j u
        rw [hd] at hreading
        exact absurd (hc.same_thread i j t u e hheld hreading.1) hju
      · exact (h.described j u e buf attr hd).next (hput e he)

theorem timely_step (hc : Coherent r s st) (h : Timely done s.world) (hs : step r s a = some s')
    (hclock : (clock (done ++ [a])).Pairwise (· ≤ ·)) : Timely (done ++ [a]) s'.world := by
  cases a with
  | lock b env =>
    simp only [step] at hs
    split_ifs at hs
    obtain ⟨s1,h1,rfl⟩ := Option.map_eq_some_iff.mp hs
    by_cases hb : ∃ i, b = .dorelease i
    · obtain ⟨i,rfl⟩ := hb
      cases Lock.sysStep_of_step h1 with
      | dorelease _ lid w hcall hw =>
        have hf := timely_flush h hw rfl (fun _ => rfl) hclock
        exact ⟨hf.cached, hf.stored, hf.described⟩
    · push Not at hb
      have hworld := Lock.world_step _ s s1 b hb h1
      refine h.keep (fun _ => rfl) (fun i => ?_) ?_ ?_
      · rw [World.log, hworld]
      · rw [World.log, hworld]
      · rw [World.log, hworld]
        exact h.described
  | get i t eid env =>
    simp only [step] at hs
    split_ifs at hs
    split at hs <;> cases hs
    · next buf c hl =>
      refine h.keep (fun _ => rfl) (fun j => ?_) rfl h.described
      change ((s.world.setCache i c).caches j).stamps = _
      rw [stamps_setCache]
      split_ifs with hj
      · rw [stamps_lookup hl, hj]
      · rfl
    · exact h.keep (fun _ => rfl) (fun _ => rfl) rfl (h.setGetPc fun _ _ _ hp => by cases hp)
  | fetch i t env =>
    simp only [step] at hs
    split at hs
    · next eid hpc =>
      obtain ⟨⟨buf,srv⟩,hg,rfl⟩ := Option.map_eq_some_iff.mp hs
      exact h.keep (fun _ => rfl) (fun _ => rfl) (stamps_server_get hg)
        (h.setGetPc fun _ _ _ hp => by cases hp)
    · cases hs
  | getattr i t =>
    simp only [step] at hs
    split at hs
    · next eid buf hpc =>
      obtain ⟨attr,hattr,rfl⟩ := Option.map_eq_some_iff.mp hs
      have hreading := hc.reading i t
      rw [hpc] at hreading
      refine h.keep (fun _ => rfl) (fun _ => rfl) rfl (h.setGetPc fun e b x hp => ?_)
      cases hp
      exact h.getattr hc hreading.1 hattr
    · cases hs
  | insert i t =>
    simp only [step] at hs
    split at hs <;> cases hs
    next eid buf attr hpc =>
    have hreading := hc.reading i t
    rw [hpc] at hreading
    exact h.fill hc hreading.1 (stamps_insert _ _ _ _) ((h.described i t eid buf attr hpc).next rfl)
      (fun _ _ => rfl)
      (fun _ => ⟨cached_none_iff.mp hreading.2.1, rfl⟩) rfl rfl (setGetPc_self _ _ _ _)
      fun j u hju => setGetPc_of_ne _ _ _ _ _ _ hju
  | put i t eid env buf =>
    simp only [step] at hs
    split_ifs at hs with huse
    cases hs
    obtain ⟨-,hheld,hidle⟩ := huse
    have hpc : s.world.getPc i t = .idle := by
      cases hp : s.world.getPc i t with
      | idle => rfl
      | missed e | fetched e b | described e b x => simp [GetPc.isIdle, hp] at hidle
    refine h.fill hc hheld (stamps_put _ _ _ _) (since_now rfl (fun m hm => ?_) hclock)
      (fun e he => ?_)
      (fun hb => by cases hb) rfl rfl hpc fun _ _ _ => rfl
    · simpa [Act.putTime, eq_comm] using hm
    · rw [Act.putTime, if_neg (Ne.symm he)]
  | remove i t eid =>
    simp only [step] at hs
    split_ifs at hs
    cases hs
    refine h.keep (fun _ => rfl) (fun j => ?_) rfl h.described
    rw [stamps_setCache]
    split_ifs with hj
    · rw [stamps_remove, hj]
    · rfl

omit [DecidableEq κ] [DecidableEq τ] in
theorem timely_init (srv : Server ε β) : Timely ([] : List (Act κ τ ε β)) (init κ τ srv).world where
  cached := fun _ _ _ hx => by cases hx
  stored := fun _ _ _ _ => ⟨fun _ hn => absurd hn List.not_mem_nil, fun hn => absurd rfl hn⟩
  described := fun _ _ _ _ _ hx => by cases hx

variable [DecidableEq β]

end

/-- The first client writes at 7, and its flush reaches the server at 9. -/
def writeThenFlush : List (Act Bool Unit ℕ ℕ) :=
  (Lock.handover.take 4).map (.lock · ⟨5, 0⟩) ++ .put false () 5 ⟨7, 0⟩ [9] ::
    (Lock.handover.drop 4).map (.lock · ⟨9, 0⟩) ++
    [.get true () 5 ⟨9, 0⟩, .fetch true () ⟨9, 0⟩, .getattr true (), .insert true ()]

end Yfs.Extent
