import Yfs.Handle

namespace Yfs.Handle

section
variable {η ν : Type*} [DecidableEq η] [DecidableEq ν]

/-- All later calls return what the first one has returned. -/
def Stable (returned : List (Option ℕ)) : Prop :=
  ∀ first rest, returned = first :: rest → ∀ v ∈ rest, v = first

/-- After NULL comes nothing but NULL. -/
def NullLasts (returned : List (Option ℕ)) : Prop :=
  returned.Pairwise fun v w => v = none → w = none

def AllStable (s : HandleMgr η ν) : Prop := ∀ o ∈ s.handles, Stable o.returned

/-- A handle that has returned a client is not asked again once its record is marked. -/
def BindsUnmarked (s : HandleMgr η ν) : HandleAct η ν → Prop
  | .safebind x => ∀ o ∈ s.handles, o.id = x → (∃ v ∈ o.returned, v ≠ none) →
      ∀ h ∈ o.h.bind s.heap, h.del = false
  | _ => True

instance decidableBindsUnmarked (s : HandleMgr η ν) : ∀ a, Decidable (BindsUnmarked s a)
  | .safebind x => inferInstanceAs (Decidable (∀ o ∈ s.handles, o.id = x →
      (∃ v ∈ o.returned, v ≠ none) → ∀ h ∈ o.h.bind s.heap, h.del = false))
  | .construct _ _ | .destroy _ | .bound _ _ | .deleteHandle _ => isTrue trivial

/-- What a handle on `h` has returned: the client is that of the record, NULL came with the
mark, and there is nothing before the first `bind` has returned. -/
structure Answers (h : Hinfo η ν) (returned : List (Option ℕ)) : Prop where
  client : ∀ r, some r ∈ returned → h.cl = some r
  null : none ∈ returned → h.del = true
  first : h.clMutex ≠ none → returned = []

/-- The same for every live handle; one without a record returns NULL. -/
structure Replies (heap : ℕ → Option (Hinfo η ν)) (hs : List (Object η)) : Prop where
  lasts : ∀ o ∈ hs, NullLasts o.returned
  nowhere : ∀ o ∈ hs, o.h = none → ∀ v ∈ o.returned, v = none
  answers : ∀ o ∈ hs, ∀ a h, o.h = some a → heap a = some h → Answers h o.returned

theorem nullLasts_append {l : List (Option ℕ)} {v : Option ℕ} (h : NullLasts l)
    (hv : none ∈ l → v = none) : NullLasts (l ++ [v]) := by
  refine List.pairwise_append.mpr ⟨h,List.pairwise_singleton _ _,fun w hw v' hv' hnone => ?_⟩
  rw [List.mem_singleton.mp hv']
  exact hv (hnone ▸ hw)

section
variable {heap : ℕ → Option (Hinfo η ν)} {hs : List (Object η)} {a : ℕ} {k k' : Hinfo η ν}
omit [DecidableEq ν]

omit [DecidableEq η] in
theorem Replies.cons (h : Replies heap hs) (x : η) (p : Option ℕ) :
    Replies heap (⟨x, p, []⟩ :: hs) where
  lasts := List.forall_mem_cons.mpr ⟨List.Pairwise.nil,h.lasts⟩
  nowhere := List.forall_mem_cons.mpr ⟨fun _ => nofun,h.nowhere⟩
  answers := List.forall_mem_cons.mpr ⟨fun _ _ _ _ => ⟨nofun,nofun,fun _ => rfl⟩,h.answers⟩

theorem Replies.erase (h : Replies heap hs) (o : Object η) : Replies heap (hs.erase o) where
  lasts o' ho' := h.lasts o' (List.mem_of_mem_erase ho')
  nowhere o' ho' := h.nowhere o' (List.mem_of_mem_erase ho')
  answers o' ho' := h.answers o' (List.mem_of_mem_erase ho')

omit [DecidableEq η] in
theorem Replies.store
    (h : Replies heap hs) (hkeep : ∀ o ∈ hs, o.h = some a → Answers k' o.returned) :
    Replies (Function.update heap a (some k')) hs := by
  refine ⟨h.lasts,h.nowhere,fun o ho b d hh hd => ?_⟩
  by_cases hb : b = a
  · subst hb
    rw [Function.update_self] at hd
    exact Option.some.inj hd ▸ hkeep o ho hh
  · rw [Function.update_of_ne hb] at hd
    exact h.answers o ho b d hh hd

omit [DecidableEq η] in
theorem Replies.free (h : Replies heap hs) : Replies (Function.update heap a none) hs := by
  refine ⟨h.lasts,h.nowhere,fun o ho b d hh hd => ?_⟩
  have hb : b ≠ a := by
    rintro rfl
    rw [Function.update_self] at hd
    exact nomatch hd
  rw [Function.update_of_ne hb] at hd
  exact h.answers o ho b d hh hd

theorem Replies.ret (h : Replies heap hs) {o : Object η} (ho : o ∈ hs) {v : Option ℕ}
    (hlast : none ∈ o.returned → v = none)
    (hnowhere : o.h = none → v = none) (hans : ∀ a k, o.h = some a → heap a = some k →
      Answers k (o.returned ++ [v])) :
    Replies heap ({ o with returned := o.returned ++ [v] } :: hs.erase o) := by
  have hrest := h.erase o
  refine ⟨List.forall_mem_cons.mpr ⟨nullLasts_append (h.lasts o ho) hlast,hrest.lasts⟩,
    List.forall_mem_cons.mpr ⟨fun hh w hw => ?_,hrest.nowhere⟩,List.forall_mem_cons.mpr
      ⟨hans,hrest.answers⟩⟩
  rcases List.mem_append.mp hw with hw | hw
  · exact h.nowhere o ho hh w hw
  · rw [List.mem_singleton.mp hw]
    exact hnowhere hh

omit [DecidableEq η] in
/-- The record has no client and no mark, so nothing has been returned. -/
theorem Answers.nothing {returned : List (Option ℕ)} (h : Answers k returned) (hcl : k.cl = none)
    (hdel : k.del = false) :
    returned = [] := by
  refine List.eq_nil_iff_forall_not_mem.mpr fun v hv => ?_
  cases v with
  | none => exact nomatch hdel.symm.trans (h.null hv)
  | some r => exact nomatch hcl.symm.trans (h.client r hv)

omit [DecidableEq η] in
theorem Answers.append {returned : List (Option ℕ)} {v : Option ℕ} (h : Answers k returned)
    (hsome : ∀ r, v = some r → k.cl = some r)
    (hnone : v = none → k.del = true) (hidle : k.clMutex = none) : Answers k (returned ++ [v]) := by
  refine ⟨fun r hr => ?_,fun hmem => ?_,fun hmx => absurd hidle hmx⟩
  · rcases List.mem_append.mp hr with hr | hr
    · exact h.client r hr
    · exact hsome r (List.mem_singleton.mp hr).symm
  · rcases List.mem_append.mp hmem with hmem | hmem
    · exact h.null hmem
    · exact hnone (List.mem_singleton.mp hmem).symm

/-- The first `bind` for the record returns: nothing has been returned for it so far. -/
theorem Replies.settled (h : Replies heap hs) {o : Object η} {v : Option ℕ} (ho : o ∈ hs)
    (hh : o.h = some a) (hk : heap a = some k) (hmx : k.clMutex ≠ none)
    (hsome : ∀ r, v = some r → k'.cl = some r) (hnone : v = none → k'.del = true)
    (hidle : k'.clMutex = none) :
    Replies (Function.update heap a (some k'))
      ({ o with returned := o.returned ++ [v] } :: hs.erase o) := by
  have hfirst : ∀ o' ∈ hs, o'.h = some a → o'.returned = [] :=
    fun o' ho' hh' => (h.answers o' ho' a k hh' hk).first hmx
  have hstore : Replies (Function.update heap a (some k')) hs := by
    refine h.store fun o' ho' hh' => ?_
    rw [hfirst o' ho' hh']
    exact ⟨nofun,nofun,fun _ => rfl⟩
  refine hstore.ret ho (fun hmem => ?_) (fun hnull => nomatch hh.symm.trans hnull)
    fun b d hb hd => ?_
  · rw [hfirst o ho hh] at hmem
    exact nomatch hmem
  · rw [hh] at hb
    cases hb
    have hans := hstore.answers o ho a d hh hd
    rw [Function.update_self] at hd
    cases hd
    exact hans.append hsome hnone hidle

end

omit [DecidableEq ν] in
theorem Replies.at_once {s : HandleMgr η ν} (h : Replies s.heap s.handles) {o : Object η} {a : ℕ}
    {k : Hinfo η ν}
    (ho : o ∈ s.handles) (hh : o.h = some a) (hk : s.heap a = some k) (hidle : k.clMutex = none)
    {v : Option ℕ} (hlast : none ∈ o.returned → v = none) (hsome : ∀ r, v = some r → k.cl = some r)
    (hnone : v = none → k.del = true) :
    Replies (s.ret o v).heap (s.ret o v).handles := by
  refine h.ret ho hlast (fun hnull => nomatch hh.symm.trans hnull) fun b d hb hd => ?_
  rw [hh] at hb
  cases hb
  rw [hk] at hd
  cases hd
  exact (h.answers o ho a k hh hk).append hsome hnone hidle

theorem replies_step {s s' : HandleMgr η ν} {act : HandleAct η ν} (hok : Ok s)
    (h : Replies s.heap s.handles) (hs : HandleStep s act s') : Replies s'.heap s'.handles := by
  cases hs with
  | create x m hx hm =>
    refine Replies.cons (h.store fun o ho hh => ?_) x _
    -- no handle points to an address that has not been used
    obtain ⟨k,hk⟩ := hok.pointed ho hh
    exact absurd (hok.indexed.fresh _ k hk) (Nat.lt_irrefl _)
  | share x m a k hx hm hk hdel =>
    refine Replies.cons (h.store fun o ho hh => ?_) x _
    have hans := h.answers o ho a k hh hk
    exact ⟨hans.client,hans.null,hans.first⟩
  | refuse x m a k hx hm hk hdel => exact h.cons x none
  | leave o ho hh => exact h.erase o
  | drop o a k ho hh hk hidle hkeep =>
    refine Replies.erase (h.store fun o' ho' hh' => ?_) o
    have hans := h.answers o' ho' a k hh' hk
    exact ⟨hans.client,hans.null,hans.first⟩
  | last o a k ho hh hk hone hdel => exact Replies.erase h.free o
  | null o ho hh =>
    exact h.ret ho (fun _ => rfl) (fun _ => rfl) fun a k ha => nomatch hh.symm.trans ha
  | deleted o a k ho hh hk hidle hdel =>
    exact h.at_once ho hh hk hidle (fun _ => rfl) nofun fun _ => hdel
  | cached o a k r ho hh hk hidle hdel hcl =>
    refine h.at_once ho hh hk hidle (fun hnone => ?_) (fun r' hr' => hcl.trans hr') nofun
    exact nomatch hdel.symm.trans ((h.answers o ho a k hh hk).null hnone)
  | bind o a k ho hh hk hidle hdel hcl =>
    refine h.store fun o' ho' hh' => ?_
    rw [(h.answers o' ho' a k hh' hk).nothing hcl hdel]
    exact ⟨nofun,nofun,fun _ => rfl⟩
  | bound o a k r ho hh hk hmx =>
    exact h.settled ho hh hk (by simp [hmx]) (fun _ hr => hr) nofun rfl
  | failed o a k r ho hh hk hmx =>
    -- the record is marked without ever having had a client
    have hcl := (hok.counted.binds a k hk _ hmx).1
    exact h.settled ho hh hk (by simp [hmx]) (fun _ hr => nomatch hcl.symm.trans hr)
      (fun _ => rfl) rfl
  | absent m hm => exact h
  | delete m a k hm hk hzero => exact h.free
  | mark m a k hm hk hpos =>
    refine h.store fun o ho hh => ?_
    have hans := h.answers o ho a k hh hk
    exact ⟨hans.client,fun _ => rfl,hans.first⟩

theorem ok_replies_step {s s' : HandleMgr η ν} {act : HandleAct η ν}
    (h : Ok s ∧ Replies s.heap s.handles) (hs : s.step act = some s') :
    Ok s' ∧ Replies s'.heap s'.handles := by
  have hstep := handleStep_of_step h.1 hs
  exact ⟨ok_handleStep h.1 hstep,replies_step h.1 h.2 hstep⟩

theorem stable_iff {l : List (Option ℕ)} : Stable l ↔ ∀ v ∈ l, ∀ w ∈ l, v = w := by
  constructor
  · intro h v hv w hw
    cases l with
    | nil => exact absurd hv List.not_mem_nil
    | cons first rest =>
      have hall : ∀ u ∈ first :: rest, u = first :=
        List.forall_mem_cons.mpr ⟨rfl,h first rest rfl⟩
      exact (hall v hv).trans (hall w hw).symm
  · rintro h first rest rfl v hv
    exact h v (List.mem_cons_of_mem _ hv) first List.mem_cons_self

omit [DecidableEq ν] in
/-- A call returns what all calls before it have returned. -/
theorem AllStable.ret {s : HandleMgr η ν} (h : AllStable s) {o : Object η} {v : Option ℕ}
    (hv : ∀ w ∈ o.returned, w = v) : AllStable (s.ret o v) := by
  refine List.forall_mem_cons.mpr ⟨stable_iff.mpr ?_,fun o' ho' => h o' (List.mem_of_mem_erase ho')⟩
  have hall : ∀ w ∈ o.returned ++ [v], w = v :=
    List.forall_mem_append.mpr ⟨hv,List.forall_mem_singleton.mpr rfl⟩
  exact fun w hw w' hw' => (hall w hw).trans (hall w' hw').symm

theorem allStable_step {s s' : HandleMgr η ν} {act : HandleAct η ν}
    (hrep : Replies s.heap s.handles)
    (h : AllStable s) (hP : BindsUnmarked s act) (hs : HandleStep s act s') : AllStable s' := by
  have hcons (x : η) (p : Option ℕ) : ∀ o ∈ ⟨x, p, []⟩ :: s.handles, Stable o.returned :=
    List.forall_mem_cons.mpr ⟨stable_iff.mpr fun _ hv => absurd hv List.not_mem_nil,h⟩
  have hnothing {o : Object η} {a r : ℕ} {k : Hinfo η ν} (ho : o ∈ s.handles) (hh : o.h = some a)
      (hk : s.heap a = some k) (hmx : k.clMutex = some (o.id, r)) (v : Option ℕ) :
      ∀ w ∈ o.returned, w = v := by
    rw [(hrep.answers o ho a k hh hk).first (by simp [hmx])]
    exact fun w hw => absurd hw List.not_mem_nil
  cases hs with
  | create x m hx hm => exact hcons x _
  | share x m a k hx hm hk hdel => exact hcons x _
  | refuse x m a k hx hm hk hdel => exact hcons x _
  | leave | drop | last => exact fun o' ho' => h o' (List.mem_of_mem_erase ho')
  | null o ho hh => exact h.ret (hrep.nowhere o ho hh)
  | deleted o a k ho hh hk hidle hdel =>
    refine h.ret fun w hw => ?_
    by_contra hne
    have hunmarked := hP o ho rfl ⟨w,hw,hne⟩ k (by simp [hh, hk])
    exact Bool.false_ne_true (hunmarked.symm.trans hdel)
  | cached o a k r ho hh hk hidle hdel hcl =>
    have hans := hrep.answers o ho a k hh hk
    refine h.ret fun w hw => ?_
    cases w with
    | none => exact absurd (hdel.symm.trans (hans.null hw)) Bool.false_ne_true
    | some r' => exact (hans.client r' hw).symm.trans hcl
  | bound o a k r ho hh hk hmx =>
    exact AllStable.ret (s := s.store a _) h (hnothing ho hh hk hmx _)
  | failed o a k r ho hh hk hmx =>
    exact AllStable.ret (s := { s.store a _ with closed := _ }) h (hnothing ho hh hk hmx _)
  | bind | absent | delete | mark => exact h

omit [DecidableEq ν] in
theorem find_of_mem {s : HandleMgr η ν} (hok : Ok s) {o : Object η} (ho : o ∈ s.handles) :
    s.find o.id = some o := by
  have hsome : (s.find o.id).isSome = true := List.find?_isSome.mpr ⟨o,ho,decide_eq_true rfl⟩
  obtain ⟨o',ho'⟩ := Option.isSome_iff_exists.mp hsome
  obtain ⟨hmem,hid⟩ := find_some ho'
  have hids : (s.handles.map Object.id).Nodup := by
    have hids := hok.counted.ids
    rwa [HandleMgr.refs, List.map_map] at hids
  rw [ho', List.inj_on_of_nodup_map hids hmem ho hid]

/-- A handle that is asked again in spite of the mark returns NULL behind its client. -/
theorem bindsUnmarked_of_stable {s : HandleMgr η ν} {act : HandleAct η ν} (hok : Ok s)
    (hrep : Replies s.heap s.handles) (h : ∀ s' ∈ s.step act, AllStable s') :
    BindsUnmarked s act := by
  cases act with
  | safebind x =>
    rintro o ho rfl ⟨v,hv,hne⟩ k hk
    obtain ⟨a,hh,hk⟩ := Option.bind_eq_some_iff.mp hk
    have hans := hrep.answers o ho a k hh hk
    by_contra hmarked
    have hdel : k.del = true := eq_true_of_ne_false hmarked
    have hidle : k.clMutex = none := by
      by_contra hmx
      rw [hans.first hmx] at hv
      exact absurd hv List.not_mem_nil
    have hstep : s.step (.safebind o.id) = some (s.ret o none) := by
      simp [HandleMgr.step, HandleMgr.exec, HandleMgr.safebind, find_of_mem hok ho, hh, hk, hidle,
        hdel, Except.toOption]
    have hstable := h _ hstep _ List.mem_cons_self
    exact hne (stable_iff.mp hstable v (List.mem_append_left _ hv) none (by simp))
  | construct | destroy | bound | deleteHandle => trivial

/-- In any interleaving a handle that has returned NULL goes on to return NULL, never returns two
different clients, and none that has been deleted. Every call returns what the first one has
returned, all along the run, if and only if no handle that has returned a client is asked again
with its record marked. -/
theorem safebind_stable (as : List (HandleAct η ν)) (s : HandleMgr η ν)
    (hr : run HandleMgr.step (.init η ν) as = some s) :
    (∀ o ∈ s.handles, NullLasts o.returned ∧
      (∀ r r', some r ∈ o.returned → some r' ∈ o.returned → r = r') ∧
      ∀ r, some r ∈ o.returned → r ∉ s.closed) ∧
    (RunAll HandleMgr.step (fun s act => ∀ s' ∈ s.step act, AllStable s') (.init η ν) as ↔
      RunAll HandleMgr.step BindsUnmarked (.init η ν) as) ∧
    (RunAll HandleMgr.step BindsUnmarked (.init η ν) as → AllStable s) := by
  have hinit : (Ok (HandleMgr.init η ν) ∧
      Replies (HandleMgr.init η ν).heap (HandleMgr.init η ν).handles) ∧
      AllStable (HandleMgr.init η ν) := ⟨⟨ok_init,nofun,nofun,nofun⟩,nofun⟩
  have hkeeps (s : HandleMgr η ν) (act : HandleAct η ν) (s' : HandleMgr η ν)
      (h : (Ok s ∧ Replies s.heap s.handles) ∧ AllStable s) (hP : BindsUnmarked s act)
      (hs : s.step act = some s') : (Ok s' ∧ Replies s'.heap s'.handles) ∧ AllStable s' :=
    ⟨ok_replies_step h.1 hs,allStable_step h.1.2 h.2 hP (handleStep_of_step h.1.1 hs)⟩
  refine ⟨fun o ho => ?_,⟨fun hall => ?_,fun hP => ?_⟩,fun hP => ?_⟩
  · obtain ⟨hok,hrep⟩ := run_invariant HandleMgr.step (fun s => Ok s ∧ Replies s.heap s.handles)
      (fun _ _ _ h hs => ok_replies_step h hs) _ s as hinit.1 hr
    refine ⟨hrep.lasts o ho,?_⟩
    cases hh : o.h with
    | none =>
      have hnull := hrep.nowhere o ho hh
      exact ⟨fun r _ hmem => (nomatch hnull _ hmem),fun r hmem => (nomatch hnull _ hmem)⟩
    | some a =>
      obtain ⟨k,hk⟩ := hok.pointed ho hh
      have hans := hrep.answers o ho a k hh hk
      refine ⟨fun r r' hmem hmem' => ?_,
        fun r hmem => (hok.clients.own a k hk r (.inl (hans.client r hmem))).2⟩
      exact Option.some.inj ((hans.client r hmem).symm.trans (hans.client r' hmem'))
  · exact runAll_of_all _ _ _ (fun s => Ok s ∧ Replies s.heap s.handles)
      (fun _ _ _ h _ hs => ok_replies_step h hs)
      (fun s act h hnext => bindsUnmarked_of_stable h.1 h.2 hnext) _ as hinit.1 hall
  · exact runAll_of_all _ _ _ _ hkeeps (fun s act h hP s' hs => (hkeeps s act s' h hP hs).2) _ as
      hinit hP
  · exact (run_invariant_of_all HandleMgr.step BindsUnmarked _ hkeeps _ s as hinit hP hr).2

end

/-- Two handles on a node, of which the second is destroyed and the first is not asked again after
the node has been deleted, and one on a node that cannot be bound. -/
theorem safebind_stable_two :
    ∃ as, ∃ s : HandleMgr ℕ Bool, run HandleMgr.step (.init ℕ Bool) as = some s ∧
    (∃ o ∈ s.handles, o.returned = [some 0, some 0]) ∧
    (∃ o ∈ s.handles, o.returned = [none, none]) ∧
    AllStable s := by
  have hends : ∃ s, run HandleMgr.step (.init ℕ Bool) [.construct 0 true, .construct 1 true,
    .safebind 0, .bound 0 true,
      .safebind 1, .construct 2 false, .safebind 2, .bound 2 false, .deleteHandle false,
        .safebind 2, .destroy 1, .safebind 0, .deleteHandle true]
      = some s ∧ (∃ o ∈ s.handles, o.returned = [some 0, some 0]) ∧
        ∃ o ∈ s.handles, o.returned = [none, none] := by
    decide +kernel
  obtain ⟨s,hr,hbound,hnull⟩ := hends
  exact ⟨_,s,hr,hbound,hnull,(safebind_stable _ s hr).2.2 (by decide +kernel)⟩

/-- The node is deleted after the first call has returned, or while it is in `bind`: the second one
returns NULL. -/
theorem safebind_unstable :
    (∃ s : HandleMgr ℕ Bool, run HandleMgr.step (.init ℕ Bool)
      [.construct 0 true, .safebind 0, .bound 0 true, .deleteHandle true, .safebind 0] = some s ∧
      ∃ o ∈ s.handles, o.returned = [some 0, none]) ∧
    (∃ s : HandleMgr ℕ Bool, run HandleMgr.step (.init ℕ Bool)
      [.construct 0 true, .safebind 0, .deleteHandle true, .bound 0 true, .safebind 0] = some s ∧
      ∃ o ∈ s.handles, o.returned = [some 0, none]) ∧ ¬ Stable [some 0, none] := by
  refine ⟨by decide +kernel,by decide +kernel,fun h => ?_⟩
  exact nomatch h (some 0) [none] rfl none List.mem_cons_self

end Yfs.Handle
