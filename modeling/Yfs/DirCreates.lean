import Yfs.YfsClient

namespace Yfs.Dir
open Text

section
variable {θ : Type*} [DecidableEq θ]

/-- The entries of all creates that have returned OK, in the order of their returns. -/
def okEntries (h : List (CallEv θ Call Result)) : List Entry :=
  h.filterMap fun ev => (created ev).map Prod.snd

def returner : CallEv θ Call Result → Option θ
  | .returned t _ _ => some t
  | .called _ _ => none

def acquirer (e : Inum) : Act θ → Option θ
  | .op (.acquire t e') => if e' = e then some t else none
  | _ => none

omit [DecidableEq θ] in
theorem okEntries_append (h h' : List (CallEv θ Call Result)) :
    okEntries (h ++ h') = okEntries h ++ okEntries h' := List.filterMap_append

omit [DecidableEq θ] in
theorem okEntries_singleton (ev : CallEv θ Call Result) :
    okEntries [ev] = ((created ev).map Prod.snd).toList := by
  cases h : created ev <;> simp [okEntries, h]

/-- All calls are creates in directory `parent`, which held `buf`. A tenure starts
with the entries of the calls before it, and leaves them there when it ends; the calls
return in the order of their tenures. -/
structure Appending (parent : Inum) (buf : Str) (done : List (Act θ)) (s : Sys θ) : Prop where
  calls : ∀ t r, s.threads.running t = some r → ∃ x, r.call.creates = some (parent, x)
  first : ∀ t r, s.threads.running t = some r → ∀ x, r.seen parent = some x →
    x.1 = buf ++ render (okEntries s.threads.history)
  stored : (∀ t r, s.threads.running t = some r → r.seen parent = none) →
    s.store.content parent = some (buf ++ render (okEntries s.threads.history))
  names : ∀ es, buf = render es → (es.map Entry.name).Nodup →
    ((es ++ okEntries s.threads.history).map Entry.name).Nodup
  results : ∀ t c res, .returned t c res ∈ s.threads.history →
    res = .status .ok ∨ res = .status .exist
  order : done.filterMap (acquirer parent) =
    s.threads.history.filterMap returner ++ (s.store.holder parent).toList
  held : ∀ t, s.store.holder parent = some t → ∃ r, s.threads.running t = some r

variable {parent : Inum} {buf : Str} {done : List (Act θ)} {s : Sys θ}

omit [DecidableEq θ] in
theorem Appending.order_snoc (h : Appending parent buf done s) (a : Act θ) :
    (done ++ [a]).filterMap (acquirer parent) = s.threads.history.filterMap returner ++
      ((s.store.holder parent).toList ++ (acquirer parent a).toList) := by
  have hone : [a].filterMap (acquirer parent) = (acquirer parent a).toList := by
    cases ha : acquirer parent a <;> simp [ha]
  rw [List.filterMap_append, h.order, hone, List.append_assoc]

theorem Appending.move (h : Appending parent buf done s) (a : Act θ) (t : θ)
    (r r' : Running Inum Str Call Result)
    (hr : s.threads.running t = some r) (hcall : r'.call = r.call) (store : LockedStore θ Inum Str)
    (hfirst : ∀ x, r'.seen parent = some x → x.1 = buf ++ render (okEntries s.threads.history))
    (hstored : r'.seen parent = none →
      r.seen parent = none ∧ store.content parent = s.store.content parent)
    (hholder : (store.holder parent).toList =
      (s.store.holder parent).toList ++ (acquirer parent a).toList)
    (hheld : ∀ u, store.holder parent = some u → u = t ∨ s.store.holder parent = some u) :
    Appending parent buf (done ++ [a]) ⟨{ s.threads with
      running := Function.update s.threads.running t (some r') }, store⟩ := by
  refine ⟨forall_update_some ?_ h.calls, forall_update_some hfirst h.first, ?_, h.names, h.results,
    ?_, ?_⟩
  · rw [hcall]
    exact h.calls t r hr
  · intro hall
    obtain ⟨hnone,hcontent⟩ := hstored (hall t r' (Function.update_self ..))
    refine hcontent.trans (h.stored fun u q hq => ?_)
    by_cases hu : u = t
    · subst hu
      rw [hr, Option.some.injEq] at hq
      rwa [← hq]
    · exact hall u q ((Function.update_of_ne hu _ _).trans hq)
  · rw [h.order_snoc a, hholder]
  · intro u hu
    by_cases hut : u = t
    · exact ⟨r', hut ▸ Function.update_self ..⟩
    · obtain ⟨q,hq⟩ := h.held u ((hheld u hu).resolve_left hut)
      exact ⟨q, (Function.update_of_ne hut _ _).trans hq⟩

theorem Appending.call (h : Appending parent buf done s) (t : θ) (c : Call) (prog : YfsProg)
    (x : Entry) (hc : c.creates = some (parent, x)) (hidle : s.threads.running t = none) :
    Appending parent buf (done ++ [.call t c]) ⟨⟨Function.update s.threads.running t
      (some ⟨c, prog, fun _ => none, []⟩), s.threads.history ++ [.called t c]⟩, s.store⟩ := by
  have hok : okEntries (s.threads.history ++ [.called t c]) = okEntries s.threads.history := by
    rw [okEntries_append]
    exact List.append_nil _
  refine ⟨forall_update_some ⟨x, hc⟩ h.calls, ?_, ?_, ?_, ?_, ?_, ?_⟩
  · rw [hok]
    exact forall_update_some (fun x hx => nomatch hx) h.first
  · intro hall
    rw [hok]
    exact h.stored fun u q hq => hall u q (update_of_idle _ hidle hq)
  · rw [hok]
    exact h.names
  · intro u d res hres
    rw [List.mem_append, List.mem_singleton] at hres
    rcases hres with hres | hres
    · exact h.results u d res hres
    · cases hres
  · rw [h.order_snoc, List.filterMap_append]
    simp [acquirer, returner]
  · intro u hu
    obtain ⟨q,hq⟩ := h.held u hu
    exact ⟨q, update_of_idle _ hidle hq⟩

omit [DecidableEq θ] in
/-- The tenure of a create that returns leaves what it read first, and the entry that the
call is logged with. -/
theorem tenure_of_retOk {c : Call} {x : Entry} {seen : Inum → Option (Str × Str)} {e : Inum}
    {res : Result} (t : θ) (hx : c.creates = some (parent, x)) (hret : c.spec.retOk seen e res) :
    e = parent ∧ (res = .status .ok ∨ res = .status .exist) ∧ ∃ o,
      seen parent = some (o, o ++ render (okEntries [.returned t c res])) ∧
      ∀ y ∈ okEntries [.returned t c res], find y.name o = none := by
  rw [okEntries_singleton]
  obtain ⟨he,hret⟩ := hret parent x hx
  refine ⟨he, ?_⟩
  rcases hret with ⟨rfl,o,ho,_⟩ | ⟨rfl,o,ho,hfind⟩
  · refine ⟨Or.inr rfl, o, ?_, fun y hy => absurd hy List.not_mem_nil⟩
    rw [ho]
    exact congrArg (fun v => some (o, v)) (List.append_nil o).symm
  · have hone : created (CallEv.returned t c (.status .ok)) = some (parent, x) := hx
    rw [hone]
    refine ⟨Or.inl rfl, o, by simpa [render] using ho, fun y hy => ?_⟩
    cases List.mem_singleton.mp hy
    exact hfind

/-- A name that is not found in what the entries are written as is new. -/
theorem nodup_names_append {es new : List Entry} (hes : (es.map Entry.name).Nodup)
    (hnew : (new.map Entry.name).Nodup)
    (hfind : ∀ y ∈ new, find y.name (render es) = none) : ((es ++ new).map Entry.name).Nodup := by
  rw [List.map_append]
  refine List.nodup_append.mpr ⟨hes, hnew, ?_⟩
  intro n hn m hm hnm
  obtain ⟨z,hz,rfl⟩ := List.mem_map.mp hn
  obtain ⟨y,hy,rfl⟩ := List.mem_map.mp hm
  apply (find_eq_none_iff _ _).mp (hfind y hy)
  rw [← hnm]
  exact name_infix_render _ z hz

/-- A create returns: its tenure has added its entry, or nothing. -/
theorem Appending.ret (h : Appending parent buf done s) (hs : s.Sound Call.spec) (t : θ)
    (r : Running Inum Str Call Result) (e : Inum) (res : Result) (hr : s.threads.running t = some r)
    (hp : r.prog = .release e (.ret res)) :
    Appending parent buf (done ++ [.op (.release t e)]) ⟨⟨Function.update s.threads.running t none,
      s.threads.history ++ [.returned t r.call res]⟩,
      { s.store with holder := Function.update s.store.holder e none }⟩ := by
  obtain ⟨hsat,hseen⟩ := hs t r hr
  rw [hp] at hsat
  obtain ⟨x,hx⟩ := h.calls t r hr
  obtain ⟨he,hres,o,hov,hname⟩ := tenure_of_retOk t hx (hsat.1 res rfl)
  subst e
  have hbase : o = buf ++ render (okEntries s.threads.history) := h.first t r hr _ hov
  obtain ⟨hheld,hcontent⟩ := hseen _ _ hov
  -- nobody else has seen the directory
  have hother : ∀ u q, u ≠ t → s.threads.running u = some q → q.seen parent = none := by
    intro u q hu hq
    exact hs.unseen hq fun hh => hu (Option.some.inj (hh.symm.trans hheld))
  have hrun : ∀ u q, Function.update s.threads.running t none u = some q →
      u ≠ t ∧ s.threads.running u = some q := by
    intro u q hq
    by_cases hu : u = t
    · subst hu
      simp at hq
    · exact ⟨hu, by simpa only [Function.update_of_ne hu] using hq⟩
  refine ⟨?_, ?_, ?_, ?_, ?_, ?_, ?_⟩
  · intro u q hq
    exact h.calls u q (hrun u q hq).2
  · intro u q hq y hy
    obtain ⟨hu,hq⟩ := hrun u q hq
    cases (hother u q hu hq).symm.trans hy
  · intro _
    rw [okEntries_append, render_append, ← List.append_assoc, ← hbase]
    exact hcontent
  · intro es hes hnodup
    rw [okEntries_append, ← List.append_assoc]
    refine nodup_names_append (h.names es hes hnodup) ?_ ?_
    · rw [okEntries_singleton]
      cases created (CallEv.returned t r.call res) <;> simp
    · -- the tenure has looked for the name in all that was there
      rwa [hbase, hes, ← render_append] at hname
  · intro u d res' hmem
    rw [List.mem_append, List.mem_singleton] at hmem
    rcases hmem with hmem | hmem
    · exact h.results u d res' hmem
    · cases hmem
      exact hres
  · rw [h.order_snoc, List.filterMap_append, hheld]
    simp [acquirer, returner]
  · intro u hu
    simp at hu

theorem Appending.first_read (h : Appending parent buf done s) (hs : s.Sound Call.spec) {t : θ}
    {r : Running Inum Str Call Result} {v : Str} (hr : s.threads.running t = some r)
    (hheld : s.store.holder parent = some t) (hv : s.store.content parent = some v)
    (hseen : r.seen parent = none) :
    v = buf ++ render (okEntries s.threads.history) := by
  have hstored : s.store.content parent = some (buf ++ render (okEntries s.threads.history)) := by
    apply h.stored
    intro u q hq
    by_cases hu : u = t
    · subst hu
      rw [hr, Option.some.injEq] at hq
      rwa [← hq]
    · exact hs.unseen hq fun hh => hu (Option.some.inj (hh.symm.trans hheld))
  exact Option.some.inj (hv.symm.trans hstored)

theorem appending_step (hs : s.Sound Call.spec) (h : Appending parent buf done s) (a : Act θ)
    (s' : Sys θ)
    (hcall : ∀ t c, a = .call t c → ∃ x, c.creates = some (parent, x))
    (hstep : ProgStep Call.body s a s') : Appending parent buf (done ++ [a]) s' := by
  cases hstep with
  | call t c hidle =>
    obtain ⟨x,hx⟩ := hcall t c rfl
    exact h.call t c _ x hx hidle
  | acquire t r e k hr hp hfree =>
    refine h.move _ t r ⟨r.call, k, r.seen, r.reads⟩ hr rfl _ (h.first t r hr)
      (fun hn => ⟨hn, rfl⟩) ?_ ?_
    · by_cases he : e = parent
      · subst he
        simp [acquirer, hfree]
      · simp [acquirer, he, Ne.symm he]
    · intro u hu
      by_cases he : parent = e
      · subst he
        simp only [Function.update_self, Option.some.injEq] at hu
        exact Or.inl hu.symm
      · simp only [Function.update_of_ne he] at hu
        exact Or.inr hu
  | release t r e k hr hp hk hheld =>
    obtain ⟨hsat,_⟩ := hs t r hr
    rw [hp] at hsat
    obtain ⟨x,hx⟩ := h.calls t r hr
    have he : parent ≠ e := Ne.symm ((hsat.2 hk).1 parent x hx)
    have hsame : Function.update r.seen e none parent = r.seen parent :=
      Function.update_of_ne he _ _
    refine h.move _ t r ⟨r.call, k, Function.update r.seen e none, r.reads⟩ hr rfl _
      (fun x hx => h.first t r hr x (hsame.symm.trans hx)) (fun hn => ⟨hsame.symm.trans hn, rfl⟩) ?_
        ?_
    · simp [acquirer, Function.update_of_ne he]
    · intro u hu
      simp only [Function.update_of_ne he] at hu
      exact Or.inr hu
  | ret t r e res hr hp hheld => exact h.ret hs t r e res hr hp
  | get t r e k v hr hp hheld hv =>
    refine h.move _ t r ⟨r.call, k v, _, _⟩ hr rfl _ ?_ ?_ (List.append_nil _).symm fun _ => Or.inr
    · intro x hx
      by_cases he : parent = e
      · subst he
        simp only [Function.update_self, Option.some.injEq] at hx
        subst hx
        cases hseen : r.seen parent with
        | some y => simpa [hseen] using h.first t r hr y hseen
        | none => exact h.first_read hs hr hheld hv hseen
      · simp only [Function.update_of_ne he] at hx
        exact h.first t r hr x hx
    · intro hn
      by_cases he : parent = e
      · subst he
        simp at hn
      · simp only [Function.update_of_ne he] at hn
        exact ⟨hn, rfl⟩
  | put t r e v k hr hp hheld =>
    refine h.move _ t r ⟨r.call, k, _, _⟩ hr rfl _ ?_ ?_ (List.append_nil _).symm fun _ => Or.inr
    · intro x hx
      by_cases he : parent = e
      · subst he
        simp only [Function.update_self] at hx
        obtain ⟨y,hy,rfl⟩ := Option.map_eq_some_iff.mp hx
        exact h.first t r hr y hy
      · simp only [Function.update_of_ne he] at hx
        exact h.first t r hr x hx
    · intro hn
      obtain ⟨hsat,_⟩ := hs t r hr
      rw [hp] at hsat
      obtain ⟨x,hx⟩ := h.calls t r hr
      rcases (putOk_of_creates r.call parent x hx _ _ _ _).mp hsat.1 with ⟨rfl,o,ho,_⟩ | ⟨_,he,_⟩
      · simp [ho] at hn
      · simp only [Function.update_of_ne (Ne.symm he)] at hn ⊢
        exact ⟨hn, trivial⟩
  | remove t r e k hr hp =>
    exact h.move _ t r ⟨r.call, k, r.seen, r.reads⟩ hr rfl _ (h.first t r hr)
      (fun hn => ⟨hn, rfl⟩) (List.append_nil _).symm fun _ => Or.inr

/-- Concurrent creates neither lose nor duplicate entries. Whatever the interleaving,
when no call is in its tenure of the directory's lock, the directory holds what it held
first and one entry for every call that returned OK, in the order of the tenures; every
other call that returned did so with EXIST; and distinct names stay distinct. -/
theorem creates_append_once (content : Inum → Option Str) (parent : Inum) (buf : Str)
    (hbuf : content parent = some buf) (acts : List (Act θ)) (s : Sys θ)
    (hcalls : ∀ t c, .call t c ∈ acts → ∃ x, c.creates = some (parent, x))
    (hrun : run step (init θ content) acts = some s)
    (hdone : ∀ t r, s.threads.running t = some r → s.store.holder parent ≠ some t) :
    s.store.content parent = some (buf ++ render (okEntries s.threads.history)) ∧
    acts.filterMap (acquirer parent) = s.threads.history.filterMap returner ∧
    (∀ t c res, .returned t c res ∈ s.threads.history →
      res = .status .ok ∨ res = .status .exist) ∧
    ∀ es, buf = render es → (es.map Entry.name).Nodup →
      ((es ++ okEntries s.threads.history).map Entry.name).Nodup := by
  have hinit : Appending parent buf [] (init θ content) := by
    refine ⟨fun t r hr => ?_, fun t r hr => ?_, ?_, ?_, fun t c res hres => ?_, rfl, fun t ht => ?_⟩
    · cases hr
    · cases hr
    · intro _
      simpa [init, Threads.init, LockedStore.init, okEntries, render] using hbuf
    · intro es _ hes
      simpa [init, Threads.init, okEntries] using hes
    · cases hres
    · cases ht
  obtain ⟨hs,h⟩ := lockedSys_invariant body_sat _ (Appending parent buf)
    (fun _ _ a s' hs h hP => appending_step hs h a s' hP) _ hinit acts s
    (runAll_of_mem _ (fun a => ∀ t c, a = .call t c → ∃ x, c.creates = some (parent, x)) _ acts
      fun a ha t c hac => hcalls t c (hac ▸ ha)) hrun
  refine ⟨h.stored fun t r hr => hs.unseen hr (hdone t r hr), ?_, h.results, h.names⟩
  have hfree : s.store.holder parent = none := by
    cases hh : s.store.holder parent with
    | none => rfl
    | some t =>
      obtain ⟨r,hr⟩ := h.held t hh
      exact absurd hh (hdone t r hr)
  rw [h.order, hfree]
  exact List.append_nil _

end

def emptyRoot (e : Inum) : Option Str := if e = rootDirInum then some [] else none

/-- Two creates of one name; the second is called while the first holds the lock. -/
def sameName : List (Act Bool) :=
  [.call true (.create 1 ['a'] 5), .op (.acquire true 1), .op (.get true 1 []),
    .call false (.createDir 1 ['a'] 6), .op (.acquire true 0x80000005),
    .op (.put true 0x80000005 []), .op (.release true 0x80000005),
    .op (.put true 1 (Entry.text ⟨0x80000005, ['a']⟩)), .op (.release true 1),
    .op (.acquire false 1), .op (.get false 1 (Entry.text ⟨0x80000005, ['a']⟩)),
    .op (.release false 1)]

theorem sameName_creates (t : Bool) (c : Call) (h : .call t c ∈ sameName) :
    ∃ x, c.creates = some (rootDirInum, x) := by
  simp only [sameName, List.mem_cons, ProgAct.call.injEq, reduceCtorEq, List.not_mem_nil, or_false,
    false_or] at h
  rcases h with ⟨_,rfl⟩ | ⟨_,rfl⟩
  · exact ⟨_, rfl⟩
  · exact ⟨_, rfl⟩

theorem creates_append_once_same_name : ∃ s, run step (init Bool emptyRoot) sameName = some s ∧
    s.store.content rootDirInum = some (render [⟨0x80000005, ['a']⟩]) ∧
    s.threads.history.filterMap returner = [true, false] := by
  have hends : ∃ s, run step (init Bool emptyRoot) sameName = some s ∧
      okEntries s.threads.history = [⟨0x80000005, ['a']⟩] ∧ s.store.holder rootDirInum = none := by
    decide +kernel
  obtain ⟨s,hrun,hok,hfree⟩ := hends
  obtain ⟨hcontent,horder,_⟩ := creates_append_once emptyRoot rootDirInum [] rfl sameName s
    sameName_creates hrun (fun t r _ hh => by simp [hfree] at hh)
  rw [hok] at hcontent
  exact ⟨s, hrun, hcontent, horder.symm⟩
end Yfs.Dir
