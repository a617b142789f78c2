import Yfs.YfsClient
import Mathlib.Data.Fintype.Basic

namespace Yfs.Dir
open Text

/-- The directory holds these entries, and they can be told apart. -/
structure Holds (buf : Str) (es : List Entry) : Prop where
  text : buf = render es
  names : ∀ x ∈ es, NameOk x.name

theorem holds_nil : Holds [] [] := ⟨rfl, fun _ hx => nomatch hx⟩

theorem Holds.readdir {buf : Str} {es : List Entry} (h : Holds buf es) :
    fuseserverReaddir buf = some es := by
  rw [h.text]
  exact fuseserverReaddir_render es h.names

theorem Holds.unique {buf : Str} {es fs : List Entry} (h : Holds buf es) (h' : Holds buf fs) :
    es = fs :=
  Option.some.inj (h.readdir.symm.trans h'.readdir)

theorem Holds.append {buf : Str} {es : List Entry} (h : Holds buf es) (x : Entry)
    (hx : NameOk x.name) : Holds (buf ++ x.text) (es ++ [x]) := by
  refine ⟨?_, ?_⟩
  · rw [render_snoc, ← h.text]
  · intro y hy
    rw [List.mem_append, List.mem_singleton] at hy
    rcases hy with hy | rfl
    · exact h.names y hy
    · exact hx

/-- The entry at place `k` of the directory is where the decimal form of `i` is found
first, and where its own name is found first. -/
def HitsEntry (es : List Entry) (k : Fin es.length) (i : Inum) : Prop :=
  find (filename i) (render es) = some (render (es.take k)).length ∧
  find ((es.get k).name ++ [';']) (render es) =
    some ((render (es.take k)).length + (filename (es.get k).inum).length + 1)

/-- An `unlink` that has looked up inum `i` finds it and the name in one entry, and the
name is all of the entry's name. -/
def ErasesEntry (buf name : Str) (i : Inum) : Prop :=
  ∃ k : Fin ((fuseserverReaddir buf).getD []).length,
    (((fuseserverReaddir buf).getD []).get k).name = name ∧
    HitsEntry ((fuseserverReaddir buf).getD []) k i

instance (es : List Entry) (k : Fin es.length) (i : Inum) : Decidable (HitsEntry es k i) := by
  unfold HitsEntry
  infer_instance

instance (buf name : Str) (i : Inum) : Decidable (ErasesEntry buf name i) := by
  unfold ErasesEntry
  infer_instance

theorem holds_erased {buf name rest : Str} {i : Inum} {es : List Entry} (h : Holds buf es)
    (he : ErasesEntry buf name i) (hrest : unlinkRest buf name i = some rest) :
    ∃ l x r, es = l ++ x :: r ∧ x.name = name ∧ Holds rest (l ++ r) := by
  unfold ErasesEntry at he
  rw [h.readdir, Option.getD_some] at he
  obtain ⟨k,hname,hinum,hsemi⟩ := he
  have hes : es = es.take k ++ es.get k :: es.drop (k + 1) := by
    rw [List.get_eq_getElem, ← List.drop_eq_getElem_cons, List.take_append_drop]
  refine ⟨es.take k, es.get k, es.drop (k + 1), hes, hname, ?_, ?_⟩
  · have hx : NameOk (es.get k).name := h.names _ (List.get_mem es k)
    have hcut := unlinkRest_of_hit (es.take k) (es.drop (k + 1)) (es.get k) i hx
    rw [← hes, hname, ← h.text] at hcut
    rw [hname] at hsemi
    rw [← h.text] at hinum hsemi
    exact Option.some.inj (hrest.symm.trans (hcut hinum hsemi))
  · intro y hy
    apply h.names
    rw [hes]
    rw [List.mem_append] at hy ⊢
    exact hy.imp_right (List.mem_cons_of_mem _)

section
variable {θ : Type*} [DecidableEq θ]

def eventCall : CallEv θ Call Result → Call
  | .called _ c => c
  | .returned _ c _ => c

def standingStep (l : List (Inum × Entry)) (ev : CallEv θ Call Result) : List (Inum × Entry) :=
  l.filter (fun y => eventCall ev ≠ .unlink y.1 y.2.name) ++ (created ev).toList

/-- The entries whose create has returned OK and that no unlink of their name was
called for since, or was still in progress. -/
def standing (h : List (CallEv θ Call Result)) : List (Inum × Entry) := h.foldl standingStep []

omit [DecidableEq θ] in
theorem mem_standing_snoc (h : List (CallEv θ Call Result)) (ev : CallEv θ Call Result)
    (p : Inum) (x : Entry) : (p, x) ∈ standing (h ++ [ev]) ↔
      ((p, x) ∈ standing h ∧ eventCall ev ≠ .unlink p x.name) ∨ created ev = some (p, x) := by
  rw [standing, List.foldl_append]
  simp only [List.foldl_cons, List.foldl_nil, standingStep, List.mem_append, List.mem_filter,
    decide_eq_true_eq, Option.mem_toList, standing]

/-- When a call is about to write extent `e`: a create that adds to its directory always
may, an `unlink` if its searches hit the entry, from the inum that it looked up in what
it read first, and every other write is to an extent that is new or empty. -/
def Call.PutSafe (c : Call) (reads : List (Inum × Str)) (content : Inum → Option Str) (e : Inum) :
    Prop :=
  match c with
  | .unlink _ name => ∀ x ∈ reads.head?, ∀ i ∈ (lookupInum x.2 name).join,
      ErasesEntry ((content e).getD []) name i
  | c => c.creates.map Prod.fst = some e ∨ (content e).getD [] = []

instance (c : Call) (reads : List (Inum × Str)) (content : Inum → Option Str) (e : Inum) :
    Decidable (c.PutSafe reads content e) := by
  -- not the instance that tries all values of a `BitVec`
  have hlookup (o : Option Inum) (buf name : Str) :
      Decidable (∀ i ∈ o, ErasesEntry buf name i) := Option.decidableForallMem o
  unfold Call.PutSafe
  cases c <;> infer_instance

def Safe (s : Sys θ) : Act θ → Prop
  | .op (.put t e _) => ∀ r ∈ s.threads.running t, r.call.PutSafe r.reads s.store.content e
  | _ => True

instance (s : Sys θ) (a : Act θ) : Decidable (Safe s a) := by
  unfold Safe
  cases a with
  | call t c => infer_instance
  | remove t => infer_instance
  | op ev => cases ev <;> infer_instance

/-- Calls create entries with names that can be told. -/
def NamesOk : Act θ → Prop
  | .call _ c => ∀ y ∈ c.creates, NameOk y.2.name
  | _ => True

instance (a : Act θ) : Decidable (NamesOk a) := by
  unfold NamesOk
  cases a <;> infer_instance

def NoUnlink (s : Sys θ) (p : Inum) (name : Str) : Prop :=
  ∀ t r, s.threads.running t = some r → r.call ≠ .unlink p name

/-- Directories are well formed, as is what the calls in progress have read, and the
entries that stand are there. -/
structure Kept (s : Sys θ) : Prop where
  names : ∀ t r, s.threads.running t = some r → ∀ p x, r.call.creates = some (p, x) →
    NameOk x.name
  content : ∀ e v, s.store.content e = some v → ∃ es, Holds v es
  first : ∀ t r, s.threads.running t = some r → ∀ e y, r.seen e = some y → ∃ es, Holds y.1 es
  listed : ∀ p x, (p, x) ∈ standing s.threads.history → NoUnlink s p x.name →
    ∃ v es, s.store.content p = some v ∧ Holds v es ∧ x ∈ es

variable {s : Sys θ}

theorem noUnlink_of_move {p : Inum} {name : Str} (t : θ) (r r' : Running Inum Str Call Result)
    (hr : s.threads.running t = some r) (hcall : r'.call = r.call) (store : LockedStore θ Inum Str)
    (h : NoUnlink ⟨{ s.threads with
      running := Function.update s.threads.running t (some r') }, store⟩ p name) :
    NoUnlink s p name := by
  intro u q hq
  by_cases hu : u = t
  · subst hu
    rw [hr, Option.some.injEq] at hq
    rw [← hq, ← hcall]
    exact h u r' (Function.update_self ..)
  · exact h u q ((Function.update_of_ne hu _ _).trans hq)

/-- A thread goes on inside its call. What it does to the directories may take away
only what it is unlinking. -/
theorem Kept.move (h : Kept s) (t : θ) (r r' : Running Inum Str Call Result)
    (hr : s.threads.running t = some r) (hcall : r'.call = r.call) (store : LockedStore θ Inum Str)
    (hfirst : ∀ e y, r'.seen e = some y → ∃ es, Holds y.1 es)
    (hcontent : ∀ e v, store.content e = some v → ∃ es, Holds v es)
    (hkeep : ∀ p v es, s.store.content p = some v → Holds v es →
      ∃ v' es', store.content p = some v' ∧ Holds v' es' ∧
        ∀ x ∈ es, x ∈ es' ∨ r.call = .unlink p x.name) :
    Kept ⟨{ s.threads with running := Function.update s.threads.running t (some r') }, store⟩ := by
  refine ⟨forall_update_some ?_ h.names, hcontent, forall_update_some hfirst h.first, ?_⟩
  · rw [hcall]
    exact h.names t r hr
  · intro p x hx hno
    have hno' := noUnlink_of_move t r r' hr hcall store hno
    obtain ⟨v,es,hv,hes,hxes⟩ := h.listed p x hx hno'
    obtain ⟨v',es',hv',hes',hsub⟩ := hkeep p v es hv hes
    refine ⟨v', es', hv', hes', (hsub x hxes).resolve_right ?_⟩
    exact hno' t r hr

/-- As long as it writes nothing, there is nothing to check about the directories. -/
theorem Kept.read (h : Kept s) (t : θ) (r r' : Running Inum Str Call Result)
    (hr : s.threads.running t = some r) (hcall : r'.call = r.call)
    (hfirst : ∀ e y, r'.seen e = some y → ∃ es, Holds y.1 es) (store : LockedStore θ Inum Str)
    (hstore : store.content = s.store.content) :
    Kept ⟨{ s.threads with running := Function.update s.threads.running t (some r') }, store⟩ := by
  refine h.move t r r' hr hcall store hfirst ?_ ?_
  · rw [hstore]
    exact h.content
  · intro p v es hv hes
    exact ⟨v, es, by rw [hstore, hv], hes, fun x hx => Or.inl hx⟩

omit [DecidableEq θ] in
/-- A write that keeps to `PutSafe` leaves a directory with at least the entries that it
had, up to the name that is unlinked. -/
theorem kept_write (h : Kept s) (hs : s.Sound Call.spec) (t : θ) (r : Running Inum Str Call Result)
    (e : Inum) (v : Str) (hr : s.threads.running t = some r)
    (hput : r.call.spec.putOk r.seen r.reads e v)
    (hsafe : r.call.PutSafe r.reads s.store.content e) :
    ∃ es', Holds v es' ∧ ∀ v0 es, s.store.content e = some v0 → Holds v0 es →
      ∀ x ∈ es, x ∈ es' ∨ r.call = .unlink e x.name := by
  -- the first two cases: an extent that is new or empty
  have hempty : (s.store.content e).getD [] = [] → ∀ v0 es, s.store.content e = some v0 →
      Holds v0 es → ∀ x ∈ es, x ∈ ([] : List Entry) ∨ r.call = .unlink e x.name := by
    intro hnil v0 es hv0 hes x hx
    rw [hv0, Option.getD_some] at hnil
    rw [hnil] at hes
    rw [hes.unique holds_nil] at hx
    exact Or.inl hx
  have hseen : ∀ o, r.seen e = some (o, o) → s.store.content e = some o := fun o ho =>
    ((hs t r hr).2 e _ ho).2
  have hcreate : ∀ p x, r.call.creates = some (p, x) →
      (r.call.creates.map Prod.fst = some e ∨ (s.store.content e).getD [] = []) →
      ∃ es', Holds v es' ∧ ∀ v0 es, s.store.content e = some v0 → Holds v0 es →
        ∀ y ∈ es, y ∈ es' ∨ r.call = .unlink e y.name := by
    intro p x hx hor
    rw [hx] at hor
    rcases (putOk_of_creates r.call p x hx _ _ _ _).mp hput with ⟨rfl,o,ho,_,rfl⟩ | ⟨_,hne,rfl⟩
    · obtain ⟨es0,hes0⟩ := h.content e o (hseen o ho)
      refine ⟨es0 ++ [x], hes0.append x (h.names t r hr e x hx), ?_⟩
      intro v0 es hv0 hes y hy
      cases (hseen o ho).symm.trans hv0
      rw [hes.unique hes0] at hy
      exact Or.inl (List.mem_append_left _ hy)
    · refine ⟨[], holds_nil, hempty (hor.resolve_left ?_)⟩
      simpa using hne.symm
  cases hc : r.call with
  | mount =>
    rw [hc] at hput hsafe
    rw [hput.2]
    rw [hc] at hempty
    exact ⟨[], holds_nil, hempty (hsafe.resolve_left nofun)⟩
  | create p n k =>
    rw [hc] at hsafe hcreate
    exact hcreate p _ rfl hsafe
  | createDir p n k =>
    rw [hc] at hsafe hcreate
    exact hcreate p _ rfl hsafe
  | lookup p n =>
    rw [hc] at hput
    obtain ⟨_,_,hx,_⟩ := hput
    cases hx
  | readdir p =>
    rw [hc] at hput
    obtain ⟨_,_,hx,_⟩ := hput
    cases hx
  | unlink p n =>
    rw [hc] at hput hsafe
    obtain ⟨rfl,found,o,i,hfound,hi,ho,hrest⟩ := hput
    have hcontent := hseen o ho
    obtain ⟨es0,hes0⟩ := h.content e o hcontent
    have herase : ErasesEntry o n i := by
      have hboth := hsafe _ hfound _ (Option.join_eq_some_iff.mpr hi)
      rwa [hcontent, Option.getD_some] at hboth
    obtain ⟨l,x,rs,rfl,hname,hleft⟩ := holds_erased hes0 herase hrest
    refine ⟨l ++ rs, hleft, ?_⟩
    intro v0 es hv0 hes y hy
    cases hcontent.symm.trans hv0
    rw [hes.unique hes0, List.mem_append, List.mem_cons] at hy
    rcases hy with hy | rfl | hy
    · exact Or.inl (List.mem_append_left _ hy)
    · exact Or.inr (by rw [hname])
    · exact Or.inl (List.mem_append_right _ hy)

theorem Kept.call (h : Kept s) (t : θ) (c : Call) (prog : YfsProg)
    (hnames : ∀ p x, c.creates = some (p, x) → NameOk x.name)
    (hidle : s.threads.running t = none) :
    Kept ⟨⟨Function.update s.threads.running t (some ⟨c, prog, fun _ => none, []⟩),
      s.threads.history ++ [.called t c]⟩, s.store⟩ := by
  refine ⟨forall_update_some hnames h.names, h.content,
    forall_update_some (fun e y hy => nomatch hy) h.first, ?_⟩
  intro p x hx hno
  rw [mem_standing_snoc] at hx
  rcases hx with ⟨hx,_⟩ | hx
  · exact h.listed p x hx fun u q hq => hno u q (update_of_idle _ hidle hq)
  · cases hx

/-- A return. An entry that starts to stand here is the one its create has written. -/
theorem Kept.ret (h : Kept s) (hs : s.Sound Call.spec) (t : θ) (r : Running Inum Str Call Result)
    (e : Inum) (res : Result) (hr : s.threads.running t = some r)
    (hp : r.prog = .release e (.ret res)) :
    Kept ⟨⟨Function.update s.threads.running t none,
      s.threads.history ++ [.returned t r.call res]⟩,
      { s.store with holder := Function.update s.store.holder e none }⟩ := by
  obtain ⟨hsat,hseen⟩ := hs t r hr
  rw [hp] at hsat
  refine ⟨forall_update (fun _ hq => nomatch hq) h.names, h.content,
    forall_update (fun _ hq => nomatch hq) h.first, ?_⟩
  intro p x hx hno
  rw [mem_standing_snoc] at hx
  rcases hx with ⟨hx,hne⟩ | hx
  · refine h.listed p x hx fun u q hq => ?_
    by_cases hu : u = t
    · subst hu
      rw [hr, Option.some.injEq] at hq
      rw [← hq]
      exact hne
    · exact hno u q ((Function.update_of_ne hu _ _).trans hq)
  · have hcreates : res = .status .ok ∧ r.call.creates = some (p, x) := by
      unfold created at hx
      split at hx
      · next hev =>
        cases hev
        exact ⟨rfl, hx⟩
      · cases hx
    obtain ⟨rfl,hc⟩ := hcreates
    obtain ⟨_,hret⟩ := hsat.1 _ rfl p x hc
    rcases hret with ⟨hres,_⟩ | ⟨_,o,ho,_⟩
    · cases hres
    · obtain ⟨es,hes⟩ := h.first t r hr p _ ho
      exact ⟨_, es ++ [x], (hseen p _ ho).2, hes.append x (h.names t r hr p x hc), by simp⟩

theorem kept_step (hs : s.Sound Call.spec) (h : Kept s) (a : Act θ) (s' : Sys θ)
    (hnames : NamesOk a) (hsafe : Safe s a) (hstep : ProgStep Call.body s a s') : Kept s' := by
  cases hstep with
  | call t c hidle => exact h.call t c _ (fun p x => hnames (p, x)) hidle
  | acquire t r e k hr hp hfree =>
    exact h.read t r ⟨r.call, k, r.seen, r.reads⟩ hr rfl (h.first t r hr) _ rfl
  | release t r e k hr hp hk hheld =>
    exact h.read t r ⟨r.call, k, Function.update r.seen e none, r.reads⟩ hr rfl
      (forall_update (fun _ hy => nomatch hy) (h.first t r hr)) _ rfl
  | ret t r e res hr hp hheld => exact h.ret hs t r e res hr hp
  | get t r e k v hr hp hheld hv =>
    refine h.read t r ⟨r.call, k v, _, _⟩ hr rfl (forall_update_some ?_ (h.first t r hr)) _ rfl
    cases hseen : r.seen e with
    | some z => simpa using h.first t r hr e z hseen
    | none => exact h.content e v hv
  | put t r e v k hr hp hheld =>
    have hsat := (hs t r hr).1
    rw [hp] at hsat
    obtain ⟨es',hes',hsub⟩ := kept_write h hs t r e v hr hsat.1 (hsafe r hr)
    refine h.move t r ⟨r.call, k, _, _⟩ hr rfl _ (forall_update ?_ (h.first t r hr))
      (forall_update_some ⟨es', hes'⟩ h.content) ?_
    · intro y hy
      obtain ⟨z,hz,rfl⟩ := Option.map_eq_some_iff.mp hy
      exact h.first t r hr e z hz
    · intro p v0 es hv0 hes
      by_cases he : p = e
      · subst he
        exact ⟨v, es', Function.update_self .., hes', hsub v0 es hv0 hes⟩
      · exact ⟨v0, es, (Function.update_of_ne he _ _).trans hv0, hes, fun x hx => Or.inl hx⟩
  | remove t r e k hr hp =>
    exact h.read t r ⟨r.call, k, r.seen, r.reads⟩ hr rfl (h.first t r hr) _ rfl

/-- Directory entries are not lost in the runs whose writes are all safe: in every state
that is reached, an entry whose create has returned OK is listed in its directory, with
its inum, unless an `unlink` of its name has been called since or is in progress. -/
theorem standing_entry_listed (acts : List (Act θ)) (s : Sys θ)
    (hnames : ∀ a ∈ acts, NamesOk a) (hsafe : RunAll step Safe (init θ fun _ => none) acts)
    (hrun : run step (init θ fun _ => none) acts = some s) (p : Inum) (x : Entry)
    (hx : (p, x) ∈ standing s.threads.history) (hno : NoUnlink s p x.name) :
    ∃ buf es, s.store.content p = some buf ∧ fuseserverReaddir buf = some es ∧ x ∈ es := by
  have hinit : Kept (init θ fun _ => none) := by
    refine ⟨?_, ?_, ?_, ?_⟩
    · exact fun t r hr => nomatch hr
    · exact fun e v hv => nomatch hv
    · exact fun t r hr => nomatch hr
    · exact fun p x hx => nomatch hx
  have hall := runAll_and step _ Safe _ acts (runAll_of_mem step NamesOk _ acts hnames) hsafe
  obtain ⟨_,hkept⟩ := lockedSys_invariant body_sat _ (fun _ => Kept)
    (fun _ _ a s' hs h hP => kept_step hs h a s' hP.1 hP.2) _ hinit acts s hall hrun
  obtain ⟨v,es,hv,hes,hxes⟩ := hkept.listed p x hx hno
  exact ⟨v, es, hv, hes.readdir, hxes⟩

/-- The entry was created, nobody has called `unlink` for it, and it is not listed. -/
def Lost (s : Sys θ) (p : Inum) (x : Entry) : Prop :=
  (p, x) ∈ standing s.threads.history ∧ NoUnlink s p x.name ∧
    ∃ buf es, s.store.content p = some buf ∧ fuseserverReaddir buf = some es ∧ x ∉ es

/-- The steps of the calls, without interference, from the content they find. -/
def mountActs (t : θ) : List (Act θ) :=
  [.call t .mount, .op (.acquire t 1), .op (.put t 1 []), .op (.release t 1)]

def createActs (t : θ) (c : Call) (p : Inum) (x : Entry) (buf : Str) : List (Act θ) :=
  [.call t c, .op (.acquire t p), .op (.get t p buf), .op (.acquire t x.inum),
    .op (.put t x.inum []), .op (.release t x.inum), .op (.put t p (buf ++ x.text)),
    .op (.release t p)]

def unlinkActs (t : θ) (p : Inum) (name : Str) (i : Inum) (buf rest : Str) : List (Act θ) :=
  [.call t (.unlink p name), .op (.acquire t p), .op (.get t p buf), .op (.release t p),
    .op (.acquire t p), .op (.get t p buf), .op (.put t p rest), .op (.acquire t i)] ++
    (if isfile i = true then [.remove t] else []) ++ [.op (.release t i), .op (.release t p)]

end

def entryAB : Entry := ⟨0x80000005, ['a', 'b']⟩
def entryC : Entry := ⟨9, ['c']⟩

/-- Two clients mount before either has created anything. -/
def twoMounts : List (Act Bool) :=
  mountActs true ++ mountActs false ++ createActs true (.create 1 ['a', 'b'] 5) 1 entryAB [] ++
    createActs false (.createDir 1 ['c'] 9) 1 entryC (render [entryAB]) ++
    unlinkActs true 1 ['c'] 9 (render [entryAB, entryC]) (render [entryAB])

theorem noUnlink_of_idle {s : Sys Bool} (h : ∀ t, (s.threads.running t).isNone = true) (p : Inum)
    (name : Str) : NoUnlink s p name := by
  intro t r hr
  have hnone := h t
  rw [hr] at hnone
  cases hnone

theorem standing_entry_listed_two_mounts :
    ∃ s, run step (init Bool fun _ => none) twoMounts = some s ∧
      ∃ buf es, s.store.content 1 = some buf ∧ fuseserverReaddir buf = some es ∧ entryAB ∈ es := by
  have hends : ∃ s, run step (init Bool fun _ => none) twoMounts = some s ∧
      (1, entryAB) ∈ standing s.threads.history ∧ ∀ t, (s.threads.running t).isNone = true := by
    decide +kernel
  obtain ⟨s,hrun,hx,hidle⟩ := hends
  exact ⟨s, hrun, standing_entry_listed twoMounts s (by decide +kernel) (by decide +kernel) hrun 1
    entryAB hx (noUnlink_of_idle hidle 1 _)⟩

/-- The second client mounts when the first has created a file. -/
def lateMount : List (Act Bool) :=
  mountActs true ++ createActs true (.create 1 ['a', 'b'] 5) 1 entryAB [] ++ mountActs false

/-- The name that is unlinked is the end of another name. -/
def unlinkSuffix : List (Act Bool) :=
  mountActs true ++ createActs true (.create 1 ['a', 'b'] 5) 1 entryAB [] ++
    unlinkActs true 1 ['b'] 0x80000005 (render [entryAB]) []

/-- The inum that is drawn for a directory is that of another directory. -/
def sameInum : List (Act Bool) :=
  mountActs true ++ createActs true (.createDir 1 ['c'] 9) 1 entryC [] ++
    createActs true (.create 9 ['a', 'b'] 5) 9 entryAB [] ++
    createActs true (.createDir 1 ['d'] 9) 1 ⟨9, ['d']⟩ (render [entryC])

theorem lost_of_run (acts : List (Act Bool)) (p : Inum) (x : Entry)
    (h : ∃ s, run step (init Bool fun _ => none) acts = some s ∧
      (p, x) ∈ standing s.threads.history ∧
      (∀ t, (s.threads.running t).isNone = true) ∧ s.store.content p = some []) :
    ∃ s, run step (init Bool fun _ => none) acts = some s ∧ Lost s p x := by
  obtain ⟨s,hrun,hx,hidle,hempty⟩ := h
  exact ⟨s, hrun, hx, noUnlink_of_idle hidle p _, [], [], hempty, rfl, List.not_mem_nil⟩

/-- A mount, an `unlink` of another name and a create elsewhere each lose an entry. -/
theorem entries_lost :
    (∃ s, run step (init Bool fun _ => none) lateMount = some s ∧ Lost s 1 entryAB) ∧
    (∃ s, run step (init Bool fun _ => none) unlinkSuffix = some s ∧ Lost s 1 entryAB) ∧
    ∃ s, run step (init Bool fun _ => none) sameInum = some s ∧ Lost s 9 entryAB := by
  refine ⟨?_, ?_, ?_⟩
  · exact lost_of_run lateMount 1 entryAB (by decide +kernel)
  · exact lost_of_run unlinkSuffix 1 entryAB (by decide +kernel)
  · exact lost_of_run sameInum 9 entryAB (by decide +kernel)

end Yfs.Dir
