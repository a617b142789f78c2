import Yfs.DirEntries
import Yfs.DirExact

namespace Yfs.Dir
open Text

/-- What a call on a directory of these entries returns, and what it leaves. -/
inductive DirStep (es : List Entry) : Call → Result → List Entry → Prop
  | created (c : Call) (parent : Inum) (x : Entry) (hc : c.creates = some (parent, x))
      (hno : x.name ∉ es.map Entry.name) : DirStep es c (.status .ok) (es ++ [x])
  | exist (c : Call) (parent : Inum) (x : Entry) (hc : c.creates = some (parent, x))
      (hin : x.name ∈ es.map Entry.name) : DirStep es c (.status .exist) es
  | unlinked (parent : Inum) (name : Str) (hin : name ∈ es.map Entry.name) :
      DirStep es (.unlink parent name) (.status .ok) (es.filter fun y => y.name ≠ name)
  | noent (parent : Inum) (name : Str) (hno : name ∉ es.map Entry.name) :
      DirStep es (.unlink parent name) (.status .noent) es

/-- Creates and unlinks in directory `p`, with names and inums in use. -/
def InDir (N : Str → Prop) (K : Inum → Prop) (p : Inum) (c : Call) : Prop :=
  (∃ x, c.creates = some (p, x) ∧ N x.name ∧ K x.inum) ∨ ∃ name, c = .unlink p name ∧ N name

/-- Where a call is when it does not have the directory's lock. -/
inductive Stage (N : Str → Prop) (K : Inum → Prop) (p : Inum) :
    Call → List (Inum × Str) → YfsProg → Prop
  | start (c : Call) (hc : InDir N K p c) : Stage N K p c [] c.body
  | found (name buffer : Str) (i : Inum) (hn : N name)
      (hi : lookupInum buffer name = some (some i)) :
      Stage N K p (.unlink p name) [(p, buffer)] (unlinkFound p name i)

section
variable {N : Str → Prop} {K : Inum → Prop} {p : Inum}

theorem createEntry_inside (S : List (Inum × Str) → YfsProg → Prop) (x : Entry) : ∃ k,
    createEntry p x = .acquire p k ∧ k.Inside p S [p] [] false := by
  refine ⟨_, rfl, fun buffer => ?_⟩
  beta_reduce
  split_ifs with hfind
  · exact ⟨fun _ => ⟨rfl, .inl ⟨_,rfl⟩⟩, fun h => absurd rfl h⟩
  · intro hne
    refine ⟨fun he => absurd (List.mem_singleton.mpr he) hne,
      fun _ => ⟨fun _ => ⟨?_, .inl ⟨_,rfl⟩⟩, fun h => absurd rfl h⟩⟩
    exact List.erase_cons_head ..

theorem unlinkFound_inside (S : List (Inum × Str) → YfsProg → Prop) (reads : List (Inum × Str))
    (name : Str)
    (i : Inum) : ∃ k, unlinkFound p name i = .acquire p k ∧ k.Inside p S [p] reads false := by
  refine ⟨_, rfl, fun buffer => ?_⟩
  beta_reduce
  cases unlinkRest buffer name i with
  | none => trivial
  | some rest =>
    intro hne
    have hrelease : (Prog.release i (.release p (.ret (.status .ok))) : YfsProg).Inside p S [i, p]
        (reads ++ [(p, buffer)]) true := by
      refine ⟨fun he => absurd (List.mem_singleton.mpr he) hne,
        fun _ => ⟨fun _ => ⟨?_, .inl ⟨_,rfl⟩⟩, fun h => absurd rfl h⟩⟩
      exact List.erase_cons_head ..
    split_ifs
    · exact hrelease
    · exact hrelease

theorem dir_tenures : Tenures Call.body (InDir N K p) p (Stage N K p) where
  start c hc := .start c hc
  tenure c reads prog hS := by
    cases hS with
    | start _ hc =>
      rcases hc with ⟨x,hx,-⟩ | ⟨name,rfl,hn⟩
      · rw [body_of_creates c p x hx]
        exact createEntry_inside _ x
      · -- the first tenure of `unlink`
        refine ⟨_, rfl, fun buffer => ?_⟩
        beta_reduce
        cases hi : lookupInum buffer name with
        | none => trivial
        | some found =>
          refine ⟨fun _ => ⟨rfl, ?_⟩, fun h => absurd rfl h⟩
          cases found with
          | none => exact .inl ⟨_,rfl⟩
          | some i => exact .inr ⟨rfl,.found name buffer i hn hi⟩
    | found name buffer i hn hi => exact unlinkFound_inside _ _ name i

/-- The directory's text is that of these entries. -/
def HoldsEntries (N : Str → Prop) (K : Inum → Prop) (p : Inum) (content : Inum → Option Str)
    (es : List Entry) : Prop :=
  content p = some (render es) ∧ Entries N K es

/-- Where `unlink` finds the digits of the inum at the entry. -/
def Good (N : Str → Prop) (K : Inum → Prop) (p : Inum) (c : Call) (content : Inum → Option Str) :
    Prop :=
  InDir N K p c ∧ ∀ name, c = .unlink p name → InumHit ((content p).getD []) name

theorem createEntry_alone (hN : Names N K) {content : Inum → Option Str} {es : List Entry}
    (hes : HoldsEntries N K p content es) (c : Call) (x : Entry) (hc : c.creates = some (p, x))
    (hn : N x.name) (hk : K x.inum) :
    (createEntry p x).alone [] content = .stuck ∨ ∃ res content' es',
      (createEntry p x).alone [] content = .ends res content' ∧ HoldsEntries N K p content' es' ∧
      DirStep es c res es' := by
  obtain ⟨htext,hent⟩ := hes
  have hne : x.name ≠ [] := by
    intro hnil
    exact hN.inum _ _ hn hk (hnil ▸ List.nil_infix)
  have hfind := find_name_iff hN hn hne hent
  rw [createEntry_alone_eq p x htext]
  by_cases hin : x.name ∈ es.map Entry.name
  · right
    exact ⟨_, content, es, if_pos (hfind.mpr hin), ⟨htext,hent⟩, .exist c p x hc hin⟩
  · rw [if_neg (fun h => hin (hfind.mp h))]
    by_cases hx : x.inum = p
    · -- the drawn inum is that of the directory
      exact .inl (if_pos hx)
    · right
      refine ⟨_, _, es ++ [x], if_neg hx, ⟨?_,hent.append hn hk hin⟩, .created c p x hc hin⟩
      rw [Function.update_self, render_snoc]

theorem unlink_alone (hN : Names N K) {content : Inum → Option Str} {es : List Entry}
    (hes : HoldsEntries N K p content es) (name : Str) (hn : N name)
    (hhit : InumHit ((content p).getD []) name) :
    (unlink p name).alone [] content = .stuck ∨ ∃ res content' es',
      (unlink p name).alone [] content = .ends res content' ∧ HoldsEntries N K p content' es' ∧
      DirStep es (.unlink p name) res es' := by
  obtain ⟨htext,hent⟩ := hes
  rw [htext, Option.getD_some] at hhit
  rw [unlink_alone_eq p name htext]
  rcases hent.split name with hno | ⟨l,x,r,rfl,rfl,hno,hfilter⟩
  · right
    refine ⟨_, content, es, ?_, ⟨htext,hent⟩, .noent p name hno⟩
    rw [lookupInum_none hN hn hent.names hno]
  · have hl : ∀ y ∈ l, N y.name := fun y hy => hent.names y (List.mem_append_left _ hy)
    simp only [lookupInum_entry hN hl hn hno, unlinkRest_entry hN hl hn hno hhit]
    by_cases hx : x.inum = p
    · exact .inl (if_pos hx)
    · right
      refine ⟨_, _, l ++ r, if_neg hx, ⟨Function.update_self .., ?_⟩, ?_⟩
      · rw [← hfilter]
        exact hent.filter _
      · rw [← hfilter]
        exact .unlinked p x.name (by simp)

/-- A call alone does to the text of the directory what it should do to the entries. -/
theorem good_alone (hN : Names N K) {content : Inum → Option Str} {es : List Entry}
    (hes : HoldsEntries N K p content es) (c : Call) (hgood : Good N K p c content) :
    c.body.alone [] content = .stuck ∨ ∃ res content' es',
      c.body.alone [] content = .ends res content' ∧
      HoldsEntries N K p content' es' ∧ DirStep es c res es' := by
  obtain ⟨hc,hhit⟩ := hgood
  rcases hc with ⟨x,hx,hn,hk⟩ | ⟨name,rfl,hn⟩
  · rw [body_of_creates c p x hx]
    exact createEntry_alone hN hes c x hx hn hk
  · exact unlink_alone hN hes name hn (hhit name rfl)

/-- So calls that are made one after the other change the directory as they should. -/
theorem serialRun_dirStep {θ : Type*} [DecidableEq θ] (hN : Names N K)
    {content content' : Inum → Option Str} {es : List Entry}
    (hes : HoldsEntries N K p content es) {l : List (θ × Call × Result)}
    (h : SerialRun (Alone Call.body (Good N K p)) content l content') :
    ∃ es', HoldsEntries N K p content' es' ∧ SerialRun DirStep es l es' := by
  refine h.simulates (fun c es w res c' hes hw => ?_) hes
  obtain ⟨hgood,halone⟩ := hw
  rcases good_alone hN hes w hgood with hstuck | ⟨res',c1,es',hends,hes',hstep⟩
  · exact nomatch hstuck.symm.trans halone
  · cases hends.symm.trans halone
    exact ⟨es', hes', hstep⟩

/-- The results of the unlinks of `name`, in the order of their returns. -/
def unlinkResults {θ : Type*} (p : Inum) (name : Str) (l : List (θ × Call × Result)) :
    List Result :=
  (l.filter fun x => x.2.1 = .unlink p name).map fun x => x.2.2

theorem unlinkResults_snoc {θ : Type*} (name : Str) (l : List (θ × Call × Result)) (t : θ)
    (c : Call) (res : Result) : unlinkResults p name (l ++ [(t, c, res)]) =
      unlinkResults p name l ++ if c = .unlink p name then [res] else [] := by
  by_cases hc : c = .unlink p name <;> simp [unlinkResults, hc]

/-- If the name is not created again, then the first `unlink` takes it out and the others
do not find it. -/
theorem unlink_once {θ : Type*} (name : Str) {es es' : List Entry} {l : List (θ × Call × Result)}
    (hname : name ∈ es.map Entry.name) (h : SerialRun DirStep es l es')
    (hcreates : ∀ x ∈ l, ∀ q y, x.2.1.creates = some (q, y) → y.name ≠ name)
    (hunlinks : ∀ x ∈ l, ∀ q n, x.2.1 = .unlink q n → q = p) :
    (unlinkResults p name l = [] ∧ name ∈ es'.map Entry.name) ∨
    (∃ n, unlinkResults p name l = .status .ok :: List.replicate n (.status .noent)) ∧
      name ∉ es'.map Entry.name := by
  induction h with
  | nil => exact .inl ⟨rfl,hname⟩
  | snoc hrun hw ih =>
    rename_i l es1 es2 t w res
    have hprev := ih (fun x hx => hcreates x (List.mem_append_left _ hx))
      (fun x hx => hunlinks x (List.mem_append_left _ hx))
    have hlast : (t, w, res) ∈ l ++ [(t, w, res)] :=
      List.mem_append_right _ (List.mem_singleton.mpr rfl)
    have hother := hcreates _ hlast
    have hdir := hunlinks _ hlast
    rw [unlinkResults_snoc]
    cases hw with
    | created _ q x hc hno =>
      have hnot : w ≠ .unlink p name := by
        rintro rfl
        exact nomatch hc
      have hne : name ≠ x.name := (hother q x hc).symm
      rw [if_neg hnot, List.append_nil, List.map_append, List.mem_append, List.map_singleton,
        List.mem_singleton]
      simpa only [hne, or_false] using hprev
    | exist _ q x hc hin =>
      have hnot : w ≠ .unlink p name := by
        rintro rfl
        exact nomatch hc
      rwa [if_neg hnot, List.append_nil]
    | unlinked q n hin =>
      obtain rfl := hdir q n rfl
      by_cases hn : n = name
      · -- the name was there, so this is the first `unlink` of it
        subst hn
        rcases hprev with ⟨hnil,-⟩ | ⟨-,hno⟩
        · rw [if_pos rfl, hnil]
          exact .inr ⟨⟨0,rfl⟩,by simp⟩
        · exact absurd hin hno
      · have hsame : name ∈ (es1.filter fun y => y.name ≠ n).map Entry.name ↔
            name ∈ es1.map Entry.name := by
          simp only [List.mem_map, List.mem_filter, decide_eq_true_eq]
          exact ⟨fun ⟨y,hy,he⟩ => ⟨y,hy.1,he⟩, fun ⟨y,hy,he⟩ => ⟨y,⟨hy,he ▸ Ne.symm hn⟩,he⟩⟩
        rwa [if_neg (by simpa using hn), List.append_nil, hsame]
    | noent q n hno =>
      obtain rfl := hdir q n rfl
      by_cases hn : n = name
      · -- it has been taken out before
        subst hn
        rcases hprev with ⟨-,hin⟩ | ⟨⟨k,hk⟩,-⟩
        · exact absurd hin hno
        · rw [if_pos rfl, hk]
          exact .inr ⟨⟨k + 1,by rw [List.replicate_succ', List.cons_append]⟩,hno⟩
      · rwa [if_neg (by simpa using hn), List.append_nil]

end

/-- An `unlink` that has looked up an inum would find the same one now. -/
def Call.Steady (c : Call) (reads : List (Inum × Str)) (buffer : Str) : Prop :=
  match c with
  | .unlink _ name => ∀ x ∈ reads.head?, lookupInum buffer name = lookupInum x.2 name
  | _ => True

/-- An `unlink` finds the digits of the inum at the entry. -/
def Call.Hits (c : Call) (buffer : Str) : Prop :=
  match c with
  | .unlink _ name => InumHit buffer name
  | _ => True

instance :
    ∀ (c : Call) (reads : List (Inum × Str)) (buffer : Str), Decidable (c.Steady reads buffer)
  | .unlink _ name, reads, buffer =>
    inferInstanceAs (Decidable (∀ x ∈ reads.head?, lookupInum buffer name = lookupInum x.2 name))
  | .create .., _, _ | .createDir .., _, _ | .lookup .., _, _ | .readdir _, _, _ | .mount, _, _ =>
    inferInstanceAs (Decidable True)

instance : ∀ (c : Call) (buffer : Str), Decidable (c.Hits buffer)
  | .unlink _ name, buffer => inferInstanceAs (Decidable (InumHit buffer name))
  | .create .., _ | .createDir .., _ | .lookup .., _ | .readdir _, _ | .mount, _ =>
    inferInstanceAs (Decidable True)

section
variable {θ : Type*} [DecidableEq θ] {N : Str → Prop} {K : Inum → Prop}

/-- When a call takes the directory's lock, this holds of it, what it has read and the
directory. -/
def WhenLocked (p : Inum) (P : Call → List (Inum × Str) → Str → Prop) (s : Sys θ) : Act θ → Prop
  | .op (.acquire t e) => e = p → ∀ r ∈ s.threads.running t, P r.call r.reads
    ((s.store.content p).getD [])
  | _ => True

instance (p : Inum) (P : Call → List (Inum × Str) → Str → Prop)
    [∀ c reads buffer, Decidable (P c reads buffer)]
    (s : Sys θ) : ∀ a : Act θ, Decidable (WhenLocked p P s a)
  | .op (.acquire t e) => inferInstanceAs
      (Decidable
        (e = p → ∀ r ∈ s.threads.running t, P r.call r.reads ((s.store.content p).getD [])))
  | .call _ _ | .remove _ | .op (.release _ _) | .op (.get _ _ _) | .op (.put _ _ _) =>
    inferInstanceAs (Decidable True)

/-- What is left of a steady `unlink` is what a whole `unlink` would do. -/
theorem unlinkFound_alone (p : Inum) (name buffer : Str) (i : Inum) (content : Inum → Option Str)
    (hi : lookupInum buffer name = some (some i))
    (hsteady : lookupInum ((content p).getD []) name = lookupInum buffer name) :
    (unlinkFound p name i).alone [] content = (unlink p name).alone [] content := by
  have hself : p ∈ [p] := List.mem_singleton.mpr rfl
  rw [unlink, lookupThen, Prog.alone, if_neg List.not_mem_nil, Prog.alone, if_pos hself]
  cases hv : content p with
  | none => simp [unlinkFound, Prog.alone, hv]
  | some v =>
    rw [hv, Option.getD_some, hi] at hsteady
    simp only [Option.elim_some, hsteady]
    rw [Prog.alone, if_pos hself, List.erase_cons_head]

omit [DecidableEq θ] in
theorem fresh_of_steady (p : Inum) (G : Call → (Inum → Option Str) → Prop) (s : Sys θ) (a : Act θ)
    (h : WhenLocked p Call.Steady s a)
    (hG : ∀ t r, a = .op (.acquire t p) → s.threads.running t = some r → InDir N K p r.call →
      G r.call s.store.content) :
    Fresh Call.body p (Stage N K p) G s a := by
  rintro t ⟨c,prog,seen,reads⟩ rfl hr hS
  have hsteady := h rfl _ hr
  have hgood := hG t _ rfl hr
  change Stage N K p c reads prog at hS
  cases hS with
  | start _ hc => exact ⟨hgood hc, rfl⟩
  | found name buffer i hn hi =>
    exact ⟨hgood (.inr ⟨name,rfl,hn⟩), unlinkFound_alone p name buffer i _ hi (hsteady _ rfl)⟩

omit [DecidableEq θ] in
theorem good_of_hits (p : Inum) (s : Sys θ) (a : Act θ) (h : WhenLocked p (fun c _ => c.Hits) s a) :
    ∀ t r, a = .op (.acquire t p) → s.threads.running t = some r → InDir N K p r.call →
      Good N K p r.call s.store.content := by
  rintro t r rfl hr hc
  refine ⟨hc, fun name hname => ?_⟩
  have hhits := h rfl r hr
  rw [hname] at hhits
  exact hhits

/-- Creates and unlinks in one directory, as long as each `unlink` would find the same inum
when it takes the lock for the second time. Once all calls have returned, their results and
what they leave are as if they had been made one after the other. If the digits of the inum
are found at the entry, too, then nobody computes an iterator outside the directory, it
changes as a list of entries should, and of the unlinks of one entry the first to return
takes it out and the others do not find it. -/
theorem unlink_atomic (hN : Names N K) (p : Inum) (content : Inum → Option Str) (es : List Entry)
    (hes : HoldsEntries N K p content es) (acts : List (Act θ)) (s : Sys θ)
    (hcalls : ∀ a ∈ acts, Calls (InDir N K p) a)
    (hsteady : RunAll step (WhenLocked p Call.Steady) (init θ content) acts)
    (hrun : run step (init θ content) acts = some s) :
    ((∀ t, s.threads.running t = none) → Serialisable Call.body content s) ∧
    (RunAll step (WhenLocked p fun c _ => c.Hits) (init θ content) acts →
      (∀ t, s.faults t = false) ∧
      ((∀ t, s.threads.running t = none) →
        ∃ es', s.store.content p = some (render es') ∧
          SerialRun DirStep es (returns s.threads.history) es') ∧
      ∀ name ∈ es.map Entry.name,
        (∀ x ∈ returns s.threads.history, ∀ q y, x.2.1.creates = some (q, y) → y.name ≠ name) →
        unlinkResults p name (returns s.threads.history) = [] ∨
        ∃ n, unlinkResults p name (returns s.threads.history) =
          .status .ok :: List.replicate n (.status .noent)) := by
  constructor
  · intro hidle
    have hfresh := runAll_of_all step _ (Fresh Call.body p (Stage N K p) fun _ _ => True)
      (fun _ => True)
      (fun _ _ _ _ _ _ => trivial) (fun s a _ h => fresh_of_steady p _ s a h fun _ _ _ _ _ =>
        trivial) _ acts
      trivial hsteady
    obtain ⟨base,h⟩ := serialised_run body_sat dir_tenures content acts s hcalls hfresh hrun
    exact h.serialisable body_sat hidle
  · intro hhits
    have hfresh := runAll_of_all step _ (Fresh Call.body p (Stage N K p) (Good N K p))
      (fun _ => True)
      (fun _ _ _ _ _ _ => trivial)
        (fun s a _ h => fresh_of_steady p _ s a h.1 (good_of_hits p s a h.2)) _ acts
      trivial (runAll_and _ _ _ _ _ hsteady hhits)
    obtain ⟨base,h⟩ := serialised_run body_sat dir_tenures content acts s hcalls hfresh hrun
    obtain ⟨es',hes',hdir⟩ := serialRun_dirStep hN hes h.past
    refine ⟨h.not_faults dir_tenures fun c hgood hundef => ?_, fun hidle => ?_,
      fun name hname hcreates => ?_⟩
    · -- a call alone ends, or waits for ever for the lock that it holds
      rcases good_alone hN hes' c hgood with hstuck | ⟨_,_,_,hends,_⟩
      · exact nomatch hstuck.symm.trans hundef
      · exact nomatch hends.symm.trans hundef
    · obtain ⟨es1,hes1,hdir1⟩ := serialRun_dirStep hN hes (h.serialRun hidle)
      exact ⟨es1, hes1.1, hdir1⟩
    · have hunlinks := SerialRun.forall_mem (P := fun c => ∀ q n, c = .unlink q n → q = p) ?_ h.past
      · rcases unlink_once name hname hdir hcreates hunlinks with ⟨hnil,-⟩ | ⟨hsome,-⟩
        · exact .inl hnil
        · exact .inr hsome
      · -- only calls in this directory are made
        rintro c w res c' ⟨⟨hc,-⟩,-⟩ q n rfl
        rcases hc with ⟨x,hx,-⟩ | ⟨m,hm,-⟩
        · exact nomatch hx
        · cases hm
          rfl

end

/-- The two tenures of `unlink`. -/
def lookupActs (t : Bool) (p : Inum) (name buf : Str) : List (Act Bool) :=
  [.call t (.unlink p name), .op (.acquire t p), .op (.get t p buf), .op (.release t p)]

def eraseActs (t : Bool) (p i : Inum) (buf rest : Str) : List (Act Bool) :=
  [.op (.acquire t p), .op (.get t p buf), .op (.put t p rest), .op (.acquire t i)] ++
    (if isfile i = true then [.remove t] else []) ++ [.op (.release t i), .op (.release t p)]

def rootABC (e : Inum) : Option Str := if e = 1 then some (render [entryAB, entryC]) else none

/-- Another name is unlinked between the two tenures of an `unlink`, and the same one again
after it. -/
def unlinkBetween : List (Act Bool) :=
  lookupActs true 1 ['a', 'b'] (render [entryAB, entryC]) ++ lookupActs false 1 ['c']
    (render [entryAB, entryC]) ++
    eraseActs false 1 9 (render [entryAB, entryC]) (render [entryAB]) ++
    eraseActs true 1 0x80000005 (render [entryAB]) [] ++ lookupActs false 1 ['a', 'b'] []

/-- Both clients have looked up the same entry, and one has taken it out. -/
def unlinkTwice : List (Act Bool) :=
  lookupActs true 1 ['a', 'b'] (render [entryAB, entryC]) ++
    lookupActs false 1 ['a', 'b'] (render [entryAB, entryC]) ++
    eraseActs true 1 0x80000005 (render [entryAB, entryC]) (render [entryC]) ++
      [.op (.acquire false 1)]

def namesABC (n : Str) : Prop := n ∈ [['a', 'b'], ['c']]

theorem names_abc : Names namesABC fun _ => True where
  ok := by
    have h : ∀ n ∈ [['a', 'b'], ['c']], NameOk n := by decide
    exact h
  apart n m hn hm := by
    have h : ∀ n ∈ [['a', 'b'], ['c']], ∀ m ∈ [['a', 'b'], ['c']], n <:+: m → n = m := by decide
    exact h n hn m hm
  inum n k hn _ hpart := by
    have h : ∀ n ∈ [['a', 'b'], ['c']], n.any (fun c => !c.isDigit) = true := by decide
    obtain ⟨c,hc,hdigit⟩ := List.any_eq_true.mp (h n hn)
    rw [isDigit_of_mem_filename k c (hpart.subset hc)] at hdigit
    exact nomatch hdigit

theorem root_abc : HoldsEntries namesABC (fun _ => True) 1 rootABC [entryAB, entryC] := by
  refine ⟨rfl, ?_, fun _ _ => trivial, by decide⟩
  have h : ∀ x ∈ [entryAB, entryC], x.name ∈ [['a', 'b'], ['c']] := by decide
  exact h

theorem calls_lookupActs {N : Str → Prop} (K : Inum → Prop) (t : Bool) (p : Inum) (name buf : Str)
    (hn : N name) :
    ∀ a ∈ lookupActs t p name buf, Calls (InDir N K p) a := by
  have hcall : InDir N K p (.unlink p name) := .inr ⟨name,rfl,hn⟩
  simpa [lookupActs, Calls] using hcall

theorem calls_eraseActs (N : Str → Prop) (K : Inum → Prop) (t : Bool) (p i : Inum)
    (buf rest : Str) :
    ∀ a ∈ eraseActs t p i buf rest, Calls (InDir N K p) a := by
  unfold eraseActs
  split_ifs <;> simp [Calls]

theorem unlink_atomic_between : ∃ s, run step (init Bool rootABC) unlinkBetween = some s ∧
    Serialisable Call.body rootABC s ∧ (∀ t, s.faults t = false) ∧
    returns s.threads.history = [(false, .unlink 1 ['c'], .status .ok),
      (true, .unlink 1 ['a', 'b'], .status .ok),
      (false, .unlink 1 ['a', 'b'], .status .noent)] := by
  have hends : ∃ s, run step (init Bool rootABC) unlinkBetween = some s ∧
      (∀ t, (s.threads.running t).isNone = true) ∧ returns s.threads.history =
        [(false, .unlink 1 ['c'], .status .ok), (true, .unlink 1 ['a', 'b'], .status .ok),
          (false, .unlink 1 ['a', 'b'], .status .noent)] := by
    decide +kernel
  obtain ⟨s,hrun,hidle,hreturns⟩ := hends
  have hab : namesABC ['a', 'b'] := List.mem_cons_self
  have hc : namesABC ['c'] := List.mem_cons_of_mem _ List.mem_cons_self
  have hcalls : ∀ a ∈ unlinkBetween, Calls (InDir namesABC (fun _ => True) 1) a := by
    unfold unlinkBetween
    simp only [List.forall_mem_append]
    exact ⟨⟨⟨⟨calls_lookupActs _ _ _ _ _ hab, calls_lookupActs _ _ _ _ _ hc⟩,
      calls_eraseActs _ _ _ _ _ _ _⟩, calls_eraseActs _ _ _ _ _ _ _⟩,
      calls_lookupActs _ _ _ _ _ hab⟩
  obtain ⟨hserial,hrest⟩ := unlink_atomic names_abc 1 rootABC _ root_abc unlinkBetween s hcalls
    (by decide +kernel) hrun
  obtain ⟨hdefined,-⟩ := hrest (by decide +kernel)
  exact ⟨s, hrun, hserial fun t => Option.isNone_iff_eq_none.mp (hidle t), hdefined, hreturns⟩

/-- The second `unlink` searches for a name and an inum that are not there any more. -/
theorem unlink_faults : (∀ a ∈ unlinkTwice, Calls (InDir namesABC (fun _ => True) 1) a) ∧
    Names namesABC (fun _ => True) ∧
      HoldsEntries namesABC (fun _ => True) 1 rootABC [entryAB, entryC] ∧
    ∃ s, run step (init Bool rootABC) unlinkTwice = some s ∧ s.faults false = true := by
  have hab : namesABC ['a', 'b'] := List.mem_cons_self
  refine ⟨?_, names_abc, root_abc, ?_⟩
  · unfold unlinkTwice
    simp only [List.forall_mem_append]
    exact ⟨⟨⟨calls_lookupActs _ _ _ _ _ hab, calls_lookupActs _ _ _ _ _ hab⟩,
      calls_eraseActs _ _ _ _ _ _ _⟩, by simp [Calls]⟩
  · decide +kernel

end Yfs.Dir
