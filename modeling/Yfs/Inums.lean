import Yfs.DirEntries
import Yfs.FileOps

namespace Yfs.Fs
open Yfs.Dir (Str Inum Entry rootDirInum generateFileInum generateDirInum)

inductive Call
  | dir (c : Dir.Call)
  | file (inum : Inum) (c : File.Call)
  deriving DecidableEq

inductive Result
  | dir (r : Dir.Result)
  | file (r : File.Result)
  deriving DecidableEq

def Call.body : Call → Prog Inum Str Result
  | dir c => c.body.map .dir
  | file inum c => (c.body inum).map .file

def Call.creates : Call → Option (Inum × Entry)
  | dir c => c.creates
  | file _ _ => none

abbrev Sys (θ : Type*) := LockedSys θ Inum Str Call Result
abbrev Act (θ : Type*) := ProgAct θ Inum Str Call

section
variable {θ : Type*} [DecidableEq θ]

def init (θ : Type*) (content : Inum → Option Str) : Sys θ := ⟨.init _ _ _ _ _, .init content⟩

def step : Sys θ → Act θ → Option (Sys θ) := LockedSys.step Call.body

/-- The directory and the entry, if this is the return of a create with OK. -/
def created : CallEv θ Call Result → Option (Inum × Entry)
  | .returned _ c (.dir (.status .ok)) => c.creates
  | _ => none

/-- The inums of all creates that have returned OK. -/
def createdInums (h : List (CallEv θ Call Result)) : List Inum :=
  h.filterMap fun ev => (created ev).map fun y => y.2.inum

omit [DecidableEq θ] in
theorem mem_createdInums_snoc (h : List (CallEv θ Call Result)) (ev : CallEv θ Call Result)
    (i : Inum) :
    i ∈ createdInums (h ++ [ev]) ↔ i ∈ createdInums h ∨ ∃ p x, created ev = some (p, x) ∧
    x.inum = i := by
  rw [createdInums, List.filterMap_append, List.mem_append]
  cases hev : created ev with
  | none => simp [createdInums, hev]
  | some y => simp [createdInums, hev, Prod.ext_iff, eq_comm]

omit [DecidableEq θ] in
theorem creates_of_created {t : θ} {c : Call} {res : Result} {y : Inum × Entry}
    (h : created (.returned t c res) = some y) : c.creates = some y := by
  unfold created at h
  split at h
  · next hev =>
    cases hev
    exact h
  · cases h

/-- The values that `rand()` returns for files and for directories, and the inums that are
made of them. -/
def fileRand : Act θ → Option (BitVec 31)
  | .call _ (.dir (.create _ _ rand)) => some rand
  | _ => none

def dirRand : Act θ → Option (BitVec 31)
  | .call _ (.dir (.createDir _ _ rand)) => some rand
  | _ => none

def drawn : Act θ → Option Inum
  | .call _ c => c.creates.map fun y => y.2.inum
  | .op _ | .remove _ => none

section
omit [DecidableEq θ]

theorem drawn_eq (a : Act θ) :
    drawn a = ((fileRand a).map generateFileInum).or ((dirRand a).map generateDirInum) := by
  cases a with
  | call t c =>
    cases c with
    | dir c => cases c <;> rfl
    | file inum c => rfl
  | op ev => rfl
  | remove t => rfl

/-- Draws that differ give inums that differ: files and directories do not clash. -/
theorem drawn_ne {a b : Act θ} (hfile : ∀ r ∈ fileRand a, ∀ r' ∈ fileRand b, r ≠ r')
    (hdir : ∀ r ∈ dirRand a, ∀ r' ∈ dirRand b, r ≠ r') : ∀ i ∈ drawn a, ∀ j ∈ drawn b, i ≠ j := by
  rintro i hi j hj rfl
  rw [drawn_eq, Option.mem_def, Option.or_eq_some_iff, Option.map_eq_some_iff,
    Option.map_eq_some_iff] at hi hj
  rcases hi with ⟨r,hr,hi⟩ | ⟨-,r,hr,hi⟩ <;> rcases hj with ⟨r',hr',hj⟩ | ⟨-,r',hr',hj⟩ <;>
    have hnat := congrArg BitVec.toNat (hi.trans hj.symm) <;>
    simp only [Dir.generateFileInum_toNat, Dir.generateDirInum_toNat] at hnat
  · exact hfile r hr r' hr' (BitVec.eq_of_toNat_eq (by omega))
  · omega
  · omega
  · exact hdir r hr r' hr' (BitVec.eq_of_toNat_eq hnat)

theorem drawn_ne_root {a : Act θ} (hdir : 1 ∉ dirRand a) : rootDirInum ∉ drawn a := by
  intro hi
  rw [drawn_eq, Option.mem_def, Option.or_eq_some_iff, Option.map_eq_some_iff,
    Option.map_eq_some_iff] at hi
  rcases hi with ⟨r,hr,hi⟩ | ⟨-,r,hr,hi⟩ <;> have hnat := congrArg BitVec.toNat hi <;>
    simp only [Dir.generateFileInum_toNat, Dir.generateDirInum_toNat] at hnat
  · change _ = 1 at hnat
    omega
  · obtain rfl : r = 1 := BitVec.eq_of_toNat_eq hnat
    exact hdir hr

end

/-- No value of `rand()` comes back, and none makes a directory of the root's inum. -/
structure Distinct (acts : List (Act θ)) : Prop where
  files : (acts.filterMap fileRand).Nodup
  dirs : (acts.filterMap dirRand).Nodup
  root : 1 ∉ acts.filterMap dirRand

omit [DecidableEq θ] in
theorem Distinct.draws {acts : List (Act θ)} (h : Distinct acts) :
    (acts.filterMap drawn).Nodup ∧ rootDirInum ∉ acts.filterMap drawn := by
  constructor
  · have hboth := (List.pairwise_filterMap.mp h.files).and (List.pairwise_filterMap.mp h.dirs)
    exact List.pairwise_filterMap.mpr (hboth.imp fun ⟨hfile,hdir⟩ => drawn_ne hfile hdir)
  · rw [List.mem_filterMap]
    rintro ⟨a,ha,hroot⟩
    exact drawn_ne_root (fun h1 => h.root (List.mem_filterMap.mpr ⟨a,ha,h1⟩)) hroot

/-- A create writes its directory, which it has read, and the extent of the new inum. The
others write what they have read, and the root. -/
def Call.spec (c : Call) : ProgSpec Inum Str Result where
  putOk seen reads e _ :=
    match c.creates with
    | some (p, x) => (e = p ∧ seen p ≠ none) ∨ (e = x.inum ∧ e ≠ p)
    | none => (∃ v, (e, v) ∈ reads) ∨ e = rootDirInum
  relOk _ _ := True
  retOk _ _ _ := True

theorem dir_putOk (c : Dir.Call) (seen : Inum → Option (Str × Str)) (reads : List (Inum × Str))
    (e : Inum)
    (v : Str) (h : c.spec.putOk seen reads e v) : (Call.dir c).spec.putOk seen reads e v := by
  have hcreate : ∀ p x, c.creates = some (p, x) → (Call.dir c).spec.putOk seen reads e v := by
    intro p x hx
    have hcreates : (Call.dir c).creates = some (p, x) := hx
    simp only [Call.spec, hcreates]
    rcases (Dir.putOk_of_creates c p x hx _ _ _ _).mp h with ⟨rfl,o,ho,-⟩ | ⟨he,hne,-⟩
    · exact .inl ⟨rfl,by simp [ho]⟩
    · exact .inr ⟨he,hne⟩
  cases c with
  | mount => exact .inr h.1
  | create p n k => exact hcreate p _ rfl
  | createDir p n k => exact hcreate p _ rfl
  | lookup p n =>
    obtain ⟨_,_,hx,_⟩ := h
    cases hx
  | unlink p n =>
    obtain ⟨rfl,found,_,_,hfound,_⟩ := h
    exact .inl ⟨found,List.mem_of_mem_head? hfound⟩
  | readdir p =>
    obtain ⟨_,_,hx,_⟩ := h
    cases hx

theorem body_sat (c : Call) : c.body.Sat c.spec (fun _ => none) [] := by
  cases c with
  | dir c =>
    exact (Dir.body_sat c).map (dir_putOk c) (fun _ _ _ => trivial) (fun _ _ _ _ => trivial)
  | file inum c =>
    exact (File.body_sat inum c).map (fun _ _ _ _ h => Or.inl h) (fun _ _ _ => trivial)
      (fun _ _ _ _ => trivial)

/-- A create writes its new extent once. -/
theorem body_putsOnce (c : Call) (p : Inum) (x : Entry) (hc : c.creates = some (p, x))
    (hne : x.inum ≠ p) :
    c.body.PutsOnce x.inum := by
  cases c with
  | file inum c => cases hc
  | dir c =>
    have hbody : (Call.dir c).body = (Dir.createEntry p x).map .dir := by
      rw [Call.body, Dir.body_of_creates c p x hc]
    rw [hbody]
    intro buffer
    beta_reduce
    split_ifs
    · trivial
    · exact ⟨fun _ => ⟨hne.symm,trivial⟩, fun h => absurd rfl h⟩

/-- A create that has not written its new extent yet will find nothing there. -/
def Once (content : Inum → Option Str) (r : Running Inum Str Call Result) : Prop :=
  ∀ p x, r.call.creates = some (p, x) → x.inum ≠ p →
    (content x.inum = none ∧ r.prog.PutsOnce x.inum) ∨ r.prog.Spares x.inum

/-- The inums `D` have been drawn. What exists is the root or has one of them, and they are
not shared. -/
structure Unique (D : List Inum) (s : Sys θ) : Prop where
  root : rootDirInum ∉ D
  exist : ∀ e, s.store.content e ≠ none → e = rootDirInum ∨ e ∈ D
  reads : ∀ t r, s.threads.running t = some r → ∀ y ∈ r.reads, s.store.content y.1 ≠ none
  once : ∀ t r, s.threads.running t = some r → Once s.store.content r
  drawn : ∀ t r, s.threads.running t = some r → ∀ p x, r.call.creates = some (p, x) →
    x.inum ∈ D ∧ x.inum ∉ createdInums s.threads.history
  apart : ∀ t r, s.threads.running t = some r → ∀ u q, s.threads.running u = some q → t ≠ u →
    ∀ p x p' y, r.call.creates = some (p, x) → q.call.creates = some (p', y) → x.inum ≠ y.inum
  made : ∀ i ∈ createdInums s.threads.history, i ∈ D
  nodup : (createdInums s.threads.history).Nodup

variable {D : List Inum} {s : Sys θ}

theorem Unique.move (h : Unique D s) {t : θ} {r : Running Inum Str Call Result}
    (hr : s.threads.running t = some r)
    (r' : Running Inum Str Call Result) (hcall : r'.call = r.call) (store : LockedStore θ Inum Str)
    (hexist : ∀ e, store.content e ≠ none → s.store.content e ≠ none ∨ e = rootDirInum ∨ e ∈ D)
    (hkeep : ∀ e, s.store.content e ≠ none → store.content e ≠ none)
    (hreads : ∀ y ∈ r'.reads, store.content y.1 ≠ none) (honce : Once store.content r')
    (hother : ∀ u q, u ≠ t → s.threads.running u = some q → ∀ p x, q.call.creates = some (p, x) →
      s.store.content x.inum = none → store.content x.inum = none) :
    Unique D ⟨{ s.threads with running := Function.update s.threads.running t (some r') },
      store⟩ := by
  have hback : ∀ u q, Function.update s.threads.running t (some r') u = some q →
      ∃ q0, s.threads.running u = some q0 ∧ q.call = q0.call := by
    refine forall_update_some ⟨r,hr,hcall⟩ fun u q hq => ⟨q,hq,rfl⟩
  refine ⟨h.root, fun e he => ?_, ?_, ?_, ?_, ?_, h.made, h.nodup⟩
  · rcases hexist e he with hold | hnew
    · exact h.exist e hold
    · exact hnew
  · exact forall_update_some hreads fun u q hq y hy => hkeep _ (h.reads u q hq y hy)
  · refine forall_update_ne (fun q hq => Option.some.inj hq ▸ honce) fun u q hu hq p x hx hne => ?_
    rcases h.once u q hq p x hx hne with ⟨hnone,hputs⟩ | hno
    · exact .inl ⟨hother u q hu hq p x hx hnone, hputs⟩
    · exact .inr hno
  · intro u q hq p x hx
    obtain ⟨q0,hq0,hc⟩ := hback u q hq
    exact h.drawn u q0 hq0 p x (hc ▸ hx)
  · intro u q hq u' q' hq' hne p x p' y hx hy
    obtain ⟨q0,hq0,hc⟩ := hback u q hq
    obtain ⟨q0',hq0',hc'⟩ := hback u' q' hq'
    exact h.apart u q0 hq0 u' q0' hq0' hne p x p' y (hc ▸ hx) (hc' ▸ hy)

theorem Unique.read (h : Unique D s) {t : θ} {r : Running Inum Str Call Result}
    (hr : s.threads.running t = some r)
    (r' : Running Inum Str Call Result) (hcall : r'.call = r.call) (store : LockedStore θ Inum Str)
    (hstore : store.content = s.store.content) (hreads : ∀ y ∈ r'.reads, s.store.content y.1 ≠ none)
    (hrest : ∀ e, (r.prog.PutsOnce e → r'.prog.PutsOnce e) ∧ (r.prog.Spares e → r'.prog.Spares e)) :
    Unique D ⟨{ s.threads with running := Function.update s.threads.running t (some r') },
      store⟩ := by
  refine h.move hr r' hcall store ?_ ?_ ?_ ?_ ?_
  · exact fun e he => .inl (hstore ▸ he)
  · exact fun e he => hstore ▸ he
  · exact hstore ▸ hreads
  · intro p x hx hne
    rw [hcall] at hx
    rw [hstore]
    rcases h.once t r hr p x hx hne with ⟨hnone,hp⟩ | hp
    · exact .inl ⟨hnone, (hrest _).1 hp⟩
    · exact .inr ((hrest _).2 hp)
  · exact fun _ _ _ _ _ _ _ hnone => hstore ▸ hnone

theorem Unique.put (h : Unique D s) (hs : s.Sound Call.spec) {t : θ}
    {r : Running Inum Str Call Result}
    (hr : s.threads.running t = some r) (e : Inum) (v : Str) (k : Prog Inum Str Result)
    (hp : r.prog = .put e v k) (seen : Inum → Option (Str × Str)) :
    Unique D ⟨{ s.threads with
      running := Function.update s.threads.running t (some ⟨r.call, k, seen, r.reads⟩) },
      { s.store with content := Function.update s.store.content e (some v) }⟩ := by
  have hsat := (hs t r hr).1
  rw [hp] at hsat
  have hput := hsat.1
  -- what is written is there already, or is the root, or is the new extent of this create
  have hcases : s.store.content e ≠ none ∨ e = rootDirInum ∨ ∃ p x, r.call.creates = some (p, x) ∧
      e = x.inum := by
    simp only [Call.spec] at hput
    split at hput
    · next p x hx =>
      rcases hput with ⟨rfl,hseen⟩ | ⟨he,-⟩
      · left
        obtain ⟨y,hy⟩ := Option.ne_none_iff_exists'.mp hseen
        simp [((hs t r hr).2 e y hy).2]
      · exact .inr (.inr ⟨p, x, hx, he⟩)
    · rcases hput with ⟨w,hw⟩ | hroot
      · exact .inl (h.reads t r hr _ hw)
      · exact .inr (.inl hroot)
  have hkeep : ∀ e', s.store.content e' ≠ none →
      Function.update s.store.content e (some v) e' ≠ none := by
    intro e' he'
    by_cases hee : e' = e
    · simp [hee]
    · rwa [Function.update_of_ne hee]
  refine h.move hr ⟨r.call, k, seen, r.reads⟩ rfl _ ?_ hkeep
    (fun y hy => hkeep _ (h.reads t r hr y hy)) ?_ ?_
  · intro e' he'
    by_cases hee : e' = e
    · subst hee
      rcases hcases with hold | hroot | ⟨p,x,hx,rfl⟩
      · exact .inl hold
      · exact .inr (.inl hroot)
      · exact .inr (.inr (h.drawn t r hr p x hx).1)
    · simp only [Function.update_of_ne hee] at he'
      exact .inl he'
  · intro p x hx hne
    have honce := h.once t r hr p x hx hne
    rw [hp] at honce
    rcases honce with ⟨hnone,hown,helse⟩ | ⟨-,hno⟩
    · by_cases hee : e = x.inum
      · exact .inr (hown hee)
      · exact .inl ⟨(Function.update_of_ne (Ne.symm hee) _ _).trans hnone, helse hee⟩
    · exact .inr hno
  · intro u q hu hq p y hy hnone
    have hne : y.inum ≠ e := by
      rintro rfl
      rcases hcases with hold | hroot | ⟨p',x,hx,he⟩
      · exact hold hnone
      · exact h.root (hroot ▸ (h.drawn u q hq p y hy).1)
      · exact h.apart t r hr u q hq (Ne.symm hu) p' x p y hx hy he.symm
    exact (Function.update_of_ne hne _ _).trans hnone

/-- A call. The inum that it draws is new. -/
theorem Unique.call (h : Unique D s) (t : θ) (c : Call)
    (hnew : ∀ i ∈ c.creates.map fun y => y.2.inum, i ∉ D ∧ i ≠ rootDirInum) :
    Unique (D ++ (c.creates.map fun y => y.2.inum).toList)
      ⟨⟨Function.update s.threads.running t (some ⟨c, c.body, fun _ => none, []⟩),
        s.threads.history ++ [.called t c]⟩, s.store⟩ := by
  have hdraw : ∀ p x, c.creates = some (p, x) → x.inum ∉ D ∧ x.inum ≠ rootDirInum := fun p x hx =>
    hnew _ (Option.mem_map.mpr ⟨_,hx,rfl⟩)
  have hcreated : ∀ i, i ∈ createdInums (s.threads.history ++ [.called t c]) ↔
      i ∈ createdInums s.threads.history := by
    intro i
    simp [mem_createdInums_snoc, created]
  refine ⟨?_, ?_, ?_, ?_, ?_, ?_, ?_, ?_⟩
  · rw [List.mem_append, not_or, Option.mem_toList]
    exact ⟨h.root, fun hroot => (hnew _ hroot).2 rfl⟩
  · intro e he
    exact (h.exist e he).imp_right (List.mem_append_left _)
  · exact forall_update_some (fun y hy => nomatch hy) h.reads
  · refine forall_update_some (fun p x hx hne => .inl ⟨?_, body_putsOnce c p x hx hne⟩) h.once
    by_contra hsome
    rcases h.exist _ hsome with hroot | hD
    · exact (hdraw p x hx).2 hroot
    · exact (hdraw p x hx).1 hD
  · refine forall_update_some (fun p x hx => ⟨?_, ?_⟩) fun u q hq p x hx => ⟨?_, ?_⟩
    · exact List.mem_append_right _ (Option.mem_toList.mpr (Option.mem_map.mpr ⟨_,hx,rfl⟩))
    · exact fun hi => (hdraw p x hx).1 (h.made _ ((hcreated _).mp hi))
    · exact List.mem_append_left _ (h.drawn u q hq p x hx).1
    · exact fun hi => (h.drawn u q hq p x hx).2 ((hcreated _).mp hi)
  · -- the new thread and an old one, in both orders
    refine forall_update_ne (fun q hq => ?_) fun u q hu hq => ?_
    · obtain rfl := Option.some.inj hq
      refine forall_update_ne (fun _ _ hne => absurd rfl hne)
        fun u q hu hq _ p x p' y hx hy hi => ?_
      exact (hdraw p x hx).1 (hi ▸ (h.drawn u q hq p' y hy).1)
    · refine forall_update_ne (fun q' hq' _ p x p' y hx hy hi => ?_) fun u' q' _ hq' =>
        h.apart u q hq u' q' hq'
      obtain rfl := Option.some.inj hq'
      exact (hdraw p' y hy).1 (hi ▸ (h.drawn u q hq p x hx).1)
  · exact fun i hi => List.mem_append_left _ (h.made i ((hcreated i).mp hi))
  · rw [createdInums, List.filterMap_append]
    simpa [created, createdInums] using h.nodup

theorem Unique.ret (h : Unique D s) {t : θ} {r : Running Inum Str Call Result}
    (hr : s.threads.running t = some r)
    (res : Result) (store : LockedStore θ Inum Str) (hstore : store.content = s.store.content) :
    Unique D ⟨⟨Function.update s.threads.running t none,
      s.threads.history ++ [.returned t r.call res]⟩, store⟩ := by
  have hkeep : ∀ u q, Function.update s.threads.running t none u = some q →
      s.threads.running u = some q ∧ u ≠ t :=
    forall_update_ne (fun _ hq => nomatch hq) fun u q hu hq => ⟨hq,hu⟩
  refine ⟨h.root, hstore ▸ h.exist, ?_, ?_, ?_, ?_, ?_, ?_⟩
  · exact fun u q hq => hstore ▸ h.reads u q (hkeep u q hq).1
  · exact fun u q hq => hstore ▸ h.once u q (hkeep u q hq).1
  · intro u q hq p x hx
    obtain ⟨hq,hu⟩ := hkeep u q hq
    obtain ⟨hD,hno⟩ := h.drawn u q hq p x hx
    refine ⟨hD, fun hi => ?_⟩
    rcases (mem_createdInums_snoc _ _ _).mp hi with hi | ⟨p',y,hy,hi⟩
    · exact hno hi
    · exact h.apart t r hr u q hq (Ne.symm hu) p' y p x (creates_of_created hy) hx hi
  · exact fun u q hq u' q' hq' => h.apart u q (hkeep u q hq).1 u' q' (hkeep u' q' hq').1
  · intro i hi
    rcases (mem_createdInums_snoc _ _ _).mp hi with hi | ⟨p,x,hx,rfl⟩
    · exact h.made i hi
    · exact (h.drawn t r hr p x (creates_of_created hx)).1
  · rw [createdInums, List.filterMap_append]
    cases hc : created (.returned t r.call res) with
    | none => simpa [hc, createdInums] using h.nodup
    | some y =>
      have hno := (h.drawn t r hr y.1 y.2 (creates_of_created hc)).2
      simp only [List.filterMap_cons, hc, Option.map_some, List.filterMap_nil]
      rw [List.nodup_append]
      refine ⟨h.nodup, List.pairwise_singleton _ _, fun i hi j hj hij => ?_⟩
      obtain rfl := List.mem_singleton.mp hj
      exact hno (hij ▸ hi)

theorem unique_step (h : Unique D s) (hs : s.Sound Call.spec) (a : Act θ) (s' : Sys θ)
    (hnew : ∀ i ∈ drawn a, i ∉ D ∧ i ≠ rootDirInum) (hstep : ProgStep Call.body s a s') :
    Unique (D ++ (drawn a).toList) s' := by
  cases hstep with
  | call t c hidle => exact h.call t c hnew
  | acquire t r e k hr hp hfree =>
    rw [drawn, Option.toList_none, List.append_nil]
    refine h.read hr ⟨r.call, k, r.seen, r.reads⟩ rfl _ rfl (h.reads t r hr) ?_
    rw [hp]
    exact fun _ => ⟨id,id⟩
  | release t r e k hr hp hk hheld =>
    rw [drawn, Option.toList_none, List.append_nil]
    refine h.read hr ⟨r.call, k, _, r.reads⟩ rfl _ rfl (h.reads t r hr) ?_
    rw [hp]
    exact fun _ => ⟨id,id⟩
  | ret t r e res hr hp hheld =>
    rw [drawn, Option.toList_none, List.append_nil]
    exact h.ret hr res _ rfl
  | get t r e k v hr hp hheld hv =>
    rw [drawn, Option.toList_none, List.append_nil]
    refine h.read hr ⟨r.call, k v, _, _⟩ rfl _ rfl (fun y hy => ?_) ?_
    · rcases List.mem_append.mp hy with hy | hy
      · exact h.reads t r hr y hy
      · -- the extent that was just read exists
        simp [List.mem_singleton.mp hy, hv]
    · rw [hp]
      exact fun _ => ⟨fun hk => hk v, fun hk => hk v⟩
  | put t r e v k hr hp hheld =>
    rw [drawn, Option.toList_none, List.append_nil]
    exact h.put hs hr e v k hp _
  | remove t r e k hr hp =>
    rw [drawn, Option.toList_none, List.append_nil]
    refine h.read hr ⟨r.call, k, r.seen, r.reads⟩ rfl _ rfl (h.reads t r hr) ?_
    rw [hp]
    exact fun _ => ⟨id,id⟩

theorem unique_run (acts : List (Act θ)) (s : Sys θ) (hdraws : Distinct acts)
    (hrun : run step (init θ fun _ => none) acts = some s) :
    s.Sound Call.spec ∧ Unique (acts.filterMap drawn) s := by
  have hinit : Unique [] (init θ fun _ => none) := by
    refine ⟨List.not_mem_nil, fun e he => absurd rfl he, ?_, ?_, ?_, ?_, fun i hi => (nomatch hi),
      List.nodup_nil⟩ <;>
      exact fun t r hr => nomatch hr
  refine (lockedSys_invariant body_sat (fun _ _ => True)
    (fun done s => (done.filterMap drawn).Nodup → rootDirInum ∉ done.filterMap drawn →
      Unique (done.filterMap drawn) s) (fun done s a s' hs h _ hstep hnodup hroot => ?_)
        (.init fun _ => none)
    (fun _ _ => hinit) acts s (runAll_of_mem _ (fun _ => True) _ acts fun _ _ => trivial)
      hrun).imp_right
    fun h => h hdraws.draws.1 hdraws.draws.2
  have hsplit : (done ++ [a]).filterMap drawn = done.filterMap drawn ++ (drawn a).toList := by
    cases ha : drawn a <;> simp [ha]
  rw [hsplit] at hnodup hroot ⊢
  rw [List.nodup_append] at hnodup
  rw [List.mem_append, not_or] at hroot
  refine unique_step (h hnodup.1 hroot.1) hs a s' (fun i hi => ⟨fun hD => ?_, ?_⟩) hstep
  · exact hnodup.2.2 i hD i (Option.mem_toList.mpr hi) rfl
  · rintro rfl
    exact hroot.2 (Option.mem_toList.mpr hi)

/-- In the runs in which the values of `rand()` are distinct: creates that have returned OK have
different inums, and none has that of the root; and a create that is about to write an extent
other than its directory writes one with its own inum, where nothing exists. -/
theorem inums_unique (acts : List (Act θ)) (s : Sys θ) (hdraws : Distinct acts)
    (hrun : run step (init θ fun _ => none) acts = some s) :
    (createdInums s.threads.history).Nodup ∧ rootDirInum ∉ createdInums s.threads.history ∧
    ∀ t r p x e v k, s.threads.running t = some r → r.call.creates = some (p, x) →
    r.prog = .put e v k →
      e = p ∨ (e = x.inum ∧ e ≠ rootDirInum ∧ s.store.content e = none) := by
  obtain ⟨hs,h⟩ := unique_run acts s hdraws hrun
  refine ⟨h.nodup, fun hroot => h.root (h.made _ hroot), ?_⟩
  intro t r p x e v k hr hx hp
  have hput := (hs t r hr).1
  rw [hp] at hput
  have hput := hput.1
  simp only [Call.spec, hx] at hput
  rcases hput with ⟨he,-⟩ | ⟨rfl,hne⟩
  · exact .inl he
  · refine .inr ⟨rfl, ?_, ?_⟩
    · intro hroot
      exact h.root (hroot ▸ (h.drawn t r hr p x hx).1)
    · have honce := h.once t r hr p x hx hne
      rw [hp] at honce
      rcases honce with ⟨hnone,-⟩ | ⟨habs,-⟩
      · exact hnone
      · exact absurd rfl habs

end

/-- The steps of a `write`, without interference. -/
def writeActs (t : Bool) (inum : Inum) (buffer old new : Str) : List (Act Bool) :=
  [.call t (.file inum (.write buffer buffer.length 0)), .op (.acquire t inum),
    .op (.get t inum old), .op (.put t inum new), .op (.release t inum)]

/-- A client creates a file and writes it. -/
def createAndWrite : List (Act Bool) :=
  (Dir.mountActs true ++ Dir.createActs true (.create 1 ['a', 'b'] 5) 1 Dir.entryAB []).map
    (ProgAct.map .dir) ++
    writeActs true 0x80000005 ['X', 'Y'] [] ['X', 'Y']

/-- Another client creates a directory. -/
def thenCreateDir : List (Act Bool) :=
  createAndWrite ++ (Dir.createActs false (.createDir 1 ['c'] 5) 1 ⟨5, ['c']⟩
    (Dir.render [Dir.entryAB])).map
    (ProgAct.map .dir)

theorem inums_unique_two_clients : ∃ s, run step (init Bool fun _ => none) thenCreateDir = some s ∧
    createdInums s.threads.history = [0x80000005, 5] ∧ (createdInums s.threads.history).Nodup := by
  have hends : ∃ s, run step (init Bool fun _ => none) thenCreateDir = some s ∧
      createdInums s.threads.history = [0x80000005, 5] := by
    decide +kernel
  obtain ⟨s,hrun,hcreated⟩ := hends
  exact ⟨s, hrun, hcreated,
    (inums_unique thenCreateDir s ⟨by decide +kernel, by decide +kernel, by decide +kernel⟩ hrun).1⟩

/-- Another client creates a file for which `rand()` returns the same. -/
def thenSameFile : List (Act Bool) :=
  createAndWrite ++ (Dir.createActs false (.create 1 ['c'] 5) 1 ⟨0x80000005, ['c']⟩
    (Dir.render [Dir.entryAB])).map
    (ProgAct.map .dir)

/-- A directory in a directory, for which `rand()` returns 1. -/
def rootDrawn : List (Act Bool) :=
  (Dir.mountActs true ++ Dir.createActs true (.createDir 1 ['c'] 9) 1 Dir.entryC [] ++
    Dir.createActs true (.createDir 9 ['d'] 1) 9 ⟨1, ['d']⟩ []).map (ProgAct.map .dir)

/-- Two files share an extent, and what was written to the first is lost; and the root directory
is overwritten. -/
theorem inums_collide :
    (∃ s, run step (init Bool fun _ => none) createAndWrite = some s ∧
      s.store.content 0x80000005 = some ['X', 'Y']) ∧
    (∃ s, run step (init Bool fun _ => none) thenSameFile = some s ∧
      createdInums s.threads.history = [0x80000005, 0x80000005] ∧ s.store.content 0x80000005 =
        some []) ∧
    ∃ s, run step (init Bool fun _ => none) rootDrawn = some s ∧
      createdInums s.threads.history = [9, rootDirInum] ∧
      s.store.content rootDirInum = some [] := by
  decide +kernel

end Yfs.Fs
