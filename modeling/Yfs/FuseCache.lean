import Yfs.ExtentCoherence
import Yfs.ExtentTransparency
import Yfs.Fuse

namespace Yfs.Fuse
open Yfs.Dir (Str Inum)
open Yfs.Extent (Attr Env Client Server sizeOf32)

inductive Event
  | mount
  | request (r : Request)
  | flush (eid : Inum)
  deriving DecidableEq

section
variable {σ α τ : Type*} (S : StoreOps σ Inum Str α) (flush : σ → Inum → Option σ)
    (view : α → τ × ℕ)
  (lib : Libfuse) (maxSize : ℕ)

/-- What an event is replied with, and the store after it. The constructor of `yfs_client` and a
flush send no reply. -/
def Event.handle (s : σ) : Event → Option (List (Reply τ) × σ)
  | .mount =>
    ((Dir.mount.andThen fun _ => (.ret () : StoreProg Inum Str α Unit)).exec S [] s).map fun x =>
      ([], x.2)
  | .request r => ((r.handler view lib maxSize).exec S [] s).map fun x => ([x.1], x.2)
  | .flush eid => (flush s eid).map fun s' => ([], s')

/-- All replies, and the store that is left; `none` if the process ends on the way. -/
def session : σ → List Event → Option (List (Reply τ) × σ)
  | s, [] => some ([], s)
  | s, ev :: evs => (ev.handle S flush view lib maxSize s).bind fun x =>
      (session x.2 evs).map fun y => (x.1 ++ y.1, y.2)

end

/-- `extent_client` and the server behind it; `tick` counts the readings of the clock. -/
structure Cache where
  client : Client Inum Char
  server : Server Inum Char
  tick : ℕ

def Cache.start (srv : Server Inum Char) : Cache := ⟨.empty, srv, 0⟩

structure Times where
  atime : ℕ
  mtime : ℕ
  ctime : ℕ
  deriving DecidableEq

def attrView (a : Attr) : Times × ℕ := (⟨a.atime, a.mtime, a.ctime⟩, a.size)

def cacheOps (env : ℕ → Env) : StoreOps Cache Inum Str Attr where
  get s e := (s.client.get s.server (env s.tick) e).map fun x => (x.1, ⟨x.2.1, x.2.2, s.tick + 1⟩)
  getattr s e := s.client.getattr s.server e
  put s e v := ⟨s.client.put (env s.tick) e v, s.server, s.tick + 1⟩
  remove s e := { s with client := (s.client.remove e).2 }

def Cache.flush (env : ℕ → Env) (s : Cache) (e : Inum) : Option Cache :=
  (s.client.flush s.server (env s.tick) e).map fun x => ⟨x.1, x.2, s.tick + 1⟩

def Cache.contents (s : Cache) (e : Inum) : Option Str :=
  ((s.client.cached e).or (s.server.visible e)).map Prod.fst

/-- Extents in place, which show their size and no times. One that is removed can still be
read by its inum. -/
def plainOps : StoreOps (Inum → Option Str) Inum Str ℕ where
  get c e := (c e).map fun v => (v, c)
  getattr c e := (c e).map sizeOf32
  put c e v := Function.update c e (some v)
  remove c _ := c

def plainView (n : ℕ) : Unit × ℕ := ((), n)

def cachedSession (lib : Libfuse) (maxSize : ℕ) (env : ℕ → Env) :
    Cache → List Event → Option (List (Reply Times) × Cache) :=
  session (cacheOps env) (Cache.flush env) attrView lib maxSize

def plainSession (lib : Libfuse) (maxSize : ℕ) :
    (Inum → Option Str) → List Event → Option (List (Reply Unit) × (Inum → Option Str)) :=
  session plainOps (fun c _ => some c) plainView lib maxSize

section replies
variable {τ τ' : Type*} (p : τ → τ')

def Stat.map (st : Stat τ) : Stat τ' := ⟨st.ino, st.mode, st.nlink, p st.times, st.size⟩

def EntryParam.map (e : EntryParam τ) : EntryParam τ' :=
  ⟨e.ino, e.generation, e.attr.map p, e.attrTimeout, e.entryTimeout⟩

def Reply.map : Reply τ → Reply τ'
  | .err e => .err e
  | .attr st => .attr (st.map p)
  | .entry e => .entry (e.map p)
  | .create e => .create (e.map p)
  | .buf b => .buf b
  | .write count => .write count
  | .opened => .opened
  | .statfs namemax bsize => .statfs namemax bsize

end replies

/-- The reply without its times. -/
abbrev Reply.timeless {τ : Type*} : Reply τ → Reply Unit := Reply.map fun _ => ()

def Request.unlinks : Request → Bool
  | .unlink _ _ => true
  | _ => false

def Event.unlinks : Event → Bool
  | .request r => r.unlinks
  | _ => false

def Event.flushes : Event → Bool
  | .flush _ => true
  | _ => false

/-- No flush comes after an `unlink`: the server ends on the request to remove an extent. -/
def FlushedFirst (evs : List Event) : Prop :=
  evs.Pairwise fun ev ev' => ev.unlinks = true → ev'.flushes = false

instance decidableFlushedFirst (evs : List Event) : Decidable (FlushedFirst evs) :=
  inferInstanceAs (Decidable (evs.Pairwise fun ev ev' => ev.unlinks = true → ev'.flushes = false))

theorem noRemove_createEntry (parent : Inum) (x : Dir.Entry) :
    (Dir.createEntry parent x).NoRemove := by
  intro buffer
  beta_reduce
  split_ifs <;> trivial

theorem alike_ret {α α' τ τ' : Type*} {f : α → α'} {p : τ → τ'} {b : Bool} {r : Reply τ}
    {r' : Reply τ'} (h : r.map p = r') :
    Alike b f (Reply.map p) (.ret r : StoreProg Inum Str α (Reply τ)) (.ret r') :=
  h ▸ .ret r

section alike
variable {α α' τ τ' : Type*} {view : α → τ × ℕ} {view' : α' → τ' × ℕ} {f : α → α'} {p : τ → τ'}
    {b : Bool}
  (hview : ∀ a, view' (f a) = (p (view a).1, (view a).2))
include hview

theorem alike_getattr (inum : Inum) {k : Stat τ → StoreProg Inum Str α (Reply τ)}
    {k' : Stat τ' → StoreProg Inum Str α' (Reply τ')}
    (hk : ∀ st, Alike b f (Reply.map p) (k st) (k' (st.map p))) :
    Alike b f (Reply.map p) (getattr view inum k) (getattr view' inum k') := by
  unfold getattr getInfo
  split_ifs <;>
  · refine .acquire inum (.getattr inum fun a => .release inum ?_)
    simp only [hview]
    exact hk _

theorem alike_getattr_ret (inum : Inum) (reply : Stat τ → Reply τ) (reply' : Stat τ' → Reply τ')
    (hreply : ∀ st, (reply st).map p = reply' (st.map p)) :
    Alike b f (Reply.map p) (getattr view inum fun st => .ret (reply st))
      (getattr view' inum fun st => .ret (reply' st)) := by
  exact alike_getattr hview inum fun st => alike_ret (hreply st)

theorem alike_afterCreate (ino : Inum) (reply : EntryParam τ → Reply τ)
    (reply' : EntryParam τ' → Reply τ')
    (hreply : ∀ e, (reply e).map p = reply' (e.map p)) (other : Errno) (r : Dir.Result) :
    Alike b f (Reply.map p) (afterCreate view ino reply other r)
    (afterCreate view' ino reply' other r) := by
  have herr (e : Errno) : Alike b f (Reply.map p) (.ret (.err e) : StoreProg Inum Str α (Reply τ))
      (.ret (.err e)) := alike_ret rfl
  cases r with
  | status s =>
    cases s with
    | ok =>
      exact alike_getattr_ret hview ino (fun st => reply (entryParam ino st))
        (fun st => reply' (entryParam ino st)) fun st => hreply (entryParam ino st)
    | exist => exact herr .eexist
    | rpcerr | noent | ioerr => exact herr other
  | inum i => exact herr other
  | buffer buf => exact herr other

/-- A handler does the same over both stores; only `unlink` removes. -/
theorem alike_handler (lib : Libfuse) (maxSize : ℕ) (r : Request)
    (hb : b = true ∨ r.unlinks = false) :
    Alike b f (Reply.map p) (r.handler view lib maxSize) (r.handler view' lib maxSize) := by
  cases r with
  | getattr ino => exact alike_getattr_ret hview ino _ _ fun _ => rfl
  | setattr ino stSize toSet =>
    simp only [Request.handler, fuseserverSetattr]
    split_ifs
    · refine Prog.alike_andThen _ (.inr fun _ => trivial) fun r => ?_
      split
      · exact alike_getattr_ret hview ino _ _ fun _ => rfl
      · exact alike_ret rfl
    · exact alike_ret rfl
  | read ino size off =>
    refine Prog.alike_andThen _ (.inr fun _ => trivial) fun r => ?_
    split
    · exact alike_ret rfl
    · exact .undef
  | write ino mem size off =>
    refine Prog.alike_andThen _ (.inr ?_) fun r => alike_ret rfl
    unfold File.writeMem
    split
    · trivial
    · intro fileData
      beta_reduce
      split <;> trivial
  | create parent name rand =>
    refine Prog.alike_andThen _ (.inr ?_) (alike_afterCreate hview _ _ _ (fun _ => rfl) _)
    exact noRemove_createEntry parent _
  | mknod parent name rand =>
    refine Prog.alike_andThen _ (.inr ?_) (alike_afterCreate hview _ _ _ (fun _ => rfl) _)
    exact noRemove_createEntry parent _
  | mkdir parent name rand =>
    refine Prog.alike_andThen _ (.inr ?_) (alike_afterCreate hview _ _ _ (fun _ => rfl) _)
    exact noRemove_createEntry parent _
  | lookup parent name =>
    refine Prog.alike_andThen _ (.inr fun buffer => ?_) fun r => ?_
    · beta_reduce
      rcases Dir.lookupInum buffer name with _ | _ | i <;> trivial
    · split
      · exact alike_getattr_ret hview _ _ _ fun _ => rfl
      · exact alike_ret rfl
  | readdir ino size off =>
    simp only [Request.handler, fuseserverReaddir]
    split_ifs
    · exact alike_ret rfl
    · refine Prog.alike_andThen _ (.inr fun _ => trivial) fun r => ?_
      split
      · split
        · exact alike_ret rfl
        · exact .undef
      · exact .undef
  | openFile ino => exact alike_ret rfl
  | unlink parent name =>
    refine Prog.alike_andThen _ (.inl (hb.resolve_right nofun)) fun r => ?_
    split
    · exact alike_ret rfl
    · exact alike_ret rfl
  | statfs => exact alike_ret rfl

end alike

/-- The cache is in order, and it shows the contents `c` with their sizes. Whether extents may be
marked as removed is `b`. -/
structure Shows (b : Bool) (s : Cache) (c : Inum → Option Str) : Prop where
  ok : ∀ e, s.client.Ok b s.server e
  shown : ∀ e, (s.client.cached e).or (s.server.visible e) = (c e).map fun v => (v, sizeOf32 v)

theorem Shows.contents_eq {b : Bool} {s : Cache} {c : Inum → Option Str} (h : Shows b s c) :
    s.contents = c := by
  funext e
  rw [Cache.contents, h.shown e, Option.map_map]
  cases c e <;> rfl

section cache
variable {b : Bool} {env : ℕ → Env}

theorem cacheOps_get (s : Cache) (c : Inum → Option Str) (e : Inum) (h : Shows b s c) :
    Option.Rel (fun x x' => x.1 = x'.1 ∧ Shows b x.2 x'.2) ((cacheOps env).get s e)
    (plainOps.get c e) := by
  simp only [cacheOps, plainOps]
  cases hc : c e with
  | none =>
    have hnone := h.shown e
    rw [hc] at hnone
    rw [Extent.client_get_none s.client s.server (env s.tick) e hnone]
    exact .none
  | some v =>
    have hsome := h.shown e
    rw [hc] at hsome
    obtain ⟨c',s',hget,hvis,hcached,hok⟩ :=
      Extent.client_get_some (r := b) s.client s.server (env s.tick) e v _ hsome
    rw [hget]
    refine .some ⟨rfl, fun e' => hok e' (h.ok e'), fun e' => ?_⟩
    simp only [hvis, hcached]
    by_cases he : e' = e
    · subst he
      rw [Function.update_self, Option.some_or, hc]
      rfl
    · rw [Function.update_of_ne he]
      exact h.shown e'

theorem cacheOps_getattr (s : Cache) (c : Inum → Option Str) (e : Inum) (h : Shows b s c) :
    ((cacheOps env).getattr s e).map Attr.size = plainOps.getattr c e := by
  have hsize : plainOps.getattr c e = ((s.client.cached e).or (s.server.visible e)).map
      Prod.snd := by
    rw [h.shown e, Option.map_map]
    rfl
  rw [hsize]
  simp only [cacheOps, Extent.Client.getattr, Extent.Client.cached, Extent.Server.getattr,
    Extent.Server.visible]
  cases s.client.fileDataMap e with
  | some d => rfl
  | none =>
    rw [Option.map_none, Option.none_or, Option.map_map, Option.map_map]
    rfl

theorem cacheOps_put (s : Cache) (c : Inum → Option Str) (e : Inum) (v : Str) (h : Shows b s c) :
    Shows b ((cacheOps env).put s e v) (plainOps.put c e v) := by
  refine ⟨fun e' => Extent.client_put_ok _ _ _ _ _ _ (h.ok e'), fun e' => ?_⟩
  simp only [cacheOps, plainOps, Extent.client_put_cached]
  by_cases he : e' = e
  · subst he
    rw [Function.update_self, Function.update_self]
    rfl
  · rw [Function.update_of_ne he, Function.update_of_ne he]
    exact h.shown e'

theorem cacheOps_remove (hb : b = true) (s : Cache) (c : Inum → Option Str) (e : Inum)
    (h : Shows b s c) :
    Shows b ((cacheOps env).remove s e) (plainOps.remove c e) := by
  subst hb
  refine ⟨fun e' => Extent.client_remove_ok _ _ _ _ (h.ok e'), fun e' => ?_⟩
  simp only [cacheOps, plainOps, Extent.client_remove_cached]
  exact h.shown e'

theorem cache_simulates : (cacheOps env).Simulates b plainOps Attr.size (Shows b) where
  get := cacheOps_get
  getattr := cacheOps_getattr
  put := cacheOps_put
  remove := cacheOps_remove

theorem Shows.flush {s : Cache} {c : Inum → Option Str} (h : Shows b s c) (e : Inum)
    (hr : ∀ d, s.client.fileDataMap e = some d → d.isRemoved = false) :
    ∃ s', s.flush env e = some s' ∧ Shows b s' c := by
  obtain ⟨srv,hflush,hvis⟩ := Extent.client_flush_spec s.client s.server (env s.tick) e (h.ok e) hr
  refine ⟨⟨s.client.erase e, srv, s.tick + 1⟩, by rw [Cache.flush, hflush]; rfl, fun e' => ?_,
    fun e' => ?_⟩
  · by_cases he : e' = e
    · subst he
      intro d hd
      simp [Extent.Client.erase] at hd
    · have hve : srv.visible e' = s.server.visible e' := by rw [hvis, Function.update_of_ne he]
      exact Extent.client_erase_ok _ _ _ _ fun d hd => (h.ok e' d hd).congr hve
  · simp only [Extent.client_erase_cached, hvis]
    by_cases he : e' = e
    · subst he
      rw [Function.update_self, Function.update_self, Option.none_or]
      exact h.shown e'
    · rw [Function.update_of_ne he, Function.update_of_ne he]
      exact h.shown e'

/-- An event is handled alike, unless a flush meets an extent that is marked as removed. -/
theorem handle_simulates (lib : Libfuse) (maxSize : ℕ) {s : Cache} {c : Inum → Option Str}
    (h : Shows b s c) (ev : Event) (hb : b = true ∨ ev.unlinks = false)
    (hr : ∀ e, ev = .flush e → ∀ d, s.client.fileDataMap e = some d → d.isRemoved = false) :
    Option.Rel (fun x x' => x.1.map Reply.timeless = x'.1 ∧ Shows b x.2 x'.2)
      (ev.handle (cacheOps env) (Cache.flush env) attrView lib maxSize s)
      (ev.handle plainOps (fun c _ => some c) plainView lib maxSize c) := by
  have hsim : (cacheOps env).Simulates b plainOps Attr.size (Shows b) := cache_simulates
  cases ev with
  | mount =>
    have hmount :
      Alike b Attr.size id (Dir.mount.andThen fun _ => (.ret () : StoreProg Inum Str Attr Unit))
        (Dir.mount.andThen fun _ => .ret ()) := Prog.alike_andThen _ (.inr trivial) fun _ => .ret ()
    simp only [Event.handle]
    exact rel_map (hsim.exec hmount [] s c h) fun x x' hx => ⟨rfl, hx.2⟩
  | request r =>
    have hview (a : Attr) : plainView a.size = ((), (attrView a).2) := rfl
    have halike : Alike b Attr.size Reply.timeless (r.handler attrView lib maxSize)
        (r.handler plainView lib maxSize) :=
      alike_handler hview lib maxSize r hb
    simp only [Event.handle]
    exact rel_map (hsim.exec halike [] s c h) fun x x' hx => ⟨congrArg (fun y => [y]) hx.1, hx.2⟩
  | flush e =>
    obtain ⟨s',hs',hshows⟩ := h.flush e (hr e rfl)
    rw [Event.handle, Event.handle, hs']
    exact .some ⟨rfl, hshows⟩

end cache

section session
variable (lib : Libfuse) (maxSize : ℕ) (env : ℕ → Env)

/-- A session that comes to its end has been the plain one. -/
theorem session_of_cachedSession (evs : List Event) {s s' : Cache} {c : Inum → Option Str}
    {replies : List (Reply Times)} (h : Shows true s c)
    (hrun : cachedSession lib maxSize env s evs = some (replies, s')) :
    plainSession lib maxSize c evs = some (replies.map Reply.timeless, s'.contents) := by
  induction evs generalizing s c replies with
  | nil =>
    cases hrun
    rw [h.contents_eq]
    rfl
  | cons ev evs ih =>
    obtain ⟨x,hx,hrest⟩ := Option.bind_eq_some_iff.mp hrun
    obtain ⟨y,hy,heq⟩ := Option.map_eq_some_iff.mp hrest
    cases heq
    have hr : ∀ e, ev = .flush e → ∀ d, s.client.fileDataMap e = some d → d.isRemoved = false := by
      rintro e rfl d hd
      obtain ⟨t,ht,-⟩ := Option.map_eq_some_iff.mp hx
      obtain ⟨res,hres,-⟩ := Option.map_eq_some_iff.mp ht
      exact Extent.client_flush_some _ _ _ _ res hres d hd
    have hone := @handle_simulates true env lib maxSize s c h ev (.inl rfl) hr
    rw [hx] at hone
    cases hone' : ev.handle plainOps (fun c _ => some c) plainView lib maxSize c with
    | none =>
      rw [hone'] at hone
      cases hone
    | some x' =>
      rw [hone'] at hone
      cases hone with
      | some hrel =>
        have htail := ih hrel.2 hy
        rw [plainSession, session, hone', Option.bind_some]
        rw [plainSession] at htail
        rw [htail, Option.map_some, List.map_append, hrel.1]

theorem Shows.loosen {b : Bool} {s : Cache} {c : Inum → Option Str} (h : Shows b s c) :
    Shows true s c :=
  ⟨fun e d hd => ⟨fun _ => rfl, (h.ok e d hd).2⟩, h.shown⟩

/-- If there is none, then a session ends over the cache exactly if it ends in place. -/
theorem cachedSession_replies (evs : List Event) (hevs : FlushedFirst evs) {b : Bool}
    (hb : b = true → ∀ ev ∈ evs, ev.flushes = false) {s : Cache}
    {c : Inum → Option Str} (h : Shows b s c) :
    Option.Rel (fun x x' => x.1.map Reply.timeless = x'.1) (cachedSession lib maxSize env s evs)
      (plainSession lib maxSize c evs) := by
  induction evs generalizing b s c with
  | nil => exact .some rfl
  | cons ev evs ih =>
    obtain ⟨hev,hrest⟩ := List.pairwise_cons.mp hevs
    by_cases hu : ev.unlinks = true
    · have hr : ∀ e, ev = .flush e → ∀ d, s.client.fileDataMap e = some d →
          d.isRemoved = false := by
        rintro e rfl
        cases hu
      refine rel_bind (handle_simulates lib maxSize h.loosen ev (.inl rfl) hr) fun x x' _ hx => ?_
      refine rel_map (ih hrest (fun _ ev' hev' => hev ev' hev' hu) hx.2) fun y y' hy => ?_
      rw [List.map_append, hx.1, hy]
    · have hr : ∀ e, ev = .flush e → ∀ d, s.client.fileDataMap e = some d →
          d.isRemoved = false := by
        rintro e rfl d hd
        cases b with
        | false => exact Extent.client_ok_false _ _ e (h.ok e) d hd
        | true => cases hb rfl _ List.mem_cons_self
      refine rel_bind (handle_simulates lib maxSize h ev (.inr (Bool.eq_false_iff.mpr hu)) hr)
        fun x x' _ hx => ?_
      refine rel_map (ih hrest (fun hb' ev' hev' => hb hb' ev' (List.mem_cons_of_mem _ hev')) hx.2)
        fun y y' hy => ?_
      rw [List.map_append, hx.1, hy]

end session

theorem shows_start {srv : Server Inum Char}
    (hsrv : ∀ e, srv.visible e = (srv.contents e).map fun v => (v, sizeOf32 v)) (b : Bool) :
    Shows b (.start srv) srv.contents := by
  refine ⟨fun e d hd => ?_, hsrv⟩
  cases hd

/-- A file is created and written, the locks are given back, and it is looked up and read. -/
def writeFlushRead : List Event :=
  [.mount, .request (.create 1 ['a'] 5), .request (.write 0x80000005 ['x', 'y', File.nul] 2 1),
    .flush 0x80000005, .flush 1, .request (.lookup 1 ['a']), .request (.read 0x80000005 10 0),
    .request (.readdir 1 100 0)]

end Yfs.Fuse
