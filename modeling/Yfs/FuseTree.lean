import Yfs.DirExact
import Yfs.DirPages
import Yfs.FusePosix

namespace Yfs.Fuse
open Yfs.Dir (Str Inum Entry Names Entries InumHit render)
open Yfs.Extent (Env Server sizeOf32)
open Yfs.File (nul)

/-- Directories and files by their inums. A file that is unlinked stays, for those who know its
inum. -/
structure Tree where
  dirs : Inum → Option (List Entry)
  files : Inum → Option File

def dirStat (ino : Inum) : Stat Unit := ⟨ino, sIfdir ||| 0x1FF, 2, (), 0⟩

namespace Tree

def putDir (t : Tree) (i : Inum) (es : List Entry) : Tree :=
  { t with dirs := Function.update t.dirs i (some es) }

def putFile (t : Tree) (i : Inum) (f : File) : Tree :=
  { t with files := Function.update t.files i (some f) }

def stat (t : Tree) (i : Inum) : Option (Stat Unit) :=
  if Dir.isfile i = true then (t.files i).map (fileStat i) else (t.dirs i).map fun _ => dirStat i

/-- An empty file or directory is made, and entered at the end of its directory. -/
def add (t : Tree) (parent : Inum) (es : List Entry) (x : Entry) : Tree :=
  (if Dir.isfile x.inum = true then t.putFile x.inum (.ofList nul [])
    else t.putDir x.inum []).putDir parent
    (es ++ [x])

def make (t : Tree) (parent : Inum) (x : Entry) (reply : EntryParam Unit → Reply Unit) :
    Option (Reply Unit × Tree) :=
  (t.dirs parent).bind fun es =>
    if x.name ∈ es.map Entry.name then some (.err .eexist, t)
    else ((t.add parent es x).stat x.inum).map fun st =>
      (reply (entryParam x.inum st), t.add parent es x)

def onFiles (t : Tree) (r : Request) : Option (Reply Unit × Tree) :=
  (r.onFiles t.files).map fun x => (x.1, { t with files := x.2 })

/-- The reply to a request and the tree after it; `none` if there is no such file or directory. -/
def handle (lib : Libfuse) (t : Tree) : Request → Option (Reply Unit × Tree)
  | .getattr ino => (t.stat ino).map fun st => (.attr st, t)
  | .create parent name rand => t.make parent ⟨Dir.generateFileInum rand, name⟩ .create
  | .mknod parent name rand => t.make parent ⟨Dir.generateFileInum rand, name⟩ .entry
  | .mkdir parent name rand => t.make parent ⟨Dir.generateDirInum rand, name⟩ .entry
  | .lookup parent name => (t.dirs parent).bind fun es =>
      (es.find? fun x => x.name = name).elim (some (.err .enoent, t)) fun x =>
        (t.stat x.inum).map fun st => (.entry (entryParam x.inum st), t)
  | .readdir ino size off =>
    if Dir.isfile ino = true then some (.err .enotdir, t)
    else (t.dirs ino).map fun es => (.buf (replyBufLimited (dirbuf lib (shown es)) off size), t)
  | .unlink parent name => (t.dirs parent).map fun es =>
      if name ∈ es.map Entry.name then
        (.err .ok, t.putDir parent (es.filter fun x => x.name ≠ name))
      else (.err .enoent, t)
  | .openFile _ => some (.opened, t)
  | .statfs => some (.statfs 255 512, t)
  | .setattr ino stSize toSet => t.onFiles (.setattr ino stSize toSet)
  | .read ino size off => t.onFiles (.read ino size off)
  | .write ino mem size off => t.onFiles (.write ino mem size off)

/-- The constructor of `yfs_client` makes the root directory anew. -/
def event (lib : Libfuse) (t : Tree) : Event → Option (List (Reply Unit) × Tree)
  | .mount => some ([], t.putDir Dir.rootDirInum [])
  | .request r => (t.handle lib r).map fun x => ([x.1], x.2)
  | .flush _ => some ([], t)

end Tree

def treeSession (lib : Libfuse) : Tree → List Event → Option (List (Reply Unit) × Tree)
  | t, [] => some ([], t)
  | t, ev :: evs =>
    (t.event lib ev).bind fun x => (treeSession lib x.2 evs).map fun y => (x.1 ++ y.1, y.2)

section
variable (N : Str → Prop) (K : Inum → Prop) (maxSize : ℕ)

/-- The inum that is drawn is not in use, and the directory stays within the positions of an
`int`. -/
structure Tree.Makes (t : Tree) (parent : Inum) (x : Entry) : Prop where
  dir : Dir.isfile parent = false
  name : N x.name
  inum : K x.inum
  fresh : t.stat x.inum = none
  room : ∀ es ∈ t.dirs parent, (render (es ++ [x])).length < 2^31

/-- Names are used that the searches can tell apart, and files and directories each with their own
requests. -/
def Tree.Allowed (t : Tree) : Event → Prop
  | .request (.create parent name rand) | .request (.mknod parent name rand) =>
    t.Makes N K parent ⟨Dir.generateFileInum rand, name⟩
  | .request (.mkdir parent name rand) => t.Makes N K parent ⟨Dir.generateDirInum rand, name⟩
  | .request (.lookup parent name) => Dir.isfile parent = false ∧ N name
  | .request (.unlink parent name) => Dir.isfile parent = false ∧ N name ∧
      ∀ es ∈ t.dirs parent, InumHit (render es) name
  | .request (.setattr ino stSize toSet) => (Request.setattr ino stSize toSet).ForFiles maxSize
  | .request (.read ino size off) => (Request.read ino size off).ForFiles maxSize
  | .request (.write ino mem size off) => (Request.write ino mem size off).ForFiles maxSize
  | _ => True

/-- The entries of directory `i`. -/
structure DirOk (i : Inum) (es : List Entry) : Prop where
  entries : Entries N K es
  own : ∀ x ∈ es, x.inum ≠ i
  short : (render es).length < 2^31

structure Holds (c : Inum → Option Str) (t : Tree) : Prop where
  dirs : ∀ i, Dir.isfile i = false → c i = (t.dirs i).map render
  files : ∀ i, Dir.isfile i = true → files c i = t.files i
  ok : ∀ i es, t.dirs i = some es → DirOk N K i es
  sized : Sized maxSize c

/-- The replies are the same, and the extents hold the tree afterwards. -/
def Agree {α : Type*} (y : α × (Inum → Option Str)) (y' : α × Tree) : Prop :=
  y.1 = y'.1 ∧ Holds N K maxSize y.2 y'.2

end

section
variable {N : Str → Prop} {K : Inum → Prop} {maxSize : ℕ} {c : Inum → Option Str} {t : Tree}

theorem DirOk.nil (i : Inum) : DirOk N K i [] := by
  refine ⟨⟨fun x hx => ?_, fun x hx => ?_, List.nodup_nil⟩, fun x hx => ?_, by decide⟩ <;> cases hx

namespace Holds

theorem putDir (h : Holds N K maxSize c t) (hmin : 2^32 ≤ maxSize) {i : Inum}
    (hi : Dir.isfile i = false) {es : List Entry} (hes : DirOk N K i es) :
    Holds N K maxSize (Function.update c i (some (render es))) (t.putDir i es) where
  dirs j hj := by
    by_cases hji : j = i
    · subst hji
      simp only [Tree.putDir, Function.update_self, Option.map_some]
    · simp only [Tree.putDir, Function.update_of_ne hji]
      exact h.dirs j hj
  files j hj := by
    have hji : j ≠ i := fun heq => Bool.false_ne_true (hi ▸ heq ▸ hj)
    rw [Fuse.files, Function.update_of_ne hji]
    exact h.files j hj
  ok := forall_update_some hes h.ok
  sized := h.sized.update i (by have hshort := hes.short; omega)

theorem putFile (h : Holds N K maxSize c t) {i : Inum} (hi : Dir.isfile i = true) {l : Str}
    (hl : l.length ≤ maxSize) :
    Holds N K maxSize (Function.update c i (some l)) (t.putFile i (.ofList nul l)) where
  dirs j hj := by
    have hji : j ≠ i := fun heq => Bool.false_ne_true (hj ▸ heq ▸ hi)
    rw [Function.update_of_ne hji]
    exact h.dirs j hj
  files j hj := by
    rw [files_update]
    by_cases hji : j = i
    · subst hji
      simp only [Tree.putFile, Function.update_self]
    · simp only [Tree.putFile, Function.update_of_ne hji]
      exact h.files j hj
  ok := h.ok
  sized := h.sized.update i hl

theorem stat_eq (h : Holds N K maxSize c t) (i : Inum) : t.stat i =
    (c i).map fun l => if Dir.isfile i = true then fileStat i (.ofList nul l) else dirStat i := by
  rw [Tree.stat]
  split_ifs with hi
  · rw [← h.files i hi, Fuse.files, Option.map_map]
    rfl
  · rw [h.dirs i (Bool.eq_false_iff.mpr hi), Option.map_map]
    rfl

/-- The handlers see the attributes that the tree has. -/
theorem getattr_exec (h : Holds N K maxSize c t) (i : Inum)
    (k : Stat Unit → StoreProg Inum Str ℕ (Reply Unit)) :
    (getattr plainView i k).exec plainOps [] c =
      (t.stat i).bind fun st => (k st).exec plainOps [] c := by
  rw [h.stat_eq]
  cases hc : c i with
  | none => exact getattr_missing hc k
  | some l =>
    by_cases hi : Dir.isfile i = true
    · rw [Fuse.getattr_exec hc hi, Option.map_some, if_pos hi, Option.bind_some]
    · simp [getattr, getInfo, StoreProg.exec, plainOps, hc, hi, dirStat, plainView]

theorem missing (h : Holds N K maxSize c t) {i : Inum} (hi : Dir.isfile i = false)
    (hes : t.dirs i = none)
    {α ρ : Type*} (k : Str → Prog Inum Str α) (f : α → StoreProg Inum Str ℕ ρ) :
    ((Prog.acquire i (.get i k)).andThen f).exec plainOps [] c = none :=
  exec_missing (by rw [h.dirs i hi, hes, Option.map_none]) _

theorem replies (h : Holds N K maxSize c t) (i : Inum) (f : Stat Unit → Reply Unit) :
    Option.Rel (Agree N K maxSize) ((getattr plainView i fun st => .ret (f st)).exec plainOps [] c)
      ((t.stat i).map fun st => (f st, t)) := by
  rw [h.getattr_exec]
  cases t.stat i with
  | none => exact .none
  | some st => exact .some ⟨rfl, h⟩

end Holds

theorem holds_add (hmin : 2^32 ≤ maxSize) (h : Holds N K maxSize c t) {parent : Inum} {x : Entry}
    {es : List Entry}
    (hm : t.Makes N K parent x) (hes : t.dirs parent = some es) (hno : x.name ∉ es.map Entry.name) :
    x.inum ≠ parent ∧ Holds N K maxSize
      (Function.update (Function.update c x.inum (some [])) parent (some (render (es ++ [x]))))
      (t.add parent es x) := by
  -- the directory's own inum is in use
  have hne : x.inum ≠ parent := by
    intro heq
    have hfresh := hm.fresh
    rw [heq, Tree.stat, if_neg (Bool.eq_false_iff.mp hm.dir), hes] at hfresh
    cases hfresh
  have hok := h.ok parent es hes
  have hgrown : DirOk N K parent (es ++ [x]) := by
    refine ⟨hok.entries.append hm.name hm.inum hno, fun y hy => ?_, hm.room es hes⟩
    rcases List.mem_append.mp hy with hy | hy
    · exact hok.own y hy
    · rw [List.mem_singleton.mp hy]
      exact hne
  refine ⟨hne, ?_⟩
  rw [Tree.add]
  split_ifs with hfile
  · exact (h.putFile hfile (Nat.zero_le _)).putDir hmin hm.dir hgrown
  · exact (h.putDir hmin (Bool.eq_false_iff.mpr hfile) (.nil _)).putDir hmin hm.dir hgrown

theorem find_none {es : List Entry} {name : Str} (hno : name ∉ es.map Entry.name) :
    (es.find? fun y => y.name = name) = none := by
  refine List.find?_eq_none.mpr fun y hy => ?_
  rw [decide_eq_true_eq]
  exact fun heq => hno (heq ▸ List.mem_map_of_mem hy)

theorem find_name {es l r : List Entry} {x : Entry} (hes : es = l ++ x :: r)
    (hno : x.name ∉ l.map Entry.name) :
    (es.find? fun y => y.name = x.name) = some x := by
  rw [hes, List.find?_append, find_none hno, Option.none_or, List.find?_cons, decide_eq_true rfl]

section
variable (hmin : 2^32 ≤ maxSize) (hN : Names N K) (lib : Libfuse) (h : Holds N K maxSize c t)
    {parent : Inum}
include hmin hN h

theorem make_holds {x : Entry} (hm : t.Makes N K parent x) (reply : EntryParam Unit → Reply Unit)
    (other : Errno) :
    Option.Rel (Agree N K maxSize)
      (((Dir.createEntry parent x).andThen (afterCreate plainView x.inum reply other)).exec
        plainOps [] c)
      (t.make parent x reply) := by
  have hdir := h.dirs parent hm.dir
  rw [Tree.make]
  cases hes : t.dirs parent with
  | none => exact (h.missing hm.dir hes _ _).symm ▸ .none
  | some es =>
    rw [hes, Option.map_some] at hdir
    have halone := Dir.createEntry_alone_eq parent x hdir
    have hnil : x.name ≠ [] := fun hnil => hN.inum _ _ hm.name hm.inum (hnil ▸ List.nil_infix)
    have hfind := Dir.find_name_iff hN hm.name hnil (h.ok parent es hes).entries
    rw [Option.bind_some]
    split_ifs with hin
    · rw [if_pos (hfind.mpr hin)] at halone
      rw [exec_andThen _ _ _ _ _ _ halone]
      exact .some ⟨rfl, h⟩
    · obtain ⟨hne,hadd⟩ := holds_add hmin h hm hes hin
      rw [if_neg fun hf => hin (hfind.mp hf), if_neg hne, ← Dir.render_snoc] at halone
      rw [exec_andThen _ _ _ _ _ _ halone]
      exact hadd.replies x.inum fun st => reply (entryParam x.inum st)

omit hmin in
theorem lookup_holds {name : Str} (hp : Dir.isfile parent = false) (hn : N name) :
    Option.Rel (Agree N K maxSize)
      ((fuseserverLookup plainView parent name).exec plainOps [] c)
      (t.handle lib (.lookup parent name)) := by
  have hdir := h.dirs parent hp
  rw [fuseserverLookup, Tree.handle]
  cases hes : t.dirs parent with
  | none => exact (h.missing hp hes _ _).symm ▸ .none
  | some es =>
    rw [hes, Option.map_some] at hdir
    have hent := (h.ok parent es hes).entries
    rw [Option.bind_some]
    rcases hent.split name with hno | ⟨l,x,r,hsplit,rfl,hno,-⟩
    · have halone := Dir.lookup_alone parent name hdir (Dir.lookupInum_none hN hn hent.names hno)
      rw [exec_andThen _ _ _ _ _ _ halone, find_none hno]
      exact .some ⟨rfl, h⟩
    · have hl : ∀ y ∈ l, N y.name := fun y hy => hent.names y (hsplit ▸ List.mem_append_left _ hy)
      have hfound : Dir.lookupInum (render es) x.name = some (some x.inum) := by
        rw [hsplit, Dir.lookupInum_entry hN hl hn hno]
      have halone := Dir.lookup_alone parent x.name hdir hfound
      rw [exec_andThen _ _ _ _ _ _ halone, find_name hsplit hno]
      exact h.replies x.inum fun st => .entry (entryParam x.inum st)

theorem unlink_holds {name : Str} (hp : Dir.isfile parent = false) (hn : N name)
    (hhit : ∀ es ∈ t.dirs parent, InumHit (render es) name) :
    Option.Rel (Agree N K maxSize)
      ((fuseserverUnlink parent name).exec plainOps [] c) (t.handle lib (.unlink parent name)) := by
  have hdir := h.dirs parent hp
  rw [fuseserverUnlink, Tree.handle]
  cases hes : t.dirs parent with
  | none => exact (h.missing hp hes _ _).symm ▸ .none
  | some es =>
    rw [hes, Option.map_some] at hdir
    have hok := h.ok parent es hes
    have halone := Dir.unlink_alone_eq parent name hdir
    rw [Option.map_some]
    rcases hok.entries.split name with hno | ⟨l,x,r,hsplit,rfl,hno,hfilter⟩
    · rw [Dir.lookupInum_none hN hn hok.entries.names hno] at halone
      rw [exec_andThen _ _ _ _ _ _ halone, if_neg hno]
      exact .some ⟨rfl, h⟩
    · have hx : x ∈ es := hsplit ▸ List.mem_append_right _ List.mem_cons_self
      have hl : ∀ y ∈ l, N y.name :=
        fun y hy => hok.entries.names y (hsplit ▸ List.mem_append_left _ hy)
      have hhit' := hhit es hes
      rw [hsplit] at hhit'
      rw [hsplit] at halone
      simp only [Dir.lookupInum_entry hN hl hn hno, Dir.unlinkRest_entry hN hl hn hno hhit',
        if_neg (hok.own x hx), ← hfilter] at halone
      rw [exec_andThen _ _ _ _ _ _ halone, if_pos (List.mem_map_of_mem hx)]
      -- only the text of the directory has changed
      refine .some ⟨rfl, h.putDir hmin hp ⟨hok.entries.filter _, fun y hy => ?_, ?_⟩⟩
      · exact hok.own y (List.mem_of_mem_filter hy)
      · have hshort := hok.short
        rw [hsplit, Dir.render_split, List.length_append, List.length_append] at hshort
        rw [hfilter, Dir.render_append, List.length_append]
        omega

omit hmin in
theorem readdir_holds (ino : Inum) (size off : ℕ) :
    Option.Rel (Agree N K maxSize) ((fuseserverReaddir lib ino size off).exec plainOps [] c)
      (t.handle lib (.readdir ino size off)) := by
  rw [fuseserverReaddir, Tree.handle]
  split_ifs with hi
  · exact .some ⟨rfl, h⟩
  · have hdir := h.dirs ino (Bool.eq_false_iff.mpr hi)
    cases hes : t.dirs ino with
    | none => exact (h.missing (Bool.eq_false_iff.mpr hi) hes _ _).symm ▸ .none
    | some es =>
      rw [hes, Option.map_some] at hdir
      have hok := h.ok ino es hes
      have hnames : ∀ x ∈ es, Dir.NameOk x.name := fun x hx => hN.ok _ (hok.entries.names x hx)
      have hadds := Dir.dirbufAdds_render es hnames hok.short.le
      have halone : (Dir.readdir ino).alone [] c = .ends (.buffer (render es)) c := by
        simp [Dir.readdir, Prog.alone, hdir]
      rw [exec_andThen _ _ _ _ _ _ halone]
      simp only [hadds]
      exact .some ⟨rfl, h⟩

end

/-- The inum of the file that a request is for. -/
def Request.file : Request → Option Inum
  | .setattr ino _ _ | .read ino _ _ | .write ino _ _ _ => some ino
  | _ => none

theorem onFiles_agree {fs : Inum → Option File} (hfs : ∀ i, Dir.isfile i = true → fs i = t.files i)
    {r : Request} {ino : Inum} (hr : r.file = some ino) (hino : Dir.isfile ino = true) :
    Option.Rel
    (fun y y' => y.1 = y'.1 ∧ y'.2.dirs = t.dirs ∧ ∀ i, Dir.isfile i = true → y.2 i = y'.2.files i)
      (r.onFiles fs) (t.onFiles r) := by
  have hupdate (f : File) (i : Inum) (hi : Dir.isfile i = true) :
      Function.update fs ino (some f) i = Function.update t.files ino (some f) i := by
    by_cases heq : i = ino
    · subst heq
      rw [Function.update_self, Function.update_self]
    · rw [Function.update_of_ne heq, Function.update_of_ne heq]
      exact hfs i hi
  rw [Tree.onFiles]
  cases r <;> cases hr
  case setattr stSize toSet =>
    rw [Request.onFiles, Request.onFiles, hfs ino hino]
    split_ifs
    · cases t.files ino with
      | none => exact .none
      | some f => exact .some ⟨rfl, rfl, hupdate _⟩
    · exact .some ⟨rfl, rfl, hfs⟩
  case read size off =>
    rw [Request.onFiles, Request.onFiles, hfs ino hino]
    cases t.files ino with
    | none => exact .none
    | some f => exact .some ⟨rfl, rfl, hfs⟩
  case write mem size off =>
    rw [Request.onFiles, Request.onFiles, hfs ino hino]
    cases t.files ino with
    | none => exact .none
    | some f => exact .some ⟨rfl, rfl, hupdate _⟩

theorem file_holds (hmin : 2^32 ≤ maxSize) (hmax : maxSize < 2^64) (lib : Libfuse)
    (h : Holds N K maxSize c t)
    {r : Request} {ino : Inum} (hr : r.file = some ino) (hino : Dir.isfile ino = true)
    (hf : r.ForFiles maxSize) :
    Option.Rel (Agree N K maxSize) ((r.handler plainView lib maxSize).exec plainOps [] c)
    (t.onFiles r) := by
  refine rel_trans (handler_files lib hmin hmax h.sized r hf) (onFiles_agree h.files hr hino)
    fun y z y' hy hyz hzy' => ⟨hyz.1.trans hzy'.1, fun i hi => ?_, fun i hi => ?_, hzy'.2.1 ▸ h.ok,
      hyz.2.2⟩
  · -- directories are not written
    have hne : ino ≠ i := fun heq => Bool.false_ne_true (hi ▸ heq ▸ hino)
    have hspares : r.Spares i := by
      cases r <;> cases hr
      · exact hne
      · trivial
      · exact hne
    rw [exec_spares (spares_handler plainView lib maxSize hspares) hy, hzy'.2.1]
    exact h.dirs i hi
  · rw [hyz.2.1]
    exact hzy'.2.2 i hi

/-- A request does to the extents what it should do to the tree. -/
theorem handle_holds (hmin : 2^32 ≤ maxSize) (hmax : maxSize < 2^64) (hN : Names N K)
    (lib : Libfuse)
    (h : Holds N K maxSize c t) (r : Request) (ha : t.Allowed N K maxSize (.request r)) :
    Option.Rel (Agree N K maxSize) ((r.handler plainView lib maxSize).exec plainOps [] c)
    (t.handle lib r) := by
  cases r with
  | getattr ino => exact h.replies ino .attr
  | setattr ino stSize toSet => exact file_holds hmin hmax lib h rfl ha ha
  | read ino size off => exact file_holds hmin hmax lib h rfl ha ha
  | write ino mem size off => exact file_holds hmin hmax lib h rfl ha.1 ha
  | create parent name rand => exact make_holds hmin hN h ha .create .enoent
  | mknod parent name rand => exact make_holds hmin hN h ha .entry .enoent
  | mkdir parent name rand => exact make_holds hmin hN h ha .entry .enosys
  | lookup parent name => exact lookup_holds hN lib h ha.1 ha.2
  | readdir ino size off => exact readdir_holds hN lib h ino size off
  | openFile ino => exact .some ⟨rfl, h⟩
  | unlink parent name => exact unlink_holds hmin hN lib h ha.1 ha.2.1 ha.2.2
  | statfs => exact .some ⟨rfl, h⟩

theorem event_holds (hmin : 2^32 ≤ maxSize) (hmax : maxSize < 2^64) (hN : Names N K) (lib : Libfuse)
    (h : Holds N K maxSize c t) (ev : Event) (ha : t.Allowed N K maxSize ev) :
    Option.Rel (Agree N K maxSize) (ev.handle plainOps (fun c _ => some c) plainView lib maxSize c)
    (t.event lib ev) := by
  cases ev with
  | mount => exact .some ⟨rfl, h.putDir hmin (by decide) (.nil _)⟩
  | flush e => exact .some ⟨rfl, h⟩
  | request r =>
    refine rel_map (handle_holds hmin hmax hN lib h r ha) fun y y' hy => ⟨?_, hy.2⟩
    exact congrArg (fun x => [x]) hy.1

/-- Every request of a session is allowed when it comes. -/
def Tree.AllAllowed (N : Str → Prop) (K : Inum → Prop) (maxSize : ℕ) (lib : Libfuse) :
    Tree → List Event → Prop :=
  RunAll (fun t ev => (t.event lib ev).map Prod.snd) (Allowed N K maxSize)

theorem plainSession_holds (hmin : 2^32 ≤ maxSize) (hmax : maxSize < 2^64) (hN : Names N K)
    (lib : Libfuse)
    (evs : List Event) (h : Holds N K maxSize c t) (ha : t.AllAllowed N K maxSize lib evs) :
    Option.Rel (Agree N K maxSize) (plainSession lib maxSize c evs) (treeSession lib t evs) := by
  induction evs generalizing c t with
  | nil => exact .some ⟨rfl, h⟩
  | cons ev evs ih =>
    obtain ⟨hev,hrest⟩ := ha
    refine rel_bind (event_holds hmin hmax hN lib h ev hev) fun x x' hx' hx => ?_
    have hallowed := hrest x'.2 (congrArg (Option.map Prod.snd) hx')
    refine rel_map (ih hx.2 hallowed) fun y y' hy => ⟨?_, hy.2⟩
    exact congrArg₂ _ hx.1 hy.1

end

section
variable (N : Str → Prop) (K : Inum → Prop) [DecidablePred N] [DecidablePred K] (maxSize : ℕ)
    (t : Tree)

instance decidableMakes (parent : Inum) (x : Entry) : Decidable (t.Makes N K parent x) :=
  decidable_of_iff (Dir.isfile parent = false ∧ N x.name ∧ K x.inum ∧ t.stat x.inum = none ∧
      ∀ es ∈ t.dirs parent, (render (es ++ [x])).length < 2^31)
    ⟨fun ⟨hdir,hname,hinum,hfresh,hroom⟩ => ⟨hdir, hname, hinum, hfresh, hroom⟩,
      fun h => ⟨h.dir, h.name, h.inum, h.fresh, h.room⟩⟩

instance decidableAllowed : (ev : Event) → Decidable (t.Allowed N K maxSize ev)
  | .request (.create parent name rand) | .request (.mknod parent name rand) =>
    decidableMakes N K t parent ⟨Dir.generateFileInum rand, name⟩
  | .request (.mkdir parent name rand) =>
    decidableMakes N K t parent ⟨Dir.generateDirInum rand, name⟩
  | .request (.lookup parent name) =>
    inferInstanceAs (Decidable (Dir.isfile parent = false ∧ N name))
  | .request (.unlink parent name) =>
    inferInstanceAs (Decidable (Dir.isfile parent = false ∧ N name ∧
      ∀ es ∈ t.dirs parent, InumHit (render es) name))
  | .request (.setattr ino _ _) | .request (.read ino _ _) =>
    inferInstanceAs (Decidable (Dir.isfile ino = true))
  | .request (.write ino mem size off) =>
    inferInstanceAs (Decidable (Dir.isfile ino = true ∧ size ≤ mem.length ∧
      (nul ∈ mem ∧ (File.cstr mem).length ≤ maxSize) ∧ off + size ≤ maxSize ∧
        File.NulsAtEnd (mem.take size)))
  | .request (.getattr _) | .request (.readdir _ _ _) | .request
      (.openFile _) | .request .statfs | .mount
  | .flush _ => isTrue trivial

instance decidableAllAllowed (lib : Libfuse) (evs : List Event) :
    Decidable (t.AllAllowed N K maxSize lib evs) :=
  RunAll.decidable _ _ t evs

end

/-- A file is made in a new directory and written with a gap, both are written back, and it is
looked up, unlinked and read by its inum. -/
def mkdirToUnlink : List Event :=
  [.mount, .request (.mkdir 1 ['d'] 7), .request (.create 7 ['a'] 5),
    .request (.write 0x80000005 ['x', nul] 1 1), .flush 0x80000005, .flush 7,
    .request (.lookup 7 ['a']), .request (.readdir 1 100 0), .request (.unlink 7 ['a']),
    .request (.lookup 7 ['a']), .request (.read 0x80000005 9 0)]

end Yfs.Fuse
