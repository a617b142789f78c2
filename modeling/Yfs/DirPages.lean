import Mathlib.Algebra.Group.Nat.Defs
import Yfs.FuseCache

namespace Yfs.Fuse
open Yfs.Dir (Str Inum Entry NameOk render)

/-- How the kernel takes the entries out of a page, each with the offset that is stored with it. An
entry that is cut off at the end of the page is not taken. -/
structure DirReader (lib : Libfuse) where
  dirents : Str → List (Str × Inum × ℕ)
  Fits : Str → Prop
  dirents_nil : dirents [] = []
  dirents_cons : ∀ name ino off rest, Fits name → off < 2^64 →
    dirents (lib.addDirent name ino off ++ rest) = (name, ino, off) :: dirents rest
  dirents_short : ∀ name ino off n, Fits name → off < 2^64 → n < lib.direntSize name.length →
    dirents ((lib.addDirent name ino off).take n) = []

/-- The extents, the offset of the next page, and the entries that have been taken. -/
structure Reading where
  content : Inum → Option Str
  off : ℕ
  seen : List (Str × Inum)

inductive ReadAct
  | event (ev : Event)
  | page (size : ℕ)

namespace Reading

def take (s : Reading) (es : List (Str × Inum × ℕ)) : Reading :=
  ⟨s.content, (es.getLast?.map fun x => x.2.2).getD s.off, s.seen ++ es.map fun x => (x.1, x.2.1)⟩

def readdir (lib : Libfuse) (ino : Inum) (s : Reading) (size : ℕ) :
    Option (Reply Unit × (Inum → Option Str)) :=
  (fuseserverReaddir lib ino size s.off).exec plainOps [] s.content

def step {lib : Libfuse} (K : DirReader lib) (maxSize : ℕ) (ino : Inum) (s : Reading) :
    ReadAct → Option Reading
  | .event ev =>
    (ev.handle plainOps (fun c _ => some c) plainView lib maxSize s.content).map fun x =>
      ⟨x.2, s.off, s.seen⟩
  | .page size =>
    match s.readdir lib ino size with
    | some (.buf b, content) => some (Reading.take ⟨content, s.off, s.seen⟩ (K.dirents b))
    | _ => none

end Reading

/-- The event takes nothing out of the directory and does not write over it, and a name that it
adds to it can be told. -/
def Event.KeepsDir (ino : Inum) : Event → Prop
  | .mount => ino ≠ Dir.rootDirInum
  | .request (.setattr i _ _) | .request (.write i _ _ _) => i ≠ ino
  | .request (.create parent name _) | .request (.mknod parent name _) => parent = ino → NameOk name
  | .request (.mkdir parent name rand) =>
    (parent = ino → NameOk name) ∧ (parent ≠ ino → Dir.generateDirInum rand ≠ ino)
  | .request (.unlink parent _) => parent ≠ ino
  | _ => True

/-- Every entry fits into a page. -/
def ReadAct.Fine {lib : Libfuse} (K : DirReader lib) (ino : Inum) (s : Reading) : ReadAct → Prop
  | .event ev => ev.KeepsDir ino
  | .page size => ∀ buffer ∈ s.content ino, buffer.length ≤ 2^31 ∧ ∀ xs ∈ Dir.dirbufAdds buffer,
      (dirbuf lib xs).length < 2^64 ∧ ∀ x ∈ xs, K.Fits x.1 ∧ lib.direntSize x.1.length ≤ size

/-- The entries as they are passed to `dirbuf_add`. -/
def shown (es : List Entry) : List (Str × Inum) := es.map fun x => (File.cstr x.name, x.inum)

section
variable (lib : Libfuse)

/-- What entries add to a buffer of this length. -/
def dirbufFrom : ℕ → List (Str × Inum) → Str
  | _, [] => []
  | off, x :: xs => lib.addDirent x.1 x.2 (off + lib.direntSize x.1.length) ++
      dirbufFrom (off + lib.direntSize x.1.length) xs

/-- Entries with the offsets that are stored with them. -/
def stamped : ℕ → List (Str × Inum) → List (Str × Inum × ℕ)
  | _, [] => []
  | off, x :: xs =>
    (x.1, x.2, off + lib.direntSize x.1.length) :: stamped (off + lib.direntSize x.1.length) xs

theorem foldl_dirbufAdd (b : Str) (xs : List (Str × Inum)) :
    xs.foldl (dirbufAdd lib) b = b ++ dirbufFrom lib b.length xs := by
  induction xs generalizing b with
  | nil => rw [List.foldl_nil, dirbufFrom, List.append_nil]
  | cons x xs ih =>
    rw [List.foldl_cons, ih, dirbufAdd, dirbufFrom, List.length_append, lib.length_addDirent,
      List.append_assoc]

theorem dirbuf_append (xs ys : List (Str × Inum)) :
    dirbuf lib (xs ++ ys) = dirbuf lib xs ++ dirbufFrom lib (dirbuf lib xs).length ys := by
  rw [dirbuf, List.foldl_append, foldl_dirbufAdd]
  rfl

theorem map_stamped (off : ℕ) (xs : List (Str × Inum)) :
    (stamped lib off xs).map (fun x => (x.1, x.2.1)) = xs := by
  induction xs generalizing off with
  | nil => rfl
  | cons x xs ih => rw [stamped, List.map_cons, ih]

/-- The offset of the last entry is where the next page begins. -/
theorem last_stamped (off : ℕ) (xs : List (Str × Inum)) :
    ((stamped lib off xs).getLast?.map fun x => x.2.2).getD off = off +
    (dirbufFrom lib off xs).length := by
  induction xs generalizing off with
  | nil => rfl
  | cons x xs ih =>
    rw [dirbufFrom, List.length_append, lib.length_addDirent, ← Nat.add_assoc, ← ih, stamped]
    cases xs with
    | nil => rfl
    | cons y ys => rfl

theorem replyBufLimited_eq (buf : Str) (off size : ℕ) :
    replyBufLimited buf off size = (buf.drop off).take size := by
  unfold replyBufLimited
  split_ifs with h
  · rw [← List.length_drop, Nat.min_comm, ← List.take_eq_take_min]
  · rw [List.drop_of_length_le (Nat.le_of_not_lt h), List.take_nil]

variable {lib} (K : DirReader lib)

/-- The page holds the first of the entries, as many as are not cut off. -/
theorem dirents_take (n : ℕ) (xs : List (Str × Inum)) (off : ℕ) (hfits : ∀ x ∈ xs, K.Fits x.1)
    (hoff : off + (dirbufFrom lib off xs).length < 2^64) :
    ∃ k, K.dirents ((dirbufFrom lib off xs).take n) = stamped lib off (xs.take k) ∧
      (k = 0 → ∀ x ∈ xs.head?, n < lib.direntSize x.1.length) := by
  induction xs generalizing n off with
  | nil => exact ⟨0, by rw [dirbufFrom, List.take_nil, K.dirents_nil]; rfl,
      fun _ _ hx => by cases hx⟩
  | cons x xs ih =>
    rw [List.forall_mem_cons] at hfits
    rw [dirbufFrom, List.length_append, lib.length_addDirent] at hoff
    by_cases hn : n < lib.direntSize x.1.length
    · refine ⟨0, ?_, fun _ y hy => ?_⟩
      · rw [dirbufFrom, List.take_append_of_le_length (by rw [lib.length_addDirent]; omega),
          K.dirents_short _ _ _ _ hfits.1 (by omega) hn]
        rfl
      · cases hy
        exact hn
    · obtain ⟨k,hk,-⟩ :=
        ih (n - lib.direntSize x.1.length) (off + lib.direntSize x.1.length) hfits.2 (by omega)
      refine ⟨k + 1, ?_, fun h => absurd h (Nat.succ_ne_zero k)⟩
      rw [dirbufFrom, List.take_append, lib.length_addDirent,
        List.take_of_length_le (by rw [lib.length_addDirent]; omega),
        K.dirents_cons _ _ _ _ hfits.1 (by omega), hk]
      rfl

end

section
variable {ρ : Type*} {ino : Inum} {c c' : Inum → Option Str}

theorem exec_spares {p : StoreProg Inum Str ℕ ρ} (hp : p.Spares ino) {held : List Inum} {r : ρ}
    (h : p.exec plainOps held c = some (r, c')) : c' ino = c ino := by
  induction p generalizing held c with
  | ret r' =>
    rw [StoreProg.exec] at h
    split_ifs at h
    cases h
    rfl
  | acquire e k ih =>
    rw [StoreProg.exec] at h
    split_ifs at h
    exact ih hp h
  | release e k ih =>
    rw [StoreProg.exec] at h
    split_ifs at h
    exact ih hp h
  | get e k ih =>
    rw [StoreProg.exec] at h
    split_ifs at h
    obtain ⟨⟨v,d⟩,hv,h⟩ := Option.bind_eq_some_iff.mp h
    obtain ⟨w,-,hw⟩ := Option.map_eq_some_iff.mp hv
    cases hw
    exact ih v (hp v) h
  | getattr e k ih =>
    rw [StoreProg.exec] at h
    split_ifs at h
    obtain ⟨a,-,h⟩ := Option.bind_eq_some_iff.mp h
    exact ih a (hp a) h
  | put e v k ih =>
    rw [StoreProg.exec] at h
    split_ifs at h
    rw [ih hp.2 h]
    exact Function.update_of_ne (Ne.symm hp.1) _ _
  | remove e k ih =>
    exact ih hp h
  | undef => cases h

variable {α τ : Type*} (view : α → τ × ℕ)

theorem spares_getattr (i : Inum) {k : Stat τ → StoreProg Inum Str α (Reply τ)}
    (hk : ∀ st, (k st).Spares ino) :
    (getattr view i k).Spares ino := by
  unfold getattr getInfo
  split_ifs <;> exact fun a => hk _

theorem spares_afterCreate (i : Inum) (reply : EntryParam τ → Reply τ) (other : Errno)
    (r : Dir.Result) :
    (afterCreate view i reply other r).Spares ino := by
  cases r with
  | status st =>
    cases st with
    | ok =>
      change (getattr view i fun st => .ret (reply (entryParam i st))).Spares ino
      exact spares_getattr view i fun _ => trivial
    | _ => trivial
  | _ => trivial

theorem spares_createEntry {parent : Inum} {x : Entry} (hparent : parent ≠ ino)
    (hx : x.inum ≠ ino) :
    (Dir.createEntry parent x).Spares ino := by
  intro buffer
  beta_reduce
  split_ifs
  · trivial
  · exact ⟨hx, hparent, trivial⟩

theorem spares_unlink {parent : Inum} (hparent : parent ≠ ino) (name : Str) :
    (Dir.unlink parent name).Spares ino := by
  intro buffer
  beta_reduce
  rcases Dir.lookupInum buffer name with _ | _ | i
  · trivial
  · trivial
  · intro buffer'
    beta_reduce
    cases Dir.unlinkRest buffer' name i with
    | none => trivial
    | some rest =>
      refine ⟨hparent, ?_⟩
      unfold Dir.removeFiles
      split_ifs <;> trivial

theorem spares_writeMem (maxSize : ℕ) {i : Inum} (hi : i ≠ ino) (mem : Str) (size off : ℕ) :
    (File.writeMem maxSize i mem size off).Spares ino := by
  rw [File.writeMem]
  split
  · trivial
  · intro fileData
    beta_reduce
    split
    · trivial
    · exact ⟨hi, trivial⟩

/-- The request puts nothing under this inum. -/
def Request.Spares (ino : Inum) : Request → Prop
  | .setattr i _ _ | .write i _ _ _ => i ≠ ino
  | .create parent _ rand | .mknod parent _ rand => parent ≠ ino ∧ Dir.generateFileInum rand ≠ ino
  | .mkdir parent _ rand => parent ≠ ino ∧ Dir.generateDirInum rand ≠ ino
  | .unlink parent _ => parent ≠ ino
  | _ => True

theorem spares_handler (lib : Libfuse) (maxSize : ℕ) {r : Request} (h : r.Spares ino) :
    (r.handler view lib maxSize).Spares ino := by
  cases r with
  | getattr i =>
    change (getattr view i fun st => .ret (.attr st)).Spares ino
    exact spares_getattr view i fun _ => trivial
  | setattr i stSize toSet =>
    change (fuseserverSetattr view i stSize toSet).Spares ino
    unfold fuseserverSetattr
    split_ifs
    · refine Prog.spares_andThen (fun _ => ⟨h, trivial⟩) fun r => ?_
      split
      · exact spares_getattr view i fun _ => trivial
      · trivial
    · trivial
  | read i size off =>
    refine Prog.spares_andThen (fun _ => trivial) fun r => ?_
    split <;> trivial
  | write i mem size off =>
    exact Prog.spares_andThen (spares_writeMem maxSize h mem size off) fun _ => trivial
  | create parent name rand =>
    exact Prog.spares_andThen (spares_createEntry h.1 h.2) (spares_afterCreate view _ _ _)
  | mknod parent name rand =>
    exact Prog.spares_andThen (spares_createEntry h.1 h.2) (spares_afterCreate view _ _ _)
  | mkdir parent name rand =>
    exact Prog.spares_andThen (spares_createEntry h.1 h.2) (spares_afterCreate view _ _ _)
  | lookup parent name =>
    refine Prog.spares_andThen (fun buffer => ?_) fun r => ?_
    · beta_reduce
      rcases Dir.lookupInum buffer name with _ | _ | i <;> trivial
    · split
      · exact spares_getattr view _ fun _ => trivial
      · trivial
  | readdir i size off =>
    change (fuseserverReaddir lib i size off).Spares ino
    unfold fuseserverReaddir
    split_ifs
    · trivial
    · refine Prog.spares_andThen (fun _ => trivial) fun r => ?_
      split
      · split <;> trivial
      · trivial
  | unlink parent name =>
    refine Prog.spares_andThen (spares_unlink h name) fun r => ?_
    split <;> trivial
  | _ => trivial

/-- An entry is added to the directory at its end, or not at all. -/
theorem exec_createEntry {buffer : Str} (hc : c ino = some buffer) (x : Entry)
    {k : Dir.Result → StoreProg Inum Str ℕ ρ} (hk : ∀ r, (k r).Spares ino) {r : ρ}
    (h : ((Dir.createEntry ino x).andThen k).exec plainOps [] c = some (r, c')) :
    c' ino = some buffer ∨ c' ino = some (buffer ++ x.text) := by
  by_cases hfind : Text.find x.name buffer = none
  · by_cases hx : x.inum = ino
    · simp [Dir.createEntry, Prog.andThen, StoreProg.exec, plainOps, hc, hfind, hx] at h
    · simp [Dir.createEntry, Prog.andThen, StoreProg.exec, plainOps, hc, hfind, hx] at h
      rw [exec_spares (hk _) h]
      exact .inr (Function.update_self _ _ _)
  · simp [Dir.createEntry, Prog.andThen, StoreProg.exec, plainOps, hc, hfind] at h
    rw [exec_spares (hk _) h]
    exact .inl hc

end

section
variable {lib : Libfuse} (K : DirReader lib) (maxSize : ℕ) {ino : Inum}

theorem handle_keepsDir (hino : Dir.isfile ino = false) {ev : Event} (h : ev.KeepsDir ino)
    {c : Inum → Option Str}
    {es : List Entry} (hc : c ino = some (render es)) {x : List (Reply Unit) × (Inum → Option Str)}
    (hx : ev.handle plainOps (fun c _ => some c) plainView lib maxSize c = some x) :
    x.2 ino = some (render es) ∨ ∃ e, NameOk e.name ∧ x.2 ino = some (render (es ++ [e])) := by
  have hspares {r : Request} {y : Reply Unit × (Inum → Option Str)}
      (hy : (r.handler plainView lib maxSize).exec plainOps [] c = some y) (hr : r.Spares ino) :
      y.2 ino = some (render es) := by
    rw [exec_spares (spares_handler plainView lib maxSize hr) hy, hc]
  have hcreate {parent : Inum} {e : Entry} {reply : EntryParam Unit → Reply Unit} {other : Errno}
      (hname : parent = ino → NameOk e.name) (hinum : parent ≠ ino → e.inum ≠ ino)
        {y : Reply Unit × (Inum → Option Str)}
      (hy : ((Dir.createEntry parent e).andThen (afterCreate plainView e.inum reply other)).exec
        plainOps [] c = some y) :
      y.2 ino = some (render es) ∨ ∃ e, NameOk e.name ∧ y.2 ino = some (render (es ++ [e])) := by
    by_cases hparent : parent = ino
    · subst hparent
      refine (exec_createEntry hc e (spares_afterCreate plainView _ _ _) hy).imp_right
        fun hgrown => ⟨e, hname rfl, ?_⟩
      rw [hgrown, Dir.render_snoc]
    · have hp := Prog.spares_andThen (spares_createEntry hparent (hinum hparent))
        (spares_afterCreate plainView e.inum reply other)
      rw [exec_spares hp hy, hc]
      exact .inl rfl
  have hfile (rand : BitVec 31) : Dir.generateFileInum rand ≠ ino := fun heq => by
    rw [← heq, Dir.isfile_generateFileInum] at hino
    cases hino
  cases ev with
  | mount =>
    rw [Event.handle] at hx
    obtain ⟨y,hy,rfl⟩ := Option.map_eq_some_iff.mp hx
    have hp : (Dir.mount.andThen fun _ => (.ret () : StoreProg Inum Str ℕ Unit)).Spares ino :=
      ⟨Ne.symm h, trivial⟩
    exact .inl (by rw [exec_spares hp hy, hc])
  | flush eid =>
    cases hx
    exact .inl hc
  | request r =>
    obtain ⟨y,hy,rfl⟩ := Option.map_eq_some_iff.mp hx
    cases r with
    | create parent name rand => exact hcreate (e := ⟨_, name⟩) h (fun _ => hfile rand) hy
    | mknod parent name rand => exact hcreate (e := ⟨_, name⟩) h (fun _ => hfile rand) hy
    | mkdir parent name rand => exact hcreate h.1 h.2 hy
    | setattr i stSize toSet => exact .inl (hspares hy h)
    | write i mem size off => exact .inl (hspares hy h)
    | unlink parent name => exact .inl (hspares hy h)
    | _ => exact .inl (hspares hy trivial)

/-- What has been taken is the beginning of the directory, and the next page begins behind it. -/
structure Reading.At (lib : Libfuse) (ino : Inum) (es0 : List Entry) (s : Reading)
    (es : List Entry) : Prop where
  content : s.content ino = some (render es)
  names : ∀ x ∈ es, NameOk x.name
  grown : es0 <+: es
  seen : s.seen <+: shown es
  off : s.off = (dirbuf lib s.seen).length

variable {es0 es : List Entry} {s s' : Reading}

/-- A page moves on by the entries it holds, and holds one if there is one. -/
theorem page_step (hino : Dir.isfile ino = false) (h : s.At lib ino es0 es) {size : ℕ}
    (hfine : (ReadAct.page size).Fine K ino s) :
    ∃ s' new, s.step K maxSize ino (.page size) = some s' ∧ s'.At lib ino es0 es ∧
    s'.seen = s.seen ++ new ∧
      (new = [] → s.seen = shown es) := by
  obtain ⟨hlen,hfine⟩ := hfine _ h.content
  have hadds := Dir.dirbufAdds_render es h.names hlen
  obtain ⟨rest,hrest⟩ := h.seen
  obtain ⟨hsize,hfits⟩ := hfine (shown es) hadds
  rw [← hrest] at hsize hfits
  rw [dirbuf_append, List.length_append, ← h.off] at hsize
  have hfits' := fun x hx => hfits x (List.mem_append_right _ hx)
  obtain ⟨k,hk,hzero⟩ := dirents_take K size rest s.off (fun x hx => (hfits' x hx).1) hsize
  have hread : s.readdir lib ino size = some (.buf ((dirbufFrom lib s.off rest).take size),
      s.content) := by
    have hpage : replyBufLimited (dirbuf lib (shown es)) s.off size =
        (dirbufFrom lib s.off rest).take size := by
      rw [replyBufLimited_eq, ← hrest, dirbuf_append, h.off, List.drop_left]
    simp [Reading.readdir, fuseserverReaddir, hino, Dir.readdir, Prog.andThen, StoreProg.exec,
      plainOps, h.content, hadds, ← hpage, shown]
  refine ⟨_, rest.take k, by rw [Reading.step, hread], ?_, ?_, fun hnew => ?_⟩
  · rw [hk]
    refine ⟨h.content, h.names, h.grown, ?_, ?_⟩
    · rw [Reading.take, map_stamped, ← hrest]
      exact (List.prefix_append_right_inj _).mpr ( List.take_prefix _ _)
    · simp only [Reading.take, map_stamped, dirbuf_append, List.length_append,
        last_stamped, ← h.off]
  · rw [hk, Reading.take, map_stamped]
  · -- nothing is left, as the first entry would fit into the page
    cases rest with
    | nil => rw [← hrest, List.append_nil]
    | cons x rest =>
      have hk0 : k = 0 := by
        cases k with
        | zero => rfl
        | succ k => cases hnew
      exact absurd (hzero hk0 x rfl) (Nat.not_lt.mpr (hfits' x List.mem_cons_self).2)

theorem at_step (hino : Dir.isfile ino = false) (h : s.At lib ino es0 es) (a : ReadAct)
    (hfine : a.Fine K ino s)
    (hs : s.step K maxSize ino a = some s') : ∃ es', s'.At lib ino es0 es' := by
  cases a with
  | event ev =>
    obtain ⟨x,hx,rfl⟩ := Option.map_eq_some_iff.mp hs
    rcases handle_keepsDir maxSize hino hfine h.content hx with hsame | ⟨e,he,hgrown⟩
    · exact ⟨es, hsame, h.names, h.grown, h.seen, h.off⟩
    · refine ⟨es ++ [e], hgrown, ?_, h.grown.trans (List.prefix_append _ _), ?_, h.off⟩
      · exact List.forall_mem_append.mpr ⟨h.names, List.forall_mem_singleton.mpr he⟩
      · rw [shown, List.map_append]
        exact h.seen.trans (List.prefix_append _ _)
  | page size =>
    obtain ⟨t,_,ht,hat,-⟩ := page_step K maxSize hino h hfine
    rw [ht] at hs
    cases hs
    exact ⟨es, hat⟩

/-- A directory can be read in pages while entries are added to it: what has been taken at any time
is the beginning of the directory, with every entry once and in order. The next page goes on from
there, and when it holds nothing, all that is in the directory has been taken. -/
theorem readdir_pages (hino : Dir.isfile ino = false) {c : Inum → Option Str} {es : List Entry}
    (hc : c ino = some (render es)) (hes : ∀ x ∈ es, NameOk x.name) (acts : List ReadAct)
    (hacts : RunAll (Reading.step K maxSize ino) (fun s a => a.Fine K ino s) ⟨c, 0, []⟩ acts)
    {s : Reading} (hr : run (Reading.step K maxSize ino) ⟨c, 0, []⟩ acts = some s) :
    ∃ es', es <+: es' ∧ s.content ino = some (render es') ∧ s.seen <+: shown es' ∧
      ∀ size, (ReadAct.page size).Fine K ino s → ∃ s' new,
      s.step K maxSize ino (.page size) = some s' ∧
        s'.seen = s.seen ++ new ∧ s'.seen <+: shown es' ∧ (new = [] → s.seen = shown es') := by
  have hstart : Reading.At lib ino es ⟨c, 0, []⟩ es :=
    ⟨hc, hes, List.prefix_rfl, List.nil_prefix, rfl⟩
  obtain ⟨es',h⟩ := run_invariant_of_all _ _ (fun s => ∃ es', s.At lib ino es es')
    (fun s a s' ⟨es',h⟩ hfine hs => at_step K maxSize hino h a hfine hs) _ s acts ⟨es, hstart⟩ hacts
      hr
  refine ⟨es', h.grown, h.content, h.seen, fun size hfine => ?_⟩
  obtain ⟨s',new,hs',hat,hnew,hend⟩ := page_step K maxSize hino h hfine
  exact ⟨s', new, hs', hnew, hat.seen, hend⟩

end

def ofLeBytes : Str → ℕ
  | [] => 0
  | b :: bs => b.toNat + 256 * ofLeBytes bs

theorem ofLeBytes_leBytes {k n : ℕ} (h : n < 256^k) : ofLeBytes (leBytes k n) = n := by
  induction k generalizing n with
  | zero => exact (Nat.lt_one_iff.mp h).symm
  | succ k ih =>
    have hvalid : (n % 256).isValidChar := Or.inl (by omega)
    have hbyte : (Char.ofNat (n % 256)).toNat = n % 256 := by
      rw [Char.ofNat, dif_pos hvalid]
      rfl
    have hrest : n / 256 < 256^k := Nat.div_lt_of_lt_mul (by rwa [Nat.pow_succ, Nat.mul_comm] at h)
    rw [leBytes, ofLeBytes, hbyte, ih hrest]
    exact Nat.mod_add_div n 256

/-- `parse_dirfile`, for at most so many entries. -/
def parseDirfile : ℕ → Str → List (Str × Inum × ℕ)
  | 0, _ => []
  | fuel + 1, b =>
    if b.length < 24 ∨ b.length < fuseDirentSize (ofLeBytes ((b.drop 16).take 4)) then []
    else ((b.drop 24).take (ofLeBytes ((b.drop 16).take 4)), BitVec.ofNat 64 (ofLeBytes (b.take 8)),
        ofLeBytes ((b.drop 8).take 8)) ::
      parseDirfile fuel (b.drop (fuseDirentSize (ofLeBytes ((b.drop 16).take 4))))

theorem parseDirfile_fuel (fuel fuel' : ℕ) (b : Str) (h : b.length ≤ fuel) (h' : b.length ≤ fuel') :
    parseDirfile fuel b = parseDirfile fuel' b := by
  induction fuel generalizing fuel' b with
  | zero =>
    cases fuel' with
    | zero => rfl
    | succ fuel' => rw [parseDirfile, parseDirfile, if_pos (Or.inl (by omega))]
  | succ fuel ih =>
    cases fuel' with
    | zero => rw [parseDirfile, parseDirfile, if_pos (Or.inl (by omega))]
    | succ fuel' =>
      have hge := fuseDirentSize_ge (ofLeBytes ((b.drop 16).take 4))
      rw [parseDirfile, parseDirfile, ih fuel' _ (by rw [List.length_drop]; omega)
        (by rw [List.length_drop]; omega)]

/-- The fields of a record that is not cut off. -/
theorem fuseDirent_fields (name : Str) (ino : Inum) (off : ℕ) (rest : Str) :
    (fuseDirent name ino off ++ rest).take 8 = leBytes 8 ino.toNat ∧
      ((fuseDirent name ino off ++ rest).drop 8).take 8 = leBytes 8 off ∧
      ((fuseDirent name ino off ++ rest).drop 16).take 4 = leBytes 4 name.length ∧
      ((fuseDirent name ino off ++ rest).drop 24).take name.length = name := by
  have hdrop (k n m : ℕ) (h : k ≤ m) : (leBytes k n).drop m = [] :=
    List.drop_of_length_le (by rwa [length_leBytes])
  simp [fuseDirent, List.drop_append, length_leBytes, hdrop]

theorem parseDirfile_fuseDirent {name : Str} (ino : Inum) {off : ℕ} (rest : Str)
    (hname : name.length < 2^32) (hoff : off < 2^64) :
    parseDirfile (fuseDirent name ino off ++ rest).length (fuseDirent name ino off ++ rest) =
      (name, ino, off) :: parseDirfile rest.length rest := by
  obtain ⟨hino,hoff',hlen,hname'⟩ := fuseDirent_fields name ino off rest
  have hge := fuseDirentSize_ge name.length
  have hsize : (fuseDirent name ino off ++ rest).length = fuseDirentSize name.length +
      rest.length := by
    rw [List.length_append, length_fuseDirent]
  obtain ⟨fuel,hfuel⟩ : ∃ fuel, fuseDirentSize name.length + rest.length = fuel + 1 :=
    ⟨fuseDirentSize name.length + rest.length - 1, by omega⟩
  have hread : ofLeBytes (leBytes 8 ino.toNat) = ino.toNat ∧ ofLeBytes (leBytes 8 off) = off ∧
      ofLeBytes (leBytes 4 name.length) = name.length :=
    ⟨ofLeBytes_leBytes ino.isLt, ofLeBytes_leBytes hoff, ofLeBytes_leBytes hname⟩
  rw [hsize, hfuel, parseDirfile, hlen, hread.2.2, if_neg (by omega), hname', hino, hoff', hread.1,
    hread.2.1, BitVec.ofNat_toNat, BitVec.setWidth_eq,
    List.drop_append_of_le_length (by rw [length_fuseDirent]),
    List.drop_of_length_le (by rw [length_fuseDirent]), List.nil_append,
    parseDirfile_fuel fuel rest.length rest (by omega) le_rfl]

theorem parseDirfile_short {name : Str} (ino : Inum) (off : ℕ) {n : ℕ} (hname : name.length < 2^32)
    (hn : n < fuseDirentSize name.length) (fuel : ℕ) :
    parseDirfile fuel ((fuseDirent name ino off).take n) = [] := by
  cases fuel with
  | zero => rfl
  | succ fuel =>
    have hsize : ((fuseDirent name ino off).take n).length = n := by
      rw [List.length_take, length_fuseDirent]
      omega
    rw [parseDirfile, if_pos]
    -- the header is there, or else the record is too short for one
    refine or_iff_not_imp_left.mpr fun hheader => ?_
    obtain ⟨-,-,hlen,-⟩ := fuseDirent_fields name ino off []
    rw [List.append_nil] at hlen
    have hread : ofLeBytes (leBytes 4 name.length) = name.length := ofLeBytes_leBytes hname
    rw [List.drop_take, List.take_take, Nat.min_eq_left (by omega), hlen, hread, hsize]
    exact hn

def fuseReader : DirReader fuseLib where
  dirents := fun b => parseDirfile b.length b
  Fits := fun name => name.length < 2^32
  dirents_nil := rfl
  dirents_cons := fun _ ino _ rest hname hoff => parseDirfile_fuseDirent ino rest hname hoff
  dirents_short := fun _ ino off _ hname _ hn => parseDirfile_short ino off hname hn _

instance decidableFits (name : Str) : Decidable (fuseReader.Fits name) :=
  inferInstanceAs (Decidable (name.length < 2^32))

instance decidableKeepsDir (ino : Inum) : (ev : Event) → Decidable (ev.KeepsDir ino)
  | .mount => inferInstanceAs (Decidable (ino ≠ Dir.rootDirInum))
  | .request (.setattr i _ _) | .request (.write i _ _ _) => inferInstanceAs (Decidable (i ≠ ino))
  | .request (.create parent name _) | .request (.mknod parent name _) =>
    inferInstanceAs (Decidable (parent = ino → NameOk name))
  | .request (.mkdir parent name rand) => inferInstanceAs (Decidable
      ((parent = ino → NameOk name) ∧ (parent ≠ ino → Dir.generateDirInum rand ≠ ino)))
  | .request (.unlink parent _) => inferInstanceAs (Decidable (parent ≠ ino))
  | .request (.getattr _) | .request (.read _ _ _) | .request (.lookup _ _)
  | .request (.readdir _ _ _) | .request (.openFile _) | .request .statfs | .flush _ =>
    isTrue trivial

instance decidableFine (ino : Inum) (s : Reading) :
    (a : ReadAct) → Decidable (a.Fine fuseReader ino s)
  | .event ev => inferInstanceAs (Decidable (ev.KeepsDir ino))
  | .page size => inferInstanceAs (Decidable (∀ buffer ∈ s.content ino, buffer.length ≤ 2^31 ∧
      ∀ xs ∈ Dir.dirbufAdds buffer, (dirbuf fuseLib xs).length < 2^64 ∧
        ∀ x ∈ xs, fuseReader.Fits x.1 ∧ fuseLib.direntSize x.1.length ≤ size))

/-- The root directory with two entries. -/
def rootAB (e : Inum) : Option Str := if e = 1 then some (render [⟨0x80000005, ['a']⟩, ⟨9, ['b']⟩])
    else none

/-- A third entry is added between two pages, the first of which has room for one entry. -/
def pageCreatePage : List ReadAct :=
  [.page 32, .event (.request (.create 1 ['c'] 7)), .page 64]

theorem readdir_pages_create :
    ∃ s, run (Reading.step fuseReader (2^32) 1) ⟨rootAB, 0, []⟩ pageCreatePage = some s ∧
      s.seen = [(['a'], 0x80000005), (['b'], 9), (['c'], 0x80000007)] ∧
      ∃ es', [⟨0x80000005, ['a']⟩, ⟨9, ['b']⟩] <+: es' ∧ s.seen <+: shown es' := by
  have hrun : ∃ s, run (Reading.step fuseReader (2^32) 1) ⟨rootAB, 0, []⟩ pageCreatePage = some s ∧
      s.seen = [(['a'], 0x80000005), (['b'], 9), (['c'], 0x80000007)] := by decide +kernel
  obtain ⟨s,hr,hseen⟩ := hrun
  have hino : Dir.isfile 1 = false := rfl
  obtain ⟨es',hgrown,-,htaken,-⟩ :=
    readdir_pages fuseReader (2^32) hino rfl (by decide) pageCreatePage (by decide +kernel) hr
  exact ⟨s, hr, hseen, es', hgrown, htaken⟩

/-- An unlink moves the entries that follow to the front, and one of them is passed over. -/
example :
    ∃ s, run (Reading.step fuseReader (2^32) 1) ⟨Function.update rootAB 0x80000005 (some []), 0, []⟩
    [.page 32, .event (.request (.unlink 1 ['a'])), .page 32, .page 32] = some s ∧
      s.seen = [(['a'], 0x80000005)] ∧ s.content 1 = some (render [⟨9, ['b']⟩]) := by decide +kernel

end Yfs.Fuse
