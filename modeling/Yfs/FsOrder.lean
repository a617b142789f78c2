import Yfs.Inums
import Yfs.LockOrder

/-! The locks of `yfs_client`. A create holds its directory while it takes the lock of the new
inum, and an unlink while it takes the lock of what it removes; all other calls hold one lock at
a time. Directories are taken in the order in which the first entries are made in them, and
files last. -/
namespace Yfs.Fs
open Yfs.Dir (Str Inum Entry isfile isfile_generateFileInum isfile_generateDirInum generateFileInum
  generateDirInum
  lookupInum)

/-- An unlink finds files. -/
def Call.readOk : Call → Inum → Str → Prop
  | .dir (.unlink _ name) => fun _ buffer => ∀ i, lookupInum buffer name = some (some i) →
    isfile i = true
  | _ => fun _ _ => True

section programs
variable {rank : Inum → ℕ}

theorem createEntry_ordered {ok : Inum → Str → Prop} {parent : Inum} {x : Entry}
    (h : rank parent < rank x.inum) :
    (Dir.createEntry parent x).Ordered rank ok ∅ := by
  refine ⟨by simp, fun buffer _ => ?_⟩
  beta_reduce
  split_ifs
  · simp [Prog.Ordered]
  · refine ⟨by simpa using h, ?_⟩
    simp [Prog.Ordered]

theorem unlink_ordered
    {parent : Inum} {name : Str} (h : ∀ i, isfile i = true → rank parent < rank i) :
    (Dir.unlink parent name).Ordered rank (Call.readOk (.dir (.unlink parent name))) ∅ := by
  refine ⟨by simp, fun buffer hbuffer => ?_⟩
  beta_reduce
  rcases hi : lookupInum buffer name with _ | _ | i
  · trivial
  · simp [Prog.Ordered]
  · have hfile := hbuffer i hi
    have hlt := h i hfile
    refine ⟨by simp, fun buffer' _ => ?_⟩
    beta_reduce
    cases Dir.unlinkRest buffer' name i with
    | none => trivial
    | some rest =>
      simp [Prog.Ordered, Dir.removeFiles, hfile, hlt]

theorem file_ordered {ok : Inum → Str → Prop} (inum : Inum) (c : File.Call) :
    (c.body inum).Ordered rank ok ∅ := by
  cases c <;> simp [File.Call.body, File.setattr, File.read, File.write, File.getFile, Prog.Ordered]

end programs

section
variable {θ : Type*} [DecidableEq θ]

/-- The directory that a call makes an entry in. -/
def parentOf : Act θ → Option Inum
  | .call _ (.dir (.create parent _ _)) => some parent
  | .call _ (.dir (.createDir parent _ _)) => some parent
  | _ => none

/-- The directory that the lock of a second inum is taken in. -/
def directoryOf : Act θ → Option Inum
  | .call _ (.dir (.unlink parent _)) => some parent
  | a => parentOf a

/-- Entries are in directories, and no call draws the inum of a directory that it or a call
before it makes an entry in. -/
structure Placed (acts : List (Act θ)) : Prop where
  dirs : ∀ a ∈ acts, ∀ p ∈ directoryOf a, isfile p = false
  own : ∀ a ∈ acts, ∀ p ∈ parentOf a, ∀ r ∈ dirRand a, generateDirInum r ≠ p
  later : acts.Pairwise fun a b => ∀ p ∈ parentOf a, ∀ r ∈ dirRand b, generateDirInum r ≠ p

/-- The place of an inum in the order of the locks: directories in the order in which the first
entries are made in them, and then the files. -/
def lockRank (acts : List (Act θ)) (i : Inum) : ℕ :=
  if isfile i = true then acts.length + 1 else acts.findIdx fun a => decide (parentOf a = some i)

section
omit [DecidableEq θ]

theorem lockRank_le (acts : List (Act θ)) (i : Inum) : lockRank acts i ≤ acts.length + 1 := by
  rw [lockRank]
  split_ifs
  · exact le_rfl
  · exact Nat.le_succ_of_le List.findIdx_le_length

theorem lockRank_lt_file (acts : List (Act θ)) {p i : Inum} (hp : isfile p = false)
    (hi : isfile i = true) : lockRank acts p < lockRank acts i := by
  rw [lockRank, lockRank, if_pos hi, hp, if_neg Bool.false_ne_true]
  exact Nat.lt_succ_of_le List.findIdx_le_length

/-- A directory is above the one that it is made in: the first entry in it is made later. -/
theorem lockRank_lt_dir {acts : List (Act θ)} (h : Placed acts) {a : Act θ} (ha : a ∈ acts)
    {p : Inum} {r : BitVec 31} (hp : parentOf a = some p) (hr : dirRand a = some r)
    (hdir : isfile p = false) : lockRank acts p < lockRank acts (generateDirInum r) := by
  obtain ⟨l,l',rfl⟩ := List.append_of_mem ha
  have hparent : (l ++ a :: l').findIdx (fun b => decide (parentOf b = some p)) ≤ l.length := by
    rw [List.findIdx_append, List.findIdx_cons, decide_eq_true hp]
    split_ifs with hlt
    · exact hlt.le
    · exact (Nat.zero_add _).le
  have hbefore : ∀ b ∈ l, decide (parentOf b = some (generateDirInum r)) = false := by
    intro b hb
    have hpair := (List.pairwise_append.mp h.later).2.2 b hb a List.mem_cons_self
    exact decide_eq_false fun hb' => hpair _ hb' r hr rfl
  have hself : decide (parentOf a = some (generateDirInum r)) = false :=
    decide_eq_false fun ha' => h.own a ha _ ha' r hr rfl
  have hchild : l.length < (l ++ a :: l').findIdx
      fun b => decide (parentOf b = some (generateDirInum r)) := by
    rw [List.findIdx_append, List.findIdx_eq_length.mpr hbefore, if_neg (lt_irrefl _),
      List.findIdx_cons, hself, cond_false]
    omega
  rw [lockRank, lockRank, hdir, isfile_generateDirInum, if_neg Bool.false_ne_true,
    if_neg Bool.false_ne_true]
  exact hparent.trans_lt hchild

theorem body_ordered {acts : List (Act θ)} (h : Placed acts) (t : θ) (c : Call)
    (hc : .call t c ∈ acts) :
    c.body.Ordered (lockRank acts) c.readOk ∅ := by
  cases c with
  | file inum c => exact (file_ordered inum c).map
  | dir c =>
    refine Prog.Ordered.map ?_
    cases c with
    | mount => simp [Dir.Call.body, Dir.mount, Prog.Ordered]
    | create parent name rand =>
      exact createEntry_ordered
        (lockRank_lt_file acts (h.dirs _ hc parent rfl) (isfile_generateFileInum rand))
    | createDir parent name rand =>
      exact createEntry_ordered (lockRank_lt_dir h hc rfl rfl (h.dirs _ hc parent rfl))
    | lookup parent name =>
      refine ⟨by simp, fun buffer _ => ?_⟩
      beta_reduce
      rcases lookupInum buffer name with _ | _ | i <;> simp [Prog.Ordered]
    | unlink parent name =>
      exact unlink_ordered fun i hi => lockRank_lt_file acts (h.dirs _ hc parent rfl) hi
    | readdir inum => simp [Dir.Call.body, Dir.readdir, Prog.Ordered]

end

/-- What an unlink reads leads it to a file. -/
def UnlinksFile (s : Sys θ) : Act θ → Prop
  | .op (.get t e v) => ∀ r, s.threads.running t = some r → r.call.readOk e v
  | _ => True

end

def twoDirs (e : Inum) : Option Str := if e = 1 ∨ e = 2 then some [] else none

/-- Two calls of `create_dir` in the root that draw the same inum. -/
def waitingMkdir : List (Act Bool) :=
  [.call true (.dir (.createDir 1 ['a'] 5)), .op (.acquire true 1),
    .call false (.dir (.createDir 1 ['b'] 5))]

/-- If a call draws the inum of a directory that another one is making its entry in, both may
wait for each other. -/
theorem mkdirs_deadlock : ∃ s, run step (init Bool twoDirs)
    [.call true (.dir (.createDir 1 ['a'] 2)), .op (.acquire true 1), .op (.get true 1 []),
      .call false (.dir (.createDir 2 ['b'] 1)), .op (.acquire false 2), .op (.get false 2 [])] =
      some s ∧
    WaitsFor s true false ∧ WaitsFor s false true :=
  ⟨_, rfl, ⟨_, _, _, rfl, rfl, rfl⟩, ⟨_, _, _, rfl, rfl, rfl⟩⟩

end Yfs.Fs
