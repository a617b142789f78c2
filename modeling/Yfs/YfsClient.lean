import Yfs.Directory
import Yfs.ExtentCoherence
import Yfs.LockedProg

namespace Yfs.Dir
open Text

inductive Status
  | ok
  | rpcerr
  | noent
  | ioerr
  | exist
  deriving DecidableEq

/-- The constructor, and the operations with the value that `rand()` returns in
them. -/
inductive Call
  | mount
  | create (parent : Inum) (name : Str) (rand : BitVec 31)
  | createDir (parent : Inum) (name : Str) (rand : BitVec 31)
  | lookup (parent : Inum) (name : Str)
  | unlink (parent : Inum) (name : Str)
  | readdir (inum : Inum)
  deriving DecidableEq

inductive Result
  | status (s : Status)
  | inum (i : Inum)
  | buffer (buf : Str)
  deriving DecidableEq

abbrev YfsProg := Prog Inum Str Result

def rootDirInum : Inum := 0x00000001

/-- `yfs_client::yfs_client`, from the root directory on. -/
def mount : YfsProg :=
  .acquire rootDirInum (.put rootDirInum [] (.release rootDirInum (.ret (.status .ok))))

/-- The common body of `create` and `create_dir`. -/
def createEntry (parent : Inum) (x : Entry) : YfsProg :=
  .acquire parent (.get parent fun buffer =>
    if find x.name buffer ≠ none then .release parent (.ret (.status .exist))
    else .acquire x.inum (.put x.inum [] (.release x.inum
      (.put parent (buffer ++ x.text) (.release parent (.ret (.status .ok)))))))

def create (parent : Inum) (name : Str) (rand : BitVec 31) : YfsProg :=
  createEntry parent ⟨generateFileInum rand, name⟩

def createDir (parent : Inum) (dirName : Str) (rand : BitVec 31) : YfsProg :=
  createEntry parent ⟨generateDirInum rand, dirName⟩

/-- `lookup`, and what the caller does with its result. -/
def lookupThen (parent : Inum) (fileName : Str) (k : Option Inum → YfsProg) : YfsProg :=
  .acquire parent (.get parent fun buffer =>
    match lookupInum buffer fileName with
    | some found => .release parent (k found)
    | none => .undef)

def lookup (parent : Inum) (fileName : Str) : YfsProg :=
  lookupThen parent fileName fun
    | some i => .ret (.inum i)
    | none => .ret (.status .ioerr)

def removeFiles (inum : Inum) (k : YfsProg) : YfsProg :=
  .acquire inum
    (if isfile inum = true then .remove inum (.release inum k) else .release inum k)

/-- `unlink` from the second time on that it takes the lock, with the inum that it has found. -/
def unlinkFound (parent : Inum) (fileName : Str) (i : Inum) : YfsProg :=
  .acquire parent (.get parent fun buffer =>
    match unlinkRest buffer fileName i with
    | some rest => .put parent rest (removeFiles i (.release parent (.ret (.status .ok))))
    | none => .undef)

def unlink (parent : Inum) (fileName : Str) : YfsProg :=
  lookupThen parent fileName fun
    | some i => unlinkFound parent fileName i
    | none => .ret (.status .noent)

def readdir (inum : Inum) : YfsProg :=
  .acquire inum (.get inum fun buffer => .release inum (.ret (.buffer buffer)))

def Call.body : Call → YfsProg
  | mount => Dir.mount
  | create parent name rand => Dir.create parent name rand
  | createDir parent name rand => Dir.createDir parent name rand
  | lookup parent name => Dir.lookup parent name
  | unlink parent name => Dir.unlink parent name
  | readdir inum => Dir.readdir inum

/-- The directory and the entry of a call that creates one. -/
def Call.creates : Call → Option (Inum × Entry)
  | create parent name rand => some (parent, ⟨generateFileInum rand, name⟩)
  | createDir parent name rand => some (parent, ⟨generateDirInum rand, name⟩)
  | _ => none

theorem body_of_creates (c : Call) (parent : Inum) (x : Entry) (hc : c.creates = some (parent, x)) :
    c.body = createEntry parent x := by
  cases c <;> cases hc <;> rfl

/-- The directory and the entry, if this is the return of a create with OK. -/
def created {θ : Type*} : CallEv θ Call Result → Option (Inum × Entry)
  | .returned _ c (.status .ok) => c.creates
  | _ => none

abbrev Sys (θ : Type*) := LockedSys θ Inum Str Call Result
abbrev Act (θ : Type*) := ProgAct θ Inum Str Call

section
variable {θ : Type*} [DecidableEq θ]

def init (θ : Type*) (content : Inum → Option Str) : Sys θ := ⟨.init _ _ _ _ _, .init content⟩

def step : Sys θ → Act θ → Option (Sys θ) := LockedSys.step Call.body

end

/-- Clients over the lock protocol, the extent caches and the extent server: if the
operations that their threads complete there are those of their programs, then they
have made a run of the programs over the locked store, and it is this store that the
caches and the server hold. -/
theorem lockedSys_of_extents {κ τ ω ρ : Type*} [DecidableEq κ] [DecidableEq τ]
    (body : ω → Prog Inum Str ρ)
    (r : Bool) (srv : Extent.Server Inum Char) (eacts : List (Extent.Act κ τ Inum Char))
    (s : Extent.Sys κ τ Inum Char)
    (hrun : run (Extent.step r) (Extent.init κ τ srv) eacts = some s)
    (acts : List (ProgAct (κ × τ) Inum Str ω)) (ts : Threads (κ × τ) Inum Str ω ρ)
    (hts : run (Threads.step body) (.init _ _ _ _ _) acts = some ts)
    (hevents : acts.filterMap ProgAct.event = s.world.events) :
    ∃ st, run (LockedSys.step body) ⟨.init _ _ _ _ _, .init srv.contents⟩ acts = some ⟨ts, st⟩ ∧
      Extent.Coherent r s st := by
  obtain ⟨st,hst,hc⟩ := Extent.coherent_run srv eacts s hrun
  rw [← hevents] at hst
  exact ⟨st, lockedSys_run body acts _ ts _ st hts hst, hc⟩

theorem run_of_extents {κ τ : Type*} [DecidableEq κ] [DecidableEq τ] (r : Bool)
    (srv : Extent.Server Inum Char) (eacts : List (Extent.Act κ τ Inum Char))
    (s : Extent.Sys κ τ Inum Char)
    (hrun : run (Extent.step r) (Extent.init κ τ srv) eacts = some s)
    (acts : List (Act (κ × τ))) (ts : Threads (κ × τ) Inum Str Call Result)
    (hts : run (Threads.step Call.body) (.init _ _ _ _ _) acts = some ts)
    (hevents : acts.filterMap ProgAct.event = s.world.events) :
    ∃ st, run step (init (κ × τ) srv.contents) acts = some ⟨ts, st⟩ ∧ Extent.Coherent r s st :=
  lockedSys_of_extents Call.body r srv eacts s hrun acts ts hts hevents

/-- What a call may write, and with what it returns. -/
def Call.spec (c : Call) : ProgSpec Inum Str Result where
  putOk seen reads e v :=
    match c with
    | mount => e = rootDirInum ∧ v = []
    | unlink parent name => e = parent ∧ ∃ found o i, reads.head? = some (parent, found) ∧
        lookupInum found name = some (some i) ∧ seen parent = some (o, o) ∧
          unlinkRest o name i = some v
    | c => ∃ parent x, c.creates = some (parent, x) ∧
        ((e = parent ∧ ∃ o, seen parent = some (o, o) ∧ find x.name o = none ∧ v = o ++ x.text) ∨
          (e = x.inum ∧ e ≠ parent ∧ v = []))
  relOk _ e := ∀ parent x, c.creates = some (parent, x) → e ≠ parent
  retOk seen e res := ∀ parent x, c.creates = some (parent, x) → e = parent ∧
    ((res = .status .exist ∧ ∃ o, seen parent = some (o, o) ∧ find x.name o ≠ none) ∨
      (res = .status .ok ∧ ∃ o, seen parent = some (o, o ++ x.text) ∧ find x.name o = none))

theorem putOk_of_creates (c : Call) (parent : Inum) (x : Entry) (hc : c.creates = some (parent, x))
    (seen : Inum → Option (Str × Str)) (reads : List (Inum × Str)) (e : Inum) (v : Str) :
    c.spec.putOk seen reads e v ↔
      (e = parent ∧ ∃ o, seen parent = some (o, o) ∧ find x.name o = none ∧ v = o ++ x.text) ∨
      (e = x.inum ∧ e ≠ parent ∧ v = []) := by
  have hput : c.spec.putOk seen reads e v ↔ ∃ p y, c.creates = some (p, y) ∧
      ((e = p ∧ ∃ o, seen p = some (o, o) ∧ find y.name o = none ∧ v = o ++ y.text) ∨
        (e = y.inum ∧ e ≠ p ∧ v = [])) := by
    cases c <;> first | rfl | cases hc
  rw [hput]
  constructor
  · rintro ⟨p,y,hp,h⟩
    cases hc.symm.trans hp
    exact h
  · exact fun h => ⟨parent, x, hc, h⟩

/-- A create reads the directory, tests the name and appends the entry in one tenure
of the directory's lock, in which the new extent's lock is taken and given back. -/
theorem createEntry_sat (c : Call) (parent : Inum) (x : Entry) (hc : c.creates = some (parent, x)) :
    (createEntry parent x).Sat c.spec (fun _ => none) [] := by
  have hput := putOk_of_creates c parent x hc
  intro _ v _
  simp only [Option.map_none, Option.getD_none]
  split_ifs with hfind
  · refine ⟨?_, fun hne => absurd rfl (hne _)⟩
    rintro r hr p y hp
    cases hr
    cases hc.symm.trans hp
    exact ⟨rfl, Or.inl ⟨rfl, v, by simp, hfind⟩⟩
  · rw [not_not] at hfind
    intro hfree
    have hne : x.inum ≠ parent := by
      intro he
      rw [he] at hfree
      simp at hfree
    have hseen :
      Function.update (Function.update (Function.update (fun _ => none) parent (some (v, v)))
        x.inum ((Function.update (fun _ => none) parent (some (v, v)) x.inum).map
          fun y => (y.1, ([] : Str)))) x.inum none parent = some (v, v) := by
      simp [hne.symm]
    refine ⟨(hput _ _ _ _).mpr (Or.inr ⟨rfl, hne, rfl⟩), ?_, fun _ => ⟨?_, ?_, ?_⟩⟩
    · intro r hr
      cases hr
    · intro p y hp
      cases hc.symm.trans hp
      exact hne
    · exact (hput _ _ _ _).mpr (Or.inl ⟨rfl, v, hseen, hfind, rfl⟩)
    · refine ⟨?_, fun hne => absurd rfl (hne _)⟩
      rintro r hr p y hp
      cases hr
      cases hc.symm.trans hp
      refine ⟨rfl, Or.inr ⟨rfl, v, ?_, hfind⟩⟩
      rw [hseen, Function.update_self]
      rfl

/-- A call that creates nothing may return and release as it likes. -/
theorem retOk_of_creates_none (c : Call) (hc : c.creates = none) :
    (∀ seen e res, c.spec.retOk seen e res) ∧ ∀ seen e, c.spec.relOk seen e := by
  constructor
  · intro seen e res p x hp
    cases hc.symm.trans hp
  · intro seen e p x hp
    cases hc.symm.trans hp

theorem unlink_sat (parent : Inum) (name : Str) :
    (unlink parent name).Sat (Call.unlink parent name).spec (fun _ => none) [] := by
  obtain ⟨hret,hrel⟩ := retOk_of_creates_none (.unlink parent name) rfl
  intro _ buffer _
  beta_reduce
  cases hi : lookupInum buffer name with
  | none => trivial
  | some found =>
    refine ⟨fun r _ => hret _ _ _, fun hne => ⟨hrel _ _, ?_⟩⟩
    cases found with
    | none => exact absurd rfl (hne _)
    | some i =>
      -- the second tenure
      intro _ buffer' _
      beta_reduce
      cases hrest : unlinkRest buffer' name i with
      | none => trivial
      | some rest =>
        refine ⟨⟨rfl, buffer, buffer', i, rfl, hi, by simp, hrest⟩, fun _ => ?_⟩
        have hlast (seen reads) : (Prog.release parent (.ret (.status .ok)) : YfsProg).Sat
            (Call.unlink parent name).spec seen reads :=
          ⟨fun r _ => hret _ _ _, fun h => absurd rfl (h _)⟩
        split_ifs
        · exact ⟨fun r _ => hret _ _ _, fun _ => ⟨hrel _ _, hlast _ _⟩⟩
        · exact ⟨fun r _ => hret _ _ _, fun _ => ⟨hrel _ _, hlast _ _⟩⟩

theorem body_sat (c : Call) : c.body.Sat c.spec (fun _ => none) [] := by
  cases c with
  | mount =>
    obtain ⟨hret,_⟩ := retOk_of_creates_none .mount rfl
    exact fun _ => ⟨⟨rfl, rfl⟩, fun r _ => hret _ _ _, fun h => absurd rfl (h _)⟩
  | create parent name rand => exact createEntry_sat _ parent _ rfl
  | createDir parent name rand => exact createEntry_sat _ parent _ rfl
  | lookup parent name =>
    obtain ⟨hret,hrel⟩ := retOk_of_creates_none (.lookup parent name) rfl
    intro _ buffer _
    beta_reduce
    cases lookupInum buffer name with
    | none => trivial
    | some found =>
      refine ⟨fun r _ => hret _ _ _, fun hne => ⟨hrel _ _, ?_⟩⟩
      cases found <;> exact absurd rfl (hne _)
  | unlink parent name => exact unlink_sat parent name
  | readdir inum =>
    obtain ⟨hret,_⟩ := retOk_of_creates_none (.readdir inum) rfl
    exact fun _ buffer _ => ⟨fun r _ => hret _ _ _, fun h => absurd rfl (h _)⟩

end Yfs.Dir
