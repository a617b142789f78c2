import Yfs.DirPositions
import Yfs.FileWrite
import Yfs.StoreProg

/-! The handlers of `fuse.cc` that the kernel's requests are given to. `fuse_session_loop` runs
them one after the other in one thread. -/
namespace Yfs.Fuse
open Yfs.Dir (Str Inum)

/-- The errors that handlers reply; `ok` is `fuse_reply_err(req, 0)`. -/
inductive Errno
  | ok
  | enoent
  | eexist
  | enotdir
  | enosys
  deriving DecidableEq

/-- The fields of `struct stat` that are filled in, with the three times as `τ`. -/
structure Stat (τ : Type*) where
  ino : Inum
  mode : BitVec 32
  nlink : ℕ
  times : τ
  size : ℕ
  deriving DecidableEq

structure EntryParam (τ : Type*) where
  ino : Inum
  generation : ℕ
  attr : Stat τ
  attrTimeout : ℕ
  entryTimeout : ℕ
  deriving DecidableEq

inductive Reply (τ : Type*)
  | err (e : Errno)
  | attr (st : Stat τ)
  | entry (e : EntryParam τ)
  | create (e : EntryParam τ)
  | buf (b : Str)
  | write (count : ℕ)
  | opened
  | statfs (namemax bsize : ℕ)
  deriving DecidableEq

/-- Offsets and sizes are `size_t`, to which an `off_t` is converted; the size in `setattr` is
an `off_t`. The buffer of a `write` is the memory from there on, and `rand` what `rand()`
returns in the call. -/
inductive Request
  | getattr (ino : Inum)
  | setattr (ino : Inum) (stSize : BitVec 64) (toSet : BitVec 32)
  | read (ino : Inum) (size off : ℕ)
  | write (ino : Inum) (mem : Str) (size off : ℕ)
  | create (parent : Inum) (name : Str) (rand : BitVec 31)
  | mknod (parent : Inum) (name : Str) (rand : BitVec 31)
  | mkdir (parent : Inum) (name : Str) (rand : BitVec 31)
  | lookup (parent : Inum) (name : Str)
  | readdir (ino : Inum) (size off : ℕ)
  | openFile (ino : Inum)
  | unlink (parent : Inum) (name : Str)
  | statfs
  deriving DecidableEq

/-- `fuse_dirent_size` and what `fuse_add_dirent` writes for a name, an inum and an offset. -/
structure Libfuse where
  direntSize : ℕ → ℕ
  addDirent : Str → Inum → ℕ → Str
  length_addDirent : ∀ name ino off, (addDirent name ino off).length = direntSize name.length

def leBytes : ℕ → ℕ → Str
  | 0, _ => []
  | k + 1, n => Char.ofNat (n % 256) :: leBytes k (n / 256)

theorem length_leBytes (k n : ℕ) : (leBytes k n).length = k := by
  induction k generalizing n with
  | zero => rfl
  | succ k ih => rw [leBytes, List.length_cons, ih]

/-- A header of 24 bytes and the name, up to the next multiple of eight. -/
def fuseDirentSize (namelen : ℕ) : ℕ := (24 + namelen + 7) / 8 * 8

theorem fuseDirentSize_ge (n : ℕ) : 24 + n ≤ fuseDirentSize n := by
  unfold fuseDirentSize
  omega

def fuseDirent (name : Str) (ino : Inum) (off : ℕ) : Str :=
  leBytes 8 ino.toNat ++ (leBytes 8 off ++ (leBytes 4 name.length ++ (leBytes 4 0 ++ (name ++
    List.replicate (fuseDirentSize name.length - (24 + name.length)) File.nul))))

theorem length_fuseDirent (name : Str) (ino : Inum) (off : ℕ) :
    (fuseDirent name ino off).length = fuseDirentSize name.length := by
  have h := fuseDirentSize_ge name.length
  simp only [fuseDirent, List.length_append, length_leBytes, List.length_replicate]
  omega

def fuseLib : Libfuse := ⟨fuseDirentSize, fuseDirent, length_fuseDirent⟩

/-- `dirbuf_add`; the offset of an entry is where the next one will begin. -/
def dirbufAdd (lib : Libfuse) (b : Str) (x : Str × Inum) : Str :=
  b ++ lib.addDirent x.1 x.2 (b.length + lib.direntSize x.1.length)

def dirbuf (lib : Libfuse) (xs : List (Str × Inum)) : Str := xs.foldl (dirbufAdd lib) []

def replyBufLimited (buf : Str) (off maxsize : ℕ) : Str :=
  if off < buf.length then (buf.drop off).take (min (buf.length - off) maxsize) else []

section
variable {α τ : Type*} (view : α → τ × ℕ)

/-- `yfs_client::getfile` and `getdir`, and what the caller does with the attributes. The
process ends in `extent_client::getattr` if there are none. -/
def getInfo (inum : Inum) (k : α → StoreProg Inum Str α (Reply τ)) :
    StoreProg Inum Str α (Reply τ) :=
  .acquire inum (.getattr inum fun a => .release inum (k a))

def sIfreg : BitVec 32 := 0x8000
def sIfdir : BitVec 32 := 0x4000

/-- `getattr`. A directory has no size. -/
def getattr (inum : Inum) (k : Stat τ → StoreProg Inum Str α (Reply τ)) :
    StoreProg Inum Str α (Reply τ) :=
  if Dir.isfile inum = true then
    getInfo inum fun a => k ⟨inum, sIfreg ||| 0x1B6, 1, (view a).1, (view a).2⟩
  else getInfo inum fun a => k ⟨inum, sIfdir ||| 0x1FF, 2, (view a).1, 0⟩

def entryParam (ino : Inum) (st : Stat τ) : EntryParam τ := ⟨ino, 0, st, 0, 0⟩

def fuseSetAttrSize : BitVec 32 := 8

def fuseserverGetattr (ino : Inum) : StoreProg Inum Str α (Reply τ) :=
  getattr view ino fun st => .ret (.attr st)

/-- `yfs_client::setattr` takes the size as an `unsigned int`. -/
def fuseserverSetattr (ino : Inum) (stSize : BitVec 64) (toSet : BitVec 32) :
    StoreProg Inum Str α (Reply τ) :=
  if fuseSetAttrSize &&& toSet ≠ 0 then
    (File.setattr ino (stSize.setWidth 32).toNat).andThen fun
      | .status .ok => getattr view ino fun st => .ret (.attr st)
      | _ => .ret (.err .enosys)
  else .ret (.err .enosys)

def fuseserverRead (ino : Inum) (size off : ℕ) : StoreProg Inum Str α (Reply τ) :=
  (File.read ino off size).andThen fun
    | .buffer b => .ret (.buf b)
    | _ => .undef

def fuseserverWrite (maxSize : ℕ) (ino : Inum) (mem : Str) (size off : ℕ) :
    StoreProg Inum Str α (Reply τ) :=
  (File.writeMem maxSize ino mem size off).andThen fun _ => .ret (.write size)

/-- What `create`, `mknod` and `mkdir` do with the status of `yfs_client` for the new inum. -/
def afterCreate (ino : Inum) (reply : EntryParam τ → Reply τ) (other : Errno) :
    Dir.Result → StoreProg Inum Str α (Reply τ)
  | .status .ok => getattr view ino fun st => .ret (reply (entryParam ino st))
  | .status .exist => .ret (.err .eexist)
  | _ => .ret (.err other)

def fuseserverCreate (parent : Inum) (name : Str) (rand : BitVec 31) :
    StoreProg Inum Str α (Reply τ) :=
  (Dir.create parent name rand).andThen
    (afterCreate view (Dir.generateFileInum rand) .create .enoent)

def fuseserverMknod (parent : Inum) (name : Str) (rand : BitVec 31) :
    StoreProg Inum Str α (Reply τ) :=
  (Dir.create parent name rand).andThen
    (afterCreate view (Dir.generateFileInum rand) .entry .enoent)

def fuseserverMkdir (parent : Inum) (name : Str) (rand : BitVec 31) :
    StoreProg Inum Str α (Reply τ) :=
  (Dir.createDir parent name rand).andThen
    (afterCreate view (Dir.generateDirInum rand) .entry .enosys)

def fuseserverLookup (parent : Inum) (name : Str) : StoreProg Inum Str α (Reply τ) :=
  (Dir.lookup parent name).andThen fun
    | .inum i => getattr view i fun st => .ret (.entry (entryParam i st))
    | _ => .ret (.err .enoent)

def fuseserverReaddir (lib : Libfuse) (ino : Inum) (size off : ℕ) :
    StoreProg Inum Str α (Reply τ) :=
  if Dir.isfile ino = true then .ret (.err .enotdir)
  else (Dir.readdir ino).andThen fun
    | .buffer buffer =>
      match Dir.dirbufAdds buffer with
      | some xs => .ret (.buf (replyBufLimited (dirbuf lib xs) off size))
      | none => .undef
    | _ => .undef

def fuseserverUnlink (parent : Inum) (name : Str) : StoreProg Inum Str α (Reply τ) :=
  (Dir.unlink parent name).andThen fun
    | .status .ok => .ret (.err .ok)
    | _ => .ret (.err .enoent)

/-- `fuseserver_oper`. -/
def Request.handler (lib : Libfuse) (maxSize : ℕ) : Request → StoreProg Inum Str α (Reply τ)
  | .getattr ino => fuseserverGetattr view ino
  | .setattr ino stSize toSet => fuseserverSetattr view ino stSize toSet
  | .read ino size off => fuseserverRead ino size off
  | .write ino mem size off => fuseserverWrite maxSize ino mem size off
  | .create parent name rand => fuseserverCreate view parent name rand
  | .mknod parent name rand => fuseserverMknod view parent name rand
  | .mkdir parent name rand => fuseserverMkdir view parent name rand
  | .lookup parent name => fuseserverLookup view parent name
  | .readdir ino size off => fuseserverReaddir lib ino size off
  | .openFile _ => .ret .opened
  | .unlink parent name => fuseserverUnlink parent name
  | .statfs => .ret (.statfs 255 512)

end
end Yfs.Fuse
