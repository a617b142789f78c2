import Yfs.ByteFile
import Yfs.FuseCache

namespace Yfs.Fuse
open Yfs.Dir (Str Inum)
open Yfs.Extent (Env Server sizeOf32)
open Yfs.File (nul cstr NulsAtEnd)

abbrev File := ByteFile Char nul

def fileStat (ino : Inum) (f : File) : Stat Unit := ⟨ino, sIfreg ||| 0x1B6, 1, (), f.size % 2^32⟩

/-- The reply to a request that reads or changes a file, and the files after it; `none` if there is
no such file. -/
def Request.onFiles (fs : Inum → Option File) : Request → Option (Reply Unit × (Inum → Option File))
  | .setattr ino stSize toSet =>
    if fuseSetAttrSize &&& toSet ≠ 0 then
      -- the size is cut to 32 bits on its way
      (fs ino).map fun f => (.attr (fileStat ino (f.truncate (stSize.toNat % 2^32))),
        Function.update fs ino (some (f.truncate (stSize.toNat % 2^32))))
    else some (.err .enosys, fs)
  | .read ino size off => (fs ino).map fun f => (.buf (f.read off size), fs)
  | .write ino mem size off => (fs ino).map fun f =>
      (.write size, Function.update fs ino (some (f.write off (mem.take size))))
  | _ => none

/-- A request for a file, which stays within `max_size()` and hands over no byte behind a null
byte. -/
def Request.ForFiles (maxSize : ℕ) : Request → Prop
  | .setattr ino _ _ | .read ino _ _ => Dir.isfile ino = true
  | .write ino mem size off => Dir.isfile ino = true ∧ size ≤ mem.length ∧
      (nul ∈ mem ∧ (cstr mem).length ≤ maxSize) ∧ off + size ≤ maxSize ∧ NulsAtEnd (mem.take size)
  | _ => False

def files (c : Inum → Option Str) (ino : Inum) : Option File := (c ino).map (ByteFile.ofList nul)

theorem files_update (c : Inum → Option Str) (ino : Inum) (l : Str) :
    files (Function.update c ino (some l)) =
      Function.update (files c) ino (some (.ofList nul l)) := by
  funext i
  rw [files]
  by_cases hi : i = ino
  · subst hi
    rw [Function.update_self, Function.update_self]
    rfl
  · rw [Function.update_of_ne hi, Function.update_of_ne hi]
    rfl

theorem exec_andThen {α ρ : Type*} (p : Prog Inum Str α) (k : α → StoreProg Inum Str ℕ ρ)
    (held : List Inum) (c c' : Inum → Option Str) (r : α) (h : p.alone held c = .ends r c') :
    (p.andThen k).exec plainOps held c = (k r).exec plainOps [] c' := by
  induction p generalizing held c with
  | ret r' =>
    rw [Prog.alone] at h
    split_ifs at h with hheld
    cases h
    rw [hheld]
    rfl
  | acquire e p ih =>
    rw [Prog.alone] at h
    split_ifs at h with he
    rw [Prog.andThen, StoreProg.exec, if_neg he]
    exact ih _ _ h
  | release e p ih =>
    rw [Prog.alone] at h
    split_ifs at h with he
    rw [Prog.andThen, StoreProg.exec, if_pos he]
    exact ih _ _ h
  | get e p ih =>
    rw [Prog.alone] at h
    split_ifs at h with he
    obtain ⟨v,hv⟩ : ∃ v, c e = some v := by
      cases hc : c e with
      | none =>
        rw [hc] at h
        cases h
      | some v => exact ⟨v, rfl⟩
    have hget : plainOps.get c e = some (v, c) := congrArg (Option.map fun v => (v, c)) hv
    rw [hv] at h
    rw [Prog.andThen, StoreProg.exec, if_pos he, hget]
    exact ih v _ _ h
  | put e v p ih =>
    rw [Prog.alone] at h
    split_ifs at h with he
    rw [Prog.andThen, StoreProg.exec, if_pos he]
    exact ih _ _ h
  | remove e p ih => exact ih _ _ h
  | undef => cases h

theorem resize_eq (l : Str) (n : ℕ) :
    File.resize l n = l.take n ++ List.replicate (n - l.length) nul := by
  rw [File.resize]
  split_ifs with hlt hgt
  · rw [Nat.sub_eq_zero_of_le (by omega), List.replicate_zero, List.append_nil]
  · rw [List.take_of_length_le (by omega)]
  · rw [Nat.sub_eq_zero_of_le (by omega), List.replicate_zero, List.append_nil,
      List.take_of_length_le (by omega)]

section
variable {ino : Inum} {c : Inum → Option Str} {l : Str} (hc : c ino = some l)
include hc

theorem setattr_alone (n : ℕ) : (File.setattr ino n).alone [] c =
    .ends (.status .ok) (Function.update c ino (some (File.resize l n))) := by
  simp [File.setattr, File.getFile, Prog.alone, hc]

/-- `write` of bytes that have null bytes at their end only stores them. -/
theorem writeMem_ends {maxSize size off : ℕ} {mem : Str} (hl : l.length ≤ maxSize)
    (hmax : maxSize < 2^64)
    (hsize : size ≤ mem.length) (hmem : nul ∈ mem ∧ (cstr mem).length ≤ maxSize)
    (hend : off + size ≤ maxSize)
    (htail : NulsAtEnd (mem.take size)) : (File.writeMem maxSize ino mem size off).alone [] c =
      .ends .void (Function.update c ino (some (File.splice l off (mem.take size)))) := by
  have hstring : File.stringAt maxSize mem = some (cstr mem) := by
    rw [File.stringAt, if_pos hmem.1, File.sized, if_pos hmem.2]
  rw [File.writeMem_alone hc, hstring]
  simp only [File.writtenSized_eq maxSize hl hend hmax, File.written_eq_splice,
    (File.writeString_eq_iff hsize).mpr htail]

theorem getattr_exec
    (hino : Dir.isfile ino = true) (k : Stat Unit → StoreProg Inum Str ℕ (Reply Unit)) :
    (getattr plainView ino k).exec plainOps [] c =
      (k (fileStat ino (.ofList nul l))).exec plainOps [] c := by
  have hattr : plainOps.getattr c ino = some (sizeOf32 l) := congrArg (Option.map sizeOf32) hc
  rw [getattr, if_pos hino, getInfo, StoreProg.exec, if_neg List.not_mem_nil, StoreProg.exec,
    if_pos (List.mem_singleton.mpr rfl), hattr, Option.bind_some, StoreProg.exec,
    if_pos (List.mem_singleton.mpr rfl), List.erase_cons_head]
  rfl

end

/-- `extent_client::get` ends the process where there is no such extent. -/
theorem exec_missing {ρ : Type*} {ino : Inum} {c : Inum → Option Str} (hc : c ino = none)
    (k : Str → StoreProg Inum Str ℕ ρ) :
    (StoreProg.acquire ino (.get ino k)).exec plainOps [] c = none := by
  simp [StoreProg.exec, plainOps, hc]

theorem getattr_missing {ino : Inum} {c : Inum → Option Str} (hc : c ino = none)
    (k : Stat Unit → StoreProg Inum Str ℕ (Reply Unit)) :
    (getattr plainView ino k).exec plainOps [] c = none := by
  rw [getattr]
  split_ifs <;> simp [getInfo, StoreProg.exec, plainOps, hc]

theorem writeMem_missing {ρ : Type*} {ino : Inum} {c : Inum → Option Str} (hc : c ino = none)
    (maxSize : ℕ) (mem : Str) (size off : ℕ) (k : File.Result → StoreProg Inum Str ℕ ρ) :
    ((File.writeMem maxSize ino mem size off).andThen k).exec plainOps [] c = none := by
  rw [File.writeMem]
  split
  · rfl
  · exact exec_missing hc _

/-- No extent is longer than a string can be. -/
def Sized (maxSize : ℕ) (c : Inum → Option Str) : Prop := ∀ e l, c e = some l → l.length ≤ maxSize

theorem Sized.update {maxSize : ℕ} {c : Inum → Option Str} (h : Sized maxSize c) (e : Inum)
    {l : Str} (hl : l.length ≤ maxSize) : Sized maxSize (Function.update c e (some l)) := by
  intro e' l' hl'
  by_cases he : e' = e
  · subst he
    rw [Function.update_self] at hl'
    cases hl'
    exact hl
  · rw [Function.update_of_ne he] at hl'
    exact h e' l' hl'

section
variable (lib : Libfuse) {maxSize : ℕ} (hmin : 2^32 ≤ maxSize) (hmax : maxSize < 2^64)
include hmin hmax

/-- A request for a file does to the extents what it should do to the files. -/
theorem handler_files {c : Inum → Option Str} (hsized : Sized maxSize c) (r : Request)
    (hr : r.ForFiles maxSize) :
    Option.Rel (fun x x' => x.1 = x'.1 ∧ files x.2 = x'.2 ∧ Sized maxSize x.2)
      ((r.handler plainView lib maxSize).exec plainOps [] c) (r.onFiles (files c)) := by
  cases r with
  | setattr ino stSize toSet =>
    rw [Request.handler, fuseserverSetattr, Request.onFiles]
    split_ifs with hset
    · cases hc : c ino with
      | none =>
        rw [show File.setattr ino _ = .acquire ino (.get ino _) from rfl, Prog.andThen,
          Prog.andThen, exec_missing hc, files, hc]
        exact .none
      | some l =>
        have hn : (stSize.setWidth 32).toNat = stSize.toNat % 2^32 :=
          BitVec.toNat_setWidth 32 stSize
        have hlt : stSize.toNat % 2^32 < 2^32 := Nat.mod_lt _ (by decide)
        rw [exec_andThen _ _ _ _ _ _ (setattr_alone hc _), hn, files, hc]
        simp only
        rw [getattr_exec (Function.update_self ..) hr, resize_eq, ByteFile.ofList_truncate]
        refine .some ⟨rfl, ?_, hsized.update ino ?_⟩
        · rw [files_update, ByteFile.ofList_truncate]
        · have hl := hsized ino l hc
          rw [List.length_append, List.length_take, List.length_replicate]
          omega
    · exact .some ⟨rfl, rfl, hsized⟩
  | read ino size off =>
    rw [Request.handler, fuseserverRead, Request.onFiles]
    cases hc : c ino with
    | none =>
      rw [show File.read ino off size = .acquire ino (.get ino _) from rfl, Prog.andThen,
        Prog.andThen, exec_missing hc, files, hc]
      exact .none
    | some l =>
      rw [exec_andThen _ _ _ _ _ _ (File.read_alone hc), files, hc]
      refine .some ⟨congrArg Reply.buf ?_, rfl, hsized⟩
      rw [ByteFile.read_ofList]
      split_ifs with hoff
      · rfl
      · rw [List.drop_eq_nil_of_le (by omega), List.take_nil]
  | write ino mem size off =>
    obtain ⟨-,hsize,hmem,hend,htail⟩ := hr
    rw [Request.handler, fuseserverWrite, Request.onFiles]
    cases hc : c ino with
    | none =>
      rw [writeMem_missing hc, files, hc]
      exact .none
    | some l =>
      have hl := hsized ino l hc
      have hposix := File.splice_posix l (mem.take size) off
      rw [exec_andThen _ _ _ _ _ _ (writeMem_ends hc hl hmax hsize hmem hend htail), files, hc]
      refine .some ⟨rfl, ?_, hsized.update ino ?_⟩
      · rw [files_update, ByteFile.ofList_write hposix.length hposix.stored hposix.kept hposix.gap]
      · rw [hposix.length, List.length_take_of_le hsize]
        omega
  | getattr | create | mknod | mkdir | lookup | readdir | openFile | unlink | statfs =>
    exact hr.elim

end
end Yfs.Fuse
