import Yfs.FileOps

namespace Yfs.File
open Yfs.Dir (Str Inum)

section
variable (maxSize : ℕ)

/-- A string; `none` where `std::string` throws `length_error` instead. -/
def sized (s : Str) : Option Str := if s.length ≤ maxSize then some s else none

/-- `string buffer_str = buffer;`, where `mem` is what can be read from `buffer` on. If
there is no null byte in it, the constructor reads on behind it. -/
def stringAt (mem : Str) : Option Str := if nul ∈ mem then sized maxSize (cstr mem) else none

/-- `write_string`, with the length that it may have. -/
def writeStringSized (bufferStr : Str) (bufferSize : ℕ) : Option Str :=
  if bufferSize ≤ bufferStr.length then some (bufferStr.take bufferSize)
  else sized maxSize (bufferStr ++ List.replicate (bufferSize - bufferStr.length) nul)

/-- `file_data` as `write` puts it; `offset+buffer_size` is a `size_t`. -/
def writtenSized (fileData bufferStr : Str) (bufferSize offset : ℕ) : Option Str :=
  (writeStringSized maxSize bufferStr bufferSize).bind fun writeString =>
    if fileData.length < offset then
      (sized maxSize (fileData ++ List.replicate (offset - fileData.length) nul)).bind
        fun fileData =>
        sized maxSize (fileData ++ writeString)
    -- the sum of two `size_t`
    else if fileData.length ≤ (offset + bufferSize) % 2^64 then
      sized maxSize (fileData.take offset ++ writeString)
    else
      let count := min bufferSize (fileData.length - offset)
      sized maxSize (fileData.take offset ++ writeString ++ fileData.drop (offset + count))

/-- `write` for the memory at `buffer`. -/
def writeMem (inum : Inum) (mem : Str) (bufferSize offset : ℕ) : FileProg :=
  match stringAt maxSize mem with
  | none => .undef
  | some bufferStr => .acquire inum (.get inum fun fileData =>
    match writtenSized maxSize fileData bufferStr bufferSize offset with
    | none => .undef
    | some fileData => .put inum fileData (.release inum (.ret .void)))

theorem length_of_sized {s t : Str} (h : sized maxSize s = some t) : t.length ≤ maxSize := by
  rw [sized] at h
  split_ifs at h with hlen
  cases h
  exact hlen

theorem length_writtenSized {fileData bufferStr g : Str} {bufferSize offset : ℕ}
    (h : writtenSized maxSize fileData bufferStr bufferSize offset = some g) :
    g.length ≤ maxSize := by
  obtain ⟨ws,-,h⟩ := Option.bind_eq_some_iff.mp h
  split_ifs at h
  · obtain ⟨f,-,h⟩ := Option.bind_eq_some_iff.mp h
    exact length_of_sized maxSize h
  · exact length_of_sized maxSize h
  · exact length_of_sized maxSize h

theorem length_writeString (bufferStr : Str) (bufferSize : ℕ) :
    (writeString bufferStr bufferSize).length = bufferSize := by
  rw [writeString]
  split_ifs with h
  · exact List.length_take_of_le h
  · rw [List.length_append, List.length_replicate]
    omega

/-- If no string gets too long, this is what the model without the limit says. -/
theorem writtenSized_eq {fileData mem : Str} {bufferSize offset : ℕ}
    (hfile : fileData.length ≤ maxSize)
    (hend : offset + bufferSize ≤ maxSize) (hmax : maxSize < 2^64) :
    writtenSized maxSize fileData (cstr mem) bufferSize offset =
      some (written fileData mem bufferSize offset) := by
  have hws : writeStringSized maxSize (cstr mem) bufferSize =
      some (writeString (cstr mem) bufferSize) := by
    rw [writeStringSized, writeString]
    split_ifs
    · rfl
    · rw [sized, if_pos]
      rw [List.length_append, List.length_replicate]
      omega
  have hlen := length_writeString (cstr mem) bufferSize
  rw [writtenSized, hws, Option.bind_some, written, Nat.mod_eq_of_lt (by omega)]
  generalize writeString (cstr mem) bufferSize = ws at hlen
  split_ifs with hgap hover
  · have hpad : sized maxSize (fileData ++ List.replicate (offset - fileData.length) nul) =
        some (fileData ++ List.replicate (offset - fileData.length) nul) := by
      refine if_pos ?_
      rw [List.length_append, List.length_replicate]
      omega
    rw [hpad, Option.bind_some, sized, if_pos]
    rw [List.length_append, List.length_append, List.length_replicate]
    omega
  · rw [sized, if_pos]
    rw [List.length_append, List.length_take]
    omega
  · have hcount : min bufferSize (fileData.length - offset) = bufferSize := by omega
    simp only [hcount]
    rw [sized, if_pos]
    simp only [List.length_append, List.length_take, List.length_drop]
    omega

end

/-- The content with `data` at `offset`, and null bytes in front of it if it was too short. -/
def splice (fileData : Str) (offset : ℕ) (data : Str) : Str :=
  fileData.take offset ++ List.replicate (offset - fileData.length) nul ++ data ++ fileData.drop
    (offset + data.length)

/-- The three cases of `write` are one. -/
theorem written_eq_splice (fileData mem : Str) (bufferSize offset : ℕ) :
    written fileData mem bufferSize offset =
      splice fileData offset (writeString (cstr mem) bufferSize) := by
  have hlen := length_writeString (cstr mem) bufferSize
  rw [written, splice, hlen]
  generalize writeString (cstr mem) bufferSize = ws
  split_ifs with hgap hover
  · rw [List.take_of_length_le (by omega), List.drop_eq_nil_of_le (by omega), List.append_nil]
  · rw [Nat.sub_eq_zero_of_le (by omega), List.replicate_zero, List.append_nil,
      List.drop_eq_nil_of_le hover, List.append_nil]
  · rw [Nat.sub_eq_zero_of_le (by omega), List.replicate_zero, List.append_nil]

/-- The old content, with the bytes of `data` from `offset` on. -/
structure Posix (fileData data : Str) (offset : ℕ) (g : Str) : Prop where
  length : g.length = max fileData.length (offset + data.length)
  stored : (g.drop offset).take data.length = data
  kept : ∀ i < fileData.length, i < offset ∨ offset + data.length ≤ i → g[i]? = fileData[i]?
  gap : ∀ i, fileData.length ≤ i → i < offset → g[i]? = some nul

section
variable (fileData data : Str) (offset : ℕ)

theorem length_splice_start :
    (fileData.take offset ++ List.replicate (offset - fileData.length) nul).length = offset := by
  rw [List.length_append, List.length_take, List.length_replicate]
  omega

theorem splice_stored : ((splice fileData offset data).drop offset).take data.length = data := by
  rw [splice, List.append_assoc, List.drop_left' (length_splice_start fileData offset),
    List.take_left]

theorem splice_posix : Posix fileData data offset (splice fileData offset data) where
  length := by
    rw [splice, List.length_append, List.length_append, length_splice_start, List.length_drop]
    omega
  stored := splice_stored fileData data offset
  kept i hi hout := by
    have hstart := length_splice_start fileData offset
    rcases hout with hlt | hge
    · rw [splice, List.append_assoc, List.getElem?_append_left (by omega),
        List.getElem?_append_left (by rw [List.length_take]; omega), List.getElem?_take_of_lt hlt]
    · rw [splice, List.getElem?_append_right (by rw [List.length_append]; omega),
        List.length_append, hstart, List.getElem?_drop, Nat.add_sub_cancel' hge]
  gap i hi hlt := by
    have hstart := length_splice_start fileData offset
    rw [splice, List.append_assoc, List.getElem?_append_left (by omega),
      List.getElem?_append_right (by rw [List.length_take]; omega), List.getElem?_replicate, if_pos]
    rw [List.length_take]
    omega

end

/-- Behind a null byte there are only null bytes. -/
def NulsAtEnd (data : Str) : Prop := ∀ c ∈ data.dropWhile (· ≠ nul), c = nul

instance (data : Str) : Decidable (NulsAtEnd data) :=
  List.decidableBAll (fun c => c = nul) (data.dropWhile (· ≠ nul))

theorem take_cstr (mem : Str) (n : ℕ) : (cstr mem).take n = cstr (mem.take n) := by
  induction mem generalizing n with
  | nil => simp [cstr]
  | cons c mem ih =>
    cases n with
    | zero => rfl
    | succ n =>
      rw [cstr, List.take_succ_cons, cstr, List.takeWhile_cons, List.takeWhile_cons]
      split_ifs
      · exact congrArg (c :: ·) (ih n)
      · rfl

/-- `write_string` is the buffer up to its first null byte, and null bytes from there on. -/
theorem writeString_cstr (mem : Str) (bufferSize : ℕ) :
    writeString (cstr mem) bufferSize =
      cstr (mem.take bufferSize) ++
        List.replicate (bufferSize - (cstr (mem.take bufferSize)).length) nul := by
  rw [writeString, ← take_cstr]
  split_ifs with h
  · rw [List.length_take_of_le h, Nat.sub_self, List.replicate_zero, List.append_nil]
  · rw [List.take_of_length_le (by omega)]

theorem writeString_eq_iff {mem : Str} {bufferSize : ℕ} (hsize : bufferSize ≤ mem.length) :
    writeString (cstr mem) bufferSize = mem.take bufferSize ↔ NulsAtEnd (mem.take bufferSize) := by
  have hsplit : cstr (mem.take bufferSize) ++ (mem.take bufferSize).dropWhile (· ≠ nul) =
      mem.take bufferSize :=
    List.takeWhile_append_dropWhile
  have hlen := congrArg List.length hsplit
  rw [List.length_append, List.length_take_of_le hsize] at hlen
  rw [writeString_cstr, NulsAtEnd]
  nth_rewrite 3 [← hsplit]
  rw [List.append_cancel_left_eq, eq_comm, List.eq_replicate_iff, and_iff_right (by omega)]

/-- What `write` of the `bufferSize` bytes at `buffer` should do, and `read` of them after it. -/
def WritesPosix (maxSize : ℕ) (inum : Inum) (mem : Str) (bufferSize offset : ℕ) (fileData : Str)
    (content : Inum → Option Str) : Prop :=
  ∃ g, (writeMem maxSize inum mem bufferSize offset).alone [] content =
      .ends .void (Function.update content inum (some g)) ∧
    Posix fileData (mem.take bufferSize) offset g ∧
    (read inum offset bufferSize).alone [] (Function.update content inum (some g)) =
      .ends (.buffer (mem.take bufferSize)) (Function.update content inum (some g))

section
variable {maxSize : ℕ} {inum : Inum} {mem fileData : Str} {bufferSize offset : ℕ}
    {content : Inum → Option Str}
  (hfile : content inum = some fileData)
include hfile

theorem writeMem_alone : (writeMem maxSize inum mem bufferSize offset).alone [] content =
    match stringAt maxSize mem with
    | none => .undef
    | some bufferStr =>
      match writtenSized maxSize fileData bufferStr bufferSize offset with
      | none => .undef
      | some g => .ends .void (Function.update content inum (some g)) := by
  rw [writeMem]
  cases stringAt maxSize mem with
  | none => rfl
  | some bufferStr =>
    have hself : inum ∈ [inum] := List.mem_singleton.mpr rfl
    simp only
    rw [Prog.alone, if_neg List.not_mem_nil, Prog.alone, if_pos hself, hfile, Option.elim_some]
    cases writtenSized maxSize fileData bufferStr bufferSize offset with
    | none => rfl
    | some g => simp [Prog.alone]

theorem read_alone : (read inum offset bufferSize).alone [] content =
    .ends (.buffer (if offset < fileData.length then (fileData.drop offset).take bufferSize
      else [])) content := by
  simp [read, getFile, Prog.alone, hfile]

/-- Where `write` ends, its strings are short enough and there is a null byte to read up to. -/
theorem of_writeMem_ends
    {g : Str} (h : (writeMem maxSize inum mem bufferSize offset).alone [] content =
      .ends .void (Function.update content inum (some g))) :
    (nul ∈ mem ∧ (cstr mem).length ≤ maxSize) ∧
      writtenSized maxSize fileData (cstr mem) bufferSize offset = some g := by
  rw [writeMem_alone hfile] at h
  cases hstring : stringAt maxSize mem with
  | none =>
    rw [hstring] at h
    cases h
  | some bufferStr =>
    rw [hstring] at h
    rw [stringAt, sized] at hstring
    split_ifs at hstring with hnul hlen
    cases hstring
    refine ⟨⟨hnul,hlen⟩,?_⟩
    cases hg : writtenSized maxSize fileData (cstr mem) bufferSize offset with
    | none =>
      simp only [hg] at h
      cases h
    | some g' =>
      simp only [hg, Outcome.ends.injEq, true_and] at h
      have hsame := congrFun h inum
      rwa [Function.update_self, Function.update_self] at hsame

/-- `write` is as it should be if and only if a null byte ends its string, in the buffer or
behind it, there are only null bytes behind the first one of the buffer, and no string gets
too long. -/
theorem write_posix (hlen : fileData.length ≤ maxSize) (hmax : maxSize < 2^64)
    (hsize : bufferSize ≤ mem.length) :
    WritesPosix maxSize inum mem bufferSize offset fileData content ↔
      (nul ∈ mem ∧ (cstr mem).length ≤ maxSize) ∧ offset + bufferSize ≤ maxSize ∧
      NulsAtEnd (mem.take bufferSize) := by
  have hdata : (mem.take bufferSize).length = bufferSize := List.length_take_of_le hsize
  have hws := length_writeString (cstr mem) bufferSize
  constructor
  · rintro ⟨g,hwrite,hposix,-⟩
    obtain ⟨hstring,hg⟩ := of_writeMem_ends hfile hwrite
    -- the file has the length that it should have, and no string is longer than `max_size`
    have hend : offset + bufferSize ≤ maxSize := by
      have hglen := length_writtenSized maxSize hg
      rw [hposix.length, hdata] at hglen
      omega
    rw [writtenSized_eq maxSize hlen hend hmax, Option.some_inj, written_eq_splice] at hg
    have hstored := hposix.stored
    rw [← hg, hdata] at hstored
    -- what is there is `write_string`
    have hback := splice_stored fileData (writeString (cstr mem) bufferSize) offset
    rw [hws, hstored] at hback
    exact ⟨hstring,hend,(writeString_eq_iff hsize).mp hback.symm⟩
  · rintro ⟨⟨hnul,hshort⟩,hend,htail⟩
    have hposix := splice_posix fileData (mem.take bufferSize) offset
    refine ⟨splice fileData offset (mem.take bufferSize),?_,hposix,?_⟩
    · have hstring : stringAt maxSize mem = some (cstr mem) := by
        rw [stringAt, if_pos hnul, sized, if_pos hshort]
      rw [writeMem_alone hfile, hstring]
      simp only [writtenSized_eq maxSize hlen hend hmax, written_eq_splice,
        (writeString_eq_iff hsize).mpr htail]
    · rw [read_alone (Function.update_self ..)]
      split_ifs with hoff
      · have hstored := hposix.stored
        rw [hdata] at hstored
        rw [hstored]
      · -- nothing is written at the end
        have hglen := hposix.length
        rw [List.eq_nil_of_length_eq_zero (show (mem.take bufferSize).length = 0 by omega)]

end

theorem write_posix_padded :
    WritesPosix (2^62) 0x80000005 ['X', 'Y', nul, 'z'] 3 6 ['a', 'b', 'c', 'd'] abcd :=
  (write_posix rfl (by decide) (by decide) (by decide)).mpr (by decide)

/-- Of the bytes `X`, 0, `Y` the last is not stored, and a buffer without a null byte behind
it is read beyond its end. -/
theorem write_not_posix :
    (writeMem (2^62) 0x80000005 ['X', nul, 'Y', nul] 3 0).alone [] abcd =
      .ends .void (Function.update abcd 0x80000005 (some ['X', nul, nul, 'd'])) ∧
    (read 0x80000005 0 3).alone [] (Function.update abcd 0x80000005 (some ['X', nul, nul, 'd'])) =
      .ends (.buffer ['X', nul, nul])
      (Function.update abcd 0x80000005 (some ['X', nul, nul, 'd'])) ∧
    (writeMem (2^62) 0x80000005 ['X', 'Y'] 2 0).alone [] abcd = .undef := by
  refine ⟨?_,?_,?_⟩
  · rw [writeMem_alone rfl]
    rfl
  · rw [read_alone (Function.update_self ..)]
    rfl
  · rw [writeMem_alone rfl]
    rfl

end Yfs.File
