import Yfs.CallSites
import Yfs.ConnectionStream
import Yfs.FileWrite

namespace Yfs.Wire
open Yfs.Conn (received received_eq received_writepdu)

/-- The arguments that the method is called with when the request of a call site comes in on
a connection; `none` in it if the connection or the server does not take the request. -/
def handledArgs (junk : ℕ → Byte) (h : ReqHeader) (site : CallSite) : Option (Option (List Val)) :=
  (call junk { h with proc := site.proc } site.marshalled).map fun pdu =>
    (received (writepdu pdu)).bind fun b =>
      match dispatch site.procs b with
      | some (.handled args) => some args
      | _ => none

/-- What `call` returns: the status of the method. It does not return when its request is
refused. -/
def callStatus (ret : ℤ) (args : Option (List Val)) : Option ℤ := args.map fun _ => ret

section
variable (junk : ℕ → Byte) (h : ReqHeader) (eid : ULongLong) (content : List Byte)

theorem deliver_of_handledArgs {site : CallSite} {args : List Val}
    (hargs : handledArgs junk h site = some (some args)) :
    deliver junk h site = some (.handled args) := by
  obtain ⟨pdu,hcall,hbind⟩ := Option.map_eq_some_iff.mp hargs
  obtain ⟨b,hb,hdispatch⟩ := Option.bind_eq_some_iff.mp hbind
  rw [deliver, hcall, Option.bind_some, ← received_eq hb]
  split at hdispatch
  · next hd =>
    cases hdispatch
    exact hd
  · cases hdispatch

theorem call_flushPut (hlen : content.length < 2^31 - 1024) :
    ∃ pdu, call junk { h with proc := Extent.put } [.ulongLong eid, .string content] = some pdu ∧
      pdu.length = 36 + content.length := by
  obtain ⟨m,hm,hind,hcapa,hput⟩ := putArgs_flushPut junk eid content
  obtain ⟨capa,hle,hs⟩ := putString_of_short m content hind hcapa hlen
  rw [hs] at hput
  generalize hm' : ({ m.wrote (stringBytes content) with capa := capa } : Marshall) = m' at hput
  have hend : m'.ind = 36 + content.length := by
    rw [← hm']
    change m.ind + (stringBytes content).length = _
    rw [hind, stringBytes_length]
    omega
  have hbytes : m'.bytes.length = m'.ind := by
    rw [Marshall.bytes, List.length_map, List.length_range]
  have hheader : ∀ h : ReqHeader, (headerBytes h).length = 20 := fun _ => rfl
  refine ⟨_,call_of_putArgs junk { h with
    proc := Extent.put } _ m' hput (by rw [rpcHeaderSz]; omega) (by rw [← hm']; exact hle),?_⟩
  rw [List.length_append, List.length_append, List.length_take, List.length_drop, hbytes, hheader,
    rpcHeaderSz]
  omega

theorem handledArgs_flushPut (hlen : content.length < 2^31 - 1024) :
    handledArgs junk h (.flushPut eid content) =
      some (if 36 + content.length ≤ maxPdu then some [.ulongLong eid, .string content]
        else none) := by
  obtain ⟨pdu,hcall,hpdu⟩ := call_flushPut junk h eid content hlen
  have hcall' : call junk { h with proc := (CallSite.flushPut eid content).proc }
      (CallSite.flushPut eid content).marshalled = some pdu := hcall
  have hdeliver := deliver_flushPut junk h eid content hlen
  rw [deliver, hcall', Option.bind_some] at hdeliver
  rw [handledArgs, hcall', Option.map_some, received_writepdu (by omega) (by omega), hpdu]
  split_ifs
  · rw [Option.bind_some, hdeliver]
  · rfl

/-- What `flush` has to write back gets there if and only if the request is not too big. -/
theorem handledArgs_flushPut_iff :
    handledArgs junk h (.flushPut eid content) = some (some [.ulongLong eid, .string content]) ↔
      36 + content.length ≤ maxPdu := by
  by_cases hlen : content.length < 2^31 - 1024
  · rw [handledArgs_flushPut junk h eid content hlen]
    split_ifs with hmax
    · exact iff_of_true rfl hmax
    · exact iff_of_false nofun hmax
  · refine iff_of_false (fun hargs => ?_) ?_
    · -- a longer content is cut, or there is no request at all
      have hdeliver := deliver_of_handledArgs junk h hargs
      rcases deliver_flushPut_long junk h eid content (Nat.le_of_not_lt hlen) with hnone | ⟨s,hne,
        hcut⟩
      · cases hdeliver.symm.trans hnone
      · cases hdeliver.symm.trans hcut
        exact hne rfl
    · rw [maxPdu]
      omega

end

end Yfs.Wire

namespace Yfs.File
open Yfs.Dir (Str Inum Status)
open Yfs.Wire

/-- `write` and `setattr`, whose size is an `unsigned int`. -/
def Changes : Call → (Inum → Option Str) → Prop
  | .setattr fileSize, _ => fileSize < 2^32
  | .write _ _ _, _ => True
  | .read _ _, _ => False

/-- The length of the file after a call. -/
def Call.lengthAfter (len : ℕ) : Call → ℕ
  | .setattr fileSize => fileSize
  | .write _ bufferSize offset => max len (offset + bufferSize)
  | .read _ _ => len

theorem length_resize (buffer : Str) (fileSize : ℕ) :
    (resize buffer fileSize).length = fileSize := by
  rw [resize]
  split_ifs with hcut hpad
  · exact List.length_take_of_le hcut.le
  · rw [List.length_append, List.length_replicate]
    omega
  · omega

theorem length_written (fileData buffer : Str) (bufferSize offset : ℕ) :
    (written fileData buffer bufferSize offset).length =
      max fileData.length (offset + bufferSize) := by
  rw [written_eq_splice, (splice_posix _ _ _).length, length_writeString]

section
variable {θ : Type*} {inum : Inum} {content content' : Inum → Option Str} {f : Str}

theorem setattr_alone (fileSize : ℕ) (hfile : content inum = some f) :
    (setattr inum fileSize).alone [] content =
    .ends (.status .ok) (Function.update content inum (some (resize f fileSize))) := by
  simp [setattr, getFile, Prog.alone, hfile]

theorem write_alone (buffer : Str) (bufferSize offset : ℕ) (hfile : content inum = some f) :
    (write inum buffer bufferSize offset).alone [] content =
      .ends .void (Function.update content inum (some (written f buffer bufferSize offset))) := by
  simp [write, Prog.alone, hfile]

theorem call_length {c : Call} {r : Result} (hfile : content inum = some f) (hc : Changes c content)
    (h : (c.body inum).alone [] content = .ends r content') :
    ∃ g, content' inum = some g ∧ g.length = c.lengthAfter f.length := by
  cases c with
  | setattr fileSize =>
    rw [Call.body, setattr_alone fileSize hfile] at h
    cases h
    exact ⟨resize f fileSize,Function.update_self ..,length_resize f fileSize⟩
  | read offset bufferSize => exact hc.elim
  | write buffer bufferSize offset =>
    rw [Call.body, write_alone buffer bufferSize offset hfile] at h
    cases h
    exact ⟨written f buffer bufferSize offset,Function.update_self ..,
      length_written f buffer bufferSize offset⟩

/-- The length of the file after calls that are made one after the other. -/
def lengthAfter (len : ℕ) (l : List (θ × Call × Result)) : ℕ :=
  l.foldl (fun len x => x.2.1.lengthAfter len) len

theorem length_of_run {l : List (θ × Call × Result)} (hfile : content inum = some f)
    (h : SerialRun (Alone (Call.body inum) Changes) content l content') :
    ∃ g, content' inum = some g ∧ g.length = lengthAfter f.length l := by
  induction h with
  | nil => exact ⟨f,hfile,rfl⟩
  | snoc hl hw ih =>
    obtain ⟨f1,hf1,hlen⟩ := ih
    obtain ⟨g,hg,hlen'⟩ := call_length hf1 hw.1 hw.2
    refine ⟨g,hg,?_⟩
    rw [hlen', hlen, lengthAfter, lengthAfter, List.foldl_append]
    rfl

def bytes (s : Str) : List Byte := s.map fun c => BitVec.ofNat 8 c.toNat

/-- `flush` of this cached file: `extent_server::put` is called with the content, and `call`
returns the OK that the `assert` asks for. -/
def WrittenBack (junk : ℕ → Byte) (h : ReqHeader) (inum : Inum) (d : Extent.CachedFile Byte) :
    Prop :=
  ∃ site args, flushSite inum d = some site ∧ handledArgs junk h site = some args ∧
    args = some [.ulongLong inum, .string d.fileContent] ∧ callStatus 0 args = some 0

theorem writtenBack_iff (junk : ℕ → Byte) (h : ReqHeader) {d : Extent.CachedFile Byte}
    (hdirty : d.isDirty = true) (hrem : d.isRemoved = false) : WrittenBack junk h inum d ↔
    36 + d.fileContent.length ≤ maxPdu := by
  have hsite : flushSite inum d = some (.flushPut inum d.fileContent) := by
    rw [flushSite, hrem, if_neg Bool.false_ne_true, if_pos hdirty]
  rw [← handledArgs_flushPut_iff junk h inum d.fileContent]
  constructor
  · rintro ⟨site,args,hs,hargs,rfl,-⟩
    cases hsite.symm.trans hs
    exact hargs
  · intro hargs
    exact ⟨_,_,hsite,hargs,rfl,rfl⟩

theorem put_entry (c : Extent.Client Inum Byte) (env : Extent.Env) (buf : List Byte)
    (hrem : ∀ d ∈ c.fileDataMap inum, d.isRemoved = false) :
    ∃ d, (c.put env inum buf).fileDataMap inum = some d ∧ d.fileContent = buf ∧ d.isDirty = true ∧
    d.isRemoved = false := by
  unfold Extent.Client.put
  cases hd : c.fileDataMap inum with
  | none => exact ⟨_,Function.update_self ..,rfl,rfl,rfl⟩
  | some d => exact ⟨_,Function.update_self ..,rfl,rfl,hrem d hd⟩

/-- What a sequence of `write` and `setattr` calls leaves in the cache is written back by
`flush` if and only if it is not longer than a PDU without its header, eid and length. -/
theorem flush_written_back (junk : ℕ → Byte) (h : ReqHeader) (c : Extent.Client Inum Byte)
    (env : Extent.Env) (l : List (θ × Call × Result)) (hfile : content inum = some f)
    (hl : SerialRun (Alone (Call.body inum) Changes) content l content')
    (hrem : ∀ d ∈ c.fileDataMap inum, d.isRemoved = false) :
    ∃ g d, content' inum = some g ∧ (c.put env inum (bytes g)).fileDataMap inum = some d ∧
      (WrittenBack junk h inum d ↔ lengthAfter f.length l + 36 ≤ maxPdu) := by
  obtain ⟨g,hg,hlen⟩ := length_of_run hfile hl
  obtain ⟨d,hd,hcontent,hdirty,hremoved⟩ := put_entry c env (bytes g) hrem
  refine ⟨g,d,hg,hd,?_⟩
  rw [writtenBack_iff junk h hdirty hremoved, hcontent, bytes, List.length_map, hlen, Nat.add_comm]

end

/-- A write behind the end of the file, which is then cut. -/
def writeAndCut : List (Unit × Call × Result) :=
  [((), .write ['X', 'Y'] 2 7, .void), ((), .setattr 8, .status .ok)]

theorem flush_written_back_cut : ∃ content g d,
    SerialRun (Alone (Call.body 0x80000005) Changes) abcd writeAndCut content ∧
    content 0x80000005 = some g ∧
    (Extent.Client.empty.put ⟨0, 0⟩ 0x80000005 (bytes g)).fileDataMap 0x80000005 = some d ∧
    WrittenBack (fun _ => 0) ⟨1, 0, 1, 0, 0⟩ 0x80000005 d := by
  have hl : SerialRun (Alone (Call.body 0x80000005) Changes) abcd writeAndCut _ :=
    .snoc (.snoc .nil ⟨trivial,write_alone ['X', 'Y'] 2 7 rfl⟩)
      ⟨show 8 < 2^32 by decide,setattr_alone 8 (Function.update_self ..)⟩
  obtain ⟨g,d,hg,hd,hiff⟩ := flush_written_back (fun _ => 0) ⟨1, 0, 1, 0, 0⟩ Extent.Client.empty
    ⟨0, 0⟩ writeAndCut
    rfl hl nofun
  exact ⟨_,g,d,hl,hg,hd,hiff.mpr (by decide)⟩

/-- After a `setattr` to the size of the largest PDU the request of `flush` is refused. -/
theorem flush_refused : ∃ content g,
    SerialRun (Alone (Call.body 0x80000005) Changes) abcd
    [((), .setattr (10 <<< 20), .status .ok)] content ∧
    content 0x80000005 = some g ∧
    ∀ junk h, handledArgs junk h (.flushPut 0x80000005 (bytes g)) = some none ∧
    callStatus 0 none = none := by
  have hl : SerialRun (Alone (Call.body 0x80000005) Changes) abcd
      [((), .setattr (10 <<< 20), .status .ok)] _ :=
    .snoc .nil ⟨show 10 <<< 20 < 2^32 by decide,setattr_alone (10 <<< 20) rfl⟩
  refine ⟨_,_,hl,Function.update_self ..,fun junk h => ⟨?_,rfl⟩⟩
  have hlen : (bytes (resize ['a', 'b', 'c', 'd'] (10 <<< 20))).length = 10 <<< 20 := by
    rw [bytes, List.length_map, length_resize]
  rw [handledArgs_flushPut junk h _ _ (by rw [hlen]; decide), hlen, if_neg (by decide)]

end Yfs.File
