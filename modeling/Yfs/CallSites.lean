import Yfs.Extent
import Yfs.RpcCall

namespace Yfs.Wire

/-- The methods that a server has registered, by procedure number; the constructor
of `rpcs` registers `rpcbind`. -/
def rpcs (reg : List (UInt × List Ty)) (proc : UInt) : Option (List Ty) :=
  ((1, [.uint]) :: reg).lookup proc

namespace Extent

def put : UInt := 0x6001
def get : UInt := 0x6002
def getattr : UInt := 0x6003
def remove : UInt := 0x6004

/-- The registrations of extent_smain.cc. -/
def smain : UInt → Option (List Ty) :=
  rpcs [(get, [.ulongLong]), (getattr, [.ulongLong]), (put, [.ulongLong, .string]),
    (remove, [.ulongLong])]

end Extent

namespace Lock

def acquire : UInt := 0x7001
def release : UInt := 0x7002
def attach : UInt := 0x7003
def unattach : UInt := 0x7004
def stat : UInt := 0x7005
def revoke : UInt := 0x8001
def retry : UInt := 0x8002

/-- The registrations of lock_smain.cc for `lock_server_cache`. -/
def smain : UInt → Option (List Ty) :=
  rpcs [(stat, [.ulongLong]), (acquire, [.ulongLong, .string]), (release, [.ulongLong, .string]),
    (attach, [.string]), (unattach, [.string])]

/-- The registrations in the constructor of `lock_client_cache`. -/
def clientCache : UInt → Option (List Ty) :=
  rpcs [(revoke, [.ulongLong]), (retry, [.ulongLong])]

def hname : List Char := ['1', '2', '7', '.', '0', '.', '0', '.', '1']

/-- The id that `lock_client_cache` gives itself, from the port of its server. -/
def id (port : BitVec 16) : List Byte :=
  (hname ++ ':' :: Nat.toDigits 10 port.toNat).map fun c => BitVec.ofNat 8 c.toNat

end Lock

/-- The call sites, with the values that they are reached with: those of
`extent_client`, `lock_client::stat` as `lock_client_cache` inherits it, those of
`lock_client_cache`, and the retryer's and revoker's. -/
inductive CallSite
  | extentGet (eid : ULongLong)
  | extentGetattr (eid : ULongLong)
  | flushRemove (eid : ULongLong)
  | flushPut (eid : ULongLong) (content : List Byte)
  | lockStat (cltNonce : UInt) (lid : ULongLong)
  | lockAttach (port : BitVec 16)
  | destructorRelease (lid : ULongLong) (port : BitVec 16)
  | lockUnattach (port : BitVec 16)
  | releaserRelease (lid : ULongLong) (port : BitVec 16)
  | callToServer (lid : ULongLong) (port : BitVec 16)
  | serverRetry (lid : ULongLong)
  | serverRevoke (lid : ULongLong)

namespace CallSite

def proc : CallSite → UInt
  | extentGet _ => Extent.get
  | extentGetattr _ => Extent.getattr
  | flushRemove _ => Extent.remove
  | flushPut _ _ => Extent.put
  | lockStat _ _ => Lock.stat
  | lockAttach _ => Lock.attach
  | destructorRelease _ _ => Lock.release
  | lockUnattach _ => Lock.unattach
  | releaserRelease _ _ => Lock.release
  | callToServer _ _ => Lock.acquire
  | serverRetry _ => Lock.retry
  | serverRevoke _ => Lock.revoke

def procs : CallSite → UInt → Option (List Ty)
  | extentGet _ | extentGetattr _ | flushRemove _ | flushPut _ _ => Extent.smain
  | lockStat _ _ | lockAttach _ | destructorRelease _ _ | lockUnattach _ | releaserRelease _ _
  | callToServer _ _ => Lock.smain
  | serverRetry _ | serverRevoke _ => Lock.clientCache

/-- What the overload that is chosen marshals. `cl->call(remove, eid)` has two
arguments, so `eid` is the place for the result and nothing is marshalled. -/
def marshalled : CallSite → List Val
  | extentGet eid => [.ulongLong eid]
  | extentGetattr eid => [.ulongLong eid]
  | flushRemove _ => []
  | flushPut eid content => [.ulongLong eid, .string content]
  | lockStat cltNonce lid => [.uint cltNonce, .ulongLong lid]
  | lockAttach port => [.string (Lock.id port)]
  | destructorRelease lid port => [.ulongLong lid, .string (Lock.id port)]
  | lockUnattach port => [.string (Lock.id port)]
  | releaserRelease lid port => [.ulongLong lid, .string (Lock.id port)]
  | callToServer lid port => [.ulongLong lid, .string (Lock.id port)]
  | serverRetry lid => [.ulongLong lid]
  | serverRevoke lid => [.ulongLong lid]

/-- The arguments that the method at the other end is meant to be called with. -/
def intended : CallSite → List Val
  | flushRemove eid => [.ulongLong eid]
  | lockStat _ lid => [.ulongLong lid]
  | site => site.marshalled

/-- The site is neither `flush` of a removed extent nor `stat`, and the buffer that
a content is marshalled into has a size that is an `int`. -/
def Sound : CallSite → Prop
  | flushRemove _ => False
  | lockStat _ _ => False
  | flushPut _ content => content.length < 2^31 - 1024
  | _ => True

end CallSite

/-- The request of a call site, from the `call` to the server's `dispatch`. -/
def deliver (junk : ℕ → Byte) (h : ReqHeader) (site : CallSite) : Option Dispatched :=
  (call junk { h with proc := site.proc } site.marshalled).bind fun pdu =>
    dispatch site.procs (writepdu pdu)

/-- The call site that `extent_client::flush` reaches with a cached extent. -/
def flushSite (eid : ULongLong) (d : Yfs.Extent.CachedFile Byte) : Option CallSite :=
  if d.isRemoved = true then some (.flushRemove eid)
  else if d.isDirty = true then some (.flushPut eid d.fileContent)
  else none

theorem id_length (port : BitVec 16) : (Lock.id port).length ≤ 15 := by
  have hport : port.toNat < 10^5 := by omega
  have hdigits : (Nat.toDigits 10 port.toNat).length ≤ 5 :=
    (Nat.length_toDigits_le_iff (by decide) (by decide)).mpr hport
  simp only [Lock.id, Lock.hname, List.length_map, List.length_append, List.length_cons,
    List.length_nil]
  omega

/-- What is marshalled into a buffer, grown or not, arrives. -/
theorem deliver_of_putArgs (junk : ℕ → Byte) (h : ReqHeader) (site : CallSite) (capa : ℕ)
    (hput : (Marshall.new junk).putArgs site.marshalled =
      some { (Marshall.new junk).wrote (argsBytes site.marshalled) with capa := capa })
    (hcapa : rpcHeaderSz ≤ capa) :
    ∃ sz, sz.length = 4 ∧ deliver junk h site = dispatch site.procs
      (sz ++ (headerBytes { h with proc := site.proc } ++ argsBytes site.marshalled)) := by
  have hbytes : Marshall.bytes
      { (Marshall.new junk).wrote (argsBytes site.marshalled) with capa := capa } =
      (Marshall.new junk).bytes ++ argsBytes site.marshalled := bytes_wrote _ _
  have hnew : (Marshall.new junk).bytes.length = rpcHeaderSz := by
    simp [Marshall.bytes, Marshall.new]
  have hcall := call_of_putArgs junk { h with proc := site.proc } _ _ hput
    (Nat.le_add_right _ _) hcapa
  rw [hbytes, List.drop_left' hnew] at hcall
  rw [deliver, hcall, Option.bind_some, writepdu, stamp]
  have htake : (((Marshall.new junk).bytes ++ argsBytes site.marshalled).take 4).length = 4 := by
    rw [List.length_take, List.length_append, hnew, rpcHeaderSz]
    omega
  rw [List.drop_left' htake]
  exact ⟨_, rfl, rfl⟩

theorem deliver_handled (junk : ℕ → Byte) (h : ReqHeader) (site : CallSite) (capa : ℕ)
    (hput : (Marshall.new junk).putArgs site.marshalled =
      some { (Marshall.new junk).wrote (argsBytes site.marshalled) with capa := capa })
    (hcapa : rpcHeaderSz ≤ capa) (hsz : rpcHeaderSz + (argsBytes site.marshalled).length < 2^31)
    (hproc : site.procs site.proc = some (site.marshalled.map Val.ty)) :
    deliver junk h site = some (.handled site.marshalled) := by
  obtain ⟨sz,hlen,hd⟩ := deliver_of_putArgs junk h site capa hput hcapa
  rw [hd]
  exact dispatch_handled site.procs { h with proc := site.proc } sz site.marshalled hlen hproc hsz

theorem putArgs_of_short (junk : ℕ → Byte) (args : List Val)
    (hlen : rpcHeaderSz + (argsBytes args).length ≤ defaultRpcSz) :
    (Marshall.new junk).putArgs args =
      some { (Marshall.new junk).wrote (argsBytes args) with capa := defaultRpcSz } :=
  putArgs_of_fits (Marshall.new junk) args (show 1024 < 2^31 by decide) hlen

theorem argsBytes_length_ulongLong (x : ULongLong) (args : List Val) :
    (argsBytes (.ulongLong x :: args)).length = 8 + (argsBytes args).length := by
  rw [argsBytes_cons, List.length_append]
  rfl

theorem argsBytes_length_string (s : List Byte) :
    (argsBytes [.string s]).length = 4 + s.length := by
  rw [argsBytes_cons, List.length_append, valBytes, stringBytes_length]
  rfl

/-- All that is marshalled is short, an extent's content excepted. -/
theorem marshalled_short (site : CallSite) (h : ∀ eid content, site ≠ .flushPut eid content) :
    (argsBytes site.marshalled).length ≤ 27 := by
  cases site with
  | flushPut eid content => exact absurd rfl (h eid content)
  | extentGet | extentGetattr | flushRemove | lockStat | serverRetry | serverRevoke =>
    exact Nat.le_of_ble_eq_true rfl
  | lockAttach port | lockUnattach port =>
    have hid := id_length port
    rw [CallSite.marshalled, argsBytes_length_string]
    omega
  | destructorRelease lid port | releaserRelease lid port | callToServer lid port =>
    have hid := id_length port
    rw [CallSite.marshalled, argsBytes_length_ulongLong, argsBytes_length_string]
    omega

section
variable (m : Marshall) (content : List Byte) (hind : m.ind = 32) (hcapa : m.capa = defaultRpcSz)
include hind hcapa

theorem putString_of_short (hlen : content.length < 2^31 - 1024) :
    ∃ capa, rpcHeaderSz ≤ capa ∧
      m.putString content = some { m.wrote (stringBytes content) with capa := capa } := by
  rw [defaultRpcSz] at hcapa
  have hgrown : rpcHeaderSz ≤ m.grown content.length ∧ m.grown content.length < 2^31 := by
    rw [Marshall.grown, hcapa, rpcHeaderSz]
    split_ifs <;> omega
  refine ⟨_, ?_, putString_of_room m content (by omega) (by omega) fun _ => hgrown.2⟩
  split_ifs
  · exact hgrown.1
  · rw [hcapa]
    decide

/-- From this length on, the new capacity is no `int`. -/
theorem putString_of_long (hlong : 2^31 - 1024 ≤ content.length) (hlen : content.length < 2^32) :
    m.putString content = none := by
  rw [defaultRpcSz] at hcapa
  have hnat : (BitVec.ofNat 32 content.length).toNat = content.length := by
    rw [BitVec.toNat_ofNat, Nat.mod_eq_of_lt hlen]
  rw [Marshall.putString, putUInt_of_fits m _ (by omega), Option.bind_some]
  by_cases h31 : content.length < 2^31
  · rw [BitVec.toInt_eq_toNat_of_lt (by omega), hnat]
    apply rawbytes_of_overflow
    · change m.capa < m.ind + 4 + content.length
      omega
    · change 2^31 ≤ if m.capa > content.length then 2 * m.capa else m.capa + content.length
      rw [if_neg (by omega)]
      omega
  · -- as an `int` the size is negative
    have hneg : (BitVec.ofNat 32 content.length).toInt = Int.negSucc
        (2^32 - content.length - 1) := by
      rw [BitVec.toInt_eq_toNat_cond, if_neg (by omega), hnat]
      omega
    rw [hneg]
    rfl

end

/-- Of a longer string only the length modulo 2^32 is seen. -/
theorem putString_mod (m : Marshall) (content : List Byte) :
    m.putString content = m.putString (content.take (content.length % 2^32)) := by
  have hlen : (content.take (content.length % 2^32)).length = content.length % 2^32 := by
    rw [List.length_take]
    exact Nat.min_eq_left (Nat.mod_le _ _)
  have hof : BitVec.ofNat 32 (content.take (content.length % 2^32)).length =
      BitVec.ofNat 32 content.length := by
    apply BitVec.eq_of_toNat_eq
    rw [BitVec.toNat_ofNat, BitVec.toNat_ofNat, hlen, Nat.mod_mod]
  have hraw : ∀ m' : Marshall, m'.rawbytes content (BitVec.ofNat 32 content.length).toInt =
      m'.rawbytes (content.take (content.length % 2^32))
        (BitVec.ofNat 32 content.length).toInt := by
    intro m'
    cases hn : (BitVec.ofNat 32 content.length).toInt with
    | negSucc n => rfl
    | ofNat n =>
      have hle : n ≤ content.length % 2^32 := by
        rw [BitVec.toInt_eq_toNat_cond, BitVec.toNat_ofNat, Int.ofNat_eq_natCast] at hn
        split_ifs at hn <;> omega
      rw [Marshall.rawbytes, Marshall.rawbytes, List.take_take, Nat.min_eq_left hle]
  rw [Marshall.putString, Marshall.putString, hof]
  congr 1
  funext m'
  exact hraw m'

theorem putArgs_flushPut (junk : ℕ → Byte) (eid : ULongLong) (content : List Byte) :
    ∃ m : Marshall, m = (Marshall.new junk).wrote (ulongLongBytes eid) ∧ m.ind = 32 ∧
      m.capa = defaultRpcSz ∧
      (Marshall.new junk).putArgs (CallSite.flushPut eid content).marshalled =
      m.putString content := by
  have heid : (Marshall.new junk).put (.ulongLong eid) =
      some ((Marshall.new junk).wrote (ulongLongBytes eid)) :=
    put_of_fits (Marshall.new junk) (.ulongLong eid) (show 1024 < 2^31 by decide)
      (show 24 + 8 ≤ 1024 by decide)
  refine ⟨_, rfl, rfl, rfl, ?_⟩
  rw [CallSite.marshalled, Marshall.putArgs, List.foldlM_cons, heid]
  change (Marshall.putString _ content >>= some) = _
  exact Option.bind_fun_some _

theorem deliver_flushPut (junk : ℕ → Byte) (h : ReqHeader) (eid : ULongLong) (content : List Byte)
    (hlen : content.length < 2^31 - 1024) :
    deliver junk h (.flushPut eid content) = some (.handled [.ulongLong eid, .string content]) := by
  obtain ⟨m,hm,hind,hcapa,hput⟩ := putArgs_flushPut junk eid content
  obtain ⟨capa,hle,hs⟩ := putString_of_short m content hind hcapa hlen
  have hargs : argsBytes (CallSite.flushPut eid content).marshalled =
      ulongLongBytes eid ++ stringBytes content := by
    simp [CallSite.marshalled, argsBytes, valBytes]
  refine deliver_handled junk h (.flushPut eid content) capa ?_ hle ?_ rfl
  · rw [hput, hs, hargs, hm, wrote_append]
  · rw [CallSite.marshalled, argsBytes_length_ulongLong, argsBytes_length_string, rpcHeaderSz]
    omega

/-- A longer content is cut, or it does not get through `marshall`. -/
theorem deliver_flushPut_long (junk : ℕ → Byte) (h : ReqHeader) (eid : ULongLong)
    (content : List Byte) (hlen : 2^31 - 1024 ≤ content.length) :
    deliver junk h (.flushPut eid content) = none ∨ ∃ s, s ≠ content ∧
      deliver junk h (.flushPut eid content) = some (.handled [.ulongLong eid, .string s]) := by
  have hmod := Nat.mod_lt content.length (show 2^32 > 0 by decide)
  have htake : (content.take (content.length % 2^32)).length = content.length % 2^32 := by
    rw [List.length_take]
    exact Nat.min_eq_left (Nat.mod_le _ _)
  -- the same request as for the content cut to its length modulo 2^32
  have hcut : deliver junk h (.flushPut eid content) =
      deliver junk h (.flushPut eid (content.take (content.length % 2^32))) := by
    obtain ⟨m,hm,_,_,hput⟩ := putArgs_flushPut junk eid content
    obtain ⟨m',hm',_,_,hput'⟩ := putArgs_flushPut junk eid (content.take (content.length % 2^32))
    have hargs : (Marshall.new junk).putArgs (CallSite.flushPut eid content).marshalled =
        (Marshall.new junk).putArgs
          (CallSite.flushPut eid (content.take (content.length % 2^32))).marshalled := by
      rw [hput, hput', putString_mod, hm, hm']
    rw [deliver, deliver, call, call, hargs]
    rfl
  rw [hcut]
  by_cases hshort : content.length % 2^32 < 2^31 - 1024
  · refine Or.inr ⟨_, ?_, deliver_flushPut junk h eid _ (by omega)⟩
    intro he
    have hl := congrArg List.length he
    omega
  · left
    obtain ⟨m,_,hind,hcapa,hput⟩ := putArgs_flushPut junk eid (content.take (content.length % 2^32))
    rw [putString_of_long m _ hind hcapa (by omega) (by omega)] at hput
    rw [deliver, call, hput]
    rfl

/-- A method that takes one `unsigned long long` refuses a body of another length. -/
theorem dispatch_rejected (procs : UInt → Option (List Ty)) (h : ReqHeader) (sz body : List Byte)
    (hsz : sz.length = 4) (hproc : procs h.proc = some [.ulongLong]) (hlen : body.length ≠ 8) :
    dispatch procs (sz ++ (headerBytes h ++ body)) = some .unmarshalArgsFailure := by
  have hbuf : (sz ++ (headerBytes h ++ body)).length = rpcHeaderSz + body.length := by
    have hh : (headerBytes h).length = 20 := rfl
    rw [List.length_append, List.length_append, hsz, hh, rpcHeaderSz]
    omega
  have hdone : ∀ u : Unmarshall, u.buf = sz ++ (headerBytes h ++ body) → u.ind = rpcHeaderSz →
      ¬ u.getULongLong.2.okdone = true := by
    intro u hb hi hdone
    obtain ⟨hok,hend⟩ := Bool.and_eq_true_iff.mp hdone
    obtain ⟨hskip,_,_⟩ := getULongLong_ok u hok
    rw [hskip, beq_iff_eq] at hend
    change u.ind + 8 = u.buf.length at hend
    rw [hb, hi, hbuf] at hend
    omega
  simp only [dispatch, unpackReqHeader_of_bytes h sz _ hsz, hproc, Unmarshall.getArgs,
    Unmarshall.get, Option.bind_some, Option.map_some]
  rw [if_neg (by simp), if_neg (hdone ⟨_, rpcHeaderSz, true⟩ rfl rfl)]

theorem deliver_rejected (junk : ℕ → Byte) (h : ReqHeader) (site : CallSite)
    (hproc : site.procs site.proc = some [.ulongLong])
    (hne : (argsBytes site.marshalled).length ≠ 8)
    (hshort : (argsBytes site.marshalled).length ≤ 27) :
    deliver junk h site = some .unmarshalArgsFailure := by
  have hput := putArgs_of_short junk site.marshalled (by rw [rpcHeaderSz, defaultRpcSz]; omega)
  obtain ⟨sz,hlen,hd⟩ := deliver_of_putArgs junk h site _ hput (by decide)
  rw [hd]
  exact dispatch_rejected site.procs { h with proc := site.proc } sz _ hlen hproc hne

theorem deliver_flushRemove (junk : ℕ → Byte) (h : ReqHeader) (eid : ULongLong) :
    deliver junk h (.flushRemove eid) = some .unmarshalArgsFailure :=
  deliver_rejected junk h (.flushRemove eid) rfl (show ¬ 0 = 8 by decide) (show 0 ≤ 27 by decide)

theorem deliver_lockStat (junk : ℕ → Byte) (h : ReqHeader) (cltNonce : UInt) (lid : ULongLong) :
    deliver junk h (.lockStat cltNonce lid) = some .unmarshalArgsFailure :=
  deliver_rejected junk h (.lockStat cltNonce lid) rfl
    (show ¬ 12 = 8 by decide) (show 12 ≤ 27 by decide)

/-- `flush` fails, as it is modelled for the extent caches, exactly when its request
ends the server. -/
theorem flush_fails_iff_rejected (junk : ℕ → Byte) (h : ReqHeader) (env : Yfs.Extent.Env)
    (c : Yfs.Extent.Client ULongLong Byte) (s : Yfs.Extent.Server ULongLong Byte)
    (eid : ULongLong) :
    c.flush s env eid = none ↔ ∃ d site, c.fileDataMap eid = some d ∧ flushSite eid d = some site ∧
      deliver junk h site = some .unmarshalArgsFailure := by
  have hput : ∀ content, deliver junk h (.flushPut eid content) ≠ some .unmarshalArgsFailure := by
    intro content hd
    by_cases hlen : content.length < 2^31 - 1024
    · cases hd.symm.trans (deliver_flushPut junk h eid content hlen)
    · rcases deliver_flushPut_long junk h eid content (Nat.le_of_not_lt hlen) with hn | ⟨s,_,hn⟩ <;>
        cases hd.symm.trans hn
  unfold Yfs.Extent.Client.flush flushSite
  cases hd : c.fileDataMap eid with
  | none => simp
  | some d =>
    simp only [Option.some.injEq]
    by_cases hrem : d.isRemoved = true
    · rw [if_pos hrem]
      refine iff_of_true rfl ⟨d, .flushRemove eid, rfl, ?_, deliver_flushRemove junk h eid⟩
      rw [if_pos hrem]
    · rw [if_neg hrem]
      refine iff_of_false ?_ ?_
      · split_ifs <;> simp
      · rintro ⟨_,site,rfl,hsite,hdel⟩
        rw [if_neg hrem] at hsite
        split_ifs at hsite
        cases hsite
        exact hput _ hdel

/-- The method is called with the intended arguments exactly at the sites that are
sound. -/
theorem delivered_iff_sound (junk : ℕ → Byte) (h : ReqHeader) (site : CallSite) :
    deliver junk h site = some (.handled site.intended) ↔ site.Sound := by
  have hall : ∀ site : CallSite, (∀ eid content, site ≠ .flushPut eid content) →
      site.procs site.proc = some (site.marshalled.map Val.ty) →
      deliver junk h site = some (.handled site.marshalled) := by
    intro site hne hproc
    have hshort := marshalled_short site hne
    refine deliver_handled junk h site defaultRpcSz ?_ (by decide) ?_ hproc
    · apply putArgs_of_short
      rw [rpcHeaderSz, defaultRpcSz]
      omega
    · rw [rpcHeaderSz]
      omega
  cases site with
  | flushRemove eid =>
    rw [deliver_flushRemove]
    simp [CallSite.Sound]
  | lockStat cltNonce lid =>
    rw [deliver_lockStat]
    simp [CallSite.Sound]
  | flushPut eid content =>
    constructor
    · intro hd
      by_contra hlen
      rcases deliver_flushPut_long junk h eid content (Nat.le_of_not_lt hlen) with hn | ⟨s,hs,hn⟩
      · cases hd.symm.trans hn
      · cases hd.symm.trans hn
        exact hs rfl
    · exact deliver_flushPut junk h eid content
  | extentGet | extentGetattr | lockAttach | destructorRelease | lockUnattach | releaserRelease
  | callToServer | serverRetry | serverRevoke =>
    exact iff_of_true (hall _ (by simp) rfl) trivial

/-- A client that has put and then removed extent 2, and `stat` of lock 1. -/
theorem flush_and_stat_rejected :
    ((Yfs.Extent.Client.empty.put ⟨0, 0⟩ (2 : ULongLong)
      ([] : List Byte)).remove 2).2.fileDataMap 2 =
      some ⟨[], ⟨0, 0, 0, 0⟩, true, true⟩ ∧
    flushSite 2 ⟨[], ⟨0, 0, 0, 0⟩, true, true⟩ = some (.flushRemove 2) ∧
    deliver (fun _ => 0) ⟨1, 0, 7, 9, 0⟩ (.flushRemove 2) = some .unmarshalArgsFailure ∧
    deliver (fun _ => 0) ⟨1, 0, 7, 9, 0⟩ (.lockStat 7 1) = some .unmarshalArgsFailure :=
  ⟨rfl, rfl, deliver_flushRemove _ _ 2, deliver_lockStat _ _ 7 1⟩

end Yfs.Wire
