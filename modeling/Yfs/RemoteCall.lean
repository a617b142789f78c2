import Yfs.ConnectionStream
import Yfs.RpcSystem
import Yfs.WireArgs

namespace Yfs.Wire
open Yfs.Conn (received received_writepdu)
open Yfs.Rpc (oldsrvFailure)

/-- A method of an object in a state of type `σ`, with the types of its arguments and of its result,
as it is registered with `rpcs::reg`. It returns the status, the result and the new state. -/
structure Method (σ : Type) where
  args : List WireTy
  res : WireTy
  meth : σ → Args args → UInt × res.Val × σ

inductive Served (σ : Type)
  | dropped
  | replied (pdu : List Byte) (s : σ)

/-- What becomes of a call when a reply has come in. -/
inductive Got (ρ : Type)
  | ignored
  | failed (intret : ℤ)
  | returned (intret : ℤ) (r : ρ)

section
variable {σ : Type} (junk : ℕ → Byte) (nonce : UInt) (procs : UInt → Option (Method σ))

/-- The case `NEW` of `dispatch`: the method runs, and `ret << r` is packed with its status. A
status below zero fails a `VERIFY`, as do arguments that cannot be read. -/
def handled (xid : UInt) (f : Method σ) : FnResult (UInt × f.res.Val × σ) → Option (Served σ)
  | .unmarshalArgsFailure => none
  | .returned x =>
    if x.1.toInt < 0 then none
    else (sent junk (·.packReplyHeader ⟨xid, x.1⟩) [f.res] (x.2.1, ())).map fun pdu =>
      .replied pdu x.2.2

/-- `rpcs::dispatch` for a request that is not a duplicate. -/
def serve (s : σ) (pdu : List Byte) : Option (Served σ) :=
  match (Unmarshall.new pdu).unpackReqHeader with
  | (h, req) =>
    if req.ok = false then some .dropped
    else if h.srvNonce ≠ 0 ∧ h.srvNonce ≠ nonce then
      (sent junk (·.packReplyHeader ⟨h.xid, BitVec.ofInt 32 oldsrvFailure⟩) [] ()).map fun pdu =>
        .replied pdu s
    else match procs h.proc with
      | none => none
      | some f => (fn f.args (f.meth s) req).bind (handled junk h.xid f)

end

/-- The header is taken off with the buffer. -/
def Unmarshall.takeIn (another : Unmarshall) : Unmarshall :=
  ⟨another.buf, rpcHeaderSz, decide (rpcHeaderSz ≤ another.buf.length)⟩

/-- `rpcc::got_pdu` and the end of `call_m`, for the call `xid`. It is `none` if a `VERIFY`
fails. -/
def gotPdu (res : WireTy) (xid : UInt) (pdu : List Byte) : Option (Got res.Val) :=
  match (Unmarshall.new pdu).unpackReplyHeader with
  | (h, rep) =>
    if rep.ok = false then some .ignored
    else if h.xid ≠ xid then some .ignored
    else if h.ret.toInt < 0 then some (.failed h.ret.toInt)
    else (res.codec.get rep.takeIn).bind fun x =>
      if x.2.okdone = true then some (.returned h.ret.toInt x.1) else none

structure RemoteCall (σ : Type) where
  header : ReqHeader
  method : Method σ
  args : Args method.args

section
variable {σ : Type}

/-- The request is sent, taken in by the connection of the server and served, and its reply is taken
in by that of the client. A PDU that a connection does not take in is lost, and the call does
not return. -/
def RemoteCall.remote (junk junk' : ℕ → Byte) (nonce : UInt) (procs : UInt → Option (Method σ))
    (s : σ) (c : RemoteCall σ) : Option (Got c.method.res.Val × σ) :=
  (sent junk (·.packReqHeader c.header) c.method.args c.args).bind fun req =>
    (received req).bind fun pdu =>
      (serve junk' nonce procs s pdu).bind fun
        | .dropped => none
        | .replied rep s' =>
          (received rep).bind fun pdu => (gotPdu c.method.res c.header.xid pdu).map fun g => (g, s')

def RemoteCall.here (s : σ) (c : RemoteCall σ) : Got c.method.res.Val × σ :=
  (.returned (c.method.meth s c.args).1.toInt (c.method.meth s c.args).2.1,
    (c.method.meth s c.args).2.2)

/-- The method is registered, arguments and result fit in a PDU behind a header, and the status is
not that of a failure. -/
structure RemoteCall.Fits (nonce : UInt) (procs : UInt → Option (Method σ)) (s : σ)
    (c : RemoteCall σ) : Prop where
  registered : procs c.header.proc = some c.method
  bound : c.header.srvNonce = 0 ∨ c.header.srvNonce = nonce
  args : rpcHeaderSz + ((argsCodec c.method.args).enc c.args).length ≤ maxPdu
  res : rpcHeaderSz + ((argsCodec [c.method.res]).enc ((c.method.meth s c.args).2.1, ())).length ≤
    maxPdu
  status : 0 ≤ (c.method.meth s c.args).1.toInt

/-- Some calls, one after the other, with what they return. -/
def remoteCalls (junk junk' : ℕ → Byte) (nonce : UInt) (procs : UInt → Option (Method σ)) :
    σ → List (RemoteCall σ) → Option (List ((t : WireTy) × Got t.Val) × σ)
  | s, [] => some ([], s)
  | s, c :: cs => (c.remote junk junk' nonce procs s).bind fun x =>
      (remoteCalls junk junk' nonce procs x.2 cs).map fun y => (⟨c.method.res, x.1⟩ :: y.1, y.2)

def localCalls : σ → List (RemoteCall σ) → List ((t : WireTy) × Got t.Val) × σ
  | s, [] => ([], s)
  | s, c :: cs =>
    (⟨c.method.res, (c.here s).1⟩ :: (localCalls (c.here s).2 cs).1, (localCalls (c.here s).2 cs).2)

/-- Every call fits when it is made. -/
def AllFit (nonce : UInt) (procs : UInt → Option (Method σ)) : σ → List (RemoteCall σ) → Prop
  | _, [] => True
  | s, c :: cs => c.Fits nonce procs s ∧ AllFit nonce procs (c.here s).2 cs

theorem get_of_readsBack {ts : List WireTy} {args : Args ts} {u : Unmarshall}
    (h : ReadsBack ts args u) :
    ∃ u', (argsCodec ts).get u = some (args, u') ∧ u'.okdone = true := by
  induction ts generalizing u with
  | nil => exact ⟨u, rfl, h⟩
  | cons t ts ih =>
    obtain ⟨v,vs⟩ := args
    obtain ⟨hv,-,hrest⟩ := h
    obtain ⟨u',hu',hdone⟩ := ih hrest
    refine ⟨u', ?_, hdone⟩
    change (t.codec.get u).bind _ = _
    rw [hv, Option.bind_some, hu']
    rfl

theorem gotPdu_replied {res : WireTy} (xid ret : UInt) (r : res.Val) (sz body : List Byte)
    (hsz : sz.length = 4)
    (hread : ReadsBack [res] (r, ()) ⟨sz ++ (replyBytes ⟨xid, ret⟩ ++ body), rpcHeaderSz, true⟩)
    (hret : 0 ≤ ret.toInt) :
    gotPdu res xid (sz ++ (replyBytes ⟨xid, ret⟩ ++ body)) = some (.returned ret.toInt r) := by
  obtain ⟨hget,-,hdone⟩ := hread
  have hlen : rpcHeaderSz ≤ (sz ++ (replyBytes ⟨xid, ret⟩ ++ body)).length := by
    simp only [ReadsBack, Unmarshall.okdone, Unmarshall.skip, Bool.true_and, beq_iff_eq] at hdone
    rw [← hdone]
    exact Nat.le_add_right _ _
  simp only [gotPdu, unpackReplyHeader_of_bytes ⟨xid, ret⟩ sz body hsz, Unmarshall.takeIn, hlen,
    decide_true, hget]
  rw [if_neg (by simp), if_neg (by simp), if_neg (Int.not_lt.mpr hret), Option.bind_some]
  exact if_pos hdone

theorem received_sent {junk : ℕ → Byte} {pack : Marshall → Option Marshall} {ts : List WireTy}
    {args : Args ts} {w : List Byte} (hsent : sent junk pack ts args = some w) {n : ℕ}
    (hlen : w.length = rpcHeaderSz + n) (hmax : rpcHeaderSz + n ≤ maxPdu) :
    received w = some w := by
  obtain ⟨m,-,rfl⟩ := Option.map_eq_some_iff.mp hsent
  simp only [rpcHeaderSz, maxPdu] at hlen hmax
  have hstamp : (writepdu m.bytes).length = 4 + (m.bytes.length - 4) := by
    rw [writepdu, stamp, List.length_append, List.length_drop]
    rfl
  rw [received_writepdu (by omega) (by omega), if_pos]
  rw [maxPdu]
  omega

/-- One call is what the method does. -/
theorem remote_eq_here {nonce : UInt} {procs : UInt → Option (Method σ)} {s : σ} {c : RemoteCall σ}
    (h : c.Fits nonce procs s) (junk junk' : ℕ → Byte) :
    c.remote junk junk' nonce procs s = some (c.here s) := by
  -- the request
  obtain ⟨sz,body,hsz,hlen,hsent,hread⟩ :=
    sent_readsBack junk (headerBytes c.header) c.method.args c.args (Nat.le_refl 24)
      (le_of_add_le_right h.args)
  obtain ⟨u,hget,hdone⟩ := get_of_readsBack hread
  have hreq : sent junk (·.packReqHeader c.header) c.method.args c.args =
      some (sz ++ (headerBytes c.header ++ body)) :=
    hsent
  -- the reply
  obtain ⟨sz',body',hsz',hlen',hsent',hread'⟩ := sent_readsBack junk'
    (replyBytes ⟨c.header.xid, (c.method.meth s c.args).1⟩) [c.method.res]
    ((c.method.meth s c.args).2.1, ()) (show 12 ≤ 24 by omega) (le_of_add_le_right h.res)
  have hrep : sent junk' (·.packReplyHeader ⟨c.header.xid, (c.method.meth s c.args).1⟩)
    [c.method.res]
      ((c.method.meth s c.args).2.1, ()) =
        some (sz' ++ (replyBytes ⟨c.header.xid, (c.method.meth s c.args).1⟩ ++ body')) := hsent'
  have hserve : serve junk' nonce procs s (sz ++ (headerBytes c.header ++ body)) =
      some (.replied (sz' ++ (replyBytes ⟨c.header.xid, (c.method.meth s c.args).1⟩ ++ body'))
        (c.method.meth s c.args).2.2) := by
    have hnonce : ¬ (c.header.srvNonce ≠ 0 ∧ c.header.srvNonce ≠ nonce) :=
      fun hx => h.bound.elim hx.1 hx.2
    simp only [serve, unpackReqHeader_of_bytes c.header sz body hsz, h.registered, fn, hget, hdone,
      Option.map_some, if_true, Option.bind_some, handled]
    rw [if_neg (by simp), if_neg hnonce, if_neg (Int.not_lt.mpr h.status), hrep]
    rfl
  rw [RemoteCall.remote, hreq, Option.bind_some, received_sent hsent hlen h.args, Option.bind_some,
    hserve, Option.bind_some]
  simp only [received_sent hsent' hlen' h.res, Option.bind_some,
    gotPdu_replied _ _ _ sz' body' hsz' hread' h.status]
  rfl

/-- Any number of calls of any methods of a remote object return what the methods return, and leave
the object as they leave it. -/
theorem remote_calls_local {nonce : UInt} {procs : UInt → Option (Method σ)} (junk junk' : ℕ → Byte)
    (cs : List (RemoteCall σ)) {s : σ} (h : AllFit nonce procs s cs) :
    remoteCalls junk junk' nonce procs s cs = some (localCalls s cs) := by
  induction cs generalizing s with
  | nil => rfl
  | cons c cs ih =>
    rw [remoteCalls, remote_eq_here h.1, Option.bind_some, ih h.2]
    rfl

end

/-- `put` and `get` of an extent server with one extent, with the result `int` of `put` left at
0. -/
def putMethod : Method (List Byte) where
  args := [.ulongLong, .string]
  res := .int
  meth := fun _ x => (0, (0 : UInt), (x.2.1 : List Byte))

def getMethod : Method (List Byte) where
  args := [.ulongLong]
  res := .string
  meth := fun s _ => (0, s, s)

def oneExtentProcs (proc : UInt) : Option (Method (List Byte)) :=
  if proc = 0x6001 then some putMethod else if proc = 0x6002 then some getMethod else none

def putGet : List (RemoteCall (List Byte)) :=
  [⟨⟨1, 0x6001, 7, 9, 0⟩, putMethod, ((5 : ULongLong), ([1, 2] : List Byte), ())⟩,
    ⟨⟨2, 0x6002, 7, 9, 1⟩, getMethod, ((5 : ULongLong), ())⟩]

theorem remote_calls_local_put_get :
    remoteCalls (fun _ => 0) (fun _ => 1) 9 oneExtentProcs [] putGet =
      some ([⟨.int, .returned 0 (0 : UInt)⟩, ⟨.string, .returned 0 ([1, 2] : List Byte)⟩],
        [1, 2]) := by
  have hfit : AllFit 9 oneExtentProcs [] putGet :=
    ⟨⟨rfl, .inr rfl, by decide, by decide, by decide⟩,
      ⟨rfl, .inr rfl, by decide, by decide, by decide⟩, trivial⟩
  exact remote_calls_local (fun _ => 0) (fun _ => 1) putGet hfit

end Yfs.Wire
