import Yfs.Marshall

namespace Yfs.Wire

inductive Ty
  | uint
  | ulongLong
  | string
  deriving DecidableEq

inductive Val
  | uint (x : UInt)
  | ulongLong (x : ULongLong)
  | string (s : List Byte)
  deriving DecidableEq

def Val.ty : Val → Ty
  | .uint _ => .uint
  | .ulongLong _ => .ulongLong
  | .string _ => .string

def Marshall.put (m : Marshall) : Val → Option Marshall
  | .uint x => m.putUInt x
  | .ulongLong x => m.putULongLong x
  | .string s => m.putString s

def Unmarshall.get (u : Unmarshall) : Ty → Option (Val × Unmarshall)
  | .uint => some (.uint u.getUInt.1, u.getUInt.2)
  | .ulongLong => some (.ulongLong u.getULongLong.1, u.getULongLong.2)
  | .string => u.getString.map fun r => (.string r.1, r.2)

def Marshall.putArgs (m : Marshall) (args : List Val) : Option Marshall :=
  args.foldlM Marshall.put m

/-- The arguments are all read, also after one of them has failed. -/
def Unmarshall.getArgs (u : Unmarshall) : List Ty → Option (List Val × Unmarshall)
  | [] => some ([], u)
  | ty :: tys => (u.get ty).bind fun r => (r.2.getArgs tys).map fun rs => (r.1 :: rs.1, rs.2)

/-- The PDU of a `call` with any number of arguments, with the header that `call1`
packs. -/
def call (junk : ℕ → Byte) (h : ReqHeader) (args : List Val) : Option (List Byte) :=
  (((Marshall.new junk).putArgs args).bind (·.packReqHeader h)).map (·.bytes)

/-- The size is put into the first four bytes. -/
def stamp (sz : ℕ) (b : List Byte) : List Byte := uintBytes (BitVec.ofNat 32 sz) ++ b.drop 4

/-- What `connection::writepdu` makes of a PDU. -/
def writepdu (pdu : List Byte) : List Byte := stamp pdu.length pdu

/-- What becomes of a request that is not a duplicate. The server ends on an
unknown procedure and on arguments that cannot be unmarshalled. -/
inductive Dispatched
  | badHeader
  | unknownProc
  | unmarshalArgsFailure
  | handled (args : List Val)
  deriving DecidableEq

/-- `rpcs::dispatch` up to the call of the method; `procs` gives the argument types
of the methods that are registered. -/
def dispatch (procs : UInt → Option (List Ty)) (pdu : List Byte) : Option Dispatched :=
  let r := (Unmarshall.new pdu).unpackReqHeader
  if r.2.ok = false then some .badHeader
  else match procs r.1.proc with
    | none => some .unknownProc
    | some tys => (r.2.getArgs tys).map fun res =>
        if res.2.okdone = true then .handled res.1 else .unmarshalArgsFailure

def valBytes : Val → List Byte
  | .uint x => uintBytes x
  | .ulongLong x => ulongLongBytes x
  | .string s => stringBytes s

def argsBytes (args : List Val) : List Byte := args.flatMap valBytes

theorem argsBytes_cons (v : Val) (args : List Val) :
    argsBytes (v :: args) = valBytes v ++ argsBytes args := rfl

theorem put_of_fits (m : Marshall) (v : Val) (hcapa : m.capa < 2^31)
    (h : m.ind + (valBytes v).length ≤ m.capa) : m.put v = some (m.wrote (valBytes v)) := by
  cases v with
  | uint x => exact putUInt_of_fits m x h
  | ulongLong x =>
    have h8 : m.ind + 8 ≤ m.capa := h
    have hh := putUInt_of_fits m ((x >>> 32).setWidth 32) (by omega)
    have hl := putUInt_of_fits (m.wrote (uintBytes ((x >>> 32).setWidth 32))) (x.setWidth 32) h8
    rw [wrote_append] at hl
    rw [Marshall.put, Marshall.putULongLong, hh]
    exact hl
  | string s =>
    have hlen : (valBytes (.string s)).length = 4 + s.length := stringBytes_length s
    rw [Marshall.put, putString_of_room m s (by omega) (by omega) (by omega), if_neg (by omega)]
    rfl

theorem putArgs_of_fits (m : Marshall) (args : List Val) (hcapa : m.capa < 2^31)
    (h : m.ind + (argsBytes args).length ≤ m.capa) :
    m.putArgs args = some (m.wrote (argsBytes args)) := by
  induction args generalizing m with
  | nil => exact congrArg some (wrote_nil m).symm
  | cons v args ih =>
    rw [argsBytes_cons, List.length_append] at h
    have hv := put_of_fits m v hcapa (by omega)
    have hih := ih (m.wrote (valBytes v)) hcapa (by simp only [Marshall.wrote]; omega)
    rw [wrote_append] at hih
    rw [Marshall.putArgs, List.foldlM_cons, hv]
    exact hih

def headerBytes (h : ReqHeader) : List Byte :=
  [h.xid, h.proc, h.cltNonce, h.srvNonce, h.xidRep].flatMap uintBytes

theorem packReqHeader_bytes (m : Marshall) (h : ReqHeader) (hind : rpcHeaderSz ≤ m.ind)
    (hcapa : rpcHeaderSz ≤ m.capa) :
    (m.packReqHeader h).map (·.bytes) =
      some (m.bytes.take 4 ++ (headerBytes h ++ m.bytes.drop rpcHeaderSz)) := by
  have hall := rawbyteAll_of_fits { m with ind := 4 } (headerBytes h) hcapa
  rw [Marshall.packReqHeader, ← headerBytes, hall, Option.map_some, Option.map_some,
    Option.some.injEq]
  exact map_overwrite m.buf 4 m.ind (headerBytes h) hind

theorem call_of_putArgs (junk : ℕ → Byte) (h : ReqHeader) (args : List Val) (m : Marshall)
    (hput : (Marshall.new junk).putArgs args = some m) (hind : rpcHeaderSz ≤ m.ind)
    (hcapa : rpcHeaderSz ≤ m.capa) :
    call junk h args = some (m.bytes.take 4 ++ (headerBytes h ++ m.bytes.drop rpcHeaderSz)) := by
  rw [call, hput, Option.bind_some, packReqHeader_bytes m h hind hcapa]

theorem unpackReqHeader_of_bytes (h : ReqHeader) (sz body : List Byte) (hsz : sz.length = 4) :
    (Unmarshall.new (sz ++ (headerBytes h ++ body))).unpackReqHeader =
      (h, ⟨sz ++ (headerBytes h ++ body), rpcHeaderSz, true⟩) := by
  have hrest : (Unmarshall.mk (sz ++ (headerBytes h ++ body)) 4 true).rest =
      uintBytes h.xid ++ (uintBytes h.proc ++ (uintBytes h.cltNonce ++ (uintBytes h.srvNonce ++
        (uintBytes h.xidRep ++ body)))) := by
    rw [Unmarshall.rest, List.drop_left' hsz]
    simp [headerBytes, List.append_assoc]
  obtain ⟨h1,r1⟩ := getUInt_of_rest _ _ _ hrest
  obtain ⟨h2,r2⟩ := getUInt_of_rest _ _ _ r1
  obtain ⟨h3,r3⟩ := getUInt_of_rest _ _ _ r2
  obtain ⟨h4,r4⟩ := getUInt_of_rest _ _ _ r3
  obtain ⟨h5,_⟩ := getUInt_of_rest _ _ _ r4
  simp only [Unmarshall.unpackReqHeader, Unmarshall.new, h1, h2, h3, h4, h5]
  rfl

theorem get_of_rest (u : Unmarshall) (v : Val) (r : List Byte) (h : u.rest = valBytes v ++ r)
    (hok : u.ok = true) (hsz : u.buf.length < 2^31) (hind : u.ind ≤ u.buf.length) :
    u.get v.ty = some (v, u.skip (valBytes v).length) := by
  cases v with
  | uint x =>
    obtain ⟨hg,_⟩ := getUInt_of_rest u x r h
    simp only [Val.ty, Unmarshall.get, hg]
    rfl
  | ulongLong x =>
    have hg := getULongLong_of_rest u x r h
    simp only [Val.ty, Unmarshall.get, hg]
    rfl
  | string s =>
    have hlen := length_of_rest u _ h hind
    rw [List.length_append] at hlen
    have hg :=
      getString_of_rest u s r h hok (show u.ind + (valBytes (.string s)).length < _ by omega)
    simp only [Val.ty, Unmarshall.get, hg]
    rfl

theorem getArgs_of_rest (u : Unmarshall) (args : List Val) (r : List Byte)
    (h : u.rest = argsBytes args ++ r) (hok : u.ok = true) (hsz : u.buf.length < 2^31)
    (hind : u.ind ≤ u.buf.length) :
    u.getArgs (args.map Val.ty) = some (args, u.skip (argsBytes args).length) := by
  induction args generalizing u with
  | nil => rfl
  | cons v args ih =>
    rw [argsBytes_cons, List.append_assoc] at h
    have hlen := length_of_rest u _ h hind
    rw [List.length_append] at hlen
    have hv := get_of_rest u v _ h hok hsz hind
    have hih := ih (u.skip (valBytes v).length) (rest_skip u _ _ h) hok hsz
      (by simp only [Unmarshall.skip]; omega)
    rw [skip_skip] at hih
    rw [List.map_cons, Unmarshall.getArgs, hv, Option.bind_some, hih, argsBytes_cons,
      List.length_append]
    rfl

/-- A request whose body is the encoding of the arguments that the registered method
takes is handled with these arguments. -/
theorem dispatch_handled (procs : UInt → Option (List Ty)) (h : ReqHeader) (sz : List Byte)
    (args : List Val) (hsz : sz.length = 4) (hproc : procs h.proc = some (args.map Val.ty))
    (hlen : rpcHeaderSz + (argsBytes args).length < 2^31) :
    dispatch procs (sz ++ (headerBytes h ++ argsBytes args)) = some (.handled args) := by
  have hl : (sz ++ (headerBytes h ++ argsBytes args)).length =
      rpcHeaderSz + (argsBytes args).length := by
    have hh : (headerBytes h).length = 20 := rfl
    rw [List.length_append, List.length_append, hsz, hh, rpcHeaderSz]
    omega
  have hargs := getArgs_of_rest ⟨sz ++ (headerBytes h ++ argsBytes args), rpcHeaderSz, true⟩ args []
    (by
      rw [Unmarshall.rest, ← List.append_assoc, List.append_nil]
      apply List.drop_left'
      rw [List.length_append, hsz]
      rfl) rfl (hl ▸ hlen) (hl ▸ Nat.le_add_right _ _)
  simp only [dispatch, unpackReqHeader_of_bytes h sz _ hsz, hproc, hargs]
  simp [Unmarshall.okdone, Unmarshall.skip, hl]

end Yfs.Wire
