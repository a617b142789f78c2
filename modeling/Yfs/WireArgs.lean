import Yfs.WireTypes

namespace Yfs.Wire

/-- The values for a list of types, as `call` takes and a method registered with
`rpcs::reg` gets them. -/
def Args : List WireTy → Type
  | [] => Unit
  | t :: ts => t.Val × Args ts

/-- `m << a1 << a2 …` and `args >> a1 >> a2 …`. -/
def argsCodec : (ts : List WireTy) → Codec (Args ts)
  | [] => ⟨fun m _ => some m, fun u => some ((), u), fun _ => []⟩
  | t :: ts => t.codec.seq (argsCodec ts)

theorem argsCodec_lawful (ts : List WireTy) : (argsCodec ts).Lawful := by
  induction ts with
  | nil =>
    constructor
    · intro m _ hroom _
      exact writes_nil hroom
    · intros
      rfl
    · intro u _ _ hcut _
      exact absurd hcut.shorter (Nat.not_lt_zero _)
    · intro u hok
      exact ⟨((), u), rfl, hok⟩
    · intro u p hget
      rw [← Option.some.inj hget]
      exact advances_refl u
  | cons t ts ih => exact t.lawful.codec.seq ih

structure ReplyHeader where
  xid : UInt
  ret : UInt
  deriving DecidableEq

/-- The bytes between `ret` and the end of the header are left as they are. -/
def Marshall.packReplyHeader (m : Marshall) (h : ReplyHeader) : Option Marshall :=
  (Marshall.rawbyteAll { m with ind := 4 } ([h.xid, h.ret].flatMap uintBytes)).map
    fun m' => { m' with ind := m.ind }

def Unmarshall.unpackReplyHeader (u : Unmarshall) : ReplyHeader × Unmarshall :=
  let xid := Unmarshall.getUInt { u with ind := 4 }
  let ret := xid.2.getUInt
  (⟨xid.1, ret.1⟩, { ret.2 with ind := rpcHeaderSz })

/-- The PDU on the wire: the values are marshalled, the header is packed below them,
and the channel puts in the size. -/
def sent (junk : ℕ → Byte) (pack : Marshall → Option Marshall) (ts : List WireTy) (args : Args ts) :
    Option (List Byte) :=
  (((argsCodec ts).put (Marshall.new junk) args).bind pack).map fun m => writepdu m.bytes

/-- Each `>>` gives its value and takes the bytes of this value, no more and no less;
after the last one nothing is left. -/
def ReadsBack : (ts : List WireTy) → Args ts → Unmarshall → Prop
  | [], _, u => u.okdone = true
  | t :: ts, (v, vs), u =>
    t.codec.get u = some (v, u.skip (t.codec.enc v).length) ∧
      u.rest.take (t.codec.enc v).length = t.codec.enc v ∧
        ReadsBack ts vs (u.skip (t.codec.enc v).length)

theorem readsBack_of_rest (ts : List WireTy) (args : Args ts) (u : Unmarshall) (hok : u.ok = true)
    (hrest : u.rest = (argsCodec ts).enc args) (hind : u.ind ≤ u.buf.length)
    (hsz : u.buf.length < 2^32) : ReadsBack ts args u := by
  induction ts generalizing u with
  | nil =>
    have hlen := length_of_rest u _ hrest hind
    change u.ind + 0 = u.buf.length at hlen
    simp [ReadsBack, Unmarshall.okdone, hok, ← hlen]
  | cons t ts ih =>
    obtain ⟨v,vs⟩ := args
    change u.rest = t.codec.enc v ++ (argsCodec ts).enc vs at hrest
    have hlen := length_of_rest u _ hrest hind
    rw [List.length_append] at hlen
    refine ⟨t.lawful.codec.reads hok hrest (show u.ind + (t.codec.enc v).length < _ by omega), ?_,
      ?_⟩
    · rw [hrest, List.take_left]
    · apply ih vs (u.skip _) hok (rest_skip u _ _ hrest)
      · change u.ind + (t.codec.enc v).length ≤ u.buf.length
        omega
      · exact hsz

/-- What the two `pack_…_header` do with the bytes of their header. -/
def Marshall.packBytes (hb : List Byte) (m : Marshall) : Option Marshall :=
  (Marshall.rawbyteAll { m with ind := 4 } hb).map fun m' => { m' with ind := m.ind }

/-- A PDU is the size, the header, what the header leaves of its room, and the values. -/
theorem sent_packBytes (junk : ℕ → Byte) (hb : List Byte) (ts : List WireTy) (args : Args ts)
    (hhb : 4 + hb.length ≤ rpcHeaderSz) (hsz : ((argsCodec ts).enc args).length ≤ maxPdu) :
    ∃ sz fill, sz.length = 4 ∧ 4 + hb.length + fill.length = rpcHeaderSz ∧
      sent junk (Marshall.packBytes hb) ts args =
        some (sz ++ (hb ++ (fill ++ (argsCodec ts).enc args))) := by
  obtain ⟨capa,hput,hroom⟩ := (argsCodec_lawful ts).writes args (room_new junk)
    (show rpcHeaderSz + _ ≤ rpcHeaderSz + maxPdu by omega)
  let m := (Marshall.new junk).wroteIn ((argsCodec ts).enc args) capa
  have hbytes : m.bytes = (Marshall.new junk).bytes ++ (argsCodec ts).enc args := bytes_wrote _ _
  have hnew : (Marshall.new junk).bytes.length = rpcHeaderSz := by
    rw [Marshall.bytes, List.length_map, List.length_range]
    rfl
  have hcapa : 4 + hb.length ≤ m.capa := by
    have hdefault : 1024 ≤ m.capa := hroom.default_le
    simp only [rpcHeaderSz] at hhb
    omega
  have hpack : Marshall.packBytes hb m = some { m with buf := overwrite m.buf 4 hb } := by
    rw [Marshall.packBytes, rawbyteAll_of_fits { m with ind := 4 } hb hcapa]
    rfl
  have hfits : 4 + hb.length ≤ m.ind := hhb.trans (Nat.le_add_right _ _)
  have hpdu : (Marshall.mk (overwrite m.buf 4 hb) m.capa m.ind).bytes =
      m.bytes.take 4 ++ (hb ++ m.bytes.drop (4 + hb.length)) := map_overwrite m.buf 4 m.ind hb hfits
  have hdrop : m.bytes.drop (4 + hb.length) =
      (Marshall.new junk).bytes.drop (4 + hb.length) ++ (argsCodec ts).enc args := by
    rw [hbytes, List.drop_append_of_le_length (hnew ▸ hhb)]
  have hfour : (m.bytes.take 4).length = 4 := by
    rw [List.length_take, hbytes, List.length_append, hnew, rpcHeaderSz]
    omega
  rw [hdrop] at hpdu
  refine ⟨uintBytes
    (BitVec.ofNat 32 (Marshall.mk (overwrite m.buf 4 hb) m.capa m.ind).bytes.length),
    (Marshall.new junk).bytes.drop (4 + hb.length), rfl, ?_, ?_⟩
  · rw [List.length_drop, hnew]
    omega
  · rw [sent, hput, Option.bind_some, hpack, Option.map_some, writepdu, stamp]
    nth_rewrite 2 [hpdu]
    rw [List.drop_left' hfour]

def replyBytes (h : ReplyHeader) : List Byte := [h.xid, h.ret].flatMap uintBytes

theorem unpackReplyHeader_of_bytes (h : ReplyHeader) (sz body : List Byte) (hsz : sz.length = 4) :
    (Unmarshall.new (sz ++ (replyBytes h ++ body))).unpackReplyHeader =
      (h, ⟨sz ++ (replyBytes h ++ body), rpcHeaderSz, true⟩) := by
  have hrest : (Unmarshall.mk (sz ++ (replyBytes h ++ body)) 4 true).rest =
      uintBytes h.xid ++ (uintBytes h.ret ++ body) := by
    rw [Unmarshall.rest, List.drop_left' hsz]
    simp [replyBytes, List.append_assoc]
  obtain ⟨h1,r1⟩ := getUInt_of_rest _ _ _ hrest
  obtain ⟨h2,_⟩ := getUInt_of_rest _ _ _ r1
  simp only [Unmarshall.unpackReplyHeader, Unmarshall.new, h1, h2]
  rfl

theorem readsBack_behind (ts : List WireTy) (args : Args ts) (hd : List Byte)
    (hhd : hd.length = rpcHeaderSz) (hsz : ((argsCodec ts).enc args).length ≤ maxPdu) :
    ReadsBack ts args ⟨hd ++ (argsCodec ts).enc args, rpcHeaderSz, true⟩ := by
  have hlen : (hd ++ (argsCodec ts).enc args).length =
      rpcHeaderSz + ((argsCodec ts).enc args).length := by
    rw [List.length_append, hhd]
  apply readsBack_of_rest ts args _ rfl
  · exact List.drop_left' hhd
  · exact hlen ▸ Nat.le_add_right _ _
  · change (hd ++ (argsCodec ts).enc args).length < 2^32
    rw [hlen]
    simp only [rpcHeaderSz, maxPdu] at hsz ⊢
    omega

theorem sent_readsBack (junk : ℕ → Byte) (hb : List Byte) (ts : List WireTy) (args : Args ts)
    (hhb : 4 + hb.length ≤ rpcHeaderSz) (hsz : ((argsCodec ts).enc args).length ≤ maxPdu) :
    ∃ sz body, sz.length = 4 ∧
      (sz ++ (hb ++ body)).length = rpcHeaderSz + ((argsCodec ts).enc args).length ∧
      sent junk (Marshall.packBytes hb) ts args = some (sz ++ (hb ++ body)) ∧
      ReadsBack ts args ⟨sz ++ (hb ++ body), rpcHeaderSz, true⟩ := by
  obtain ⟨sz,fill,h4,hfill,hsent⟩ := sent_packBytes junk hb ts args hhb hsz
  have hhd : (sz ++ (hb ++ fill)).length = rpcHeaderSz := by
    rw [List.length_append, List.length_append, h4, ← Nat.add_assoc, hfill]
  have hassoc : sz ++ (hb ++ (fill ++ (argsCodec ts).enc args)) =
      (sz ++ (hb ++ fill)) ++ (argsCodec ts).enc args := by
    rw [List.append_assoc, List.append_assoc]
  refine ⟨sz, _, h4, ?_, hsent, ?_⟩
  · rw [hassoc, List.length_append, hhd]
  · rw [hassoc]
    exact readsBack_behind ts args _ hhd hsz

/-- A request or a reply is marshalled, sent and unmarshalled: the header and the
values come back, each value from its own bytes, and nothing is left over. -/
theorem wire_round_trip (junk : ℕ → Byte) (ts : List WireTy) (args : Args ts)
    (hsz : ((argsCodec ts).enc args).length ≤ maxPdu) :
    (∀ h : ReqHeader, ∃ pdu u, sent junk (·.packReqHeader h) ts args = some pdu ∧
      (Unmarshall.new pdu).unpackReqHeader = (h, u) ∧ ReadsBack ts args u) ∧
    (∀ h : ReplyHeader, ∃ pdu u, sent junk (·.packReplyHeader h) ts args = some pdu ∧
      (Unmarshall.new pdu).unpackReplyHeader = (h, u) ∧ ReadsBack ts args u) := by
  constructor
  · intro h
    obtain ⟨sz,body,h4,-,hsent,hread⟩ :=
      sent_readsBack junk (headerBytes h) ts args (Nat.le_refl 24) hsz
    exact ⟨_, _, hsent, unpackReqHeader_of_bytes h sz _ h4, hread⟩
  · intro h
    obtain ⟨sz,body,h4,-,hsent,hread⟩ :=
      sent_readsBack junk (replyBytes h) ts args (show 12 ≤ 24 by omega) hsz
    exact ⟨_, _, hsent, unpackReplyHeader_of_bytes h sz _ h4, hread⟩

/-- A map with one entry, from a string to a vector, and an answer to `preparereq`. -/
def sampleTypes : List WireTy := [.map .string (.vector .short), .prepareres]

def sampleArgs : Args sampleTypes :=
  letI : LinearOrder (List Byte) := CType.string.order
  ((⟨[([97], [0x8000, 1])], List.pairwise_singleton _ _⟩ :
    SortedMap (List Byte) (List (BitVec 16))), (⟨true, false, ⟨3, [98]⟩, []⟩ : PrepareRes), ())

theorem wire_round_trip_sample :
    ((argsCodec sampleTypes).enc sampleArgs).length ≤ maxPdu ∧
      ∃ pdu u, sent (fun _ => 0) (·.packReqHeader ⟨7, 1, 2, 3, 4⟩) sampleTypes sampleArgs =
      some pdu ∧
        (Unmarshall.new pdu).unpackReqHeader = (⟨7, 1, 2, 3, 4⟩, u) ∧
          ReadsBack sampleTypes sampleArgs u :=
  have hsz : ((argsCodec sampleTypes).enc sampleArgs).length ≤ maxPdu := by decide
  ⟨hsz, (wire_round_trip (fun _ => 0) sampleTypes sampleArgs hsz).1 _⟩

inductive FnResult (ρ : Type)
  | unmarshalArgsFailure
  | returned (r : ρ)

/-- `fn` of the handlers that `rpcs::reg` makes: all arguments are read before the
object is looked at. -/
def fn {ρ : Type} (ts : List WireTy) (meth : Args ts → ρ) (args : Unmarshall) :
    Option (FnResult ρ) :=
  ((argsCodec ts).get args).map fun r =>
    if r.2.okdone = true then .returned (meth r.1) else .unmarshalArgsFailure

/-- The reading ends, without undefined behaviour, and `okdone()` is false after it. -/
def Rejects (ts : List WireTy) (u : Unmarshall) : Prop :=
  ∃ r, (argsCodec ts).get u = some r ∧ r.2.okdone = false

/-- Every `>>` succeeds, and takes up where the one before it has stopped; the last one
stops at the end of the buffer. -/
def Consumes : (ts : List WireTy) → Args ts → Unmarshall → Prop
  | [], _, u => u.ind = u.buf.length
  | t :: ts, (v, vs), u =>
    ∃ u', t.codec.get u = some (v, u') ∧ u'.buf = u.buf ∧ u.ind ≤ u'.ind ∧ u'.ok = true ∧
      Consumes ts vs u'

theorem rejects_of_fails {ts : List WireTy} {u : Unmarshall} (h : Fails ((argsCodec ts).get u)) :
    Rejects ts u := by
  obtain ⟨r,hr,hok⟩ := h
  exact ⟨r, hr, by rw [Unmarshall.okdone, hok, Bool.false_and]⟩

theorem fn_of_rejects {ρ : Type} {ts : List WireTy} {u : Unmarshall} (h : Rejects ts u)
    (meth : Args ts → ρ) : fn ts meth u = some .unmarshalArgsFailure := by
  obtain ⟨r,hr,hdone⟩ := h
  rw [fn, hr, Option.map_some, if_neg (Bool.eq_false_iff.mp hdone)]

theorem consumes_of_okdone (ts : List WireTy) (u : Unmarshall) (r : Args ts × Unmarshall)
    (hget : (argsCodec ts).get u = some r) (hdone : r.2.okdone = true) : Consumes ts r.1 u := by
  induction ts generalizing u with
  | nil =>
    rw [← Option.some.inj hget] at hdone ⊢
    simp only [Unmarshall.okdone, Bool.and_eq_true, beq_iff_eq] at hdone
    exact hdone.2
  | cons t ts ih =>
    obtain ⟨p,hp,hget⟩ := Option.bind_eq_some_iff.mp hget
    obtain ⟨q,hq,rfl⟩ := Option.map_eq_some_iff.mp hget
    have hfirst := t.lawful.codec.advances hp
    have hrest := (argsCodec_lawful ts).advances hq
    have hok : q.2.ok = true := by
      simp only [Unmarshall.okdone, Bool.and_eq_true] at hdone
      exact hdone.1
    exact ⟨p.2, hp, hfirst.buf, hfirst.ind_le, hrest.ok hok, ih p.2 q hq hdone⟩

section
variable (ts : List WireTy) (args : Args ts) (hd : List Byte)
  (hind : hd.length + ((argsCodec ts).enc args).length < 2^32)
include hind

theorem rejects_cut (body : List Byte) (hstart : body <+: (argsCodec ts).enc args)
    (hne : body ≠ (argsCodec ts).enc args) : Rejects ts ⟨hd ++ body, hd.length, true⟩ := by
  have hshort : body.length < ((argsCodec ts).enc args).length := by
    apply lt_of_le_of_ne hstart.length_le
    intro hlen
    exact hne (hstart.eq_of_length hlen)
  have hrest : (Unmarshall.mk (hd ++ body) hd.length true).rest = body := List.drop_left
  have hcut : (Unmarshall.mk (hd ++ body) hd.length true).Cut ((argsCodec ts).enc args) := by
    constructor
    · exact List.length_append ▸ Nat.le_add_right _ _
    · rwa [hrest]
    · rwa [hrest]
  exact rejects_of_fails ((argsCodec_lawful ts).cut rfl hcut hind)

theorem rejects_extra (extra : List Byte) (hne : extra ≠ []) :
    Rejects ts ⟨hd ++ ((argsCodec ts).enc args ++ extra), hd.length, true⟩ := by
  have hget :=
    (argsCodec_lawful ts).reads (u := ⟨hd ++ ((argsCodec ts).enc args ++ extra), hd.length, true⟩)
    rfl List.drop_left hind
  have hpos := List.length_pos_iff.mpr hne
  refine ⟨_, hget, ?_⟩
  simp only [Unmarshall.okdone, Unmarshall.skip, List.length_append, Bool.true_and,
    beq_eq_false_iff_ne, ne_eq]
  omega

end

theorem consumes_of_returned {ρ : Type} {ts : List WireTy} {meth : Args ts → ρ} {u : Unmarshall}
    {r : ρ} (hfn : fn ts meth u = some (.returned r)) : ∃ a, r = meth a ∧ Consumes ts a u := by
  obtain ⟨p,hp,hr⟩ := Option.map_eq_some_iff.mp hfn
  by_cases hdone : p.2.okdone = true
  · rw [if_pos hdone] at hr
    exact ⟨p.1, (FnResult.returned.inj hr).symm, consumes_of_okdone ts u p hp hdone⟩
  · rw [if_neg hdone] at hr
    cases hr

/-- Values whose encoding has been cut short, or has something behind it, are not
accepted, and what has failed stays so. A method runs on arguments that take up the
whole body. -/
theorem misframed_args_rejected (ts : List WireTy) (args : Args ts) (hd : List Byte)
    (hsz : ((argsCodec ts).enc args).length ≤ maxPdu) (hhd : hd.length ≤ rpcHeaderSz) :
    (∀ body, body <+: (argsCodec ts).enc args → body ≠ (argsCodec ts).enc args →
      Rejects ts ⟨hd ++ body, hd.length, true⟩ ∧
        ∀ (ρ : Type) (meth : Args ts → ρ),
          fn ts meth ⟨hd ++ body, hd.length, true⟩ = some .unmarshalArgsFailure) ∧
    (∀ extra, extra ≠ [] →
      Rejects ts ⟨hd ++ ((argsCodec ts).enc args ++ extra), hd.length, true⟩ ∧
        ∀ (ρ : Type) (meth : Args ts → ρ),
          fn ts meth ⟨hd ++ ((argsCodec ts).enc args ++ extra), hd.length, true⟩ =
            some .unmarshalArgsFailure) ∧
    (∀ (t : WireTy) (u : Unmarshall), u.ok = false →
      ∃ v u', t.codec.get u = some (v, u') ∧ u'.ok = false) ∧
    (∀ (ρ : Type) (meth : Args ts → ρ) (u : Unmarshall) (r : ρ), fn ts meth u = some (.returned r) →
      ∃ a, r = meth a ∧ Consumes ts a u) := by
  have hind : hd.length + ((argsCodec ts).enc args).length < 2^32 := by
    simp only [rpcHeaderSz, maxPdu] at hhd hsz
    omega
  refine ⟨?_, ?_, ?_, fun ρ meth u r => consumes_of_returned⟩
  · intro body hstart hne
    have hrej := rejects_cut ts args hd hind body hstart hne
    exact ⟨hrej, fun _ => fn_of_rejects hrej⟩
  · intro extra hne
    have hrej := rejects_extra ts args hd hind extra hne
    exact ⟨hrej, fun _ => fn_of_rejects hrej⟩
  · intro t u hok
    obtain ⟨p,hp,hfail⟩ := t.lawful.codec.failed hok
    exact ⟨p.1, p.2, hp, hfail⟩

theorem misframed_args_rejected_sample :
    ((argsCodec sampleTypes).enc sampleArgs).length ≤ maxPdu ∧
      (0 : ℕ) ≤ rpcHeaderSz ∧ Rejects sampleTypes ⟨[0, 0, 0, 1], 0, true⟩ :=
  have hsz : ((argsCodec sampleTypes).enc sampleArgs).length ≤ maxPdu := by decide
  have hhd : ([] : List Byte).length ≤ rpcHeaderSz := by decide
  ⟨hsz, hhd, ((misframed_args_rejected sampleTypes sampleArgs [] hsz hhd).1 [0, 0, 0, 1]
    (by decide) (by decide)).1⟩

/-- The argument types of the call sites among all that go over the wire. -/
def Ty.wire : Ty → WireTy
  | .uint => .uint
  | .ulongLong => .ulongLong
  | .string => .string

def Ty.val : (ty : Ty) → ty.wire.Val → Val
  | .uint => .uint
  | .ulongLong => .ulongLong
  | .string => .string

def Args.vals : (tys : List Ty) → Args (tys.map Ty.wire) → List Val
  | [], _ => []
  | ty :: tys, (v, vs) => ty.val v :: Args.vals tys vs

theorem put_val (m : Marshall) (ty : Ty) (v : ty.wire.Val) :
    m.put (ty.val v) = ty.wire.codec.put m v := by
  cases ty <;> rfl

theorem get_wire (u : Unmarshall) (ty : Ty) :
    u.get ty = (ty.wire.codec.get u).map fun r => (ty.val r.1, r.2) := by
  cases ty <;> rfl

theorem putArgs_vals (m : Marshall) (tys : List Ty) (args : Args (tys.map Ty.wire)) :
    m.putArgs (Args.vals tys args) = (argsCodec (tys.map Ty.wire)).put m args := by
  induction tys generalizing m with
  | nil => rfl
  | cons ty tys ih =>
    obtain ⟨v,vs⟩ := args
    rw [Args.vals, Marshall.putArgs, List.foldlM_cons, put_val]
    exact Option.bind_congr fun m' _ => ih m' vs

theorem getArgs_wire (u : Unmarshall) (tys : List Ty) : u.getArgs tys =
    ((argsCodec (tys.map Ty.wire)).get u).map fun r => (Args.vals tys r.1, r.2) := by
  induction tys generalizing u with
  | nil => rfl
  | cons ty tys ih =>
    rw [Unmarshall.getArgs, get_wire]
    -- `argsCodec` reads the first value, and then the others from where it has stopped
    change _ = ((ty.wire.codec.get u).bind _).map _
    cases ty.wire.codec.get u with
    | none => rfl
    | some r =>
      change (r.2.getArgs tys).map _ = (((argsCodec (tys.map Ty.wire)).get r.2).map _).map _
      rw [ih]
      cases (argsCodec (tys.map Ty.wire)).get r.2 <;> rfl

/-- The requests of the call sites are marshalled and unmarshalled as those of any other types. -/
theorem call_eq_sent (junk : ℕ → Byte) (h : ReqHeader) (tys : List Ty)
    (args : Args (tys.map Ty.wire)) :
    (call junk h (Args.vals tys args)).map writepdu =
      sent junk (·.packReqHeader h) (tys.map Ty.wire) args := by
  rw [call, sent, putArgs_vals, Option.map_map]
  rfl

theorem dispatch_eq_fn (procs : UInt → Option (List Ty)) (pdu : List Byte) (tys : List Ty)
    (hok : (Unmarshall.new pdu).unpackReqHeader.2.ok = true)
    (hproc : procs (Unmarshall.new pdu).unpackReqHeader.1.proc = some tys) :
    dispatch procs pdu =
      (fn (tys.map Ty.wire) (Args.vals tys) (Unmarshall.new pdu).unpackReqHeader.2).map fun
        | .unmarshalArgsFailure => .unmarshalArgsFailure
        | .returned args => .handled args := by
  rw [dispatch, if_neg (by simp [hok])]
  simp only [hproc]
  rw [getArgs_wire, fn, Option.map_map, Option.map_map]
  refine congrArg (fun f => Option.map f _) (funext fun r => ?_)
  simp only [Function.comp_apply]
  split_ifs <;> rfl

end Yfs.Wire
