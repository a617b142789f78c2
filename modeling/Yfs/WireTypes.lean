import Yfs.Codec
import Yfs.RpcCall

namespace Yfs.Wire

def boolBytes (x : Bool) : List Byte := [if x then 1 else 0]

def Unmarshall.getBool (u : Unmarshall) : Bool × Unmarshall := (u.rawbyte.1 != 0, u.rawbyte.2)

def ucharBytes (x : Byte) : List Byte := [x]

def Unmarshall.getUChar (u : Unmarshall) : Byte × Unmarshall :=
  (u.rawbyte.1.setWidth 8, u.rawbyte.2)

def ushortBytes (x : BitVec 16) : List Byte := [(x >>> 8).setWidth 8, x.setWidth 8]

def Unmarshall.getUShort (u : Unmarshall) : BitVec 16 × Unmarshall :=
  let r1 := u.rawbyte
  let r0 := r1.2.rawbyte
  (((r1.1 &&& 0xff) <<< 8 ||| r0.1 &&& 0xff).setWidth 16, r0.2)

theorem bool_scalar : Codec.Scalar 1 boolBytes Unmarshall.getBool where
  length _ := rfl
  of_rest u x r h := by
    have hbyte := unmarshall_rawbyte_cons u _ r h
    rw [Unmarshall.getBool, hbyte]
    cases x <;> rfl
  ok u h := (rawbyte_ok u h).2
  advances := rawbyte_advances

theorem setWidth_signExtend (x : Byte) : (x.signExtend 32).setWidth 8 = x := by
  apply BitVec.eq_of_getLsbD_eq
  intro i hi
  rw [BitVec.getLsbD_setWidth, BitVec.getLsbD_signExtend]
  simp [hi, show i < 32 by omega]

theorem uchar_scalar : Codec.Scalar 1 ucharBytes Unmarshall.getUChar where
  length _ := rfl
  of_rest u x r h := by
    have hbyte := unmarshall_rawbyte_cons u x r h
    rw [Unmarshall.getUChar, hbyte, setWidth_signExtend]
  ok u h := (rawbyte_ok u h).2
  advances := rawbyte_advances

theorem ushort_of_ushortBytes (x : BitVec 16) :
    (((x >>> 8).setWidth 8).setWidth 32 <<< 8 ||| (x.setWidth 8).setWidth 32).setWidth 16 = x := by
  apply BitVec.eq_of_getLsbD_eq
  intro i hi
  simp only [BitVec.getLsbD_or, BitVec.getLsbD_shiftLeft, BitVec.getLsbD_setWidth,
    BitVec.getLsbD_ushiftRight]
  by_cases h8 : i < 8
  · simp [hi, h8, show i < 32 by omega]
  · simp [hi, h8, show i < 32 by omega, show i - 8 < 8 by omega, show i - 8 < 32 by omega,
      show 8 + (i - 8) = i by omega]

theorem ushort_scalar : Codec.Scalar 2 ushortBytes Unmarshall.getUShort where
  length _ := rfl
  of_rest u x r h := by
    have h1 := unmarshall_rawbyte_cons u _ _ h
    have h0 := unmarshall_rawbyte_cons (u.skip 1) _ _ (rest_skip u [_] _ h)
    rw [skip_skip] at h0
    simp only [Unmarshall.getUShort, h1, h0, signExtend_masked, ushort_of_ushortBytes]
  ok u h := by
    obtain ⟨_,hok,hind⟩ := rawbyte_ok _ h
    obtain ⟨hskip,hok1,_⟩ := rawbyte_ok u hok
    rw [hskip] at hind
    exact ⟨hok1, hind⟩
  advances u := (rawbyte_advances u).trans (rawbyte_advances _)

theorem ulongLong_scalar : Codec.Scalar 8 ulongLongBytes Unmarshall.getULongLong where
  length _ := rfl
  of_rest u x r h := getULongLong_of_rest u x r h
  ok u h := (getULongLong_ok u h).2
  advances u := by
    have hl : u.getULongLong.2 = u.getUInt.2.getUInt.2 := by rw [Unmarshall.getULongLong]
    rw [hl]
    exact (getUInt_advances u).trans (getUInt_advances u.getUInt.2)

namespace Codec

def bool : Codec Bool := ⟨fun m x => m.rawbyteAll (boolBytes x), fun u => some u.getBool, boolBytes⟩

/-- Also `char`: the operators convert it. -/
def uchar : Codec Byte :=
  ⟨fun m x => m.rawbyteAll (ucharBytes x), fun u => some u.getUChar, ucharBytes⟩

def ushort : Codec (BitVec 16) :=
  ⟨fun m x => m.rawbyteAll (ushortBytes x), fun u => some u.getUShort, ushortBytes⟩

def ulongLong : Codec ULongLong :=
  ⟨Marshall.putULongLong, fun u => some u.getULongLong, ulongLongBytes⟩

def string : Codec (List Byte) := ⟨Marshall.putString, Unmarshall.getString, stringBytes⟩

theorem bool_lawful : bool.Lawful := bool_scalar.lawful fun _ _ => rfl

theorem uchar_lawful : uchar.Lawful := uchar_scalar.lawful fun _ _ => rfl

theorem ushort_lawful : ushort.Lawful := ushort_scalar.lawful fun _ _ => rfl

theorem ulongLong_lawful : ulongLong.Lawful := by
  apply ulongLong_scalar.lawful
  intro m x
  rw [Marshall.rawbyteAll, ulongLongBytes, List.foldlM_append]
  rfl

theorem string_fails {u : Unmarshall} (h : Fails (uint.get u)) : Fails (string.get u) := by
  obtain ⟨p,hp,hfail⟩ := h
  have hget : u.getUInt.2.ok = false := by
    rw [Option.some.inj hp]
    exact hfail
  refine ⟨([], u.getUInt.2), ?_, hget⟩
  change u.getString = _
  rw [Unmarshall.getString, Unmarshall.getStringInto, if_neg (Bool.eq_false_iff.mp hget)]

theorem string_lawful : string.Lawful where
  writes s hroom hholds := putString_writes s hroom hholds
  reads hok hrest hind := getString_of_rest _ _ _ hrest hok hind
  cut := by
    intro u s hok hcut hind
    change u.Cut (uintBytes (BitVec.ofNat 32 s.length) ++ s) at hcut
    change u.ind + (stringBytes s).length < 2^32 at hind
    rw [stringBytes_length] at hind
    rcases cut_append hcut with hsize | ⟨r,hrest,hbody⟩
    · -- the size itself is cut
      exact string_fails (uint_lawful.cut hok hsize (show u.ind + 4 < 2^32 by omega))
    · -- the size has been read, and says more than there is
      have hn : (BitVec.ofNat 32 s.length).toNat = s.length := by
        rw [BitVec.toNat_ofNat, Nat.mod_eq_of_lt (by omega)]
      have hget := (getUInt_of_rest u _ r hrest).1
      have hinside : u.ind + 4 ≤ u.buf.length := hbody.inside
      have hshort : u.buf.length - (u.ind + 4) < s.length := by
        have h := hbody.shorter
        rwa [Unmarshall.rest, List.length_drop] at h
      have htoo : (u.ind + 4 + s.length) % 2^32 > u.buf.length := by
        rw [Nat.mod_eq_of_lt (by omega)]
        omega
      refine ⟨([], { u.skip 4 with ok := false }), ?_, rfl⟩
      change u.getString = _
      rw [Unmarshall.getString, Unmarshall.getStringInto, hget,
        if_pos (show (u.skip 4).ok = true from hok), Unmarshall.rawbytes, hn]
      exact if_pos htoo
  failed hok := string_fails (uint_lawful.failed hok)
  advances := by
    intro u p hget
    change u.getString = some p at hget
    unfold Unmarshall.getString Unmarshall.getStringInto Unmarshall.rawbytes at hget
    apply (getUInt_advances u).trans
    split_ifs at hget <;> rw [← Option.some.inj hget]
    · exact ⟨rfl, Nat.le_refl _, fun h => Bool.noConfusion h⟩
    · exact ⟨rfl, Nat.le_add_right _ _, id⟩
    · exact advances_refl _

theorem string_pos : string.Pos := by
  intro s
  change 0 < (stringBytes s).length
  rw [stringBytes_length]
  omega

end Codec

structure PropT where
  n : UInt
  m : List Byte

structure PrepareArg where
  inst : UInt
  n : PropT

structure PrepareRes where
  oldinstance : Bool
  accept : Bool
  nA : PropT
  vA : List Byte

structure AcceptArg where
  inst : UInt
  n : PropT
  v : List Byte

structure DecideArg where
  inst : UInt
  v : List Byte

structure Viewstamp where
  vid : UInt
  seqno : UInt

structure TransferRes where
  state : List Byte
  last : Viewstamp

structure JoinRes where
  log : List Byte

structure Attr where
  atime : UInt
  mtime : UInt
  ctime : UInt
  size : UInt

def PropT.members : PropT ≃ UInt × List Byte :=
  ⟨fun a => (a.n, a.m), fun p => ⟨p.1, p.2⟩, fun _ => rfl, fun _ => rfl⟩

def PrepareArg.members : PrepareArg ≃ UInt × PropT :=
  ⟨fun a => (a.inst, a.n), fun p => ⟨p.1, p.2⟩, fun _ => rfl, fun _ => rfl⟩

def PrepareRes.members : PrepareRes ≃ Bool × Bool × PropT × List Byte :=
  ⟨fun r => (r.oldinstance, r.accept, r.nA, r.vA), fun p => ⟨p.1, p.2.1, p.2.2.1, p.2.2.2⟩,
    fun _ => rfl, fun _ => rfl⟩

def AcceptArg.members : AcceptArg ≃ UInt × PropT × List Byte :=
  ⟨fun a => (a.inst, a.n, a.v), fun p => ⟨p.1, p.2.1, p.2.2⟩, fun _ => rfl, fun _ => rfl⟩

def DecideArg.members : DecideArg ≃ UInt × List Byte :=
  ⟨fun a => (a.inst, a.v), fun p => ⟨p.1, p.2⟩, fun _ => rfl, fun _ => rfl⟩

def Viewstamp.members : Viewstamp ≃ UInt × UInt :=
  ⟨fun v => (v.vid, v.seqno), fun p => ⟨p.1, p.2⟩, fun _ => rfl, fun _ => rfl⟩

def TransferRes.members : TransferRes ≃ List Byte × Viewstamp :=
  ⟨fun r => (r.state, r.last), fun p => ⟨p.1, p.2⟩, fun _ => rfl, fun _ => rfl⟩

def JoinRes.members : JoinRes ≃ List Byte :=
  ⟨fun r => r.log, fun s => ⟨s⟩, fun _ => rfl, fun _ => rfl⟩

def Attr.members : Attr ≃ UInt × UInt × UInt × UInt :=
  ⟨fun a => (a.atime, a.mtime, a.ctime, a.size), fun p => ⟨p.1, p.2.1, p.2.2.1, p.2.2.2⟩,
    fun _ => rfl, fun _ => rfl⟩

/-- The values of a type, the order in which a map has them as keys, and the
operators. A struct has no `operator<` in the source, so it is the key of no map
there; the order of its members stands in for it. -/
structure CType where
  carrier : Type
  order : LinearOrder carrier
  codec : Codec carrier

namespace CType

def unsigned (w : ℕ) (c : Codec (BitVec w)) : CType :=
  ⟨BitVec w, LinearOrder.lift' BitVec.toNat fun _ _ h => BitVec.eq_of_toNat_eq h, c⟩

def signed (w : ℕ) (c : Codec (BitVec w)) : CType :=
  ⟨BitVec w, LinearOrder.lift' BitVec.toInt fun _ _ h => BitVec.toInt_inj.mp h, c⟩

/-- The characters of a string are compared as `unsigned char`. -/
def string : CType := ⟨List Byte, @List.instLinearOrder Byte (unsigned 8 .uchar).order, .string⟩

def vector (r : CType) : CType :=
  ⟨List r.carrier, @List.instLinearOrder r.carrier r.order, r.codec.vector⟩

def map (k v : CType) : CType :=
  letI := k.order
  letI := v.order
  ⟨SortedMap k.carrier v.carrier, inferInstance, k.codec.map v.codec⟩

def seq (a b : CType) : CType :=
  letI := a.order
  letI := b.order
  ⟨a.carrier × b.carrier, LinearOrder.lift' (toLex : _ → a.carrier ×ₗ b.carrier) toLex.injective,
    a.codec.seq b.codec⟩

def struct {α : Type} (r : CType) (members : α ≃ r.carrier) : CType :=
  letI := r.order
  ⟨α, LinearOrder.lift' members members.injective, r.codec.iso members⟩

end CType

inductive WireTy
  | bool
  | char
  | uchar
  | short
  | ushort
  | int
  | uint
  | ulongLong
  | string
  | vector (t : WireTy)
  | map (k v : WireTy)
  | propT
  | preparearg
  | prepareres
  | acceptarg
  | decidearg
  | viewstamp
  | transferres
  | joinres
  | attr
  deriving DecidableEq

namespace CType

def bool : CType := ⟨Bool, inferInstance, .bool⟩

def uint : CType := unsigned 32 .uint

def propT : CType := (uint.seq string).struct PropT.members

def preparearg : CType := (uint.seq propT).struct PrepareArg.members

def prepareres : CType := (bool.seq (bool.seq (propT.seq string))).struct PrepareRes.members

def acceptarg : CType := (uint.seq (propT.seq string)).struct AcceptArg.members

def decidearg : CType := (uint.seq string).struct DecideArg.members

def viewstamp : CType := (uint.seq uint).struct Viewstamp.members

def transferres : CType := (string.seq viewstamp).struct TransferRes.members

def joinres : CType := string.struct JoinRes.members

def attr : CType := (uint.seq (uint.seq (uint.seq uint))).struct Attr.members

end CType

def WireTy.ctype : WireTy → CType
  | .bool => .bool
  | .char => .signed 8 .uchar
  | .uchar => .unsigned 8 .uchar
  | .short => .signed 16 .ushort
  | .ushort => .unsigned 16 .ushort
  | .int => .signed 32 .uint
  | .uint => .uint
  | .ulongLong => .unsigned 64 .ulongLong
  | .string => .string
  | .vector t => t.ctype.vector
  | .map k v => k.ctype.map v.ctype
  | .propT => .propT
  | .preparearg => .preparearg
  | .prepareres => .prepareres
  | .acceptarg => .acceptarg
  | .decidearg => .decidearg
  | .viewstamp => .viewstamp
  | .transferres => .transferres
  | .joinres => .joinres
  | .attr => .attr

def WireTy.Val (t : WireTy) : Type := t.ctype.carrier

def WireTy.codec (t : WireTy) : Codec t.Val := t.ctype.codec

/-- The operators of a type keep their laws, and write a byte at least. -/
structure CType.Lawful (r : CType) : Prop where
  codec : r.codec.Lawful
  pos : r.codec.Pos

namespace CType.Lawful

theorem of_bool : CType.bool.Lawful := ⟨Codec.bool_lawful, fun _ => Nat.one_pos⟩

theorem of_uint : CType.uint.Lawful := ⟨Codec.uint_lawful, fun _ => Nat.succ_pos _⟩

theorem of_string : CType.string.Lawful := ⟨Codec.string_lawful, Codec.string_pos⟩

theorem vector {r : CType} (h : r.Lawful) : r.vector.Lawful :=
  ⟨h.codec.vector h.pos, r.codec.counted_pos⟩

theorem map {k v : CType} (hk : k.Lawful) (hv : v.Lawful) : (k.map v).Lawful := by
  let := k.order
  exact ⟨hk.codec.map hk.pos hv.codec, fun d => (k.codec.seq v.codec).counted_pos d.entries⟩

theorem seq {a b : CType} (ha : a.Lawful) (hb : b.Lawful) : (a.seq b).Lawful :=
  ⟨ha.codec.seq hb.codec, ha.pos.seq b.codec⟩

theorem struct {α : Type} {r : CType} (h : r.Lawful) (members : α ≃ r.carrier) :
    (r.struct members).Lawful :=
  ⟨h.codec.iso members, fun x => h.pos (members x)⟩

theorem of_propT : CType.propT.Lawful := (of_uint.seq of_string).struct _

theorem of_viewstamp : CType.viewstamp.Lawful := (of_uint.seq of_uint).struct _

end CType.Lawful

open CType.Lawful in
theorem WireTy.lawful (t : WireTy) : t.ctype.Lawful := by
  induction t with
  | bool => exact of_bool
  | char | uchar => exact ⟨Codec.uchar_lawful, fun _ => Nat.one_pos⟩
  | short | ushort => exact ⟨Codec.ushort_lawful, fun _ => Nat.succ_pos _⟩
  | int => exact ⟨Codec.uint_lawful, fun _ => Nat.succ_pos _⟩
  | uint => exact of_uint
  | ulongLong => exact ⟨Codec.ulongLong_lawful, fun _ => Nat.succ_pos _⟩
  | string => exact of_string
  | vector t ih => exact ih.vector
  | map k v ihk ihv => exact ihk.map ihv
  | propT => exact of_propT
  | preparearg => exact (of_uint.seq of_propT).struct _
  | prepareres => exact (of_bool.seq (of_bool.seq (of_propT.seq of_string))).struct _
  | acceptarg => exact (of_uint.seq (of_propT.seq of_string)).struct _
  | decidearg => exact (of_uint.seq of_string).struct _
  | viewstamp => exact of_viewstamp
  | transferres => exact (of_string.seq of_viewstamp).struct _
  | joinres => exact of_string.struct _
  | attr => exact (of_uint.seq (of_uint.seq (of_uint.seq of_uint))).struct _

end Yfs.Wire
