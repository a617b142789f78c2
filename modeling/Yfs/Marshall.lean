import Mathlib.Algebra.Group.Nat.Defs
import Mathlib.Data.Int.Notation
import Mathlib.Data.List.Basic

/-! The `marshall` and `unmarshall` objects of the RPC library. An `int` that is
never negative is a natural number; a computation that leaves the range of `int`,
or an access outside the buffer, is undefined behaviour: `none`. -/
namespace Yfs.Wire

abbrev Byte := BitVec 8

/-- `unsigned int`, and `int` as far as marshalling goes. -/
abbrev UInt := BitVec 32

abbrev ULongLong := BitVec 64

def defaultRpcSz : ℕ := 1024

/-- A request header and the size of the PDU; there is no checksum. -/
def rpcHeaderSz : ℕ := 24

structure ReqHeader where
  xid : UInt
  proc : UInt
  cltNonce : UInt
  srvNonce : UInt
  xidRep : UInt
  deriving DecidableEq

/-- Network order is big-endian. -/
def uintBytes (x : UInt) : List Byte :=
  [(x >>> 24).setWidth 8, (x >>> 16).setWidth 8, (x >>> 8).setWidth 8, x.setWidth 8]

def overwrite (buf : ℕ → Byte) (ind : ℕ) (bs : List Byte) (j : ℕ) : Byte :=
  if ind ≤ j then (bs[j - ind]?).getD (buf j) else buf j

structure Marshall where
  buf : ℕ → Byte
  capa : ℕ
  ind : ℕ

namespace Marshall

/-- `malloc` leaves the content of the buffer open. -/
def new (junk : ℕ → Byte) : Marshall := ⟨junk, defaultRpcSz, rpcHeaderSz⟩

/-- `realloc` to a capacity that has been computed as an `int`. -/
def resize (m : Marshall) (capa : ℕ) : Option Marshall :=
  if capa < 2^31 then some { m with capa := capa } else none

def store (m : Marshall) (bs : List Byte) : Option Marshall :=
  if m.ind + bs.length ≤ m.capa then
    some { m with buf := overwrite m.buf m.ind bs, ind := m.ind + bs.length }
  else none

def rawbyte (m : Marshall) (x : Byte) : Option Marshall :=
  (if m.ind ≥ m.capa then m.resize (m.capa * 2) else some m).bind (·.store [x])

/-- The capacity that `rawbytes` computes. -/
def grown (m : Marshall) (n : ℕ) : ℕ := if m.capa > n then 2 * m.capa else m.capa + n

/-- A negative `n` makes `memcpy` run away. -/
def rawbytes (m : Marshall) (p : List Byte) : ℤ → Option Marshall
  | .negSucc _ => none
  | .ofNat n =>
    if m.ind + n < 2^31 then
      (if m.ind + n > m.capa then m.resize (m.grown n) else some m).bind (·.store (p.take n))
    else none

def rawbyteAll (m : Marshall) (bs : List Byte) : Option Marshall := bs.foldlM rawbyte m

def putUInt (m : Marshall) (x : UInt) : Option Marshall := m.rawbyteAll (uintBytes x)

def putULongLong (m : Marshall) (x : ULongLong) : Option Marshall :=
  (m.putUInt ((x >>> 32).setWidth 32)).bind (·.putUInt (x.setWidth 32))

/-- The size is converted to `unsigned int` where it is marshalled, and to `int`
where `rawbytes` takes it. -/
def putString (m : Marshall) (s : List Byte) : Option Marshall :=
  (m.putUInt (BitVec.ofNat 32 s.length)).bind (·.rawbytes s (BitVec.ofNat 32 s.length).toInt)

/-- The first four bytes are left to the channel. -/
def packReqHeader (m : Marshall) (h : ReqHeader) : Option Marshall :=
  (rawbyteAll { m with ind := 4 }
    ([h.xid, h.proc, h.cltNonce, h.srvNonce, h.xidRep].flatMap uintBytes)).map
      fun m' => { m' with ind := m.ind }

/-- `cstr()` up to `size()`. -/
def bytes (m : Marshall) : List Byte := (List.range m.ind).map m.buf

end Marshall

structure Unmarshall where
  buf : List Byte
  ind : ℕ
  ok : Bool
  deriving DecidableEq

namespace Unmarshall

/-- `unmarshall(char *b, int sz)`. -/
def new (b : List Byte) : Unmarshall := ⟨b, 0, true⟩

/-- A `char` is signed. -/
def rawbyte (u : Unmarshall) : UInt × Unmarshall :=
  match u.buf[u.ind]? with
  | none => (0, { u with ok := false })
  | some c => (c.signExtend 32, { u with ind := u.ind + 1 })

def getUInt (u : Unmarshall) : UInt × Unmarshall :=
  let r3 := u.rawbyte
  let r2 := r3.2.rawbyte
  let r1 := r2.2.rawbyte
  let r0 := r1.2.rawbyte
  ((r3.1 &&& 0xff) <<< 24 ||| (r2.1 &&& 0xff) <<< 16 ||| (r1.1 &&& 0xff) <<< 8 ||| r0.1 &&& 0xff,
    r0.2)

def getULongLong (u : Unmarshall) : ULongLong × Unmarshall :=
  let h := u.getUInt
  let l := h.2.getUInt
  (l.1.setWidth 64 ||| h.1.setWidth 64 <<< 32, l.2)

/-- `rawbytes(std::string &ss, unsigned int n)`: `ss` afterwards, and the object. The sum is
computed as an `unsigned int`, so a long string can pass the test; it is `none` where the string
is made of bytes outside of the buffer. -/
def rawbytes (u : Unmarshall) (ss : List Byte) (n : UInt) : Option (List Byte × Unmarshall) :=
  if (u.ind + n.toNat) % 2^32 > u.buf.length then some (ss, { u with ok := false })
  else if u.ind + n.toNat ≤ u.buf.length then
    some ((u.buf.drop u.ind).take n.toNat, { u with ind := u.ind + n.toNat })
  else none

def getStringInto (u : Unmarshall) (s : List Byte) : Option (List Byte × Unmarshall) :=
  if u.getUInt.2.ok = true then u.getUInt.2.rawbytes s u.getUInt.1 else some (s, u.getUInt.2)

/-- The string that is read into is a new one. -/
def getString (u : Unmarshall) : Option (List Byte × Unmarshall) := u.getStringInto []

def unpackReqHeader (u : Unmarshall) : ReqHeader × Unmarshall :=
  let xid := getUInt { u with ind := 4 }
  let proc := xid.2.getUInt
  let cltNonce := proc.2.getUInt
  let srvNonce := cltNonce.2.getUInt
  let xidRep := srvNonce.2.getUInt
  (⟨xid.1, proc.1, cltNonce.1, srvNonce.1, xidRep.1⟩, { xidRep.2 with ind := rpcHeaderSz })

def okdone (u : Unmarshall) : Bool := u.ok && u.ind == u.buf.length

end Unmarshall

theorem overwrite_nil (buf : ℕ → Byte) (ind : ℕ) : overwrite buf ind [] = buf := by
  funext j
  simp [overwrite]

theorem overwrite_append (buf : ℕ → Byte) (ind : ℕ) (bs cs : List Byte) :
    overwrite (overwrite buf ind bs) (ind + bs.length) cs = overwrite buf ind (bs ++ cs) := by
  funext j
  unfold overwrite
  by_cases h : ind + bs.length ≤ j
  · have hb : bs.length ≤ j - ind := by omega
    have hj : j - (ind + bs.length) = j - ind - bs.length := by omega
    have hi : ind ≤ j := by omega
    simp only [if_pos h, if_pos hi, List.getElem?_append_right hb, hj, List.getElem?_eq_none hb,
      Option.getD_none]
  · rw [if_neg h]
    by_cases hi : ind ≤ j
    · have hb : j - ind < bs.length := by omega
      simp only [if_pos hi, List.getElem?_append_left hb]
    · simp only [if_neg hi]

/-- The object after `bs` has been appended. -/
def Marshall.wrote (m : Marshall) (bs : List Byte) : Marshall :=
  { m with buf := overwrite m.buf m.ind bs, ind := m.ind + bs.length }

theorem wrote_nil (m : Marshall) : m.wrote [] = m := by
  simp [Marshall.wrote, overwrite_nil]

theorem wrote_append (m : Marshall) (bs cs : List Byte) :
    (m.wrote bs).wrote cs = m.wrote (bs ++ cs) := by
  simp [Marshall.wrote, overwrite_append, Nat.add_assoc]

theorem map_overwrite (buf : ℕ → Byte) (i n : ℕ) (bs : List Byte) (h : i + bs.length ≤ n) :
    (List.range n).map (overwrite buf i bs) =
      ((List.range n).map buf).take i ++ (bs ++ ((List.range n).map buf).drop (i + bs.length)) := by
  apply List.ext_getElem
  · simp
    omega
  · intro j h1 h2
    have hj : j < n := by simpa using h1
    rcases (by omega : j < i ∨ (i ≤ j ∧ j < i + bs.length) ∨ i + bs.length ≤ j) with
      hlt | hmid | hge
    · rw [List.getElem_append_left (by simp; omega)]
      simp [overwrite, show ¬ i ≤ j by omega]
    · have hb : j - i < bs.length := by omega
      rw [List.getElem_append_right (by simp; omega), List.getElem_append_left (by simp; omega)]
      simp [overwrite, hmid.1, hb, Nat.min_eq_left (show i ≤ n by omega)]
    · have hb : bs[j - i]? = none := List.getElem?_eq_none (by omega)
      rw [List.getElem_append_right (by simp; omega), List.getElem_append_right (by simp; omega)]
      simp [overwrite, hb, Nat.min_eq_left (show i ≤ n by omega),
        show i + bs.length + (j - i - bs.length) = j by omega]

theorem bytes_wrote (m : Marshall) (bs : List Byte) : (m.wrote bs).bytes = m.bytes ++ bs := by
  have h := map_overwrite m.buf m.ind (m.ind + bs.length) bs (Nat.le_refl _)
  rw [← List.map_take, List.take_range, Nat.min_eq_left (by omega),
    List.drop_of_length_le (by simp), List.append_nil] at h
  exact h

theorem rawbyte_of_fits (m : Marshall) (x : Byte) (h : m.ind < m.capa) :
    m.rawbyte x = some (m.wrote [x]) := by
  have hs : m.ind + [x].length ≤ m.capa := h
  rw [Marshall.rawbyte, if_neg (by omega), Option.bind_some, Marshall.store, if_pos hs]
  rfl

theorem rawbyteAll_of_fits (m : Marshall) (bs : List Byte) (h : m.ind + bs.length ≤ m.capa) :
    m.rawbyteAll bs = some (m.wrote bs) := by
  induction bs generalizing m with
  | nil => rw [wrote_nil]; rfl
  | cons b bs ih =>
    rw [List.length_cons] at h
    have hb := rawbyte_of_fits m b (by omega)
    have hih := ih (m.wrote [b]) (by simp [Marshall.wrote]; omega)
    rw [wrote_append, List.singleton_append] at hih
    rw [← hih, Marshall.rawbyteAll, List.foldlM_cons, hb]
    rfl

/-- The whole string is copied if the sizes that are computed are `int`s. -/
theorem rawbytes_of_room (m : Marshall) (p : List Byte) (hind : m.ind ≤ m.capa)
    (hsz : m.ind + p.length < 2^31) (hgrow : m.capa < m.ind + p.length → m.grown p.length < 2^31) :
    m.rawbytes p p.length = some { m.wrote p with
      capa := if m.ind + p.length > m.capa then m.grown p.length else m.capa } := by
  have hfit : m.ind + p.length ≤ m.grown p.length := by
    unfold Marshall.grown
    split_ifs <;> omega
  change (if _ then _ else _) = _
  rw [if_pos hsz, List.take_length]
  by_cases h : m.ind + p.length > m.capa
  · rw [if_pos h, if_pos h, Marshall.resize, if_pos (hgrow h), Option.bind_some, Marshall.store,
      if_pos hfit]
    rfl
  · rw [if_neg h, if_neg h, Option.bind_some, Marshall.store, if_pos (by omega)]
    rfl

theorem rawbytes_of_overflow (m : Marshall) (p : List Byte) (h : m.capa < m.ind + p.length)
    (hgrow : 2^31 ≤ m.grown p.length) : m.rawbytes p p.length = none := by
  have hresize : m.resize (m.grown p.length) = none := if_neg (by omega)
  change (if _ then _ else _) = _
  rw [if_pos h, hresize, Option.bind_none, ite_self]

def stringBytes (s : List Byte) : List Byte := uintBytes (BitVec.ofNat 32 s.length) ++ s

theorem stringBytes_length (s : List Byte) : (stringBytes s).length = 4 + s.length := by
  simp [stringBytes, uintBytes]
  omega

theorem putUInt_of_fits (m : Marshall) (x : UInt) (h : m.ind + 4 ≤ m.capa) :
    m.putUInt x = some (m.wrote (uintBytes x)) := rawbyteAll_of_fits m _ h

theorem putString_of_room (m : Marshall) (s : List Byte) (hind : m.ind + 4 ≤ m.capa)
    (hsz : m.ind + 4 + s.length < 2^31)
    (hgrow : m.capa < m.ind + 4 + s.length → m.grown s.length < 2^31) :
    m.putString s = some { m.wrote (stringBytes s) with
      capa := if m.ind + 4 + s.length > m.capa then m.grown s.length else m.capa } := by
  have hnat : (BitVec.ofNat 32 s.length).toNat = s.length := by
    rw [BitVec.toNat_ofNat, Nat.mod_eq_of_lt (by omega)]
  have hint : (BitVec.ofNat 32 s.length).toInt = s.length := by
    rw [BitVec.toInt_eq_toNat_of_lt (by omega), hnat]
  have hraw := rawbytes_of_room (m.wrote (uintBytes (BitVec.ofNat 32 s.length))) s hind hsz hgrow
  rw [wrote_append] at hraw
  rw [Marshall.putString, putUInt_of_fits m _ hind, Option.bind_some, hint, hraw]
  rfl

namespace Unmarshall

/-- What is still to be read. -/
def rest (u : Unmarshall) : List Byte := u.buf.drop u.ind

def skip (u : Unmarshall) (n : ℕ) : Unmarshall := { u with ind := u.ind + n }

end Unmarshall

theorem skip_skip (u : Unmarshall) (m n : ℕ) : (u.skip m).skip n = u.skip (m + n) := by
  simp [Unmarshall.skip, Nat.add_assoc]

theorem rest_skip (u : Unmarshall) (bs r : List Byte) (h : u.rest = bs ++ r) :
    (u.skip bs.length).rest = r := by
  have hd : (u.skip bs.length).rest = u.rest.drop bs.length := by
    simp [Unmarshall.rest, Unmarshall.skip, List.drop_drop]
  rw [hd, h, List.drop_left]

theorem length_of_rest (u : Unmarshall) (bs : List Byte) (h : u.rest = bs)
    (hind : u.ind ≤ u.buf.length) :
    u.ind + bs.length = u.buf.length := by
  rw [← h, Unmarshall.rest, List.length_drop]
  omega

theorem unmarshall_rawbyte_cons (u : Unmarshall) (b : Byte) (r : List Byte) (h : u.rest = b :: r) :
    u.rawbyte = (b.signExtend 32, u.skip 1) := by
  have hb : u.buf[u.ind]? = some b := by
    have hh := congrArg (·[0]?) h
    simpa [Unmarshall.rest] using hh
  simp [Unmarshall.rawbyte, hb, Unmarshall.skip]

/-- A byte that is read back as a signed `char` is masked. -/
theorem signExtend_masked (b : Byte) : b.signExtend 32 &&& 0xff = b.setWidth 32 := by
  have hmask : ∀ i < 32, (0xff : UInt).getLsbD i = decide (i < 8) := by decide
  apply BitVec.eq_of_getLsbD_eq
  intro i hi
  rw [BitVec.getLsbD_and, hmask i hi, BitVec.getLsbD_signExtend, BitVec.getLsbD_setWidth]
  by_cases h8 : i < 8
  · simp [h8, hi]
  · simp [h8, BitVec.getLsbD_of_ge b i (by omega)]

theorem uint_of_uintBytes (x : UInt) :
    ((x >>> 24).setWidth 8).setWidth 32 <<< 24 ||| ((x >>> 16).setWidth 8).setWidth 32 <<< 16 |||
      ((x >>> 8).setWidth 8).setWidth 32 <<< 8 ||| (x.setWidth 8).setWidth 32 = x := by
  apply BitVec.eq_of_getLsbD_eq
  intro i hi
  simp only [BitVec.getLsbD_or, BitVec.getLsbD_shiftLeft, BitVec.getLsbD_setWidth,
    BitVec.getLsbD_ushiftRight]
  -- each bit comes from one of the four bytes
  rcases (by omega : i < 8 ∨ (8 ≤ i ∧ i < 16) ∨ (16 ≤ i ∧ i < 24) ∨ 24 ≤ i) with h | h | h | h
  · simp [hi, h, show i < 16 by omega, show i < 24 by omega]
  · simp [hi, show ¬ i < 8 by omega, show i < 16 by omega, show i < 24 by omega,
      show i - 8 < 8 by omega, show i - 8 < 32 by omega, show 8 + (i - 8) = i by omega]
  · simp [hi, show ¬ i < 8 by omega, show ¬ i < 16 by omega, show i < 24 by omega,
      show ¬ i - 8 < 8 by omega, show i - 16 < 8 by omega, show i - 16 < 32 by omega,
      show 16 + (i - 16) = i by omega]
  · simp [hi, show ¬ i < 8 by omega, show ¬ i < 16 by omega, show ¬ i < 24 by omega,
      show ¬ i - 8 < 8 by omega, show ¬ i - 16 < 8 by omega, show i - 24 < 8 by omega,
      show i - 24 < 32 by omega, show 24 + (i - 24) = i by omega]

theorem getUInt_of_rest (u : Unmarshall) (x : UInt) (r : List Byte)
    (h : u.rest = uintBytes x ++ r) :
    u.getUInt = (x, u.skip 4) ∧ (u.skip 4).rest = r := by
  have h3 := unmarshall_rawbyte_cons u _ _ h
  have h2 := unmarshall_rawbyte_cons (u.skip 1) _ _ (rest_skip u [_] _ h)
  have h1 := unmarshall_rawbyte_cons (u.skip 2) _ _ (rest_skip u [_, _] _ h)
  have h0 := unmarshall_rawbyte_cons (u.skip 3) _ _ (rest_skip u [_, _, _] _ h)
  simp only [skip_skip] at h2 h1 h0
  refine ⟨?_, rest_skip u (uintBytes x) r h⟩
  simp only [Unmarshall.getUInt, h3, h2, h1, h0, signExtend_masked, uint_of_uintBytes]

def ulongLongBytes (x : ULongLong) : List Byte :=
  uintBytes ((x >>> 32).setWidth 32) ++ uintBytes (x.setWidth 32)

theorem ulongLong_of_halves (x : ULongLong) :
    (x.setWidth 32).setWidth 64 ||| ((x >>> 32).setWidth 32).setWidth 64 <<< 32 = x := by
  apply BitVec.eq_of_getLsbD_eq
  intro i hi
  simp only [BitVec.getLsbD_or, BitVec.getLsbD_shiftLeft, BitVec.getLsbD_setWidth,
    BitVec.getLsbD_ushiftRight]
  by_cases h : i < 32
  · simp [hi, h]
  · simp [hi, h, show i - 32 < 32 by omega, show i - 32 < 64 by omega,
      show 32 + (i - 32) = i by omega]

theorem getULongLong_of_rest (u : Unmarshall) (x : ULongLong) (r : List Byte)
    (h : u.rest = ulongLongBytes x ++ r) : u.getULongLong = (x, u.skip 8) := by
  rw [ulongLongBytes, List.append_assoc] at h
  obtain ⟨hh,hrest⟩ := getUInt_of_rest u _ _ h
  obtain ⟨hl,_⟩ := getUInt_of_rest (u.skip 4) _ _ hrest
  rw [skip_skip] at hl
  simp only [Unmarshall.getULongLong, hh, hl, ulongLong_of_halves]

theorem getString_of_rest (u : Unmarshall) (s r : List Byte) (h : u.rest = stringBytes s ++ r)
    (hok : u.ok = true) (hind : u.ind + (stringBytes s).length < 2^32) :
    u.getString = some (s, u.skip (stringBytes s).length) := by
  have hlen := congrArg List.length h
  rw [Unmarshall.rest, List.length_drop, List.length_append, stringBytes_length] at hlen
  rw [stringBytes_length] at hind
  rw [stringBytes, List.append_assoc] at h
  obtain ⟨hg,hrest⟩ := getUInt_of_rest u _ _ h
  have hn : (BitVec.ofNat 32 s.length).toNat = s.length := by
    rw [BitVec.toNat_ofNat, Nat.mod_eq_of_lt (by omega)]
  have hfits : u.ind + 4 + s.length ≤ u.buf.length := by omega
  simp only [Unmarshall.getString, Unmarshall.getStringInto, hg]
  rw [if_pos (show (u.skip 4).ok = true from hok), Unmarshall.rawbytes, hn]
  change (if (u.ind + 4 + s.length) % 2^32 > u.buf.length then _
    else if u.ind + 4 + s.length ≤ u.buf.length then some ((u.skip 4).rest.take s.length, _)
    else none) = _
  rw [if_neg (by rw [Nat.mod_eq_of_lt (by omega)]; omega), if_pos hfits, hrest, List.take_left,
    stringBytes_length]
  simp [Unmarshall.skip, Nat.add_assoc]

theorem rawbyte_ok (u : Unmarshall) (h : u.rawbyte.2.ok = true) :
    u.rawbyte.2 = u.skip 1 ∧ u.ok = true ∧ u.ind + 1 ≤ u.buf.length := by
  unfold Unmarshall.rawbyte at h ⊢
  cases hb : u.buf[u.ind]? with
  | none => simp [hb] at h
  | some c =>
    obtain ⟨hlt,_⟩ := List.getElem?_eq_some_iff.mp hb
    simp only [hb] at h
    exact ⟨rfl, h, hlt⟩

theorem getUInt_ok (u : Unmarshall) (h : u.getUInt.2.ok = true) :
    u.getUInt.2 = u.skip 4 ∧ u.ok = true ∧ u.ind + 4 ≤ u.buf.length := by
  obtain ⟨e0,k0,l0⟩ := rawbyte_ok _ h
  obtain ⟨e1,k1,_⟩ := rawbyte_ok _ k0
  obtain ⟨e2,k2,_⟩ := rawbyte_ok _ k1
  obtain ⟨e3,k3,_⟩ := rawbyte_ok _ k2
  rw [e1, e2, e3] at l0
  refine ⟨?_, k3, l0⟩
  change u.rawbyte.2.rawbyte.2.rawbyte.2.rawbyte.2 = _
  rw [e0, e1, e2, e3, skip_skip, skip_skip, skip_skip]

theorem getULongLong_ok (u : Unmarshall) (h : u.getULongLong.2.ok = true) :
    u.getULongLong.2 = u.skip 8 ∧ u.ok = true ∧ u.ind + 8 ≤ u.buf.length := by
  have hl : u.getULongLong.2 = u.getUInt.2.getUInt.2 := by rw [Unmarshall.getULongLong]
  rw [hl] at h ⊢
  obtain ⟨e0,k0,l0⟩ := getUInt_ok u.getUInt.2 h
  obtain ⟨e1,k1,_⟩ := getUInt_ok u k0
  rw [e1] at l0
  refine ⟨?_, k1, l0⟩
  rw [e0, e1, skip_skip]

end Yfs.Wire
