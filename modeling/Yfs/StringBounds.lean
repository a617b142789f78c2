import Yfs.Codec
import Yfs.Run

namespace Yfs.Wire

namespace Unmarshall

/-- What moves the index. Bytes are taken one by one or as a string, and the header is
passed over; of a buffer that is too short for one, no string is read. -/
inductive Read
  | byte
  | bytes (n : UInt)
  | header

def read (u : Unmarshall) : Read → Option Unmarshall
  | .byte => some u.rawbyte.2
  | .bytes n => (u.rawbytes [] n).map Prod.snd
  | .header => if rpcHeaderSz ≤ u.buf.length then some { u with ind := rpcHeaderSz } else none

/-- `n` bytes are taken if there are so many left. Otherwise only `_ok` changes. -/
structure Takes (u : Unmarshall) (ss : List Byte) (n : ℕ) (r : Option (List Byte × Unmarshall)) :
    Prop where
  taken : u.ind + n ≤ u.buf.length → r = some (u.rest.take n, u.skip n)
  refused : u.buf.length < u.ind + n → r = some (ss, { u with ok := false })

end Unmarshall

open Unmarshall

/-- `rawbytes` does what it is for as long as the sum is an `unsigned int`. -/
theorem takes_rawbytes_iff (u : Unmarshall) (ss : List Byte) (n : UInt) (hsz : u.buf.length < 2^31)
    (hind : u.ind ≤ u.buf.length) : u.Takes ss n.toNat (u.rawbytes ss n) ↔
    u.ind + n.toNat < 2^32 := by
  have hn : n.toNat < 2^32 := n.isLt
  rw [Unmarshall.rawbytes]
  constructor
  · intro h
    by_contra hwrap
    -- what is left of the sum is less than the index
    have hrefused := h.refused (by omega)
    rw [if_neg (by omega), if_neg (by omega)] at hrefused
    cases hrefused
  · intro hsum
    rw [Nat.mod_eq_of_lt hsum]
    constructor
    · intro hroom
      rw [if_neg (by omega), if_pos hroom]
      rfl
    · intro hshort
      rw [if_pos hshort]

theorem read_inside (b : List Byte) (u u' : Unmarshall) (r : Read)
    (h : u.buf = b ∧ u.ind ≤ u.buf.length)
    (hr : u.read r = some u') : u'.buf = b ∧ u'.ind ≤ u'.buf.length := by
  obtain ⟨rfl,hind⟩ := h
  cases r with
  | byte =>
    cases hr
    refine ⟨(rawbyte_advances u).buf,?_⟩
    rw [(rawbyte_advances u).buf, rawbyte]
    cases hc : u.buf[u.ind]? with
    | none => exact hind
    | some c => exact (List.getElem?_eq_some_iff.mp hc).1
  | bytes n =>
    rw [Unmarshall.read, rawbytes, Option.map_eq_some_iff] at hr
    obtain ⟨p,hp,rfl⟩ := hr
    split_ifs at hp with htest hroom
    · cases hp
      exact ⟨rfl,hind⟩
    · cases hp
      exact ⟨rfl,hroom⟩
  | header =>
    rw [Unmarshall.read] at hr
    split_ifs at hr with hlen
    cases hr
    exact ⟨rfl,hlen⟩

theorem reads_inside (b : List Byte) (reads : List Read) (u : Unmarshall)
    (hreads : run read (new b) reads = some u) : u.buf = b ∧ u.ind ≤ u.buf.length :=
  run_invariant read (fun u => u.buf = b ∧ u.ind ≤ u.buf.length)
    (fun u r u' => read_inside b u u' r)
    _ u reads ⟨rfl,Nat.zero_le _⟩ hreads

theorem rawbyte_of_room (u : Unmarshall) (h : u.ind < u.buf.length) : u.rawbyte.2 = u.skip 1 := by
  rw [rawbyte, List.getElem?_eq_getElem h]
  rfl

theorem getUInt_of_room (u : Unmarshall) (h : u.ind + 4 ≤ u.buf.length) :
    u.getUInt.2 = u.skip 4 := by
  have h3 := rawbyte_of_room u (by omega)
  have h2 := rawbyte_of_room (u.skip 1) (show u.ind + 1 < u.buf.length by omega)
  have h1 := rawbyte_of_room (u.skip 2) (show u.ind + 2 < u.buf.length by omega)
  have h0 := rawbyte_of_room (u.skip 3) (show u.ind + 3 < u.buf.length by omega)
  simp only [skip_skip] at h2 h1 h0
  change u.rawbyte.2.rawbyte.2.rawbyte.2.rawbyte.2 = _
  rw [h3, h2, h1, h0]

/-- Behind its length, the string is read as `rawbytes` does. -/
theorem getStringInto_of_room (u : Unmarshall) (s : List Byte) (hok : u.ok = true)
    (hroom : u.ind + 4 ≤ u.buf.length) : u.getStringInto s = (u.skip 4).rawbytes s u.getUInt.1 := by
  rw [getStringInto, getUInt_of_room u hroom, if_pos (show (u.skip 4).ok = true from hok)]

/-- Wherever earlier reads have left the index, a string is taken if and only if its bytes
are there, as long as the index and the length do not add up to 2^32. -/
theorem string_taken_within_buffer (b ss : List Byte) (reads : List Read) (u : Unmarshall)
    (n : UInt) (hsz : b.length < 2^31) (hreads : run read (new b) reads = some u) :
    (u.Takes ss n.toNat (u.rawbytes ss n) ↔ u.ind + n.toNat < 2^32) ∧
    (u.ok = true → u.ind + 4 ≤ u.buf.length →
      ((u.skip 4).Takes ss u.getUInt.1.toNat (u.getStringInto ss) ↔
        u.ind + 4 + u.getUInt.1.toNat < 2^32)) := by
  obtain ⟨rfl,hind⟩ := reads_inside b reads u hreads
  refine ⟨takes_rawbytes_iff u ss n hsz hind,fun hok hroom => ?_⟩
  rw [getStringInto_of_room u ss hok hroom]
  exact takes_rawbytes_iff (u.skip 4) ss u.getUInt.1 hsz hroom

theorem string_taken_within_buffer_two :
    run read (new [7, 0, 0, 0, 2, 104, 105]) [.byte] = some ⟨[7, 0, 0, 0, 2, 104, 105], 1, true⟩ ∧
    getStringInto ⟨[7, 0, 0, 0, 2, 104, 105], 1, true⟩ [] =
      some ([104, 105], ⟨[7, 0, 0, 0, 2, 104, 105], 7, true⟩) ∧
    Takes ⟨[7, 0, 0, 0, 2, 104, 105], 5, true⟩ [] 2
    (getStringInto ⟨[7, 0, 0, 0, 2, 104, 105], 1, true⟩ []) := by
  have hread : run read (new [7, 0, 0, 0, 2, 104, 105]) [.byte] =
      some ⟨[7, 0, 0, 0, 2, 104, 105], 1, true⟩ := by
    decide
  have hexact := (string_taken_within_buffer _ [] [.byte] _ 2 (by decide) hread).2 rfl (by decide)
  exact ⟨hread,by decide,hexact.mpr (by decide)⟩

/-- Behind the length 2^32 - 1 the buffer ends, and the sum is 3. -/
theorem string_length_wraps :
    (new [255, 255, 255, 255]).getUInt.1 = 0xffffffff ∧
    (new [255, 255, 255, 255]).getStringInto [] = none ∧
    ¬ Takes ⟨[255, 255, 255, 255], 4, true⟩ [] (2^32 - 1)
    (getStringInto (new [255, 255, 255, 255]) []) := by
  have hnone : (new [255, 255, 255, 255]).getStringInto [] = none := by decide
  refine ⟨by decide,hnone,fun h => ?_⟩
  have hrefused := h.refused (by decide)
  rw [hnone] at hrefused
  cases hrefused

end Yfs.Wire
