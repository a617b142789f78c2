import Mathlib.Algebra.BigOperators.Group.List.Basic
import Mathlib.Algebra.GroupWithZero.Nat
import Yfs.WireTypes

namespace Yfs

/-- A pair that is added comes on top, or in the place of the one with its key. -/
theorem SortedMap.sum_insertEntry_le {K V : Type} [LinearOrder K] (w : K × V → ℕ) (a : K) (b : V)
    (l : List (K × V)) : ((insertEntry a b l).map w).sum ≤ w (a, b) + (l.map w).sum := by
  induction l with
  | nil => exact Nat.le_refl _
  | cons e l ih =>
    obtain ⟨k,v⟩ := e
    unfold insertEntry
    split_ifs with hlt hgt
    · exact Nat.le_refl _
    · simp only [List.map_cons, List.sum_cons]
      omega
    · have hk : k = a := le_antisymm (not_lt.mp hlt) (not_lt.mp hgt)
      simp only [List.map_cons, List.sum_cons, hk]
      omega

theorem SortedMap.sum_ofEntries_le {K V : Type} [LinearOrder K] (w : K × V → ℕ) (l : List (K × V)) :
    ((ofEntries l).entries.map w).sum ≤ (l.map w).sum := by
  suffices h : ∀ d : SortedMap K V,
      ((l.foldl insert d).entries.map w).sum ≤ (d.entries.map w).sum + (l.map w).sum by
    have h0 := h empty
    rwa [empty, List.map_nil, List.sum_nil, Nat.zero_add] at h0
  induction l with
  | nil => exact fun d => Nat.le_refl _
  | cons e l ih =>
    intro d
    have hrest := ih (d.insert e)
    have hfirst : ((d.insert e).entries.map w).sum ≤ w e + (d.entries.map w).sum :=
      sum_insertEntry_le w e.1 e.2 d.entries
    rw [List.foldl_cons, List.map_cons, List.sum_cons]
    omega

namespace Wire

/-- The number that the operator of a container reads first. -/
def Unmarshall.count (u : Unmarshall) : ℕ := u.getUInt.1.toNat

/-- The number of bytes that are left behind it. -/
def Unmarshall.afterCount (u : Unmarshall) : ℕ := u.getUInt.2.buf.length - u.getUInt.2.ind

namespace Codec

variable {α β : Type}

theorem getMany_length {c : Codec α} {n : ℕ} {u : Unmarshall} {p : List α × Unmarshall}
    (h : c.getMany n u = some p) : p.1.length = n := by
  induction n generalizing u p with
  | zero =>
    cases h
    rfl
  | succ n ih =>
    obtain ⟨r,_,h⟩ := Option.bind_eq_some_iff.mp h
    obtain ⟨q,hq,rfl⟩ := Option.map_eq_some_iff.mp h
    rw [List.length_cons, ih hq]

theorem vector_get (c : Codec α) (u : Unmarshall) :
    c.vector.get u = c.getMany u.count u.getUInt.2 := rfl

/-- Whenever the loop adds an element, `ok()` is true: none of the reads up to it has failed. -/
def AddsOk (c : Codec α) (u : Unmarshall) : Prop :=
  ∀ k < u.count, ∀ p, c.getMany (k + 1) u.getUInt.2 = some p → p.2.ok = true

/-- A read that fails is not made good by the reads that follow. -/
theorem Lawful.getMany_ok {c : Codec α} (hc : c.Lawful) {m n : ℕ} (hmn : m ≤ n) {u : Unmarshall}
    {p q : List α × Unmarshall} (hp : c.getMany m u = some p) (hq : c.getMany n u = some q)
    (hok : q.2.ok = true) : p.2.ok = true := by
  induction m generalizing n u p q with
  | zero =>
    cases hp
    exact (hc.getMany_advances hq).ok hok
  | succ m ih =>
    obtain ⟨n,rfl⟩ : ∃ k, n = k + 1 := ⟨n - 1, by omega⟩
    obtain ⟨r,hr,hp⟩ := Option.bind_eq_some_iff.mp hp
    obtain ⟨p',hp',rfl⟩ := Option.map_eq_some_iff.mp hp
    obtain ⟨r',hr',hq⟩ := Option.bind_eq_some_iff.mp hq
    obtain ⟨q',hq',rfl⟩ := Option.map_eq_some_iff.mp hq
    cases hr.symm.trans hr'
    change p'.2.ok = true
    exact ih (Nat.le_of_succ_le_succ hmn) hp' hq' hok

/-- The loop adds while `ok()` is true exactly if it is true at the end, or if there is nothing
to add. -/
theorem Lawful.addsOk_iff {c : Codec α} (hc : c.Lawful) {u : Unmarshall}
    {p : List α × Unmarshall} (h : c.counted.get u = some p) :
    c.AddsOk u ↔ p.2.ok = true ∨ u.count = 0 := by
  have hmany : c.getMany u.count u.getUInt.2 = some p := h
  constructor
  · intro hadds
    rcases Nat.eq_zero_or_pos u.count with hzero | hpos
    · exact .inr hzero
    · refine .inl (hadds (u.count - 1) (by omega) p ?_)
      rwa [Nat.sub_add_cancel hpos]
  · rintro (hok | hzero) k hk q hq
    · exact hc.getMany_ok hk hq hmany hok
    · omega

theorem vector_length {c : Codec α} {u : Unmarshall} {p : List α × Unmarshall}
    (h : c.vector.get u = some p) : p.1.length = u.count := by
  rw [vector_get] at h
  exact getMany_length h

theorem map_length_le [LinearOrder α] {a : Codec α} {b : Codec β} {u : Unmarshall}
    {p : SortedMap α β × Unmarshall} (h : (a.map b).get u = some p) :
    p.1.entries.length ≤ u.count := by
  obtain ⟨q,hq,rfl⟩ := Option.map_eq_some_iff.mp h
  have hlen : q.1.length = u.count := vector_length (c := a.seq b) hq
  have hle := SortedMap.sum_ofEntries_le (fun _ => 1) q.1
  rwa [List.map_const', List.map_const', List.sum_replicate_nat, List.sum_replicate_nat,
    Nat.mul_one, Nat.mul_one, hlen] at hle

theorem getMany_isSome {c : Codec α} (hc : ∀ u, (c.get u).isSome = true) (n : ℕ) (u : Unmarshall) :
    (c.getMany n u).isSome = true := by
  induction n generalizing u with
  | zero => rfl
  | succ n ih =>
    obtain ⟨r,hr⟩ := Option.isSome_iff_exists.mp (hc u)
    obtain ⟨q,hq⟩ := Option.isSome_iff_exists.mp (ih r.2)
    rw [getMany, hr, Option.bind_some, hq]
    rfl

/-- A value that is read without failure has taken more bytes than its `size`. -/
structure Takes (c : Codec α) (size : α → ℕ) : Prop where
  ok : ∀ {u : Unmarshall} {p : α × Unmarshall}, c.get u = some p → p.2.ok = true →
    u.ind + size p.1 < p.2.ind ∧ p.2.ind ≤ p.2.buf.length

theorem takes_of_skip {c : Codec α} {read : Unmarshall → α × Unmarshall} (n : ℕ)
    (hget : ∀ u, c.get u = some (read u))
    (h : ∀ u, (read u).2.ok = true → (read u).2 = u.skip (n + 1) ∧ u.ind + (n + 1) ≤ u.buf.length) :
    c.Takes fun _ => 0 := by
  constructor
  intro u p hp hok
  rw [hget] at hp
  cases hp
  obtain ⟨hskip,hle⟩ := h u hok
  rw [hskip]
  exact ⟨Nat.lt_add_of_pos_right (Nat.succ_pos n), hle⟩

theorem Takes.seq {a : Codec α} {b : Codec β} {f : α → ℕ} {g : β → ℕ} (ha : a.Takes f)
    (hb : b.Takes g) (hlb : b.Lawful) : (a.seq b).Takes fun p => f p.1 + g p.2 := by
  constructor
  intro u p hp hok
  obtain ⟨r,hr,hp⟩ := Option.bind_eq_some_iff.mp hp
  obtain ⟨q,hq,rfl⟩ := Option.map_eq_some_iff.mp hp
  obtain ⟨h1,_⟩ := ha.ok hr ((hlb.advances hq).ok hok)
  obtain ⟨h2,hle⟩ := hb.ok hq hok
  refine ⟨?_, hle⟩
  change u.ind + (f r.1 + g q.1) < q.2.ind
  omega

theorem Takes.iso {c : Codec β} {g : β → ℕ} (hc : c.Takes g) (e : α ≃ β) :
    (c.iso e).Takes fun x => g (e x) := by
  constructor
  intro u p hp hok
  obtain ⟨r,hr,rfl⟩ := Option.map_eq_some_iff.mp hp
  have h := hc.ok hr hok
  rwa [← e.apply_symm_apply r.1] at h

theorem Takes.many {c : Codec α} {size : α → ℕ} (hc : c.Takes size) (hl : c.Lawful) {n : ℕ}
    {u : Unmarshall}
    {p : List α × Unmarshall} (hu : u.ind ≤ u.buf.length) (hget : c.getMany n u = some p)
    (hok : p.2.ok = true) :
    u.ind + (p.1.map fun x => size x + 1).sum ≤ p.2.ind ∧ p.2.ind ≤ p.2.buf.length := by
  induction n generalizing u p with
  | zero =>
    cases hget
    exact ⟨Nat.le_refl _, hu⟩
  | succ n ih =>
    obtain ⟨r,hr,hget⟩ := Option.bind_eq_some_iff.mp hget
    obtain ⟨q,hq,rfl⟩ := Option.map_eq_some_iff.mp hget
    -- a flag that is set at the end was set after the first element
    obtain ⟨h1,hle⟩ := hc.ok hr ((hl.getMany_advances hq).ok hok)
    obtain ⟨h2,hle2⟩ := ih hle hq hok
    refine ⟨?_, hle2⟩
    rw [List.map_cons, List.sum_cons]
    change u.ind + (size r.1 + 1 + _) ≤ q.2.ind
    omega

/-- What is left behind the number is enough for one byte per element. -/
theorem Takes.counted {c : Codec α} {size : α → ℕ} (hc : c.Takes size) (hl : c.Lawful)
    {u : Unmarshall}
    {p : List α × Unmarshall} (hget : c.counted.get u = some p) (hok : p.2.ok = true) :
    u.ind + (p.1.map fun x => size x + 1).sum < p.2.ind ∧ p.2.ind ≤ p.2.buf.length ∧
      (p.1.map fun x => size x + 1).sum ≤ u.afterCount := by
  rw [counted_get] at hget
  obtain ⟨r,hr,hget⟩ := Option.bind_eq_some_iff.mp hget
  cases hr
  have hadv := hl.getMany_advances hget
  obtain ⟨hskip,_,hle⟩ := getUInt_ok u (hadv.ok hok)
  have hind : u.getUInt.2.ind = u.ind + 4 := by rw [hskip]; rfl
  have hbuf : u.getUInt.2.buf = u.buf := by rw [hskip]; rfl
  obtain ⟨h,hend⟩ := hc.many hl (by rw [hind, hbuf]; exact hle) hget hok
  have hcut : p.2.ind ≤ u.getUInt.2.buf.length := hadv.buf ▸ hend
  refine ⟨?_, hend, ?_⟩
  · rw [hind] at h
    omega
  · rw [Unmarshall.afterCount]
    omega

theorem Takes.vector {c : Codec α} {size : α → ℕ} (hc : c.Takes size) (hl : c.Lawful) :
    c.vector.Takes fun v => (v.map fun x => size x + 1).sum := by
  constructor
  intro u p hp hok
  obtain ⟨h,hle,_⟩ := hc.counted hl hp hok
  exact ⟨h, hle⟩

theorem Takes.map [LinearOrder α] {a : Codec α} {b : Codec β} {f : α → ℕ} {g : β → ℕ}
    (ha : a.Takes f) (hb : b.Takes g) (hla : a.Lawful) (hlb : b.Lawful) :
    (a.map b).Takes fun d => (d.entries.map fun e => f e.1 + g e.2 + 1).sum := by
  constructor
  intro u p hp hok
  obtain ⟨q,hq,rfl⟩ := Option.map_eq_some_iff.mp hp
  obtain ⟨h,hle,_⟩ := (ha.seq hb hlb).counted (hla.seq hlb) hq hok
  -- pairs with a key that comes again have taken their bytes all the same
  have hsum := SortedMap.sum_ofEntries_le (fun e => f e.1 + g e.2 + 1) q.1
  exact ⟨Nat.lt_of_le_of_lt (Nat.add_le_add_left hsum _) h, hle⟩

end Codec

/-- The number of elements in a value, in containers on all levels. -/
def WireTy.elements : (t : WireTy) → t.ctype.carrier → ℕ
  | .vector t, v => (List.map (fun x => t.elements x + 1) v).sum
  | .map k v, d =>
    ((@SortedMap.entries k.ctype.carrier v.ctype.carrier k.ctype.order d).map fun e =>
      k.elements e.1 + v.elements e.2 + 1).sum
  | _, _ => 0

namespace Codec

theorem bool_takes : bool.Takes fun _ => 0 :=
  takes_of_skip 0 (fun _ => rfl) fun u h => ⟨(rawbyte_ok u h).1, (rawbyte_ok u h).2.2⟩

theorem uchar_takes : uchar.Takes fun _ => 0 :=
  takes_of_skip 0 (fun _ => rfl) fun u h => ⟨(rawbyte_ok u h).1, (rawbyte_ok u h).2.2⟩

theorem ushort_takes : ushort.Takes fun _ => 0 := by
  apply takes_of_skip 1 fun _ => rfl
  intro u h
  obtain ⟨h0,hok,_⟩ := rawbyte_ok u.rawbyte.2 h
  refine ⟨?_, (ushort_scalar.ok u h).2⟩
  change u.rawbyte.2.rawbyte.2 = _
  rw [h0, (rawbyte_ok u hok).1]
  rfl

theorem uint_takes : uint.Takes fun _ => 0 :=
  takes_of_skip 3 (fun _ => rfl) fun u h => ⟨(getUInt_ok u h).1, (getUInt_ok u h).2.2⟩

theorem ulongLong_takes : ulongLong.Takes fun _ => 0 :=
  takes_of_skip 7 (fun _ => rfl) fun u h => ⟨(getULongLong_ok u h).1, (getULongLong_ok u h).2.2⟩

theorem string_takes : string.Takes fun _ => 0 := by
  constructor
  intro u p hget hok
  change u.getString = some p at hget
  unfold Unmarshall.getString Unmarshall.getStringInto Unmarshall.rawbytes at hget
  split_ifs at hget with hsize hwrap hle
  · -- the text would end behind the buffer
    cases hget
    cases hok
  · cases hget
    have hind : u.getUInt.2.ind = u.ind + 4 := by rw [(getUInt_ok u hsize).1]; rfl
    change u.ind + 0 < u.getUInt.2.ind + u.getUInt.1.toNat ∧ _
    exact ⟨by omega, hle⟩
  · cases hget
    exact absurd hok hsize

end Codec

/-- A type whose values take a byte for each of their elements. -/
structure CType.Takes (r : CType) (size : r.carrier → ℕ) : Prop extends r.Lawful where
  takes : r.codec.Takes size

namespace CType.Takes

theorem of_bool : CType.bool.Takes fun _ => 0 := ⟨Lawful.of_bool, Codec.bool_takes⟩

theorem of_uint : CType.uint.Takes fun _ => 0 := ⟨Lawful.of_uint, Codec.uint_takes⟩

theorem of_string : CType.string.Takes fun _ => 0 := ⟨Lawful.of_string, Codec.string_takes⟩

theorem seq {a b : CType} {f : a.carrier → ℕ} {g : b.carrier → ℕ} (ha : a.Takes f)
    (hb : b.Takes g) :
    (a.seq b).Takes fun p => f p.1 + g p.2 :=
  ⟨ha.toLawful.seq hb.toLawful, ha.takes.seq hb.takes hb.codec⟩

theorem struct {α : Type} {r : CType} {f : r.carrier → ℕ} (h : r.Takes f)
    (members : α ≃ r.carrier) :
    (r.struct members).Takes fun x => f (members x) :=
  ⟨h.toLawful.struct members, h.takes.iso members⟩

theorem of_propT : CType.propT.Takes fun _ => 0 := (of_uint.seq of_string).struct _

theorem of_viewstamp : CType.viewstamp.Takes fun _ => 0 := (of_uint.seq of_uint).struct _

end CType.Takes

open CType.Takes in
/-- Every element of a value that is read without failure has taken a byte of its own. -/
theorem WireTy.takes (t : WireTy) : t.ctype.codec.Takes t.elements := by
  induction t with
  | bool => exact Codec.bool_takes
  | char | uchar => exact Codec.uchar_takes
  | short | ushort => exact Codec.ushort_takes
  | int | uint => exact Codec.uint_takes
  | ulongLong => exact Codec.ulongLong_takes
  | string => exact Codec.string_takes
  | vector t ih => exact ih.vector t.lawful.codec
  | map k v ihk ihv =>
    let := k.ctype.order
    exact ihk.map ihv k.lawful.codec v.lawful.codec
  | propT => exact of_propT.takes
  | preparearg => exact ((of_uint.seq of_propT).struct PrepareArg.members).takes
  | prepareres =>
    exact ((of_bool.seq (of_bool.seq (of_propT.seq of_string))).struct PrepareRes.members).takes
  | acceptarg => exact ((of_uint.seq (of_propT.seq of_string)).struct AcceptArg.members).takes
  | decidearg => exact ((of_uint.seq of_string).struct DecideArg.members).takes
  | viewstamp => exact of_viewstamp.takes
  | transferres => exact ((of_string.seq of_viewstamp).struct TransferRes.members).takes
  | joinres => exact (of_string.struct JoinRes.members).takes
  | attr => exact ((of_uint.seq (of_uint.seq (of_uint.seq of_uint))).struct Attr.members).takes

theorem length_le_sum {α : Type} (size : α → ℕ) (l : List α) :
    l.length ≤ (l.map fun x => size x + 1).sum := by
  induction l with
  | nil => exact Nat.le_refl _
  | cons x l ih =>
    rw [List.length_cons, List.map_cons, List.sum_cons]
    omega

theorem Codec.Takes.count_le {α : Type} {c : Codec α} {size : α → ℕ} (hc : c.Takes size)
    (hl : c.Lawful) {u : Unmarshall} {p : List α × Unmarshall} (hget : c.counted.get u = some p)
    (hok : p.2.ok = true) :
    u.count ≤ u.afterCount := by
  have hlen : p.1.length = u.count := vector_length (c := c) hget
  rw [← hlen]
  exact (length_le_sum size p.1).trans (hc.counted hl hget hok).2.2

/-- The number of elements is within the bytes behind the number, and each is added while `ok()`
is true. -/
theorem Codec.Takes.bounded_iff {α : Type} {c : Codec α} {size : α → ℕ} (hc : c.Takes size)
    (hl : c.Lawful) {u : Unmarshall} {p : List α × Unmarshall} (h : c.counted.get u = some p)
    {n : ℕ} (hn : n ≤ u.count) :
    n ≤ u.afterCount ∧ c.AddsOk u ↔ p.2.ok = true ∨ u.count = 0 := by
  rw [← hl.addsOk_iff h, and_iff_right_iff_imp, hl.addsOk_iff h]
  rintro (hok | hzero)
  · exact hn.trans (hc.count_le hl h hok)
  · omega

end Wire

end Yfs
