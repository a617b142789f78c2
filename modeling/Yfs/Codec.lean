import Yfs.Marshall
import Yfs.SortedMap
import Mathlib.Logic.Equiv.Defs

namespace Yfs.Wire

/-- The largest PDU a connection takes. -/
def maxPdu : ℕ := 10 <<< 20

namespace Marshall

/-- The buffer has not grown further than its content has asked for. -/
structure Room (m : Marshall) : Prop where
  default_le : defaultRpcSz ≤ m.capa
  ind_le : m.ind ≤ m.capa
  capa_le : m.capa ≤ max defaultRpcSz (2 * m.ind)

/-- The object after `bs` has been appended to a buffer that may have been grown. -/
def wroteIn (m : Marshall) (bs : List Byte) (capa : ℕ) : Marshall :=
  { m.wrote bs with capa := capa }

def Writes (m : Marshall) (bs : List Byte) (r : Option Marshall) : Prop :=
  ∃ capa, r = some (m.wroteIn bs capa) ∧ (m.wroteIn bs capa).Room

/-- An `int` holds every capacity that a PDU can need. -/
def Holds (m : Marshall) (bs : List Byte) : Prop := m.ind + bs.length ≤ rpcHeaderSz + maxPdu

end Marshall

open Marshall

theorem room_new (junk : ℕ → Byte) : (Marshall.new junk).Room := by
  constructor <;> simp [Marshall.new, rpcHeaderSz, defaultRpcSz]

theorem wroteIn_wroteIn (m : Marshall) (bs cs : List Byte) (c c' : ℕ) :
    (m.wroteIn bs c).wroteIn cs c' = m.wroteIn (bs ++ cs) c' := by
  have h := wrote_append m bs cs
  simp only [wroteIn, wrote, Marshall.mk.injEq] at h ⊢
  exact ⟨h.1, trivial, h.2.2⟩

theorem holds_append {m : Marshall} {bs cs : List Byte} (h : m.Holds (bs ++ cs)) (c : ℕ) :
    m.Holds bs ∧ (m.wroteIn bs c).Holds cs := by
  simp only [Holds, List.length_append, wroteIn, wrote] at h ⊢
  omega

theorem writes_nil {m : Marshall} (h : m.Room) : m.Writes [] (some m) := by
  have hm : m.wroteIn [] m.capa = m := by rw [wroteIn, wrote_nil]
  exact ⟨m.capa, by rw [hm], by rwa [hm]⟩

theorem writes_bind {m : Marshall} {bs cs : List Byte} {r : Option Marshall}
    {f : Marshall → Option Marshall} (hr : m.Writes bs r)
    (hf : ∀ c, (m.wroteIn bs c).Room → (m.wroteIn bs c).Writes cs (f (m.wroteIn bs c))) :
    m.Writes (bs ++ cs) (r.bind f) := by
  obtain ⟨c,rfl,hc⟩ := hr
  obtain ⟨c',hc',hroom⟩ := hf c hc
  rw [wroteIn_wroteIn] at hc' hroom
  exact ⟨c', hc', hroom⟩

theorem rawbyte_writes {m : Marshall} (x : Byte) (hroom : m.Room) (h : m.Holds [x]) :
    m.Writes [x] (m.rawbyte x) := by
  obtain ⟨hdef,hind,hcapa⟩ := hroom
  simp only [Holds, List.length_singleton, rpcHeaderSz, maxPdu] at h
  simp only [defaultRpcSz] at hdef hcapa
  by_cases hfull : m.capa ≤ m.ind
  · -- the byte goes into a buffer of twice the capacity
    have hgrow : m.rawbyte x = Marshall.rawbyte { m with capa := m.capa * 2 } x := by
      have hroom2 : ¬ m.ind ≥ m.capa * 2 := by omega
      simp only [rawbyte, resize, if_pos hfull, if_neg hroom2,
        if_pos (show m.capa * 2 < 2^31 by omega), Option.bind_some]
    refine ⟨m.capa * 2, ?_, ?_⟩
    · rw [hgrow]
      exact rawbyte_of_fits { m with capa := m.capa * 2 } x (show m.ind < m.capa * 2 by omega)
    · constructor <;> simp only [wroteIn, wrote, defaultRpcSz, List.length_singleton] <;> omega
  · refine ⟨m.capa, rawbyte_of_fits m x (by omega), ?_⟩
    constructor <;> simp only [wroteIn, wrote, defaultRpcSz, List.length_singleton] <;> omega

theorem rawbyteAll_writes {m : Marshall} (bs : List Byte) (hroom : m.Room) (h : m.Holds bs) :
    m.Writes bs (m.rawbyteAll bs) := by
  induction bs generalizing m with
  | nil => exact writes_nil hroom
  | cons b bs ih =>
    have hsplit := fun c => holds_append (show m.Holds ([b] ++ bs) from h) c
    exact writes_bind (rawbyte_writes b hroom (hsplit 0).1) fun c hc => ih hc (hsplit c).2

theorem putUInt_writes {m : Marshall} (x : UInt) (hroom : m.Room) (h : m.Holds (uintBytes x)) :
    m.Writes (uintBytes x) (m.putUInt x) := rawbyteAll_writes _ hroom h

theorem rawbytes_writes {m : Marshall} (p : List Byte) (hroom : m.Room) (h : m.Holds p) :
    m.Writes p (m.rawbytes p p.length) := by
  obtain ⟨hdef,hind,hcapa⟩ := hroom
  simp only [Holds, rpcHeaderSz, maxPdu] at h
  simp only [defaultRpcSz] at hdef hcapa
  have hgrow : m.capa < m.ind + p.length →
      m.ind + p.length ≤ m.grown p.length ∧ m.capa ≤ m.grown p.length ∧
        m.grown p.length ≤ 2 * (m.ind + p.length) := by
    intro hlt
    unfold Marshall.grown
    split_ifs <;> omega
  refine ⟨_, rawbytes_of_room m p hind (by omega) (fun hlt => ?_), ?_⟩
  · have := hgrow hlt
    omega
  · constructor <;> simp only [wroteIn, wrote, defaultRpcSz] <;> split_ifs <;> omega

/-- A size that fits in a PDU survives the conversions to `unsigned int` and `int`. -/
theorem toNat_ofNat_of_holds {m : Marshall} {bs : List Byte} {n : ℕ} (h : m.Holds bs)
    (hn : n ≤ bs.length) : (BitVec.ofNat 32 n).toNat = n := by
  simp only [Holds, rpcHeaderSz, maxPdu] at h
  rw [BitVec.toNat_ofNat, Nat.mod_eq_of_lt (by omega)]

theorem putString_writes {m : Marshall} (s : List Byte) (hroom : m.Room)
    (h : m.Holds (stringBytes s)) : m.Writes (stringBytes s) (m.putString s) := by
  have hlen := stringBytes_length s
  have hnat := toNat_ofNat_of_holds h (n := s.length) (by omega)
  have hint : (BitVec.ofNat 32 s.length).toInt = s.length := by
    simp only [Holds, rpcHeaderSz, maxPdu] at h
    rw [BitVec.toInt_eq_toNat_of_lt (by omega), hnat]
  have hsplit := holds_append h
  unfold putString
  rw [hint]
  exact writes_bind (putUInt_writes _ hroom (hsplit 0).1) fun c hc =>
    rawbytes_writes s hc (hsplit c).2

/-- The buffer ends inside of `bs`. -/
structure Unmarshall.Cut (u : Unmarshall) (bs : List Byte) : Prop where
  inside : u.ind ≤ u.buf.length
  start : u.rest <+: bs
  shorter : u.rest.length < bs.length

theorem cut_append {u : Unmarshall} {bs cs : List Byte} (h : u.Cut (bs ++ cs)) :
    u.Cut bs ∨ ∃ r, u.rest = bs ++ r ∧ (u.skip bs.length).Cut cs := by
  have hbs : bs <+: bs ++ cs := List.prefix_append bs cs
  by_cases hlt : u.rest.length < bs.length
  · exact .inl ⟨h.inside, List.prefix_of_prefix_length_le h.start hbs hlt.le, hlt⟩
  · right
    obtain ⟨r,hr⟩ := List.prefix_of_prefix_length_le hbs h.start (not_lt.mp hlt)
    have hrest := rest_skip u bs r hr.symm
    have hstart : bs ++ r <+: bs ++ cs := hr ▸ h.start
    have hshort := h.shorter
    have hind := length_of_rest u _ hr.symm h.inside
    rw [← hr, List.length_append, List.length_append] at hshort
    rw [List.length_append] at hind
    refine ⟨r, hr.symm, ?_, ?_, ?_⟩
    · change u.ind + bs.length ≤ u.buf.length
      omega
    · rw [hrest]
      exact (List.prefix_append_right_inj bs).mp hstart
    · rw [hrest]
      omega

/-- What any reading does to the object: `_ok` does not become true again. -/
structure Unmarshall.Advances (u u' : Unmarshall) : Prop where
  buf : u'.buf = u.buf
  ind_le : u.ind ≤ u'.ind
  ok : u'.ok = true → u.ok = true

theorem advances_refl (u : Unmarshall) : u.Advances u := ⟨rfl, Nat.le_refl _, id⟩

theorem Unmarshall.Advances.trans {u u' u'' : Unmarshall} (h : u.Advances u')
    (h' : u'.Advances u'') :
    u.Advances u'' :=
  ⟨h'.buf.trans h.buf, h.ind_le.trans h'.ind_le, fun hok => h.ok (h'.ok hok)⟩

theorem rawbyte_advances (u : Unmarshall) : u.Advances u.rawbyte.2 := by
  unfold Unmarshall.rawbyte
  cases u.buf[u.ind]? with
  | none => exact ⟨rfl, Nat.le_refl _, fun h => Bool.noConfusion h⟩
  | some c => exact ⟨rfl, Nat.le_succ _, id⟩

theorem getUInt_advances (u : Unmarshall) : u.Advances u.getUInt.2 :=
  (((rawbyte_advances u).trans (rawbyte_advances _)).trans (rawbyte_advances _)).trans
    (rawbyte_advances _)

/-- The reading goes on to its end, with `_ok` false. -/
def Fails {α : Type} (r : Option (α × Unmarshall)) : Prop := ∃ p, r = some p ∧ p.2.ok = false

section Fails

variable {α β : Type} {r : Option (α × Unmarshall)}

theorem fails_bind {f : α × Unmarshall → Option (β × Unmarshall)} (hr : Fails r)
    (hf : ∀ p, p.2.ok = false → Fails (f p)) : Fails (r.bind f) := by
  obtain ⟨p,rfl,hp⟩ := hr
  exact hf p hp

theorem fails_map {f : α × Unmarshall → β × Unmarshall} (hr : Fails r) (hf : ∀ p, (f p).2 = p.2) :
    Fails (r.map f) := by
  obtain ⟨p,rfl,hp⟩ := hr
  exact ⟨f p, rfl, (congrArg Unmarshall.ok (hf p)).trans hp⟩

end Fails

/-- The operators of a type, and the bytes they write and read. -/
structure Codec (α : Type) where
  put : Marshall → α → Option Marshall
  get : Unmarshall → Option (α × Unmarshall)
  enc : α → List Byte

/-- What the operators of a type have to do for those of its values whose encoding
fits in a PDU. -/
structure Codec.Lawful {α : Type} (c : Codec α) : Prop where
  writes : ∀ {m : Marshall} (v : α), m.Room → m.Holds (c.enc v) → m.Writes (c.enc v) (c.put m v)
  reads : ∀ {u : Unmarshall} {v : α} {r : List Byte}, u.ok = true → u.rest = c.enc v ++ r →
    u.ind + (c.enc v).length < 2^32 → c.get u = some (v, u.skip (c.enc v).length)
  cut : ∀ {u : Unmarshall} {v : α}, u.ok = true → u.Cut (c.enc v) →
    u.ind + (c.enc v).length < 2^32 → Fails (c.get u)
  failed : ∀ {u : Unmarshall}, u.ok = false → Fails (c.get u)
  advances : ∀ {u : Unmarshall} {p : α × Unmarshall}, c.get u = some p → u.Advances p.2

namespace Codec

variable {α β : Type}

/-- Where the input is cut, the first value fails, or what is read after it does. -/
theorem Lawful.cut_bind {c : Codec α} (hc : c.Lawful) {u : Unmarshall} {v : α} {cs : List Byte}
    {f : α × Unmarshall → Option (β × Unmarshall)} (hok : u.ok = true)
    (hcut : u.Cut (c.enc v ++ cs)) (hind : u.ind + (c.enc v ++ cs).length < 2^32)
    (hf : (u.skip (c.enc v).length).Cut cs → Fails (f (v, u.skip (c.enc v).length)))
    (hfail : ∀ p, p.2.ok = false → Fails (f p)) : Fails ((c.get u).bind f) := by
  rw [List.length_append] at hind
  rcases cut_append hcut with hfirst | ⟨r,hr,hnext⟩
  · exact fails_bind (hc.cut hok hfirst (by omega)) hfail
  · rw [hc.reads hok hr (by omega)]
    exact hf hnext

/-- Values of a fixed size, written and read byte by byte. -/
structure Scalar (n : ℕ) (bytes : α → List Byte) (read : Unmarshall → α × Unmarshall) : Prop where
  length : ∀ x, (bytes x).length = n
  of_rest : ∀ u x r, u.rest = bytes x ++ r → read u = (x, u.skip n)
  ok : ∀ u, (read u).2.ok = true → u.ok = true ∧ u.ind + n ≤ u.buf.length
  advances : ∀ u : Unmarshall, u.Advances (read u).2

theorem Scalar.lawful {n : ℕ} {bytes : α → List Byte} {read : Unmarshall → α × Unmarshall}
    (h : Scalar n bytes read) {put : Marshall → α → Option Marshall}
    (hput : ∀ m x, put m x = m.rawbyteAll (bytes x)) :
    Lawful ⟨put, fun u => some (read u), bytes⟩ where
  writes := by
    intro m x hroom hholds
    change m.Writes (bytes x) (put m x)
    rw [hput]
    exact rawbyteAll_writes (bytes x) hroom hholds
  reads := by
    intro u x r _ hrest _
    change some (read u) = some (x, u.skip (bytes x).length)
    rw [h.of_rest u x r hrest, h.length]
  cut := by
    intro u x _ hcut _
    refine ⟨read u, rfl, Bool.eq_false_iff.mpr fun hread => ?_⟩
    -- a read that succeeds finds all of its bytes
    have hlt : u.rest.length < n := (h.length x) ▸ hcut.shorter
    have hle := (h.ok u hread).2
    rw [Unmarshall.rest, List.length_drop] at hlt
    omega
  failed := by
    intro u hok
    refine ⟨read u, rfl, Bool.eq_false_iff.mpr fun hread => ?_⟩
    rw [(h.ok u hread).1] at hok
    contradiction
  advances := by
    intro u p hget
    rw [← Option.some.inj hget]
    exact h.advances u

/-- One member after the other; the second is read also when the first has failed. -/
def seq (a : Codec α) (b : Codec β) : Codec (α × β) where
  put m p := (a.put m p.1).bind (b.put · p.2)
  get u := (a.get u).bind fun r => (b.get r.2).map fun q => ((r.1, q.1), q.2)
  enc p := a.enc p.1 ++ b.enc p.2

theorem Lawful.seq {a : Codec α} {b : Codec β} (ha : a.Lawful) (hb : b.Lawful) :
    (a.seq b).Lawful where
  writes := by
    intro m p hroom hholds
    have hsplit := holds_append hholds
    exact writes_bind (ha.writes p.1 hroom (hsplit 0).1) fun c hc => hb.writes p.2 hc (hsplit c).2
  reads := by
    intro u p r hok hrest hind
    change u.rest = (a.enc p.1 ++ b.enc p.2) ++ r at hrest
    change u.ind + (a.enc p.1 ++ b.enc p.2).length < 2^32 at hind
    rw [List.append_assoc] at hrest
    rw [List.length_append] at hind
    have h1 := ha.reads hok hrest (by omega)
    have hind2 : u.ind + (a.enc p.1).length + (b.enc p.2).length < 2^32 := by omega
    have h2 := hb.reads (u := u.skip (a.enc p.1).length) hok (rest_skip u _ _ hrest) hind2
    change ((a.get u).bind fun r => (b.get r.2).map fun q => ((r.1, q.1), q.2)) =
      some (p, u.skip (a.enc p.1 ++ b.enc p.2).length)
    rw [h1, Option.bind_some, h2, Option.map_some, skip_skip, List.length_append]
  cut := by
    intro u p hok hcut hind
    apply ha.cut_bind hok hcut hind
    · intro hnext
      have hind2 : u.ind + (a.enc p.1).length + (b.enc p.2).length < 2^32 := by
        rwa [Nat.add_assoc, ← List.length_append]
      have hsecond : Fails (b.get (u.skip (a.enc p.1).length)) := hb.cut hok hnext hind2
      exact fails_map hsecond fun _ => rfl
    · intro q hq
      exact fails_map (hb.failed hq) fun _ => rfl
  failed := by
    intro u hok
    apply fails_bind (ha.failed hok)
    intro q hq
    exact fails_map (hb.failed hq) fun _ => rfl
  advances := by
    intro u p hget
    obtain ⟨r,hr,hget⟩ := Option.bind_eq_some_iff.mp hget
    obtain ⟨q,hq,rfl⟩ := Option.map_eq_some_iff.mp hget
    exact (ha.advances hr).trans (hb.advances hq)

theorem advances_of_map {c : Codec α} (hc : c.Lawful) {u : Unmarshall} {f : α → β}
    {p : β × Unmarshall} (hget : ((c.get u).map fun r => (f r.1, r.2)) = some p) :
    u.Advances p.2 := by
  obtain ⟨r,hr,rfl⟩ := Option.map_eq_some_iff.mp hget
  exact hc.advances hr

/-- The operators of a struct, given by those of the tuple of its members. -/
def iso (c : Codec β) (e : α ≃ β) : Codec α where
  put m x := c.put m (e x)
  get u := (c.get u).map fun r => (e.symm r.1, r.2)
  enc x := c.enc (e x)

theorem Lawful.iso {c : Codec β} (hc : c.Lawful) (e : α ≃ β) : (c.iso e).Lawful where
  writes x hroom hholds := hc.writes (e x) hroom hholds
  reads := by
    intro u x r hok hrest hind
    have h := hc.reads hok hrest hind
    change (c.get u).map _ = some (x, u.skip (c.enc (e x)).length)
    rw [h, Option.map_some, Equiv.symm_apply_apply]
  cut hok hcut hind := fails_map (hc.cut hok hcut hind) fun _ => rfl
  failed hok := fails_map (hc.failed hok) fun _ => rfl
  advances hget := advances_of_map hc hget

def putMany (c : Codec α) (m : Marshall) (l : List α) : Option Marshall := l.foldlM c.put m

def getMany (c : Codec α) : ℕ → Unmarshall → Option (List α × Unmarshall)
  | 0, u => some ([], u)
  | n + 1, u => (c.get u).bind fun r => (c.getMany n r.2).map fun q => (r.1 :: q.1, q.2)

def encMany (c : Codec α) (l : List α) : List Byte := l.flatMap c.enc

theorem encMany_cons (c : Codec α) (x : α) (l : List α) :
    c.encMany (x :: l) = c.enc x ++ c.encMany l := rfl

theorem Lawful.putMany_writes {c : Codec α} (hc : c.Lawful) {m : Marshall} (l : List α)
    (hroom : m.Room) (h : m.Holds (c.encMany l)) : m.Writes (c.encMany l) (c.putMany m l) := by
  induction l generalizing m with
  | nil => exact writes_nil hroom
  | cons x l ih =>
    have hsplit := holds_append h
    exact writes_bind (hc.writes x hroom (hsplit 0).1) fun capa hcapa => ih hcapa (hsplit capa).2

theorem Lawful.getMany_reads {c : Codec α} (hc : c.Lawful) {u : Unmarshall} {l : List α}
    {r : List Byte} (hok : u.ok = true) (hrest : u.rest = c.encMany l ++ r)
    (hind : u.ind + (c.encMany l).length < 2^32) :
    c.getMany l.length u = some (l, u.skip (c.encMany l).length) := by
  induction l generalizing u with
  | nil => rfl
  | cons x l ih =>
    rw [encMany_cons, List.append_assoc] at hrest
    rw [encMany_cons, List.length_append] at hind
    have hx := hc.reads hok hrest (by omega)
    have hind2 : u.ind + (c.enc x).length + (c.encMany l).length < 2^32 := by omega
    have hl := ih (u := u.skip (c.enc x).length) hok (rest_skip u _ _ hrest) hind2
    rw [List.length_cons, getMany, hx, Option.bind_some, hl, Option.map_some, skip_skip,
      encMany_cons, List.length_append]

theorem Lawful.getMany_failed {c : Codec α} (hc : c.Lawful) (n : ℕ) {u : Unmarshall}
    (hok : u.ok = false) : Fails (c.getMany n u) := by
  induction n generalizing u with
  | zero => exact ⟨_, rfl, hok⟩
  | succ n ih =>
    apply fails_bind (hc.failed hok)
    intro p hp
    exact fails_map (ih hp) fun _ => rfl

theorem Lawful.getMany_cut {c : Codec α} (hc : c.Lawful) {u : Unmarshall} {l : List α}
    (hok : u.ok = true) (hcut : u.Cut (c.encMany l)) (hind : u.ind + (c.encMany l).length < 2^32) :
    Fails (c.getMany l.length u) := by
  induction l generalizing u with
  | nil => exact absurd hcut.shorter (Nat.not_lt_zero _)
  | cons x l ih =>
    rw [encMany_cons] at hcut hind
    apply hc.cut_bind hok hcut hind
    · intro hnext
      have hind2 : u.ind + (c.enc x).length + (c.encMany l).length < 2^32 := by
        rwa [Nat.add_assoc, ← List.length_append]
      have htail : Fails (c.getMany l.length (u.skip (c.enc x).length)) := ih hok hnext hind2
      exact fails_map htail fun _ => rfl
    · intro p hp
      exact fails_map (hc.getMany_failed l.length hp) fun _ => rfl

theorem Lawful.getMany_advances {c : Codec α} (hc : c.Lawful) {n : ℕ} {u : Unmarshall}
    {p : List α × Unmarshall} (hget : c.getMany n u = some p) : u.Advances p.2 := by
  induction n generalizing u p with
  | zero =>
    rw [← Option.some.inj hget]
    exact advances_refl u
  | succ n ih =>
    obtain ⟨r,hr,hget⟩ := Option.bind_eq_some_iff.mp hget
    obtain ⟨q,hq,rfl⟩ := Option.map_eq_some_iff.mp hget
    have htail : r.2.Advances q.2 := ih hq
    exact (hc.advances hr).trans htail

def uint : Codec UInt := ⟨Marshall.putUInt, fun u => some u.getUInt, uintBytes⟩

theorem uint_scalar : Scalar 4 uintBytes Unmarshall.getUInt where
  length _ := rfl
  of_rest u x r h := (getUInt_of_rest u x r h).1
  ok u h := (getUInt_ok u h).2
  advances := getUInt_advances

theorem uint_lawful : uint.Lawful := uint_scalar.lawful fun _ _ => rfl

/-- The number of the elements and then the elements. When the number has not been
read, the loop still runs as often as it says. -/
def counted (c : Codec α) : Codec (List α) where
  put m l := (uint.put m (BitVec.ofNat 32 l.length)).bind (c.putMany · l)
  get u := (uint.get u).bind fun r => c.getMany r.1.toNat r.2
  enc l := uint.enc (BitVec.ofNat 32 l.length) ++ c.encMany l

theorem counted_get (c : Codec α) (u : Unmarshall) :
    c.counted.get u = (uint.get u).bind fun r => c.getMany r.1.toNat r.2 := rfl

theorem counted_enc (c : Codec α) (l : List α) :
    c.counted.enc l = uint.enc (BitVec.ofNat 32 l.length) ++ c.encMany l := rfl

/-- Every value takes a byte at least, so a container has no more elements than bytes. -/
def Pos (c : Codec α) : Prop := ∀ x, 0 < (c.enc x).length

theorem Pos.length_le {c : Codec α} (hc : c.Pos) (l : List α) :
    l.length ≤ (c.encMany l).length := by
  induction l with
  | nil => exact Nat.zero_le _
  | cons x l ih =>
    have hx := hc x
    rw [encMany_cons, List.length_append, List.length_cons]
    omega

theorem Pos.count_of_lt {c : Codec α} (hc : c.Pos) {l : List α} {n : ℕ}
    (h : n + (c.counted.enc l).length < 2^32) : (BitVec.ofNat 32 l.length).toNat = l.length := by
  have hle := hc.length_le l
  rw [counted_enc, List.length_append] at h
  rw [BitVec.toNat_ofNat, Nat.mod_eq_of_lt (by omega)]

theorem Lawful.counted {c : Codec α} (hc : c.Lawful) (hpos : c.Pos) : c.counted.Lawful where
  writes := by
    intro m l hroom hholds
    have hsplit := holds_append hholds
    exact writes_bind (uint_lawful.writes _ hroom (hsplit 0).1) fun capa hcapa =>
      hc.putMany_writes l hcapa (hsplit capa).2
  reads := by
    intro u l r hok hrest hind
    have hn := hpos.count_of_lt hind
    rw [counted_enc, List.append_assoc] at hrest
    rw [counted_enc, List.length_append] at hind
    have h1 := uint_lawful.reads hok hrest (by omega)
    have h2 := hc.getMany_reads (u := u.skip (uint.enc (BitVec.ofNat 32 l.length)).length) hok
      (rest_skip u _ _ hrest) (by rw [Unmarshall.skip, Nat.add_assoc]; exact hind)
    rw [counted_get, h1, Option.bind_some, hn, h2, skip_skip, counted_enc, List.length_append]
  cut := by
    intro u l hok hcut hind
    -- the number is that of the elements, so the loop runs into the cut
    have hn := hpos.count_of_lt hind
    rw [counted_enc] at hcut hind
    rw [counted_get]
    apply uint_lawful.cut_bind hok hcut hind
    · intro hnext
      rw [List.length_append, ← Nat.add_assoc] at hind
      rw [hn]
      exact hc.getMany_cut (u := u.skip _) hok hnext hind
    · intro p hp
      exact hc.getMany_failed _ hp
  failed := by
    intro u hok
    rw [counted_get]
    apply fails_bind (uint_lawful.failed hok)
    intro p hp
    exact hc.getMany_failed _ hp
  advances := by
    intro u p hget
    rw [counted_get] at hget
    obtain ⟨r,hr,hget⟩ := Option.bind_eq_some_iff.mp hget
    exact (uint_lawful.advances hr).trans (hc.getMany_advances hget)

theorem counted_pos (c : Codec α) : c.counted.Pos := fun _ => Nat.succ_pos _

/-- A loop over an `unsigned` index does not end on a vector of more than `2^32`
elements. -/
def vector (c : Codec α) : Codec (List α) :=
  { c.counted with put := fun m v => if v.length < 2^32 then c.counted.put m v else none }

theorem Lawful.vector {c : Codec α} (hc : c.Lawful) (hpos : c.Pos) : c.vector.Lawful :=
  { hc.counted hpos with
    writes := by
      intro m v hroom hholds
      have hle := hpos.length_le v
      have hlt : v.length < 2^32 := by
        change m.ind + (c.counted.enc v).length ≤ _ at hholds
        simp only [counted_enc, List.length_append, rpcHeaderSz, maxPdu] at hholds
        omega
      change m.Writes _ (if v.length < 2^32 then _ else _)
      rw [if_pos hlt]
      exact (hc.counted hpos).writes v hroom hholds }

/-- Iteration is in the order of the keys; `d[a] = b` is done for each pair read. -/
def map [LinearOrder α] (a : Codec α) (b : Codec β) : Codec (SortedMap α β) where
  put m d := (a.seq b).counted.put m d.entries
  get u := ((a.seq b).counted.get u).map fun r => (SortedMap.ofEntries r.1, r.2)
  enc d := (a.seq b).counted.enc d.entries

theorem Pos.seq {a : Codec α} (ha : a.Pos) (b : Codec β) : (a.seq b).Pos := by
  intro p
  have h := ha p.1
  change 0 < (a.enc p.1 ++ b.enc p.2).length
  rw [List.length_append]
  omega

theorem Lawful.map [LinearOrder α] {a : Codec α} {b : Codec β} (ha : a.Lawful) (hpos : a.Pos)
    (hb : b.Lawful) : (a.map b).Lawful := by
  have hc := (ha.seq hb).counted (hpos.seq b)
  constructor
  · intro m d hroom hholds
    exact hc.writes d.entries hroom hholds
  · intro u d r hok hrest hind
    have h := hc.reads hok hrest hind
    change ((a.seq b).counted.get u).map _ =
      some (d, u.skip ((a.seq b).counted.enc d.entries).length)
    rw [h, Option.map_some, SortedMap.ofEntries_entries]
  · intro u d hok hcut hind
    exact fails_map (hc.cut hok hcut hind) fun _ => rfl
  · intro u hok
    exact fails_map (hc.failed hok) fun _ => rfl
  · intro u p hget
    exact advances_of_map hc hget

end Codec

end Yfs.Wire
