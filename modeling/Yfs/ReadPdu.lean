import Yfs.CInt
import Yfs.ConnectionStream

namespace Yfs.Conn

open Yfs.Wire Yfs.CInt

/-- `rpdu_`, with the size of the block that `buf` points to. -/
structure Rpdu where
  room : Option ℕ
  sz : ℤ
  solong : ℤ
  deriving DecidableEq

def Rpdu.empty : Rpdu := ⟨none, 0, 0⟩

/-- What `readpdu` does with the buffer: it asks `read` for a number of bytes, and bytes
are stored from a position on in a block of some size. -/
inductive Touch
  | asks (count : ℤ)
  | stores (pos : ℤ) (n : ℕ) (room : ℕ)
  deriving DecidableEq

/-- `malloc` can always fail, and it does for what is not the size of an object. -/
def malloc (size : ℕ) (got : Bool) : Option ℕ :=
  if got = true ∧ size < 2^63 then some size else none

/-- What the calls in a `read_cb` return: `read` of the size and the size that it has read,
`malloc`, `read` of the rest, and `got_pdu`. -/
structure CbRes where
  hdr : ReadRes
  sz1 : UInt
  got : Bool
  body : ReadRes
  accept : Bool

namespace Rpdu

/-- The first half of `readpdu`: the new `rpdu_`, or none where it returns false. A `VERIFY`
ends the process. -/
def readSize (p : Rpdu) (a : CbRes) : Option (Option (Rpdu × List Touch)) :=
  match a.hdr with
  | .eof _ => some none
  | .error again => if again = true then none else some none
  | .bytes n =>
    if n = 0 ∨ 4 < n then none
    else if n ≠ 4 then some none
    -- `sz` is an `int`, and this is the only test of it
    else if a.sz1.toInt > maxPdu then some none
    -- `VERIFY(rpdu_.buf == NULL)`, and `VERIFY(rpdu_.buf)` behind it
    else if p.room.isSome = true then none
    else (malloc (sizeT (a.sz1.toInt + 4)) a.got).map fun room =>
      some (⟨some room, a.sz1.toInt, 4⟩, [.stores 0 4 room])

def readBody (p : Rpdu) (body : ReadRes) : Option (Bool × Rpdu × List Touch) :=
  match body with
  | .eof again | .error again =>
    if again = true then some (true, p, [.asks (p.sz - p.solong)])
    else some (false, .empty, [.asks (p.sz - p.solong)])
  | .bytes n => p.room.bind fun room =>
    if 0 < n ∧ n < 2^31 ∧ n ≤ sizeT (p.sz - p.solong) then
      some (true, { p with solong := p.solong + n },
        [.asks (p.sz - p.solong), .stores p.solong n room])
    else none

def readpdu (p : Rpdu) (a : CbRes) : Option (Bool × Rpdu × List Touch) :=
  if p.sz = 0 then
    (p.readSize a).bind fun
      | none => some (false, p, [])
      | some (q, ts) => (q.readBody a.body).map fun (succ, p, ts') => (succ, p, ts ++ ts')
  else p.readBody a.body

/-- The end of `read_cb`. -/
def deliver (p : Rpdu) (accept : Bool) : Rpdu :=
  if p.room.isSome = true ∧ p.sz = p.solong ∧ accept = true then .empty else p

end Rpdu

/-- The reading side of a `connection`, with all that has been done with its buffers. -/
structure Reader where
  rpdu : Rpdu
  dead : Bool
  touches : List Touch
  deriving DecidableEq

namespace Reader

def init : Reader := ⟨.empty, false, []⟩

def readCb (s : Reader) (a : CbRes) : Option Reader :=
  if s.dead = true then some s
  else
    (if s.rpdu.room = none ∨ s.rpdu.solong < s.rpdu.sz then s.rpdu.readpdu a
     else some (true, s.rpdu, [])).map fun (succ, p, ts) =>
       ⟨p.deliver a.accept, !succ, s.touches ++ ts⟩

/-- A size that is read, if any, has room for itself. -/
def SizeOk (s : Reader) (a : CbRes) : Prop := s.rpdu.sz = 0 → a.hdr = .bytes 4 → 4 ≤ a.sz1.toInt

instance (s : Reader) (a : CbRes) : Decidable (s.SizeOk a) := by
  unfold SizeOk
  infer_instance

end Reader

/-- Within the block, and a number of bytes. -/
def Touch.Inside : Touch → Prop
  | .asks count => 0 ≤ count
  | .stores pos n room => 0 ≤ pos ∧ pos + n ≤ room

/-- There is no buffer, or what has been read fits into it and so does the rest. -/
structure Rpdu.Ok (p : Rpdu) : Prop where
  filled : ∀ room, p.room = some room → 4 ≤ p.solong ∧ p.solong ≤ p.sz ∧ p.sz ≤ room ∧ p.sz ≤ maxPdu
  empty : p.room = none → p = .empty

/-- Nothing that has been done with a buffer goes beyond it. -/
structure Reader.Safe (s : Reader) : Prop where
  touches : ∀ t ∈ s.touches, t.Inside
  rpdu : s.rpdu.Ok

theorem ok_empty : Rpdu.empty.Ok := ⟨nofun,fun _ => rfl⟩

theorem ok_filled {room : ℕ} {sz solong : ℤ} (hlo : 4 ≤ solong) (hhi : solong ≤ sz)
    (hsz : sz ≤ room) (hmax : sz ≤ maxPdu) : (⟨some room, sz, solong⟩ : Rpdu).Ok :=
  ⟨fun _ hr => Option.some.inj hr ▸ ⟨hlo,hhi,hsz,hmax⟩,nofun⟩

theorem readBody_ok {p p' : Rpdu} {room : ℕ} {body : ReadRes} {succ : Bool} {ts : List Touch}
    (h : p.Ok) (hroom : p.room = some room) (hread : p.readBody body = some (succ, p', ts)) :
    p'.Ok ∧ ∀ t ∈ ts, t.Inside := by
  obtain ⟨hlo,hhi,hsz,hmax⟩ := h.filled room hroom
  have hasks : (Touch.asks (p.sz - p.solong)).Inside := Int.sub_nonneg_of_le hhi
  cases body with
  | eof again | error again =>
    simp only [Rpdu.readBody] at hread
    split_ifs at hread <;> cases hread
    · exact ⟨h,by simpa using hasks⟩
    · exact ⟨ok_empty,by simpa using hasks⟩
  | bytes n =>
    simp only [Rpdu.readBody, hroom, Option.bind_some] at hread
    split_ifs at hread with hn
    cases hread
    -- the count is not negative, so as a `size_t` it is what is left of the PDU
    have hle := sizeT_le (Int.sub_nonneg_of_le hhi)
    have hfits : p.solong + n ≤ p.sz := by omega
    have hstores : (Touch.stores p.solong n room).Inside := ⟨by omega,hfits.trans hsz⟩
    exact ⟨ok_filled (by omega) hfits hsz hmax,by simpa using ⟨hasks,hstores⟩⟩

theorem readSize_cases {p q : Rpdu} {a : CbRes} {ts : List Touch}
    (hread : p.readSize a = some (some (q, ts))) :
    a.hdr = .bytes 4 ∧ a.sz1.toInt ≤ maxPdu ∧
    ∃ room, malloc (sizeT (a.sz1.toInt + 4)) a.got = some room ∧
      q = ⟨some room, a.sz1.toInt, 4⟩ ∧ ts = [.stores 0 4 room] := by
  unfold Rpdu.readSize at hread
  split at hread
  · cases hread
  · split_ifs at hread
    cases hread
  · next n hhdr =>
    -- only a size of four bytes that is not too big leads to a block
    by_cases hpos : n = 0 ∨ 4 < n
    · rw [if_pos hpos] at hread
      cases hread
    by_cases hfour : n = 4
    · subst hfour
      simp only [ne_eq, not_true, if_false] at hread
      split_ifs at hread with _ hmax
      · cases hread
      · obtain ⟨room,hroom,heq⟩ := Option.map_eq_some_iff.mp hread
        cases heq
        exact ⟨hhdr,Int.not_lt.mp hmax,room,hroom,rfl,rfl⟩
    · rw [if_neg hpos, if_pos hfour] at hread
      cases hread

/-- The block has the size of the PDU and four bytes more. -/
theorem readSize_ok {p q : Rpdu} {a : CbRes} {ts : List Touch}
    (hsize : a.hdr = .bytes 4 → 4 ≤ a.sz1.toInt)
    (hread : p.readSize a = some (some (q, ts))) : q.Ok ∧ q.room.isSome = true ∧
    ∀ t ∈ ts, t.Inside := by
  obtain ⟨hhdr,hmax,room,hroom,rfl,rfl⟩ := readSize_cases hread
  have hlo := hsize hhdr
  have hhi := a.sz1.toInt_lt
  rw [malloc] at hroom
  split_ifs at hroom
  cases hroom
  have hblock : (sizeT (a.sz1.toInt + 4) : ℤ) = a.sz1.toInt + 4 := by
    rw [sizeT]
    omega
  have hstores : (Touch.stores 0 4 (sizeT (a.sz1.toInt + 4))).Inside := ⟨le_rfl,by omega⟩
  exact ⟨ok_filled le_rfl hlo (by omega) hmax,rfl,by simpa using hstores⟩

theorem readpdu_ok {p p' : Rpdu} {a : CbRes} {succ : Bool} {ts : List Touch} (h : p.Ok)
    (hsize : p.sz = 0 → a.hdr = .bytes 4 → 4 ≤ a.sz1.toInt)
    (hread : p.readpdu a = some (succ, p', ts)) :
    p'.Ok ∧ ∀ t ∈ ts, t.Inside := by
  unfold Rpdu.readpdu at hread
  split_ifs at hread with hsz
  · obtain ⟨r,hr,hrest⟩ := Option.bind_eq_some_iff.mp hread
    cases r with
    | none =>
      cases hrest
      exact ⟨h,nofun⟩
    | some q =>
      obtain ⟨hq,hroom,hts⟩ := readSize_ok (hsize hsz) hr
      obtain ⟨room,hroom⟩ := Option.isSome_iff_exists.mp hroom
      obtain ⟨⟨succ',p1,ts'⟩,hbody,heq⟩ := Option.map_eq_some_iff.mp hrest
      cases heq
      obtain ⟨hp,hts'⟩ := readBody_ok hq hroom hbody
      refine ⟨hp,fun t ht => ?_⟩
      rcases List.mem_append.mp ht with ht | ht
      · exact hts t ht
      · exact hts' t ht
  · -- without a buffer the size would be 0
    cases hroom : p.room with
    | none => exact absurd (congrArg Rpdu.sz (h.empty hroom)) hsz
    | some room => exact readBody_ok h hroom hread

theorem deliver_ok {p : Rpdu} (h : p.Ok) (accept : Bool) : (p.deliver accept).Ok := by
  unfold Rpdu.deliver
  split_ifs
  · exact ok_empty
  · exact h

theorem safe_init : Reader.init.Safe := ⟨fun _ ht => absurd ht List.not_mem_nil,ok_empty⟩

theorem readCb_safe {s s' : Reader} {a : CbRes} (h : s.Safe) (hsize : s.SizeOk a)
    (hs : s.readCb a = some s') :
    s'.Safe := by
  unfold Reader.readCb at hs
  split_ifs at hs with hdead hmore
  · cases hs
    exact h
  · obtain ⟨⟨succ,p,ts⟩,hread,heq⟩ := Option.map_eq_some_iff.mp hs
    cases heq
    obtain ⟨hp,hts⟩ := readpdu_ok h.rpdu hsize hread
    refine ⟨fun t ht => ?_,deliver_ok hp a.accept⟩
    rcases List.mem_append.mp ht with ht | ht
    · exact h.touches t ht
    · exact hts t ht
  · cases hs
    exact ⟨by simpa using h.touches,deliver_ok h.rpdu a.accept⟩

/-- Whatever the peer sends and however it arrives, `readpdu` stays inside its buffer as long
as no size is less than that of the size field. -/
theorem readpdu_inside_buffer (acts : List CbRes) (s : Reader)
    (hsize : RunAll Reader.readCb Reader.SizeOk Reader.init acts)
    (hrun : run Reader.readCb Reader.init acts = some s) : s.Safe :=
  run_invariant_of_all Reader.readCb Reader.SizeOk Reader.Safe (fun _ _ _ => readCb_safe) _ s acts
    safe_init hsize hrun

/-- A PDU of 24 bytes whose rest comes in two pieces. -/
def twoPieces : List CbRes :=
  [⟨.bytes 4, 24, true, .bytes 12, true⟩, ⟨.eof false, 0, true, .error true, true⟩,
    ⟨.eof false, 0, true, .bytes 8, true⟩]

theorem readpdu_inside_buffer_two_pieces : ∃ s, run Reader.readCb Reader.init twoPieces = some s ∧
    s.touches = [.stores 0 4 28, .asks 20, .stores 4 12 28, .asks 8, .asks 8, .stores 16 8 28] ∧
    s.Safe := by
  have hends : ∃ s, run Reader.readCb Reader.init twoPieces = some s ∧
      s.touches = [.stores 0 4 28, .asks 20, .stores 4 12 28, .asks 8, .asks 8,
        .stores 16 8 28] := by
    decide
  obtain ⟨s,hrun,htouches⟩ := hends
  exact ⟨s,hrun,htouches,readpdu_inside_buffer twoPieces s (by decide) hrun⟩

/-- After the size 0 `read` is asked for -4 bytes, and the size -1 does not fit into the
block of 3 bytes that is made for it. After -5 there is no block, whatever `malloc` does. -/
theorem readpdu_beyond_buffer :
    (∃ s, run Reader.readCb Reader.init [⟨.bytes 4, 0, true, .bytes 9, true⟩] = some s ∧
      s.touches = [.stores 0 4 4, .asks (-4), .stores 4 9 4] ∧ ¬ s.Safe) ∧
    (∃ s, run Reader.readCb Reader.init [⟨.bytes 4, 0xffffffff, true, .error false, true⟩] =
      some s ∧
      s.touches = [.stores 0 4 3, .asks (-5)] ∧ ¬ s.Safe) ∧
    ∀ got, run Reader.readCb Reader.init [⟨.bytes 4, 0xfffffffb, got, .error false, true⟩] =
    none := by
  have hzero : ∃ s, run Reader.readCb Reader.init [⟨.bytes 4, 0, true, .bytes 9, true⟩] = some s ∧
      s.touches = [.stores 0 4 4, .asks (-4), .stores 4 9 4] := by
    decide
  have hneg :
    ∃ s, run Reader.readCb Reader.init [⟨.bytes 4, 0xffffffff, true, .error false, true⟩] = some s ∧
      s.touches = [.stores 0 4 3, .asks (-5)] := by
    decide
  refine ⟨?_,?_,by decide⟩
  · obtain ⟨s,hrun,htouches⟩ := hzero
    refine ⟨s,hrun,htouches,fun h => ?_⟩
    have hasks : (0 : ℤ) ≤ -4 := h.touches (.asks (-4)) (by simp [htouches])
    exact absurd hasks (by decide)
  · obtain ⟨s,hrun,htouches⟩ := hneg
    refine ⟨s,hrun,htouches,fun h => ?_⟩
    have hstores : (Touch.stores 0 4 3).Inside := h.touches _ (by simp [htouches])
    exact absurd hstores.2 (by decide)

end Yfs.Conn
