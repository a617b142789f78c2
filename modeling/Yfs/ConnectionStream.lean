import Yfs.ConnectionSend
import Yfs.Framing

namespace Yfs.Conn

open Yfs.Wire

/-- The size that the first four bytes give. -/
def sizeField (bs : List Byte) : ℕ := (ntohl bs).toNat

theorem ntohl_uintBytes (x : UInt) : ntohl (uintBytes x) = x := by
  have h := getUInt_of_rest (Unmarshall.new (uintBytes x)) x [] (List.append_nil _).symm
  rw [ntohl, h.1]

theorem Stamped.framed {f : List Byte} (h : Stamped f) : Framed 4 sizeField f := by
  have hlen := h.length
  simp only [rpcHeaderSz, maxPdu] at hlen
  have h4 : (uintBytes (BitVec.ofNat 32 f.length)).length = 4 := rfl
  have htake : f.take 4 = uintBytes (BitVec.ofNat 32 f.length) := by
    calc f.take 4 = (stamp f.length f).take 4 := by rw [h.stamp_eq]
      _ = uintBytes (BitVec.ofNat 32 f.length) := List.take_left' h4
  refine ⟨by omega, ?_⟩
  rw [htake, sizeField, ntohl_uintBytes, BitVec.toNat_ofNat, Nat.mod_eq_of_lt (by omega)]

theorem stream_take {s s' : Stream} {k n : ℕ} {bs : List Byte} (h : s.take k n = some (bs, s')) :
    s'.written = s.written ∧ s'.read ≤ s.written.length ∧ 0 < n ∧ n ≤ k ∧ bs.length = n ∧
      s.written.take s'.read = s.written.take s.read ++ bs := by
  unfold Stream.take at h
  split_ifs at h with hn
  cases h
  refine ⟨rfl, hn.2.2, hn.1, hn.2.1, ?_, List.take_add⟩
  rw [List.length_take, List.length_drop]
  omega

/-- What `rpdu_` holds: nothing, or the bytes `x` of a PDU, with its size. -/
inductive Buffered : Charbuf → List Byte → Prop
  | nothing : Buffered .empty []
  | bytes (x : List Byte) (hlen : 4 ≤ x.length) (hsz : x.length ≤ sizeField (x.take 4)) :
      Buffered ⟨some x, sizeField (x.take 4), x.length⟩ x

/-- The bytes that have been read are the PDUs that have been accepted, and then those
in the buffer. -/
structure Cuts (s : Stream) (A O : List (List Byte)) (x : List Byte) : Prop where
  accepted : A <+: O
  stamped : ∀ f ∈ O, Stamped f
  start : s.written <+: O.flatten
  read_le : s.read ≤ s.written.length
  read : s.written.take s.read = A.flatten ++ x

theorem Cuts.flatten {s : Stream} {A O : List (List Byte)} {x : List Byte} (h : Cuts s A O x) :
    A.flatten ++ x <+: O.flatten := by
  rw [← h.read]
  exact (List.take_prefix _ _).trans h.start

theorem Cuts.take {s s' : Stream} {A O : List (List Byte)} {x bs : List Byte} {k n : ℕ}
    (h : Cuts s A O x) (ht : s.take k n = some (bs, s')) : Cuts s' A O (x ++ bs) := by
  obtain ⟨hw,hle,_,_,_,hread⟩ := stream_take ht
  refine ⟨h.accepted, h.stamped, hw ▸ h.start, hw ▸ hle, ?_⟩
  rw [hw, hread, h.read, List.append_assoc]

/-- A size field that has been read in the right place is that of a PDU. -/
theorem Cuts.sizeField {s : Stream} {A O : List (List Byte)} {x : List Byte} (h : Cuts s A O x)
    (hlen : 4 ≤ x.length) :
    rpcHeaderSz ≤ sizeField (x.take 4) ∧ sizeField (x.take 4) ≤ maxPdu := by
  obtain ⟨f,_,hmem,hsize,_⟩ := exists_next_frame (fun f hf => (h.stamped f hf).framed) h.accepted
    h.flatten (by omega) hlen
  rw [hsize]
  exact (h.stamped f hmem).length

theorem readBody_spec {s s' : Stream} {A O : List (List Byte)} {x : List Byte} {p' : Charbuf}
    {r : ReadRes} {succ : Bool} (h : Cuts s A O x) (hlen : 4 ≤ x.length)
    (hsz : x.length ≤ sizeField (x.take 4))
    (hread : s.readBody ⟨some x, sizeField (x.take 4), x.length⟩ r = some (succ, p', s')) :
    s'.written = s.written ∧ s'.read ≤ s.written.length ∧
      ((succ = true ∧ ∃ x', Buffered p' x' ∧ Cuts s' A O x') ∨ (succ = false ∧ p'.buf = none)) := by
  -- nothing comes: the buffer is kept for the next time, or thrown away
  have hstop (again : Bool) (hs : (if again = true then
        some (true, ⟨some x, sizeField (x.take 4), x.length⟩, s) else some (false, .empty, s)) =
        some (succ, p', s')) :
      s'.written = s.written ∧ s'.read ≤ s.written.length ∧
        ((succ = true ∧ ∃ x', Buffered p' x' ∧ Cuts s' A O x') ∨
          (succ = false ∧ p'.buf = none)) := by
    split_ifs at hs
    · cases hs
      exact ⟨rfl, h.read_le, .inl ⟨rfl, x, .bytes x hlen hsz, h⟩⟩
    · cases hs
      exact ⟨rfl, h.read_le, .inr ⟨rfl, rfl⟩⟩
  cases r with
  | eof again => exact hstop again hread
  | error again => exact hstop again hread
  | bytes n =>
    simp only [Stream.readBody, Option.bind_some] at hread
    obtain ⟨⟨bs,s''⟩,ht,hread⟩ := Option.map_eq_some_iff.mp hread
    simp only [Prod.mk.injEq] at hread
    obtain ⟨rfl,rfl,rfl⟩ := hread
    obtain ⟨hw,hle,_,hn,hbs,_⟩ := stream_take ht
    have htake : (x ++ bs).take 4 = x.take 4 := List.take_append_of_le_length hlen
    have hnew : ((x.length : ℕ) : ℤ) + n = (x ++ bs).length := by
      rw [List.length_append, hbs]
      rfl
    refine ⟨hw, hle, .inl ⟨rfl, x ++ bs, ?_, h.take ht⟩⟩
    rw [hnew, ← htake]
    rw [Int.toNat_natCast] at hn
    apply Buffered.bytes
    · rw [List.length_append]
      omega
    · rw [htake, List.length_append]
      omega

theorem readSize_spec {s s' : Stream} {A O : List (List Byte)} {q : Option Charbuf} {r : ReadRes}
    (h : Cuts s A O []) (hread : s.readSize r = some (q, s')) :
    s'.written = s.written ∧ s'.read ≤ s.written.length ∧
      (q = none ∨ ∃ x, x.length = 4 ∧ q = some ⟨some x, sizeField (x.take 4), x.length⟩ ∧
        Cuts s' A O x) := by
  cases r with
  | eof again =>
    simp only [Stream.readSize, Option.some.injEq, Prod.mk.injEq] at hread
    obtain ⟨rfl,rfl⟩ := hread
    exact ⟨rfl, h.read_le, .inl rfl⟩
  | error again =>
    simp only [Stream.readSize] at hread
    split_ifs at hread
    cases hread
    exact ⟨rfl, h.read_le, .inl rfl⟩
  | bytes n =>
    obtain ⟨⟨bs,s''⟩,ht,hread⟩ := Option.bind_eq_some_iff.mp hread
    obtain ⟨hw,hle,_,_,hbs,_⟩ := stream_take ht
    have hcuts : Cuts s'' A O bs := h.take ht
    simp only at hread
    split_ifs at hread with hn hbig hsmall
    · -- a size field that comes in pieces is an error to `readpdu`
      cases hread
      exact ⟨hw, hle, .inl rfl⟩
    · cases hread
      exact ⟨hw, hle, .inl rfl⟩
    · cases hread
      have h4 : bs.length = 4 := by omega
      refine ⟨hw, hle, .inr ⟨bs, h4, ?_, hcuts⟩⟩
      rw [List.take_of_length_le (Nat.le_of_eq h4), h4]
      rfl

theorem readpdu_spec {s s' : Stream} {A O : List (List Byte)} {x : List Byte} {p p' : Charbuf}
    {hdr body : ReadRes} {succ : Bool} (h : Cuts s A O x) (hbuf : Buffered p x)
    (hread : s.readpdu p hdr body = some (succ, p', s')) :
    s'.written = s.written ∧ s'.read ≤ s.written.length ∧
      ((succ = true ∧ ∃ x', Buffered p' x' ∧ Cuts s' A O x') ∨ (succ = false ∧ p'.buf = none)) := by
  cases hbuf with
  | nothing =>
    have hsz : Charbuf.empty.sz = 0 := rfl
    have hbuf : ¬ Charbuf.empty.buf.isSome = true := Bool.noConfusion
    rw [Stream.readpdu, if_pos hsz, if_neg hbuf] at hread
    obtain ⟨⟨q,s1⟩,hsize,hread⟩ := Option.bind_eq_some_iff.mp hread
    obtain ⟨hw,hle,rfl | ⟨y,hy,rfl,hcuts⟩⟩ := readSize_spec h hsize
    · cases hread
      exact ⟨hw, hle, .inr ⟨rfl, rfl⟩⟩
    · -- the size is that of a PDU of the sender, so there is room for the field itself
      have hfield := (hcuts.sizeField (Nat.le_of_eq hy.symm)).1
      simp only [rpcHeaderSz] at hfield
      obtain ⟨hw',hle',hres⟩ := readBody_spec hcuts (Nat.le_of_eq hy.symm) (by omega) hread
      exact ⟨hw'.trans hw, hw ▸ hle', hres⟩
  | bytes _ hlen hsz =>
    have hne : sizeField (x.take 4) ≠ 0 := by omega
    rw [Stream.readpdu, if_neg hne] at hread
    exact readBody_spec h hlen hsz hread

namespace Connection

variable {τ : Type}

structure RecvOk (c : Connection τ) (s : Stream) (O : List (List Byte)) : Prop where
  accepted : c.accepted <+: O
  read_le : s.read ≤ s.written.length
  live : c.dead = false → ∃ x, s.written.take s.read = c.accepted.flatten ++ x ∧ Buffered c.rpdu x

theorem RecvOk.deliver {c : Connection τ} {s : Stream} {O : List (List Byte)} {x : List Byte}
    (h : Cuts s c.accepted O x) (hbuf : Buffered c.rpdu x) (accept : Bool) :
    (c.deliver accept).RecvOk s O := by
  have hkeep : c.RecvOk s O := ⟨h.accepted, h.read_le, fun _ => ⟨x, h.read, hbuf⟩⟩
  cases hp : c.rpdu with
  | mk buf sz solong =>
    rw [hp] at hbuf
    cases hbuf with
    | nothing =>
      rw [Connection.deliver, hp]
      exact hkeep
    | bytes _ hlen hsz =>
      simp only [Connection.deliver, hp]
      split_ifs with hdone
      · -- the buffer is the next PDU of the sender
        have hcomplete : x.length = sizeField (x.take 4) := (Int.ofNat.inj hdone.1).symm
        have hnext := frame_complete (fun f hf => (h.stamped f hf).framed) h.accepted h.flatten
          (by omega) hlen hcomplete
        refine ⟨hnext, h.read_le, fun _ => ⟨[], ?_, .nothing⟩⟩
        rw [h.read, List.flatten_append, List.flatten_singleton, List.append_nil]
      · exact hkeep

/-- `got_pdu` gets PDUs in the order of the sender. -/
theorem RecvOk.readCb {c c' : Connection τ} {s s' : Stream} {O : List (List Byte)}
    {hdr body : ReadRes} {accept : Bool} (h : c.RecvOk s O) (hO : ∀ f ∈ O, Stamped f)
    (hstart : s.written <+: O.flatten) (hread : c.readCb s hdr body accept = some (c', s')) :
    s'.written = s.written ∧ c'.RecvOk s' O := by
  unfold Connection.readCb at hread
  by_cases hdead : c.dead = true
  · rw [if_pos hdead] at hread
    cases hread
    exact ⟨rfl, h⟩
  · rw [if_neg hdead] at hread
    obtain ⟨x,hx,hbuf⟩ := h.live (Bool.eq_false_iff.mpr hdead)
    have hcuts : Cuts s c.accepted O x := ⟨h.accepted, hO, hstart, h.read_le, hx⟩
    obtain ⟨⟨succ,p,s1⟩,hpdu,hread⟩ := Option.map_eq_some_iff.mp hread
    simp only [Prod.mk.injEq] at hread
    obtain ⟨rfl,rfl⟩ := hread
    obtain ⟨hw,hle,hres⟩ : s1.written = s.written ∧ s1.read ≤ s.written.length ∧
        ((succ = true ∧ ∃ x', Buffered p x' ∧ Cuts s1 c.accepted O x') ∨
          (succ = false ∧ p.buf = none)) := by
      split_ifs at hpdu
      · exact readpdu_spec hcuts hbuf hpdu
      · -- a PDU that was refused is still there
        cases hpdu
        exact ⟨rfl, h.read_le, .inl ⟨rfl, x, hbuf, hcuts⟩⟩
    refine ⟨hw, ?_⟩
    -- a failed read leaves no buffer, and nothing is asked of a dead connection
    rcases hres with ⟨rfl,x',hbuf',hcuts'⟩ | ⟨rfl,hnone⟩
    · exact RecvOk.deliver (c := { c with rpdu := p, dead := !true }) hcuts' hbuf' accept
    · have hkeep : ({ c with rpdu := p, dead := !false } : Connection τ).deliver accept =
          { c with rpdu := p, dead := !false } := by
        simp only [Connection.deliver, hnone]
      rw [hkeep]
      exact ⟨h.accepted, hw ▸ hle, fun hlive => Bool.noConfusion hlive⟩

/-- What the sending half leaves alone. -/
structure Sends (c c' : Connection τ) : Prop where
  rpdu : c'.rpdu = c.rpdu
  accepted : c'.accepted = c.accepted
  dead : c'.dead = false → c.dead = false
  pdus : c.pdus <+: c'.pdus

theorem sends_refl (c : Connection τ) : c.Sends c := ⟨rfl, rfl, id, List.prefix_refl _⟩

theorem RecvOk.sends {c c' : Connection τ} {s : Stream} {O : List (List Byte)} (h : c.RecvOk s O)
    (hc : c.Sends c') : c'.RecvOk s O :=
  ⟨hc.accepted ▸ h.accepted, h.read_le, fun hlive => by
    rw [hc.accepted, hc.rpdu]
    exact h.live (hc.dead hlive)⟩

theorem RecvOk.written {c : Connection τ} {s : Stream} {O O' : List (List Byte)} (h : c.RecvOk s O)
    (hO : O <+: O') (bs : List Byte) : c.RecvOk { s with written := s.written ++ bs } O' := by
  refine ⟨h.accepted.trans hO, ?_, ?_⟩
  · change s.read ≤ (s.written ++ bs).length
    rw [List.length_append]
    exact h.read_le.trans (Nat.le_add_right _ _)
  · intro hlive
    obtain ⟨x,hx,hbuf⟩ := h.live hlive
    refine ⟨x, ?_, hbuf⟩
    change (s.written ++ bs).take s.read = _
    rw [List.take_append_of_le_length h.read_le, hx]

theorem sends_writeCb {c c' : Connection τ} {r : WriteRes} {bs : List Byte}
    (hc : c.writeCb r = some (c', bs)) : c.Sends c' := by
  unfold Connection.writeCb at hc
  split_ifs at hc with hdead
  · cases hc
    exact sends_refl c
  · obtain ⟨_,_,hc⟩ := Option.map_eq_some_iff.mp hc
    cases hc
    exact ⟨rfl, rfl, fun _ => Bool.eq_false_iff.mpr hdead, List.prefix_refl _⟩

theorem reads_deliver (c : Connection τ) (accept : Bool) : c.Reads (c.deliver accept) := by
  unfold Connection.deliver
  split
  · exact ⟨rfl, rfl, rfl, rfl, id⟩
  · split_ifs <;> exact ⟨rfl, rfl, rfl, rfl, id⟩

theorem reads_readCb {c c' : Connection τ} {s s' : Stream} {hdr body : ReadRes} {accept : Bool}
    (hread : c.readCb s hdr body accept = some (c', s')) : c.Reads c' := by
  unfold Connection.readCb at hread
  by_cases hdead : c.dead = true
  · rw [if_pos hdead] at hread
    cases hread
    exact ⟨rfl, rfl, rfl, rfl, id⟩
  · rw [if_neg hdead] at hread
    obtain ⟨⟨succ,p,s1⟩,_,hread⟩ := Option.map_eq_some_iff.mp hread
    cases hread
    have hr := reads_deliver { c with rpdu := p, dead := !succ } accept
    exact ⟨hr.wpdu, hr.pc, hr.order, hr.rets, fun hd => absurd hd hdead⟩

variable [DecidableEq τ]

theorem sends_finish (c : Connection τ) (t : τ) : c.Sends (c.finish t) :=
  ⟨rfl, rfl, id, List.prefix_refl _⟩

theorem sends_attempt {c c' : Connection τ} {t : τ} {b : Pdu} {r : WriteRes} {bs : List Byte}
    (hc : c.attempt t b r = some (c', bs)) : c.Sends c' := by
  have hpdus : c.pdus <+: (c.order ++ [(t, stamp b.1.length b.1)]).map (·.2) := by
    rw [List.map_append]
    exact List.prefix_append _ _
  unfold Connection.attempt at hc
  split_ifs at hc with hdead hbusy
  · cases hc
    exact ⟨rfl, rfl, id, List.prefix_refl _⟩
  · cases hc
    exact ⟨rfl, rfl, id, List.prefix_refl _⟩
  · obtain ⟨⟨ok,p,bs'⟩,_,hc⟩ := Option.map_eq_some_iff.mp hc
    simp only at hc
    split_ifs at hc <;> cases hc
    · exact ⟨rfl, rfl, fun hlive => Bool.noConfusion hlive, hpdus⟩
    · exact ⟨rfl, rfl, id, hpdus⟩
    · exact ⟨rfl, rfl, id, hpdus⟩

theorem sends_act {c c' : Connection τ} {a : Act τ} {bs : List Byte}
    (hc : c.act a = some (c', bs)) :
    c.Sends c' := by
  cases actStep_of_act hc with
  | attempt t b r _ _ hc => exact sends_attempt hc
  | writeCb r _ _ hc => exact sends_writeCb hc
  | completeWake t ht =>
    unfold Connection.completeWake
    split_ifs
    · exact sends_refl c
    · exact sends_finish c t
  | removed t ht => exact sends_finish c t
  | closeconn => exact ⟨rfl, rfl, fun hlive => Bool.noConfusion hlive, List.prefix_refl _⟩

end Connection

section Link

variable {τ : Type}

/-- Both directions are in order. -/
structure Link.Ok (s : Link τ) : Prop where
  send : ∀ e, (s.conn e).SendOk (s.stream e).written
  recv : ∀ e, (s.conn !e).RecvOk (s.stream e) (s.conn e).pdus

theorem link_init_ok : (Link.init : Link τ).Ok := by
  constructor
  · intro e
    refine ⟨fun _ => List.not_mem_nil.elim, List.prefix_refl _, .inl ?_, ?_, ?_⟩
    · exact ⟨rfl, fun _ => id, rfl, fun _ => rfl⟩
    · intro t ht
      cases ht
    · intro i t hret
      cases hret
  · intro e
    exact ⟨List.prefix_refl _, Nat.zero_le _, fun _ => ⟨[], rfl, .nothing⟩⟩

theorem Link.Ok.read {s : Link τ} (h : s.Ok) (e : Bool) {hdr body : ReadRes} {accept : Bool}
    {c : Connection τ} {w : Stream}
    (hread : (s.conn e).readCb (s.stream !e) hdr body accept = some (c, w)) :
    ((s.setConn e c).setStream (!e) w).Ok := by
  have hr := Connection.reads_readCb hread
  have hrecv : (s.conn e).RecvOk (s.stream !e) (s.conn !e).pdus := by
    have hback := h.recv !e
    rwa [Bool.not_not] at hback
  obtain ⟨hwritten,hnew⟩ := hrecv.readCb (h.send !e).stamped (h.send !e).start hread
  constructor
  · intro e'
    rcases Bool.eq_or_eq_not e' e with rfl | rfl
    · have hsend := (h.send e').reads hr
      simpa [Link.setConn, Link.setStream] using hsend
    · have hsend := h.send !e
      rw [← hwritten] at hsend
      simpa [Link.setConn, Link.setStream] using hsend
  · intro e'
    rcases Bool.eq_or_eq_not e' e with rfl | rfl
    · have hsame := h.recv e'
      rw [← hr.pdus] at hsame
      simpa [Link.setConn, Link.setStream] using hsame
    · simpa [Link.setConn, Link.setStream] using hnew

variable [DecidableEq τ]

theorem Link.Ok.act {s : Link τ} (h : s.Ok) (e : Bool) {a : Act τ} {c : Connection τ}
    {bs : List Byte} (hc : (s.conn e).act a = some (c, bs)) :
    ((s.setConn e c).setStream e { s.stream e with written := (s.stream e).written ++ bs }).Ok := by
  have hs := Connection.sends_act hc
  constructor
  · intro e'
    rcases Bool.eq_or_eq_not e' e with rfl | rfl
    · have hsend := (h.send e').act hc
      simpa [Link.setConn, Link.setStream] using hsend
    · have hsend := h.send !e
      simpa [Link.setConn, Link.setStream] using hsend
  · intro e'
    rcases Bool.eq_or_eq_not e' e with rfl | rfl
    · have hrecv := (h.recv e').written hs.pdus bs
      simpa [Link.setConn, Link.setStream] using hrecv
    · have hrecv := h.recv !e
      rw [Bool.not_not] at hrecv
      simpa [Link.setConn, Link.setStream] using hrecv.sends hs

theorem Link.Ok.step {s s' : Link τ} {x : Bool × Act τ} (h : s.Ok) (hstep : s.step x = some s') :
    s'.Ok := by
  obtain ⟨e,a⟩ := x
  cases a with
  | readCb hdr body accept =>
    obtain ⟨⟨c,w⟩,hread,rfl⟩ := Option.map_eq_some_iff.mp hstep
    exact h.read e hread
  | _ =>
    simp only [Link.step] at hstep
    obtain ⟨⟨c,bs⟩,hact,rfl⟩ := Option.map_eq_some_iff.mp hstep
    exact h.act e hact

/-- In every run of the two ends, whatever the threads, the reads and writes and the
failures do: `got_pdu` has accepted an initial segment of the PDUs in the order in
which they got the channel, and a `send` that returned true has written all of its PDU.
The returns come in the order of the PDUs they are for. -/
theorem pdu_stream_framing (acts : List (Bool × Act τ)) (s : Link τ)
    (hrun : run Link.step (Link.init : Link τ) acts = some s) (e : Bool) :
    (s.conn !e).accepted <+: (s.conn e).pdus ∧
      (s.conn e).rets.map (·.1) <+: (s.conn e).order.map (·.1) ∧
      ∀ i t, (s.conn e).rets[i]? = some (t, true) →
        ((s.conn e).pdus.take (i + 1)).flatten <+: (s.stream e).written := by
  have hok : s.Ok :=
    run_invariant Link.step Link.Ok (fun s x s' h hstep => h.step hstep) Link.init s
    acts link_init_ok hrun
  refine ⟨(hok.recv e).accepted, ?_, (hok.send e).returned⟩
  rcases (hok.send e).channel with hfree | ⟨t,pre,f,hheld⟩
  · exact hfree.rets ▸ List.prefix_refl _
  · rw [hheld.rets, hheld.order, List.map_append]
    exact List.prefix_append _ _

/-- Two threads of one end send a PDU each. The first is written in two pieces while
the second waits; the other end refuses the first PDU once. -/
def twoSenders : List (Bool × Act Bool) :=
  let pdu (x : Byte) : Pdu := ⟨List.replicate 24 x, by simp [rpcHeaderSz, maxPdu]⟩
  [(false, .send false (pdu 7) (.wrote 10)), (false, .send true (pdu 8) .again),
   (true, .readCb (.bytes 4) (.bytes 6) true), (false, .writeCb (.wrote 14)),
   (false, .completeWake false), (false, .sendWake true (.wrote 24)),
   (true, .readCb (.eof false) (.bytes 14) false), (true, .readCb (.eof false) (.eof false) true),
   (true, .readCb (.bytes 4) (.bytes 20) true), (true, .closeconn)]

theorem pdu_stream_framing_two_senders :
    ∃ s, run Link.step (Link.init : Link Bool) twoSenders = some s ∧
      (s.conn true).accepted.length = 2 ∧ (s.conn false).rets = [(false, true), (true, true)] ∧
      (s.conn true).accepted <+: (s.conn false).pdus := by
  have hrun : ∃ s, run Link.step (Link.init : Link Bool) twoSenders = some s ∧
      (s.conn true).accepted.length = 2 ∧ (s.conn false).rets = [(false, true), (true, true)] := by
    decide
  obtain ⟨s,hs,haccepted,hrets⟩ := hrun
  exact ⟨s, hs, haccepted, hrets, (pdu_stream_framing twoSenders s hs false).1⟩

end Link

/-- The PDU that a connection passes on when these bytes come in, all of them there to be
read. -/
def received (bs : List Byte) : Option (List Byte) :=
  match (⟨bs, 0⟩ : Stream).readpdu .empty (.bytes 4) (.bytes (bs.length - 4)) with
  | some (true, ⟨some b, sz, solong⟩, _) => if (sz : ℤ) = solong then some b else none
  | _ => none

theorem take_four (bs : List Byte) (hlen : 4 ≤ bs.length) :
    (⟨bs, 0⟩ : Stream).take 4 4 = some (bs.take 4, ⟨bs, 4⟩) := by
  rw [Stream.take, if_pos ⟨by decide,le_rfl,by omega⟩]
  rfl

theorem readpdu_empty (w : Stream) (hdr body : ReadRes) :
    w.readpdu .empty hdr body = (w.readSize hdr).bind fun (q, w) =>
      match q with
      | none => some (false, .empty, w)
      | some q => w.readBody q body := rfl

theorem received_eq {bs b : List Byte} (h : received bs = some b) : b = bs := by
  unfold received at h
  split at h
  · next sz solong w hread =>
    split_ifs at h
    cases h
    rw [readpdu_empty] at hread
    -- both reads have gone through: the size, and all that is behind it
    obtain ⟨⟨q,w'⟩,hsize,hbody⟩ := Option.bind_eq_some_iff.mp hread
    obtain ⟨⟨x,w1⟩,htake,hq⟩ := Option.bind_eq_some_iff.mp hsize
    unfold Stream.take at htake
    split_ifs at htake
    cases htake
    simp only at hq
    split_ifs at hq <;> cases hq
    · cases hbody
    · cases hbody
    · simp only [Stream.readBody, Option.bind_some] at hbody
      obtain ⟨⟨y,w2⟩,htake,hy⟩ := Option.map_eq_some_iff.mp hbody
      unfold Stream.take at htake
      split_ifs at htake
      cases htake
      cases hy
      have hrest : (bs.drop 4).take (bs.length - 4) = bs.drop 4 :=
        List.take_of_length_le (by rw [List.length_drop])
      exact (congrArg (bs.take 4 ++ ·) hrest).trans (List.take_append_drop 4 bs)
  · cases h

/-- A PDU with its size in front is passed on unless it is too big. -/
theorem received_writepdu {pdu : List Byte} (hlo : 4 < pdu.length) (hhi : pdu.length < 2^31) :
    received (writepdu pdu) = if pdu.length ≤ maxPdu then some (writepdu pdu) else none := by
  have hsize : (writepdu pdu).length = pdu.length := stamp_length _ _ hlo.le
  have hntohl : ntohl ((writepdu pdu).take 4) = BitVec.ofNat 32 pdu.length := ntohl_uintBytes _
  have hnat : (BitVec.ofNat 32 pdu.length).toNat = pdu.length := by
    rw [BitVec.toNat_ofNat, Nat.mod_eq_of_lt (by omega)]
  have hint : (BitVec.ofNat 32 pdu.length).toInt = pdu.length := by
    rw [BitVec.toInt_eq_toNat_of_lt (by omega), hnat]
  have hread := take_four (writepdu pdu) (by omega)
  by_cases hmax : pdu.length ≤ maxPdu
  · have hfirst : (⟨writepdu pdu, 0⟩ : Stream).readSize (.bytes 4) =
        some (some ⟨some ((writepdu pdu).take 4), pdu.length, 4⟩, ⟨writepdu pdu, 4⟩) := by
      rw [Stream.readSize, hread, Option.bind_some]
      simp only [hntohl, hint, hnat]
      rw [if_neg (not_not.mpr rfl), if_neg (by omega), if_neg (by omega)]
    have hrest : (⟨writepdu pdu, 4⟩ : Stream).take (pdu.length - (4 : ℤ).toNat) (pdu.length - 4) =
        some ((writepdu pdu).drop 4, ⟨writepdu pdu, 4 + (pdu.length - 4)⟩) := by
      rw [Stream.take, if_pos ⟨by omega,le_rfl,by simp only [hsize]; omega⟩]
      rw [List.take_of_length_le (by rw [List.length_drop, hsize])]
    have hpdu : (⟨writepdu pdu, 0⟩ : Stream).readpdu .empty (.bytes 4) (.bytes (pdu.length - 4)) =
        some (true, ⟨some (writepdu pdu), pdu.length, 4 + (pdu.length - 4 : ℕ)⟩,
          ⟨writepdu pdu, 4 + (pdu.length - 4)⟩) := by
      rw [readpdu_empty, hfirst, Option.bind_some]
      simp only [Stream.readBody, Option.bind_some, hrest, Option.map_some, List.take_append_drop]
    rw [received, hsize, hpdu, if_pos hmax]
    exact if_pos (by omega)
  · have hfirst : (⟨writepdu pdu, 0⟩ : Stream).readSize (.bytes 4) =
        some (none, ⟨writepdu pdu, 4⟩) := by
      rw [Stream.readSize, hread, Option.bind_some]
      simp only [hntohl, hint]
      rw [if_neg (not_not.mpr rfl), if_pos (by omega)]
    rw [received, readpdu_empty, hfirst, Option.bind_some, if_neg hmax]

end Yfs.Conn
