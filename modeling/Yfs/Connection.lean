import Yfs.RpcCall
import Yfs.Codec
import Yfs.Run

/-! The two ends of a TCP connection, each a `connection` object. Everything an object
does, it does with `m_` held; between two such sections any other thread of either end
may run. What `write`, `read` and `got_pdu` return is not the program's choice. -/
namespace Yfs.Conn

open Yfs.Wire

/-- What `send` is given: a buffer that has room for a header, of a size that the
other end takes. -/
def Pdu : Type := { b : List Byte // rpcHeaderSz ≤ b.length ∧ b.length ≤ maxPdu }

structure Charbuf where
  buf : Option (List Byte)
  sz : ℕ
  solong : ℤ
  deriving DecidableEq

def Charbuf.empty : Charbuf := ⟨none, 0, 0⟩

/-- Where a thread is in `send`: not in it, waiting for the channel, waiting for the
rest of its PDU to be written, or in `block_remove_fd` with `m_` released. -/
inductive SendPc
  | idle
  | waiting (b : Pdu)
  | completing
  | removing

/-- The object, with a history: who obtained the channel with what (as it is stamped),
what those calls returned, and the PDUs that `got_pdu` has accepted. -/
structure Connection (τ : Type) where
  dead : Bool
  wpdu : Charbuf
  rpdu : Charbuf
  pc : τ → SendPc
  order : List (τ × List Byte)
  rets : List (τ × Bool)
  accepted : List (List Byte)

/-- One direction of the connection. -/
structure Stream where
  written : List Byte
  read : ℕ
  deriving DecidableEq

inductive WriteRes
  | wrote (n : ℕ)
  | again
  | error
  deriving DecidableEq

/-- `again` says whether `errno` is `EAGAIN`, which it can be from an earlier call when
the end of the stream is read. -/
inductive ReadRes
  | bytes (n : ℕ)
  | eof (again : Bool)
  | error (again : Bool)
  deriving DecidableEq

/-- `writepdu`: its result, `wpdu_` after it, and the bytes that `write` has taken. -/
def Charbuf.writepdu (p : Charbuf) (r : WriteRes) : Option (Bool × Charbuf × List Byte) :=
  if p.solong < 0 then none
  else if p.solong = p.sz then some (true, p, [])
  else p.buf.bind fun b =>
    let b := if p.solong = 0 then stamp p.sz b else b
    match r with
    | .error => some (false, ⟨some b, 0, -1⟩, [])
    | .again => some (true, ⟨some b, p.sz, p.solong⟩, [])
    | .wrote n =>
      if p.solong + n ≤ p.sz then
        some (true, ⟨some b, p.sz, p.solong + n⟩, (b.drop p.solong.toNat).take n)
      else none

namespace Connection

variable {τ : Type} [DecidableEq τ]

def setPc (c : Connection τ) (t : τ) (pc : SendPc) : Connection τ :=
  { c with pc := Function.update c.pc t pc }

/-- The end of `send`: the channel is given up. -/
def finish (c : Connection τ) (t : τ) : Connection τ :=
  { c.setPc t .idle with
    rets := c.rets ++ [(t, !c.dead && c.wpdu.solong == c.wpdu.sz)], wpdu := .empty }

/-- `send` has the channel, and writes what it can. -/
def obtain (c : Connection τ) (t : τ) (b : Pdu) (r : WriteRes) :
    Option (Connection τ × List Byte) :=
  (Charbuf.writepdu ⟨some b.1, b.1.length, 0⟩ r).map fun (ok, p, bs) =>
    let c := { c with wpdu := p, order := c.order ++ [(t, stamp b.1.length b.1)] }
    if ok = false then (({ c with dead := true } : Connection τ).setPc t .removing, bs)
    else if p.solong = p.sz then (c.finish t, bs)
    else (c.setPc t .completing, bs)

/-- The loop at the start of `send`, after it has been entered or woken up. A call
that finds the connection dead returns false. -/
def attempt (c : Connection τ) (t : τ) (b : Pdu) (r : WriteRes) :
    Option (Connection τ × List Byte) :=
  if c.dead = true then some (c.setPc t .idle, [])
  else if c.wpdu.buf.isSome = true then some (c.setPc t (.waiting b), [])
  else c.obtain t b r

/-- A write callback on a dead connection fails a `VERIFY`. -/
def writeCb (c : Connection τ) (r : WriteRes) : Option (Connection τ × List Byte) :=
  if c.dead = true then none
  else if c.wpdu.sz = 0 then some (c, [])
  else (c.wpdu.writepdu r).map fun (ok, p, bs) => ({ c with wpdu := p, dead := !ok }, bs)

/-- The loop on `send_complete_`. -/
def completeWake (c : Connection τ) (t : τ) : Connection τ :=
  if c.dead = false ∧ 0 ≤ c.wpdu.solong ∧ c.wpdu.solong < c.wpdu.sz then c else c.finish t

end Connection

/-- `read` of at most `k` bytes that returns `n`. -/
def Stream.take (w : Stream) (k n : ℕ) : Option (List Byte × Stream) :=
  if 0 < n ∧ n ≤ k ∧ w.read + n ≤ w.written.length then
    some ((w.written.drop w.read).take n, { w with read := w.read + n })
  else none

def ntohl (bs : List Byte) : UInt := (Unmarshall.new bs).getUInt.1

/-- The first half of `readpdu`: the new `rpdu_`, or none where it returns false. A size
that leaves no room for itself makes the second half read out of bounds. -/
def Stream.readSize (w : Stream) : ReadRes → Option (Option Charbuf × Stream)
  | .eof _ => some (none, w)
  | .error again => if again = true then none else some (none, w)
  | .bytes n => (w.take 4 n).bind fun (bs, w) =>
    if n ≠ 4 then some (none, w)
    else if (ntohl bs).toInt > maxPdu then some (none, w)
    else if (ntohl bs).toInt < 4 then none
    else some (some ⟨some bs, (ntohl bs).toNat, 4⟩, w)

def Stream.readBody (w : Stream) (p : Charbuf) : ReadRes → Option (Bool × Charbuf × Stream)
  | .eof again | .error again =>
    if again = true then some (true, p, w) else some (false, .empty, w)
  | .bytes n => p.buf.bind fun b => (w.take (p.sz - p.solong.toNat) n).map fun (bs, w) =>
    (true, ⟨some (b ++ bs), p.sz, p.solong + n⟩, w)

def Stream.readpdu (w : Stream) (p : Charbuf) (hdr body : ReadRes) :
    Option (Bool × Charbuf × Stream) :=
  if p.sz = 0 then
    if p.buf.isSome = true then none
    else (w.readSize hdr).bind fun (q, w) =>
      match q with
      | none => some (false, p, w)
      | some q => w.readBody q body
  else w.readBody p body

namespace Connection

variable {τ : Type}

/-- The end of `read_cb`: a complete PDU is passed to `got_pdu`, and stays where it is if
this returns false. -/
def deliver (c : Connection τ) (accept : Bool) : Connection τ :=
  match c.rpdu.buf with
  | none => c
  | some b =>
    if (c.rpdu.sz : ℤ) = c.rpdu.solong ∧ accept = true then
      { c with rpdu := .empty, accepted := c.accepted ++ [b] }
    else c

def readCb (c : Connection τ) (w : Stream) (hdr body : ReadRes) (accept : Bool) :
    Option (Connection τ × Stream) :=
  if c.dead = true then some (c, w)
  else
    (if c.rpdu.buf = none ∨ c.rpdu.solong < c.rpdu.sz then w.readpdu c.rpdu hdr body
     else some (true, c.rpdu, w)).map fun (succ, p, w) =>
      (({ c with rpdu := p, dead := !succ } : Connection τ).deliver accept, w)

end Connection

/-- `stream e` goes from the end `e` to the other one. -/
structure Link (τ : Type) where
  conn : Bool → Connection τ
  stream : Bool → Stream

inductive Act (τ : Type)
  | send (t : τ) (b : Pdu) (r : WriteRes)
  | sendWake (t : τ) (r : WriteRes)
  | writeCb (r : WriteRes)
  | completeWake (t : τ)
  | removed (t : τ)
  | closeconn
  | readCb (hdr body : ReadRes) (accept : Bool)

section Link

variable {τ : Type} [DecidableEq τ]

def Link.init : Link τ :=
  ⟨fun _ => ⟨false, .empty, .empty, fun _ => .idle, [], [], []⟩, fun _ => ⟨[], 0⟩⟩

/-- What one end does with its own object, and the bytes it writes. -/
def Connection.act (c : Connection τ) : Act τ → Option (Connection τ × List Byte)
  | .send t b r =>
    match c.pc t with
    | .idle => c.attempt t b r
    | _ => none
  | .sendWake t r =>
    match c.pc t with
    | .waiting b => c.attempt t b r
    | _ => none
  | .writeCb r => c.writeCb r
  | .completeWake t =>
    match c.pc t with
    | .completing => some (c.completeWake t, [])
    | _ => none
  | .removed t =>
    match c.pc t with
    | .removing => some (c.finish t, [])
    | _ => none
  | .closeconn => some ({ c with dead := true }, [])
  | .readCb .. => none

def Link.setConn (s : Link τ) (e : Bool) (c : Connection τ) : Link τ :=
  { s with conn := Function.update s.conn e c }

def Link.setStream (s : Link τ) (e : Bool) (w : Stream) : Link τ :=
  { s with stream := Function.update s.stream e w }

def Link.step (s : Link τ) : Bool × Act τ → Option (Link τ)
  | (e, .readCb hdr body accept) =>
    ((s.conn e).readCb (s.stream !e) hdr body accept).map fun (c, w) =>
      (s.setConn e c).setStream (!e) w
  | (e, a) => ((s.conn e).act a).map fun (c, bs) =>
      (s.setConn e c).setStream e { s.stream e with written := (s.stream e).written ++ bs }

end Link

end Yfs.Conn
