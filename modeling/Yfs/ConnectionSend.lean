import Yfs.Connection

namespace Yfs.Conn

open Yfs.Wire

theorem stamp_length (sz : ℕ) (b : List Byte) (h : 4 ≤ b.length) :
    (stamp sz b).length = b.length := by
  have h4 : (uintBytes (BitVec.ofNat 32 sz)).length = 4 := rfl
  rw [stamp, List.length_append, List.length_drop, h4]
  omega

theorem stamp_stamp (sz sz' : ℕ) (b : List Byte) : stamp sz (stamp sz' b) = stamp sz b := by
  have h4 : (uintBytes (BitVec.ofNat 32 sz')).length = 4 := rfl
  rw [stamp, stamp, List.drop_left' h4, ← stamp]

/-- A PDU as it goes over the wire. -/
def Stamped (f : List Byte) : Prop := ∃ b : Pdu, f = stamp b.1.length b.1

theorem Pdu.four_le (b : Pdu) : 4 ≤ b.1.length := by
  have h := b.2.1
  simp only [rpcHeaderSz] at h
  omega

theorem Stamped.length {f : List Byte} (h : Stamped f) : rpcHeaderSz ≤ f.length ∧
    f.length ≤ maxPdu := by
  obtain ⟨b,rfl⟩ := h
  rw [stamp_length _ _ b.four_le]
  exact b.2

theorem Stamped.stamp_eq {f : List Byte} (h : Stamped f) : stamp f.length f = f := by
  obtain ⟨b,rfl⟩ := h
  rw [stamp_length _ _ b.four_le, stamp_stamp]

/-- One `writepdu` on a stamped PDU: it fails, or gets on. -/
theorem writepdu_spec {f : List Byte} (hf : stamp f.length f = f) {k : ℕ} (hk : k ≤ f.length)
    {r : WriteRes} {ok : Bool} {p : Charbuf} {bs : List Byte}
    (h : Charbuf.writepdu ⟨some f, f.length, k⟩ r = some (ok, p, bs)) :
    (ok = false ∧ p = ⟨some f, 0, -1⟩ ∧ bs = []) ∨
      (ok = true ∧ ∃ k' ≤ f.length, p = ⟨some f, f.length, k'⟩ ∧ f.take k' = f.take k ++ bs) := by
  have hstamp : (if ((k : ℕ) : ℤ) = 0 then stamp f.length f else f) = f := by
    rw [hf, ite_self]
  rw [Charbuf.writepdu, if_neg (by simp)] at h
  by_cases hdone : ((k : ℕ) : ℤ) = f.length
  · rw [if_pos hdone] at h
    cases h
    exact .inr ⟨rfl, k, hk, rfl, (List.append_nil _).symm⟩
  · rw [if_neg hdone] at h
    simp only [Option.bind_some, hstamp] at h
    cases r with
    | error =>
      simp only [Option.some.injEq, Prod.mk.injEq] at h
      exact .inl ⟨h.1.symm, h.2.1.symm, h.2.2.symm⟩
    | again =>
      cases h
      exact .inr ⟨rfl, k, hk, rfl, (List.append_nil _).symm⟩
    | wrote n =>
      by_cases hn : (k : ℤ) + n ≤ f.length
      · simp only [if_pos hn, Option.some.injEq, Prod.mk.injEq] at h
        obtain ⟨rfl,rfl,rfl⟩ := h
        refine .inr ⟨rfl, k + n, by omega, by simp, ?_⟩
        rw [Int.toNat_natCast, List.take_add]
      · simp only [if_neg hn] at h
        cases h

theorem writepdu_stamps (b : Pdu) (r : WriteRes) :
    Charbuf.writepdu ⟨some b.1, b.1.length, 0⟩ r =
      Charbuf.writepdu ⟨some (stamp b.1.length b.1), (stamp b.1.length b.1).length, (0 : ℕ)⟩ r := by
  have hne : ¬ (0 : ℤ) = b.1.length := by
    have := b.four_le
    omega
  simp [Charbuf.writepdu, stamp_length _ _ b.four_le, stamp_stamp, hne]

def SendPc.Owns : SendPc → Prop
  | .completing | .removing => True
  | _ => False

variable {τ : Type}

namespace Connection

/-- The PDUs in the order in which they got the channel. -/
def pdus (c : Connection τ) : List (List Byte) := c.order.map (·.2)

/-- Nobody has the channel. Unless the connection has failed, everything is written. -/
structure Free (c : Connection τ) (written : List Byte) : Prop where
  wpdu : c.wpdu = .empty
  owner : ∀ t, ¬ (c.pc t).Owns
  rets : c.rets.map (·.1) = c.order.map (·.1)
  all : c.dead = false → written = c.pdus.flatten

/-- The thread `t` has the channel, to send `f`. Either its `write` has failed, or `f` is
written up to `solong`. -/
structure Held (c : Connection τ) (written : List Byte) (t : τ) (pre : List (τ × List Byte))
    (f : List Byte) : Prop where
  order : c.order = pre ++ [(t, f)]
  owner : ∀ t', (c.pc t').Owns → t' = t
  rets : c.rets.map (·.1) = pre.map (·.1)
  progress : (c.dead = true ∧ c.wpdu = ⟨some f, 0, -1⟩) ∨
    ∃ k ≤ f.length, c.wpdu = ⟨some f, f.length, k⟩ ∧
      written = (pre.map (·.2)).flatten ++ f.take k

structure SendOk (c : Connection τ) (written : List Byte) : Prop where
  stamped : ∀ f ∈ c.pdus, Stamped f
  start : written <+: c.pdus.flatten
  channel : c.Free written ∨ ∃ t pre f, c.Held written t pre f
  removing : ∀ t, c.pc t = .removing → c.dead = true
  returned : ∀ i t, c.rets[i]? = some (t, true) → (c.pdus.take (i + 1)).flatten <+: written

variable {c : Connection τ} {w : List Byte} {t : τ} {pre : List (τ × List Byte)} {f : List Byte}

theorem Held.pdus_eq (h : c.Held w t pre f) : c.pdus = pre.map (·.2) ++ [f] := by
  rw [pdus, h.order, List.map_append]
  rfl

theorem Held.rets_length (h : c.Held w t pre f) : c.rets.length = pre.length := by
  have hlen := congrArg List.length h.rets
  rwa [List.length_map, List.length_map] at hlen

theorem Held.buf_isSome (h : c.Held w t pre f) : c.wpdu.buf.isSome = true := by
  rcases h.progress with ⟨_,hp⟩ | ⟨k,_,hp,_⟩ <;> rw [hp] <;> rfl

/-- What the other half of the object, or `closeconn`, can do to the sending half. -/
structure Reads (c c' : Connection τ) : Prop where
  wpdu : c'.wpdu = c.wpdu
  pc : c'.pc = c.pc
  order : c'.order = c.order
  rets : c'.rets = c.rets
  dead : c.dead = true → c'.dead = true

theorem Reads.pdus {c' : Connection τ} (hr : c.Reads c') : c'.pdus = c.pdus := by
  rw [Connection.pdus, hr.order, ← Connection.pdus]

/-- The connection may be closed, or its other half may fail, at any time. -/
theorem SendOk.reads {c' : Connection τ} (h : c.SendOk w) (hr : c.Reads c') : c'.SendOk w := by
  have hlive : c'.dead = false → c.dead = false := by
    intro hl
    by_contra hd
    rw [hr.dead (Bool.eq_true_of_not_eq_false hd)] at hl
    cases hl
  refine ⟨hr.pdus ▸ h.stamped, hr.pdus ▸ h.start, ?_,
    fun t ht => hr.dead (h.removing t (hr.pc ▸ ht)), fun i t hret => hr.pdus ▸ h.returned i t
      (hr.rets ▸ hret)⟩
  rcases h.channel with hfree | ⟨t,pre,f,hheld⟩
  · refine .inl ⟨hr.wpdu.trans hfree.wpdu, hr.pc ▸ hfree.owner, ?_, fun hl => ?_⟩
    · rw [hr.rets, hr.order, hfree.rets]
    · rw [hr.pdus]
      exact hfree.all (hlive hl)
  · refine .inr ⟨t, pre, f, hr.order.trans hheld.order, hr.pc ▸ hheld.owner, ?_, ?_⟩
    · rw [hr.rets, hheld.rets]
    · rw [hr.wpdu]
      exact hheld.progress.imp (fun hp => ⟨hr.dead hp.1, hp.2⟩) id

theorem SendOk.write (h : c.SendOk w) (hheld : c.Held w t pre f) (hlive : c.dead = false)
    {r : WriteRes} {ok : Bool} {p : Charbuf} {bs : List Byte}
    (hw : c.wpdu.writepdu r = some (ok, p, bs)) :
    ({ c with wpdu := p, dead := !ok } : Connection τ).SendOk (w ++ bs) ∧
      ({ c with wpdu := p, dead := !ok } : Connection τ).Held (w ++ bs) t pre f := by
  have hpdus := hheld.pdus_eq
  have hf : Stamped f :=
    h.stamped f (by rw [hpdus]; exact List.mem_append_right _ List.mem_cons_self)
  obtain ⟨k,hk,hp,hwritten⟩ : ∃ k ≤ f.length, c.wpdu = ⟨some f, f.length, k⟩ ∧
      w = (pre.map (·.2)).flatten ++ f.take k := by
    rcases hheld.progress with ⟨hdead,_⟩ | hp
    · rw [hlive] at hdead
      cases hdead
    · exact hp
  rw [hp] at hw
  have hreturned : ∀ i t, c.rets[i]? = some (t, true) →
      (c.pdus.take (i + 1)).flatten <+: w ++ bs := by
    intro i t hret
    exact (h.returned i t hret).trans (List.prefix_append w bs)
  have hremoving (u : τ) (hu : c.pc u = .removing) : (!ok) = true := by
    have hdead := h.removing u hu
    rw [hlive] at hdead
    cases hdead
  rcases writepdu_spec hf.stamp_eq hk hw with ⟨rfl,rfl,rfl⟩ | ⟨rfl,k',hk',rfl,htake⟩
  · -- nothing was written, and the connection is dead
    have hnew : ({ c with wpdu := ⟨some f, 0, -1⟩, dead := true } : Connection τ).Held
        (w ++ []) t pre f :=
      ⟨hheld.order, hheld.owner, hheld.rets, .inl ⟨rfl, rfl⟩⟩
    refine ⟨⟨h.stamped, ?_, .inr ⟨t, pre, f, hnew⟩, hremoving, hreturned⟩, hnew⟩
    rw [List.append_nil]
    exact h.start
  · have hnow : w ++ bs = (pre.map (·.2)).flatten ++ f.take k' := by
      rw [hwritten, htake, List.append_assoc]
    have hnew : ({ c with wpdu := ⟨some f, f.length, k'⟩, dead := false } : Connection τ).Held
        (w ++ bs) t pre f :=
      ⟨hheld.order, hheld.owner, hheld.rets, .inr ⟨k', hk', rfl, hnow⟩⟩
    refine ⟨⟨h.stamped, ?_, .inr ⟨t, pre, f, hnew⟩, hremoving, hreturned⟩, hnew⟩
    change w ++ bs <+: c.pdus.flatten
    rw [hnow, hpdus, List.flatten_append, List.flatten_singleton]
    exact (List.prefix_append_right_inj _).mpr (List.take_prefix k' f)

/-- The channel is taken for `f`; nothing of it is written yet. -/
def taken (c : Connection τ) (t : τ) (f : List Byte) : Connection τ :=
  { c with wpdu := ⟨some f, f.length, (0 : ℕ)⟩, order := c.order ++ [(t, f)] }

theorem pdus_taken (c : Connection τ) (t : τ) (f : List Byte) :
    (c.taken t f).pdus = c.pdus ++ [f] :=
  List.map_append

theorem SendOk.take (h : c.SendOk w) (hfree : c.Free w) (hlive : c.dead = false) (t : τ)
    (hf : Stamped f) : (c.taken t f).SendOk w ∧ (c.taken t f).Held w t c.order f := by
  have hpdus := pdus_taken c t f
  have hall := hfree.all hlive
  have hheld : (c.taken t f).Held w t c.order f := by
    refine ⟨rfl, fun t' hown => absurd hown (hfree.owner t'), hfree.rets,
      .inr ⟨0, Nat.zero_le _, rfl, ?_⟩⟩
    rw [List.take_zero, List.append_nil]
    exact hall
  refine ⟨⟨?_, ?_, .inr ⟨t, c.order, f, hheld⟩, h.removing, ?_⟩, hheld⟩
  · intro g hg
    rw [hpdus] at hg
    rcases List.mem_append.mp hg with hg | hg
    · exact h.stamped g hg
    · exact List.mem_singleton.mp hg ▸ hf
  · rw [hpdus, hall, List.flatten_append]
    exact List.prefix_append _ _
  · intro i u hret
    have hi : i + 1 ≤ c.pdus.length := by
      have hlt := (List.getElem?_eq_some_iff.mp hret).1
      have hlen := congrArg List.length hfree.rets
      rw [List.length_map, List.length_map] at hlen
      rw [Connection.pdus, List.length_map]
      exact hlen ▸ hlt
    rw [hpdus, List.take_append_of_le_length hi]
    exact h.returned i u hret

theorem Free.of_buf (h : c.SendOk w) (hbuf : ¬ c.wpdu.buf.isSome = true) : c.Free w := by
  rcases h.channel with hfree | ⟨t,pre,f,hheld⟩
  · exact hfree
  · exact absurd hheld.buf_isSome hbuf

theorem SendOk.writeCb (h : c.SendOk w) {r : WriteRes} {c' : Connection τ} {bs : List Byte}
    (hc : c.writeCb r = some (c', bs)) : c'.SendOk (w ++ bs) := by
  unfold Connection.writeCb at hc
  split_ifs at hc with hdead hsz
  · cases hc
    rwa [List.append_nil]
  · obtain ⟨⟨ok,p,bs'⟩,hw,hc⟩ := Option.map_eq_some_iff.mp hc
    simp only [Prod.mk.injEq] at hc
    obtain ⟨rfl,rfl⟩ := hc
    rcases h.channel with hfree | ⟨t,pre,f,hheld⟩
    · -- `sz` is 0 when nobody has the channel
      rw [hfree.wpdu] at hsz
      exact absurd rfl hsz
    · exact (h.write hheld (Bool.eq_false_iff.mpr hdead) hw).1

theorem SendOk.held_of_owns (h : c.SendOk w) (hown : (c.pc t).Owns) :
    ∃ pre f, c.Held w t pre f := by
  rcases h.channel with hfree | ⟨t',pre,f,hheld⟩
  · exact absurd hown (hfree.owner t)
  · exact ⟨pre, f, hheld.owner t hown ▸ hheld⟩

variable [DecidableEq τ]

theorem Held.setPc (h : c.Held w t pre f) {t' : τ} {pc : SendPc} (hpc : pc.Owns → t' = t) :
    (c.setPc t' pc).Held w t pre f := by
  refine ⟨h.order, ?_, h.rets, h.progress⟩
  intro u hu
  by_cases hut : u = t'
  · subst hut
    apply hpc
    simpa [Connection.setPc] using hu
  · apply h.owner
    simpa [Connection.setPc, hut] using hu

theorem removing_setPc (h : c.SendOk w) {t : τ} {pc : SendPc} (hpc : pc = .removing → c.dead = true)
    (u : τ) (hu : (c.setPc t pc).pc u = .removing) : c.dead = true := by
  by_cases hut : u = t
  · subst hut
    apply hpc
    simpa [Connection.setPc] using hu
  · apply h.removing u
    simpa [Connection.setPc, hut] using hu

theorem SendOk.setPc_held (h : c.SendOk w) (hheld : c.Held w t pre f) {pc : SendPc}
    (hpc : pc = .removing → c.dead = true) : (c.setPc t pc).SendOk w :=
  ⟨h.stamped, h.start, .inr ⟨t, pre, f, hheld.setPc fun _ => rfl⟩, removing_setPc h hpc, h.returned⟩

/-- A thread that goes to where it does not have the channel. -/
theorem SendOk.setPc (h : c.SendOk w) (t : τ) {pc : SendPc} (hpc : ¬ pc.Owns) :
    (c.setPc t pc).SendOk w := by
  refine ⟨h.stamped, h.start, ?_, removing_setPc h fun hrem => absurd (hrem ▸ trivial) hpc,
    h.returned⟩
  rcases h.channel with hfree | ⟨t',pre,f,hheld⟩
  · refine .inl ⟨hfree.wpdu, ?_, hfree.rets, hfree.all⟩
    intro u hu
    by_cases hut : u = t
    · subst hut
      apply hpc
      simpa [Connection.setPc] using hu
    · apply hfree.owner u
      simpa [Connection.setPc, hut] using hu
  · exact .inr ⟨t', pre, f, hheld.setPc fun hown => absurd hown hpc⟩

/-- The channel is given up, by a thread that has written all of its PDU unless the
connection is dead. -/
theorem SendOk.finish (h : c.SendOk w) (hheld : c.Held w t pre f)
    (hdone : c.dead = false → c.wpdu.solong = c.wpdu.sz) : (c.finish t).SendOk w := by
  have hpdus := hheld.pdus_eq
  have hall : c.dead = false → w = c.pdus.flatten := by
    intro hlive
    rcases hheld.progress with ⟨hdead,_⟩ | ⟨k,_,hp,hwritten⟩
    · rw [hlive] at hdead
      cases hdead
    · have hk := hdone hlive
      rw [hp] at hk
      have hkf : k = f.length := Int.ofNat.inj hk
      rw [hwritten, hkf, List.take_length, hpdus, List.flatten_append, List.flatten_singleton]
  refine ⟨h.stamped, h.start, .inl ⟨rfl, ?_, ?_, hall⟩, removing_setPc h SendPc.noConfusion, ?_⟩
  · intro u hu
    by_cases hut : u = t
    · subst hut
      simp [Connection.finish, Connection.setPc, SendPc.Owns] at hu
    · have hu' : (c.pc u).Owns := by simpa [Connection.finish, Connection.setPc, hut] using hu
      exact hut (hheld.owner u hu')
  · change (c.rets ++ _).map _ = c.order.map _
    rw [List.map_append, hheld.rets, hheld.order, List.map_append]
    rfl
  · intro i u hret
    change (c.rets ++ _)[i]? = _ at hret
    change (c.pdus.take (i + 1)).flatten <+: w
    by_cases hi : i < c.rets.length
    · rw [List.getElem?_append_left hi] at hret
      exact h.returned i u hret
    · -- the entry that has just been made is that of the last PDU
      rw [List.getElem?_append_right (not_lt.mp hi), List.getElem?_singleton] at hret
      split_ifs at hret with hz
      simp only [Option.some.injEq, Prod.mk.injEq, Bool.and_eq_true, Bool.not_eq_true'] at hret
      have hlen := hheld.rets_length
      have hle : c.pdus.length ≤ i + 1 := by
        rw [hpdus, List.length_append, List.length_map, List.length_singleton]
        omega
      have heq : (c.pdus.take (i + 1)).flatten = w := by
        rw [List.take_of_length_le hle, ← hall hret.2.1]
      exact heq ▸ List.prefix_refl _

theorem SendOk.obtain (h : c.SendOk w) (hlive : c.dead = false) (hbuf : ¬ c.wpdu.buf.isSome = true)
    {b : Pdu} {r : WriteRes} {c' : Connection τ} {bs : List Byte}
    (hc : c.obtain t b r = some (c', bs)) : c'.SendOk (w ++ bs) := by
  obtain ⟨h0,hheld0⟩ := h.take (Free.of_buf h hbuf) hlive t ⟨b, rfl⟩
  obtain ⟨⟨ok,p,bs'⟩,hw,hc⟩ := Option.map_eq_some_iff.mp hc
  rw [writepdu_stamps] at hw
  obtain ⟨h1,hheld1⟩ := h0.write hheld0 hlive hw
  cases ok with
  | false =>
    simp only [if_pos, Prod.mk.injEq] at hc
    obtain ⟨rfl,rfl⟩ := hc
    exact h1.setPc_held hheld1 fun _ => rfl
  | true =>
    have hsame : ({ c with wpdu := p, order := c.order ++ [(t, stamp b.1.length b.1)] } :
      Connection τ) =
        { c with wpdu := p, order := c.order ++ [(t, stamp b.1.length b.1)], dead := !true } := by
      simp [hlive]
    simp only [Bool.true_eq_false, if_false] at hc
    rw [hsame] at hc
    split_ifs at hc with hdone
    · simp only [Prod.mk.injEq] at hc
      obtain ⟨rfl,rfl⟩ := hc
      exact h1.finish hheld1 fun _ => hdone
    · simp only [Prod.mk.injEq] at hc
      obtain ⟨rfl,rfl⟩ := hc
      exact h1.setPc_held hheld1 SendPc.noConfusion

theorem SendOk.attempt (h : c.SendOk w) {b : Pdu} {r : WriteRes} {c' : Connection τ}
    {bs : List Byte} (hc : c.attempt t b r = some (c', bs)) : c'.SendOk (w ++ bs) := by
  unfold Connection.attempt at hc
  split_ifs at hc with hdead hbusy
  · cases hc
    rw [List.append_nil]
    exact h.setPc t id
  · cases hc
    rw [List.append_nil]
    exact h.setPc t id
  · exact h.obtain (Bool.eq_false_iff.mpr hdead) hbusy hc

theorem SendOk.completeWake (h : c.SendOk w) (ht : c.pc t = .completing) :
    (c.completeWake t).SendOk w := by
  obtain ⟨pre,f,hheld⟩ := h.held_of_owns (t := t) (by rw [ht]; trivial)
  unfold Connection.completeWake
  split_ifs with hmore
  · exact h
  · apply h.finish hheld
    intro hlive
    rcases hheld.progress with ⟨hdead,_⟩ | ⟨k,hk,hp,_⟩
    · rw [hlive] at hdead
      cases hdead
    · rw [hp] at hmore ⊢
      simp only [hlive, true_and, not_and, not_lt] at hmore
      have hge := hmore (Int.natCast_nonneg k)
      change (k : ℤ) = f.length
      omega

/-- What one end can do with its object, by what it does and not by who does it: both a
new `send` and one that is woken up attempt to get the channel. -/
inductive ActStep (c : Connection τ) : Connection τ → List Byte → Prop
  | attempt (t : τ) (b : Pdu) (r : WriteRes) (c' : Connection τ) (bs : List Byte)
      (h : c.attempt t b r = some (c', bs)) : ActStep c c' bs
  | writeCb (r : WriteRes) (c' : Connection τ) (bs : List Byte) (h : c.writeCb r = some (c', bs)) :
      ActStep c c' bs
  | completeWake (t : τ) (h : c.pc t = .completing) : ActStep c (c.completeWake t) []
  | removed (t : τ) (h : c.pc t = .removing) : ActStep c (c.finish t) []
  | closeconn : ActStep c { c with dead := true } []

theorem actStep_of_act {a : Act τ} {c' : Connection τ} {bs : List Byte}
    (hc : c.act a = some (c', bs)) :
    ActStep c c' bs := by
  cases a with
  | send t b r | sendWake t r =>
    simp only [Connection.act] at hc
    split at hc
    · exact .attempt t _ r c' bs hc
    · cases hc
  | writeCb r => exact .writeCb r c' bs hc
  | completeWake t =>
    simp only [Connection.act] at hc
    split at hc
    · next ht =>
      cases hc
      exact .completeWake t ht
    · cases hc
  | removed t =>
    simp only [Connection.act] at hc
    split at hc
    · next ht =>
      cases hc
      exact .removed t ht
    · cases hc
  | closeconn =>
    cases hc
    exact .closeconn
  | readCb hdr body accept => cases hc

/-- Whatever the threads of the sending end do, what has been written stays an initial
part of the PDUs in their order. -/
theorem SendOk.act (h : c.SendOk w) {a : Act τ} {c' : Connection τ} {bs : List Byte}
    (hc : c.act a = some (c', bs)) : c'.SendOk (w ++ bs) := by
  cases actStep_of_act hc with
  | attempt t b r _ _ hc => exact h.attempt hc
  | writeCb r _ _ hc => exact h.writeCb hc
  | completeWake t ht =>
    rw [List.append_nil]
    exact h.completeWake ht
  | removed t ht =>
    obtain ⟨pre,f,hheld⟩ := h.held_of_owns (t := t) (by rw [ht]; trivial)
    rw [List.append_nil]
    apply h.finish hheld
    intro hlive
    rw [h.removing t ht] at hlive
    cases hlive
  | closeconn =>
    rw [List.append_nil]
    exact h.reads ⟨rfl, rfl, rfl, rfl, fun _ => rfl⟩

end Connection

theorem writepdu_keeps {p p' : Charbuf} {r : WriteRes} {ok : Bool} {bs : List Byte}
    (h : p.writepdu r = some (ok, p', bs)) :
    p'.buf.isSome = p.buf.isSome ∧ (ok = false → r = .error) := by
  simp only [Charbuf.writepdu, Option.ite_none_left_eq_some] at h
  obtain ⟨-,h⟩ := h
  by_cases hdone : p.solong = p.sz
  · rw [if_pos hdone] at h
    cases h
    exact ⟨rfl,nofun⟩
  · rw [if_neg hdone] at h
    obtain ⟨b,hb,h⟩ := Option.bind_eq_some_iff.mp h
    rw [hb]
    cases r with
    | error =>
      cases h
      exact ⟨rfl,fun _ => rfl⟩
    | again =>
      cases h
      exact ⟨rfl,nofun⟩
    | wrote n =>
      simp only [Option.ite_none_right_eq_some, Option.some.injEq, Prod.mk.injEq] at h
      obtain ⟨-,rfl,rfl,-⟩ := h
      exact ⟨rfl,nofun⟩

section
variable [DecidableEq τ]

theorem obtain_cases {c c' : Connection τ} {t : τ} {b : Pdu} {r : WriteRes} {bs : List Byte}
    (h : c.obtain t b r = some (c', bs)) :
    (c'.pc = Function.update c.pc t .removing ∧ c'.dead = true ∧ c'.wpdu.buf.isSome = true ∧
      r = .error) ∨
    (c'.pc = Function.update c.pc t .idle ∧ c'.dead = c.dead ∧ c'.wpdu.buf.isSome = false) ∨
    (c'.pc = Function.update c.pc t .completing ∧ c'.dead = c.dead ∧
      c'.wpdu.buf.isSome = true) := by
  obtain ⟨⟨ok,p,bs'⟩,hw,h⟩ := Option.map_eq_some_iff.mp h
  obtain ⟨hbuf,hfails⟩ := writepdu_keeps hw
  simp only at h
  split_ifs at h with hok
  · cases h
    subst hok
    exact .inl ⟨rfl,rfl,hbuf,hfails rfl⟩
  · cases h
    exact .inr (.inl ⟨rfl,rfl,rfl⟩)
  · cases h
    exact .inr (.inr ⟨rfl,rfl,hbuf⟩)

theorem attempt_cases {c c' : Connection τ} {t : τ} {b : Pdu} {r : WriteRes} {bs : List Byte}
    (h : c.attempt t b r = some (c', bs)) :
    (c.dead = true ∧ c' = c.setPc t .idle) ∨ (c.dead = false ∧ c' = c.setPc t (.waiting b)) ∨
    (c.dead = false ∧ c.wpdu.buf.isSome = false ∧ c.obtain t b r = some (c', bs)) := by
  unfold Connection.attempt at h
  split_ifs at h with hdead hbuf
  · cases h
    exact .inl ⟨hdead,rfl⟩
  · cases h
    exact .inr (.inl ⟨Bool.eq_false_iff.mpr hdead,rfl⟩)
  · exact .inr (.inr ⟨Bool.eq_false_iff.mpr hdead,Bool.eq_false_iff.mpr hbuf,h⟩)

end

/-- What a read or write callback leaves of the object: all but `dead_` and the buffers. -/
theorem writeCb_cases {c c' : Connection τ} {r : WriteRes} {bs : List Byte}
    (h : c.writeCb r = some (c', bs)) :
    c.dead = false ∧ c'.pc = c.pc ∧ c'.wpdu.buf.isSome = c.wpdu.buf.isSome ∧
    (c.wpdu.sz = 0 → c' = c) := by
  simp only [Connection.writeCb, Option.ite_none_left_eq_some] at h
  obtain ⟨hdead,h⟩ := h
  refine ⟨Bool.eq_false_iff.mpr hdead,?_⟩
  split_ifs at h with hsz
  · cases h
    exact ⟨rfl,rfl,fun _ => rfl⟩
  · obtain ⟨⟨ok,p,bs'⟩,hw,h⟩ := Option.map_eq_some_iff.mp h
    cases h
    exact ⟨rfl,(writepdu_keeps hw).1,fun hzero => absurd hzero hsz⟩

theorem deliver_same (c : Connection τ) (accept : Bool) :
    (c.deliver accept).pc = c.pc ∧ (c.deliver accept).wpdu = c.wpdu ∧
    (c.deliver accept).dead = c.dead := by
  unfold Connection.deliver
  split
  · exact ⟨rfl,rfl,rfl⟩
  · split_ifs
    · exact ⟨rfl,rfl,rfl⟩
    · exact ⟨rfl,rfl,rfl⟩

theorem readCb_cases {c c' : Connection τ} {inc inc' : Stream} {hdr body : ReadRes} {accept : Bool}
    (h : c.readCb inc hdr body accept = some (c', inc')) :
    c'.pc = c.pc ∧ c'.wpdu = c.wpdu ∧ (c.dead = true → c' = c) := by
  unfold Connection.readCb at h
  split_ifs at h with hdead
  · cases h
    exact ⟨rfl,rfl,fun _ => rfl⟩
  all_goals
    obtain ⟨⟨succ,p,w⟩,-,h⟩ := Option.map_eq_some_iff.mp h
    cases h
    obtain ⟨hpc,hwpdu,-⟩ := deliver_same ({ c with rpdu := p, dead := !succ } : Connection τ) accept
    exact ⟨hpc,hwpdu,fun hd => absurd hd hdead⟩

end Yfs.Conn
