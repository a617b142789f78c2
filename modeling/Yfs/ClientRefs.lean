import Yfs.RefCount
import Yfs.Run

/-! The connections of one `rpcc` and the references to them: `chan_` and the `ch` of every
`call1`. `get_refconn` replaces a connection that has died, with `chan_m_` held; the poll thread
and senders may find out at any time that a connection is dead. -/

namespace Yfs.ClientRefs
open Yfs.RefCount (Fault Obj Heap Counted load incref decref)

abbrev ConnId := ℕ

inductive Stage
  | check
  | drop
  | connect
  | release
  | take
  deriving DecidableEq

inductive Pc
  | idle
  | calling
  | refconn (st : Stage)
  deriving DecidableEq

/-- A pointer whose reference has just been given up is null here: the next statement of the
same thread overwrites it. -/
structure Client (θ : Type) where
  heap : Heap ConnId Unit
  chan : Option ConnId
  ch : θ → Option ConnId
  pc : θ → Pc
  chanM : Option θ
  destroyed : Bool

/-- `new` is what `connect_to_dst` returns; `use` is `send` or `isdead` on `ch`; `die` is where
`dead_` is set. -/
inductive Act (θ : Type)
  | begin (t : θ)
  | lock (t : θ)
  | refconn (t : θ) (new : Option ConnId)
  | use (t : θ)
  | finish (t : θ)
  | die (c : ConnId)
  | destroy

section
variable {θ : Type} [DecidableEq θ] [Fintype θ]

namespace Client

def init (θ : Type) : Client θ := ⟨fun _ => none, none, fun _ => none, fun _ => .idle, none, false⟩

def setPc (s : Client θ) (t : θ) (p : Pc) : Client θ := { s with pc := Function.update s.pc t p }

def setCh (s : Client θ) (t : θ) (p : Option ConnId) : Client θ :=
  { s with ch := Function.update s.ch t p }

def unlock (s : Client θ) (t : θ) : Client θ := { s.setPc t .calling with chanM := none }

def refconn (s : Client θ) (t : θ) (new : Option ConnId) : Stage → Option (Except Fault (Client θ))
  | .check =>
    match s.chan with
    | none => some (.ok (s.setPc t (.refconn .connect)))
    | some c => some ((load s.heap (some c)).map fun x =>
        s.setPc t (.refconn (if x.dead = true then .drop else .release)))
  | .drop => some ((decref s.heap s.chan).map fun heap =>
      { s.setPc t (.refconn .connect) with heap := heap, chan := none })
  | .connect =>
    match new with
    | none => some (.ok { s.setPc t (.refconn .release) with chan := none })
    | some c =>
      -- `new connection` is at an address that is free
      if s.heap c = none then
        some (.ok { s.setPc t (.refconn .release) with
          heap := Function.update s.heap c (some ⟨1, false, ()⟩), chan := some c })
      else none
  | .release =>
    match s.chan, s.ch t with
    | none, _ => some (.ok (s.unlock t))
    | some _, none => some (.ok (s.setPc t (.refconn .take)))
    | some _, some d => some ((decref s.heap (some d)).map fun heap =>
        { (s.setPc t (.refconn .take)).setCh t none with heap := heap })
  | .take =>
    some ((incref s.heap s.chan).map fun heap => { (s.unlock t).setCh t s.chan with heap := heap })

def exec (s : Client θ) : Act θ → Option (Except Fault (Client θ))
  | .begin t => if s.pc t = .idle ∧ s.destroyed = false then some (.ok (s.setPc t .calling))
    else none
  | .lock t =>
    if s.pc t = .calling ∧ s.chanM = none then some (.ok { s.setPc t (.refconn .check) with
      chanM := some t }) else none
  | .refconn t new =>
    match s.pc t with
    | .refconn st => s.refconn t new st
    | _ => none
  | .use t =>
    match s.pc t, s.ch t with
    | .calling, some c => some ((load s.heap (some c)).map fun _ => s)
    | _, _ => none
  | .finish t =>
    match s.pc t, s.ch t with
    | .calling, none => some (.ok (s.setPc t .idle))
    | .calling, some c => some ((decref s.heap (some c)).map fun heap =>
        { (s.setPc t .idle).setCh t none with heap := heap })
    | _, _ => none
  | .die c =>
    (s.heap c).map fun x => .ok { s with
      heap := Function.update s.heap c (some { x with dead := true }) }
  | .destroy =>
    -- not before all threads have left
    if (∀ t, s.pc t = .idle) ∧ s.destroyed = false then
      match s.chan with
      | none => some (.ok { s with destroyed := true })
      | some c => some ((load s.heap (some c)).bind fun x =>
          (decref (Function.update s.heap c (some { x with dead := true })) (some c)).map
            fun heap =>
            { s with heap := heap, chan := none, destroyed := true })
    else none

def step : Except Fault (Client θ) → Act θ → Option (Except Fault (Client θ))
  | .ok s, a => s.exec a
  | .error _, _ => none

def one (p : Option ConnId) (c : ConnId) : ℕ := if p = some c then 1 else 0

/-- The references there should be to a connection. -/
def refs (chan : Option ConnId) (ch : θ → Option ConnId) (c : ConnId) : ℕ :=
  one chan c + ∑ t, one (ch t) c

theorem one_some (c d : ConnId) : one (some c) d = if d = c then 1 else 0 := by
  simp only [one, Option.some.injEq, eq_comm]

omit [DecidableEq θ] in
theorem refs_chan (ch : θ → Option ConnId) (c d : ConnId) :
    refs (some c) ch d = refs none ch d + if d = c then 1 else 0 := by
  have hnone : one none d = 0 := rfl
  rw [refs, refs, one_some, hnone]
  omega

theorem refs_take (chan : Option ConnId) {ch : θ → Option ConnId} {t : θ} (ht : ch t = none)
    (c d : ConnId) :
    refs chan (Function.update ch t (some c)) d = refs chan ch d + if d = c then 1 else 0 := by
  have hsum := RefCount.sum_update (fun q => one q d) ch t (some c)
  have hnone : one none d = 0 := rfl
  rw [ht, hnone, one_some] at hsum
  rw [refs, refs]
  omega

theorem refs_drop (chan : Option ConnId) {ch : θ → Option ConnId} {t : θ} {c : ConnId}
    (ht : ch t = some c) (d : ConnId) :
    refs chan ch d = refs chan (Function.update ch t none) d + if d = c then 1 else 0 := by
  have hsum := RefCount.sum_update (fun q => one q d) ch t none
  have hnone : one none d = 0 := rfl
  rw [ht, hnone, one_some] at hsum
  rw [refs, refs]
  omega

omit [DecidableEq θ] in
theorem refs_pos_of_chan (ch : θ → Option ConnId) (c : ConnId) : 0 < refs (some c) ch c := by
  rw [refs_chan, if_pos rfl]
  exact Nat.succ_pos _

theorem refs_pos_of_ch (chan : Option ConnId) {ch : θ → Option ConnId} {t : θ} {c : ConnId}
    (h : ch t = some c) :
    0 < refs chan ch c := by
  rw [refs_drop chan h, if_pos rfl]
  exact Nat.succ_pos _

def StageOk (s : Client θ) (t : θ) : Stage → Prop
  | .check | .release => True
  | .drop => ∃ c x, s.chan = some c ∧ s.heap c = some x ∧ x.dead = true
  | .connect => s.chan = none
  | .take => (∃ c, s.chan = some c) ∧ s.ch t = none

structure Ok (s : Client θ) : Prop where
  counted : Counted s.heap (refs s.chan s.ch)
  dead : ∀ c x, s.heap c = some x → s.chan = some c ∨ x.dead = true
  stage : ∀ t st, s.pc t = .refconn st → s.chanM = some t ∧ s.StageOk t st
  idle : ∀ t, s.pc t = .idle → s.ch t = none
  gone : s.destroyed = true → s.chan = none ∧ ∀ t, s.pc t = .idle

def Fine : Except Fault (Client θ) → Prop
  | .ok s => s.Ok
  | .error _ => False

/-- A step of the thread that has `chan_m_`. -/
theorem Ok.inside {s s' : Client θ} (h : s.Ok) {t : θ} {st : Stage} (ht : s.pc t = .refconn st)
    {p : Pc}
    (hp : p ≠ .idle) (hpc : s'.pc = Function.update s.pc t p) (hch : ∀ u, u ≠ t → s'.ch u = s.ch u)
    (hdestroyed : s'.destroyed = s.destroyed) (hcounted : Counted s'.heap (refs s'.chan s'.ch))
    (hdead : ∀ c x, s'.heap c = some x → s'.chan = some c ∨ x.dead = true)
    (hstage : ∀ st', p = .refconn st' → s'.chanM = some t ∧ s'.StageOk t st') : s'.Ok := by
  refine ⟨hcounted, hdead, fun u st' hu => ?_, fun u hu => ?_, fun hgone => ?_⟩
  · rw [hpc] at hu
    by_cases hut : u = t
    · subst hut
      rw [Function.update_self] at hu
      exact hstage st' hu
    · rw [Function.update_of_ne hut] at hu
      have howner := (h.stage u st' hu).1.symm.trans (h.stage t st ht).1
      exact absurd (Option.some.inj howner) hut
  · rw [hpc] at hu
    have hut : u ≠ t := by
      rintro rfl
      rw [Function.update_self] at hu
      exact hp hu
    rw [Function.update_of_ne hut] at hu
    rw [hch u hut]
    exact h.idle u hu
  · have hidle := (h.gone (hdestroyed ▸ hgone)).2 t
    rw [ht] at hidle
    cases hidle

/-- What a change of one count leaves of a connection. -/
theorem dead_of_update {heap : Heap ConnId Unit} {c : ConnId} {o : Option (Obj Unit)}
    (hsame : ∀ x, o = some x → ∃ y, heap c = some y ∧ x.dead = y.dead) {d : ConnId} {x : Obj Unit}
    (hx : Function.update heap c o d = some x) : ∃ y, heap d = some y ∧ x.dead = y.dead := by
  by_cases hd : d = c
  · subst hd
    rw [Function.update_self] at hx
    exact hsame x hx
  · rw [Function.update_of_ne hd] at hx
    exact ⟨x, hx, rfl⟩

theorem Ok.decref_ch {s : Client θ} (h : s.Ok) {t : θ} {c : ConnId} (ht : s.ch t = some c) :
    ∃ heap, decref s.heap (some c) = .ok heap ∧
    Counted heap (refs s.chan (Function.update s.ch t none)) ∧
      ∀ d x, heap d = some x → ∃ y, s.heap d = some y ∧ x.dead = y.dead := by
  obtain ⟨o,hdec,hcounted,hsame⟩ := h.counted.decref _ (refs_drop s.chan ht) fun hzero x hx => by
    refine (h.dead c x hx).resolve_left fun hchan => ?_
    have hpos := refs_pos_of_chan (Function.update s.ch t none) c
    rw [← hchan, hzero] at hpos
    exact lt_irrefl 0 hpos
  exact ⟨_, hdec, hcounted, fun d x hx => dead_of_update hsame hx⟩

omit [DecidableEq θ] in
theorem Ok.load_chan {s : Client θ} (h : s.Ok) {c : ConnId} (hc : s.chan = some c) :
    ∃ x, s.heap c = some x ∧ load s.heap (some c) = .ok x := by
  obtain ⟨x,hx⟩ := h.counted.exists_of_pos (hc ▸ refs_pos_of_chan s.ch c)
  exact ⟨x, hx, by simp only [load, hx]⟩

section stages
variable {s : Client θ} (h : s.Ok) {t : θ} {new : Option ConnId} {r : Except Fault (Client θ)}
include h

theorem fine_check (ht : s.pc t = .refconn .check) (hr : s.refconn t new .check = some r) :
    Fine r := by
  obtain ⟨hm,-⟩ := h.stage t _ ht
  rw [refconn] at hr
  cases hc : s.chan with
  | none =>
    simp only [hc] at hr
    cases hr
    refine h.inside ht (p := .refconn .connect) (by simp) rfl (fun _ _ => rfl) rfl h.counted h.dead
      ?_
    rintro _ ⟨rfl⟩
    exact ⟨hm, hc⟩
  | some c =>
    obtain ⟨x,hx,hload⟩ := h.load_chan hc
    simp only [hc, hload] at hr
    cases hr
    refine h.inside ht (p := .refconn _) (by simp) rfl (fun _ _ => rfl) rfl h.counted h.dead ?_
    rintro _ ⟨rfl⟩
    refine ⟨hm, ?_⟩
    split_ifs with hdead
    · exact ⟨c, x, hc, hx, hdead⟩
    · trivial

theorem fine_drop (ht : s.pc t = .refconn .drop) (hr : s.refconn t new .drop = some r) :
    Fine r := by
  obtain ⟨hm,hst⟩ := h.stage t _ ht
  obtain ⟨c,x,hc,hx,hdead⟩ := hst
  obtain ⟨o,hdec,hcounted,hsame⟩ :=
    h.counted.decref (refs none s.ch) (by rw [hc]; exact refs_chan s.ch c)
    fun _ y hy => by
      rw [hx] at hy
      cases hy
      exact hdead
  rw [refconn, hc, hdec] at hr
  cases hr
  refine h.inside ht (p := .refconn .connect) (by simp) rfl (fun _ _ => rfl) rfl hcounted
    (fun d y hy => .inr ?_) ?_
  · obtain ⟨z,hz,heq⟩ := dead_of_update hsame hy
    rw [heq]
    by_cases hd : d = c
    · rw [hd, hx] at hz
      cases hz
      exact hdead
    · refine (h.dead d z hz).resolve_left fun hne => hd ?_
      exact (Option.some.inj (hc.symm.trans hne)).symm
  · rintro _ ⟨rfl⟩
    exact ⟨hm, rfl⟩

theorem fine_connect (ht : s.pc t = .refconn .connect) (hr : s.refconn t new .connect = some r) :
    Fine r := by
  obtain ⟨hm,hst⟩ := h.stage t _ ht
  have hchan : s.chan = none := hst
  cases new with
  | none =>
    rw [refconn] at hr
    cases hr
    refine h.inside ht (p := .refconn .release) (by simp) rfl (fun _ _ => rfl) rfl ?_
      (fun d x hx => ?_) ?_
    · exact h.counted.congr fun d => by simp only [setPc, hchan]
    · exact (h.dead d x hx).imp_left fun hd => by rw [hchan] at hd; cases hd
    · rintro _ ⟨rfl⟩
      exact ⟨hm, trivial⟩
  | some c =>
    rw [refconn] at hr
    split_ifs at hr with hfree
    cases hr
    refine h.inside ht (p := .refconn .release) (by simp) rfl (fun _ _ => rfl) rfl ?_
      (fun d x hx => ?_) ?_
    · exact h.counted.insert hfree _ rfl _ (hchan ▸ refs_chan s.ch c)
    · by_cases hd : d = c
      · exact .inl (by rw [hd])
      · simp only [Function.update_of_ne hd] at hx
        exact (h.dead d x hx).imp_left fun hne => by rw [hchan] at hne; cases hne
    · rintro _ ⟨rfl⟩
      exact ⟨hm, trivial⟩

theorem fine_release (ht : s.pc t = .refconn .release) (hr : s.refconn t new .release = some r) :
    Fine r := by
  obtain ⟨hm,-⟩ := h.stage t _ ht
  rw [refconn] at hr
  cases hc : s.chan with
  | none =>
    simp only [hc] at hr
    cases hr
    exact h.inside ht (p := .calling) (by simp) rfl (fun _ _ => rfl) rfl h.counted h.dead
      fun _ hp => by cases hp
  | some c =>
    cases hch : s.ch t with
    | none =>
      simp only [hc, hch] at hr
      cases hr
      refine h.inside ht (p := .refconn .take) (by simp) rfl (fun _ _ => rfl) rfl h.counted h.dead
        ?_
      rintro _ ⟨rfl⟩
      exact ⟨hm, ⟨c, hc⟩, hch⟩
    | some d =>
      obtain ⟨heap,hdec,hcounted,hsame⟩ := h.decref_ch hch
      simp only [hc, hch, hdec] at hr
      cases hr
      refine h.inside ht (p := .refconn .take) (by simp) rfl
        (fun u hu => Function.update_of_ne hu _ _) rfl hcounted ?_ ?_
      · intro e x hx
        obtain ⟨y,hy,heq⟩ := hsame e x hx
        rw [heq]
        exact h.dead e y hy
      · rintro _ ⟨rfl⟩
        exact ⟨hm, ⟨c, hc⟩, Function.update_self ..⟩

theorem fine_take (ht : s.pc t = .refconn .take) (hr : s.refconn t new .take = some r) :
    Fine r := by
  obtain ⟨-,hst⟩ := h.stage t _ ht
  obtain ⟨⟨c,hc⟩,hch⟩ := hst
  obtain ⟨x,hx,-⟩ := h.load_chan hc
  obtain ⟨hinc,hcounted⟩ := h.counted.incref hx _ (refs_take s.chan hch c)
  rw [refconn, hc, hinc] at hr
  cases hr
  refine h.inside ht (p := .calling) (by simp) rfl (fun u hu => Function.update_of_ne hu _ _) rfl
    hcounted ?_
    fun _ hp => by cases hp
  intro d y hy
  have hsame : ∀ z, some ({ x with refno := x.refno + 1 } : Obj Unit) = some z →
      ∃ w, s.heap c = some w ∧ z.dead = w.dead := by
    rintro _ ⟨rfl⟩
    exact ⟨x, hx, rfl⟩
  obtain ⟨w,hw,heq⟩ := dead_of_update hsame hy
  rw [heq]
  exact h.dead d w hw

theorem fine_refconn {st : Stage} (ht : s.pc t = .refconn st) (hr : s.refconn t new st = some r) :
    Fine r := by
  cases st with
  | check => exact fine_check h ht hr
  | drop => exact fine_drop h ht hr
  | connect => exact fine_connect h ht hr
  | release => exact fine_release h ht hr
  | take => exact fine_take h ht hr

end stages

omit [DecidableEq θ] in
/-- The connection of `chan_` stays, and so does what a thread in `get_refconn` knows of it. -/
theorem StageOk.mono {s s' : Client θ} {u : θ} {st : Stage} (hst : s.StageOk u st)
    (hchan : s'.chan = s.chan)
    (hch : s'.ch u = s.ch u) (hcounted : Counted s'.heap (refs s'.chan s'.ch))
    (hsame : ∀ d x, s'.heap d = some x → ∃ y, s.heap d = some y ∧ (y.dead = true → x.dead = true)) :
    s'.StageOk u st := by
  cases st with
  | check | release => trivial
  | connect => exact hchan.trans hst
  | take => exact ⟨hst.1.imp fun c hc => hchan.trans hc, hch.trans hst.2⟩
  | drop =>
    obtain ⟨c,x,hc,hx,hdead⟩ := hst
    have hpos : 0 < refs s'.chan s'.ch c := by
      rw [hchan, hc]
      exact refs_pos_of_chan s'.ch c
    obtain ⟨x',hx'⟩ := hcounted.exists_of_pos hpos
    obtain ⟨y,hy,hdead'⟩ := hsame c x' hx'
    rw [hx] at hy
    cases hy
    exact ⟨c, x', hchan.trans hc, hx', hdead' hdead⟩

theorem Ok.outside {s s' : Client θ} (h : s.Ok) (t : θ) (p : Pc) (hp : ∀ st, p ≠ .refconn st)
    (hpc : s'.pc = Function.update s.pc t p) (hidle : p = .idle → s'.ch t = none)
    (hdestroyed : s'.destroyed = true → s.destroyed = true ∧ p = .idle)
    (hchan : s'.chan = s.chan) (hm : s'.chanM = s.chanM) (hch : ∀ u, u ≠ t → s'.ch u = s.ch u)
    (hcounted : Counted s'.heap (refs s'.chan s'.ch))
    (hsame : ∀ d x, s'.heap d = some x → ∃ y, s.heap d = some y ∧ (y.dead = true → x.dead = true)) :
    s'.Ok := by
  refine ⟨hcounted, fun d x hx => ?_, fun u st hu => ?_, fun u hu => ?_, fun hgone => ?_⟩
  · obtain ⟨y,hy,hdead⟩ := hsame d x hx
    rw [hchan]
    exact (h.dead d y hy).imp_right hdead
  · rw [hpc] at hu
    have hut : u ≠ t := by
      rintro rfl
      rw [Function.update_self] at hu
      exact hp st hu
    rw [Function.update_of_ne hut] at hu
    obtain ⟨howner,hst⟩ := h.stage u st hu
    exact ⟨hm.trans howner, hst.mono hchan (hch u hut) hcounted hsame⟩
  · rw [hpc] at hu
    by_cases hut : u = t
    · subst hut
      rw [Function.update_self] at hu
      exact hidle hu
    · rw [Function.update_of_ne hut] at hu
      rw [hch u hut]
      exact h.idle u hu
  · obtain ⟨hold,hp'⟩ := hdestroyed hgone
    obtain ⟨hnone,hall⟩ := h.gone hold
    refine ⟨hchan.trans hnone, fun u => ?_⟩
    rw [hpc]
    by_cases hut : u = t
    · rw [hut, Function.update_self, hp']
    · rw [Function.update_of_ne hut, hall u]

omit [DecidableEq θ] in
theorem fine_destroy {s : Client θ} (h : s.Ok) (hidle : ∀ t, s.pc t = .idle) {c : ConnId}
    (hc : s.chan = some c) :
    ∃ heap, ((load s.heap (some c)).bind fun x =>
        (decref (Function.update s.heap c (some { x with dead := true })) (some c)).map fun heap =>
          ({ s with heap := heap, chan := none, destroyed := true } : Client θ)) =
      .ok { s with heap := heap, chan := none, destroyed := true } ∧
    Ok { s with heap := heap, chan := none, destroyed := true } := by
  obtain ⟨x,hx,hload⟩ := h.load_chan hc
  obtain ⟨hno,hpos⟩ := h.counted.live c x hx
  have hdying : Counted (Function.update s.heap c (some { x with dead := true }))
      (refs (some c) s.ch) := by
    rw [← hc]
    refine h.counted.update c _ ?_ (fun hnone => by cases hnone) fun _ _ => rfl
    rintro _ ⟨rfl⟩
    exact ⟨hno, hpos⟩
  obtain ⟨o,hdec,hcounted,hsame⟩ := hdying.decref _ (refs_chan s.ch c) fun _ y hy => by
    rw [Function.update_self] at hy
    cases hy
    rfl
  refine ⟨Function.update _ c o, by simp only [hload, Except.bind, hdec, Except.map], hcounted,
    fun d y hy => .inr ?_, fun t st ht => ?_, h.idle, fun _ => ⟨rfl, hidle⟩⟩
  · obtain ⟨z,hz,heq⟩ := dead_of_update hsame hy
    rw [heq]
    by_cases hd : d = c
    · rw [hd, Function.update_self] at hz
      cases hz
      rfl
    · rw [Function.update_of_ne hd] at hz
      refine (h.dead d z hz).resolve_left fun hne => hd ?_
      exact (Option.some.inj (hc.symm.trans hne)).symm
  · rw [hidle t] at ht
    cases ht

theorem Ok.lock {s : Client θ} (h : s.Ok) {t : θ} (ht : s.pc t = .calling)
    (hfree : s.chanM = none) :
    Ok { s.setPc t (.refconn .check) with chanM := some t } := by
  refine ⟨h.counted, h.dead, fun u st hu => ?_, fun u hu => ?_, fun hgone => ?_⟩
  · by_cases hut : u = t
    · subst hut
      simp only [setPc, Function.update_self, Pc.refconn.injEq] at hu
      rw [← hu]
      exact ⟨rfl, trivial⟩
    · simp only [setPc, Function.update_of_ne hut] at hu
      have howner := (h.stage u st hu).1
      rw [hfree] at howner
      cases howner
  · have hut : u ≠ t := by
      rintro rfl
      simp [setPc] at hu
    simp only [setPc, Function.update_of_ne hut] at hu
    exact h.idle u hu
  · have hidle := (h.gone hgone).2 t
    rw [ht] at hidle
    cases hidle

omit [DecidableEq θ] in
theorem Ok.die {s : Client θ} (h : s.Ok) {c : ConnId} {x : Obj Unit} (hx : s.heap c = some x) :
    Ok { s with heap := Function.update s.heap c (some { x with dead := true }) } := by
  have hcounted : Counted (Function.update s.heap c (some { x with dead := true }))
      (refs s.chan s.ch) := by
    refine h.counted.update c _ ?_ (fun hnone => by cases hnone) fun _ _ => rfl
    rintro _ ⟨rfl⟩
    exact h.counted.live c x hx
  have hsame : ∀ d y, Function.update s.heap c (some { x with dead := true }) d = some y →
      ∃ z, s.heap d = some z ∧ (z.dead = true → y.dead = true) := by
    intro d y hy
    by_cases hd : d = c
    · rw [hd, Function.update_self] at hy
      cases hy
      exact ⟨x, hd ▸ hx, fun _ => rfl⟩
    · rw [Function.update_of_ne hd] at hy
      exact ⟨y, hy, id⟩
  refine ⟨hcounted, fun d y hy => ?_, fun t st ht => ?_, h.idle, h.gone⟩
  · obtain ⟨z,hz,hdead⟩ := hsame d y hy
    exact (h.dead d z hz).imp_right hdead
  · exact ⟨(h.stage t st ht).1, (h.stage t st ht).2.mono rfl rfl hcounted hsame⟩

theorem fine_exec {s : Client θ} (h : s.Ok) (a : Act θ) (r : Except Fault (Client θ))
    (hr : s.exec a = some r) :
    Fine r := by
  have hkeep : ∀ d x, s.heap d = some x → ∃ y, s.heap d = some y ∧
      (y.dead = true → x.dead = true) :=
    fun d x hx => ⟨x, hx, id⟩
  cases a with
  | begin t =>
    simp only [exec] at hr
    split_ifs at hr with hidle
    cases hr
    refine h.outside t .calling (by simp) rfl (by simp) (fun hgone => ?_) rfl rfl (fun _ _ => rfl)
      h.counted hkeep
    exact absurd (hidle.2.symm.trans hgone) Bool.false_ne_true
  | lock t =>
    simp only [exec] at hr
    split_ifs at hr with hfree
    cases hr
    exact h.lock hfree.1 hfree.2
  | refconn t new =>
    simp only [exec] at hr
    split at hr
    · next st ht => exact fine_refconn h ht hr
    · cases hr
  | use t =>
    simp only [exec] at hr
    split at hr
    · next c ht hch =>
      obtain ⟨x,hx⟩ := h.counted.exists_of_pos (refs_pos_of_ch s.chan hch)
      simp only [load, hx] at hr
      cases hr
      exact h
    · cases hr
  | finish t =>
    simp only [exec] at hr
    split at hr
    · next ht hch =>
      cases hr
      exact h.outside t .idle (by simp) rfl (fun _ => hch) (fun hgone => ⟨hgone, rfl⟩) rfl rfl
        (fun _ _ => rfl)
        h.counted hkeep
    · next c ht hch =>
      obtain ⟨heap,hdec,hcounted,hsame⟩ := h.decref_ch hch
      simp only [hdec] at hr
      cases hr
      refine h.outside t .idle (by simp) rfl (fun _ => Function.update_self ..)
        (fun hgone => ⟨hgone, rfl⟩) rfl rfl
        (fun u hu => Function.update_of_ne hu _ _) hcounted fun d x hx => ?_
      obtain ⟨y,hy,heq⟩ := hsame d x hx
      exact ⟨y, hy, fun hdead => heq.trans hdead⟩
    · cases hr
  | die c =>
    obtain ⟨x,hx,rfl⟩ := Option.map_eq_some_iff.mp hr
    exact h.die hx
  | destroy =>
    simp only [exec] at hr
    split_ifs at hr with hidle
    split at hr
    · next hc =>
      cases hr
      refine ⟨h.counted, h.dead, h.stage, h.idle, fun _ => ⟨hc, hidle.1⟩⟩
    · next c hc =>
      obtain ⟨heap,heq,hok⟩ := fine_destroy h hidle.1 hc
      rw [heq] at hr
      cases hr
      exact hok

omit [DecidableEq θ] in
theorem ok_init : (init θ).Ok where
  counted := ⟨fun _ _ hx => (by cases hx), fun c _ => by simp [init, refs, one]⟩
  dead := fun _ _ hx => by cases hx
  stage := fun _ _ ht => by cases ht
  idle := fun _ _ => rfl
  gone := fun hgone => by cases hgone

/-- In every run no pointer is used that is null or whose connection is gone, and no count falls
below zero. A connection has as many references as there are pointers to it, `chan_` and the `ch`
of the calls; none is left without a pointer, and none at all after `~rpcc`. -/
theorem client_refs_exact (acts : List (Act θ)) (r : Except Fault (Client θ))
    (hrun : run step (.ok (init θ)) acts = some r) :
    ∃ s, r = .ok s ∧ (∀ c x, s.heap c = some x → x.refno = refs s.chan s.ch c) ∧
      (∀ c, (s.heap c).isSome = true ↔ s.chan = some c ∨ ∃ t, s.ch t = some c) ∧
      (s.destroyed = true → ∀ c, s.heap c = none) := by
  have hfine : Fine r := by
    have hinit : Fine (.ok (init θ)) := ok_init
    refine run_invariant step Fine (fun r a r' hr hs => ?_) _ r acts hinit hrun
    cases r with
    | error f => exact hr.elim
    | ok s => exact fine_exec hr a r' hs
  cases r with
  | error f => exact hfine.elim
  | ok s =>
    have h : s.Ok := hfine
    have hnone {c : ConnId} (hc : s.chan ≠ some c) (hch : ∀ t, s.ch t ≠ some c) :
        s.heap c = none := by
      cases hx : s.heap c with
      | none => rfl
      | some x =>
        have hpos := (h.counted.live c x hx).2
        have hzero : refs s.chan s.ch c = 0 := by
          rw [refs, one, if_neg hc, Nat.zero_add]
          exact Finset.sum_eq_zero fun t _ => if_neg (hch t)
        exact absurd hzero hpos.ne'
    refine ⟨s, rfl, fun c x hx => (h.counted.live c x hx).1, fun c => ⟨fun hx => ?_, fun hc => ?_⟩,
      fun hgone c => ?_⟩
    · by_contra hnot
      rw [not_or, not_exists] at hnot
      rw [hnone hnot.1 hnot.2] at hx
      cases hx
    · have hpos : 0 < refs s.chan s.ch c := by
        rcases hc with hc | ⟨t,ht⟩
        · rw [hc]
          exact refs_pos_of_chan s.ch c
        · exact refs_pos_of_ch s.chan ht
      obtain ⟨x,hx⟩ := h.counted.exists_of_pos hpos
      rw [hx]
      rfl
    · obtain ⟨hchan,hidle⟩ := h.gone hgone
      refine hnone (by rw [hchan]; simp) fun t => ?_
      rw [h.idle t (hidle t)]
      simp

end Client

/-- Two calls share a connection that dies; the second one connects again, and the old connection
goes with the first call. -/
def reconnect : List (Act Bool) :=
  [.begin true, .lock true, .refconn true none, .refconn true (some 0), .refconn true none,
    .refconn true none, .die 0, .begin false, .lock false, .refconn false none, .refconn false none,
    .refconn false (some 1), .refconn false none, .refconn false none, .use true, .finish true,
    .finish false, .destroy]

theorem client_refs_exact_reconnect :
    ∃ s, run Client.step (.ok (Client.init Bool)) reconnect = some (.ok s) ∧
    ∀ c, s.heap c = none := by
  obtain ⟨r,hr,hgone⟩ : ∃ r, run Client.step (.ok (Client.init Bool)) reconnect = some r ∧
      ∀ s, r = .ok s → s.destroyed = true := ⟨_, rfl, fun s hs => by cases hs; rfl⟩
  obtain ⟨s,rfl,-,-,hnone⟩ := Client.client_refs_exact reconnect r hr
  exact ⟨s, hr, hnone (hgone s rfl)⟩

end
end Yfs.ClientRefs
