import Mathlib.Data.List.Nodup
import Mathlib.Data.List.Count
import Mathlib.Data.Int.Notation
import Mathlib.Logic.Function.Basic
import Mathlib.Tactic.SplitIfs
import Yfs.Run

namespace Yfs.Handle

/-- `clMutex` is held across `bind`: by which handle's `safebind`, and with which new `rpcc`. -/
structure Hinfo (η ν : Type*) where
  cl : Option ℕ
  refcnt : ℤ
  del : Bool
  m : ν
  clMutex : Option (η × ℕ)

/-- A `handle` object; `returned` is what its calls of `safebind` have returned so far. -/
structure Object (η : Type*) where
  id : η
  h : Option ℕ
  returned : List (Option ℕ)
  deriving DecidableEq

/-- `heap` has the records that have been allocated and not deleted, `handles` the live objects.
The `rpcc` objects are numbered as well, and `closed` are those that have been deleted. -/
structure HandleMgr (η ν : Type*) where
  hmap : ν → Option ℕ
  heap : ℕ → Option (Hinfo η ν)
  allocated : ℕ
  handles : List (Object η)
  rpccs : ℕ
  closed : List ℕ

def HandleMgr.init (η ν : Type*) : HandleMgr η ν := ⟨fun _ => none, fun _ => none, 0, [], 0, []⟩

/-- A record is used after its deletion, a mutex is destroyed while it is locked, or an
`rpcc` is deleted twice. -/
inductive Fault
  | dangling
  | locked
  | twice
  deriving DecidableEq

/-- `bound` is the return of the `bind` that a `safebind` has begun. -/
inductive HandleAct (η ν : Type*)
  | construct (x : η) (m : ν)
  | destroy (x : η)
  | safebind (x : η)
  | bound (x : η) (ok : Bool)
  | deleteHandle (m : ν)

section
variable {η ν : Type*} [DecidableEq η] [DecidableEq ν]

namespace HandleMgr

def load (s : HandleMgr η ν) (a : ℕ) : Except Fault (Hinfo η ν) :=
  match s.heap a with
  | none => .error .dangling
  | some h => .ok h

def store (s : HandleMgr η ν) (a : ℕ) (h : Hinfo η ν) : HandleMgr η ν :=
  { s with heap := Function.update s.heap a (some h) }

/-- An entry that is being deleted is refused. -/
def getHandle (s : HandleMgr η ν) (m : ν) : Except Fault (HandleMgr η ν × Option ℕ) :=
  match s.hmap m with
  | none => .ok ({ s with
      hmap := Function.update s.hmap m (some s.allocated)
      heap := Function.update s.heap s.allocated (some ⟨none, 1, false, m, none⟩)
      allocated := s.allocated + 1 }, some s.allocated)
  | some a => (s.load a).map fun h =>
    if h.del = true then (s, none) else (s.store a { h with refcnt := h.refcnt + 1 }, some a)

/-- Without a handle the entry is deleted at once, otherwise it is marked. -/
def deleteHandleWo (s : HandleMgr η ν) (m : ν) : Except Fault (HandleMgr η ν) :=
  match s.hmap m with
  | none => .ok s
  | some a => (s.load a).bind fun h =>
    if h.refcnt = 0 then
      -- `cancel` and the deletion of `cl`, then of the mutex
      if ∃ r ∈ h.cl, r ∈ s.closed then .error .twice
      else if h.clMutex ≠ none then .error .locked
      else .ok { s with
        hmap := Function.update s.hmap m none
        heap := Function.update s.heap a none
        closed := h.cl.toList ++ s.closed }
    else .ok (s.store a { h with del := true })

def doneHandle (s : HandleMgr η ν) (a : ℕ) : Except Fault (HandleMgr η ν) :=
  (s.load a).bind fun h =>
    let s' := s.store a { h with refcnt := h.refcnt - 1 }
    if h.refcnt - 1 = 0 ∧ h.del = true then s'.deleteHandleWo h.m else .ok s'

def find (s : HandleMgr η ν) (x : η) : Option (Object η) := s.handles.find? fun o => o.id = x

/-- A call of `safebind` returns `v`. -/
def ret (s : HandleMgr η ν) (o : Object η) (v : Option ℕ) : HandleMgr η ν :=
  { s with handles := { o with returned := o.returned ++ [v] } :: s.handles.erase o }

def construct (s : HandleMgr η ν) (x : η) (m : ν) : Option (Except Fault (HandleMgr η ν)) :=
  if x ∈ s.handles.map Object.id then none
  else some ((s.getHandle m).map fun r => { r.1 with handles := ⟨x, r.2, []⟩ :: r.1.handles })

/-- A handle is not destroyed during its own `safebind`. -/
def destroy (s : HandleMgr η ν) (x : η) : Option (Except Fault (HandleMgr η ν)) :=
  (s.find x).bind fun o =>
    let s' := { s with handles := s.handles.erase o }
    match o.h with
    | none => some (.ok s')
    | some a =>
      if ∃ h ∈ s.heap a, ∃ r ∈ h.clMutex, r.1 = x then none
      else some (s'.doneHandle a)

/-- Up to the return or to the call of `bind`; the call waits as long as another one has
the mutex. -/
def safebind (s : HandleMgr η ν) (x : η) : Option (Except Fault (HandleMgr η ν)) :=
  (s.find x).bind fun o =>
    match o.h with
    | none => some (.ok (s.ret o none))
    | some a =>
      match s.heap a with
      | none => some (.error .dangling)
      | some h =>
        -- another `safebind` on the node is in its `bind`
        if h.clMutex ≠ none then none
        -- the mark comes first, so a client that is there is not returned any more
        else if h.del = true then some (.ok (s.ret o none))
        else match h.cl with
          | some r => some (.ok (s.ret o (some r)))
          | none =>
            some (.ok { s.store a { h with clMutex := some (x, s.rpccs) } with
              rpccs := s.rpccs + 1 })

/-- A `bind` that fails marks the entry, and what is returned is its `cl`. -/
def bound (s : HandleMgr η ν) (x : η) (ok : Bool) : Option (Except Fault (HandleMgr η ν)) :=
  (s.find x).bind fun o => o.h.bind fun a =>
    match s.heap a with
    | none => some (.error .dangling)
    | some h =>
      h.clMutex.bind fun (y, r) =>
        if y ≠ x then none
        else if ok = true then
          some (.ok ((s.store a { h with cl := some r, clMutex := none }).ret o (some r)))
        else if r ∈ s.closed then some (.error .twice)
        else some (.ok ({ s.store a { h with del := true, clMutex := none } with
          closed := r :: s.closed }.ret o h.cl))

def exec (s : HandleMgr η ν) : HandleAct η ν → Option (Except Fault (HandleMgr η ν))
  | .construct x m => s.construct x m
  | .destroy x => s.destroy x
  | .safebind x => s.safebind x
  | .bound x ok => s.bound x ok
  | .deleteHandle m => some (s.deleteHandleWo m)

def step (s : HandleMgr η ν) (a : HandleAct η ν) : Option (HandleMgr η ν) :=
  (s.exec a).bind Except.toOption

/-- Which live handle points where. -/
def refs (s : HandleMgr η ν) : List (η × Option ℕ) := s.handles.map fun o => (o.id, o.h)

end HandleMgr

variable {s : HandleMgr η ν} {o : Object η}

def pointers (rs : List (η × Option ℕ)) (a : ℕ) : ℕ := rs.countP fun r => r.2 = some a

section
omit [DecidableEq η]

theorem pointers_cons (r : η × Option ℕ) (rs : List (η × Option ℕ)) (a : ℕ) :
    pointers (r :: rs) a = pointers rs a + if r.2 = some a then 1 else 0 := by
  simp only [pointers, List.countP_cons, decide_eq_true_eq]

theorem pointers_pos {rs : List (η × Option ℕ)} {x : η} {a : ℕ} (h : (x, some a) ∈ rs) :
    0 < pointers rs a :=
  List.countP_pos_iff.mpr ⟨_,h,by simp⟩

theorem pointers_of_perm {rs rs' : List (η × Option ℕ)} {x : η} {a : ℕ}
    (h : rs.Perm ((x, some a) :: rs')) :
    pointers rs a = pointers rs' a + 1 := by
  rw [pointers, h.countP_eq, ← pointers, pointers_cons, if_pos rfl]

end

/-- A record owns the client that it has, and the one that is being bound. -/
def Hinfo.Owns (h : Hinfo η ν) (r : ℕ) : Prop := h.cl = some r ∨ ∃ x, h.clMutex = some (x, r)

inductive HandleStep (s : HandleMgr η ν) : HandleAct η ν → HandleMgr η ν → Prop
  | create (x : η) (m : ν) (hx : x ∉ s.handles.map Object.id) (hm : s.hmap m = none) :
      HandleStep s (.construct x m) { s with
        hmap := Function.update s.hmap m (some s.allocated)
        heap := Function.update s.heap s.allocated (some ⟨none, 1, false, m, none⟩)
        allocated := s.allocated + 1
        handles := ⟨x, some s.allocated, []⟩ :: s.handles }
  | share (x : η) (m : ν) (a : ℕ) (h : Hinfo η ν) (hx : x ∉ s.handles.map Object.id)
      (hm : s.hmap m = some a) (ha : s.heap a = some h) (hdel : h.del = false) :
      HandleStep s (.construct x m) { s.store a { h with refcnt := h.refcnt + 1 } with
        handles := ⟨x, some a, []⟩ :: s.handles }
  | refuse (x : η) (m : ν) (a : ℕ) (h : Hinfo η ν) (hx : x ∉ s.handles.map Object.id)
      (hm : s.hmap m = some a) (ha : s.heap a = some h) (hdel : h.del = true) :
      HandleStep s (.construct x m) { s with handles := ⟨x, none, []⟩ :: s.handles }
  | leave (o : Object η) (ho : o ∈ s.handles) (hh : o.h = none) :
      HandleStep s (.destroy o.id) { s with handles := s.handles.erase o }
  | drop (o : Object η) (a : ℕ) (h : Hinfo η ν) (ho : o ∈ s.handles) (hh : o.h = some a)
      (ha : s.heap a = some h)
      (hidle : ∀ p, h.clMutex = some p → p.1 ≠ o.id) (hkeep : ¬ (h.refcnt - 1 = 0 ∧ h.del = true)) :
      HandleStep s (.destroy o.id) { s.store a { h with refcnt := h.refcnt - 1 } with
        handles := s.handles.erase o }
  | last (o : Object η) (a : ℕ) (h : Hinfo η ν) (ho : o ∈ s.handles) (hh : o.h = some a)
      (ha : s.heap a = some h) (hone : h.refcnt = 1) (hdel : h.del = true) :
      HandleStep s (.destroy o.id) { s with
        hmap := Function.update s.hmap h.m none
        heap := Function.update s.heap a none
        handles := s.handles.erase o
        closed := h.cl.toList ++ s.closed }
  | null (o : Object η) (ho : o ∈ s.handles) (hh : o.h = none) :
      HandleStep s (.safebind o.id) (s.ret o none)
  | deleted (o : Object η) (a : ℕ) (h : Hinfo η ν) (ho : o ∈ s.handles) (hh : o.h = some a)
      (ha : s.heap a = some h)
      (hidle : h.clMutex = none) (hdel : h.del = true) :
        HandleStep s (.safebind o.id) (s.ret o none)
  | cached (o : Object η) (a : ℕ) (h : Hinfo η ν) (r : ℕ) (ho : o ∈ s.handles) (hh : o.h = some a)
      (ha : s.heap a = some h)
      (hidle : h.clMutex = none) (hdel : h.del = false) (hcl : h.cl = some r) :
        HandleStep s (.safebind o.id) (s.ret o (some r))
  | bind (o : Object η) (a : ℕ) (h : Hinfo η ν) (ho : o ∈ s.handles) (hh : o.h = some a)
      (ha : s.heap a = some h)
      (hidle : h.clMutex = none) (hdel : h.del = false) (hcl : h.cl = none) :
      HandleStep s (.safebind o.id) { s.store a { h with clMutex := some (o.id, s.rpccs) } with
        rpccs := s.rpccs + 1 }
  | bound (o : Object η) (a : ℕ) (h : Hinfo η ν) (r : ℕ) (ho : o ∈ s.handles) (hh : o.h = some a)
      (ha : s.heap a = some h) (hmx : h.clMutex = some (o.id, r)) :
      HandleStep s (.bound o.id true)
        ((s.store a { h with cl := some r, clMutex := none }).ret o (some r))
  | failed (o : Object η) (a : ℕ) (h : Hinfo η ν) (r : ℕ) (ho : o ∈ s.handles) (hh : o.h = some a)
      (ha : s.heap a = some h) (hmx : h.clMutex = some (o.id, r)) :
      HandleStep s (.bound o.id false)
        ({ s.store a { h with del := true, clMutex := none } with
          closed := r :: s.closed }.ret o h.cl)
  | absent (m : ν) (hm : s.hmap m = none) : HandleStep s (.deleteHandle m) s
  | delete (m : ν) (a : ℕ) (h : Hinfo η ν) (hm : s.hmap m = some a) (ha : s.heap a = some h)
      (hzero : h.refcnt = 0) :
      HandleStep s (.deleteHandle m) { s with
        hmap := Function.update s.hmap m none
        heap := Function.update s.heap a none
        closed := h.cl.toList ++ s.closed }
  | mark (m : ν) (a : ℕ) (h : Hinfo η ν) (hm : s.hmap m = some a) (ha : s.heap a = some h)
      (hpos : h.refcnt ≠ 0) :
      HandleStep s (.deleteHandle m) (s.store a { h with del := true })

/-- The records that exist are the entries of `hmap`. -/
structure Indexed (hmap : ν → Option ℕ) (heap : ℕ → Option (Hinfo η ν)) (n : ℕ) : Prop where
  entry : ∀ a h, heap a = some h → hmap h.m = some a
  mapped : ∀ m a, hmap m = some a → ∃ h, heap a = some h ∧ h.m = m
  fresh : ∀ a h, heap a = some h → a < n

/-- Each record counts the handles that point to it, and is marked only while there is one;
`bind` is called for one of them, before there is a client. -/
structure Counted (heap : ℕ → Option (Hinfo η ν)) (rs : List (η × Option ℕ)) : Prop where
  ids : (rs.map Prod.fst).Nodup
  counts : ∀ a h, heap a = some h → h.refcnt = pointers rs a
  gone : ∀ a, heap a = none → pointers rs a = 0
  marked : ∀ a h, heap a = some h → h.del = true → 0 < h.refcnt
  binds : ∀ a h, heap a = some h → ∀ p, h.clMutex = some p → h.cl = none ∧ (p.1, some a) ∈ rs

/-- Each client has one owner as long as it is not deleted. -/
structure Clients (heap : ℕ → Option (Hinfo η ν)) (n : ℕ) (closed : List ℕ) : Prop where
  own : ∀ a h, heap a = some h → ∀ r, h.Owns r → r < n ∧ r ∉ closed
  apart : ∀ a h, heap a = some h → ∀ b k, heap b = some k → ∀ r, h.Owns r → k.Owns r → a = b
  past : ∀ r ∈ closed, r < n

structure Ok (s : HandleMgr η ν) : Prop where
  indexed : Indexed s.hmap s.heap s.allocated
  counted : Counted s.heap s.refs
  clients : Clients s.heap s.rpccs s.closed

section
omit [DecidableEq ν]

omit [DecidableEq η] in
theorem ok_init : Ok (HandleMgr.init η ν) where
  indexed := ⟨nofun,nofun,nofun⟩
  counted := ⟨List.nodup_nil,nofun,fun _ _ => rfl,nofun,nofun⟩
  clients := ⟨nofun,nofun,nofun⟩

theorem find_some {x : η} (h : s.find x = some o) : o ∈ s.handles ∧ o.id = x :=
  ⟨List.mem_of_find?_eq_some h,by simpa using List.find?_some h⟩

omit [DecidableEq η] in
theorem mem_refs {p : Option ℕ} (ho : o ∈ s.handles) (hh : o.h = p) : (o.id, p) ∈ s.refs :=
  List.mem_map.mpr ⟨o,ho,by rw [hh]⟩

omit [DecidableEq η] in
theorem Ok.pointed (h : Ok s) {a : ℕ} (ho : o ∈ s.handles) (hh : o.h = some a) :
    ∃ k, s.heap a = some k := by
  cases hk : s.heap a with
  | none => exact absurd (h.counted.gone a hk) (Nat.ne_of_gt (pointers_pos (mem_refs ho hh)))
  | some k => exact ⟨k,rfl⟩

end

theorem step_construct (h : Ok s) {x : η} {m : ν} {r : Except Fault (HandleMgr η ν)}
    (hr : s.construct x m = some r) : ∃ s', r = .ok s' ∧ HandleStep s (.construct x m) s' := by
  simp only [HandleMgr.construct, Option.ite_none_left_eq_some, Option.some.injEq] at hr
  obtain ⟨hx,rfl⟩ := hr
  cases hm : s.hmap m with
  | none => exact ⟨_,by simp only [HandleMgr.getHandle, hm, Except.map],.create x m hx hm⟩
  | some a =>
    obtain ⟨k,hk,-⟩ := h.indexed.mapped m a hm
    simp only [HandleMgr.getHandle, hm, HandleMgr.load, hk, Except.map]
    by_cases hdel : k.del = true
    · rw [if_pos hdel]
      exact ⟨_,rfl,.refuse x m a k hx hm hk hdel⟩
    · rw [if_neg hdel]
      exact ⟨_,rfl,.share x m a k hx hm hk (Bool.eq_false_iff.mpr hdel)⟩

omit [DecidableEq η] in
/-- Nobody is in `bind` for a record without handles, and its client has not been deleted. -/
theorem delete_ok {m : ν} {a : ℕ} {k : Hinfo η ν} (hm : s.hmap m = some a) (hk : s.heap a = some k)
    (hzero : k.refcnt = 0) (hopen : ∀ r, k.cl = some r → r ∉ s.closed) (hidle : k.clMutex = none) :
    s.deleteHandleWo m = .ok { s with
      hmap := Function.update s.hmap m none
      heap := Function.update s.heap a none
      closed := k.cl.toList ++ s.closed } := by
  have htwice : ¬ ∃ r ∈ k.cl, r ∈ s.closed := fun ⟨r,hr,hc⟩ => hopen r hr hc
  simp only [HandleMgr.deleteHandleWo, hm, HandleMgr.load, hk, Except.bind, if_pos hzero,
    if_neg htwice, hidle, ne_eq, not_true_eq_false, if_false]

omit [DecidableEq ν] [DecidableEq η] in
theorem Ok.idle_of_zero (h : Ok s) {a : ℕ} {k : Hinfo η ν} (hk : s.heap a = some k)
    (hzero : k.refcnt = 0) :
    k.clMutex = none := by
  refine Option.eq_none_iff_forall_ne_some.mpr fun p hp => ?_
  have hpos := pointers_pos (h.counted.binds a k hk p hp).2
  have := h.counted.counts a k hk
  omega

theorem step_delete (h : Ok s) (m : ν) :
    ∃ s', s.deleteHandleWo m = .ok s' ∧ HandleStep s (.deleteHandle m) s' := by
  cases hm : s.hmap m with
  | none => exact ⟨s,by simp only [HandleMgr.deleteHandleWo, hm],.absent m hm⟩
  | some a =>
    obtain ⟨k,hk,-⟩ := h.indexed.mapped m a hm
    by_cases hzero : k.refcnt = 0
    · have hopen : ∀ r, k.cl = some r → r ∉ s.closed :=
        fun r hr => (h.clients.own a k hk r (.inl hr)).2
      exact ⟨_,delete_ok hm hk hzero hopen (h.idle_of_zero hk hzero),.delete m a k hm hk hzero⟩
    · refine ⟨_,?_,.mark m a k hm hk hzero⟩
      simp only [HandleMgr.deleteHandleWo, hm, HandleMgr.load, hk, Except.bind, if_neg hzero]

/-- With the last handle goes the entry that was marked: nobody is in `bind` for it any more. -/
theorem done_last (h : Ok s) {a : ℕ} {k : Hinfo η ν} (ho : o ∈ s.handles)
    (hh : o.h = some a) (hk : s.heap a = some k) (hidle : k.clMutex = none)
    (hone : k.refcnt - 1 = 0) (hdel : k.del = true) :
    ∃ s', { s with handles := s.handles.erase o }.doneHandle a = .ok s' ∧ HandleStep s
    (.destroy o.id) s' := by
  let t := ({ s with handles := s.handles.erase o } : HandleMgr η ν).store a { k with
    refcnt := k.refcnt - 1 }
  have hopen : ∀ r, k.cl = some r → r ∉ s.closed := fun r hr => (h.clients.own a k hk r (.inl hr)).2
  have hdone : { s with handles := s.handles.erase o }.doneHandle a = t.deleteHandleWo k.m := by
    simp only [HandleMgr.doneHandle, HandleMgr.load, hk, Except.bind]
    rw [if_pos ⟨hone,hdel⟩]
  have hdelete :=
    delete_ok (s := t) (h.indexed.entry a k hk) (Function.update_self ..) hone hopen hidle
  refine ⟨_,hdone.trans hdelete,?_⟩
  simp only [t, HandleMgr.store, Function.update_idem]
  exact .last o a k ho hh hk (by omega) hdel

omit [DecidableEq ν] in
/-- The last handle of a record is not in its own `safebind`, and there is no other. -/
theorem Ok.idle_of_one (h : Ok s) {a : ℕ} {k : Hinfo η ν} (ho : o ∈ s.handles)
    (hh : o.h = some a) (hk : s.heap a = some k) (hidle : ∀ p, k.clMutex = some p → p.1 ≠ o.id)
    (hone : k.refcnt - 1 = 0) :
    k.clMutex = none := by
  refine Option.eq_none_iff_forall_ne_some.mpr fun p hp => ?_
  have hmem := (h.counted.binds a k hk p hp).2
  have hcount := h.counted.counts a k hk
  -- two different handles on a record with one
  have hrs := List.perm_cons_erase (mem_refs ho hh)
  have hother : (p.1, some a) ∈ s.refs.erase (o.id, some a) := by
    rcases List.mem_cons.mp (hrs.mem_iff.mp hmem) with heq | hmem
    · exact absurd (congrArg Prod.fst heq) (hidle p hp)
    · exact hmem
  have hpos := pointers_pos hother
  have htwo := pointers_of_perm hrs
  omega

theorem step_destroy (h : Ok s) {x : η} {r : Except Fault (HandleMgr η ν)}
    (hr : s.destroy x = some r) : ∃ s', r = .ok s' ∧ HandleStep s (.destroy x) s' := by
  obtain ⟨o,hfind,hr⟩ := Option.bind_eq_some_iff.mp hr
  obtain ⟨ho,rfl⟩ := find_some hfind
  cases hh : o.h with
  | none =>
    simp only [hh, Option.some.injEq] at hr
    exact ⟨_,hr.symm,.leave o ho hh⟩
  | some a =>
    obtain ⟨k,hk⟩ := h.pointed ho hh
    simp only [hh, Option.ite_none_left_eq_some, Option.some.injEq] at hr
    obtain ⟨hbusy,rfl⟩ := hr
    have hidle : ∀ p, k.clMutex = some p → p.1 ≠ o.id := fun p hp hid => hbusy ⟨k,hk,p,hp,hid⟩
    by_cases hlast : k.refcnt - 1 = 0 ∧ k.del = true
    · exact done_last h ho hh hk (h.idle_of_one ho hh hk hidle hlast.1) hlast.1 hlast.2
    · refine ⟨_,?_,.drop o a k ho hh hk hidle hlast⟩
      simp only [HandleMgr.doneHandle, HandleMgr.load, hk, Except.bind, if_neg hlast]
      rfl

theorem step_safebind (h : Ok s) {x : η} {r : Except Fault (HandleMgr η ν)}
    (hr : s.safebind x = some r) : ∃ s', r = .ok s' ∧ HandleStep s (.safebind x) s' := by
  obtain ⟨o,hfind,hr⟩ := Option.bind_eq_some_iff.mp hr
  obtain ⟨ho,rfl⟩ := find_some hfind
  cases hh : o.h with
  | none =>
    simp only [hh, Option.some.injEq] at hr
    exact ⟨_,hr.symm,.null o ho hh⟩
  | some a =>
    obtain ⟨k,hk⟩ := h.pointed ho hh
    simp only [hh, hk, Option.ite_none_left_eq_some, not_not] at hr
    obtain ⟨hidle,hr⟩ := hr
    split_ifs at hr with hdel
    · exact ⟨_,(Option.some.inj hr).symm,.deleted o a k ho hh hk hidle hdel⟩
    · have hdel := Bool.eq_false_iff.mpr hdel
      cases hcl : k.cl with
      | some c =>
        simp only [hcl, Option.some.injEq] at hr
        exact ⟨_,hr.symm,.cached o a k c ho hh hk hidle hdel hcl⟩
      | none =>
        simp only [hcl, Option.some.injEq] at hr
        refine ⟨_,hr.symm,?_⟩
        have hbind := HandleStep.bind o a k ho hh hk hidle hdel hcl
        simpa only [hcl] using hbind

theorem step_bound (h : Ok s) {x : η} {ok : Bool} {r : Except Fault (HandleMgr η ν)}
    (hr : s.bound x ok = some r) : ∃ s', r = .ok s' ∧ HandleStep s (.bound x ok) s' := by
  obtain ⟨o,hfind,hr⟩ := Option.bind_eq_some_iff.mp hr
  obtain ⟨ho,rfl⟩ := find_some hfind
  obtain ⟨a,hh,hr⟩ := Option.bind_eq_some_iff.mp hr
  obtain ⟨k,hk⟩ := h.pointed ho hh
  simp only [hk] at hr
  obtain ⟨⟨y,c⟩,hmx,hr⟩ := Option.bind_eq_some_iff.mp hr
  simp only [Option.ite_none_left_eq_some, ne_eq, not_not] at hr
  obtain ⟨rfl,hr⟩ := hr
  cases ok with
  | true => exact ⟨_,(Option.some.inj hr).symm,.bound o a k c ho hh hk hmx⟩
  | false =>
    have hopen := (h.clients.own a k hk c (.inr ⟨_,hmx⟩)).2
    simp only [Bool.false_eq_true, if_false, if_neg hopen, Option.some.injEq] at hr
    exact ⟨_,hr.symm,.failed o a k c ho hh hk hmx⟩

theorem handleStep_of_exec (h : Ok s) {a : HandleAct η ν} {r : Except Fault (HandleMgr η ν)}
    (hr : s.exec a = some r) : ∃ s', r = .ok s' ∧ HandleStep s a s' := by
  cases a with
  | construct x m => exact step_construct h hr
  | destroy x => exact step_destroy h hr
  | safebind x => exact step_safebind h hr
  | bound x ok => exact step_bound h hr
  | deleteHandle m =>
    cases hr
    exact step_delete h m

section
variable {hmap : ν → Option ℕ} {heap : ℕ → Option (Hinfo η ν)} {n a : ℕ} {k k' : Hinfo η ν}

section
omit [DecidableEq η]

omit [DecidableEq ν] in
theorem Indexed.store (h : Indexed hmap heap n) (ha : heap a = some k) (hm : k'.m = k.m) :
    Indexed hmap (Function.update heap a (some k')) n where
  entry := forall_update_some (P := fun c (d : Hinfo η ν) => hmap d.m = some c)
    (hm ▸ h.entry a k ha) h.entry
  mapped m c hc := by
    obtain ⟨d,hd,hdm⟩ := h.mapped m c hc
    by_cases hca : c = a
    · subst hca
      rw [ha] at hd
      cases hd
      exact ⟨k',Function.update_self ..,hm.trans hdm⟩
    · exact ⟨d,(Function.update_of_ne hca ..).trans hd,hdm⟩
  fresh := forall_update_some (P := fun c _ => c < n) (h.fresh a k ha) h.fresh

theorem Indexed.insert (h : Indexed hmap heap n) (hm : hmap k.m = none) :
    Indexed (Function.update hmap k.m (some n)) (Function.update heap n (some k)) (n + 1) where
  entry := by
    refine forall_update_some (P := fun c (d : Hinfo η ν) => Function.update hmap k.m (some n) d.m =
      some c) (Function.update_self ..) ?_
    intro c d hd
    have hentry := h.entry c d hd
    have hne : d.m ≠ k.m := fun he => nomatch (he ▸ hm).symm.trans hentry
    rw [Function.update_of_ne hne]
    exact hentry
  mapped m c hc := by
    by_cases hmk : m = k.m
    · subst hmk
      rw [Function.update_self] at hc
      cases hc
      exact ⟨k,Function.update_self ..,rfl⟩
    · rw [Function.update_of_ne hmk] at hc
      obtain ⟨d,hd,hdm⟩ := h.mapped m c hc
      exact ⟨d,(Function.update_of_ne (Nat.ne_of_lt (h.fresh c d hd)) ..).trans hd,hdm⟩
  fresh := forall_update_some (P := fun c _ => c < n + 1) (Nat.lt_succ_self n) fun c d hd =>
    Nat.lt_succ_of_lt (h.fresh c d hd)

theorem Indexed.erase (h : Indexed hmap heap n) (ha : heap a = some k) :
    Indexed (Function.update hmap k.m none) (Function.update heap a none) n where
  entry := by
    refine forall_update_ne (P := fun c (d : Hinfo η ν) => Function.update hmap k.m none d.m =
      some c) nofun ?_
    intro c d hca hd
    have hentry := h.entry c d hd
    -- an entry has one name
    have hne : d.m ≠ k.m := by
      intro he
      rw [he, h.entry a k ha] at hentry
      exact hca (Option.some.inj hentry).symm
    rw [Function.update_of_ne hne]
    exact hentry
  mapped m c hc := by
    by_cases hmk : m = k.m
    · rw [hmk, Function.update_self] at hc
      exact nomatch hc
    · rw [Function.update_of_ne hmk] at hc
      obtain ⟨d,hd,hdm⟩ := h.mapped m c hc
      have hca : c ≠ a := by
        rintro rfl
        rw [ha] at hd
        cases hd
        exact hmk hdm.symm
      exact ⟨d,(Function.update_of_ne hca ..).trans hd,hdm⟩
  fresh := forall_update (P := fun c _ => c < n) nofun h.fresh

end

/-- Only the handles on `a` have changed. -/
structure Elsewhere (a : ℕ) (rs rs' : List (η × Option ℕ)) : Prop where
  counts : ∀ b, b ≠ a → pointers rs' b = pointers rs b
  mem : ∀ b, b ≠ a → ∀ x, (x, some b) ∈ rs → (x, some b) ∈ rs'

variable {rs rs' : List (η × Option ℕ)}

section
omit [DecidableEq η]

theorem elsewhere_perm (h : rs.Perm rs') : Elsewhere a rs rs' :=
  ⟨fun _ _ => (h.countP_eq _).symm,fun _ _ _ hx => h.mem_iff.mp hx⟩

theorem elsewhere_cons (x : η) : Elsewhere a rs ((x, some a) :: rs) := by
  refine ⟨fun b hb => ?_,fun b hb y hy => List.mem_cons_of_mem _ hy⟩
  have hne : ¬ (some a = some b) := fun he => hb (Option.some.inj he).symm
  rw [pointers_cons, if_neg hne, Nat.add_zero]

theorem elsewhere_tail {x : η} (h : rs.Perm ((x, some a) :: rs')) : Elsewhere a rs rs' := by
  refine ⟨fun b hb => ?_,fun b hb y hy => ?_⟩
  · rw [pointers, pointers, h.countP_eq]
    exact ((elsewhere_cons x).counts b hb).symm
  · refine (List.mem_cons.mp (h.mem_iff.mp hy)).resolve_left fun he => hb ?_
    exact Option.some.inj (congrArg Prod.snd he)

omit [DecidableEq ν] in
/-- One record changes or is deleted, with the handles on it. -/
theorem Counted.update (h : Counted heap rs) (he : Elsewhere a rs rs')
    (hids : (rs'.map Prod.fst).Nodup) (x : Option (Hinfo η ν))
    (hnew : ∀ d, x = some d → d.refcnt = pointers rs' a ∧ (d.del = true → 0 < d.refcnt) ∧
      ∀ p, d.clMutex = some p → d.cl = none ∧ (p.1, some a) ∈ rs')
      (hgone : x = none → pointers rs' a = 0) :
    Counted (Function.update heap a x) rs' where
  ids := hids
  counts := by
    refine forall_update_ne (P := fun c (d : Hinfo η ν) => d.refcnt = pointers rs' c)
      (fun d hd => (hnew d hd).1) ?_
    intro c d hca hd
    rw [he.counts c hca]
    exact h.counts c d hd
  gone c hc := by
    by_cases hca : c = a
    · subst hca
      rw [Function.update_self] at hc
      exact hgone hc
    · rw [Function.update_of_ne hca] at hc
      rw [he.counts c hca]
      exact h.gone c hc
  marked := forall_update (P := fun _ (d : Hinfo η ν) => d.del = true → 0 < d.refcnt)
    (fun d hd => (hnew d hd).2.1) h.marked
  binds := by
    refine forall_update_ne (P := fun c (d : Hinfo η ν) => ∀ p, d.clMutex = some p → d.cl = none ∧
      (p.1, some c) ∈ rs')
      (fun d hd => (hnew d hd).2.2) ?_
    intro c d hca hd p hp
    obtain ⟨hcl,hmem⟩ := h.binds c d hd p hp
    exact ⟨hcl,he.mem c hca p.1 hmem⟩

omit [DecidableEq ν] in
theorem Counted.store (h : Counted heap rs) (he : Elsewhere a rs rs')
    (hids : (rs'.map Prod.fst).Nodup)
    (hc : k'.refcnt = pointers rs' a) (hmark : k'.del = true → 0 < k'.refcnt)
    (hbind : ∀ p, k'.clMutex = some p → k'.cl = none ∧ (p.1, some a) ∈ rs') :
    Counted (Function.update heap a (some k')) rs' := by
  refine h.update he hids (some k') ?_ nofun
  rintro d ⟨rfl⟩
  exact ⟨hc,hmark,hbind⟩

omit [DecidableEq ν] in
theorem Counted.free (h : Counted heap rs) (he : Elsewhere a rs rs')
    (hids : (rs'.map Prod.fst).Nodup)
    (hc : pointers rs' a = 0) : Counted (Function.update heap a none) rs' :=
  h.update he hids none nofun fun _ => hc

omit [DecidableEq ν] in
theorem Counted.perm (h : Counted heap rs) (hp : rs.Perm rs') : Counted heap rs' where
  ids := (hp.map Prod.fst).nodup_iff.mp h.ids
  counts b k hk := (h.counts b k hk).trans (congrArg _ (hp.countP_eq _))
  gone b hb := (hp.countP_eq _).symm.trans (h.gone b hb)
  marked := h.marked
  binds b k hk p hmx := ⟨(h.binds b k hk p hmx).1,hp.mem_iff.mp (h.binds b k hk p hmx).2⟩

omit [DecidableEq ν] in
theorem Counted.cons_none (h : Counted heap rs) {x : η} (hx : x ∉ rs.map Prod.fst) :
    Counted heap ((x, none) :: rs) where
  ids := List.nodup_cons.mpr ⟨hx,h.ids⟩
  counts b k hk := by
    rw [pointers_cons, if_neg nofun, Nat.add_zero]
    exact h.counts b k hk
  gone b hb := by
    rw [pointers_cons, if_neg nofun, Nat.add_zero]
    exact h.gone b hb
  marked := h.marked
  binds b k hk p hp := ⟨(h.binds b k hk p hp).1,List.mem_cons_of_mem _ (h.binds b k hk p hp).2⟩

omit [DecidableEq ν] in
theorem Counted.tail_none {x : η} (h : Counted heap ((x, none) :: rs)) : Counted heap rs where
  ids := (List.nodup_cons.mp h.ids).2
  counts b k hk := by
    have hcount := h.counts b k hk
    rwa [pointers_cons, if_neg nofun, Nat.add_zero] at hcount
  gone b hb := by
    have hcount := h.gone b hb
    rwa [pointers_cons, if_neg nofun, Nat.add_zero] at hcount
  marked := h.marked
  binds b k hk p hp := by
    obtain ⟨hcl,hmem⟩ := h.binds b k hk p hp
    exact ⟨hcl,(List.mem_cons.mp hmem).resolve_left fun he => nomatch congrArg Prod.snd he⟩

end

variable {n' : ℕ} {closed : List ℕ}

omit [DecidableEq η] [DecidableEq ν] in
/-- A record keeps the clients that it has, or gets a new one. -/
theorem Clients.store (h : Clients heap n closed) (hn : n ≤ n')
    (hown : ∀ r, k'.Owns r → (∃ k, heap a = some k ∧ k.Owns r) ∨ n ≤ r ∧ r < n') :
    Clients (Function.update heap a (some k')) n' closed := by
  have hpast : ∀ r ∈ closed, r < n' := fun r hr => Nat.lt_of_lt_of_le (h.past r hr) hn
  have hnew : ∀ r, k'.Owns r → r < n' ∧ r ∉ closed := by
    intro r hr
    rcases hown r hr with ⟨k,hk,hkr⟩ | ⟨hge,hlt⟩
    · exact ⟨Nat.lt_of_lt_of_le (h.own a k hk r hkr).1 hn,(h.own a k hk r hkr).2⟩
    · exact ⟨hlt,fun hr => Nat.not_lt.mpr hge (h.past r hr)⟩
  -- nobody else has a client of `k'`
  have halone : ∀ c d, heap c = some d → ∀ r, k'.Owns r → d.Owns r → a = c := by
    intro c d hd r hr hdr
    rcases hown r hr with ⟨k,hk,hkr⟩ | ⟨hge,-⟩
    · exact h.apart a k hk c d hd r hkr hdr
    · exact absurd (h.own c d hd r hdr).1 (Nat.not_lt.mpr hge)
  refine ⟨?_,?_,hpast⟩
  · refine forall_update_some (P := fun _ (d : Hinfo η ν) => ∀ r, d.Owns r → r < n' ∧ r ∉ closed)
      hnew ?_
    intro c d hd r hr
    exact ⟨Nat.lt_of_lt_of_le (h.own c d hd r hr).1 hn,(h.own c d hd r hr).2⟩
  · refine forall_update_some (P := fun c (d : Hinfo η ν) =>
      ∀ b e, Function.update heap a (some k') b = some e → ∀ r, d.Owns r → e.Owns r → c = b) ?_ ?_
    · exact forall_update_some (P := fun b (e : Hinfo η ν) => ∀ r, k'.Owns r → e.Owns r → a = b)
        (fun _ _ _ => rfl) halone
    · intro c d hd
      refine forall_update_some (P := fun b (e : Hinfo η ν) => ∀ r, d.Owns r → e.Owns r → c = b) ?_
        (h.apart c d hd)
      exact fun r hdr hr => (halone c d hd r hr hdr).symm

omit [DecidableEq η] [DecidableEq ν] in
/-- The clients of a record are deleted, and the record goes or has none afterwards. -/
theorem Clients.close (h : Clients heap n closed) (ha : heap a = some k) (x : Option (Hinfo η ν))
    (hx : ∀ k', x = some k' → ∀ r, ¬ k'.Owns r) (cs : List ℕ) (hcs : ∀ r ∈ cs, k.Owns r) :
    Clients (Function.update heap a x) n (cs ++ closed) := by
  refine ⟨?_,?_,?_⟩
  · refine forall_update_ne (P := fun _ (d : Hinfo η ν) => ∀ r, d.Owns r → r < n ∧ r ∉ cs ++ closed)
      (fun k' hk' r hr => absurd hr (hx k' hk' r)) ?_
    intro c d hca hd r hr
    obtain ⟨hlt,hopen⟩ := h.own c d hd r hr
    refine ⟨hlt,fun hmem => ?_⟩
    rcases List.mem_append.mp hmem with hmem | hmem
    · exact hca (h.apart a k ha c d hd r (hcs r hmem) hr).symm
    · exact hopen hmem
  · refine forall_update (P := fun c (d : Hinfo η ν) =>
      ∀ b e, Function.update heap a x b = some e → ∀ r, d.Owns r → e.Owns r → c = b)
      (fun k' hk' _ _ _ r hr => absurd hr (hx k' hk' r)) ?_
    intro c d hd
    exact forall_update (P := fun b (e : Hinfo η ν) => ∀ r, d.Owns r → e.Owns r → c = b)
      (fun k' hk' r _ hr => absurd hr (hx k' hk' r)) (h.apart c d hd)
  · intro r hr
    rcases List.mem_append.mp hr with hr | hr
    · exact (h.own a k ha r (hcs r hr)).1
    · exact h.past r hr

end

section
omit [DecidableEq ν]

theorem refs_erase (ho : o ∈ s.handles) :
    s.refs.Perm ((o.id, o.h) :: (s.handles.erase o).map fun o => (o.id, o.h)) :=
  (List.perm_cons_erase ho).map _

theorem refs_ret (ho : o ∈ s.handles) (v : Option ℕ) : s.refs.Perm (s.ret o v).refs :=
  refs_erase ho

omit [DecidableEq η] in
theorem not_mem_refs {x : η} (hx : x ∉ s.handles.map Object.id) : x ∉ s.refs.map Prod.fst := by
  rw [HandleMgr.refs, List.map_map]
  exact hx

theorem Ok.ret (h : Ok s) (ho : o ∈ s.handles) (v : Option ℕ) : Ok (s.ret o v) :=
  ⟨h.indexed,h.counted.perm (refs_ret ho v),h.clients⟩

omit [DecidableEq η] in
/-- One record changes, with no handle coming or going. -/
theorem Counted.change {heap : ℕ → Option (Hinfo η ν)} {rs : List (η × Option ℕ)} {a : ℕ}
    {k k' : Hinfo η ν} (h : Counted heap rs)
    (ha : heap a = some k) (hc : k'.refcnt = k.refcnt) (hmark : k'.del = true → 0 < k'.refcnt)
    (hbind : ∀ p, k'.clMutex = some p → k'.cl = none ∧ (p.1, some a) ∈ rs) :
    Counted (Function.update heap a (some k')) rs :=
  h.store (elsewhere_perm (List.Perm.refl rs)) h.ids (hc.trans (h.counts a k ha)) hmark hbind

/-- What the handles on a record were before one of them goes. -/
theorem Ok.without (h : Ok s) {a : ℕ} (ho : o ∈ s.handles) (hh : o.h = some a) :
    Elsewhere a s.refs ((s.handles.erase o).map fun o => (o.id, o.h)) ∧
    (((s.handles.erase o).map fun o => (o.id, o.h)).map Prod.fst).Nodup ∧
    pointers s.refs a = pointers ((s.handles.erase o).map fun o => (o.id, o.h)) a + 1 := by
  have hperm := refs_erase ho
  rw [hh] at hperm
  refine ⟨elsewhere_tail hperm,?_,pointers_of_perm hperm⟩
  exact (List.nodup_cons.mp ((hperm.map Prod.fst).nodup_iff.mp h.counted.ids)).2

end

omit [DecidableEq η] in
theorem ok_create (h : Ok s) (x : η) (m : ν) (hx : x ∉ s.handles.map Object.id)
    (hm : s.hmap m = none) :
    Ok { s with
      hmap := Function.update s.hmap m (some s.allocated)
      heap := Function.update s.heap s.allocated (some ⟨none, 1, false, m, none⟩)
      allocated := s.allocated + 1
      handles := ⟨x, some s.allocated, []⟩ :: s.handles } := by
  have hunused : s.heap s.allocated = none :=
    Option.eq_none_iff_forall_ne_some.mpr fun k hk => Nat.lt_irrefl _ (h.indexed.fresh _ k hk)
  have hone : pointers ((x, some s.allocated) :: s.refs) s.allocated = 1 := by
    rw [pointers_cons, if_pos rfl, h.counted.gone _ hunused]
  refine ⟨h.indexed.insert (k := ⟨none, 1, false, m, none⟩) hm,?_,
    h.clients.store (Nat.le_refl _) ?_⟩
  · exact h.counted.store (elsewhere_cons x) (List.nodup_cons.mpr ⟨not_mem_refs hx,h.counted.ids⟩)
      (congrArg Nat.cast hone).symm nofun nofun
  · rintro r (hr | ⟨y,hr⟩) <;> exact nomatch hr

omit [DecidableEq η] [DecidableEq ν] in
theorem ok_share (h : Ok s) (x : η) {a : ℕ} {k : Hinfo η ν} (hx : x ∉ s.handles.map Object.id)
    (hk : s.heap a = some k) (hdel : k.del = false) :
    Ok { s.store a { k with refcnt := k.refcnt + 1 } with
    handles := ⟨x, some a, []⟩ :: s.handles } := by
  have hcount : k.refcnt + 1 = pointers ((x, some a) :: s.refs) a := by
    rw [pointers_cons, if_pos rfl, h.counted.counts a k hk]
    rfl
  refine ⟨h.indexed.store hk rfl,?_,h.clients.store (Nat.le_refl _) fun r hr => .inl ⟨k,hk,hr⟩⟩
  refine h.counted.store (elsewhere_cons x) (List.nodup_cons.mpr ⟨not_mem_refs hx,h.counted.ids⟩)
    hcount ?_ fun p hp => ?_
  · intro hmark
    exact nomatch hdel.symm.trans hmark
  · obtain ⟨hcl,hmem⟩ := h.counted.binds a k hk p hp
    exact ⟨hcl,List.mem_cons_of_mem _ hmem⟩

omit [DecidableEq ν] in
theorem ok_drop (h : Ok s) {a : ℕ} {k : Hinfo η ν} (ho : o ∈ s.handles)
    (hh : o.h = some a) (hk : s.heap a = some k) (hidle : ∀ p, k.clMutex = some p → p.1 ≠ o.id)
    (hkeep : ¬ (k.refcnt - 1 = 0 ∧ k.del = true)) :
    Ok { s.store a { k with refcnt := k.refcnt - 1 } with handles := s.handles.erase o } := by
  obtain ⟨helse,hids,hcount⟩ := h.without ho hh
  have hrefs : k.refcnt - 1 = pointers ((s.handles.erase o).map fun o => (o.id, o.h)) a := by
    have := h.counted.counts a k hk
    omega
  refine ⟨h.indexed.store hk rfl,?_,h.clients.store (Nat.le_refl _) fun r hr => .inl ⟨k,hk,hr⟩⟩
  refine h.counted.store helse hids hrefs (fun hmark => ?_) fun p hp => ?_
  · have hpos := h.counted.marked a k hk hmark
    have hne : k.refcnt - 1 ≠ 0 := fun hzero => hkeep ⟨hzero,hmark⟩
    simp only
    omega
  · obtain ⟨hcl,hmem⟩ := h.counted.binds a k hk p hp
    refine ⟨hcl,(List.mem_cons.mp ((refs_erase ho).mem_iff.mp hmem)).resolve_left fun he => ?_⟩
    exact hidle p hp (congrArg Prod.fst he)

theorem ok_last (h : Ok s) {a : ℕ} {k : Hinfo η ν} (ho : o ∈ s.handles)
    (hh : o.h = some a) (hk : s.heap a = some k) (hone : k.refcnt = 1) :
    Ok { s with
      hmap := Function.update s.hmap k.m none
      heap := Function.update s.heap a none
      handles := s.handles.erase o
      closed := k.cl.toList ++ s.closed } := by
  obtain ⟨helse,hids,hcount⟩ := h.without ho hh
  have hnone : pointers ((s.handles.erase o).map fun o => (o.id, o.h)) a = 0 := by
    have := h.counted.counts a k hk
    omega
  refine ⟨h.indexed.erase hk,h.counted.free helse hids hnone,
    h.clients.close hk none nofun _ fun r hr => ?_⟩
  exact .inl (by simpa using hr)

section
omit [DecidableEq η]

theorem ok_delete (h : Ok s) {m : ν} {a : ℕ} {k : Hinfo η ν} (hm : s.hmap m = some a)
    (hk : s.heap a = some k) (hzero : k.refcnt = 0) :
    Ok { s with
      hmap := Function.update s.hmap m none
      heap := Function.update s.heap a none
      closed := k.cl.toList ++ s.closed } := by
  obtain ⟨k',hk',rfl⟩ := h.indexed.mapped m a hm
  rw [hk] at hk'
  cases hk'
  have hnone : pointers s.refs a = 0 := by
    have := h.counted.counts a k hk
    omega
  refine ⟨h.indexed.erase hk,?_,h.clients.close hk none nofun _ fun r hr =>
    .inl (by simpa using hr)⟩
  exact h.counted.free (elsewhere_perm (List.Perm.refl _)) h.counted.ids hnone

omit [DecidableEq ν] in
theorem ok_mark (h : Ok s) {a : ℕ} {k : Hinfo η ν} (hk : s.heap a = some k) (hpos : k.refcnt ≠ 0) :
    Ok (s.store a { k with del := true }) := by
  have hrefs := h.counted.counts a k hk
  refine ⟨h.indexed.store hk rfl,?_,h.clients.store (Nat.le_refl _) fun r hr => .inl ⟨k,hk,hr⟩⟩
  refine h.counted.change hk rfl (fun _ => ?_) (h.counted.binds a k hk)
  simp only
  omega

omit [DecidableEq ν] in
theorem ok_bind (h : Ok s) {a : ℕ} {k : Hinfo η ν} (ho : o ∈ s.handles)
    (hh : o.h = some a) (hk : s.heap a = some k) (hdel : k.del = false) (hcl : k.cl = none) :
    Ok { s.store a { k with clMutex := some (o.id, s.rpccs) } with rpccs := s.rpccs + 1 } := by
  refine ⟨h.indexed.store hk rfl,?_,h.clients.store (Nat.le_succ _) ?_⟩
  · refine h.counted.change hk rfl (fun hmark => nomatch hdel.symm.trans hmark) fun p hp => ?_
    cases hp
    exact ⟨hcl,mem_refs ho hh⟩
  · rintro r (hr | ⟨x,hr⟩)
    · exact .inl ⟨k,hk,.inl hr⟩
    · cases hr
      exact .inr ⟨Nat.le_refl _,Nat.lt_succ_self _⟩

omit [DecidableEq ν] in
theorem ok_bound (h : Ok s) {a : ℕ} {k : Hinfo η ν} {r : ℕ} (hk : s.heap a = some k)
    (hmx : k.clMutex = some (o.id, r)) :
    Ok (s.store a { k with cl := some r, clMutex := none }) := by
  refine ⟨h.indexed.store hk rfl,h.counted.change hk rfl (h.counted.marked a k hk) nofun,?_⟩
  refine h.clients.store (Nat.le_refl _) ?_
  rintro c (hc | ⟨x,hc⟩)
  · cases hc
    exact .inl ⟨k,hk,.inr ⟨_,hmx⟩⟩
  · exact nomatch hc

omit [DecidableEq ν] in
theorem ok_failed (h : Ok s) {a : ℕ} {k : Hinfo η ν} {r : ℕ} (hk : s.heap a = some k)
    (hmx : k.clMutex = some (o.id, r)) :
    Ok { s.store a { k with del := true, clMutex := none } with closed := r :: s.closed } := by
  obtain ⟨hcl,hmem⟩ := h.counted.binds a k hk _ hmx
  have hpos := pointers_pos hmem
  have hrefs := h.counted.counts a k hk
  refine ⟨h.indexed.store hk rfl,h.counted.change hk rfl (fun _ => ?_) nofun,?_⟩
  · simp only
    omega
  · refine h.clients.close hk (some _) ?_ [r] fun c hc => ?_
    · rintro k' ⟨rfl⟩ c (hc | ⟨x,hc⟩)
      · exact nomatch hcl.symm.trans hc
      · exact nomatch hc
    · cases List.mem_singleton.mp hc
      exact .inr ⟨_,hmx⟩

end

theorem ok_handleStep {s s' : HandleMgr η ν} {act : HandleAct η ν} (h : Ok s)
    (hs : HandleStep s act s') : Ok s' := by
  cases hs with
  | create x m hx hm => exact ok_create h x m hx hm
  | share x m a k hx hm hk hdel => exact ok_share h x hx hk hdel
  | refuse x m a k hx hm hk hdel =>
    exact ⟨h.indexed,h.counted.cons_none (not_mem_refs hx),h.clients⟩
  | leave o ho hh =>
    have hperm := refs_erase ho
    rw [hh] at hperm
    exact ⟨h.indexed,(h.counted.perm hperm).tail_none,h.clients⟩
  | drop o a k ho hh hk hidle hkeep => exact ok_drop h ho hh hk hidle hkeep
  | last o a k ho hh hk hone hdel => exact ok_last h ho hh hk hone
  | null o ho hh => exact h.ret ho none
  | deleted o a k ho hh hk hidle hdel => exact h.ret ho none
  | cached o a k r ho hh hk hidle hdel hcl => exact h.ret ho (some r)
  | bind o a k ho hh hk hidle hdel hcl => exact ok_bind h ho hh hk hdel hcl
  | bound o a k r ho hh hk hmx => exact (ok_bound h hk hmx).ret ho (some r)
  | failed o a k r ho hh hk hmx => exact (ok_failed h hk hmx).ret ho k.cl
  | absent m hm => exact h
  | delete m a k hm hk hzero => exact ok_delete h hm hk hzero
  | mark m a k hm hk hpos => exact ok_mark h hk hpos

theorem handleStep_of_step {s s' : HandleMgr η ν} {a : HandleAct η ν} (h : Ok s)
    (hs : s.step a = some s') :
    HandleStep s a s' := by
  obtain ⟨r,hr,hrs⟩ := Option.bind_eq_some_iff.mp hs
  obtain ⟨t,rfl,ht⟩ := handleStep_of_exec h hr
  exact Option.some.inj hrs ▸ ht

theorem ok_run {s s' : HandleMgr η ν} {as : List (HandleAct η ν)} (h : Ok s)
    (hr : run HandleMgr.step s as = some s') : Ok s' :=
  run_invariant HandleMgr.step Ok
    (fun _ _ _ hok hs => ok_handleStep hok (handleStep_of_step hok hs)) s s' as h hr

/-- A record keeps its name and its mark for as long as it exists, and its address is not used
again. -/
structure Later (s s' : HandleMgr η ν) : Prop where
  le : s.allocated ≤ s'.allocated
  kept : ∀ b k', s'.heap b = some k' → b < s.allocated → ∃ k, s.heap b = some k ∧ k'.m = k.m ∧
    (k.del = true → k'.del = true)

omit [DecidableEq η] [DecidableEq ν] in
theorem Later.store {s t : HandleMgr η ν} (h : Later s t) {a : ℕ} {k : Hinfo η ν}
    (ha : t.heap a = some k) (k' : Hinfo η ν) (hm : k'.m = k.m)
    (hdel : k.del = true → k'.del = true) : Later s (t.store a k') := by
  refine ⟨h.le,forall_update_some (P := fun b (k' : Hinfo η ν) => b < s.allocated →
    ∃ k, s.heap b = some k ∧ k'.m = k.m ∧ (k.del = true → k'.del = true)) (fun hlt => ?_) h.kept⟩
  obtain ⟨k₀,hk₀,hm₀,hdel₀⟩ := h.kept a k ha hlt
  exact ⟨k₀,hk₀,hm.trans hm₀,fun hd => hdel (hdel₀ hd)⟩

theorem later_step {s t t' : HandleMgr η ν} {act : HandleAct η ν} (h : Later s t)
    (hs : HandleStep t act t') : Later s t' := by
  cases hs with
  | create x m hx hm =>
    refine ⟨Nat.le_succ_of_le h.le,?_⟩
    refine forall_update_some (P := fun b (k' : Hinfo η ν) => b < s.allocated →
      ∃ k, s.heap b = some k ∧ k'.m = k.m ∧ (k.del = true → k'.del = true)) (fun hlt => ?_) h.kept
    exact absurd hlt (Nat.not_lt.mpr h.le)
  | share x m a k hx hm hk hdel =>
    have hstore := h.store hk { k with refcnt := k.refcnt + 1 } rfl id
    exact ⟨hstore.le,hstore.kept⟩
  | drop o a k ho hh hk hidle hkeep =>
    have hstore := h.store hk { k with refcnt := k.refcnt - 1 } rfl id
    exact ⟨hstore.le,hstore.kept⟩
  | bind o a k ho hh hk hidle hdel hcl =>
    have hstore := h.store hk { k with clMutex := some (o.id, t.rpccs) } rfl id
    exact ⟨hstore.le,hstore.kept⟩
  | bound o a k r ho hh hk hmx =>
    have hstore := h.store hk { k with cl := some r, clMutex := none } rfl id
    exact ⟨hstore.le,hstore.kept⟩
  | failed o a k r ho hh hk hmx =>
    have hstore := h.store hk { k with del := true, clMutex := none } rfl fun _ => rfl
    exact ⟨hstore.le,hstore.kept⟩
  | mark m a k hm hk hpos => exact h.store hk _ rfl fun _ => rfl
  | last o a k ho hh hk hone hdel => exact ⟨h.le,forall_update nofun h.kept⟩
  | delete m a k hm hk hzero => exact ⟨h.le,forall_update nofun h.kept⟩
  | refuse | leave | null | deleted | cached | absent => exact ⟨h.le,h.kept⟩

theorem later_run {s t : HandleMgr η ν} {bs : List (HandleAct η ν)} (h : Ok s)
    (hr : run HandleMgr.step s bs = some t) :
    Ok t ∧ Later s t := by
  refine run_invariant HandleMgr.step (fun t => Ok t ∧ Later s t) ?_ s t bs
    ⟨h,Nat.le_refl _,fun b k hk _ => ⟨k,hk,rfl,id⟩⟩ hr
  rintro t a t' ⟨hok,hlater⟩ hs
  have hstep := handleStep_of_step hok hs
  exact ⟨ok_handleStep hok hstep,later_step hlater hstep⟩

def NoHandles (s : HandleMgr η ν) (m : ν) : Prop :=
  ∀ o ∈ s.handles, ∀ a h, o.h = some a → s.heap a = some h → h.m ≠ m

/-- A new handle on `m` gets a record that was allocated as number `n` or later, and is not
marked. -/
def GetsFresh (s : HandleMgr η ν) (x : η) (m : ν) (n : ℕ) : Prop :=
  ∃ t b k, s.step (.construct x m) = some t ∧ ⟨x, some b, []⟩ ∈ t.handles ∧ t.heap b = some k ∧
    k.m = m ∧ k.del = false ∧ n ≤ b

omit [DecidableEq η] [DecidableEq ν] in
theorem Ok.pointers_of_noHandles (h : Ok s) {m : ν} (hnone : NoHandles s m) {a : ℕ} {k : Hinfo η ν}
    (hk : s.heap a = some k) (hm : k.m = m) : k.refcnt = 0 := by
  have hzero : pointers s.refs a = 0 := by
    refine List.countP_eq_zero.mpr fun r hr => ?_
    obtain ⟨o,ho,rfl⟩ := List.mem_map.mp hr
    simpa using fun hh => hnone o ho a k hh hk hm
  rw [h.counted.counts a k hk, hzero]
  rfl

theorem step_create {x : η} {m : ν} (hx : x ∉ s.handles.map Object.id) (hm : s.hmap m = none) :
    s.step (.construct x m) = some { s with
      hmap := Function.update s.hmap m (some s.allocated)
      heap := Function.update s.heap s.allocated (some ⟨none, 1, false, m, none⟩)
      allocated := s.allocated + 1
      handles := ⟨x, some s.allocated, []⟩ :: s.handles } := by
  simp only [HandleMgr.step, HandleMgr.exec, HandleMgr.construct, if_neg hx, HandleMgr.getHandle,
    hm]
  rfl

theorem step_share {x : η} {m : ν} {a : ℕ} {k : Hinfo η ν} (hx : x ∉ s.handles.map Object.id)
    (hm : s.hmap m = some a) (hk : s.heap a = some k) (hdel : k.del ≠ true) :
    s.step (.construct x m) = some { s.store a { k with refcnt := k.refcnt + 1 } with
      handles := ⟨x, some a, []⟩ :: s.handles } := by
  simp only [HandleMgr.step, HandleMgr.exec, HandleMgr.construct, if_neg hx, HandleMgr.getHandle,
    hm, HandleMgr.load, hk, Except.map, if_neg hdel]
  rfl

/-- When all handles of a node that was marked are gone, so is the record. -/
theorem gets_fresh {s t : HandleMgr η ν} {m : ν} {a : ℕ} {k : Hinfo η ν} (h : Ok s) (ht : Ok t)
    (hlater : Later s t)
    (hm : s.hmap m = some a) (hk : s.heap a = some k) (hdel : k.del = true) (hnone : NoHandles t m)
    (x : η) (hx : x ∉ t.handles.map Object.id) : GetsFresh t x m s.allocated := by
  cases hmt : t.hmap m with
  | none =>
    exact ⟨_,t.allocated,_,step_create hx hmt,List.mem_cons_self,Function.update_self ..,rfl,rfl,
      hlater.le⟩
  | some b =>
    obtain ⟨k',hk',hm'⟩ := ht.indexed.mapped m b hmt
    have hzero := ht.pointers_of_noHandles hnone hk' hm'
    have hdel' : k'.del ≠ true := fun hd => by
      have := ht.counted.marked b k' hk' hd
      omega
    refine ⟨_,b,_,step_share hx hmt hk' hdel',List.mem_cons_self,Function.update_self ..,hm',
      Bool.eq_false_iff.mpr hdel',?_⟩
    -- a record from before would be the marked one
    by_contra hlt
    obtain ⟨k₀,hk₀,hm₀,hdel₀⟩ := hlater.kept b k' hk' (Nat.not_le.mp hlt)
    have hentry := h.indexed.entry b k₀ hk₀
    rw [← hm₀, hm', hm] at hentry
    cases hentry
    rw [hk] at hk₀
    cases hk₀
    exact hdel' (hdel₀ hdel)

/-- Each record counts the handles that point to it; what a live handle points to has not been
deleted and is the entry of `hmap` under its name; a marked record has a handle; and
nothing is used after it was deleted. -/
structure Sound (s : HandleMgr η ν) : Prop where
  counts : ∀ a h, s.heap a = some h → h.refcnt = s.handles.countP fun o => o.h = some a
  entry : ∀ o ∈ s.handles, ∀ a, o.h = some a → ∃ h, s.heap a = some h ∧ s.hmap h.m = some a
  marked : ∀ a h, s.heap a = some h → h.del = true → 0 < h.refcnt
  safe : ∀ act f, s.exec act ≠ some (.error f)

theorem Ok.sound (h : Ok s) : Sound s where
  counts a k hk := by
    rw [h.counted.counts a k hk, pointers, HandleMgr.refs, List.countP_map]
    rfl
  entry o ho a hh := by
    obtain ⟨k,hk⟩ := h.pointed ho hh
    exact ⟨k,hk,h.indexed.entry a k hk⟩
  marked := h.counted.marked
  safe act f hf := by
    obtain ⟨s',hs',-⟩ := handleStep_of_exec h hf
    exact nomatch hs'

/-- In any interleaving, and once all handles of a node marked deleted are destroyed a new one
gets a fresh entry. -/
theorem handles_counted (as : List (HandleAct η ν)) (s : HandleMgr η ν)
    (hr : run HandleMgr.step (.init η ν) as = some s) :
    Sound s ∧ ∀ m a h, s.hmap m = some a → s.heap a = some h → h.del = true →
      ∀ bs t, run HandleMgr.step s bs = some t → NoHandles t m → ∀ x, x ∉ t.handles.map Object.id →
        GetsFresh t x m s.allocated := by
  have hok := ok_run ok_init hr
  refine ⟨hok.sound,fun m a k hm hk hdel bs t hrt hnone x hx => ?_⟩
  obtain ⟨ht,hlater⟩ := later_run hok hrt
  exact gets_fresh hok ht hlater hm hk hdel hnone x hx

end

/-- Two handles on a node share a record that is marked while both are alive; a third gets none, and
after the first two are gone a fourth gets a new record. -/
theorem handles_counted_marked :
    ∃ s t : HandleMgr ℕ Bool, run HandleMgr.step (.init ℕ Bool) [.construct 0 true,
      .construct 1 true, .safebind 0, .bound 0 true, .deleteHandle true, .construct 2 true] =
      some s ∧
    (s.heap 0).map (·.refcnt) = some 2 ∧ run HandleMgr.step s [.destroy 0, .destroy 1] = some t ∧
    t.handles = [⟨2, none, []⟩] ∧ Sound s ∧ GetsFresh t 3 true 1 := by
  have hends : ∃ s, run HandleMgr.step (.init ℕ Bool) [.construct 0 true,
      .construct 1 true, .safebind 0, .bound 0 true, .deleteHandle true, .construct 2 true] =
        some s ∧
      (s.heap 0).map (·.refcnt) = some 2 ∧ s.hmap true = some 0 ∧
        (s.heap 0).map (·.del) = some true ∧ s.allocated = 1 ∧
      ∃ t, run HandleMgr.step s [.destroy 0, .destroy 1] = some t ∧
        t.handles = [⟨2, none, []⟩] := by decide +kernel
  obtain ⟨s,hs,hcount,hmap,hdel,hnext,t,ht,hhandles⟩ := hends
  obtain ⟨k,hk,hdel⟩ := Option.map_eq_some_iff.mp hdel
  obtain ⟨hsound,hfresh⟩ := handles_counted _ s hs
  have hnone : NoHandles t true := by
    rw [NoHandles, hhandles]
    rintro o ho a h hh
    cases List.mem_singleton.mp ho
    exact nomatch hh
  have hgets := hfresh true 0 k hmap hk hdel _ t ht hnone 3 (by rw [hhandles]; decide)
  exact ⟨s,t,hs,hcount,ht,hhandles,hsound,hnext ▸ hgets⟩

end Yfs.Handle
