import Mathlib.Algebra.Group.Nat.Defs
import Mathlib.Logic.Function.Basic
import Mathlib.Data.List.Basic

namespace Yfs.Extent

/-- `extent_protocol::attr`, of 32-bit fields. -/
structure Attr where
  atime : ℕ
  mtime : ℕ
  ctime : ℕ
  size : ℕ
  deriving DecidableEq

/-- What an operation takes from its surroundings: `time(NULL)`, and whatever an
attribute holds that `new` has left uninitialised. -/
structure Env where
  now : ℕ
  junk : ℕ

/-- `std::string::size()` stored in an `unsigned int`. -/
def sizeOf32 {β : Type*} (buf : List β) : ℕ := buf.length % 2^32

structure FileData (β : Type*) where
  fileContent : List β
  fileAttr : Attr

structure Server (ε β : Type*) where
  fileDataMap : ε → Option (FileData β)

structure CachedFile (β : Type*) where
  fileContent : List β
  fileAttr : Attr
  isDirty : Bool
  isRemoved : Bool

/-- `extent_client`, without the RPC connection. -/
structure Client (ε β : Type*) where
  fileDataMap : ε → Option (CachedFile β)

section
variable {ε β : Type*} [DecidableEq ε]

namespace Server

def put (s : Server ε β) (env : Env) (id : ε) (buf : List β) : Server ε β :=
  match s.fileDataMap id with
  | some d => ⟨Function.update s.fileDataMap id (some ⟨buf,
      { d.fileAttr with size := sizeOf32 buf, ctime := env.now, mtime := env.now }⟩)⟩
  | none => ⟨Function.update s.fileDataMap id (some ⟨buf,
      ⟨env.junk, env.now, env.now, sizeOf32 buf⟩⟩)⟩

/-- `none` is IOERR. -/
def get (s : Server ε β) (env : Env) (id : ε) : Option (List β × Server ε β) :=
  match s.fileDataMap id with
  | some d => some (d.fileContent, ⟨Function.update s.fileDataMap id
      (some { d with fileAttr := { d.fileAttr with atime := env.now } })⟩)
  | none => none

def getattr (s : Server ε β) (id : ε) : Option Attr := (s.fileDataMap id).map (·.fileAttr)

def remove (s : Server ε β) (id : ε) : Server ε β := ⟨Function.update s.fileDataMap id none⟩

end Server

namespace Client

def empty : Client ε β := ⟨fun _ => none⟩

/-- The critical section at the start of `get`: `some` on a hit. -/
def lookup (c : Client ε β) (env : Env) (eid : ε) : Option (List β × Client ε β) :=
  match c.fileDataMap eid with
  | some d => some (d.fileContent, ⟨Function.update c.fileDataMap eid
      (some { d with fileAttr := { d.fileAttr with atime := env.now } })⟩)
  | none => none

/-- The critical section at the end of a `get` that missed. -/
def insert (c : Client ε β) (eid : ε) (buf : List β) (attr : Attr) : Client ε β :=
  ⟨Function.update c.fileDataMap eid (some ⟨buf, attr, false, false⟩)⟩

/-- `none` where `assert(ret == OK)` ends the process. -/
def getattr (c : Client ε β) (s : Server ε β) (eid : ε) : Option Attr :=
  match c.fileDataMap eid with
  | some d => some d.fileAttr
  | none => s.getattr eid

/-- `get` from start to end; `none` where an `assert` ends the process. -/
def get (c : Client ε β) (s : Server ε β) (env : Env) (eid : ε) :
    Option (List β × Client ε β × Server ε β) :=
  match c.lookup env eid with
  | some (buf, c') => some (buf, c', s)
  | none => (s.get env eid).bind fun r => (c.getattr r.2 eid).map fun attr =>
      (r.1, c.insert eid r.1 attr, r.2)

def put (c : Client ε β) (env : Env) (eid : ε) (buf : List β) : Client ε β :=
  match c.fileDataMap eid with
  | some d => ⟨Function.update c.fileDataMap eid (some { d with
      fileContent := buf
      fileAttr := { d.fileAttr with size := sizeOf32 buf, ctime := env.now, mtime := env.now }
      isDirty := true })⟩
  | none => ⟨Function.update c.fileDataMap eid (some ⟨buf,
      ⟨env.junk, env.now, env.now, sizeOf32 buf⟩, true, false⟩)⟩

/-- An extent that is not cached is left alone and reported as IOERR (`false`). -/
def remove (c : Client ε β) (eid : ε) : Bool × Client ε β :=
  match c.fileDataMap eid with
  | some d => (true, ⟨Function.update c.fileDataMap eid (some { d with isRemoved := true })⟩)
  | none => (false, c)

def erase (c : Client ε β) (eid : ε) : Client ε β := ⟨Function.update c.fileDataMap eid none⟩

/-- `flush`. For a removed extent it calls `remove` without marshalling the id, and
the server ends on the arguments it cannot unmarshal: `none`. -/
def flush (c : Client ε β) (s : Server ε β) (env : Env) (eid : ε) :
    Option (Client ε β × Server ε β) :=
  match c.fileDataMap eid with
  | none => some (c, s)
  | some d =>
    if d.isRemoved = true then none
    else if d.isDirty = true then some (c.erase eid, s.put env eid d.fileContent)
    else some (c.erase eid, s)

end Client

def Server.visible (s : Server ε β) (eid : ε) : Option (List β × ℕ) :=
  (s.fileDataMap eid).map fun d => (d.fileContent, d.fileAttr.size)

def Client.cached (c : Client ε β) (eid : ε) : Option (List β × ℕ) :=
  (c.fileDataMap eid).map fun d => (d.fileContent, d.fileAttr.size)

/-- A clean entry of the cache is what the server has, and a dirty one has the size
of its content. Whether entries may be marked as removed is `r`. -/
def EntryOk (r : Bool) (s : Server ε β) (eid : ε) (d : CachedFile β) : Prop :=
  (d.isRemoved = true → r = true) ∧
  (d.isDirty = false → s.visible eid = some (d.fileContent, d.fileAttr.size)) ∧
  (d.isDirty = true → d.fileAttr.size = sizeOf32 d.fileContent)

def Client.Ok (r : Bool) (c : Client ε β) (s : Server ε β) (eid : ε) : Prop :=
  ∀ d, c.fileDataMap eid = some d → EntryOk r s eid d

omit [DecidableEq ε] in
theorem EntryOk.congr {r : Bool} {s s' : Server ε β} {eid : ε} {d : CachedFile β}
    (h : EntryOk r s eid d) (hv : s'.visible eid = s.visible eid) : EntryOk r s' eid d :=
  ⟨h.1, fun hd => hv.trans (h.2.1 hd), h.2.2⟩

theorem map_update {γ δ : Type*} (f : ε → Option γ) (g : γ → δ) (eid : ε) (a : Option γ) :
    (fun e => (Function.update f eid a e).map g) =
      Function.update (fun e => (f e).map g) eid (a.map g) := by
  funext e
  by_cases he : e = eid <;> simp [he]

@[simp] theorem server_put_visible (s : Server ε β) (env : Env) (eid : ε) (buf : List β) :
    (s.put env eid buf).visible = Function.update s.visible eid (some (buf, sizeOf32 buf)) := by
  unfold Server.put
  split <;> exact map_update _ _ _ _

@[simp] theorem server_remove_visible (s : Server ε β) (eid : ε) :
    (s.remove eid).visible = Function.update s.visible eid none := map_update _ _ _ _

theorem server_get_visible (s s' : Server ε β) (env : Env) (eid : ε) (buf : List β)
    (h : s.get env eid = some (buf, s')) :
    s'.visible = s.visible ∧ (s.visible eid).map Prod.fst = some buf := by
  unfold Server.get at h
  split at h <;> cases h
  next d hd =>
  constructor
  · funext e
    by_cases he : e = eid <;> simp [Server.visible, he, hd]
  · simp [Server.visible, hd]

theorem server_get_eq (s : Server ε β) (env : Env) (eid : ε) :
    (s.get env eid).map Prod.fst = (s.visible eid).map Prod.fst := by
  unfold Server.get Server.visible
  cases s.fileDataMap eid <;> rfl

@[simp] theorem client_put_cached (c : Client ε β) (env : Env) (eid : ε) (buf : List β) :
    (c.put env eid buf).cached = Function.update c.cached eid (some (buf, sizeOf32 buf)) := by
  unfold Client.put
  split <;> exact map_update _ _ _ _

@[simp] theorem client_erase_cached (c : Client ε β) (eid : ε) :
    (c.erase eid).cached = Function.update c.cached eid none := map_update _ _ _ _

@[simp] theorem client_insert_cached (c : Client ε β) (eid : ε) (buf : List β) (attr : Attr) :
    (c.insert eid buf attr).cached = Function.update c.cached eid (some (buf, attr.size)) :=
  map_update _ _ _ _

theorem client_remove_cached (c : Client ε β) (eid : ε) : (c.remove eid).2.cached = c.cached := by
  unfold Client.remove
  split
  · next d hd =>
    funext e
    by_cases he : e = eid <;> simp [Client.cached, he, hd]
  · rfl

theorem client_lookup_cached (c c' : Client ε β) (env : Env) (eid : ε) (buf : List β)
    (h : c.lookup env eid = some (buf, c')) :
    c'.cached = c.cached ∧ (c.cached eid).map Prod.fst = some buf := by
  unfold Client.lookup at h
  split at h <;> cases h
  next d hd =>
  constructor
  · funext e
    by_cases he : e = eid <;> simp [Client.cached, he, hd]
  · simp [Client.cached, hd]

theorem client_lookup_none (c : Client ε β) (env : Env) (eid : ε) :
    c.lookup env eid = none ↔ c.fileDataMap eid = none := by
  unfold Client.lookup
  cases c.fileDataMap eid <;> simp

section order
variable {r : Bool}

theorem client_put_ok (c : Client ε β) (s : Server ε β) (env : Env) (eid e : ε) (buf : List β)
    (h : c.Ok r s e) : (c.put env eid buf).Ok r s e := by
  intro d hd
  unfold Client.put at hd
  by_cases he : e = eid
  · subst he
    split at hd
    · next d0 hd0 =>
      simp only [Function.update_self] at hd
      cases hd
      exact ⟨(h d0 hd0).1, by simp, fun _ => rfl⟩
    · simp only [Function.update_self] at hd
      cases hd
      exact ⟨by simp, by simp, fun _ => rfl⟩
  · apply h
    split at hd <;> simpa only [Function.update_of_ne he] using hd

theorem client_lookup_ok (c c' : Client ε β) (s : Server ε β) (env : Env) (eid e : ε) (buf : List β)
    (hl : c.lookup env eid = some (buf, c')) (h : c.Ok r s e) : c'.Ok r s e := by
  intro d hd
  unfold Client.lookup at hl
  split at hl <;> cases hl
  next d0 hd0 =>
  by_cases he : e = eid
  · subst he
    simp only [Function.update_self] at hd
    cases hd
    exact h d0 hd0
  · apply h
    simpa only [Function.update_of_ne he] using hd

theorem client_insert_ok (c : Client ε β) (s : Server ε β) (eid e : ε) (buf : List β) (attr : Attr)
    (hv : s.visible eid = some (buf, attr.size)) (h : c.Ok r s e) :
    (c.insert eid buf attr).Ok r s e := by
  intro d hd
  unfold Client.insert at hd
  by_cases he : e = eid
  · subst he
    simp only [Function.update_self] at hd
    cases hd
    exact ⟨by simp, fun _ => hv, by simp⟩
  · apply h
    simpa only [Function.update_of_ne he] using hd

theorem client_erase_ok (c : Client ε β) (s : Server ε β) (eid e : ε) (h : c.Ok r s e) :
    (c.erase eid).Ok r s e := by
  intro d hd
  unfold Client.erase at hd
  by_cases he : e = eid
  · subst he
    simp only [Function.update_self] at hd
    cases hd
  · apply h
    simpa only [Function.update_of_ne he] using hd

theorem client_remove_ok (c : Client ε β) (s : Server ε β) (eid e : ε) (h : c.Ok true s e) :
    (c.remove eid).2.Ok true s e := by
  intro d hd
  unfold Client.remove at hd
  split at hd
  · next d0 hd0 =>
    by_cases he : e = eid
    · subst he
      simp only [Function.update_self] at hd
      cases hd
      exact ⟨fun _ => rfl, (h d0 hd0).2⟩
    · apply h
      simpa only [Function.update_of_ne he] using hd
  · exact h d hd

/-- `flush` of a cache in order writes back what the cache shows, unless the extent
is marked as removed. -/
theorem client_flush_spec (c : Client ε β) (s : Server ε β) (env : Env) (eid : ε)
    (h : c.Ok r s eid) (hr : ∀ d, c.fileDataMap eid = some d → d.isRemoved = false) :
    ∃ s', c.flush s env eid = some (c.erase eid, s') ∧
      s'.visible = Function.update s.visible eid ((c.cached eid).or (s.visible eid)) := by
  unfold Client.flush
  cases hd : c.fileDataMap eid with
  | none =>
    refine ⟨s, ?_, by simp [Client.cached, hd]⟩
    have he : c.erase eid = c := by
      unfold Client.erase
      rw [← hd, Function.update_eq_self]
    rw [he]
  | some d =>
    obtain ⟨_,hclean,hdirty⟩ := h d hd
    have hrem := hr d hd
    have hc : c.cached eid = some (d.fileContent, d.fileAttr.size) := by simp [Client.cached, hd]
    cases hb : d.isDirty with
    | false =>
      refine ⟨s, by simp [hrem, hb], ?_⟩
      rw [hc, Option.some_or, ← hclean hb, Function.update_eq_self]
    | true =>
      refine ⟨s.put env eid d.fileContent, by simp [hrem, hb], ?_⟩
      rw [hc, Option.some_or, server_put_visible, hdirty hb]

omit [DecidableEq ε] in
theorem client_ok_false (c : Client ε β) (s : Server ε β) (eid : ε) (h : c.Ok false s eid)
    (d : CachedFile β) (hd : c.fileDataMap eid = some d) : d.isRemoved = false :=
  Bool.eq_false_iff.mpr fun hr => Bool.noConfusion ((h d hd).1 hr)

theorem client_flush_some (c : Client ε β) (s : Server ε β) (env : Env) (eid : ε)
    (res : Client ε β × Server ε β) (hf : c.flush s env eid = some res) (d : CachedFile β)
    (hd : c.fileDataMap eid = some d) : d.isRemoved = false := by
  simp only [Client.flush, hd] at hf
  split_ifs at hf with hr
  all_goals exact Bool.eq_false_iff.mpr hr

end order

end
end Yfs.Extent
