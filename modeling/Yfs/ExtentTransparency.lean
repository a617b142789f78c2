import Yfs.Extent
import Yfs.Run

namespace Yfs.Extent

inductive Op (ε β : Type*)
  | get (eid : ε)
  | getattr (eid : ε)
  | put (eid : ε) (buf : List β)
  | remove (eid : ε)
  | flush (eid : ε)

/-- What a caller gets: a value, the status IOERR, or nothing at all where an `assert` ends its
process. -/
inductive Answer (α : Type*)
  | value (a : α)
  | ioerr
  | aborted

/-- The answer of the client, which asserts that the server has returned OK. -/
def Answer.ofClient {α : Type*} : Option α → Answer α
  | some a => .value a
  | none => .aborted

def Answer.ofServer {α : Type*} : Option α → Answer α
  | some a => .value a
  | none => .ioerr

/-- The cache and its server, beside a server that gets every call directly. -/
structure Twin (ε β : Type*) where
  client : Client ε β
  server : Server ε β
  direct : Server ε β

section
variable {ε β : Type*} [DecidableEq ε]

def Twin.init (s : Server ε β) : Twin ε β := ⟨.empty, s, s⟩

/-- What a `get` or `getattr` of the client shows of an extent. -/
def Twin.view (s : Twin ε β) (eid : ε) : Option (List β × ℕ) :=
  (s.client.cached eid).or (s.server.visible eid)

/-- A call on both sides; `none` where it ends the client's or the server's process. -/
def Twin.step (s : Twin ε β) (a : Env × Op ε β) : Option (Twin ε β) :=
  match a.2 with
  | .get eid => (s.client.get s.server a.1 eid).map fun r =>
      ⟨r.2.1, r.2.2, ((s.direct.get a.1 eid).map Prod.snd).getD s.direct⟩
  | .getattr eid => (s.client.getattr s.server eid).map fun _ => s
  | .put eid buf => some ⟨s.client.put a.1 eid buf, s.server, s.direct.put a.1 eid buf⟩
  | .remove eid => some ⟨(s.client.remove eid).2, s.server, s.direct.remove eid⟩
  | .flush eid => (s.client.flush s.server a.1 eid).map fun r => ⟨r.1, r.2, s.direct⟩

/-- The caller gets the same content or size on both sides, or IOERR on both. -/
def Twin.SameResult (s : Twin ε β) (a : Env × Op ε β) : Prop :=
  match a.2 with
  | .get eid => Answer.ofClient ((s.client.get s.server a.1 eid).map Prod.fst) =
      Answer.ofServer ((s.direct.get a.1 eid).map Prod.fst)
  | .getattr eid => Answer.ofClient ((s.client.getattr s.server eid).map Attr.size) =
      Answer.ofServer ((s.direct.getattr eid).map Attr.size)
  | .flush eid => (s.client.flush s.server a.1 eid).isSome
  | .put _ _ => True
  | .remove _ => True

/-- The cache is not noticed: the call's result is the direct one, and afterwards
the same extents exist with the same contents and sizes. -/
def Twin.Transparent (s : Twin ε β) (a : Env × Op ε β) : Prop :=
  s.SameResult a ∧ ∀ s', s.step a = some s' → s'.view = s'.direct.visible

/-- The call removes no extent that the client has cached or the server has. -/
def Twin.RemovesNothing (s : Twin ε β) (a : Env × Op ε β) : Prop :=
  ∀ eid, a.2 = .remove eid →
    s.client.fileDataMap eid = none ∧ s.server.fileDataMap eid = none

/-- The call reads no extent that neither of them has. -/
def Twin.FindsAll (s : Twin ε β) (a : Env × Op ε β) : Prop :=
  ∀ eid, a.2 = .get eid ∨ a.2 = .getattr eid →
    s.client.fileDataMap eid ≠ none ∨ s.server.fileDataMap eid ≠ none

structure Twin.Ok (s : Twin ε β) : Prop where
  cache : ∀ eid, s.client.Ok false s.server eid
  agree : s.view = s.direct.visible

omit [DecidableEq ε] in
theorem twin_init_ok (s : Server ε β) : (Twin.init s).Ok := by
  constructor
  · intro eid d hd
    cases hd
  · funext eid
    simp [Twin.view, Twin.init, Client.cached, Client.empty]

theorem client_get_none (c : Client ε β) (s : Server ε β) (env : Env) (eid : ε)
    (h : (c.cached eid).or (s.visible eid) = none) : c.get s env eid = none := by
  obtain ⟨hc,hs⟩ := Option.or_eq_none_iff.mp h
  have hd : c.fileDataMap eid = none := by simpa [Client.cached] using hc
  have hsd : s.fileDataMap eid = none := by simpa [Server.visible] using hs
  simp [Client.get, Client.lookup, Server.get, hd, hsd]

theorem client_get_some {r : Bool} (c : Client ε β) (s : Server ε β) (env : Env) (eid : ε)
    (buf : List β) (n : ℕ) (h : (c.cached eid).or (s.visible eid) = some (buf, n)) :
    ∃ c' s', c.get s env eid = some (buf, c', s') ∧ s'.visible = s.visible ∧
      c'.cached = Function.update c.cached eid (some (buf, n)) ∧
      ∀ e, c.Ok r s e → c'.Ok r s' e := by
  cases hl : c.lookup env eid with
  | some r =>
    obtain ⟨b,c'⟩ := r
    obtain ⟨hcached,hb⟩ := client_lookup_cached _ _ _ _ _ hl
    obtain ⟨⟨b',n'⟩,hx,hbb⟩ := Option.map_eq_some_iff.mp hb
    rw [hx, Option.some_or, Option.some.injEq] at h
    cases h
    cases hbb
    refine ⟨c', s, by simp [Client.get, hl], rfl, ?_,
      fun e he => client_lookup_ok _ _ _ _ _ _ _ hl he⟩
    rw [hcached, ← hx, Function.update_eq_self]
  | none =>
    have hd := (client_lookup_none _ _ _).mp hl
    have hc : c.cached eid = none := by simp [Client.cached, hd]
    rw [hc, Option.none_or] at h
    obtain ⟨⟨b,s'⟩,hg,hb⟩ :=
      Option.map_eq_some_iff.mp ((server_get_eq s env eid).trans (congrArg _ h))
    obtain ⟨hv,_⟩ := server_get_visible _ _ _ _ _ hg
    cases hb
    have hs' : s'.visible eid = some (buf, n) := hv ▸ h
    obtain ⟨f,hf,hfx⟩ := Option.map_eq_some_iff.mp hs'
    cases hfx
    refine ⟨c.insert eid f.fileContent f.fileAttr, s', ?_, hv, by simp, fun e he => ?_⟩
    · simp [Client.get, hl, hg, Client.getattr, hd, Server.getattr, hf]
    · exact client_insert_ok _ _ _ _ _ _ hs' fun d hd => (he d hd).congr (congrFun hv e)

theorem twin_get_ok (s s' : Twin ε β) (env : Env) (eid : ε) (h : s.Ok)
    (hs : s.step (env, .get eid) = some s') : s'.Ok := by
  obtain ⟨r,hr,rfl⟩ := Option.map_eq_some_iff.mp hs
  cases hv : s.view eid with
  | none => exact absurd ((client_get_none _ _ env eid hv).symm.trans hr) (by simp)
  | some x =>
    obtain ⟨buf,n⟩ := x
    obtain ⟨c',t',hg,hvis,hcached,hok⟩ := client_get_some (r := false) _ _ env eid buf n hv
    cases hg.symm.trans hr
    have hdirect : (((s.direct.get env eid).map Prod.snd).getD s.direct).visible =
        s.direct.visible := by
      cases hd : s.direct.get env eid with
      | none => rfl
      | some r => exact (server_get_visible _ _ _ _ _ hd).1
    refine ⟨fun e => hok e (h.cache e), ?_⟩
    rw [hdirect, ← h.agree]
    funext e
    by_cases he : e = eid
    · subst he
      rw [hv]
      simp [Twin.view, hcached]
    · simp [Twin.view, hcached, hvis, he]

theorem twin_put_ok (s : Twin ε β) (env : Env) (eid : ε) (buf : List β) (h : s.Ok) :
    Twin.Ok ⟨s.client.put env eid buf, s.server, s.direct.put env eid buf⟩ := by
  refine ⟨fun e => client_put_ok _ _ env eid e buf (h.cache e), ?_⟩
  rw [server_put_visible, ← h.agree]
  funext e
  by_cases he : e = eid <;> simp [Twin.view, he]

theorem twin_flush_ok (s s' : Twin ε β) (env : Env) (eid : ε) (h : s.Ok)
    (hs : s.step (env, .flush eid) = some s') : s'.Ok := by
  obtain ⟨t,ht,hv⟩ :=
    client_flush_spec _ _ env eid (h.cache eid) (client_ok_false _ _ _ (h.cache eid))
  obtain ⟨r,hr,rfl⟩ := Option.map_eq_some_iff.mp hs
  cases ht.symm.trans hr
  constructor
  · intro e
    by_cases he : e = eid
    · subst he
      intro d hd
      simp [Client.erase] at hd
    · have hve : t.visible e = s.server.visible e := by rw [hv, Function.update_of_ne he]
      exact client_erase_ok _ _ _ _ fun d hd => (h.cache e d hd).congr hve
  · rw [← h.agree]
    funext e
    by_cases he : e = eid <;> simp [Twin.view, hv, he]

theorem twin_step_ok (s s' : Twin ε β) (a : Env × Op ε β) (h : s.Ok) (hr : s.RemovesNothing a)
    (hs : s.step a = some s') : s'.Ok := by
  obtain ⟨env,op⟩ := a
  cases op with
  | get eid => exact twin_get_ok s s' env eid h hs
  | getattr eid =>
    obtain ⟨_,_,rfl⟩ := Option.map_eq_some_iff.mp hs
    exact h
  | put eid buf =>
    cases hs
    exact twin_put_ok s env eid buf h
  | remove eid =>
    -- neither side has the extent, so neither changes
    obtain ⟨hc,hsv⟩ := hr eid rfl
    cases hs
    have hrm : s.client.remove eid = (false, s.client) := by simp [Client.remove, hc]
    have hgone : s.direct.visible eid = none := by
      rw [← h.agree]
      simp [Twin.view, Client.cached, Server.visible, hc, hsv]
    refine ⟨by simpa only [hrm] using h.cache, ?_⟩
    have hv : (s.direct.remove eid).visible = s.direct.visible := by
      rw [server_remove_visible, ← hgone, Function.update_eq_self]
    rw [hv, ← h.agree, hrm]
    rfl
  | flush eid => exact twin_flush_ok s s' env eid h hs

omit [DecidableEq ε] in
theorem twin_view_some (s : Twin ε β) (eid : ε)
    (h : s.client.fileDataMap eid ≠ none ∨ s.server.fileDataMap eid ≠ none) :
    ∃ x, s.view eid = some x := by
  refine Option.ne_none_iff_exists'.mp fun hv => ?_
  obtain ⟨hc,hs⟩ := Option.or_eq_none_iff.mp hv
  rcases h with h | h
  · exact h (by simpa [Client.cached] using hc)
  · exact h (by simpa [Server.visible] using hs)

omit [DecidableEq ε] in
theorem client_getattr_size (s : Twin ε β) (eid : ε) :
    (s.client.getattr s.server eid).map Attr.size = (s.view eid).map Prod.snd := by
  cases hc : s.client.fileDataMap eid with
  | none => simp [Client.getattr, Twin.view, Client.cached, hc, Server.getattr, Server.visible,
      Function.comp_def]
  | some d => simp [Client.getattr, Twin.view, Client.cached, hc]

theorem twin_same_result (s : Twin ε β) (a : Env × Op ε β) (h : s.Ok) (hfinds : s.FindsAll a) :
    s.SameResult a := by
  obtain ⟨env,op⟩ := a
  have hagree : ∀ eid, s.view eid = s.direct.visible eid := fun eid => congrFun h.agree eid
  cases op with
  | get eid =>
    obtain ⟨x,hv⟩ := twin_view_some s eid (hfinds eid (.inl rfl))
    obtain ⟨_,_,hg,_⟩ := client_get_some (r := false) _ _ env eid x.1 x.2 hv
    simp only [Twin.SameResult, server_get_eq, ← hagree, hv, hg]
    rfl
  | getattr eid =>
    obtain ⟨x,hv⟩ := twin_view_some s eid (hfinds eid (.inr rfl))
    have hd : (s.direct.getattr eid).map Attr.size = (s.view eid).map Prod.snd := by
      rw [hagree]
      simp [Server.getattr, Server.visible, Function.comp_def]
    simp only [Twin.SameResult, hd, client_getattr_size, hv]
    rfl
  | put eid buf => trivial
  | remove eid => trivial
  | flush eid =>
    obtain ⟨t,ht,_⟩ :=
      client_flush_spec _ _ env eid (h.cache eid) (client_ok_false _ _ _ (h.cache eid))
    simp [Twin.SameResult, ht]

/-- Removing an extent that exists is always noticed: the client still shows it. -/
theorem removesNothing_of_transparent (s : Twin ε β) (a : Env × Op ε β) (ht : s.Transparent a) :
    s.RemovesNothing a := by
  obtain ⟨env,op⟩ := a
  intro eid ha
  cases ha
  have hv := congrFun (ht.2 _ rfl) eid
  simp only [Twin.view, client_remove_cached, server_remove_visible, Function.update_self,
    Option.or_eq_none_iff] at hv
  exact ⟨by simpa [Client.cached] using hv.1, by simpa [Server.visible] using hv.2⟩

/-- Reading an extent that does not exist is noticed: the client's process ends, while the
server answers with IOERR. -/
theorem findsAll_of_same_result (s : Twin ε β) (a : Env × Op ε β) (h : s.SameResult a) :
    s.FindsAll a := by
  obtain ⟨env,op⟩ := a
  intro eid ha
  by_contra hno
  rw [not_or, not_not, not_not] at hno
  have hv : s.view eid = none := by
    simp [Twin.view, Client.cached, Server.visible, hno.1, hno.2]
  rcases ha with ha | ha
  · cases ha
    simp only [Twin.SameResult, client_get_none _ _ env eid hv, Option.map_none] at h
    cases hd : (s.direct.get env eid).map Prod.fst <;> rw [hd] at h <;> cases h
  · cases ha
    simp only [Twin.SameResult, client_getattr_size, hv, Option.map_none] at h
    cases hd : (s.direct.getattr eid).map Attr.size <;> rw [hd] at h <;> cases h

end

/-- A server whose extent 1 holds the byte 7. -/
def oneExtent : Server ℕ ℕ := ⟨fun e => if e = 1 then some ⟨[7], ⟨0, 0, 0, 1⟩⟩ else none⟩

end Yfs.Extent
