import Yfs.Custody
import Yfs.RpcReply
import Mathlib.Data.List.Dedup

namespace Yfs.Rpc
open Custody (Numbered All Once held_perm held_perm_keys count_held_eq_one_iff)

def bufs (w : List ReplyT) : List Addr := w.filterMap (·.buf)

theorem kept_pruned_perm (xidRep n : ℕ) (w : List ReplyT) :
    (prunedBy xidRep n w ++ keptBy xidRep n w).Perm w := by
  induction w generalizing n with
  | nil => exact .refl _
  | cons r rs ih =>
    simp only [keptBy, prunedBy]
    split_ifs
    · exact (ih (n-1)).cons r
    · exact List.perm_middle.trans ((ih n).cons r)

/-- What a check takes out of the window is freed; the entry that it puts in has no buffer. -/
theorem bufs_check (w : List ReplyT) (xid xidRep : ℕ) :
    ((checkduplicateAndUpdate w xid xidRep).freed.reduceOption ++
      bufs (checkduplicateAndUpdate w xid xidRep).window).Perm (bufs w) := by
  have hfreed : (checkduplicateAndUpdate w xid xidRep).freed.reduceOption = bufs
      (prunedBy xidRep w.length w) := by
    rw [check_freed, List.reduceOption, List.filterMap_map]
    rfl
  have hwindow : (bufs (checkduplicateAndUpdate w xid xidRep).window).Perm
      (bufs (keptBy xidRep w.length w)) := by
    rw [check_window]
    split_ifs
    · exact (insertReply_perm _ _).filterMap _
    · exact .refl _
  have hall : (bufs (prunedBy xidRep w.length w) ++ bufs (keptBy xidRep w.length w)).Perm
      (bufs w) := by
    rw [bufs, bufs, ← List.filterMap_append]
    exact (kept_pruned_perm xidRep w.length w).filterMap _
  rw [hfreed]
  exact (hwindow.append_left _).trans hall

theorem addReply_of_not_mem {w : List ReplyT} {xid : ℕ} (h : ∀ r ∈ w, r.xid ≠ xid) (b : Addr) :
    addReply w xid b = w := by
  rw [addReply]
  calc w.map _ = w.map id := List.map_congr_left fun r hr => if_neg (h r hr)
    _ = w := List.map_id w

/-- `add_reply` puts the buffer into the entry of the xid, in place of what it had; without
such an entry the buffer itself goes lost. -/
theorem bufs_addReply {w : List ReplyT} (hw : Ascending w) (xid : ℕ) (b : Addr) :
    ∃ gone, (bufs (addReply w xid b) ++ gone).Perm (bufs w ++ [b]) ∧
      (gone = [] ↔ ∃ r ∈ w, r.xid = xid ∧ r.buf = none) := by
  by_cases hx : ∃ r ∈ w, r.xid = xid
  · obtain ⟨r,hr,rfl⟩ := hx
    obtain ⟨u,v,rfl⟩ := List.append_of_mem hr
    obtain ⟨-,hv,huv⟩ := List.pairwise_append.mp hw
    -- the xids ascend, so no other entry has this one
    have hu : ∀ a ∈ u, a.xid ≠ r.xid := fun a ha => (huv a ha r List.mem_cons_self).ne
    have hv : ∀ a ∈ v, a.xid ≠ r.xid := fun a ha => ((List.pairwise_cons.mp hv).1 a ha).ne'
    have hadd : addReply (u ++ r :: v) r.xid b = u ++ ⟨r.xid, true, some b⟩ :: v := by
      rw [addReply, List.map_append, List.map_cons, if_pos rfl]
      congr
      · exact addReply_of_not_mem hu b
      · exact addReply_of_not_mem hv b
    refine ⟨r.buf.toList,?_,?_⟩
    · refine List.perm_iff_count.mpr fun c => ?_
      rw [hadd]
      cases hbuf : r.buf with
      | none => simp [bufs, List.count_cons, hbuf]
      | some d =>
        simp [bufs, List.count_cons, hbuf]
        omega
    · rw [Option.toList_eq_nil_iff]
      refine ⟨fun hnone => ⟨r,hr,rfl,hnone⟩,?_⟩
      rintro ⟨a,ha,hax,hnone⟩
      rcases List.mem_append.mp ha with ha | ha
      · exact absurd hax (hu a ha)
      · rcases List.mem_cons.mp ha with rfl | ha
        · exact hnone
        · exact absurd hax (hv a ha)
  · have hne : ∀ r ∈ w, r.xid ≠ xid := fun r hr hrx => hx ⟨r,hr,hrx⟩
    refine ⟨[b],?_,?_⟩
    -- the loop of `add_reply` finds nothing
    · rw [addReply_of_not_mem hne]
    · refine iff_of_false (List.cons_ne_nil _ _) ?_
      rintro ⟨r,hr,hrx,-⟩
      exact hne r hr hrx

section
variable {ι α β : Type*}

def Job.nonce : Job α → ℕ
  | .handling n _ _ _ | .sending n _ => n

/-- `keys` are the clients that `reply_window_` has a list for. -/
structure Rpcs.Keys (s : Rpcs α β) (keys : List ℕ) : Prop where
  nodup : keys.Nodup
  covers : ∀ n, n ∉ keys → s.replyWindow n = []

def Rpcs.freeReplyWindow (s : Rpcs α β) (keys : List ℕ) : Rpcs α β :=
  { s with
    replyWindow := fun _ => []
    freed := s.freed ++ (keys.flatMap fun n => (s.replyWindow n).map (·.buf)).reduceOption }

/-- The buffers that have been freed and those in the windows. -/
def Rpcs.held (s : Rpcs α β) (keys : List ℕ) : List ℕ :=
  Custody.held s.freed keys fun n => bufs (s.replyWindow n)

theorem freeReplyWindow_freed (s : Rpcs α β) (keys : List ℕ) :
    (s.freeReplyWindow keys).freed = s.held keys := by
  rw [Rpcs.freeReplyWindow, Rpcs.held, Custody.held, List.reduceOption, List.filterMap_flatMap]
  simp only [List.filterMap_map]
  rfl

/-- Each buffer is in one entry of the windows and not freed, or freed once and in none. -/
def OwnedOnce (s : Sys ι α β) : Prop :=
  ∀ b < s.server.heap.length, Once s.server.freed (fun n => bufs (s.server.replyWindow n)) b

/-- `free_reply_window` leaves each buffer freed once. -/
def AllFreed (s : Sys ι α β) : Prop :=
  ∀ keys, s.server.Keys keys →
    ∀ b < s.server.heap.length, (s.server.freeReplyWindow keys).freed.count b = 1

/-- The entry of the handler's request waits for the reply. -/
def Job.Awaited (s : Rpcs α β) (ret : ℤ) : Job α → Prop
  | .handling n x proc _ => 0 ≤ handlerRet proc ret → ∃ r ∈ s.replyWindow n, r.xid = x ∧
    r.buf = none
  | .sending _ _ => True

/-- If the step is the end of a handler that `dispatch` does not abort for, its reply is awaited. -/
def Awaited (s : Sys ι α β) : Act ι α β → Prop
  | .handlerDone j ret _ _ => ∀ job ∈ s.server.jobs[j]?, job.Awaited s.server ret
  | _ => True

instance (s : Rpcs α β) (ret : ℤ) : ∀ job : Job α, Decidable (job.Awaited s ret)
  | .handling n x proc _ =>
    inferInstanceAs
      (Decidable (0 ≤ handlerRet proc ret → ∃ r ∈ s.replyWindow n, r.xid = x ∧ r.buf = none))
  | .sending _ _ => isTrue trivial

instance (s : Sys ι α β) (a : Act ι α β) : Decidable (Awaited s a) := by
  cases a <;> unfold Awaited <;> infer_instance

structure BufsOk (keys : List ℕ) (s : Sys ι α β) : Prop where
  jobs : ∀ j ∈ s.server.jobs, j.nonce ∈ keys
  ascending : ∀ n, Ascending (s.server.replyWindow n)
  covers : ∀ n, n ∉ keys → s.server.replyWindow n = []
  numbered : Numbered s.server.heap.length (s.server.held keys)

end

section
variable {ι α β : Type*} [DecidableEq ι] (cfg : Config ι β) {keys : List ℕ}

/-- All buffers are freed or in the windows. -/
def NoneLost (keys : List ℕ) (s : Sys ι α β) : Prop := All s.server.heap.length (s.server.held keys)

omit [DecidableEq ι] in
theorem bufsOk_checked (hkeys : keys.Nodup) {s : Sys ι α β} (h : BufsOk keys s) (q : Req α)
    (hq : q.cltNonce ∈ keys) :
    BufsOk keys (s.checked cfg q) ∧ (NoneLost keys (s.checked cfg q) ↔ NoneLost keys s) := by
  have hperm : ((s.checked cfg q).server.held keys ++ []).Perm (s.server.held keys ++ []) := by
    refine held_perm _ _ hkeys hq (fun m hm => by rw [replyWindow_checked_of_ne cfg s q hm]) ?_
    rw [replyWindow_checked, List.append_nil, List.append_nil]
    exact bufs_check (s.server.replyWindow q.cltNonce) q.xid q.xidRep
  rw [List.append_nil (s.server.held keys)] at hperm
  obtain ⟨hnum,hall⟩ := h.numbered.go hperm
  refine ⟨⟨?_,?_,?_,hnum⟩,hall.trans (and_iff_left rfl)⟩
  · intro j hj
    rcases List.mem_append.mp hj with hj | hj
    · exact h.jobs j hj
    · rcases statusJobs_cases q _ _ hj with ⟨-,rfl⟩ | ⟨-,b,-,rfl⟩
      · exact hq
      · exact hq
  · exact ascending_checked cfg h.ascending q
  · intro n hn
    have hne : n ≠ q.cltNonce := fun he => hn (he ▸ hq)
    rw [replyWindow_checked_of_ne cfg s q hne]
    exact h.covers n hn

omit [DecidableEq ι] in
theorem bufsOk_packed (hkeys : keys.Nodup) (hzero : 0 ∉ keys) {s : Sys ι α β} (h : BufsOk keys s)
    (j : ℕ) {n : ℕ} (hn : n ∈ keys) (addr : Addr) (r : Reply β) (execs : List (Exec α β)) :
    BufsOk keys { s with server := s.server.packed j n addr r, execs := execs } ∧
      (NoneLost keys { s with server := s.server.packed j n addr r, execs := execs } ↔
        NoneLost keys s ∧ ∃ a ∈ s.server.replyWindow n, a.xid = r.xid ∧ a.buf = none) := by
  have hpos : 0 < n := Nat.pos_of_ne_zero fun h0 => hzero (h0 ▸ hn)
  have hother : ∀ m, m ≠ n → (s.server.packed j n addr r).replyWindow m = s.server.replyWindow m :=
    fun m hm => replyWindow_packed_of_ne s.server j addr r hm
  have hheap : (s.server.packed j n addr r).heap.length = s.server.heap.length + 1 :=
    List.length_append
  obtain ⟨gone,hgone,hiff⟩ := bufs_addReply (h.ascending n) r.xid s.server.heap.length
  have hperm : ((s.server.packed j n addr r).held keys ++ gone).Perm
      (s.server.held keys ++ [s.server.heap.length]) := by
    have hsum := held_perm s.server.freed [] (f := fun m => bufs (s.server.replyWindow m))
      (g := fun m => bufs ((s.server.packed j n addr r).replyWindow m)) hkeys hn
        (fun m hm => by rw [hother m hm])
      (show ([] ++ bufs _ ++ gone).Perm _ by rw [replyWindow_packed _ j hpos]; exact hgone)
    rwa [List.append_nil] at hsum
  obtain ⟨hnum,hall⟩ := h.numbered.snoc.go hperm
  refine ⟨⟨?_,?_,?_,?_⟩,?_⟩
  · intro job hjob
    rcases List.mem_append.mp hjob with hjob | hjob
    · exact h.jobs job (List.mem_of_mem_eraseIdx hjob)
    · rw [List.mem_singleton.mp hjob]
      exact hn
  · exact ascending_packed h.ascending j n addr r
  · intro m hm
    have hne : m ≠ n := fun he => hm (he ▸ hn)
    rw [hother m hne]
    exact h.covers m hm
  · rw [hheap]
    exact hnum
  · rw [NoneLost, hheap, hall, Custody.all_snoc h.numbered, hiff]
    rfl

section
variable (hkeys : keys.Nodup) (hzero : 0 ∉ keys) (ub : Bool) {s s' : Sys ι α β} {a : Act ι α β}
    (h : BufsOk keys s)
include h

omit [DecidableEq ι] in
theorem BufsOk.of_same (ha : Awaited s a) (hw : s'.server.replyWindow = s.server.replyWindow)
    (hh : s'.server.heap = s.server.heap) (hf : s'.server.freed = s.server.freed)
    (hj : ∀ j ∈ s'.server.jobs, j.nonce ∈ keys) :
    BufsOk keys s' ∧ (NoneLost keys s' ↔ NoneLost keys s ∧ Awaited s a) := by
  have hheld : s'.server.held keys = s.server.held keys := by rw [Rpcs.held, Rpcs.held, hw, hf]
  refine ⟨⟨hj,hw ▸ h.ascending,hw ▸ h.covers,?_⟩,?_⟩
  · rw [hh, hheld]
    exact h.numbered
  · rw [NoneLost, hh, hheld, and_iff_left ha]
    rfl

include hkeys hzero

omit [DecidableEq ι] in
theorem bufsOk_handlerDone {j : ℕ} {ret : ℤ} {body : β} {addr : Addr}
    (hs : s.handlerDone cfg j ret body addr = some s') :
    BufsOk keys s' ∧
    (NoneLost keys s' ↔ NoneLost keys s ∧ Awaited s (.handlerDone j ret body addr)) := by
  unfold Sys.handlerDone at hs
  split at hs
  · next n x proc args hj =>
    split_ifs at hs with hab hneg hav <;> cases hs
    · -- `VERIFY(rh.ret >= 0)` ends the server before anything is packed
      refine h.of_same ?_ rfl rfl rfl h.jobs
      intro job hjob
      cases hj.symm.trans hjob
      exact fun hret => absurd hret (not_le.mpr hneg)
    · have hn : n ∈ keys := h.jobs _ (List.mem_of_getElem? hj)
      obtain ⟨hok,hlost⟩ := bufsOk_packed hkeys hzero h j hn addr
        ⟨x, handlerRet proc ret, handlerBody cfg proc body⟩
        (s.execs ++ [⟨n, x, proc, args, handlerRet proc ret, handlerBody cfg proc body⟩])
      refine ⟨hok,hlost.trans (and_congr_right fun _ => ⟨?_,?_⟩)⟩
      · intro hentry job hjob
        cases hj.symm.trans hjob
        exact fun _ => hentry
      · exact fun haw => haw _ hj (not_lt.mp hneg)
  · cases hs

/-- A step keeps the buffers apart, and none is lost by it if and only if the handler that it
ends, if any, is awaited. -/
theorem bufsOk_step (hreq : ∀ q ∈ s.requests, q.cltNonce ∈ keys) (hs : step cfg ub s a = some s') :
    BufsOk keys s' ∧ (NoneLost keys s' ↔ NoneLost keys s ∧ Awaited s a) := by
  cases step_cases cfg ub s s' a hs with
  | refused | call1 | gotPdu | callEnd | bindRecord | cancel | oldsrv =>
    exact h.of_same trivial rfl rfl rfl h.jobs
  | aborts =>
    cases a with
    | handlerDone j ret body addr => exact bufsOk_handlerDone cfg hkeys hzero h hs
    | call1 | gotPdu | callEnd | bindRecord | cancel | dispatch | sendReply =>
      exact h.of_same trivial rfl rfl rfl h.jobs
  | unchecked k q hk h0 =>
    exact absurd (h0 ▸ hreq q (List.mem_of_getElem? hk)) hzero
  | checked k q hk =>
    obtain ⟨hok,hlost⟩ := bufsOk_checked cfg hkeys h q (hreq q (List.mem_of_getElem? hk.1))
    exact ⟨hok,hlost.trans (and_iff_left trivial).symm⟩
  | handlerDone j n x proc args ret body addr hj hret ha =>
    exact bufsOk_handlerDone cfg hkeys hzero h hs
  | sendReply j n b hj hub =>
    have hn : n ∈ keys := h.jobs _ (List.mem_of_getElem? hj)
    -- the buffer is freed after its send only for a client without a nonce
    have hne : n ≠ 0 := fun h0 => hzero (h0 ▸ hn)
    exact h.of_same trivial rfl rfl (if_neg hne) fun job hjob =>
      h.jobs job (List.mem_of_mem_eraseIdx hjob)

end

omit [DecidableEq ι] in
theorem bufsOk_init (keys : List ℕ) : BufsOk keys (Sys.init : Sys ι α β) where
  jobs := nofun
  ascending _ := .nil
  covers _ _ := rfl
  numbered := by
    have hheld : (Sys.init : Sys ι α β).server.held keys = [] :=
      List.flatMap_eq_nil_iff.mpr fun _ _ => rfl
    rw [hheld]
    exact ⟨.nil,nofun⟩

theorem requests_step (ub : Bool) {s s' : Sys ι α β} {a : Act ι α β}
    (hs : step cfg ub s a = some s') :
    s.requests ⊆ s'.requests := by
  cases step_cases cfg ub s s' a hs with
  | call1 => exact List.subset_append_left _ _
  | refused | gotPdu | callEnd | bindRecord | cancel | oldsrv | aborts | unchecked | checked
  | handlerDone | sendReply =>
    exact List.Subset.refl _

theorem requests_run (ub : Bool) {s t : Sys ι α β} {acts : List (Act ι α β)}
    (hrun : run (step cfg ub) s acts = some t) : s.requests ⊆ t.requests :=
  run_invariant (step cfg ub) (fun u => s.requests ⊆ u.requests)
    (fun _ _ _ h hs => List.Subset.trans h (requests_step cfg ub hs))
    s t acts (List.Subset.refl _) hrun

theorem nonce_ne_zero_of_run (ub : Bool) {t : Sys ι α β} {acts : List (Act ι α β)}
    (hrun : run (step cfg ub) Sys.init acts = some t) : ∀ q ∈ t.requests, q.cltNonce ≠ 0 := by
  refine run_invariant (step cfg ub) (fun t => ∀ q ∈ t.requests, q.cltNonce ≠ 0) ?_ _ t acts
    (fun q hq => absurd hq List.not_mem_nil) hrun
  intro s a s' h hs
  cases step_cases cfg ub s s' a hs with
  | call1 i proc args =>
    intro q hq
    rcases List.mem_append.mp hq with hq | hq
    · exact h q hq
    · rw [List.mem_singleton.mp hq]
      exact cfg.nonce_ne_zero i
  | refused | gotPdu | callEnd | bindRecord | cancel | oldsrv | aborts | unchecked | checked
  | handlerDone | sendReply =>
    exact h

theorem bufsOk_run (hkeys : keys.Nodup) (hzero : 0 ∉ keys) (ub : Bool) {s t : Sys ι α β}
    {acts : List (Act ι α β)} (h : BufsOk keys s) (hreq : ∀ q ∈ t.requests, q.cltNonce ∈ keys)
    (hrun : run (step cfg ub) s acts = some t) :
    BufsOk keys t ∧ (NoneLost keys t ↔ NoneLost keys s ∧ RunAll (step cfg ub) Awaited s acts) := by
  induction acts generalizing s with
  | nil =>
    cases hrun
    exact ⟨h,(and_iff_left trivial).symm⟩
  | cons a acts ih =>
    obtain ⟨s',hs,hrest⟩ := run_cons_some _ _ _ _ _ hrun
    -- requests stay, so the clients of the last state are all clients
    have hreqs : ∀ q ∈ s.requests, q.cltNonce ∈ keys :=
      fun q hq => hreq q (requests_run cfg ub hrun hq)
    obtain ⟨hok,hstep⟩ := bufsOk_step cfg hkeys hzero ub h hreqs hs
    obtain ⟨hlast,hlost⟩ := ih hok hrest
    have hall : RunAll (step cfg ub) Awaited s (a :: acts) ↔
        Awaited s a ∧ RunAll (step cfg ub) Awaited s' acts := by
      simp only [RunAll, hs, Option.some.injEq, forall_eq']
    exact ⟨hlast,by rw [hlost, hstep, hall, and_assoc]⟩

theorem Rpcs.Keys.bufs_eq_nil {s : Rpcs α β} (h : s.Keys keys) :
    ∀ n, n ∉ keys → bufs (s.replyWindow n) = [] := by
  intro n hn
  rw [h.covers n hn]
  rfl

omit [DecidableEq ι] in
theorem BufsOk.ownedOnce_iff {s : Sys ι α β} (h : BufsOk keys s) (hk : s.server.Keys keys) :
    OwnedOnce s ↔ NoneLost keys s := by
  refine forall₂_congr fun b _ => ?_
  rw [← count_held_eq_one_iff hk.bufs_eq_nil hk.nodup]
  exact ⟨fun hone => List.count_pos_iff.mp (hone ▸ Nat.one_pos),
    List.count_eq_one_of_mem h.numbered.nodup⟩

omit [DecidableEq ι] in
theorem OwnedOnce.allFreed {s : Sys ι α β} (h : OwnedOnce s) : AllFreed s := by
  intro keys hk b hb
  rw [freeReplyWindow_freed]
  exact (count_held_eq_one_iff hk.bufs_eq_nil hk.nodup).mpr (h b hb)

/-- No run frees a buffer twice, with `free_reply_window` at its end or without. Each buffer is
in one window, once, or freed once, and `free_reply_window` then leaves each freed once, if and
only if each handler that has ended in the run was awaited by its entry. -/
theorem reply_buffers_owned_once (ub : Bool) (acts : List (Act ι α β)) (s : Sys ι α β)
    (hrun : run (step cfg ub) Sys.init acts = some s) :
    s.server.freed.Nodup ∧
    (∀ keys, s.server.Keys keys → (s.server.freeReplyWindow keys).freed.Nodup) ∧
      (OwnedOnce s ∧ AllFreed s ↔ RunAll (step cfg ub) Awaited Sys.init acts) := by
  have hkeys : (s.requests.map (·.cltNonce)).dedup.Nodup := List.nodup_dedup _
  have hreq : ∀ q ∈ s.requests, q.cltNonce ∈ (s.requests.map (·.cltNonce)).dedup :=
    fun q hq => List.mem_dedup.mpr (List.mem_map_of_mem hq)
  have hzero : 0 ∉ (s.requests.map (·.cltNonce)).dedup := by
    intro h0
    obtain ⟨q,hq,hq0⟩ := List.mem_map.mp (List.mem_dedup.mp h0)
    exact nonce_ne_zero_of_run cfg ub hrun q hq hq0
  obtain ⟨hok,hlost⟩ := bufsOk_run cfg hkeys hzero ub (bufsOk_init _) hreq hrun
  have hk : s.server.Keys (s.requests.map (·.cltNonce)).dedup := ⟨hkeys,hok.covers⟩
  refine ⟨hok.numbered.nodup.of_append_left,?_,?_⟩
  · intro keys' hk'
    rw [freeReplyWindow_freed]
    have hperm := held_perm_keys s.server.freed hk.nodup hk'.nodup hk.bufs_eq_nil hk'.bufs_eq_nil
    exact hperm.nodup_iff.mp hok.numbered.nodup
  · calc OwnedOnce s ∧ AllFreed s ↔ OwnedOnce s := and_iff_left_of_imp OwnedOnce.allFreed
      _ ↔ NoneLost _ s := hok.ownedOnce_iff hk
      _ ↔ RunAll (step cfg ub) Awaited Sys.init acts := hlost.trans (and_iff_right nofun)

end

theorem reply_buffers_owned_once_bind :
    ∃ s, run (step twoClients false) Sys.init triplicateBind = some s ∧ s.server.heap.length = 1 ∧
      OwnedOnce s ∧ AllFreed s := by
  have hends : ∃ s, run (step twoClients false) Sys.init triplicateBind = some s ∧
      s.server.heap.length = 1 := by
    decide
  obtain ⟨s,hrun,hheap⟩ := hends
  have hall : RunAll (step twoClients false) Awaited Sys.init triplicateBind := by decide
  exact ⟨s,hrun,hheap,(reply_buffers_owned_once twoClients false triplicateBind s hrun).2.2.mpr
    hall⟩

section
variable {ι α β : Type*} [DecidableEq ι] (cfg : Config ι β)

/-- The request, if the step classifies one, prunes no entry that waits for its reply. -/
def KeepsWaiting (s : Sys ι α β) (a : Act ι α β) : Prop :=
  ∀ k q, a = .dispatch k → s.Checks cfg k q →
    ∀ r ∈ prunedBy q.xidRep (s.server.replyWindow q.cltNonce).length
      (s.server.replyWindow q.cltNonce), r.buf ≠ none

/-- Each running handler has its entry in the window. -/
def Waiting (s : Sys ι α β) : Prop :=
  ∀ n x proc args, Job.handling n x proc args ∈ s.server.jobs →
    n ≠ 0 ∧ ∃ r ∈ s.server.replyWindow n, r.xid = x ∧ r.buf = none

section
omit [DecidableEq ι]

theorem Waiting.awaited {s : Sys ι α β} (h : Waiting s) (a : Act ι α β) : Awaited s a := by
  cases a with
  | handlerDone j ret body addr =>
    intro job hjob
    cases job with
    | handling n x proc args => exact fun _ => (h n x proc args (List.mem_of_getElem? hjob)).2
    | sending => trivial
  | call1 | gotPdu | callEnd | bindRecord | cancel | dispatch | sendReply => trivial

theorem waiting_checked {s : Sys ι α β} (h : Waiting s) {k : ℕ} {q : Req α} (hk : s.Checks cfg k q)
    (hkeep : KeepsWaiting cfg s (.dispatch k)) : Waiting (s.checked cfg q) := by
  intro n x proc args hjob
  rcases List.mem_append.mp hjob with hjob | hjob
  · obtain ⟨h0,r,hr,hrx,hnone⟩ := h n x proc args hjob
    refine ⟨h0,r,?_,hrx,hnone⟩
    by_cases hn : n = q.cltNonce
    · subst hn
      have hkept := ((mem_kept_or_pruned _ _ _ r).mp hr).resolve_right fun hp =>
        hkeep k q rfl hk r hp hnone
      rw [replyWindow_checked]
      exact (mem_check_window _ _ _ r).mpr (Or.inl hkept)
    · rw [replyWindow_checked_of_ne cfg s q hn]
      exact hr
  · rcases statusJobs_cases q _ _ hjob with ⟨hnew,he⟩ | ⟨-,b,-,he⟩
    · cases he
      refine ⟨hk.2.2.2.2,⟨q.xid, false, none⟩,?_,rfl,rfl⟩
      rw [replyWindow_checked]
      exact (mem_check_window _ _ _ _).mpr (Or.inr ⟨hnew,rfl⟩)
    · cases he

/-- No second handler of the request runs, so the entry that is filled is no other's. -/
theorem waiting_packed {s : Sys ι α β} (h : Waiting s) (honce : AtMostOnce cfg s) {j n x proc : ℕ}
    {args : α}
    (hj : s.server.jobs[j]? = some (.handling n x proc args)) (addr : Addr) (ret : ℤ) (body : β)
    (execs : List (Exec α β)) :
    Waiting { s with server := s.server.packed j n addr ⟨x, ret, body⟩, execs := execs } := by
  intro m y proc' args' hjob
  have hother : Job.handling m y proc' args' ∈ s.server.jobs.eraseIdx j := by
    rcases List.mem_append.mp hjob with hjob | hjob
    · exact hjob
    · cases List.mem_singleton.mp hjob
  have hn : n ≠ 0 := (h n x proc args (List.mem_of_getElem? hj)).1
  obtain ⟨hm0,r,hr,hry,hnone⟩ := h m y proc' args' (List.mem_of_mem_eraseIdx hother)
  refine ⟨hm0,r,?_,hry,hnone⟩
  by_cases hm : m = n
  · subst hm
    have hne : r.xid ≠ x := by
      rintro rfl
      subst hry
      -- a second handler of the request would be a second NEW
      have hruns := (honce.execs m r.xid hn).trans (honce.windows.once m r.xid)
      have hcount := count_key_eraseIdx s.server.jobs j _ (m, r.xid) hj
      have hrest : 0 < ((s.server.jobs.eraseIdx j).filterMap Job.key).count (m, r.xid) :=
        List.count_pos_iff.mpr (List.mem_filterMap.mpr ⟨_,hother,rfl⟩)
      have hself : (Job.handling m r.xid proc args).key.toList.count (m, r.xid) = 1 :=
        List.count_singleton_self
      rw [handlerRuns] at hruns
      omega
    rw [replyWindow_packed _ j (Nat.pos_of_ne_zero hn)]
    exact List.mem_map.mpr ⟨r,hr,if_neg hne⟩
  · rw [replyWindow_packed_of_ne _ j addr _ hm]
    exact hr

end

theorem waiting_step (ub : Bool) {s s' : Sys ι α β} {a : Act ι α β} (h : Waiting s)
    (honce : AtMostOnce cfg s)
    (hkeep : KeepsWaiting cfg s a) (hs : step cfg ub s a = some s') : Waiting s' := by
  cases step_cases cfg ub s s' a hs with
  | refused | call1 | gotPdu | callEnd | bindRecord | cancel | oldsrv | aborts => exact h
  | unchecked k q hk h0 =>
    obtain ⟨i,hi,-⟩ := honce.ordered.request q (List.mem_of_getElem? hk)
    exact absurd (hi.symm.trans h0) (cfg.nonce_ne_zero i)
  | checked k q hk => exact waiting_checked cfg h hk hkeep
  | handlerDone j n x proc args ret body addr hj hret ha =>
    exact waiting_packed cfg h honce hj addr _ _ _
  | sendReply j n b hj hub =>
    exact fun m x proc args hjob => h m x proc args (List.mem_of_mem_eraseIdx hjob)

/-- A reply is awaited unless an xid wraps or the entry of a running handler is pruned. -/
theorem awaited_of_keepsWaiting (ub : Bool) (acts : List (Act ι α β))
    (hcond : RunAll (step cfg ub) (fun s a => NoWrap s a ∧ KeepsWaiting cfg s a) Sys.init acts) :
    RunAll (step cfg ub) Awaited Sys.init acts := by
  have hinit : Waiting (Sys.init : Sys ι α β) ∧ AtMostOnce cfg (Sys.init : Sys ι α β) :=
    ⟨nofun,atMostOnce_init cfg⟩
  refine runAll_of_all _ _ _ (fun s => Waiting s ∧ AtMostOnce cfg s) ?_
    (fun s a hi _ => hi.1.awaited a) _ _ hinit hcond
  intro s a s' hi hc hs
  exact ⟨waiting_step cfg ub hi.1 hi.2 hc.2 hs,atMostOnce_step cfg ub s s' a hi.2 hc.1 hs⟩

end

/-- The handlers of calls 2 to 101 run, and call 2 times out. Call 102 then reports
`xid_rep = 2`, so its arrival prunes entry 2, and `add_reply` does not find it when the handler
of call 2 ends. -/
def lostReply : List (Act Bool Unit ℕ) :=
  bindRun false 0 0 0 ++ List.replicate 100 (.call1 false 2 ()) ++ (List.range 100).map
    (fun k => .dispatch (k+1)) ++
    [.callEnd false 2, .call1 false 2 (), .dispatch 101, .handlerDone 0 5 50 1]

set_option maxRecDepth 10000 in
theorem lostReply_runs :
    ∃ s, run (step twoClients false) Sys.init lostReply = some s ∧
    (false, 2, timeoutFailure, none) ∈ s.returns ∧
      s.server.heap.length = 2 ∧ 1 ∉ s.server.held [7] ∧ (∀ q ∈ s.requests, q.cltNonce ∈ [7]) ∧
      ∀ i, issued twoClients s i < 2^31 := by
  decide +kernel

/-- The reply buffer of call 2 is in no window and never freed. -/
theorem reply_buffer_lost :
    ∃ s, run (step twoClients false) Sys.init lostReply = some s ∧
      RunAll (step twoClients false) NoWrap Sys.init lostReply ∧
      (false, 2, timeoutFailure, none) ∈ s.returns ∧
      ¬ OwnedOnce s ∧ ¬ AllFreed s := by
  obtain ⟨s,hrun,hret,hheap,hlost,hreq,hb⟩ := lostReply_runs
  have hwrap := (runAll_noWrap twoClients false _ s _ (xidCount_init twoClients) hrun hb).1
  have hok :=
    (bufsOk_run twoClients (List.nodup_singleton 7) (by decide) false (bufsOk_init _) hreq hrun).1
  have hk : s.server.Keys [7] := ⟨List.nodup_singleton 7,hok.covers⟩
  have hnot : ¬ AllFreed s := by
    intro hall
    have hone := hall [7] hk 1 (by rw [hheap]; decide)
    rw [freeReplyWindow_freed, List.count_eq_zero_of_not_mem hlost] at hone
    cases hone
  exact ⟨s,hrun,hwrap,hret,fun h => hnot h.allFreed,hnot⟩

end Yfs.Rpc
