import Mathlib.Data.Fintype.Basic
import Mathlib.Data.List.Nodup
import Yfs.ExtentCoherence

namespace Yfs.Extent

/-- What the lock client calls when it is shut down, or gives a lock back. -/
inductive ShutdownCall (ε : Type*)
  | dorelease (lid : ε)
  | release (lid : ε)
  | unattach
  deriving DecidableEq

section
variable {κ τ ε β : Type*} [DecidableEq κ] [DecidableEq τ] [DecidableEq ε] [DecidableEq β]

/-- The loop over `lock_map`, with the calls that it makes. The statuses that the server
returns are not looked at. -/
def destructorLoop : Lock.Client τ ε → List ε → Lock.Client τ ε × List (ShutdownCall ε)
  | c, [] => (c, [])
  | c, lid :: lids =>
    let r := destructorLoop (c.setStatus lid .none) lids
    -- a lock that is only asked for passes the test too, and nothing is flushed
    if c.lockMap lid ≠ some .none then (r.1, .release lid :: r.2) else r

/-- `lids` are the keys of `lock_map`. -/
def destructor (c : Lock.Client τ ε) (lids : List ε) : Lock.Client τ ε × List (ShutdownCall ε) :=
  let r := destructorLoop c lids
  (r.1, r.2 ++ [.unattach])

/-- The keys of `lock_map`, in any order. -/
structure Keys (c : Lock.Client τ ε) (lids : List ε) : Prop where
  nodup : lids.Nodup
  mem : ∀ lid, lid ∈ lids ↔ c.lockMap lid ≠ none

/-- What a call of client `i` does; `none` where it does not return. -/
def ShutdownCall.exec (env : Env) (i : κ) (s : Sys κ τ ε β) : ShutdownCall ε → Option (Sys κ τ ε β)
  | .dorelease lid => (Extent.dorelease env i lid s.world).map fun w => { s with world := w }
  | .release lid => (s.server.release lid i).map fun r => { s with server := r.1 }
  -- the handler locks `statusMutex` twice
  | .unattach => none

/-- The extent is cached, if at all, as the server has it. -/
def Clean (w : World κ τ ε β) (i : κ) (lid : ε) : Prop :=
  ∀ d ∈ (w.caches i).fileDataMap lid, d.isDirty = false ∧ d.isRemoved = false

/-- When a release is sent, the lock is the client's, its extent has been flushed, and the
server has what was put last. -/
def ReleasesFlushed (content : ε → Option (List β)) (i : κ) (s : Sys κ τ ε β) :
    ShutdownCall ε → Prop
  | .release lid => Lock.holder (s.server.lockStatusMap lid) = some i ∧ Clean s.world i lid ∧
      s.world.server.contents lid = content lid
  | _ => True

/-- No lock is being acquired, and the locks that the client has are those of clean extents. -/
structure NothingPending (s : Sys κ τ ε β) (i : κ) : Prop where
  acquiring : ∀ lid, (s.clients i).lockMap lid ≠ some .acquiring
  clean : ∀ lid, Lock.HasLock ((s.clients i).lockMap lid) → Clean s.world i lid

omit [DecidableEq τ] in
/-- One call for every key whose status is not NONE. -/
theorem destructorLoop_calls (c : Lock.Client τ ε) (lids : List ε) (h : lids.Nodup) :
    (destructorLoop c lids).2 =
      (lids.filter fun lid => c.lockMap lid ≠ some .none).map .release := by
  induction lids generalizing c with
  | nil => rfl
  | cons lid lids ih =>
    obtain ⟨hlid,hrest⟩ := List.nodup_cons.mp h
    have hothers : (lids.filter fun l => (c.setStatus lid .none).lockMap l ≠ some .none) =
        lids.filter fun l => c.lockMap l ≠ some .none := by
      refine List.filter_congr fun l hl => ?_
      have hne : l ≠ lid := fun he => hlid (he ▸ hl)
      have hkept : (c.setStatus lid .none).lockMap l = c.lockMap l := Function.update_of_ne hne _ _
      rw [hkept]
    rw [destructorLoop]
    by_cases hst : c.lockMap lid = some .none
    · rw [if_neg (not_not.mpr hst), List.filter_cons_of_neg (by simp [hst]), ih _ hrest, hothers]
    · rw [if_pos hst, List.filter_cons_of_pos (by simp [hst]), List.map_cons, ih _ hrest, hothers]

omit [DecidableEq τ] in
theorem destructor_calls (c : Lock.Client τ ε) (lids : List ε) (h : lids.Nodup) :
    (destructor c lids).2 = (lids.filter fun lid => c.lockMap lid ≠ some .none).map .release ++
    [.unattach] := by
  rw [destructor, destructorLoop_calls c lids h]

/-- With no lock being acquired, these are the locks that the client has. -/
theorem hasLock_iff {st : Option Lock.LockSt} (h : st ≠ some .acquiring) :
    Lock.HasLock st ↔ st ≠ none ∧ st ≠ some .none := by
  rcases st with _ | st
  · simp [Lock.HasLock]
  · cases st <;> simp_all [Lock.HasLock]

section
omit [DecidableEq τ]

omit [DecidableEq ε] in
theorem mem_released {c : Lock.Client τ ε} {lids : List ε} (h : Keys c lids)
    (hacq : ∀ lid, c.lockMap lid ≠ some .acquiring) (lid : ε) :
    lid ∈ lids.filter (fun lid => c.lockMap lid ≠ some .none) ↔ Lock.HasLock (c.lockMap lid) := by
  rw [List.mem_filter, h.mem, decide_eq_true_eq, hasLock_iff (hacq lid)]

theorem release_mem_destructor {c : Lock.Client τ ε} {lids : List ε} (h : Keys c lids)
    (hacq : ∀ lid, c.lockMap lid ≠ some .acquiring) (lid : ε) :
    .release lid ∈ (destructor c lids).2 ↔ Lock.HasLock (c.lockMap lid) := by
  rw [destructor_calls c lids h.nodup, ← mem_released h hacq lid]
  simp

theorem destructor_nodup {c : Lock.Client τ ε} {lids : List ε} (h : lids.Nodup) :
    (destructor c lids).2.Nodup := by
  rw [destructor_calls c lids h]
  refine List.nodup_append.mpr ⟨(h.filter _).map fun _ _ he => ShutdownCall.release.inj he,
    List.nodup_singleton _,?_⟩
  intro a ha b hb
  obtain ⟨lid,-,rfl⟩ := List.mem_map.mp ha
  obtain rfl := List.mem_singleton.mp hb
  exact nofun

end

theorem release_other {srv : Lock.Server κ ε} {lid l : ε} {i : κ}
    {r : Lock.Server κ ε × Option Lock.Ret} (h : srv.release lid i = some r) (hl : l ≠ lid) :
    r.1.lockStatusMap l = srv.lockStatusMap l := by
  unfold Lock.Server.release at h
  split at h
  · cases h
    rfl
  · split_ifs at h
    · cases h
      exact Function.update_of_ne hl _ _
    · cases h
      rfl

omit [DecidableEq τ] [DecidableEq β] in
theorem releases_flushed (env : Env) (content : ε → Option (List β)) (i : κ) (lids : List ε)
    (hnodup : lids.Nodup)
    (s : Sys κ τ ε β) (h : ∀ lid ∈ lids, ReleasesFlushed content i s (.release lid)) :
    RunAll (ShutdownCall.exec env i) (ReleasesFlushed content i) s
    (lids.map .release ++ [.unattach]) := by
  induction lids generalizing s with
  | nil => exact ⟨trivial,fun _ hs => by cases hs⟩
  | cons lid lids ih =>
    obtain ⟨hlid,hrest⟩ := List.nodup_cons.mp hnodup
    obtain ⟨hfirst,hothers⟩ := List.forall_mem_cons.mp h
    refine ⟨hfirst,fun s' hs => ih hrest s' ?_⟩
    intro l hl
    obtain ⟨r,hr,rfl⟩ := Option.map_eq_some_iff.mp hs
    obtain ⟨howner,hclean,hstored⟩ := hothers l hl
    refine ⟨?_,hclean,hstored⟩
    rw [release_other hr fun he => hlid (he ▸ hl)]
    exact howner

theorem flushed_of_clean (srv : Server ε β) (acts : List (Act κ τ ε β)) {s : Sys κ τ ε β}
    (hrun : run (step true) (init κ τ srv) acts = some s) {i : κ} {lid : ε}
    (hlock : Lock.HasLock ((s.clients i).lockMap lid)) (hclean : Clean s.world i lid) :
    ReleasesFlushed (LockedStore.lastPut srv.contents s.world.events) i s (.release lid) := by
  obtain ⟨st,hst,hc⟩ := coherent_run srv acts s hrun
  have hcontent : st.content = LockedStore.lastPut srv.contents s.world.events :=
    LockedStore.content_eq_lastPut _ st _ hst
  refine ⟨((hc.owner lid).owner i).mp (.inl hlock),hclean,?_⟩
  rw [← hcontent, hc.content i lid (.inl hlock)]
  cases hd : (s.world.caches i).fileDataMap lid with
  | none => simp [Client.cached, hd, Server.contents]
  | some d =>
    -- a clean copy is what the server has
    have hvisible := (hc.cache i lid d hd).2.1 (hclean d hd).1
    simp [Client.cached, hd, Server.contents, hvisible]

/-- One release for each lock that the client has and none for another one. -/
def ReleasesHeld (c : Lock.Client τ ε) (calls : List (ShutdownCall ε)) : Prop :=
  ∀ lid, (Lock.HasLock (c.lockMap lid) → calls.count (.release lid) = 1) ∧
    (¬ Lock.HasLock (c.lockMap lid) → .release lid ∉ calls)

omit [DecidableEq τ] in
theorem releasesHeld_iff {c : Lock.Client τ ε} {lids : List ε} (h : Keys c lids) :
    ReleasesHeld c (destructor c lids).2 ↔ ∀ lid, c.lockMap lid ≠ some .acquiring := by
  constructor
  · -- a lock that is being acquired is released
    intro hheld lid hacq
    refine (hheld lid).2 (by simp [hacq, Lock.HasLock]) ?_
    rw [destructor_calls c lids h.nodup]
    simp [h.mem, hacq]
  · intro hacq lid
    have hiff := release_mem_destructor h hacq lid
    exact ⟨fun hlid => List.count_eq_one_of_mem (destructor_nodup h.nodup) (hiff.mpr hlid),
      fun hlid hin => hlid (hiff.mp hin)⟩

/-- In every state of the clients and their caches that can be reached, a client has nothing pending
if and only if it sends one release for each lock that it has and none for another one, and each
of them for a lock that is its own, with the last content of the extent at the server. It is so
at each release when the calls are made one after the other. -/
theorem shutdown_returns_locks (srv : Server ε β) (acts : List (Act κ τ ε β)) (s : Sys κ τ ε β)
    (hrun : run (step true) (init κ τ srv) acts = some s) (i : κ) (lids : List ε)
    (hkeys : Keys (s.clients i) lids) (env : Env) :
    (ReleasesHeld (s.clients i) (destructor (s.clients i) lids).2 ∧
      (∀ call ∈ (destructor (s.clients i) lids).2,
        ReleasesFlushed (LockedStore.lastPut srv.contents s.world.events) i s call) ↔
      NothingPending s i) ∧
    (NothingPending s i → RunAll (ShutdownCall.exec env i)
      (ReleasesFlushed (LockedStore.lastPut srv.contents s.world.events) i) s
      (destructor (s.clients i) lids).2) := by
  have hflushed (hpending : NothingPending s i) (lid : ε) (hlid : lid ∈ lids.filter fun lid =>
      (s.clients i).lockMap lid ≠ some .none) :
      ReleasesFlushed (LockedStore.lastPut srv.contents s.world.events) i s (.release lid) := by
    have hlock := (mem_released hkeys hpending.acquiring lid).mp hlid
    exact flushed_of_clean srv acts hrun hlock (hpending.clean lid hlock)
  rw [releasesHeld_iff hkeys, destructor_calls _ lids hkeys.nodup]
  refine ⟨⟨?_,?_⟩,fun hpending => ?_⟩
  · rintro ⟨hacq,hall⟩
    refine ⟨hacq,fun lid hlock => (hall (.release lid) ?_).2.1⟩
    exact List.mem_append_left _ (List.mem_map_of_mem ((mem_released hkeys hacq lid).mpr hlock))
  · intro hpending
    refine ⟨hpending.acquiring,fun call hcall => ?_⟩
    rcases List.mem_append.mp hcall with hcall | hcall
    · obtain ⟨lid,hlid,rfl⟩ := List.mem_map.mp hcall
      exact hflushed hpending lid hlid
    · rw [List.mem_singleton.mp hcall]
      trivial
  · exact releases_flushed env _ i _ (hkeys.nodup.filter _) s (hflushed hpending)

end

def oneExtentOfEight : Server (Fin 8) ℕ :=
  ⟨fun eid => if eid = 5 then some ⟨[7], ⟨0, 0, 0, 1⟩⟩ else none⟩

/-- Client `false` acquires lock 5. -/
def takesLock : List (Act Bool Unit (Fin 8) ℕ) :=
  [.lock (.acquire false () 5) ⟨0, 0⟩, .lock (.acquireLoop false ()) ⟨0, 0⟩,
    .lock (.serverAcquire false) ⟨0, 0⟩, .lock (.acquireReturn false) ⟨0, 0⟩]

/-- It reads extent 5 and releases the lock. -/
def readsExtent : List (Act Bool Unit (Fin 8) ℕ) :=
  takesLock ++ [.get false () 5 ⟨0, 0⟩, .fetch false () ⟨0, 0⟩, .getattr false (), .insert false (),
    .lock (.release false () 5) ⟨0, 0⟩]

/-- It writes extent 5 and releases the lock. -/
def writesExtent : List (Act Bool Unit (Fin 8) ℕ) :=
  takesLock ++ [.put false () 5 ⟨0, 0⟩ [9], .lock (.release false () 5) ⟨0, 0⟩]

/-- Client `true` asks for lock 5 and is told to retry. -/
def asksForLock : List (Act Bool Unit (Fin 8) ℕ) :=
  takesLock ++ [.lock (.acquire true () 5) ⟨0, 0⟩, .lock (.acquireLoop true ()) ⟨0, 0⟩,
    .lock (.serverAcquire true) ⟨0, 0⟩, .lock (.acquireReturn true) ⟨0, 0⟩]

theorem keys_five {c : Lock.Client Unit (Fin 8)} (h : ∀ lid : Fin 8, lid ∈ [5] ↔
      c.lockMap lid ≠ none) : Keys c [5] :=
  ⟨List.nodup_singleton _,h⟩

theorem shutdown_returns_locks_read :
    ∃ s, run (step true) (init Bool Unit oneExtentOfEight) readsExtent = some s ∧
      (destructor (s.clients false) [5]).2 = [.release 5, .unattach] ∧
      NothingPending s false ∧ ReleasesHeld (s.clients false) (destructor (s.clients false) [5]).2 ∧
      RunAll (ShutdownCall.exec ⟨0, 0⟩ false)
        (ReleasesFlushed (LockedStore.lastPut oneExtentOfEight.contents s.world.events) false) s
        (destructor (s.clients false) [5]).2 := by
  have hends : ∃ s, run (step true) (init Bool Unit oneExtentOfEight) readsExtent = some s ∧
      (destructor (s.clients false) [5]).2 = [.release 5, .unattach] ∧
      (∀ lid : Fin 8, lid ∈ [5] ↔ (s.clients false).lockMap lid ≠ none) ∧
      (∀ lid, (s.clients false).lockMap lid ≠ some .acquiring) ∧
      ∀ lid, ∀ d ∈ (s.world.caches false).fileDataMap lid, d.isDirty = false ∧
        d.isRemoved = false := by
    decide +kernel
  obtain ⟨s,hrun,hcalls,hkeys,hacq,hclean⟩ := hends
  have hpending : NothingPending s false := ⟨hacq,fun lid _ => hclean lid⟩
  obtain ⟨hiff,hall⟩ := shutdown_returns_locks oneExtentOfEight readsExtent s hrun false [5]
    (keys_five hkeys) ⟨0, 0⟩
  exact ⟨s,hrun,hcalls,hpending,(hiff.mpr hpending).1,hall hpending⟩

/-- The destructor releases a lock that the client only asks for, which the server then opens
although another client's thread holds it; and it releases the lock of an extent that was
written, without a flush, so that the server has the old content. -/
theorem shutdown_loses :
    (∃ s, run (step true) (init Bool Unit oneExtentOfEight) asksForLock = some s ∧
      (∀ lid : Fin 8, lid ∈ [5] ↔ (s.clients true).lockMap lid ≠ none) ∧
      (s.clients true).lockMap 5 = some .acquiring ∧ (s.clients false).held () 5 = true ∧
      (destructor (s.clients true) [5]).2 = [.release 5, .unattach] ∧
      ((ShutdownCall.exec ⟨0, 0⟩ true s (.release 5)).map fun s' =>
        Lock.holder (s'.server.lockStatusMap 5)) = some none) ∧
    ∃ s, run (step true) (init Bool Unit oneExtentOfEight) writesExtent = some s ∧
      (∀ lid : Fin 8, lid ∈ [5] ↔ (s.clients false).lockMap lid ≠ none) ∧
      (destructor (s.clients false) [5]).2 = [.release 5, .unattach] ∧
      LockedStore.lastPut oneExtentOfEight.contents s.world.events 5 = some [9] ∧
      s.world.server.contents 5 = some [7] := by
  decide +kernel

end Yfs.Extent
