import Mathlib.Data.List.Induction
import Yfs.RpcWindow

namespace Yfs.Rpc

/-- A call that takes `reply_window_m_`. -/
inductive WindowCall
  | check (cltNonce xid xidRep : ℕ)
  | add (cltNonce xid : ℕ) (b : Addr)
  deriving DecidableEq

/-- `reply_window_`; a nonce that is not in the map has the empty list. -/
abbrev ReplyWindows := ℕ → List ReplyT

def windowCall (s : ReplyWindows) : WindowCall → ReplyWindows
  | .check n xid xidRep => Function.update s n (checkduplicateAndUpdate (s n) xid xidRep).window
  | .add n xid b => Function.update s n (addReply (s n) xid b)

def windowsAfter (calls : List WindowCall) : ReplyWindows := calls.foldl windowCall fun _ => []

/-- A client reports only xids below that of its request. -/
def WindowCall.Reports : WindowCall → Prop
  | .check _ xid xidRep => xidRep < xid
  | .add _ _ _ => True

instance : DecidablePred WindowCall.Reports
  | .check _ xid xidRep => inferInstanceAs (Decidable (xidRep < xid))
  | .add _ _ _ => isTrue trivial

/-- The call scans the window of `n`. -/
def WindowCall.Scans (n : ℕ) : WindowCall → Prop
  | .check m _ _ => m = n
  | .add _ _ _ => False

instance (n : ℕ) : DecidablePred (WindowCall.Scans n)
  | .check m _ _ => inferInstanceAs (Decidable (m = n))
  | .add _ _ _ => isFalse id

theorem windowsAfter_snoc (calls : List WindowCall) (c : WindowCall) :
    windowsAfter (calls ++ [c]) = windowCall (windowsAfter calls) c := by
  rw [windowsAfter, List.foldl_append]
  rfl

theorem addReply_ascending {w : List ReplyT} (hw : Ascending w) (xid : ℕ) (b : Addr) :
    Ascending (addReply w xid b) := by
  have hxids : (w.map (·.xid)).Pairwise (· < ·) := List.pairwise_map.mpr hw
  rw [← addReply_xids w xid b] at hxids
  exact List.pairwise_map.mp hxids

/-- An xid that a call forgets is reported, and below all that is still remembered. -/
theorem check_removed {w : List ReplyT} {xid xidRep : ℕ} (hw : Ascending w) (hrep : xidRep < xid)
    {r : ReplyT} (hr : r ∈ w)
    (hgone : ∀ k ∈ (checkduplicateAndUpdate w xid xidRep).window, k.xid ≠ r.xid) :
    r.xid ≤ xidRep ∧ ∀ k ∈ (checkduplicateAndUpdate w xid xidRep).window, r.xid < k.xid := by
  have hpruned : r ∈ prunedBy xidRep w.length w := by
    rcases (mem_kept_or_pruned xidRep w.length w r).mp hr with hkept | hpruned
    · exact absurd rfl (hgone r ((mem_check_window w xid xidRep r).mpr (.inl hkept)))
    · exact hpruned
  have hle := pruned_xid_le xidRep w.length w r hpruned
  refine ⟨hle, ?_⟩
  intro k hk
  rcases (mem_check_window w xid xidRep k).mp hk with hkept | ⟨_,rfl⟩
  · exact pruned_lt_kept xidRep w.length w hw r hpruned k hkept
  · exact Nat.lt_of_le_of_lt hle hrep

/-- The window is short, or the client has not reported any of it. -/
def Bounded (xidRep : ℕ) (w : List ReplyT) : Prop :=
  w.length ≤ slidingWindowSize ∨ ∀ r ∈ w, xidRep < r.xid

theorem check_bounded (w : List ReplyT) {xid xidRep : ℕ} (hrep : xidRep < xid) :
    Bounded xidRep (checkduplicateAndUpdate w xid xidRep).window := by
  by_cases hall : ∀ r ∈ keptBy xidRep w.length w, xidRep < r.xid
  · right
    intro r hr
    rcases (mem_check_window w xid xidRep r).mp hr with hkept | ⟨_,rfl⟩
    · exact hall r hkept
    · exact hrep
  · left
    push Not at hall
    obtain ⟨r,hr,hle⟩ := hall
    -- the scan stops below the window size, which leaves room for the new entry
    have hlt := kept_length_lt xidRep w r hr hle
    rw [check_window]
    split_ifs
    · rw [(insertReply_perm _ _).length_eq, List.length_cons]
      exact hlt
    · exact hlt.le

theorem addReply_bounded {w : List ReplyT} {xidRep : ℕ} (h : Bounded xidRep w) (xid : ℕ)
    (b : Addr) :
    Bounded xidRep (addReply w xid b) := by
  rcases h with hlen | hall
  · left
    rwa [addReply, List.length_map]
  · right
    intro r hr
    rcases mem_addReply w xid b r hr with ⟨hr,_⟩ | rfl
    · exact hall r hr
    · have hxid : xid ∈ (addReply w xid b).map (·.xid) := List.mem_map_of_mem hr
      rw [addReply_xids] at hxid
      obtain ⟨a,ha,rfl⟩ := List.mem_map.mp hxid
      exact hall a ha

theorem windowCall_ascending {s : ReplyWindows} (h : ∀ n, Ascending (s n)) (c : WindowCall) :
    ∀ n, Ascending (windowCall s c n) := by
  cases c with
  | check m xid xidRep =>
    exact (Function.forall_update_iff s fun _ w => Ascending w).mpr
      ⟨check_window_ascending _ xid xidRep (h m), fun n _ => h n⟩
  | add m xid b =>
    exact (Function.forall_update_iff s fun _ w => Ascending w).mpr
      ⟨addReply_ascending (h m) xid b, fun n _ => h n⟩

theorem windowsAfter_ascending (calls : List WindowCall) :
    ∀ n, Ascending (windowsAfter calls n) := by
  induction calls using List.reverseRecOn with
  | nil => exact fun _ => List.Pairwise.nil
  | append_singleton calls c ih =>
    rw [windowsAfter_snoc]
    exact windowCall_ascending ih c

theorem windowCall_ne_nil {s : ReplyWindows} {n : ℕ} (h : s n ≠ []) (c : WindowCall) :
    windowCall s c n ≠ [] := by
  cases c with
  | check m xid xidRep =>
    rw [windowCall, Function.update_apply]
    split_ifs
    · exact check_window_ne_nil _ xid xidRep
    · exact h
  | add m xid b =>
    rw [windowCall, Function.update_apply]
    split_ifs with hn
    · rw [addReply, ← hn]
      simpa using h
    · exact h

theorem windowsAfter_ne_nil {before : List WindowCall} {n : ℕ} (h : windowsAfter before n ≠ [])
    (after : List WindowCall) : windowsAfter (before ++ after) n ≠ [] := by
  induction after using List.reverseRecOn with
  | nil => rwa [List.append_nil]
  | append_singleton after c ih =>
    rw [← List.append_assoc, windowsAfter_snoc]
    exact windowCall_ne_nil ih c

/-- Only a scan of the window removes anything from it. -/
theorem windowCall_removed {s : ReplyWindows} {n : ℕ} (hs : Ascending (s n)) {c : WindowCall}
    (hrep : c.Reports) {r : ReplyT} (hr : r ∈ s n) (hgone : ∀ k ∈ windowCall s c n, k.xid ≠ r.xid) :
    ∃ xid xidRep, c = .check n xid xidRep ∧ r.xid ≤ xidRep ∧
    ∀ k ∈ windowCall s c n, r.xid < k.xid := by
  cases c with
  | check m xid xidRep =>
    rw [windowCall] at hgone ⊢
    by_cases hn : n = m
    · subst hn
      rw [Function.update_self] at hgone ⊢
      exact ⟨xid, xidRep, rfl, check_removed hs hrep hr hgone⟩
    · rw [Function.update_of_ne hn] at hgone
      exact absurd rfl (hgone r hr)
  | add m xid b =>
    -- the same xids are in all windows as before
    have hxids : (windowCall s (.add m xid b) n).map (·.xid) = (s n).map (·.xid) := by
      rw [windowCall, Function.update_apply]
      split_ifs with hn
      · rw [addReply_xids, hn]
      · rfl
    have hmem : r.xid ∈ (s n).map (·.xid) := List.mem_map_of_mem hr
    rw [← hxids] at hmem
    obtain ⟨k,hk,hkr⟩ := List.mem_map.mp hmem
    exact absurd hkr (hgone k hk)

theorem windowCall_bounded {s : ReplyWindows} {n xidRep : ℕ} (h : Bounded xidRep (s n))
    {c : WindowCall} (hc : ¬ c.Scans n) : Bounded xidRep (windowCall s c n) := by
  cases c with
  | check m xid xidRep' =>
    rw [windowCall, Function.update_of_ne (Ne.symm hc)]
    exact h
  | add m xid b =>
    rw [windowCall, Function.update_apply]
    split_ifs with hn
    · rw [← hn]
      exact addReply_bounded h xid b
    · exact h

theorem windowsAfter_bounded (before after : List WindowCall) (n : ℕ) {xid xidRep : ℕ}
    (hrep : xidRep < xid) (hafter : ∀ c ∈ after, ¬ c.Scans n) :
    Bounded xidRep (windowsAfter (before ++ .check n xid xidRep :: after) n) := by
  induction after using List.reverseRecOn with
  | nil =>
    rw [windowsAfter_snoc, windowCall, Function.update_self]
    exact check_bounded _ hrep
  | append_singleton after c ih =>
    rw [List.forall_mem_append, List.forall_mem_singleton] at hafter
    rw [← List.cons_append, ← List.append_assoc, windowsAfter_snoc]
    exact windowCall_bounded (ih hafter.1) hafter.2

/-- A window has every xid once and in order. It is not emptied again. What a call removes
is reported and below all that is left, and what is left after a scan is not more than the
window size or not reported, until the next scan of this window. -/
theorem reply_window_shape (n : ℕ) (calls : List WindowCall) (hrep : ∀ c ∈ calls, c.Reports) :
    Ascending (windowsAfter calls n) ∧
    (∀ before after, calls = before ++ after → windowsAfter before n ≠ [] →
      windowsAfter calls n ≠ []) ∧
    (∀ before c, calls = before ++ [c] → ∀ r ∈ windowsAfter before n,
      (∀ k ∈ windowsAfter calls n, k.xid ≠ r.xid) →
      ∃ xid xidRep, c = .check n xid xidRep ∧ r.xid ≤ xidRep ∧
        ∀ k ∈ windowsAfter calls n, r.xid < k.xid) ∧
    ∀ before xid xidRep after, calls = before ++ .check n xid xidRep :: after →
      (∀ c ∈ after, ¬ c.Scans n) →
      (windowsAfter calls n).length ≤ slidingWindowSize ∨
      ∀ r ∈ windowsAfter calls n, xidRep < r.xid := by
  refine ⟨windowsAfter_ascending calls n, ?_, ?_, ?_⟩
  · rintro before after rfl h
    exact windowsAfter_ne_nil h after
  · rintro before c rfl r hr hgone
    rw [windowsAfter_snoc] at hgone ⊢
    exact windowCall_removed (windowsAfter_ascending before n) (hrep c (by simp)) hr hgone
  · rintro before xid xidRep after rfl hafter
    exact windowsAfter_bounded before after n (hrep (.check n xid xidRep) (by simp)) hafter

/-- Two requests and a late reply to the first. -/
theorem reply_window_shape_two :
    Ascending (windowsAfter [.check 7 1 0, .check 7 2 0, .add 7 1 5] 7) ∧
      (windowsAfter [.check 7 1 0, .check 7 2 0, .add 7 1 5] 7).map (·.xid) = [1, 2] :=
  ⟨(reply_window_shape 7 [.check 7 1 0, .check 7 2 0, .add 7 1 5] (by decide)).1, by decide⟩

end Yfs.Rpc
