import Mathlib.Order.Bounds.Basic
import Yfs.Run
import Yfs.RpcXidRep

namespace Yfs.Rpc

/-- The inner loop, with `it` at `x` behind `pre`; `none` where it pops the element that `it`
points to. -/
def popFrontIt (x : ℕ) : List ℕ → Option (List ℕ)
  -- all before `it` is gone, so the front is what `it` points to
  | [] => if (x+1) % uintMod = x then none else some []
  | p :: ps => if (p+1) % uintMod = x then popFrontIt x ps else some (p :: ps)

def compressIt : List ℕ → List ℕ → Option (List ℕ)
  | pre, [] => some pre
  | pre, x :: xs => (popFrontIt x pre).bind fun pre => compressIt (pre ++ [x]) xs

/-- `update_xid_rep`; an empty list has no front. -/
def updateXidRepIt (w : List ℕ) (xid : ℕ) : Option (List ℕ) :=
  match w with
  | [] => none
  | f :: _ =>
    if xid ≤ f then some w
    else
      match insertXid xid w with
      | [] => none
      | f :: rest => compressIt [f] rest

theorem popFrontIt_eq (x : ℕ) (pre : List ℕ) : popFrontIt x pre = some (popFront x pre) := by
  induction pre with
  | nil =>
    have hne : ¬ (x+1) % uintMod = x := by
      rw [uintMod]
      omega
    rw [popFrontIt, if_neg hne, popFront]
  | cons p ps ih =>
    rw [popFrontIt, popFront, ih]
    split_ifs <;> rfl

/-- The element that `it` points to is never popped. -/
theorem compressIt_eq (pre rest : List ℕ) : compressIt pre rest = some (compress pre rest) := by
  induction rest generalizing pre with
  | nil => rfl
  | cons x xs ih => rw [compressIt, compress, popFrontIt_eq, Option.bind_some, ih]

theorem updateXidRepIt_eq (w : List ℕ) (xid : ℕ) (hne : w ≠ []) :
    updateXidRepIt w xid = some (updateXidRep w xid) := by
  obtain ⟨f,ws,rfl⟩ := List.exists_cons_of_ne_nil hne
  have hins : insertXid xid (f :: ws) ≠ [] :=
    List.ne_nil_of_mem ((mem_insertXid xid xid _).mpr (.inl rfl))
  obtain ⟨g,gs,hg⟩ := List.exists_cons_of_ne_nil hins
  simp only [updateXidRepIt, updateXidRep, List.headD_cons, hg, compressIt_eq]
  split_ifs <;> rfl

/-- Everything reported that is above the front is in the window, and what is in the window
does not go on from the front. -/
structure XidWindowExact (R : ℕ → Prop) (w : List ℕ) : Prop extends XidWindowOk R w where
  above : ∀ x, R x → w.headD 0 < x → x ∈ w
  gap : w.headD 0 + 1 ∉ w

theorem mem_popFront (x : ℕ) (pre xs : List ℕ) (hs : (pre ++ x :: xs).Pairwise (· ≤ ·)) (y : ℕ)
    (hy : (popFront x pre ++ x :: xs).headD 0 < y) (hmem : y ∈ pre ++ x :: xs) :
    y ∈ popFront x pre ++ x :: xs := by
  induction pre with
  | nil => exact hmem
  | cons p ps ih =>
    rw [popFront] at hy ⊢
    split_ifs at hy ⊢
    · have hsub : (popFront x ps ++ x :: xs).Sublist (p :: ps ++ x :: xs) :=
        ((popFront_sublist x ps).append (List.Sublist.refl _)).cons p
      -- `p` is not above the new front
      have hle : p ≤ (popFront x ps ++ x :: xs).headD 0 := headD_le_of_sublist hs hsub (by simp)
      refine ih (List.pairwise_cons.mp hs).2 hy ?_
      rcases List.mem_cons.mp hmem with rfl | hmem
      · omega
      · exact hmem
    · exact hmem

theorem mem_compress (pre rest : List ℕ) (hs : (pre ++ rest).Pairwise (· ≤ ·)) (y : ℕ)
    (hy : (compress pre rest).headD 0 < y) (hmem : y ∈ pre ++ rest) : y ∈ compress pre rest := by
  induction rest generalizing pre with
  | nil => simpa [compress] using hmem
  | cons x xs ih =>
    rw [compress] at hy ⊢
    have hsub : (popFront x pre ++ x :: xs).Sublist (pre ++ x :: xs) :=
      (popFront_sublist x pre).append (List.Sublist.refl _)
    have hsplit : popFront x pre ++ x :: xs = popFront x pre ++ [x] ++ xs := by simp
    have hs' : (popFront x pre ++ [x] ++ xs).Pairwise (· ≤ ·) := hsplit ▸ hs.sublist hsub
    have hle := headD_le_of_sublist hs' (compress_sublist _ xs) (compress_ne_nil _ xs (by simp))
    refine ih _ hs' hy (hsplit ▸ mem_popFront x pre xs hs y ?_ hmem)
    rw [hsplit]
    exact hle.trans_lt hy

theorem popFront_eq_nil (x : ℕ) (pre : List ℕ) (h : ∀ p ∈ pre, (p+1) % uintMod = x) :
    popFront x pre = [] := by
  induction pre with
  | nil => rfl
  | cons p ps ih =>
    obtain ⟨hp,hps⟩ := List.forall_mem_cons.mp h
    rw [popFront, if_pos hp, ih hps]

/-- If `x` goes on from the front, then all elements before it are equal, and they all go. -/
theorem popFront_gap (x : ℕ) (pre : List ℕ) (hs : (pre ++ [x]).Pairwise (· ≤ ·)) (hne : pre ≠ [])
    (hgap : pre.headD 0 + 1 ∉ pre) (hx : x + 1 < uintMod) :
    (popFront x pre ++ [x]).headD 0 + 1 ∉ popFront x pre ++ [x] := by
  obtain ⟨p,ps,rfl⟩ := List.exists_cons_of_ne_nil hne
  obtain ⟨hp,hps⟩ := List.pairwise_cons.mp hs
  change p + 1 ∉ p :: ps at hgap
  have hpx : p ≤ x := hp x (by simp)
  have hmod : (p+1) % uintMod = p+1 := Nat.mod_eq_of_lt (by omega)
  by_cases hnext : (p+1) % uintMod = x
  · have hall : ∀ q ∈ p :: ps, (q+1) % uintMod = x := by
      intro q hq
      rcases List.mem_cons.mp hq with rfl | hq
      · exact hnext
      · -- between `p` and `p+1`, and the latter is not there
        have hpq : p ≤ q := hp q (by simp [hq])
        have hqx : q ≤ x := (List.pairwise_append.mp hps).2.2 q hq x (by simp)
        have hq1 : q ≠ p + 1 := fun he => hgap (List.mem_cons_of_mem _ (he ▸ hq))
        have hqp : q = p := by omega
        rw [hqp, hnext]
    rw [popFront_eq_nil x _ hall]
    simp
  · rw [popFront, if_neg hnext]
    change p + 1 ∉ p :: ps ++ [x]
    rw [List.mem_append, List.mem_singleton, not_or]
    exact ⟨hgap,fun he => hnext (hmod.trans he)⟩

theorem compress_gap (pre rest : List ℕ) (hs : (pre ++ rest).Pairwise (· ≤ ·)) (hne : pre ≠ [])
    (hgap : pre.headD 0 + 1 ∉ pre) (hlt : ∀ x ∈ rest, x + 1 < uintMod) :
    (compress pre rest).headD 0 + 1 ∉ compress pre rest := by
  induction rest generalizing pre with
  | nil => exact hgap
  | cons x xs ih =>
    obtain ⟨hx,hxs⟩ := List.forall_mem_cons.mp hlt
    have hsplit : pre ++ x :: xs = pre ++ [x] ++ xs := by simp
    have hsub : (popFront x pre ++ [x] ++ xs).Sublist (pre ++ x :: xs) :=
      hsplit ▸ ((popFront_sublist x pre).append (List.Sublist.refl _)).append (List.Sublist.refl _)
    have hhere : (pre ++ [x]).Pairwise (· ≤ ·) := (List.pairwise_append.mp (hsplit ▸ hs)).1
    exact ih _ (hs.sublist hsub) (by simp) (popFront_gap x pre hhere hne hgap hx) hxs

theorem updateXidRep_exact {R S : ℕ → Prop} {w : List ℕ} {xid : ℕ} (hS : ∀ k, S k ↔ R k ∨ k = xid)
    (hlt : ∀ k, S k → k + 1 < uintMod) (h : XidWindowExact R w) :
    XidWindowExact S (updateXidRep w xid) := by
  have hRS : ∀ k, R k → S k := fun k hk => (hS k).mpr (.inl hk)
  have hok : XidWindowOk S (updateXidRep w xid) :=
    updateXidRep_ok S (fun k hk => (Nat.lt_succ_self k).trans (hlt k hk)) w xid (h.mono hRS)
      ((hS xid).mpr (.inr rfl))
  obtain ⟨f,ws,rfl⟩ := List.exists_cons_of_ne_nil h.ne_nil
  by_cases hle : xid ≤ f
  · -- everything up to the front was known
    have hsame : updateXidRep (f :: ws) xid = f :: ws := if_pos hle
    rw [hsame] at hok ⊢
    refine ⟨hok,fun x hx hfx => ?_,h.gap⟩
    rcases (hS x).mp hx with hx | rfl
    · exact h.above x hx hfx
    · exact absurd hle (not_le.mpr hfx)
  · obtain ⟨hins,hupd⟩ := updateXidRep_of_lt f xid ws (by omega)
    have hsorted : (f :: insertXid xid ws).Pairwise (· ≤ ·) :=
      hins ▸ insertXid_sorted xid _ h.sorted
    have hmem : ∀ x, f < x → S x → x ∈ [f] ++ insertXid xid ws := by
      intro x hfx hx
      rw [List.singleton_append, ← hins, mem_insertXid]
      exact ((hS x).mp hx).symm.imp_right fun hx => h.above x hx hfx
    have hsub := compress_sublist [f] (insertXid xid ws)
    have hfront := headD_le_of_sublist hsorted hsub (compress_ne_nil _ _ (List.cons_ne_nil _ _))
    have hbound : ∀ x ∈ insertXid xid ws, x + 1 < uintMod := by
      intro x hx
      refine hlt x ((hS x).mpr ?_)
      rcases (mem_insertXid xid x ws).mp hx with rfl | hx
      · exact .inr rfl
      · exact .inl (h.mem x (List.mem_cons_of_mem _ hx))
    rw [hupd] at hok ⊢
    refine ⟨hok,fun x hx hlt => ?_,?_⟩
    · exact mem_compress _ _ hsorted x hlt (hmem x (hfront.trans_lt hlt) hx)
    · exact compress_gap _ _ hsorted (List.cons_ne_nil _ _) (by simp) hbound

theorem run_xidWindow_exact (done xids : List ℕ) (w : List ℕ)
    (hlt : ∀ x ∈ done ++ xids, x + 1 < uintMod) (h : XidWindowExact (fun k => k = 0 ∨ k ∈ done) w) :
    ∃ w', run updateXidRepIt w xids = some w' ∧
    XidWindowExact (fun k => k = 0 ∨ k ∈ done ++ xids) w' := by
  induction xids generalizing done w with
  | nil => exact ⟨w,rfl,by rwa [List.append_nil]⟩
  | cons x xids ih =>
    have hsplit : done ++ x :: xids = done ++ [x] ++ xids := by simp
    have hstep : XidWindowExact (fun k => k = 0 ∨ k ∈ done ++ [x]) (updateXidRep w x) := by
      refine updateXidRep_exact (fun k => by simp [or_assoc]) ?_ h
      rintro k (rfl | hk)
      · decide
      · exact hlt k (hsplit ▸ List.mem_append_left _ hk)
    obtain ⟨w',hrun,hw'⟩ := ih _ _ (hsplit ▸ hlt) hstep
    refine ⟨w',?_,hsplit ▸ hw'⟩
    rw [run, updateXidRepIt_eq w x h.ne_nil, Option.bind_some, hrun]

/-- Whatever is reported, in any order and as often as it may be: the front is the largest
number up to which everything has been reported, and above it the window is what has been. -/
theorem xid_window_exact (xids : List ℕ) (hlt : ∀ x ∈ xids, x < 2^32 - 1) :
    ∃ w, run updateXidRepIt [0] xids = some w ∧ w ≠ [] ∧ w.Pairwise (· ≤ ·) ∧
      IsGreatest {k | ∀ j, 1 ≤ j → j ≤ k → j ∈ xids} (w.headD 0) ∧
      ∀ x, w.headD 0 < x → (x ∈ w ↔ x ∈ xids) := by
  have hstart : XidWindowExact (fun k => k = 0 ∨ k ∈ []) [0] :=
    ⟨⟨by simp,by simp,by simp,by simp⟩,by simp,by simp⟩
  have hbound : ∀ x ∈ [] ++ xids, x + 1 < uintMod := by
    intro x hx
    have := hlt x hx
    rw [uintMod]
    omega
  obtain ⟨w,hrun,hw⟩ := run_xidWindow_exact [] xids [0] hbound hstart
  rw [List.nil_append] at hw
  have habove : ∀ x, w.headD 0 < x → (x ∈ w ↔ x ∈ xids) := by
    intro x hx
    have hpos : x ≠ 0 := by omega
    exact ⟨fun hm => (hw.mem x hm).resolve_left hpos,fun hm => hw.above x (.inr hm) hx⟩
  refine ⟨w,hrun,hw.ne_nil,hw.sorted,⟨fun j hj hle => ?_,fun k hk => ?_⟩,habove⟩
  · exact (hw.front j hle).resolve_left (by omega)
  · -- the number after the front has not been reported
    by_contra hgt
    exact hw.gap ((habove _ (by omega)).mpr (hk _ (by omega) (by omega)))

theorem xid_window_exact_twice :
    ∃ w, run updateXidRepIt [0] [2, 2, 5, 1, 1, 3, 5] = some w ∧ w = [3, 5, 5] ∧
      IsGreatest {k | ∀ j, 1 ≤ j → j ≤ k → j ∈ [2, 2, 5, 1, 1, 3, 5]} (w.headD 0) := by
  obtain ⟨w,hrun,-,-,hfront,-⟩ := xid_window_exact [2, 2, 5, 1, 1, 3, 5] (by decide)
  have heval : run updateXidRepIt [0] [2, 2, 5, 1, 1, 3, 5] = some [3, 5, 5] := by decide
  exact ⟨w,hrun,Option.some.inj (hrun.symm.trans heval),hfront⟩

end Yfs.Rpc
