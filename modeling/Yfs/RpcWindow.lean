import Yfs.Run
import Mathlib.Data.List.Sort
import Mathlib.Tactic.Linarith
import Mathlib.Tactic.SplitIfs

/-! The reply window a server keeps per client nonce
(`rpcs::checkduplicate_and_update`, `rpcs::add_reply`). Lists stand for
`std::list`, and a buffer is the address it was allocated at. -/
namespace Yfs.Rpc

def slidingWindowSize : ℕ := 100

inductive RpcState
  | new
  | inProgress
  | done
  | forgotten
  deriving DecidableEq, Repr

abbrev Addr := ℕ

/-- `rpcs::reply_t`; the null pointer is `none`. -/
structure ReplyT where
  xid : ℕ
  cbPresent : Bool
  buf : Option Addr
  deriving DecidableEq, Repr

/-- What the first loop of `checkduplicate_and_update` has computed so far:
the entries it leaves in the list, the pointers it has passed to `free`, the
match for the requested xid, and the smallest xid seen. -/
structure Scan where
  kept : List ReplyT
  freed : List (Option Addr)
  found : Option (Bool × Option Addr)
  minXid : ℕ

def Scan.visit (xid : ℕ) (r : ReplyT) (acc : Scan) : Scan :=
  { acc with
    found := if r.xid = xid then some (r.cbPresent, r.buf) else acc.found
    minXid := if r.xid < acc.minXid then r.xid else acc.minXid }

/-- The loop over the list. `size` is the current `size()` of the list, which
goes down with every erased entry. -/
def scan (xid xidRep : ℕ) : ℕ → List ReplyT → Scan → Scan
  | _, [], acc => acc
  | size, r :: rs, acc =>
    let acc := acc.visit xid r
    -- the window is full and the client has the reply: the entry is dropped, but it
    -- has already been compared with the xid that is looked up
    if slidingWindowSize ≤ size ∧ r.xid ≤ xidRep then
      scan xid xidRep (size-1) rs { acc with freed := acc.freed ++ [r.buf] }
    else
      scan xid xidRep size rs { acc with kept := acc.kept ++ [r] }

/-- Insert before the first entry with a larger xid, or at the end. -/
def insertReply (x : ReplyT) : List ReplyT → List ReplyT
  | [] => [x]
  | r :: rs => if x.xid < r.xid then x :: r :: rs else r :: insertReply x rs

structure CheckResult where
  status : RpcState
  window : List ReplyT
  buf : Option Addr
  freed : List (Option Addr)

def classify (xid : ℕ) (sc : Scan) : RpcState :=
  match sc.found with
  -- the smallest xid includes those of entries dropped in this very scan
  | none => if xid < sc.minXid then .forgotten else .new
  | some (cb, _) => if cb = false then .inProgress else .done

/-- Before the loop the minimum is the xid of the first entry. -/
def Scan.start (w : List ReplyT) : Scan := ⟨[], [], none, (w.head?.map (·.xid)).getD 0⟩

def scanWindow (w : List ReplyT) (xid xidRep : ℕ) : Scan :=
  scan xid xidRep w.length w (Scan.start w)

def checkduplicateAndUpdate (w : List ReplyT) (xid xidRep : ℕ) : CheckResult :=
  let r : CheckResult :=
    if w.length = 0 then ⟨.new, w, none, []⟩
    else
      let sc := scanWindow w xid xidRep
      ⟨classify xid sc, sc.kept, sc.found.bind (·.2), sc.freed⟩
  if r.status = .new then { r with window := insertReply ⟨xid, false, none⟩ r.window } else r

def addReply (w : List ReplyT) (xid : ℕ) (b : Addr) : List ReplyT :=
  w.map fun r => if r.xid = xid then { r with buf := some b, cbPresent := true } else r

def keptBy (xidRep : ℕ) : ℕ → List ReplyT → List ReplyT
  | _, [] => []
  | n, r :: rs =>
    if slidingWindowSize ≤ n ∧ r.xid ≤ xidRep then keptBy xidRep (n-1) rs
    else r :: keptBy xidRep n rs

def prunedBy (xidRep : ℕ) : ℕ → List ReplyT → List ReplyT
  | _, [] => []
  | n, r :: rs =>
    if slidingWindowSize ≤ n ∧ r.xid ≤ xidRep then r :: prunedBy xidRep (n-1) rs
    else prunedBy xidRep n rs

theorem scan_kept_freed (xid xidRep n : ℕ) (w : List ReplyT) (acc : Scan) :
    (scan xid xidRep n w acc).kept = acc.kept ++ keptBy xidRep n w ∧
    (scan xid xidRep n w acc).freed = acc.freed ++ (prunedBy xidRep n w).map (·.buf) := by
  induction w generalizing n acc with
  | nil => simp [scan, keptBy, prunedBy]
  | cons r rs ih =>
    simp only [scan, keptBy, prunedBy]
    split_ifs with h
    · obtain ⟨hk,hf⟩ := ih (n-1) { acc.visit xid r with
        freed := (acc.visit xid r).freed ++ [r.buf] }
      refine ⟨hk, ?_⟩
      rw [hf]
      simp [Scan.visit]
    · obtain ⟨hk,hf⟩ := ih n { acc.visit xid r with kept := (acc.visit xid r).kept ++ [r] }
      refine ⟨?_, hf⟩
      rw [hk]
      simp [Scan.visit]

/-- The scan misses the xid exactly when it is not in the list, and a match
carries the data of an entry of that xid. -/
theorem scan_found (xid xidRep n : ℕ) (w : List ReplyT) (acc : Scan) :
    ((scan xid xidRep n w acc).found = none ↔ acc.found = none ∧ ∀ r ∈ w, r.xid ≠ xid) ∧
    ∀ p, (scan xid xidRep n w acc).found = some p →
      acc.found = some p ∨ ∃ r ∈ w, r.xid = xid ∧ p = (r.cbPresent, r.buf) := by
  induction w generalizing n acc with
  | nil => simp [scan]
  | cons r rs ih =>
    have hstep : ∀ m acc', acc'.found = (acc.visit xid r).found →
        ((scan xid xidRep m rs acc').found = none ↔ acc.found = none ∧ ∀ a ∈ r :: rs, a.xid ≠ xid) ∧
        ∀ p, (scan xid xidRep m rs acc').found = some p →
          acc.found = some p ∨ ∃ a ∈ r :: rs, a.xid = xid ∧ p = (a.cbPresent, a.buf) := by
      intro m acc' hacc
      obtain ⟨hn,hs⟩ := ih m acc'
      simp only [Scan.visit] at hacc
      constructor
      · rw [hn, hacc]
        by_cases hx : r.xid = xid <;> simp [hx]
      · intro p hp
        rcases hs p hp with h | ⟨a,ha,hax,hpa⟩
        · rw [hacc] at h
          by_cases hx : r.xid = xid
          · rw [if_pos hx, Option.some.injEq] at h
            exact Or.inr ⟨r, List.mem_cons_self, hx, h.symm⟩
          · rw [if_neg hx] at h
            exact Or.inl h
        · exact Or.inr ⟨a, List.mem_cons_of_mem _ ha, hax, hpa⟩
    simp only [scan]
    split_ifs with h
    · exact hstep _ _ rfl
    · exact hstep _ _ rfl

theorem scan_minXid (xid xidRep n : ℕ) (w : List ReplyT) (acc : Scan) :
    (scan xid xidRep n w acc).minXid ≤ acc.minXid ∧
    (∀ r ∈ w, (scan xid xidRep n w acc).minXid ≤ r.xid) ∧
    ((scan xid xidRep n w acc).minXid = acc.minXid ∨
      ∃ r ∈ w, (scan xid xidRep n w acc).minXid = r.xid) := by
  induction w generalizing n acc with
  | nil => simp [scan]
  | cons r rs ih =>
    have hstep : ∀ m acc', acc'.minXid = (acc.visit xid r).minXid →
        (scan xid xidRep m rs acc').minXid ≤ acc.minXid ∧
        (∀ a ∈ r :: rs, (scan xid xidRep m rs acc').minXid ≤ a.xid) ∧
        ((scan xid xidRep m rs acc').minXid = acc.minXid ∨
          ∃ a ∈ r :: rs, (scan xid xidRep m rs acc').minXid = a.xid) := by
      intro m acc' hacc
      obtain ⟨hle,hall,hex⟩ := ih m acc'
      simp only [Scan.visit] at hacc
      have hvisit : acc'.minXid ≤ acc.minXid ∧ acc'.minXid ≤ r.xid ∧
          (acc'.minXid = acc.minXid ∨ acc'.minXid = r.xid) := by
        rw [hacc]
        split_ifs <;> omega
      refine ⟨hle.trans hvisit.1, ?_, ?_⟩
      · intro a ha
        rcases List.mem_cons.mp ha with rfl | ha
        · exact hle.trans hvisit.2.1
        · exact hall a ha
      · rcases hex with h | ⟨a,ha,h⟩
        · rcases hvisit.2.2 with h' | h'
          · exact Or.inl (h.trans h')
          · exact Or.inr ⟨r, List.mem_cons_self, h.trans h'⟩
        · exact Or.inr ⟨a, List.mem_cons_of_mem _ ha, h⟩
    simp only [scan]
    split_ifs with h
    · exact hstep _ _ rfl
    · exact hstep _ _ rfl

def Ascending (w : List ReplyT) : Prop := w.Pairwise fun a b => a.xid < b.xid

theorem mem_kept_or_pruned (xidRep n : ℕ) (w : List ReplyT) (r : ReplyT) :
    r ∈ w ↔ r ∈ keptBy xidRep n w ∨ r ∈ prunedBy xidRep n w := by
  induction w generalizing n with
  | nil => simp [keptBy, prunedBy]
  | cons a rs ih =>
    simp only [keptBy, prunedBy]
    split_ifs with h
    · rw [List.mem_cons, ih (n-1), List.mem_cons]
      tauto
    · rw [List.mem_cons, ih n, List.mem_cons]
      tauto

theorem kept_sublist (xidRep n : ℕ) (w : List ReplyT) : (keptBy xidRep n w).Sublist w := by
  induction w generalizing n with
  | nil => simp [keptBy]
  | cons a rs ih =>
    simp only [keptBy]
    split_ifs with h
    · exact (ih (n-1)).cons a
    · exact (ih n).cons_cons a

theorem pruned_xid_le (xidRep n : ℕ) (w : List ReplyT) :
    ∀ r ∈ prunedBy xidRep n w, r.xid ≤ xidRep := by
  induction w generalizing n with
  | nil => simp [prunedBy]
  | cons a rs ih =>
    simp only [prunedBy]
    split_ifs with h
    · intro r hr
      rcases List.mem_cons.mp hr with rfl | hr
      · exact h.2
      · exact ih (n-1) r hr
    · exact ih n

/-- Pruning stops one entry below the window size, so it never empties a list. -/
theorem pruned_length (xidRep n : ℕ) (w : List ReplyT) :
    prunedBy xidRep n w = [] ∨ (prunedBy xidRep n w).length + slidingWindowSize ≤ n + 1 := by
  induction w generalizing n with
  | nil => exact Or.inl rfl
  | cons a rs ih =>
    simp only [prunedBy]
    split_ifs with h
    · right
      have hn : 0 < n := by have := h.1; simp only [slidingWindowSize] at this; omega
      rcases ih (n-1) with he | hl
      · rw [he, List.length_cons, List.length_nil]
        omega
      · rw [List.length_cons]
        omega
    · exact ih n

theorem kept_length_add_pruned (xidRep n : ℕ) (w : List ReplyT) :
    (keptBy xidRep n w).length + (prunedBy xidRep n w).length = w.length := by
  induction w generalizing n with
  | nil => rfl
  | cons a rs ih =>
    simp only [keptBy, prunedBy]
    split_ifs with h
    · rw [List.length_cons, List.length_cons, ← ih (n-1)]
      omega
    · rw [List.length_cons, List.length_cons, ← ih n]
      omega

theorem kept_ne_nil (xidRep : ℕ) (w : List ReplyT) (hw : w ≠ []) :
    keptBy xidRep w.length w ≠ [] := by
  intro hk
  have hsum := kept_length_add_pruned xidRep w.length w
  rw [hk, List.length_nil] at hsum
  have hpos := List.length_pos_of_ne_nil hw
  rcases pruned_length xidRep w.length w with he | hl
  · rw [he, List.length_nil] at hsum
    omega
  · simp only [slidingWindowSize] at hl
    omega

/-- In an ascending window the erased entries form the lower end: each is below
everything that stays. -/
theorem pruned_lt_kept (xidRep n : ℕ) (w : List ReplyT) (hw : Ascending w) :
    ∀ p ∈ prunedBy xidRep n w, ∀ k ∈ keptBy xidRep n w, p.xid < k.xid := by
  induction w generalizing n with
  | nil => simp [prunedBy]
  | cons a rs ih =>
    have hlt := (List.pairwise_cons.mp hw).1
    have hrs : Ascending rs := (List.pairwise_cons.mp hw).2
    simp only [keptBy, prunedBy]
    split_ifs with h
    · intro p hp k hk
      have hkrs : k ∈ rs := (kept_sublist xidRep (n-1) rs).subset hk
      rcases List.mem_cons.mp hp with rfl | hp
      · exact hlt k hkrs
      · exact ih (n-1) hrs p hp k hk
    · -- once an entry stays, either the list is short or the rest is above `xidRep`
      intro p hp
      exfalso
      have hprs : p ∈ rs := (mem_kept_or_pruned xidRep n rs p).mpr (Or.inr hp)
      have hple := pruned_xid_le xidRep n rs p hp
      have hap := hlt p hprs
      rcases pruned_length xidRep n rs with he | hl
      · rw [he] at hp
        exact List.not_mem_nil hp
      · have hlen := List.length_pos_of_mem hp
        apply h
        constructor <;> omega

/-- A window that is still full after the scan holds nothing the client has reported. -/
theorem kept_of_full (xidRep n : ℕ) (w : List ReplyT)
    (hfull : slidingWindowSize + (prunedBy xidRep n w).length ≤ n) :
    ∀ r ∈ keptBy xidRep n w, xidRep < r.xid := by
  induction w generalizing n with
  | nil => simp [keptBy]
  | cons a rs ih =>
    simp only [keptBy, prunedBy] at hfull ⊢
    split_ifs at hfull ⊢ with h
    · rw [List.length_cons] at hfull
      exact ih (n-1) (by omega)
    · intro r hr
      rcases List.mem_cons.mp hr with rfl | hr
      · by_contra hle
        exact h ⟨by omega, not_lt.mp hle⟩
      · exact ih n hfull r hr

theorem kept_length_lt (xidRep : ℕ) (w : List ReplyT) (r : ReplyT)
    (hr : r ∈ keptBy xidRep w.length w) (hle : r.xid ≤ xidRep) :
    (keptBy xidRep w.length w).length < slidingWindowSize := by
  by_contra hfull
  have hsum := kept_length_add_pruned xidRep w.length w
  have := kept_of_full xidRep w.length w (by omega) r hr
  omega

/-- An entry is erased only while the window is full from it on. -/
theorem pruned_of_full (xidRep n : ℕ) (w : List ReplyT) (hw : Ascending w) (r : ReplyT)
    (hr : r ∈ prunedBy xidRep n w) :
    slidingWindowSize + w.countP (fun a => a.xid < r.xid) ≤ n := by
  induction w generalizing n with
  | nil => simp [prunedBy] at hr
  | cons a rs ih =>
    obtain ⟨hlt,hrs⟩ := List.pairwise_cons.mp hw
    have hkept := pruned_lt_kept xidRep n (a :: rs) hw r hr
    simp only [keptBy, prunedBy] at hr hkept
    split_ifs at hr hkept with h
    · rcases List.mem_cons.mp hr with rfl | hr
      · have hnone : rs.countP (fun a => a.xid < r.xid) = 0 := by
          rw [List.countP_eq_zero]
          intro b hb
          have := hlt b hb
          simpa using this.le
        rw [List.countP_cons_of_neg (by simp), hnone]
        exact h.1
      · have har := hlt r ((mem_kept_or_pruned xidRep (n-1) rs r).mpr (Or.inr hr))
        have hrest := ih (n-1) hrs hr
        have hn : slidingWindowSize ≤ n := h.1
        rw [List.countP_cons_of_pos (by simpa using har)]
        simp only [slidingWindowSize] at hn hrest ⊢
        omega
    · -- `a` stays, so nothing above it is erased
      have har := hlt r ((mem_kept_or_pruned xidRep n rs r).mpr (Or.inr hr))
      have hra := hkept a List.mem_cons_self
      omega

theorem insertReply_eq (x : ReplyT) (w : List ReplyT) :
    insertReply x w = w.orderedInsert (fun a b => a.xid < b.xid) x := by
  induction w with
  | nil => rfl
  | cons a rs ih => rw [insertReply, ih, List.orderedInsert_cons]

theorem mem_insertReply (x r : ReplyT) (w : List ReplyT) :
    r ∈ insertReply x w ↔ r = x ∨ r ∈ w := by
  rw [insertReply_eq, List.mem_orderedInsert]

theorem insertReply_perm (x : ReplyT) (w : List ReplyT) : (insertReply x w).Perm (x :: w) := by
  rw [insertReply_eq]
  exact List.perm_orderedInsert _ x w

theorem insertReply_ascending (x : ReplyT) (w : List ReplyT) (hw : Ascending w)
    (hx : ∀ r ∈ w, r.xid ≠ x.xid) : Ascending (insertReply x w) := by
  induction w with
  | nil => exact List.pairwise_singleton _ _
  | cons a rs ih =>
    obtain ⟨hlt,hrs⟩ := List.pairwise_cons.mp hw
    simp only [insertReply]
    split_ifs with h
    · refine List.pairwise_cons.mpr ⟨?_, hw⟩
      intro b hb
      rcases List.mem_cons.mp hb with rfl | hb
      · exact h
      · exact h.trans (hlt b hb)
    · refine List.pairwise_cons.mpr ⟨?_, ih hrs fun r hr => hx r (List.mem_cons_of_mem _ hr)⟩
      intro b hb
      rcases (mem_insertReply x b rs).mp hb with rfl | hb
      · have := hx a List.mem_cons_self
        omega
      · exact hlt b hb

theorem scanWindow_minXid_mem (w : List ReplyT) (xid xidRep : ℕ) (hw : w ≠ []) :
    (∀ r ∈ w, (scanWindow w xid xidRep).minXid ≤ r.xid) ∧
    ∃ r ∈ w, (scanWindow w xid xidRep).minXid = r.xid := by
  obtain ⟨r0,rs,rfl⟩ := List.exists_cons_of_ne_nil hw
  obtain ⟨_,hall,hex⟩ := scan_minXid xid xidRep (r0 :: rs).length (r0 :: rs)
    (Scan.start (r0 :: rs))
  refine ⟨hall, ?_⟩
  rcases hex with h | h
  · exact ⟨r0, List.mem_cons_self, h⟩
  · exact h

theorem check_status_of_ne_nil (w : List ReplyT) (xid xidRep : ℕ) (hw : w ≠ []) :
    (checkduplicateAndUpdate w xid xidRep).status = classify xid (scanWindow w xid xidRep) := by
  have hl : ¬ w.length = 0 := by simpa using hw
  simp only [checkduplicateAndUpdate, if_neg hl]
  split_ifs <;> rfl

/-- A remembered xid is answered INPROGRESS or DONE, with the buffer of its entry. -/
theorem check_remembered (w : List ReplyT) (xid xidRep : ℕ) (h : ∃ r ∈ w, r.xid = xid) :
    ∃ r ∈ w, r.xid = xid ∧ (checkduplicateAndUpdate w xid xidRep).buf = r.buf ∧
      (checkduplicateAndUpdate w xid xidRep).status =
        if r.cbPresent = false then .inProgress else .done := by
  obtain ⟨r0,hr0,hx0⟩ := h
  have hw : w ≠ [] := List.ne_nil_of_mem hr0
  have hl : ¬ w.length = 0 := by simpa using hw
  obtain ⟨hnone,hsome⟩ := scan_found xid xidRep w.length w (Scan.start w)
  cases hf : (scanWindow w xid xidRep).found with
  | none => exact absurd hx0 ((hnone.mp hf).2 r0 hr0)
  | some p =>
    rcases hsome p hf with hacc | ⟨r,hr,hx,hp⟩
    · cases hacc
    refine ⟨r, hr, hx, ?_, ?_⟩
    · have hst : classify xid (scanWindow w xid xidRep) ≠ .new := by
        simp only [classify, hf]
        split_ifs <;> simp
      simp only [checkduplicateAndUpdate, if_neg hl, if_neg hst, hf, hp, Option.bind_some]
    · rw [check_status_of_ne_nil w xid xidRep hw]
      simp only [classify, hf, hp]

theorem check_unremembered (w : List ReplyT) (xid xidRep : ℕ) (hw : w ≠ [])
    (h : ∀ r ∈ w, r.xid ≠ xid) :
    (checkduplicateAndUpdate w xid xidRep).status =
      if ∀ r ∈ w, xid < r.xid then .forgotten else .new := by
  have hf : (scanWindow w xid xidRep).found = none :=
    (scan_found xid xidRep w.length w (Scan.start w)).1.mpr ⟨rfl,h⟩
  obtain ⟨hall,r,hr,hmin⟩ := scanWindow_minXid_mem w xid xidRep hw
  rw [check_status_of_ne_nil w xid xidRep hw]
  simp only [classify, hf]
  have hiff : xid < (scanWindow w xid xidRep).minXid ↔ ∀ r ∈ w, xid < r.xid :=
    ⟨fun hlt a ha => hlt.trans_le (hall a ha), fun hlt => hmin ▸ hlt r hr⟩
  simp only [hiff]

theorem check_nil_status (xid xidRep : ℕ) :
    (checkduplicateAndUpdate [] xid xidRep).status = .new := rfl

theorem check_status_of_not_mem {w : List ReplyT} {xid : ℕ} (h : ∀ r ∈ w, r.xid ≠ xid)
    (xidRep : ℕ) :
    (checkduplicateAndUpdate w xid xidRep).status = .new ∨
    (checkduplicateAndUpdate w xid xidRep).status = .forgotten := by
  by_cases hw : w = []
  · rw [hw, check_nil_status]
    exact Or.inl rfl
  · rw [check_unremembered w xid xidRep hw h]
    split_ifs
    · exact Or.inr rfl
    · exact Or.inl rfl

/-- NEW is answered only for an xid that is not remembered and not below the
whole window. -/
theorem check_new_imp (w : List ReplyT) (xid xidRep : ℕ)
    (h : (checkduplicateAndUpdate w xid xidRep).status = .new) :
    (∀ r ∈ w, r.xid ≠ xid) ∧ (w = [] ∨ ∃ r ∈ w, r.xid ≤ xid) := by
  have hmiss : ∀ r ∈ w, r.xid ≠ xid := by
    intro r hr hx
    obtain ⟨a,_,_,_,hst⟩ := check_remembered w xid xidRep ⟨r,hr,hx⟩
    rw [h] at hst
    split_ifs at hst
  refine ⟨hmiss, ?_⟩
  by_cases hw : w = []
  · exact Or.inl hw
  · right
    rw [check_unremembered w xid xidRep hw hmiss] at h
    split_ifs at h with hall
    push Not at hall
    exact hall

theorem check_freed (w : List ReplyT) (xid xidRep : ℕ) :
    (checkduplicateAndUpdate w xid xidRep).freed = (prunedBy xidRep w.length w).map (·.buf) := by
  by_cases hw : w = []
  · subst hw
    rfl
  · have hl : ¬ w.length = 0 := by simpa using hw
    have hk : (scanWindow w xid xidRep).freed = (prunedBy xidRep w.length w).map (·.buf) :=
      (scan_kept_freed xid xidRep w.length w (Scan.start w)).2
    simp only [checkduplicateAndUpdate, if_neg hl]
    split_ifs <;> exact hk

theorem check_window (w : List ReplyT) (xid xidRep : ℕ) :
    (checkduplicateAndUpdate w xid xidRep).window =
      if (checkduplicateAndUpdate w xid xidRep).status = .new then
        insertReply ⟨xid, false, none⟩ (keptBy xidRep w.length w)
      else keptBy xidRep w.length w := by
  by_cases hw : w = []
  · subst hw
    rfl
  · have hl : ¬ w.length = 0 := by simpa using hw
    have hk : (scanWindow w xid xidRep).kept = keptBy xidRep w.length w :=
      (scan_kept_freed xid xidRep w.length w (Scan.start w)).1
    rw [check_status_of_ne_nil w xid xidRep hw]
    simp only [checkduplicateAndUpdate, if_neg hl, ← hk]
    split_ifs <;> rfl

theorem mem_check_window (w : List ReplyT) (xid xidRep : ℕ) (r : ReplyT) :
    r ∈ (checkduplicateAndUpdate w xid xidRep).window ↔
      r ∈ keptBy xidRep w.length w ∨
        ((checkduplicateAndUpdate w xid xidRep).status = .new ∧ r = ⟨xid, false, none⟩) := by
  rw [check_window]
  split_ifs with h
  · rw [mem_insertReply]
    tauto
  · tauto

theorem check_window_ascending (w : List ReplyT) (xid xidRep : ℕ) (hw : Ascending w) :
    Ascending (checkduplicateAndUpdate w xid xidRep).window := by
  have hk : Ascending (keptBy xidRep w.length w) := hw.sublist (kept_sublist _ _ _)
  rw [check_window]
  split_ifs with h
  · refine insertReply_ascending _ _ hk ?_
    intro r hr
    exact (check_new_imp w xid xidRep h).1 r ((kept_sublist _ _ _).subset hr)
  · exact hk

theorem check_window_ne_nil (w : List ReplyT) (xid xidRep : ℕ) :
    (checkduplicateAndUpdate w xid xidRep).window ≠ [] := by
  by_cases hw : w = []
  · subst hw
    exact List.cons_ne_nil _ _
  · obtain ⟨r,hr⟩ := List.exists_mem_of_ne_nil _ (kept_ne_nil xidRep w hw)
    exact List.ne_nil_of_mem ((mem_check_window w xid xidRep r).mpr (Or.inl hr))

theorem addReply_xids (w : List ReplyT) (xid : ℕ) (b : Addr) :
    (addReply w xid b).map (·.xid) = w.map (·.xid) := by
  simp only [addReply, List.map_map]
  apply List.map_congr_left
  intro r _
  simp only [Function.comp_apply]
  split_ifs <;> rfl

theorem mem_addReply (w : List ReplyT) (xid : ℕ) (b : Addr) (r : ReplyT) :
    r ∈ addReply w xid b → (r ∈ w ∧ r.xid ≠ xid) ∨ r = ⟨xid, true, some b⟩ := by
  intro hr
  obtain ⟨a,ha,rfl⟩ := List.mem_map.mp hr
  split_ifs with h
  · right
    simp only [h]
  · exact Or.inl ⟨ha,h⟩

end Yfs.Rpc
