import Mathlib.Algebra.Order.BigOperators.Group.Finset
import Mathlib.Data.Fintype.BigOperators
import Mathlib.Tactic.Common
import Mathlib.Tactic.SplitIfs

namespace Yfs.RefCount

variable {κ ω : Type*}

/-- What can be wrong with a pointer that is used: it is null, its object is gone, or
its count falls below zero. -/
inductive Fault
  | null
  | freed
  | negative
  deriving DecidableEq, Repr

structure Obj (ω : Type*) where
  refno : ℤ
  dead : Bool
  data : ω
  deriving DecidableEq, Repr

/-- The objects that exist, by address. -/
abbrev Heap (κ ω : Type*) := κ → Option (Obj ω)

def load (heap : Heap κ ω) : Option κ → Except Fault (Obj ω)
  | none => .error .null
  | some c =>
    match heap c with
    | none => .error .freed
    | some x => .ok x

/-- Exact accounting: each object has its owner's reference and those held elsewhere,
and no reference is to an object that is gone. -/
structure Balanced (heap : Heap κ ω) (held : κ → ℕ) : Prop where
  live : ∀ c x, heap c = some x → x.refno = 1 + held c
  gone : ∀ c, heap c = none → held c = 0

theorem Balanced.exists_of_held {heap : Heap κ ω} {held : κ → ℕ} (hb : Balanced heap held) {c : κ}
    (hc : 0 < held c) : ∃ x, heap c = some x := by
  cases hx : heap c with
  | none => exact absurd (hb.gone c hx) hc.ne'
  | some x => exact ⟨x,rfl⟩

theorem Balanced.load_held {heap : Heap κ ω} {held : κ → ℕ} (hb : Balanced heap held) {c : κ}
    (hc : 0 < held c) : ∃ x, heap c = some x ∧ load heap (some c) = .ok x := by
  obtain ⟨x,hx⟩ := hb.exists_of_held hc
  exact ⟨x, hx, by simp only [load, hx]⟩

theorem Balanced.congr {heap : Heap κ ω} {held held' : κ → ℕ} (hb : Balanced heap held)
    (h : ∀ d, held' d = held d) : Balanced heap held' :=
  (funext h : held' = held) ▸ hb

variable [DecidableEq κ]

def incref (heap : Heap κ ω) (p : Option κ) : Except Fault (Heap κ ω) :=
  (load heap p).map fun x =>
    match p with
    | none => heap
    | some c => Function.update heap c (some { x with refno := x.refno + 1 })

/-- An object whose count reaches zero is deleted if it is dead. -/
def decref (heap : Heap κ ω) (p : Option κ) : Except Fault (Heap κ ω) :=
  (load heap p).bind fun x =>
    if x.refno - 1 < 0 then .error .negative
    else
      match p with
      | none => .ok heap
      | some c =>
        if x.refno - 1 = 0 ∧ x.dead = true then .ok (Function.update heap c none)
        else .ok (Function.update heap c (some { x with refno := x.refno - 1 }))

theorem isSome_update (heap : Heap κ ω) (c : κ) (x : Obj ω) (d : κ) (hd : (heap d).isSome) :
    (Function.update heap c (some x) d).isSome := by
  by_cases hdc : d = c
  · rw [hdc, Function.update_self]
    rfl
  · rwa [Function.update_of_ne hdc]

/-- One object changes: its count has to follow the references to it. -/
theorem Balanced.update {heap : Heap κ ω} {held held' : κ → ℕ} (hb : Balanced heap held) (c : κ)
    (x : Obj ω) (hx : x.refno = 1 + held' c) (h : ∀ d, d ≠ c → held' d = held d) :
    Balanced (Function.update heap c (some x)) held' := by
  constructor
  · intro d y hy
    by_cases hd : d = c
    · subst hd
      rw [Function.update_self] at hy
      exact Option.some.inj hy ▸ hx
    · rw [Function.update_of_ne hd] at hy
      rw [h d hd]
      exact hb.live d y hy
  · intro d hd
    by_cases hdc : d = c
    · rw [hdc, Function.update_self] at hd
      exact nomatch hd
    · rw [Function.update_of_ne hdc] at hd
      rw [h d hdc]
      exact hb.gone d hd

theorem Balanced.remove {heap : Heap κ ω} {held : κ → ℕ} (hb : Balanced heap held) (c : κ)
    (hc : held c = 0) : Balanced (Function.update heap c none) held := by
  constructor
  · intro d y hy
    by_cases hd : d = c
    · rw [hd, Function.update_self] at hy
      exact nomatch hy
    · rw [Function.update_of_ne hd] at hy
      exact hb.live d y hy
  · intro d hd
    by_cases hdc : d = c
    · exact hdc ▸ hc
    · rw [Function.update_of_ne hdc] at hd
      exact hb.gone d hd

theorem Balanced.incref {heap : Heap κ ω} {held : κ → ℕ} (hb : Balanced heap held) {c : κ}
    (held' : κ → ℕ) (hc : (heap c).isSome) (h : ∀ d, held' d = held d + if d = c then 1 else 0) :
    ∃ heap', incref heap (some c) = .ok heap' ∧ Balanced heap' held' ∧
      ∀ d, (heap d).isSome → (heap' d).isSome := by
  obtain ⟨x,hx⟩ := Option.isSome_iff_exists.mp hc
  refine ⟨Function.update heap c (some { x with refno := x.refno + 1 }), ?_, hb.update c _ ?_ ?_,
    isSome_update heap c _⟩
  · simp only [RefCount.incref, load, hx, Except.map]
  · have hlive := hb.live c x hx
    have hheld := h c
    rw [if_pos rfl] at hheld
    simp only [hlive, hheld]
    push_cast
    omega
  · intro d hd
    rw [h d, if_neg hd, Nat.add_zero]

/-- The owner's reference remains, so a reference held elsewhere is never the last one. -/
theorem Balanced.decref {heap : Heap κ ω} {held : κ → ℕ} (hb : Balanced heap held) {c : κ}
    (held' : κ → ℕ) (h : ∀ d, held d = held' d + if d = c then 1 else 0) :
    ∃ heap', decref heap (some c) = .ok heap' ∧ Balanced heap' held' ∧
      ∀ d, (heap d).isSome → (heap' d).isSome := by
  have hc := h c
  rw [if_pos rfl] at hc
  obtain ⟨x,hx⟩ := hb.exists_of_held (by omega : 0 < held c)
  have hlive := hb.live c x hx
  have hneg : ¬ x.refno - 1 < 0 := by omega
  have hzero : ¬ (x.refno - 1 = 0 ∧ x.dead = true) := by omega
  refine ⟨Function.update heap c (some { x with refno := x.refno - 1 }), ?_, hb.update c _ ?_ ?_,
    isSome_update heap c _⟩
  · simp only [RefCount.decref, load, hx, Except.bind, if_neg hneg, if_neg hzero]
  · simp only
    omega
  · intro d hd
    have := h d
    rw [if_neg hd] at this
    omega

/-- The owner may drop the last reference to a dead object. -/
theorem Balanced.decref_last {heap : Heap κ ω} {held : κ → ℕ} (hb : Balanced heap held) {c : κ}
    {x : Obj ω} (hx : heap c = some x) (hone : x.refno = 1) (hdead : x.dead = true) :
    RefCount.decref heap (some c) = .ok (Function.update heap c none) ∧
    Balanced (Function.update heap c none) held := by
  have hlive := hb.live c x hx
  have hneg : ¬ x.refno - 1 < 0 := by omega
  refine ⟨?_, hb.remove c (by omega)⟩
  simp only [RefCount.decref, load, hx, Except.bind, if_neg hneg]
  rw [if_pos ⟨by omega,hdead⟩]

/-- Exact accounting where no reference is special: an object has as many references as `refs`
says, at least one, and there is none to an object that is gone. -/
structure Counted (heap : Heap κ ω) (refs : κ → ℕ) : Prop where
  live : ∀ c x, heap c = some x → x.refno = refs c ∧ 0 < refs c
  gone : ∀ c, heap c = none → refs c = 0

omit [DecidableEq κ] in
theorem Counted.exists_of_pos {heap : Heap κ ω} {refs : κ → ℕ} (h : Counted heap refs) {c : κ}
    (hc : 0 < refs c) :
    ∃ x, heap c = some x := by
  cases hx : heap c with
  | none => exact absurd (h.gone c hx) hc.ne'
  | some x => exact ⟨x,rfl⟩

omit [DecidableEq κ] in
theorem Counted.congr {heap : Heap κ ω} {refs refs' : κ → ℕ} (h : Counted heap refs)
    (heq : ∀ d, refs' d = refs d) :
    Counted heap refs' :=
  (funext heq : refs' = refs) ▸ h

theorem Counted.update {heap : Heap κ ω} {refs refs' : κ → ℕ} (h : Counted heap refs) (c : κ)
    (o : Option (Obj ω))
    (hlive : ∀ x, o = some x → x.refno = refs' c ∧ 0 < refs' c) (hgone : o = none → refs' c = 0)
    (hothers : ∀ d, d ≠ c → refs' d = refs d) : Counted (Function.update heap c o) refs' := by
  constructor
  · intro d x hx
    by_cases hd : d = c
    · subst hd
      rw [Function.update_self] at hx
      exact hlive x hx
    · rw [Function.update_of_ne hd] at hx
      rw [hothers d hd]
      exact h.live d x hx
  · intro d hd
    by_cases hdc : d = c
    · subst hdc
      rw [Function.update_self] at hd
      exact hgone hd
    · rw [Function.update_of_ne hdc] at hd
      rw [hothers d hdc]
      exact h.gone d hd

theorem Counted.incref {heap : Heap κ ω} {refs : κ → ℕ} (h : Counted heap refs) {c : κ} {x : Obj ω}
    (hx : heap c = some x)
    (refs' : κ → ℕ) (hrefs : ∀ d, refs' d = refs d + if d = c then 1 else 0) :
    RefCount.incref heap (some c) =
      .ok (Function.update heap c (some { x with refno := x.refno + 1 })) ∧
    Counted (Function.update heap c (some { x with refno := x.refno + 1 })) refs' := by
  have hc := hrefs c
  rw [if_pos rfl] at hc
  obtain ⟨hno,hpos⟩ := h.live c x hx
  refine ⟨by simp only [RefCount.incref, load, hx, Except.map],
    h.update c _ ?_ (fun hnone => by cases hnone) ?_⟩
  · rintro _ ⟨rfl⟩
    simp only [hno, hc]
    exact ⟨by push_cast; rfl, Nat.succ_pos _⟩
  · intro d hd
    rw [hrefs d, if_neg hd, Nat.add_zero]

theorem Counted.insert {heap : Heap κ ω} {refs : κ → ℕ} (h : Counted heap refs) {c : κ}
    (hc : heap c = none) (x : Obj ω)
    (hx : x.refno = 1) (refs' : κ → ℕ) (hrefs : ∀ d, refs' d = refs d + if d = c then 1 else 0) :
    Counted (Function.update heap c (some x)) refs' := by
  have hone := hrefs c
  rw [if_pos rfl, h.gone c hc] at hone
  refine h.update c _ ?_ (fun hnone => by cases hnone) fun d hd => ?_
  · rintro _ ⟨rfl⟩
    rw [hone, hx]
    exact ⟨rfl, Nat.one_pos⟩
  · rw [hrefs d, if_neg hd, Nat.add_zero]

/-- The object goes with its last reference, if it is dead by then. -/
theorem Counted.decref {heap : Heap κ ω} {refs : κ → ℕ} (h : Counted heap refs) {c : κ}
    (refs' : κ → ℕ) (hrefs : ∀ d, refs d = refs' d + if d = c then 1 else 0)
    (hdead : refs' c = 0 → ∀ x, heap c = some x → x.dead = true) :
    ∃ o, RefCount.decref heap (some c) = .ok (Function.update heap c o) ∧
    Counted (Function.update heap c o) refs' ∧
      ∀ x, o = some x → ∃ y, heap c = some y ∧ x.dead = y.dead := by
  have hc := hrefs c
  rw [if_pos rfl] at hc
  obtain ⟨x,hx⟩ := h.exists_of_pos (c := c) (by omega)
  obtain ⟨hno,-⟩ := h.live c x hx
  have hneg : ¬ x.refno - 1 < 0 := by omega
  have hothers : ∀ d, d ≠ c → refs' d = refs d := by
    intro d hd
    rw [hrefs d, if_neg hd, Nat.add_zero]
  by_cases hzero : refs' c = 0
  · refine ⟨none, ?_, h.update c none (fun _ hnone => by cases hnone) (fun _ => hzero) hothers,
      fun _ hnone => by cases hnone⟩
    simp only [RefCount.decref, load, hx, Except.bind, if_neg hneg]
    rw [if_pos ⟨by omega, hdead hzero x hx⟩]
  · refine ⟨some { x with refno := x.refno - 1 }, ?_,
      h.update c _ ?_ (fun hnone => by cases hnone) hothers, ?_⟩
    · simp only [RefCount.decref, load, hx, Except.bind, if_neg hneg]
      rw [if_neg (by omega)]
    · rintro _ ⟨rfl⟩
      exact ⟨by simp only; omega, Nat.pos_of_ne_zero hzero⟩
    · rintro _ ⟨rfl⟩
      exact ⟨x, hx, rfl⟩

theorem sum_update {τ β M : Type*} [Fintype τ] [DecidableEq τ] [AddCommMonoid M] (f : β → M)
    (w : τ → β) (t : τ) (x : β) :
    ∑ i, f (Function.update w t x i) + f (w t) = ∑ i, f (w i) + f x := by
  have hsplit (g : τ → β) : ∑ i, f (g i) = f (g t) + ∑ i ∈ Finset.univ.erase t, f (g i) :=
    (Finset.add_sum_erase _ _ (Finset.mem_univ t)).symm
  have hrest : ∑ i ∈ Finset.univ.erase t, f (Function.update w t x i) =
      ∑ i ∈ Finset.univ.erase t, f (w i) := by
    apply Finset.sum_congr rfl
    intro i hi
    rw [Function.update_of_ne (Finset.ne_of_mem_erase hi)]
  rw [hsplit, hsplit w, hrest, Function.update_self]
  ac_rfl

theorem le_sum {τ β : Type*} [Fintype τ] (f : β → ℕ) (w : τ → β) (t : τ) : f (w t) ≤ ∑ i, f (w i) :=
  Finset.single_le_sum (f := fun i => f (w i)) (fun _ _ => Nat.zero_le _) (Finset.mem_univ t)

end Yfs.RefCount
