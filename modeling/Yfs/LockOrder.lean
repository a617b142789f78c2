import Mathlib.Data.Set.Insert
import Mathlib.Logic.Relation
import Yfs.LockedProg

namespace Yfs

section
variable {θ ε ν ω ρ : Type*} [DecidableEq θ] [DecidableEq ε] [DecidableEq ν]

/-- With the cells `held`, the program waits only for cells above all that it holds, as long as
what it reads is `ok`, and holds none when it returns. -/
def Prog.Ordered (rank : ε → ℕ) (ok : ε → ν → Prop) : Set ε → Prog ε ν ρ → Prop
  | held, .ret _ => held = ∅
  | held, .acquire e k => (∀ h ∈ held, rank h < rank e) ∧ k.Ordered rank ok (insert e held)
  | held, .release e k => k.Ordered rank ok (held \ {e})
  | held, .get e k => ∀ v, ok e v → (k v).Ordered rank ok held
  | held, .put _ _ k => k.Ordered rank ok held
  | held, .remove _ k => k.Ordered rank ok held
  | _, .undef => True

omit [DecidableEq ε] [DecidableEq ν] in
theorem Prog.Ordered.map {ρ' : Type*} {f : ρ → ρ'} {rank : ε → ℕ} {ok : ε → ν → Prop}
    {p : Prog ε ν ρ}
    {held : Set ε} (h : p.Ordered rank ok held) : (p.map f).Ordered rank ok held := by
  induction p generalizing held with
  | ret r => exact h
  | acquire e k ih => exact ⟨h.1, ih h.2⟩
  | release e k ih => exact ih h
  | get e k ih => exact fun v hv => ih v (h v hv)
  | put e v k ih => exact ih h
  | remove e k ih => exact ih h
  | undef => trivial

def LockedStore.heldBy (st : LockedStore θ ε ν) (t : θ) : Set ε := {e | st.holder e = some t}

/-- Thread `t` asks for a cell that `u` holds. -/
def WaitsFor (s : LockedSys θ ε ν ω ρ) (t u : θ) : Prop :=
  ∃ r e k, s.threads.running t = some r ∧ r.prog = .acquire e k ∧ s.store.holder e = some u

structure InOrder (rank : ε → ℕ) (ok : ω → ε → ν → Prop) (s : LockedSys θ ε ν ω ρ) : Prop where
  ordered : ∀ t r, s.threads.running t = some r → r.prog.Ordered rank (ok r.call) (s.store.heldBy t)
  running : ∀ e t, s.store.holder e = some t → ∃ r, s.threads.running t = some r

/-- A call is ordered from its begin on, and what is read is `ok` for it. -/
def OrderedAct (rank : ε → ℕ) (ok : ω → ε → ν → Prop) (body : ω → Prog ε ν ρ)
    (s : LockedSys θ ε ν ω ρ) :
    ProgAct θ ε ν ω → Prop
  | .call _ c => (body c).Ordered rank (ok c) ∅
  | .op (.get t e v) => ∀ r, s.threads.running t = some r → ok r.call e v
  | _ => True

section step
variable {rank : ε → ℕ} {ok : ω → ε → ν → Prop} {body : ω → Prog ε ν ρ} {s s' : LockedSys θ ε ν ω ρ}

section
omit [DecidableEq θ] [DecidableEq ν]

theorem heldBy_acquire {st : LockedStore θ ε ν} {e : ε} (t : θ) :
    LockedStore.heldBy { st with holder := Function.update st.holder e (some t) } t = insert e
    (st.heldBy t) := by
  ext e'
  by_cases he : e' = e
  · simp [LockedStore.heldBy, he]
  · simp [LockedStore.heldBy, he]

theorem heldBy_release {st : LockedStore θ ε ν} {e : ε} (t : θ) :
    LockedStore.heldBy { st with holder := Function.update st.holder e none } t = st.heldBy t \
    {e} := by
  ext e'
  by_cases he : e' = e
  · simp [LockedStore.heldBy, he]
  · simp [LockedStore.heldBy, he]

theorem heldBy_other {st : LockedStore θ ε ν} {e : ε} {t u : θ} (hu : u ≠ t)
    (hheld : st.holder e = none ∨ st.holder e = some t) {o : Option θ}
    (ho : o = none ∨ o = some t) :
    LockedStore.heldBy { st with holder := Function.update st.holder e o } u = st.heldBy u := by
  have hne {o' : Option θ} (h : o' = none ∨ o' = some t) : o' ≠ some u := by
    rintro rfl
    exact hu (Option.some.inj (h.resolve_left (Option.some_ne_none u)))
  ext e'
  by_cases he : e' = e
  · simp [LockedStore.heldBy, he, hne hheld, hne ho]
  · simp [LockedStore.heldBy, he]

end

omit [DecidableEq ε] [DecidableEq ν] in
theorem InOrder.frame (h : InOrder rank ok s) (t : θ) (o : Option (Running ε ν ω ρ))
    (history : List (CallEv θ ω ρ))
    (store : LockedStore θ ε ν) (hothers : ∀ u, u ≠ t → store.heldBy u = s.store.heldBy u)
    (hself : ∀ r, o = some r → r.prog.Ordered rank (ok r.call) (store.heldBy t))
    (hnone : o = none → store.heldBy t = ∅) :
    InOrder rank ok ⟨⟨Function.update s.threads.running t o, history⟩, store⟩ := by
  constructor
  · refine forall_update_ne hself fun u r hu hr => ?_
    rw [hothers u hu]
    exact h.ordered u r hr
  · intro e u hu
    by_cases hut : u = t
    · subst hut
      simp only [Function.update_self]
      cases ho : o with
      | none =>
        have hmem : e ∈ store.heldBy u := hu
        rw [hnone ho] at hmem
        exact hmem.elim
      | some r => exact ⟨r, rfl⟩
    · have hold : e ∈ s.store.heldBy u := hothers u hut ▸ hu
      simp only [Function.update_of_ne hut]
      exact h.running e u hold

omit [DecidableEq ν] in
theorem inOrder_step (h : InOrder rank ok s) (a : ProgAct θ ε ν ω)
    (ha : OrderedAct rank ok body s a) (hs : ProgStep body s a s') : InOrder rank ok s' := by
  cases hs with
  | call t c hidle =>
    have hnone : s.store.heldBy t = ∅ := by
      refine Set.eq_empty_of_forall_notMem fun e he => ?_
      obtain ⟨r,hr⟩ := h.running e t he
      cases hidle.symm.trans hr
    refine h.frame t _ _ _ (fun _ _ => rfl) ?_ fun ho => by cases ho
    rintro _ ⟨rfl⟩
    rw [hnone]
    exact ha
  | acquire t r e k hr hp hnone =>
    have hord := h.ordered t r hr
    rw [hp] at hord
    refine h.frame t _ _ _ (fun u hu => heldBy_other hu (.inl hnone) (.inr rfl)) ?_ fun ho => by
      cases ho
    rintro _ ⟨rfl⟩
    rw [heldBy_acquire]
    exact hord.2
  | release t r e k hr hp hk hheld =>
    have hord := h.ordered t r hr
    rw [hp] at hord
    refine h.frame t _ _ _ (fun u hu => heldBy_other hu (.inr hheld) (.inl rfl)) ?_ fun ho => by
      cases ho
    rintro _ ⟨rfl⟩
    rw [heldBy_release]
    exact hord
  | ret t r e res hr hp hheld =>
    have hord := h.ordered t r hr
    rw [hp] at hord
    refine h.frame t _ _ _ (fun u hu => heldBy_other hu (.inr hheld) (.inl rfl))
      (fun _ ho => by cases ho) fun _ => ?_
    rw [heldBy_release]
    exact hord
  | get t r e k v hr hp hheld hv =>
    have hord := h.ordered t r hr
    rw [hp] at hord
    refine h.frame t _ _ _ (fun _ _ => rfl) ?_ fun ho => by cases ho
    rintro _ ⟨rfl⟩
    exact hord v (ha r hr)
  | put t r e v k hr hp hheld =>
    have hord := h.ordered t r hr
    rw [hp] at hord
    refine h.frame t _ _ _ (fun _ _ => rfl) ?_ fun ho => by cases ho
    rintro _ ⟨rfl⟩
    exact hord
  | remove t r e k hr hp =>
    have hord := h.ordered t r hr
    rw [hp] at hord
    refine h.frame t _ _ _ (fun _ _ => rfl) ?_ fun ho => by cases ho
    rintro _ ⟨rfl⟩
    exact hord

end step

theorem inOrder_run {rank : ε → ℕ} {ok : ω → ε → ν → Prop} {body : ω → Prog ε ν ρ}
    {spec : ω → ProgSpec ε ν ρ}
    (hbody : ∀ c, (body c).Sat (spec c) (fun _ => none) []) (content : ε → Option ν)
    (acts : List (ProgAct θ ε ν ω)) (s : LockedSys θ ε ν ω ρ)
    (hacts : RunAll (LockedSys.step body) (OrderedAct rank ok body)
      ⟨.init θ ε ν ω ρ, .init content⟩ acts)
    (hrun : run (LockedSys.step body) ⟨.init θ ε ν ω ρ, .init content⟩ acts = some s) :
    InOrder rank ok s := by
  have hinit : InOrder rank ok (⟨.init θ ε ν ω ρ, .init content⟩ : LockedSys θ ε ν ω ρ) := by
    constructor
    · intro t r hr
      cases hr
    · intro e t ht
      cases ht
  exact (lockedSys_invariant hbody (OrderedAct rank ok body) (fun _ => InOrder rank ok)
    (fun _ s a s' _ h ha hs => inOrder_step h a ha hs) (.init content) hinit acts s hacts hrun).2

omit [DecidableEq θ] [DecidableEq ε] [DecidableEq ν] in
/-- Along the threads that wait for each other ranks go up, so they come to an end. -/
theorem exists_not_waiting {rank : ε → ℕ} {ok : ω → ε → ν → Prop} {s : LockedSys θ ε ν ω ρ}
    (h : InOrder rank ok s) {bound : ℕ} (hbound : ∀ e, rank e ≤ bound) (t : θ) (r : Running ε ν ω ρ)
    (hr : s.threads.running t = some r) :
    ∃ u, Relation.ReflTransGen (WaitsFor s) t u ∧ (∃ r', s.threads.running u = some r') ∧
    ∀ w, ¬ WaitsFor s u w := by
  -- for a thread that waits, by induction on how far the cell is from the bound
  have hwaits : ∀ n t r e k u, s.threads.running t = some r → r.prog = .acquire e k →
    s.store.holder e = some u →
      bound - rank e ≤ n → ∃ u, Relation.ReflTransGen (WaitsFor s) t u ∧
        (∃ r', s.threads.running u = some r') ∧ ∀ w, ¬ WaitsFor s u w := by
    intro n
    induction n with
    | zero =>
      intro t r e k u hr hp hu hn
      obtain ⟨r',hr'⟩ := h.running e u hu
      refine ⟨u, .single ⟨r, e, k, hr, hp, hu⟩, ⟨r', hr'⟩, ?_⟩
      rintro w ⟨r'',e',k',hr'',hp',hw⟩
      have hord := h.ordered u r'' hr''
      rw [hp'] at hord
      have hlt := hord.1 e hu
      have hle := hbound e'
      omega
    | succ n ih =>
      intro t r e k u hr hp hu hn
      have hstep : WaitsFor s t u := ⟨r, e, k, hr, hp, hu⟩
      by_cases hwu : ∃ w, WaitsFor s u w
      · obtain ⟨w,r',e',k',hr',hp',hw⟩ := hwu
        have hord := h.ordered u r' hr'
        rw [hp'] at hord
        have hlt := hord.1 e hu
        have hle := hbound e'
        obtain ⟨x,hx,hmoves⟩ := ih u r' e' k' w hr' hp' hw (by omega)
        exact ⟨x, .head hstep hx, hmoves⟩
      · obtain ⟨r',hr'⟩ := h.running e u hu
        exact ⟨u, .single hstep, ⟨r', hr'⟩, fun w hw => hwu ⟨w, hw⟩⟩
  by_cases hwt : ∃ w, WaitsFor s t w
  · obtain ⟨w,r',e,k,hr',hp,hw⟩ := hwt
    exact hwaits _ t r' e k w hr' hp hw le_rfl
  · exact ⟨t, .refl, ⟨r, hr⟩, fun w hw => hwt ⟨w, hw⟩⟩

end
end Yfs
