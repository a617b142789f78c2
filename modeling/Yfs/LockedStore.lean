import Yfs.Run
import Mathlib.Logic.Function.Basic

namespace Yfs

structure LockedStore (θ ε ν : Type*) where
  holder : ε → Option θ
  content : ε → Option ν

/-- The operations, as they are completed by thread `t` on cell `e`. -/
inductive StoreEv (θ ε ν : Type*)
  | acquire (t : θ) (e : ε)
  | release (t : θ) (e : ε)
  | get (t : θ) (e : ε) (v : ν)
  | put (t : θ) (e : ε) (v : ν)
  deriving DecidableEq

namespace LockedStore
variable {θ ε ν : Type*} [DecidableEq θ] [DecidableEq ε] [DecidableEq ν]

def init (content : ε → Option ν) : LockedStore θ ε ν := ⟨fun _ => none, content⟩

def step (s : LockedStore θ ε ν) : StoreEv θ ε ν → Option (LockedStore θ ε ν)
  | .acquire t e =>
    if s.holder e = none then some { s with holder := Function.update s.holder e (some t) }
      else none
  | .release t e =>
    if s.holder e = some t then some { s with holder := Function.update s.holder e none } else none
  | .get t e v => if s.holder e = some t ∧ s.content e = some v then some s else none
  | .put t e v =>
    if s.holder e = some t then some { s with content := Function.update s.content e (some v) }
    else none

/-- The value written last to the cell, or its initial one. -/
def lastPut (content : ε → Option ν) (evs : List (StoreEv θ ε ν)) (e : ε) : Option ν :=
  evs.foldl (fun v ev =>
    match ev with
    | .put _ e' v' => if e' = e then some v' else v
    | _ => v) (content e)

omit [DecidableEq θ] [DecidableEq ν] in
theorem lastPut_append (content : ε → Option ν) (evs evs' : List (StoreEv θ ε ν)) (e : ε) :
    lastPut content (evs ++ evs') e = lastPut (lastPut content evs) evs' e := by
  simp only [lastPut, List.foldl_append]

theorem content_eq_lastPut (s t : LockedStore θ ε ν) (evs : List (StoreEv θ ε ν))
    (h : run step s evs = some t) : t.content = lastPut s.content evs := by
  induction evs generalizing s with
  | nil =>
    cases h
    rfl
  | cons ev evs ih =>
    obtain ⟨s',hs,hr⟩ := run_cons_some step s t ev evs h
    have hc : s'.content = lastPut s.content [ev] := by
      funext e
      cases ev with
      | acquire u e' | release u e' | get u e' v =>
        simp only [step] at hs
        split_ifs at hs
        cases hs
        rfl
      | put u e' v =>
        simp only [step] at hs
        split_ifs at hs
        cases hs
        by_cases he : e = e'
        · simp [lastPut, he]
        · simp [lastPut, he, Ne.symm he]
    rw [ih s' hr, hc]
    funext e
    exact (lastPut_append s.content [ev] evs e).symm

/-- In a run every read returns what was written last before it. -/
theorem get_eq_lastPut (s t : LockedStore θ ε ν) (evs evs' : List (StoreEv θ ε ν)) (u : θ) (e : ε)
    (v : ν) (h : run step s (evs ++ .get u e v :: evs') = some t) :
    lastPut s.content evs e = some v := by
  rw [run_append] at h
  obtain ⟨s',hs,hr⟩ := Option.bind_eq_some_iff.mp h
  obtain ⟨s'',hg,_⟩ := run_cons_some step s' t _ evs' hr
  simp only [step] at hg
  split_ifs at hg with hc
  rw [← content_eq_lastPut s s' evs hs]
  exact hc.2

end LockedStore
end Yfs
