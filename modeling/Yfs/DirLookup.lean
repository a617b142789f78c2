import Mathlib.Data.List.Nodup
import Yfs.DirSearch
import Yfs.YfsClient
import Yfs.SerialProg

namespace Yfs.Dir
open Text

/-- A directory in which every entry can be told from the others by its name. -/
structure Listing (es : List Entry) : Prop where
  ok : ∀ x ∈ es, x.name ≠ [] ∧ NameOk x.name
  nodup : (es.map Entry.name).Nodup

/-- The entry that `lookup` takes for the one with the name. -/
def lookupHit (es : List Entry) (n : Str) : Option Entry := es.find? fun x => n <:+ x.name

theorem lookupInum_render {es : List Entry} {n : Str} (hes : ∀ x ∈ es, NameOk x.name)
    (hn : NameOk n) :
    lookupInum (render es) n = some ((lookupHit es n).map Entry.inum) := by
  cases hhit : lookupHit es n with
  | none =>
    have hnone : ∀ x ∈ es, NameOk x.name ∧ ¬ n <:+ x.name := by
      intro x hx
      exact ⟨hes x hx,by simpa using List.find?_eq_none.mp hhit x hx⟩
    exact (lookupInum_eq_none_iff _ _).mpr (find_suffix_none hn hnone)
  | some x =>
    obtain ⟨hend,l,r,rfl,hl⟩ := List.find?_eq_some_iff_append.mp hhit
    obtain ⟨u,hu⟩ := of_decide_eq_true hend
    have hbefore : ∀ y ∈ l, NameOk y.name ∧ ¬ n <:+ y.name := by
      intro y hy
      exact ⟨hes y (List.mem_append_left _ hy),by simpa using hl y hy⟩
    exact lookupInum_suffix hn hbefore (hes x (by simp)) hu.symm

theorem lookup_alone (parent : Inum) (n : Str) {buffer : Str} {content : Inum → Option Str}
    {found : Option Inum} (hdir : content parent = some buffer)
    (hfound : lookupInum buffer n = some found) :
    (lookup parent n).alone [] content = .ends (found.elim (.status .ioerr) .inum) content := by
  have hself : parent ∈ [parent] := List.mem_singleton.mpr rfl
  rw [lookup, lookupThen, Prog.alone, if_neg List.not_mem_nil, Prog.alone, if_pos hself, hdir,
    Option.elim_some]
  simp only [hfound]
  rw [Prog.alone, if_pos hself, List.erase_cons_head]
  cases found with
  | none => rfl
  | some i => rfl

/-- A result says of every inum whether it is the one of the entry with the name, and
without such an entry it is an error. -/
def ExactResult (es : List Entry) (n : Str) (res : Result) : Prop :=
  (∀ k, res = .inum k ↔ (⟨k, n⟩ : Entry) ∈ es) ∧ ((∀ x ∈ es, x.name ≠ n) → res = .status .ioerr)

theorem Listing.inum_unique {es : List Entry} (hes : Listing es) {n : Str} {k k' : Inum}
    (h : (⟨k, n⟩ : Entry) ∈ es) (h' : (⟨k', n⟩ : Entry) ∈ es) : k = k' :=
  congrArg Entry.inum (List.inj_on_of_nodup_map hes.nodup h h' rfl)

theorem lookupHit_of_mem {es : List Entry} {n : Str} {k : Inum} (h : (⟨k, n⟩ : Entry) ∈ es) :
    ∃ x, lookupHit es n = some x := by
  refine Option.isSome_iff_exists.mp (List.find?_isSome.mpr ⟨_,h,?_⟩)
  exact decide_eq_true List.suffix_rfl

/-- `lookup` is exact if and only if the first entry whose name ends with the one it looks
for has the inum of that one. -/
theorem lookup_exact (content : Inum → Option Str) (parent : Inum) (es : List Entry) (n : Str)
    (hdir : content parent = some (render es)) (hes : Listing es) (hn : n ≠ [] ∧ NameOk n) :
    (∃ res, (lookup parent n).alone [] content = .ends res content ∧ ExactResult es n res) ↔
      ∀ x ∈ lookupHit es n, (⟨x.inum, n⟩ : Entry) ∈ es := by
  have hfound := lookupInum_render (fun x hx => (hes.ok x hx).2) hn.2
  rw [lookup_alone parent n hdir hfound]
  constructor
  · rintro ⟨res,hres,hexact,-⟩ x hx
    cases hres
    rw [hx] at hexact
    exact (hexact x.inum).mp rfl
  · intro hfirst
    refine ⟨_,rfl,?_⟩
    cases hhit : lookupHit es n with
    | none =>
      refine ⟨fun k => ⟨nofun,fun hk => ?_⟩,fun _ => rfl⟩
      obtain ⟨x,hx⟩ := lookupHit_of_mem hk
      exact nomatch hhit.symm.trans hx
    | some x =>
      have hx := hfirst x hhit
      refine ⟨fun k => ⟨?_,fun hk => ?_⟩,fun hno => absurd rfl (hno _ hx)⟩
      · rintro ⟨rfl⟩
        exact hx
      · rw [hes.inum_unique hk hx]
        rfl

theorem lookup_exact_two :
    ∃ res, (lookup 1 "b".toList).alone [] (fun _ => some "9:b;5:ab;".toList) =
      .ends res (fun _ => some "9:b;5:ab;".toList) ∧
      ExactResult [⟨9, "b".toList⟩, ⟨5, "ab".toList⟩] "b".toList res := by
  have htext : render [⟨9, "b".toList⟩, ⟨5, "ab".toList⟩] = "9:b;5:ab;".toList := by decide +kernel
  refine (lookup_exact _ 1 _ _ (congrArg some htext.symm) ⟨?_,?_⟩ ?_).mpr ?_
  · decide
  · decide
  · decide
  · rintro _ ⟨rfl⟩
    decide

/-- With `ab` alone in the directory, or before `b`, a lookup of `b` finds the inum of
`ab`. -/
theorem lookup_finds_other_name :
    (Listing [⟨5, "ab".toList⟩] ∧ Listing [⟨5, "ab".toList⟩, ⟨9, "b".toList⟩]) ∧
    (lookup 1 "b".toList).alone [] (fun _ => some (render [⟨5, "ab".toList⟩])) =
      .ends (.inum 5) (fun _ => some (render [⟨5, "ab".toList⟩])) ∧
    (lookup 1 "b".toList).alone [] (fun _ => some (render [⟨5, "ab".toList⟩, ⟨9, "b".toList⟩])) =
      .ends (.inum 5) (fun _ => some (render [⟨5, "ab".toList⟩, ⟨9, "b".toList⟩])) := by
  refine ⟨⟨⟨?_,?_⟩,⟨?_,?_⟩⟩,?_,?_⟩
  · decide
  · decide
  · decide
  · decide
  · have hfound : lookupInum (render [⟨5, "ab".toList⟩]) "b".toList = some (some 5) := by decide
    exact lookup_alone 1 _ rfl hfound
  · have hfound : lookupInum (render [⟨5, "ab".toList⟩, ⟨9, "b".toList⟩]) "b".toList =
        some (some 5) := by
      decide
    exact lookup_alone 1 _ rfl hfound

end Yfs.Dir
