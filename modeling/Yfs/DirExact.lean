import Yfs.DirLookup

namespace Yfs.Dir
open Text

theorem createEntry_alone_eq (parent : Inum) (x : Entry) {buffer : Str}
    {content : Inum → Option Str} (hdir : content parent = some buffer) :
    (createEntry parent x).alone [] content =
      if find x.name buffer ≠ none then .ends (.status .exist) content
      else if x.inum = parent then .stuck
      else .ends (.status .ok)
        (Function.update (Function.update content x.inum (some [])) parent
          (some (buffer ++ x.text))) := by
  have hself : parent ∈ [parent] := List.mem_singleton.mpr rfl
  rw [createEntry, Prog.alone, if_neg List.not_mem_nil, Prog.alone, if_pos hself, hdir,
    Option.elim_some]
  by_cases hfind : find x.name buffer ≠ none
  · rw [if_pos hfind, if_pos hfind]
    simp [Prog.alone]
  · rw [if_neg hfind, if_neg hfind, Prog.alone]
    by_cases hx : x.inum = parent
    · -- the inum that was drawn is that of the directory, whose lock is held
      rw [if_pos (List.mem_singleton.mpr hx), if_pos hx]
    · rw [if_neg (fun h => hx (List.mem_singleton.mp h)), if_neg hx]
      simp [Prog.alone]

/-- The outcome says whether there is an entry with the name. If there is none, the entry is
appended, and its extent is empty; if there is one, nothing changes. -/
structure CreatesExactly (content : Inum → Option Str) (parent : Inum) (es : List Entry) (x : Entry)
    (out : Outcome Inum Str Result) : Prop where
  exist : x.name ∈ es.map Entry.name → out = .ends (.status .exist) content
  ok : x.name ∉ es.map Entry.name → out = .ends (.status .ok)
    (Function.update (Function.update content x.inum (some [])) parent (some (render (es ++ [x]))))

/-- `create` and `create_dir` are exact if and only if the name is there, or it is nowhere in
the names and inums of the directory and the inum that is drawn is not that of the directory. -/
theorem create_exact (c : Call) (parent : Inum) (x : Entry) (content : Inum → Option Str)
    (es : List Entry) (hc : c.creates = some (parent, x)) (hdir : content parent = some (render es))
    (hn : x.name ≠ [] ∧ NameOk x.name) :
    CreatesExactly content parent es x (c.body.alone [] content) ↔
      x.name ∈ es.map Entry.name ∨
        ((∀ y ∈ es, ¬ x.name <:+: filename y.inum ∧ ¬ x.name <:+: y.name) ∧ x.inum ≠ parent) := by
  have hfind : find x.name (render es) = none ↔ ∀ y ∈ es, ¬ x.name <:+: filename y.inum ∧
      ¬ x.name <:+: y.name := by
    rw [find_eq_none_iff, infix_render_iff hn]
    simp only [not_exists, not_and, not_or]
  rw [body_of_creates c parent x hc, createEntry_alone_eq parent x hdir, ← hfind]
  by_cases hin : x.name ∈ es.map Entry.name
  · refine iff_of_true ⟨fun _ => if_pos ?_,fun hno => absurd hin hno⟩ (.inl hin)
    obtain ⟨y,hy,hyn⟩ := List.mem_map.mp hin
    rw [Ne, find_eq_none_iff, not_not, ← hyn]
    exact name_infix_render es y hy
  · rw [or_iff_right hin]
    constructor
    · intro h
      have hok := h.ok hin
      split_ifs at hok with hfound hself
      · cases hok
      · exact ⟨not_not.mp hfound,hself⟩
    · rintro ⟨hnone,hself⟩
      refine ⟨fun h => absurd h hin,fun _ => ?_⟩
      rw [if_neg (not_not.mpr hnone), if_neg hself, render_snoc]

theorem create_exact_new :
    CreatesExactly (fun _ => some (render [⟨12, "ab".toList⟩])) 1 [⟨12, "ab".toList⟩]
      ⟨generateFileInum 7, "c".toList⟩
      ((create 1 "c".toList 7).alone [] fun _ => some (render [⟨12, "ab".toList⟩])) := by
  refine (create_exact (.create 1 "c".toList 7) 1 _ _ _ rfl rfl ?_).mpr (.inr ⟨?_,?_⟩)
  · decide
  · decide
  · decide

/-- In the directory `12:ab;` there is neither `a` nor `1`, and they cannot be created. -/
theorem create_refuses_part :
    Listing [⟨12, "ab".toList⟩] ∧
    (create 1 "a".toList 7).alone [] (fun _ => some (render [⟨12, "ab".toList⟩])) =
      .ends (.status .exist) (fun _ => some (render [⟨12, "ab".toList⟩])) ∧
    (createDir 1 "1".toList 7).alone [] (fun _ => some (render [⟨12, "ab".toList⟩])) =
      .ends (.status .exist) (fun _ => some (render [⟨12, "ab".toList⟩])) ∧
    ¬ CreatesExactly (fun _ => some (render [⟨12, "ab".toList⟩])) 1 [⟨12, "ab".toList⟩]
      ⟨generateFileInum 7, "a".toList⟩
      ((create 1 "a".toList 7).alone [] fun _ => some (render [⟨12, "ab".toList⟩])) := by
  have hfile : (create 1 "a".toList 7).alone [] (fun _ => some (render [⟨12, "ab".toList⟩])) =
      .ends (.status .exist) (fun _ => some (render [⟨12, "ab".toList⟩])) := by
    rw [create, createEntry_alone_eq 1 _ rfl]
    rfl
  refine ⟨⟨?_,?_⟩,hfile,?_,fun h => ?_⟩
  · decide
  · decide
  · rw [createDir, createEntry_alone_eq 1 _ rfl]
    rfl
  · have hok := h.ok (by decide)
    rw [hfile] at hok
    cases hok

section
variable (parent : Inum) (n : Str) {buffer : Str} {content : Inum → Option Str}
    (hdir : content parent = some buffer)
include hdir

theorem unlink_alone_eq :
    (unlink parent n).alone [] content =
      match lookupInum buffer n with
      | none => .undef
      | some none => .ends (.status .noent) content
      | some (some i) =>
        match unlinkRest buffer n i with
        | none => .undef
        | some rest =>
          if i = parent then .stuck
            else .ends (.status .ok) (Function.update content parent (some rest)) := by
  have hself : parent ∈ [parent] := List.mem_singleton.mpr rfl
  rw [unlink, lookupThen, Prog.alone, if_neg List.not_mem_nil, Prog.alone, if_pos hself, hdir,
    Option.elim_some]
  rcases lookupInum buffer n with _ | _ | i
  · rfl
  · simp [Prog.alone]
  · simp only [Prog.alone, unlinkFound, if_neg List.not_mem_nil, if_pos hself, hdir,
      List.erase_cons_head, Option.elim_some]
    cases unlinkRest buffer n i with
    | none => rfl
    | some rest =>
      by_cases hi : i = parent
      · simp [Prog.alone, removeFiles, hi]
      · by_cases hfile : isfile i = true
        · simp [Prog.alone, removeFiles, hi, hfile]
        · simp [Prog.alone, removeFiles, hi, hfile]

theorem unlink_removes_eq :
    (unlink parent n).removes [] content =
      match lookupInum buffer n with
      | none => []
      | some none => []
      | some (some i) =>
        match unlinkRest buffer n i with
        | none => []
        | some _ => if i ≠ parent ∧ isfile i = true then [i] else [] := by
  have hself : parent ∈ [parent] := List.mem_singleton.mpr rfl
  rw [unlink, lookupThen, Prog.removes, if_neg List.not_mem_nil, Prog.removes, if_pos hself, hdir,
    Option.elim_some]
  rcases lookupInum buffer n with _ | _ | i
  · rfl
  · simp [Prog.removes]
  · simp only [Prog.removes, unlinkFound, if_neg List.not_mem_nil, if_pos hself, hdir,
      List.erase_cons_head, Option.elim_some]
    cases unlinkRest buffer n i with
    | none => rfl
    | some rest =>
      by_cases hi : i = parent
      · simp [Prog.removes, removeFiles, hi]
      · by_cases hfile : isfile i = true
        · simp [Prog.removes, removeFiles, hi, hfile]
        · simp [Prog.removes, removeFiles, hi, hfile]

end

/-- The entry with the name is taken out of the directory and its extent is removed. If there
is none, nothing changes. -/
structure UnlinksExactly (content : Inum → Option Str) (parent : Inum) (es : List Entry) (n : Str)
    (out : Outcome Inum Str Result) (removed : List Inum) : Prop where
  ok : ∀ k, (⟨k, n⟩ : Entry) ∈ es → removed = [k] ∧ out = .ends (.status .ok)
    (Function.update content parent (some (render (es.filter fun y => y.name ≠ n))))
  noent : n ∉ es.map Entry.name → removed = [] ∧ out = .ends (.status .noent) content

/-- The searches of `unlink` miss, or they find an entry of a file with the name: no name
before it ends so, and the digits of its inum are nowhere before it. -/
def UnlinkFinds (parent : Inum) (es : List Entry) (n : Str) : Prop :=
  find (n ++ [';']) (render es) = none ∨ ∃ l k r, es = l ++ ⟨k, n⟩ :: r ∧
    (∀ y ∈ l, ¬ n <:+ y.name) ∧
    find (filename k) (render es) = some (render l).length ∧ isfile k = true ∧ k ≠ parent

/-- What is left if the name is found in its entry: the digits are cut out from where they are
found first. -/
theorem unlinkRest_at
    {l r : List Entry} {x : Entry} (hl : ∀ y ∈ l, NameOk y.name ∧ ¬ x.name <:+ y.name)
    (hx : NameOk x.name) : unlinkRest (render (l ++ x :: r)) x.name x.inum =
      (find (filename x.inum) (render (l ++ x :: r))).bind fun p =>
        if p ≤ (render l ++ x.text).length then some ((render (l ++ x :: r)).take p ++ render r)
        else none := by
  have hname := find_suffix (r := r) hx hl hx (List.nil_append x.name).symm
  have hpre : (render l).length + (filename x.inum ++ [':']).length =
      (render l ++ (filename x.inum ++ [':'])).length :=
    List.length_append.symm
  have hend : (render l ++ (filename x.inum ++ [':'])).length + x.name.length + 1 =
      (render l ++ x.text).length := by
    simp [Entry.text]
    omega
  have hdrop : (render (l ++ x :: r)).drop (render l ++ (filename x.inum ++ [':'])).length =
      x.name ++ ';' :: render r := by
    rw [render_middle l r x (List.nil_append _).symm,
      ← List.append_assoc (render l) (filename x.inum ++ [':']), List.drop_left]
  have hrest : (render (l ++ x :: r)).drop (render l ++ x.text).length = render r := by
    rw [render_split, ← List.append_assoc, List.drop_left]
  rw [unlinkRest, hname, hpre, Option.bind_some]
  congr 1
  funext p
  rw [hdrop, find_singleton ';' x.name _ hx.2, Option.bind_some, hend, hrest]

/-- Cut out at the entry, and only there, the entry is what goes. -/
theorem unlinkRest_eq_iff
    {l r : List Entry} {x : Entry} (hl : ∀ y ∈ l, NameOk y.name ∧ ¬ x.name <:+ y.name)
    (hx : NameOk x.name) :
    unlinkRest (render (l ++ x :: r)) x.name x.inum = some (render (l ++ r)) ↔
      find (filename x.inum) (render (l ++ x :: r)) = some (render l).length := by
  rw [unlinkRest_at hl hx, render_append l r]
  constructor
  · intro h
    obtain ⟨p,hp,hcut⟩ := Option.bind_eq_some_iff.mp h
    split_ifs at hcut with hle
    -- what is cut is as long as the entry, so it starts where the entry starts
    have htake := List.append_cancel_right (Option.some.inj hcut)
    have hlen := congrArg List.length htake
    rw [List.length_take, render_split, List.length_append, List.length_append] at hlen
    rw [List.length_append] at hle
    rw [hp]
    congr 1
    omega
  · intro hp
    rw [hp, Option.bind_some, if_pos (by simp), render_split, List.take_left]

theorem split_unique {l r l' r' : List Entry} {x y : Entry}
    (hnames : ((l ++ x :: r).map Entry.name).Nodup)
    (h : l ++ x :: r = l' ++ y :: r') (hname : y.name = x.name) : l' = l ∧ y = x ∧ r' = r := by
  have hbefore : ∀ {l r : List Entry} {x : Entry}, ((l ++ x :: r).map Entry.name).Nodup →
      x.name ∉ l.map Entry.name := by
    intro l r x hnodup hmem
    rw [List.map_append, List.map_cons, List.nodup_append] at hnodup
    exact hnodup.2.2 _ hmem _ List.mem_cons_self rfl
  have hx : y ∉ l := fun hy => hbefore hnames (hname ▸ List.mem_map_of_mem hy)
  have hy : x ∉ l' := fun hx => hbefore (h ▸ hnames) (hname ▸ List.mem_map_of_mem hx)
  obtain ⟨rfl,rfl,rfl⟩ := append_cons_inj hx hy h
  exact ⟨rfl,rfl,rfl⟩

/-- Without such an entry, the search for the name has to miss. -/
theorem unlinksExactly_iff_of_no_entry {content : Inum → Option Str} (parent : Inum)
    {es : List Entry} {n : Str}
    (hdir : content parent = some (render es)) (hno : n ∉ es.map Entry.name) :
    UnlinksExactly content parent es n ((unlink parent n).alone [] content)
    ((unlink parent n).removes [] content) ↔
      lookupInum (render es) n = some none := by
  rw [unlink_alone_eq parent n hdir, unlink_removes_eq parent n hdir]
  rcases lookupInum (render es) n with _ | _ | i
  · refine iff_of_false (fun h => ?_) (by simp)
    obtain ⟨-,hout⟩ := h.noent hno
    cases hout
  · exact iff_of_true ⟨fun k hk => absurd (List.mem_map_of_mem hk) hno,fun _ => ⟨rfl,rfl⟩⟩ rfl
  · refine iff_of_false (fun h => ?_) (by simp)
    obtain ⟨-,hout⟩ := h.noent hno
    simp only at hout
    cases hrest : unlinkRest (render es) n i with
    | none =>
      rw [hrest] at hout
      cases hout
    | some rest =>
      simp only [hrest] at hout
      split_ifs at hout
      cases hout

section
variable {content : Inum → Option Str} (parent : Inum) {l r : List Entry} {x : Entry}
  (hdir : content parent = some (render (l ++ x :: r))) (hes : ∀ y ∈ l ++ x :: r, NameOk y.name)
  (hnames : ((l ++ x :: r).map Entry.name).Nodup)
  (hfilter : (l ++ x :: r).filter (fun y => y.name ≠ x.name) = l ++ r)
include hdir hes hnames hfilter

/-- With both searches at the entry of a file, `unlink` takes the entry out. -/
theorem unlinksExactly_of_entry (hl : ∀ y ∈ l, ¬ x.name <:+ y.name)
    (hk : find (filename x.inum) (render (l ++ x :: r)) = some (render l).length)
    (hfile : isfile x.inum = true) (hself : x.inum ≠ parent) :
    UnlinksExactly content parent (l ++ x :: r) x.name ((unlink parent x.name).alone [] content)
      ((unlink parent x.name).removes [] content) := by
  have hx : x ∈ l ++ x :: r := by simp
  have hok : ∀ y ∈ l, NameOk y.name ∧ ¬ x.name <:+ y.name :=
    fun y hy => ⟨hes y (List.mem_append_left _ hy),hl y hy⟩
  have hlookup : lookupInum (render (l ++ x :: r)) x.name = some (some x.inum) :=
    lookupInum_suffix (hes x hx) hok (hes x hx) (List.nil_append _).symm
  have hrest := (unlinkRest_eq_iff hok (hes x hx)).mpr hk
  refine ⟨fun k hk => ?_,fun hno => absurd (List.mem_map_of_mem hx) hno⟩
  have hkx : (⟨k, x.name⟩ : Entry) = x := List.inj_on_of_nodup_map hnames hk hx rfl
  rw [unlink_alone_eq parent _ hdir, unlink_removes_eq parent _ hdir, hfilter]
  simp only [hlookup, hrest]
  rw [if_pos ⟨hself,hfile⟩, if_neg hself, ← hkx]
  exact ⟨rfl,rfl⟩

theorem entry_of_unlinksExactly (hinums : ((l ++ x :: r).map Entry.inum).Nodup)
    (h : UnlinksExactly content parent (l ++ x :: r) x.name
      ((unlink parent x.name).alone [] content)
      ((unlink parent x.name).removes [] content)) :
    (∀ y ∈ l, ¬ x.name <:+ y.name) ∧
      find (filename x.inum) (render (l ++ x :: r)) = some (render l).length ∧
      isfile x.inum = true ∧ x.inum ≠ parent := by
  have hx : x ∈ l ++ x :: r := by simp
  obtain ⟨y,hy⟩ := lookupHit_of_mem hx
  have hlookup : lookupInum (render (l ++ x :: r)) x.name = some (some y.inum) := by
    rw [lookupInum_render hes (hes x hx), hy, Option.map_some]
  obtain ⟨hrem,hout⟩ := h.ok x.inum hx
  rw [unlink_removes_eq parent _ hdir] at hrem
  rw [unlink_alone_eq parent _ hdir, hfilter] at hout
  simp only [hlookup] at hrem hout
  cases hrest : unlinkRest (render (l ++ x :: r)) x.name y.inum with
  | none =>
    rw [hrest] at hrem
    cases hrem
  | some rest =>
    simp only [hrest] at hrem hout
    split_ifs at hrem with hfile
    -- what was found has the inum of `x`, so it is `x`
    have hyx : y = x := List.inj_on_of_nodup_map hinums (List.mem_of_find?_eq_some hy) hx
      (List.cons.inj hrem).1
    subst hyx
    obtain ⟨-,l',r',hsplit,hbefore⟩ := List.find?_eq_some_iff_append.mp hy
    obtain ⟨rfl,-,rfl⟩ := split_unique hnames hsplit rfl
    have hl : ∀ z ∈ l', ¬ y.name <:+ z.name := fun z hz => by simpa using hbefore z hz
    rw [if_neg hfile.1] at hout
    injection hout with _ hcontent
    have hcut := congrFun hcontent parent
    rw [Function.update_self, Function.update_self] at hcut
    rw [hcut, unlinkRest_eq_iff (fun z hz => ⟨hes z (List.mem_append_left _ hz),hl z hz⟩)
      (hes y hx)] at hrest
    exact ⟨hl,hrest,hfile.2,hfile.1⟩

end

end Yfs.Dir
