import Yfs.DirCreates
import Yfs.DirExact
import Yfs.DirPositions

namespace Yfs.Dir
open Text

/-- There is no `:` behind `delim_pos`, and none in the names. -/
structure Scan.AfterColon (buffer : Str) (s : Scan) (i : ℕ) : Prop where
  delim : ∀ d ∈ s.delimPos, ∀ j, d < j → j < i → buffer[j]? ≠ some ':'
  names : ∀ x ∈ s.added, ':' ∉ x.name

theorem Scan.AfterColon.step {buffer : Str} {s t : Scan} {i : ℕ} {c : Char}
    (h : s.AfterColon buffer i) (hc : buffer[i]? = some c) (hs : s.step buffer i c = some t) :
    t.AfterColon buffer (i + 1) := by
  -- a position that is passed does not hold a `:`
  have hdelim (hne : c ≠ ':') :
      ∀ d ∈ s.delimPos, ∀ j, d < j → j < i + 1 → buffer[j]? ≠ some ':' := by
    intro d hd j hdj hj
    rcases Nat.lt_succ_iff_lt_or_eq.mp hj with hj | rfl
    · exact h.delim d hd j hdj hj
    · rw [hc, Ne, Option.some_inj]
      exact hne
  rcases Scan.step_cases hs with ⟨-,n,-,rfl⟩ | ⟨rfl,d,n,inum,hd,hn,-,rfl⟩ | ⟨hcolon,-,rfl⟩
  · refine ⟨?_,h.names⟩
    rintro d ⟨⟩ j hd hj
    omega
  · refine ⟨hdelim (by decide),fun x hx => ?_⟩
    rcases List.mem_append.mp hx with hx | hx
    · exact h.names x hx
    · rw [List.mem_singleton.mp hx]
      intro hmem
      rw [substr] at hn
      split_ifs at hn
      cases hn
      obtain ⟨k,hk⟩ := List.mem_iff_getElem?.mp hmem
      rw [List.getElem?_take, List.getElem?_drop] at hk
      split_ifs at hk
      exact h.delim d hd (d + 1 + k) (by omega) (by omega) hk
  · exact ⟨hdelim hcolon,h.names⟩

theorem Scan.AfterColon.scanFrom {buffer cs : Str} {s t : Scan} {i : ℕ}
    (h : s.AfterColon buffer i) (hcs : cs = buffer.drop i) (hs : scanFrom buffer s i cs = some t) :
    ∀ x ∈ t.added, ':' ∉ x.name := by
  induction cs generalizing s i with
  | nil =>
    cases hs
    exact h.names
  | cons c cs ih =>
    have hc : buffer[i]? = some c := by
      rw [← List.head?_drop, ← hcs]
      rfl
    have hrest : cs = buffer.drop (i + 1) := by
      rw [← List.tail_drop, ← hcs]
      rfl
    obtain ⟨s',hstep,hs⟩ := Option.bind_eq_some_iff.mp hs
    exact ih (h.step hc hstep) hrest hs

theorem dirbufAdds_count {buffer : Str} {L : List (Str × Inum)} (h : dirbufAdds buffer = some L) :
    L.length = buffer.count ';' := by
  obtain ⟨-,s,hs,rfl⟩ := dirbufAdds_eq_some_iff.mp h
  obtain ⟨L,hL,hcount⟩ := intSteps_added hs
  rw [hL, List.nil_append, hcount]

theorem colon_not_mem_of_dirbufAdds {es : List Entry} {L : List (Str × Inum)}
    (hlen : (render es).length ≤ 2^31) (h : dirbufAdds (render es) = some L) {p : Str × Inum}
    (hp : p ∈ L) : ':' ∉ p.1 := by
  rw [dirbufAdds_eq _ hlen (render_getLast es), fuseserverReaddir, Option.map_map] at h
  obtain ⟨t,ht,rfl⟩ := Option.map_eq_some_iff.mp h
  obtain ⟨x,hx,rfl⟩ := List.mem_map.mp hp
  have hstart : Scan.AfterColon (render es) ⟨0, none, [], []⟩ 0 := by
    refine ⟨fun d hd => ?_,fun _ hx => absurd hx List.not_mem_nil⟩
    cases hd
  have hname := hstart.scanFrom rfl ht x hx
  exact fun hmem => hname ((List.takeWhile_prefix _).subset hmem)

/-- A text without `;` in which the last `:` has only blanks before it. -/
def blankPiece (q : Str) : Bool :=
  match q.dropWhile isSpace with
  | [] => false
  | c :: r => decide (c = ':' ∧ ':' ∉ r)

/-- A name with a `;` behind which the scan reads an inum from blanks. -/
def blankInum : Str → Bool
  | [] => false
  | c :: cs => (decide (c = ';') && blankPiece (cs.takeWhile (· ≠ ';'))) || blankInum cs

theorem blankPiece_of_colon {b r : Str} (hr : ':' ∉ r) :
    blankPiece (b ++ ':' :: r) = true ↔ n2i b = none := by
  have hn2i : n2i b = none ↔ b.dropWhile isSpace = [] := by
    rw [n2i]
    split_ifs with h
    · exact iff_of_true rfl h
    · exact iff_of_false id h
  rw [hn2i, blankPiece, List.dropWhile_append]
  cases b.dropWhile isSpace with
  | nil =>
    have hspace : (':' :: r).dropWhile isSpace = ':' :: r :=
      List.dropWhile_cons_of_neg (by decide)
    simp [hspace, hr]
  | cons c w => simp

theorem blankPiece_of_not_mem {q : Str} (hq : ':' ∉ q) : blankPiece q = false := by
  have hdrop : ':' ∉ q.dropWhile isSpace := fun h => hq ((List.dropWhile_suffix _).subset h)
  rw [blankPiece]
  cases hd : q.dropWhile isSpace with
  | nil => rfl
  | cons c r =>
    rw [hd, List.mem_cons, not_or] at hdrop
    exact decide_eq_false fun h => hdrop.1 h.1.symm

theorem blankInum_append (a b : Str) :
    blankInum (a ++ ';' :: b) = (blankInum a || blankInum (';' :: b)) := by
  induction a with
  | nil => rfl
  | cons c a ih =>
    have htake : (a ++ ';' :: b).takeWhile (· ≠ ';') = a.takeWhile (· ≠ ';') := by
      rw [List.takeWhile_append]
      split_ifs with h
      · rw [List.takeWhile_cons_of_neg (by simp), List.append_nil,
          List.takeWhile_eq_self_iff.mpr]
        exact List.takeWhile_eq_self_iff.mp ((List.takeWhile_prefix _).eq_of_length h)
      · rfl
    rw [List.cons_append, blankInum, htake, ih, ← Bool.or_assoc]
    rfl

theorem blankInum_of_not_mem {a b : Str} (ha : ';' ∉ a) : blankInum (a ++ b) = blankInum b := by
  induction a with
  | nil => rfl
  | cons c a ih =>
    rw [List.mem_cons, not_or] at ha
    rw [List.cons_append, blankInum, decide_eq_false (Ne.symm ha.1), Bool.false_and, Bool.false_or,
      ih ha.2]

theorem blankInum_render (es : List Entry) :
    blankInum (';' :: render es) = true ↔ ∃ x ∈ es, blankInum x.name = true := by
  induction es with
  | nil => simp [render, blankInum, blankPiece]
  | cons x es ih =>
    have hrender : ';' :: render (x :: es) =
        (';' :: (filename x.inum ++ ':' :: x.name)) ++ ';' :: render es := by
      simp [render, Entry.text]
    have hbody : blankInum (filename x.inum ++ ':' :: x.name) = blankInum x.name := by
      rw [blankInum_of_not_mem (filename_nameOk x.inum).2]
      exact Bool.false_or _
    -- the piece with the inum starts with a digit
    have hpiece : blankPiece ((filename x.inum ++ ':' :: x.name).takeWhile (· ≠ ';')) = false := by
      obtain ⟨c,cs,hcs⟩ := List.exists_cons_of_ne_nil (filename_ne_nil x.inum)
      have hc : c.isDigit = true := isDigit_of_mem_filename x.inum c (by simp [hcs])
      have hsemi : c ≠ ';' := by
        rintro rfl
        exact absurd hc (by decide)
      rw [hcs, List.cons_append, List.takeWhile_cons_of_pos (by simpa using hsemi), blankPiece,
        List.dropWhile_cons_of_neg (by simp [not_isSpace_of_isDigit c hc])]
      refine decide_eq_false ?_
      rintro ⟨rfl,-⟩
      exact absurd hc (by decide)
    rw [hrender, blankInum_append, blankInum, hpiece, hbody, Bool.and_false, Bool.false_or,
      Bool.or_eq_true, ih, List.exists_mem_cons_iff]

theorem scanFrom_append (buffer w cs : Str) (s : Scan) (i : ℕ) :
    scanFrom buffer s i (w ++ cs) =
      (scanFrom buffer s i w).bind fun s' => scanFrom buffer s' (i + w.length) cs := by
  induction w generalizing s i with
  | nil => rfl
  | cons c w ih =>
    rw [List.cons_append, scanFrom, scanFrom, Option.bind_assoc]
    refine Option.bind_congr fun s' _ => ?_
    rw [ih, List.length_cons, Nat.add_assoc, Nat.add_comm 1]

theorem scanFrom_render_start {buffer : Str} {es : List Entry} {t : Scan}
    (h : scanFrom buffer ⟨0, none, [], []⟩ 0 (render es) = some t) :
    t.start = (render es).length := by
  rcases List.eq_nil_or_concat es with rfl | ⟨l,x,rfl⟩
  · cases h
    rfl
  · rw [render_concat] at h ⊢
    rw [scanFrom_append, Nat.zero_add] at h
    obtain ⟨s',-,h⟩ := Option.bind_eq_some_iff.mp h
    obtain ⟨t',hstep,h⟩ := Option.bind_eq_some_iff.mp h
    cases h
    rcases Scan.step_cases hstep with ⟨hc,-⟩ | ⟨-,d,n,inum,-,-,-,rfl⟩ | ⟨-,hc,-⟩
    · exact absurd hc (by decide)
    · simp only [List.length_append, List.length_singleton]
    · exact absurd rfl hc

theorem scanFrom_piece (buffer : Str) {w : Str} {s : Scan} {i : ℕ} (hw : ';' ∉ w) (h : s.Before i)
    (hlen : i + w.length ≤ buffer.length) :
    ∃ t, scanFrom buffer s i w = some t ∧ t.start = s.start := by
  induction w generalizing s i with
  | nil => exact ⟨s,rfl,rfl⟩
  | cons c w ih =>
    rw [List.length_cons] at hlen
    rw [List.mem_cons, not_or] at hw
    have hstart := h.start
    have hstep : ∃ s', s.step buffer i c = some s' ∧ s'.start = s.start := by
      unfold Scan.step
      split_ifs with hcolon hsemi
      · rw [substr, if_pos (by omega)]
        exact ⟨_,rfl,rfl⟩
      · exact absurd hsemi.symm hw.1
      · exact ⟨s,rfl,rfl⟩
    obtain ⟨s',hs,hs'⟩ := hstep
    obtain ⟨t,ht,ht'⟩ := ih hw.2 (h.step hs) (by omega)
    exact ⟨t,by rw [scanFrom, hs, Option.bind_some, ht],ht'.trans hs'⟩

/-- The scan has an inum for the next entry. -/
def Scan.Ready (s : Scan) : Prop := s.delimPos ≠ none ∧ n2i s.fileInum ≠ none

/-- With an inum the scan goes beyond the `;`, and without one it does not. -/
theorem scanFrom_semi {buffer : Str} (cs : Str) {s : Scan} {i d : ℕ} (hd : s.delimPos = some d)
    (hlt : d < i) (hi : i < buffer.length) :
    (n2i s.fileInum = none → scanFrom buffer s i (';' :: cs) = none) ∧
      (n2i s.fileInum ≠ none → ∃ t, scanFrom buffer s i (';' :: cs) = scanFrom buffer t (i + 1) cs ∧
        t.start = i + 1 ∧ t.Ready ∧ t.Before (i + 1)) := by
  have hstep : s.step buffer i ';' = (n2i s.fileInum).map fun inum =>
      { s with
        start := i + 1
        added := s.added ++ [⟨inum, (buffer.drop (d + 1)).take (i - d - 1)⟩] } := by
    rw [Scan.step, if_neg (by decide), if_pos rfl, hd, Option.bind_some, substr,
      if_pos (by omega), Option.bind_some]
  rw [scanFrom, hstep]
  refine ⟨fun h => by rw [h]; rfl,fun h => ?_⟩
  obtain ⟨inum,hinum⟩ := Option.ne_none_iff_exists'.mp h
  rw [hinum]
  refine ⟨_,rfl,rfl,⟨?_,h⟩,le_rfl,fun e he => ?_⟩
  · exact hd ▸ Option.some_ne_none d
  · cases hd.symm.trans he
    omega

/-- From one `;` to the next: the scan stops where the inum would be read from blanks. -/
theorem scanFrom_to_semi (before q cs after : Str) (s : Scan) (hq : ';' ∉ q)
    (hs : s.start = before.length) (hbefore : s.Before before.length)
    (hready : s.Ready ∨ ':' ∈ q) :
    (blankPiece q = true →
      scanFrom (before ++ (q ++ ';' :: after)) s before.length (q ++ ';' :: cs) = none) ∧
    (blankPiece q = false → ∃ t,
      scanFrom (before ++ (q ++ ';' :: after)) s before.length (q ++ ';' :: cs) =
        scanFrom (before ++ (q ++ ';' :: after)) t (before.length + q.length + 1) cs ∧
      t.start = before.length + q.length + 1 ∧ t.Ready ∧
        t.Before (before.length + q.length + 1)) := by
  have hlen : before.length + q.length < (before ++ (q ++ ';' :: after)).length := by
    simp only [List.length_append, List.length_cons]
    omega
  by_cases hcolon : ':' ∈ q
  · obtain ⟨b,r,rfl,hr⟩ := exists_last_of_mem hcolon
    have hb : ';' ∉ b := fun h => hq (List.mem_append_left _ h)
    have hrok : NameOk r := ⟨hr,fun h => hq (List.mem_append_right _ (List.mem_cons_of_mem _ h))⟩
    rw [List.length_append, List.length_cons] at hlen ⊢
    have hbuf : before ++ ((b ++ ':' :: r) ++ ';' :: after) =
        before ++ (b ++ (':' :: (r ++ ';' :: after))) := by simp
    have hcut : substr (before ++ ((b ++ ':' :: r) ++ ';' :: after)) before.length b.length =
        some b := by
      rw [hbuf]
      exact substr_middle before b _
    generalize before ++ ((b ++ ':' :: r) ++ ';' :: after) = buffer at hlen hcut ⊢
    obtain ⟨s1,hs1,hstart⟩ := scanFrom_piece buffer hb hbefore (by omega)
    -- at the `:` the text from the last `;` on is taken for the inum
    have hat : s1.step buffer (before.length + b.length) ':' =
        some { s1 with delimPos := some (before.length + b.length), fileInum := b } := by
      rw [Scan.step, if_pos rfl, hstart, hs, Nat.add_sub_cancel_left, hcut]
      rfl
    have hscan : scanFrom buffer s before.length ((b ++ ':' :: r) ++ ';' :: cs) =
        scanFrom buffer { s1 with delimPos := some (before.length + b.length), fileInum := b }
          (before.length + (b.length + (r.length + 1))) (';' :: cs) := by
      rw [List.append_assoc, scanFrom_append, hs1, Option.bind_some, List.cons_append, scanFrom,
        hat, Option.bind_some, scanFrom_plain buffer r _ _ _ hrok]
      congr 1
      omega
    have hdelim : ({ s1 with delimPos := some (before.length + b.length), fileInum := b } :
        Scan).delimPos = some (before.length + b.length) := rfl
    rw [hscan, blankPiece_of_colon hr, Bool.eq_false_iff, Ne, blankPiece_of_colon hr]
    exact scanFrom_semi cs hdelim (by omega) hlen
  · have hplain : scanFrom (before ++ (q ++ ';' :: after)) s before.length (q ++ ';' :: cs) =
        scanFrom (before ++ (q ++ ';' :: after)) s (before.length + q.length) (';' :: cs) :=
      scanFrom_plain _ q _ s _ ⟨hcolon,hq⟩
    obtain ⟨hdelim,hinum⟩ := hready.resolve_right hcolon
    obtain ⟨d,hd⟩ := Option.ne_none_iff_exists'.mp hdelim
    have hlt := hbefore.delim d hd
    rw [hplain, blankPiece_of_not_mem hcolon]
    refine ⟨fun h => absurd h Bool.false_ne_true,fun _ => ?_⟩
    exact (scanFrom_semi cs hd (by omega) hlen).2 hinum

/-- The scan gets to the end of a text that ends with `;` exactly if no inum is read from
blanks. -/
theorem scanFrom_isSome_iff (before w after : Str) (s : Scan) (hw : ∀ c ∈ w.getLast?, c = ';')
    (hs : s.start = before.length) (hbefore : s.Before before.length)
    (hready : w ≠ [] → s.Ready ∨ ':' ∈ w.takeWhile (· ≠ ';')) :
    scanFrom (before ++ (w ++ after)) s before.length w ≠ none ↔
      blankInum (';' :: w) = false := by
  -- from one `;` to the next
  induction hn : w.length using Nat.strong_induction_on generalizing before w s with
  | _ n ih =>
    rcases List.eq_nil_or_concat w with rfl | ⟨w0,c,rfl⟩
    · exact iff_of_true (Option.some_ne_none s) rfl
    rw [List.concat_eq_append] at hw hready hn ⊢
    obtain rfl := hw c (List.getLast?_concat ..)
    obtain ⟨q,w',hsplit,hq⟩ := List.eq_append_cons_of_mem (show ';' ∈ w0 ++ [';'] by simp)
    rw [hsplit] at hw hready hn ⊢
    have htake : (q ++ ';' :: w').takeWhile (· ≠ ';') = q := by
      rw [List.takeWhile_append_of_pos, List.takeWhile_cons_of_neg (by simp), List.append_nil]
      exact fun c hc => decide_eq_true fun he => hq (he ▸ hc)
    rw [htake] at hready
    have hblank : blankInum (';' :: (q ++ ';' :: w')) =
        (blankPiece q || blankInum (';' :: w')) := by
      rw [blankInum, htake, blankInum_of_not_mem hq, decide_eq_true rfl, Bool.true_and]
    have hbuf : before ++ ((q ++ ';' :: w') ++ after) = before ++ (q ++ ';' :: (w' ++ after)) := by
      simp
    obtain ⟨hstop,hgo⟩ := scanFrom_to_semi before q w' (w' ++ after) s hq hs hbefore
      (hready (by simp))
    rw [hblank, hbuf]
    cases hpiece : blankPiece q with
    | true =>
      rw [hstop hpiece, Bool.true_or]
      exact iff_of_false (fun h => h rfl) (by simp)
    | false =>
      obtain ⟨t,ht,hstart,htready,htbefore⟩ := hgo hpiece
      have hnext : before.length + q.length + 1 = (before ++ (q ++ [';'])).length := by
        simp
        omega
      have hlast : ∀ c ∈ w'.getLast?, c = ';' := by
        intro c hc
        refine hw c ?_
        rw [List.getLast?_append_cons, List.getLast?_cons, hc]
        rfl
      rw [hnext] at hstart htbefore ht
      have hrest := ih w'.length (by rw [← hn]; simp; omega) (before ++ (q ++ [';'])) w' t hlast
        hstart htbefore (fun _ => .inl htready) rfl
      rw [ht, Bool.false_or, ← hrest]
      simp

theorem scanFrom_render_iff (es : List Entry) (after : Str) :
    scanFrom (render es ++ after) ⟨0, none, [], []⟩ 0 (render es) ≠ none ↔
      ∀ x ∈ es, blankInum x.name = false := by
  have hcolon : render es ≠ [] →
      Scan.Ready ⟨0, none, [], []⟩ ∨ ':' ∈ (render es).takeWhile (· ≠ ';') := by
    intro hne
    cases es with
    | nil => exact absurd rfl hne
    | cons x es =>
      have htext : render (x :: es) =
          (filename x.inum ++ [':']) ++ (x.name ++ ';' :: render es) := by
        simp [render, Entry.text]
      rw [htext, List.takeWhile_append_of_pos]
      · simp
      · intro c hc
        refine decide_eq_true ?_
        rintro rfl
        exact absurd hc (by simp [(filename_nameOk x.inum).2])
  have h := scanFrom_isSome_iff [] (render es) after ⟨0, none, [], []⟩ (render_last es) rfl
    Scan.before_start hcolon
  rw [List.nil_append, List.length_nil] at h
  rw [h, ← Bool.not_eq_true, blankInum_render]
  simp

/-- Names as FUSE passes them. -/
def FuseName (n : Str) : Prop := n ≠ [] ∧ '/' ∉ n ∧ File.nul ∉ n

instance (n : Str) : Decidable (FuseName n) := by
  unfold FuseName
  infer_instance

/-- `create` or `create_dir` in the directory. -/
def Creating (parent : Inum) (c : Call) (_ : Inum → Option Str) : Prop :=
  ∃ x, c.creates = some (parent, x) ∧ FuseName x.name

section
variable {θ : Type*} {parent : Inum} {content content' : Inum → Option Str}

/-- The entries of the calls that returned OK. -/
def accepted (l : List (θ × Call × Result)) : List Entry :=
  okEntries (l.map fun p => .returned p.1 p.2.1 p.2.2)

theorem accepted_snoc (l : List (θ × Call × Result)) (t : θ) (c : Call) (r : Result) :
    accepted (l ++ [(t, c, r)]) =
      accepted l ++ ((created (.returned t c r)).map Prod.snd).toList := by
  rw [accepted, List.map_append, okEntries_append, List.map_singleton, okEntries_singleton]
  rfl

theorem creates_cases {c : Call} {r : Result} {x : Entry} {buffer : Str}
    (hc : c.creates = some (parent, x))
    (hdir : content parent = some buffer) (h : c.body.alone [] content = .ends r content') :
    r = .status .exist ∧ content' = content ∨
      r = .status .ok ∧ content' parent = some (buffer ++ x.text) := by
  rw [body_of_creates c parent x hc, createEntry_alone_eq parent x hdir] at h
  split_ifs at h
  · cases h
    exact .inl ⟨rfl,rfl⟩
  · cases h
    exact .inr ⟨rfl,Function.update_self ..⟩

/-- The directory has the entries of the calls that returned OK, in this order. -/
theorem creating_run {es : List Entry} {l : List (θ × Call × Result)}
    (hdir : content parent = some (render es))
    (h : SerialRun (Alone Call.body (Creating parent)) content l content') :
    content' parent = some (render (es ++ accepted l)) := by
  induction h with
  | nil => rw [hdir, accepted, List.map_nil, okEntries, List.filterMap_nil, List.append_nil]
  | snoc hl hw ih =>
    obtain ⟨⟨x,hc,-⟩,hend⟩ := hw
    rw [accepted_snoc]
    rcases creates_cases hc ih hend with ⟨rfl,rfl⟩ | ⟨rfl,hcontent⟩
    · simp only [created, Option.map_none, Option.toList_none, List.append_nil]
      exact ih
    · rw [created, hc, Option.map_some, Option.toList_some, hcontent, ← List.append_assoc,
        render_snoc]

/-- What `fuseserver_readdir` passes to `dirbuf_add` for a directory. -/
def reported (content : Inum → Option Str) (parent : Inum) : Option (List (Str × Inum)) :=
  match (readdir parent).alone [] content with
  | .ends (.buffer buffer) _ => dirbufAdds buffer
  | _ => none

theorem reported_eq {buffer : Str} (hdir : content parent = some buffer) :
    reported content parent = dirbufAdds buffer := by
  have hself : parent ∈ [parent] := List.mem_singleton.mpr rfl
  have halone : (readdir parent).alone [] content = .ends (.buffer buffer) content := by
    rw [readdir, Prog.alone, if_neg List.not_mem_nil, Prog.alone, if_pos hself, hdir,
      Option.elim_some, Prog.alone, if_pos hself, Prog.alone, List.erase_cons_head, if_pos rfl]
  rw [reported, halone]

/-- The directory is listed with this entry more, and with the others as before. -/
def ListedBack (parent : Inum) (x : Entry) (content content' : Inum → Option Str) : Prop :=
  ∃ L L', reported content parent = some L ∧ reported content' parent = some L' ∧
    L'.Perm ((x.name, x.inum) :: L)

/-- An entry with a proper name is added to what is found before it. -/
theorem dirbufAdds_snoc (es : List Entry) (x : Entry) (hx : NameOk x.name)
    (hes : ∀ y ∈ es, blankInum y.name = false) (hlen : (render (es ++ [x])).length ≤ 2^31) :
    ∃ L, dirbufAdds (render es) = some L ∧
      dirbufAdds (render (es ++ [x])) = some (L ++ [(File.cstr x.name, x.inum)]) := by
  have hrender : render (es ++ [x]) = render es ++ (x.text ++ []) := by simp [render]
  have hshort : (render es).length ≤ 2^31 := by
    rw [hrender, List.length_append] at hlen
    omega
  obtain ⟨s,hs⟩ := Option.ne_none_iff_exists'.mp ((scanFrom_render_iff es (x.text ++ [])).mpr hes)
  obtain ⟨t,ht,-,hadded⟩ := scanFrom_entry (render es) [] x s hx (scanFrom_render_start hs)
  refine ⟨s.added.map fun y => (File.cstr y.name, y.inum),?_,?_⟩
  · rw [scanFrom_more _ _ Scan.before_start (by omega)] at hs
    rw [dirbufAdds_eq _ hshort (render_getLast es), fuseserverReaddir, hs]
    rfl
  · rw [dirbufAdds_eq _ hlen (render_getLast _), fuseserverReaddir, hrender, scanFrom_append, hs,
      Option.bind_some, Nat.zero_add, ht, scanFrom, Option.map_some, Option.map_some, hadded,
      List.map_append]
    rfl

/-- The part of an entry behind its last `:`. -/
theorem Entry.exists_last_colon (x : Entry) : ∃ v u,
    x.text = v ++ ':' :: (u ++ [';']) ∧ ':' ∉ u ∧ u <:+ x.name ∧ (';' ∉ x.name → ';' ∉ v) := by
  by_cases hcolon : ':' ∈ x.name
  · obtain ⟨v,u,hname,hu⟩ := exists_last_of_mem hcolon
    refine ⟨filename x.inum ++ ':' :: v,u,by simp [Entry.text, hname],hu,?_,fun hsemi => ?_⟩
    · exact ⟨v ++ [':'],by simp [hname]⟩
    · rw [hname] at hsemi
      simp [(filename_nameOk x.inum).2] at hsemi ⊢
      exact hsemi.1
  · exact ⟨filename x.inum,x.name,rfl,hcolon,List.suffix_rfl,fun _ => (filename_nameOk x.inum).2⟩

/-- An entry that ends behind 2^31 is listed under another name. -/
theorem dirbufAdds_snoc_cross {es : List Entry} {x : Entry} {L L' : List (Str × Inum)}
    (hsemi : ';' ∉ x.name) (hlong : 2^31 < (render (es ++ [x])).length)
    (hL : dirbufAdds (render es) = some L) (hL' : dirbufAdds (render (es ++ [x])) = some L') :
    ∃ n k, n ≠ x.name ∧ L' = L ++ [(n, k)] := by
  obtain ⟨v,u,htext,hu,hsuffix,hv⟩ := x.exists_last_colon
  have hrender : render (es ++ [x]) = render es ++ (v ++ ':' :: (u ++ ';' :: [])) := by
    rw [render_snoc, htext]
  have hsize : (render (es ++ [x])).length = (render es).length + v.length + 1 + u.length + 1 := by
    rw [hrender]
    simp only [List.length_append, List.length_cons, List.length_nil]
    omega
  obtain ⟨hshort,s,hs,rfl⟩ := dirbufAdds_eq_some_iff.mp hL'
  obtain ⟨-,s0,hs0,rfl⟩ := dirbufAdds_eq_some_iff.mp hL
  rw [hrender] at hs hshort
  rw [intSteps_append, Nat.zero_add] at hs
  obtain ⟨s1,hs1,hs⟩ := Option.bind_eq_some_iff.mp hs
  obtain ⟨hcolon,k,hk⟩ := intSteps_cross (render es) v u [] (hv hsemi)
    ⟨hu,fun h => hsemi (hsuffix.subset h)⟩ hshort (by omega) hs
  -- so the directory before it is short, and listed as before
  have hsame : s1.added = s0.added := by
    have hbefore (buffer : Str) := intSteps_ints buffer Scan.before_start
      (show 0 + (render es).length ≤ 2^31 by omega) (render_getLast es)
    have hfirst := hbefore (render es ++ (v ++ ':' :: (u ++ ';' :: [])))
    rw [scanFrom_more _ _ Scan.before_start (by omega), ← hbefore (render es)] at hfirst
    exact congrArg IntScan.added (Option.some.inj (hs1.symm.trans (hfirst.trans hs0)))
  exact ⟨File.cstr (u ++ [';']),k,cstr_rest_ne hsemi hsuffix,by rw [hk, hsame]⟩

theorem listedBack_iff {es : List Entry} {x : Entry} (hx : File.nul ∉ x.name)
    (hdir : content parent = some (render es))
    (hdir' : content' parent = some (render (es ++ [x]))) :
    ListedBack parent x content content' ↔ NameOk x.name ∧
      (∀ y ∈ es, blankInum y.name = false) ∧ (render (es ++ [x])).length ≤ 2^31 := by
  rw [ListedBack, reported_eq hdir, reported_eq hdir']
  constructor
  · rintro ⟨L,L',hL,hL',hperm⟩
    have hsemi : ';' ∉ x.name := by
      -- a `;` in the name would be listed as an entry of its own
      have hcount := hperm.length_eq
      rw [List.length_cons, dirbufAdds_count hL', dirbufAdds_count hL, render_snoc,
        List.count_append] at hcount
      have htext : x.text.count ';' = (filename x.inum).count ';' + (x.name.count ';' + 1) := by
        simp [Entry.text, List.count_append]
      exact List.count_eq_zero.mp (by omega)
    have hlen : (render (es ++ [x])).length ≤ 2^31 := by
      by_contra hlong
      obtain ⟨n,k,hne,rfl⟩ := dirbufAdds_snoc_cross hsemi (not_le.mp hlong) hL hL'
      have hsame : ([(n, k)] ++ L).Perm ([(x.name, x.inum)] ++ L) :=
        (List.perm_append_singleton ..).symm.trans hperm
      have hone := List.perm_singleton.mp ((List.perm_append_right_iff L).mp hsame)
      exact hne (congrArg Prod.fst (List.cons.inj hone).1)
    have hshort : (render es).length ≤ 2^31 := by
      rw [render_snoc, List.length_append] at hlen
      omega
    refine ⟨⟨?_,hsemi⟩,?_,hlen⟩
    · -- what is listed has no `:`
      exact colon_not_mem_of_dirbufAdds hlen hL' (hperm.mem_iff.mpr List.mem_cons_self)
    · rw [dirbufAdds_eq _ hshort (render_getLast es), fuseserverReaddir, Option.map_map] at hL
      obtain ⟨t,ht,-⟩ := Option.map_eq_some_iff.mp hL
      have hscan := scanFrom_render_iff es []
      rw [List.append_nil] at hscan
      exact hscan.mp (ht ▸ Option.some_ne_none t)
  · rintro ⟨hname,hes,hlen⟩
    obtain ⟨L,hL,hL'⟩ := dirbufAdds_snoc es x hname hes hlen
    rw [(cstr_eq_iff x.name).mpr hx] at hL'
    exact ⟨L,_,hL,hL',List.perm_append_singleton ..⟩

/-- An entry is listed, with the others as before, if and only if its own name has neither `:`
nor `;`, no name before it lets the scan read an inum from blanks, and the directory has no more
than 2^31 characters. -/
theorem name_listed_back (es : List Entry) (l : List (θ × Call × Result)) (c : Call) (x : Entry)
    {content'' : Inum → Option Str} (hdir : content parent = some (render es))
    (hl : SerialRun (Alone Call.body (Creating parent)) content l content')
    (hx : c.creates = some (parent, x)) (hname : FuseName x.name)
    (hc : c.body.alone [] content' = .ends (.status .ok) content'') :
    ListedBack parent x content' content'' ↔ NameOk x.name ∧
      (∀ y ∈ es ++ accepted l, blankInum y.name = false) ∧
      ∀ buffer ∈ content'' parent, buffer.length ≤ 2^31 := by
  have hcontent := creating_run hdir hl
  have hcontent' : content'' parent = some (render (es ++ accepted l ++ [x])) := by
    rcases creates_cases hx hcontent hc with ⟨hr,-⟩ | ⟨-,hput⟩
    · cases hr
    · rw [hput, render_snoc]
  rw [listedBack_iff hname.2.2 hcontent hcontent', hcontent']
  simp

end

/-- The extents after the first entry in an empty root directory. -/
def firstEntry (x : Entry) : Inum → Option Str :=
  Function.update (Function.update emptyRoot x.inum (some [])) 1 (some x.text)

theorem createEntry_emptyRoot (x : Entry) (hname : x.name ≠ []) (hx : x.inum ≠ 1) :
    (createEntry 1 x).alone [] emptyRoot = .ends (.status .ok) (firstEntry x) := by
  have hfind : find x.name [] = none := if_neg hname
  rw [createEntry_alone_eq 1 x rfl, hfind, if_neg (not_not.mpr rfl), if_neg hx]
  rfl

theorem firstEntry_root (x : Entry) : firstEntry x 1 = some x.text := Function.update_self ..

theorem name_listed_back_second : ∃ content,
    (createDir 1 ['c'] 7).alone [] (firstEntry ⟨0x80000005, "x:y".toList⟩) =
      .ends (.status .ok) content ∧
    ListedBack 1 ⟨7, ['c']⟩ (firstEntry ⟨0x80000005, "x:y".toList⟩) content := by
  have hfirst : SerialRun (Alone Call.body (Creating 1)) emptyRoot
      [((), .create 1 "x:y".toList 5, .status .ok)] (firstEntry ⟨0x80000005, "x:y".toList⟩) := by
    refine .snoc .nil ⟨⟨_,rfl,by decide⟩,?_⟩
    exact createEntry_emptyRoot ⟨0x80000005, "x:y".toList⟩ (by decide) (by decide)
  have hsecond : (createDir 1 ['c'] 7).alone [] (firstEntry ⟨0x80000005, "x:y".toList⟩) =
      .ends (.status .ok)
      (Function.update (Function.update (firstEntry ⟨0x80000005, "x:y".toList⟩) 7 (some [])) 1
        (some (Entry.text ⟨0x80000005, "x:y".toList⟩ ++ Entry.text ⟨7, ['c']⟩))) := by
    rw [createDir, createEntry_alone_eq 1 _ (firstEntry_root _)]
    rfl
  refine ⟨_,hsecond,(name_listed_back [] _ (.createDir 1 ['c'] 7) _ rfl hfirst rfl ?_
    hsecond).mpr ⟨by decide,by decide,?_⟩⟩
  · decide
  · rw [Function.update_self]
    rintro buffer ⟨⟩
    decide

/-- `a;5:b` is listed as two entries, one of them with an inum that nobody has drawn, `x:y` is
listed as `y`, and the second entry that is found in `a;:b` has no inum. -/
theorem name_listed_otherwise :
    (create 1 "a;5:b".toList 5).alone [] emptyRoot =
        .ends (.status .ok) (firstEntry ⟨0x80000005, "a;5:b".toList⟩) ∧
      reported (firstEntry ⟨0x80000005, "a;5:b".toList⟩) 1 =
        some [(['a'], 0x80000005), (['b'], 5)] ∧
    (create 1 "x:y".toList 5).alone [] emptyRoot =
        .ends (.status .ok) (firstEntry ⟨0x80000005, "x:y".toList⟩) ∧
      reported (firstEntry ⟨0x80000005, "x:y".toList⟩) 1 = some [(['y'], 0x80000005)] ∧
    (create 1 "a;:b".toList 5).alone [] emptyRoot =
        .ends (.status .ok) (firstEntry ⟨0x80000005, "a;:b".toList⟩) ∧
      reported (firstEntry ⟨0x80000005, "a;:b".toList⟩) 1 = none ∧
    reported emptyRoot 1 = some [] := by
  refine ⟨?_,?_,?_,?_,?_,?_,?_⟩
  · exact createEntry_emptyRoot ⟨0x80000005, "a;5:b".toList⟩ (by decide) (by decide)
  · rw [reported_eq (firstEntry_root _)]
    decide
  · exact createEntry_emptyRoot ⟨0x80000005, "x:y".toList⟩ (by decide) (by decide)
  · rw [reported_eq (firstEntry_root _)]
    decide
  · exact createEntry_emptyRoot ⟨0x80000005, "a;:b".toList⟩ (by decide) (by decide)
  · rw [reported_eq (firstEntry_root _)]
    decide
  · decide

end Yfs.Dir
