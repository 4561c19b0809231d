import PointsTo.Proofs.Emptied
import PointsTo.Proofs.Viewpoint

/-!
Foreseeing where a path leads once its missing parts are made. A path is foreseen by the
canonical path of what is there and the names that are missing behind it. Making the
directories adds these names one by one, each to what was just made.
-/

namespace PointsTo

open PointsTo.Path (Step)

namespace Tree

variable {s t : Tree} {fits : Location → Bool} {l r : Location} {steps : List Step}

/-- Where entries are only added, a walk that gets through goes as before, and so does the
one that keeps its way, which may get too long. -/
theorem walkSteps_eq_of_keeps (hkeeps : ∀ {k e}, s.find k = some e → t.find k = some e)
    {jump jump' jump'' : Location → List Step → Except Errno Location}
    (hjump : ∀ {l steps}, jump l steps = .ok r → jump'' l steps = jump' l steps)
    (h : s.walkSteps (fun _ => true) .ok jump l steps = .ok r) :
    t.walkSteps fits .ok jump'' l steps = s.walkSteps fits .ok jump' l steps := by
  have hdir : ∀ {k}, s.isDirectory k = true → t.isDirectory k = true := by
    intro k hk
    cases k with
    | nil => rfl
    | cons name above =>
        obtain ⟨mode, hfind⟩ := isDirectory_cons_iff.1 hk
        exact isDirectory_cons_iff.2 ⟨mode, hkeeps hfind⟩
  induction steps generalizing l with
  | nil => rfl
  | cons step steps ih =>
      cases step with
      | stay =>
          obtain ⟨hl, hr⟩ := walkSteps_stay_eq_ok.1 h
          rw [walkSteps, walkSteps, if_pos hl, if_pos (hdir hl)]
          exact ih hr
      | up =>
          obtain ⟨hl, hr⟩ := walkSteps_up_eq_ok.1 h
          rw [walkSteps, walkSteps, if_pos hl, if_pos (hdir hl)]
          exact ih hr
      | down name =>
          obtain ⟨_, e, hc, hr⟩ := walkSteps_down_eq_ok.1 h
          obtain ⟨hl, hshort, hfind⟩ := child?_eq_ok_iff.1 hc
          have hc' : t.child? l name = .ok (some e) :=
            child?_eq_ok_iff.2 ⟨hdir hl, hshort, hkeeps hfind⟩
          rw [walkSteps, walkSteps, hc, hc']
          split
          · rfl
          · rcases hr with ⟨target, rfl, hr⟩ | ⟨hne, hr⟩
            · exact hjump hr
            · cases e with
              | link target => exact absurd rfl (hne target)
              | file data mode | directory mode => exact ih hr

theorem walkWithin_eq_of_keeps (hkeeps : ∀ {k e}, s.find k = some e → t.find k = some e)
    {links : Nat} (h : s.walkWithin (fun _ => true) links l steps = .ok r) :
    t.walkWithin fits links l steps = s.walkWithin fits links l steps := by
  induction links generalizing l steps with
  | zero => exact walkSteps_eq_of_keeps hkeeps (fun hj => by cases hj) h
  | succ links ih => exact walkSteps_eq_of_keeps hkeeps ih h

/-- A way that gets too long does so before it only stays where it is. -/
theorem walkWithin_error_of_stay {links k : Nat}
    (h : t.walkWithin (fun _ => true) links l steps = .ok r) (hdir : t.isDirectory r = true)
    (hlong : t.walkWithin fits links l (steps ++ List.replicate k .stay) = .error .nameTooLong) :
    t.walkWithin fits links l steps = .error .nameTooLong := by
  refine (walkWithin_fits h).resolve_left fun hok => ?_
  cases hlong.symm.trans (walkWithin_append_eq hok fun links => Disk.walkWithin_stay hdir links k)

end Tree

namespace Path

variable {p q : Path} {name : String}

theorem isName_of_fileName (h : p.fileName? = some name) : IsName name := by
  obtain ⟨hidle, hup, before, hbody⟩ := not_isIdle_of_fileName h
  have hmem : name ∈ p.parts.2.reverse.dropWhile isIdle := by
    rw [hbody]
    exact List.mem_cons_self
  have hbody := List.mem_reverse.1 ((List.dropWhile_sublist _).subset hmem)
  have hnamed : name ≠ "" ∧ name ≠ "." := by simpa [isIdle] using hidle
  exact ⟨hnamed.1, hnamed.2, hup, not_mem_of_mem_parts (List.prefix_refl _) name hbody⟩

theorem text_eq_joinSegments (p : Path) : p.text = joinSegments p.segments := by
  rw [← String.toList_inj]
  simp [joinSegments, segments, Function.comp_def, List.intercalate_splitOn]

theorem eq_of_segments (h : p.segments = q.segments) : p = q := by
  have htext : p.text = q.text := by rw [text_eq_joinSegments p, h, ← text_eq_joinSegments q]
  exact congrArg Path.mk htext

theorem exists_joinSegments_append (front more : List String) :
    ∃ after, joinSegments (front ++ more) = joinSegments front ++ after := by
  cases more with
  | nil => exact ⟨"", by simp⟩
  | cons next more =>
      induction front with
      | nil => exact ⟨joinSegments (next :: more), by simp [joinSegments]⟩
      | cons first front ih =>
          rw [List.cons_append, joinSegments_cons first (by simp)]
          cases front with
          | nil =>
              refine ⟨"/" ++ joinSegments (next :: more), ?_⟩
              simp [joinSegments, String.append_assoc]
          | cons second front =>
              obtain ⟨after, hafter⟩ := ih
              refine ⟨after, ?_⟩
              rw [hafter, joinSegments_cons first (by simp), ← String.append_assoc]

/-- The text of a path opens with those of the paths above it. -/
theorem exists_text_ofParts {body : List String} (h : body <+: p.parts.2) :
    ∃ after, p.text = (ofParts p.parts.1 body).text ++ after := by
  obtain ⟨more, hmore⟩ := h
  have htext : p.text = joinSegments (p.parts.1.segments ++ (body ++ more)) := by
    rw [hmore, ← segments_eq_parts, ← text_eq_joinSegments]
  obtain ⟨after, hafter⟩ := exists_joinSegments_append body more
  cases hlead : p.parts.1 with
  | plain =>
      rw [hlead] at htext
      exact ⟨after, htext.trans hafter⟩
  | root =>
      have hbody : body ++ more ≠ [] := by
        intro hnil
        rw [hmore] at hnil
        unfold parts at hlead hnil
        split at hlead <;> simp_all
      refine ⟨after, ?_⟩
      rw [htext, hlead, Lead.segments, List.singleton_append, joinSegments_cons "" hbody, hafter,
        ← String.append_assoc]
      rfl
  | dot =>
      rw [htext, hlead, Lead.segments, ← List.append_assoc]
      cases body with
      | nil => exact exists_joinSegments_append ["."] more
      | cons first body =>
          obtain ⟨after, hafter⟩ := exists_joinSegments_append (["."] ++ first :: body) more
          refine ⟨after, hafter.trans ?_⟩
          rw [List.singleton_append, joinSegments_cons "." (by simp)]
          rfl

theorem isAbsolute_eq_of_initial {front more : List String} (hp : p.segments = front ++ name :: more)
    (hq : q.segments = front ++ [name]) (hname : name ≠ "") : q.isAbsolute = p.isAbsolute := by
  rw [Bool.eq_iff_iff, isAbsolute_iff, isAbsolute_iff, hp, hq]
  cases front with
  | nil => simp [hname]
  | cons first rest => cases rest <;> simp

theorem exists_text_of_mem_ancestors (h : q ∈ p.ancestors) : ∃ after, p.text = q.text ++ after := by
  rcases mem_ancestorsFrom h with rfl | ⟨body, hbody, rfl⟩
  · exact ⟨p.text, by simp⟩
  · rw [List.reverse_reverse] at hbody
    exact exists_text_ofParts hbody

/-- The path that stands for the one above is the current directory if that is empty. -/
theorem steps_or_here (p : Path) :
    let q : Path := if p.text = "" then ⟨"."⟩ else p
    q.steps = p.steps ∧ q.isAbsolute = p.isAbsolute := by
  dsimp only
  split
  · next hempty =>
    obtain rfl : p = ⟨""⟩ := congrArg Path.mk hempty
    decide
  · exact ⟨rfl, rfl⟩

/-- Only one name comes last. -/
theorem eq_of_last_down {before before' : List Step} {name' : String} {i j : Nat}
    (h : before ++ Step.down name :: List.replicate i Step.stay =
      before' ++ Step.down name' :: List.replicate j Step.stay) : before = before' ∧ name = name' := by
  have hlast : ∀ (front : List Step) (n : String) (k : Nat),
      (front ++ Step.down n :: List.replicate k Step.stay).reverse.dropWhile (· = Step.stay) =
        Step.down n :: front.reverse := by
    intro front n k
    rw [List.reverse_append, List.reverse_cons, List.reverse_replicate, List.append_assoc,
      List.dropWhile_append_of_pos (by simp)]
    simp
  have hboth := congrArg (fun steps => steps.reverse.dropWhile (· = Step.stay)) h
  simp only [hlast] at hboth
  obtain ⟨hname, hfront⟩ := List.cons.inj hboth
  cases hname
  exact ⟨List.reverse_inj.1 hfront, rfl⟩

end Path

namespace Location

variable {l : Location}

theorem toPath_div {name : String} (h : ∀ n ∈ l, IsName n) (hn : IsName name) :
    l.toPath / name = Location.toPath (name :: l) := by
  refine Path.eq_of_segments ?_
  rw [Path.segments_div _ hn, openSegments_toPath h, segments_toPath (List.forall_mem_cons.2 ⟨hn, h⟩),
    if_neg (List.cons_ne_nil name l), List.reverse_cons, List.cons_append]

theorem mem_segments_toPath (h : ∀ n ∈ l, IsName n) {s : String} (hs : s ∈ l.toPath.segments) :
    s = "" ∨ IsName s := by
  rw [segments_toPath h] at hs
  split at hs
  · exact Or.inl (by simpa using hs)
  · exact (List.mem_cons.1 hs).imp_right fun hmem => h s (List.mem_reverse.1 hmem)

/-- Names behind the path of a location lead down from there. -/
theorem foldl_div_toPath {missing : List String} (h : ∀ n ∈ l, IsName n)
    (hmissing : ∀ n ∈ missing, IsName n) :
    missing.foldl (· / ·) l.toPath = Location.toPath (missing.reverse ++ l) := by
  induction missing generalizing l with
  | nil => rfl
  | cons name missing ih =>
      obtain ⟨hn, hmissing⟩ := List.forall_mem_cons.1 hmissing
      rw [List.foldl_cons, toPath_div h hn, ih (List.forall_mem_cons.2 ⟨hn, h⟩) hmissing,
        List.reverse_cons, List.append_assoc, List.singleton_append]

end Location

namespace Disk

variable {d d' : Disk} {p q parent : Path} {name : String} {missing : List String}
  {above : List Path} {l r : Location} {made : Location → Prop}

theorem walk_of_reaches (hs : d.sunk p = 0) {steps : List Step} (h : d.Reaches p steps r) :
    d.tree.walk (d.origin p) steps = .ok r := by
  obtain ⟨_, rest, hrest, hw⟩ := h
  rw [hs, surface_zero] at hrest
  cases hrest
  exact hw

theorem reaches_of_walk (hc : checkText p = .ok ()) (hs : d.sunk p = 0) {steps : List Step}
    (h : d.tree.walk (d.origin p) steps = .ok r) : d.Reaches p steps r :=
  ⟨hc, steps, by rw [hs, surface_zero], h⟩

theorem isPresent_of_reaches (h : d.Reaches p p.steps r) : d.isPresent p = true := by
  have hentry : ∃ e, d.entryAt (some r) = .ok e := by
    unfold entryAt
    cases r with
    | nil => exact ⟨_, rfl⟩
    | cons name dir =>
        rcases h.stands with hdir | ⟨data, mode, hfile⟩
        · obtain ⟨mode, hfind⟩ := Tree.isDirectory_cons_iff.1 hdir
          exact ⟨.directory mode, by simp [Tree.entry?, hfind]⟩
        · exact ⟨.file data mode, by simp [Tree.entry?, hfile]⟩
  obtain ⟨e, he⟩ := hentry
  rw [isPresent, entry, place_eq_some_iff.2 h]
  change (d.entryAt (some r)).toBool = true
  rw [he]
  rfl

/-- The system takes the path that stands for one above. -/
theorem checkText_or_here (h : parent ∈ p.ancestors) (hc : checkText p = .ok ()) :
    checkText (if parent.text = "" then ⟨"."⟩ else parent) = .ok () := by
  split
  · decide
  · next htext =>
    obtain ⟨after, hafter⟩ := Path.exists_text_of_mem_ancestors h
    refine checkText_part "" after htext ?_
    rw [String.empty_append, ← hafter]
    exact hc

/-- The first path is the one above the second, which ends in the name; where that is empty, it
is the current directory. -/
structure Heads (parent p : Path) (name : String) : Prop where
  isName : IsName name
  isAbsolute : parent.isAbsolute = p.isAbsolute
  takes : checkText p = .ok () → checkText parent = .ok ()
  moves : ∃ front i j k, parent.steps = front ++ List.replicate i .stay ∧
    p.steps = front ++ List.replicate j .stay ++ .down name :: List.replicate k .stay

theorem Heads.sunk (h : Heads parent p name) (hs : d.sunk p = 0) : d.sunk parent = 0 := by
  rwa [Disk.sunk, h.isAbsolute]

theorem Heads.origin (h : Heads parent p name) (d : Disk) : d.origin parent = d.origin p := by
  rw [Disk.origin, Disk.origin, h.isAbsolute]

theorem heads_of_fileName (hname : p.fileName? = some name) (habove : p.ancestors = parent :: above) :
    above = parent.ancestors ∧ Heads (if parent.text = "" then ⟨"."⟩ else parent) p name := by
  obtain ⟨_, hfirst, habs, front, i, j, k, hparent, hp⟩ := Path.ancestors_of_fileName hname
  cases habove.symm.trans hfirst
  obtain ⟨hsteps, habs'⟩ := Path.steps_or_here parent
  have hmem : parent ∈ p.ancestors := by
    rw [hfirst]
    exact List.mem_cons_self
  exact ⟨rfl, Path.isName_of_fileName hname, habs'.trans habs, checkText_or_here hmem,
    front, i, j, k, hsteps.trans hparent, hp⟩

section Seen

/-- A path is foreseen from one that is there, upwards over names that are missing. -/
theorem canonicalAbove_induction {motive : Path → List String → List Path → Prop}
    (there : ∀ {p missing above l}, d.Reaches p p.steps l →
      q = missing.foldl (· / ·) l.toPath → motive p missing above)
    (up : ∀ {p missing name parent above e}, d.canonical p = .error e → p.fileName? = some name →
      d.canonicalAbove (name :: missing) (if parent.text = "" then ⟨"."⟩ else parent) above = .ok q →
      motive (if parent.text = "" then ⟨"."⟩ else parent) (name :: missing) above →
      motive p missing (parent :: above))
    (h : d.canonicalAbove missing p above = .ok q) : motive p missing above := by
  have hthere : ∀ {p q' missing above}, d.canonical p = .ok q' → q = missing.foldl (· / ·) q' →
      motive p missing above := by
    intro p q' missing above hcanon hq
    obtain ⟨l, hreach, rfl⟩ := exists_reaches_of_canonical hcanon
    exact there hreach hq
  induction above generalizing p missing with
  | nil =>
      unfold canonicalAbove at h
      split at h
      · next hcanon => exact hthere hcanon (Except.ok.inj h).symm
      · simp at h
  | cons parent above ih =>
      unfold canonicalAbove at h
      split at h
      · next hcanon => exact hthere hcanon (Except.ok.inj h).symm
      · next hcanon =>
        split at h
        · next hname heq =>
          cases heq
          exact up hcanon hname h (ih h)
        · cases h

/-- What is foreseen goes from the root down by names. -/
theorem exists_location_of_canonicalAbove (hmissing : ∀ n ∈ missing, IsName n)
    (h : d.canonicalAbove missing p above = .ok q) :
    ∃ l : Location, (∀ n ∈ l, IsName n) ∧ q = l.toPath := by
  refine canonicalAbove_induction
    (motive := fun _ missing _ => (∀ n ∈ missing, IsName n) → ∃ l : Location, (∀ n ∈ l, IsName n) ∧
      q = l.toPath) ?_ ?_ h hmissing
  · intro p missing above l hreach hq hmissing
    have hl := Tree.isName_of_mem hreach.stands
    refine ⟨missing.reverse ++ l, ?_, hq.trans (Location.foldl_div_toPath hl hmissing)⟩
    intro n hn
    rcases List.mem_append.1 hn with hn | hn
    · exact hmissing n (List.mem_reverse.1 hn)
    · exact hl n hn
  · intro p missing name parent above e _ hname _ ih hmissing
    exact ih (List.forall_mem_cons.2 ⟨Path.isName_of_fileName hname, hmissing⟩)

end Seen

section Foretold

/-- Where a path leads, with names behind it; or the way there is too long to be named. -/
def Foretold (d : Disk) (p : Path) (missing : List String) (q : Path) : Prop :=
  (∃ l, d.Reaches p p.steps l ∧ q = missing.foldl (· / ·) l.toPath) ∨
    d.canonical p = .error (.system .nameTooLong)

theorem foretold_of_reaches (hs : d.sunk p = 0) (hreach : d.Reaches p p.steps l)
    (h : d.canonicalAbove missing p above = .ok q) : d.Foretold p missing q := by
  refine (canonical_of_reaches hs hreach).imp_left fun hcanon => ⟨l, hreach, ?_⟩
  unfold canonicalAbove at h
  rw [hcanon] at h
  exact (Except.ok.inj h).symm

/-- A directory is made in the one that the path above leads to. -/
theorem makeDirectory_reaches (hheads : Heads parent p name) (hs : d.sunk p = 0)
    (hmade : d.makeDirectory p = .ok d') :
    ∃ dir, d.Reaches parent parent.steps dir ∧ d.tree.isDirectory dir = true ∧
      d'.Reaches p p.steps (name :: dir) := by
  have hgrows := makeDirectory_grows hmade
  obtain ⟨front, i, j, k, hparent, hp⟩ := hheads.moves
  obtain ⟨name', dir, slash, hlast, hchild, _, rfl⟩ := create_cases hmade
  obtain ⟨hend, hbefore, hdir⟩ := resolveLast_eq_name_iff.1 hlast
  obtain ⟨hn, _, hsteps, _⟩ := Path.steps_of_ending (Prod.ext rfl hend)
  obtain ⟨hfront, rfl⟩ := Path.eq_of_last_down (hsteps.symm.trans hp)
  have hreach : d.Reaches p (front ++ List.replicate j .stay) dir := by rwa [← hfront]
  obtain ⟨stop, hstop, hstay⟩ := Tree.walkWithin_append (walk_of_reaches hs hreach)
  obtain rfl : dir = stop := eq_of_walkSteps_stay hstay
  have hnone := (Tree.child?_eq_ok_iff.1 hchild).2.2
  have hnew := (find_put_new (e := .directory newDirectoryMode) hn hdir hnone (name' :: dir)).trans
    (if_pos rfl)
  refine ⟨dir, reaches_of_walk (hheads.takes hreach.1) (hheads.sunk hs) ?_, hdir,
    (hgrows.fresh hnone hnew).2⟩
  rw [hheads.origin, hparent]
  exact Tree.walkWithin_append_eq hstop fun links => walkWithin_stay hdir links i

/-- The way to a path starts with that to the path above, and is not shorter. -/
theorem canonical_of_heads (hheads : Heads parent p name) (hs : d.sunk p = 0) (hgrows : d.Grows d' made)
    (hreach : d.Reaches parent parent.steps l) (hdir : d.tree.isDirectory l = true)
    (hc : checkText p = .ok ()) (hlong : d.canonical parent = .error (.system .nameTooLong)) :
    d'.canonical p = .error (.system .nameTooLong) := by
  obtain ⟨front, i, j, k, hparent, hp⟩ := hheads.moves
  have hwalk := walk_of_reaches (hheads.sunk hs) hreach
  rw [canonical_eq hreach.1 (hheads.sunk hs)] at hlong
  rw [hparent, hheads.origin] at hwalk hlong
  obtain ⟨stop, hstop, hstay⟩ := Tree.walkWithin_append hwalk
  obtain rfl : l = stop := eq_of_walkSteps_stay hstay
  have hparentLong : d.tree.walkWithPath (d.origin p) (front ++ List.replicate i .stay) =
      .error .nameTooLong := by
    cases hw : d.tree.walkWithPath (d.origin p) (front ++ List.replicate i .stay) with
    | ok r => simp [hw, lift_ok, Except.map] at hlong
    | error e => simpa [hw, lift_error, Except.map] using hlong
  have hfront := (Tree.walkWithin_eq_of_keeps hgrows.keeps hstop).trans
    (Tree.walkWithin_error_of_stay hstop hdir hparentLong)
  have hs' : d'.sunk p = 0 := by rwa [sunk, hgrows.lost]
  have horigin : d'.origin p = d.origin p := by rw [origin, origin, hgrows.cwd]
  rw [canonical_eq hc hs', horigin, hp, List.append_assoc, Tree.walkWithPath,
    Tree.walkWithin_append_error hfront]
  rfl

/-- What the path above foretells, the path foretells once its own directory is made. -/
theorem Foretold.of_makeDirectory (hseen : d.Foretold parent (name :: missing) q)
    (hheads : Heads parent p name) (hs : d.sunk p = 0) (hmade : d.makeDirectory p = .ok d') :
    d'.Foretold p missing q := by
  obtain ⟨dir, hreach, hdir, hnew⟩ := makeDirectory_reaches hheads hs hmade
  rcases hseen with ⟨l, hl, rfl⟩ | hlong
  · cases hreach.unique hl
    refine Or.inl ⟨name :: dir, hnew, ?_⟩
    rw [List.foldl_cons, Location.toPath_div (Tree.isName_of_mem hl.stands) hheads.isName]
  · exact Or.inr (canonical_of_heads hheads hs (makeDirectory_grows hmade) hreach hdir hnew.1 hlong)

/-- By making directories a path comes to lead where it was foreseen. -/
theorem foretold_of_makeChain (h : d.canonicalAbove missing p above = .ok q)
    (habove : p.ancestors = above) (hs : d.sunk p = 0) (htext : p.text ≠ "")
    (hmade : d.makeChain (p :: above) = (.ok (), d')) : d'.Foretold p missing q := by
  refine canonicalAbove_induction
    (motive := fun p missing above => ∀ d', p.ancestors = above → d.sunk p = 0 → p.text ≠ "" →
      d.makeChain (p :: above) = (.ok (), d') → d'.Foretold p missing q)
    ?_ ?_ h d' habove hs htext hmade
  · intro p missing above l hreach hq d' _ _ _ hmade
    have hgrows := d.makeChain_grows (p :: above)
    rw [hmade] at hgrows
    exact Or.inl ⟨l, hreach.of_leadsTo (hgrows.leadsTo l), hq⟩
  · intro p missing name parent above e hcanon hname hrest ih d' habove hs htext hmade
    obtain ⟨rfl, hheads⟩ := heads_of_fileName hname habove
    rcases makeChain_cons_ok hmade with ⟨hempty, _⟩ | hnow | ⟨_, made, hfail, hchain, hlast⟩
    · exact absurd hempty htext
    · rcases ensureDirectory_cases hnow with hm | ⟨rfl, hdir⟩
      · obtain ⟨dir, hreach, _⟩ := makeDirectory_reaches hheads hs hm
        exact (foretold_of_reaches (hheads.sunk hs) hreach hrest).of_makeDirectory hheads hs hm
      · -- what is there without a canonical path has one that is too long
        obtain ⟨r, hreach, _⟩ := (places_of_sunk hs).reaches hdir
        refine Or.inr ((canonical_of_reaches hs hreach).resolve_left fun hok => ?_)
        cases hcanon.symm.trans hok
    · by_cases hempty : parent.text = ""
      · rw [makeChain, if_pos hempty] at hchain
        cases hchain
        cases hfail.symm.trans hlast
      · rw [if_neg hempty] at ih hrest hheads
        have hgrows := d.makeChain_grows (parent :: parent.ancestors)
        rw [hchain] at hgrows
        have hs' : made.sunk p = 0 := by rwa [sunk, hgrows.lost]
        rcases ensureDirectory_cases hlast with hm | ⟨rfl, hdir⟩
        · exact (ih made rfl (hheads.sunk hs) hempty hchain).of_makeDirectory hheads hs' hm
        · -- behind a parent that was just made nothing is there yet
          obtain ⟨_, _, _, _, hparent, hp⟩ := hheads.moves
          rcases makeChain_bare rfl hrest (hheads.sunk hs) hchain with rfl | hbare
          · simp [not_isDirectory_of_ensureDirectory hfail] at hdir
          · simp [hbare.not_isDirectory hheads.isAbsolute hs' hparent hp] at hdir

end Foretold

section Upwards

/-- What a path leads through is there. -/
theorem isPresent_of_initial (hs : d.sunk p = 0) (hreach : d.Reaches p p.steps r)
    {front more : List String} (hp : p.segments = front ++ name :: more)
    (hname : Path.isIdle name = false) :
    d.isPresent ⟨Path.joinSegments (front ++ [name])⟩ = true := by
  have hne : name ≠ "" := by
    rintro rfl
    cases hname
  have hsplit : p.segments = (front ++ [name]) ++ more := by simp [hp]
  have hsegments : (⟨Path.joinSegments (front ++ [name])⟩ : Path).segments = front ++ [name] := by
    refine Path.segments_joinSegments (fun s hs => ?_) (by simp)
    exact Path.not_mem_of_mem_segments (p := p) (hsplit ▸ List.mem_append_left more hs)
  have habs := Path.isAbsolute_eq_of_initial hp hsegments hne
  have hc : checkText ⟨Path.joinSegments (front ++ [name])⟩ = .ok () := by
    obtain ⟨after, hafter⟩ := Path.exists_joinSegments_append (front ++ [name]) more
    rw [← hsplit, ← Path.text_eq_joinSegments] at hafter
    refine checkText_part "" after (fun hempty => ?_) ?_
    · rw [hempty] at hsegments
      have hlast : (front ++ [name]).getLast? = some "" := by rw [← hsegments]; rfl
      exact hne (by simpa using hlast)
    · rw [String.empty_append, ← hafter]
      exact hreach.1
  have hwalk := walk_of_reaches hs hreach
  rw [Path.steps, hsplit, List.map_append] at hwalk
  obtain ⟨mid, hmid, _⟩ := Tree.walkWithin_append hwalk
  have hsunk : d.sunk ⟨Path.joinSegments (front ++ [name])⟩ = 0 := by rwa [sunk, habs]
  refine isPresent_of_reaches (reaches_of_walk (r := mid) hc hsunk ?_)
  rw [origin, habs, Path.steps, hsegments]
  exact hmid

/-- A path is foreseen only from what lies behind its moves upwards. -/
theorem isPresent_of_canonicalAbove {front mid back : List String}
    (h : d.canonicalAbove missing p above = .ok q) (habove : p.ancestors = above)
    (hs : d.sunk p = 0) (hp : p.segments = front ++ name :: (mid ++ ".." :: back))
    (hname : Path.isIdle name = false) :
    d.isPresent ⟨Path.joinSegments (front ++ [name])⟩ = true := by
  refine canonicalAbove_induction
    (motive := fun p _ above => ∀ back, p.ancestors = above → d.sunk p = 0 →
      p.segments = front ++ name :: (mid ++ ".." :: back) →
      d.isPresent ⟨Path.joinSegments (front ++ [name])⟩ = true)
    ?_ ?_ h back habove hs hp
  · intro p missing above l hreach _ back _ hs hp
    exact isPresent_of_initial hs hreach hp hname
  · intro p missing last parent above e _ hlast _ ih back habove hs hp
    obtain ⟨_, hfirst, habs, body, before, after, i, hparent, hbody⟩ :=
      Path.exists_parent_of_fileName hlast
    cases habove.symm.trans hfirst
    have hidle : ∀ xs : List String, ".." ∉ (xs.takeWhile Path.isIdle).reverse := by
      intro xs hmem
      cases List.all_eq_true.1 List.all_takeWhile _ (List.mem_reverse.1 hmem)
    -- the name that is taken off stands behind the moves upwards
    have hup := (Path.not_isIdle_of_fileName hlast).2.1
    have hsegments : body ++ ((before.takeWhile Path.isIdle).reverse ++
        last :: (after.takeWhile Path.isIdle).reverse) = (front ++ name :: mid) ++ ".." :: back := by
      rw [← List.append_assoc, ← hbody, hp, List.append_assoc, List.cons_append]
    obtain ⟨rest, rfl⟩ := exists_eq_of_append_eq hsegments (by
      simp only [List.mem_append, List.mem_cons, not_or]
      exact ⟨hidle before, hup.symm, hidle after⟩)
    have htext : parent.text ≠ "" := by
      intro hempty
      obtain rfl : parent = ⟨""⟩ := congrArg Path.mk hempty
      have hmem : ".." ∈ Path.segments ⟨""⟩ := by rw [hparent]; simp
      exact absurd hmem (by decide)
    rw [if_neg htext] at ih
    exact ih (rest ++ List.replicate i "") rfl (by rwa [sunk, habs]) (by simp [hparent])

end Upwards

/-- A path that is foreseen has names only, from the root on. It is the canonical path of what
is there, and of the directory that can be made where nothing is, unless the system finds
that path too long. Behind a name where nothing is, no path that leads upwards is foreseen. -/
theorem foresee_foretells_canonical (d : Disk) (p : Path) :
    (∀ q, d.foresee p = .ok q →
      q.isAbsolute = true ∧ (∀ s ∈ q.segments, s ≠ "." ∧ s ≠ "..") ∧
      (d.isPresent p = true →
        d.canonical p = .ok q ∨ d.canonical p = .error (.system .nameTooLong)) ∧
      ∀ d', d.makeDirectories p = (.ok (), d') →
        d'.canonical p = .ok q ∨ d'.canonical p = .error (.system .nameTooLong)) ∧
    ∀ front name mid back, p.segments = front ++ name :: (mid ++ ".." :: back) →
      Path.isIdle name = false → d.isPresent ⟨Path.joinSegments (front ++ [name])⟩ = false →
      ∃ e, d.foresee p = .error (.disk p e) := by
  refine ⟨fun q hseen => ?_, fun front name mid back hp hname habsent => ?_⟩
  · have hs := sunk_of_foresee hseen
    have habove := mapError_eq_ok_iff.1 hseen
    obtain ⟨l, hl, rfl⟩ := exists_location_of_canonicalAbove (by simp) habove
    refine ⟨Location.isAbsolute_toPath l, fun s hmem => ?_, fun hpresent => ?_, fun d' hmade => ?_⟩
    · rcases Location.mem_segments_toPath hl hmem with rfl | ⟨_, hdot, hup, _⟩
      · decide
      · exact ⟨hdot, hup⟩
    · obtain ⟨r, hreach⟩ := exists_reaches_of_isPresent hs hpresent
      refine (canonical_of_reaches hs hreach).imp_left fun hcanon => ?_
      rw [hcanon]
      exact congrArg Except.ok (Except.ok.inj ((foresee_of_canonical hcanon).symm.trans hseen))
    · rcases foretold_of_makeChain habove rfl hs (text_ne_of_foresee hseen) hmade with
        ⟨r, hreach, hq⟩ | hlong
      · have hgrows := d.makeChain_grows (p :: p.ancestors)
        rw [← makeDirectories, hmade] at hgrows
        have hs' : d'.sunk p = 0 := by rwa [sunk, hgrows.lost]
        rw [hq]
        exact canonical_of_reaches hs' hreach
      · exact Or.inr hlong
  · cases hseen : d.canonicalAbove [] p p.ancestors with
    | error e => exact ⟨e, by rw [foresee, hseen]; rfl⟩
    | ok q =>
        have hok : d.foresee p = .ok q := mapError_eq_ok_iff.2 hseen
        have hpresent := isPresent_of_canonicalAbove hseen rfl (sunk_of_foresee hok) hp hname
        cases hpresent.symm.trans habsent

def linkedStore : Disk :=
  .holding
    [(["run"], .directory 0o755), (["store"], .directory 0o755),
      (["kept", "run"], .link ⟨"../store"⟩)]

theorem foresee_foretells_below_link :
    let p : Path := ⟨"/run/kept/./new//deep/"⟩
    let back : Path := ⟨"/run/kept/new/x/../old"⟩
    let made := (linkedStore.makeDirectories p).2
    (linkedStore.foresee p = .ok ⟨"/store/new/deep"⟩ ∧
      linkedStore.makeDirectories p = (.ok (), made) ∧ made.canonical p = .ok ⟨"/store/new/deep"⟩) ∧
    linkedStore.isPresent ⟨Path.joinSegments ["", "run", "kept", "new"]⟩ = false ∧
      ∃ e, linkedStore.foresee back = .error (.disk back e) := by
  intro p back made
  have hfacts : linkedStore.foresee p = .ok ⟨"/store/new/deep"⟩ ∧
      (linkedStore.makeDirectories p).1 = .ok () ∧
      made.canonical p ≠ .error (.system .nameTooLong) ∧
      linkedStore.isPresent ⟨Path.joinSegments ["", "run", "kept", "new"]⟩ = false ∧
      back.segments = ["", "run", "kept"] ++ "new" :: (["x"] ++ ".." :: ["old"]) := by
    decide +kernel
  obtain ⟨hseen, hok, hshort, habsent, hback⟩ := hfacts
  have hmade : linkedStore.makeDirectories p = (.ok (), made) := Prod.ext hok rfl
  have hcanon := ((foresee_foretells_canonical linkedStore p).1 _ hseen).2.2.2 made hmade
  have hup := (foresee_foretells_canonical linkedStore back).2 _ _ _ _ hback (by decide) habsent
  exact ⟨⟨hseen, hmade, hcanon.resolve_right hshort⟩, habsent, hup⟩

end Disk
end PointsTo
