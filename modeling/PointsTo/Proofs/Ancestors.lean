import PointsTo.Proofs.Path

/-!
The paths above a path. Each of them leads along it: its segments open those of the
path, but for empty ones at its end. The parent of a name in a directory leads to that
directory.
-/

namespace PointsTo
namespace Path

def Lead.segments : Lead → List String
  | .root => [""]
  | .dot => ["."]
  | .plain => []

theorem segments_eq_parts (p : Path) : p.segments = p.parts.1.segments ++ p.parts.2 := by
  unfold parts
  split <;> simp_all [Lead.segments]

theorem joinSegments_cons (first : String) {body : List String} (h : body ≠ []) :
    joinSegments (first :: body) = first ++ "/" ++ joinSegments body := by
  cases body with
  | nil => exact absurd rfl h
  | cons second rest => simp [joinSegments]

theorem segments_ofParts (lead : Lead) (body : List String) (h : ∀ s ∈ body, '/' ∉ s.toList) :
    ∃ k, (ofParts lead body).segments = lead.segments ++ body ++ List.replicate k "" := by
  by_cases hbody : body = []
  · subst hbody
    cases lead with
    | root => exact ⟨1, rfl⟩
    | dot => exact ⟨0, rfl⟩
    | plain => exact ⟨1, rfl⟩
  · have hlead : ∀ first : String, '/' ∉ first.toList →
        segments ⟨first ++ "/" ++ joinSegments body⟩ = first :: body := fun first hfirst => by
      rw [← joinSegments_cons first hbody]
      exact segments_joinSegments (by simpa [hfirst] using h) nofun
    refine ⟨0, ?_⟩
    rw [List.replicate_zero, List.append_nil]
    cases lead with
    | root => exact hlead "" nofun
    | dot =>
        cases body with
        | nil => exact absurd rfl hbody
        | cons s body => exact hlead "." (by decide)
    | plain => exact segments_joinSegments h hbody

theorem isAbsolute_of_initial {p : Path} {body : List String} (h : body <+: p.parts.2) :
    (ofParts p.parts.1 body).isAbsolute = p.isAbsolute := by
  cases hp : p.isAbsolute with
  | false => exact isAbsolute_ofParts hp h
  | true =>
      obtain ⟨next, rest, hs⟩ := isAbsolute_iff.1 hp
      have hlead : p.parts.1 = .root := by simp [parts, hs]
      simp [hlead, ofParts, isAbsolute]

theorem ending_prefix (p : Path) : p.ending.1 <+: p.steps := by
  obtain ⟨k, hk, _⟩ := exists_replicate_dropWhile p.segments.reverse
  have hfront : ∀ {last : String} {before : List String},
      p.segments.reverse.dropWhile (· = "") = last :: before →
      before.reverse.map Step.ofSegment <+: p.steps := fun {last before} hlast => by
    refine List.IsPrefix.map Step.ofSegment ⟨last :: List.replicate k "", ?_⟩
    rw [hlast] at hk
    rw [← List.reverse_reverse p.segments, hk]
    simp
  unfold ending
  dsimp only
  split
  · exact List.nil_prefix
  all_goals
    next hlast => exact hfront hlast

/-- The moves of `q` go along `p`, but for stays at their end. -/
def Along (q p : Path) : Prop :=
  q.isAbsolute = p.isAbsolute ∧
    ∃ front k, q.steps = front ++ List.replicate k .stay ∧ front <+: p.steps

theorem along_of_initial {p q : Path} {front : List String} {k : Nat}
    (habs : q.isAbsolute = p.isAbsolute) (hq : q.segments = front ++ List.replicate k "")
    (hp : front <+: p.segments) : q.Along p := by
  refine ⟨habs, front.map Step.ofSegment, k, ?_, List.IsPrefix.map Step.ofSegment hp⟩
  rw [steps, hq, List.map_append, List.map_replicate]
  rfl

theorem ancestorsFrom_dropWhile (lead : Lead) (reversed : List String) :
    ancestorsFrom lead (reversed.dropWhile isIdle) = ancestorsFrom lead reversed := by
  induction reversed with
  | nil => rfl
  | cons segment before ih =>
      by_cases h : isIdle segment = true
      · rw [List.dropWhile_cons_of_pos h, ih, ancestorsFrom, if_pos h]
      · rw [List.dropWhile_cons_of_neg h]

theorem not_mem_of_mem_parts {p : Path} {body : List String} (h : body <+: p.parts.2) :
    ∀ s ∈ body, '/' ∉ s.toList := fun s hs => by
  refine not_mem_of_mem_segments (p := p) ?_
  rw [segments_eq_parts]
  exact List.mem_append_right _ (h.subset hs)

/-- Of two bodies of a path the shorter one leads along the longer one. -/
theorem along_ofParts {p : Path} {body body' : List String} (h : body' <+: body)
    (hbody : body <+: p.parts.2) :
    (ofParts p.parts.1 body').Along (ofParts p.parts.1 body) := by
  obtain ⟨k, hk⟩ := segments_ofParts p.parts.1 body' (not_mem_of_mem_parts (h.trans hbody))
  obtain ⟨j, hj⟩ := segments_ofParts p.parts.1 body (not_mem_of_mem_parts hbody)
  refine along_of_initial ?_ hk ?_
  · rw [isAbsolute_of_initial (h.trans hbody), isAbsolute_of_initial hbody]
  · rw [hj]
    exact ((List.prefix_append_right_inj _).2 h).trans (List.prefix_append _ _)

theorem pairwise_ancestorsFrom {p : Path} {reversed : List String}
    (h : reversed.reverse <+: p.parts.2) :
    (ancestorsFrom p.parts.1 reversed).Pairwise fun p q => q = ⟨""⟩ ∨ q.Along p := by
  induction reversed with
  | nil =>
      unfold ancestorsFrom
      split
      · exact List.pairwise_singleton _ _
      · exact List.Pairwise.nil
  | cons segment before ih =>
      rw [List.reverse_cons] at h
      have hbefore := (List.prefix_append _ _).trans h
      unfold ancestorsFrom
      split
      · exact ih hbefore
      · refine List.pairwise_cons.2 ⟨fun q hq => ?_, ih hbefore⟩
        have hfront : (before.dropWhile isIdle).reverse <+: before.reverse :=
          List.reverse_prefix.2 (List.dropWhile_suffix _)
        rw [← ancestorsFrom_dropWhile] at hq
        rcases mem_ancestorsFrom hq with rfl | ⟨body, hb, rfl⟩
        · exact Or.inl rfl
        · exact Or.inr (along_ofParts hb (hfront.trans hbefore))

/-- Each path above leads along those below it. -/
theorem pairwise_ancestors (p : Path) :
    (p :: p.ancestors).Pairwise fun p q => q = ⟨""⟩ ∨ q.Along p := by
  refine List.pairwise_cons.2 ⟨fun q hq => ?_, pairwise_ancestorsFrom (by simp)⟩
  rcases mem_ancestorsFrom hq with rfl | ⟨body, hb, rfl⟩
  · exact Or.inl rfl
  · rw [List.reverse_reverse] at hb
    obtain ⟨k, hk⟩ := segments_ofParts p.parts.1 body (not_mem_of_mem_parts hb)
    refine Or.inr (along_of_initial (isAbsolute_of_initial hb) hk ?_)
    rw [segments_eq_parts]
    exact (List.prefix_append_right_inj _).2 hb

/-- The moves of a path open with those of each path above it. -/
theorem along_of_mem_ancestors {p q : Path} (h : q ∈ p.ancestors) : q = ⟨""⟩ ∨ q.Along p :=
  (List.pairwise_cons.1 p.pairwise_ancestors).1 q h

theorem map_takeWhile_isIdle (xs : List String) :
    ∃ k, (xs.takeWhile isIdle).map Step.ofSegment = List.replicate k .stay := by
  refine ⟨(xs.takeWhile isIdle).length, List.eq_replicate_iff.2 ⟨List.length_map _, ?_⟩⟩
  intro step hstep
  obtain ⟨segment, hmem, rfl⟩ := List.mem_map.1 hstep
  rw [Step.ofSegment, if_pos (List.all_eq_true.1 List.all_takeWhile segment hmem)]

theorem not_isIdle_of_fileName {p : Path} {name : String} (h : p.fileName? = some name) :
    isIdle name = false ∧ name ≠ ".." ∧ ∃ before,
      p.parts.2.reverse.dropWhile isIdle = name :: before := by
  unfold fileName? at h
  split at h
  · cases h
  · next last before hbody =>
    split at h
    · cases h
    · next hup =>
      cases h
      have hfirst := List.head?_dropWhile_not isIdle p.parts.2.reverse
      rw [hbody] at hfirst
      exact ⟨by simpa using hfirst, hup, before, hbody⟩

/-- The path that is put together from an initial body has that body, but for empty segments
at its end. -/
theorem parts_ofParts {p : Path} {body : List String} (h : body <+: p.parts.2) :
    ∃ k, (ofParts p.parts.1 body).parts = (p.parts.1, body ++ List.replicate k "") := by
  obtain ⟨k, hk⟩ := segments_ofParts p.parts.1 body (not_mem_of_mem_parts h)
  have hsegments := segments_eq_parts p
  cases hlead : p.parts.1 with
  | dot =>
      rw [hlead] at hk
      exact ⟨k, by simp [parts, hk, Lead.segments]⟩
  | root =>
      rw [hlead] at hk
      cases hbody : body ++ List.replicate k "" with
      | nil =>
          obtain ⟨rfl, _⟩ := List.append_eq_nil_iff.1 hbody
          exact ⟨1, rfl⟩
      | cons s rest =>
          refine ⟨k, ?_⟩
          rw [List.append_assoc, hbody] at hk
          simp [parts, hk, Lead.segments, hbody]
  | plain =>
      rw [hlead] at hk hsegments
      cases body with
      | nil => exact ⟨1, rfl⟩
      | cons s body =>
          -- its first segment was taken for no lead before
          obtain ⟨more, hmore⟩ := h
          rw [← hmore] at hsegments
          have hdot : s ≠ "." := by
            rintro rfl
            simp [parts, hsegments, Lead.segments] at hlead
          by_cases hs : s = ""
          · subst hs
            cases body with
            | nil => exact ⟨0, rfl⟩
            | cons next body => simp [parts, hsegments, Lead.segments] at hlead
          · exact ⟨k, by simp [parts, hk, Lead.segments, hs, hdot]⟩

theorem ancestors_ofParts {p : Path} {body : List String} (h : body <+: p.parts.2) :
    (ofParts p.parts.1 body).ancestors = ancestorsFrom p.parts.1 body.reverse := by
  obtain ⟨k, hk⟩ := parts_ofParts h
  have hidle : ∀ s ∈ List.replicate k "", isIdle s = true := fun s hs => by
    rw [List.eq_of_mem_replicate hs]
    rfl
  rw [ancestors, hk, List.reverse_append, List.reverse_replicate, ← ancestorsFrom_dropWhile,
    List.dropWhile_append_of_pos hidle, ancestorsFrom_dropWhile]

/-- The first of the paths above a file name is the parent, and the others are above that.
Its segments open those of the path, and but for idle ones only the name is left. -/
theorem exists_parent_of_fileName {p : Path} {name : String} (h : p.fileName? = some name) :
    ∃ parent, p.ancestors = parent :: parent.ancestors ∧ parent.isAbsolute = p.isAbsolute ∧
      ∃ (front before after : List String) (i : Nat),
        parent.segments = front ++ List.replicate i "" ∧
        p.segments =
          front ++ (before.takeWhile isIdle).reverse ++ name :: (after.takeWhile isIdle).reverse := by
  obtain ⟨hidle, _, before, hbody⟩ := not_isIdle_of_fileName h
  have hparts : p.parts.2 = (before.dropWhile isIdle).reverse ++ (before.takeWhile isIdle).reverse ++
      name :: (p.parts.2.reverse.takeWhile isIdle).reverse := by
    rw [← List.reverse_append, List.takeWhile_append_dropWhile]
    refine List.reverse_inj.1 ?_
    rw [List.reverse_append, List.reverse_cons, List.reverse_reverse, List.reverse_reverse,
      List.append_assoc, List.singleton_append, ← hbody, List.takeWhile_append_dropWhile]
  have hprefix : (before.dropWhile isIdle).reverse <+: p.parts.2 := by
    rw [hparts, List.append_assoc]
    exact List.prefix_append _ _
  obtain ⟨i, hi⟩ := segments_ofParts p.parts.1 _ (not_mem_of_mem_parts hprefix)
  refine ⟨ofParts p.parts.1 (before.dropWhile isIdle).reverse, ?_, isAbsolute_of_initial hprefix,
    p.parts.1.segments ++ (before.dropWhile isIdle).reverse, before, p.parts.2.reverse, i, hi, ?_⟩
  · rw [ancestors_ofParts hprefix, List.reverse_reverse, ancestorsFrom_dropWhile, ancestors,
      ← ancestorsFrom_dropWhile, hbody, ancestorsFrom, if_neg (by simp [hidle])]
  · rw [segments_eq_parts, List.append_assoc, List.append_assoc, ← List.append_assoc _ _ (name :: _),
      ← hparts]

/-- The moves of a path are those of its parent and then to the name, but for stays. -/
theorem ancestors_of_fileName {p : Path} {name : String} (h : p.fileName? = some name) :
    ∃ parent, p.ancestors = parent :: parent.ancestors ∧ parent.isAbsolute = p.isAbsolute ∧
      ∃ front i j k, parent.steps = front ++ List.replicate i .stay ∧
        p.steps = front ++ List.replicate j .stay ++ .down name :: List.replicate k .stay := by
  obtain ⟨parent, habove, habs, front, before, after, i, hparent, hp⟩ := exists_parent_of_fileName h
  obtain ⟨hidle, hup, _⟩ := not_isIdle_of_fileName h
  obtain ⟨j, hj⟩ := map_takeWhile_isIdle before
  obtain ⟨k, hk⟩ := map_takeWhile_isIdle after
  refine ⟨parent, habove, habs, front.map Step.ofSegment, i, j, k, ?_, ?_⟩
  · rw [steps, hparent, List.map_append, List.map_replicate]
    rfl
  · have hname : Step.ofSegment name = .down name := by simp [Step.ofSegment, hidle, hup]
    simp only [steps, hp, List.map_append, List.map_cons, List.map_reverse, hj, hk, hname,
      List.reverse_replicate]

/-- A path with a name after it, in parts. -/
theorem parts_div (p : Path) {name : String} (h : IsName name) :
    ∃ front, (p / name).parts.2 = front ++ [name] ∧
      p.openSegments = (p / name).parts.1.segments ++ front := by
  have hsegments := (segments_eq_parts (p / name)).symm.trans (segments_div p h)
  rcases List.eq_nil_or_concat (p / name).parts.2 with hbody | ⟨front, last, hbody⟩
  · -- a lead alone is no path that ends in a name
    rw [hbody, List.append_nil] at hsegments
    have hmem : name ∈ (p / name).parts.1.segments := by rw [hsegments]; simp
    obtain ⟨hne, hdot, _⟩ := h
    cases hlead : (p / name).parts.1 <;> simp [hlead, Lead.segments, hne, hdot] at hmem
  · rw [List.concat_eq_append] at hbody
    rw [hbody, ← List.append_assoc] at hsegments
    obtain ⟨hopen, hlast⟩ := List.append_inj' hsegments rfl
    cases hlast
    exact ⟨front, hbody, hopen.symm⟩

/-- The parent of a name in a directory names that directory. -/
theorem parent?_div (p : Path) {name : String} (h : IsName name) :
    ∃ q, (p / name).parent? = some q ∧ q.isAbsolute = p.isAbsolute ∧
      ∃ front i j, q.within = front ++ List.replicate i .stay ∧
        p.within = front ++ List.replicate j .stay := by
  obtain ⟨front, hbody, hopen⟩ := parts_div p h
  have hidle : isIdle name = false := by
    obtain ⟨hne, hdot, _⟩ := h
    simp [isIdle, hne, hdot]
  -- the body without the name and what is idle before it
  have hfront : front = (front.reverse.dropWhile isIdle).reverse ++
      (front.reverse.takeWhile isIdle).reverse := by
    rw [← List.reverse_append, List.takeWhile_append_dropWhile, List.reverse_reverse]
  have hprefix : (front.reverse.dropWhile isIdle).reverse <+: (p / name).parts.2 := by
    rw [hbody]
    exact List.IsPrefix.trans ⟨_, hfront.symm⟩ (List.prefix_append _ _)
  obtain ⟨k, hk⟩ := segments_ofParts (p / name).parts.1 _ (not_mem_of_mem_parts hprefix)
  obtain ⟨j, hj⟩ := map_takeWhile_isIdle front.reverse
  generalize hbefore : (front.reverse.dropWhile isIdle).reverse = before at hfront hprefix hk
  refine ⟨ofParts (p / name).parts.1 before, ?_, ?_, ?_⟩
  · rw [parent?, ancestors, hbody]
    simp [ancestorsFrom, hidle, hbefore]
  · rw [isAbsolute_of_initial hprefix, isAbsolute_div p h]
  · have hsteps : (ofParts (p / name).parts.1 before).steps =
        ((p / name).parts.1.segments ++ before).map Step.ofSegment ++ List.replicate k .stay := by
      rw [steps, hk, List.map_append, List.map_replicate]
      rfl
    have hwithin : p.within = ((p / name).parts.1.segments ++ before).map Step.ofSegment ++
        List.replicate j .stay := by
      rw [within, hopen, hfront, ← List.append_assoc, List.map_append, List.map_reverse, hj,
        List.reverse_replicate]
    rcases steps_eq_within (ofParts (p / name).parts.1 before) with hs | hs
    · exact ⟨_, k, j, hs ▸ hsteps, hwithin⟩
    · rw [hs] at hsteps
      cases k with
      | zero =>
          rw [List.replicate_zero, List.append_nil] at hsteps
          refine ⟨_, 0, j + 1, (List.append_nil _).symm, ?_⟩
          rw [hwithin, ← hsteps, List.append_assoc]
          rfl
      | succ k =>
          rw [List.replicate_succ', ← List.append_assoc] at hsteps
          exact ⟨_, k, j, (List.append_inj' hsteps rfl).1, hwithin⟩

theorem openSegments_join (p : Path) {q : Path} (h : q.isAbsolute = false) :
    (p.join q).openSegments = p.openSegments ++ q.openSegments := by
  have hlast : ((p.join q).text.toList.getLast?.all (· = '/')) =
      (q.text.toList.getLast?.all (· = '/')) := by
    rw [join, if_neg (by simp [h])]
    cases hq : q.text.toList with
    | nil =>
        split
        · next hp => simpa [hq] using hp
        · simp [hq]
    | cons c cs => split <;> simp [hq, List.getLast?_append, List.getLast?_cons]
  rw [openSegments, hlast, segments_join p h, openSegments.eq_1 q]
  split
  · rw [List.dropLast_append_of_ne_nil (segments_ne_nil q)]
  · rfl

end Path

namespace Location

theorem openSegments_toPath {l : Location} (h : ∀ n ∈ l, IsName n) :
    l.toPath.openSegments = "" :: l.reverse := by
  have hsegments := segments_toPath h
  unfold Path.openSegments
  split
  · next hlast =>
    -- what ends in a separator has an empty last segment
    have hempty : l.toPath.segments.getLast? = some "" := by
      rcases List.eq_nil_or_concat l.toPath.text.toList with hp | ⟨front, c, hp⟩
      · simp [Path.segments, hp]
      · obtain rfl : c = '/' := by simpa [hp] using hlast
        have hopen := List.splitOn_append_cons_self (a := '/') front []
        simp [Path.segments, hp, hopen]
    cases l with
    | nil => rw [hsegments]; rfl
    | cons name above =>
        rw [hsegments, if_neg (List.cons_ne_nil name above), List.reverse_cons,
          ← List.cons_append, List.getLast?_concat] at hempty
        exact absurd (Option.some.inj hempty) (h name List.mem_cons_self).1
  · next hlast =>
    cases l with
    | nil => exact absurd rfl hlast
    | cons name above => rw [hsegments, if_neg (List.cons_ne_nil name above)]

/-- The path of a location goes from the root down. -/
theorem within_toPath {l : Location} (h : ∀ n ∈ l, IsName n) :
    l.toPath.within = .stay :: l.reverse.map .down := by
  rw [Path.within, openSegments_toPath h, List.map_cons]
  congr 1
  refine List.map_congr_left fun n hn => ?_
  exact Path.Step.ofSegment_of_isName (h n (List.mem_reverse.1 hn))

end Location
end PointsTo
