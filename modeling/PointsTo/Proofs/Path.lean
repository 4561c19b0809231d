import PointsTo.Disk.Tree

/-!
How the readings of a path hang together. The moves of a whole path are those
before its last name, that name, and a stay for each separator after it. The
components of the path of a location are the names of the location, so one such
path opens another where the one location lies around the other.
-/

namespace PointsTo
namespace Path

theorem not_mem_of_mem_splitOn {a : Char} {xs ys : List Char} (h : ys ∈ xs.splitOn a) :
    a ∉ ys := by
  induction xs generalizing ys with
  | nil => simp_all
  | cons x xs ih =>
      rw [List.splitOn_cons_eq_if_modifyHead] at h
      split at h
      · rcases List.mem_cons.1 h with rfl | h
        · exact List.not_mem_nil
        · exact ih h
      · next hx =>
        cases hs : xs.splitOn a with
        | nil => exact absurd hs (List.splitOn_ne_nil a xs)
        | cons first rest =>
            rw [hs, List.modifyHead_cons, List.mem_cons] at h
            rcases h with rfl | h
            · have hfirst := ih (hs ▸ List.mem_cons_self)
              rw [List.mem_cons, not_or]
              exact ⟨fun he => hx (by simp [he]), hfirst⟩
            · exact ih (hs ▸ List.mem_cons_of_mem _ h)

theorem segments_ne_nil (p : Path) : p.segments ≠ [] := by
  simp [segments, List.splitOn_ne_nil]

theorem not_mem_of_mem_segments {p : Path} {s : String} (h : s ∈ p.segments) :
    '/' ∉ s.toList := by
  obtain ⟨cs, hcs, rfl⟩ := List.mem_map.1 h
  rw [String.toList_ofList]
  exact not_mem_of_mem_splitOn hcs

theorem isAbsolute_iff {p : Path} :
    p.isAbsolute = true ↔ ∃ next rest, p.segments = "" :: next :: rest := by
  unfold isAbsolute segments
  cases p.text.toList with
  | nil => simp
  | cons c cs =>
      rw [List.splitOn_cons_eq_if_modifyHead]
      cases hs : cs.splitOn '/' with
      | nil => exact absurd hs (List.splitOn_ne_nil '/' cs)
      | cons first rest =>
          by_cases hc : c = '/'
          · simp [hc]
          · simp [hc, String.ext_iff]

theorem segments_joinSegments {body : List String} (h : ∀ s ∈ body, '/' ∉ s.toList)
    (hne : body ≠ []) : segments ⟨joinSegments body⟩ = body := by
  have hsplit : (['/'].intercalate (body.map String.toList)).splitOn '/' = body.map String.toList :=
    List.splitOn_intercalate '/' (by simpa using h) (by simpa using hne)
  have htext : (joinSegments body).toList = ['/'].intercalate (body.map String.toList) := by
    simp [joinSegments]
  rw [segments, htext, hsplit]
  simp [Function.comp_def]

theorem isAbsolute_ofParts {p : Path} (hp : p.isAbsolute = false) {body : List String}
    (hbody : body <+: p.parts.2) : (ofParts p.parts.1 body).isAbsolute = false := by
  unfold parts at hbody ⊢
  split at hbody
  · next next rest hs => simp [isAbsolute_iff.2 ⟨next, rest, hs⟩] at hp
  · cases body <;> simp [ofParts, isAbsolute]
  · simp only [ofParts]
    cases body with
    | nil => rfl
    | cons s body =>
        rw [← Bool.not_eq_true, isAbsolute_iff]
        rintro ⟨next, rest, hs⟩
        rw [segments_joinSegments (fun s hs => not_mem_of_mem_segments (hbody.subset hs)) nofun] at hs
        rw [hs] at hbody
        obtain ⟨more, hmore⟩ := hbody
        simp [isAbsolute_iff.2 ⟨next, _, hmore.symm⟩] at hp

theorem mem_ancestorsFrom {lead : Lead} {reversed : List String} {q : Path}
    (h : q ∈ ancestorsFrom lead reversed) :
    q = ⟨""⟩ ∨ ∃ body, body <+: reversed.reverse ∧ q = ofParts lead body := by
  induction reversed with
  | nil =>
      unfold ancestorsFrom at h
      split at h
      · exact Or.inl (List.mem_singleton.1 h)
      · cases h
  | cons segment before ih =>
      have hmore : ∀ {body}, body <+: before.reverse → body <+: (segment :: before).reverse := by
        intro body hb
        rw [List.reverse_cons]
        exact hb.trans (List.prefix_append _ _)
      have hup : q ∈ ancestorsFrom lead before →
          q = ⟨""⟩ ∨ ∃ body, body <+: (segment :: before).reverse ∧ q = ofParts lead body := by
        intro hq
        rcases ih hq with rfl | ⟨body, hb, rfl⟩
        · exact Or.inl rfl
        · exact Or.inr ⟨body, hmore hb, rfl⟩
      unfold ancestorsFrom at h
      split at h
      · exact hup h
      · rcases List.mem_cons.1 h with rfl | h
        · exact Or.inr ⟨_, hmore (List.reverse_prefix.2 (List.dropWhile_suffix _)), rfl⟩
        · exact hup h

/-- Every path above a relative one is relative. -/
theorem isAbsolute_of_mem_ancestors {p q : Path} (hp : p.isAbsolute = false)
    (hq : q ∈ p.ancestors) : q.isAbsolute = false := by
  rcases mem_ancestorsFrom hq with rfl | ⟨body, hb, rfl⟩
  · rfl
  · rw [List.reverse_reverse] at hb
    exact isAbsolute_ofParts hp hb

theorem Step.ofSegment_of_isName {name : String} (h : IsName name) :
    Step.ofSegment name = .down name := by
  obtain ⟨hne, hdot, hup, _⟩ := h
  simp [ofSegment, isIdle, hne, hdot, hup]

theorem exists_replicate_dropWhile (xs : List String) :
    ∃ k, xs = List.replicate k "" ++ xs.dropWhile (· = "") ∧
      (k = 0 ↔ xs.head? ≠ some "") := by
  induction xs with
  | nil => exact ⟨0, rfl, by simp⟩
  | cons x xs ih =>
      by_cases hx : x = ""
      · obtain ⟨k, hk, _⟩ := ih
        refine ⟨k + 1, ?_, by simp [hx]⟩
        rw [List.dropWhile_cons_of_pos (by simpa using hx), List.replicate_succ, List.cons_append,
          ← hk, hx]
      · exact ⟨0, by simp [hx], by simp [hx]⟩

/-- A path that ends in a name, and what its moves then are. -/
theorem steps_of_ending {p : Path} {before : List Step} {name : String} {slash : Bool}
    (h : p.ending = (before, .name name slash)) :
    IsName name ∧ ∃ k, p.steps = before ++ .down name :: List.replicate k .stay ∧
      (slash = false ↔ k = 0) := by
  obtain ⟨k, hk, hzero⟩ := exists_replicate_dropWhile p.segments.reverse
  have hhead := List.head?_dropWhile_not (fun s : String => decide (s = "")) p.segments.reverse
  simp only [ending] at h
  split at h
  · simp at h
  · simp at h
  · simp at h
  · next last front hdot hup hlast =>
    simp only [Prod.mk.injEq, Ending.name.injEq] at h
    obtain ⟨rfl, rfl, rfl⟩ := h
    rw [hlast] at hk hhead
    have hs : p.segments = front.reverse ++ last :: List.replicate k "" := by
      rw [← List.reverse_reverse p.segments, hk]
      simp
    have hne : last ≠ "" := by simpa using hhead
    have hmem : last ∈ p.segments := by rw [hs]; simp
    have hname : IsName last := ⟨hne, hdot, hup, not_mem_of_mem_segments hmem⟩
    have hidle : Step.ofSegment "" = .stay := rfl
    refine ⟨hname, k, ?_, ?_⟩
    · simp [steps, hs, Step.ofSegment_of_isName hname, hidle]
    · rw [hzero]
      simp

theorem Step.eq_of_ofSegment {segment name : String} (h : ofSegment segment = .down name) :
    segment = name ∧ isIdle segment = false ∧ segment ≠ ".." := by
  unfold ofSegment at h
  split at h
  · cases h
  · next hidle =>
    split at h
    · cases h
    · next hup => exact ⟨Step.down.inj h, by simpa using hidle, hup⟩

/-- A path whose last move is to a name ends in that name. -/
theorem ending_of_steps {p : Path} {before : List Step} {name : String}
    (h : p.steps = before ++ [.down name]) : p.ending = (before, .name name false) := by
  obtain ⟨front, last, hsegments, rfl, hlast⟩ := List.map_eq_append_iff.1 h
  obtain ⟨segment, rest, rfl, hsegment, hrest⟩ := List.map_eq_cons_iff.1 hlast
  obtain rfl := List.map_eq_nil_iff.1 hrest
  obtain ⟨rfl, hidle, hup⟩ := Step.eq_of_ofSegment hsegment
  obtain ⟨hne, hdot⟩ : segment ≠ "" ∧ segment ≠ "." := by simpa [isIdle] using hidle
  simp only [ending, hsegments, List.reverse_append, List.reverse_singleton,
    List.singleton_append]
  rw [List.dropWhile_cons_of_neg (by simpa using hne)]
  split
  · next heq => cases heq
  · next heq => exact absurd (List.cons.inj heq).1 hdot
  · next heq => exact absurd (List.cons.inj heq).1 hup
  · next heq =>
    obtain ⟨rfl, rfl⟩ := List.cons.inj heq
    simp [hne]

def openSegments (p : Path) : List String :=
  if p.text.toList.getLast?.all (· = '/') then p.segments.dropLast else p.segments

/-- The moves into the directory that a path names, when a name follows. -/
def within (p : Path) : List Step :=
  p.openSegments.map Step.ofSegment

theorem isAbsolute_of_isName {name : String} (h : IsName name) :
    isAbsolute ⟨name⟩ = false := by
  cases hc : name.toList with
  | nil => simp [isAbsolute, hc]
  | cons c cs =>
      have hne : c ≠ '/' := fun he => h.2.2.2 (by simp [hc, he])
      simp [isAbsolute, hc, hne]

theorem isAbsolute_join_eq (p q : Path) :
    (p.join q).isAbsolute = (p.isAbsolute || q.isAbsolute) := by
  unfold join
  split
  · next h => simp [h]
  · next h =>
    have hq : q.isAbsolute = false := by simpa using h
    rw [hq, Bool.or_false]
    cases hp : p.text.toList with
    | nil => simpa [isAbsolute, hp] using hq
    | cons c cs => split <;> simp [isAbsolute, hp]

/-- Joining a relative path puts its segments after those that are there. -/
theorem segments_join (p : Path) {q : Path} (h : q.isAbsolute = false) :
    (p.join q).segments = p.openSegments ++ q.segments := by
  rw [join, if_neg (by simp [h])]
  unfold openSegments segments
  split
  · next hlast =>
    rcases List.eq_nil_or_concat p.text.toList with hp | ⟨front, c, hp⟩
    · simp [hp]
    · have hc : c = '/' := by simpa [hp] using hlast
      subst hc
      have hopen := List.splitOn_append_cons_self (a := '/') front []
      have hfull := List.splitOn_append_cons_self (a := '/') front q.text.toList
      simp_all
  · have hfull := List.splitOn_append_cons_self (a := '/') p.text.toList q.text.toList
    simp [hfull]

theorem steps_join (p : Path) {q : Path} (h : q.isAbsolute = false) :
    (p.join q).steps = p.within ++ q.steps := by
  rw [steps, segments_join p h, List.map_append]
  rfl

theorem isAbsolute_div (p : Path) {name : String} (h : IsName name) :
    (p / name).isAbsolute = p.isAbsolute := by
  change (p.join ⟨name⟩).isAbsolute = p.isAbsolute
  rw [isAbsolute_join_eq, isAbsolute_of_isName h, Bool.or_false]

theorem segments_div (p : Path) {name : String} (h : IsName name) :
    (p / name).segments = p.openSegments ++ [name] := by
  have hone : name.toList.splitOn '/' = [name.toList] := List.splitOn_eq_singleton h.2.2.2
  change (p.join ⟨name⟩).segments = _
  rw [segments_join p (isAbsolute_of_isName h), segments.eq_1 ⟨name⟩, hone]
  simp

theorem ending_div (p : Path) {name : String} (h : IsName name) :
    (p / name).ending = (p.within, .name name false) := by
  have hsegments := segments_div p h
  obtain ⟨hne, hdot, hup, _⟩ := h
  simp only [ending, hsegments, List.reverse_append, List.reverse_singleton,
    List.singleton_append]
  rw [List.dropWhile_cons_of_neg (by simpa using hne)]
  split
  · next heq => cases heq
  · next heq => exact absurd (List.cons.inj heq).1 hdot
  · next heq => exact absurd (List.cons.inj heq).1 hup
  · next heq =>
    obtain ⟨rfl, rfl⟩ := List.cons.inj heq
    simp [within, hne]

theorem steps_div (p : Path) {name : String} (h : IsName name) :
    (p / name).steps = p.within ++ [.down name] := by
  rw [steps, segments_div p h, List.map_append, within]
  simp [Step.ofSegment_of_isName h]

/-- A separator at the end of a path asks for a directory and leads nowhere else. -/
theorem steps_eq_within (p : Path) : p.steps = p.within ∨ p.steps = p.within ++ [.stay] := by
  unfold steps within openSegments
  split
  · next hlast =>
    refine Or.inr ?_
    have hidle : Step.ofSegment "" = .stay := rfl
    rcases List.eq_nil_or_concat p.text.toList with hp | ⟨front, c, hp⟩
    · simp [segments, hp, hidle]
    · have hc : c = '/' := by simpa [hp] using hlast
      subst hc
      have hopen := List.splitOn_append_cons_self (a := '/') front []
      simp [segments, hp, hopen, hidle]
  · exact Or.inl rfl

end Path

namespace Location

theorem isAbsolute_toPath (l : Location) : l.toPath.isAbsolute = true := by
  simp [toPath, Path.isAbsolute]

theorem segments_toPath {l : Location} (h : ∀ n ∈ l, IsName n) :
    l.toPath.segments = "" :: if l = [] then [""] else l.reverse := by
  rw [toPath, Path.segments, Path.joinSegments]
  by_cases hl : l = []
  · subst hl
    rfl
  · have hsplit : (['/'].intercalate (l.reverse.map String.toList)).splitOn '/' =
        l.reverse.map String.toList :=
      List.splitOn_intercalate '/' (by simpa using fun n hn => (h n hn).2.2.2) (by simpa using hl)
    have htext : ("/" ++ String.intercalate "/" l.reverse).toList =
        [] ++ '/' :: ['/'].intercalate (l.reverse.map String.toList) := by
      simp
    rw [htext, List.splitOn_append_cons_self, hsplit]
    simp [hl, Function.comp_def]

theorem filterMap_bodyComponent? {names : List String} (h : ∀ n ∈ names, IsName n) :
    names.filterMap Path.bodyComponent? = names.map .name := by
  induction names with
  | nil => rfl
  | cons n names ih =>
      obtain ⟨hne, hdot, hup, _⟩ := h n List.mem_cons_self
      have hn : Path.bodyComponent? n = some (.name n) := by
        simp [Path.bodyComponent?, Path.isIdle, hne, hdot, hup]
      rw [List.filterMap_cons_some hn, List.map_cons,
        ih fun m hm => h m (List.mem_cons_of_mem n hm)]

/-- The names from the root down. -/
theorem components_toPath {l : Location} (h : ∀ n ∈ l, IsName n) :
    l.toPath.components = .root :: l.reverse.map .name := by
  have hbody : l.reverse.filterMap Path.bodyComponent? = l.reverse.map .name :=
    filterMap_bodyComponent? fun n hn => h n (List.mem_reverse.1 hn)
  rw [Path.components, Path.parts, segments_toPath h]
  by_cases hl : l = []
  · subst hl
    rfl
  · cases hr : l.reverse with
    | nil => exact absurd (List.reverse_eq_nil_iff.1 hr) hl
    | cons first rest =>
        rw [hr] at hbody
        simp [hl, hbody]

theorem startsWith_toPath_iff {k l : Location} (hk : ∀ n ∈ k, IsName n)
    (hl : ∀ n ∈ l, IsName n) :
    l.toPath.startsWith k.toPath = true ↔ Tree.isWithin k l = true := by
  rw [Path.startsWith, components_toPath hk, components_toPath hl, Tree.isWithin_iff,
    List.isPrefixOf_iff_prefix, List.cons_prefix_cons, ← List.reverse_prefix]
  simp only [true_and]
  exact List.prefix_map_iff_of_injective (fun _ _ he => by injection he)

end Location
end PointsTo
