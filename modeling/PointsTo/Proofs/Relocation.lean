import PointsTo.Proofs.Sweep

/-!
Moving files from one directory to another, name by name, up to the first that cannot be
moved. Both paths are looked up anew for each name, so something is said about the ways
only for paths that do not lead through what is overwritten.
-/

namespace PointsTo

namespace Tree

/-- The tree without what stands at the places or inside them. -/
def without (t : Tree) (places : List Location) : Tree :=
  t.keep (fun k => places.all fun l => !isWithin l k) fun n d h => by
    rw [List.all_eq_true] at h ⊢
    intro l hl
    have hout := h l hl
    rw [Bool.not_eq_true'] at hout ⊢
    exact not_isWithin_of_cons hout

section Without

variable {t : Tree} {places : List Location} {l k : Location}

theorem find_without_within (hl : l ∈ places) (hk : isWithin l k = true) :
    (t.without places).find k = none := by
  rw [without, find_keep, if_neg]
  intro hall
  have hout := List.all_eq_true.1 hall l hl
  simp [hk] at hout

theorem find_without_outside (h : ∀ l ∈ places, isWithin l k = false) :
    (t.without places).find k = t.find k := by
  rw [without, find_keep, if_pos]
  exact List.all_eq_true.2 fun l hl => by simp [h l hl]

theorem find_of_find_without {e : Entry} (h : (t.without places).find k = some e) :
    t.find k = some e := by
  rw [without, find_keep] at h
  split at h
  · exact h
  · cases h

end Without
end Tree

namespace Disk

/-- The disk without what stands at the places or inside them. What a path leads to on it,
the path leads to without going through any of the places. -/
def without (d : Disk) (places : List Location) : Disk :=
  standing (d.tree.without places) d.cwd d.lost

section Without

variable {d : Disk} {places : List Location} {l : Location}

theorem without_keepsWays (d : Disk) (places : List Location) : (d.without places).KeepsWays d where
  directory := (leadsTo_of_standing Tree.find_of_find_without []).tree.directory
  link := fun hl => Or.inl (Tree.find_of_find_without hl)
  above := (leadsTo_of_standing (d := d) Tree.find_of_find_without []).above

theorem without_isAside (h : d.tree.IsAside l) (hl : l ≠ []) : (d.without places).tree.IsAside l := by
  by_cases hout : ∀ k ∈ places, Tree.isWithin k l = false
  · exact (d.without_keepsWays places).isAside h (Tree.find_without_outside hout) hl
  · rw [Classical.not_forall] at hout
    obtain ⟨k, hk⟩ := hout
    rw [Classical.not_imp, Bool.not_eq_false] at hk
    exact Tree.isAside_of_none (Tree.find_without_within hk.1 hk.2) hl

/-- What leads nowhere through the places leads on without them. -/
theorem KeepsWays.without {base : Disk} (h : base.KeepsWays d) (hne : ∀ l ∈ places, l ≠ [])
    (hbare : ∀ l ∈ places, ∀ k, Tree.isWithin l k = true → base.tree.find k = none) :
    base.KeepsWays (d.without places) := by
  have hout : ∀ {k}, (¬ ∃ l ∈ places, Tree.isWithin l k = true) →
      (d.without places).tree.find k = d.tree.find k := fun {k} hk =>
    Tree.find_without_outside fun l hl => Bool.eq_false_iff.2 fun hw => hk ⟨l, hl, hw⟩
  refine h.alter (fun k => ∃ l ∈ places, Tree.isWithin l k = true) hout ?_ fun i hi => ?_
  · rintro k ⟨l, hl, hw⟩
    refine Tree.isAside_of_none (hbare l hl k hw) ?_
    rintro rfl
    exact hne l hl (List.eq_nil_of_suffix_nil (Tree.isWithin_iff.1 hw))
  · refine standing_above d.lost ?_
    change (d.without places).tree.isDirectory _ = true
    rw [Tree.isDirectory_congr (hout hi)]
    exact Tree.isDirectory_drop d.cwd_isDirectory i

/-- A path that needs nothing inside a directory does not lead through places there. -/
theorem enters_without_inside {p : Path} {dir : Location} (hplaces : ∀ k ∈ places, ∃ n, k = n :: dir)
    (h : (d.clear dir).Enters p l) : (d.without places).Enters p l := by
  refine ((d.clear_keepsWays dir).without (fun k hk => ?_) fun k hk i hw => ?_).enters h
  · obtain ⟨n, rfl⟩ := hplaces k hk
    nofun
  · obtain ⟨n, rfl⟩ := hplaces k hk
    exact find_clear_inside (Tree.inside_of_isWithin_cons hw)

theorem isAside_of_mem (hl : l ∈ places) (hne : l ≠ []) : (d.without places).tree.IsAside l :=
  Tree.isAside_of_none (Tree.find_without_within hl (Tree.isWithin_iff.2 (List.suffix_refl l))) hne

end Without

/-- A file may be given the name in the directory: the system takes its path there, and no
directory has the name. -/
def Takes (d : Disk) (target : Path) (dst : Location) (n : String) : Prop :=
  checkText (target / n) = .ok () ∧ d.tree.isDirectory (n :: dst) = false

def overwritten (d : Disk) (dst : Location) (names : List String) : List Location :=
  (names.filter fun n => !d.tree.isDirectory (n :: dst)).map (· :: dst)

/-- The entries have moved from one directory to the other, under the names they had, and
nothing else is changed. Only what is no directory was overwritten. -/
structure Relocates (names : List String) (src dst : Location) (d d' : Disk) : Prop where
  arrived : ∀ n ∈ names, d'.tree.find (n :: dst) = d.tree.find (n :: src)
  left : src ≠ dst → ∀ n ∈ names, d'.tree.find (n :: src) = none
  others : ∀ k, (∀ n ∈ names, k ≠ n :: src ∧ k ≠ n :: dst) → d'.tree.find k = d.tree.find k
  replaced : ∀ n ∈ names, d.tree.isDirectory (n :: dst) = false
  cwd : d'.cwd = d.cwd
  lost : d'.lost = d.lost

section Relocates

variable {d d' d₁ d₂ : Disk} {source target : Path} {src dst : Location} {n : String}
  {names before : List String}

theorem Relocates.refl (src dst : Location) (d : Disk) : Relocates [] src dst d d :=
  ⟨nofun, nofun, fun _ _ => rfl, nofun, rfl, rfl⟩

theorem Relocates.find_new (h : Relocates names src dst d d') (hn : n ∉ names) :
    d'.tree.find (n :: src) = d.tree.find (n :: src) ∧
      d'.tree.find (n :: dst) = d.tree.find (n :: dst) := by
  have hne : ∀ m ∈ names, n ≠ m := fun m hm heq => hn (heq ▸ hm)
  constructor
  · exact h.others _ fun m hm => by simp [hne m hm]
  · exact h.others _ fun m hm => by simp [hne m hm]

theorem Relocates.keepsWays {places : List Location} (h : Relocates names src dst d d')
    (haside : ∀ n ∈ names, d.tree.IsAside (n :: src)) (hplaces : ∀ n ∈ names, n :: dst ∈ places) :
    (d.without places).KeepsWays d' := by
  refine (d.without_keepsWays places).alter (fun k => ∃ n ∈ names, k = n :: src ∨ k = n :: dst)
    (fun {k} hk => ?_) ?_ fun i _ => ⟨i, by rw [h.cwd], by rw [h.lost]⟩
  · exact h.others k fun n hn => ⟨fun heq => hk ⟨n, hn, Or.inl heq⟩, fun heq => hk ⟨n, hn, Or.inr heq⟩⟩
  · rintro k ⟨n, hn, rfl | rfl⟩
    · exact without_isAside (haside n hn) nofun
    · exact isAside_of_mem (hplaces n hn) nofun

theorem Relocates.gathers (h : Relocates before src dst d d') (hsub : ∀ n ∈ before, n ∈ names) :
    Gathers names src dst d d' := by
  refine ⟨fun l => ?_, h.cwd, h.lost⟩
  by_cases hl : ∃ n ∈ before, l = n :: src ∨ l = n :: dst
  · obtain ⟨n, hn, hl⟩ := hl
    by_cases hsame : src = dst
    · subst hsame
      rw [or_self] at hl
      exact Or.inl (hl ▸ h.arrived n hn)
    · exact Or.inr ⟨n, hsub n hn, hl, h.left hsame n hn, h.arrived n hn⟩
  · exact Or.inl (h.others l fun n hn =>
      ⟨fun heq => hl ⟨n, hn, Or.inl heq⟩, fun heq => hl ⟨n, hn, Or.inr heq⟩⟩)

section Rename

variable {e : Entry} (hname : IsName n) (hc : checkText (source / n) = .ok ())
  (hsource : d.Enters source src) (htarget : d.Enters target dst)
  (he : d.tree.child? src n = .ok (some e)) (hplain : e.isDirectory = false)

include hname hc hsource htarget he hplain

theorem rename_iff_takes :
    (∃ d', d.rename (source / n) (target / n) = .ok d') ↔ d.Takes target dst n := by
  rw [rename_file_iff ((resolveLast_div_iff hname).2 ⟨hc, hsource, rfl⟩) he hplain]
  constructor
  · rintro ⟨m, dst', hlast, _, hfree⟩
    obtain ⟨hc', htarget', hm⟩ := (resolveLast_div_iff hname).1 hlast
    cases hm
    cases htarget.unique htarget'
    exact ⟨hc', hfree⟩
  · rintro ⟨hc', hfree⟩
    exact ⟨n, dst, (resolveLast_div_iff hname).2 ⟨hc', htarget, rfl⟩,
      (Tree.child?_eq_ok_iff.1 he).2.1, hfree⟩

theorem relocates_rename (h : d.rename (source / n) (target / n) = .ok d') :
    Relocates [n] src dst d d' := by
  have hfind := (Tree.child?_eq_ok_iff.1 he).2.2
  obtain ⟨_, hfree⟩ := (rename_iff_takes hname hc hsource htarget he hplain).1 ⟨d', h⟩
  obtain ⟨m, dst', _, hlast, _, hmoved, ⟨hcwd, hlost⟩, _⟩ :=
    rename_file ((resolveLast_div_iff hname).2 ⟨hc, hsource, rfl⟩) he hplain h
  obtain ⟨_, htarget', hm⟩ := (resolveLast_div_iff hname).1 hlast
  cases hm
  cases htarget.unique htarget'
  refine ⟨fun m hm => ?_, fun hne m hm => ?_, fun k hk => ?_, fun m hm => ?_, hcwd, hlost⟩
  · cases List.mem_singleton.1 hm
    rw [hmoved, if_pos rfl, hfind]
  · cases List.mem_singleton.1 hm
    rw [hmoved, if_neg (by simp [hne]), if_pos rfl]
  · obtain ⟨hks, hkd⟩ := hk n List.mem_cons_self
    rw [hmoved, if_neg hkd, if_neg hks]
  · cases List.mem_singleton.1 hm
    exact hfree

end Rename

/-- One more entry has moved. -/
theorem Relocates.snoc (h : Relocates before src dst d d₁) (hnew : n ∉ before)
    (h' : Relocates [n] src dst d₁ d₂) : Relocates (before ++ [n]) src dst d d₂ := by
  obtain ⟨hsrc, hdst⟩ := h.find_new hnew
  have hother : ∀ m ∈ before, ∀ dir, d₂.tree.find (m :: dir) = d₁.tree.find (m :: dir) := by
    intro m hm dir
    have hne : m ≠ n := fun heq => hnew (heq ▸ hm)
    exact h'.others _ (by simp [hne])
  refine ⟨fun m hm => ?_, fun hne m hm => ?_, fun k hk => ?_, fun m hm => ?_,
    h'.cwd.trans h.cwd, h'.lost.trans h.lost⟩
  · rcases List.mem_append.1 hm with hold | hlast
    · rw [hother m hold, h.arrived m hold]
    · cases List.mem_singleton.1 hlast
      rw [h'.arrived _ hlast, hsrc]
  · rcases List.mem_append.1 hm with hold | hlast
    · rw [hother m hold, h.left hne m hold]
    · exact h'.left hne m hlast
  · rw [h'.others k fun m hm => hk m (List.mem_append_right _ hm)]
    exact h.others k fun m hm => hk m (List.mem_append_left _ hm)
  · rcases List.mem_append.1 hm with hold | hlast
    · exact h.replaced m hold
    · cases List.mem_singleton.1 hlast
      rw [← Tree.isDirectory_congr hdst]
      exact h'.replaced _ hlast

/-- The next entry can be moved exactly if it is taken. -/
theorem Relocates.rename (h : Relocates before src dst d d₁) (hnew : n ∉ before)
    (hn : d.Removable source src n) (hsource : d₁.Enters source src) (htarget : d₁.Enters target dst) :
    (d.Takes target dst n → ∃ d₂, d₁.rename (source / n) (target / n) = .ok d₂ ∧
      Relocates (before ++ [n]) src dst d d₂) ∧
    (¬ d.Takes target dst n → ∃ fault, d₁.rename (source / n) (target / n) = .error fault) := by
  obtain ⟨e, he⟩ := hn.child
  obtain ⟨_, hshort, hfind⟩ := Tree.child?_eq_ok_iff.1 he
  have hname := Tree.isName_of_find hfind
  obtain ⟨hsrc, hdst⟩ := h.find_new hnew
  have hplain : e.isDirectory = false := by
    rw [← Tree.isDirectory_eq_of_find hfind]
    exact hn.aside.directory
  have hchild : d₁.tree.child? src n = .ok (some e) :=
    Tree.child?_eq_ok_iff.2 ⟨hsource.1, hshort, hsrc.trans hfind⟩
  have htakes := rename_iff_takes hname hn.text hsource htarget hchild hplain
  unfold Takes at htakes ⊢
  rw [Tree.isDirectory_congr hdst] at htakes
  constructor
  · intro ht
    obtain ⟨d₂, hrename⟩ := htakes.2 ht
    exact ⟨d₂, hrename,
      h.snoc hnew (relocates_rename hname hn.text hsource htarget hchild hplain hrename)⟩
  · intro ht
    cases hrename : d₁.rename (source / n) (target / n) with
    | ok d₂ => exact absurd (htakes.1 ⟨d₂, hrename⟩) ht
    | error fault => exact ⟨fault, rfl⟩

theorem exists_of_mem_overwritten : ∀ l ∈ d.overwritten dst names, ∃ n, l = n :: dst := by
  intro l hl
  obtain ⟨n, _, rfl⟩ := List.mem_map.1 hl
  exact ⟨n, rfl⟩

theorem mem_overwritten (hn : n ∈ names) (h : d.tree.isDirectory (n :: dst) = false) :
    n :: dst ∈ d.overwritten dst names :=
  List.mem_map.2 ⟨n, List.mem_filter.2 ⟨hn, by simp [h]⟩, rfl⟩

/-- No directory is overwritten, nor is anything above one. -/
theorem isDirectory_without_overwritten {l : Location} (h : d.tree.isDirectory l = true) :
    (d.without (d.overwritten dst names)).tree.isDirectory l = true := by
  have hout : ∀ k ∈ d.overwritten dst names, Tree.isWithin k l = false := by
    intro k hk
    refine Bool.eq_false_iff.2 fun hw => ?_
    obtain ⟨n, hn, rfl⟩ := List.mem_map.1 hk
    have hplain := (List.mem_filter.1 hn).2
    obtain ⟨inside, rfl⟩ := Tree.isWithin_iff.1 hw
    have habove := Tree.isDirectory_drop h inside.length
    rw [List.drop_left] at habove
    simp [habove] at hplain
  have hsame : (d.without (d.overwritten dst names)).tree.find l = d.tree.find l :=
    Tree.find_without_outside hout
  rw [Tree.isDirectory_congr hsame]
  exact h

end Relocates
end Disk

namespace WorkDir

open Disk

variable {d d₁ : Disk} {source target : Path} {src dst : Location} {start : String}
  {names before rest : List String}

/-- How a loop over the names ends that has dealt with the first of them: with all, or with
the failure to deal with the next one. -/
def EndsAfter (source : Path) (names moved : List String) (refused : String → Prop)
    (r : Except Failure Nat) : Prop :=
  (moved = names ∧ r = .ok names.length) ∨
    ∃ failing later fault, names = moved ++ failing :: later ∧ refused failing ∧
      r = .error (.disk (source / failing) fault)

theorem forEach_rename (hsource : (d.without (d.overwritten dst names)).Enters source src)
    (htarget : (d.without (d.overwritten dst names)).Enters target dst)
    (hshown : ∀ n ∈ names, d.Removable source src n) (hnodup : names.Nodup)
    (hnames : names = before ++ rest) (hd : Relocates before src dst d d₁)
    (htaken : ∀ n ∈ before, d.Takes target dst n) :
    ∃ moved r d', forEach (fun name =>
        change (source / name) (·.rename (source / name) (target / name))) rest d₁ = (r, d') ∧
      Relocates moved src dst d d' ∧ (∀ n ∈ moved, d.Takes target dst n) ∧
      EndsAfter source names moved (fun n => ¬ d.Takes target dst n) (r.map fun _ => names.length) := by
  induction rest generalizing before d₁ with
  | nil =>
      rw [List.append_nil] at hnames
      exact ⟨before, .ok (), d₁, rfl, hd, htaken, Or.inl ⟨hnames.symm, rfl⟩⟩
  | cons n rest ih =>
      have hmem : ∀ m ∈ before, m ∈ names := fun m hm => hnames ▸ List.mem_append_left _ hm
      have hways := hd.keepsWays (fun m hm => (hshown m (hmem m hm)).aside)
        fun m hm => mem_overwritten (hmem m hm) (htaken m hm).2
      have hn : n ∈ names := hnames ▸ List.mem_append_right _ List.mem_cons_self
      have hnew : n ∉ before := by
        intro hold
        rw [hnames] at hnodup
        exact (List.nodup_append.1 hnodup).2.2 n hold n List.mem_cons_self rfl
      obtain ⟨hdone, hrefused⟩ := hd.rename hnew (hshown n hn) (hways.enters hsource)
        (hways.enters htarget)
      by_cases ht : d.Takes target dst n
      · obtain ⟨d₂, hrename, hd₂⟩ := hdone ht
        obtain ⟨moved, r, d', hrounds, hrest⟩ := ih (by rw [hnames]; simp) hd₂ fun m hm => by
          rcases List.mem_append.1 hm with hm | hm
          · exact htaken m hm
          · exact List.mem_singleton.1 hm ▸ ht
        refine ⟨moved, r, d', ?_, hrest⟩
        rw [forEach_ok (change_ok hrename)]
        exact hrounds
      · obtain ⟨fault, hrename⟩ := hrefused ht
        exact ⟨before, _, d₁, forEach_error (change_error hrename), hd, htaken,
          Or.inr ⟨n, rest, fault, hnames, ht, rfl⟩⟩

theorem moveFiles_eq {r : Except Failure Unit}
    (hnames : filesMatching d source (fun n => start.toList.isPrefixOf n.toList) = .ok names)
    (hrounds : forEach (fun name =>
      change (source / name) (·.rename (source / name) (target / name))) names d = (r, d₁)) :
    moveFiles source start target d = (r.map fun _ => names.length, d₁) := by
  have hlook : Attempt.look
      (filesMatching · source fun n => start.toList.isPrefixOf n.toList) d = (.ok names, d) := by
    rw [Attempt.look_apply, hnames]
  rw [moveFiles, Attempt.bind_ok hlook]
  cases r with
  | error e =>
      rw [Attempt.bind_error hrounds]
      rfl
  | ok =>
      rw [Attempt.bind_ok hrounds]
      rfl

/-- The files that the directory shows and whose names start as given, in order. -/
theorem exists_matching (hp : d.resolve source = .ok src) (hdir : d.tree.isDirectory src = true)
    (start : String) :
    ∃ names, filesMatching d source (fun n => start.toList.isPrefixOf n.toList) = .ok names ∧
      names.Pairwise (· < ·) ∧
      ∀ n, n ∈ names ↔ start.toList <+: n.toList ∧ d.ShowsFile source src n := by
  obtain ⟨names, hnames, hsorted, hmem⟩ :=
    filesMatching_ok hp hdir fun n => start.toList.isPrefixOf n.toList
  refine ⟨names, hnames, hsorted, fun n => ?_⟩
  rw [hmem, List.isPrefixOf_iff_prefix, and_comm]

theorem moveFiles_of_enters
    (hnames : filesMatching d source (fun n => start.toList.isPrefixOf n.toList) = .ok names)
    (hshown : ∀ n ∈ names, d.Removable source src n) (hnodup : names.Nodup)
    (hsource : (d.without (d.overwritten dst names)).Enters source src)
    (htarget : (d.without (d.overwritten dst names)).Enters target dst) :
    ∃ moved r d', moveFiles source start target d = (r, d') ∧ Relocates moved src dst d d' ∧
      (∀ n ∈ moved, d.Takes target dst n) ∧
      EndsAfter source names moved (fun n => ¬ d.Takes target dst n) r := by
  obtain ⟨moved, r, d', hrounds, hrest⟩ := forEach_rename hsource htarget hshown hnodup
    (List.nil_append names).symm (.refl src dst d) nofun
  exact ⟨moved, _, d', moveFiles_eq hnames hrounds, hrest⟩

/-- Nothing can be moved to where no name can be looked up. -/
theorem moveFiles_of_nowhere
    (hnames : filesMatching d source (fun n => start.toList.isPrefixOf n.toList) = .ok names)
    (hshown : ∀ n ∈ names, IsName n) (hno : ∀ dst, ¬ d.Enters target dst) :
    ∃ r, moveFiles source start target d = (r, d) ∧ EndsAfter source names [] (fun _ => True) r := by
  cases names with
  | nil => exact ⟨_, moveFiles_eq hnames rfl, Or.inl ⟨rfl, rfl⟩⟩
  | cons n names =>
      cases hrename : d.rename (source / n) (target / n) with
      | ok d' =>
          obtain ⟨_, _, _, dst, _, _, _, _, ht, _⟩ := rename_cases hrename
          exact absurd ((resolveLast_div_iff (hshown n List.mem_cons_self)).1 ht).2.1 (hno dst)
      | error fault =>
          exact ⟨_, moveFiles_eq hnames (forEach_error (change_error hrename)),
            Or.inr ⟨n, names, fault, rfl, trivial, rfl⟩⟩

theorem moveFiles_of_no_source {r : Except Failure Nat} {d' : Disk}
    (h : moveFiles source start target d = (r, d'))
    (hp : ∀ src, d.resolve source = .ok src → d.tree.isDirectory src = false) : d' = d :=
  (Prod.mk.inj (h.symm.trans (moveFiles_eq (filesMatching_nil hp) rfl))).2

/-- What moving does at most, to a directory whose path needs nothing inside it. -/
theorem moveFiles_cases {r : Except Failure Nat} {d' : Disk}
    (h : moveFiles source start target d = (r, d'))
    (hsource : ∀ {src}, d.Reaches source source.steps src → d.tree.isDirectory src = true →
      ∀ names, (d.without (d.overwritten dst names)).Enters source src)
    (htarget : (d.clear dst).Enters target dst) :
    d' = d ∨ ∃ names src, d.Reaches source source.steps src ∧ Gathers names src dst d d' ∧
      ∀ n ∈ names, IsName n ∧ d.isFile (source / n) = true ∧
        start.toList.isPrefixOf n.toList = true ∧ d.tree.IsAside (n :: src) := by
  by_cases hp : ∃ src, d.resolve source = .ok src ∧ d.tree.isDirectory src = true
  · obtain ⟨src, hp, hdir⟩ := hp
    have hreach := resolve_eq_ok_iff.1 hp
    have henters := hreach.enters hdir
    obtain ⟨names, hnames, hsorted, hmem⟩ := exists_matching hp hdir start
    have hshown : ∀ n ∈ names, d.Removable source src n := fun n hn =>
      ((hmem n).1 hn).2.removable henters
    obtain ⟨moved, _, _, hmove, hmoved, _, hends⟩ := moveFiles_of_enters hnames hshown
      (hsorted.imp String.ne_of_lt) (hsource hreach hdir names)
      (enters_without_inside exists_of_mem_overwritten htarget)
    cases h.symm.trans hmove
    refine Or.inr ⟨names, src, hreach, hmoved.gathers fun n hn => ?_, fun n hn => ?_⟩
    · rcases hends with ⟨rfl, _⟩ | ⟨_, _, _, rfl, _⟩
      · exact hn
      · exact List.mem_append_left _ hn
    · obtain ⟨hstart, hfile⟩ := (hmem n).1 hn
      exact ⟨hfile.isName, ((showsFile_iff henters).1 hfile).2,
        List.isPrefixOf_iff_prefix.2 hstart, (hshown n hn).aside⟩
  · exact Or.inl (moveFiles_of_no_source h fun src hsrc =>
      Bool.eq_false_iff.2 fun hthere => hp ⟨src, hsrc, hthere⟩)

theorem moveFiles_of_not_enters {r : Except Failure Nat} {d' : Disk}
    (h : moveFiles source start target d = (r, d')) (hno : ∀ dst, ¬ d.Enters target dst) :
    d' = d := by
  by_cases hp : ∃ src, d.resolve source = .ok src ∧ d.tree.isDirectory src = true
  · obtain ⟨src, hp, hdir⟩ := hp
    obtain ⟨names, hnames, _, hmem⟩ := exists_matching hp hdir start
    obtain ⟨_, hmove, _⟩ := moveFiles_of_nowhere hnames
      (fun n hn => ((hmem n).1 hn).2.isName) hno
    exact (Prod.mk.inj (h.symm.trans hmove)).2
  · exact moveFiles_of_no_source h fun src hsrc =>
      Bool.eq_false_iff.2 fun hthere => hp ⟨src, hsrc, hthere⟩

/-- Nothing is lost when files are moved: those that start as given are moved in order, up to
the first that the other directory does not take. -/
theorem moveFiles_relocates_shown (d : Disk) (source : Path) (start : String) (target : Path) :
    ((∀ src, d.resolve source = .ok src → d.tree.isDirectory src = false) →
      moveFiles source start target d = (.ok 0, d)) ∧
    ∀ src, d.resolve source = .ok src → d.tree.isDirectory src = true →
      ∃ names, names.Pairwise (· < ·) ∧
        (∀ n, n ∈ names ↔ start.toList <+: n.toList ∧ d.ShowsFile source src n) ∧
        ((∀ dst, ¬ d.Enters target dst) →
          ∃ r, moveFiles source start target d = (r, d) ∧
            EndsAfter source names [] (fun _ => True) r) ∧
        ∀ dst, (d.without (d.overwritten dst names)).Enters source src →
          (d.without (d.overwritten dst names)).Enters target dst →
          ∃ moved r d', moveFiles source start target d = (r, d') ∧
            Relocates moved src dst d d' ∧ (∀ n ∈ moved, d.Takes target dst n) ∧
            EndsAfter source names moved (fun n => ¬ d.Takes target dst n) r := by
  refine ⟨fun hp => moveFiles_eq (filesMatching_nil hp) rfl, fun src hp hdir => ?_⟩
  have henters := (resolve_eq_ok_iff.1 hp).enters hdir
  obtain ⟨names, hnames, hsorted, hmem⟩ := exists_matching hp hdir start
  have hshown : ∀ n ∈ names, d.Removable source src n := fun n hn =>
    ((hmem n).1 hn).2.removable henters
  exact ⟨names, hsorted, hmem, moveFiles_of_nowhere hnames fun n hn => ((hmem n).1 hn).2.isName,
    fun dst hsource htarget =>
      moveFiles_of_enters hnames hshown (hsorted.imp String.ne_of_lt) hsource htarget⟩

/-- Of the maps in one directory, the first replaces a file of the other one, the second is a
link, and the third meets a directory. -/
def heaped : Disk :=
  .holding [(["a"], .directory 0o755), (["map_1", "a"], .file [1] 0o600),
    (["map_2", "a"], .link ⟨"map_1"⟩), (["map_3", "a"], .file [3] 0o644),
    (["map_4", "a"], .file [4] 0o644), (["b"], .directory 0o755),
    (["map_1", "b"], .file [] 0o644), (["map_3", "b"], .directory 0o755)]

theorem moveFiles_stops_at_directory : heaped.resolve ⟨"/a"⟩ = .ok ["a"] ∧
    heaped.tree.isDirectory ["a"] = true ∧
    ∃ names moved d', names.Pairwise (· < ·) ∧
      (∀ n, n ∈ names ↔ "map_".toList <+: n.toList ∧ heaped.ShowsFile ⟨"/a"⟩ ["a"] n) ∧
      (heaped.without (heaped.overwritten ["b"] names)).Enters ⟨"/a"⟩ ["a"] ∧
      (heaped.without (heaped.overwritten ["b"] names)).Enters ⟨"/b"⟩ ["b"] ∧
      moveFiles ⟨"/a"⟩ "map_" ⟨"/b"⟩ heaped =
        (.error (.disk ⟨"/a/map_3"⟩ (.system .isDirectory)), d') ∧
      Relocates moved ["a"] ["b"] heaped d' ∧ (∀ n ∈ moved, heaped.Takes ⟨"/b"⟩ ["b"] n) ∧
      EndsAfter ⟨"/a"⟩ names moved (fun n => ¬ heaped.Takes ⟨"/b"⟩ ["b"] n)
        (.error (.disk ⟨"/a/map_3"⟩ (.system .isDirectory))) := by
  have hp : heaped.resolve ⟨"/a"⟩ = .ok ["a"] := by decide +kernel
  have hdir : heaped.tree.isDirectory ["a"] = true := by decide +kernel
  obtain ⟨names, hsorted, hmem, _, hmove⟩ :=
    (moveFiles_relocates_shown heaped ⟨"/a"⟩ "map_" ⟨"/b"⟩).2 ["a"] hp hdir
  have hclear : (heaped.clear ["b"]).resolve ⟨"/a"⟩ = .ok ["a"] ∧
      (heaped.clear ["b"]).resolve ⟨"/b"⟩ = .ok ["b"] ∧
      heaped.tree.isDirectory ["b"] = true := by decide +kernel
  have hsource : (heaped.without (heaped.overwritten ["b"] names)).Enters ⟨"/a"⟩ ["a"] :=
    enters_without_inside exists_of_mem_overwritten ((resolve_eq_ok_iff.1 hclear.1).enters_clear hdir)
  have htarget : (heaped.without (heaped.overwritten ["b"] names)).Enters ⟨"/b"⟩ ["b"] :=
    enters_without_inside exists_of_mem_overwritten
      ((resolve_eq_ok_iff.1 hclear.2.1).enters_clear hclear.2.2)
  obtain ⟨moved, r, d', hrun, hmoved, htaken, hend⟩ := hmove ["b"] hsource htarget
  have hfault : (moveFiles ⟨"/a"⟩ "map_" ⟨"/b"⟩ heaped).1 =
      .error (.disk ⟨"/a/map_3"⟩ (.system .isDirectory)) := by decide +kernel
  rw [hrun] at hfault
  cases hfault
  exact ⟨hp, hdir, names, moved, d', hsorted, hmem, hsource, htarget, hrun, hmoved, htaken, hend⟩

/-- A link that is moved onto the way to the other directory leads elsewhere from there, and
the next file goes where it leads. -/
theorem moveFiles_follows_moved_link :
    let d : Disk := .holding [(["from"], .directory 0o755), (["f", "from"], .file [] 0o644),
      (["map_a", "from"], .link ⟨"f"⟩), (["map_b", "from"], .file [] 0o644),
      (["other"], .directory 0o755), (["x", "other"], .link ⟨"/to"⟩), (["to"], .directory 0o755),
      (["map_a", "to"], .link ⟨"/other"⟩), (["f", "to"], .directory 0o755),
      (["x", "f", "to"], .directory 0o755)]
    let moved := moveFiles ⟨"/from"⟩ "map_" ⟨"/to/map_a/x"⟩ d
    d.resolve ⟨"/to/map_a/x"⟩ = .ok ["to"] ∧ moved.1 = .ok 2 ∧
      moved.2.tree.find ["map_b", "to"] = none ∧
      moved.2.tree.find ["map_b", "x", "f", "to"] = some (.file [] 0o644) := by
  decide +kernel

end WorkDir
end PointsTo
