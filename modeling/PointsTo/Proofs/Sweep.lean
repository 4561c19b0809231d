import PointsTo.Proofs.Gather

/-!
The files that a loop over a directory finds, and the sweep that takes the tuples among
them away. All of them are chosen before the first one goes, so it does not matter that
one may be a link to another.
-/

namespace PointsTo

namespace Disk

variable {d d' : Disk} {p : Path} {dir : Location} {n : String}

/-- Under a name of a directory the path shows a file: a file stands there and the system
takes its path, or a link stands there from which the path leads to a file. -/
inductive ShowsFile (d : Disk) (p : Path) (dir : Location) (n : String) : Prop where
  | file {data : Bytes} {mode : Nat} : d.tree.find (n :: dir) = some (.file data mode) →
      n.utf8ByteSize ≤ Tree.maxNameBytes → checkText (p / n) = .ok () → ShowsFile d p dir n
  | link {target : Path} {l : Location} {data : Bytes} {mode : Nat} :
      d.tree.find (n :: dir) = some (.link target) → d.resolve (p / n) = .ok l →
      d.tree.find l = some (.file data mode) → ShowsFile d p dir n

theorem checkText_of_place {x : Option Location} (h : d.place p = .ok x) :
    checkText p = .ok () := by
  obtain ⟨_, hstart, _⟩ := bind_eq_ok_iff.1 h
  obtain ⟨_, hc, _⟩ := bind_eq_ok_iff.1 hstart
  exact hc

theorem isFile_div {data : Bytes} {mode : Nat} (hdir : d.Enters p dir) (hn : FitsDirectory n)
    (hc : checkText (p / n) = .ok ()) (h : d.tree.find (n :: dir) = some (.file data mode)) :
    d.isFile (p / n) = true := by
  have hchild : d.tree.child? dir n = .ok (some (.file data mode)) :=
    Tree.child?_eq_ok_iff.2 ⟨hdir.1, hn.2, h⟩
  unfold isFile
  rw [entry_div hn.1 hdir (by simp [h]), hc, hchild]
  rfl

/-- A name that leads to something is short enough to be looked up. -/
theorem child?_of_isFile (hdir : d.Enters p dir) (hn : IsName n) (h : d.isFile (p / n) = true) :
    checkText (p / n) = .ok () ∧ ∃ e, d.tree.child? dir n = .ok (some e) := by
  obtain ⟨l, _, _, hl, _⟩ := isFile_iff.1 h
  have hreach := resolve_eq_ok_iff.1 hl
  refine ⟨hreach.1, ?_⟩
  rw [Path.steps_div p hn] at hreach
  obtain ⟨mid, hmid, hw⟩ := hreach.split
  cases hdir.2.unique ((walksTo_div_iff hn).1 hmid.2)
  exact Tree.exists_child_of_walkWithin hw

theorem showsFile_iff (hdir : d.Enters p dir) :
    d.ShowsFile p dir n ↔ (∃ e, d.tree.find (n :: dir) = some e) ∧ d.isFile (p / n) = true := by
  constructor
  · intro h
    cases h with
    | file hfile hshort hc =>
        exact ⟨⟨_, hfile⟩, isFile_div hdir ⟨Tree.isName_of_find hfile, hshort⟩ hc hfile⟩
    | link hlink hl hfile => exact ⟨⟨_, hlink⟩, isFile_iff.2 ⟨_, _, _, hl, hfile⟩⟩
  · rintro ⟨⟨e, he⟩, hseen⟩
    have hn := Tree.isName_of_find he
    obtain ⟨hc, e', hchild⟩ := child?_of_isFile hdir hn hseen
    obtain ⟨l, data, mode, hl, hfile⟩ := isFile_iff.1 hseen
    cases e with
    | link target => exact .link he hl hfile
    | file data' mode' => exact .file he (Tree.child?_eq_ok_iff.1 hchild).2.1 hc
    | directory mode' =>
        -- the path would lead to the directory itself
        have hlast := (resolveLast_div_iff hn).2 ⟨hc, hdir, rfl⟩
        cases eq_of_reaches hlast (by simp [he]) (resolve_eq_ok_iff.1 hl)
        cases he.symm.trans hfile

theorem ShowsFile.isName (h : d.ShowsFile p dir n) : IsName n := by
  cases h with
  | file hfile => exact Tree.isName_of_find hfile
  | link hlink => exact Tree.isName_of_find hlink

structure Removable (d : Disk) (p : Path) (dir : Location) (n : String) : Prop where
  text : checkText (p / n) = .ok ()
  child : ∃ e, d.tree.child? dir n = .ok (some e)
  aside : d.tree.IsAside (n :: dir)

/-- The names are gone from a directory, and nothing else is changed. -/
structure Removes (names : List String) (dir : Location) (d d' : Disk) : Prop where
  gone : ∀ n ∈ names, d'.tree.find (n :: dir) = none
  others : ∀ k, (∀ n ∈ names, k ≠ n :: dir) → d'.tree.find k = d.tree.find k
  cwd : d'.cwd = d.cwd
  lost : d'.lost = d.lost

section Remove

variable {m : String} {names : List String}

theorem ShowsFile.removable (h : d.ShowsFile p dir n) (hdir : d.Enters p dir) :
    d.Removable p dir n := by
  obtain ⟨⟨e, he⟩, hseen⟩ := (showsFile_iff hdir).1 h
  have hn := Tree.isName_of_find he
  obtain ⟨hc, hchild⟩ := child?_of_isFile hdir hn hseen
  exact ⟨hc, hchild, isAside_of_isFile hdir hn hseen⟩

theorem Removable.unlink (h : d.Removable p dir n) (hdir : d.Enters p dir) :
    d.unlink (p / n) = .ok (d.remove (n :: dir)) := by
  obtain ⟨e, he⟩ := h.child
  have hfind := (Tree.child?_eq_ok_iff.1 he).2.2
  refine unlink_eq ((resolveLast_div_iff (Tree.isName_of_find hfind)).2 ⟨h.text, hdir, rfl⟩) he ?_
  rw [← Tree.isDirectory_eq_of_find hfind]
  exact h.aside.directory

theorem removes_remove (h : d.tree.isDirectory (n :: dir) = false) :
    Removes [n] dir d (d.remove (n :: dir)) where
  gone := fun m hm => by
    rw [List.mem_singleton.1 hm, tree_remove, Tree.find_remove_of_not_directory h, if_pos rfl]
  others := fun k hk => by
    rw [tree_remove, Tree.find_remove_of_not_directory h, if_neg (hk n List.mem_cons_self)]
  cwd := (remove_stays h).1
  lost := (remove_stays h).2

theorem Removes.cons {d₁ : Disk} (h : Removes [n] dir d d₁) (h' : Removes names dir d₁ d') :
    Removes (n :: names) dir d d' where
  gone := by
    refine List.forall_mem_cons.2 ⟨?_, h'.gone⟩
    by_cases hn : n ∈ names
    · exact h'.gone n hn
    · rw [h'.others _ fun m hm heq => hn (by rwa [(List.cons.inj heq).1])]
      exact h.gone n List.mem_cons_self
  others := fun k hk => by
    obtain ⟨hn, hk⟩ := List.forall_mem_cons.1 hk
    rw [h'.others k hk, h.others k fun m hm => by rwa [List.mem_singleton.1 hm]]
  cwd := h'.cwd.trans h.cwd
  lost := h'.lost.trans h.lost

theorem Removes.sweeps (h : Removes names dir d d') : Sweeps names dir d d' := by
  refine ⟨fun k => ?_, h.cwd, h.lost⟩
  by_cases hk : ∃ n ∈ names, k = n :: dir
  · obtain ⟨n, hn, rfl⟩ := hk
    exact Or.inr ⟨h.gone n hn, n, hn, rfl⟩
  · exact Or.inl (h.others k fun n hn heq => hk ⟨n, hn, heq⟩)

/-- What is left was there before. -/
theorem Removes.find_of_find (h : Removes names dir d d') {k : Location} {e : Entry}
    (he : d'.tree.find k = some e) : d.tree.find k = some e ∧ ∀ n ∈ names, k ≠ n :: dir := by
  have hout : ∀ n ∈ names, k ≠ n :: dir := by
    rintro n hn rfl
    cases (h.gone n hn).symm.trans he
  exact ⟨(h.others k hout).symm.trans he, hout⟩

/-- There are no further ways once something is gone. -/
theorem Removes.back (h : Removes names dir d d') : d'.KeepsWays d := by
  refine keepsWays_of_find (fun k => ∃ n ∈ names, k = n :: dir) (fun {k} hk => ?_) ?_ h.cwd.symm
    h.lost.symm
  · exact (h.others k fun n hn heq => hk ⟨n, hn, heq⟩).symm
  · rintro k ⟨n, hn, rfl⟩
    exact Tree.isAside_of_none (h.gone n hn) nofun

theorem Removable.other (h : d.Removable p dir n) (hm : d.Removable p dir m) (hne : m ≠ n) :
    (d.remove (n :: dir)).Removable p dir m := by
  have hremoves := removes_remove h.aside.directory
  obtain ⟨e, he⟩ := hm.child
  obtain ⟨hdir, hshort, hfind⟩ := Tree.child?_eq_ok_iff.1 he
  have hsame : (d.remove (n :: dir)).tree.find (m :: dir) = d.tree.find (m :: dir) :=
    hremoves.others _ (by simp [hne])
  refine ⟨hm.text, ⟨e, Tree.child?_eq_ok_iff.2 ⟨?_, hshort, hsame.trans hfind⟩⟩, ?_⟩
  · exact (keepsWays_remove h.aside).directory hdir
  · exact hremoves.back.isAside hm.aside hsame nofun

/-- A file that is shown was shown before something else went away. -/
theorem Removes.showsFile (h : Removes names dir d d') (hdir : d.Enters p dir)
    (hdir' : d'.Enters p dir) (hn : d'.ShowsFile p dir n) : d.ShowsFile p dir n ∧ n ∉ names := by
  obtain ⟨⟨e, he⟩, hseen⟩ := (showsFile_iff hdir').1 hn
  obtain ⟨hfind, hout⟩ := h.find_of_find he
  obtain ⟨l, data, mode, hl, hfile⟩ := isFile_iff.1 hseen
  have hleads : d'.LeadsTo d l := ⟨.of_keeps (fun he => (h.find_of_find he).1) l, 0, h.cwd, h.lost⟩
  refine ⟨(showsFile_iff hdir).2 ⟨⟨e, hfind⟩, isFile_iff.2 ⟨l, data, mode, ?_, (h.find_of_find hfile).1⟩⟩,
    fun hmem => hout n hmem rfl⟩
  exact resolve_eq_ok_iff.2 ((resolve_eq_ok_iff.1 hl).of_leadsTo hleads)

end Remove
end Disk

namespace WorkDir

open Disk

variable {d d' : Disk} {p : Path} {dir : Location} {names : List String} {accept : String → Bool}

theorem extensionOf?_eq_some_iff {name extension : String} :
    Path.extensionOf? name = some extension ↔
      '.' ∉ extension.toList ∧ ∃ stem, stem ≠ "" ∧ name = stem ++ "." ++ extension := by
  unfold Path.extensionOf?
  constructor
  · intro h
    dsimp only at h
    split at h
    · next c c' rest hdrop =>
      cases h
      have hdot : c = '.' := by
        have hhead := List.head?_dropWhile_not (· ≠ '.') name.toList.reverse
        rw [hdrop] at hhead
        simpa using hhead
      have hwhole := List.takeWhile_append_dropWhile (p := (· ≠ '.')) (l := name.toList.reverse)
      rw [hdrop, hdot] at hwhole
      refine ⟨fun hmem => ?_, String.ofList (c' :: rest).reverse, by simp, ?_⟩
      · rw [String.toList_ofList, List.mem_reverse] at hmem
        have hall := List.all_eq_true.1 List.all_takeWhile _ hmem
        simp at hall
      · rw [← String.toList_inj, ← List.reverse_inj]
        refine hwhole.symm.trans ?_
        simp
    · cases h
  · rintro ⟨hdot, stem, hne, rfl⟩
    have hrun : ∀ c ∈ extension.toList.reverse, (decide (c ≠ '.')) = true := fun c hc => by
      rw [decide_eq_true_eq]
      rintro rfl
      exact hdot (List.mem_reverse.1 hc)
    have hreversed : (stem ++ "." ++ extension).toList.reverse =
        extension.toList.reverse ++ '.' :: stem.toList.reverse := by simp
    obtain ⟨c, rest, hstem⟩ :=
      List.exists_cons_of_ne_nil (l := stem.toList.reverse) (by simpa using hne)
    dsimp only
    rw [hreversed, List.takeWhile_append_of_pos hrun, List.dropWhile_append_of_pos hrun, hstem]
    simp

def NamesTuples (n : String) : Prop :=
  ∃ stem, stem ≠ "" ∧ n = stem ++ ".tuples"

theorem isTuples_iff {n : String} : isTuples n = true ↔ NamesTuples n := by
  rw [isTuples, decide_eq_true_eq, extensionOf?_eq_some_iff]
  constructor
  · rintro ⟨_, stem, hne, rfl⟩
    exact ⟨stem, hne, by rw [String.append_assoc]; rfl⟩
  · rintro ⟨stem, hne, rfl⟩
    exact ⟨by decide, stem, hne, by rw [String.append_assoc]; rfl⟩

/-- Where there is a directory, the names of all the files that it shows are found, in order. -/
theorem filesMatching_ok (hp : d.resolve p = .ok dir) (hdir : d.tree.isDirectory dir = true)
    (accept : String → Bool) :
    ∃ names, filesMatching d p accept = .ok names ∧ names.Pairwise (· < ·) ∧
      ∀ n, n ∈ names ↔ d.ShowsFile p dir n ∧ accept n = true := by
  have hreach := resolve_eq_ok_iff.1 hp
  have henters := hreach.enters hdir
  refine ⟨((d.tree.children dir).map Prod.fst).filter fun n => d.isFile (p / n) && accept n, ?_,
    (d.tree.sorted_children dir).filter _, fun n => ?_⟩
  · unfold filesMatching
    rw [if_pos (isDirectory_of_enters henters hreach.1), list_of_reaches hreach hdir, mapError_ok]
    rfl
  · rw [showsFile_iff henters, List.mem_filter, Bool.and_eq_true, ← and_assoc]
    have hchild : n ∈ (d.tree.children dir).map Prod.fst ↔ ∃ e, d.tree.find (n :: dir) = some e := by
      simp [Tree.mem_children]
    rw [hchild]

theorem filesMatching_nil (hp : ∀ dir, d.resolve p = .ok dir → d.tree.isDirectory dir = false) :
    filesMatching d p accept = .ok [] := by
  unfold filesMatching
  split
  · next hseen =>
    rcases isDirectory_iff.1 hseen with hgone | ⟨dir, hdir, hthere⟩
    · simp [list, hgone, Bind.bind, Except.bind, mapError_ok]
    · cases (hp dir hdir).symm.trans hthere
  · rfl

theorem forEach_unlink (hdir : d.Enters p dir) (hnames : ∀ n ∈ names, d.Removable p dir n)
    (hnodup : names.Nodup) :
    ∃ d', forEach (fun name => change (p / name) (·.unlink (p / name))) names d = (.ok (), d') ∧
      Removes names dir d d' := by
  induction names generalizing d with
  | nil => exact ⟨d, rfl, nofun, fun _ _ => rfl, rfl, rfl⟩
  | cons name names ih =>
      obtain ⟨hname, hnames⟩ := List.forall_mem_cons.1 hnames
      obtain ⟨hnew, hnodup⟩ := List.nodup_cons.1 hnodup
      have hways := keepsWays_remove hname.aside
      obtain ⟨d', hrest, hremoves⟩ := ih (hways.enters hdir)
        (fun m hm => hname.other (hnames m hm) fun heq => hnew (heq ▸ hm)) hnodup
      refine ⟨d', ?_, (removes_remove hname.aside.directory).cons hremoves⟩
      rw [forEach_ok (change_ok (hname.unlink hdir))]
      exact hrest

theorem clearTuples_eq {d₁ : Disk} (hnames : filesMatching d p isTuples = .ok names)
    (hrounds : forEach (fun name => change (p / name) (·.unlink (p / name))) names d = (.ok (), d₁)) :
    clearTuples p d = (.ok names.length, d₁) := by
  have hlook : Attempt.look (filesMatching · p isTuples) d = (.ok names, d) := by
    rw [Attempt.look_apply, hnames]
  rw [clearTuples, Attempt.bind_ok hlook, Attempt.bind_ok hrounds]
  rfl

theorem clearTuples_of_directory (hp : d.resolve p = .ok dir)
    (hdir : d.tree.isDirectory dir = true) :
    ∃ names d', clearTuples p d = (.ok names.length, d') ∧ names.Nodup ∧
      (∀ n, n ∈ names ↔ NamesTuples n ∧ d.ShowsFile p dir n) ∧ Removes names dir d d' ∧
      d.KeepsWays d' := by
  have henters := (resolve_eq_ok_iff.1 hp).enters hdir
  obtain ⟨names, hnames, hsorted, hmem⟩ := filesMatching_ok hp hdir isTuples
  have hshown : ∀ n ∈ names, d.Removable p dir n := fun n hn =>
    ((hmem n).1 hn).1.removable henters
  have hnodup : names.Nodup := hsorted.imp String.ne_of_lt
  obtain ⟨d', hrounds, hremoves⟩ := forEach_unlink henters hshown hnodup
  refine ⟨names, d', clearTuples_eq hnames hrounds, hnodup, fun n => ?_, hremoves, ?_⟩
  · rw [hmem, isTuples_iff, and_comm]
  · exact hremoves.sweeps.keepsWays fun n hn => (hshown n hn).aside

/-- What a sweep does at most. -/
theorem clearTuples_cases {r : Except Failure Nat} (h : clearTuples p d = (r, d')) :
    d' = d ∨ ∃ names dir, d.Reaches p p.steps dir ∧ Sweeps names dir d d' ∧ d.KeepsWays d' ∧
      d.tree.isDirectory dir = true ∧
      ∀ n ∈ names, IsName n ∧ d.isFile (p / n) = true ∧ isTuples n = true := by
  by_cases hp : ∃ dir, d.resolve p = .ok dir ∧ d.tree.isDirectory dir = true
  · obtain ⟨dir, hp, hdir⟩ := hp
    obtain ⟨names, d₁, hclear, _, hmem, hremoves, hways⟩ := clearTuples_of_directory hp hdir
    cases h.symm.trans hclear
    have hreach := resolve_eq_ok_iff.1 hp
    refine Or.inr ⟨names, dir, hreach, hremoves.sweeps, hways, hdir, fun n hn => ?_⟩
    obtain ⟨htuples, hshown⟩ := (hmem n).1 hn
    exact ⟨hshown.isName, ((showsFile_iff (hreach.enters hdir)).1 hshown).2, isTuples_iff.2 htuples⟩
  · have hnames : filesMatching d p isTuples = .ok [] := filesMatching_nil fun dir hdir =>
      Bool.eq_false_iff.2 fun hthere => hp ⟨dir, hdir, hthere⟩
    cases h.symm.trans (clearTuples_eq hnames rfl)
    exact Or.inl rfl

/-- A sweep takes away exactly the tuples that the directory shows, and counts them. Where
there is no directory it does nothing, and a second one finds nothing. -/
theorem clearTuples_removes_exactly (d : Disk) (p : Path) :
    ((∀ dir, d.resolve p = .ok dir → d.tree.isDirectory dir = false) →
      clearTuples p d = (.ok 0, d)) ∧
    ∀ dir, d.resolve p = .ok dir → d.tree.isDirectory dir = true →
      ∃ names d', clearTuples p d = (.ok names.length, d') ∧ names.Nodup ∧
        (∀ n, n ∈ names ↔ NamesTuples n ∧ d.ShowsFile p dir n) ∧ Removes names dir d d' ∧
        clearTuples p d' = (.ok 0, d') := by
  refine ⟨fun hp => clearTuples_eq (filesMatching_nil hp) rfl, fun dir hp hdir => ?_⟩
  obtain ⟨names, d', hclear, hnodup, hmem, hremoves, hways⟩ := clearTuples_of_directory hp hdir
  refine ⟨names, d', hclear, hnodup, hmem, hremoves, ?_⟩
  have hreach := resolve_eq_ok_iff.1 hp
  have henters := hways.enters (hreach.enters hdir)
  obtain ⟨left, hleft, _, hmem'⟩ :=
    filesMatching_ok (resolve_eq_ok_iff.2 (henters.reaches hreach.1)) henters.1 isTuples
  have hnone : left = [] := by
    refine List.eq_nil_iff_forall_not_mem.2 fun n hn => ?_
    obtain ⟨hshown, htuples⟩ := (hmem' n).1 hn
    obtain ⟨hbefore, hnew⟩ := hremoves.showsFile (hreach.enters hdir) henters hshown
    exact hnew ((hmem n).2 ⟨isTuples_iff.1 htuples, hbefore⟩)
  rw [hnone] at hleft
  exact clearTuples_eq hleft rfl

def stale : Disk :=
  .holding [(["d"], .directory 0o755), ([".tuples", "d"], .file [] 0o644),
    (["a.b.tuples", "d"], .file [] 0o600), (["dir.tuples", "d"], .directory 0o755),
    (["gone.tuples", "d"], .link ⟨"nowhere"⟩), (["kept", "d"], .file [] 0o644),
    (["l.tuples", "d"], .link ⟨"a.b.tuples"⟩), (["m.tuples", "d"], .link ⟨"kept"⟩),
    (["x.tuples.bak", "d"], .file [] 0o644)]

theorem clearTuples_removes_three : stale.resolve ⟨"/d"⟩ = .ok ["d"] ∧
    stale.tree.isDirectory ["d"] = true ∧
    ∃ names d', names.length = 3 ∧ clearTuples ⟨"/d"⟩ stale = (.ok names.length, d') ∧
      names.Nodup ∧ (∀ n, n ∈ names ↔ NamesTuples n ∧ stale.ShowsFile ⟨"/d"⟩ ["d"] n) ∧
      Removes names ["d"] stale d' ∧ clearTuples ⟨"/d"⟩ d' = (.ok 0, d') := by
  obtain ⟨hp, hdir, hcount⟩ : stale.resolve ⟨"/d"⟩ = .ok ["d"] ∧
      stale.tree.isDirectory ["d"] = true ∧ (clearTuples ⟨"/d"⟩ stale).1 = .ok 3 := by
    decide +kernel
  obtain ⟨names, d', hclear, hrest⟩ := (clearTuples_removes_exactly stale ⟨"/d"⟩).2 ["d"] hp hdir
  rw [hclear] at hcount
  exact ⟨hp, hdir, names, d', Except.ok.inj hcount, hclear, hrest⟩

end WorkDir
end PointsTo
