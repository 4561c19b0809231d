import PointsTo.Proofs.Lists
import PointsTo.Proofs.Stale

/-!
The number of files that emptying a directory reports. It is found by one traversal,
by way of paths, and the removal is another, by way of the tree. The first follows
links and the second does not, so the two are compared where no path in the directory
shows a directory in the place of something else, or hides one.
-/

namespace PointsTo

namespace Tree

variable {t : Tree} {l : Location} {e : Entry}

theorem mem_entries {x : Location × Entry} : x ∈ t.entries ↔ t.find x.1 = some x.2 :=
  (Table.find_eq_some_iff t.ordered).symm

theorem nodup_entries (t : Tree) : (t.entries.map Prod.fst).Nodup := by
  refine List.pairwise_map.2 (t.ordered.imp fun {x y} hlt heq => ?_)
  rw [heq] at hlt
  exact List.lt_irrefl _ hlt

def filesWithin (t : Tree) (l : Location) : Nat :=
  t.entries.countP fun x => isWithin l x.1 && !x.2.isDirectory

theorem filesWithin_of_file (h : t.find l = some e) (he : e.isDirectory = false) :
    t.filesWithin l = 1 := by
  have hmem : (l, e) ∈ t.entries := mem_entries.2 h
  rw [filesWithin, ← countP_eq_one t.nodup_entries hmem]
  refine List.countP_congr fun x hx => ?_
  have hfind := mem_entries.1 hx
  rw [Bool.and_eq_true, decide_eq_true_eq]
  constructor
  · rintro ⟨hw, _⟩
    refine Decidable.byContradiction fun hne => ?_
    have hdir := isDirectory_of_find_within hfind hw (Ne.symm hne)
    rw [isDirectory_eq_of_find h, he] at hdir
    cases hdir
  · intro heq
    rw [heq, h] at hfind
    cases hfind
    rw [heq, he]
    exact ⟨isWithin_iff.2 (List.suffix_refl l), rfl⟩

theorem ne_of_file {k : Location} (h : t.isDirectory l = true) (hk : t.find k = some e)
    (he : e.isDirectory = false) : k ≠ l := by
  rintro rfl
  rw [isDirectory_eq_of_find hk, he] at h
  cases h

theorem exists_name_of_inside {k : Location} (h : Inside l k) :
    ∃ name, isWithin (name :: l) k = true := by
  obtain ⟨names, rfl⟩ := isWithin_iff.1 h.1
  rcases List.eq_nil_or_concat names with rfl | ⟨before, name, rfl⟩
  · exact absurd rfl h.2
  · exact ⟨name, isWithin_iff.2 ⟨before, by simp⟩⟩

/-- What is in a directory is one of its children or in one of them. -/
theorem filesWithin_eq_sum (h : t.isDirectory l = true) :
    t.filesWithin l = ((t.children l).map fun c => t.filesWithin (c.1 :: l)).sum := by
  refine countP_eq_sum_shares fun x hx => ?_
  have hfind := mem_entries.1 hx
  split
  · next hcounts =>
    rw [Bool.and_eq_true, Bool.not_eq_true'] at hcounts
    obtain ⟨hw, he⟩ := hcounts
    obtain ⟨name, hname⟩ := exists_name_of_inside ⟨hw, ne_of_file h hfind he⟩
    obtain ⟨e, hchild⟩ : ∃ e, t.find (name :: l) = some e := by
      by_cases hself : name :: l = x.1
      · exact ⟨x.2, hself ▸ hfind⟩
      · obtain ⟨mode, hmode⟩ :=
          isDirectory_cons_iff.1 (isDirectory_of_find_within hfind hname hself)
        exact ⟨_, hmode⟩
    rw [← countP_eq_one (t.nodup_children l) (mem_children.2 hchild)]
    refine List.countP_congr fun c _ => ?_
    rw [Bool.and_eq_true, he, decide_eq_true_eq]
    constructor
    · rintro ⟨hc, _⟩
      exact eq_of_isWithin_cons hc hname
    · intro hc
      exact ⟨hc ▸ hname, rfl⟩
  · next hcounts =>
    refine List.countP_eq_zero.2 fun c _ hc => hcounts ?_
    rw [Bool.and_eq_true] at hc ⊢
    exact ⟨(inside_of_isWithin_cons hc.1).1, hc.2⟩

end Tree

def Path.below (p : Path) : List String → Path
  | [] => p
  | name :: names => p.below names / name

theorem Path.length_div (p : Path) {name : String} (h : IsName name) :
    p.text.utf8ByteSize < (p / name).text.utf8ByteSize := by
  have hpos : name.utf8ByteSize ≠ 0 := fun hzero => h.1 (String.utf8ByteSize_eq_zero_iff.1 hzero)
  change _ < (p.join ⟨name⟩).text.utf8ByteSize
  rw [join, if_neg (by simp [isAbsolute_of_isName h])]
  split
  · simp only [String.utf8ByteSize_append]
    omega
  · simp only [String.utf8ByteSize_append]
    omega

namespace Disk

variable {d d' : Disk} {dir p : Path} {l r : Location} {names : List String} {n : Nat}

/-- Under its path, each entry in a directory is seen as a directory exactly if it is one. -/
def Shows (d : Disk) (dir : Path) (l : Location) : Prop :=
  ∀ names e, d.tree.find (names ++ l) = some e → d.isDirectory (dir.below names) = e.isDirectory

theorem shows_iff : d.Shows dir l ↔ ∀ x ∈ d.tree.entries, Tree.isWithin l x.1 = true →
    d.isDirectory (dir.below (x.1.take (x.1.length - l.length))) = x.2.isDirectory := by
  constructor
  · intro h x hx hw
    obtain ⟨names, hnames⟩ := Tree.isWithin_iff.1 hw
    rw [← hnames, List.length_append, Nat.add_sub_cancel, List.take_left]
    refine h names x.2 ?_
    rw [hnames]
    exact Tree.mem_entries.1 hx
  · intro h names e he
    have hx := h (names ++ l, e) (Tree.mem_entries.2 he) (Tree.isWithin_iff.2 (List.suffix_append _ _))
    rwa [List.length_append, Nat.add_sub_cancel, List.take_left] at hx

instance (d : Disk) (dir : Path) (l : Location) : Decidable (d.Shows dir l) :=
  decidable_of_iff _ shows_iff.symm

/-- The entries of a disk, other than directories, that another one does not have. -/
def filesGone (d d' : Disk) : List (Location × Entry) :=
  d.tree.entries.filter fun x => !x.2.isDirectory && d'.tree.find x.1 ≠ some x.2

theorem filesGone_self (d : Disk) : d.filesGone d = [] := by
  refine List.filter_eq_nil_iff.2 fun x hx => ?_
  simp [Tree.mem_entries.1 hx]

/-- Making directories brings no file back and takes none away. -/
theorem filesGone_of_grows {cleared : Disk} {made : Location → Prop} (hg : cleared.Grows d' made) :
    d.filesGone d' = d.filesGone cleared := by
  refine List.filter_congr fun x _ => ?_
  cases he : x.2.isDirectory with
  | true => rfl
  | false =>
      have hsame : d'.tree.find x.1 = some x.2 ↔ cleared.tree.find x.1 = some x.2 := by
        refine ⟨fun hnew => ?_, hg.keeps⟩
        cases hold : cleared.tree.find x.1 with
        | none =>
            rw [(hg.fresh hold hnew).1] at he
            cases he
        | some e => exact (hg.keeps hold).symm.trans hnew
      simp [hsame]

/-- Removing a directory takes away the files in it and no others. -/
theorem filesGone_of_removeAll (hown : ∀ target, d.linkEntry p ≠ .ok (.link target))
    (h : d.removeAll p = (.ok (), d')) :
    ∃ l, d.tree.isDirectory l = true ∧ d.Reaches p p.steps l ∧
      d.filesGone d' =
        d.tree.entries.filter fun x => Tree.isWithin l x.1 && !x.2.isDirectory := by
  obtain ⟨l, hl, ⟨_, target, hlink, _⟩ | ⟨hdir, hcleared⟩⟩ := removeAll_ok h
  · refine absurd ?_ (hown target)
    cases l with
    | nil => cases d.tree.rootless.symm.trans hlink
    | cons name above =>
        simp [linkEntry, hl, Bind.bind, Except.bind, entryAt, Tree.entry?, hlink]
  · have hfile : ∀ {k e}, d.tree.find k = some e → e.isDirectory = false →
        (d'.tree.find k = some e ↔ Tree.isWithin l k = false) := by
      intro k e hk he
      have hne := Tree.ne_of_file hdir hk he
      obtain ⟨_, _, _, _, rfl⟩ | ⟨_, rfl⟩ := hcleared <;>
        cases hw : Tree.isWithin l k <;> simp [hw, hne, hk]
    refine ⟨l, hdir, reaches_of_locate hl fun target ht => ?_, List.filter_congr fun x hx => ?_⟩
    · exact Tree.ne_of_file hdir ht rfl rfl
    · cases he : x.2.isDirectory with
      | true => simp
      | false => simp [hfile (Tree.mem_entries.1 hx) he]

theorem le_maxBytes (h : checkText p = .ok ()) : p.text.utf8ByteSize ≤ Path.maxBytes := by
  unfold checkText at h
  split at h
  · cases h
  · split at h
    · cases h
    · next hfits => simpa [Path.fits] using hfits

/-- A directory that is seen as one under its name is reached there. -/
theorem Reaches.child {name : String} {e : Entry} (h : d.Reaches p p.steps l)
    (hdir : d.tree.isDirectory l = true) (he : d.tree.find (name :: l) = some e)
    (hl : ∀ target, e ≠ .link target) (hseen : d.isDirectory (p / name) = true) :
    d.Reaches (p / name) (p / name).steps (name :: l) := by
  have hn := Tree.isName_of_find he
  have henters := h.enters hdir
  unfold isDirectory at hseen
  rw [entry_div hn henters (by simp [he, hl])] at hseen
  cases hc : checkText (p / name) with
  | error f => simp [hc, Bind.bind, Except.bind] at hseen
  | ok =>
      have hlast := (resolveLast_div_iff hn).2 ⟨hc, henters, rfl⟩
      cases hchild : d.tree.child? l name with
      | error f => simp [hc, hchild, Bind.bind, Except.bind, lift_error] at hseen
      | ok x =>
          obtain rfl : x = some e := (Tree.child?_eq_ok_iff.1 hchild).2.2.symm.trans he
          exact reaches_of_resolveLast hlast hchild hl nofun

end Disk

namespace WorkDir

open Disk

variable {d d' : Disk} {dir : Path} {l : Location} {names : List String} {n : Nat}

/-- A total that every step adds to is the sum of what they add. -/
theorem foldlM_add {f : Nat → String → Except Failure Nat} {xs : List String} {g : String → Nat}
    {start : Nat} (hstep : ∀ x ∈ xs, ∀ {total after}, f total x = .ok after → after = total + g x)
    (h : xs.foldlM f start = .ok n) : n = start + (xs.map g).sum := by
  induction xs generalizing start with
  | nil =>
      cases h
      rfl
  | cons x xs ih =>
      rw [List.foldlM_cons] at h
      obtain ⟨after, hfirst, hrest⟩ := bind_eq_ok_iff.1 h
      rw [ih (fun y hy => hstep y (List.mem_cons_of_mem _ hy)) hrest,
        hstep x List.mem_cons_self hfirst, List.map_cons, List.sum_cons, Nat.add_assoc]

/-- The count by way of paths is that of the tree. What bounds the depth is never reached,
because a path that leads to a directory is short enough. -/
theorem countWithin_eq {depth : Nat} (hshows : d.Shows dir l)
    (hreach : d.Reaches (dir.below names) (dir.below names).steps (names ++ l))
    (hdir : d.tree.isDirectory (names ++ l) = true)
    (hdepth : Path.maxBytes < depth + (dir.below names).text.utf8ByteSize)
    (h : countWithin d depth (dir.below names) = .ok n) :
    n = d.tree.filesWithin (names ++ l) := by
  induction depth generalizing names n with
  | zero =>
      have hfits := le_maxBytes hreach.1
      omega
  | succ depth ih =>
      unfold countWithin at h
      rw [list_of_reaches hreach hdir, mapError_ok] at h
      have hsum := foldlM_add (g := fun name => d.tree.filesWithin (name :: (names ++ l)))
        (fun name hname {total after} hstep => ?_) h
      · rw [hsum, Nat.zero_add, List.map_map, Tree.filesWithin_eq_sum hdir]
        rfl
      · obtain ⟨⟨name, e⟩, hchild, rfl⟩ := List.mem_map.1 hname
        have hfind := Tree.mem_children.1 hchild
        have hseen := hshows (name :: names) e hfind
        dsimp only at hstep
        split at hstep
        · next hisdir =>
          obtain ⟨inside, hcount, hstep⟩ := bind_eq_ok_iff.1 hstep
          cases hstep
          have he : e.isDirectory = true := hseen.symm.trans hisdir
          have hchild := hreach.child hdir hfind (by rintro _ rfl; cases he) hisdir
          have hlonger := (dir.below names).length_div (Tree.isName_of_find hfind)
          have hdepth' : Path.maxBytes < depth + (dir.below names / name).text.utf8ByteSize := by
            omega
          have hinside : inside = d.tree.filesWithin (name :: names ++ l) :=
            ih hchild ((Tree.isDirectory_eq_of_find hfind).trans he) hdepth' hcount
          exact congrArg (total + ·) hinside
        · next hisdir =>
          cases hstep
          have he : e.isDirectory = false := hseen.symm.trans (Bool.eq_false_iff.2 hisdir)
          rw [Tree.filesWithin_of_file hfind he]

theorem countFiles_eq (hshows : d.Shows dir l) (hreach : d.Reaches dir dir.steps l)
    (hdir : d.tree.isDirectory l = true) (h : countFiles d dir = .ok n) :
    n = d.tree.filesWithin l :=
  @countWithin_eq d dir l [] n _ hshows hreach hdir (by omega) h

/-- The number that emptying a directory reports is the number of entries on the whole disk,
other than directories, that are gone afterwards, and these were all in the directory. -/
theorem clean_counts_files_gone (dir : Path) (d : Disk) (n : Nat) (h : (clean dir d).1 = .ok n)
    (hown : ∀ target, d.linkEntry dir ≠ .ok (.link target))
    (hshows : ∀ l, d.resolve dir = .ok l → d.Shows dir l) :
    n = (d.filesGone (clean dir d).2).length ∧
      ∀ x ∈ d.filesGone (clean dir d).2, ∃ l, d.resolve dir = .ok l ∧ Tree.Inside l x.1 := by
  have hrun : clean dir d = (.ok n, (clean dir d).2) := Prod.ext h rfl
  obtain ⟨cleared, hcleared, hmade⟩ := clean_ok hrun
  have hgrows := cleared.makeDirectories_grows dir
  rw [hmade] at hgrows
  rw [filesGone_of_grows hgrows]
  rcases hcleared with ⟨_, rfl, rfl⟩ | ⟨hcount, hremove⟩
  · rw [filesGone_self]
    exact ⟨rfl, nofun⟩
  · obtain ⟨l, hdir, hreach, hgone⟩ := filesGone_of_removeAll hown hremove
    have hn := countFiles_eq (hshows l (resolve_eq_ok_iff.2 hreach)) hreach hdir hcount
    rw [hgone, ← List.countP_eq_length_filter]
    refine ⟨hn, fun x hx => ⟨l, resolve_eq_ok_iff.2 hreach, ?_⟩⟩
    obtain ⟨hmem, hfile⟩ := List.mem_filter.1 hx
    rw [Bool.and_eq_true, Bool.not_eq_true'] at hfile
    exact ⟨hfile.1, Tree.ne_of_file hdir (Tree.mem_entries.1 hmem) hfile.2⟩

theorem clean_counts_leftovers :
    (clean ⟨"/run/results"⟩ Plan.usedRoot).1 = .ok 3 ∧
      Plan.usedRoot.resolve ⟨"/run/results"⟩ = .ok ["results", "run"] ∧
      Plan.usedRoot.Shows ⟨"/run/results"⟩ ["results", "run"] ∧
      (Plan.usedRoot.filesGone (clean ⟨"/run/results"⟩ Plan.usedRoot).2).length = 3 := by
  obtain ⟨hok, hplace, hshows, hown⟩ : (clean ⟨"/run/results"⟩ Plan.usedRoot).1 = .ok 3 ∧
      Plan.usedRoot.resolve ⟨"/run/results"⟩ = .ok ["results", "run"] ∧
      Plan.usedRoot.Shows ⟨"/run/results"⟩ ["results", "run"] ∧
      Plan.usedRoot.linkEntry ⟨"/run/results"⟩ = .ok (.directory 0o700) := by
    decide +kernel
  refine ⟨hok, hplace, hshows, (clean_counts_files_gone _ _ 3 hok (fun target hlink => ?_)
    fun l hl => ?_).1.symm⟩
  · cases hown.symm.trans hlink
  · cases hplace.symm.trans hl
    exact hshows

def linkedResults : Disk :=
  .holding
    [(["run"], .directory 0o755), (["results", "run"], .directory 0o755),
      (["shared", "results", "run"], .link ⟨"../../out"⟩),
      (["gone", "results", "run"], .link ⟨"nowhere"⟩), (["out"], .directory 0o755),
      (["a", "out"], .file [1] 0o644), (["b", "out"], .file [2] 0o644)]

/-- The two files behind the link are counted and stay, and the link itself is not counted. -/
theorem clean_counts_files_behind_link :
    (clean ⟨"/run/results"⟩ linkedResults).1 = .ok 3 ∧
      linkedResults.filesGone (clean ⟨"/run/results"⟩ linkedResults).2 =
        [(["gone", "results", "run"], .link ⟨"nowhere"⟩),
          (["shared", "results", "run"], .link ⟨"../../out"⟩)] := by
  decide +kernel

end WorkDir
end PointsTo
