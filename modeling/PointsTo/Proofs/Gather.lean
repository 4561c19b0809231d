import PointsTo.Proofs.Disk.Inside
import PointsTo.Stage.Relations

/-!
What loops over the names in a directory are made of: the names in order, what is a file
among them, and a rename. What leads to a file is on no way to a directory, so that each
round finds the directories where the first one found them.
-/

namespace PointsTo

namespace Tree

theorem eq_of_isWithin_cons {l k : Location} {name name' : String} (h : isWithin (name :: l) k = true)
    (h' : isWithin (name' :: l) k = true) : name = name' := by
  have hsame := List.suffix_of_suffix_length_le (isWithin_iff.1 h) (isWithin_iff.1 h') (by simp)
  exact (List.cons.inj (hsame.eq_of_length (by simp))).1

theorem sorted_children (t : Tree) (l : Location) :
    ((t.children l).map Prod.fst).Pairwise (· < ·) := by
  refine List.pairwise_map.2 (List.Pairwise.filterMap _ (fun x y hlt c hc c' hc' => ?_) t.ordered)
  obtain ⟨_ | ⟨name, above⟩, e⟩ := x
  · cases hc
  obtain ⟨_ | ⟨name', above'⟩, e'⟩ := y
  · cases hc'
  simp only [Option.ite_none_right_eq_some, Option.some.injEq] at hc hc'
  obtain ⟨rfl, rfl⟩ := hc
  obtain ⟨rfl, rfl⟩ := hc'
  rcases List.cons_lt_cons_iff.1 hlt with hname | ⟨_, hsame⟩
  · exact hname
  · exact absurd hsame (List.lt_irrefl _)

theorem nodup_children (t : Tree) (l : Location) : ((t.children l).map Prod.fst).Nodup :=
  (t.sorted_children l).imp String.ne_of_lt

end Tree

namespace Disk

variable {d d' : Disk} {p : Path} {dir : Location} {name : String} {reserved : List String}
  {gone : Location → Prop}

theorem list_of_reaches (h : d.Reaches p p.steps dir) (hdir : d.tree.isDirectory dir = true) :
    d.list p = .ok ((d.tree.children dir).map Prod.fst) := by
  unfold list
  rw [place_eq_some_iff.2 h]
  simp only [Bind.bind, Except.bind, hdir, if_true]

theorem isFile_iff : d.isFile p = true ↔
    ∃ l data mode, d.resolve p = .ok l ∧ d.tree.find l = some (.file data mode) := by
  have hentry : d.isFile p = true ↔ ∃ data mode, d.entry p = .ok (.file data mode) := by
    unfold isFile
    cases d.entry p with
    | error e => simp
    | ok e => cases e <;> simp [Entry.isFile]
  rw [hentry]
  simp only [entry_eq_file_iff, resolve_eq_ok_iff]
  constructor
  · rintro ⟨data, mode, l, hl, hfile⟩
    exact ⟨l, data, mode, hl, hfile⟩
  · rintro ⟨l, data, mode, hl, hfile⟩
    exact ⟨data, mode, l, hl, hfile⟩

/-- What leads to a file is a file or a link, and no way to a directory leads
through it. -/
theorem isAside_of_isFile (hp : d.Enters p dir) (hn : IsName name)
    (h : d.isFile (p / name) = true) : d.tree.IsAside (name :: dir) := by
  obtain ⟨l, data, mode, hl, hfile⟩ := isFile_iff.1 h
  have hreach := resolve_eq_ok_iff.1 hl
  exact isAside_of_reaches hreach (Tree.isDirectory_eq_of_find hfile)
    ((resolveLast_div_iff hn).2 ⟨hreach.1, hp, rfl⟩)

section Rename

theorem drop_of_not_isWithin {xs : Location} {n : String} {i : Nat}
    (h : Tree.isWithin (n :: dir) ((xs ++ n :: dir).drop i) = false) :
    ∃ k, i = xs.length + 1 + k ∧ ∀ m, (xs ++ m :: dir).drop i = dir.drop k := by
  have hle : xs.length + 1 ≤ i := by
    refine Nat.lt_of_not_le fun hle => ?_
    rw [List.drop_append_of_le_length hle, Tree.isWithin_iff.2 (List.suffix_append _ _)] at h
    cases h
  refine ⟨i - (xs.length + 1), by omega, fun m => ?_⟩
  rw [List.drop_append, List.drop_eq_nil_of_le (by omega), List.nil_append]
  obtain ⟨k, hk⟩ : ∃ k, i - xs.length = k + 1 := ⟨i - xs.length - 1, by omega⟩
  rw [hk, List.drop_succ_cons]
  congr 1
  omega

theorem find_move_outside {src dst l : Location} (hm : d.tree.canMove src dst = true)
    (hne : src ≠ []) (hs : Tree.isWithin src l = false) (ht : Tree.isWithin dst l = false) :
    (d.move src dst).tree.find l = d.tree.find l := by
  rw [tree_move, Tree.find_move hm hne, ht, hs]
  rfl

/-- An entry of the directory gets another name there. A directory takes along what is
in it, and perhaps the current directory, which stays below what else it was below. -/
theorem move_above {src dst : String} (hm : d.tree.canMove (src :: dir) (dst :: dir) = true) {i : Nat}
    (hs : Tree.isWithin (src :: dir) (d.cwd.drop i) = false)
    (ht : Tree.isWithin (dst :: dir) (d.cwd.drop i) = false) :
    ∃ j, (d.move (src :: dir) (dst :: dir)).cwd.drop j = d.cwd.drop i ∧
      (d.move (src :: dir) (dst :: dir)).lost + j = d.lost + i := by
  have hthere : (d.tree.move (src :: dir) (dst :: dir)).isDirectory (d.cwd.drop i) = true := by
    have hsame := find_move_outside hm nofun hs ht
    rw [tree_move] at hsame
    rw [Tree.isDirectory_congr hsame]
    exact Tree.isDirectory_drop d.cwd_isDirectory i
  unfold move
  dsimp only
  split
  · next hw =>
    obtain ⟨xs, hxs⟩ := Tree.isWithin_iff.1 hw
    rw [← hxs] at hs hthere ⊢
    obtain ⟨k, rfl, hk⟩ := drop_of_not_isWithin hs
    rw [Table.relocate_append]
    rw [hk] at hthere ⊢
    rw [← hk dst] at hthere ⊢
    exact standing_above d.lost hthere
  · split
    · next hw =>
      obtain ⟨xs, hxs⟩ := Tree.isWithin_iff.1 hw
      rw [← hxs] at ht hthere ⊢
      obtain ⟨k, rfl, hk⟩ := drop_of_not_isWithin ht
      rw [hk] at hthere ⊢
      obtain ⟨j, hcwd, hlost⟩ := standing_above
        (d.lost + ((xs ++ dst :: dir).length - (dst :: dir).tail.length)) hthere
      refine ⟨j, hcwd, hlost.trans ?_⟩
      simp only [List.length_append, List.length_cons, List.tail_cons]
      omega
    · exact standing_above d.lost hthere

theorem touches_move {src dst : String} (hm : d.tree.canMove (src :: dir) (dst :: dir) = true)
    (hdst : dst ∉ reserved) : Touches dir reserved gone d (d.move (src :: dir) (dst :: dir)) := by
  have hout : ∀ {n l}, ¬ Tree.Inside dir l → Tree.isWithin (n :: dir) l = false := fun hl =>
    Bool.eq_false_iff.2 fun hw => hl (Tree.inside_of_isWithin_cons hw)
  refine ⟨fun hl _ => find_move_outside hm nofun (hout hl) (hout hl), fun name hname target ht => ?_,
    fun i hi => move_above hm (hout hi) (hout hi)⟩
  rw [tree_move, Tree.find_move hm nofun] at ht
  split at ht
  · next hw =>
    have heq := (Tree.isWithin_iff.1 hw).eq_of_length (by simp)
    cases heq
    exact absurd hname hdst
  · split at ht
    · cases ht
    · exact ht

theorem touches_rename {src dst : String} (hp : d.Enters p dir) (hs : IsName src) (ht : IsName dst)
    (hdst : dst ∉ reserved) (h : d.rename (p / src) (p / dst) = .ok d') :
    Touches dir reserved gone d d' := by
  obtain ⟨src', srcDir, dst', dstDir, _, _, e, hsrc, hdst', _, hcheck, hd'⟩ := rename_cases h
  obtain ⟨_, hp₁, hm₁⟩ := (resolveLast_div_iff hs).1 hsrc
  obtain ⟨_, hp₂, hm₂⟩ := (resolveLast_div_iff ht).1 hdst'
  cases hm₁
  cases hm₂
  cases hp.unique hp₁
  cases hp.unique hp₂
  rcases hd' with ⟨_, rfl⟩ | ⟨hne, rfl⟩
  · exact .refl _ _ _ _
  · exact touches_move (canMove_of_checkRename hcheck hne ht hp.1) hdst

end Rename

/-- What has been moved from one directory to another under the names it had. -/
structure Gathers (names : List String) (src dst : Location) (d d' : Disk) : Prop where
  find : ∀ l, d'.tree.find l = d.tree.find l ∨
    ∃ n ∈ names, (l = n :: src ∨ l = n :: dst) ∧ d'.tree.find (n :: src) = none ∧
      d'.tree.find (n :: dst) = d.tree.find (n :: src)
  cwd : d'.cwd = d.cwd
  lost : d'.lost = d.lost

section Gathers

variable {src dst : Location} {names : List String}

theorem Gathers.touches (h : Gathers names src dst d d') (hn : ∀ n ∈ names, n ∉ reserved) :
    Touches dst reserved (fun l => ∃ n ∈ names, l = n :: src) d d' where
  same := fun {l} hin hgone => by
    rcases h.find l with hl | ⟨n, hmem, hl | hl, _⟩
    · exact hl
    · exact absurd ⟨n, hmem, hl⟩ hgone
    · exact absurd (hl ▸ Tree.inside_cons n dst) hin
  plain := fun name hname target ht => by
    rcases h.find (name :: dst) with hl | ⟨n, hmem, hl | hl, hnone, _⟩
    · rwa [← hl]
    · rw [hl, hnone] at ht
      cases ht
    · cases hl
      exact absurd hname (hn name hmem)
  above := fun i _ => ⟨i, by rw [h.cwd], by rw [h.lost]⟩

end Gathers

structure Sweeps (names : List String) (dir : Location) (d d' : Disk) : Prop where
  find : ∀ l, d'.tree.find l = d.tree.find l ∨ d'.tree.find l = none ∧ ∃ n ∈ names, l = n :: dir
  cwd : d'.cwd = d.cwd
  lost : d'.lost = d.lost

theorem Sweeps.keepsWays {names : List String} (h : Sweeps names dir d d')
    (haside : ∀ n ∈ names, d.tree.IsAside (n :: dir)) : d.KeepsWays d' := by
  refine keepsWays_of_find (fun l => ∃ n ∈ names, l = n :: dir) (fun {k} hk => ?_) ?_ h.cwd h.lost
  · exact (h.find k).resolve_right fun hgone => hk hgone.2
  · rintro k ⟨n, hn, rfl⟩
    exact haside n hn

end Disk

namespace WorkDir

open Disk

variable {act : String → Attempt Disk Unit} {d d₁ : Disk} {name : String} {names : List String}

theorem forEach_ok (h : act name d = (.ok (), d₁)) :
    forEach act (name :: names) d = forEach act names d₁ := by
  rw [forEach, Attempt.bind_ok h]

theorem forEach_error {e : Failure} (h : act name d = (.error e, d₁)) :
    forEach act (name :: names) d = (.error e, d₁) := by
  rw [forEach, Attempt.bind_error h]

end WorkDir

namespace Stage

open Disk

/-- Renaming in the directory, of files or of whatever has their names. -/
theorem renameFiles_touches {d d' : Disk} {p : Path} {dir : Location} {reserved : List String}
    {gone : Location → Prop} {pairs : List (String × String)} {r : Except Failure Unit}
    (hpairs : ∀ x ∈ pairs, IsName x.1 ∧ IsName x.2 ∧ x.2 ∉ reserved)
    (hp : (d.clear dir).Enters p dir) (h : renameFiles p pairs d = (r, d')) :
    Touches dir reserved gone d d' := by
  induction pairs generalizing d with
  | nil =>
      cases h
      exact .refl _ _ _ _
  | cons pair pairs ih =>
      obtain ⟨hold, hnew, hfree⟩ := hpairs pair List.mem_cons_self
      have hstep : ∀ {gone r d₁}, change (p / pair.1) (·.rename (p / pair.1) (p / pair.2)) d = (r, d₁) →
          Touches dir reserved gone d d₁ := fun hchange => by
        rcases change_cases hchange with ⟨_, hrename⟩ | ⟨_, _, _, rfl⟩
        · exact touches_rename ((d.clear_keepsWays dir).enters hp) hold hnew hfree hrename
        · exact .refl _ _ _ _
      rcases Attempt.bind_cases h with ⟨_, d₁, hfirst, hrest⟩ | ⟨e, hfirst, _⟩
      · refine (hstep hfirst).trans (ih (fun x hx => hpairs x (List.mem_cons_of_mem _ hx)) ?_ hrest)
        exact (hstep hfirst).enters_clear False.elim hp
      · exact hstep hfirst

theorem renameFiles_of_not_enters {d d' : Disk} {p : Path} {pairs : List (String × String)}
    {r : Except Failure Unit} (hpairs : ∀ x ∈ pairs, IsName x.1) (hno : ∀ dir, ¬ d.Enters p dir)
    (h : renameFiles p pairs d = (r, d')) : d' = d := by
  cases pairs with
  | nil =>
      cases h
      rfl
  | cons pair pairs =>
      have hfail : ∀ {r d₁},
          change (p / pair.1) (·.rename (p / pair.1) (p / pair.2)) d = (r, d₁) →
          d₁ = d ∧ r ≠ .ok () := fun hchange => by
        rcases change_cases hchange with ⟨_, hrename⟩ | ⟨_, _, rfl, rfl⟩
        · obtain ⟨_, dir, _, _, _, _, _, hs, _⟩ := rename_cases hrename
          exact absurd ((resolveLast_div_iff (hpairs pair List.mem_cons_self)).1 hs).2.1 (hno dir)
        · exact ⟨rfl, nofun⟩
      rcases Attempt.bind_cases h with ⟨_, d₁, hfirst, _⟩ | ⟨e, hfirst, _⟩
      · exact absurd rfl (hfail hfirst).2
      · exact (hfail hfirst).1

end Stage
end PointsTo
