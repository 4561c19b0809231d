import PointsTo.Proofs.Checked
import PointsTo.Proofs.Lists
import PointsTo.Proofs.Relocation

/-!
The stage for the relations, from end to end: two processes that must both succeed, and
then the maps are moved and two files renamed. A process that fails ends the stage with
what it printed, before anything is moved.
-/

namespace PointsTo

namespace Disk

def concerned (pairs : List (String × String)) (dir : Location) : List Location :=
  pairs.flatMap fun x => [x.1 :: dir, x.2 :: dir]

/-- Entries of a directory have other names there, with all that is in them, and nothing
else is changed. -/
structure Renames (pairs : List (String × String)) (dir : Location) (d d' : Disk) : Prop where
  there : ∀ x ∈ pairs, d.tree.find (x.1 :: dir) ≠ none
  moved : ∀ x ∈ pairs, ∀ inside,
    d'.tree.find (inside ++ x.2 :: dir) = d.tree.find (inside ++ x.1 :: dir)
  gone : ∀ x ∈ pairs, ∀ inside, d'.tree.find (inside ++ x.1 :: dir) = none
  others : ∀ k, (∀ l ∈ concerned pairs dir, Tree.isWithin l k = false) →
    d'.tree.find k = d.tree.find k

section Renames

variable {d d' d₁ base : Disk} {p : Path} {dir : Location} {x : String × String}
  {pairs : List (String × String)}

theorem isWithin_append_of_ne {n m : String} (h : n ≠ m) (inside : Location) :
    Tree.isWithin (n :: dir) (inside ++ m :: dir) = false :=
  Bool.eq_false_iff.2 fun hw =>
    h (Tree.eq_of_isWithin_cons hw (Tree.isWithin_iff.2 (List.suffix_append inside _)))

theorem isWithin_append_self (n : String) (inside : Location) :
    Tree.isWithin (n :: dir) (inside ++ n :: dir) = true :=
  Tree.isWithin_iff.2 (List.suffix_append inside _)

theorem mem_concerned {l : Location} :
    l ∈ concerned pairs dir ↔ ∃ x ∈ pairs, l = x.1 :: dir ∨ l = x.2 :: dir := by
  simp [concerned]

theorem exists_of_mem_concerned : ∀ l ∈ concerned pairs dir, ∃ n, l = n :: dir := by
  intro l hl
  obtain ⟨x, _, rfl | rfl⟩ := mem_concerned.1 hl
  · exact ⟨x.1, rfl⟩
  · exact ⟨x.2, rfl⟩

theorem isWithin_of_concerned {k : Location}
    (h : ∀ l ∈ concerned [x] dir, Tree.isWithin l k = false) :
    Tree.isWithin (x.1 :: dir) k = false ∧ Tree.isWithin (x.2 :: dir) k = false :=
  ⟨h _ (mem_concerned.2 ⟨x, List.mem_cons_self, Or.inl rfl⟩),
    h _ (mem_concerned.2 ⟨x, List.mem_cons_self, Or.inr rfl⟩)⟩

theorem renames_move (hm : d.tree.canMove (x.1 :: dir) (x.2 :: dir) = true) (hne : x.1 ≠ x.2)
    (hthere : d.tree.find (x.1 :: dir) ≠ none) :
    Renames [x] dir d (d.move (x.1 :: dir) (x.2 :: dir)) where
  there := List.forall_mem_singleton.2 hthere
  moved := List.forall_mem_singleton.2 fun inside => by
    rw [tree_move, Tree.find_move hm nofun, if_pos (isWithin_append_self _ _), Table.relocate_append]
  gone := List.forall_mem_singleton.2 fun inside => by
    rw [tree_move, Tree.find_move hm nofun, isWithin_append_of_ne hne.symm, isWithin_append_self]
    rfl
  others := fun k hk => by
    obtain ⟨hs, ht⟩ := isWithin_of_concerned hk
    exact find_move_outside hm nofun hs ht

/-- One entry gets another name. What led to a directory without either name still does. -/
theorem renames_rename (hp : d.Enters p dir) (hs : IsName x.1) (ht : IsName x.2) (hne : x.1 ≠ x.2)
    (h : d.rename (p / x.1) (p / x.2) = .ok d') :
    Renames [x] dir d d' ∧ (base.KeepsWays d →
      (∀ l ∈ concerned [x] dir, ∀ k, Tree.isWithin l k = true → base.tree.find k = none) →
      base.KeepsWays d') := by
  obtain ⟨_, _, _, _, _, _, e, hsrc, hdst, hchild, hcheck, hd'⟩ := rename_cases h
  obtain ⟨_, hp₁, hm₁⟩ := (resolveLast_div_iff hs).1 hsrc
  obtain ⟨_, hp₂, hm₂⟩ := (resolveLast_div_iff ht).1 hdst
  cases hm₁
  cases hm₂
  cases hp.unique hp₁
  cases hp.unique hp₂
  have hplaces : x.1 :: dir ≠ x.2 :: dir := by simp [hne]
  obtain ⟨_, rfl⟩ := hd'.resolve_left fun hsame => hplaces hsame.1
  have hm := canMove_of_checkRename hcheck hplaces ht hp.1
  refine ⟨renames_move hm hne ?_, fun hbase hbare => ?_⟩
  · rw [(Tree.child?_eq_ok_iff.1 hchild).2.2]
    nofun
  · refine hbase.alter (fun k => ∃ l ∈ concerned [x] dir, Tree.isWithin l k = true)
      (fun {k} hk => ?_) ?_ fun i hi => ?_
    · obtain ⟨hs, ht⟩ := isWithin_of_concerned fun l hl =>
        Bool.eq_false_iff.2 fun hw => hk ⟨l, hl, hw⟩
      exact find_move_outside hm nofun hs ht
    · rintro k ⟨l, hl, hw⟩
      refine Tree.isAside_of_none (hbare l hl k hw) ?_
      rintro rfl
      obtain ⟨n, rfl⟩ := exists_of_mem_concerned l hl
      exact Tree.not_inside_nil dir (Tree.inside_of_isWithin_cons hw)
    · obtain ⟨hs, ht⟩ := isWithin_of_concerned fun l hl =>
        Bool.eq_false_iff.2 fun hw => hi ⟨l, hl, hw⟩
      exact move_above hm hs ht

/-- Different names are renamed one after the other. -/
theorem Renames.cons (h : Renames [x] dir d d₁) (h' : Renames pairs dir d₁ d')
    (hnew : ∀ y ∈ pairs, x.1 ≠ y.1 ∧ x.1 ≠ y.2 ∧ x.2 ≠ y.1 ∧ x.2 ≠ y.2) :
    Renames (x :: pairs) dir d d' := by
  -- what the first one concerns is left by the rest, and the other way round
  have hfirst : ∀ y ∈ pairs, ∀ inside,
      d₁.tree.find (inside ++ y.1 :: dir) = d.tree.find (inside ++ y.1 :: dir) := by
    intro y hy inside
    obtain ⟨h₁, _, h₂, _⟩ := hnew y hy
    refine h.others _ fun l hl => ?_
    obtain ⟨z, hz, hl⟩ := mem_concerned.1 hl
    cases List.mem_singleton.1 hz
    rcases hl with rfl | rfl
    · exact isWithin_append_of_ne h₁ inside
    · exact isWithin_append_of_ne h₂ inside
  have hlater : ∀ n, n = x.1 ∨ n = x.2 → ∀ inside,
      d'.tree.find (inside ++ n :: dir) = d₁.tree.find (inside ++ n :: dir) := by
    intro n hn inside
    refine h'.others _ fun l hl => ?_
    obtain ⟨y, hy, hl⟩ := mem_concerned.1 hl
    obtain ⟨h₁, h₂, h₃, h₄⟩ := hnew y hy
    rcases hl with rfl | rfl <;> rcases hn with rfl | rfl
    · exact isWithin_append_of_ne h₁.symm inside
    · exact isWithin_append_of_ne h₃.symm inside
    · exact isWithin_append_of_ne h₂.symm inside
    · exact isWithin_append_of_ne h₄.symm inside
  refine ⟨List.forall_mem_cons.2 ⟨h.there x List.mem_cons_self, fun y hy => ?_⟩,
    List.forall_mem_cons.2 ⟨fun inside => ?_, fun y hy inside => ?_⟩,
    List.forall_mem_cons.2 ⟨fun inside => ?_, h'.gone⟩, fun k hk => ?_⟩
  · have hthere := h'.there y hy
    rwa [← List.nil_append (y.1 :: dir), hfirst y hy] at hthere
  · rw [hlater x.2 (Or.inr rfl), h.moved x List.mem_cons_self]
  · rw [h'.moved y hy, hfirst y hy]
  · rw [hlater x.1 (Or.inl rfl), h.gone x List.mem_cons_self]
  · rw [concerned, List.flatMap_cons] at hk
    rw [h'.others k fun l hl => hk l (List.mem_append_right _ hl),
      h.others k fun l hl => hk l (List.mem_append_left _ (by simpa [concerned] using hl))]

end Renames
end Disk

namespace Stage

open Disk Run World

variable {host : Host} {s : Setup} {w w' : World} {label entryPoint : String}

theorem renameFiles_renames {d d' base : Disk} {p : Path} {dir : Location}
    {pairs : List (String × String)} (hways : base.KeepsWays d) (hp : base.Enters p dir)
    (hbare : ∀ l ∈ concerned pairs dir, ∀ k, Tree.isWithin l k = true → base.tree.find k = none)
    (hnames : ∀ x ∈ pairs, IsName x.1 ∧ IsName x.2 ∧ x.1 ≠ x.2)
    (hdistinct : pairs.Pairwise fun x y => x.1 ≠ y.1 ∧ x.1 ≠ y.2 ∧ x.2 ≠ y.1 ∧ x.2 ≠ y.2)
    (h : renameFiles p pairs d = (.ok (), d')) : Renames pairs dir d d' ∧ base.KeepsWays d' := by
  induction pairs generalizing d with
  | nil =>
      cases h
      exact ⟨⟨nofun, nofun, nofun, fun _ _ => rfl⟩, hways⟩
  | cons x pairs ih =>
      obtain ⟨⟨hold, hnew, hne⟩, hnames⟩ := List.forall_mem_cons.1 hnames
      obtain ⟨hothers, hdistinct⟩ := List.pairwise_cons.1 hdistinct
      have hconcerned : concerned (x :: pairs) dir = concerned [x] dir ++ concerned pairs dir := by
        simp [concerned]
      rw [hconcerned] at hbare
      obtain ⟨_, d₁, hfirst, hrest⟩ := Attempt.bind_eq_ok_iff.1 h
      rcases change_cases hfirst with ⟨_, hrename⟩ | ⟨_, _, hr, _⟩
      · obtain ⟨hone, hkeeps⟩ := renames_rename (hways.enters hp) hold hnew hne hrename
        obtain ⟨hall, hways'⟩ := ih (hkeeps hways fun l hl => hbare l (List.mem_append_left _ hl))
          (fun l hl => hbare l (List.mem_append_right _ hl)) hnames hdistinct hrest
        exact ⟨hone.cons hall hothers, hways'⟩
      · cases hr

section Cases

variable {r : Except Failure Outcome}

/-- The end of the stage, once both calls have succeeded. -/
theorem moveThenRename_cases {message : Nat → String} {message' : String} {outcome : Outcome}
    (h : (Run.onDisk (WorkDir.moveFiles s.root mapStart s.workDir) >>= fun count =>
      Run.tell .stages .debug (message count) >>= fun _ => Run.tell .stages .info message' >>= fun _ =>
        Run.onDisk (renameFiles s.workDir renames) >>= fun _ => pure outcome : Run Outcome) w =
      (r, w')) :
    w'.calls = w.calls ∧ ((∃ e, r = .error e) ∨ r = .ok outcome ∧ ∃ count moved,
      WorkDir.moveFiles s.root mapStart s.workDir w.disk = (.ok count, moved) ∧
      renameFiles s.workDir renames moved = (.ok (), w'.disk)) := by
  rcases Attempt.bind_cases h with ⟨count, w₁, hmove, h₁⟩ | ⟨e, hmove, rfl⟩
  · obtain ⟨hmove, hcalls₁⟩ := onDisk_cases hmove
    obtain ⟨w₂, hdisk₂, hcalls₂, h₂⟩ := tell_then h₁
    obtain ⟨w₃, hdisk₃, hcalls₃, h₃⟩ := tell_then h₂
    have hcalls : w₃.calls = w.calls := hcalls₃.trans (hcalls₂.trans hcalls₁)
    rcases Attempt.bind_cases h₃ with ⟨_, w₄, hrename, h₄⟩ | ⟨e, hrename, rfl⟩
    · cases h₄
      obtain ⟨hrename, hcalls₄⟩ := onDisk_cases hrename
      rw [hdisk₃, hdisk₂] at hrename
      exact ⟨hcalls₄.trans hcalls, Or.inr ⟨rfl, count, w₁.disk, hmove, hrename⟩⟩
    · exact ⟨(onDisk_cases hrename).2.trans hcalls, Or.inl ⟨e, rfl⟩⟩
  · exact ⟨(onDisk_cases hmove).2, Or.inl ⟨e, rfl⟩⟩

/-- All that the stage can do. It makes the working directory and at most two calls, and
only if both of them succeed it goes on to move and rename. -/
theorem relations_cases (h : (relations entryPoint).run host s w = (r, w')) :
    ((∃ e, r = .error e) ∧ w'.disk = (w.disk.makeDirectories s.workDir).2 ∧ w'.calls = w.calls) ∨
    ∃ a, a.disk = (w.disk.makeDirectories s.workDir).2 ∧
      (Stopped host s .merge Setup.relationsLabel w.calls a r w' ∨
        (host.engine.respond w.calls a).succeeds s.config.timeLimit = true ∧
        ∃ b, b.disk = host.engine.left w.calls a ∧
          (Stopped host s .merge Setup.relationsLabel (w.calls ++ [a]) b r w' ∨
            (host.engine.respond (w.calls ++ [a]) b).succeeds s.config.timeLimit = true ∧
            w'.calls = w.calls ++ [a, b] ∧ ((∃ e, r = .error e) ∨ ∃ outcome, r = .ok outcome ∧
              outcome.process = some { (host.engine.respond w.calls a).finished .merge with
                output := (host.engine.respond w.calls a).printed ++
                  (host.engine.respond (w.calls ++ [a]) b).printed } ∧
              ∃ count moved, WorkDir.moveFiles s.root mapStart s.workDir
                (host.engine.left (w.calls ++ [a]) b) = (.ok count, moved) ∧
                renameFiles s.workDir renames moved = (.ok (), w'.disk)))) := by
  rcases Attempt.bind_cases h with ⟨_, w₀, hmade, h₀⟩ | ⟨e, hmade, rfl⟩
  · obtain ⟨hmade, hcalls₀⟩ := onDisk_cases hmade
    have hdisk₀ := eq_of_changePartly hmade
    obtain ⟨w₁, hdisk₁, hcalls₁, h₁⟩ := tell_then h₀
    rw [hcalls₀] at hcalls₁
    rw [hdisk₀] at hdisk₁
    rcases checkedCall_cases (fun _ => Setup.label_dumpCommand) h₁ with
      ⟨he, hdisk, hcalls⟩ | ⟨a, w₂, hcalled, hrest⟩
    · exact Or.inl ⟨he, hdisk.trans hdisk₁, hcalls.trans hcalls₁⟩
    · rw [hcalls₁] at hrest
      refine Or.inr ⟨a, hcalled.disk.trans hdisk₁, ?_⟩
      have hcalls₂ := hcalled.calls
      have hdisk₂ : w₂.disk = host.engine.left w₁.calls a := hcalled.ended
      rw [hcalls₁] at hcalls₂ hdisk₂
      rcases hrest with hstopped | ⟨hsucceeds, h₂⟩
      · exact Or.inl hstopped
      · obtain ⟨w₃, hdisk₃, hcalls₃, h₃⟩ := tell_then h₂
        rw [hdisk₂] at hdisk₃
        rw [hcalls₂] at hcalls₃
        rcases checkedCall_cases (fun _ => Setup.label_equivalenceCommand) h₃ with
          ⟨he, hdisk, hcalls⟩ | ⟨b, w₄, hcalled', hrest'⟩
        · refine Or.inl ⟨he, hcalls.trans hcalls₃, hdisk.trans hdisk₃, fun hfails => ?_⟩
          exact absurd hfails (Response.not_fails_of_succeeds hsucceeds)
        · rw [hcalls₃] at hrest'
          refine Or.inr ⟨hsucceeds, b, hcalled'.disk.trans hdisk₃, ?_⟩
          have hcalls₄ := hcalled'.calls
          have hdisk₄ : w₄.disk = host.engine.left w₃.calls b := hcalled'.ended
          rw [hcalls₃] at hcalls₄ hdisk₄
          rw [List.append_assoc, List.singleton_append] at hcalls₄
          rcases hrest' with hstopped | ⟨hsucceeds', h₄⟩
          · exact Or.inl hstopped
          · refine Or.inr ⟨hsucceeds', ?_⟩
            rw [← hdisk₄, ← hcalls₄]
            obtain ⟨hcalls, he | ⟨hr, hmoved⟩⟩ := moveThenRename_cases h₄
            · exact ⟨hcalls, Or.inl he⟩
            · refine ⟨hcalls, Or.inr ⟨_, hr, ?_, hmoved⟩⟩
              rw [← Response.output_merge, ← Response.output_merge]
  · obtain ⟨hmade, hcalls⟩ := onDisk_cases hmade
    exact Or.inl ⟨⟨e, rfl⟩, eq_of_changePartly hmade, hcalls⟩

end Cases

/-- What becomes of a disk `d` with the maps `names` in the run root: they are in the working
directory, none is left behind, and there the two other files have their new names. -/
structure Collected (s : Setup) (src dst : Location) (names : List String) (d d' : Disk) : Prop where
  maps : ∀ n ∈ names, d'.tree.find (n :: dst) = d.tree.find (n :: src)
  left : src ≠ dst → ∀ n data mode, mapStart.toList <+: n.toList →
    d'.tree.find (n :: src) = some (.file data mode) → n.utf8ByteSize ≤ Tree.maxNameBytes →
    checkText (s.root / n) ≠ .ok ()
  renamed : ∃ moved, Relocates names src dst d moved ∧ Renames renames dst moved d'
  root : d'.Enters s.root src
  workDir : d'.Enters s.workDir dst

/-- The same for all the maps that the run root shows, where neither of the two paths leads
through what is overwritten or renamed. A run root that is gone shows none. -/
def Gathered (s : Setup) (d d' : Disk) : Prop :=
  (∀ src, d.resolve s.root = .ok src → d.tree.isDirectory src = true →
    ∃ names, (∀ n, n ∈ names ↔ mapStart.toList <+: n.toList ∧ d.ShowsFile s.root src n) ∧
      ∀ dst, (d.without (d.overwritten dst names ++ concerned renames dst)).Enters s.root src →
        (d.without (d.overwritten dst names ++ concerned renames dst)).Enters s.workDir dst →
        Collected s src dst names d d') ∧
  ((∀ src, d.resolve s.root = .ok src → d.tree.isDirectory src = false) →
    ∀ dst, (d.without (concerned renames dst)).Enters s.workDir dst →
      Renames renames dst d d' ∧ d'.Enters s.workDir dst)

section Gathered

variable {d d' moved : Disk} {src dst : Location} {names : List String} {count : Nat}

theorem ne_nil_of_exists {places : List Location} {dir : Location}
    (h : ∀ l ∈ places, ∃ n, l = n :: dir) : ∀ l ∈ places, l ≠ [] := by
  intro l hl
  obtain ⟨n, rfl⟩ := h l hl
  nofun

/-- No map has one of the names that are renamed. -/
theorem map_not_concerned {n : String} (h : mapStart.toList <+: n.toList) :
    ∀ l ∈ concerned renames dst, Tree.isWithin l (n :: dst) = false := by
  have hnames : ∀ x ∈ renames, ¬ mapStart.toList <+: x.1.toList ∧ ¬ mapStart.toList <+: x.2.toList := by
    decide
  intro l hl
  obtain ⟨x, hx, rfl | rfl⟩ := mem_concerned.1 hl
  · refine isWithin_append_of_ne ?_ []
    rintro rfl
    exact (hnames x hx).1 h
  · refine isWithin_append_of_ne ?_ []
    rintro rfl
    exact (hnames x hx).2 h

/-- Renaming, where the ways do not lead through the names. -/
theorem renames_of_without {places : List Location} (hways : (d.without places).KeepsWays moved)
    (hplaces : ∀ l ∈ concerned renames dst, l ∈ places)
    (hworkDir : (d.without places).Enters s.workDir dst)
    (h : renameFiles s.workDir renames moved = (.ok (), d')) :
    Renames renames dst moved d' ∧ (d.without places).KeepsWays d' :=
  renameFiles_renames hways hworkDir
    (fun l hl _ hw => Tree.find_without_within (hplaces l hl) hw) (by decide) (by decide) h

theorem collected_of_moveFiles (hp : d.resolve s.root = .ok src)
    (hdir : d.tree.isDirectory src = true)
    (hnames : WorkDir.filesMatching d s.root (fun n => mapStart.toList.isPrefixOf n.toList) =
      .ok names) (hnodup : names.Nodup)
    (hmem : ∀ n, n ∈ names ↔ mapStart.toList <+: n.toList ∧ d.ShowsFile s.root src n)
    (hroot : (d.without (d.overwritten dst names ++ concerned renames dst)).Enters s.root src)
    (hworkDir : (d.without (d.overwritten dst names ++ concerned renames dst)).Enters s.workDir dst)
    (hmove : WorkDir.moveFiles s.root mapStart s.workDir d = (.ok count, moved))
    (hrename : renameFiles s.workDir renames moved = (.ok (), d')) :
    Collected s src dst names d d' := by
  have henters := (resolve_eq_ok_iff.1 hp).enters hdir
  have hshown : ∀ n ∈ names, d.Removable s.root src n := fun n hn =>
    ((hmem n).1 hn).2.removable henters
  have hfewer : (d.without (d.overwritten dst names ++ concerned renames dst)).KeepsWays
      (d.without (d.overwritten dst names)) :=
    (d.without_keepsWays _).without (ne_nil_of_exists exists_of_mem_overwritten)
      fun l hl k hw => Tree.find_without_within (List.mem_append_left _ hl) hw
  obtain ⟨all, r, d₁, hrun, hmoved, htaken, hend⟩ := WorkDir.moveFiles_of_enters hnames hshown hnodup
    (hfewer.enters hroot) (hfewer.enters hworkDir)
  cases hmove.symm.trans hrun
  obtain ⟨rfl, _⟩ : all = names ∧ _ := hend.resolve_right fun ⟨_, _, _, _, _, he⟩ => by cases he
  have hways : (d.without (d.overwritten dst all ++ concerned renames dst)).KeepsWays moved :=
    hmoved.keepsWays (fun n hn => (hshown n hn).aside)
      fun n hn => List.mem_append_left _ (mem_overwritten hn (htaken n hn).2)
  obtain ⟨hrenamed, hways'⟩ := renames_of_without hways (fun l hl => List.mem_append_right _ hl)
    hworkDir hrename
  refine ⟨fun n hn => ?_, fun hne n data mode hstart hfile hshort hc => ?_, ⟨moved, hmoved, hrenamed⟩,
    hways'.enters hroot, hways'.enters hworkDir⟩
  · rw [hrenamed.others _ (map_not_concerned ((hmem n).1 hn).1), hmoved.arrived n hn]
  · -- the run root is in none of the places, so what is left there was left by the moves
    have hout : ∀ l ∈ concerned renames dst, Tree.isWithin l (n :: src) = false := by
      intro l hl
      refine Bool.eq_false_iff.2 fun hw => ?_
      obtain ⟨m, rfl⟩ := exists_of_mem_concerned l hl
      rcases List.suffix_cons_iff.1 (Tree.isWithin_iff.1 hw) with heq | hin
      · exact hne (List.cons.inj heq).2.symm
      · have hnone := Tree.find_without_within (t := d.tree) (k := src)
          (List.mem_append_right (d.overwritten dst all) hl) (Tree.isWithin_iff.2 hin)
        have hsrc : src ≠ [] := by
          rintro rfl
          cases List.eq_nil_of_suffix_nil hin
        exact absurd hroot.1 (by simp [without, Tree.isDirectory_of_find_none hnone hsrc])
    rw [hrenamed.others _ hout] at hfile
    by_cases hn : n ∈ all
    · cases (hmoved.left hne n hn).symm.trans hfile
    · rw [(hmoved.find_new hn).1] at hfile
      exact hn ((hmem n).2 ⟨hstart, .file hfile hshort hc⟩)

theorem gathered_of_moveFiles
    (hmove : WorkDir.moveFiles s.root mapStart s.workDir d = (.ok count, moved))
    (hrename : renameFiles s.workDir renames moved = (.ok (), d')) : Gathered s d d' := by
  refine ⟨fun src hp hdir => ?_, fun hp dst hworkDir => ?_⟩
  · obtain ⟨names, hnames, hsorted, hmem⟩ := WorkDir.exists_matching hp hdir mapStart
    exact ⟨names, hmem, fun dst hroot hworkDir => collected_of_moveFiles hp hdir hnames
      (hsorted.imp String.ne_of_lt) hmem hroot hworkDir hmove hrename⟩
  · cases hmove.symm.trans (WorkDir.moveFiles_eq (WorkDir.filesMatching_nil hp) rfl)
    obtain ⟨hrenamed, hways⟩ := renames_of_without (d.without_keepsWays _) (fun _ hl => hl) hworkDir
      hrename
    exact ⟨hrenamed, hways.enters hworkDir⟩

end Gathered

/-- The stage makes the working directory and at most two calls. A process that fails is
the last thing that happens, and is shown as the failure of the stage. If the stage
succeeds, both processes did, their outputs follow each other, and the maps are gathered. -/
theorem relations_gathers_maps {r : Except Failure Outcome}
    (h : (relations entryPoint).run host s w = (r, w')) :
    ∃ made, w'.calls = w.calls ++ made ∧ made.length ≤ 2 ∧
      (∀ a ∈ made.head?, a.disk = (w.disk.makeDirectories s.workDir).2) ∧
      (∀ a b, made = [a, b] → b.disk = host.engine.left w.calls a) ∧
      (∀ before c after, made = before ++ c :: after →
        (host.engine.respond (w.calls ++ before) c).Fails s.config.timeLimit →
        after = [] ∧ w'.disk = host.engine.left (w.calls ++ before) c ∧
          r = .error
            ((host.engine.respond (w.calls ++ before) c).failure .merge Setup.relationsLabel)) ∧
      ∀ outcome, r = .ok outcome → ∃ a b, made = [a, b] ∧
        (host.engine.respond w.calls a).succeeds s.config.timeLimit = true ∧
        (host.engine.respond (w.calls ++ [a]) b).succeeds s.config.timeLimit = true ∧
        outcome.process = some { (host.engine.respond w.calls a).finished .merge with
          output := (host.engine.respond w.calls a).printed ++
            (host.engine.respond (w.calls ++ [a]) b).printed } ∧
        Gathered s (host.engine.left (w.calls ++ [a]) b) w'.disk := by
  rcases relations_cases h with ⟨⟨e, rfl⟩, _, hcalls⟩ | ⟨a, ha, hstopped | ⟨hsucceeds, b, hb, hrest⟩⟩
  · exact ⟨[], by simp [hcalls], by simp, nofun, nofun, by simp, nofun⟩
  · obtain ⟨e, rfl⟩ := hstopped.failed
    refine ⟨[a], hstopped.calls, by simp, by simpa using ha, by simp,
      fun before c after hmade hfails => ?_, nofun⟩
    obtain ⟨rfl, rfl, rfl⟩ := singleton_split hmade
    rw [List.append_nil] at hfails ⊢
    exact ⟨rfl, hstopped.disk, hstopped.shown hfails⟩
  · have hfirst := Response.not_fails_of_succeeds hsucceeds
    rcases hrest with hstopped | ⟨hsucceeds', hcalls, hrest⟩
    · obtain ⟨e, rfl⟩ := hstopped.failed
      refine ⟨[a, b], by simp [hstopped.calls], by simp, by simpa using ha, ?_,
        fun before c after hmade hfails => ?_, nofun⟩
      · rintro _ _ ⟨⟩
        exact hb
      · rcases pair_split hmade with ⟨rfl, rfl, rfl⟩ | ⟨rfl, rfl, rfl⟩
        · rw [List.append_nil] at hfails
          exact absurd hfails hfirst
        · exact ⟨rfl, hstopped.disk, hstopped.shown hfails⟩
    · refine ⟨[a, b], hcalls, by simp, by simpa using ha, ?_, fun before c after hmade hfails => ?_,
        fun outcome hok => ?_⟩
      · rintro _ _ ⟨⟩
        exact hb
      · rcases pair_split hmade with ⟨rfl, rfl, rfl⟩ | ⟨rfl, rfl, rfl⟩
        · rw [List.append_nil] at hfails
          exact absurd hfails hfirst
        · exact absurd hfails (Response.not_fails_of_succeeds hsucceeds')
      · rcases hrest with ⟨e, he⟩ | ⟨outcome', hr, hprocess, count, moved, hmove, hrename⟩
        · cases hok.symm.trans he
        · cases hok.symm.trans hr
          exact ⟨a, b, rfl, hsucceeds, hsucceeds', hprocess, gathered_of_moveFiles hmove hrename⟩

/-- Both processes leave a map in the run root, where the first one of them replaces an old
one, and the first process leaves the files to be renamed. -/
def mapsHost : Host :=
  .scripted []
    [⟨[.print .out [104], .write ⟨"map_H0"⟩ [1], .write ⟨"results/unmunged_method.map"⟩ [2],
        .write ⟨"results/unmunged_name.map"⟩ [3], .write ⟨"results/map_H0"⟩ []], false, .code 0⟩,
      ⟨[.print .err [105], .write ⟨"map_I0"⟩ [4]], false, .code 0⟩]

def mapsStore : Disk :=
  .holding [(["java"], .file [] 0o755), (["run"], .directory 0o755)]

theorem relations_gathers_two_maps :
    let run := (relations "Main").run mapsHost .usual (.ofDisk mapsStore)
    ∃ a b names, run.2.calls = [a, b] ∧
      (∃ outcome, run.1 = .ok outcome ∧ outcome.process = some ⟨[104, 105], [], some 0, true⟩) ∧
      "map_H0" ∈ names ∧ "map_I0" ∈ names ∧
      Collected .usual ["run"] ["results", "run"] names
        (mapsHost.engine.left [a] b) run.2.disk := by
  intro run
  obtain ⟨made, hcalls, _, _, _, _, hok⟩ :=
    relations_gathers_maps (Prod.eta run).symm
  -- the paths are looked up on the disk that the second call left
  have hrun : run.1 = .ok ⟨some ⟨[104, 105], [], some 0, true⟩,
      some "relations for Main in /run/results"⟩ ∧
      ∀ past call, past ++ [call] <+: run.2.calls → past.length = 1 →
      (mapsHost.engine.left past call).resolve ⟨"/run"⟩ = .ok ["run"] ∧
      ((mapsHost.engine.left past call).clear ["results", "run"]).resolve ⟨"/run"⟩ = .ok ["run"] ∧
      ((mapsHost.engine.left past call).clear ["results", "run"]).resolve ⟨"/run/results"⟩ =
        .ok ["results", "run"] ∧
      (mapsHost.engine.left past call).tree.isDirectory ["run"] = true ∧
      (mapsHost.engine.left past call).tree.isDirectory ["results", "run"] = true ∧
      (mapsHost.engine.left past call).tree.find ["map_H0", "run"] = some (.file [1] 0o644) ∧
      (mapsHost.engine.left past call).tree.find ["map_I0", "run"] = some (.file [4] 0o644) := by
    decide +kernel
  obtain ⟨hresult, hlooked⟩ := hrun
  obtain ⟨a, b, rfl, _, _, _, hgathered, _⟩ := hok _ hresult
  obtain ⟨hroot, hroot', hworkDir, hdir, hdir', hfirst, hsecond⟩ :=
    hlooked [a] b (hcalls ▸ List.prefix_refl _) rfl
  obtain ⟨names, hmem, hcollected⟩ := hgathered ["run"] hroot hdir
  refine ⟨a, b, names, hcalls, ⟨_, hresult, rfl⟩, (hmem _).2 ⟨by decide, .file hfirst ?_ ?_⟩,
    (hmem _).2 ⟨by decide, .file hsecond ?_ ?_⟩, hcollected ["results", "run"] ?_ ?_⟩
  · decide
  · decide +kernel
  · decide
  · decide +kernel
  · exact enters_without_inside (List.forall_mem_append.2 ⟨exists_of_mem_overwritten,
      exists_of_mem_concerned⟩) ((resolve_eq_ok_iff.1 hroot').enters_clear hdir)
  · exact enters_without_inside (List.forall_mem_append.2 ⟨exists_of_mem_overwritten,
      exists_of_mem_concerned⟩) ((resolve_eq_ok_iff.1 hworkDir).enters_clear hdir')

/-- The first process may turn the working directory into the run root. Then the maps are
moved to where they are. -/
theorem relations_leaves_maps_in_root :
    let d : Disk := .holding [(["java"], .file [] 0o755), (["run"], .directory 0o755),
      (["other"], .directory 0o755), (["d", "other"], .directory 0o755),
      (["l", "run"], .link ⟨"/other/d"⟩)]
    let host : Host := .scripted []
      [⟨[.remove ⟨"l"⟩, .makeDirectory ⟨"l"⟩, .write ⟨"map_H0"⟩ [], .write ⟨"unmunged_method.map"⟩ [],
        .write ⟨"unmunged_name.map"⟩ []], false, .code 0⟩]
    let run := (relations "Main").run host (Setup.working ⟨"/run"⟩ ⟨"l/.."⟩) (.ofDisk d)
    (Setup.working ⟨"/run"⟩ ⟨"l/.."⟩).config.validate d = .ok () ∧ run.1.toBool = true ∧
      run.2.disk.tree.find ["map_H0", "run"] = some (.file [] 0o644) := by
  decide +kernel

end Stage
end PointsTo
