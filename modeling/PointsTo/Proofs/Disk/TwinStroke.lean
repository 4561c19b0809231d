import PointsTo.Proofs.Disk.TwinFiles

/-!
Replacing a file in one stroke on two disks that differ in the slots of a directory. The
temporary file gets the same name on both, since no slot has such a name, and nothing
that is looked up on the way comes to a slot.
-/

namespace PointsTo

open PointsTo.Path (Step)

namespace Tree

section File

variable {slots : Slots} {s t : Tree} {place l : Location} {links : Nat} {steps : List Step}
  {last : Path.Ending}

/-- A tree that has a file where the other has no directory. -/
structure Filed (place : Location) (s t : Tree) : Prop where
  same : ∀ {k}, k ≠ place → t.find k = s.find k
  file : ∃ data mode, t.find place = some (.file data mode)
  plain : s.isDirectory place = false

theorem Filed.not_directory (h : Filed place s t) : t.isDirectory place = false := by
  obtain ⟨data, mode, hfile⟩ := h.file
  rw [isDirectory_eq_of_find hfile]
  rfl

theorem Filed.isDirectory (h : Filed place s t) (k : Location) : t.isDirectory k = s.isDirectory k := by
  by_cases hk : k = place
  · rw [hk, h.not_directory, h.plain]
  · exact isDirectory_congr (h.same hk)

theorem Filed.child?_eq (h : Filed place s t) {name : String} (hk : name :: l ≠ place) :
    t.child? l name = s.child? l name := by
  rw [child?, child?, h.isDirectory, h.same hk]

/-- Under its name there is the file, if its directory can be looked into. -/
theorem Filed.child?_place (h : Filed place s t) {name : String} (hk : name :: l = place) :
    (∃ e, t.child? l name = .error e) ∨
      ∃ data mode, t.child? l name = .ok (some (.file data mode)) := by
  obtain ⟨data, mode, hfile⟩ := h.file
  cases hchild : t.child? l name with
  | error e => exact Or.inl ⟨e, rfl⟩
  | ok x =>
      have hx := (child?_eq_ok_iff.1 hchild).2.2
      rw [hk, hfile] at hx
      exact Or.inr ⟨data, mode, hx ▸ rfl⟩

/-- Slots are in no place that is no directory. -/
theorem Filed.has_cons (h : Filed place s t) (hdir : s.isDirectory slots.dir = true)
    (name : String) : slots.has (name :: place) = false := by
  cases hhas : slots.has (name :: place) with
  | false => rfl
  | true =>
      have hplain := h.plain
      rw [(Slots.has_cons_iff.1 hhas).2, hdir] at hplain
      cases hplain

/-- A walk that comes to the file ends there or has nowhere to go. -/
theorem Filed.walkSteps_place {arrive halt : Location → Except Errno Location}
    {jump past : Location → List Step → Except Errno Location} {name : String}
    (h : Filed place s t) (hdir : s.isDirectory slots.dir = true)
    (hplace : slots.has place = false) (hend : halt place = arrive place)
    (hk : name :: l = place) (rest : List Step) :
    t.walkSteps (fun l => !slots.has l) halt past l (.down name :: rest) =
      t.walkSteps (fun _ => true) arrive jump l (.down name :: rest) := by
  simp only [Tree.walkSteps, hk, hplace, Bool.not_false, Bool.true_eq_false, ↓reduceIte]
  rcases h.child?_place hk with ⟨e, hchild⟩ | ⟨data, mode, hchild⟩
  · rw [hchild]
  · rw [hchild]
    cases rest with
    | nil => exact hend
    | cons step rest =>
        dsimp only
        rw [walkSteps_of_not_directory h.not_directory step rest fun name => by
            simp [h.has_cons hdir],
          walkSteps_of_not_directory h.not_directory step rest fun _ => rfl]

/-- A walk that comes to no slot comes to none either where a file is put elsewhere: at the
file it ends. -/
theorem Filed.walkSteps {arrive arrive' halt halt' : Location → Except Errno Location}
    {jump jump' past past' : Location → List Step → Except Errno Location}
    (h : Filed place s t) (hslotted : s.Slotted slots) (hdir : s.isDirectory slots.dir = true)
    (hplace : slots.has place = false)
    (hbars : ∀ {l}, slots.has l = true → slots.Bars (arrive l))
    (hend : halt' place = arrive' place)
    (hstop : ∀ {l}, halt l = arrive l → halt' l = arrive' l)
    (hjump : ∀ {l steps}, past l steps = jump l steps → past' l steps = jump' l steps)
    (hw : s.walkSteps (fun l => !slots.has l) halt past l steps =
      s.walkSteps (fun _ => true) arrive jump l steps) :
    t.walkSteps (fun l => !slots.has l) halt' past' l steps =
      t.walkSteps (fun _ => true) arrive' jump' l steps := by
  induction steps generalizing l with
  | nil => exact hstop hw
  | cons step rest ih =>
      cases step with
      | stay | up =>
          simp only [Tree.walkSteps, h.isDirectory] at hw ⊢
          split
          · next hl =>
            rw [if_pos hl, if_pos hl] at hw
            exact ih hw
          · rfl
      | down name =>
          by_cases hk : name :: l = place
          · exact h.walkSteps_place hdir hplace hend hk rest
          · cases hhas : slots.has (name :: l) with
            | true =>
                rw [Tree.walkSteps, if_pos (by simp [hhas])] at hw
                exact absurd hw.symm (hslotted.bars hhas (hbars hhas) rest).ne
            | false =>
                simp only [Tree.walkSteps, h.child?_eq hk, hhas, Bool.not_false, Bool.true_eq_false,
                  ↓reduceIte] at hw ⊢
                cases hx : s.child? l name with
                | error e => rfl
                | ok x =>
                    rw [hx] at hw
                    cases x with
                    | none => rfl
                    | some e =>
                        cases e with
                        | link target => exact hjump hw
                        | file data mode | directory mode => exact ih hw

theorem Filed.walkLinks {α : Type} {last : α} {arrive arrive' halt halt' : (Location → List Step →
      α → Except Errno Location) → α → Location → Except Errno Location}
    (h : Filed place s t) (hslotted : s.Slotted slots) (hdir : s.isDirectory slots.dir = true)
    (hplace : slots.has place = false)
    (hbars : ∀ jump last {l}, slots.has l = true → slots.Bars (arrive jump last l))
    (hend : ∀ jump past last, halt' past last place = arrive' jump last place)
    (hstop : ∀ {jump jump' past past' : Location → List Step → α → Except Errno Location},
      (∀ {l steps last}, past l steps last = jump l steps last →
        past' l steps last = jump' l steps last) →
      ∀ {last l}, halt past last l = arrive jump last l → halt' past' last l = arrive' jump' last l)
    (hw : s.walkLinks (fun l => !slots.has l) halt links l steps last =
      s.walkLinks (fun _ => true) arrive links l steps last) :
    t.walkLinks (fun l => !slots.has l) halt' links l steps last =
      t.walkLinks (fun _ => true) arrive' links l steps last := by
  induction links generalizing l steps last with
  | zero => rfl
  | succ links ih =>
      exact h.walkSteps hslotted hdir hplace (hbars _ last) (hend _ _ last) (hstop ih) ih hw

theorem Filed.walkWithin (h : Filed place s t) (hslotted : s.Slotted slots)
    (hdir : s.isDirectory slots.dir = true) (hplace : slots.has place = false)
    (hw : s.walkWithin (fun l => !slots.has l) links l steps =
      s.walkWithin (fun _ => true) links l steps) :
    t.walkWithin (fun l => !slots.has l) links l steps =
      t.walkWithin (fun _ => true) links l steps := by
  refine h.walkLinks hslotted hdir hplace (fun _ _ l hl => ?_) (fun _ _ _ => rfl)
    (fun _ _ _ _ => rfl) hw
  exact hl

/-- Ways to directories do not lead through the file. -/
theorem Filed.leadsTo (h : Filed place s t) {r : Location} (hr : s.isDirectory r = true) :
    t.LeadsTo s r where
  directory := fun {l} hl => (h.isDirectory l).symm.trans hl
  link := fun {dir name target} hl => by
    left
    rw [← h.same, hl]
    intro hk
    obtain ⟨data, mode, hfile⟩ := h.file
    rw [hk, hfile] at hl
    cases hl
  file := fun hfile => by
    rw [← h.isDirectory, isDirectory_eq_of_find hfile] at hr
    cases hr

/-- The last name is that of the file or of what is in both trees. -/
theorem Filed.fileAt {jump jump' past past' : Location → List Step → Path.Ending →
      Except Errno Location} (h : Filed place s t) (hslotted : s.Slotted slots)
    (hplace : slots.has place = false)
    (hjump : ∀ {l steps last}, past l steps last = jump l steps last →
      past' l steps last = jump' l steps last)
    (hw : s.fileAt (fun l => !slots.has l) past last l = s.fileAt (fun _ => true) jump last l) :
    t.fileAt (fun l => !slots.has l) past' last l = t.fileAt (fun _ => true) jump' last l := by
  cases last with
  | root | here | up => rfl
  | name name slash =>
      cases slash with
      | true => rfl
      | false =>
          by_cases hk : name :: l = place
          · simp only [Tree.fileAt, hk, hplace, Bool.not_false, Bool.true_eq_false, ↓reduceIte]
            rcases h.child?_place hk with ⟨e, hchild⟩ | ⟨data, mode, hchild⟩
            · rw [hchild]
            · rw [hchild]
          · cases hhas : slots.has (name :: l) with
            | true =>
                rw [Tree.fileAt, if_pos (by simp [hhas])] at hw
                exact absurd hw.symm (hslotted.bars_fileAt hhas).ne
            | false =>
                simp only [Tree.fileAt, h.child?_eq hk, hhas, Bool.not_false, Bool.true_eq_false,
                  ↓reduceIte] at hw ⊢
                cases hx : s.child? l name with
                | error e => rfl
                | ok x =>
                    rw [hx] at hw
                    cases x with
                    | none => rfl
                    | some e =>
                        cases e with
                        | link target => exact hjump hw
                        | file data mode | directory mode => rfl

theorem Filed.fileWithin (h : Filed place s t) (hslotted : s.Slotted slots)
    (hdir : s.isDirectory slots.dir = true) (hplace : slots.has place = false)
    (hw : s.fileWithin (fun l => !slots.has l) links l steps last =
      s.fileWithin (fun _ => true) links l steps last) :
    t.fileWithin (fun l => !slots.has l) links l steps last =
      t.fileWithin (fun _ => true) links l steps last := by
  refine h.walkLinks hslotted hdir hplace (fun _ last _ hl => hslotted.bars_in hl last)
    (fun jump past last => ?_) (fun hjump => h.fileAt hslotted hplace hjump) hw
  rw [fileAt_of_not_directory h.not_directory last fun name => by simp [h.has_cons hdir],
    fileAt_of_not_directory h.not_directory last fun _ => rfl]

end File
end Tree

namespace Disk

/-- A disk that has a file where the other has no directory. -/
structure Filed (place : Location) (d d' : Disk) : Prop where
  tree : d.tree.Filed place d'.tree
  cwd : d'.cwd = d.cwd
  lost : d'.lost = d.lost

section Filed

variable {slots : Slots} {d d' : Disk} {place : Location} {p : Path} {steps : List Step}

theorem Filed.back (h : Filed place d d') {r : Location} (hr : d.tree.isDirectory r = true) :
    d'.LeadsTo d r where
  tree := h.tree.leadsTo hr
  above := ⟨0, by simp [h.cwd], by simp [h.lost]⟩

/-- Both disks start a path alike, so that what follows from there decides. -/
theorem Filed.bind_start {α : Type} {f f' g g' : Option (Location × List Step) → Except Fault α}
    (h : Filed place d d') (hfg : ∀ x, f x = g x → f' x = g' x)
    (hs : d.start p steps >>= f = d.start p steps >>= g) :
    d'.start p steps >>= f' = d'.start p steps >>= g' := by
  have hstart : d'.start p steps = d.start p steps := by
    unfold start
    rw [h.cwd, h.lost]
  rw [hstart]
  cases hx : d.start p steps with
  | error e => rfl
  | ok x =>
      rw [hx] at hs
      exact hfg x hs

theorem Filed.sidesteps (h : Filed place d d') (hd : d.tree.Slotted slots)
    (hdir : d.tree.isDirectory slots.dir = true) (hplace : slots.has place = false)
    (hs : d.Sidesteps slots p steps) : d'.Sidesteps slots p steps := by
  refine h.bind_start (fun x hx => ?_) hs
  cases x with
  | none => rfl
  | some x =>
      obtain ⟨l, rest⟩ := x
      dsimp only at hx ⊢
      rw [h.tree.walkWithin hd hdir hplace (eq_of_lift hx)]

theorem Filed.sidestepsFile (h : Filed place d d') (hd : d.tree.Slotted slots)
    (hdir : d.tree.isDirectory slots.dir = true) (hplace : slots.has place = false)
    (hs : d.SidestepsFile slots p) : d'.SidestepsFile slots p := by
  refine h.bind_start (fun x hx => ?_) hs
  cases x with
  | none => cases p.ending.2 <;> rfl
  | some x =>
      obtain ⟨l, rest⟩ := x
      dsimp only at hx ⊢
      rw [h.tree.fileWithin hd hdir hplace (lift_inj hx)]

end Filed

section Parent

variable {slots : Slots} {d : Disk} {p q : Path} {dir l : Location} {name : String}

/-- Stays at its end do not change where a path leads. -/
theorem Enters.of_within {front : List Step} {i j : Nat} (h : d.Enters p dir)
    (habs : q.isAbsolute = p.isAbsolute) (hq : q.within = front ++ List.replicate i .stay)
    (hp : p.within = front ++ List.replicate j .stay) : d.Enters q dir := by
  obtain ⟨hdir, rest, hsurface, hwalk⟩ := h
  rw [hp] at hsurface
  obtain ⟨first, hfirst, rfl⟩ := surface_of_append (by simp [surface_stay]) hsurface
  obtain ⟨mid, hmid, hend⟩ := Tree.walkWithin_append hwalk
  obtain rfl := eq_of_walkSteps_stay hend
  refine ⟨hdir, first ++ List.replicate i .stay, ?_, ?_⟩
  · rw [hq, sunk, habs]
    exact surface_append_ok _ hfirst
  · rw [origin, habs]
    exact Tree.walkWithin_append_eq hmid fun links => walkWithin_stay hdir links i

theorem Enters.parent (h : d.Enters p dir) (hn : IsName name) :
    ∃ q, (p / name).parent? = some q ∧ d.Enters q dir := by
  obtain ⟨q, hq, habs, front, i, j, hwithin, hwithin'⟩ := Path.parent?_div p hn
  exact ⟨q, hq, h.of_within habs hwithin hwithin'⟩

theorem sidesteps_of_walksTo (h : d.tree.Slotted slots) {steps : List Step}
    (hw : d.WalksTo p steps l) (hl : d.tree.isDirectory l = true) : d.Sidesteps slots p steps := by
  refine Decidable.byContradiction fun hs => ?_
  cases hc : checkText p with
  | error e => exact hs (sidesteps_of_checkText hc steps)
  | ok =>
      obtain ⟨rest, hsurface, hwalk⟩ := hw
      have hbars := bars_of_not_sidesteps h hs
      rw [goes_of_start (start_eq_some_iff.2 ⟨hc, hsurface, rfl⟩)] at hbars
      rw [Tree.walk] at hwalk
      rw [hwalk] at hbars
      rw [h.isDirectory hbars] at hl
      cases hl

end Parent

section Enter

variable {slots : Slots} {d d' : Disk} {p : Path} {dir : Location}

/-- A path leads to the same directory on both disks. -/
theorem Twins.enters (h : Twins slots d d') (hp : d.Enters p dir) : d'.Enters p dir := by
  obtain ⟨hdir, rest, hsurface, hwalk⟩ := hp
  have horigin : d'.origin p = d.origin p := by rw [origin, origin, h.cwd]
  have hsunk : d'.sunk p = d.sunk p := by rw [sunk, sunk, h.lost]
  refine ⟨(h.tree.isDirectory dir).trans hdir, rest, hsunk ▸ hsurface, ?_⟩
  rw [horigin]
  rcases h.tree.walkWithin (h.tree.slotted.has_eq_false (d.isDirectory_origin p)) Tree.maxLinks
    rest with ⟨hsame, _⟩ | ⟨hbars, _⟩
  · exact hsame.trans hwalk
  · rw [Tree.walk] at hwalk
    rw [hwalk] at hbars
    rw [h.tree.slotted.isDirectory hbars] at hdir
    cases hdir

theorem enter_fields (d : Disk) (l : Location) : (d.enter l).tree = d.tree ∧
    (d.enter l).cwd = (if d.tree.isDirectory l then l else d.cwd) ∧
    (d.enter l).lost = if d.tree.isDirectory l then 0 else d.lost := by
  unfold Disk.enter
  split <;> simp

theorem Twins.enter (h : Twins slots d d') (l : Location) :
    Twins slots (d.enter l) (d'.enter l) := by
  obtain ⟨htree, hcwd, hlost⟩ := d.enter_fields l
  obtain ⟨htree', hcwd', hlost'⟩ := d'.enter_fields l
  rw [h.tree.isDirectory] at hcwd' hlost'
  refine ⟨by rw [htree, htree']; exact h.tree, ?_, ?_⟩
  · rw [hcwd, hcwd', h.cwd]
  · rw [hlost, hlost', h.lost]

theorem Filed.enter {place : Location} (h : Filed place d d') (l : Location) :
    Filed place (d.enter l) (d'.enter l) := by
  obtain ⟨htree, hcwd, hlost⟩ := d.enter_fields l
  obtain ⟨htree', hcwd', hlost'⟩ := d'.enter_fields l
  rw [h.tree.isDirectory] at hcwd' hlost'
  refine ⟨by rw [htree, htree']; exact h.tree, ?_, ?_⟩
  · rw [hcwd, hcwd', h.cwd]
  · rw [hlost, hlost', h.lost]

end Enter

section Rename

variable {slots : Slots} {d d' : Disk} {p q : Path} {l srcDir : Location} {src : String}
  {contents : Bytes} {e : Entry}

theorem PutsFile.filed (h : d.PutsFile d' l contents) (hl : d.tree.isDirectory l = false) :
    Filed l d d' where
  tree := by
    obtain ⟨mode, hfind⟩ := h.find
    exact ⟨fun hk => (hfind _).trans (if_neg (Ne.symm hk)),
      ⟨contents, mode, (hfind l).trans (if_pos rfl)⟩, hl⟩
  cwd := h.cwd
  lost := h.lost

theorem Twins.setMode (h : Twins slots d d') (hs : d.Sidesteps slots p p.steps) (mode : Nat) :
    TwinResults slots (d.setMode p mode) (d'.setMode p mode) := by
  obtain ⟨hgoes, hfree⟩ := h.goes hs
  unfold Disk.setMode
  rw [place_eq_goes, place_eq_goes, hgoes]
  cases hx : d.goes (fun _ => true) p p.steps with
  | error e => exact rfl
  | ok x =>
      cases x with
      | none => exact h
      | some l =>
          have hl := hfree l hx
          simp only [Bind.bind, Except.bind, h.tree.same hl]
          cases d.tree.find l with
          | none => exact h
          | some e => exact h.put hl _

/-- Whether a file may be renamed depends on what has the new name only. -/
theorem checkRename_congr {s t : Tree} {dst : Location} (he : e.isDirectory = false)
    (hdst : t.find dst = s.find dst) (slash : Bool) :
    checkRename t l dst e slash = checkRename s l dst e slash := by
  unfold checkRename
  rw [hdst]
  cases s.find dst with
  | none => rfl
  | some f => cases hf : f.isDirectory <;> simp [he, hf]

theorem Twins.rename_cases (h : Twins slots d d')
    (hsrc : d.resolveLast p = .ok (srcDir, .name src false))
    (hchild : d.tree.child? srcDir src = .ok (some e)) (he : e.isDirectory = false)
    (hhas : slots.has (src :: srcDir) = false) (hs : d.Sidesteps slots q q.steps) :
    (∃ fault, d.rename p q = .error fault ∧ d'.rename p q = .error fault) ∨
      ∃ made made', d.rename p q = .ok made ∧ d'.rename p q = .ok made' := by
  have hsrc' := (h.resolveLast (sidesteps_of_resolveLast h.tree.slotted hsrc)).trans hsrc
  have hdst' := h.resolveLast (hs.ending h.tree.slotted)
  unfold Disk.rename
  rw [hsrc, hsrc', hdst']
  cases hdst : d.resolveLast q with
  | error fault => exact Or.inl ⟨fault, rfl, rfl⟩
  | ok x =>
      obtain ⟨dstDir, last⟩ := x
      cases last with
      | root | here | up => exact Or.inl ⟨_, rfl, rfl⟩
      | name dst slash =>
          have hfree := has_of_sidesteps h.tree.slotted hs hdst
          have hlift : lift (.ok (some e)) = .ok (some e) := rfl
          simp only [Bind.bind, Except.bind, h.tree.child? hhas, h.tree.child? hfree, hchild, hlift,
            checkRename_congr he (h.tree.same hfree)]
          cases lift (d.tree.child? dstDir dst) with
          | error fault => exact Or.inl ⟨fault, rfl, rfl⟩
          | ok x =>
              dsimp only
              cases lift (checkRename d.tree (src :: srcDir) (dst :: dstDir) e (false || slash)) with
              | error fault => exact Or.inl ⟨fault, rfl, rfl⟩
              | ok =>
                  right
                  by_cases hsame : src :: srcDir = dst :: dstDir
                  · exact ⟨d, d', if_pos hsame, if_pos hsame⟩
                  · exact ⟨_, _, if_neg hsame, if_neg hsame⟩

theorem Twins.rename (h : Twins slots d d')
    (hsrc : d.resolveLast p = .ok (srcDir, .name src false))
    (hchild : d.tree.child? srcDir src = .ok (some e)) (he : e.isDirectory = false)
    (hhas : slots.has (src :: srcDir) = false) (hs : d.Sidesteps slots q q.steps) :
    TwinResults slots (d.rename p q) (d'.rename p q) := by
  rcases h.rename_cases hsrc hchild he hhas hs with ⟨fault, hr, hr'⟩ | ⟨made, made', hr, hr'⟩
  · rw [hr, hr']
    exact rfl
  · rw [hr, hr']
    have hsrc' := (h.resolveLast (sidesteps_of_resolveLast h.tree.slotted hsrc)).trans hsrc
    obtain ⟨dst, dstDir, slash, hdst, _, hfind, hstays, _⟩ := rename_file hsrc hchild he hr
    obtain ⟨_, _, _, hdst', _, hfind', hstays', _⟩ :=
      rename_file hsrc' ((h.tree.child? hhas).trans hchild) he hr'
    cases hdst'.symm.trans ((h.resolveLast (hs.ending h.tree.slotted)).trans hdst)
    have hfree := has_of_sidesteps h.tree.slotted hs hdst
    have hslot : ∀ {d made : Disk}, d.tree.Slotted slots →
        (∀ k, made.tree.find k = if k = dst :: dstDir then some e
          else if k = src :: srcDir then none else d.tree.find k) → made.tree.Slotted slots :=
      fun {d made} hd hfind k f hk hf => by
        rw [hfind, if_neg (fun hk' => by simp [hk', hfree] at hk),
          if_neg (fun hk' => by simp [hk', hhas] at hk)] at hf
        exact hd k f hk hf
    refine ⟨⟨hslot h.tree.slotted hfind, hslot h.tree.slotted' hfind', fun hk => ?_⟩, ?_, ?_⟩
    · rw [hfind, hfind', h.tree.same hk]
    · rw [hstays.1, hstays'.1, h.cwd]
    · rw [hstays.2, hstays'.2, h.lost]

end Rename
end Disk

namespace WorkDir

open Disk

variable {slots : Slots} {d d' : Disk} {p q temporary : Path} {dir : Location}
  {name : TemporaryName} {draws : List TemporaryName}

theorem resolveLast_temporary {place : Location} {tmp : String} {slash : Bool}
    (hl : d.resolveLast (p / name.text) = .ok (place, .name tmp slash)) :
    d.Enters p place ∧ tmp = name.text ∧ slash = false := by
  obtain ⟨_, henters, hend⟩ := (resolveLast_div_iff name.isName_text).1 hl
  injection hend with hn hs
  exact ⟨henters, hn, hs⟩

/-- From the root down to the current directory, and from there on. -/
theorem within_cwd_join (d : Disk) (ha : q.isAbsolute = false) :
    (d.cwd.toPath.join q).within = (.stay :: d.cwd.reverse.map .down) ++ q.within := by
  have hnames := Tree.isName_of_mem (Or.inl d.cwd_isDirectory : d.tree.Stands d.cwd)
  rw [Path.within, Path.openSegments_join _ ha, List.map_append,
    ← Path.within, Location.within_toPath hnames, ← Path.within]

/-- The way to a temporary file comes to no slot: it goes where the path of its directory
leads. -/
theorem sidesteps_temporary (h : d.tree.Slotted slots) (hq : d.Enters q dir)
    (hp : temporaryDir d q = .ok p) (name : TemporaryName) :
    d.Sidesteps slots (p / name.text) (p / name.text).ending.1 := by
  have hname := name.isName_text
  have henter : ∀ {p}, d.Enters p dir →
      d.Sidesteps slots (p / name.text) (p / name.text).ending.1 := fun {p} henters => by
    rw [Path.ending_div p hname]
    exact sidesteps_of_walksTo h ((walksTo_div_iff hname).2 henters.2) henters.1
  rcases temporaryDir_cases hp with ⟨ha, rfl⟩ | ⟨ha, hlost, rfl⟩
  · exact henter hq
  · have habs : (d.cwd.toPath.join q).isAbsolute = true := by
      rw [Path.isAbsolute_join_eq]
      simp [Location.toPath, Path.isAbsolute]
    have hwithin := within_cwd_join d ha
    obtain ⟨x, hx, hwalk⟩ := Tree.walk_down d.cwd_isDirectory
    have hdown : ∀ fits links, (∀ k, d.tree.isDirectory k = true → fits k = true) →
        d.tree.walkWithin fits links [] (.stay :: d.cwd.reverse.map .down) = x :=
      fun fits links hfits => hwalk fits links hfits
    rcases hx with rfl | rfl
    · refine henter ⟨hq.1, (d.cwd.toPath.join q).within, ?_, ?_⟩
      · rw [sunk, if_pos habs, surface_zero]
      · obtain ⟨_, rest, hsurface, hrest⟩ := hq
        rw [sunk, if_neg (by simp [ha]), hlost, surface_zero] at hsurface
        rw [origin, if_neg (by simp [ha])] at hrest
        cases hsurface
        rw [origin, if_pos habs, hwithin, Tree.walk, ← Nat.zero_add Tree.maxLinks]
        exact Tree.walkWithin_of_append (hdown _ 0 fun _ _ => rfl) hrest
    · -- the current directory itself is too far down for its path to be walked
      have hfault : ∀ fits, (∀ k, d.tree.isDirectory k = true → fits k = true) →
          d.tree.walkWithin fits Tree.maxLinks [] (d.cwd.toPath.join q).within =
            .error .nameTooLong := fun fits hfits => by
        rw [hwithin]
        exact Tree.walkWithin_append_error (hdown fits _ hfits) _
      cases hc : checkText (d.cwd.toPath.join q / name.text) with
      | error e => exact sidesteps_of_checkText hc _
      | ok =>
          have hstart : d.start (d.cwd.toPath.join q / name.text)
              (d.cwd.toPath.join q).within = .ok (some ([], (d.cwd.toPath.join q).within)) := by
            have habs' := (Path.isAbsolute_div _ hname).trans habs
            refine start_eq_some_iff.2 ⟨hc, ?_, ?_⟩
            · rw [sunk, if_pos habs', surface_zero]
            · rw [origin, if_pos habs']
          rw [Path.ending_div _ hname, Sidesteps, goes_of_start hstart, goes_of_start hstart,
            hfault _ fun _ _ => rfl, hfault _ fun k hk => by simp [h.has_eq_false hk]]

section Temporary

variable (hnames : ∀ name : TemporaryName, name.text ∉ slots.names)
include hnames

theorem has_temporary {place : Location} {tmp : String} {slash : Bool}
    (hlast : d.resolveLast (p / name.text) = .ok (place, .name tmp slash)) :
    slots.has (tmp :: place) = false := by
  obtain ⟨_, rfl, _⟩ := resolveLast_temporary hlast
  cases hhas : slots.has (name.text :: place) with
  | false => rfl
  | true => exact absurd (Slots.has_cons_iff.1 hhas).1 (hnames name)

/-- The temporary file is made alike, under whichever name. -/
theorem twins_createTemporary (h : Twins slots d d') (hq : d.Enters q dir)
    (hp : temporaryDir d q = .ok p) (name : TemporaryName) (e : Entry) :
    TwinResults slots (d.create (p / name.text) e) (d'.create (p / name.text) e) :=
  h.create_of_last (h.resolveLast (sidesteps_temporary h.tree.slotted hq hp name))
    (fun _ _ _ hlast => has_temporary hnames hlast) e

theorem temporaryPath_twins (h : Twins slots d d') (hq : d.Enters q dir)
    (draws : List TemporaryName) : temporaryPath draws d' q = temporaryPath draws d q := by
  have hdir : temporaryDir d' q = temporaryDir d q := by
    unfold temporaryDir currentPath
    rw [h.cwd, h.lost]
  unfold temporaryPath
  rw [hdir]
  cases hp : temporaryDir d q with
  | error e => simp only [Bind.bind, Except.bind]
  | ok p =>
      have htaken : isTaken d' p = isTaken d p := funext fun name => by
        unfold isTaken
        rcases (twins_createTemporary hnames h hq hp name (.file [] temporaryMode)).cases with
          ⟨e, hc, hc'⟩ | ⟨made, made', hc, hc', _⟩
        · rw [hc, hc']
        · rw [hc, hc']
      simp only [Bind.bind, Except.bind, htaken]

/-- The temporary file is made and filled alike. -/
theorem twins_writeTemporary (h : Twins slots d d') (hdir : d.Enters q slots.dir)
    (hp : temporaryDir d q = .ok p) {path : Path} (hs : d.Sidesteps slots path path.steps)
    (contents : Bytes) (name : TemporaryName) :
    TwinResults slots (writeTemporary (p / name.text) path contents d)
      (writeTemporary (p / name.text) path contents d') := by
  have hcreate := twins_createTemporary hnames h hdir hp name (.file [] temporaryMode)
  unfold writeTemporary
  refine (hcreate.mapError _).bind fun created created' hc htwins => ?_
  obtain ⟨tmp, place, hvacant, rfl⟩ := vacant_of_create (mapError_eq_ok_iff.1 hc)
  have hhas := has_temporary hnames hvacant.last
  have hfile : ∀ {made : Disk} {data mode}, made = d.put (tmp :: place) (.file data mode) →
      made.tree.Slotted slots → made.SidestepsFile slots (p / name.text) ∧
        made.Sidesteps slots (p / name.text) (p / name.text).steps :=
    fun {made data mode} he hmade => by
      have hlast : made.resolveLast (p / name.text) = .ok (place, .name tmp false) :=
        he ▸ hvacant.last_put
      have hfind : made.tree.find (tmp :: place) = some (.file data mode) := by
        rw [he, hvacant.find_put, if_pos rfl]
      obtain ⟨hplace, hshort, _⟩ := Tree.child?_eq_ok_iff.1 hvacant.child?_put
      have hdest := destination_of_resolveLast hlast
        ⟨hvacant.isName, he ▸ hplace, hshort, Or.inr ⟨data, mode, hfind⟩⟩
      exact ⟨sidestepsFile_of_destination hmade hdest hhas,
        sidesteps_of_name hmade hlast hhas fun target => by simp [hfind]⟩
  refine (htwins.write (hfile rfl htwins.tree.slotted).1 contents).bind
    fun written written' hw htwins => ?_
  cases hvacant.write.symm.trans hw
  have hpath :
      (d.put (tmp :: place) (.file contents temporaryMode)).Sidesteps slots path path.steps :=
    (hvacant.putsFile.filed hvacant.isDirectory).sidesteps h.tree.slotted hdir.1 hhas hs
  rw [htwins.entry hpath]
  cases (d.put (tmp :: place) (.file contents temporaryMode)).entry path with
  | error e => exact htwins
  | ok e => exact htwins.setMode (hfile rfl htwins.tree.slotted).2 _

theorem twins_renameTemporary {made made' : Disk} {path : Path} {contents : Bytes}
    (h : Twins slots d d') (hdir : d.tree.isDirectory slots.dir = true)
    (hs : d.Sidesteps slots path path.steps)
    (hw : writeTemporary (p / name.text) path contents d = .ok made)
    (hmade : Twins slots made made') :
    TwinResults slots (made.rename (p / name.text) path) (made'.rename (p / name.text) path) := by
  obtain ⟨tmp, place, mode, hvacant, rfl⟩ := writeTemporary_cases hw
  have hhas := has_temporary hnames hvacant.last
  exact hmade.rename hvacant.last_put hvacant.child?_put rfl hhas
    ((hvacant.putsFile.filed hvacant.isDirectory).sidesteps h.tree.slotted hdir hhas hs)

/-- A file of the directory that has the slots is replaced alike, if its path does not
lead to a slot. -/
theorem twins_writeAtomic {file : String} (h : Twins slots d d') (hdir : d.Enters p slots.dir)
    (hfile : IsName file) (hs : d.Sidesteps slots (p / file) (p / file).steps) (contents : Bytes)
    (draws : List TemporaryName) :
    (writeAtomic (p / file) contents draws d').1 = (writeAtomic (p / file) contents draws d).1 ∧
      Twins slots (writeAtomic (p / file) contents draws d).2
        (writeAtomic (p / file) contents draws d').2 := by
  obtain ⟨q, hparent, hq⟩ := hdir.parent hfile
  unfold writeAtomic
  simp only [hparent, Option.getD_some, temporaryPath_twins hnames h hq]
  cases ht : temporaryPath draws d q with
  | error e => exact ⟨rfl, h⟩
  | ok temporary =>
      dsimp only
      obtain ⟨above, name, hp, _, rfl⟩ := temporaryPath_cases ht
      rcases (twins_writeTemporary hnames h hq hp hs contents name).cases with
        ⟨e, hw, hw'⟩ | ⟨made, made', hw, hw', hmade⟩
      · rw [hw, hw']
        exact ⟨rfl, h⟩
      · rw [hw, hw']
        dsimp only
        rcases (twins_renameTemporary hnames h hdir.1 hs hw hmade).cases with
          ⟨e, hr, hr'⟩ | ⟨done, done', hr, hr', hdone⟩
        · rw [hr, hr']
          exact ⟨rfl, hmade.attempt_unlink _⟩
        · rw [hr, hr']
          exact ⟨rfl, hdone⟩

end Temporary
end WorkDir
end PointsTo
