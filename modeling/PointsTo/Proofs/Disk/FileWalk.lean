import PointsTo.Proofs.Disk.Ways

/-!
Walks to the place of a file. Such a walk makes the moves before the last segment like
any other walk and ends at the name of a file, which need not be there. Once a file is
there, the moves of the whole path lead to it.
-/

namespace PointsTo

open PointsTo.Path (Step)

namespace Tree

/-- A place for a file: a proper name in a directory, with nothing there or a file. -/
structure TakesFile (t : Tree) (name : String) (dir : Location) : Prop where
  isName : IsName name
  isDirectory : t.isDirectory dir = true
  short : name.utf8ByteSize ≤ maxNameBytes
  free : t.find (name :: dir) = none ∨ ∃ data mode, t.find (name :: dir) = some (.file data mode)

theorem TakesFile.isFile {t : Tree} {name : String} {dir : Location} (h : t.TakesFile name dir)
    (e : Entry) (he : t.find (name :: dir) = some e) : e.isFile = true := by
  rcases h.free with hnone | ⟨data, mode, hfile⟩
  · cases hnone.symm.trans he
  · cases hfile.symm.trans he
    rfl

theorem TakesFile.isAside {t : Tree} {name : String} {dir : Location} (h : t.TakesFile name dir) :
    t.IsAside (name :: dir) := by
  rcases h.free with hnone | ⟨data, mode, hfile⟩
  · exact isAside_of_none hnone nofun
  · exact isAside_of_find hfile rfl nofun

section Steps

variable {t : Tree} {fits : Location → Bool}
  {jump : Location → List Step → Path.Ending → Except Errno Location} {l r dir : Location}
  {name : String} {steps : List Step} {last : Path.Ending} {links : Nat}

/-- The last segment has to be a name without a separator after it. -/
theorem fileAt_eq_ok :
    t.fileAt fits jump last l = .ok r ↔
      ∃ name, last = .name name false ∧ fits (name :: l) = true ∧
      ∃ x, t.child? l name = .ok x ∧
        ((∃ target, x = some (.link target) ∧
            jump (linkStart l target) target.ending.1 target.ending.2 = .ok r) ∨
          (x = none ∨ ∃ data mode, x = some (.file data mode)) ∧ r = name :: l) := by
  have hother : (∀ name, last ≠ .name name false) →
      ∃ e, t.fileAt fits jump last l = .error e := fun hne => by
    rw [fileAt]
    · split <;> exact ⟨_, rfl⟩
    · exact fun name hn => hne name hn
  constructor
  · intro h
    by_cases hlast : ∃ name, last = .name name false
    · obtain ⟨name, rfl⟩ := hlast
      refine ⟨name, rfl, ?_⟩
      rw [fileAt] at h
      split at h
      · cases h
      · next hf =>
        refine ⟨by simpa using hf, ?_⟩
        split at h
        · cases h
        · next hc =>
          cases h
          exact ⟨none, hc, Or.inr ⟨Or.inl rfl, rfl⟩⟩
        · next data mode hc =>
          cases h
          exact ⟨_, hc, Or.inr ⟨Or.inr ⟨data, mode, rfl⟩, rfl⟩⟩
        · cases h
        · next target hc => exact ⟨_, hc, Or.inl ⟨target, rfl, h⟩⟩
    · obtain ⟨e, he⟩ := hother fun name hn => hlast ⟨name, hn⟩
      cases he.symm.trans h
  · rintro ⟨name, rfl, hf, x, hc, ⟨target, rfl, h⟩ | ⟨rfl | ⟨data, mode, rfl⟩, rfl⟩⟩
    · rw [fileAt, if_neg (by simp [hf]), hc]
      exact h
    · rw [fileAt, if_neg (by simp [hf]), hc]
    · rw [fileAt, if_neg (by simp [hf]), hc]

/-- A file is looked for in directories only. -/
theorem isDirectory_of_fileAt (h : t.fileAt fits jump last l = .ok r) :
    t.isDirectory l = true := by
  obtain ⟨_, _, _, _, hchild, _⟩ := fileAt_eq_ok.1 h
  exact (child?_eq_ok_iff.1 hchild).1

theorem fileWithin_nil (links : Nat) :
    t.fileWithin fits links l [] last =
      t.fileAt fits (t.walkLinks fits (t.fileAt fits) links) last l := rfl

theorem walkLinks_walks (h : t.walkLinks fits (t.fileAt fits) links l steps last = .ok r) :
    ∃ name dir, last = .name name false ∧
      t.walkLinks fits (fun _ _ => .ok) links l steps () = .ok dir ∧ t.isDirectory dir = true := by
  induction links generalizing l steps last with
  | zero => cases h
  | succ links ih =>
      refine walkSteps_imp
        (fun x => ∃ name dir, last = .name name false ∧ x = .ok dir ∧ t.isDirectory dir = true)
        (fun h => ?_) (fun _ hj => ih hj) h
      obtain ⟨name, hname, _⟩ := fileAt_eq_ok.1 h
      exact ⟨name, _, hname, rfl, isDirectory_of_fileAt h⟩

/-- The path of a file ends in a name without a separator, and the moves before that lead
to a directory. -/
theorem fileWithin_walks (h : t.fileWithin fits links l steps last = .ok r) :
    ∃ name dir, last = .name name false ∧ t.walkWithin fits links l steps = .ok dir ∧
      t.isDirectory dir = true :=
  walkLinks_walks h

/-- The end of the walk, where no link is left to follow, decides where the file is. -/
theorem fileWithin_of_walkWithin {x : Except Errno Location}
    (hstop : ∀ links, t.fileWithin fits links dir [] last = x)
    (h : t.walkWithin fits links l steps = .ok dir) :
    t.fileWithin fits links l steps last = x := by
  have stop : ∀ links {l}, (Except.ok l : Except Errno Location) = .ok dir →
      t.fileWithin fits links l [] last = x := fun links l heq => by
    cases heq
    exact hstop links
  induction links generalizing l steps with
  | zero => exact walkSteps_imp (· = x) (stop 0) (fun _ hj => by cases hj) h
  | succ links ih => exact walkSteps_imp (· = x) (stop (links + 1)) (fun _ hj => ih hj) h

/-- A file that has its name in the directory, and no link there. -/
theorem fileWithin_of_takesFile (h : t.TakesFile name dir)
    (hw : t.walkWithin (fun _ => true) links l steps = .ok dir) :
    t.fileWithin (fun _ => true) links l steps (.name name false) = .ok (name :: dir) := by
  have hchild : t.child? dir name = .ok (t.find (name :: dir)) :=
    child?_eq_ok_iff.2 ⟨h.isDirectory, h.short, rfl⟩
  refine fileWithin_of_walkWithin (fun links => ?_) hw
  rw [fileWithin_nil]
  exact fileAt_eq_ok.2 ⟨name, rfl, rfl, _, hchild, Or.inr ⟨h.free, rfl⟩⟩

/-- Where there is no link the file has no other name. -/
theorem eq_of_fileWithin (hlink : ∀ target, t.find (name :: dir) ≠ some (.link target))
    (hw : t.walkWithin (fun _ => true) links l steps = .ok dir)
    (h : t.fileWithin (fun _ => true) links l steps (.name name false) = .ok r) :
    r = name :: dir := by
  have hsame : ∀ links, t.fileWithin (fun _ => true) links dir [] (.name name false) =
      t.fileWithin (fun _ => true) 0 dir [] (.name name false) := fun links => by
    rw [fileWithin_nil, fileWithin_nil, fileAt, fileAt]
    cases hchild : t.child? dir name with
    | error e => rfl
    | ok x =>
        cases x with
        | none => rfl
        | some e =>
            cases e with
            | link target => exact absurd (child?_eq_ok_iff.1 hchild).2.2 (hlink target)
            | file data mode | directory mode => rfl
  rw [fileWithin_of_walkWithin hsame hw, fileWithin_nil] at h
  obtain ⟨_, heq, _, x, hchild, ⟨target, rfl, _⟩ | ⟨_, rfl⟩⟩ := fileAt_eq_ok.1 h
  · cases heq
    exact absurd (child?_eq_ok_iff.1 hchild).2.2 (hlink target)
  · cases heq
    rfl

theorem walkLinks_takesFile (hlast : ∀ name slash, last = .name name slash → IsName name)
    (h : t.walkLinks fits (t.fileAt fits) links l steps last = .ok r) :
    ∃ name dir, r = name :: dir ∧ t.TakesFile name dir := by
  induction links generalizing l steps last with
  | zero => cases h
  | succ links ih =>
      refine walkSteps_arrives (fun h => ?_) (fun hj => ih hlast hj) h
      obtain ⟨name, rfl, _, x, hchild, ⟨target, _, h⟩ | ⟨hfree, rfl⟩⟩ := fileAt_eq_ok.1 h
      · refine ih (fun name slash he => ?_) h
        exact (Path.steps_of_ending (Prod.ext rfl he)).1
      · obtain ⟨hdir, hshort, hfind⟩ := child?_eq_ok_iff.1 hchild
        exact ⟨name, _, rfl, hlast name false rfl, hdir, hshort, hfind ▸ hfree⟩

/-- A walk for a file ends at a place for a file. -/
theorem fileWithin_takesFile (hlast : ∀ name slash, last = .name name slash → IsName name)
    (h : t.fileWithin fits links l steps last = .ok r) :
    ∃ name dir, r = name :: dir ∧ t.TakesFile name dir :=
  walkLinks_takesFile hlast h

end Steps

/-- The trees have the same directories and links, and there is at most a file at the
place in either of them. -/
structure SameWays (r : Location) (s t : Tree) : Prop where
  same : ∀ {k}, k ≠ r → t.find k = s.find k
  plain : ∀ e, s.find r = some e → e.isFile = true
  plain' : ∀ e, t.find r = some e → e.isFile = true

section SameWays

variable {s t : Tree} {r l : Location} {links : Nat} {steps : List Step} {last : Path.Ending}
  {name : String} {target : Path}

theorem SameWays.directory (h : SameWays r s t) (hl : s.isDirectory l = true) :
    t.isDirectory l = true := by
  cases l with
  | nil => rfl
  | cons n d =>
      obtain ⟨mode, hfind⟩ := isDirectory_cons_iff.1 hl
      have hne : n :: d ≠ r := by
        rintro rfl
        cases h.plain _ hfind
      exact isDirectory_cons_iff.2 ⟨mode, (h.same hne).trans hfind⟩

theorem SameWays.link (h : SameWays r s t) (hl : s.find l = some (.link target)) :
    t.find l = some (.link target) := by
  have hne : l ≠ r := by
    rintro rfl
    cases h.plain _ hl
  rw [h.same hne, hl]

theorem SameWays.fileAt (h : SameWays r s t) {fits : Location → Bool}
    {jump jump' : Location → List Step → Path.Ending → Except Errno Location}
    (hjump : ∀ {l steps last}, jump l steps last = .ok r → jump' l steps last = .ok r)
    (hs : s.fileAt fits jump last l = .ok r) : t.fileAt fits jump' last l = .ok r := by
  obtain ⟨name, rfl, hf, x, hchild, hx⟩ := fileAt_eq_ok.1 hs
  obtain ⟨hl, hshort, hfind⟩ := child?_eq_ok_iff.1 hchild
  refine fileAt_eq_ok.2 ⟨name, rfl, hf, t.find (name :: l),
    child?_eq_ok_iff.2 ⟨h.directory hl, hshort, rfl⟩, ?_⟩
  rcases hx with ⟨target, rfl, hj⟩ | ⟨_, rfl⟩
  · exact Or.inl ⟨target, h.link hfind, hjump hj⟩
  · refine Or.inr ⟨?_, rfl⟩
    cases he : t.find (name :: l) with
    | none => exact Or.inl rfl
    | some e =>
        have hfile := h.plain' e he
        cases e with
        | file data mode => exact Or.inr ⟨data, mode, rfl⟩
        | directory mode | link target => cases hfile

theorem SameWays.walkLinks (h : SameWays r s t) {fits : Location → Bool}
    (hs : s.walkLinks fits (s.fileAt fits) links l steps last = .ok r) :
    t.walkLinks fits (t.fileAt fits) links l steps last = .ok r := by
  induction links generalizing l steps last with
  | zero => cases hs
  | succ links ih =>
      refine walkSteps_transfer h.directory (fun hlink hj => ⟨h.link hlink, ih hj⟩)
        (fun hfile hstop => ?_) (h.fileAt ih) (fun _ => id) hs
      cases (isDirectory_eq_of_find hfile).symm.trans (isDirectory_of_fileAt hstop)

theorem SameWays.fileWithin (h : SameWays r s t) {fits : Location → Bool}
    (hs : s.fileWithin fits links l steps last = .ok r) :
    t.fileWithin fits links l steps last = .ok r :=
  h.walkLinks hs

end SameWays

section Arrival

variable {t : Tree} {fits : Location → Bool} {l r : Location} {links : Nat} {steps : List Step}
  {last : Path.Ending} {name : String} {data : Bytes} {mode : Nat}
  {jump : Location → List Step → Path.Ending → Except Errno Location}
  {jump' : Location → List Step → Except Errno Location}

/-- The last move of a walk leads to the file that its name stands for. -/
theorem walkSteps_of_fileAt (hfile : t.find r = some (.file data mode))
    (hjump : ∀ {l steps name}, jump l steps (.name name false) = .ok r →
      jump' l (steps ++ [.down name]) = .ok r)
    (hlast : ∀ {l steps last}, jump l steps last = .ok r → ∃ name, last = .name name false)
    (h : t.fileAt fits jump (.name name false) l = .ok r) :
    t.walkSteps fits .ok jump' l [.down name] = .ok r := by
  obtain ⟨_, hname, hf, x, hchild, hx⟩ := fileAt_eq_ok.1 h
  cases hname
  rcases hx with ⟨target, rfl, hj⟩ | ⟨_, rfl⟩
  · obtain ⟨n, hn⟩ := hlast hj
    obtain ⟨_, k, hsteps, hk⟩ := Path.steps_of_ending (Prod.ext rfl hn)
    refine walkSteps_down_eq_ok.2 ⟨hf, _, hchild, Or.inl ⟨target, rfl, ?_⟩⟩
    rw [List.append_nil, hsteps, hk.1 rfl]
    exact hjump (hn ▸ hj)
  · have hthere := (child?_eq_ok_iff.1 hchild).2.2
    exact walkSteps_down_eq_ok.2
      ⟨hf, .file data mode, hfile ▸ hthere ▸ hchild, Or.inr ⟨fun target => nofun, rfl⟩⟩

theorem walkLinks_of_file (hfile : t.find r = some (.file data mode))
    (h : t.walkLinks fits (t.fileAt fits) links l steps (.name name false) = .ok r) :
    t.walkLinks fits (fun _ _ => .ok) links l (steps ++ [.down name]) () = .ok r := by
  induction links generalizing l steps name with
  | zero => cases h
  | succ links ih =>
      rw [walkLinks, walkSteps_append]
      refine walkSteps_imp (· = .ok r) (fun hstop => ?_) (fun _ hj => ih hj) h
      refine walkSteps_of_fileAt hfile ih (fun hj => ?_) hstop
      obtain ⟨name, _, hname, _⟩ := walkLinks_walks hj
      exact ⟨name, hname⟩

/-- The moves of the whole path lead to a file that is there. -/
theorem walkWithin_of_fileWithin (hfile : t.find r = some (.file data mode))
    (h : t.fileWithin fits links l steps last = .ok r) :
    ∃ name, last = .name name false ∧
      t.walkWithin fits links l (steps ++ [.down name]) = .ok r := by
  obtain ⟨name, _, rfl, _⟩ := fileWithin_walks h
  exact ⟨name, rfl, walkLinks_of_file hfile h⟩

/-- What is no directory has its name at the end of every path to it. -/
theorem eq_concat_of_walkWithin (hl : t.isDirectory l = true) (hr : t.isDirectory r = false)
    (h : t.walkWithin fits links l steps = .ok r) : ∃ before name, steps = before ++ [.down name] := by
  rcases List.eq_nil_or_concat steps with rfl | ⟨before, step, rfl⟩
  · have hend : l = r := by
      cases links with
      | zero | succ => exact Except.ok.inj h
    simp [← hend, hl] at hr
  · rw [List.concat_eq_append] at h ⊢
    obtain ⟨mid, _, hlast⟩ := walkWithin_append h
    rw [walkWithin_eq_walkSteps] at hlast
    cases step with
    | down name => exact ⟨before, name, rfl⟩
    | stay =>
        obtain ⟨hmid, hend⟩ := walkSteps_stay_eq_ok.1 hlast
        cases hend
        simp [hmid] at hr
    | up =>
        obtain ⟨hmid, hend⟩ := walkSteps_up_eq_ok.1 hlast
        cases hend
        simp [isDirectory_tail hmid] at hr

/-- The name that a walk ends with stands for the file that it leads to. -/
theorem fileAt_of_walkSteps (hfile : t.find r = some (.file data mode))
    (hjump : ∀ {l} {p : Path}, t.isDirectory l = true → jump' l p.steps = .ok r →
      jump l p.ending.1 p.ending.2 = .ok r)
    (h : t.walkSteps fits .ok jump' l [.down name] = .ok r) :
    t.fileAt fits jump (.name name false) l = .ok r := by
  obtain ⟨hf, e, hchild, h⟩ := walkSteps_down_eq_ok.1 h
  obtain ⟨hl, _, hfind⟩ := child?_eq_ok_iff.1 hchild
  refine fileAt_eq_ok.2 ⟨name, rfl, hf, _, hchild, ?_⟩
  rcases h with ⟨target, rfl, hj⟩ | ⟨_, h⟩
  · rw [List.append_nil] at hj
    exact Or.inl ⟨target, rfl, hjump (isDirectory_linkStart target hl) hj⟩
  · cases h
    exact Or.inr ⟨Or.inr ⟨data, mode, hfind.symm.trans hfile⟩, rfl⟩

/-- A file that the moves of the whole path lead to is the one that a walk for it finds. -/
theorem fileWithin_of_walkWithin_file (hfile : t.find r = some (.file data mode))
    (h : t.walkWithin fits links l (steps ++ [.down name]) = .ok r) :
    t.fileWithin fits links l steps (.name name false) = .ok r := by
  induction links generalizing l steps name with
  | zero =>
      rw [walkWithin_eq_walkSteps, walkSteps_append] at h
      exact walkSteps_imp (· = .ok r) (fileAt_of_walkSteps hfile fun _ hj => by cases hj)
        (fun _ hj => by cases hj) h
  | succ links ih =>
      rw [walkWithin_succ, walkSteps_append] at h
      refine walkSteps_imp (· = .ok r) (fileAt_of_walkSteps hfile fun {l p} hl hj => ?_)
        (fun _ hj => ih hj) h
      obtain ⟨before, name, hsteps⟩ :=
        eq_concat_of_walkWithin hl (isDirectory_eq_of_find hfile) hj
      rw [Path.ending_of_steps hsteps]
      exact ih (hsteps ▸ hj)

end Arrival
end Tree
end PointsTo
