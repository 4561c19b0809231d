import PointsTo.Disk.Walk

/-!
Which walks two trees have in common. A walk looks at directories and links
alone, and at the entry that it ends at, so a tree that has those of another one
has its walks. A link through which nothing leads to the end does not count.
-/

namespace PointsTo
namespace Tree

open PointsTo.Path (Step)

theorem isDirectory_cons_iff {t : Tree} {n : String} {d : Location} :
    t.isDirectory (n :: d) = true ↔ ∃ mode, t.find (n :: d) = some (.directory mode) := by
  rw [isDirectory_cons]
  cases h : t.find (n :: d) with
  | none => simp
  | some e => cases e <;> simp [Entry.isDirectory]

theorem isDirectory_of_find {t : Tree} {n : String} {d : Location} {e : Entry}
    (h : t.find (n :: d) = some e) : t.isDirectory d = true :=
  (t.rooted n d e h).2

theorem isName_of_find {t : Tree} {n : String} {d : Location} {e : Entry}
    (h : t.find (n :: d) = some e) : IsName n :=
  (t.rooted n d e h).1

theorem isDirectory_tail {t : Tree} {l : Location} (h : t.isDirectory l = true) :
    t.isDirectory l.tail = true := by
  cases l with
  | nil => rfl
  | cons n d =>
      obtain ⟨mode, hm⟩ := isDirectory_cons_iff.1 h
      exact isDirectory_of_find hm

theorem isDirectory_drop {t : Tree} {l : Location} (h : t.isDirectory l = true) (i : Nat) :
    t.isDirectory (l.drop i) = true := by
  induction i generalizing l with
  | zero => exact h
  | succ i ih =>
      rw [← List.drop_tail]
      exact ih (isDirectory_tail h)

/-- What stands around an entry is a directory. -/
theorem isDirectory_of_isWithin {t : Tree} {k l : Location} (hw : isWithin k l = true)
    (h : t.isDirectory l = true) : t.isDirectory k = true := by
  obtain ⟨xs, rfl⟩ := isWithin_iff.1 hw
  have hd := isDirectory_drop h xs.length
  rwa [List.drop_left] at hd

theorem isDirectory_of_find_within {t : Tree} {k l : Location} {e : Entry}
    (h : t.find l = some e) (hw : isWithin k l = true) (hne : k ≠ l) :
    t.isDirectory k = true := by
  obtain ⟨xs, rfl⟩ := isWithin_iff.1 hw
  cases xs with
  | nil => exact absurd rfl hne
  | cons n xs =>
      exact isDirectory_of_isWithin (isWithin_iff.2 ⟨xs, rfl⟩) (isDirectory_of_find h)

/-- Nothing stands inside what is no directory. -/
theorem find_eq_none_of_within {t : Tree} {k l : Location} (h : t.isDirectory k = false)
    (hw : isWithin k l = true) (hne : k ≠ l) : t.find l = none := by
  cases hl : t.find l with
  | none => rfl
  | some e => simp [isDirectory_of_find_within hl hw hne] at h

theorem child?_eq_ok_iff {t : Tree} {d : Location} {n : String} {x : Option Entry} :
    t.child? d n = .ok x ↔
      t.isDirectory d = true ∧ n.utf8ByteSize ≤ maxNameBytes ∧ t.find (n :: d) = x := by
  unfold child?
  split
  · next h => simp [h]
  · next h =>
    split
    · next hn => simp; omega
    · next hn => simp at h; simp [h]; omega

theorem isDirectory_linkStart {t : Tree} {d : Location} (target : Path)
    (h : t.isDirectory d = true) : t.isDirectory (linkStart d target) = true := by
  unfold linkStart
  split
  · rfl
  · exact h

section Steps

variable {t : Tree} {fits : Location → Bool} {arrive : Location → Except Errno Location}
  {jump : Location → List Step → Except Errno Location} {l r : Location} {rest : List Step}

theorem walkSteps_stay_eq_ok :
    t.walkSteps fits arrive jump l (.stay :: rest) = .ok r ↔
      t.isDirectory l = true ∧ t.walkSteps fits arrive jump l rest = .ok r := by
  rw [walkSteps]
  split <;> simp_all

theorem walkSteps_up_eq_ok :
    t.walkSteps fits arrive jump l (.up :: rest) = .ok r ↔
      t.isDirectory l = true ∧ t.walkSteps fits arrive jump l.tail rest = .ok r := by
  rw [walkSteps]
  split <;> simp_all

/-- A move down goes through a link or into what else is there. -/
theorem walkSteps_down_eq_ok {name : String} :
    t.walkSteps fits arrive jump l (.down name :: rest) = .ok r ↔
      fits (name :: l) = true ∧
      ∃ e, t.child? l name = .ok (some e) ∧
        ((∃ target, e = .link target ∧
            jump (linkStart l target) (target.steps ++ rest) = .ok r) ∨
          ((∀ target, e ≠ .link target) ∧
            t.walkSteps fits arrive jump (name :: l) rest = .ok r)) := by
  rw [walkSteps]
  split
  · next hf => simp [hf]
  · next hf =>
    split
    · next hc => simp [hc]
    · next hc => simp [hc]
    · next hc => simp_all
    · next e hne hc =>
      have hl : ∀ target, e ≠ .link target := fun target he => hne target (by rw [he])
      simp_all

/-- From what is no directory a walk goes nowhere. -/
theorem eq_nil_of_walkSteps {steps : List Step} (hl : t.isDirectory l = false)
    (h : t.walkSteps fits arrive jump l steps = .ok r) : steps = [] ∧ arrive l = .ok r := by
  cases steps with
  | nil => exact ⟨rfl, h⟩
  | cons step steps =>
      cases step with
      | stay => simp [(walkSteps_stay_eq_ok.1 h).1] at hl
      | up => simp [(walkSteps_up_eq_ok.1 h).1] at hl
      | down name =>
          obtain ⟨_, e, hc, _⟩ := walkSteps_down_eq_ok.1 h
          simp [(child?_eq_ok_iff.1 hc).1] at hl

end Steps

/-- The tree `t` has what the walks in `s` that end at `r` look at. A link may be
missing if none of them goes through it. -/
structure LeadsTo (s t : Tree) (r : Location) : Prop where
  directory : ∀ {l}, s.isDirectory l = true → t.isDirectory l = true
  link : ∀ {d : Location} {name : String} {target : Path},
    s.find (name :: d) = some (.link target) →
      t.find (name :: d) = some (.link target) ∨
      ∀ links rest, s.walkWithin (fun _ => true) links (linkStart d target)
        (target.steps ++ rest) ≠ .ok r
  file : ∀ {data mode}, s.find r = some (.file data mode) →
    ∃ data mode, t.find r = some (.file data mode)

theorem LeadsTo.of_keeps {s t : Tree} (h : ∀ {l e}, s.find l = some e → t.find l = some e)
    (r : Location) : s.LeadsTo t r where
  directory := fun {l} hl => by
    cases l with
    | nil => rfl
    | cons n d =>
        obtain ⟨mode, hm⟩ := isDirectory_cons_iff.1 hl
        exact isDirectory_cons_iff.2 ⟨mode, h hm⟩
  link := fun hl => Or.inl (h hl)
  file := fun hf => ⟨_, _, h hf⟩

section Transfer

variable {s t : Tree} {fits fits' : Location → Bool} {l r : Location}
  {arrive arrive' : Location → Except Errno Location}
  {jump jump' : Location → List Step → Except Errno Location}

/-- The one induction along the moves in two trees. What the jumps need is left open, so
that it serves for each number of links. -/
theorem walkSteps_transfer
    (directory : ∀ {l}, s.isDirectory l = true → t.isDirectory l = true)
    (link : ∀ {d : Location} {name : String} {target : Path} {rest : List Step},
      s.find (name :: d) = some (.link target) →
      jump (linkStart d target) (target.steps ++ rest) = .ok r →
        t.find (name :: d) = some (.link target) ∧
        jump' (linkStart d target) (target.steps ++ rest) = .ok r)
    (file : ∀ {l data mode}, s.find l = some (.file data mode) → arrive l = .ok r →
      ∃ data mode, t.find l = some (.file data mode))
    (stop : ∀ {l}, arrive l = .ok r → arrive' l = .ok r)
    (hfits : ∀ l, fits l = true → fits' l = true) {steps : List Step}
    (h : s.walkSteps fits arrive jump l steps = .ok r) :
    t.walkSteps fits' arrive' jump' l steps = .ok r := by
  induction steps generalizing l with
  | nil => exact stop h
  | cons step steps ih =>
      cases step with
      | stay =>
          rw [walkSteps_stay_eq_ok] at h ⊢
          exact ⟨directory h.1, ih h.2⟩
      | up =>
          rw [walkSteps_up_eq_ok] at h ⊢
          exact ⟨directory h.1, ih h.2⟩
      | down name =>
          rw [walkSteps_down_eq_ok] at h ⊢
          obtain ⟨hf, e, hc, hr⟩ := h
          obtain ⟨hl, hn, he⟩ := child?_eq_ok_iff.1 hc
          refine ⟨hfits _ hf, ?_⟩
          rcases hr with ⟨target, rfl, hr⟩ | ⟨hne, hr⟩
          · obtain ⟨ht, hj⟩ := link he hr
            exact ⟨_, child?_eq_ok_iff.2 ⟨directory hl, hn, ht⟩, Or.inl ⟨target, rfl, hj⟩⟩
          · cases e with
            | link target => exact absurd rfl (hne target)
            | directory mode =>
                obtain ⟨mode', ht⟩ :=
                  isDirectory_cons_iff.1 (directory (isDirectory_cons_iff.2 ⟨mode, he⟩))
                exact ⟨_, child?_eq_ok_iff.2 ⟨directory hl, hn, ht⟩, Or.inr ⟨nofun, ih hr⟩⟩
            | file data mode =>
                -- nothing comes after a file, so this one is the end of the walk
                have hd : s.isDirectory (name :: l) = false := by
                  simp [isDirectory_cons, he, Entry.isDirectory]
                obtain ⟨rfl, hstop⟩ := eq_nil_of_walkSteps hd hr
                obtain ⟨data', mode', ht⟩ := file he hstop
                exact ⟨_, child?_eq_ok_iff.2 ⟨directory hl, hn, ht⟩, Or.inr ⟨nofun, ih hr⟩⟩

theorem walkWithin_succ (t : Tree) (fits : Location → Bool) (links : Nat) :
    t.walkWithin fits (links + 1) = t.walkSteps fits .ok (t.walkWithin fits links) := rfl

/-- A walk starts with the moves up to the first link, whatever may be done there. -/
theorem walkWithin_eq_walkSteps (t : Tree) (fits : Location → Bool) (links : Nat) :
    t.walkWithin fits links = t.walkSteps fits .ok
      fun l steps => t.walkLinks fits (fun _ _ => .ok) links l steps () := rfl

/-- A walk that goes on after a name finds something under it. -/
theorem exists_child_of_walkWithin {links : Nat} {name : String} {rest : List Step}
    (h : t.walkWithin fits links l (.down name :: rest) = .ok r) :
    ∃ e, t.child? l name = .ok (some e) := by
  rw [walkWithin_eq_walkSteps] at h
  obtain ⟨_, e, hchild, _⟩ := walkSteps_down_eq_ok.1 h
  exact ⟨e, hchild⟩

theorem walkLinks_mono {links more : Nat} (hle : links ≤ more)
    (hfits : ∀ l, fits l = true → fits' l = true) {steps : List Step}
    (h : t.walkLinks fits (fun _ _ => .ok) links l steps () = .ok r) :
    t.walkLinks fits' (fun _ _ => .ok) more l steps () = .ok r := by
  induction links generalizing more l steps with
  | zero => cases h
  | succ links ih =>
      cases more with
      | zero => omega
      | succ more =>
          exact walkSteps_transfer id (fun hl hj => ⟨hl, ih (by omega) hj⟩)
            (fun hf _ => ⟨_, _, hf⟩) id hfits h

theorem walkWithin_mono {links more : Nat} (hle : links ≤ more)
    (hfits : ∀ l, fits l = true → fits' l = true) {steps : List Step}
    (h : t.walkWithin fits links l steps = .ok r) : t.walkWithin fits' more l steps = .ok r :=
  walkLinks_mono (Nat.succ_le_succ hle) hfits h

theorem walkWithin_of_leadsTo (hst : s.LeadsTo t r) {links : Nat} {steps : List Step}
    (h : s.walkWithin fits links l steps = .ok r) : t.walkWithin fits links l steps = .ok r := by
  have file : ∀ {l data mode}, s.find l = some (.file data mode) →
      (Except.ok l : Except Errno Location) = .ok r →
      ∃ data mode, t.find l = some (.file data mode) :=
    fun hf heq => by
      cases heq
      exact hst.file hf
  induction links generalizing l steps with
  | zero => exact walkSteps_transfer hst.directory (fun _ hj => by cases hj) file id (fun _ => id) h
  | succ links ih =>
      rw [walkWithin_succ] at h ⊢
      refine walkSteps_transfer hst.directory (fun hl hj => ⟨?_, ih hj⟩) file id (fun _ => id) h
      exact (hst.link hl).resolve_right fun hn =>
        hn links _ (walkWithin_mono (Nat.le_refl _) (fun _ _ => rfl) hj)

/-- Where a walk ends does not depend on how many links it is allowed. -/
theorem walkWithin_unique {m n : Nat} {steps : List Step} {r' : Location}
    (h : t.walkWithin fits m l steps = .ok r) (h' : t.walkWithin fits n l steps = .ok r') :
    r = r' := by
  have hm := walkWithin_mono (Nat.le_max_left m n) (fun _ => id) h
  have hn := walkWithin_mono (Nat.le_max_right m n) (fun _ => id) h'
  exact Except.ok.inj (hm.symm.trans hn)

end Transfer

section Append

variable {t : Tree} {fits : Location → Bool} {arrive arrive' : Location → Except Errno Location}
  {jump jump' : Location → List Step → Except Errno Location} {l r mid : Location}
  {links more : Nat} {before after steps : List Step}

/-- The rest of a walk is what is done at the end of its first moves. -/
theorem walkSteps_append (l : Location) (before after : List Step) :
    t.walkSteps fits arrive jump l (before ++ after) =
      t.walkSteps fits (fun mid => t.walkSteps fits arrive jump mid after)
        (fun l steps => jump l (steps ++ after)) l before := by
  induction before generalizing l with
  | nil => rfl
  | cons step before ih =>
      cases step with
      | stay | up => simp only [List.cons_append, walkSteps, ih]
      | down name => simp only [List.cons_append, walkSteps, ih, List.append_assoc]

/-- The one induction along the moves in one tree: what relates the ends and the jumps of
two walks relates the walks. -/
theorem walkSteps_rel (R : Except Errno Location → Except Errno Location → Prop)
    (fail : ∀ e, R (.error e) (.error e)) (stop : ∀ l, R (arrive l) (arrive' l))
    (hjump : ∀ {l} steps, t.isDirectory l = true → R (jump l steps) (jump' l steps))
    (l : Location) (steps : List Step) :
    R (t.walkSteps fits arrive jump l steps) (t.walkSteps fits arrive' jump' l steps) := by
  induction steps generalizing l with
  | nil => exact stop l
  | cons step rest ih =>
      cases step with
      | stay =>
          rw [walkSteps, walkSteps]
          split
          · exact ih l
          · exact fail _
      | up =>
          rw [walkSteps, walkSteps]
          split
          · exact ih l.tail
          · exact fail _
      | down name =>
          rw [walkSteps, walkSteps]
          split
          · exact fail _
          · cases hchild : t.child? l name with
            | error e => exact fail e
            | ok x =>
                cases x with
                | none => exact fail _
                | some e =>
                    cases e with
                    | link target =>
                        exact hjump _ (isDirectory_linkStart target (child?_eq_ok_iff.1 hchild).1)
                    | file data mode | directory mode => exact ih _

/-- What follows where the one walk arrives. -/
theorem walkSteps_imp (P : Except Errno Location → Prop)
    (stop : ∀ {l}, arrive l = .ok r → P (arrive' l))
    (hjump : ∀ {l steps}, t.isDirectory l = true → jump l steps = .ok r → P (jump' l steps))
    (h : t.walkSteps fits arrive jump l steps = .ok r) :
    P (t.walkSteps fits arrive' jump' l steps) :=
  walkSteps_rel (fun x y => x = .ok r → P y) (fun _ he => by cases he) (fun _ => stop)
    (fun _ hl => hjump hl) l steps h

/-- What all arrivals of a walk have in common, those of its jumps included. -/
theorem walkSteps_arrives {P : Prop} (stop : ∀ {l}, arrive l = .ok r → P)
    (hjump : ∀ {l steps}, jump l steps = .ok r → P)
    (h : t.walkSteps fits arrive jump l steps = .ok r) : P :=
  walkSteps_imp (fun x => x = .ok r → P) (fun h _ => stop h) (fun _ h _ => hjump h) h h

/-- The first part of a walk ends somewhere from where the rest is walked. -/
theorem walkWithin_append (h : t.walkWithin fits links l (before ++ after) = .ok r) :
    ∃ mid, t.walkWithin fits links l before = .ok mid ∧
      t.walkWithin fits links mid after = .ok r := by
  induction links generalizing l before with
  | zero =>
      rw [walkWithin_eq_walkSteps, walkSteps_append] at h
      exact walkSteps_imp (fun x => ∃ mid, x = .ok mid ∧ t.walkWithin fits 0 mid after = .ok r)
        (fun h => ⟨_, rfl, h⟩) (fun _ hj => by cases hj) h
  | succ links ih =>
      rw [walkWithin_succ, walkSteps_append] at h
      refine walkSteps_imp
        (fun x => ∃ mid, x = .ok mid ∧ t.walkWithin fits (links + 1) mid after = .ok r)
        (fun h => ⟨_, rfl, h⟩) (fun _ hj => ?_) h
      obtain ⟨mid, hm, ha⟩ := ih hj
      exact ⟨mid, hm, walkWithin_mono (Nat.le_succ links) (fun _ => id) ha⟩

/-- The rest of a walk decides how it ends. -/
theorem walkSteps_of_append {x : Except Errno Location}
    (hj : ∀ {l before}, jump' l before = .ok mid → jump l (before ++ after) = x)
    (stop : t.walkSteps fits arrive jump mid after = x)
    (h : t.walkSteps fits .ok jump' l before = .ok mid) :
    t.walkSteps fits arrive jump l (before ++ after) = x := by
  rw [walkSteps_append]
  refine walkSteps_imp (· = x) (fun heq => ?_) (fun _ => hj) h
  cases heq
  exact stop

/-- Two walks make one, with the links of both. -/
theorem walkWithin_of_append (h : t.walkWithin fits links l before = .ok mid)
    (h' : t.walkWithin fits more mid after = .ok r) :
    t.walkWithin fits (links + more) l (before ++ after) = .ok r := by
  induction links generalizing l before with
  | zero =>
      rw [Nat.zero_add]
      exact walkSteps_of_append (fun hj => by cases hj) h' h
  | succ links ih =>
      rw [Nat.succ_add, walkWithin_succ]
      refine walkSteps_of_append ih ?_ h
      rw [← walkWithin_succ]
      exact walkWithin_mono (by omega) (fun _ => id) h'

/-- The end of a walk, where no link is left to follow, decides how it ends. -/
theorem walkWithin_append_imp (P : Except Errno Location → Prop)
    (h : t.walkWithin fits links l before = .ok mid)
    (h' : ∀ links, P (t.walkWithin fits links mid after)) :
    P (t.walkWithin fits links l (before ++ after)) := by
  have stop : ∀ links {l}, (Except.ok l : Except Errno Location) = .ok mid →
      P (t.walkWithin fits links l after) := fun links l heq => by
    cases heq
    exact h' links
  induction links generalizing l before with
  | zero =>
      rw [walkWithin_eq_walkSteps, walkSteps_append]
      exact walkSteps_imp P (stop 0) (fun _ hj => by cases hj) h
  | succ links ih =>
      rw [walkWithin_succ, walkSteps_append]
      exact walkSteps_imp P (stop (links + 1)) (fun _ hj => ih hj) h

theorem walkWithin_append_eq {x : Except Errno Location}
    (h : t.walkWithin fits links l before = .ok mid)
    (h' : ∀ links, t.walkWithin fits links mid after = x) :
    t.walkWithin fits links l (before ++ after) = x :=
  walkWithin_append_imp (· = x) h h'

/-- A fault on the way ends the whole walk. -/
theorem walkWithin_append_error {e : Errno} (h : t.walkWithin fits links l before = .error e)
    (after : List Step) : t.walkWithin fits links l (before ++ after) = .error e := by
  induction links generalizing l before with
  | zero =>
      rw [walkWithin_eq_walkSteps, walkSteps_append]
      exact walkSteps_rel (fun x y => x = .error e → y = .error e) (fun _ => id)
        (fun _ he => by cases he) (fun _ _ he => he) l before h
  | succ links ih =>
      rw [walkWithin_succ, walkSteps_append]
      exact walkSteps_rel (fun x y => x = .error e → y = .error e) (fun _ => id)
        (fun _ he => by cases he) (fun _ _ he => ih he) l before h

theorem walkWithin_down {d : Location} {name : String} (t : Tree) (links : Nat)
    (hl : ∀ target, t.find (name :: d) ≠ some (.link target)) :
    t.walkWithin (fun _ => true) links d [.down name] =
      t.child? d name >>= fun x => x.elim (.error .noEntry) fun _ => .ok (name :: d) := by
  have hstep : ∀ jump, t.walkSteps (fun _ => true) .ok jump d [.down name] =
      t.child? d name >>= fun x => x.elim (.error .noEntry) fun _ => .ok (name :: d) := by
    intro jump
    rw [walkSteps]
    cases hx : t.child? d name with
    | error e => rfl
    | ok x =>
        cases x with
        | none => rfl
        | some e =>
            cases e with
            | link target => exact absurd (child?_eq_ok_iff.1 hx).2.2 (hl target)
            | file data mode | directory mode => rfl
  rw [walkWithin_eq_walkSteps]
  exact hstep _

end Append

def Stands (t : Tree) (l : Location) : Prop :=
  t.isDirectory l = true ∨ ∃ data mode, t.find l = some (.file data mode)

section End

variable {t : Tree} {fits : Location → Bool} {l r : Location} {steps : List Step}

theorem walkSteps_stands {jump : Location → List Step → Except Errno Location}
    (hj : ∀ {l steps}, t.isDirectory l = true → jump l steps = .ok r → t.Stands r)
    (hl : t.Stands l) (h : t.walkSteps fits .ok jump l steps = .ok r) : t.Stands r := by
  induction steps generalizing l with
  | nil =>
      cases h
      exact hl
  | cons step steps ih =>
      cases step with
      | stay =>
          obtain ⟨hd, hr⟩ := walkSteps_stay_eq_ok.1 h
          exact ih (Or.inl hd) hr
      | up =>
          obtain ⟨hd, hr⟩ := walkSteps_up_eq_ok.1 h
          exact ih (Or.inl (isDirectory_tail hd)) hr
      | down name =>
          obtain ⟨_, e, hc, ⟨target, _, hr⟩ | ⟨hne, hr⟩⟩ := walkSteps_down_eq_ok.1 h
          · exact hj (isDirectory_linkStart target (child?_eq_ok_iff.1 hc).1) hr
          · refine ih ?_ hr
            cases e with
            | link target => exact absurd rfl (hne target)
            | directory mode =>
                exact Or.inl (isDirectory_cons_iff.2 ⟨mode, (child?_eq_ok_iff.1 hc).2.2⟩)
            | file data mode => exact Or.inr ⟨data, mode, (child?_eq_ok_iff.1 hc).2.2⟩

/-- A walk does not end at a link. -/
theorem walkWithin_stands {links : Nat} (hl : t.isDirectory l = true)
    (h : t.walkWithin fits links l steps = .ok r) : t.Stands r := by
  induction links generalizing l steps with
  | zero => exact walkSteps_stands (fun _ hj => by cases hj) (Or.inl hl) h
  | succ links ih => exact walkSteps_stands ih (Or.inl hl) h

/-- Apart from the length of the way, a walk that keeps it goes like one that does
not. -/
theorem walkSteps_fits {jump jump' : Location → List Step → Except Errno Location}
    (hj : ∀ {l steps}, jump l steps = .ok r →
      jump' l steps = .ok r ∨ jump' l steps = .error .nameTooLong)
    (h : t.walkSteps (fun _ => true) .ok jump l steps = .ok r) :
    t.walkSteps fits .ok jump' l steps = .ok r ∨
      t.walkSteps fits .ok jump' l steps = .error .nameTooLong := by
  induction steps generalizing l with
  | nil => exact Or.inl h
  | cons step steps ih =>
      cases step with
      | stay =>
          obtain ⟨hl, hr⟩ := walkSteps_stay_eq_ok.1 h
          rw [walkSteps, if_pos hl]
          exact ih hr
      | up =>
          obtain ⟨hl, hr⟩ := walkSteps_up_eq_ok.1 h
          rw [walkSteps, if_pos hl]
          exact ih hr
      | down name =>
          obtain ⟨_, e, hc, hr⟩ := walkSteps_down_eq_ok.1 h
          rw [walkSteps, hc]
          split
          · exact Or.inr rfl
          · rcases hr with ⟨target, rfl, hr⟩ | ⟨hne, hr⟩
            · exact hj hr
            · cases e with
              | link target => exact absurd rfl (hne target)
              | file data mode | directory mode => exact ih hr

theorem walkWithin_fits {links : Nat} (h : t.walkWithin (fun _ => true) links l steps = .ok r) :
    t.walkWithin fits links l steps = .ok r ∨
      t.walkWithin fits links l steps = .error .nameTooLong := by
  induction links generalizing l steps with
  | zero => exact walkSteps_fits (fun hj => by cases hj) h
  | succ links ih => exact walkSteps_fits ih h

end End
end Tree
end PointsTo
