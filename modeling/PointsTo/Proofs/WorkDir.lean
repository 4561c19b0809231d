import PointsTo.Proofs.Attempt
import PointsTo.Proofs.Disk.Files
import PointsTo.WorkDir

/-!
Housekeeping in a working directory, as changes of the tree. Replacing a file in
one stroke concerns that file alone: the temporary one beside it is gone again.
-/

namespace PointsTo

namespace Disk

theorem change_cases {p : Path} {f : Disk → Except Fault Disk} {d d' : Disk}
    {r : Except Failure Unit} (h : change p f d = (r, d')) :
    (r = .ok () ∧ f d = .ok d') ∨ ∃ e, f d = .error e ∧ r = .error (.disk p e) ∧ d' = d := by
  unfold change at h
  split at h
  · next hf =>
    cases h
    exact Or.inl ⟨rfl, hf⟩
  · next e hf =>
    cases h
    exact Or.inr ⟨e, hf, rfl, rfl⟩

theorem change_ok {p : Path} {f : Disk → Except Fault Disk} {d d' : Disk} (h : f d = .ok d') :
    change p f d = (.ok (), d') := by
  simp only [change, h]

theorem change_error {p : Path} {f : Disk → Except Fault Disk} {d : Disk} {e : Fault}
    (h : f d = .error e) : change p f d = (.error (.disk p e), d) := by
  simp only [change, h]

theorem eq_of_changePartly {p : Path} {f : Disk → Except Fault Unit × Disk} {d d' : Disk}
    {r : Except Failure Unit} (h : changePartly p f d = (r, d')) : d' = (f d).2 := by
  unfold changePartly at h
  split at h
  all_goals
    next hf =>
    cases h
    rw [hf]

structure PutsFile (d d' : Disk) (l : Location) (contents : Bytes) : Prop where
  find : ∃ mode, ∀ k, d'.tree.find k =
    if l = k then some (.file contents mode) else d.tree.find k
  ways : d.KeepsWays d'
  cwd : d'.cwd = d.cwd
  lost : d'.lost = d.lost

section PutsFile

variable {d d' d'' : Disk} {l dir : Location} {p : Path} {name : String} {contents data : Bytes}

theorem putsFile_put {mode : Nat} (hn : IsName name) (hdir : d.tree.isDirectory dir = true)
    (ha : d.tree.IsAside (name :: dir)) :
    d.PutsFile (d.put (name :: dir) (.file contents mode)) (name :: dir) contents where
  find := ⟨mode, find_put_of_isAside hn hdir ha.directory⟩
  ways := keepsWays_put ha
  cwd := rfl
  lost := rfl

theorem PutsFile.isAside (h : d.PutsFile d' l contents) : d'.tree.IsAside l := by
  obtain ⟨mode, hf⟩ := h.find
  exact Tree.isAside_of_find ((hf l).trans (if_pos rfl)) rfl nofun

theorem PutsFile.back (h : d.PutsFile d' l contents) : d'.KeepsWays d := by
  obtain ⟨mode, hf⟩ := h.find
  exact keepsWays_of_find (· = l) (fun hk => ((hf _).trans (if_neg (Ne.symm hk))).symm)
    (fun hk => hk ▸ h.isAside) h.cwd.symm h.lost.symm

/-- Where nothing was before, taking the file away gives the disk back. -/
theorem PutsFile.remove (h : d.PutsFile d' l contents) (hempty : d.tree.find l = none) :
    d'.remove l = d := by
  obtain ⟨mode, hf⟩ := h.find
  have hplain := h.isAside.directory
  obtain ⟨hcwd, hlost⟩ := remove_stays hplain
  refine Disk.ext (Tree.ext_find fun k => ?_) (hcwd.trans h.cwd) (hlost.trans h.lost)
  rw [tree_remove, Tree.find_remove_of_not_directory hplain, hf]
  split
  · next hk => rw [hk, hempty]
  · next hk => rw [if_neg (Ne.symm hk)]

end PutsFile

structure Vacant (d : Disk) (p : Path) (name : String) (dir : Location) : Prop where
  last : d.resolveLast p = .ok (dir, .name name false)
  free : d.tree.child? dir name = .ok none

section Vacant

variable {d d' : Disk} {p q : Path} {name : String} {dir : Location} {data contents : Bytes}
  {mode mode' : Nat}

theorem vacant_of_create (h : d.create p (.file data mode) = .ok d') :
    ∃ name dir, d.Vacant p name dir ∧ d' = d.put (name :: dir) (.file data mode) := by
  obtain ⟨name, dir, slash, hlast, hfree, hslash, rfl⟩ := create_cases h
  cases slash with
  | false => exact ⟨name, dir, ⟨hlast, hfree⟩, rfl⟩
  | true => exact absurd (hslash rfl) nofun

namespace Vacant

variable (h : d.Vacant p name dir)
include h

theorem isName : IsName name :=
  isName_of_ending h.last _ _ rfl

theorem find_eq_none : d.tree.find (name :: dir) = none :=
  (Tree.child?_eq_ok_iff.1 h.free).2.2

theorem isDirectory : d.tree.isDirectory (name :: dir) = false :=
  Tree.isDirectory_of_find_none h.find_eq_none nofun

theorem putsFile : d.PutsFile (d.put (name :: dir) (.file data mode)) (name :: dir) data :=
  putsFile_put h.isName (Tree.child?_eq_ok_iff.1 h.free).1 (isAside_of_child? h.free (Or.inl rfl))

theorem find_put (e : Entry) (k : Location) :
    (d.put (name :: dir) e).tree.find k = if name :: dir = k then some e else d.tree.find k :=
  find_put_new h.isName (Tree.child?_eq_ok_iff.1 h.free).1 h.find_eq_none k

theorem last_put : (d.put (name :: dir) (.file data mode)).resolveLast p =
    .ok (dir, .name name false) :=
  h.putsFile.ways.resolveLast h.last

theorem child?_put : (d.put (name :: dir) (.file data mode)).tree.child? dir name =
    .ok (some (.file data mode)) := by
  obtain ⟨hdir, hshort, _⟩ := Tree.child?_eq_ok_iff.1 h.free
  refine Tree.child?_eq_ok_iff.2 ⟨h.putsFile.ways.directory hdir, hshort, ?_⟩
  rw [h.find_put, if_pos rfl]

theorem put_put : (d.put (name :: dir) (.file data mode)).put (name :: dir) (.file contents mode') =
    d.put (name :: dir) (.file contents mode') := by
  have hput : d.PutsFile (d.put (name :: dir) (.file data mode)) (name :: dir) data := h.putsFile
  refine Disk.ext (Tree.ext_find fun k => ?_) rfl rfl
  rw [find_put_of_isAside h.isName (Tree.child?_eq_ok_iff.1 h.child?_put).1 hput.isAside.directory,
    h.find_put, h.find_put]
  split <;> rfl

theorem create : d.create p (.file data mode) = .ok (d.put (name :: dir) (.file data mode)) := by
  simp [Disk.create, h.last, h.free, Bind.bind, Except.bind, lift_ok]

theorem write : (d.put (name :: dir) (.file data mode)).write p contents =
    .ok (d.put (name :: dir) (.file contents mode)) := by
  have hchild : (d.put (name :: dir) (.file data mode)).tree.child? dir name = _ := h.child?_put
  obtain ⟨hdir, hshort, hfile⟩ := Tree.child?_eq_ok_iff.1 hchild
  have hdest := destination_of_resolveLast h.last_put
    ⟨h.isName, hdir, hshort, Or.inr ⟨data, mode, hfile⟩⟩
  simp only [Disk.write, hdest, Bind.bind, Except.bind, hfile, h.put_put]

theorem setMode : (d.put (name :: dir) (.file data mode)).setMode p mode' =
    .ok (d.put (name :: dir) (.file data mode')) := by
  have hfile := (h.find_put (.file data mode) (name :: dir)).trans (if_pos rfl)
  have hplace : (d.put (name :: dir) (.file data mode)).place p = .ok (some (name :: dir)) :=
    place_eq_some_iff.2 (reaches_of_resolveLast h.last_put h.child?_put nofun nofun)
  simp only [Disk.setMode, hplace, Bind.bind, Except.bind, hfile, Entry.withMode, h.put_put]

theorem unlink : (d.put (name :: dir) (.file data mode)).unlink p = .ok d := by
  rw [unlink_eq h.last_put h.child?_put rfl, h.putsFile.remove h.find_eq_none]

/-- The file takes another name: it stands there, and its old place is free again. -/
theorem rename (hr : (d.put (name :: dir) (.file contents mode)).rename p q = .ok d') :
    ∃ dst dstDir slash, d.resolveLast q = .ok (dstDir, .name dst slash) ∧
      d.tree.isDirectory (dst :: dstDir) = false ∧
      (∀ k, d'.tree.find k =
        if k = dst :: dstDir then some (.file contents mode) else d.tree.find k) ∧
      (d'.cwd = d.cwd ∧ d'.lost = d.lost) ∧
      (d.tree.IsAside (dst :: dstDir) → d.KeepsWays d') := by
  have hput : d.PutsFile (d.put (name :: dir) (.file contents mode)) (name :: dir) contents :=
    h.putsFile
  obtain ⟨dst, dstDir, slash, hq, hplain, hdone, hstays, hways⟩ :=
    rename_file h.last_put h.child?_put rfl hr
  refine ⟨dst, dstDir, slash, hput.back.resolveLast hq, ?_, fun k => ?_,
    ⟨hstays.1.trans hput.cwd, hstays.2.trans hput.lost⟩, fun ha => ?_⟩
  · cases hd : d.tree.isDirectory (dst :: dstDir) with
    | false => rfl
    | true => cases (hput.ways.directory hd).symm.trans hplain
  · rw [hdone, h.find_put]
    split
    · rfl
    · split
      · next hk => rw [hk, h.find_eq_none]
      · next hk => rw [if_neg (Ne.symm hk)]
  · refine hput.ways.trans (hways hput.isAside ?_)
    by_cases hk : dst :: dstDir = name :: dir
    · rw [hk]
      exact hput.isAside
    · exact hput.back.isAside ha ((h.find_put _ _).trans (if_neg (Ne.symm hk))) nofun

end Vacant
end Vacant
end Disk

namespace TemporaryName

variable (name : TemporaryName)

theorem head?_text : name.text.toList.head? = some '.' := by
  simp [text]

theorem text_ne {s : String} (h : s.toList.head? ≠ some '.') : name.text ≠ s := by
  rintro rfl
  exact h name.head?_text

/-- After the mark there are letters and digits only. -/
theorem not_mem_text {c : Char} (hmark : c ∉ ['.', 't', 'm', 'p']) (hc : c.isAlphanum = false) :
    c ∉ name.text.toList := by
  intro h
  rw [text, String.toList_ofList] at h
  rcases List.mem_append.1 (show c ∈ ['.', 't', 'm', 'p'] ++ name.letters from h) with h | h
  · exact hmark h
  · cases hc.symm.trans (name.isAlphanum c h)

theorem isName_text : IsName name.text := by
  have hlength : name.text.toList.length = 10 := by
    simp [text, name.length_letters]
  refine ⟨?_, ?_, ?_, name.not_mem_text (by decide) (by decide)⟩
  all_goals
    intro he
    rw [he] at hlength
    cases hlength

theorem utf8ByteSize_text_le : name.text.utf8ByteSize ≤ 40 := by
  have hsize : ∀ cs : List Char, (String.ofList cs).utf8ByteSize ≤ 4 * cs.length := by
    intro cs
    induction cs with
    | nil => simp
    | cons c cs ih =>
        have hc := c.utf8Size_le_four
        rw [String.ofList_cons, String.utf8ByteSize_append, String.utf8ByteSize_singleton,
          List.length_cons]
        omega
  have hname := hsize ('.' :: 't' :: 'm' :: 'p' :: name.letters)
  simp only [List.length_cons, name.length_letters] at hname
  exact hname

end TemporaryName

namespace WorkDir

open Disk

variable {d d' : Disk} {path temporary : Path} {contents : Bytes} {draws : List TemporaryName}

/-- The temporary file is put where nothing was. -/
theorem writeTemporary_cases (h : writeTemporary temporary path contents d = .ok d') :
    ∃ name dir mode, d.Vacant temporary name dir ∧
      d' = d.put (name :: dir) (.file contents mode) := by
  unfold writeTemporary at h
  obtain ⟨created, hcreate, h₁⟩ := bind_eq_ok_iff.1 h
  obtain ⟨written, hwrite, h₂⟩ := bind_eq_ok_iff.1 h₁
  obtain ⟨name, dir, hvacant, rfl⟩ := vacant_of_create (mapError_eq_ok_iff.1 hcreate)
  cases hvacant.write.symm.trans hwrite
  split at h₂
  · next e _ =>
    cases hvacant.setMode.symm.trans h₂
    exact ⟨name, dir, e.mode, hvacant, rfl⟩
  · cases h₂
    exact ⟨name, dir, temporaryMode, hvacant, rfl⟩

theorem temporaryDir_cases {dir : Path} (h : temporaryDir d path = .ok dir) :
    (path.isAbsolute = true ∧ dir = path) ∨
      (path.isAbsolute = false ∧ d.lost = 0 ∧ dir = d.cwd.toPath.join path) := by
  unfold temporaryDir at h
  split at h
  · next ha =>
    cases h
    exact Or.inl ⟨ha, rfl⟩
  · next ha =>
    unfold currentPath at h
    split at h
    · next hlost =>
      cases h
      exact Or.inr ⟨by simpa using ha, hlost, rfl⟩
    · cases h

/-- The temporary file has one of the drawn names, the first that is not taken. -/
theorem temporaryPath_cases (h : temporaryPath draws d path = .ok temporary) :
    ∃ dir name, temporaryDir d path = .ok dir ∧
      draws.find? (fun name => !isTaken d dir name) = some name ∧ temporary = dir / name.text := by
  obtain ⟨dir, hdir, h⟩ := bind_eq_ok_iff.1 h
  split at h
  · next name hname =>
    cases h
    exact ⟨dir, name, hdir, hname, rfl⟩
  · cases h

/-- Where a file is replaced in one stroke, it alone is another one afterwards. -/
theorem writeAtomic_ok (h : writeAtomic path contents draws d = (.ok (), d')) :
    ∃ name dir slash mode, d.resolveLast path = .ok (dir, .name name slash) ∧
      d.tree.isDirectory (name :: dir) = false ∧
      (∀ k, d'.tree.find k =
        if k = name :: dir then some (.file contents mode) else d.tree.find k) ∧
      (d'.cwd = d.cwd ∧ d'.lost = d.lost) ∧
      (d.tree.IsAside (name :: dir) → d.KeepsWays d') := by
  unfold writeAtomic at h
  dsimp only at h
  split at h
  · cases h
  · next temporary _ =>
    split at h
    · cases h
    · next written hwritten =>
      split at h
      · next done hrename =>
        cases h
        obtain ⟨_, _, mode, hvacant, rfl⟩ := writeTemporary_cases hwritten
        obtain ⟨name, dir, slash, hdone⟩ := hvacant.rename hrename
        exact ⟨name, dir, slash, mode, hdone⟩
      · cases h

/-- Where it fails, not even the temporary file is left. -/
theorem writeAtomic_error {e : Failure} (h : writeAtomic path contents draws d = (.error e, d')) :
    d' = d := by
  unfold writeAtomic at h
  dsimp only at h
  split at h
  · cases h
    rfl
  · split at h
    · cases h
      rfl
    · next temporary _ written hwritten =>
      split at h
      · cases h
      · obtain ⟨_, _, _, hvacant, rfl⟩ := writeTemporary_cases hwritten
        rw [hvacant.unlink] at h
        cases h
        rfl

end WorkDir
end PointsTo
