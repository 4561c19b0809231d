import PointsTo.Disk.Table

/-!
The tree of a disk: a table in which every entry has a proper name and stands in
a directory. The root is not stored and is always a directory. `put`, `remove`,
`clear` and `move` are the only ways to change a tree, and each comes with the
entry that it leaves at every location.
-/

namespace PointsTo

def Table.isDirectory (table : List (Location × Entry)) : Location → Bool
  | [] => true
  | l@(_ :: _) => ((Table.find l table).map Entry.isDirectory).getD false

@[ext] structure Tree where
  entries : List (Location × Entry)
  ordered : Table.Ordered entries
  rootless : Table.find [] entries = none
  /-- Every entry has a proper name and stands in a directory. -/
  rooted : ∀ n d e, Table.find (n :: d) entries = some e →
    IsName n ∧ Table.isDirectory entries d = true

namespace Tree

def empty : Tree where
  entries := []
  ordered := List.Pairwise.nil
  rootless := rfl
  rooted := by simp [Table.find]

/-- What stands at a location. The root stands for itself. -/
def find (t : Tree) (l : Location) : Option Entry :=
  Table.find l t.entries

def isDirectory (t : Tree) (l : Location) : Bool :=
  Table.isDirectory t.entries l

@[simp] theorem isDirectory_nil (t : Tree) : t.isDirectory [] = true := rfl

theorem isDirectory_cons (t : Tree) (n : String) (d : Location) :
    t.isDirectory (n :: d) = ((t.find (n :: d)).map Entry.isDirectory).getD false := rfl

theorem ext_find {s t : Tree} (h : ∀ l, s.find l = t.find l) : s = t :=
  Tree.ext (Table.eq_of_find_eq s.ordered t.ordered h)

/-- A change that leaves every other directory in place: the new entry has a
proper name, its parent is a directory, and a directory stays one. -/
def accepts (t : Tree) (l : Location) (e : Entry) : Bool :=
  match l with
  | [] => false
  | n :: d => decide (IsName n) && t.isDirectory d && (!t.isDirectory (n :: d) || e.isDirectory)

theorem isDirectory_insert {t : Tree} {l : Location} {e : Entry} (h : t.accepts l e = true)
    {d : Location} (hd : t.isDirectory d = true) :
    Table.isDirectory (Table.insert l e t.entries) d = true := by
  cases d with
  | nil => rfl
  | cons m d =>
    simp only [Table.isDirectory, Table.find_insert]
    split
    · next hl =>
      subst hl
      simp only [accepts, Bool.and_eq_true, Bool.or_eq_true, Bool.not_eq_true'] at h
      simpa [hd] using h.2
    · exact hd

/-- Set the entry at a location, where it may stand there. -/
def put (t : Tree) (l : Location) (e : Entry) : Tree :=
  if h : t.accepts l e = true then
    { entries := Table.insert l e t.entries
      ordered := t.ordered.insert l e
      rootless := by
        rw [Table.find_insert, t.rootless]
        cases l with
        | nil => simp [accepts] at h
        | cons n d => simp
      rooted := fun n d e' he => by
        rw [Table.find_insert] at he
        split at he
        · next hl =>
          subst hl
          have h' := h
          simp only [accepts, Bool.and_eq_true, decide_eq_true_eq] at h'
          exact ⟨h'.1.1, isDirectory_insert h h'.1.2⟩
        · exact ⟨(t.rooted n d e' he).1, isDirectory_insert h (t.rooted n d e' he).2⟩ }
  else t

theorem find_put {t : Tree} {l : Location} {e : Entry} (h : t.accepts l e = true)
    (k : Location) : (t.put l e).find k = if l = k then some e else t.find k := by
  simp [put, h, find, Table.find_insert]

/-- Keep what a test says. A test that keeps an entry keeps its directory. -/
def keep (t : Tree) (p : Location → Bool) (h : ∀ n d, p (n :: d) = true → p d = true) : Tree where
  entries := Table.keep p t.entries
  ordered := t.ordered.keep p
  rootless := by rw [Table.find_keep, t.rootless]; simp
  rooted := fun n d e he => by
    rw [Table.find_keep] at he
    split at he
    · next hp =>
      refine ⟨(t.rooted n d e he).1, ?_⟩
      have hd := (t.rooted n d e he).2
      cases d with
      | nil => rfl
      | cons m d => simpa [Table.isDirectory, Table.find_keep, h n _ hp] using hd
    · simp at he

@[simp] theorem find_keep (t : Tree) (p : Location → Bool)
    (h : ∀ n d, p (n :: d) = true → p d = true) (k : Location) :
    (t.keep p h).find k = if p k then t.find k else none :=
  Table.find_keep k p t.entries

def isWithin (d l : Location) : Bool :=
  d.isSuffixOf l

theorem isWithin_iff {d l : Location} : isWithin d l = true ↔ d <:+ l := by
  simp [isWithin]

theorem isWithin_cons {d l : Location} (n : String) (h : isWithin d l = true) :
    isWithin d (n :: l) = true :=
  isWithin_iff.2 ((isWithin_iff.1 h).trans (List.suffix_cons n l))

def remove (t : Tree) (l : Location) : Tree :=
  t.keep (fun k => !isWithin l k) fun n d h => by
    cases hd : isWithin l d with
    | false => rfl
    | true => simp [isWithin_cons n hd] at h

@[simp] theorem find_remove (t : Tree) (l k : Location) :
    (t.remove l).find k = if isWithin l k then none else t.find k := by
  rw [remove, find_keep]
  cases isWithin l k <;> simp

def clear (t : Tree) (l : Location) : Tree :=
  t.keep (fun k => k.length ≤ l.length || !isWithin l k) fun n d h => by
    simp only [List.length_cons, Bool.or_eq_true, decide_eq_true_eq] at h ⊢
    rcases h with h | h
    · exact Or.inl (by omega)
    · cases hd : isWithin l d with
      | false => exact Or.inr rfl
      | true => simp [isWithin_cons n hd] at h

@[simp] theorem find_clear (t : Tree) (l k : Location) :
    (t.clear l).find k = if isWithin l k && k != l then none else t.find k := by
  rw [clear, find_keep]
  by_cases hk : k = l
  · subst hk; simp
  · cases hw : isWithin l k with
    | false => simp
    | true =>
      have hl : ¬ k.length ≤ l.length := fun hle =>
        hk ((isWithin_iff.1 hw).eq_of_length_le hle).symm
      simp [hl, hk]

def children (t : Tree) (d : Location) : List (String × Entry) :=
  t.entries.filterMap fun x =>
    match x with
    | (n :: parent, e) => if parent = d then some (n, e) else none
    | ([], _) => none

theorem mem_children {t : Tree} {d : Location} {n : String} {e : Entry} :
    (n, e) ∈ t.children d ↔ t.find (n :: d) = some e := by
  rw [find, Table.find_eq_some_iff t.ordered, children, List.mem_filterMap]
  constructor
  · rintro ⟨⟨l, v⟩, hm, hv⟩
    cases l with
    | nil => simp at hv
    | cons m parent =>
      simp only [Option.ite_none_right_eq_some, Option.some.injEq, Prod.mk.injEq] at hv
      obtain ⟨rfl, rfl, rfl⟩ := hv
      exact hm
  · intro hm
    exact ⟨(n :: d, e), hm, by simp⟩

end Tree
end PointsTo
