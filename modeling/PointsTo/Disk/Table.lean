import PointsTo.Path
import PointsTo.Text.Utf8

/-!
Tables from locations to entries. A location lists the names from the entry up
to the root, so that a directory's location is a suffix of the location of
everything inside it. Tables are kept in order, so two of them with the same
entry at every location are equal (`Table.eq_of_find_eq`).
-/

namespace PointsTo

abbrev Location := List String

namespace Location

def toPath (l : Location) : Path :=
  ⟨"/" ++ Path.joinSegments l.reverse⟩

end Location

inductive Entry where
  | file (data : Bytes) (mode : Nat)
  | directory (mode : Nat)
  | link (target : Path)
deriving DecidableEq

namespace Entry

def isDirectory : Entry → Bool
  | directory _ => true
  | _ => false

def isFile : Entry → Bool
  | file .. => true
  | _ => false

/-- The permission bits. Those of a link never matter and are all set. -/
def mode : Entry → Nat
  | file _ mode | directory mode => mode
  | link _ => 0o777

def withMode (mode : Nat) : Entry → Entry
  | file data _ => file data mode
  | directory _ => directory mode
  | link target => link target

end Entry

def IsName (s : String) : Prop :=
  s ≠ "" ∧ s ≠ "." ∧ s ≠ ".." ∧ '/' ∉ s.toList

instance (s : String) : Decidable (IsName s) :=
  inferInstanceAs (Decidable (_ ∧ _ ∧ _ ∧ _))

namespace Table

def find (l : Location) : List (Location × Entry) → Option Entry
  | [] => none
  | (k, e) :: rest => if k = l then some e else find l rest

def insert (l : Location) (e : Entry) : List (Location × Entry) → List (Location × Entry)
  | [] => [(l, e)]
  | (k, v) :: rest =>
    if l < k then (l, e) :: (k, v) :: rest
    else if l = k then (l, e) :: rest
    else (k, v) :: insert l e rest

def keep (p : Location → Bool) (table : List (Location × Entry)) : List (Location × Entry) :=
  table.filter fun x => p x.1

def insertAll (added table : List (Location × Entry)) : List (Location × Entry) :=
  added.foldr (fun x t => insert x.1 x.2 t) table

def Ordered (table : List (Location × Entry)) : Prop :=
  table.Pairwise fun a b => a.1 < b.1

theorem find_insert (k l : Location) (e : Entry) (table : List (Location × Entry)) :
    find k (insert l e table) = if l = k then some e else find k table := by
  induction table with
  | nil => rfl
  | cons x rest ih =>
    obtain ⟨m, v⟩ := x
    simp only [insert]
    split
    · rfl
    · split
      · next h => subst h; simp only [find]; split <;> rfl
      · next h =>
        simp only [find, ih]
        split
        · next hm => subst hm; simp [h]
        · rfl

theorem find_keep (k : Location) (p : Location → Bool) (table : List (Location × Entry)) :
    find k (keep p table) = if p k then find k table else none := by
  induction table with
  | nil => simp [keep, find]
  | cons x rest ih =>
    obtain ⟨m, v⟩ := x
    simp only [keep, List.filter_cons] at ih ⊢
    by_cases hm : m = k
    · subst hm
      cases hp : p m <;> simp [hp] at ih ⊢ <;> simp [find, ih]
    · cases hp : p m <;> simp [find, hm, ih]

theorem find_insertAll (k : Location) (added table : List (Location × Entry)) :
    find k (insertAll added table) = (find k added).or (find k table) := by
  induction added with
  | nil => rfl
  | cons x rest ih =>
    simp only [insertAll, List.foldr_cons] at ih ⊢
    rw [find_insert, ih]
    simp only [find]
    split <;> rfl

theorem mem_insert {x : Location × Entry} {l : Location} {e : Entry}
    {table : List (Location × Entry)} (h : x ∈ insert l e table) : x = (l, e) ∨ x ∈ table := by
  induction table with
  | nil => simpa [insert] using h
  | cons y rest ih =>
    simp only [insert] at h
    split at h
    · simpa using h
    · split at h
      · simp only [List.mem_cons] at h ⊢
        rcases h with h | h <;> simp [h]
      · simp only [List.mem_cons] at h ⊢
        rcases h with h | h
        · simp [h]
        · rcases ih h with h | h <;> simp [h]

theorem location_lt_of_not_lt {a b : Location} (h : ¬ a < b) (hne : a ≠ b) : b < a :=
  Decidable.byContradiction fun hba =>
    hne (Std.Trichotomous.trichotomous (r := (· < ·)) a b h hba)

theorem Ordered.insert {table : List (Location × Entry)} (h : Ordered table) (l : Location)
    (e : Entry) : Ordered (insert l e table) := by
  induction table with
  | nil => simp [Table.insert, Ordered]
  | cons x rest ih =>
    obtain ⟨k, v⟩ := x
    have hx := List.pairwise_cons.1 h
    simp only [Table.insert]
    split
    · next hl =>
      refine List.pairwise_cons.2 ⟨fun y hy => ?_, h⟩
      rcases List.mem_cons.1 hy with rfl | hy
      · exact hl
      · exact List.lt_trans hl (hx.1 y hy)
    · next hl =>
      split
      · next hk => subst hk; exact List.pairwise_cons.2 ⟨hx.1, hx.2⟩
      · next hk =>
        refine List.pairwise_cons.2 ⟨fun y hy => ?_, ih hx.2⟩
        rcases mem_insert hy with rfl | hy
        · exact location_lt_of_not_lt hl hk
        · exact hx.1 y hy

theorem Ordered.keep {table : List (Location × Entry)} (h : Ordered table)
    (p : Location → Bool) : Ordered (keep p table) :=
  List.Pairwise.filter _ h

theorem Ordered.insertAll {table : List (Location × Entry)} (h : Ordered table)
    (added : List (Location × Entry)) : Ordered (insertAll added table) := by
  induction added with
  | nil => exact h
  | cons x rest ih => exact ih.insert _ _

theorem find_eq_some_iff {table : List (Location × Entry)} (h : Ordered table) {l : Location}
    {e : Entry} : find l table = some e ↔ (l, e) ∈ table := by
  induction table with
  | nil => simp [find]
  | cons x rest ih =>
    obtain ⟨k, v⟩ := x
    have hx := List.pairwise_cons.1 h
    simp only [find, List.mem_cons, Prod.mk.injEq]
    split
    · next hk =>
      subst hk
      constructor
      · intro hv; exact Or.inl ⟨rfl, (Option.some.inj hv).symm⟩
      · rintro (⟨_, rfl⟩ | hm)
        · rfl
        · exact absurd (hx.1 _ hm) (List.lt_irrefl _)
    · next hk =>
      rw [ih hx.2]
      constructor
      · exact Or.inr
      · rintro (⟨rfl, _⟩ | hm)
        · exact absurd rfl hk
        · exact hm

/-- Two tables in order with the same entries are the same list. -/
theorem eq_of_find_eq {a b : List (Location × Entry)} (ha : Ordered a) (hb : Ordered b)
    (h : ∀ l, find l a = find l b) : a = b := by
  have hmem : ∀ x, x ∈ a ↔ x ∈ b := fun x => by
    rw [← find_eq_some_iff ha (l := x.1) (e := x.2), h, find_eq_some_iff hb]
  induction a generalizing b with
  | nil =>
    cases b with
    | nil => rfl
    | cons y b => exact absurd ((hmem y).2 (by simp)) (by simp)
  | cons x a ih =>
    cases b with
    | nil => exact absurd ((hmem x).1 (by simp)) (by simp)
    | cons y b =>
      have hxa := List.pairwise_cons.1 ha
      have hyb := List.pairwise_cons.1 hb
      have hxy : x = y := by
        rcases List.mem_cons.1 ((hmem x).1 (by simp)) with h1 | h1
        · exact h1
        · rcases List.mem_cons.1 ((hmem y).2 (by simp)) with h2 | h2
          · exact h2.symm
          · exact absurd (List.lt_trans (hxa.1 y h2) (hyb.1 x h1)) (List.lt_irrefl _)
      subst hxy
      have hab : ∀ z, z ∈ a ↔ z ∈ b := fun z => by
        constructor
        · intro hz
          rcases List.mem_cons.1 ((hmem z).1 (List.mem_cons_of_mem _ hz)) with h1 | h1
          · subst h1; exact absurd (hxa.1 z hz) (List.lt_irrefl _)
          · exact h1
        · intro hz
          rcases List.mem_cons.1 ((hmem z).2 (List.mem_cons_of_mem _ hz)) with h1 | h1
          · subst h1; exact absurd (hyb.1 z hz) (List.lt_irrefl _)
          · exact h1
      have hfind : ∀ l, find l a = find l b := fun l => by
        apply Option.ext
        intro e
        rw [find_eq_some_iff hxa.2, find_eq_some_iff hyb.2]
        exact hab _
      rw [ih hxa.2 hyb.2 hfind hab]

end Table

end PointsTo
