/-!
# Finite tables

A table maps keys to values and holds at most one entry per key. Entries are kept newest first,
so inserting under a key that is already present replaces its entry.
-/

namespace MethodLift

/-- A finite map, as a list of entries with the newest first. -/
structure Table (κ α : Type) where
  entries : List (κ × α) := []

namespace Table

variable {κ α : Type} [BEq κ]

def empty : Table κ α := {}

def size (t : Table κ α) : Nat := t.entries.length

def get? (t : Table κ α) (k : κ) : Option α := t.entries.lookup k

/-- Drops the entry of a key. -/
def erase (t : Table κ α) (k : κ) : Table κ α := ⟨t.entries.filter fun e => e.1 != k⟩

/-- Stores a value, replacing the entry that the key had. -/
def insert (t : Table κ α) (k : κ) (v : α) : Table κ α := ⟨(k, v) :: (t.erase k).entries⟩

/-- Replaces the value of a key by a function of it, starting from `default` for a new key. -/
def update (t : Table κ α) (k : κ) (default : α) (f : α → α) : Table κ α :=
  t.insert k (f ((t.get? k).getD default))

/-- Inserts the entries of a list from left to right, so later entries win. -/
def ofList (entries : List (κ × α)) : Table κ α :=
  entries.foldl (fun t e => t.insert e.1 e.2) empty

/-! ## What a look-up sees -/

/-- An entry after an update is the new one of its key, or was there before. -/
theorem mem_update {t : Table κ α} {k : κ} {d : α} {f : α → α} {entry : κ × α}
    (h : entry ∈ (t.update k d f).entries) :
    entry = (k, f ((t.get? k).getD d)) ∨ entry ∈ t.entries := by
  rcases List.mem_cons.mp h with rfl | h
  · exact .inl rfl
  · exact .inr (List.mem_filter.mp h).1

@[simp] theorem get?_empty (k : κ) : (empty : Table κ α).get? k = none := rfl

variable [LawfulBEq κ]

@[simp] theorem get?_insert_self (t : Table κ α) (k : κ) (v : α) :
    (t.insert k v).get? k = some v := by
  simp [insert, get?]

theorem lookup_filter_of_ne {k j : κ} (h : k ≠ j) (entries : List (κ × α)) :
    (entries.filter fun e => e.1 != j).lookup k = entries.lookup k := by
  induction entries with
  | nil => rfl
  | cons e rest ih =>
    obtain ⟨a, v⟩ := e
    by_cases ha : a = j
    · subst ha
      have hk : (k == a) = false := by simpa using h
      simp [ih, List.lookup_cons, hk]
    · simp [ha, ih, List.lookup_cons]

theorem get?_erase_of_ne (t : Table κ α) {k j : κ} (h : k ≠ j) :
    (t.erase j).get? k = t.get? k :=
  lookup_filter_of_ne h t.entries

theorem get?_insert_of_ne (t : Table κ α) {k j : κ} (v : α) (h : k ≠ j) :
    (t.insert j v).get? k = t.get? k := by
  have hk : (k == j) = false := by simpa using h
  simp [insert, get?, erase, h, lookup_filter_of_ne, List.lookup_cons, hk]

variable {t : Table κ α} {k : κ}

theorem mem_of_get? {v : α} (h : t.get? k = some v) : (k, v) ∈ t.entries := by
  obtain ⟨before, after, hentries, -⟩ := List.lookup_eq_some_iff.mp h
  rw [hentries]
  exact List.mem_append_right _ List.mem_cons_self

/-- Dropping a key that has an entry makes the table smaller, which bounds how often one can be
followed. -/
theorem erase_size_lt {v : α} (h : t.get? k = some v) : (t.erase k).size < t.size :=
  List.length_filter_lt_length_iff_exists.mpr ⟨(k, v), mem_of_get? h, by simp⟩

end Table

end MethodLift
