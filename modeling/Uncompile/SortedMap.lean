/-!
# Finite maps in key order

A finite map kept as the list of its entries in increasing order of the keys.
Insertion replaces an entry in place or puts it before the first larger key, so
listing a map lists it in order. A map is determined by what it holds under
each key.
-/

namespace Uncompile

structure SortedMap (κ : Type) (α : Type) [LT κ] where
  entries : List (κ × α) := []
  sorted : entries.Pairwise fun a b => a.1 < b.1 := by exact List.Pairwise.nil
  deriving DecidableEq

namespace SortedMap

variable {κ α : Type} [LT κ] [DecidableEq κ]

/-! ## Lookup -/

def empty : SortedMap κ α := {}

def isEmpty (map : SortedMap κ α) : Bool := map.entries.isEmpty

def keys (map : SortedMap κ α) : List κ := map.entries.map Prod.fst

def values (map : SortedMap κ α) : List α := map.entries.map Prod.snd

def lookup (key : κ) : List (κ × α) → Option α
  | [] => none
  | (other, value) :: rest => if other = key then some value else lookup key rest

def get? (map : SortedMap κ α) (key : κ) : Option α := lookup key map.entries

def contains (map : SortedMap κ α) (key : κ) : Bool := (map.get? key).isSome

@[simp]
theorem get?_empty (key : κ) : (empty : SortedMap κ α).get? key = none := rfl

omit [LT κ] in
theorem mem_of_lookup {key : κ} {value : α} {entries : List (κ × α)}
    (hvalue : lookup key entries = some value) : (key, value) ∈ entries := by
  induction entries with
  | nil => simp [lookup] at hvalue
  | cons entry rest ih =>
    rw [lookup] at hvalue
    split at hvalue
    · rename_i hkey
      cases hvalue
      rw [← hkey]
      exact List.mem_cons_self
    · exact List.mem_cons_of_mem _ (ih hvalue)

theorem mem_of_get? {map : SortedMap κ α} {key : κ} {value : α}
    (hvalue : map.get? key = some value) : (key, value) ∈ map.entries :=
  mem_of_lookup hvalue

theorem mem_values_of_get? {map : SortedMap κ α} {key : κ} {value : α}
    (hvalue : map.get? key = some value) : value ∈ map.values :=
  List.mem_map.mpr ⟨_, mem_of_get? hvalue, rfl⟩

omit [DecidableEq κ] in
theorem pairwise_keys (map : SortedMap κ α) : map.keys.Pairwise (· < ·) :=
  List.pairwise_map.mpr map.sorted

section Irreflexive

variable [Std.Irrefl (α := κ) (· < ·)] {map map' : SortedMap κ α}

omit [DecidableEq κ] in
theorem ne_of_lt {a b : κ} (hlt : a < b) : a ≠ b := by
  rintro rfl
  exact Std.Irrefl.irrefl a hlt

/-- What a map lists under a key is what it holds there. -/
theorem get?_of_mem {key : κ} {value : α} (hmem : (key, value) ∈ map.entries) :
    map.get? key = some value := by
  obtain ⟨entries, hsorted⟩ := map
  simp only [get?] at hmem ⊢
  induction entries with
  | nil => exact absurd hmem List.not_mem_nil
  | cons head rest ih =>
    obtain ⟨hhead, hrest⟩ := List.pairwise_cons.mp hsorted
    rw [lookup]
    rcases List.mem_cons.mp hmem with rfl | hlater
    · rw [if_pos rfl]
    · rw [if_neg (ne_of_lt (hhead _ hlater)), ih hrest hlater]

theorem isSome_get?_iff {key : κ} : (map.get? key).isSome ↔ key ∈ map.keys := by
  rw [Option.isSome_iff_exists, keys, List.mem_map]
  constructor
  · rintro ⟨value, hvalue⟩
    exact ⟨_, mem_of_get? hvalue, rfl⟩
  · rintro ⟨⟨_, value⟩, hmem, rfl⟩
    exact ⟨value, get?_of_mem hmem⟩

end Irreflexive

/-- A map is determined by what it holds under each key. -/
theorem eq_of_get?_eq [Std.Asymm (α := κ) (· < ·)] {map map' : SortedMap κ α}
    (hget : ∀ key, map'.get? key = map.get? key) : map' = map := by
  have hentries : ∀ entry, entry ∈ map'.entries ↔ entry ∈ map.entries := fun ⟨key, value⟩ =>
    ⟨fun hmem => mem_of_get? ((hget key).symm.trans (get?_of_mem hmem)),
      fun hmem => mem_of_get? ((hget key).trans (get?_of_mem hmem))⟩
  have hnodup (table : SortedMap κ α) : table.entries.Nodup :=
    table.sorted.imp fun hlt heq => ne_of_lt hlt (congrArg Prod.fst heq)
  have hperm : map'.entries.Perm map.entries :=
    (List.perm_ext_iff_of_nodup (hnodup map') (hnodup map)).mpr hentries
  have heq := hperm.eq_of_pairwise
    (fun _ _ _ _ hlt hgt => absurd hgt (Std.Asymm.asymm _ _ hlt)) map'.sorted map.sorted
  cases map
  cases map'
  simp_all

/-! ## Insertion -/

def insertEntry [DecidableLT κ] (key : κ) (value : α) : List (κ × α) → List (κ × α)
  | [] => [(key, value)]
  | (other, old) :: rest =>
    if other = key then (key, value) :: rest
    else if key < other then (key, value) :: (other, old) :: rest
    else (other, old) :: insertEntry key value rest

theorem mem_insertEntry [DecidableLT κ] {key : κ} {value : α} {entries : List (κ × α)}
    {entry : κ × α} (hentry : entry ∈ insertEntry key value entries) :
    entry = (key, value) ∨ entry ∈ entries := by
  induction entries with
  | nil => exact Or.inl (List.mem_singleton.mp hentry)
  | cons head rest ih =>
    rw [insertEntry] at hentry
    split at hentry
    · exact (List.mem_cons.mp hentry).imp_right (List.mem_cons_of_mem head)
    · split at hentry
      · exact List.mem_cons.mp hentry
      · rcases List.mem_cons.mp hentry with rfl | hrest
        · exact Or.inr List.mem_cons_self
        · exact (ih hrest).imp_right (List.mem_cons_of_mem head)

theorem lookup_insertEntry [DecidableLT κ] (key other : κ) (value : α)
    (entries : List (κ × α)) :
    lookup other (insertEntry key value entries) =
      if key = other then some value else lookup other entries := by
  induction entries with
  | nil => simp [insertEntry, lookup]
  | cons entry rest ih =>
    obtain ⟨head, old⟩ := entry
    unfold insertEntry
    split
    · subst head
      simp only [lookup]
      split <;> rfl
    · split
      · simp only [lookup]
      · simp only [lookup, ih]
        split <;> split <;> simp_all

section Insert

variable [DecidableLT κ] [Std.Trichotomous (α := κ) (· < ·)]
  [Trans (α := κ) (· < ·) (· < ·) (· < ·)]

theorem sorted_insertEntry {key : κ} {value : α} {entries : List (κ × α)}
    (hsorted : entries.Pairwise fun a b => a.1 < b.1) :
    (insertEntry key value entries).Pairwise fun a b => a.1 < b.1 := by
  induction entries with
  | nil => exact List.pairwise_singleton _ _
  | cons head rest ih =>
    obtain ⟨hhead, hrest⟩ := List.pairwise_cons.mp hsorted
    rw [insertEntry]
    split
    · rename_i hkey
      exact List.pairwise_cons.mpr ⟨fun entry hentry => hkey ▸ hhead entry hentry, hrest⟩
    · rename_i hkey
      split
      · rename_i hlt
        refine List.pairwise_cons.mpr ⟨fun entry hentry => ?_, hsorted⟩
        rcases List.mem_cons.mp hentry with rfl | hmem
        · exact hlt
        · exact Trans.trans (r := (· < ·)) (s := (· < ·)) hlt (hhead entry hmem)
      · rename_i hlt
        refine List.pairwise_cons.mpr ⟨fun entry hentry => ?_, ih hrest⟩
        rcases mem_insertEntry hentry with rfl | hmem
        · exact Classical.byContradiction fun hle =>
            hkey (Std.Trichotomous.trichotomous _ _ hle hlt)
        · exact hhead entry hmem

def insert (map : SortedMap κ α) (key : κ) (value : α) : SortedMap κ α :=
  ⟨insertEntry key value map.entries, sorted_insertEntry map.sorted⟩

/-- The map of a list of entries, a later entry replacing an earlier one. -/
def ofList (entries : List (κ × α)) : SortedMap κ α :=
  entries.foldl (fun map entry => map.insert entry.1 entry.2) empty

theorem mem_of_mem_ofList {entries : List (κ × α)} {entry : κ × α}
    (hentry : entry ∈ (ofList entries).entries) : entry ∈ entries := by
  have hfold : ∀ (entries : List (κ × α)) (map : SortedMap κ α),
      entry ∈ (entries.foldl (fun map entry => map.insert entry.1 entry.2) map).entries →
        entry ∈ map.entries ∨ entry ∈ entries := by
    intro entries
    induction entries with
    | nil => exact fun map hmem => .inl hmem
    | cons first rest ih =>
      intro map hmem
      rcases ih _ hmem with hmem | hmem
      · rcases mem_insertEntry hmem with rfl | hmem
        · exact .inr List.mem_cons_self
        · exact .inl hmem
      · exact .inr (List.mem_cons_of_mem _ hmem)
  exact (hfold entries empty hentry).resolve_left List.not_mem_nil

theorem get?_insert (map : SortedMap κ α) (key other : κ) (value : α) :
    (map.insert key value).get? other =
      if key = other then some value else map.get? other :=
  lookup_insertEntry key other value map.entries

/-- A map built from entries with distinct keys holds all of them. -/
theorem get?_ofList_of_mem {entries : List (κ × α)} (hnodup : (entries.map Prod.fst).Nodup)
    {key : κ} {value : α} (hmem : (key, value) ∈ entries) :
    (ofList entries).get? key = some value := by
  have hfold : ∀ (entries : List (κ × α)) (map : SortedMap κ α),
      (entries.map Prod.fst).Nodup →
      ((key, value) ∈ entries ∨ key ∉ entries.map Prod.fst ∧ map.get? key = some value) →
      (entries.foldl (fun map entry => map.insert entry.1 entry.2) map).get? key =
        some value := by
    intro entries
    induction entries with
    | nil => exact fun map _ h => (h.resolve_left List.not_mem_nil).2
    | cons first rest ih =>
      intro map hnodup h
      rw [List.map_cons, List.nodup_cons] at hnodup
      rw [List.foldl_cons]
      refine ih _ hnodup.2 ?_
      rw [get?_insert]
      rcases h with hmem | ⟨hout, hfound⟩
      · rcases List.mem_cons.mp hmem with rfl | hmem
        · exact .inr ⟨hnodup.1, if_pos rfl⟩
        · exact .inl hmem
      · rw [List.map_cons, List.mem_cons, not_or] at hout
        exact .inr ⟨hout.2, by rw [if_neg (Ne.symm hout.1), hfound]⟩
  exact hfold entries empty hnodup (.inl hmem)

end Insert

/-! ## Removal -/

def erase (map : SortedMap κ α) (key : κ) : SortedMap κ α :=
  ⟨map.entries.filter fun entry => entry.1 ≠ key, map.sorted.filter _⟩

/-- The entries that satisfy a test on key and value. -/
def filter (map : SortedMap κ α) (keep : κ → α → Bool) : SortedMap κ α :=
  ⟨map.entries.filter fun entry => keep entry.1 entry.2, map.sorted.filter _⟩

omit [LT κ] in
theorem lookup_filter_ne (key other : κ) (entries : List (κ × α)) :
    lookup other (entries.filter fun entry => entry.1 ≠ key) =
      if key = other then none else lookup other entries := by
  induction entries with
  | nil => simp [lookup]
  | cons entry rest ih =>
    obtain ⟨head, old⟩ := entry
    by_cases hhead : head = key
    · subst head
      simp only [ne_eq, decide_not, List.filter_cons_of_neg, lookup,
        decide_true, Bool.not_true, Bool.false_eq_true, not_false_eq_true] at ih ⊢
      rw [ih]
      split <;> simp_all
    · simp only [ne_eq, decide_not, hhead, decide_false, Bool.not_false,
        List.filter_cons_of_pos, lookup] at ih ⊢
      rw [ih]
      split <;> split <;> simp_all

theorem get?_erase (map : SortedMap κ α) (key other : κ) :
    (map.erase key).get? other = if key = other then none else map.get? other :=
  lookup_filter_ne key other map.entries

end SortedMap

end Uncompile
