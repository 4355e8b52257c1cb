/-!
Maps that remember the order in which their keys came.

A map is the list of its entries.  Writing a key that is present keeps its place, a new key goes
last, and removing a key keeps the order of the rest.  The type does not ask the keys to be
distinct; `Entries.Distinct` says it, and every operation keeps it.
-/

namespace Docweave

/-- A map from text keys, in the order of its entries. -/
abbrev Entries (α : Type u) : Type u := List (String × α)

namespace Entries

variable {α : Type u}

/-- The value of the first entry with the key. -/
def find? : Entries α → String → Option α
  | [], _ => none
  | (k, v) :: es, key => if k = key then some v else find? es key

/-- Whether some entry has the key. -/
def contains (es : Entries α) (key : String) : Bool :=
  (find? es key).isSome

/-- The keys in order. -/
def keys (es : Entries α) : List String :=
  es.map Prod.fst

/-- Gives the key the value: in place if the key is present, at the end if not. -/
def insert : Entries α → String → α → Entries α
  | [], key, value => [(key, value)]
  | (k, v) :: es, key, value =>
    if k = key then (k, value) :: es else (k, v) :: insert es key value

/-- Removes the entry with the key and keeps the order of the rest. -/
def erase : Entries α → String → Entries α
  | [], _ => []
  | (k, v) :: es, key => if k = key then es else (k, v) :: erase es key

/-- The map that results from writing the entries one by one: for a repeated key the last value
counts, at the place of the first. -/
def ofPairs (pairs : List (String × α)) : Entries α :=
  pairs.foldl (fun es entry => insert es entry.1 entry.2) []

/-- No key occurs twice. -/
def Distinct (es : Entries α) : Prop :=
  (keys es).Nodup

/-! ### What each operation does to a look-up -/

@[simp]
theorem find?_nil (key : String) : find? ([] : Entries α) key = none := rfl

theorem find?_cons (k : String) (v : α) (es : Entries α) (key : String) :
    find? ((k, v) :: es) key = if k = key then some v else find? es key := rfl

theorem find?_insert (es : Entries α) (key : String) (value : α) (other : String) :
    find? (insert es key value) other = if key = other then some value else find? es other := by
  induction es with
  | nil => rfl
  | cons e es ih =>
    obtain ⟨k, v⟩ := e
    simp only [insert]
    split
    · next h => subst h; simp only [find?_cons]; split <;> rfl
    · next h =>
      simp only [find?_cons, ih]
      grind

theorem find?_eq_none_iff (es : Entries α) (key : String) :
    find? es key = none ↔ key ∉ keys es := by
  induction es with
  | nil => simp [keys]
  | cons e es ih =>
    obtain ⟨k, v⟩ := e
    simp only [find?_cons, keys, List.map_cons, List.mem_cons]
    simp only [keys] at ih
    grind

theorem keys_insert_of_mem {es : Entries α} {key : String} (value : α)
    (h : key ∈ keys es) : keys (insert es key value) = keys es := by
  induction es with
  | nil => simp [keys] at h
  | cons e es ih =>
    obtain ⟨k, v⟩ := e
    simp only [insert]
    split
    · simp [keys]
    · next hk =>
      simp only [keys, List.map_cons, List.mem_cons] at h ih ⊢
      rw [ih (by grind)]

theorem keys_insert_of_not_mem {es : Entries α} {key : String} (value : α)
    (h : key ∉ keys es) : keys (insert es key value) = keys es ++ [key] := by
  induction es with
  | nil => rfl
  | cons e es ih =>
    obtain ⟨k, v⟩ := e
    simp only [keys, List.map_cons, List.mem_cons, not_or] at h
    simp only [insert]
    rw [if_neg (fun hk => h.1 hk.symm)]
    simp only [keys, List.map_cons, List.cons_append] at ih ⊢
    rw [ih h.2]

theorem keys_erase (es : Entries α) (key : String) :
    keys (erase es key) = (keys es).erase key := by
  induction es with
  | nil => rfl
  | cons e es ih =>
    obtain ⟨k, v⟩ := e
    simp only [erase, keys, List.map_cons, List.erase_cons]
    simp only [keys] at ih
    split <;> simp_all

theorem insert_self {es : Entries α} {key : String} {v : α} (h : find? es key = some v) :
    insert es key v = es := by
  induction es with
  | nil => simp at h
  | cons e es ih =>
    obtain ⟨k, w⟩ := e
    rw [find?_cons] at h
    rw [insert]
    split
    · next hk =>
      rw [if_pos hk] at h
      obtain rfl := Option.some.inj h
      rw [hk]
    · next hk =>
      rw [if_neg hk] at h
      rw [ih h]

theorem insert_insert (es : Entries α) (key : String) (a b : α) :
    insert (insert es key a) key b = insert es key b := by
  induction es with
  | nil => simp [insert]
  | cons e es ih =>
    obtain ⟨k, v⟩ := e
    by_cases hk : k = key
    · simp [insert, hk]
    · simp [insert, hk, ih]

theorem find?_isSome_iff (es : Entries α) (key : String) :
    (find? es key).isSome = true ↔ key ∈ keys es := by
  rw [Option.isSome_iff_ne_none, Ne, find?_eq_none_iff, Classical.not_not]

theorem mem_of_find? {es : Entries α} {key : String} {v : α} (h : find? es key = some v) :
    (key, v) ∈ es := by
  induction es with
  | nil => simp at h
  | cons e es ih =>
    obtain ⟨k, w⟩ := e
    rw [find?_cons] at h
    split at h
    · next hk =>
      obtain rfl := Option.some.inj h
      simp [hk]
    · exact List.mem_cons_of_mem _ (ih h)

theorem mem_insert {es : Entries α} {key : String} {value : α} {e : String × α}
    (h : e ∈ insert es key value) : e = (key, value) ∨ e ∈ es := by
  induction es with
  | nil => exact Or.inl (List.mem_singleton.mp h)
  | cons f es ih =>
    obtain ⟨k, v⟩ := f
    rw [insert] at h
    split at h
    · next hk => exact (List.mem_cons.mp h).imp (fun heq => hk ▸ heq) (List.mem_cons_of_mem _)
    · rcases List.mem_cons.mp h with rfl | h
      · exact Or.inr List.mem_cons_self
      · exact (ih h).imp id (List.mem_cons_of_mem _)

theorem mem_of_mem_erase {es : Entries α} {key : String} {e : String × α}
    (h : e ∈ erase es key) : e ∈ es := by
  induction es with
  | nil => exact h
  | cons f es ih =>
    obtain ⟨k, v⟩ := f
    rw [erase] at h
    split at h
    · exact List.mem_cons_of_mem _ h
    · exact (List.mem_cons.mp h).elim (fun heq => heq ▸ List.mem_cons_self)
        fun h => List.mem_cons_of_mem _ (ih h)

theorem find?_erase_of_ne (es : Entries α) {key other : String} (hne : key ≠ other) :
    find? (erase es key) other = find? es other := by
  induction es with
  | nil => rfl
  | cons e es ih =>
    obtain ⟨k, v⟩ := e
    simp only [erase]
    split
    · next hk => rw [find?_cons, if_neg (hk ▸ hne)]
    · rw [find?_cons, find?_cons, ih]

/-- Without an entry under the key nothing is erased. -/
theorem erase_eq_self {es : Entries α} {key : String} (h : find? es key = none) :
    erase es key = es := by
  induction es with
  | nil => rfl
  | cons e es ih =>
    obtain ⟨k, v⟩ := e
    rw [find?_cons] at h
    split at h
    · exact absurd h (by simp)
    · next hk => rw [erase, if_neg hk, ih h]

/-! ### What distinct keys are good for -/

namespace Distinct

variable {es : Entries α}

theorem nil : Distinct ([] : Entries α) := List.nodup_nil

theorem of_cons {e : String × α} (h : Distinct (e :: es)) : Distinct es :=
  (List.nodup_cons.mp h).2

theorem find?_eq_none_of_cons {k : String} {v : α} (h : Distinct ((k, v) :: es)) :
    find? es k = none :=
  (find?_eq_none_iff es k).mpr (List.nodup_cons.mp h).1

theorem find?_of_mem (h : Distinct es) {key : String} {v : α} (hmem : (key, v) ∈ es) :
    find? es key = some v := by
  induction es with
  | nil => simp at hmem
  | cons e es ih =>
    obtain ⟨k, w⟩ := e
    rw [find?_cons]
    rcases List.mem_cons.mp hmem with heq | htail
    · obtain ⟨rfl, rfl⟩ := Prod.mk.inj heq
      rw [if_pos rfl]
    · have hne : k ≠ key := by
        rintro rfl
        exact (List.nodup_cons.mp h).1 (List.mem_map.mpr ⟨_, htail, rfl⟩)
      rw [if_neg hne, ih h.of_cons htail]

/-- The order of entries without a repeated key makes no difference. -/
theorem find?_of_perm {fs : Entries α} (h : Distinct es) (hperm : es.Perm fs) (key : String) :
    find? es key = find? fs key := by
  cases hfind : find? fs key with
  | some v => exact h.find?_of_mem (hperm.mem_iff.mpr (mem_of_find? hfind))
  | none =>
    rw [find?_eq_none_iff] at hfind ⊢
    exact fun hmem => hfind ((hperm.map Prod.fst).mem_iff.mp hmem)

theorem insert (h : Distinct es) (key : String) (value : α) :
    Distinct (Entries.insert es key value) := by
  unfold Distinct
  by_cases hmem : key ∈ keys es
  · rw [keys_insert_of_mem value hmem]
    exact h
  · rw [keys_insert_of_not_mem value hmem]
    refine List.nodup_append.mpr ⟨h, List.nodup_cons.mpr ⟨by simp, List.nodup_nil⟩, ?_⟩
    rintro a ha b hb rfl
    exact hmem (List.mem_singleton.mp hb ▸ ha)

theorem erase (h : Distinct es) (key : String) : Distinct (Entries.erase es key) := by
  unfold Distinct
  rw [keys_erase]
  exact List.Nodup.erase key h

theorem find?_erase (h : Distinct es) (key : String) :
    find? (Entries.erase es key) key = none := by
  rw [find?_eq_none_iff, keys_erase]
  exact List.Nodup.not_mem_erase h

theorem filter (h : Distinct es) (keep : String × α → Bool) : Distinct (es.filter keep) :=
  List.Nodup.sublist (List.filter_sublist.map Prod.fst) h

end Distinct

/-- A map without repeated keys is determined by its keys in order and the value of each. -/
theorem ext_of_keys_eq {es fs : Entries α} (hes : Distinct es) (hkeys : keys es = keys fs)
    (hfind : ∀ key, find? es key = find? fs key) : es = fs := by
  induction es generalizing fs with
  | nil => exact (List.map_eq_nil_iff.mp hkeys.symm).symm
  | cons e es ih =>
    obtain ⟨k, v⟩ := e
    cases fs with
    | nil => exact absurd hkeys (by simp [keys])
    | cons f fs =>
      obtain ⟨k', w⟩ := f
      obtain ⟨rfl, htail⟩ := List.cons.inj hkeys
      have hfs : Distinct ((k, w) :: fs) := by
        unfold Distinct at hes ⊢
        rwa [← hkeys]
      have hhead := hfind k
      rw [find?_cons, find?_cons, if_pos rfl, if_pos rfl] at hhead
      obtain rfl := Option.some.inj hhead
      rw [ih hes.of_cons htail fun key => ?_]
      by_cases hk : k = key
      · subst hk
        rw [hes.find?_eq_none_of_cons, hfs.find?_eq_none_of_cons]
      · have := hfind key
        rwa [find?_cons, find?_cons, if_neg hk, if_neg hk] at this

end Entries

end Docweave
