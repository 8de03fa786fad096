/-!
Entries of objects: lists of keys and values.

An object is read by looking a key up (`List.lookup`). Objects never have two entries for one key;
`put` keeps that so.

* `Entries.put`: sets the value of a key, in place if the key is there and at the end if not.
* `Entries.sort`: the entries in the order of their keys, by code point.
* `lookup_eq_some_iff`: where no key comes twice, exactly the entries are found.
* `eq_of_lookup`: entries are known from their keys, in order, and from what is found.
* `lookup_put`: what is found after `put`.
* `sort_perm`: sorting only moves entries.
* `sort_eq_of_lookup`: entries under which the same values are found are the same when they are
  sorted.
-/

namespace Reshape.Entries

variable {α : Type}

/-- Sets the value of a key: an entry that is there keeps its place, a new one comes last. -/
def put (key : String) (value : α) : List (String × α) → List (String × α)
  | [] => [(key, value)]
  | (other, old) :: rest =>
    if other = key then (key, value) :: rest else (other, old) :: put key value rest

/-- The keys of entries, in order. -/
def keys (entries : List (String × α)) : List String :=
  entries.map (·.1)

/-- Adds an entry in front of the first one whose key is not smaller. -/
def insert (entry : String × α) : List (String × α) → List (String × α)
  | [] => [entry]
  | first :: rest =>
    if first.1 < entry.1 then first :: insert entry rest else entry :: first :: rest

/-- The entries in the order of their keys. -/
def sort (entries : List (String × α)) : List (String × α) :=
  entries.foldr insert []

@[simp] theorem keys_nil : keys ([] : List (String × α)) = [] := rfl

@[simp] theorem keys_cons (key : String) (value : α) (rest : List (String × α)) :
    keys ((key, value) :: rest) = key :: keys rest := rfl

/-! ### Looking keys up -/

/-- A key is compared with the first entry, and then looked up among the rest. -/
theorem lookup_cons (key other : String) (value : α) (rest : List (String × α)) :
    ((other, value) :: rest).lookup key = if key = other then some value else rest.lookup key := by
  rw [List.lookup_cons]
  by_cases h : key = other
  · rw [if_pos h, beq_iff_eq.2 h]
  · rw [if_neg h, beq_false_of_ne h]

/-- A key is found exactly if it is among the keys. -/
theorem lookup_isSome_iff {entries : List (String × α)} {key : String} :
    (entries.lookup key).isSome ↔ key ∈ keys entries := by
  induction entries with
  | nil => simp
  | cons entry rest ih =>
    obtain ⟨other, value⟩ := entry
    rw [lookup_cons, keys_cons, List.mem_cons]
    by_cases h : key = other
    · simp [h]
    · rw [if_neg h, ih, or_iff_right h]

/-- What is found is an entry. -/
theorem mem_of_lookup {entries : List (String × α)} {key : String} {value : α}
    (h : entries.lookup key = some value) : (key, value) ∈ entries := by
  induction entries with
  | nil => exact absurd h (by simp)
  | cons entry rest ih =>
    obtain ⟨other, old⟩ := entry
    rw [lookup_cons] at h
    by_cases hk : key = other
    · rw [if_pos hk, Option.some.injEq] at h
      rw [hk, h]
      exact List.mem_cons_self
    · rw [if_neg hk] at h
      exact List.mem_cons_of_mem _ (ih h)

/-- Where no key comes twice, exactly the entries are found. -/
theorem lookup_eq_some_iff {entries : List (String × α)} (hd : (keys entries).Nodup)
    {key : String} {value : α} : entries.lookup key = some value ↔ (key, value) ∈ entries := by
  refine ⟨mem_of_lookup, fun h => ?_⟩
  induction entries with
  | nil => exact absurd h List.not_mem_nil
  | cons entry rest ih =>
    obtain ⟨other, old⟩ := entry
    rw [keys_cons, List.nodup_cons] at hd
    rw [lookup_cons]
    rcases List.mem_cons.1 h with he | hr
    · rw [Prod.mk.injEq] at he
      rw [if_pos he.1, he.2]
    · have hk : key ∈ keys rest := List.mem_map_of_mem hr
      have hn : key ≠ other := fun he => hd.1 (he ▸ hk)
      rw [if_neg hn]
      exact ih hd.2 hr

/-- A key that is not there is not found. -/
theorem lookup_eq_none_iff {entries : List (String × α)} {key : String} :
    entries.lookup key = none ↔ key ∉ keys entries := by
  rw [← lookup_isSome_iff, Option.not_isSome_iff_eq_none]

/-- Entries with the same keys in the same order, under which the same values are found, are the
same, if no key comes twice. -/
theorem eq_of_lookup {as bs : List (String × α)} (hk : keys as = keys bs) (hd : (keys as).Nodup)
    (h : ∀ key, as.lookup key = bs.lookup key) : as = bs := by
  induction as generalizing bs with
  | nil => exact (List.map_eq_nil_iff.1 hk.symm).symm
  | cons entry rest ih =>
    obtain ⟨key, a⟩ := entry
    obtain ⟨⟨other, b⟩, more, rfl, ho, hr⟩ := List.map_eq_cons_iff.1 hk.symm
    obtain rfl : other = key := ho
    rw [keys_cons, List.nodup_cons] at hd
    have hab := h other
    rw [lookup_cons, lookup_cons, if_pos rfl, if_pos rfl, Option.some.injEq] at hab
    rw [hab, ih hr.symm hd.2]
    intro key
    have hl := h key
    rw [lookup_cons, lookup_cons] at hl
    by_cases he : key = other
    · rw [he, lookup_eq_none_iff.2 hd.1, lookup_eq_none_iff.2]
      rw [show keys more = keys rest from hr]
      exact hd.1
    · rwa [if_neg he, if_neg he] at hl

/-- What is found after `put`: the new value under its key, and what was there under the others. -/
theorem lookup_put (key other : String) (value : α) (entries : List (String × α)) :
    (put key value entries).lookup other =
      if other = key then some value else entries.lookup other := by
  induction entries with
  | nil => rw [put, lookup_cons]
  | cons entry rest ih =>
    obtain ⟨first, old⟩ := entry
    rw [put]
    by_cases hf : first = key
    · subst hf
      rw [if_pos rfl, lookup_cons, lookup_cons]
      by_cases h : other = first
      · rw [if_pos h, if_pos h]
      · rw [if_neg h, if_neg h, if_neg h]
    · rw [if_neg hf, lookup_cons, lookup_cons, ih]
      by_cases h : other = first
      · rw [if_pos h, if_pos h, if_neg (h ▸ hf)]
      · rw [if_neg h, if_neg h]

/-- What is an entry after `put` is the new one or was there before. -/
theorem mem_put {key : String} {value : α} {entries : List (String × α)} {entry : String × α}
    (h : entry ∈ put key value entries) : entry = (key, value) ∨ entry ∈ entries := by
  induction entries with
  | nil => exact .inl (List.mem_singleton.1 h)
  | cons first rest ih =>
    obtain ⟨other, old⟩ := first
    rw [put] at h
    by_cases hf : other = key
    · rw [if_pos hf] at h
      exact (List.mem_cons.1 h).imp_right (List.mem_cons_of_mem _)
    · rw [if_neg hf] at h
      rcases List.mem_cons.1 h with rfl | h
      · exact .inr List.mem_cons_self
      · exact (ih h).imp_right (List.mem_cons_of_mem _)

/-- The keys after `put`: a new key comes last. -/
theorem keys_put (key : String) (value : α) (entries : List (String × α)) :
    keys (put key value entries) =
      if key ∈ keys entries then keys entries else keys entries ++ [key] := by
  induction entries with
  | nil => rfl
  | cons entry rest ih =>
    obtain ⟨first, old⟩ := entry
    rw [put]
    by_cases hf : first = key
    · simp [hf]
    · rw [if_neg hf, keys_cons, keys_cons, ih]
      by_cases h : key ∈ keys rest
      · rw [if_pos h, if_pos (List.mem_cons_of_mem first h)]
      · have hc : key ∉ first :: keys rest := by simp [h, Ne.symm hf]
        rw [if_neg h, if_neg hc, List.cons_append]

/-- `put` makes no second entry for a key. -/
theorem nodup_keys_put {entries : List (String × α)} (h : (keys entries).Nodup) (key : String)
    (value : α) : (keys (put key value entries)).Nodup := by
  rw [keys_put]
  by_cases hk : key ∈ keys entries
  · rwa [if_pos hk]
  · rw [if_neg hk, List.nodup_append]
    refine ⟨h, by simp, fun a ha b hb => ?_⟩
    rw [List.mem_singleton.1 hb]
    exact fun he => hk (he ▸ ha)

/-! ### Changing values -/

/-- Changing the values leaves the keys. -/
theorem keys_map {β : Type} (f : α → β) (entries : List (String × α)) :
    keys (entries.map fun entry => (entry.1, f entry.2)) = keys entries := by
  rw [keys, List.map_map]
  rfl

/-- What is found after changing the values is what was found, changed. -/
theorem lookup_map {β : Type} (f : α → β) (entries : List (String × α)) (key : String) :
    (entries.map fun entry => (entry.1, f entry.2)).lookup key = (entries.lookup key).map f := by
  induction entries with
  | nil => rfl
  | cons entry rest ih =>
    obtain ⟨other, value⟩ := entry
    rw [List.map_cons, lookup_cons, lookup_cons, ih]
    by_cases h : key = other
    · rw [if_pos h, if_pos h, Option.map_some]
    · rw [if_neg h, if_neg h]

/-! ### Sorting -/

/-- Adding an entry in its place only moves it. -/
theorem insert_perm (entry : String × α) (entries : List (String × α)) :
    (insert entry entries).Perm (entry :: entries) := by
  induction entries with
  | nil => exact .refl _
  | cons first rest ih =>
    rw [insert]
    split
    · exact (ih.cons first).trans (.swap entry first rest)
    · exact .refl _

/-- Sorting only moves entries. -/
theorem sort_perm (entries : List (String × α)) : (sort entries).Perm entries := by
  induction entries with
  | nil => exact .refl _
  | cons entry rest ih => exact (insert_perm entry (sort rest)).trans (ih.cons entry)

/-- Adding an entry in its place keeps the order of keys. -/
theorem pairwise_insert (entry : String × α) {entries : List (String × α)}
    (h : entries.Pairwise fun a b => a.1 ≤ b.1) :
    (insert entry entries).Pairwise fun a b => a.1 ≤ b.1 := by
  induction entries with
  | nil => exact List.pairwise_singleton _ _
  | cons first rest ih =>
    obtain ⟨hf, hr⟩ := List.pairwise_cons.1 h
    rw [insert]
    split
    · next hlt =>
      refine List.pairwise_cons.2 ⟨fun other ho => ?_, ih hr⟩
      rcases List.mem_cons.1 ((insert_perm entry rest).mem_iff.1 ho) with rfl | ho
      · exact String.not_lt.1 (String.lt_asymm hlt)
      · exact hf other ho
    · next hlt =>
      have hle : entry.1 ≤ first.1 := String.not_lt.1 hlt
      refine List.pairwise_cons.2 ⟨fun other ho => ?_, h⟩
      rcases List.mem_cons.1 ho with rfl | ho
      · exact hle
      · exact String.le_trans hle (hf other ho)

/-- Sorted entries are in the order of their keys. -/
theorem pairwise_sort (entries : List (String × α)) :
    (sort entries).Pairwise fun a b => a.1 ≤ b.1 := by
  induction entries with
  | nil => exact List.Pairwise.nil
  | cons entry rest ih => exact pairwise_insert entry ih

/-- Moving entries moves their keys. -/
theorem keys_perm {as bs : List (String × α)} (h : as.Perm bs) : (keys as).Perm (keys bs) :=
  h.map _

/-- Entries with distinct keys that are moved give the same when they are sorted. -/
theorem sort_eq_of_perm {as bs : List (String × α)} (hd : (keys as).Nodup) (h : as.Perm bs) :
    sort as = sort bs := by
  have hp : (sort as).Perm (sort bs) := ((sort_perm as).trans h).trans (sort_perm bs).symm
  refine hp.eq_of_pairwise ?_ (pairwise_sort as) (pairwise_sort bs)
  intro a b ha hb hab hba
  have hl : as.lookup a.1 = some a.2 := (lookup_eq_some_iff hd).2 ((sort_perm as).mem_iff.1 ha)
  have hm : as.lookup b.1 = some b.2 :=
    (lookup_eq_some_iff hd).2 (h.mem_iff.2 ((sort_perm bs).mem_iff.1 hb))
  have hk : a.1 = b.1 := String.le_antisymm hab hba
  rw [← hk, hl, Option.some.injEq] at hm
  exact Prod.ext hk hm

/-- Entries with distinct keys that are moved are found as before. -/
theorem lookup_eq_of_perm {as bs : List (String × α)} (hd : (keys as).Nodup) (h : as.Perm bs)
    (key : String) : as.lookup key = bs.lookup key := by
  refine Option.ext fun value => ?_
  rw [lookup_eq_some_iff hd, lookup_eq_some_iff ((keys_perm h).nodup_iff.1 hd)]
  exact h.mem_iff

/-- Entries with distinct keys under which the same values are found are the same up to order. -/
theorem perm_of_lookup {as bs : List (String × α)} (ha : (keys as).Nodup) (hb : (keys bs).Nodup)
    (h : ∀ key, as.lookup key = bs.lookup key) : as.Perm bs := by
  have hn : ∀ {entries : List (String × α)}, (keys entries).Nodup → entries.Nodup := by
    intro entries hd
    rw [keys, List.nodup_iff_pairwise_ne, List.pairwise_map] at hd
    exact hd.imp fun hne he => hne (congrArg Prod.fst he)
  rw [List.perm_ext_iff_of_nodup (hn ha) (hn hb)]
  rintro ⟨key, value⟩
  rw [← lookup_eq_some_iff ha, ← lookup_eq_some_iff hb, h]

/-- Entries with distinct keys under which the same values are found are the same when they are
sorted. -/
theorem sort_eq_of_lookup {as bs : List (String × α)} (ha : (keys as).Nodup)
    (hb : (keys bs).Nodup) (h : ∀ key, as.lookup key = bs.lookup key) : sort as = sort bs :=
  sort_eq_of_perm ha (perm_of_lookup ha hb h)

end Reshape.Entries
