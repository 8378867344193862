import Mathlib.Data.List.Basic

/-!
# Maps as ordered association lists

A map from keys to values is the list of its entries in the order of the keys. A new
entry is put before the first entry with a larger key. An entry is changed in place, so
that the keys of the list and their order stay. Lookup is `List.lookup`.
-/

namespace Assoc

variable {K V W : Type}

/-- Puts a new entry before the first one with a larger key. -/
def insertKey [LT K] [DecidableLT K] (k : K) (v : V) : List (K × V) → List (K × V)
  | [] => [(k, v)]
  | (k', v') :: rest =>
    if k < k' then (k, v) :: (k', v') :: rest else (k', v') :: insertKey k v rest

/-- Changes the value of the entry with key `k`. -/
def modifyKey [DecidableEq K] (k : K) (f : V → V) : List (K × V) → List (K × V)
  | [] => []
  | (k', v') :: rest =>
    if k = k' then (k', f v') :: rest else (k', v') :: modifyKey k f rest

/-- Changes the value of every entry, if this is possible for all of them. -/
def mapValues? (f : K → V → Option W) : List (K × V) → Option (List (K × W))
  | [] => some []
  | (k, v) :: rest => do
    let w ← f k v
    let rest' ← mapValues? f rest
    return (k, w) :: rest'

section Lookup

variable [DecidableEq K]

theorem lookup_cons_eq (k k' : K) (v : V) (l : List (K × V)) :
    ((k', v) :: l).lookup k = if k = k' then some v else l.lookup k := by
  by_cases h : k = k'
  · subst h
    simp
  · have hb : (k == k') = false := by simpa using h
    simp [List.lookup_cons, hb, h]

theorem isSome_lookup (k : K) (l : List (K × V)) :
    (l.lookup k).isSome = decide (k ∈ l.map Prod.fst) := by
  induction l with
  | nil =>
      rfl
  | cons entry rest ih =>
      obtain ⟨k₀, v₀⟩ := entry
      by_cases hk : k = k₀
      · simp [hk]
      · simp [lookup_cons_eq, hk, ih]

/-- An entry of a list without duplicate keys is the one that is found. -/
theorem mem_iff_lookup_of_nodup {l : List (K × V)} (h : (l.map Prod.fst).Nodup) {k : K}
    {v : V} : (k, v) ∈ l ↔ l.lookup k = some v := by
  induction l with
  | nil =>
      simp
  | cons entry rest ih =>
      obtain ⟨k₀, v₀⟩ := entry
      rw [List.map_cons, List.nodup_cons] at h
      rw [List.mem_cons, lookup_cons_eq, ih h.2]
      by_cases hk : k = k₀
      · subst hk
        have hnone : rest.lookup k = none := by
          rw [← Option.not_isSome_iff_eq_none, isSome_lookup, decide_eq_true_iff]
          exact h.1
        rw [if_pos rfl, hnone]
        simp [eq_comm]
      · simp [hk]

theorem lookup_modifyKey (k k' : K) (f : V → V) (l : List (K × V)) :
    (modifyKey k f l).lookup k' =
      if k' = k then (l.lookup k).map f else l.lookup k' := by
  induction l with
  | nil =>
      simp [modifyKey]
  | cons entry rest ih =>
      obtain ⟨k₀, v₀⟩ := entry
      by_cases hk : k = k₀
      · subst hk
        simp only [modifyKey, if_pos, lookup_cons_eq]
        by_cases hk' : k' = k
        · simp [hk']
        · simp [hk']
      · simp only [modifyKey, if_neg hk, lookup_cons_eq, ih]
        by_cases hk' : k' = k
        · subst hk'
          simp [hk]
        · simp [hk']

@[simp] theorem map_fst_modifyKey (k : K) (f : V → V) (l : List (K × V)) :
    (modifyKey k f l).map Prod.fst = l.map Prod.fst := by
  induction l with
  | nil =>
      rfl
  | cons entry rest ih =>
      obtain ⟨k₀, v₀⟩ := entry
      by_cases hk : k = k₀
      · simp [modifyKey, hk]
      · simp [modifyKey, hk, ih]

theorem modifyKey_modifyKey (k : K) (f g : V → V) (l : List (K × V)) :
    modifyKey k g (modifyKey k f l) = modifyKey k (g ∘ f) l := by
  induction l with
  | nil =>
      rfl
  | cons entry rest ih =>
      obtain ⟨k₀, v₀⟩ := entry
      by_cases hk : k = k₀
      · simp [modifyKey, hk]
      · simp [modifyKey, hk, ih]

theorem modifyKey_congr {k : K} {f g : V → V} {l : List (K × V)}
    (h : ∀ v, l.lookup k = some v → f v = g v) : modifyKey k f l = modifyKey k g l := by
  induction l with
  | nil =>
      rfl
  | cons entry rest ih =>
      obtain ⟨k₀, v₀⟩ := entry
      by_cases hk : k = k₀
      · subst hk
        have hv := h v₀ (by simp)
        simp [modifyKey, hv]
      · have hrest := ih fun v hv => h v (by simpa [lookup_cons_eq, hk] using hv)
        simp [modifyKey, hk, hrest]

theorem modifyKey_id (k : K) (l : List (K × V)) : modifyKey k id l = l := by
  induction l with
  | nil =>
      rfl
  | cons entry rest ih =>
      obtain ⟨k₀, v₀⟩ := entry
      by_cases hk : k = k₀
      · simp [modifyKey, hk]
      · simp [modifyKey, hk, ih]

theorem lookup_filter_ne (k k' : K) (l : List (K × V)) :
    (l.filter (·.1 ≠ k)).lookup k' = if k' = k then none else l.lookup k' := by
  induction l with
  | nil =>
      exact (ite_self none).symm
  | cons entry rest ih =>
      obtain ⟨k₀, v₀⟩ := entry
      by_cases hk : k₀ = k
      · subst hk
        rw [List.filter_cons_of_neg (by simp), ih, lookup_cons_eq]
        split
        · rfl
        · rfl
      · rw [List.filter_cons_of_pos (by simpa using hk), lookup_cons_eq, ih, lookup_cons_eq]
        split
        · rename_i heq
          rw [if_neg (heq ▸ hk)]
        · rfl

theorem filter_ne_of_lookup {k : K} {l : List (K × V)} (h : l.lookup k = none) :
    l.filter (·.1 ≠ k) = l := by
  refine List.filter_eq_self.mpr fun entry hentry => decide_eq_true ?_
  rintro rfl
  have hsome := isSome_lookup entry.1 l
  rw [h, decide_eq_true (List.mem_map_of_mem hentry)] at hsome
  cases hsome

end Lookup

section Insert

variable [LT K] [DecidableLT K]

theorem lookup_insertKey [DecidableEq K] {k : K} {l : List (K × V)}
    (h : l.lookup k = none) (k' : K) (v : V) :
    (insertKey k v l).lookup k' = if k' = k then some v else l.lookup k' := by
  induction l with
  | nil =>
      simp [insertKey, lookup_cons_eq]
  | cons entry rest ih =>
      obtain ⟨k₀, v₀⟩ := entry
      rw [lookup_cons_eq] at h
      by_cases hk : k = k₀
      · simp [hk] at h
      · rw [if_neg hk] at h
        by_cases hlt : k < k₀
        · simp only [insertKey, if_pos hlt, lookup_cons_eq]
        · simp only [insertKey, if_neg hlt, lookup_cons_eq, ih h]
          by_cases hk₀ : k' = k₀
          · subst hk₀
            simp [Ne.symm hk]
          · simp [hk₀]

theorem isSome_lookup_insertKey [DecidableEq K] (k : K) (v : V) (l : List (K × V)) :
    ((insertKey k v l).lookup k).isSome := by
  induction l with
  | nil =>
      simp [insertKey]
  | cons entry rest ih =>
      obtain ⟨k₀, v₀⟩ := entry
      by_cases hlt : k < k₀
      · simp [insertKey, hlt]
      · rw [insertKey, if_neg hlt, lookup_cons_eq]
        by_cases hk : k = k₀
        · rw [if_pos hk, Option.isSome_some]
        · rw [if_neg hk]
          exact ih

theorem lookup_insertKey_of_ne [DecidableEq K] {k k' : K} (hk : k' ≠ k) (v : V)
    (l : List (K × V)) : (insertKey k v l).lookup k' = l.lookup k' := by
  induction l with
  | nil =>
      simp [insertKey, lookup_cons_eq, hk]
  | cons entry rest ih =>
      obtain ⟨k₀, v₀⟩ := entry
      by_cases hlt : k < k₀
      · rw [insertKey, if_pos hlt, lookup_cons_eq, if_neg hk]
      · rw [insertKey, if_neg hlt, lookup_cons_eq, lookup_cons_eq, ih]

/-- An assignment to a key that may be new. -/
theorem lookup_modifyKey_insertKey [DecidableEq K] (k k' : K) (v v' : V)
    (l : List (K × V)) :
    (modifyKey k (fun _ => v) (insertKey k v' l)).lookup k' =
      if k' = k then some v else l.lookup k' := by
  rw [lookup_modifyKey]
  by_cases hk : k' = k
  · obtain ⟨w, hw⟩ := Option.isSome_iff_exists.mp (isSome_lookup_insertKey k v' l)
    simp [hk, hw]
  · rw [if_neg hk, if_neg hk, lookup_insertKey_of_ne hk]

/-- A value that was just inserted is replaced. -/
theorem modifyKey_insertKey [DecidableEq K] {k : K} {l : List (K × V)}
    (h : l.lookup k = none) (v : V) (f : V → V) :
    modifyKey k f (insertKey k v l) = insertKey k (f v) l := by
  induction l with
  | nil =>
      simp [insertKey, modifyKey]
  | cons entry rest ih =>
      obtain ⟨k₀, v₀⟩ := entry
      rw [lookup_cons_eq] at h
      by_cases hk : k = k₀
      · simp [hk] at h
      · rw [if_neg hk] at h
        by_cases hlt : k < k₀
        · simp [insertKey, hlt, modifyKey]
        · simp [insertKey, hlt, modifyKey, hk, ih h]

/-- Changing all values commutes with the insertion of an entry. -/
theorem mapValues?_insertKey (f : K → V → Option W) (k : K) (v : V)
    (l : List (K × V)) :
    mapValues? f (insertKey k v l) =
      (f k v).bind fun w => (mapValues? f l).map (insertKey k w) := by
  induction l with
  | nil =>
      simp [insertKey, mapValues?, Option.map_eq_bind]
  | cons entry rest ih =>
      obtain ⟨k₀, v₀⟩ := entry
      by_cases hlt : k < k₀
      · cases hw : f k v with
        | none =>
            simp [insertKey, hlt, mapValues?, hw]
        | some w =>
            cases hw₀ : f k₀ v₀ with
            | none =>
                simp [insertKey, hlt, mapValues?, hw, hw₀]
            | some w₀ =>
                cases hrest : mapValues? f rest with
                | none =>
                    simp [insertKey, hlt, mapValues?, hw, hw₀, hrest]
                | some rest' =>
                    simp [insertKey, hlt, mapValues?, hw, hw₀, hrest]
      · cases hw₀ : f k₀ v₀ with
        | none =>
            cases hw : f k v with
            | none =>
                simp [insertKey, hlt, mapValues?, hw₀]
            | some w =>
                simp [insertKey, hlt, mapValues?, hw₀]
        | some w₀ =>
            cases hw : f k v with
            | none =>
                simp [insertKey, hlt, mapValues?, hw₀, ih, hw]
            | some w =>
                cases hrest : mapValues? f rest with
                | none =>
                    simp [insertKey, hlt, mapValues?, hw₀, ih, hw, hrest]
                | some rest' =>
                    simp [insertKey, hlt, mapValues?, hw₀, ih, hw, hrest]

theorem sublist_insertKey (k : K) (v : V) (l : List (K × V)) : l.Sublist (insertKey k v l) := by
  induction l with
  | nil =>
      exact List.nil_sublist _
  | cons entry rest ih =>
      rw [insertKey]
      split
      · exact List.sublist_cons_self _ _
      · exact ih.cons_cons entry

theorem filter_insertKey [DecidableEq K] {k : K} {l : List (K × V)} (h : l.lookup k = none)
    (v : V) : (insertKey k v l).filter (·.1 ≠ k) = l := by
  have hfilter : ∀ l : List (K × V),
      (insertKey k v l).filter (·.1 ≠ k) = l.filter (·.1 ≠ k) := by
    intro l
    induction l with
    | nil =>
        exact List.filter_cons_of_neg (by simp)
    | cons entry rest ih =>
        rw [insertKey]
        split
        · exact List.filter_cons_of_neg (by simp)
        · rw [List.filter_cons, List.filter_cons, ih]
  rw [hfilter, filter_ne_of_lookup h]

end Insert

theorem map_fst_of_mapValues? {f : K → V → Option W} {l : List (K × V)}
    {l' : List (K × W)} (h : mapValues? f l = some l') :
    l'.map Prod.fst = l.map Prod.fst := by
  induction l generalizing l' with
  | nil =>
      simp only [mapValues?, Option.some.injEq] at h
      subst h
      rfl
  | cons entry rest ih =>
      obtain ⟨k₀, v₀⟩ := entry
      simp only [mapValues?, Option.bind_eq_bind, Option.bind_eq_some_iff] at h
      obtain ⟨w, -, rest', hrest, hl'⟩ := h
      simp only [Option.pure_def, Option.some.injEq] at hl'
      subst hl'
      simp [ih hrest]

end Assoc
