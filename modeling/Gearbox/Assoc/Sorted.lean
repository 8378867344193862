import Mathlib.Data.List.Nodup
import Mathlib.Data.List.Perm.Subperm
import Mathlib.Data.String.Basic
import Gearbox.Assoc.Ordered

/-!
# Maps with sorted keys

The entries of a `std::map` are in the order of the keys, and no key occurs twice.
`Sorted` says this about a list of entries, and `Map` is a list with the proof of it. An
assignment keeps the order. Two sorted lists with the same lookups are the same list, so
that maps are compared key by key.
-/

namespace Assoc

variable {K V W : Type}

section Assign

variable [DecidableEq K] [LT K] [DecidableLT K]

/-- The assignment of a value to a key, which may be new. -/
def assign (k : K) (v : V) (l : List (K × V)) : List (K × V) :=
  if (l.lookup k).isSome then modifyKey k (fun _ => v) l else insertKey k v l

/-- Assignments one after the other; an entry without a value is left out. -/
def assignAll : List (K × Option V) → List (K × V) → List (K × V)
  | [], l => l
  | (k, some v) :: rest, l => assignAll rest (assign k v l)
  | (_, none) :: rest, l => assignAll rest l

theorem lookup_assign (k k' : K) (v : V) (l : List (K × V)) :
    (assign k v l).lookup k' = if k' = k then some v else l.lookup k' := by
  cases h : l.lookup k with
  | none =>
      have hassign : assign k v l = insertKey k v l := by simp [assign, h]
      rw [hassign, lookup_insertKey h]
  | some w =>
      have hassign : assign k v l = modifyKey k (fun _ => v) l := by simp [assign, h]
      rw [hassign, lookup_modifyKey, h]
      rfl

theorem lookup_assignAll_of_notMem {fields : List (K × Option V)} {k : K}
    (h : k ∉ fields.map Prod.fst) (l : List (K × V)) :
    (assignAll fields l).lookup k = l.lookup k := by
  induction fields generalizing l with
  | nil =>
      rfl
  | cons field rest ih =>
      obtain ⟨k₀, o⟩ := field
      simp only [List.map_cons, List.mem_cons, not_or] at h
      cases o with
      | none => exact ih h.2 l
      | some v => rw [assignAll, ih h.2, lookup_assign, if_neg h.1]

/-- What assignments to different keys leave at a key. -/
theorem lookup_assignAll {fields : List (K × Option V)}
    (h : (fields.map Prod.fst).Nodup) (k : K) :
    (assignAll fields []).lookup k = (fields.lookup k).join := by
  suffices hgeneral : ∀ l : List (K × V), l.lookup k = none →
      (assignAll fields l).lookup k = (fields.lookup k).join from hgeneral [] rfl
  induction fields with
  | nil =>
      intro l hl
      rw [assignAll, hl]
      rfl
  | cons field rest ih =>
      obtain ⟨k₀, o⟩ := field
      simp only [List.map_cons, List.nodup_cons] at h
      intro l hl
      rw [lookup_cons_eq]
      by_cases hk : k = k₀
      · subst hk
        rw [if_pos rfl]
        cases o with
        | none => rw [assignAll, lookup_assignAll_of_notMem h.1, hl]; rfl
        | some v =>
            rw [assignAll, lookup_assignAll_of_notMem h.1, lookup_assign, if_pos rfl]
            rfl
      · rw [if_neg hk]
        cases o with
        | none => exact ih h.2 l hl
        | some v =>
            apply ih h.2
            rw [lookup_assign, if_neg hk, hl]

omit [LT K] [DecidableLT K] in
theorem mem_of_mem_modifyKey {k : K} {v : V} {l : List (K × V)} {e : K × V}
    (h : e ∈ modifyKey k (fun _ => v) l) : e.2 = v ∨ e ∈ l := by
  induction l with
  | nil =>
      cases h
  | cons entry rest ih =>
      obtain ⟨k₀, v₀⟩ := entry
      by_cases hk : k = k₀
      · simp only [modifyKey, if_pos hk, List.mem_cons] at h
        rcases h with rfl | h
        · exact Or.inl rfl
        · exact Or.inr (List.mem_cons_of_mem _ h)
      · simp only [modifyKey, if_neg hk, List.mem_cons] at h
        rcases h with rfl | h
        · exact Or.inr List.mem_cons_self
        · exact (ih h).imp_right (List.mem_cons_of_mem _)

omit [DecidableEq K] in
theorem mem_insertKey {k : K} {v : V} {l : List (K × V)} {e : K × V} :
    e ∈ insertKey k v l ↔ e = (k, v) ∨ e ∈ l := by
  induction l with
  | nil =>
      simp [insertKey]
  | cons entry rest ih =>
      obtain ⟨k₀, v₀⟩ := entry
      by_cases hlt : k < k₀
      · simp [insertKey, hlt]
      · rw [insertKey, if_neg hlt, List.mem_cons, ih, List.mem_cons]
        exact or_left_comm

theorem mem_of_mem_assign {k : K} {v : V} {l : List (K × V)} {e : K × V}
    (h : e ∈ assign k v l) : e.2 = v ∨ e ∈ l := by
  rw [assign] at h
  split at h
  · exact mem_of_mem_modifyKey h
  · rcases mem_insertKey.mp h with rfl | h
    · exact Or.inl rfl
    · exact Or.inr h

/-- What holds of the values that are assigned holds of the values of the map. -/
theorem forall_assignAll {P : V → Prop} {fields : List (K × Option V)}
    (h : ∀ k v, (k, some v) ∈ fields → P v) :
    ∀ e ∈ assignAll fields ([] : List (K × V)), P e.2 := by
  suffices hgeneral : ∀ l : List (K × V), (∀ e ∈ l, P e.2) →
      ∀ e ∈ assignAll fields l, P e.2 from hgeneral [] fun _ he => nomatch he
  induction fields with
  | nil =>
      intro l hl
      exact hl
  | cons field rest ih =>
      obtain ⟨k₀, o⟩ := field
      intro l hl
      have hrest := ih fun k v hmem => h k v (List.mem_cons_of_mem _ hmem)
      cases o with
      | none => exact hrest l hl
      | some v =>
          apply hrest
          intro e he
          rcases mem_of_mem_assign he with hv | he
          · rw [hv]
            exact h k₀ v List.mem_cons_self
          · exact hl e he

end Assign

section Related

variable {R : V → W → Prop}

/-- Two lists have the same keys, and related values at each of them. -/
def Related (R : V → W → Prop) : List (K × V) → List (K × W) → Prop :=
  List.Forall₂ fun e e' => e.1 = e'.1 ∧ R e.2 e'.2

variable {l : List (K × V)} {l' : List (K × W)}

theorem Related.map_fst (h : Related R l l') : l'.map Prod.fst = l.map Prod.fst := by
  induction h with
  | nil =>
      rfl
  | cons hentry _ ih =>
      rw [List.map_cons, List.map_cons, ih, hentry.1]

theorem Related.lookup [DecidableEq K] (h : Related R l l') (k : K) :
    Option.Rel R (l.lookup k) (l'.lookup k) := by
  induction h with
  | nil =>
      exact .none
  | cons hentry _ ih =>
      obtain ⟨hkey, hvalue⟩ := hentry
      rw [lookup_cons_eq, lookup_cons_eq, ← hkey]
      split
      · exact .some hvalue
      · exact ih

theorem Related.modifyKey [DecidableEq K] (h : Related R l l') {v : V} {w : W}
    (hvw : R v w) (k : K) :
    Related R (Assoc.modifyKey k (fun _ => v) l) (Assoc.modifyKey k (fun _ => w) l') := by
  induction h with
  | nil =>
      exact .nil
  | @cons e e' rest rest' hentry hrest ih =>
      rw [Assoc.modifyKey, Assoc.modifyKey, ← hentry.1]
      split
      · exact .cons ⟨rfl, hvw⟩ hrest
      · exact .cons ⟨rfl, hentry.2⟩ ih

theorem Related.insertKey [LT K] [DecidableLT K] (h : Related R l l') {v : V} {w : W}
    (hvw : R v w) (k : K) : Related R (Assoc.insertKey k v l) (Assoc.insertKey k w l') := by
  induction h with
  | nil =>
      exact .cons ⟨rfl, hvw⟩ .nil
  | @cons e e' rest rest' hentry hrest ih =>
      rw [Assoc.insertKey, Assoc.insertKey, ← hentry.1]
      split
      · exact .cons ⟨rfl, hvw⟩ (.cons ⟨rfl, hentry.2⟩ hrest)
      · exact .cons ⟨rfl, hentry.2⟩ ih

variable [DecidableEq K] [LT K] [DecidableLT K]

theorem Related.assign (h : Related R l l') {v : V} {w : W} (hvw : R v w) (k : K) :
    Related R (Assoc.assign k v l) (Assoc.assign k w l') := by
  have hsome : (l.lookup k).isSome = (l'.lookup k).isSome := by
    have hlookup := h.lookup k
    generalize l.lookup k = o, l'.lookup k = o' at hlookup
    cases hlookup with
    | none => rfl
    | some _ => rfl
  rw [Assoc.assign, Assoc.assign, hsome]
  split
  · exact h.modifyKey hvw k
  · exact h.insertKey hvw k

/-- Related assignments lead to related lists. -/
theorem Related.assignAll {fields : List (K × Option V)} {fields' : List (K × Option W)}
    (hfields : Related (Option.Rel R) fields fields') (h : Related R l l') :
    Related R (Assoc.assignAll fields l) (Assoc.assignAll fields' l') := by
  induction hfields generalizing l l' with
  | nil =>
      exact h
  | @cons f f' rest rest' hfield _ ih =>
      obtain ⟨k, o⟩ := f
      obtain ⟨k', o'⟩ := f'
      obtain ⟨rfl, hvalue⟩ := hfield
      cases hvalue with
      | none => exact ih h
      | some hvw => exact ih (h.assign hvw k)

end Related

variable [LinearOrder K]

/-- The keys are increasing. -/
def Sorted (l : List (K × V)) : Prop :=
  (l.map Prod.fst).Pairwise (· < ·)

theorem sorted_nil : Sorted ([] : List (K × V)) :=
  List.Pairwise.nil

theorem sorted_cons {k : K} {v : V} {l : List (K × V)} :
    Sorted ((k, v) :: l) ↔ (∀ e ∈ l, k < e.1) ∧ Sorted l := by
  simp [Sorted, List.pairwise_cons]

theorem lookup_eq_none_of_lt {k : K} {l : List (K × V)} (h : ∀ e ∈ l, k < e.1) :
    l.lookup k = none := by
  induction l with
  | nil =>
      rfl
  | cons entry rest ih =>
      obtain ⟨k₀, v₀⟩ := entry
      have hk : k ≠ k₀ := ne_of_lt (h (k₀, v₀) List.mem_cons_self)
      rw [lookup_cons_eq, if_neg hk]
      exact ih fun e he => h e (List.mem_cons_of_mem _ he)

theorem Sorted.nodup {l : List (K × V)} (hl : Sorted l) : (l.map Prod.fst).Nodup :=
  hl.imp ne_of_lt

theorem mem_iff_lookup {l : List (K × V)} (hl : Sorted l) {k : K} {v : V} :
    (k, v) ∈ l ↔ l.lookup k = some v :=
  mem_iff_lookup_of_nodup hl.nodup

theorem Sorted.lookup_eq_none {k k₀ : K} {v₀ : V} {l : List (K × V)}
    (hl : Sorted ((k₀, v₀) :: l)) (h : k < k₀) : ((k₀, v₀) :: l).lookup k = none := by
  apply lookup_eq_none_of_lt
  intro e he
  rcases List.mem_cons.mp he with rfl | he
  · exact h
  · exact h.trans ((sorted_cons.mp hl).1 e he)

/-- Sorted lists with the same lookups are equal. -/
theorem Sorted.ext {l l' : List (K × V)} (hl : Sorted l) (hl' : Sorted l')
    (h : ∀ k, l.lookup k = l'.lookup k) : l = l' := by
  induction l generalizing l' with
  | nil =>
      cases l' with
      | nil => rfl
      | cons entry' rest' =>
          obtain ⟨k', v'⟩ := entry'
          have hk' := h k'
          simp at hk'
  | cons entry rest ih =>
      obtain ⟨k, v⟩ := entry
      obtain ⟨hlt, hrest⟩ := sorted_cons.mp hl
      cases l' with
      | nil =>
          have hk := h k
          simp at hk
      | cons entry' rest' =>
          obtain ⟨k', v'⟩ := entry'
          obtain ⟨hlt', hrest'⟩ := sorted_cons.mp hl'
          have hkk' : k = k' := by
            -- the smaller of the two first keys is only in one of the lists
            rcases lt_trichotomy k k' with hless | heq | hless
            · have hk := h k
              rw [hl'.lookup_eq_none hless] at hk
              simp at hk
            · exact heq
            · have hk := h k'
              rw [hl.lookup_eq_none hless] at hk
              simp at hk
          subst hkk'
          have hv : v = v' := by simpa using h k
          subst hv
          have htail : rest = rest' := by
            apply ih hrest hrest'
            intro x
            by_cases hxk : x = k
            · subst hxk
              rw [lookup_eq_none_of_lt hlt, lookup_eq_none_of_lt hlt']
            · have hx := h x
              simpa only [lookup_cons_eq, if_neg hxk] using hx
          rw [htail]

/-- Sorted lists of the same length are equal if one has the entries of the other. -/
theorem Sorted.eq_of_subset {l l' : List (K × V)} (hl : Sorted l) (hl' : Sorted l')
    (hlength : l.length = l'.length) (h : l' ⊆ l) : l = l' := by
  have hsubperm : l'.Subperm l := List.Nodup.subperm (List.Nodup.of_map Prod.fst hl'.nodup) h
  have hperm : l'.Perm l := hsubperm.perm_of_length_le (Nat.le_of_eq hlength)
  apply hl.ext hl'
  intro k
  apply Option.ext
  intro v
  rw [← mem_iff_lookup hl, ← mem_iff_lookup hl', hperm.mem_iff]

theorem sorted_map {W : Type} {l : List (K × V)} (f : V → W) :
    Sorted (l.map fun e => (e.1, f e.2)) ↔ Sorted l := by
  have hkeys : (l.map fun e => (e.1, f e.2)).map Prod.fst = l.map Prod.fst := by
    rw [List.map_map]
    rfl
  rw [Sorted, hkeys, Sorted]

theorem sorted_modifyKey {k : K} {f : V → V} {l : List (K × V)} (hl : Sorted l) :
    Sorted (modifyKey k f l) := by
  rw [Sorted, map_fst_modifyKey]
  exact hl

theorem sorted_insertKey {k : K} {v : V} {l : List (K × V)} (hl : Sorted l)
    (h : l.lookup k = none) : Sorted (insertKey k v l) := by
  induction l with
  | nil =>
      simp [insertKey, Sorted]
  | cons entry rest ih =>
      obtain ⟨k₀, v₀⟩ := entry
      obtain ⟨hlt, hrest⟩ := sorted_cons.mp hl
      rw [lookup_cons_eq] at h
      by_cases hk : k = k₀
      · simp [hk] at h
      · rw [if_neg hk] at h
        by_cases hless : k < k₀
        · rw [insertKey, if_pos hless, sorted_cons]
          refine ⟨?_, hl⟩
          intro e he
          rcases List.mem_cons.mp he with rfl | he
          · exact hless
          · exact hless.trans (hlt e he)
        · rw [insertKey, if_neg hless, sorted_cons]
          refine ⟨?_, ih hrest h⟩
          intro e he
          rcases mem_insertKey.mp he with rfl | he
          · exact lt_of_le_of_ne (not_lt.mp hless) (Ne.symm hk)
          · exact hlt e he

theorem sorted_assign {k : K} {v : V} {l : List (K × V)} (hl : Sorted l) :
    Sorted (assign k v l) := by
  cases h : l.lookup k with
  | none =>
      have hassign : assign k v l = insertKey k v l := by simp [assign, h]
      rw [hassign]
      exact sorted_insertKey hl h
  | some w =>
      have hassign : assign k v l = modifyKey k (fun _ => v) l := by simp [assign, h]
      rw [hassign]
      exact sorted_modifyKey hl

theorem sorted_assignAll (fields : List (K × Option V)) {l : List (K × V)}
    (hl : Sorted l) : Sorted (assignAll fields l) := by
  induction fields generalizing l with
  | nil =>
      exact hl
  | cons field rest ih =>
      obtain ⟨k₀, o⟩ := field
      cases o with
      | none => exact ih hl
      | some v => exact ih (sorted_assign hl)

/-- The entries of the map that assignments to different keys make. -/
theorem mem_assignAll {fields : List (K × Option V)} (h : (fields.map Prod.fst).Nodup) {k : K}
    {v : V} : (k, v) ∈ assignAll fields [] ↔ (k, some v) ∈ fields := by
  rw [mem_iff_lookup (sorted_assignAll fields sorted_nil), lookup_assignAll h,
    Option.join_eq_some_iff, mem_iff_lookup_of_nodup h]

theorem mem_keys_assignAll {fields : List (K × Option V)} (h : (fields.map Prod.fst).Nodup)
    {k : K} : k ∈ (assignAll fields []).map Prod.fst ↔ ∃ v, (k, some v) ∈ fields := by
  simp only [List.mem_map, Prod.exists, mem_assignAll h, exists_and_right, exists_eq_right]

/-- A new largest key goes to the end. -/
theorem insertKey_eq_append {k : K} {l : List (K × V)} (h : ∀ e ∈ l, e.1 < k) (v : V) :
    insertKey k v l = l ++ [(k, v)] := by
  induction l with
  | nil =>
      rfl
  | cons entry rest ih =>
      obtain ⟨k₀, v₀⟩ := entry
      have hlt : ¬ k < k₀ := not_lt_of_gt (h (k₀, v₀) List.mem_cons_self)
      rw [insertKey, if_neg hlt, ih fun e he => h e (List.mem_cons_of_mem _ he)]
      rfl

theorem lookup_eq_none_of_gt {k : K} {l : List (K × V)} (h : ∀ e ∈ l, e.1 < k) :
    l.lookup k = none := by
  induction l with
  | nil =>
      rfl
  | cons entry rest ih =>
      obtain ⟨k₀, v₀⟩ := entry
      have hk : k ≠ k₀ := (ne_of_lt (h (k₀, v₀) List.mem_cons_self)).symm
      rw [lookup_cons_eq, if_neg hk]
      exact ih fun e he => h e (List.mem_cons_of_mem _ he)

/-- A map with its keys in order. -/
structure Map (K V : Type) [LinearOrder K] where
  entries : List (K × V)
  sorted : Sorted entries

namespace Map

/-- The map without entries. -/
def empty : Map K V where
  entries := []
  sorted := sorted_nil

def get (m : Map K V) (k : K) : Option V :=
  m.entries.lookup k

def set (m : Map K V) (k : K) (v : V) : Map K V where
  entries := assign k v m.entries
  sorted := sorted_assign m.sorted

def erase (m : Map K V) (k : K) : Map K V where
  entries := m.entries.filter fun e => e.1 ≠ k
  sorted := List.Pairwise.sublist (List.Sublist.map _ List.filter_sublist) m.sorted

/-- The entries of a list are assigned one after the other. -/
def setAll (m : Map K V) (l : List (K × V)) : Map K V :=
  l.foldl (fun m e => m.set e.1 e.2) m

theorem ext_get {m m' : Map K V} (h : ∀ k, m.get k = m'.get k) : m = m' := by
  obtain ⟨l, hl⟩ := m
  obtain ⟨l', hl'⟩ := m'
  have heq : l = l' := hl.ext hl' h
  subst heq
  rfl

@[simp] theorem get_empty (k : K) : (empty : Map K V).get k = none := rfl

theorem get_set (m : Map K V) (k k' : K) (v : V) :
    (m.set k v).get k' = if k' = k then some v else m.get k' :=
  lookup_assign k k' v m.entries

theorem mem_entries (m : Map K V) {k : K} {v : V} :
    (k, v) ∈ m.entries ↔ m.get k = some v :=
  mem_iff_lookup m.sorted

theorem get_erase (m : Map K V) (k k' : K) :
    (m.erase k).get k' = if k' = k then none else m.get k' := by
  apply Option.ext
  intro v
  rw [← mem_entries]
  by_cases hk : k' = k
  · simp [erase, hk]
  · simp [erase, hk, mem_entries]

/-- The last entry of a key wins. -/
theorem get_setAll_reverse (l : List (K × V)) (m : Map K V) (k : K) :
    (m.setAll l).get k = (l.reverse.lookup k).or (m.get k) := by
  induction l generalizing m with
  | nil => rfl
  | cons entry rest ih =>
      obtain ⟨k₀, v₀⟩ := entry
      have hset := ih (m.set k₀ v₀)
      rw [get_set] at hset
      rw [setAll, List.foldl_cons, List.reverse_cons, List.lookup_append, Option.or_assoc]
      refine hset.trans ?_
      congr 1
      rw [lookup_cons_eq]
      by_cases hk : k = k₀
      · rw [if_pos hk, if_pos hk]
        rfl
      · rw [if_neg hk, if_neg hk]
        rfl

/-- The entries of a sorted list, assigned in their order. -/
theorem get_setAll {l : List (K × V)} (hl : Sorted l) (m : Map K V) (k : K) :
    (m.setAll l).get k = (l.lookup k).or (m.get k) := by
  induction l generalizing m with
  | nil =>
      rfl
  | cons entry rest ih =>
      obtain ⟨k₀, v₀⟩ := entry
      obtain ⟨hlt, hrest⟩ := sorted_cons.mp hl
      have hset := ih hrest (m.set k₀ v₀)
      rw [get_set] at hset
      rw [setAll, List.foldl_cons, lookup_cons_eq]
      refine hset.trans ?_
      by_cases hk : k = k₀
      · subst hk
        rw [lookup_eq_none_of_lt hlt, if_pos rfl, if_pos rfl]
        rfl
      · rw [if_neg hk, if_neg hk]

/-- A map is built from its own entries. -/
theorem setAll_entries (m : Map K V) : empty.setAll m.entries = m := by
  apply ext_get
  intro k
  rw [get_setAll m.sorted]
  cases h : m.entries.lookup k with
  | none => exact h.symm
  | some v => exact h.symm

end Map

end Assoc
