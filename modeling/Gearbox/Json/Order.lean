import Gearbox.Json.Conform

/-!
# Reading and then conforming

The parser with a schema makes of a document what the schema makes, in the order of the
parser, of the value that is read without a schema (`read_some`). The parser checks the
size of an array at every element and meets a key that occurs twice after the schema of
the key was selected, but as to the result this makes no difference.

The two orders make the same of every value if no type is `"number"` and no array has
`2 ^ 32` or more elements (`conform_whole`).
-/

namespace Gearbox

namespace Json

open Refinement

variable {D : Type}

theorem WellTyped.child {s c : Json D} (hs : WellTyped s) {sel : Sel}
    (hc : s.child sel = some c) : WellTyped c := by
  intro sels c' hc'
  exact hs (sel :: sels) c' (by simp [sub, hc, hc'])

theorem WellTyped.typed {s : Json D} (hs : WellTyped s) : Typed s :=
  hs [] s rfl

section Sizes

theorem maxSize_iff (s : Json D) (size : ℕ) :
    maxSize s size = some () ↔
      ∀ m, s.member "maxItems" = some m → ∃ n, m = .int n ∧ size ≤ toUInt32 n := by
  cases hm : s.member "maxItems" with
  | none =>
      simp [maxSize, validMaxSize, hm, accepts]
  | some m =>
      cases m with
      | int n =>
          by_cases hle : size ≤ toUInt32 n
          · have hlt : ¬toUInt32 n < size := Nat.not_lt.mpr hle
            simp [maxSize, validMaxSize, hm, asInt64, hlt, accepts, hle, pure, Except.pure]
          · have hlt : toUInt32 n < size := Nat.lt_of_not_le hle
            simp [maxSize, validMaxSize, hm, asInt64, hlt, accepts, onErrorThrow]
      | _ => simp [maxSize, validMaxSize, hm, asInt64, accepts]

theorem maxSize_zero {s : Json D} (hs : Typed s) : maxSize s 0 = some () := by
  rw [maxSize_iff]
  intro m hm
  have hint := hs.integers "maxItems" (by simp) m hm
  cases m with
  | int n => exact ⟨n, rfl, Nat.zero_le _⟩
  | _ => simp [type] at hint

variable (env : Env D)

theorem streaming_maxSize_of_succ {s : Json D} {size : ℕ}
    (h : maxSize s (size + 1) = some ()) :
    (streaming env).maxSize s size = some () := by
  by_cases hsize : size = 0
  · simp [streaming, hsize]
  · have hmax : maxSize s size = some () := by
      rw [maxSize_iff] at h ⊢
      intro m hm
      obtain ⟨n, hn, hle⟩ := h m hm
      exact ⟨n, hn, Nat.le_of_succ_le hle⟩
    simp [streaming, hsize, hmax]

end Sizes

section Lists

variable (env : Env D) (order : Order D) (s : Json D)

theorem conformMembers_eq (o : List (String × Json D)) :
    conformMembers env order s o =
      Assoc.mapValues? (fun k j => (s.childKey k).bind fun c => conform env order c j)
        o := by
  induction o with
  | nil =>
      simp [conformMembers, Assoc.mapValues?]
  | cons m rest ih =>
      obtain ⟨k, j⟩ := m
      simp [conformMembers, Assoc.mapValues?, ih, Option.bind_assoc]

/-- An element at the end is conformed after the others. -/
theorem conformElements_snoc (j : Json D) (a : List (Json D)) {size i : ℕ}
    (h : i + a.length < size) :
    conformElements env order s size i (a ++ [j]) =
      (conformElements env order s size i a).bind fun a' =>
        (s.childIndex (i + a.length)).bind fun c =>
          (conform env order c j).map fun j' => a' ++ [j'] := by
  induction a generalizing i with
  | nil =>
      have hi : i < size := by simpa using h
      simp [conformElements, hi, Option.map_eq_bind]
  | cons j₀ rest ih =>
      simp only [List.length_cons] at h
      have hi : i < size := by omega
      have hrest := ih (i := i + 1) (by omega)
      have hindex : i + 1 + rest.length = i + (rest.length + 1) := by omega
      rw [hindex] at hrest
      simp only [List.cons_append, conformElements, if_pos hi, hrest, List.length_cons,
        Option.bind_eq_bind, Option.bind_assoc, Option.pure_def]
      simp [Option.map_eq_bind, Option.bind_assoc]

/-- The number of elements that are looked at does not matter beyond the end. -/
theorem conformElements_size (a : List (Json D)) {size size' i : ℕ}
    (h : i + a.length ≤ size) (h' : i + a.length ≤ size') :
    conformElements env order s size i a = conformElements env order s size' i a := by
  induction a generalizing i with
  | nil =>
      simp [conformElements]
  | cons j rest ih =>
      simp only [List.length_cons] at h h'
      have hi : i < size := by omega
      have hi' : i < size' := by omega
      simp only [conformElements, if_pos hi, if_pos hi',
        ih (i := i + 1) (by omega) (by omega)]

theorem length_conformElements {a a' : List (Json D)} {size i : ℕ}
    (h : conformElements env order s size i a = some a') : a'.length = a.length := by
  induction a generalizing i a' with
  | nil =>
      simp only [conformElements, Option.pure_def, Option.some.injEq] at h
      simp [← h]
  | cons j rest ih =>
      by_cases hi : i < size
      · simp only [conformElements, if_pos hi, Option.bind_eq_bind,
          Option.bind_eq_some_iff, Option.pure_def, Option.some.injEq] at h
        obtain ⟨c, -, j', -, rest', hrest, ha'⟩ := h
        simp [← ha', ih hrest]
      · simp only [conformElements, if_neg hi, Option.pure_def, Option.some.injEq] at h
        simp [← h]

end Lists

section Read

variable (env : Env D)

theorem lexNumber_scalar {lexeme : String} {j : Json D}
    (h : lexNumber env lexeme = .ok j) : (∃ n, j = .int n) ∨ ∃ x, j = .double x := by
  by_cases hdot : '.' ∈ lexeme.toList
  · cases hx : env.lexDouble lexeme with
    | none => simp [lexNumber, hdot, hx] at h
    | some x =>
        simp only [lexNumber, hdot, if_true, hx, Except.ok.injEq] at h
        exact Or.inr ⟨x, h.symm⟩
  · cases hn : env.lexInt lexeme with
    | none => simp [lexNumber, hdot, hn] at h
    | some n =>
        simp only [lexNumber, hdot, if_false, hn, Except.ok.injEq] at h
        exact Or.inl ⟨n, h.symm⟩

theorem readMembers_step {s : Json D} {k : String} {d : Doc}
    (hd : ∀ c, s.childKey k = some c →
      read env (some c) d = (read env none d).bind (conform env (streaming env) c))
    {rest : List (String × Doc)}
    (hrest : ∀ o, (readMembers env none o rest).bind
        (conformMembers env (streaming env) s) =
      (conformMembers env (streaming env) s o).bind fun o' =>
        readMembers env (some s) o' rest)
    (o : List (String × Json D)) :
    (readMembers env none o ((k, d) :: rest)).bind
        (conformMembers env (streaming env) s) =
      (conformMembers env (streaming env) s o).bind fun o' =>
        readMembers env (some s) o' ((k, d) :: rest) := by
  have hkey : ∀ o', conformMembers env (streaming env) s o = some o' →
      (o'.lookup k).isSome = (o.lookup k).isSome := by
    intro o' ho'
    rw [conformMembers_eq] at ho'
    rw [Assoc.isSome_lookup, Assoc.isSome_lookup, Assoc.map_fst_of_mapValues? ho']
  simp only [readMembers, descend, Option.bind_eq_bind, Option.bind_some]
  by_cases hk : (o.lookup k).isSome
  · cases ho : conformMembers env (streaming env) s o with
    | none => simp [hk]
    | some o' => simp [hk, hkey o' ho]
  · simp only [if_neg hk, Option.bind_assoc, hrest]
    simp only [conformMembers_eq, Assoc.mapValues?_insertKey]
    rw [← conformMembers_eq]
    cases ho : conformMembers env (streaming env) s o with
    | none => simp
    | some o' =>
        simp only [Option.bind_some, Option.map_some, hkey o' ho, if_neg hk]
        cases hc : s.childKey k with
        | none => simp
        | some c => simp [hd c hc, Option.bind_assoc]

theorem readElements_step {s : Json D} {d : Doc}
    (hd : ∀ i c, s.childIndex i = some c →
      read env (some c) d = (read env none d).bind (conform env (streaming env) c))
    {rest : List Doc}
    (hrest : ∀ a, (readElements env none a rest).bind (fun b =>
        ((streaming env).maxSize s b.length).bind fun _ =>
          conformElements env (streaming env) s b.length 0 b) =
      (((streaming env).maxSize s a.length).bind fun _ =>
          conformElements env (streaming env) s a.length 0 a).bind fun a' =>
        readElements env (some s) a' rest)
    (a : List (Json D)) :
    (readElements env none a (d :: rest)).bind (fun b =>
        ((streaming env).maxSize s b.length).bind fun _ =>
          conformElements env (streaming env) s b.length 0 b) =
      (((streaming env).maxSize s a.length).bind fun _ =>
          conformElements env (streaming env) s a.length 0 a).bind fun a' =>
        readElements env (some s) a' (d :: rest) := by
  have hsize : conformElements env (streaming env) s (a.length + 1) 0 a =
      conformElements env (streaming env) s a.length 0 a :=
    conformElements_size env (streaming env) s a (by simp) (by simp)
  have hsnoc : ∀ j, conformElements env (streaming env) s (a.length + 1) 0 (a ++ [j]) =
      (conformElements env (streaming env) s a.length 0 a).bind fun a' =>
        (s.childIndex a.length).bind fun c =>
          (conform env (streaming env) c j).map fun j' => a' ++ [j'] := by
    intro j
    rw [conformElements_snoc env (streaming env) s j a (by simp), hsize, Nat.zero_add]
  have hsucc : (streaming env).maxSize s (a.length + 1) = maxSize s (a.length + 1) := rfl
  simp only [readElements, descend, require, Option.bind_eq_bind, Option.bind_some,
    Option.bind_assoc, hrest, hsnoc, List.length_append, List.length_singleton, hsucc]
  cases ha : conformElements env (streaming env) s a.length 0 a with
  | none => simp
  | some a' =>
      have hlength : a'.length = a.length := length_conformElements env _ s ha
      cases hmax : maxSize s (a.length + 1) with
      | none => simp [hlength, hmax]
      | some u =>
          have hmax' := streaming_maxSize_of_succ env hmax
          simp only [hmax', hlength, hmax, Option.bind_some]
          cases hc : s.childIndex a.length with
          | none => simp
          | some c => simp [hd a.length c hc, Option.bind_assoc, Option.bind_map]

mutual

/-- A document that is read with a schema is the document that is read without one,
conformed in the order of the parser. -/
theorem read_some : ∀ (d : Doc) (s : Json D),
    read env (some s) d = (read env none d).bind (conform env (streaming env) s)
  | .null, s => by simp [read, readScalar, conform, streaming]
  | .boolean b, s => by simp [read, readScalar, conform, streaming]
  | .number lexeme, s => by
      cases hlex : lexNumber env lexeme with
      | error e => simp [read, hlex, value?]
      | ok j =>
          have hj : conform env (streaming env) s j = streamScalar env s j := by
            rcases lexNumber_scalar env hlex with ⟨n, rfl⟩ | ⟨x, rfl⟩
            · simp [conform, streaming]
            · simp [conform, streaming]
          simp [read, hlex, value?, readScalar, hj]
  | .string v, s => by simp [read, readScalar, conform, streaming]
  | .map members, s => by
      have hmembers := readMembers_some members s []
      simp only [conformMembers, Option.pure_def, Option.bind_some] at hmembers
      simp only [read, require, readObject, Option.bind_eq_bind, Option.bind_some,
        ← hmembers, Option.bind_assoc, conform, streaming]
      cases accepts (validType onErrorThrow s .object) with
      | none => simp
      | some u => simp
  | .array elements, s => by
      have hzero : (streaming env).maxSize s 0 = some () := rfl
      have hcontainer : (streaming env).container s .array =
          accepts (validType onErrorThrow s .array) := rfl
      have helements := readElements_some elements s []
      simp only [List.length_nil, hzero, conformElements, Option.pure_def,
        Option.bind_some] at helements
      simp only [read, require, Option.bind_eq_bind, Option.bind_some, Option.pure_def,
        ← helements, Option.bind_assoc, conform, hcontainer]
      cases readElements env none [] elements with
      | none => simp
      | some b =>
          have hcount : (streaming env).count b.length = b.length := rfl
          simp only [Option.bind_some, hcount]
          cases hb : conformElements env (streaming env) s b.length 0 b with
          | none => simp
          | some a =>
              have hlength : a.length = b.length := length_conformElements env _ s hb
              simp only [Option.bind_some, hlength]
              cases (streaming env).maxSize s b.length with
              | none => simp
              | some u => simp

theorem readMembers_some : ∀ (members : List (String × Doc)) (s : Json D)
    (o : List (String × Json D)),
    (readMembers env none o members).bind (conformMembers env (streaming env) s) =
      (conformMembers env (streaming env) s o).bind fun o' =>
        readMembers env (some s) o' members
  | [], s => by simp [readMembers]
  | (_, d) :: rest, s =>
      readMembers_step env (fun c _ => read_some d c) (readMembers_some rest s)

theorem readElements_some : ∀ (elements : List Doc) (s : Json D) (a : List (Json D)),
    (readElements env none a elements).bind (fun b =>
        ((streaming env).maxSize s b.length).bind fun _ =>
          conformElements env (streaming env) s b.length 0 b) =
      (((streaming env).maxSize s a.length).bind fun _ =>
          conformElements env (streaming env) s a.length 0 a).bind fun a' =>
        readElements env (some s) a' elements
  | [], s => by simp [readElements]
  | d :: rest, s =>
      readElements_step env (fun _ c _ => read_some d c) (readElements_some rest s)

end

end Read

section Bounded

variable {n : ℕ}

theorem boundedElements_iff (a : List (Json D)) :
    BoundedElements n a ↔ ∀ j ∈ a, Bounded n j := by
  induction a with
  | nil => simp [BoundedElements]
  | cons j rest ih => simp [BoundedElements, ih]

theorem boundedMembers_iff (o : List (String × Json D)) :
    BoundedMembers n o ↔ ∀ m ∈ o, Bounded n m.2 := by
  induction o with
  | nil => simp [BoundedMembers]
  | cons m rest ih =>
      obtain ⟨k, j⟩ := m
      simp [BoundedMembers, ih]

theorem boundedMembers_insertKey {o : List (String × Json D)} {j : Json D}
    (ho : BoundedMembers n o) (hj : Bounded n j) (k : String) :
    BoundedMembers n (Assoc.insertKey k j o) := by
  induction o with
  | nil => simpa [Assoc.insertKey, BoundedMembers] using hj
  | cons m rest ih =>
      obtain ⟨k', j'⟩ := m
      simp only [BoundedMembers] at ho
      by_cases hk : k < k'
      · simp [Assoc.insertKey, hk, BoundedMembers, hj, ho.1, ho.2]
      · simp [Assoc.insertKey, hk, BoundedMembers, ho.1, ih ho.2]

variable (env : Env D)

theorem length_readElements {elements : List Doc} {a b : List (Json D)}
    (h : readElements env none a elements = some b) :
    b.length = a.length + elements.length := by
  induction elements generalizing a with
  | nil =>
      simp only [readElements, Option.pure_def, Option.some.injEq] at h
      simp [h]
  | cons d rest ih =>
      simp only [readElements, require, descend, Option.bind_eq_bind, Option.bind_some,
        Option.bind_eq_some_iff] at h
      obtain ⟨j, -, hrest⟩ := h
      rw [ih hrest]
      simp only [List.length_append, List.length_cons, List.length_nil]
      omega

mutual

/-- The value of a document has the sizes of the document. -/
theorem bounded_read : ∀ (d : Doc) {j : Json D}, d.Bounded n → read env none d = some j →
    j.Bounded n
  | .null, j, _, h => by
      simp only [read, readScalar, Option.some.injEq] at h
      simp [← h, Bounded]
  | .boolean b, j, _, h => by
      simp only [read, readScalar, Option.some.injEq] at h
      simp [← h, Bounded]
  | .number lexeme, j, _, h => by
      simp only [read, readScalar, Option.bind_eq_bind, Option.bind_eq_some_iff,
        Option.some.injEq] at h
      obtain ⟨j', hj', rfl⟩ := h
      cases hlex : lexNumber env lexeme with
      | error e => simp [hlex, value?] at hj'
      | ok i =>
          simp only [hlex, value?, Option.some.injEq] at hj'
          subst hj'
          rcases lexNumber_scalar env hlex with ⟨m, rfl⟩ | ⟨x, rfl⟩
          · simp [Bounded]
          · simp [Bounded]
  | .string v, j, _, h => by
      simp only [read, readScalar, Option.some.injEq] at h
      simp [← h, Bounded]
  | .map members, j, hd, h => by
      simp only [read, require, readObject, Option.bind_eq_bind, Option.bind_some,
        Option.bind_eq_some_iff, Option.some.injEq] at h
      obtain ⟨o, ho, rfl⟩ := h
      rw [Doc.Bounded] at hd
      exact boundedMembers_read members hd (by simp [BoundedMembers]) ho
  | .array elements, j, hd, h => by
      simp only [read, require, Option.bind_eq_bind, Option.bind_some, Option.pure_def,
        Option.bind_eq_some_iff, Option.some.injEq] at h
      obtain ⟨a, ha, rfl⟩ := h
      rw [Doc.Bounded] at hd
      have hlength : a.length = elements.length := by
        simpa using length_readElements env ha
      rw [Bounded, hlength]
      exact ⟨hd.1, boundedElements_read elements hd.2 (by simp [BoundedElements]) ha⟩

theorem boundedMembers_read : ∀ (members : List (String × Doc))
    {o o' : List (String × Json D)}, Doc.BoundedMembers n members →
    BoundedMembers n o → readMembers env none o members = some o' →
    BoundedMembers n o'
  | [], o, o', _, ho, h => by
      simp only [readMembers, Option.pure_def, Option.some.injEq] at h
      exact h ▸ ho
  | (k, d) :: rest, o, o', hd, ho, h => by
      rw [Doc.BoundedMembers] at hd
      simp only [readMembers, descend, Option.bind_eq_bind, Option.bind_some] at h
      split at h
      · cases h
      · obtain ⟨j, hj, hrest⟩ := Option.bind_eq_some_iff.mp h
        have ho' := boundedMembers_insertKey ho (bounded_read d hd.1 hj) k
        exact boundedMembers_read rest hd.2 ho' hrest

theorem boundedElements_read : ∀ (elements : List Doc) {a a' : List (Json D)},
    Doc.BoundedElements n elements → BoundedElements n a →
    readElements env none a elements = some a' → BoundedElements n a'
  | [], a, a', _, ha, h => by
      simp only [readElements, Option.pure_def, Option.some.injEq] at h
      exact h ▸ ha
  | d :: rest, a, a', hd, ha, h => by
      rw [Doc.BoundedElements] at hd
      simp only [readElements, require, descend, Option.bind_eq_bind, Option.bind_some,
        Option.bind_eq_some_iff] at h
      obtain ⟨j, hj, hrest⟩ := h
      have hj' := bounded_read d hd.1 hj
      have ha' : BoundedElements n (a ++ [j]) := by
        rw [boundedElements_iff] at ha ⊢
        simpa [or_imp, forall_and, hj'] using ha
      exact boundedElements_read rest hd.2 ha' hrest

end

end Bounded

section Whole

variable (env : Env D)

/-- A schema in which no type is a number. -/
structure Plain (s : Json D) : Prop where
  wellTyped : WellTyped s
  numberFree : NumberFree s

theorem Plain.child {s c : Json D} (hs : Plain s) {sel : Sel}
    (hc : s.child sel = some c) : Plain c where
  wellTyped := hs.wellTyped.child hc
  numberFree := fun sels c' hc' => hs.numberFree (sel :: sels) c' (by simp [sub, hc, hc'])

theorem Plain.childKey {s c : Json D} (hs : Plain s) {k : String}
    (hc : s.childKey k = some c) : Plain c := by
  obtain ⟨sel, -, hsel⟩ := Option.bind_eq_some_iff.mp hc
  exact hs.child hsel

theorem Plain.childIndex {s c : Json D} (hs : Plain s) {i : ℕ}
    (hc : s.childIndex i = some c) : Plain c := by
  obtain ⟨sel, -, hsel⟩ := Option.bind_eq_some_iff.mp hc
  exact hs.child hsel

theorem fixNumber_eq {type : String} (h : type ≠ "number") (j : Json D) :
    fixNumber env type j = j := by
  cases j with
  | int m => simp [fixNumber, h]
  | _ => rfl

theorem fixNumbers_eq {a : List (Json D)} (hstring : ∀ x ∈ a, x.type = .string)
    (hnumber : .string "number" ∉ a) (j : Json D) : fixNumbers env a j = .ok j := by
  induction a with
  | nil => rfl
  | cons t rest ih =>
      have ht := hstring t List.mem_cons_self
      cases t with
      | string v =>
          have hv : v ≠ "number" := by
            rintro rfl
            exact hnumber List.mem_cons_self
          have hrest := ih (fun x hx => hstring x (List.mem_cons_of_mem _ hx))
            (fun hx => hnumber (List.mem_cons_of_mem _ hx))
          simp [fixNumbers, asString, fixNumber_eq env hv, hrest]
      | _ => simp [type] at ht

/-- Without numbers a value keeps its type, if the loop over the types ends. -/
theorem Plain.typeFixup_eq {s : Json D} (hs : Plain s) (hshort : ShortList s) (j : Json D) :
    typeFixup env s j = .ok j := by
  have htyped := hs.wellTyped.typed.typeLists "type" (by simp)
  have hnumber := hs.numberFree [] s rfl
  cases ht : s.member "type" with
  | none => simp [typeFixup, ht]
  | some t =>
      obtain ⟨hne, hmem⟩ := hnumber t ht
      rcases htyped t ht with hstring | ⟨a, rfl, hstring⟩
      · cases t with
        | string v =>
            have hv : v ≠ "number" := by
              rintro rfl
              exact hne rfl
            simp [typeFixup, ht, asString, fixNumber_eq env hv, pure, Except.pure]
        | _ => simp [type] at hstring
      · have hlength := hshort a ht
        have htake : a.take (2 ^ 32) = a := List.take_of_length_le (by omega)
        simp only [typeFixup, ht, htake, fixNumbers_eq env hstring (hmem a rfl), ok_bind,
          if_pos hlength, pure, Except.pure]

/-- The loop over a longer list does not end. -/
theorem typeFixup_of_long {s : Json D} (h : ¬ ShortList s) (j : Json D) :
    value? (typeFixup env s j) = none := by
  simp only [ShortList, not_forall] at h
  obtain ⟨types, htypes, hlength⟩ := h
  simp only [typeFixup, htypes, if_neg hlength]
  cases fixNumbers env (types.take (2 ^ 32)) j with
  | error e => rfl
  | ok j' => rfl

theorem accepts_both (a b : Except Failure Bool) :
    accepts (both a b) = (accepts a).bind fun _ => accepts b := by
  cases a with
  | error e => simp [both, accepts]
  | ok v =>
      cases v with
      | false => simp [both, accepts, pure, Except.pure]
      | true => simp [both, accepts]

/-- `Json::validate` of a value with a schema gets to another value, with another schema:
the type of every array and object on the way is accepted, as are the size of the array and
what stands before, and the index of the element is below the size as an `unsigned int`. -/
inductive Walks : Json D → Json D → Json D → Json D → Prop
  | here (s j : Json D) : Walks s j s j
  | member {s c c' j v : Json D} {k : String} {before after : List (String × Json D)}
      (hcontainer : (whole env).container s .object = some ())
      (hbefore : (conformMembers env (whole env) s before).isSome)
      (hc : s.childKey k = some c) (h : Walks c j c' v) :
      Walks s (.object (before ++ (k, j) :: after)) c' v
  | element {s c c' j v : Json D} {before after : List (Json D)} {size : ℕ}
      (hlength : (before ++ j :: after).length = size)
      (hcontainer : (whole env).container s .array = some ())
      (hminSize : minSize s size = some ()) (hmaxSize : maxSize s size = some ())
      (hbefore : (conformElements env (whole env) s (toUInt32 size) 0 before).isSome)
      (hindex : before.length < toUInt32 size)
      (hc : s.childIndex before.length = some c) (h : Walks c j c' v) :
      Walks s (.array (before ++ j :: after)) c' v

/-- What `Json::validate` counts when it gets to the value `v` with the schema `s`: the
types of the schema, once the type of the value is accepted, and the elements of an array,
once its size is. The types do not matter for a number, for which the parser counts them as
well. -/
structure Counts (s v : Json D) : Prop where
  types : v.type ≠ .int → v.type ≠ .double →
    accepts (validType onErrorThrow s v.type) = some () → ShortList s
  elements : ∀ a, v = .array a → (whole env).container s .array = some () →
    minSize s a.length = some () → maxSize s a.length = some () → a.length < 2 ^ 32

/-- `Json::validate` gets to no array and no list of types that is too long for its
counters. -/
def WalksShort (s j : Json D) : Prop :=
  ∀ c v, Walks env s j c v → Counts env c v

variable {env}

theorem Plain.wholeScalar_eq {s j : Json D} (hs : Plain s) (hcounts : Counts env s j) :
    wholeScalar env s j = streamScalar env s j := by
  by_cases hshort : ShortList s
  · cases j with
    | undef => simp [wholeScalar, streamScalar, hs.typeFixup_eq env hshort, value?]
    | int m =>
        simp [wholeScalar, streamScalar, hs.typeFixup_eq env hshort, value?, accepts_both,
          type, Option.bind_assoc]
    | double x =>
        simp [wholeScalar, streamScalar, hs.typeFixup_eq env hshort, value?, accepts_both,
          type, Option.bind_assoc]
    | _ =>
        simp [wholeScalar, streamScalar, hs.typeFixup_eq env hshort, value?, accepts_both,
          Option.bind_assoc]
  · have hlong := typeFixup_of_long env hshort
    -- only the type of a number is accepted, and then the loop ends on neither way
    have hrefused : j.type ≠ .int → j.type ≠ .double →
        accepts (validType onErrorThrow s j.type) = none := fun hint hdouble =>
      Option.eq_none_iff_forall_not_mem.mpr fun _ h => hshort (hcounts.types hint hdouble h)
    cases j with
    | int m => simp [wholeScalar, streamScalar, hlong]
    | double x => simp [wholeScalar, streamScalar, hlong]
    | undef =>
        have hnone := hrefused nofun nofun
        rw [type] at hnone
        simp [wholeScalar, streamScalar, hnone]
    | _ =>
        have hnone := hrefused nofun nofun
        simp [wholeScalar, streamScalar, accepts_both, hnone]

theorem Plain.container_eq {s j : Json D} (hs : Plain s) (hcounts : Counts env s j)
    (hint : j.type ≠ .int) (hdouble : j.type ≠ .double) :
    (whole env).container s j.type = (streaming env).container s j.type := by
  cases haccepts : accepts (validType onErrorThrow s j.type) with
  | none => simp [whole, streaming, haccepts]
  | some u =>
      have hshort := hcounts.types hint hdouble haccepts
      simp [whole, streaming, hs.typeFixup_eq env hshort, value?, haccepts]

theorem Plain.maxSize_eq {s : Json D} (hs : Plain s) (size : ℕ) :
    (whole env).maxSize s size = (streaming env).maxSize s size := by
  by_cases hsize : size = 0
  · simp [whole, streaming, hsize, maxSize_zero hs.wellTyped.typed]
  · simp [whole, streaming, hsize]

theorem isSome_conformMembers_cons {order : Order D} {s c j j' : Json D} {k : String}
    {before : List (String × Json D)} (hc : s.childKey k = some c)
    (hj : conform env order c j = some j') (h : (conformMembers env order s before).isSome) :
    (conformMembers env order s ((k, j) :: before)).isSome := by
  obtain ⟨o, ho⟩ := Option.isSome_iff_exists.mp h
  simp [conformMembers, hc, hj, ho]

theorem isSome_conformElements_cons {order : Order D} {s c j j' : Json D} {size i : ℕ}
    {before : List (Json D)} (hi : i < size) (hc : s.childIndex i = some c)
    (hj : conform env order c j = some j')
    (h : (conformElements env order s size (i + 1) before).isSome) :
    (conformElements env order s size i (j :: before)).isSome := by
  obtain ⟨a, ha⟩ := Option.isSome_iff_exists.mp h
  simp [conformElements, hi, hc, hj, ha]

/-- What `Json::validate` gets to from a member of an object. -/
theorem WalksShort.member {s c j : Json D} {k : String} {o before after : List (String × Json D)}
    (h : WalksShort env s (.object o)) (ho : o = before ++ (k, j) :: after)
    (hcontainer : (whole env).container s .object = some ())
    (hbefore : (conformMembers env (whole env) s before).isSome) (hc : s.childKey k = some c) :
    WalksShort env c j := by
  subst ho
  exact fun c' v hwalks => h c' v (.member hcontainer hbefore hc hwalks)

/-- What `Json::validate` gets to from an element of an array. -/
theorem WalksShort.element {s c j : Json D} {a before after : List (Json D)}
    (h : WalksShort env s (.array a)) (ha : a = before ++ j :: after)
    (hcontainer : (whole env).container s .array = some ())
    (hminSize : minSize s a.length = some ()) (hmaxSize : maxSize s a.length = some ())
    (hcount : toUInt32 a.length = a.length)
    (hbefore : (conformElements env (whole env) s a.length 0 before).isSome)
    (hc : s.childIndex (0 + before.length) = some c) : WalksShort env c j := by
  have hindex : before.length < a.length := by
    rw [ha, List.length_append, List.length_cons]
    omega
  rw [Nat.zero_add] at hc
  subst ha
  refine fun c' v hwalks => h c' v (.element rfl hcontainer hminSize hmaxSize ?_ ?_ hc hwalks)
  · rw [hcount]
    exact hbefore
  · rw [hcount]
    exact hindex

mutual

/-- The two orders make the same of a value if the counters are large enough for what
`Json::validate` gets to. -/
theorem conform_whole : ∀ (j : Json D) {s : Json D}, Plain s → WalksShort env s j →
    conform env (whole env) s j = conform env (streaming env) s j
  | .object o, s, hs, hwalks => by
      have hcontainer := hs.container_eq (hwalks _ _ (.here s (.object o))) nofun nofun
      rw [type] at hcontainer
      rw [conform, conform, ← hcontainer]
      cases hc : (whole env).container s .object with
      | none => rfl
      | some u =>
          have hmembers := conformMembers_whole o hs
            fun before k j after c ho hbefore hchild =>
              hwalks.member ho hc hbefore hchild
          rw [hmembers]
  | .array a, s, hs, hwalks => by
      have hhere := hwalks _ _ (.here s (.array a))
      have hcontainer := hs.container_eq hhere nofun nofun
      rw [type] at hcontainer
      rw [conform, conform, ← hcontainer, ← hs.maxSize_eq]
      cases hc : (whole env).container s .array with
      | none => rfl
      | some u =>
          cases hmin : minSize s a.length with
          | none => rfl
          | some u =>
              cases hmax : (whole env).maxSize s a.length with
              | none => rfl
              | some u =>
                  have hlength := hhere.elements a rfl hc hmin hmax
                  have hcount : toUInt32 a.length = a.length := by
                    simp only [toUInt32]
                    omega
                  have helements : conformElements env (whole env) s a.length 0 a =
                      conformElements env (streaming env) s a.length 0 a := by
                    refine conformElements_whole a hs fun before j after c ha hbefore hchild =>
                      hwalks.element ha hc hmin hmax hcount hbefore hchild
                  have hwhole : (whole env).count a.length = a.length := hcount
                  have hstreaming : (streaming env).count a.length = a.length := rfl
                  rw [hwhole, hstreaming, helements]
  | .undef, s, hs, hwalks => by
      simp only [conform, whole, streaming, hs.wholeScalar_eq (hwalks _ _ (.here s .undef))]
  | .bool b, s, hs, hwalks => by
      simp only [conform, whole, streaming, hs.wholeScalar_eq (hwalks _ _ (.here s (.bool b)))]
  | .int m, s, hs, hwalks => by
      simp only [conform, whole, streaming, hs.wholeScalar_eq (hwalks _ _ (.here s (.int m)))]
  | .double x, s, hs, hwalks => by
      simp only [conform, whole, streaming,
        hs.wholeScalar_eq (hwalks _ _ (.here s (.double x)))]
  | .string v, s, hs, hwalks => by
      simp only [conform, whole, streaming,
        hs.wholeScalar_eq (hwalks _ _ (.here s (.string v)))]

/-- The members, each under the condition that those before it are accepted. -/
theorem conformMembers_whole : ∀ (o : List (String × Json D)) {s : Json D}, Plain s →
    (∀ before k j after c, o = before ++ (k, j) :: after →
      (conformMembers env (whole env) s before).isSome → s.childKey k = some c →
      WalksShort env c j) →
    conformMembers env (whole env) s o = conformMembers env (streaming env) s o
  | [], s, _, _ => by simp only [conformMembers]
  | (k, j) :: rest, s, hs, hwalks => by
      rw [conformMembers, conformMembers]
      cases hc : s.childKey k with
      | none => rfl
      | some c =>
          have hj := conform_whole j (hs.childKey hc) (hwalks [] k j rest c rfl rfl hc)
          simp only [Option.bind_eq_bind, Option.bind_some, ← hj]
          cases hfirst : conform env (whole env) c j with
          | none => rfl
          | some j' =>
              have hrest := conformMembers_whole rest hs fun before k₁ j₁ after c₁ ho hbefore =>
                hwalks ((k, j) :: before) k₁ j₁ after c₁ (by rw [ho, List.cons_append])
                  (isSome_conformMembers_cons hc hfirst hbefore)
              rw [hrest]

/-- The elements of an array that is looked at to its end. -/
theorem conformElements_whole : ∀ (a : List (Json D)) {s : Json D} {size i : ℕ}, Plain s →
    (∀ before j after c, a = before ++ j :: after →
      (conformElements env (whole env) s size i before).isSome →
      s.childIndex (i + before.length) = some c → WalksShort env c j) →
    conformElements env (whole env) s size i a =
      conformElements env (streaming env) s size i a
  | [], s, size, i, _, _ => by simp only [conformElements]
  | j :: rest, s, size, i, hs, hwalks => by
      rw [conformElements, conformElements]
      by_cases hi : i < size
      · rw [if_pos hi, if_pos hi]
        cases hc : s.childIndex i with
        | none => rfl
        | some c =>
            have hj := conform_whole j (hs.childIndex hc) (hwalks [] j rest c rfl rfl hc)
            simp only [Option.bind_eq_bind, Option.bind_some, ← hj]
            cases hfirst : conform env (whole env) c j with
            | none => rfl
            | some j' =>
                have hrest : conformElements env (whole env) s size (i + 1) rest =
                    conformElements env (streaming env) s size (i + 1) rest := by
                  refine conformElements_whole rest hs fun before j₁ after c₁ ha hbefore hchild =>
                    hwalks (j :: before) j₁ after c₁ (by rw [ha, List.cons_append])
                      (isSome_conformElements_cons hi hc hfirst hbefore) ?_
                  rw [List.length_cons, ← Nat.add_assoc, Nat.add_right_comm]
                  exact hchild
                rw [hrest]
      · rw [if_neg hi, if_neg hi]

end

end Whole

end Json

end Gearbox
