import Gearbox.Job.Request

/-!
# Matrix arguments

The last segment of a path may have matrix arguments, as in `nodes;tier=t1;rack=r2`.
`split_path_args` splits the path at `;` and at `=` alike, and then only counts what it got: a
name, a value, and so on. The pieces between two `;` are not looked at, so that a piece without a
value takes the next piece as its value. If there is nothing before the first `;`, then the
arguments stay in the path.
-/

namespace Gearbox

namespace Jobs

open Json Refinement Config Texts

section Specification

/-- Every piece of the matrix arguments has the form `key=value`. -/
def Paired (args : String) : Prop :=
  ∀ piece ∈ split [';'] args, piece.toList.count '=' = 1

instance (args : String) : Decidable (Paired args) :=
  inferInstanceAs (Decidable (∀ piece ∈ split [';'] args, piece.toList.count '=' = 1))

/-- The keys and the values of the pieces, in their order. -/
def pairs (args : String) : List (String × String) :=
  (split [';'] args).filterMap fun piece =>
    (cut '=' piece.toList).map fun r => (String.ofList r.1, String.ofList r.2)

/-- The segments of a path, without the last one if it is empty. -/
def segments (path : String) : List String :=
  if (split ['/'] path).getLast? = some "" then (split ['/'] path).dropLast
  else split ['/'] path

/-- What is expected of a path with matrix arguments. -/
def ExactMatrix (path args : String) (r : Except Failure (List String × Hash)) : Prop :=
  if Paired args then
    ∃ matrix : Hash, r = .ok (segments path, matrix) ∧
      ∀ k, matrix.get k = (pairs args).reverse.lookup k
  else
    r = .error (.std ("malformed matrix arguments in '" ++ (path ++ ";" ++ args) ++ "'"))

end Specification

section Splitting

theorem splitPathArgs_matrix {path args : String} (hsemi : ';' ∉ path.toList)
    (heq : '=' ∉ path.toList) :
    splitPathArgs ("/" ++ path ++ ";" ++ args) =
      if (split [';', '='] args).length % 2 = 1 then
        .error (.std ("malformed matrix arguments in '" ++ (path ++ ";" ++ args) ++ "'"))
      else
        .ok (segments (if path = "" then path ++ ";" ++ args else path),
          Assoc.Map.empty.setAll (matrixArgs (split [';', '='] args))) := by
  have hne : "/" ++ path ++ ";" ++ args ≠ "" := by
    intro h
    have hlist := congrArg String.toList h
    simp at hlist
  have htail : ("/" ++ path ++ ";" ++ args).toList.tail = (path ++ ";" ++ args).toList := by
    simp
  have hmem : ';' ∈ (path ++ ";" ++ args).toList := by simp
  have hsplit : split [';', '='] (path ++ ";" ++ args) = path :: split [';', '='] args := by
    have hlist : (path ++ ";" ++ args).toList = path.toList ++ ';' :: args.toList := by simp
    have hpath : ∀ c ∈ path.toList, decide (c ∈ [';', '=']) = false := by
      intro c hc
      rw [decide_eq_false_iff_not]
      simp only [List.mem_cons, List.not_mem_nil, or_false, not_or]
      constructor
      · rintro rfl
        exact hsemi hc
      · rintro rfl
        exact heq hc
    rw [split, hlist, List.splitOnP_append_cons_of_forall_mem hpath ';' (by decide),
      List.map_cons, String.ofList_toList]
    rfl
  rw [splitPathArgs, if_neg hne, htail, String.ofList_toList, if_pos hmem, hsplit]
  by_cases hlength : (split [';', '='] args).length % 2 = 1
  · simp only [if_pos hlength]
    rfl
  · simp only [if_neg hlength]
    rfl

/-- The separators of the matrix arguments. -/
def separators (args : String) : ℕ :=
  args.toList.countP (· ∈ [';', '='])

theorem length_split (args : String) :
    (split [';', '='] args).length = separators args + 1 := by
  rw [split, List.length_map, length_splitOnP, separators]

/-- Every piece is split again. -/
theorem split_pieces (args : String) :
    split [';', '='] args = (split [';'] args).flatMap (split ['=']) := by
  have hor : (fun c : Char => decide (c ∈ [';', '='])) =
      fun c => decide (c ∈ [';']) || decide (c ∈ ['=']) := by
    funext c
    simp
  rw [split, split, hor, splitOnP_or, List.map_flatMap, List.flatMap_map]
  simp only [split, String.toList_ofList]

/-- A piece with one `=` is a key and a value. -/
theorem exists_pair {piece : String} (h : piece.toList.count '=' = 1) :
    ∃ k v, split ['='] piece = [k, v] ∧
      ((cut '=' piece.toList).map fun r => (String.ofList r.1, String.ofList r.2)) =
        some (k, v) := by
  have hmem : '=' ∈ piece.toList := List.count_pos_iff.mp (by omega)
  obtain ⟨k, v, htext, hk⟩ := List.eq_append_cons_of_mem hmem
  have hv : '=' ∉ v := by
    rw [htext, List.count_append, List.count_cons_self] at h
    exact List.count_eq_zero.mp (by omega)
  have hnot : ∀ {l : List Char}, '=' ∉ l → ∀ c ∈ l, decide (c ∈ ['=']) = false := by
    intro l hl c hc
    rw [decide_eq_false_iff_not, List.mem_singleton]
    rintro rfl
    exact hl hc
  refine ⟨String.ofList k, String.ofList v, ?_, ?_⟩
  · rw [split, htext, List.splitOnP_append_cons_of_forall_mem (hnot hk) '=' (by decide),
      List.splitOnP_eq_singleton (hnot hv)]
    rfl
  · rw [htext, cut_append hk]
    rfl

/-- Pieces of the form `key=value` become the pairs. -/
theorem matrixArgs_split {args : String} (h : Paired args) :
    (split [';', '='] args).length = 2 * (split [';'] args).length ∧
      matrixArgs (split [';', '='] args) = pairs args := by
  rw [Paired] at h
  rw [split_pieces, pairs]
  generalize split [';'] args = pieces at h ⊢
  induction pieces with
  | nil => exact ⟨rfl, rfl⟩
  | cons piece pieces ih =>
      obtain ⟨k, v, hsplit, hcut⟩ := exists_pair (h piece List.mem_cons_self)
      obtain ⟨hlength, hargs⟩ := ih fun x hx => h x (List.mem_cons_of_mem piece hx)
      rw [List.flatMap_cons, hsplit, List.filterMap_cons, hcut]
      constructor
      · rw [List.length_append, hlength, List.length_cons]
        simp only [List.length_cons, List.length_nil]
        omega
      · rw [← hargs]
        rfl

/-- A path that starts with the arguments has a segment. -/
theorem segments_ne_nil (args : String) : segments ("" ++ ";" ++ args) ≠ [] := by
  have hlist : ("" ++ ";" ++ args).toList = ';' :: args.toList := by simp
  obtain ⟨first, rest, hsplit⟩ := List.exists_cons_of_ne_nil
    (List.splitOnP_ne_nil (fun c => decide (c ∈ ['/'])) args.toList)
  have hparts : split ['/'] ("" ++ ";" ++ args) =
      String.ofList (';' :: first) :: rest.map String.ofList := by
    rw [split, hlist, List.splitOnP_cons_eq_if_modifyHead, if_neg (by decide), hsplit]
    rfl
  rw [segments, hparts]
  cases rest with
  | nil => simp
  | cons second rest => split <;> simp

end Splitting

section Exactness

/-- The condition under which the matrix arguments are taken as expected: every piece has the form
`key=value`, and there is something before the first `;`, or a piece has not this form, and the
number of separators with the first `;` is odd. -/
def Tallies (path args : String) : Prop :=
  (Paired args ∧ path ≠ "") ∨ (¬ Paired args ∧ (separators args + 1) % 2 = 1)

/-- The matrix arguments of a path are parsed exactly in these cases. -/
theorem matrix_exact_iff {path args : String} (hsemi : ';' ∉ path.toList)
    (heq : '=' ∉ path.toList) :
    ExactMatrix path args (splitPathArgs ("/" ++ path ++ ";" ++ args)) ↔
      Tallies path args := by
  rw [ExactMatrix, Tallies, splitPathArgs_matrix hsemi heq, length_split]
  by_cases hpaired : Paired args
  · obtain ⟨hlength, hargs⟩ := matrixArgs_split hpaired
    rw [length_split] at hlength
    rw [if_pos hpaired, if_neg (by omega), hargs]
    constructor
    · rintro ⟨matrix, hok, -⟩
      refine .inl ⟨hpaired, ?_⟩
      rintro rfl
      have hempty : segments "" = [] := rfl
      rw [if_pos rfl, hempty] at hok
      exact segments_ne_nil args (congrArg Prod.fst (Except.ok.inj hok))
    · rintro (⟨-, hne⟩ | ⟨h, -⟩)
      · rw [if_neg hne]
        refine ⟨_, rfl, fun k => ?_⟩
        rw [Assoc.Map.get_setAll_reverse, Assoc.Map.get_empty, Option.or_none]
      · exact absurd hpaired h
  · rw [if_neg hpaired]
    constructor
    · intro h
      refine .inr ⟨hpaired, ?_⟩
      by_contra hodd
      rw [if_neg hodd] at h
      cases h
    · rintro (⟨h, -⟩ | ⟨-, hodd⟩)
      · exact absurd h hpaired
      · rw [if_pos hodd]

theorem matrix_exact_tier :
    ExactMatrix "v1/nodes" "tier=t1;rack=r2"
      (splitPathArgs ("/" ++ "v1/nodes" ++ ";" ++ "tier=t1;rack=r2")) := by
  have hpaired : Paired "tier=t1;rack=r2" := by decide
  have hne : "v1/nodes" ≠ "" := by decide
  rw [matrix_exact_iff (by decide) (by decide)]
  exact .inl ⟨hpaired, hne⟩

/-- The path `/nodes;a;b` has the argument `a=b`, and in `/;a=b` the argument stays in the
path. -/
theorem not_matrix_exact :
    ¬ ExactMatrix "nodes" "a;b" (splitPathArgs ("/" ++ "nodes" ++ ";" ++ "a;b")) ∧
      ¬ ExactMatrix "" "a=b" (splitPathArgs ("/" ++ "" ++ ";" ++ "a=b")) := by
  constructor
  · rw [ExactMatrix, if_neg (by decide), splitPathArgs_matrix (by decide) (by decide),
      if_neg (by decide)]
    exact nofun
  · rw [ExactMatrix, if_pos (by decide), splitPathArgs_matrix (by decide) (by decide),
      if_neg (by decide), if_pos rfl]
    rintro ⟨matrix, hok, -⟩
    exact segments_ne_nil "a=b" (congrArg Prod.fst (Except.ok.inj hok))

end Exactness

end Jobs

end Gearbox
