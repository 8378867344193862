import Gearbox.Json.Agreement

/-!
# Constraints and what they exclude

A keyword is added to a sub-schema of a schema. Everything that the new schema accepts was
accepted before, with one exception: `disallow` next to `type`. A value whose type is in
neither list is rejected for its type without `disallow`, and accepted with it.

`Governs` says which values of a document a sub-schema is used for.
-/

namespace Gearbox

namespace Json

open Refinement

variable {D : Type}

/-- The keywords that are about a single value, apart from its type. -/
def constraints : List String :=
  ["minimum", "maximum", "minLength", "maxLength", "pattern", "enum", "format", "minItems",
    "maxItems", "requires", "disallow"]

/-- A schema with one more keyword. -/
def addKeyword (kw : String) (v : Json D) : Json D → Json D
  | .object o => .object (Assoc.insertKey kw v o)
  | j => j

/-- The type is in one of the two lists, where both are given. -/
def Allowed (kw : String) (v c : Json D) (kind : Kind) : Prop :=
  kw = "disallow" → ∀ t, c.member "type" = some t →
    typeListContains kind.typeToSchemaType t = .ok true ∨
      typeListContains kind.typeToSchemaType v = .ok true

/-- The schema `s` uses its sub-schema at `sels` for the value `x` of the document `j`. -/
inductive Governs (order : Order D) : Json D → List Sel → Json D → Json D → Prop
  | here (s j : Json D) : Governs order s [] j j
  | member {s c j x : Json D} {sel : Sel} {sels : List Sel} {o : List (String × Json D)}
      {k : String} (hmem : (k, j) ∈ o) (hsel : s.selectKey k = some sel)
      (hchild : s.child sel = some c) (hx : Governs order c sels j x) :
      Governs order s (sel :: sels) (.object o) x
  | element {s c j x : Json D} {sel : Sel} {sels : List Sel} {a : List (Json D)} {i : ℕ}
      (hi : i < order.count a.length) (hmem : a[i]? = some j)
      (hsel : s.selectIndex (toInt32 i) = some sel) (hchild : s.child sel = some c)
      (hx : Governs order c sels j x) : Governs order s (sel :: sels) (.array a) x

/-- The schema `s'` has the keyword `kw` in addition to what `s` has. -/
structure Added (kw : String) (v s s' : Json D) : Prop where
  object : s.type = .object
  object' : s'.type = .object
  fresh : s.member kw = none
  member : ∀ k, s'.member k = if k = kw then some v else s.member k

theorem added_addKeyword {kw : String} {c : Json D} (v : Json D) (hc : c.type = .object)
    (hkw : c.member kw = none) : Added kw v c (addKeyword kw v c) := by
  cases c with
  | object o =>
      refine ⟨rfl, rfl, hkw, fun k => ?_⟩
      exact Assoc.lookup_insertKey hkw k v
  | _ => cases hc

section Checks

variable {env : Env D} {kw : String} {v s s' : Json D}

theorem Added.eq_of_ne (h : Added kw v s s') {k : String} (hk : k ≠ kw) :
    s'.member k = s.member k := by
  rw [h.member, if_neg hk]

/-- A check that reads one keyword and passes where it is absent. -/
theorem Added.restricts (h : Added kw v s s') (k : String) (check : Json D → Except Failure Bool)
    (hnone : s.member k = none → check s = .ok true)
    (hsame : s'.member k = s.member k → check s' = check s) (hv : check s' = .ok true) :
    check s = .ok true := by
  by_cases hk : k = kw
  · exact hnone (hk ▸ h.fresh)
  · rw [← hsame (h.eq_of_ne hk)]
    exact hv

variable {handler : ErrorHandler} {j : Json D} (h : Added kw v s s')
include h

theorem Added.validValue (hformat : env.defaultFormat = "")
    (hv : validValue env handler s' j = .ok true) :
    validValue env handler s j = .ok true := by
  rw [Json.validValue] at hv ⊢
  simp only [both_eq_true] at hv ⊢
  obtain ⟨hmin, hmax, hdec, hminLen, hmaxLen, hfor, hpat, henum⟩ := hv
  refine ⟨?_, ?_, ?_, ?_, ?_, ?_, ?_, ?_⟩
  · exact h.restricts "minimum" (fun s => validMinimum env handler s j)
      (fun hnone => by simp only [validMinimum, hnone])
      (fun hsame => by simp only [validMinimum, hsame]) hmin
  · exact h.restricts "maximum" (fun s => validMaximum env handler s j)
      (fun hnone => by simp only [validMaximum, hnone])
      (fun hsame => by simp only [validMaximum, hsame]) hmax
  · exact h.restricts "maxDecimal" (fun s => validMaxDecimal env handler s j)
      (fun hnone => by cases j <;> simp [validMaxDecimal, hnone])
      (fun hsame => by simp only [validMaxDecimal, hsame]) hdec
  · exact h.restricts "minLength" (fun s => validMinLength handler s j)
      (fun hnone => by cases j <;> simp [validMinLength, hnone])
      (fun hsame => by simp only [validMinLength, hsame]) hminLen
  · exact h.restricts "maxLength" (fun s => validMaxLength handler s j)
      (fun hnone => by cases j <;> simp [validMaxLength, hnone])
      (fun hsame => by simp only [validMaxLength, hsame]) hmaxLen
  -- a string without a format is not checked, since the default format is empty
  · refine h.restricts "format" (fun s => validFormat env handler s j)
      (fun hnone => ?_)
      (fun hsame => by simp only [validFormat, formatOf, hsame]) hfor
    cases j with
    | string text =>
        simp only [validFormat, formatOf, hnone, hformat, ok_bind, if_true]
        rfl
    | _ => rfl
  · exact h.restricts "pattern" (fun s => validPattern env handler s j)
      (fun hnone => by cases j <;> simp [validPattern, hnone])
      (fun hsame => by simp only [validPattern, hsame]) hpat
  · exact h.restricts "enum" (fun s => validEnum env handler s j)
      (fun hnone => by simp only [validEnum, hnone])
      (fun hsame => by simp only [validEnum, hsame]) henum

theorem Added.validMaxSize {size : ℕ} (hv : validMaxSize handler s' size = .ok true) :
    validMaxSize handler s size = .ok true :=
  h.restricts "maxItems" (fun s => Json.validMaxSize handler s size)
    (fun hnone => by simp only [Json.validMaxSize, hnone])
    (fun hsame => by simp only [Json.validMaxSize, hsame]) hv

theorem Added.validMinItems {size : ℕ} (hv : validMinItems handler s' size = .ok true) :
    validMinItems handler s size = .ok true :=
  h.restricts "minItems" (fun s => Json.validMinItems handler s size)
    (fun hnone => by simp only [Json.validMinItems, hnone])
    (fun hsame => by simp only [Json.validMinItems, hsame]) hv

end Checks

section Types

variable {env : Env D} {kw : String} {v s s' : Json D}

/-- The check of the type: what the new schema accepts, the old one accepts if and only if
the type is in a list. -/
theorem Added.validType (h : Added kw v s s') (hkw : kw ∈ constraints) {kind : Kind}
    (hv : validType onErrorThrow s' kind = .ok true) :
    validType onErrorThrow s kind = .ok true ↔ Allowed kw v s kind := by
  have htype : s'.member "type" = s.member "type" :=
    h.eq_of_ne fun heq => by simp [← heq, constraints] at hkw
  by_cases hd : kw = "disallow"
  · subst hd
    have hdisallow : s'.member "disallow" = some v := by rw [h.member, if_pos rfl]
    simp only [Json.validType, htype, hdisallow] at hv
    simp only [Json.validType, h.fresh, Allowed, forall_const]
    cases ht : s.member "type" with
    | none => simp [pure, Except.pure]
    | some t =>
        rw [ht] at hv
        dsimp only at hv ⊢
        cases hcontains : typeListContains kind.typeToSchemaType t with
        | error e =>
            rw [hcontains] at hv
            cases hv
        | ok listed =>
            rw [hcontains] at hv
            cases listed with
            | true =>
                refine iff_of_true rfl fun t' ht' => ?_
                cases ht'
                exact .inl hcontains
            | false =>
                refine iff_of_false nofun fun hallowed => ?_
                rcases hallowed t rfl with hlisted | hlisted
                · rw [hcontains] at hlisted
                  cases hlisted
                · rw [hlisted] at hv
                  cases hv
  · have hdisallow : s'.member "disallow" = s.member "disallow" := h.eq_of_ne (Ne.symm hd)
    have hsame : Json.validType onErrorThrow s' kind = Json.validType onErrorThrow s kind := by
      simp only [Json.validType, htype, hdisallow]
    exact iff_of_true (hsame ▸ hv) fun heq => absurd heq hd

theorem Added.typeFixup (h : Added kw v s s') (hkw : kw ∈ constraints) :
    typeFixup env s' = typeFixup env s := by
  have htype : s'.member "type" = s.member "type" :=
    h.eq_of_ne fun heq => by simp [← heq, constraints] at hkw
  funext j
  simp only [Json.typeFixup, htype]

end Types

section Decides

variable {α β : Type} {P Q : Prop} {o : Option α} {a : α} {b : β}

/-- The result is `a` if `P` holds, and otherwise there is none. -/
def Decides (P : Prop) (o : Option α) (a : α) : Prop :=
  (P → o = some a) ∧ (¬ P → o = none)

theorem decides_some (a : α) : Decides True (some a) a :=
  ⟨fun _ => rfl, fun h => absurd trivial h⟩

theorem Decides.congr (h : Decides P o a) (hPQ : P ↔ Q) : Decides Q o a :=
  ⟨fun hq => h.1 (hPQ.mpr hq), fun hq => h.2 fun hp => hq (hPQ.mp hp)⟩

theorem Decides.bind {f : α → Option β} (h : Decides P o a) (hf : Decides Q (f a) b) :
    Decides (P ∧ Q) (o.bind f) b := by
  by_cases hp : P
  · rw [h.1 hp, Option.bind_some]
    exact hf.congr ⟨fun hq => ⟨hp, hq⟩, fun hpq => hpq.2⟩
  · rw [h.2 hp, Option.bind_none]
    exact ⟨fun hpq => absurd hpq.1 hp, fun _ => rfl⟩

/-- A part that does not depend on the condition. -/
theorem Decides.map {f : α → Option β} (h : Decides P o a) (hf : f a = some b) :
    Decides P (o.bind f) b := by
  have hall : Decides True (f a) b := hf ▸ decides_some b
  exact (h.bind hall).congr (iff_of_eq (and_true P))

theorem Decides.isSome (h : Decides P o a) : o.isSome = true ↔ P := by
  by_cases hp : P
  · rw [h.1 hp]
    exact iff_of_true rfl hp
  · rw [h.2 hp]
    exact iff_of_false nofun hp

theorem decides_accepts {r : Except Failure Bool} (h : r = .ok true ↔ P) :
    Decides P (accepts r) () := by
  constructor
  · intro hp
    rw [h.mpr hp]
    rfl
  · intro hp
    cases haccepts : accepts r with
    | none => rfl
    | some u => exact absurd (h.mp (accepts_eq_some.mp haccepts)) hp

end Decides

section Orders

variable {env : Env D} {kw : String} {v s s' : Json D}

/-- What an order of the checks makes of one more keyword. -/
structure Order.Restricting (env : Env D) (order : Order D) (kw : String) (v : Json D) :
    Prop where
  alike : ∀ {s s'}, Alike env s s' → order.scalar s' = order.scalar s ∧
    order.container s' = order.container s ∧ order.maxSize s' = order.maxSize s
  scalar : ∀ {s s' j j'}, Added kw v s s' → order.scalar s' j = some j' →
    Decides (Allowed kw v s j.type) (order.scalar s j) j'
  container : ∀ {s s' kind}, Added kw v s s' → order.container s' kind = some () →
    Decides (Allowed kw v s kind) (order.container s kind) ()
  maxSize : ∀ {s s' n}, Added kw v s s' → order.maxSize s' n = some () →
    order.maxSize s n = some ()

theorem Added.decides_type (h : Added kw v s s') (hkw : kw ∈ constraints) {kind : Kind}
    (hv : accepts (Json.validType onErrorThrow s' kind) = some ()) :
    Decides (Allowed kw v s kind) (accepts (Json.validType onErrorThrow s kind)) () :=
  decides_accepts (h.validType hkw (accepts_eq_some.mp hv))

theorem Added.decides_value (h : Added kw v s s') (hkw : kw ∈ constraints)
    (hformat : env.defaultFormat = "") {j : Json D} {kind : Kind}
    (hv : accepts (both (Json.validType onErrorThrow s' kind)
      (Json.validValue env onErrorThrow s' j)) = some ()) :
    Decides (Allowed kw v s kind) (accepts (both (Json.validType onErrorThrow s kind)
      (Json.validValue env onErrorThrow s j))) () := by
  obtain ⟨htype, hvalue⟩ := both_eq_true.mp (accepts_eq_some.mp hv)
  apply decides_accepts
  rw [both_eq_true, h.validType hkw htype]
  exact and_iff_left (h.validValue hformat hvalue)

theorem Alike.streamScalar_eq (h : Alike env s s') :
    streamScalar env s' = streamScalar env s := by
  funext j
  cases j <;> simp only [streamScalar, h.validType_eq, h.validValue_eq, h.typeFixup_eq]

theorem Alike.wholeScalar_eq (h : Alike env s s') :
    wholeScalar env s' = wholeScalar env s := by
  funext j
  cases j <;> simp only [wholeScalar, h.validType_eq, h.validValue_eq, h.typeFixup_eq]

theorem restricting_streaming (hkw : kw ∈ constraints) (hformat : env.defaultFormat = "")
    (v : Json D) : Order.Restricting env (streaming env) kw v where
  alike := by
    intro s s' h
    refine ⟨h.streamScalar_eq, ?_, ?_⟩
    · funext kind
      simp only [streaming, h.validType_eq]
    · funext n
      simp only [streaming, maxSize, h.validMaxSize_eq]
  scalar := by
    intro s s' j j' h hj
    have hfix : typeFixup env s' = typeFixup env s := h.typeFixup hkw
    cases j with
    | undef =>
        obtain ⟨u, hu, hreturn⟩ := Option.bind_eq_some_iff.mp hj
        exact (h.decides_type hkw hu).map hreturn
    | int n =>
        obtain ⟨u, hu, hreturn⟩ := Option.bind_eq_some_iff.mp hj
        rw [hfix] at hreturn
        exact (h.decides_value hkw hformat hu).map hreturn
    | double x =>
        obtain ⟨u, hu, hreturn⟩ := Option.bind_eq_some_iff.mp hj
        rw [hfix] at hreturn
        exact (h.decides_value hkw hformat hu).map hreturn
    | _ =>
        obtain ⟨u, hu, hreturn⟩ := Option.bind_eq_some_iff.mp hj
        exact (h.decides_value hkw hformat hu).map hreturn
  container := fun h hkind => h.decides_type hkw hkind
  maxSize := by
    intro s s' n h hn
    simp only [streaming] at hn ⊢
    split at hn
    · rename_i hzero
      rw [if_pos hzero]
    · rename_i hzero
      rw [if_neg hzero]
      exact accepts_eq_some.mpr (h.validMaxSize (accepts_eq_some.mp hn))

theorem restricting_whole (hkw : kw ∈ constraints) (hformat : env.defaultFormat = "")
    (v : Json D) : Order.Restricting env (whole env) kw v where
  alike := by
    intro s s' h
    refine ⟨h.wholeScalar_eq, ?_, ?_⟩
    · funext kind
      simp only [whole, h.validType_eq, h.typeFixup_eq]
    · funext n
      simp only [whole, maxSize, h.validMaxSize_eq]
  scalar := by
    intro s s' j j' h hj
    have hfix : typeFixup env s' = typeFixup env s := h.typeFixup hkw
    have hrest : ∀ i : Json D,
        ((value? (typeFixup env s' i)).bind fun i' =>
          (accepts (validValue env onErrorThrow s' i')).bind fun _ => some i') = some j' →
        ((value? (typeFixup env s i)).bind fun i' =>
          (accepts (validValue env onErrorThrow s i')).bind fun _ => some i') = some j' := by
      intro i hi
      rw [hfix] at hi
      obtain ⟨i', hi', hvalue⟩ := Option.bind_eq_some_iff.mp hi
      obtain ⟨u, hu, hreturn⟩ := Option.bind_eq_some_iff.mp hvalue
      have hpasses := h.validValue hformat (accepts_eq_some.mp hu)
      rw [hi', Option.bind_some, hpasses]
      exact hreturn
    cases j with
    | undef =>
        obtain ⟨u, hu, hreturn⟩ := Option.bind_eq_some_iff.mp hj
        rw [hfix] at hreturn
        exact (h.decides_type hkw hu).map hreturn
    | _ =>
        obtain ⟨u, hu, hreturn⟩ := Option.bind_eq_some_iff.mp hj
        exact (h.decides_type hkw hu).map (hrest _ hreturn)
  container := by
    intro s s' kind h hkind
    have hfix : typeFixup env s' = typeFixup env s := h.typeFixup hkw
    obtain ⟨u, hu, hreturn⟩ := Option.bind_eq_some_iff.mp hkind
    rw [hfix] at hreturn
    exact (h.decides_type hkw hu).map hreturn
  maxSize := fun h hn => accepts_eq_some.mpr (h.validMaxSize (accepts_eq_some.mp hn))

end Orders

section Positions

variable {env : Env D} {kw : String} {v c s s' : Json D} {sels : List Sel}

/-- The schema `s'` is `s` with one more keyword in its sub-schema `c` at `sels`. -/
inductive Tighter (env : Env D) (kw : String) (v c : Json D) :
    List Sel → Json D → Json D → Prop
  | here {s' : Json D} (h : Added kw v c s') : Tighter env kw v c [] c s'
  | deeper {sel : Sel} {sels : List Sel} {s s' p p' : Json D} (halike : Alike env s s')
      (hsel : s.child sel = some p)
      (hchild : ∀ sel', s'.child sel' = if sel' = sel then some p' else s.child sel')
      (hp : Tighter env kw v c sels p p') : Tighter env kw v c (sel :: sels) s s'

theorem Added.shaped (h : Added kw v s s') : Shaped s s' where
  count := by
    have hs := h.object
    have hs' := h.object'
    cases s with
    | object o =>
        cases s' with
        | object o' => rfl
        | _ => cases hs'
    | _ => cases hs
  object := fun _ => h.object'

/-- A schema is changed in the tree. -/
theorem tighter_modify {f : Json D → Json D} (hc : s.real sels = some c)
    (hf : Added kw v c (f c)) : Tighter env kw v c sels s (s.modify (paths sels) f) ∧
      Shaped s (s.modify (paths sels) f) := by
  induction sels generalizing s with
  | nil =>
      cases hc
      exact ⟨.here hf, hf.shaped⟩
  | cons sel sels ih =>
      obtain ⟨p, hp, hc⟩ := Option.bind_eq_some_iff.mp hc
      obtain ⟨htighter, hshaped⟩ := ih hc
      rw [paths_cons, modify_append]
      have halike : Alike env s (s.modify sel.path (modify (paths sels) f)) :=
        alike_modify hp hshaped
      refine ⟨.deeper halike (child_of_realChild hp) ?_ htighter, halike.shaped⟩
      exact child_modify hp hshaped

/-- What `complete` reads of a property. -/
structure Reads (env : Env D) (p p' : Json D) : Prop where
  default : (p'.member "default").map (typeFixup env p') =
    (p.member "default").map (typeFixup env p)
  required : ∀ object k, validRequired onErrorThrow object p' k = .ok true →
    validRequired onErrorThrow object p k = .ok true

theorem Reads.refl (env : Env D) (p : Json D) : Reads env p p :=
  ⟨rfl, fun _ _ h => h⟩

/-- A property that requires more. -/
theorem Added.validRequired (h : Added kw v s s') (hkw : kw ∈ constraints)
    {object : Json D} {k : String} (hk : validRequired onErrorThrow object s' k = .ok true) :
    validRequired onErrorThrow object s k = .ok true := by
  have hoptional : s'.isOptional = s.isOptional := by
    have hmember : s'.member "optional" = s.member "optional" :=
      h.eq_of_ne fun heq => by simp [← heq, constraints] at hkw
    simp only [isOptional, hmember]
  by_cases hreq : "requires" = kw
  · have hnone : s.member "requires" = none := hreq ▸ h.fresh
    rw [Json.validRequired, hoptional] at hk
    rw [Json.validRequired]
    cases hopt : s.isOptional with
    | error e =>
        rw [hopt] at hk
        cases hk
    | ok optional =>
        rw [hopt] at hk
        cases optional with
        | true =>
            simp only [hnone]
            exact ite_self _
        | false => exact hk
  · have hsame : s'.member "requires" = s.member "requires" := h.eq_of_ne hreq
    simpa only [Json.validRequired, hoptional, hsame] using hk

theorem Tighter.reads (h : Tighter env kw v c sels s s') (hkw : kw ∈ constraints) :
    Reads env s s' := by
  cases h with
  | here h =>
      have hdefault : s'.member "default" = c.member "default" :=
        h.eq_of_ne fun heq => by simp [← heq, constraints] at hkw
      refine ⟨?_, fun object k hk => h.validRequired hkw hk⟩
      rw [hdefault, h.typeFixup hkw]
  | deeper halike hsel hchild hp =>
      refine ⟨halike.default.symm, fun object k hk => ?_⟩
      rwa [halike.validRequired_eq]

/-- The defaults are the same, and what is required was required before. -/
theorem complete_of_reads (hprops : s'.properties = s.properties)
    (hreads : ∀ k, Option.Rel (Reads env) (s.property k) (s'.property k))
    {members : List (String × Json D)} {j : Json D}
    (h : complete env s' members = some j) : complete env s members = some j := by
  have hdefaultOf : ∀ object k, defaultOf env s' object k = defaultOf env s object k := by
    intro object k
    have hrel := hreads k
    simp only [defaultOf]
    generalize s.property k = o at hrel
    generalize s'.property k = o' at hrel
    cases hrel with
    | none => rfl
    | some hp =>
        rename_i p p'
        have hdefault := hp.default
        simp only [Option.bind_eq_bind, Option.bind_some]
        generalize p.member "default" = d at hdefault
        generalize p'.member "default" = d' at hdefault
        cases d with
        | none =>
            cases d' with
            | none => rfl
            | some x => cases hdefault
        | some x =>
            cases d' with
            | none => cases hdefault
            | some x' =>
                simp only [Option.map_some, Option.some.injEq] at hdefault
                simp only [hdefault]
  have hdefaults : ∀ object names,
      defaultsLoop env s' object names = defaultsLoop env s object names := by
    intro object names
    induction names with
    | nil => rfl
    | cons k rest ih => rw [defaultsLoop, defaultsLoop, hdefaultOf, ih]
  have hrequires : ∀ object, accepts (validRequires onErrorThrow s' object) = some () →
      accepts (validRequires onErrorThrow s object) = some () := by
    intro object hv
    have hv' := accepts_eq_some.mp hv
    rw [validRequires, hprops] at hv'
    apply accepts_eq_some.mpr
    rw [validRequires]
    cases hnames : s.properties with
    | error e =>
        rw [hnames] at hv'
        cases hv'
    | ok names =>
        rw [hnames, ok_bind] at hv'
        rw [ok_bind]
        refine allM_of_forall fun k hk => ?_
        have hold := forall_of_allM hv' k hk
        have hrel := hreads k
        rw [validProperty] at hold ⊢
        generalize s.property k = o at hrel
        generalize s'.property k = o' at hrel hold
        cases hrel with
        | none => cases hold
        | some hp => exact hp.required object k hold
  simp only [complete, hprops, hdefaults, Option.bind_eq_bind] at h ⊢
  obtain ⟨names, hnames, hrest⟩ := Option.bind_eq_some_iff.mp h
  obtain ⟨added, hadded, hrest⟩ := Option.bind_eq_some_iff.mp hrest
  obtain ⟨u, hu, hreturn⟩ := Option.bind_eq_some_iff.mp hrest
  rw [hnames, Option.bind_some, hadded, Option.bind_some, hrequires _ hu]
  exact hreturn

section Selections

theorem selectAdditional_congr
    (h : (s'.child .additional).isSome = (s.child .additional).isSome) :
    s'.selectAdditional = s.selectAdditional := by
  rw [selectAdditional, selectAdditional]
  generalize s'.child .additional = o' at h
  generalize s.child .additional = o at h
  cases o with
  | none =>
      cases o' with
      | none => rfl
      | some c => cases h
  | some c =>
      cases o' with
      | none => cases h
      | some c' => rfl

/-- The selections depend on which sub-schemas there are. -/
theorem selectKey_congr (h : ∀ sel, (s'.child sel).isSome = (s.child sel).isSome)
    (k : String) : s'.selectKey k = s.selectKey k := by
  have hproperty : (s'.property k).isSome = (s.property k).isSome := h (.property k)
  rw [selectKey, selectKey, hproperty, selectAdditional_congr (h .additional)]

theorem selectIndex_congr (h : ∀ sel, (s'.child sel).isSome = (s.child sel).isSome)
    (hitems : (s.member "items").map count? = (s'.member "items").map count?) (idx : ℤ) :
    s'.selectIndex idx = s.selectIndex idx := by
  rw [selectIndex, selectIndex, selectAdditional_congr (h .additional)]
  generalize s'.member "items" = o' at hitems
  generalize s.member "items" = o at hitems
  cases o with
  | none =>
      cases o' with
      | none => rfl
      | some j' => cases hitems
  | some j =>
      cases o' with
      | none => cases hitems
      | some j' =>
          simp only [Option.map_some, Option.some.injEq] at hitems
          simp only [length_of_count? hitems]

/-- The check of the size of an array. -/
theorem minSize_congr (h : (s'.child .additional).isSome = (s.child .additional).isSome)
    (hitems : (s.member "items").map count? = (s'.member "items").map count?) {n : ℕ}
    (hmin : accepts (validMinItems onErrorThrow s' n) = some () →
      accepts (validMinItems onErrorThrow s n) = some ())
    (hs' : minSize s' n = some ()) : minSize s n = some () := by
  rw [minSize, h] at hs'
  rw [minSize]
  obtain ⟨u, hu, hrest⟩ := Option.bind_eq_some_iff.mp hs'
  rw [hmin hu]
  generalize s'.member "items" = o' at hitems hrest
  generalize s.member "items" = o at hitems
  cases o with
  | none => rfl
  | some j =>
      cases o' with
      | none => cases hitems
      | some j' =>
          simp only [Option.map_some, Option.some.injEq] at hitems
          cases j with
          | array a =>
              cases j' with
              | array a' =>
                  have hlength : a.length = a'.length := by simpa [count?] using hitems
                  simpa [hlength] using hrest
              | _ => cases hitems
          | _ => rfl

end Selections

/-- A keyword that is a constraint is not one that holds sub-schemas. -/
theorem Added.child (h : Added kw v s s') (hkw : kw ∈ constraints) (sel : Sel) :
    s'.child sel = s.child sel := by
  apply child_congr h.object h.object'
  apply h.eq_of_ne
  intro heq
  cases sel <;> simp [← heq, constraints, Sel.keyword] at hkw

namespace Tighter

theorem isSome_child (h : Tighter env kw v c sels s s') (hkw : kw ∈ constraints) (sel : Sel) :
    (s'.child sel).isSome = (s.child sel).isSome := by
  cases h with
  | here h => rw [h.child hkw]
  | deeper halike hsel hchild hp =>
      rename_i sel₀ _ _ _
      rw [hchild]
      by_cases heq : sel = sel₀
      · rw [if_pos heq, heq, hsel]
        rfl
      · rw [if_neg heq]

theorem items (h : Tighter env kw v c sels s s') (hkw : kw ∈ constraints) :
    (s.member "items").map count? = (s'.member "items").map count? := by
  cases h with
  | here h =>
      have hitems : s'.member "items" = c.member "items" :=
        h.eq_of_ne fun heq => by simp [← heq, constraints] at hkw
      rw [hitems]
  | deeper halike hsel hchild hp => exact halike.items

theorem complete_of (h : Tighter env kw v c sels s s') (hkw : kw ∈ constraints)
    {members : List (String × Json D)} {j : Json D}
    (hj : complete env s' members = some j) : complete env s members = some j := by
  have hrefl : ∀ o : Option (Json D), Option.Rel (Reads env) o o := by
    intro o
    cases o with
    | none => exact .none
    | some p => exact .some (Reads.refl env p)
  cases h with
  | here h =>
      have hmember : s'.member "properties" = c.member "properties" :=
        h.eq_of_ne fun heq => by simp [← heq, constraints] at hkw
      refine complete_of_reads ?_ (fun k => ?_) hj
      · rw [properties, properties, hmember]
      · rw [property, property, hmember]
        exact hrefl _
  | deeper halike hsel hchild hp =>
      rename_i sel₀ _ p p'
      refine complete_of_reads halike.properties.symm (fun k => ?_) hj
      have hk : s'.property k = if .property k = sel₀ then some p' else s.property k :=
        hchild (.property k)
      rw [hk]
      by_cases heq : .property k = sel₀
      · have hs : s.property k = some p := by
          rw [← heq] at hsel
          exact hsel
        rw [if_pos heq, hs]
        exact .some (hp.reads hkw)
      · rw [if_neg heq]
        exact hrefl _

theorem minSize_of (h : Tighter env kw v c sels s s') (hkw : kw ∈ constraints) {n : ℕ}
    (hn : minSize s' n = some ()) : minSize s n = some () := by
  refine minSize_congr (h.isSome_child hkw .additional) (h.items hkw) ?_ hn
  intro hmin
  cases h with
  | here h => exact accepts_eq_some.mpr (h.validMinItems (accepts_eq_some.mp hmin))
  | deeper halike hsel hchild hp => rwa [halike.validMinItems_eq]

end Tighter

theorem governs_nil {order : Order D} {j x : Json D} :
    Governs order s [] j x ↔ x = j := by
  constructor
  · intro h
    cases h
    rfl
  · rintro rfl
    exact .here s x

variable {order : Order D}

/-- A value that no part of is governed. -/
theorem Tighter.decides_scalar (horder : order.Restricting env kw v)
    (h : Tighter env kw v c sels s s') {j j' : Json D}
    (hnone : ∀ sel sels s x, ¬ Governs order s (sel :: sels) j x)
    (hj : order.scalar s' j = some j') :
    Decides (∀ x, Governs order s sels j x → Allowed kw v c x.type) (order.scalar s j) j' := by
  cases h with
  | here h =>
      refine (horder.scalar h hj).congr ?_
      simp only [governs_nil, forall_eq]
  | deeper halike hsel hchild hp =>
      rw [(horder.alike halike).1] at hj
      rw [hj]
      exact (decides_some j').congr (iff_of_true trivial fun x hx => absurd hx (hnone _ _ _ x))

theorem Tighter.decides_container (horder : order.Restricting env kw v)
    (h : Tighter env kw v c sels s s') {kind : Kind}
    (hkind : order.container s' kind = some ()) :
    Decides (sels = [] → Allowed kw v c kind) (order.container s kind) () := by
  cases h with
  | here h =>
      refine (horder.container h hkind).congr ?_
      simp
  | deeper halike hsel hchild hp =>
      rw [(horder.alike halike).2.1] at hkind
      rw [hkind]
      exact (decides_some ()).congr (by simp)

theorem Tighter.maxSize_of (horder : order.Restricting env kw v)
    (h : Tighter env kw v c sels s s') {n : ℕ} (hn : order.maxSize s' n = some ()) :
    order.maxSize s n = some () := by
  cases h with
  | here h => exact horder.maxSize h hn
  | deeper halike hsel hchild hp => rwa [(horder.alike halike).2.2] at hn

/-- A child of a container, with the sub-schema that is selected for it. -/
theorem Tighter.decides_child (h : Tighter env kw v c sels s s') (hkw : kw ∈ constraints)
    {o : Option Sel} {j j' : Json D}
    (ih : ∀ {sels p p' j'}, Tighter env kw v c sels p p' → conform env order p' j = some j' →
      Decides (∀ x, Governs order p sels j x → Allowed kw v c x.type)
        (conform env order p j) j')
    (hj : ((o.bind s'.child).bind fun q => conform env order q j) = some j') :
    Decides (∀ sel sels' p x, sels = sel :: sels' → o = some sel → s.child sel = some p →
        Governs order p sels' j x → Allowed kw v c x.type)
      ((o.bind s.child).bind fun q => conform env order q j) j' := by
  cases o with
  | none => cases hj
  | some sel₁ =>
      rw [Option.bind_some] at hj ⊢
      cases h with
      | here h =>
          rw [h.child hkw] at hj
          rw [hj]
          exact (decides_some j').congr (iff_of_true trivial nofun)
      | deeper halike hsel hchild hp =>
          rename_i sel₀ sels₀ p p'
          rw [hchild] at hj
          by_cases heq : sel₁ = sel₀
          · subst heq
            rw [if_pos rfl, Option.bind_some] at hj
            rw [hsel, Option.bind_some]
            refine (ih hp hj).congr ⟨?_, ?_⟩
            · rintro hall sel sels' q x hcons ho hq hx
              cases hcons
              cases ho
              rw [hsel] at hq
              cases hq
              exact hall x hx
            · intro hall x hx
              exact hall sel₁ sels₀ p x rfl rfl hsel hx
          · rw [if_neg heq] at hj
            rw [hj]
            refine (decides_some j').congr (iff_of_true trivial ?_)
            rintro sel sels' q x hcons ho hq hx
            cases hcons
            cases ho
            exact absurd rfl heq

mutual

/-- What the new schema accepts, the old one accepts if and only if every value that the
sub-schema is used for is of a type in one of the two lists. -/
theorem decides_conform (horder : order.Restricting env kw v) (hkw : kw ∈ constraints) :
    ∀ (j : Json D) {sels : List Sel} {s s' j' : Json D}, Tighter env kw v c sels s s' →
    conform env order s' j = some j' →
    Decides (∀ x, Governs order s sels j x → Allowed kw v c x.type)
      (conform env order s j) j'
  | .undef, sels, s, s', j', h, hj => h.decides_scalar horder nofun hj
  | .bool _, sels, s, s', j', h, hj => h.decides_scalar horder nofun hj
  | .int _, sels, s, s', j', h, hj => h.decides_scalar horder nofun hj
  | .double _, sels, s, s', j', h, hj => h.decides_scalar horder nofun hj
  | .string _, sels, s, s', j', h, hj => h.decides_scalar horder nofun hj
  | .object o, sels, s, s', j', h, hj => by
      rw [conform] at hj ⊢
      obtain ⟨u, hcontainer, hrest⟩ := Option.bind_eq_some_iff.mp hj
      obtain ⟨o', ho', hcomplete⟩ := Option.bind_eq_some_iff.mp hrest
      have hmembers := (decides_members horder hkw o h ho').map (h.complete_of hkw hcomplete)
      refine ((h.decides_container horder hcontainer).bind hmembers).congr ⟨?_, ?_⟩
      · rintro ⟨hself, hall⟩ x hx
        cases hx with
        | here => exact hself rfl
        | member hmem hsel hchild hx => exact hall _ _ _ _ _ x rfl hmem hsel hchild hx
      · intro hall
        constructor
        · rintro rfl
          exact hall _ (.here s _)
        · rintro sel sels' p k i x rfl hmem hsel hchild hx
          exact hall x (.member hmem hsel hchild hx)
  | .array a, sels, s, s', j', h, hj => by
      rw [conform] at hj ⊢
      obtain ⟨u, hcontainer, hrest⟩ := Option.bind_eq_some_iff.mp hj
      obtain ⟨u₁, hmin, hrest⟩ := Option.bind_eq_some_iff.mp hrest
      obtain ⟨u₂, hmax, hrest⟩ := Option.bind_eq_some_iff.mp hrest
      obtain ⟨a', ha', hreturn⟩ := Option.bind_eq_some_iff.mp hrest
      have helements := Decides.map (f := fun a' => some (array a'))
        (decides_elements horder hkw a h ha') hreturn
      rw [h.minSize_of hkw hmin, h.maxSize_of horder hmax]
      refine ((h.decides_container horder hcontainer).bind helements).congr ⟨?_, ?_⟩
      · rintro ⟨hself, hall⟩ x hx
        cases hx with
        | here => exact hself rfl
        | element hi hmem hsel hchild hx =>
            refine hall _ _ _ _ _ x rfl ?_ hmem ?_ hchild hx
            · rwa [Nat.zero_add]
            · rwa [Nat.zero_add]
      · intro hall
        constructor
        · rintro rfl
          exact hall _ (.here s _)
        · rintro sel sels' p n i x rfl hn hmem hsel hchild hx
          rw [Nat.zero_add] at hn hsel
          exact hall x (.element hn hmem hsel hchild hx)

theorem decides_members (horder : order.Restricting env kw v) (hkw : kw ∈ constraints) :
    ∀ (o : List (String × Json D)) {sels : List Sel} {s s' : Json D}
      {o' : List (String × Json D)}, Tighter env kw v c sels s s' →
    conformMembers env order s' o = some o' →
    Decides (∀ sel sels' p k j x, sels = sel :: sels' → (k, j) ∈ o →
        s.selectKey k = some sel → s.child sel = some p → Governs order p sels' j x →
        Allowed kw v c x.type) (conformMembers env order s o) o'
  | [], sels, s, s', o', h, ho => by
      cases ho
      exact (decides_some _).congr (iff_of_true trivial nofun)
  | (k, j) :: rest, sels, s, s', o', h, ho => by
      have hassoc : ∀ q : Json D, conformMembers env order q ((k, j) :: rest) =
          (((q.selectKey k).bind q.child).bind fun p => conform env order p j).bind fun j' =>
            (conformMembers env order q rest).bind fun rest' => some ((k, j') :: rest') := by
        intro q
        rw [conformMembers, childKey, Option.bind_assoc]
        rfl
      rw [hassoc, selectKey_congr (h.isSome_child hkw)] at ho
      rw [hassoc]
      obtain ⟨j', hj', hrest⟩ := Option.bind_eq_some_iff.mp ho
      obtain ⟨rest', hrest', hreturn⟩ := Option.bind_eq_some_iff.mp hrest
      have hfirst := h.decides_child hkw (fun h hj => decides_conform horder hkw j h hj) hj'
      have hothers := Decides.map (f := fun rest' => some ((k, j') :: rest'))
        (decides_members horder hkw rest h hrest') hreturn
      refine (hfirst.bind hothers).congr ⟨?_, ?_⟩
      · rintro ⟨hone, hall⟩ sel sels' p k' i x hcons hmem hsel hchild hx
        rcases List.mem_cons.mp hmem with heq | hmem
        · cases heq
          exact hone sel sels' p x hcons hsel hchild hx
        · exact hall sel sels' p k' i x hcons hmem hsel hchild hx
      · intro hall
        constructor
        · intro sel sels' p x hcons hsel hchild hx
          exact hall sel sels' p k j x hcons List.mem_cons_self hsel hchild hx
        · intro sel sels' p k' i x hcons hmem hsel hchild hx
          exact hall sel sels' p k' i x hcons (List.mem_cons_of_mem _ hmem) hsel hchild hx

theorem decides_elements (horder : order.Restricting env kw v) (hkw : kw ∈ constraints) :
    ∀ (a : List (Json D)) {sels : List Sel} {s s' : Json D} {size i : ℕ}
      {a' : List (Json D)}, Tighter env kw v c sels s s' →
    conformElements env order s' size i a = some a' →
    Decides (∀ sel sels' p n j x, sels = sel :: sels' → i + n < size → a[n]? = some j →
        s.selectIndex (toInt32 ↑(i + n)) = some sel → s.child sel = some p →
        Governs order p sels' j x → Allowed kw v c x.type)
      (conformElements env order s size i a) a'
  | [], sels, s, s', size, i, a', h, ha => by
      cases ha
      exact (decides_some _).congr (iff_of_true trivial nofun)
  | j :: rest, sels, s, s', size, i, a', h, ha => by
      by_cases hi : i < size
      · have hassoc : ∀ q : Json D, conformElements env order q size i (j :: rest) =
            (((q.selectIndex (toInt32 i)).bind q.child).bind fun p =>
              conform env order p j).bind fun j' =>
                (conformElements env order q size (i + 1) rest).bind fun rest' =>
                  some (j' :: rest') := by
          intro q
          rw [conformElements, if_pos hi, childIndex, Option.bind_assoc]
          rfl
        rw [hassoc, selectIndex_congr (h.isSome_child hkw) (h.items hkw)] at ha
        rw [hassoc]
        obtain ⟨j', hj', hrest⟩ := Option.bind_eq_some_iff.mp ha
        obtain ⟨rest', hrest', hreturn⟩ := Option.bind_eq_some_iff.mp hrest
        have hfirst := h.decides_child hkw (fun h hj => decides_conform horder hkw j h hj) hj'
        have hothers := Decides.map (f := fun rest' => some (j' :: rest'))
          (decides_elements horder hkw rest h hrest') hreturn
        refine (hfirst.bind hothers).congr ⟨?_, ?_⟩
        · rintro ⟨hone, hall⟩ sel sels' p n x₀ x hcons hn hmem hsel hchild hx
          cases n with
          | zero =>
              cases hmem
              exact hone sel sels' p x hcons hsel hchild hx
          | succ n =>
              rw [show i + (n + 1) = i + 1 + n by omega] at hn hsel
              exact hall sel sels' p n x₀ x hcons hn hmem hsel hchild hx
        · intro hall
          constructor
          · intro sel sels' p x hcons hsel hchild hx
            exact hall sel sels' p 0 j x hcons hi rfl hsel hchild hx
          · intro sel sels' p n x₀ x hcons hn hmem hsel hchild hx
            rw [show i + 1 + n = i + (n + 1) by omega] at hn hsel
            exact hall sel sels' p (n + 1) x₀ x hcons hn hmem hsel hchild hx
      · rw [conformElements, if_neg hi] at ha ⊢
        cases ha
        refine (decides_some _).congr (iff_of_true trivial ?_)
        intro sel sels' p n x₀ x hcons hn
        omega

end

end Positions

section Schemas

variable {env : Env D} {kw : String} {v T c : Json D} {sels : List Sel}

/-- Both ways to use a schema, for a document that is read as the tree `j`. -/
theorem decides_bind (hkw : kw ∈ constraints) {order : Order D}
    (horder : order.Restricting env kw v) (hT : WellTyped T) (hc : T.real sels = some c)
    (hnew : c.member kw = none) {o : Option (Json D)}
    (h : (o.bind (conform env order (T.modify (paths sels) (addKeyword kw v)))).isSome =
      true) :
    (o.bind (conform env order T)).isSome = true ↔
      ∀ j x, o = some j → Governs order T sels j x → Allowed kw v c x.type := by
  cases o with
  | none => cases h
  | some j =>
      rw [Option.bind_some] at h ⊢
      obtain ⟨j', hj'⟩ := Option.isSome_iff_exists.mp h
      have hobject : c.type = .object := (hT sels c (sub_of_real hc)).object
      have htighter : Tighter env kw v c sels T (T.modify (paths sels) (addKeyword kw v)) :=
        (tighter_modify hc (added_addKeyword v hobject hnew)).1
      rw [(decides_conform horder hkw j htighter hj').isSome]
      constructor
      · rintro hall i x hi hx
        cases hi
        exact hall x hx
      · exact fun hall x hx => hall j x rfl hx

/-- A keyword is added to a sub-schema. What the new schema accepts, the old one accepts if
and only if every value that the sub-schema is used for is of a type in `type` or in
`disallow`, where `disallow` is added next to `type`. -/
theorem constraint_restricts_iff (hformat : env.defaultFormat = "") (hkw : kw ∈ constraints)
    (hT : WellTyped T) (hc : T.real sels = some c) (hnew : c.member kw = none) (v : Json D)
    (d : Doc) :
    ((streamed env (T.modify (paths sels) (addKeyword kw v)) d).isSome = true →
      ((streamed env T d).isSome = true ↔
        ∀ j x, read env.throwing none d = some j →
          Governs (streaming env.throwing) T sels j x → Allowed kw v c x.type)) ∧
    ((validated env (T.modify (paths sels) (addKeyword kw v)) d).isSome = true →
      ((validated env T d).isSome = true ↔
        ∀ j x, read env.throwing none d = some j →
          Governs (whole env.throwing) T sels j x → Allowed kw v c x.type)) := by
  have hthrowing : env.throwing.defaultFormat = "" := hformat
  simp only [streamed_eq_conform, validated_eq_conform]
  exact ⟨decides_bind hkw (restricting_streaming hkw hthrowing v) hT hc hnew,
    decides_bind hkw (restricting_whole hkw hthrowing v) hT hc hnew⟩

/-- The items of an array are booleans, and `null` is disallowed. -/
theorem constraint_restricts_booleans :
    (streamed wholeNumbers booleanItems (.array [.boolean true])).isSome = true := by
  have hsample : IsSample 0 (booleanItems : Json ℤ) := Or.inl rfl
  have hreal : (booleanItems : Json ℤ).real [.items] = some booleanSchema := rfl
  have hformat : wholeNumbers.defaultFormat = "" := rfl
  have hkw : "disallow" ∈ constraints := by decide
  have hiff := (constraint_restricts_iff hformat hkw hsample.wellTyped hreal rfl
    (.string "null") (.array [.boolean true])).1
  have haccepted : (streamed wholeNumbers ((booleanItems : Json ℤ).modify (paths [.items])
      (addKeyword "disallow" (.string "null"))) (.array [.boolean true])).isSome = true := by
    rw [streamed_eq_read]
    rfl
  refine (hiff haccepted).mpr fun j x hread hx _ t ht => ?_
  cases hread
  cases ht
  cases hx with
  | element hi hmem hsel hchild hx =>
      rw [governs_nil] at hx
      subst hx
      rename_i i
      cases i with
      | zero =>
          cases hmem
          exact .inl rfl
      | succ i => cases hmem

/-- The items of an array are booleans. A string is rejected, and accepted when objects are
disallowed. -/
theorem constraint_widens :
    WellTyped (booleanItems : Json ℤ) ∧
    streamed wholeNumbers booleanItems (.array [.string "x"]) = none ∧
    (streamed wholeNumbers ((booleanItems : Json ℤ).modify (paths [.items])
      (addKeyword "disallow" (.string "object"))) (.array [.string "x"])).isSome = true := by
  have hsample : IsSample 0 (booleanItems : Json ℤ) := Or.inl rfl
  refine ⟨hsample.wellTyped, ?_, ?_⟩
  · rw [streamed_eq_read]
    rfl
  · rw [streamed_eq_read]
    rfl

end Schemas

end Json

end Gearbox
