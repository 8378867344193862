import Mathlib.Data.List.Chain
import Mathlib.Data.List.Infix
import Gearbox.Rewriting.Words
import Gearbox.Texts.Cut

/-!
# Tokens in a text

A token is a name between `%{` and `}`. Perl looks for the tokens from the left, and continues
behind a token that it has found. The text is a word whose letters are the tokens and the other
characters.

When the tokens are replaced, the tokens of the new text are those of the values, as long as no
value and no `%` before a token is the beginning of another token. This is the case, too, if every
`{` belongs to a token.
-/

namespace Gearbox

namespace Service

open Texts Rewriting

/-- A character outside of the tokens, or a token. -/
inductive Letter where
  | char (c : Char)
  | token (name : List Char)
  deriving DecidableEq

def Letter.isToken : Letter → Bool
  | .char _ => false
  | .token _ => true

/-- A token at the beginning of the text, as its name and the text behind it: a match of
`%{([^}]+)}`. -/
def token? : List Char → Option (List Char × List Char)
  | '%' :: '{' :: rest => (cut '}' rest).filter fun r => r.1 ≠ []
  | _ => none

/-- The letters of a text, after some characters that belong to the token before. -/
def lettersFrom : ℕ → List Char → List Letter
  | _, [] => []
  | 0, c :: rest =>
    match token? (c :: rest) with
    | some (name, _) => .token name :: lettersFrom (name.length + 2) rest
    | none => .char c :: lettersFrom 0 rest
  | skip + 1, _ :: rest => lettersFrom skip rest

/-- The letters of a text. -/
def letters (text : List Char) : List Letter :=
  lettersFrom 0 text

/-- The characters of a letter. -/
def Letter.chars : Letter → List Char
  | .char c => [c]
  | .token name => '%' :: '{' :: (name ++ ['}'])

section Letters

variable {text name rest : List Char} {c : Char}

theorem lettersFrom_eq (skip : ℕ) (text : List Char) :
    lettersFrom skip text = letters (text.drop skip) := by
  induction skip generalizing text with
  | zero => rfl
  | succ skip ih =>
      cases text with
      | nil => rfl
      | cons c rest => exact ih rest

@[simp] theorem letters_nil : letters [] = [] := rfl

theorem token_of_ne (hc : c ≠ '%') (rest : List Char) : token? (c :: rest) = none := by
  unfold token?
  split
  · rename_i heq
    cases heq
    exact absurd rfl hc
  · rfl

theorem token_percent_of_ne (hc : c ≠ '{') (rest : List Char) :
    token? ('%' :: c :: rest) = none := by
  unfold token?
  split
  · rename_i heq
    cases heq
    exact absurd rfl hc
  · rfl

/-- What begins with `%{` is a token if a name and `}` follow. -/
theorem token_brace_eq_none : token? ('%' :: '{' :: rest) = none ↔
    '}' ∉ rest ∨ rest.head? = some '}' := by
  rw [token?]
  cases rest with
  | nil => simp [cut]
  | cons c rest =>
      by_cases hc : c = '}'
      · subst hc
        simp [cut]
      · have hne : ¬ '}' = c := fun h => hc h.symm
        by_cases hmem : '}' ∈ rest
        · simp [cut, hmem, hc]
        · simp [cut, hmem, hc, hne]

theorem eq_of_token (h : token? text = some (name, rest)) :
    text = '%' :: '{' :: (name ++ '}' :: rest) := by
  unfold token? at h
  split at h
  · rename_i text'
    obtain ⟨hcut, -⟩ := Option.filter_eq_some_iff.mp h
    rw [eq_of_cut hcut]
  · cases h

theorem suffix_of_token (h : token? text = some (name, rest)) : rest <:+ text := by
  rw [eq_of_token h]
  exact ⟨'%' :: '{' :: (name ++ ['}']), by simp⟩

theorem name_of_token (h : token? text = some (name, rest)) : name ≠ [] ∧ '}' ∉ name := by
  unfold token? at h
  split at h
  · obtain ⟨hcut, hne⟩ := Option.filter_eq_some_iff.mp h
    exact ⟨by simpa using hne, notMem_of_cut hcut⟩
  · cases h

theorem token_of_name (hne : name ≠ []) (hname : '}' ∉ name) (rest : List Char) :
    token? ((Letter.token name).chars ++ rest) = some (name, rest) := by
  have hchars : (Letter.token name).chars ++ rest = '%' :: '{' :: (name ++ '}' :: rest) := by
    simp [Letter.chars]
  rw [hchars, token?, cut_append hname]
  exact Option.filter_eq_some_iff.mpr ⟨rfl, by simpa using hne⟩

theorem letters_of_token (h : token? text = some (name, rest)) :
    letters text = .token name :: letters rest := by
  obtain rfl := eq_of_token h
  have hrest : List.drop (name.length + 2) ('{' :: (name ++ '}' :: rest)) = rest := by
    have hsplit : '{' :: (name ++ '}' :: rest) = ('{' :: (name ++ ['}'])) ++ rest := by simp
    rw [hsplit]
    exact List.drop_left' (by simp)
  rw [letters, lettersFrom, h]
  dsimp only
  rw [lettersFrom_eq, hrest]

theorem letters_of_not_token (h : token? (c :: rest) = none) :
    letters (c :: rest) = .char c :: letters rest := by
  rw [letters, lettersFrom, h]
  rfl

/-- A text is empty, it begins with a token, or it begins with another character. -/
theorem letters_induct {P : List Char → Prop} (nil : P [])
    (token : ∀ text name rest, token? text = some (name, rest) → P rest → P text)
    (char : ∀ c rest, token? (c :: rest) = none → P rest → P (c :: rest)) (text : List Char) :
    P text := by
  induction hlength : text.length using Nat.strongRecOn generalizing text with
  | ind n ih =>
      cases text with
      | nil => exact nil
      | cons c rest =>
          cases htoken : token? (c :: rest) with
          | none => exact char c rest htoken (ih rest.length (by simp at hlength; omega) rest rfl)
          | some found =>
              obtain ⟨name, after⟩ := found
              have hlen := congrArg List.length (eq_of_token htoken)
              simp only [List.length_cons, List.length_append] at hlen hlength
              exact token _ name after htoken (ih after.length (by omega) after rfl)

/-- The letters make up the text. -/
theorem flatMap_letters (text : List Char) : (letters text).flatMap Letter.chars = text := by
  induction text using letters_induct with
  | nil => rfl
  | token text name rest htoken ih =>
      rw [letters_of_token htoken, List.flatMap_cons, ih, eq_of_token htoken]
      simp [Letter.chars]
  | char c rest htoken ih =>
      rw [letters_of_not_token htoken, List.flatMap_cons, ih]
      rfl

theorem letters_inj {text' : List Char} : letters text = letters text' ↔ text = text' := by
  constructor
  · intro h
    rw [← flatMap_letters text, h, flatMap_letters]
  · exact congrArg letters

end Letters

section Pending

/-- The text is the beginning of a token. -/
def pending : List Char → Bool
  | ['%'] => true
  | '%' :: '{' :: name => '}' ∉ name
  | _ => false

/-- The text does not end with the beginning of a token. -/
def Closed (text : List Char) : Prop :=
  ∀ s ∈ text.tails, pending s = false

instance (text : List Char) : Decidable (Closed text) :=
  inferInstanceAs (Decidable (∀ s ∈ text.tails, pending s = false))

variable {text name rest : List Char} {c : Char}

theorem Closed.suffix {s : List Char} (h : Closed text) (hs : s <:+ text) : Closed s :=
  fun t ht => h t ((List.mem_tails t text).mpr (((List.mem_tails t s).mp ht).trans hs))

theorem Closed.tail (h : Closed (c :: rest)) : Closed rest :=
  h.suffix (List.suffix_cons c rest)

theorem Closed.not_pending (h : Closed text) : pending text = false :=
  h text ((List.mem_tails text text).mpr List.suffix_rfl)

theorem token_append (h : token? text = some (name, rest)) (after : List Char) :
    token? (text ++ after) = some (name, rest ++ after) := by
  unfold token? at h
  split at h
  · obtain ⟨hcut, hne⟩ := Option.filter_eq_some_iff.mp h
    rw [List.cons_append, List.cons_append, token?, cut_append_of_cut hcut]
    exact Option.filter_eq_some_iff.mpr ⟨rfl, hne⟩
  · cases h

/-- What comes behind a closed text does not make a token of its beginning. -/
theorem token_append_of_closed (h : token? (c :: rest) = none) (hclosed : Closed (c :: rest))
    (after : List Char) : token? (c :: (rest ++ after)) = none := by
  have hpending := hclosed.not_pending
  by_cases hc : c = '%'
  · subst hc
    cases rest with
    | nil => cases hpending
    | cons d rest =>
        by_cases hd : d = '{'
        · subst hd
          have hmem : '}' ∈ rest := by simpa [pending] using hpending
          rcases token_brace_eq_none.mp h with hnot | hhead
          · exact absurd hmem hnot
          · have hhead' : (rest ++ after).head? = some '}' := by
              rw [List.head?_append, hhead]
              rfl
            exact token_brace_eq_none.mpr (.inr hhead')
        · exact token_percent_of_ne hd (rest ++ after)
  · exact token_of_ne hc (rest ++ after)

/-- The letters of a closed text stay the same when something follows. -/
theorem letters_append (h : Closed text) (after : List Char) :
    letters (text ++ after) = letters text ++ letters after := by
  induction text using letters_induct with
  | nil => rfl
  | token text name rest htoken ih =>
      have hrest := h.suffix (suffix_of_token htoken)
      rw [letters_of_token (token_append htoken after), letters_of_token htoken, ih hrest]
      rfl
  | char c rest htoken ih =>
      have hafter := token_append_of_closed htoken h after
      rw [List.cons_append, letters_of_not_token hafter, letters_of_not_token htoken, ih h.tail]
      rfl

theorem letters_eq_nil_iff : letters text = [] ↔ text = [] := by
  rw [← letters_nil, letters_inj]

theorem Closed.getLast?_letters (h : Closed text) :
    (letters text).getLast? ≠ some (.char '%') := by
  induction text using letters_induct with
  | nil => nofun
  | token text name rest htoken ih =>
      have hrest := ih (h.suffix (suffix_of_token htoken))
      rw [letters_of_token htoken, List.getLast?_cons]
      cases hlast : (letters rest).getLast? with
      | none => simp
      | some x =>
          rw [hlast] at hrest
          exact hrest
  | char c rest htoken ih =>
      have hrest := ih h.tail
      rw [letters_of_not_token htoken, List.getLast?_cons]
      cases hlast : (letters rest).getLast? with
      | none =>
          have hnil := letters_eq_nil_iff.mp (List.getLast?_eq_none_iff.mp hlast)
          subst hnil
          rintro hc
          cases hc
          exact nomatch h.not_pending
      | some x =>
          rw [hlast] at hrest
          exact hrest

end Pending

section Replacement

/-- What one letter becomes. -/
def Letter.expand (value : List Char → List Char) : Letter → List Char
  | .char c => [c]
  | .token name => value name

/-- The text in which every token is replaced by its value. -/
def expand (value : List Char → List Char) (text : List Char) : List Char :=
  (letters text).flatMap (Letter.expand value)

/-- The letters of what one letter becomes. -/
def Letter.word (value : List Char → List Char) : Letter → List Letter
  | .char c => [.char c]
  | .token name => letters (value name)

/-- A token is not directly behind a `%`. -/
def Apart (x y : Letter) : Prop :=
  ¬ (x = .char '%' ∧ ∃ name, y = .token name)

instance (x y : Letter) : Decidable (Apart x y) :=
  match x, y with
  | .char c, .token name => decidable_of_iff (c ≠ '%') (by simp [Apart])
  | .token name, y => isTrue (by simp [Apart])
  | x, .char c => isTrue (by simp [Apart])

/-- No token of the text is directly behind a `%`. -/
def Clear (text : List Char) : Prop :=
  (letters text).IsChain Apart

instance (text : List Char) : Decidable (Clear text) :=
  inferInstanceAs (Decidable ((letters text).IsChain Apart))

variable {value : List Char → List Char} {text name rest : List Char} {c : Char}

theorem expand_of_token (h : token? text = some (name, rest)) :
    expand value text = value name ++ expand value rest := by
  rw [expand, letters_of_token h]
  rfl

theorem expand_of_not_token (h : token? (c :: rest) = none) :
    expand value (c :: rest) = c :: expand value rest := by
  rw [expand, letters_of_not_token h]
  rfl

/-- A text without `}` has no tokens. -/
theorem expand_of_notMem (h : '}' ∉ text) : expand value text = text := by
  induction text using letters_induct with
  | nil => rfl
  | token text name rest htoken ih =>
      rw [eq_of_token htoken] at h
      simp at h
  | char c rest htoken ih =>
      rw [expand_of_not_token htoken, ih fun hmem => h (List.mem_cons_of_mem c hmem)]

/-- The replacement of the tokens of the rest does not make a token of the beginning. -/
theorem token_cons_expand (h : token? (c :: rest) = none) (hclear : Clear (c :: rest)) :
    token? (c :: expand value rest) = none := by
  by_cases hc : c = '%'
  · subst hc
    rw [Clear, letters_of_not_token h] at hclear
    cases hrest : token? rest with
    | some found =>
        obtain ⟨name, after⟩ := found
        rw [letters_of_token hrest] at hclear
        exact absurd ⟨rfl, name, rfl⟩ (List.isChain_cons_cons.mp hclear).1
    | none =>
        cases rest with
        | nil => rfl
        | cons d rest =>
            rw [expand_of_not_token hrest]
            by_cases hd : d = '{'
            · subst hd
              refine token_brace_eq_none.mpr ?_
              rcases token_brace_eq_none.mp h with hnot | hhead
              · rw [expand_of_notMem hnot]
                exact .inl hnot
              · obtain ⟨after, rfl⟩ := List.head?_eq_some_iff.mp hhead
                rw [expand_of_not_token (token_of_ne (by decide) after)]
                exact .inr rfl
            · exact token_percent_of_ne hd _
  · exact token_of_ne hc _

/-- The tokens of the new text are the tokens of the values. -/
theorem letters_expand (hclear : Clear text)
    (hclosed : ∀ name, .token name ∈ letters text → Closed (value name)) :
    letters (expand value text) = step (Letter.word value) (letters text) := by
  induction text using letters_induct with
  | nil => rfl
  | token text name rest htoken ih =>
      have hletters := letters_of_token htoken
      rw [hletters] at hclosed
      rw [Clear, hletters] at hclear
      have hrest := ih hclear.tail fun n hn => hclosed n (List.mem_cons_of_mem _ hn)
      rw [expand_of_token htoken, letters_append (hclosed name List.mem_cons_self), hrest,
        hletters]
      rfl
  | char c rest htoken ih =>
      have hletters := letters_of_not_token htoken
      have hnext : token? (c :: expand value rest) = none := token_cons_expand htoken hclear
      rw [hletters] at hclosed
      rw [Clear, hletters] at hclear
      have hrest := ih hclear.tail fun n hn => hclosed n (List.mem_cons_of_mem _ hn)
      rw [expand_of_not_token htoken, letters_of_not_token hnext, hrest, hletters]
      rfl

/-- The names of the tokens of a text are names. -/
theorem name_of_mem_letters (h : .token name ∈ letters text) : name ≠ [] ∧ '}' ∉ name := by
  induction text using letters_induct with
  | nil => cases h
  | token text name' rest htoken ih =>
      rw [letters_of_token htoken] at h
      rcases List.mem_cons.mp h with hname | hrest
      · cases hname
        exact name_of_token htoken
      · exact ih hrest
  | char c rest htoken ih =>
      rw [letters_of_not_token htoken] at h
      rcases List.mem_cons.mp h with hname | hrest
      · cases hname
      · exact ih hrest

/-- The letters of a text that is made up of letters, if every `{` belongs to a token. -/
theorem letters_flatMap_chars {w : List Letter} (hbrace : .char '{' ∉ w)
    (hnames : ∀ name, .token name ∈ w → name ≠ [] ∧ '}' ∉ name) :
    letters (w.flatMap Letter.chars) = w := by
  induction w with
  | nil => rfl
  | cons x w ih =>
      have hrest := ih (fun h => hbrace (List.mem_cons_of_mem x h))
        fun n hn => hnames n (List.mem_cons_of_mem x hn)
      rw [List.flatMap_cons]
      cases x with
      | token name =>
          obtain ⟨hne, hname⟩ := hnames name List.mem_cons_self
          rw [letters_of_token (token_of_name hne hname _), hrest]
      | char c =>
          have hnot : token? (c :: w.flatMap Letter.chars) = none := by
            by_cases hc : c = '%'
            · subst hc
              cases w with
              | nil => rfl
              | cons y w =>
                  cases y with
                  | token name => exact token_percent_of_ne (by decide) _
                  | char d =>
                      refine token_percent_of_ne ?_ _
                      rintro rfl
                      exact hbrace (List.mem_cons_of_mem _ List.mem_cons_self)
            · exact token_of_ne hc _
          have hchars : (Letter.char c).chars ++ w.flatMap Letter.chars =
              c :: w.flatMap Letter.chars := rfl
          rw [hchars, letters_of_not_token hnot, hrest]

/-- The new text is made up of the letters of the values. -/
theorem expand_eq (value : List Char → List Char) (text : List Char) :
    expand value text = (step (Letter.word value) (letters text)).flatMap Letter.chars := by
  rw [expand, step, List.flatMap_assoc]
  congr 1
  funext x
  cases x with
  | char c => rfl
  | token name => exact (flatMap_letters (value name)).symm

/-- The tokens of the new text, if every `{` of the new text belongs to a token of a value. -/
theorem letters_expand_of_brace
    (hbrace : .char '{' ∉ step (Letter.word value) (letters text)) :
    letters (expand value text) = step (Letter.word value) (letters text) := by
  rw [expand_eq, letters_flatMap_chars hbrace]
  intro name hname
  obtain ⟨x, -, hmem⟩ := List.mem_flatMap.mp hname
  cases x with
  | char c =>
      cases List.mem_singleton.mp hmem
  | token n => exact name_of_mem_letters hmem

/-- A round keeps the tokens apart from `%`. -/
theorem isChain_step {w : List Letter} (hw : w.IsChain Apart)
    (hvalues : ∀ name, .token name ∈ w → Clear (value name) ∧ Closed (value name)) :
    (step (Letter.word value) w).IsChain Apart := by
  induction w with
  | nil => exact List.isChain_nil
  | cons x w ih =>
      have hrest := ih hw.tail fun n hn => hvalues n (List.mem_cons_of_mem x hn)
      have hcons : step (Letter.word value) (x :: w) =
          x.word value ++ step (Letter.word value) w := List.flatMap_cons
      rw [hcons, List.isChain_append]
      cases x with
      | token name =>
          obtain ⟨hclear, hclosed⟩ := hvalues name List.mem_cons_self
          refine ⟨hclear, hrest, fun a ha b hb => ?_⟩
          rintro ⟨rfl, -⟩
          exact hclosed.getLast?_letters ha
      | char c =>
          refine ⟨List.isChain_singleton _, hrest, fun a ha b hb => ?_⟩
          cases ha
          rintro ⟨hpercent, name, rfl⟩
          cases w with
          | nil => cases hb
          | cons y w =>
              have hapart := (List.isChain_cons_cons.mp hw).1
              cases y with
              | token n => exact hapart ⟨hpercent, n, rfl⟩
              | char d => cases hb

end Replacement

end Service

end Gearbox
