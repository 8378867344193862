import Gearbox.Service.Builder
import Gearbox.Service.Tokens

/-!
# The variables of a service

`new_from_spec` replaces the tokens of five variables by what the specification of the service and
the configuration have under their names, round by round. The loop over a variable ends when
nothing was replaced, when a name cannot be looked up, or when a round does not change the text.

This ends for a token whose value leads to no token any more, and for a token whose value is the
token itself. It does not end for two values that refer to each other, since every round changes
the text, nor for a value that has its own token next to other characters.
-/

namespace Gearbox

namespace Service

open Texts Rewriting

section Values

/-- A value as `JSON::PP` reads it, with what Perl prints of it. The content of an array is not
read. -/
inductive Value where
  | undef
  | string (text : String)
  | number (text : String) (nonzero : Bool)
  | bool (b : Bool)
  | array (address : String)
  | hash (address : String) (members : List (String × Value))

/-- The value as a string. -/
def Value.text : Value → String
  | .undef => ""
  | .string text => text
  | .number text _ => text
  | .bool b => if b then "1" else "0"
  | .array address => address
  | .hash address _ => address

/-- The value as a condition. -/
def Value.isTrue : Value → Bool
  | .undef => false
  | .string text => ¬ isFalse text
  | .number _ nonzero => nonzero
  | .bool b => b
  | .array _ => true
  | .hash _ _ => true

/-- The message about a string that is used as a reference. -/
def strictRefs (text : String) : String :=
  "Can't use string (\"" ++ String.ofList (text.toList.take 32) ++ "\"" ++
    (if 32 < text.length then "..." else "") ++ ") as a HASH ref while \"strict refs\" in use"

/-- The member of a hash, if it exists. An undefined value becomes a hash without members. -/
def Value.fetch (key : String) : Value → Except String (Option Value)
  | .undef => .ok none
  | .string text => .error (strictRefs text)
  | .number text _ => .error (strictRefs text)
  | .bool _ => .error "Not a HASH reference"
  | .array _ => .error "Not a HASH reference"
  | .hash _ members => .ok (members.lookup key)

/-- The hash with another member, which hides the old one. -/
def Value.store : Value → String → Value → Value
  | .hash address members, key, v => .hash address ((key, v) :: members)
  | other, _, _ => other

end Values

section Lookup

/-- `split /[.]/`, which drops the empty parts at the end. -/
def splitDots (name : List Char) : List String :=
  ((name.splitOn '.').reverse.dropWhile (· = [])).reverse.map String.ofList

/-- The member of a member, and so on. -/
def Value.walk : Value → List String → Except String (Option Value)
  | cur, [] => .ok (some cur)
  | cur, part :: parts => do
    match ← cur.fetch part with
    | some next => next.walk parts
    | none => return none

/-- `replace_var` -/
def replaceVar (spec cfg : Value) (name : List Char) : Except String Value := do
  if let some v ← spec.fetch (String.ofList name) then
    return v
  if let some v ← cfg.fetch (String.ofList name) then
    return v
  if '.' ∈ name then
    if let some v ← spec.walk (splitDots name) then
      return v
    if let some v ← cfg.walk (splitDots name) then
      return v
  throw ("Failed to fined replacement token for %\x7b" ++ String.ofList name ++ "\x7d in spec")

/-- What a token is replaced by. -/
def replacement (spec cfg : Value) (name : List Char) : Except String (List Char) := do
  return (← replaceVar spec cfg name).text.toList

end Lookup

section Loop

variable (replace : List Char → Except String (List Char))

/-- The text after a round. -/
def substitute : List Letter → Except String (List Char)
  | [] => .ok []
  | .char c :: rest => do return c :: (← substitute rest)
  | .token name :: rest => do
    let v ← replace name
    return v ++ (← substitute rest)

/-- The loop over a variable, at most `fuel` rounds of it. -/
def loop : ℕ → List Char → List Char → Option (Except String (List Char))
  | 0, _, _ => none
  | fuel + 1, prev, var =>
    if (letters var).any Letter.isToken then
      match substitute replace (letters var) with
      | .error e => some (.error e)
      | .ok var' => if prev = var' then some (.ok var') else loop fuel var' var'
    else
      some (.ok var)

/-- The loops over the variables, one after the other. -/
def substituteAll (fuel : ℕ) : List (List Char) → Option (Except String (List String))
  | [] => some (.ok [])
  | text :: rest =>
    match loop replace fuel text text with
    | none => none
    | some (.error e) => some (.error e)
    | some (.ok text') =>
      (substituteAll fuel rest).map fun r => r.map fun texts => String.ofList text' :: texts

end Loop

section Specification

/-- The addresses of the hash of the parameters, and of a hash that is made for `log`. -/
structure Addresses where
  params : String
  log : String

/-- The command of the logger, and the configuration after it was looked for: to read a member of
`log` makes a hash of it if it is not defined. -/
def logCommand (a : Addresses) (given cfg : Value) : Except String (Value × Value) := do
  if given.isTrue then
    return (given, cfg)
  let own := (← cfg.fetch "logcmd").getD .undef
  if own.isTrue then
    return (own, cfg)
  let log := (← cfg.fetch "log").getD .undef
  let cmd := (← log.fetch "cmd").getD .undef
  let cfg := match log with
    | .undef => cfg.store "log" (.hash a.log [])
    | _ => cfg
  return (if cmd.isTrue then cmd else .string "", cfg)

/-- What `new_from_spec` has before the loops. -/
structure Prepared where
  spec : Value
  cfg : Value
  /-- the prefix, the count, the user, the command and the command of the logger -/
  vars : List Value

/-- The part of `new_from_spec` before the loops. -/
def prepare (a : Addresses) (params : List (String × Value)) : Except String Prepared := do
  let get := fun key => (params.lookup key).getD .undef
  let orElse := fun (v : Value) (text : String) => if v.isTrue then v else .string text
  if ¬ (get "name").isTrue then
    throw "Need a name"
  if ¬ (get "command").isTrue then
    throw "Need a command"
  if ¬ (get "cfg").isTrue then
    throw "Need a cfg: the complete config for replacing tokens"
  let count := match get "count" with
    | .undef => .number "1" true
    | v => v
  let (logcmd, cfg) ← logCommand a (get "logcmd") (get "cfg")
  return {
    spec := (Value.hash a.params params).store "cfg" cfg
    cfg := cfg
    vars := [orElse (get "prefix") "", count, orElse (get "user") "root", get "command",
      logcmd] }

/-- The texts of the variables. -/
def Prepared.texts (p : Prepared) : List (List Char) :=
  p.vars.map fun v => v.text.toList

/-- `new_from_spec` up to the variables after the loops, if each loop makes at most `fuel`
rounds. -/
def newFromSpec (a : Addresses) (params : List (String × Value)) (fuel : ℕ) :
    Option (Except String (List String)) :=
  match prepare a params with
  | .error e => some (.error e)
  | .ok p => substituteAll (replacement p.spec p.cfg) fuel p.texts

end Specification

section Words

variable (replace : List Char → Except String (List Char))

/-- The value of a name, or nothing if it cannot be looked up. -/
def valueOf (name : List Char) : List Char :=
  (replace name).toOption.getD []

/-- The word of a letter. -/
abbrev word : Letter → List Letter :=
  Letter.word (valueOf replace)

/-- The text has the token, or the value of a token that is reached has it. -/
def Refers (text name : List Char) : Prop :=
  Reaches (word replace) (letters text) (.token name)

/-- A token is reached that cannot be looked up. -/
def Unknown (text : List Char) : Prop :=
  ∃ name, Refers replace text name ∧ ∃ e, replace name = .error e

/-- All tokens of the text settle. -/
def Settled (text : List Char) : Prop :=
  ∀ name, .token name ∈ letters text → Settles (word replace) (.token name)

/-- No token is put together of pieces: no value that is reached and no `%` before a token is the
beginning of another token, or every `{` that is reached belongs to a token. -/
def Uncut (text : List Char) : Prop :=
  (Clear text ∧ ∀ name, Refers replace text name →
    Clear (valueOf replace name) ∧ Closed (valueOf replace name)) ∨
  ¬ Reaches (word replace) (letters text) (.char '{')

/-- All tokens of the text can be looked up. -/
def Known (text : List Char) : Prop :=
  ∀ name, .token name ∈ letters text → ∃ v, replace name = .ok v

/-- The text leads to an unknown token. Where a token can be put together of pieces, this is seen
from the tokens of the text itself, or from the text after a round. -/
inductive Croaks : List Char → Prop
  | uncut {text : List Char} (huncut : Uncut replace text) (hunknown : Unknown replace text) :
      Croaks text
  | missing {text name : List Char} {e : String} (hcut : ¬ Uncut replace text)
      (hname : .token name ∈ letters text) (herror : replace name = .error e) : Croaks text
  | round {text : List Char} (hcut : ¬ Uncut replace text) (hknown : Known replace text)
      (hchange : text ≠ expand (valueOf replace) text)
      (hnext : Croaks (expand (valueOf replace) text)) : Croaks text

/-- The text leads to a text that a round does not change, and to no unknown token before. -/
inductive Stays : List Char → Prop
  | uncut {text : List Char} (huncut : Uncut replace text) (hsettled : Settled replace text)
      (hknown : ¬ Unknown replace text) : Stays text
  | same {text : List Char} (hcut : ¬ Uncut replace text) (hknown : Known replace text)
      (hsame : text = expand (valueOf replace) text) : Stays text
  | round {text : List Char} (hcut : ¬ Uncut replace text) (hknown : Known replace text)
      (hchange : text ≠ expand (valueOf replace) text)
      (hnext : Stays (expand (valueOf replace) text)) : Stays text

end Words

section Rounds

variable {replace : List Char → Except String (List Char)} {text : List Char}

/-- A round replaces the tokens by their values, if all of them can be looked up. -/
theorem substitute_cases (w : List Letter) :
    (∃ name e, .token name ∈ w ∧ replace name = .error e ∧ substitute replace w = .error e) ∨
      (∀ name, .token name ∈ w → ∃ v, replace name = .ok v) ∧
        substitute replace w = .ok (w.flatMap (Letter.expand (valueOf replace))) := by
  induction w with
  | nil => exact .inr ⟨nofun, rfl⟩
  | cons x w ih =>
      cases x with
      | char c =>
          rcases ih with ⟨name, e, hmem, herror, hw⟩ | ⟨hknown, hw⟩
          · refine .inl ⟨name, e, List.mem_cons_of_mem _ hmem, herror, ?_⟩
            rw [substitute, hw]
            rfl
          · refine .inr ⟨fun name hmem => ?_, ?_⟩
            · rcases List.mem_cons.mp hmem with hname | hmem
              · cases hname
              · exact hknown name hmem
            · rw [substitute, hw]
              rfl
      | token n =>
          cases hn : replace n with
          | error e =>
              refine .inl ⟨n, e, List.mem_cons_self, hn, ?_⟩
              rw [substitute, hn]
              rfl
          | ok v =>
              have hvalue : valueOf replace n = v := by
                rw [valueOf, hn]
                rfl
              rcases ih with ⟨name, e, hmem, herror, hw⟩ | ⟨hknown, hw⟩
              · refine .inl ⟨name, e, List.mem_cons_of_mem _ hmem, herror, ?_⟩
                rw [substitute, hn, hw]
                rfl
              · refine .inr ⟨fun name hmem => ?_, ?_⟩
                · rcases List.mem_cons.mp hmem with hname | hmem
                  · cases hname
                    exact ⟨v, hn⟩
                  · exact hknown name hmem
                · rw [substitute, hn, hw, List.flatMap_cons, Letter.expand, hvalue]
                  rfl

/-- The text is not changed by a round without tokens. -/
theorem expand_of_all_chars {value : List Char → List Char}
    (h : (letters text).any Letter.isToken = false) : expand value text = text := by
  have hexpand : ∀ w : List Letter, w.any Letter.isToken = false →
      w.flatMap (Letter.expand value) = w.flatMap Letter.chars := by
    intro w hw
    induction w with
    | nil => rfl
    | cons x w ih =>
        rw [List.any_cons, Bool.or_eq_false_iff] at hw
        rw [List.flatMap_cons, List.flatMap_cons, ih hw.2]
        cases x with
        | char c => rfl
        | token name => cases hw.1
  rw [expand, hexpand _ h, flatMap_letters]

/-- One round of the loop: it ends with an error, it ends since the text does not change, or it
goes on with the new text. -/
theorem loop_succ (replace : List Char → Except String (List Char)) (fuel : ℕ)
    (text : List Char) :
    (∃ name e, .token name ∈ letters text ∧ replace name = .error e ∧
        loop replace (fuel + 1) text text = some (.error e)) ∨
      Known replace text ∧
        loop replace (fuel + 1) text text =
          if text = expand (valueOf replace) text then some (.ok text)
          else loop replace fuel (expand (valueOf replace) text)
            (expand (valueOf replace) text) := by
  cases htokens : (letters text).any Letter.isToken with
  | false =>
      refine .inr ⟨fun name hmem => ?_, ?_⟩
      · have hany := List.any_eq_true.mpr ⟨_, hmem, (rfl : (Letter.token name).isToken = true)⟩
        rw [htokens] at hany
        cases hany
      · rw [loop, htokens, expand_of_all_chars htokens, if_pos rfl]
        rfl
  | true =>
      rw [loop, htokens, if_pos rfl]
      rcases substitute_cases (letters text) with ⟨name, e, hmem, herror, hw⟩ | ⟨hknown, hw⟩
      · exact .inl ⟨name, e, hmem, herror, by rw [hw]⟩
      · refine .inr ⟨hknown, ?_⟩
        rw [hw]
        dsimp only
        rw [← expand]
        by_cases hsame : text = expand (valueOf replace) text
        · rw [if_pos hsame, if_pos hsame, ← hsame]
        · rw [if_neg hsame, if_neg hsame]

theorem letters_next (h : Uncut replace text) :
    letters (expand (valueOf replace) text) = step (word replace) (letters text) := by
  rcases h with ⟨hclear, hvalues⟩ | hbrace
  · exact letters_expand hclear fun name hname => (hvalues name (.here hname)).2
  · exact letters_expand_of_brace fun hmem => hbrace (Reaches.of_step (.here hmem))

/-- A round keeps the tokens uncut. -/
theorem Uncut.next (h : Uncut replace text) :
    Uncut replace (expand (valueOf replace) text) := by
  have hletters := letters_next h
  rcases h with ⟨hclear, hvalues⟩ | hbrace
  · refine .inl ⟨?_, fun name hname => ?_⟩
    · rw [Clear, hletters]
      exact isChain_step hclear fun name hname => hvalues name (.here hname)
    · rw [Refers, hletters] at hname
      exact hvalues name hname.of_step
  · refine .inr fun hreached => hbrace ?_
    rw [hletters] at hreached
    exact hreached.of_step

theorem step_of_expand (h : Uncut replace text)
    (hsame : text = expand (valueOf replace) text) :
    step (word replace) (letters text) = letters text := by
  rw [← letters_next h, ← hsame]

theorem settled_iff : Settled replace text ↔ Rests (word replace) (letters text) := by
  rw [rests_iff, Settled]
  constructor
  · intro h x hx
    cases x with
    | token name => exact h name hx
    | char c => exact .keeper ⟨[], [], rfl, nofun, nofun⟩
  · exact fun h name hname => h _ hname

end Rounds

section Runs

variable {replace : List Char → Except String (List Char)} {text : List Char}

/-- A loop that ends with an error has come to an unknown token. -/
theorem unknown_of_loop (h : Uncut replace text) {fuel : ℕ} {e : String}
    (hloop : loop replace fuel text text = some (.error e)) : Unknown replace text := by
  induction fuel generalizing text with
  | zero => cases hloop
  | succ fuel ih =>
      rcases loop_succ replace fuel text with
        ⟨name, e', hname, herror, -⟩ | ⟨-, hnext⟩
      · exact ⟨name, .here hname, e', herror⟩
      · rw [hnext] at hloop
        split at hloop
        · cases hloop
        · obtain ⟨name, hname, herror⟩ := ih h.next hloop
          rw [Refers, letters_next h] at hname
          exact ⟨name, hname.of_step, herror⟩

/-- A loop that ends with a text has seen every token that is reached, and all tokens settle. -/
theorem settled_of_loop (h : Uncut replace text) {fuel : ℕ} {text' : List Char}
    (hloop : loop replace fuel text text = some (.ok text')) :
    Settled replace text ∧ ¬ Unknown replace text := by
  induction fuel generalizing text with
  | zero => cases hloop
  | succ fuel ih =>
      rcases loop_succ replace fuel text with
        ⟨name, e, -, -, herror⟩ | ⟨hknown, hnext⟩
      · rw [herror] at hloop
        cases hloop
      · rw [hnext] at hloop
        split at hloop
        · rename_i hsame
          have hfixed := step_of_expand h hsame
          refine ⟨settled_iff.mpr ⟨0, hfixed⟩, ?_⟩
          rintro ⟨name, hname, e, herror⟩
          obtain ⟨v, hv⟩ := hknown name (hname.mem_of_fixed hfixed)
          rw [herror] at hv
          cases hv
        · obtain ⟨hsettled, hunknown⟩ := ih h.next hloop
          rw [settled_iff, letters_next h] at hsettled
          constructor
          · obtain ⟨k, hk⟩ := hsettled
            exact settled_iff.mpr ⟨k + 1, hk⟩
          · rintro ⟨name, hname, e, herror⟩
            rcases hname.mem_or_step with hmem | hstep
            · obtain ⟨v, hv⟩ := hknown name hmem
              rw [herror] at hv
              cases hv
            · rw [← letters_next h] at hstep
              exact hunknown ⟨name, hstep, e, herror⟩

/-- The loop ends when an unknown token appears, or when the text does not change any more. -/
theorem exists_loop_of_round (h : Uncut replace text) (k : ℕ)
    (hk : (∃ name e, .token name ∈ (step (word replace))^[k] (letters text) ∧
        replace name = .error e) ∨
      (step (word replace))^[k + 1] (letters text) = (step (word replace))^[k] (letters text)) :
    ∃ fuel r, loop replace fuel text text = some r := by
  induction k generalizing text with
  | zero =>
      rcases loop_succ replace 0 text with
        ⟨-, e, -, -, herror⟩ | ⟨hknown, hnext⟩
      · exact ⟨1, _, herror⟩
      · rcases hk with ⟨name, e, hname, herror⟩ | hsame
        · obtain ⟨v, hv⟩ := hknown name hname
          rw [herror] at hv
          cases hv
        · have hfixed : letters (expand (valueOf replace) text) = letters text :=
            (letters_next h).trans hsame
          rw [if_pos (letters_inj.mp hfixed).symm] at hnext
          exact ⟨1, _, hnext⟩
  | succ k ih =>
      rw [Function.iterate_succ_apply, Function.iterate_succ_apply, ← letters_next h] at hk
      obtain ⟨fuel, r, hloop⟩ := ih h.next hk
      rcases loop_succ replace fuel text with
        ⟨-, e, -, -, herror⟩ | ⟨-, hnext⟩
      · exact ⟨fuel + 1, _, herror⟩
      · refine ⟨fuel + 1, ?_⟩
        rw [hnext, hloop]
        split
        · exact ⟨_, rfl⟩
        · exact ⟨r, rfl⟩

theorem exists_loop (h : Uncut replace text)
    (hends : Unknown replace text ∨ Settled replace text) :
    ∃ fuel r, loop replace fuel text text = some r := by
  rcases hends with ⟨name, hname, e, herror⟩ | hsettled
  · obtain ⟨k, hk⟩ := reaches_iff.mp hname
    exact exists_loop_of_round h k (.inl ⟨name, e, hk, herror⟩)
  · obtain ⟨k, hk⟩ := settled_iff.mp hsettled
    exact exists_loop_of_round h k (.inr hk)

/-- More rounds than necessary change nothing. -/
theorem loop_mono {fuel fuel' : ℕ} {prev var : List Char} {r : Except String (List Char)}
    (hloop : loop replace fuel prev var = some r) (hle : fuel ≤ fuel') :
    loop replace fuel' prev var = some r := by
  induction fuel generalizing fuel' prev var with
  | zero => cases hloop
  | succ fuel ih =>
      obtain ⟨fuel', rfl⟩ : ∃ n, fuel' = n + 1 := ⟨fuel' - 1, by omega⟩
      rw [loop] at hloop ⊢
      split at hloop
      · rename_i htokens
        rw [if_pos htokens]
        cases hw : substitute replace (letters var) with
        | error e =>
            rw [hw] at hloop
            exact hloop
        | ok var' =>
            rw [hw] at hloop
            dsimp only at hloop ⊢
            split at hloop
            · rename_i hsame
              rw [if_pos hsame]
              exact hloop
            · rename_i hne
              rw [if_neg hne]
              exact ih hloop (by omega)
      · rename_i htokens
        rw [if_neg htokens]
        exact hloop

theorem substituteAll_mono {fuel fuel' : ℕ} {texts : List (List Char)}
    {r : Except String (List String)} (h : substituteAll replace fuel texts = some r)
    (hle : fuel ≤ fuel') : substituteAll replace fuel' texts = some r := by
  induction texts generalizing r with
  | nil => exact h
  | cons text rest ih =>
      rw [substituteAll] at h ⊢
      cases hloop : loop replace fuel text text with
      | none =>
          rw [hloop] at h
          cases h
      | some r₁ =>
          rw [hloop] at h
          rw [loop_mono hloop hle]
          cases r₁ with
          | error e => exact h
          | ok text' =>
              obtain ⟨r₂, hrest, hr⟩ := Option.map_eq_some_iff.mp h
              exact Option.map_eq_some_iff.mpr ⟨r₂, ih hrest, hr⟩

/-- A loop that ends with an error is over a text that leads to an unknown token. -/
theorem croaks_of_loop {fuel : ℕ} {e : String}
    (hloop : loop replace fuel text text = some (.error e)) : Croaks replace text := by
  induction fuel generalizing text with
  | zero => cases hloop
  | succ fuel ih =>
      by_cases huncut : Uncut replace text
      · exact .uncut huncut (unknown_of_loop huncut hloop)
      · rcases loop_succ replace fuel text with
          ⟨name, e', hname, herror, -⟩ | ⟨hknown, hnext⟩
        · exact .missing huncut hname herror
        · rw [hnext] at hloop
          split at hloop
          · cases hloop
          · rename_i hchange
            exact .round huncut hknown hchange (ih hloop)

/-- A loop that ends with a text is over a text that leads to one that stays the same. -/
theorem stays_of_loop {fuel : ℕ} {text' : List Char}
    (hloop : loop replace fuel text text = some (.ok text')) : Stays replace text := by
  induction fuel generalizing text with
  | zero => cases hloop
  | succ fuel ih =>
      by_cases huncut : Uncut replace text
      · obtain ⟨hsettled, hunknown⟩ := settled_of_loop huncut hloop
        exact .uncut huncut hsettled hunknown
      · rcases loop_succ replace fuel text with
          ⟨name, e, -, -, herror⟩ | ⟨hknown, hnext⟩
        · rw [herror] at hloop
          cases hloop
        · rw [hnext] at hloop
          split at hloop
          · rename_i hsame
            exact .same huncut hknown hsame
          · rename_i hchange
            exact .round huncut hknown hchange (ih hloop)

/-- A round of a text with known tokens that changes it. -/
theorem loop_of_known (hknown : Known replace text)
    (hchange : text ≠ expand (valueOf replace) text) (fuel : ℕ) :
    loop replace (fuel + 1) text text =
      loop replace fuel (expand (valueOf replace) text) (expand (valueOf replace) text) := by
  rcases loop_succ replace fuel text with ⟨name, e, hname, herror, -⟩ | ⟨-, hnext⟩
  · obtain ⟨v, hv⟩ := hknown name hname
    rw [herror] at hv
    cases hv
  · rw [hnext, if_neg hchange]

theorem Croaks.exists_loop (h : Croaks replace text) :
    ∃ fuel e, loop replace fuel text text = some (.error e) := by
  induction h with
  | uncut huncut hunknown =>
      obtain ⟨fuel, r, hloop⟩ := Service.exists_loop huncut (.inl hunknown)
      cases r with
      | error e => exact ⟨fuel, e, hloop⟩
      | ok text' => exact absurd hunknown (settled_of_loop huncut hloop).2
  | @missing text name e _ hname herror =>
      rcases loop_succ replace 0 text with ⟨-, e', -, -, hloop⟩ | ⟨hknown, -⟩
      · exact ⟨1, e', hloop⟩
      · obtain ⟨v, hv⟩ := hknown name hname
        rw [herror] at hv
        cases hv
  | round _ hknown hchange _ ih =>
      obtain ⟨fuel, e, hloop⟩ := ih
      exact ⟨fuel + 1, e, (loop_of_known hknown hchange fuel).trans hloop⟩

theorem Stays.exists_loop (h : Stays replace text) :
    ∃ fuel text', loop replace fuel text text = some (.ok text') := by
  induction h with
  | uncut huncut hsettled hunknown =>
      obtain ⟨fuel, r, hloop⟩ := Service.exists_loop huncut (.inr hsettled)
      cases r with
      | error e => exact absurd (unknown_of_loop huncut hloop) hunknown
      | ok text' => exact ⟨fuel, text', hloop⟩
  | @same text _ hknown hsame =>
      rcases loop_succ replace 0 text with ⟨name, e, hname, herror, -⟩ | ⟨-, hnext⟩
      · obtain ⟨v, hv⟩ := hknown name hname
        rw [herror] at hv
        cases hv
      · exact ⟨1, text, hnext.trans (if_pos hsame)⟩
  | round _ hknown hchange _ ih =>
      obtain ⟨fuel, text', hloop⟩ := ih
      exact ⟨fuel + 1, text', (loop_of_known hknown hchange fuel).trans hloop⟩

/-- The loops over the texts end: the first text that leads to an unknown token comes after texts
that lead to one that stays the same, or all of them do. -/
def Finishes (replace : List Char → Except String (List Char)) : List (List Char) → Prop
  | [] => True
  | text :: rest => Croaks replace text ∨ Stays replace text ∧ Finishes replace rest

theorem substituteAll_ends_iff {texts : List (List Char)} :
    (∃ fuel r, substituteAll replace fuel texts = some r) ↔ Finishes replace texts := by
  induction texts with
  | nil => exact ⟨fun _ => trivial, fun _ => ⟨0, _, rfl⟩⟩
  | cons text rest ih =>
      rw [Finishes, ← ih]
      constructor
      · rintro ⟨fuel, r, hr⟩
        rw [substituteAll] at hr
        cases hloop : loop replace fuel text text with
        | none =>
            rw [hloop] at hr
            cases hr
        | some r₁ =>
            rw [hloop] at hr
            cases r₁ with
            | error e => exact .inl (croaks_of_loop hloop)
            | ok text' =>
                obtain ⟨r₂, hr₂, -⟩ := Option.map_eq_some_iff.mp hr
                exact .inr ⟨stays_of_loop hloop, fuel, r₂, hr₂⟩
      · rintro (hcroaks | ⟨hstays, fuel₂, r₂, hr₂⟩)
        · obtain ⟨fuel, e, hloop⟩ := hcroaks.exists_loop
          refine ⟨fuel, .error e, ?_⟩
          rw [substituteAll, hloop]
        · obtain ⟨fuel₁, text', hloop⟩ := hstays.exists_loop
          refine ⟨max fuel₁ fuel₂, ?_⟩
          rw [substituteAll, loop_mono hloop (Nat.le_max_left _ _),
            substituteAll_mono hr₂ (Nat.le_max_right _ _)]
          exact ⟨_, rfl⟩

/-- Up to the first text that reaches an unknown token, no token is put together of pieces. -/
def UncutUntil (replace : List Char → Except String (List Char)) : List (List Char) → Prop
  | [] => True
  | text :: rest => Uncut replace text ∧ (Unknown replace text ∨ UncutUntil replace rest)

/-- Up to the first text that reaches an unknown token, all tokens settle. -/
def SettledUntil (replace : List Char → Except String (List Char)) : List (List Char) → Prop
  | [] => True
  | text :: rest => Unknown replace text ∨ Settled replace text ∧ SettledUntil replace rest

theorem Uncut.croaks_iff (h : Uncut replace text) :
    Croaks replace text ↔ Unknown replace text := by
  refine ⟨fun hcroaks => ?_, .uncut h⟩
  cases hcroaks with
  | uncut _ hunknown => exact hunknown
  | missing hcut _ _ => exact absurd h hcut
  | round hcut _ _ _ => exact absurd h hcut

theorem Uncut.stays_iff (h : Uncut replace text) :
    Stays replace text ↔ Settled replace text ∧ ¬ Unknown replace text := by
  refine ⟨fun hstays => ?_, fun hknown => .uncut h hknown.1 hknown.2⟩
  cases hstays with
  | uncut _ hsettled hunknown => exact ⟨hsettled, hunknown⟩
  | same hcut _ _ => exact absurd h hcut
  | round hcut _ _ _ => exact absurd h hcut

/-- Where no token is put together of pieces, only the values decide. -/
theorem finishes_iff {texts : List (List Char)} (h : UncutUntil replace texts) :
    Finishes replace texts ↔ SettledUntil replace texts := by
  induction texts with
  | nil => exact Iff.rfl
  | cons text rest ih =>
      obtain ⟨huncut, hrest⟩ := h
      rw [Finishes, SettledUntil, huncut.croaks_iff, huncut.stays_iff]
      by_cases hunknown : Unknown replace text
      · exact iff_of_true (.inl hunknown) (.inl hunknown)
      · rw [ih (hrest.resolve_left hunknown), and_assoc]
        simp only [hunknown, not_false_eq_true, true_and]

end Runs

section Services

/-- Up to the first variable that reaches an unknown token, no token of a variable is put together
of pieces. -/
def UncutService (a : Addresses) (params : List (String × Value)) : Prop :=
  ∀ p, prepare a params = .ok p → UncutUntil (replacement p.spec p.cfg) p.texts

/-- Up to the first variable that reaches an unknown token, all tokens of the variables settle. -/
def SettledService (a : Addresses) (params : List (String × Value)) : Prop :=
  ∀ p, prepare a params = .ok p → SettledUntil (replacement p.spec p.cfg) p.texts

/-- The first variable that leads to an unknown token comes after variables that lead to texts
that stay the same, or all of them do. -/
def FinishesService (a : Addresses) (params : List (String × Value)) : Prop :=
  ∀ p, prepare a params = .ok p → Finishes (replacement p.spec p.cfg) p.texts

/-- The loops over the variables end, with texts or with an error, if and only if the variables
before the first one that leads to an unknown token lead to texts that stay the same. Where no
token is put together of pieces, this is the case if and only if their tokens settle. -/
theorem newFromSpec_ends_iff (a : Addresses) (params : List (String × Value)) :
    ((∃ fuel r, newFromSpec a params fuel = some r) ↔ FinishesService a params) ∧
      (UncutService a params → (FinishesService a params ↔ SettledService a params)) := by
  rw [FinishesService, UncutService, SettledService]
  cases hprepare : prepare a params with
  | error e =>
      have hends : newFromSpec a params 0 = some (.error e) := by rw [newFromSpec, hprepare]
      exact ⟨⟨fun _ => nofun, fun _ => ⟨0, _, hends⟩⟩, fun _ => ⟨fun _ => nofun, fun _ => nofun⟩⟩
  | ok p =>
      have hends : ∀ fuel, newFromSpec a params fuel =
          substituteAll (replacement p.spec p.cfg) fuel p.texts := by
        intro fuel
        rw [newFromSpec, hprepare]
      simp only [hends, Except.ok.injEq, forall_eq']
      exact ⟨substituteAll_ends_iff, finishes_iff⟩

/-- The addresses of a run. -/
def someAddresses : Addresses where
  params := "HASH(0x55d0c1)"
  log := "HASH(0x55d0c2)"

/-- A service with a command, for a configuration. -/
def serviceParams (command user : String) (cfg : List (String × Value)) :
    List (String × Value) :=
  [("name", .string "worker"), ("command", .string command), ("user", .string user),
    ("cfg", .hash "HASH(0x55d0c3)" (("logcmd", .string "cronolog") :: cfg))]

/-- What the loops of the service work on. -/
def servicePrepared (command user : String) (cfg : List (String × Value)) : Prepared :=
  let cfg' := .hash "HASH(0x55d0c3)" (("logcmd", .string "cronolog") :: cfg)
  { spec := .hash "HASH(0x55d0c1)" (("cfg", cfg') :: serviceParams command user cfg)
    cfg := cfg'
    vars := [.string "", .number "1" true, .string user, .string command, .string "cronolog"] }

theorem prepare_serviceParams {command user : String} {cfg : List (String × Value)}
    (hcommand : isFalse command = false) (huser : isFalse user = false) :
    prepare someAddresses (serviceParams command user cfg) =
      .ok (servicePrepared command user cfg) := by
  have hname : isFalse "worker" = false := by decide
  have hlog : isFalse "cronolog" = false := by decide
  have hempty : isFalse "" = true := by decide
  simp [prepare, serviceParams, servicePrepared, logCommand, Assoc.lookup_cons_eq, Value.isTrue,
    hname, hlog, hcommand, huser, Value.fetch, Value.store, someAddresses]
  rfl

/-- The letter is the token `user`, or another character than `{`. -/
def plain : Letter → Bool
  | .token name => name = "user".toList
  | .char c => c ≠ '{'

theorem word_user {replace : List Char → Except String (List Char)}
    (huser : replace "user".toList = .ok "%{user}".toList) :
    word replace (.token "user".toList) = [.token "user".toList] := by
  have hvalue : valueOf replace "user".toList = "%{user}".toList := by
    rw [valueOf, huser]
    rfl
  rw [word, Letter.word, hvalue]
  decide

/-- The letters that are plain lead to plain letters. -/
theorem plain_of_reaches {replace : List Char → Except String (List Char)}
    (huser : replace "user".toList = .ok "%{user}".toList) {text : List Char}
    (htext : (letters text).all plain = true) {x : Letter}
    (hx : Reaches (word replace) (letters text) x) : plain x = true := by
  induction hx with
  | here hmem => exact List.all_eq_true.mp htext _ hmem
  | @next x y _ hmem ih =>
      cases x with
      | char c =>
          cases List.mem_singleton.mp hmem
          exact ih
      | token name =>
          obtain rfl : name = "user".toList := of_decide_eq_true ih
          rw [word_user huser] at hmem
          cases List.mem_singleton.mp hmem
          exact ih

theorem settled_of_plain {replace : List Char → Except String (List Char)}
    (huser : replace "user".toList = .ok "%{user}".toList) {text : List Char}
    (htext : (letters text).all plain = true) : Settled replace text := by
  intro name hname
  obtain rfl : name = "user".toList := of_decide_eq_true (List.all_eq_true.mp htext _ hname)
  exact .keeper ⟨[], [], word_user huser, nofun, nofun⟩

theorem settledUntil_of_forall {replace : List Char → Except String (List Char)}
    {texts : List (List Char)} (h : ∀ text ∈ texts, Settled replace text) :
    SettledUntil replace texts := by
  induction texts with
  | nil => trivial
  | cons text rest ih =>
      exact .inr ⟨h text List.mem_cons_self, ih fun t ht => h t (List.mem_cons_of_mem text ht)⟩

theorem uncutUntil_of_forall {replace : List Char → Except String (List Char)}
    {texts : List (List Char)} (h : ∀ text ∈ texts, Uncut replace text) :
    UncutUntil replace texts := by
  induction texts with
  | nil => trivial
  | cons text rest ih =>
      exact ⟨h text List.mem_cons_self, .inr (ih fun t ht => h t (List.mem_cons_of_mem text ht))⟩

/-- The user is the token `user` itself, as in a test of the builder. -/
theorem newFromSpec_user : ∃ fuel r, newFromSpec someAddresses
    (serviceParams "worker -u %{user}" "%{user}" []) fuel = some r := by
  have hprepare : prepare someAddresses (serviceParams "worker -u %{user}" "%{user}" []) =
      .ok (servicePrepared "worker -u %{user}" "%{user}" []) :=
    prepare_serviceParams (by decide) (by decide)
  have huser : replacement (servicePrepared "worker -u %{user}" "%{user}" []).spec
      (servicePrepared "worker -u %{user}" "%{user}" []).cfg "user".toList =
        .ok "%{user}".toList := by rfl
  have htexts : (servicePrepared "worker -u %{user}" "%{user}" []).texts.all
      (fun t => (letters t).all plain) = true := by
    decide
  refine (newFromSpec_ends_iff _ _).1.mpr (((newFromSpec_ends_iff _ _).2 ?_).mpr ?_)
  · intro p hp
    rw [hprepare] at hp
    cases hp
    exact uncutUntil_of_forall fun text htext => .inr fun hbrace => absurd
      (plain_of_reaches huser (List.all_eq_true.mp htexts text htext) hbrace) (by decide)
  · intro p hp
    rw [hprepare] at hp
    cases hp
    exact settledUntil_of_forall fun text htext =>
      settled_of_plain huser (List.all_eq_true.mp htexts text htext)

/-- The value of each of two variables is the token of the other. -/
def crossed : List (String × Value) :=
  [("a", .string "%{b}"), ("b", .string "%{a}")]

/-- A loop that does not end comes after variables without tokens. -/
theorem substituteAll_eq_none {replace : List Char → Except String (List Char)} {fuel : ℕ}
    {texts rest : List (List Char)} {text : List Char}
    (htexts : texts.all (fun t => ! (letters t).any Letter.isToken) = true)
    (hnone : loop replace fuel text text = none) :
    substituteAll replace fuel (texts ++ text :: rest) = none := by
  induction texts with
  | nil =>
      rw [List.nil_append, substituteAll, hnone]
  | cons t texts ih =>
      rw [List.all_cons, Bool.and_eq_true, Bool.not_eq_true'] at htexts
      rw [List.cons_append, substituteAll]
      cases fuel with
      | zero => rfl
      | succ fuel =>
          rw [loop, htexts.1, if_neg Bool.false_ne_true, ih htexts.2]
          rfl

/-- A round of a text that is one token. -/
theorem loop_of_token {replace : List Char → Except String (List Char)}
    {text name v : List Char} (hletters : letters text = [.token name])
    (hv : replace name = .ok v) (hne : text ≠ v) (fuel : ℕ) :
    loop replace (fuel + 1) text text = loop replace fuel v v := by
  have hw : substitute replace [.token name] = .ok v := by
    rw [substitute, hv]
    simp [substitute, pure, Except.pure, bind, Except.bind]
  have hany : [Letter.token name].any Letter.isToken = true := rfl
  rw [loop, hletters, if_pos hany, hw]
  exact if_neg hne

theorem loop_crossed {replace : List Char → Except String (List Char)}
    (ha : replace ['a'] = .ok "%{b}".toList) (hb : replace ['b'] = .ok "%{a}".toList)
    (fuel : ℕ) : loop replace fuel "%{a}".toList "%{a}".toList = none ∧
      loop replace fuel "%{b}".toList "%{b}".toList = none := by
  have hla : letters "%{a}".toList = [.token ['a']] := by decide
  have hlb : letters "%{b}".toList = [.token ['b']] := by decide
  induction fuel with
  | zero => exact ⟨rfl, rfl⟩
  | succ fuel ih =>
      constructor
      · rw [loop_of_token hla ha (by decide)]
        exact ih.2
      · rw [loop_of_token hlb hb (by decide)]
        exact ih.1

/-- The loop over the command goes on forever. -/
theorem not_newFromSpec_ends : ¬ ∃ fuel r, newFromSpec someAddresses
    (serviceParams "%{a}" "root" crossed) fuel = some r := by
  rintro ⟨fuel, r, h⟩
  rw [newFromSpec, prepare_serviceParams (by decide) (by decide)] at h
  have ha : replacement (servicePrepared "%{a}" "root" crossed).spec
      (servicePrepared "%{a}" "root" crossed).cfg ['a'] = .ok "%{b}".toList := by rfl
  have hb : replacement (servicePrepared "%{a}" "root" crossed).spec
      (servicePrepared "%{a}" "root" crossed).cfg ['b'] = .ok "%{a}".toList := by rfl
  have htexts : (servicePrepared "%{a}" "root" crossed).texts =
      [[], ['1'], "root".toList] ++ "%{a}".toList :: ["cronolog".toList] := by rfl
  have hplain : [[], ['1'], "root".toList].all
      (fun t => ! (letters t).any Letter.isToken) = true := by decide
  dsimp only at h
  rw [htexts, substituteAll_eq_none hplain (loop_crossed ha hb fuel).1] at h
  cases h

end Services

end Service

end Gearbox
