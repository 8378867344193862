import Mathlib

/-!
# Shell quoting

`shellquote_list` writes a list of words as a text for the shell. A word of neutral characters
stands for itself. Every other word is put in single quotes, and a single quote in it is replaced
by a sequence that leaves the quotes, has a single quote in double quotes, and enters the quotes
again.

`splitWords` is what the shell makes of a text without expansions: blanks separate the words, and
both kinds of quotes and the backslash quote what is special. A text with an operator outside of
quotes is not a list of words.
-/

namespace Gearbox

namespace Shell

section Source

/-- `NEUTRALS` -/
def neutrals : List Char :=
  "+,-./0123456789=ABCDEFGHIJKLMNOPQRSTUVWXYZ_abcdefghijklmnopqrstuvwxyz".toList

/-- `SQUOTE` -/
def squote : Char :=
  '\''

/-- `SQUOTE_REPLACEMENT` -/
def squoteReplacement : List Char :=
  [squote, '"', squote, '"', squote]

/-- `std::string::find` for a character, from a position on. -/
def find (w : List Char) (c : Char) (pos : ℕ) : Option ℕ :=
  ((w.drop pos).findIdx? (· = c)).map (pos + ·)

theorem find_eq_some {w : List Char} {c : Char} {pos pos2 : ℕ} (h : find w c pos = some pos2) :
    ∃ mid rest, w.drop pos = mid ++ c :: rest ∧ c ∉ mid ∧ pos2 = pos + mid.length := by
  obtain ⟨i, hi, rfl⟩ := Option.map_eq_some_iff.mp h
  obtain ⟨hlt, hc, hbefore⟩ := List.findIdx?_eq_some_iff_getElem.mp hi
  refine ⟨(w.drop pos).take i, (w.drop pos).drop (i + 1), ?_, ?_, ?_⟩
  · have hget : (w.drop pos)[i] = c := by simpa using hc
    rw [← hget, List.getElem_cons_drop, List.take_append_drop]
  · intro hmem
    obtain ⟨j, hj, hget⟩ := List.mem_iff_getElem.mp hmem
    have hji : j < i := Nat.lt_of_lt_of_le hj (List.length_take_le _ _)
    rw [List.getElem_take] at hget
    exact hbefore j hji (by simpa using hget)
  · rw [List.length_take_of_le (Nat.le_of_lt hlt)]

theorem find_eq_none {w : List Char} {c : Char} {pos : ℕ} (h : find w c pos = none) :
    c ∉ w.drop pos := by
  have hnone := List.findIdx?_eq_none_iff.mp (Option.map_eq_none_iff.mp h)
  intro hmem
  simpa using hnone c hmem

theorem find_lt {w : List Char} {c : Char} {pos pos2 : ℕ} (h : find w c pos = some pos2) :
    pos ≤ pos2 ∧ pos2 < w.length := by
  obtain ⟨mid, rest, hdrop, -, rfl⟩ := find_eq_some h
  have hlength := congrArg List.length hdrop
  rw [List.length_drop, List.length_append, List.length_cons] at hlength
  omega

/-- The loop over the other single quotes of a word, after the one at `pos`. -/
def replaceLoop (w : List Char) (pos : ℕ) (w2 : List Char) : List Char :=
  match _h : find w squote (pos + 1) with
  | some pos2 =>
    replaceLoop w pos2
      (w2 ++ (w.drop (pos + 1)).take (pos2 - (pos + 1)) ++ squoteReplacement)
  | none => w2 ++ w.drop (pos + 1)
termination_by w.length - pos
decreasing_by
  have hlt := find_lt _h
  omega

/-- The body of the loop of `shellquote_list`: what is appended for a word. -/
def quoteWord (w : List Char) : List Char :=
  if w = [] ∨ ∃ c ∈ w, c ∉ neutrals then
    match find w squote 0 with
    | some pos => [squote] ++ replaceLoop w pos (w.take pos ++ squoteReplacement) ++ [squote]
    | none => [squote] ++ w ++ [squote]
  else
    w

/-- `shellquote_list` -/
def shellquoteList (words : List (List Char)) : List Char :=
  words.foldl (fun res w => (if res = [] then res else res ++ [' ']) ++ quoteWord w) []

end Source

section Words

/-- How the next character is quoted. -/
inductive Quoting where
  | bare
  | single
  | double

/-- A character that separates words. -/
def isBlank (c : Char) : Bool :=
  c = ' ' ∨ c = '\t'

/-- A character that is an operator or the beginning of one. -/
def isOperator (c : Char) : Bool :=
  c ∈ ['|', '&', ';', '<', '>', '(', ')', '\n']

/-- A character that a backslash quotes inside of double quotes. -/
def isSpecial (c : Char) : Bool :=
  c ∈ ['$', '`', '"', '\\']

/-- The words of a text, where `word` is the word that has begun. -/
def scan : Quoting → Option (List Char) → List Char → Option (List (List Char))
  | .bare, word, [] => some word.toList
  | .bare, word, c :: rest =>
    if isBlank c then (scan .bare none rest).map (word.toList ++ ·)
    else if c = squote then scan .single (some (word.getD [])) rest
    else if c = '"' then scan .double (some (word.getD [])) rest
    else if c = '\\' then
      match rest with
      | [] => none
      | d :: rest => scan .bare (if d = '\n' then word else some (word.getD [] ++ [d])) rest
    else if isOperator c then none
    else scan .bare (some (word.getD [] ++ [c])) rest
  | .single, _, [] => none
  | .single, word, c :: rest =>
    if c = squote then scan .bare word rest
    else scan .single (some (word.getD [] ++ [c])) rest
  | .double, _, [] => none
  | .double, word, c :: rest =>
    if c = '"' then scan .bare word rest
    else if c = '\\' then
      match rest with
      | [] => none
      | d :: rest =>
        if d = '\n' then scan .double word rest
        else if isSpecial d then scan .double (some (word.getD [] ++ [d])) rest
        else scan .double (some (word.getD [] ++ ['\\', d])) rest
    else scan .double (some (word.getD [] ++ [c])) rest

/-- The words of a text after the removal of the quotes, if the text is a list of words. -/
def splitWords (text : List Char) : Option (List (List Char)) :=
  scan .bare none text

end Words

section RoundTrip

/-- What is written for a character inside of single quotes. -/
def escape (c : Char) : List Char :=
  if c = squote then squoteReplacement else [c]

theorem flatMap_escape {w : List Char} (h : squote ∉ w) : w.flatMap escape = w := by
  induction w with
  | nil => rfl
  | cons c rest ih =>
      obtain ⟨hc, hrest⟩ := not_or.mp fun hmem => h (List.mem_cons.mpr hmem)
      rw [List.flatMap_cons, ih hrest, escape, if_neg fun heq => hc heq.symm]
      rfl

theorem flatMap_escape_cut {w mid rest : List Char} (hmid : squote ∉ mid)
    (hw : w = mid ++ squote :: rest) :
    w.flatMap escape = mid ++ squoteReplacement ++ rest.flatMap escape := by
  rw [hw, List.flatMap_append, flatMap_escape hmid, List.flatMap_cons, escape, if_pos rfl,
    List.append_assoc]

/-- The loop replaces the single quotes after the position. -/
theorem replaceLoop_eq (w : List Char) (pos : ℕ) (w2 : List Char) :
    replaceLoop w pos w2 = w2 ++ (w.drop (pos + 1)).flatMap escape := by
  induction pos, w2 using replaceLoop.induct w with
  | case1 pos w2 pos2 hfind ih =>
      obtain ⟨mid, rest, hdrop, hmid, rfl⟩ := find_eq_some hfind
      have hrest : w.drop (pos + 1 + mid.length + 1) = rest := by
        rw [Nat.add_assoc, ← List.drop_drop, hdrop]
        simp
      have htake : (w.drop (pos + 1)).take (pos + 1 + mid.length - (pos + 1)) = mid := by
        rw [Nat.add_sub_cancel_left, hdrop]
        simp
      rw [replaceLoop, hfind]
      dsimp only
      rw [ih, hrest, htake, flatMap_escape_cut hmid hdrop]
      simp only [List.append_assoc]
  | case2 pos w2 hfind =>
      rw [replaceLoop, hfind]
      dsimp only
      rw [flatMap_escape (find_eq_none hfind)]

/-- A word that is not neutral is in quotes. -/
theorem quoteWord_of_special {w : List Char} (h : w = [] ∨ ∃ c ∈ w, c ∉ neutrals) :
    quoteWord w = squote :: (w.flatMap escape ++ [squote]) := by
  rw [quoteWord, if_pos h]
  cases hfind : find w squote 0 with
  | none =>
      have hnone : squote ∉ w := find_eq_none hfind
      rw [flatMap_escape hnone]
      rfl
  | some pos =>
      obtain ⟨mid, rest, hw, hmid, rfl⟩ := find_eq_some hfind
      have hw' : w = mid ++ squote :: rest := hw
      have htake : w.take (0 + mid.length) = mid := by
        rw [hw']
        simp
      have hdrop : w.drop (0 + mid.length + 1) = rest := by
        rw [hw']
        simp
      dsimp only
      rw [replaceLoop_eq, htake, hdrop, flatMap_escape_cut hmid hw']
      rfl

theorem quoteWord_of_neutral {w : List Char} (h : ¬ (w = [] ∨ ∃ c ∈ w, c ∉ neutrals)) :
    quoteWord w = w :=
  if_neg h

theorem scan_single (word : List Char) (c : Char) (rest : List Char) :
    scan .single (some word) (c :: rest) =
      if c = squote then scan .bare (some word) rest
      else scan .single (some (word ++ [c])) rest := by
  rw [scan]
  rfl

theorem scan_bare_squote (word : Option (List Char)) (rest : List Char) :
    scan .bare word (squote :: rest) = scan .single (some (word.getD [])) rest := by
  rw [scan.eq_def]
  rfl

/-- A single quote between double quotes. -/
theorem scan_bare_dquoted (word rest : List Char) :
    scan .bare (some word) ('"' :: squote :: '"' :: rest) =
      scan .bare (some (word ++ [squote])) rest := by
  rw [scan.eq_def]
  dsimp only
  rw [if_neg (by decide), if_neg (by decide), if_pos rfl, scan.eq_def]
  dsimp only
  rw [if_neg (by decide), if_neg (by decide), scan.eq_def]
  rfl

theorem scan_bare_blank (word : Option (List Char)) (rest : List Char) :
    scan .bare word (' ' :: rest) = (scan .bare none rest).map (word.toList ++ ·) := by
  rw [scan.eq_def]
  rfl

theorem scan_bare_neutral {c : Char} (hc : c ∈ neutrals) (word : Option (List Char))
    (rest : List Char) :
    scan .bare word (c :: rest) = scan .bare (some (word.getD [] ++ [c])) rest := by
  have hplain : ∀ c ∈ neutrals, isBlank c = false ∧ c ≠ squote ∧ c ≠ '"' ∧ c ≠ '\\' ∧
      isOperator c = false := List.forall_iff_forall_mem.mp (by decide)
  obtain ⟨hblank, hsquote, hdquote, hbackslash, hoperator⟩ := hplain c hc
  rw [scan.eq_def]
  dsimp only
  rw [if_neg (by simp [hblank]), if_neg hsquote, if_neg hdquote, if_neg hbackslash,
    if_neg (by simp [hoperator])]

/-- What is inside of single quotes is read back. -/
theorem scan_escape (w word rest : List Char) :
    scan .single (some word) (w.flatMap escape ++ squote :: rest) =
      scan .bare (some (word ++ w)) rest := by
  induction w generalizing word with
  | nil => rw [List.flatMap_nil, List.nil_append, scan_single, if_pos rfl, List.append_nil]
  | cons c w ih =>
      have hassoc : word ++ c :: w = word ++ [c] ++ w := by simp
      rw [List.flatMap_cons, escape, hassoc, ← ih, List.append_assoc]
      by_cases hc : c = squote
      · subst hc
        rw [if_pos rfl, squoteReplacement, List.cons_append, scan_single, if_pos rfl]
        simp only [List.cons_append, List.nil_append]
        rw [scan_bare_dquoted, scan_bare_squote]
        rfl
      · rw [if_neg hc, List.singleton_append, scan_single, if_neg hc]

theorem scan_neutral {w : List Char} (h : ∀ c ∈ w, c ∈ neutrals) (word rest : List Char) :
    scan .bare (some word) (w ++ rest) = scan .bare (some (word ++ w)) rest := by
  induction w generalizing word with
  | nil => rw [List.nil_append, List.append_nil]
  | cons c w ih =>
      have hassoc : word ++ c :: w = word ++ [c] ++ w := by simp
      rw [hassoc, ← ih fun d hd => h d (List.mem_cons_of_mem c hd), List.cons_append,
        scan_bare_neutral (h c List.mem_cons_self)]
      rfl

/-- A word is read back. -/
theorem scan_quoteWord (w rest : List Char) :
    scan .bare none (quoteWord w ++ rest) = scan .bare (some w) rest := by
  by_cases hspecial : w = [] ∨ ∃ c ∈ w, c ∉ neutrals
  · rw [quoteWord_of_special hspecial, List.cons_append, List.append_assoc, scan_bare_squote]
    exact scan_escape w [] rest
  · obtain ⟨hne, hneutral⟩ := not_or.mp hspecial
    obtain ⟨c, w', rfl⟩ := List.exists_cons_of_ne_nil hne
    have hall : ∀ d ∈ c :: w', d ∈ neutrals := by
      intro d hd
      by_contra hd'
      exact hneutral ⟨d, hd, hd'⟩
    rw [quoteWord_of_neutral hspecial, List.cons_append,
      scan_bare_neutral (hall c List.mem_cons_self)]
    exact scan_neutral (fun d hd => hall d (List.mem_cons_of_mem c hd)) [c] rest

theorem quoteWord_ne_nil (w : List Char) : quoteWord w ≠ [] := by
  by_cases hspecial : w = [] ∨ ∃ c ∈ w, c ∉ neutrals
  · rw [quoteWord_of_special hspecial]
    exact List.cons_ne_nil _ _
  · rw [quoteWord_of_neutral hspecial]
    exact (not_or.mp hspecial).1

/-- The loop over the words, when there is a text already. -/
theorem foldl_quoteWord (words : List (List Char)) {res : List Char} (hres : res ≠ []) :
    words.foldl (fun res w => (if res = [] then res else res ++ [' ']) ++ quoteWord w) res =
      res ++ words.flatMap fun w => ' ' :: quoteWord w := by
  induction words generalizing res with
  | nil => rw [List.foldl_nil, List.flatMap_nil, List.append_nil]
  | cons w words ih =>
      have hnext : res ++ [' '] ++ quoteWord w ≠ [] := by simp
      rw [List.foldl_cons, if_neg hres, ih hnext, List.flatMap_cons]
      simp

theorem shellquoteList_cons (w : List Char) (words : List (List Char)) :
    shellquoteList (w :: words) =
      quoteWord w ++ words.flatMap fun w => ' ' :: quoteWord w := by
  rw [shellquoteList, List.foldl_cons, if_pos rfl, List.nil_append,
    foldl_quoteWord words (quoteWord_ne_nil w)]

theorem scan_words (words : List (List Char)) (w : List Char) :
    scan .bare (some w) (words.flatMap fun w => ' ' :: quoteWord w) = some (w :: words) := by
  induction words generalizing w with
  | nil => rfl
  | cons w' words ih =>
      rw [List.flatMap_cons, List.cons_append, scan_bare_blank, scan_quoteWord, ih]
      rfl

/-- The shell reads back the words. -/
theorem splitWords_shellquoteList (words : List (List Char)) :
    splitWords (shellquoteList words) = some words := by
  cases words with
  | nil => rfl
  | cons w words =>
      rw [splitWords, shellquoteList_cons, scan_quoteWord]
      exact scan_words words w

end RoundTrip

end Shell

end Gearbox
