import Abacus.CommandLine.Settings

/-!
# Flags in clusters

* `Invocation.cluster` — some letters as one argument.
* `Settings.withLetters` — settings with the flags of some letters added.
* `Settings.Admits` — the letters ask for what may still be asked for.
* `Invocation.setFlag_of_admits`, `Invocation.setLetters_of_admits` — one letter, and one
  cluster of letters.
* `Invocation.addArguments_clusters` — clusters of letters add the flags of all their letters,
  however these are divided among them.
* `Invocation.AreFlags` — tokens, trees and the log are asked for, and nothing else.
-/

namespace Abacus

namespace Settings

/-- The settings with the flags of some letters added: `t` for tokens, `a` for trees and `v`
for more of the log. -/
def withLetters (settings : Settings) (letters : List Char) : Settings :=
  { settings with
    tokens := settings.tokens || letters.contains 't'
    tree := settings.tree || letters.contains 'a'
    verbosity := settings.verbosity + letters.count 'v' }

/-- After these settings the letters may be given: all of them stand for tokens, trees or the
log, and only the log is asked for more than once. -/
structure Admits (settings : Settings) (letters : List Char) : Prop where
  mem : ∀ letter ∈ letters, letter ∈ ['t', 'a', 'v']
  tokens : settings.tokens.toNat + letters.count 't' ≤ 1
  tree : settings.tree.toNat + letters.count 'a' ≤ 1

variable {settings : Settings} {letters rest : List Char}

@[simp] theorem withLetters_nil : settings.withLetters [] = settings := by
  simp [withLetters]

theorem withLetters_append : settings.withLetters (letters ++ rest) =
    (settings.withLetters letters).withLetters rest := by
  simp [withLetters, Bool.or_assoc, Nat.add_assoc]

theorem Admits.ne_hyphen (h : settings.Admits letters) : ∀ letter ∈ letters, letter ≠ '-' := by
  rintro letter hletter rfl
  exact absurd (h.mem '-' hletter) (by decide)

/-- Where some letters may be given, so may those in front. -/
theorem Admits.left (h : settings.Admits (letters ++ rest)) : settings.Admits letters := by
  obtain ⟨hmem, htokens, htree⟩ := h
  rw [List.count_append] at htokens htree
  exact ⟨fun letter hletter => hmem letter (List.mem_append_left rest hletter), by omega, by omega⟩

/-- When the first of the letters have been given, the rest of them may be. -/
theorem Admits.right (h : settings.Admits (letters ++ rest)) :
    (settings.withLetters letters).Admits rest := by
  have hasked (asked : Bool) (letter : Char) :
      (asked || letters.contains letter).toNat ≤ asked.toNat + letters.count letter := by
    rcases hcontains : letters.contains letter with _ | _
    · simp
    · have hmem : letter ∈ letters := by simpa using hcontains
      have hpos := List.count_pos_iff.mpr hmem
      simp only [Bool.or_true, Bool.toNat_true]
      omega
  obtain ⟨hmem, htokens, htree⟩ := h
  rw [List.count_append] at htokens htree
  have htokens' := hasked settings.tokens 't'
  have htree' := hasked settings.tree 'a'
  refine ⟨fun letter hletter => hmem letter (List.mem_append_right letters hletter), ?_, ?_⟩
  · simp only [withLetters]
    omega
  · simp only [withLetters]
    omega

end Settings

namespace Invocation

variable {settings : Settings} {letter : Char} {letters : List Char}

/-- Letters as one argument, such as `-tv`. -/
def cluster (letters : List Char) : String := String.ofList ('-' :: letters)

/-- A letter that may be given adds its flag. -/
theorem setFlag_of_admits (h : settings.Admits [letter]) :
    ∃ flag, Flag.ofLetter? letter = some flag ∧
      setFlag settings flag = .ok (settings.withLetters [letter]) := by
  obtain ⟨hmem, htokens, htree⟩ := h
  have hletter : letter = 't' ∨ letter = 'a' ∨ letter = 'v' := by simpa using hmem
  rcases hletter with rfl | rfl | rfl
  · have hfirst : settings.tokens = false := by simpa using htokens
    exact ⟨.tokens, rfl, by simp [setFlag, Settings.withLetters, hfirst]⟩
  · have hfirst : settings.tree = false := by simpa using htree
    exact ⟨.tree, rfl, by simp [setFlag, Settings.withLetters, hfirst]⟩
  · exact ⟨.verbose, rfl, by simp [setFlag, Settings.withLetters]⟩

/-- A cluster adds the flags of its letters. -/
theorem setLetters_of_admits (h : settings.Admits letters) :
    setLetters settings letters = .ok (settings.withLetters letters) := by
  induction letters generalizing settings with
  | nil => simp [setLetters]
  | cons letter letters ih =>
    have hsplit : settings.Admits ([letter] ++ letters) := h
    obtain ⟨flag, hflag, hset⟩ := setFlag_of_admits hsplit.left
    simp only [setLetters, hflag, hset]
    rw [ih hsplit.right, ← Settings.withLetters_append]
    rfl

/-- A cluster that is given as an argument adds the flags of its letters. -/
theorem setArgument_cluster (hne : letters ≠ []) (h : settings.Admits letters) :
    setArgument settings (cluster letters) = .ok (settings.withLetters letters) := by
  rcases letters with _ | ⟨letter, letters⟩
  · exact absurd rfl hne
  · have hletter : letter ≠ '-' := h.ne_hyphen letter (List.mem_cons_self ..)
    rw [← setLetters_of_admits h, setArgument, cluster, String.toList_ofList]
    -- The argument is a hyphen and a letter, so it is no word.
    split <;> simp_all

/-- Clusters add the flags of all their letters. -/
theorem addArguments_clusters {clusters : List (List Char)}
    (hne : ∀ letters ∈ clusters, letters ≠ []) (h : settings.Admits clusters.flatten)
    (arguments : List String) :
    addArguments true settings (clusters.map cluster ++ arguments) =
      addArguments true (settings.withLetters clusters.flatten) arguments := by
  induction clusters generalizing settings with
  | nil => simp
  | cons letters clusters ih =>
    have hset := setArgument_cluster (hne letters (List.mem_cons_self ..)) h.left
    have hdashes : cluster letters ≠ "--" := by
      intro hsame
      have hletters : letters = ['-'] := by
        simpa [cluster] using congrArg String.toList hsame
      exact h.ne_hyphen '-' (by simp [hletters]) rfl
    rw [List.map_cons, List.cons_append, addArguments]
    simp only [hdashes, decide_false, Bool.and_false, Bool.false_eq_true, if_false, if_true, hset]
    rw [ih (fun letters hletters => hne letters (List.mem_cons_of_mem _ hletters)) h.right,
      List.flatten_cons, Settings.withLetters_append]

/-- Arguments that ask for tokens, trees and the log in any combination: clusters of the
letters `t`, `a` and `v`, of which only the last may come more than once. -/
structure AreFlags (clusters : List (List Char)) : Prop where
  ne_nil : ∀ letters ∈ clusters, letters ≠ []
  mem : ∀ letter ∈ clusters.flatten, letter ∈ ['t', 'a', 'v']
  tokens_once : clusters.flatten.count 't' ≤ 1
  tree_once : clusters.flatten.count 'a' ≤ 1

/-- Arguments that ask for tokens, trees and the log leave everything else open. -/
theorem AreFlags.ofArguments {clusters : List (List Char)} (h : AreFlags clusters)
    (arguments : List String) :
    ofArguments (clusters.map cluster ++ arguments) =
      addArguments true (Settings.default.withLetters clusters.flatten) arguments := by
  have hadmits : Settings.default.Admits clusters.flatten := by
    refine ⟨h.mem, ?_, ?_⟩
    · simpa [Settings.default] using h.tokens_once
    · simpa [Settings.default] using h.tree_once
  exact addArguments_clusters h.ne_nil hadmits arguments

end Invocation

end Abacus
