/-!
# White space at the ends of a line

* `isWhiteSpace` — the characters with the Unicode property White_Space.
* `trim` — a text without the white space at its two ends.
* `Trimmed` — what it means to be that text. `trimmed_trim` and `Trimmed.eq_trim` say that
  there is exactly one, the one that `trim` gives.
-/

namespace Abacus.Text

/-- The first and last code point of each run of White_Space characters. -/
def whiteSpaceRanges : List (Nat × Nat) :=
  [(0x0009, 0x000D), (0x0020, 0x0020), (0x0085, 0x0085), (0x00A0, 0x00A0), (0x1680, 0x1680),
    (0x2000, 0x200A), (0x2028, 0x2029), (0x202F, 0x202F), (0x205F, 0x205F), (0x3000, 0x3000)]

/-- The characters with the property White_Space, 25 in number. -/
def isWhiteSpace (c : Char) : Bool :=
  whiteSpaceRanges.any fun range => range.1 ≤ c.toNat && c.toNat ≤ range.2

/-- The characters without the white space they begin with. -/
def trimStart (cs : List Char) : List Char := cs.dropWhile isWhiteSpace

/-- The characters without the white space they end with. -/
def trimEnd (cs : List Char) : List Char := (trimStart cs.reverse).reverse

/-- The text without the white space at its two ends. -/
def trim (text : String) : String := String.ofList (trimEnd (trimStart text.toList))

/-- The text is `core` with white space in front of it and behind it, and `core` itself neither
starts nor ends with white space. -/
structure Trimmed (text core : String) : Prop where
  exists_ends : ∃ front back, text.toList = front ++ (core.toList ++ back) ∧
    (∀ c ∈ front, isWhiteSpace c) ∧ ∀ c ∈ back, isWhiteSpace c
  head : ∀ c ∈ core.toList.head?, ¬ isWhiteSpace c
  last : ∀ c ∈ core.toList.getLast?, ¬ isWhiteSpace c

section

variable {cs front back : List Char}

theorem trimStart_append (h : ∀ c ∈ front, isWhiteSpace c) :
    trimStart (front ++ cs) = trimStart cs :=
  List.dropWhile_append_of_pos h

theorem trimStart_eq_nil (h : ∀ c ∈ cs, isWhiteSpace c) : trimStart cs = [] := by
  rw [← List.append_nil cs, trimStart_append h]
  rfl

theorem trimStart_eq_self (h : ∀ c ∈ cs.head?, ¬ isWhiteSpace c) : trimStart cs = cs := by
  cases cs with
  | nil => rfl
  | cons c cs => exact List.dropWhile_cons_of_neg (h c rfl)

theorem trimEnd_append (h : ∀ c ∈ back, isWhiteSpace c) : trimEnd (cs ++ back) = trimEnd cs := by
  rw [trimEnd, List.reverse_append, trimStart_append (by simpa using h), ← trimEnd]

theorem trimEnd_eq_self (h : ∀ c ∈ cs.getLast?, ¬ isWhiteSpace c) : trimEnd cs = cs := by
  rw [trimEnd, trimStart_eq_self (by simpa using h), List.reverse_reverse]

theorem not_isWhiteSpace_of_head_trimStart (cs : List Char) :
    ∀ c ∈ (trimStart cs).head?, ¬ isWhiteSpace c := by
  intro c hc
  have hhead := List.head?_dropWhile_not isWhiteSpace cs
  rw [← trimStart, Option.mem_def.mp hc] at hhead
  simpa using hhead

theorem exists_eq_append_trimStart (cs : List Char) :
    ∃ front, cs = front ++ trimStart cs ∧ ∀ c ∈ front, isWhiteSpace c :=
  ⟨cs.takeWhile isWhiteSpace, List.takeWhile_append_dropWhile.symm,
    List.all_eq_true.mp List.all_takeWhile⟩

theorem exists_eq_trimEnd_append (cs : List Char) :
    ∃ back, cs = trimEnd cs ++ back ∧ ∀ c ∈ back, isWhiteSpace c := by
  obtain ⟨front, hfront, hblank⟩ := exists_eq_append_trimStart cs.reverse
  refine ⟨front.reverse, ?_, by simpa using hblank⟩
  rw [trimEnd, ← List.reverse_append, ← hfront, List.reverse_reverse]

end

/-- `trim` gives the text without the white space at its two ends. -/
theorem trimmed_trim (text : String) : Trimmed text (trim text) := by
  obtain ⟨front, hfront, hblank⟩ := exists_eq_append_trimStart text.toList
  obtain ⟨back, hback, hblank'⟩ := exists_eq_trimEnd_append (trimStart text.toList)
  have hhead := not_isWhiteSpace_of_head_trimStart text.toList
  have hlast := not_isWhiteSpace_of_head_trimStart (trimStart text.toList).reverse
  refine ⟨⟨front, back, ?_, hblank, hblank'⟩, ?_, ?_⟩
  · rw [trim, String.toList_ofList, ← hback, ← hfront]
  · -- What starts the core starts what was left of the text.
    intro c hc
    rw [trim, String.toList_ofList, Option.mem_def] at hc
    refine hhead c ?_
    rw [hback, List.head?_append, hc]
    rfl
  · rwa [trim, String.toList_ofList, trimEnd, List.getLast?_reverse]

/-- There is one way only to take the white space off the ends of a text. -/
theorem Trimmed.eq_trim {text core : String} (h : Trimmed text core) : core = trim text := by
  obtain ⟨front, back, htext, hfront, hback⟩ := h.exists_ends
  have hcore : trimEnd (trimStart text.toList) = core.toList := by
    rw [htext, trimStart_append hfront]
    have hlast := trimEnd_eq_self h.last
    rcases hlist : core.toList with _ | ⟨c, cs⟩
    · rw [List.nil_append, trimStart_eq_nil hback]
      rfl
    · have hhead : ∀ d ∈ (c :: cs ++ back).head?, ¬ isWhiteSpace d := by
        have hfirst := h.head
        rwa [hlist] at hfirst
      rw [trimStart_eq_self hhead, trimEnd_append hback, ← hlist, hlast]
  rw [trim, hcore, String.ofList_toList]

/-- White space put behind a text does not change what is left of it. -/
theorem Trimmed.append {text core : String} (h : Trimmed text core) {blanks : List Char}
    (hblanks : ∀ c ∈ blanks, isWhiteSpace c) : Trimmed (text ++ .ofList blanks) core := by
  obtain ⟨front, back, htext, hfront, hback⟩ := h.exists_ends
  refine ⟨⟨front, back ++ blanks, by simp [htext], hfront, ?_⟩, h.head, h.last⟩
  intro c hc
  exact (List.mem_append.mp hc).elim (hback c) (hblanks c)

end Abacus.Text
